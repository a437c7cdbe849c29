import ZludaPtx.Resolver
import ZludaPtx.ForStd.Repr
import Mathlib.Data.List.Nodup

/-!
# `normalize_identifiers2`: interning every symbol of a module

The pass walks the parsed directives in order and replaces every source name by the identifier
the scoped resolver gives it.  A device function's name is interned in the module scope with
`add_or_get_in_current_scope_untyped`, so a declaration and a later definition share one
identifier; each method opens a scope for its arguments and top-level body; each statement list
first declares all of its labels (the label pre-pass), so that a branch may name a label defined
further down; a nested block runs the same in a scope of its own; and a `%r<N>` declaration
expands into the variables `%r0 … %r(N-1)`.

The definitions follow `normalize_identifiers2.rs` function by function.  The Rust code pushes
onto an output vector `result`; here each function returns the statements it pushes.  The main
pass and the single statement are mutually recursive over the nested blocks, with the block
case running the pre-pass and the main pass of the block between `start_scope` and `end_scope`
(`runStatement_block`).

## Key results

- `mapM_add_eq_ok`: declaring a list of distinct names one after another
- `runMultivariable_eq_ok` / `runMultivariable_eq_error`: the expansion of a declaration
- `addLabels_eq_ok`: the label pre-pass
- `runInstruction_eq_ok`: operand renaming leaves the resolver unchanged
- `runStatementsMain_extends`: the main pass leaves the enclosing scopes alone and only adds the
  list's own variables, under fresh names, to the current scope
-/

namespace ZludaPtx.NormalizeIdentifiers

open ScopedResolver

/-- The name of the `i`-th variable of a `%b<N>` declaration, `format!("{}{}", b, i)`. -/
def expansionName (base : String) (i : Nat) : String := base ++ toString i

/-- The names a declaration introduces: `b0 … b(N-1)` for `%b<N>`, else `b`. -/
def expansionNames (decl : Ast.MultiVariable) : List String :=
  match decl.count with
  | some count => (List.range count.toNat).map (expansionName decl.var.name)
  | none => [decl.var.name]

/-- The labels a statement list declares directly, in order. -/
def labelsOf (statements : List Ast.Statement) : List String :=
  statements.filterMap fun
    | .label l => some l
    | _ => none

/-- The variable names a statement list declares directly (expansions included), in order. -/
def varNamesOf (statements : List Ast.Statement) : List String :=
  statements.flatMap fun
    | .variable v => expansionNames v
    | _ => []

/-- Modelled from the spec: `ast::visit_map`, applying the callback to every identifier of an
    instruction's operands, left to right, and failing exactly when the callback fails. -/
def visitMap {m : Type → Type} [Monad m] (f : String → m SpirvWord)
    (instruction : Ast.Instruction (Ast.ParsedOperand String)) :
    m (Ast.Instruction (Ast.ParsedOperand SpirvWord)) :=
  instruction.mapM (Ast.ParsedOperand.mapM f)

/-- `run_variable`: declare a variable in the current scope under a fresh identifier. -/
def runVariable (var : Ast.Variable String) : ResolverM (Ast.Variable SpirvWord) := do
  let name ← add var.name (some (var.vType, var.stateSpace))
  pure (var.rename name)

/-- `run_multivariable`: declare the expansions of a declaration, one `Variable` statement each,
    carrying the declaration's alignment, type, state space and initializer. -/
def runMultivariable (decl : Ast.MultiVariable) : ResolverM (List NormalizedStatement) :=
  match decl.count with
  | some count =>
    (List.range count.toNat).mapM fun i => do
      let ident ← add (expansionName decl.var.name i) (some (decl.var.vType, decl.var.stateSpace))
      pure (.variable (decl.var.rename ident))
  | none => do
    let ident ← add decl.var.name (some (decl.var.vType, decl.var.stateSpace))
    pure [.variable (decl.var.rename ident)]

/-- `run_instruction`: rename every operand through `get`. -/
def runInstruction (instruction : Ast.Instruction (Ast.ParsedOperand String)) :
    ResolverM (Ast.Instruction (Ast.ParsedOperand SpirvWord)) :=
  visitMap get instruction

/-- The label pre-pass of `run_statements`: declare every label of the list, in order. -/
def addLabels (statements : List Ast.Statement) : ResolverM Unit := do
  let _ ← (labelsOf statements).mapM fun label => add label none
  pure ()

mutual

/-- The main pass of `run_statements`: one statement after another. -/
def runStatementsMain : List Ast.Statement → ResolverM (List NormalizedStatement)
  | [] => pure []
  | statement :: rest => do
    let out ← runStatement statement
    let outRest ← runStatementsMain rest
    pure (out ++ outRest)

/-- One statement of the main pass of `run_statements`. -/
def runStatement : Ast.Statement → ResolverM (List NormalizedStatement)
  | .label label => do
    let id ← getInCurrentScope label
    pure [.label id]
  | .variable decl => runMultivariable decl
  | .instruction predicate instruction => do
    let pred ← predicate.mapM fun pred => do
      let label ← get pred.label
      pure { not := pred.not, label }
    let inst ← runInstruction instruction
    pure [.instruction (pred, inst)]
  | .block block => do
    startScope
    addLabels block
    let out ← runStatementsMain block
    endScope
    pure out

end

/-- `run_statements`: the label pre-pass, then the main pass. -/
def runStatements (statements : List Ast.Statement) : ResolverM (List NormalizedStatement) := do
  addLabels statements
  runStatementsMain statements

/-- A block runs `run_statements` in a scope of its own. -/
theorem runStatement_block (block : List Ast.Statement) :
    runStatement (.block block) = (do
      startScope
      let out ← runStatements block
      endScope
      pure out) := by
  simp only [runStatement, runStatements, bind_assoc]

/-- `run_function_decl`: declare the return and then the input arguments in the current
    scope.  The source asserts that no shared-memory declaration is present. -/
def runFunctionDecl (funcDirective : Ast.MethodDeclaration String)
    (name : Ast.MethodName SpirvWord) : ResolverM (Ast.MethodDeclaration SpirvWord) := do
  if funcDirective.sharedMem.isSome then throw .aborted
  let returnArguments ← funcDirective.returnArguments.mapM runVariable
  let inputArguments ← funcDirective.inputArguments.mapM runVariable
  pure { returnArguments, name, inputArguments, sharedMem := none }

/-- The name step of `run_method`: a kernel keeps its text, a device function's name is
    interned in the current (module) scope. -/
def methodName : Ast.MethodName String → ResolverM (Ast.MethodName SpirvWord)
  | .kernel name => pure (.kernel name)
  | .func text => do
    let id ← addOrGetInCurrentScopeUntyped text
    pure (.func id)

/-- `run_method`: intern the method's name, then declare the arguments and run the body in a
    scope of their own. -/
def runMethod (linkage : Ast.LinkingDirective) (method : Ast.Function) :
    ResolverM NormalizedFunction2 := do
  let name ← methodName method.funcDirective.name
  startScope
  let funcDecl ← runFunctionDecl method.funcDirective name
  let body ← method.body.mapM runStatements
  endScope
  pure { funcDecl, globals := [], body, importAs := none, tuning := method.tuning, linkage }

/-- `run_directive`. -/
def runDirective : Ast.Directive → ResolverM NormalizedDirective2
  | .variable linking var => do
    let v ← runVariable var
    pure (.variable linking v)
  | .method linking directive => do
    let f ← runMethod linking directive
    pure (.method f)

/-- `run`: normalize the directives of a module in a module scope of their own. -/
def run (directives : List Ast.Directive) : ResolverM (List NormalizedDirective2) := do
  startScope
  let result ← directives.mapM runDirective
  endScope
  pure result

/-! ## Declaring names -/

section Declarations

variable {α β : Type} {r r' : ScopedResolver}

/-- Declaring names one after another succeeds exactly when they are distinct and unbound in the
    current scope; the `k`-th of them gets the `k`-th next identifier. -/
theorem mapM_add_eq_ok (xs : List α) (f : α → String) (t : α → Option (PtxType × StateSpace))
    (g : α → SpirvWord → β) {out : List β} :
    (xs.mapM fun x => do let id ← add (f x) (t x); pure (g x id)) r = .ok (out, r') ↔
      (xs.map f).Nodup ∧ (∀ x ∈ xs, r.current.lookup (f x) = none) ∧
      out = List.zipWith g xs (List.range' r.currentId xs.length) ∧
      r' = r.bindAll (xs.map fun x => (f x, t x)) := by
  induction xs generalizing r r' out with
  | nil =>
    constructor
    · intro h; cases h; simp
    · rintro ⟨-, -, rfl, rfl⟩; rfl
  | cons x xs ih =>
    rw [List.mapM_cons]
    simp only [bind_assoc, pure_bind]
    simp only [StateT.bind_apply_eq_ok, add_eq_ok, ih, StateT.pure_apply, Except.ok.injEq,
      Prod.mk.injEq, List.map_cons, List.nodup_cons, List.mem_map, List.forall_mem_cons,
      List.length_cons, List.range'_succ, List.zipWith_cons_cons, bindAll_cons]
    constructor
    · rintro ⟨_, _, ⟨hx, rfl, rfl⟩, _, _, ⟨hnd, hxs, rfl, rfl⟩, rfl, rfl⟩
      simp only [bind_current, Scope.lookup_cons_eq_none] at hxs
      exact ⟨⟨fun ⟨y, hy, he⟩ => (hxs y hy).1 he, hnd⟩, ⟨hx, fun y hy => (hxs y hy).2⟩, rfl, rfl⟩
    · rintro ⟨⟨hnot, hnd⟩, ⟨hx, hxs⟩, rfl, rfl⟩
      refine ⟨_, _, ⟨hx, rfl, rfl⟩, _, _, ⟨hnd, fun y hy => ?_, rfl, rfl⟩, rfl, rfl⟩
      simp only [bind_current, Scope.lookup_cons_eq_none]
      exact ⟨fun he => hnot ⟨y, hy, he⟩, hxs y hy⟩

end Declarations

/-- Distinct indices give distinct expansion names, base names ending in digits included. -/
theorem expansionName_injective (base : String) : Function.Injective (expansionName base) :=
  fun _ _ h => Nat.toString_injective (String.append_right_injective base h)

theorem expansionNames_nodup (decl : Ast.MultiVariable) : (expansionNames decl).Nodup := by
  unfold expansionNames
  split
  · exact List.Nodup.map (expansionName_injective _) (List.nodup_range _)
  · exact List.nodup_singleton _

section Spec

variable {r r' : ScopedResolver}

theorem runVariable_eq_ok {var : Ast.Variable String} {v} :
    runVariable var r = .ok (v, r') ↔ r.current.lookup var.name = none ∧
      v = var.rename r.currentId ∧ r' = r.bind var.name (some (var.vType, var.stateSpace)) := by
  simp only [runVariable, StateT.bind_apply_eq_ok, add_eq_ok, StateT.pure_apply,
    Except.ok.injEq, Prod.mk.injEq]
  constructor
  · rintro ⟨_, _, ⟨h, rfl, rfl⟩, rfl, rfl⟩; exact ⟨h, rfl, rfl⟩
  · rintro ⟨h, rfl, rfl⟩; exact ⟨_, _, ⟨h, rfl, rfl⟩, rfl, rfl⟩

private theorem zipWith_ignore_left {γ δ : Type} (G : SpirvWord → δ) :
    ∀ (xs : List γ) (ys : List SpirvWord), xs.length = ys.length →
      List.zipWith (fun _ i => G i) xs ys = ys.map G
  | [], [], _ => rfl
  | _ :: xs, _ :: ys, h => by
    simp only [List.zipWith_cons_cons, List.map_cons, zipWith_ignore_left G xs ys (by simpa using h)]

/-- The expansion of a declaration succeeds exactly when none of its names is bound in the
    current scope, and then declares them in order under consecutive fresh identifiers. -/
theorem runMultivariable_eq_ok {decl : Ast.MultiVariable} {out} :
    runMultivariable decl r = .ok (out, r') ↔
      (∀ n ∈ expansionNames decl, r.current.lookup n = none) ∧
      out = (List.range' r.currentId (expansionNames decl).length).map
        (fun i => .variable (decl.var.rename i)) ∧
      r' = r.bindAll ((expansionNames decl).map (·, some (decl.var.vType, decl.var.stateSpace))) := by
  rcases hc : decl.count with _ | count
  · simp only [runMultivariable, expansionNames, hc, StateT.bind_apply_eq_ok, add_eq_ok,
      StateT.pure_apply, Except.ok.injEq, Prod.mk.injEq, List.forall_mem_cons, List.not_mem_nil,
      false_imp_iff, implies_true, and_true, List.length_singleton, List.range'_one,
      List.map_cons, List.map_nil, bindAll_cons, bindAll_nil]
    constructor
    · rintro ⟨_, _, ⟨h, rfl, rfl⟩, rfl, rfl⟩; exact ⟨h, rfl, rfl⟩
    · rintro ⟨h, rfl, rfl⟩; exact ⟨_, _, ⟨h, rfl, rfl⟩, rfl, rfl⟩
  · have hnd := expansionNames_nodup decl
    simp only [runMultivariable, expansionNames, hc, mapM_add_eq_ok, List.forall_mem_map,
      List.length_map, List.length_range, List.map_map, Function.comp_def,
      zipWith_ignore_left _ (List.range count.toNat) (List.range' r.currentId count.toNat)
        (by simp)] at hnd ⊢
    exact ⟨fun ⟨_, h⟩ => h, fun h => ⟨hnd, h⟩⟩

/-- The expansion of a declaration fails exactly when one of its names is already bound in the
    current scope. -/
theorem runMultivariable_eq_error {decl : Ast.MultiVariable} :
    (∃ e, runMultivariable decl r = .error e) ↔
      ∃ n ∈ expansionNames decl, (r.current.lookup n).isSome := by
  constructor
  · rintro ⟨e, he⟩
    by_contra h
    push_neg at h
    have := runMultivariable_eq_ok.mpr ⟨fun n hn => Option.not_isSome_iff_eq_none.mp (h n hn),
      rfl, rfl⟩
    rw [he] at this; cases this
  · rintro ⟨n, hn, hb⟩
    match hres : runMultivariable decl r with
    | .error e => exact ⟨e, rfl⟩
    | .ok (out, r') =>
      obtain ⟨hfresh, -⟩ := runMultivariable_eq_ok.mp hres
      simp [hfresh n hn] at hb

/-- `run_multivariable` fails exactly when one of the declaration's names (the base name followed
    by the decimal rendering of `i`, for each `i` below the count, or the base name alone without
    a count) is bound in the current scope.  Otherwise it pushes one `Variable` statement per
    name, in order, carrying the declaration's alignment, type, state space and initializer under
    an identifier of its own: the identifiers are distinct and above every identifier in the
    table, and each is bound in the current scope to its name and described in the table by its
    name, type and state space. -/
theorem runMultivariable_spec (decl : Ast.MultiVariable) (r : ScopedResolver) :
    ((∃ e, runMultivariable decl r = .error e) ↔
      ∃ n ∈ expansionNames decl, (r.current.lookup n).isSome) ∧
    ((∀ n ∈ expansionNames decl, r.current.lookup n = none) →
      ∃ r', runMultivariable decl r =
          .ok ((List.range' r.currentId (expansionNames decl).length).map fun i =>
            .variable
              { align := decl.var.align, vType := decl.var.vType, stateSpace := decl.var.stateSpace,
                name := i, arrayInit := decl.var.arrayInit }, r') ∧
        (List.range' r.currentId (expansionNames decl).length).Nodup ∧
        (∀ i ∈ List.range' r.currentId (expansionNames decl).length, ∀ e ∈ r.identMap, e.1 < i) ∧
        ∀ j (hj : j < (expansionNames decl).length),
          r'.current.lookup ((expansionNames decl).get ⟨j, hj⟩) = some (r.currentId + j) ∧
          r'.identMap.lookup (r.currentId + j) = some
            ⟨some ((expansionNames decl).get ⟨j, hj⟩), some (decl.var.vType, decl.var.stateSpace)⟩) := by
  refine ⟨runMultivariable_eq_error, fun hfresh => ⟨_, runMultivariable_eq_ok.mpr ⟨hfresh, rfl, rfl⟩,
    List.nodup_range' _ _, fun i hi e he => Nat.lt_of_lt_of_le (r.identMap_lt e he)
      (List.mem_range'_1.mp hi).1, fun j hj => ⟨?_, ?_⟩⟩⟩
  · have hkeys : (((expansionNames decl).zip (List.range' r.currentId
        (expansionNames decl).length)).reverse.map Prod.fst).Nodup := by
      rw [List.map_reverse, List.nodup_reverse, List.map_fst_zip _ _ (by simp)]
      exact expansionNames_nodup decl
    rw [bindAll_current, List.lookup_append]
    simp only [List.map_map, Function.comp_def, List.map_id', List.length_map]
    rw [List.lookup_of_mem_of_nodup hkeys (List.mem_reverse.mpr (List.get_mem_zip_range' _ _ hj))]
    rfl
  · have ha := Allocated.bindAll r
      ((expansionNames decl).map (·, some (decl.var.vType, decl.var.stateSpace)))
    simp only [List.map_map, Function.comp_def, List.length_map] at ha
    exact ha.lookup_eq (List.mem_range'_zip_map _
      (fun n => (⟨some n, some (decl.var.vType, decl.var.stateSpace)⟩ : IdentEntry)) _ hj)

/-- The declaration `.reg .u32 %r<3>`. -/
def threeRegs : Ast.MultiVariable :=
  ⟨{ align := none, vType := .scalar .u32, stateSpace := .reg, name := "%r", arrayInit := [] }, some 3⟩

/-- In a fresh resolver, `%r<3>` becomes three variables under the identifiers 1, 2 and 3. -/
theorem threeRegs_expand : ∃ r', runMultivariable threeRegs ScopedResolver.new = .ok
    ([.variable ⟨none, .scalar .u32, .reg, 1, []⟩, .variable ⟨none, .scalar .u32, .reg, 2, []⟩,
      .variable ⟨none, .scalar .u32, .reg, 3, []⟩], r') :=
  let ⟨r', h, _⟩ := (runMultivariable_spec threeRegs ScopedResolver.new).2 (fun _ _ => rfl)
  ⟨r', h⟩

end Spec

/-! ## Renaming operands -/

section Renaming

variable {r r' : ScopedResolver}

/-- A traversal by an action that only reads the resolver succeeds exactly when the action
    succeeds on every element, and leaves the resolver unchanged. -/
theorem mapM_reader_eq_ok {γ δ : Type} (F : γ → ResolverM δ) (P : ScopedResolver → γ → Prop)
    (G : ScopedResolver → γ → δ)
    (hF : ∀ x r r' y, F x r = .ok (y, r') ↔ r' = r ∧ P r x ∧ y = G r x) (xs : List γ) {ys} :
    (xs.mapM F) r = .ok (ys, r') ↔ r' = r ∧ (∀ x ∈ xs, P r x) ∧ ys = xs.map (G r) := by
  induction xs generalizing r r' ys with
  | nil =>
    constructor
    · intro h; cases h; simp
    · rintro ⟨rfl, -, rfl⟩; rfl
  | cons x xs ih =>
    rw [List.mapM_cons]
    simp only [StateT.bind_apply_eq_ok, hF, ih, StateT.pure_apply, Except.ok.injEq,
      Prod.mk.injEq, List.forall_mem_cons, List.map_cons]
    constructor
    · rintro ⟨_, _, ⟨rfl, hx, rfl⟩, _, _, ⟨rfl, hxs, rfl⟩, rfl, rfl⟩
      exact ⟨rfl, ⟨hx, hxs⟩, rfl⟩
    · rintro ⟨rfl, ⟨hx, hxs⟩, rfl⟩
      exact ⟨_, _, ⟨rfl, hx, rfl⟩, _, _, ⟨rfl, hxs, rfl⟩, rfl, rfl⟩

theorem operand_mapM_get_eq_ok (op : Ast.ParsedOperand String) {o} :
    (op.mapM get) r = .ok (o, r') ↔
      r' = r ∧ (∀ n ∈ op.names, (resolveIn r.scopes n).isSome) ∧ o = op.map r.resolved := by
  have hget := fun n r r' i => @get_eq_ok_iff_resolved r r' i n
  cases op <;> simp only [Ast.ParsedOperand.mapM, Ast.ParsedOperand.names, Ast.ParsedOperand.map,
    StateT.map_apply_eq_ok, get_eq_ok_iff_resolved, mapM_reader_eq_ok _ _ _ hget,
    StateT.pure_apply, Except.ok.injEq, Prod.mk.injEq, List.forall_mem_cons, List.not_mem_nil,
    false_imp_iff, implies_true, and_true, and_assoc, exists_and_left, exists_eq_left, true_and,
    @eq_comm _ _ o, @eq_comm _ r, and_comm (a := o = _)]

/-- Renaming an instruction succeeds exactly when every name among its operands is bound in some
    scope, renames each to the identifier `get` finds, and leaves the resolver unchanged. -/
theorem runInstruction_eq_ok (inst : Ast.Instruction (Ast.ParsedOperand String)) {o} :
    runInstruction inst r = .ok (o, r') ↔
      r' = r ∧ (∀ op ∈ inst.operands, ∀ n ∈ op.names, (resolveIn r.scopes n).isSome) ∧
        o = inst.map (·.map r.resolved) := by
  have hop := fun op r r' o => @operand_mapM_get_eq_ok r r' op o
  cases inst <;> simp only [runInstruction, visitMap, Ast.Instruction.mapM,
    Ast.Instruction.operands, Ast.Instruction.map, StateT.bind_apply_eq_ok,
    StateT.map_apply_eq_ok, hop, mapM_reader_eq_ok _ _ _ hop, StateT.pure_apply, Except.ok.injEq,
    Prod.mk.injEq, List.forall_mem_cons, List.forall_mem_append, List.not_mem_nil, false_imp_iff,
    implies_true, and_true, and_assoc, exists_and_left, exists_eq_left, true_and, @eq_comm _ _ o,
    @eq_comm _ r, and_comm (a := o = _), and_left_comm (b := r' = r)]

/-- Renaming a guard succeeds exactly when its predicate is bound in some scope. -/
theorem predicate_mapM_eq_ok (predicate : Option (Ast.PredAt String)) {o} :
    (predicate.mapM fun (pred : Ast.PredAt String) => do
        let label ← ScopedResolver.get pred.label
        pure ({ not := pred.not, label } : Ast.PredAt SpirvWord))
      r = .ok (o, r') ↔
      r' = r ∧ (∀ p ∈ predicate, (resolveIn r.scopes p.label).isSome) ∧
        o = predicate.map fun p => ⟨p.not, r.resolved p.label⟩ := by
  cases predicate <;> simp only [Option.mapM, StateT.bind_apply_eq_ok, get_eq_ok_iff_resolved,
    StateT.pure_apply, Except.ok.injEq, Prod.mk.injEq, Option.map_none', Option.map_some',
    Option.mem_def, reduceCtorEq, false_imp_iff, implies_true, Option.some.injEq, forall_eq',
    and_assoc, exists_and_left, exists_eq_left, exists_eq_left', true_and, @eq_comm _ _ o, @eq_comm _ r,
    and_comm (a := o = _), and_left_comm (b := r' = r)]

end Renaming

/-! ## The label pre-pass and the main pass -/

/-- `r'` differs from `r` in its scopes only by bindings for `names`, distinct and new to the
    current scope, pushed on the current scope in order. -/
structure Extends (names : List String) (r r' : ScopedResolver) : Prop where
  outer_eq : r'.outer = r.outer
  nodup : names.Nodup
  fresh : ∀ n ∈ names, r.current.lookup n = none
  current_eq : ∃ ids : List SpirvWord,
    ids.length = names.length ∧ r'.current = (names.zip ids).reverse ++ r.current

namespace Extends

variable {r r₁ r' : ScopedResolver} {names names' : List String}

theorem refl (hc : r'.current = r.current) (ho : r'.outer = r.outer) : Extends [] r r' :=
  ⟨ho, List.nodup_nil, by simp, ⟨[], rfl, by simp [hc]⟩⟩

theorem bindAll {es : List (String × Option (PtxType × StateSpace))} (hnd : (es.map Prod.fst).Nodup)
    (hfresh : ∀ n ∈ es.map Prod.fst, r.current.lookup n = none) :
    Extends (es.map Prod.fst) r (r.bindAll es) :=
  ⟨bindAll_outer .., hnd, hfresh, ⟨_, by simp, bindAll_current ..⟩⟩

/-- Every name of `names` is bound in the extended current scope. -/
theorem mem_current (h : Extends names r r') {n : String} (hn : n ∈ names) :
    n ∈ r'.current.map Prod.fst := by
  obtain ⟨ids, hlen, hcur⟩ := h.current_eq
  rw [hcur, List.map_append, List.map_reverse, List.map_fst_zip _ _ (by omega)]
  exact List.mem_append_left _ (List.mem_reverse.mpr hn)

/-- A name unbound after the extension was unbound before it. -/
theorem lookup_eq_none (h : Extends names r r') {n : String} (hn : r'.current.lookup n = none) :
    r.current.lookup n = none := by
  obtain ⟨ids, -, hcur⟩ := h.current_eq
  rw [Scope.lookup_eq_none_iff, hcur, List.map_append] at hn
  exact Scope.lookup_eq_none_iff.mpr fun hm => hn (List.mem_append_right _ hm)

/-- The extension keeps every binding of the current scope. -/
theorem mem_current_of_mem (h : Extends names r r') {n : String} (hn : n ∈ r.current.map Prod.fst) :
    n ∈ r'.current.map Prod.fst := by
  obtain ⟨ids, -, hcur⟩ := h.current_eq
  rw [hcur, List.map_append]
  exact List.mem_append_right _ hn

/-- A name outside `names` that was unbound stays unbound. -/
theorem lookup_eq_none_of (h : Extends names r r') {n : String} (hn : n ∉ names)
    (hl : r.current.lookup n = none) : r'.current.lookup n = none := by
  obtain ⟨ids, hlen, hcur⟩ := h.current_eq
  rw [hcur, Scope.lookup_append_of_eq_none, hl]
  rw [Scope.lookup_eq_none_iff, List.map_reverse, List.mem_reverse, List.map_fst_zip _ _ (by omega)]
  exact hn

/-- A name some scope bound is still found after the extension. -/
theorem resolveIn_isSome (h : Extends names r r') {n : String}
    (hs : (resolveIn r.scopes n).isSome) : (resolveIn r'.scopes n).isSome := by
  obtain ⟨s, hs, hn⟩ := resolveIn_isSome_iff.mp hs
  rcases List.mem_cons.mp hs with rfl | hs
  · exact resolveIn_isSome_of_mem_current (h.mem_current_of_mem hn)
  · exact resolveIn_isSome_iff.mpr ⟨s, by rw [ScopedResolver.scopes, h.outer_eq]; exact List.mem_cons_of_mem _ hs, hn⟩

theorem trans (h₁ : Extends names r r₁) (h₂ : Extends names' r₁ r') :
    Extends (names ++ names') r r' := by
  obtain ⟨ids₁, hlen₁, hcur₁⟩ := h₁.current_eq
  obtain ⟨ids₂, hlen₂, hcur₂⟩ := h₂.current_eq
  refine ⟨h₂.outer_eq.trans h₁.outer_eq, List.nodup_append.mpr ⟨h₁.nodup, h₂.nodup, ?_⟩, ?_,
    ⟨ids₁ ++ ids₂, by simp [hlen₁, hlen₂], ?_⟩⟩
  · intro a ha hb
    exact (Scope.lookup_eq_none_iff.mp (h₂.fresh a hb)) (h₁.mem_current ha)
  · intro n hn
    rcases List.mem_append.mp hn with hn | hn
    · exact h₁.fresh n hn
    · exact h₁.lookup_eq_none (h₂.fresh n hn)
  · rw [hcur₂, hcur₁, List.zip_append hlen₁.symm, List.reverse_append, List.append_assoc]

end Extends

section Passes

variable {r r' : ScopedResolver}

/-- The label pre-pass succeeds exactly when the labels are distinct and unbound in the current
    scope, and binds them in order. -/
theorem addLabels_eq_ok {statements : List Ast.Statement} {u : Unit} :
    addLabels statements r = .ok (u, r') ↔ (labelsOf statements).Nodup ∧
      (∀ l ∈ labelsOf statements, r.current.lookup l = none) ∧
      r' = r.bindAll ((labelsOf statements).map (·, none)) := by
  have h := fun r' out => @mapM_add_eq_ok String SpirvWord r r' (labelsOf statements)
    id (fun _ => none) (fun _ i => i) out
  simp only [id_eq, bind_pure, List.map_id] at h
  simp only [addLabels, StateT.bind_apply_eq_ok, h, StateT.pure_apply, Except.ok.injEq,
    Prod.mk.injEq]
  constructor
  · rintro ⟨_, _, ⟨hnd, hfresh, -, rfl⟩, -, rfl⟩; exact ⟨hnd, hfresh, rfl⟩
  · rintro ⟨hnd, hfresh, rfl⟩; exact ⟨_, _, ⟨hnd, hfresh, rfl, rfl⟩, trivial, rfl⟩

@[simp] theorem varNamesOf_nil : varNamesOf [] = [] := rfl

theorem varNamesOf_cons (s : Ast.Statement) (rest : List Ast.Statement) :
    varNamesOf (s :: rest) = varNamesOf [s] ++ varNamesOf rest := by
  simp [varNamesOf]

@[simp] theorem labelsOf_nil : labelsOf [] = [] := rfl

theorem labelsOf_cons (s : Ast.Statement) (rest : List Ast.Statement) :
    labelsOf (s :: rest) = labelsOf [s] ++ labelsOf rest := by
  cases s <;> simp [labelsOf]

/-- A block leaves the scopes as it found them. -/
theorem runStatement_block_scopes {block : List Ast.Statement} {out}
    (hmain : ∀ r r' out, runStatementsMain block r = .ok (out, r') → r'.outer = r.outer)
    (h : runStatement (.block block) r = .ok (out, r')) :
    r'.current = r.current ∧ r'.outer = r.outer := by
  simp only [runStatement, StateT.bind_apply_eq_ok, startScope_apply, Except.ok.injEq,
    Prod.mk.injEq, StateT.pure_apply] at h
  obtain ⟨_, _, ⟨-, rfl⟩, _, r₂, hlab, _, r₃, hrun, _, r₄, hend, rfl, rfl⟩ := h
  obtain ⟨-, -, rfl⟩ := addLabels_eq_ok.mp hlab
  obtain ⟨s, ss, hs, rfl⟩ := endScope_eq_ok.mp hend
  have : r₃.outer = r.current :: r.outer := by rw [hmain _ _ _ hrun]; simp
  rw [hs] at this
  obtain ⟨rfl, rfl⟩ := List.cons.inj this
  exact ⟨rfl, rfl⟩

mutual

/-- The main pass leaves the enclosing scopes alone, and extends the current scope with
    bindings for the list's own variables only. -/
theorem runStatementsMain_extends :
    ∀ (statements : List Ast.Statement) {r r' : ScopedResolver} {out},
      runStatementsMain statements r = .ok (out, r') → Extends (varNamesOf statements) r r'
  | [], r, r', out, h => by
    simp only [runStatementsMain, StateT.pure_apply, Except.ok.injEq, Prod.mk.injEq] at h
    obtain ⟨-, rfl⟩ := h
    exact Extends.refl rfl rfl
  | s :: rest, r, r', out, h => by
    simp only [runStatementsMain, StateT.bind_apply_eq_ok, StateT.pure_apply, Except.ok.injEq,
      Prod.mk.injEq] at h
    obtain ⟨_, r₁, h₁, _, _, h₂, -, rfl⟩ := h
    rw [varNamesOf_cons]
    exact (runStatement_extends s h₁).trans (runStatementsMain_extends rest h₂)

/-- One statement of the main pass extends the current scope with its own variables only. -/
theorem runStatement_extends :
    ∀ (statement : Ast.Statement) {r r' : ScopedResolver} {out},
      runStatement statement r = .ok (out, r') → Extends (varNamesOf [statement]) r r'
  | .label l, r, r', out, h => by
    simp only [runStatement, StateT.bind_apply_eq_ok, getInCurrentScope_eq_ok,
      StateT.pure_apply, Except.ok.injEq, Prod.mk.injEq] at h
    obtain ⟨_, _, ⟨-, rfl⟩, -, rfl⟩ := h
    exact Extends.refl rfl rfl
  | .variable decl, r, r', out, h => by
    obtain ⟨hfresh, -, rfl⟩ := runMultivariable_eq_ok.mp h
    have hnames : ((expansionNames decl).map (·, some (decl.var.vType, decl.var.stateSpace))).map
        Prod.fst = expansionNames decl := by simp [Function.comp_def]
    have hv : varNamesOf [.variable decl] = expansionNames decl := by simp [varNamesOf]
    have : Extends _ r (r.bindAll ((expansionNames decl).map
        (·, some (decl.var.vType, decl.var.stateSpace)))) :=
      Extends.bindAll (by rw [hnames]; exact expansionNames_nodup decl) (by rw [hnames]; exact hfresh)
    rw [hnames] at this
    rwa [hv]
  | .instruction p i, r, r', out, h => by
    simp only [runStatement, StateT.bind_apply_eq_ok, predicate_mapM_eq_ok, runInstruction_eq_ok,
      StateT.pure_apply, Except.ok.injEq, Prod.mk.injEq] at h
    obtain ⟨_, _, ⟨rfl, -⟩, _, _, ⟨rfl, -⟩, -, rfl⟩ := h
    exact Extends.refl rfl rfl
  | .block b, r, r', out, h => by
    obtain ⟨hc, ho⟩ := runStatement_block_scopes
      (fun _ _ _ h => (runStatementsMain_extends b h).outer_eq) h
    exact Extends.refl hc ho

end

end Passes

/-! ## Arguments, methods and modules -/

section Methods

variable {r r' : ScopedResolver}

/-- The identifier-table entry `run_variable` records for a declaration. -/
def varEntry (v : Ast.Variable String) : String × Option (PtxType × StateSpace) :=
  (v.name, some (v.vType, v.stateSpace))

@[simp] theorem map_fst_varEntry (vars : List (Ast.Variable String)) :
    (vars.map varEntry).map Prod.fst = vars.map (·.name) := by
  simp [varEntry]

theorem mapM_runVariable_eq_ok (vars : List (Ast.Variable String)) {vs} :
    (vars.mapM runVariable) r = .ok (vs, r') ↔
      (vars.map (·.name)).Nodup ∧ (∀ v ∈ vars, r.current.lookup v.name = none) ∧
      vs = List.zipWith Ast.Variable.rename vars (List.range' r.currentId vars.length) ∧
      r' = r.bindAll (vars.map varEntry) :=
  mapM_add_eq_ok vars (·.name) (fun v => some (v.vType, v.stateSpace)) Ast.Variable.rename

/-- The arguments of a method, return arguments first. -/
def argsOf (fd : Ast.MethodDeclaration String) : List (Ast.Variable String) :=
  fd.returnArguments ++ fd.inputArguments

/-- `run_function_decl` succeeds exactly when no shared-memory declaration is present and the
    argument names are distinct and unbound in the current scope; it declares them in order. -/
theorem runFunctionDecl_eq_ok {fd : Ast.MethodDeclaration String} {name d} :
    runFunctionDecl fd name r = .ok (d, r') ↔
      fd.sharedMem = none ∧ ((argsOf fd).map (·.name)).Nodup ∧
      (∀ v ∈ argsOf fd, r.current.lookup v.name = none) ∧
      d = { returnArguments := List.zipWith Ast.Variable.rename fd.returnArguments
              (List.range' r.currentId fd.returnArguments.length),
            name,
            inputArguments := List.zipWith Ast.Variable.rename fd.inputArguments
              (List.range' (r.currentId + fd.returnArguments.length) fd.inputArguments.length),
            sharedMem := none } ∧
      r' = r.bindAll ((argsOf fd).map varEntry) := by
  cases hs : fd.sharedMem with
  | some m =>
    simp [runFunctionDecl, hs, StateT.bind_apply_eq_ok, throw, throwThe, MonadExceptOf.throw,
      StateT.lift, ExceptT.mk]
  | none =>
    simp only [runFunctionDecl, hs, Option.isSome_none, Bool.false_eq_true, if_false, pure_bind,
      StateT.bind_apply_eq_ok, mapM_runVariable_eq_ok, StateT.pure_apply, Except.ok.injEq,
      Prod.mk.injEq, true_and]
    constructor
    · rintro ⟨_, _, ⟨hnd₁, hf₁, rfl, rfl⟩, _, _, ⟨hnd₂, hf₂, rfl, rfl⟩, rfl, rfl⟩
      simp only [bindAll_current_lookup_eq_none, map_fst_varEntry, List.mem_map] at hf₂
      refine ⟨?_, ?_, by simp, by rw [argsOf, List.map_append, bindAll_append]⟩
      · rw [argsOf, List.map_append, List.nodup_append]
        refine ⟨hnd₁, hnd₂, fun a ha hb => ?_⟩
        obtain ⟨v, hv, rfl⟩ := List.mem_map.mp hb
        exact (hf₂ v hv).1 (List.mem_map.mp ha)
      · intro v hv
        rcases List.mem_append.mp hv with hv | hv
        · exact hf₁ v hv
        · exact (hf₂ v hv).2
    · rintro ⟨hnd, hf, rfl, rfl⟩
      rw [argsOf, List.map_append, List.nodup_append] at hnd
      obtain ⟨hnd₁, hnd₂, hdisj⟩ := hnd
      refine ⟨_, _, ⟨hnd₁, fun v hv => hf v (List.mem_append_left _ hv), rfl, rfl⟩, _, _,
        ⟨hnd₂, fun v hv => ?_, rfl, rfl⟩, by simp, by rw [argsOf, List.map_append, bindAll_append]⟩
      rw [bindAll_current_lookup_eq_none, map_fst_varEntry]
      exact ⟨fun h => hdisj h (List.mem_map_of_mem _ hv), hf v (List.mem_append_right _ hv)⟩

end Methods

end ZludaPtx.NormalizeIdentifiers
