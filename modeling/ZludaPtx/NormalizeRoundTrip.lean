import ZludaPtx.NormalizeSound
import Mathlib.Data.List.Forall2

/-!
# Reading the normalized module back through the identifier table

`normalize_identifiers2` replaces every name by an identifier and records, for each identifier
it hands out, the source name in the identifier table.  This file proves that nothing else
happens: reading the output back through the table the run leaves (`readDirective`, each
identifier replaced by the name the table records for it) gives the input with every block
inlined and every `%r<N>` declaration expanded (`flattenDirective`).  The pass is a renaming of
the flattened module, and every identifier in its output has a table entry carrying the name it
replaced.

The proof runs over the scoping judgement of `Scoping`, which a successful run satisfies
(`run_sound`).  Its invariant is `Named`: every binding of the visible scopes binds a name to an
identifier the table records under that name.  Every declaration the judgement makes extends
the scopes with bindings whose identifiers are declared under their names, so the invariant
holds of every scope the run opens, and a name resolved in such scopes reads back as itself.

## Key results

- `Named.resolvedIn`: a name resolved in named scopes reads back as itself
- `stmtsResolve_readBack` / `stmtResolve_readBack`: statement lists, blocks nested to any depth
- `methodResolves_readBack`, `directivesResolve_readBack`: methods and modules
- `run_readBack`: a successful run, read back through its table, is its input flattened
-/

namespace List

variable {α β : Type}

/-- `mapM` in `Option` undoes a `map` whose every image it sends back. -/
theorem mapM_map_eq_some {g : α → β} {f : β → Option α} {l : List α}
    (h : ∀ a ∈ l, f (g a) = some a) : (l.map g).mapM f = some l :=
  mapM_eq_some_iff_forall₂.mpr (forall₂_map_left_iff.mpr (forall₂_same.mpr h))

end List

namespace ZludaPtx

namespace Ast

variable {α β : Type}

/-- A renaming of an operand's identifiers is undone by any fallible map sending each image
    back. -/
theorem ParsedOperand.mapM_map_eq_some {op : ParsedOperand α} {F : α → β} {G : β → Option α}
    (h : ∀ a ∈ op.names, G (F a) = some a) : (op.map F).mapM G = some op := by
  cases op <;> simp_all [-List.mapM, ParsedOperand.map, ParsedOperand.mapM, ParsedOperand.names,
    List.mapM_map_eq_some]

/-- A renaming of an instruction's operands is undone by any fallible map sending each image
    back. -/
theorem Instruction.mapM_map_eq_some {i : Instruction α} {F : α → β} {G : β → Option α}
    (h : ∀ a ∈ i.operands, G (F a) = some a) : (i.map F).mapM G = some i := by
  cases i <;> simp_all [-List.mapM, Instruction.map, Instruction.mapM, Instruction.operands,
    List.mapM_map_eq_some]

end Ast

/-- The identifiers a run hands out are new, so the table it leaves agrees with the one it found
    on every identifier already bound. -/
theorem Allocated.lookup_of_lt {r r' : ScopedResolver} {ds : List (SpirvWord × IdentEntry)}
    (h : Allocated r r' ds) {i : SpirvWord} (hi : i < r.currentId) :
    r'.identMap.lookup i = r.identMap.lookup i := by
  have hnew : ds.reverse.lookup i = none := by
    refine List.lookup_eq_none_iff.mpr fun e he => bne_iff_ne.mpr ?_
    exact Nat.ne_of_lt (Nat.lt_of_lt_of_le hi (h.le_of_mem (List.mem_reverse.mp he)).1)
  rw [h.identMap_eq, List.lookup_append, hnew]
  rfl

namespace NormalizeIdentifiers

open Scoping

/-! ## The flattened source and the read-back -/

/-- The declarations of a variable's expansions, each under its own name. -/
def expandVariable (decl : Ast.MultiVariable) : List Ast.Statement :=
  (expansionNames decl).map fun n => .variable ⟨{ decl.var with name := n }, none⟩

mutual

/-- A statement list with its blocks inlined and its `%r<N>` declarations expanded. -/
def flattenStatements : List Ast.Statement → List Ast.Statement
  | [] => []
  | statement :: rest => flattenStatement statement ++ flattenStatements rest

/-- One statement, flattened. -/
def flattenStatement : Ast.Statement → List Ast.Statement
  | .label l => [.label l]
  | .variable decl => expandVariable decl
  | .instruction p i => [.instruction p i]
  | .block b => flattenStatements b

end

/-- A method with its body flattened. -/
def flattenFunction (f : Ast.Function) : Ast.Function := { f with body := f.body.map flattenStatements }

/-- A directive with its method's body flattened. -/
def flattenDirective : Ast.Directive → Ast.Directive
  | .variable linking v => .variable linking v
  | .method linking f => .method linking (flattenFunction f)

/-- The source name the identifier table records for an identifier. -/
def nameOf (T : List (SpirvWord × IdentEntry)) (id : SpirvWord) : Option String :=
  (T.lookup id).bind IdentEntry.name

/-- A declaration read back under the name its identifier has in the table. -/
def readVariable (T : List (SpirvWord × IdentEntry)) (v : Ast.Variable SpirvWord) :
    Option (Ast.Variable String) :=
  (fun n => ({ v with name := n } : Ast.Variable String)) <$> nameOf T v.name

/-- A normalized statement read back through the table: a variable as a single declaration, a
    label and every operand and guard under their names.  The forms later passes introduce have
    no source counterpart. -/
def readStatement (T : List (SpirvWord × IdentEntry)) : NormalizedStatement → Option Ast.Statement
  | .variable v => (fun v => .variable ⟨v, none⟩) <$> readVariable T v
  | .label id => .label <$> nameOf T id
  | .instruction (p, i) => do
    let p ← p.mapM fun q => (fun l => ({ not := q.not, label := l } : Ast.PredAt String)) <$>
      nameOf T q.label
    let i ← i.mapM (·.mapM (nameOf T))
    pure (.instruction p i)
  | _ => none

/-- A method name read back: a kernel keeps its text, a device function's identifier becomes
    its name. -/
def readMethodName (T : List (SpirvWord × IdentEntry)) :
    Ast.MethodName SpirvWord → Option (Ast.MethodName String)
  | .kernel k => some (.kernel k)
  | .func id => .func <$> nameOf T id

/-- A normalized method read back: its name, arguments, shared-memory declaration and body
    through the table.  The globals and import name, which the pass leaves empty, have no
    source counterpart. -/
def readFunction (T : List (SpirvWord × IdentEntry)) (f : NormalizedFunction2) :
    Option Ast.Function := do
  let name ← readMethodName T f.funcDecl.name
  let returnArguments ← f.funcDecl.returnArguments.mapM (readVariable T)
  let inputArguments ← f.funcDecl.inputArguments.mapM (readVariable T)
  let sharedMem ← f.funcDecl.sharedMem.mapM (nameOf T)
  let body ← f.body.mapM (·.mapM (readStatement T))
  pure { funcDirective := { returnArguments, name, inputArguments, sharedMem }, tuning := f.tuning
         body }

/-- A normalized directive read back through the table. -/
def readDirective (T : List (SpirvWord × IdentEntry)) : NormalizedDirective2 → Option Ast.Directive
  | .variable linking v => .variable linking <$> readVariable T v
  | .method f => .method f.linkage <$> readFunction T f

/-- Every binding of the scopes `env` binds a name to an identifier the table `T` records under
    that name. -/
def Named (T : List (SpirvWord × IdentEntry)) (env : List Scope) : Prop :=
  ∀ s ∈ env, ∀ b ∈ s, nameOf T b.2 = some b.1

/-! ## Named scopes -/

section Named

variable {T : List (SpirvWord × IdentEntry)} {env : List Scope} {cur bs : Scope} {n : String}
  {i : SpirvWord}

theorem nameOf_of_lookup {e : IdentEntry} (h : T.lookup i = some e) : nameOf T i = e.name := by
  simp [nameOf, h]

/-- The identifier `resolveIn` finds is bound to the name in one of the scopes. -/
theorem mem_of_resolveIn_eq_some : ∀ {env : List Scope}, resolveIn env n = some i → ∃ s ∈ env, (n, i) ∈ s
  | [], h => by cases h
  | s :: ss, h => by
    unfold resolveIn at h
    split at h
    · next j hj =>
      cases h
      exact ⟨s, List.mem_cons_self _ _, List.mem_of_lookup_eq_some hj⟩
    · obtain ⟨s', hs', hm⟩ := mem_of_resolveIn_eq_some h
      exact ⟨s', List.mem_cons_of_mem _ hs', hm⟩

/-- A name resolved in named scopes reads back as itself. -/
theorem Named.resolvedIn (hN : Named T env) (hn : (resolveIn env n).isSome) :
    nameOf T (resolvedIn env n) = some n := by
  obtain ⟨i, hi⟩ := Option.isSome_iff_exists.mp hn
  obtain ⟨s, hs, hm⟩ := mem_of_resolveIn_eq_some hi
  rw [ZludaPtx.resolvedIn, hi]
  exact hN s hs _ hm

/-- Bindings whose identifiers are named after them, pushed on the current scope, keep the
    scopes named. -/
theorem Named.append (hbs : ∀ b ∈ bs, nameOf T b.2 = some b.1) (hN : Named T (cur :: env)) :
    Named T ((bs ++ cur) :: env) := by
  rintro s (_ | ⟨_, hs⟩) b hb
  · rcases List.mem_append.mp hb with hb | hb
    · exact hbs b hb
    · exact hN cur (List.mem_cons_self _ _) b hb
  · exact hN s (List.mem_cons_of_mem _ hs) b hb

/-- A binding of a name to an identifier named after it keeps the scopes named. -/
theorem Named.cons (hb : nameOf T i = some n) (hN : Named T (cur :: env)) :
    Named T (((n, i) :: cur) :: env) :=
  hN.append (by simpa using hb : ∀ b ∈ [(n, i)], nameOf T b.2 = some b.1)

variable {γ : Type} {xs : List γ} {ids : List SpirvWord}

/-- A declaration list zipping identifiers with entries named by `key` names each identifier. -/
theorem nameOf_of_mem_zip (key : γ → String) (f : γ → IdentEntry) (hf : ∀ x, (f x).name = some (key x))
    (hD : ∀ d ∈ ids.zip (xs.map f), T.lookup d.1 = some d.2) {x : γ} (h : (i, x) ∈ ids.zip xs) :
    nameOf T i = some (key x) := by
  have hm : (i, f x) ∈ ids.zip (xs.map f) := by
    rw [List.zip_map_right]
    exact List.mem_map_of_mem (Prod.map id f) h
  rw [nameOf_of_lookup (hD _ hm), hf]

/-- The bindings of the names of `xs` to `ids` are named, when each identifier is declared
    under its name. -/
theorem nameOf_of_mem_binds (key : γ → String) (f : γ → IdentEntry)
    (hf : ∀ x, (f x).name = some (key x))
    (hD : ∀ d ∈ ids.zip (xs.map f), T.lookup d.1 = some d.2) :
    ∀ b ∈ binds (xs.map key) ids, nameOf T b.2 = some b.1 := by
  intro b hb
  rw [binds, List.mem_reverse, List.zip_map_left] at hb
  obtain ⟨⟨x, j⟩, hxj, rfl⟩ := List.mem_map.mp hb
  refine nameOf_of_mem_zip key f hf hD ?_
  rw [← List.zip_swap]
  exact List.mem_map_of_mem Prod.swap hxj

end Named

/-! ## Reading back, level by level -/

section ReadBack

variable {T : List (SpirvWord × IdentEntry)} {env : List Scope} {cur : Scope}

theorem readVariable_rename {v : Ast.Variable String} {i : SpirvWord} (h : nameOf T i = some v.name) :
    readVariable T (v.rename i) = some v := by
  simp [readVariable, Ast.Variable.rename, h]

/-- Arguments renamed one by one read back as themselves when each identifier is named after
    its argument. -/
theorem mapM_readVariable_zipWith :
    ∀ {vs : List (Ast.Variable String)} {ids : List SpirvWord}, ids.length = vs.length →
      (∀ i v, (i, v) ∈ ids.zip vs → nameOf T i = some v.name) →
      (List.zipWith Ast.Variable.rename vs ids).mapM (readVariable T) = some vs
  | [], [], _, _ => rfl
  | v :: vs, i :: ids, hl, h => by
    simp only [List.zipWith_cons_cons, List.mapM_cons,
      readVariable_rename (h i v (List.mem_cons_self _ _)),
      mapM_readVariable_zipWith (Nat.succ.inj hl) fun j w hw => h j w (List.mem_cons_of_mem _ hw)]
    rfl

/-- An instruction resolved in named scopes reads back as itself. -/
theorem readStatement_resolveInstruction {p : Option (Ast.PredAt String)}
    {i : Ast.Instruction (Ast.ParsedOperand String)} (hN : Named T env)
    (hn : ∀ n ∈ guardNames p ++ i.names, (resolveIn env n).isSome) :
    readStatement T (resolveInstruction env p i) = some (.instruction p i) := by
  have hi : (i.map (·.map (resolvedIn env))).mapM (·.mapM (nameOf T)) = some i :=
    Ast.Instruction.mapM_map_eq_some fun op hop =>
      Ast.ParsedOperand.mapM_map_eq_some fun n hn' =>
        hN.resolvedIn (hn n (List.mem_append_right _ (List.mem_flatMap.mpr ⟨op, hop, hn'⟩)))
  cases p with
  | none => simp [readStatement, resolveInstruction, Option.mapM, hi]
  | some q =>
    have hq := hN.resolvedIn (hn q.label (List.mem_append_left _ (by simp [guardNames])))
    simp [readStatement, resolveInstruction, Option.mapM, hi, hq]

/-- The scope a block opens, `base` then its labels, is named when `base` is and each label is
    declared under its name. -/
theorem named_blockScope {base : Scope} {b : List Ast.Statement} {ids : List SpirvWord}
    (hbase : ∀ x ∈ base, nameOf T x.2 = some x.1) (hN : Named T env)
    (hD : ∀ d ∈ labelDecls (labelsOf b) ids, T.lookup d.1 = some d.2) :
    Named T ((binds (labelsOf b) ids ++ base) :: env) := by
  have hl := nameOf_of_mem_binds id (fun l => ⟨some l, none⟩) (fun _ => rfl) hD
  rw [List.map_id] at hl
  rintro s (_ | ⟨_, hs⟩) x hx
  · rcases List.mem_append.mp hx with hx | hx
    · exact hl x hx
    · exact hbase x hx
  · exact hN s hs x hx

mutual

/-- A statement list resolved in named scopes, whose declarations are in the table, reads back
    as the list flattened. -/
theorem stmtsResolve_readBack :
    ∀ (statements : List Ast.Statement) {env cur out decls},
      StmtsResolve env cur statements out decls → Named T (cur :: env) →
      (∀ d ∈ decls, T.lookup d.1 = some d.2) →
      out.mapM (readStatement T) = some (flattenStatements statements)
  | [], env, cur, out, decls, h, _, _ => by
    cases h
    rfl
  | s :: rest, env, cur, out, decls, h, hN, hD => by
    cases h with
    | cons hs hrest =>
      obtain ⟨h₁, hN₁⟩ := stmtResolve_readBack s hs hN fun d hd => hD d (List.mem_append_left _ hd)
      rw [List.mapM_append, h₁,
        stmtsResolve_readBack rest hrest hN₁ fun d hd => hD d (List.mem_append_right _ hd)]
      rfl

/-- One statement resolved in named scopes reads back as the statement flattened, and leaves
    the scopes named. -/
theorem stmtResolve_readBack :
    ∀ (statement : Ast.Statement) {env cur out decls cur'},
      StmtResolve env cur statement out decls cur' → Named T (cur :: env) →
      (∀ d ∈ decls, T.lookup d.1 = some d.2) →
      out.mapM (readStatement T) = some (flattenStatement statement) ∧ Named T (cur' :: env)
  | .label l, env, cur, out, decls, cur', h, hN, _ => by
    cases h with
    | label hl =>
      have hn := hN cur (List.mem_cons_self _ _) _ (List.mem_of_lookup_eq_some hl)
      exact ⟨by simp [-List.mapM, readStatement, flattenStatement, hn], hN⟩
  | .variable decl, env, cur, out, decls, cur', h, hN, hD => by
    cases h with
    | «variable» hlen _ =>
      let f n : IdentEntry := ⟨some n, some (decl.var.vType, decl.var.stateSpace)⟩
      have hb := nameOf_of_mem_binds id f (fun _ => rfl) hD
      rw [List.map_id] at hb
      refine ⟨?_, hN.append hb⟩
      refine List.mapM_eq_some_iff_forall₂.mpr
        (List.forall₂_map_left_iff.mpr (List.forall₂_map_right_iff.mpr ?_))
      refine List.forall₂_iff_zip.mpr ⟨hlen, fun hm => ?_⟩
      simp [readStatement, readVariable, Ast.Variable.rename,
        nameOf_of_mem_zip id f (fun _ => rfl) hD hm]
  | .instruction p i, env, cur, out, decls, cur', h, hN, _ => by
    cases h with
    | instruction hn =>
      exact ⟨by simp [-List.mapM, readStatement_resolveInstruction hN hn, flattenStatement], hN⟩
  | .block b, env, cur, out, decls, cur', h, hN, hD => by
    cases h with
    | block hb =>
      cases hb with
      | mk _ _ _ hstmts =>
        refine ⟨stmtsResolve_readBack b hstmts ?_ fun d hd => hD d (List.mem_append_right _ hd), hN⟩
        exact named_blockScope (by simp) hN fun d hd => hD d (List.mem_append_left _ hd)

end

/-- The name step reads back as the method's name, and leaves the module scope named. -/
theorem nameResolves_readBack {modScope modScope' : Scope} {n : Ast.MethodName String} {o dsName fs}
    (h : NameResolves modScope n o dsName fs modScope') (hN : Named T (modScope :: env))
    (hD : ∀ d ∈ dsName, T.lookup d.1 = some d.2) :
    readMethodName T o = some n ∧ Named T (modScope' :: env) := by
  cases h with
  | kernel => exact ⟨rfl, hN⟩
  | funcBound hl =>
    have hn := hN _ (List.mem_cons_self _ _) _ (List.mem_of_lookup_eq_some hl)
    exact ⟨by simp [readMethodName, hn], hN⟩
  | funcNew =>
    have hn := nameOf_of_lookup (hD _ (List.mem_singleton_self _))
    exact ⟨by simp [readMethodName, hn], hN.cons (by simpa using hn)⟩

/-- A method resolved with a named module scope, whose declarations are in the table, reads
    back as the method with its body flattened, and leaves the module scope named. -/
theorem methodResolves_readBack {modScope modScope' : Scope} {linkage : Ast.LinkingDirective}
    {f : Ast.Function} {out decls fs}
    (h : MethodResolves env modScope linkage f out decls fs modScope')
    (hN : Named T (modScope :: env)) (hD : ∀ d ∈ decls, T.lookup d.1 = some d.2) :
    out.linkage = linkage ∧ readFunction T out = some (flattenFunction f) ∧
      Named T (modScope' :: env) := by
  obtain ⟨⟨ret, name, inp, shared⟩, tuning, body⟩ := f
  obtain @⟨_, _, _, _, rids, iids, out, _, hname, hshared, hrl, hil, _, hbody⟩ := h
  dsimp only at hname hshared hrl hil hbody hD
  subst hshared
  let argEntry (v : Ast.Variable String) : IdentEntry := ⟨some v.name, some (v.vType, v.stateSpace)⟩
  have hDname := fun d hd => hD d (List.mem_append_left _ (List.mem_append_left _ hd))
  have hDargs := fun d hd => hD d (List.mem_append_left _ (List.mem_append_right _ hd))
  have hDbody := fun d hd => hD d (List.mem_append_right _ hd)
  obtain ⟨hn, hN'⟩ := nameResolves_readBack hname hN hDname
  have hargs : ∀ i v, (i, v) ∈ (rids ++ iids).zip (ret ++ inp) → nameOf T i = some v.name :=
    fun _ _ hm => nameOf_of_mem_zip (·.name) argEntry (fun _ => rfl) hDargs hm
  rw [List.zip_append hrl] at hargs
  have hret := mapM_readVariable_zipWith hrl fun i v hm => hargs i v (List.mem_append_left _ hm)
  have hin := mapM_readVariable_zipWith hil fun i v hm => hargs i v (List.mem_append_right _ hm)
  have hb : out.mapM (·.mapM (readStatement T)) = some (body.map flattenStatements) := by
    cases hbody with
    | none => rfl
    | some hblock =>
      cases hblock with
      | mk _ _ _ hstmts =>
        have hbase := nameOf_of_mem_binds (·.name) argEntry (fun _ => rfl) hDargs
        have h := stmtsResolve_readBack _ hstmts
          (named_blockScope hbase hN' fun d hd => hDbody d (List.mem_append_left _ hd))
          fun d hd => hDbody d (List.mem_append_right _ hd)
        simp [-List.mapM, Option.mapM, h]
  refine ⟨rfl, ?_, hN'⟩
  simp only [readFunction, flattenFunction, hn, hret, hin, hb, Option.bind_eq_bind,
    Option.some_bind]
  rfl

/-- A module's directives resolved with a named module scope, whose declarations are in the
    table, read back as the directives flattened. -/
theorem directivesResolve_readBack {modScope : Scope} {ds out decls fs}
    (h : DirectivesResolve env modScope ds out decls fs) :
    Named T (modScope :: env) → (∀ d ∈ decls, T.lookup d.1 = some d.2) →
      out.mapM (readDirective T) = some (ds.map flattenDirective) := by
  induction h with
  | nil => intro _ _; rfl
  | «variable» _ _ ih =>
    intro hN hD
    have hv := nameOf_of_lookup (hD _ (List.mem_cons_self _ _))
    have hrest := ih (hN.cons (by simpa using hv))
      fun d hd => hD d (List.mem_cons_of_mem _ hd)
    simp [-List.mapM, readDirective, readVariable_rename hv, hrest, flattenDirective]
  | method hm _ ih =>
    intro hN hD
    obtain ⟨hl, hf, hN'⟩ := methodResolves_readBack hm hN fun d hd => hD d (List.mem_append_left _ hd)
    have hrest := ih hN' fun d hd => hD d (List.mem_append_right _ hd)
    simp [-List.mapM, readDirective, hl, hf, hrest, flattenDirective]

end ReadBack

/-! ## Whole runs -/

/-- Read back through the table it leaves, the output of a successful run is its input with every
    block inlined and every `%r<N>` declaration expanded: the pass renames and does nothing else,
    and every identifier of its output has a table entry carrying the name it replaced.  The
    resolver the run starts from must have its scopes named by its own table, as a fresh one
    has. -/
theorem run_readBack {ds : List Ast.Directive} {r r' : ScopedResolver} {out}
    (hr : Named r.identMap r.scopes) (h : run ds r = .ok (out, r')) :
    out.mapM (readDirective r'.identMap) = some (ds.map flattenDirective) := by
  obtain ⟨decls, fs, hres, ha⟩ := run_sound h
  refine directivesResolve_readBack hres ?_ fun d hd => ha.lookup_eq hd
  rintro s (_ | ⟨_, hs⟩) b hb
  · cases hb
  · rw [nameOf, ha.lookup_of_lt (r.scopes_lt s hs b hb)]
    exact hr s hs b hb

/-- A kernel declaring `%r<2>` and a nested block with a label, whose instruction uses both. -/
def regsInBlock : List Ast.Directive :=
  [.method ⟨0⟩
    { funcDirective :=
        { returnArguments := [], name := .kernel "k", inputArguments := [], sharedMem := none }
      tuning := []
      body := some
        [.variable ⟨⟨none, .scalar .u32, .reg, "r", []⟩, some 2⟩,
         .block [.label "L", .instruction none (.other [.reg "r1", .reg "L"])]] }]

theorem regsInBlock_readBack :
    Named ScopedResolver.new.identMap ScopedResolver.new.scopes ∧
      ∃ out r', run regsInBlock ScopedResolver.new = .ok (out, r') ∧
        out.mapM (readDirective r'.identMap) = some (regsInBlock.map flattenDirective) :=
  have hr : Named ScopedResolver.new.identMap ScopedResolver.new.scopes := by
    simp [Named, ScopedResolver.new, ScopedResolver.scopes]
  ⟨hr, _, _, rfl, run_readBack hr rfl⟩

end NormalizeIdentifiers

end ZludaPtx
