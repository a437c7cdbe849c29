import ZludaPtx.NormalizeIdentifiers

/-!
# PTX scoping, stated without the resolver

What `normalize_identifiers2` is for, said declaratively.  A name that an instruction uses
denotes the declaration of the innermost enclosing scope that declares it: a nested block, the
function scope (the method's arguments with its top-level body), or the module scope.  A scope
declares its labels wherever they stand in its statement list (labels are hoisted), and its
variables, arguments, module variables and device-function names from their declaration on.

Two descriptions of this follow; neither mentions the resolver, its counter or its errors.

- `StmtsResolve env cur statements out decls`, with `StmtResolve`, `BlockResolves`,
  `MethodResolves` and `DirectivesResolve` above it: `out` is the normalized form of
  `statements` when `cur :: env` are the scopes visible so far, and `decls` are the
  declarations the list makes, each an identifier with the table entry recorded for it.  The
  identifiers are the judgement's choice; what it fixes is that the output is the input with
  blocks inlined and each `%r<N>` expanded, that every use becomes the identifier of the
  declaration scoping selects, and that every label becomes the identifier of its own
  declaration.
- `stmtsScoped`, `methodScoped` and `directivesScoped`: the name-level check that no scope
  declares a name twice and that every name an instruction uses has a visible declaration.
  `directivesAccepted` is the same check without its demand that a device function's name be
  no module variable's, which the pass does not make.

`NormalizeSound` proves that a successful run satisfies the judgement, `NormalizeComplete`
that a module passing the check runs successfully, and `NormalizeExact` that the pass succeeds
exactly on the modules `directivesAccepted` accepts.  The lemmas at the end are facts of the
judgement alone: how device-function names are shared between directives.
-/

namespace ZludaPtx.Scoping

open NormalizeIdentifiers

/-- A declaration: an identifier with the table entry recorded for it. -/
abbrev Decl := SpirvWord × IdentEntry

/-- The names a guard mentions. -/
def guardNames (p : Option (Ast.PredAt String)) : List String := p.toList.map (·.label)

/-- The bindings of `names` to `ids`, pushed one after another on a scope. -/
def binds (names : List String) (ids : List SpirvWord) : Scope := (names.zip ids).reverse

/-- An instruction statement with every name replaced by the identifier `env` selects. -/
def resolveInstruction (env : List Scope) (p : Option (Ast.PredAt String))
    (i : Ast.Instruction (Ast.ParsedOperand String)) : NormalizedStatement :=
  .instruction (p.map fun q => ⟨q.not, resolvedIn env q.label⟩, i.map (·.map (resolvedIn env)))

/-- The declarations of a variable's expansions under the identifiers `ids`. -/
def varDecls (decl : Ast.MultiVariable) (ids : List SpirvWord) : List Decl :=
  ids.zip ((expansionNames decl).map fun n => ⟨some n, some (decl.var.vType, decl.var.stateSpace)⟩)

/-- The declarations of labels under the identifiers `ids`: labels have no type. -/
def labelDecls (labels : List String) (ids : List SpirvWord) : List Decl :=
  ids.zip (labels.map fun l => ⟨some l, none⟩)

/-- The declarations of arguments under the identifiers `ids`. -/
def argDecls (vars : List (Ast.Variable String)) (ids : List SpirvWord) : List Decl :=
  ids.zip (vars.map fun v => ⟨some v.name, some (v.vType, v.stateSpace)⟩)

/-! ## The scoping judgement -/

mutual

/-- `StmtsResolve env cur statements out decls`: in the current scope `cur`, inside the scopes
    `env`, the statement list normalizes to `out` and declares `decls`. -/
inductive StmtsResolve : List Scope → Scope → List Ast.Statement → List NormalizedStatement →
    List Decl → Prop
  | nil {env cur} : StmtsResolve env cur [] [] []
  | cons {env cur s rest out outRest decls declsRest cur'} :
      StmtResolve env cur s out decls cur' → StmtsResolve env cur' rest outRest declsRest →
      StmtsResolve env cur (s :: rest) (out ++ outRest) (decls ++ declsRest)

/-- `StmtResolve env cur s out decls cur'`: one statement, after which the current scope is
    `cur'`. -/
inductive StmtResolve : List Scope → Scope → Ast.Statement → List NormalizedStatement →
    List Decl → Scope → Prop
  /-- A label becomes the identifier its hoisted declaration got. -/
  | label {env cur l id} : cur.lookup l = some id →
      StmtResolve env cur (.label l) [.label id] [] cur
  /-- A declaration introduces its expansions, new to the current scope, in order. -/
  | variable {env cur decl ids} : ids.length = (expansionNames decl).length →
      (∀ n ∈ expansionNames decl, cur.lookup n = none) →
      StmtResolve env cur (.variable decl) (ids.map fun i => .variable (decl.var.rename i))
        (varDecls decl ids) (binds (expansionNames decl) ids ++ cur)
  /-- Every name an instruction uses is declared in a visible scope, and becomes the identifier
      of the innermost such declaration. -/
  | instruction {env cur p i} :
      (∀ n ∈ guardNames p ++ i.names, (resolveIn (cur :: env) n).isSome) →
      StmtResolve env cur (.instruction p i) [resolveInstruction (cur :: env) p i] [] cur
  /-- A block is inlined in place; what it declares is invisible after it. -/
  | block {env cur b out decls} : BlockResolves (cur :: env) [] b out decls →
      StmtResolve env cur (.block b) out decls cur

/-- `BlockResolves env base b out decls`: a statement list in a scope of its own, which holds
    `base` (a method's arguments, or nothing) and then the list's labels, all declared first. -/
inductive BlockResolves : List Scope → Scope → List Ast.Statement → List NormalizedStatement →
    List Decl → Prop
  | mk {env base b ids out decls} : ids.length = (labelsOf b).length → (labelsOf b).Nodup →
      (∀ l ∈ labelsOf b, base.lookup l = none) →
      StmtsResolve env (binds (labelsOf b) ids ++ base) b out decls →
      BlockResolves env base b out (labelDecls (labelsOf b) ids ++ decls)

end

/-- How a method's name enters the module scope (§4.3, step 1): a kernel's name is not bound; a
    device function's name is bound by its first declaration, and every later declaration of
    the name reuses the binding.  The list records the device-function name the directive
    carries, with its identifier. -/
inductive NameResolves : Scope → Ast.MethodName String → Ast.MethodName SpirvWord → List Decl →
    List (String × SpirvWord) → Scope → Prop
  | kernel {modScope k} : NameResolves modScope (.kernel k) (.kernel k) [] [] modScope
  | funcBound {modScope t id} : modScope.lookup t = some id →
      NameResolves modScope (.func t) (.func id) [] [(t, id)] modScope
  | funcNew {modScope t id} : modScope.lookup t = none →
      NameResolves modScope (.func t) (.func id) [(id, ⟨some t, none⟩)] [(t, id)]
        ((t, id) :: modScope)

/-- A method body, when present, is a statement list in the function scope `fscope`. -/
inductive BodyResolves : List Scope → Scope → Option (List Ast.Statement) →
    Option (List NormalizedStatement) → List Decl → Prop
  | none {env fscope} : BodyResolves env fscope none none []
  | some {env fscope b out decls} : BlockResolves env fscope b out decls →
      BodyResolves env fscope (some b) (some out) decls

/-- `MethodResolves env modScope linkage f out decls fs modScope'`: a method, with module scope
    `modScope` inside the scopes `env`.  Its arguments, distinct, open the function scope, which
    its body's labels and variables then share. -/
inductive MethodResolves : List Scope → Scope → Ast.LinkingDirective → Ast.Function →
    NormalizedFunction2 → List Decl → List (String × SpirvWord) → Scope → Prop
  | mk {env modScope linkage f name dsName fs modScope' rids iids body dsBody} :
      NameResolves modScope f.funcDirective.name name dsName fs modScope' →
      f.funcDirective.sharedMem = none →
      rids.length = f.funcDirective.returnArguments.length →
      iids.length = f.funcDirective.inputArguments.length →
      ((argsOf f.funcDirective).map (·.name)).Nodup →
      BodyResolves (modScope' :: env) (binds ((argsOf f.funcDirective).map (·.name)) (rids ++ iids))
        f.body body dsBody →
      MethodResolves env modScope linkage f
        { funcDecl :=
            { returnArguments := List.zipWith Ast.Variable.rename f.funcDirective.returnArguments rids
              name
              inputArguments := List.zipWith Ast.Variable.rename f.funcDirective.inputArguments iids
              sharedMem := none }
          globals := [], body, importAs := none, tuning := f.tuning, linkage }
        (dsName ++ argDecls (argsOf f.funcDirective) (rids ++ iids) ++ dsBody) fs modScope'

/-- `DirectivesResolve env modScope ds out decls fs`: the directives `ds` of a module whose
    module scope holds `modScope` so far, inside the scopes `env`.  A module variable's name is
    new to the module scope. -/
inductive DirectivesResolve : List Scope → Scope → List Ast.Directive →
    List NormalizedDirective2 → List Decl → List (String × SpirvWord) → Prop
  | nil {env modScope} : DirectivesResolve env modScope [] [] [] []
  | variable {env modScope linking v id rest out decls fs} : modScope.lookup v.name = none →
      DirectivesResolve env ((v.name, id) :: modScope) rest out decls fs →
      DirectivesResolve env modScope (.variable linking v :: rest)
        (.variable linking (v.rename id) :: out)
        ((id, ⟨some v.name, some (v.vType, v.stateSpace)⟩) :: decls) fs
  | method {env modScope linking f rest out outRest decls declsRest fs fsRest modScope'} :
      MethodResolves env modScope linking f out decls fs modScope' →
      DirectivesResolve env modScope' rest outRest declsRest fsRest →
      DirectivesResolve env modScope (.method linking f :: rest) (.method out :: outRest)
        (decls ++ declsRest) (fs ++ fsRest)

/-! ## The name-level check -/

mutual

/-- The name-level check of a statement list, with the names `vis` visible before it: no block
    declares a name twice, and every name an instruction uses is visible. -/
def stmtsScoped (vis : List String) : List Ast.Statement → Bool
  | [] => true
  | s :: rest => stmtScoped vis s && stmtsScoped (varNamesOf [s] ++ vis) rest

/-- The name-level check of one statement, with the names `vis` visible before it. -/
def stmtScoped (vis : List String) : Ast.Statement → Bool
  | .label _ => true
  | .variable _ => true
  | .instruction p i => (guardNames p ++ i.names).all (· ∈ vis)
  | .block b => decide (labelsOf b ++ varNamesOf b).Nodup && stmtsScoped (labelsOf b ++ vis) b

end

/-- The name-level check of a method, with the module-level names `vis` visible: its function
    scope (arguments, and the top-level body's labels and variables) declares no name twice,
    and its body passes `stmtsScoped`. -/
def methodScoped (vis : List String) (f : Ast.Function) : Bool :=
  match f.body with
  | none => decide ((argsOf f.funcDirective).map (·.name)).Nodup
  | some b =>
    decide ((argsOf f.funcDirective).map (·.name) ++ labelsOf b ++ varNamesOf b).Nodup &&
      stmtsScoped (labelsOf b ++ (argsOf f.funcDirective).map (·.name) ++ vis) b

/-- The name-level check of a module, where `vars` and `funcs` are the module variables and
    device-function names declared so far.  A module variable's name is new to the module
    scope; a device function's name is no module variable's, but may repeat a device
    function's.  The method's own name is visible in its body. -/
def directivesScoped (vars funcs : List String) : List Ast.Directive → Bool
  | [] => true
  | .variable _ v :: rest =>
    decide (v.name ∉ vars ++ funcs) && directivesScoped (v.name :: vars) funcs rest
  | .method _ f :: rest =>
    match f.funcDirective.name with
    | .kernel _ => methodScoped (vars ++ funcs) f && directivesScoped vars funcs rest
    | .func t =>
      decide (t ∉ vars) && methodScoped (vars ++ t :: funcs) f &&
        directivesScoped vars (t :: funcs) rest

/-- The name-level check of a module that the pass itself makes: `directivesScoped` without its
    demand that a device function's name be no module variable's.  The name step takes any
    binding the module scope already has (`add_or_get_in_current_scope_untyped`), so such a
    function shares the variable's identifier. -/
def directivesAccepted (vars funcs : List String) : List Ast.Directive → Bool
  | [] => true
  | .variable _ v :: rest =>
    decide (v.name ∉ vars ++ funcs) && directivesAccepted (v.name :: vars) funcs rest
  | .method _ f :: rest =>
    match f.funcDirective.name with
    | .kernel _ => methodScoped (vars ++ funcs) f && directivesAccepted vars funcs rest
    | .func t => methodScoped (vars ++ t :: funcs) f && directivesAccepted vars (t :: funcs) rest

theorem directivesAccepted_of_scoped {vars funcs : List String} {ds : List Ast.Directive}
    (h : directivesScoped vars funcs ds = true) : directivesAccepted vars funcs ds = true := by
  induction ds generalizing vars funcs with
  | nil => rfl
  | cons d ds ih =>
    cases d with
    | «variable» _ v =>
      simp only [directivesScoped, directivesAccepted, Bool.and_eq_true] at h ⊢
      exact ⟨h.1, ih h.2⟩
    | method _ f =>
      cases hn : f.funcDirective.name <;>
        simp only [directivesScoped, directivesAccepted, hn, Bool.and_eq_true] at h ⊢
      · exact ⟨h.1, ih h.2⟩
      · exact ⟨h.1.2, ih h.2⟩

/-! ## Device-function names -/

/-- The names of a module's variables. -/
def moduleVarNames (ds : List Ast.Directive) : List String :=
  ds.filterMap fun
    | .variable _ v => some v.name
    | .method _ _ => none

/-- The device-function names of a module's methods, one per method. -/
def deviceFunctionNames (ds : List Ast.Directive) : List String :=
  ds.filterMap fun
    | .variable _ _ => none
    | .method _ f =>
      match f.funcDirective.name with
      | .kernel _ => none
      | .func t => some t

section DeviceFunctions

variable {env : List Scope} {modScope : Scope} {ds : List Ast.Directive}
  {out : List NormalizedDirective2} {decls : List Decl} {fs : List (String × SpirvWord)}

/-- A recorded device-function name is the method's own. -/
theorem NameResolves.eq_func {m m' : Scope} {n o ds fs} (h : NameResolves m n o ds fs m') :
    ∀ f ∈ fs, n = .func f.1 := by
  cases h <;> simp

/-- Every recorded device-function name is the name of one of the module's methods. -/
theorem DirectivesResolve.mem_deviceFunctionNames (h : DirectivesResolve env modScope ds out decls fs) :
    ∀ f ∈ fs, f.1 ∈ deviceFunctionNames ds := by
  induction h with
  | nil => simp
  | «variable» _ _ ih => simpa [deviceFunctionNames] using ih
  | method hm _ ih =>
    obtain ⟨hn, -⟩ := hm
    intro f hf
    rcases List.mem_append.mp hf with hf | hf
    · simp [deviceFunctionNames, hn.eq_func f hf]
    · exact ((List.sublist_cons_self _ _).filterMap _).subset (ih f hf)

namespace NameResolves

variable {m m' : Scope} {n : Ast.MethodName String} {o : Ast.MethodName SpirvWord}
  {dsName : List Decl} {fsName : List (String × SpirvWord)}

/-- The module scope after a method's name keeps every binding it had. -/
theorem lookup_of_lookup (h : NameResolves m n o dsName fsName m') {t i} (ht : m.lookup t = some i) :
    m'.lookup t = some i ∧ ∀ f ∈ fsName, f.1 = t → f.2 = i := by
  cases h with
  | kernel => simp [ht]
  | funcBound h =>
    refine ⟨ht, ?_⟩
    simp only [List.mem_singleton]
    rintro _ rfl rfl
    simp_all
  | funcNew h =>
    refine ⟨Scope.lookup_cons_of_eq_some h ht, ?_⟩
    simp only [List.mem_singleton]
    rintro _ rfl rfl
    rw [h] at ht
    cases ht

/-- After a method's name, the module scope binds it to the recorded identifier. -/
theorem lookup_self (h : NameResolves m n o dsName fsName m') : ∀ f ∈ fsName, m'.lookup f.1 = some f.2 := by
  cases h <;> simp_all

/-- A method records at most one device-function name. -/
theorem subsingleton (h : NameResolves m n o dsName fsName m') : ∀ f ∈ fsName, ∀ g ∈ fsName, f = g := by
  cases h <;> simp

/-- A recorded device-function name was bound already, or is declared here. -/
theorem mem_cases (h : NameResolves m n o dsName fsName m') :
    ∀ f ∈ fsName, m.lookup f.1 = some f.2 ∨ (f.2, ⟨some f.1, none⟩) ∈ dsName := by
  cases h <;> simp_all

/-- A binding of the module scope after a method's name was there before, or is declared here. -/
theorem lookup_cases (h : NameResolves m n o dsName fsName m') {t i} (ht : m'.lookup t = some i) :
    m.lookup t = some i ∨ (i, ⟨some t, none⟩) ∈ dsName := by
  cases h with
  | kernel | funcBound _ => exact .inl ht
  | funcNew h =>
    rename_i t' i'
    by_cases he : t = t'
    · subst he; simp_all [List.lookup_cons]
    · rw [List.lookup_cons, beq_false_of_ne he] at ht
      exact .inl ht

end NameResolves

/-- Once the module scope binds a name, every later method of that name carries its binding. -/
theorem DirectivesResolve.eq_of_lookup (h : DirectivesResolve env modScope ds out decls fs) {t i} :
    modScope.lookup t = some i → ∀ f ∈ fs, f.1 = t → f.2 = i := by
  induction h with
  | nil => simp
  | «variable» hv _ ih => exact fun ht => ih (Scope.lookup_cons_of_eq_some hv ht)
  | method hm _ ih =>
    obtain ⟨hn, -⟩ := hm
    intro ht f hf
    rcases List.mem_append.mp hf with hf | hf
    · exact (hn.lookup_of_lookup ht).2 f hf
    · exact ih (hn.lookup_of_lookup ht).1 f hf

/-- Methods of one device-function name carry one identifier. -/
theorem DirectivesResolve.eq_of_name_eq (h : DirectivesResolve env modScope ds out decls fs) :
    ∀ f ∈ fs, ∀ g ∈ fs, f.1 = g.1 → f.2 = g.2 := by
  induction h with
  | nil => simp
  | «variable» _ _ ih => exact ih
  | method hm hrest ih =>
    obtain ⟨hn, -⟩ := hm
    intro f hf g hg he
    rcases List.mem_append.mp hf with hf | hf <;> rcases List.mem_append.mp hg with hg | hg
    · rw [hn.subsingleton f hf g hg]
    · exact (hrest.eq_of_lookup (hn.lookup_self f hf) g hg he.symm).symm
    · exact hrest.eq_of_lookup (hn.lookup_self g hg) f hf he
    · exact ih f hf g hg he

/-- A recorded device-function name is declared in the module as a device function, or was bound
    in the module scope before it, or is also a module variable's name. -/
theorem DirectivesResolve.mem_cases (h : DirectivesResolve env modScope ds out decls fs) :
    ∀ f ∈ fs, (f.2, ⟨some f.1, none⟩) ∈ decls ∨ modScope.lookup f.1 = some f.2 ∨
      f.1 ∈ moduleVarNames ds := by
  induction h with
  | nil => simp
  | @«variable» _ _ v _ _ _ _ _ _ _ ih =>
    intro f hf
    rcases ih f hf with hd | hl | hm
    · exact .inl (List.mem_cons_of_mem _ hd)
    · by_cases he : f.1 = v.name
      · simp [moduleVarNames, he]
      · rw [List.lookup_cons, beq_false_of_ne he] at hl
        exact .inr (.inl hl)
    · exact .inr (.inr (by simp_all [moduleVarNames]))
  | method hm _ ih =>
    obtain ⟨hn, -⟩ := hm
    intro f hf
    rcases List.mem_append.mp hf with hf | hf
    · rcases hn.mem_cases f hf with hl | hd
      · exact .inr (.inl hl)
      · exact .inl (List.mem_append_left _ (List.mem_append_left _ (List.mem_append_left _ hd)))
    · rcases ih f hf with hd | hl | hm
      · exact .inl (List.mem_append_right _ hd)
      · rcases hn.lookup_cases hl with hl | hd
        · exact .inr (.inl hl)
        · exact .inl (List.mem_append_left _ (List.mem_append_left _ (List.mem_append_left _ hd)))
      · exact .inr (.inr (by simpa [moduleVarNames] using hm))

end DeviceFunctions

end ZludaPtx.Scoping
