import ZludaPtx.NormalizeIdentifiers

/-!
# The scope stack across statement lists and methods

`run_statements` and `run_method` declare into scopes they push themselves and pop before they
return, so what they leave behind is small.  A statement list returns with the stack as deep as
it found it and the scopes below the innermost untouched, and the innermost scope gains exactly
the list's own labels and then its own variables: the declarations of a nested block live and
die with the block's scope (`runStatement_block`).  A method pops the scope of its arguments and
body, and leaves in the current (module) scope at most the binding of a device function's name,
so every other name resolves after it as it did before.

## Key results

- `runStatements_extends`: a statement list extends the current scope by its own labels and
  variables only
- `runMethod_scopes`: a method keeps the outer scopes and binds at most its own name
- `runMethod_resolveIn`: after a method, every other name resolves as before it
- `mapM_runDirective_scopes`: a module's directives leave in the module scope only the names of
  its global variables and device functions
-/

namespace ZludaPtx.NormalizeIdentifiers

open ScopedResolver

variable {r r' : ScopedResolver}

/-- `run_statements` extends the current scope with the list's labels (the pre-pass) and then
    its variables (the main pass), and leaves the scopes below it alone. -/
theorem runStatements_extends {statements : List Ast.Statement} {out}
    (h : runStatements statements r = .ok (out, r')) :
    Extends (labelsOf statements ++ varNamesOf statements) r r' := by
  simp only [runStatements, StateT.bind_apply_eq_ok] at h
  obtain ⟨_, _, hlab, hmain⟩ := h
  obtain ⟨hnd, hfresh, rfl⟩ := addLabels_eq_ok.mp hlab
  have hl : ((labelsOf statements).map (·, (none : Option (PtxType × StateSpace)))).map
      Prod.fst = labelsOf statements := by simp [Function.comp_def]
  have hlabels := Extends.bindAll (r := r) (by rwa [hl]) (by rwa [hl])
  rw [hl] at hlabels
  exact hlabels.trans (runStatementsMain_extends statements hmain)

/-- A method body, when present, leaves the scopes below the current one alone. -/
theorem body_mapM_outer {body : Option (List Ast.Statement)} {out}
    (h : (body.mapM runStatements) r = .ok (out, r')) : r'.outer = r.outer := by
  cases body with
  | none =>
    simp only [Option.mapM, StateT.pure_apply, Except.ok.injEq, Prod.mk.injEq] at h
    rw [h.2]
  | some b =>
    simp only [Option.mapM, StateT.bind_apply_eq_ok, StateT.pure_apply, Except.ok.injEq,
      Prod.mk.injEq] at h
    obtain ⟨_, _, h, -, rfl⟩ := h
    exact (runStatements_extends h).outer_eq

/-- The name step binds at most a device function's name, in the current scope and under the
    next identifier. -/
theorem methodName_scopes {n : Ast.MethodName String} {o} (h : methodName n r = .ok (o, r')) :
    r'.outer = r.outer ∧ (r'.current = r.current ∨ ∃ text, n = .func text ∧
      r.current.lookup text = none ∧ r'.current = (text, r.currentId) :: r.current) := by
  cases n with
  | kernel k =>
    simp only [methodName, StateT.pure_apply, Except.ok.injEq, Prod.mk.injEq] at h
    rw [← h.2]
    exact ⟨rfl, .inl rfl⟩
  | func t =>
    simp only [methodName, StateT.bind_apply_eq_ok, addOrGetInCurrentScopeUntyped_eq_ok,
      StateT.pure_apply, Except.ok.injEq, Prod.mk.injEq] at h
    obtain ⟨_, _, ⟨-, rfl⟩ | ⟨hl, rfl, rfl⟩, -, rfl⟩ := h
    · exact ⟨rfl, .inl rfl⟩
    · exact ⟨rfl, .inr ⟨t, rfl, hl, rfl⟩⟩

/-- `run_method` pops the scope it pushed for the arguments and the body: the outer scopes are
    kept, and the current scope gains at most the binding of a device function's name. -/
theorem runMethod_scopes {linkage : Ast.LinkingDirective} {method : Ast.Function} {f}
    (h : runMethod linkage method r = .ok (f, r')) :
    r'.outer = r.outer ∧ (r'.current = r.current ∨ ∃ text, method.funcDirective.name = .func text ∧
      r.current.lookup text = none ∧ r'.current = (text, r.currentId) :: r.current) := by
  simp only [runMethod, StateT.bind_apply_eq_ok, startScope_apply, StateT.pure_apply,
    Except.ok.injEq, Prod.mk.injEq] at h
  obtain ⟨_, r₁, hname, _, _, ⟨-, rfl⟩, _, _, hdecl, _, r₃, hbody, _, _, hend, -, rfl⟩ := h
  obtain ⟨-, -, -, -, rfl⟩ := runFunctionDecl_eq_ok.mp hdecl
  obtain ⟨s, ss, hs, rfl⟩ := endScope_eq_ok.mp hend
  have ho : r₃.outer = r₁.current :: r₁.outer := by rw [body_mapM_outer hbody]; simp
  rw [hs] at ho
  obtain ⟨rfl, rfl⟩ := List.cons.inj ho
  simpa only [popScope_outer, popScope_current] using methodName_scopes hname

/-- After a method, every name other than a device function's own resolves as it did before:
    no argument, label or local of the method is left bound. -/
theorem runMethod_resolveIn {linkage : Ast.LinkingDirective} {method : Ast.Function} {f}
    (h : runMethod linkage method r = .ok (f, r')) {n : String}
    (hn : method.funcDirective.name ≠ .func n) : resolveIn r'.scopes n = resolveIn r.scopes n := by
  obtain ⟨ho, hc | ⟨t, ht, -, hc⟩⟩ := runMethod_scopes h
  · rw [scopes, scopes, ho, hc]
  · have hne : n ≠ t := by rintro rfl; exact hn ht
    simp only [scopes, ho, hc, resolveIn, List.lookup_cons, beq_false_of_ne hne]

/-- The scope discipline of the pass: a statement list, blocks nested to any depth included,
    returns with a stack as deep as it found, the scopes below the innermost unchanged, and the
    innermost extended by exactly its own labels and variables; a method returns with a stack as
    deep as it found, adds to the current scope at most its device function's name, and leaves
    every other name resolving as before. -/
theorem runStatements_runMethod_scopes :
    (∀ (statements : List Ast.Statement) (r r' : ScopedResolver) out,
      runStatements statements r = .ok (out, r') →
        r'.scopes.length = r.scopes.length ∧ r'.outer = r.outer ∧
          Extends (labelsOf statements ++ varNamesOf statements) r r') ∧
    (∀ (linkage : Ast.LinkingDirective) (method : Ast.Function) (r r' : ScopedResolver) f,
      runMethod linkage method r = .ok (f, r') →
        r'.scopes.length = r.scopes.length ∧ r'.outer = r.outer ∧
          (r'.current = r.current ∨ ∃ text, method.funcDirective.name = .func text ∧
            r.current.lookup text = none ∧ r'.current = (text, r.currentId) :: r.current) ∧
          ∀ n, method.funcDirective.name ≠ .func n → resolveIn r'.scopes n = resolveIn r.scopes n) := by
  refine ⟨fun statements r r' out h => ?_, fun linkage method r r' f h => ?_⟩
  · have he := runStatements_extends h
    exact ⟨by simp [scopes, he.outer_eq], he.outer_eq, he⟩
  · obtain ⟨ho, hc⟩ := runMethod_scopes h
    exact ⟨by simp [scopes, ho], ho, hc, fun n hn => runMethod_resolveIn h hn⟩

/-- A body that declares `x`, opens a block that declares its own `x`, then places label `L`. -/
def shadowBody : List Ast.Statement :=
  let x : Ast.Variable String :=
    { align := none, vType := .scalar .u32, stateSpace := .reg, name := "x", arrayInit := [] }
  [.variable ⟨x, none⟩, .block [.variable ⟨x, none⟩, .instruction none (.other [.reg "x"])],
    .label "L"]

/-- A device function `f` with one argument `a` and `shadowBody` for its body. -/
def shadowFunc : Ast.Function :=
  { funcDirective :=
      { returnArguments := [], name := .func "f", sharedMem := none
        inputArguments :=
          [{ align := none, vType := .scalar .u32, stateSpace := .reg, name := "a", arrayInit := [] }] }
    tuning := [], body := some shadowBody }

/-- From a fresh resolver, `shadowBody` leaves one scope, extended by `L` and the outer `x` only;
    `shadowFunc` leaves one scope in which no name but `f` resolves. -/
theorem shadowBody_scopes :
    (∃ out r', runStatements shadowBody ScopedResolver.new = .ok (out, r') ∧
      r'.scopes.length = 1 ∧ Extends ["L", "x"] ScopedResolver.new r') ∧
    ∃ g r', runMethod ⟨0⟩ shadowFunc ScopedResolver.new = .ok (g, r') ∧
      r'.scopes.length = 1 ∧ ∀ n, n ≠ "f" → resolveIn r'.scopes n = none :=
  have h₁ : runStatements shadowBody ScopedResolver.new = .ok (_, _) := rfl
  have h₂ : runMethod ⟨0⟩ shadowFunc ScopedResolver.new = .ok (_, _) := rfl
  let ⟨hl₁, _, he⟩ := runStatements_runMethod_scopes.1 _ _ _ _ h₁
  let ⟨hl₂, _, _, hr⟩ := runStatements_runMethod_scopes.2 _ _ _ _ _ h₂
  ⟨⟨_, _, h₁, hl₁, he⟩, _, _, h₂, hl₂,
    fun n hn => (hr n fun h => hn (Ast.MethodName.func.inj h).symm).trans rfl⟩

/-! ## Modules -/

/-- The names a directive binds in the module scope: a global variable's, or a device
    function's; a kernel keeps its text and binds nothing. -/
def directiveNames : Ast.Directive → List String
  | .variable _ v => [v.name]
  | .method _ f =>
    match f.funcDirective.name with
    | .func text => [text]
    | .kernel _ => []

/-- One directive keeps the outer scopes and grows the module scope only by bindings of its own
    module-level names. -/
theorem runDirective_scopes {d : Ast.Directive} {o} (h : runDirective d r = .ok (o, r')) :
    r'.outer = r.outer ∧ ∃ bs : Scope, r'.current = bs ++ r.current ∧
      ∀ b ∈ bs, b.1 ∈ directiveNames d := by
  cases d with
  | «variable» linking v =>
    simp only [runDirective, StateT.bind_apply_eq_ok, runVariable_eq_ok, StateT.pure_apply,
      Except.ok.injEq, Prod.mk.injEq] at h
    obtain ⟨_, _, ⟨-, rfl, rfl⟩, -, rfl⟩ := h
    exact ⟨rfl, [(v.name, r.currentId)], rfl, by simp [directiveNames]⟩
  | method linking f =>
    simp only [runDirective, StateT.bind_apply_eq_ok, StateT.pure_apply, Except.ok.injEq,
      Prod.mk.injEq] at h
    obtain ⟨_, _, h, -, rfl⟩ := h
    obtain ⟨ho, hc | ⟨t, ht, -, hc⟩⟩ := runMethod_scopes h
    · exact ⟨ho, [], by simp [hc], by simp⟩
    · exact ⟨ho, [(t, r.currentId)], hc, by simp [directiveNames, ht]⟩

/-- A module's directives, normalized one after another, keep the scopes below the module scope
    and leave in it only bindings of global variables' and device functions' names: no argument,
    label or local of a method is bound when the next directive runs, nor after the last. -/
theorem mapM_runDirective_scopes :
    ∀ (ds : List Ast.Directive) {r r' : ScopedResolver} {out},
      (ds.mapM runDirective) r = .ok (out, r') →
      r'.outer = r.outer ∧ ∃ bs : Scope, r'.current = bs ++ r.current ∧
        ∀ b ∈ bs, b.1 ∈ ds.flatMap directiveNames
  | [], r, r', out, h => by
    simp only [List.mapM_nil, StateT.pure_apply, Except.ok.injEq, Prod.mk.injEq] at h
    obtain ⟨-, rfl⟩ := h
    exact ⟨rfl, [], rfl, by simp⟩
  | d :: rest, r, r', out, h => by
    rw [List.mapM_cons] at h
    simp only [StateT.bind_apply_eq_ok, StateT.pure_apply, Except.ok.injEq, Prod.mk.injEq] at h
    obtain ⟨_, r₁, h₁, _, _, h₂, -, rfl⟩ := h
    obtain ⟨ho₁, bs₁, hc₁, hb₁⟩ := runDirective_scopes h₁
    obtain ⟨ho₂, bs₂, hc₂, hb₂⟩ := mapM_runDirective_scopes rest h₂
    refine ⟨ho₂.trans ho₁, bs₂ ++ bs₁, by rw [hc₂, hc₁, List.append_assoc], fun b hb => ?_⟩
    rw [List.flatMap_cons, List.mem_append]
    rcases List.mem_append.mp hb with hb | hb
    · exact .inr (hb₂ b hb)
    · exact .inl (hb₁ b hb)

/-- A global variable `g`, then the device function `shadowFunc`. -/
def globalThenFunc : List Ast.Directive :=
  [.variable ⟨0⟩
    { align := none, vType := .scalar .u32, stateSpace := .global, name := "g", arrayInit := [] },
   .method ⟨0⟩ shadowFunc]

/-- From a fresh resolver, `globalThenFunc` leaves the module scope with bindings for `g` and `f`
    only. -/
theorem globalThenFunc_moduleScope :
    ∃ out r', (globalThenFunc.mapM runDirective) ScopedResolver.new = .ok (out, r') ∧
      r'.outer = [] ∧ ∃ bs : Scope, r'.current = bs ∧ ∀ b ∈ bs, b.1 ∈ ["g", "f"] :=
  have h : (globalThenFunc.mapM runDirective) ScopedResolver.new = .ok (_, _) := rfl
  let ⟨ho, bs, hc, hb⟩ := mapM_runDirective_scopes _ h
  ⟨_, _, h, ho, bs, hc.trans (List.append_nil bs), hb⟩

end ZludaPtx.NormalizeIdentifiers
