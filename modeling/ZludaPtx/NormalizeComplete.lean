import ZludaPtx.Scoping

/-!
# Completeness of `normalize_identifiers2`

The pass rejects a module only for a scoping fault: when no method carries a shared-memory
declaration, a module that passes the name-level check `directivesScoped` (no scope declares a
name twice, every used name has a visible declaration) runs to `Ok` from any resolver.  In
particular no `get_in_current_scope` of a label fails, since the pre-pass has bound every
label of its list.

The proof follows the pass.  Its invariant for a statement list is that the list's variables
are new to the current scope, its labels are bound there, and every name the check counts as
visible is found by `get`; `Extends` carries it from one statement to the next.

## Key results

- `runStatementsMain_complete` / `runStatement_complete`: the main pass over nested blocks
- `runMethod_complete`, `mapM_runDirective_complete_of_accepted`: methods and modules, under
  the pass's own check `directivesAccepted`, which `directivesScoped` implies
-/

namespace ZludaPtx.NormalizeIdentifiers

open ScopedResolver Scoping

section Statements

variable {r : ScopedResolver} {vis : List String}

/-- After the label pre-pass of a list whose labels and variables are distinct and new to the
    current scope, the main pass starts with its variables new, its labels bound, and the labels
    visible beside everything visible before. -/
theorem addLabels_complete {b : List Ast.Statement} (hnd : (labelsOf b ++ varNamesOf b).Nodup)
    (hfresh : ∀ n ∈ labelsOf b ++ varNamesOf b, r.current.lookup n = none)
    (hvis : ∀ n ∈ vis, (resolveIn r.scopes n).isSome) :
    let r₂ := r.bindAll ((labelsOf b).map (·, none))
    addLabels b r = .ok ((), r₂) ∧ (varNamesOf b).Nodup ∧
      (∀ n ∈ varNamesOf b, r₂.current.lookup n = none) ∧
      (∀ l ∈ labelsOf b, l ∈ r₂.current.map Prod.fst) ∧
      (∀ n ∈ labelsOf b ++ vis, (resolveIn r₂.scopes n).isSome) := by
  obtain ⟨hndl, hndv, hdisj⟩ := List.nodup_append.mp hnd
  have hl : ∀ l ∈ labelsOf b, r.current.lookup l = none :=
    fun l hl => hfresh l (List.mem_append_left _ hl)
  have hext : Extends (((labelsOf b).map (·, none)).map Prod.fst) r
      (r.bindAll ((labelsOf b).map (·, none))) := Extends.bindAll
    (by simpa [List.map_map, Function.comp_def] using hndl)
    (by simpa [List.map_map, Function.comp_def] using hl)
  simp only [List.map_map, Function.comp_def, List.map_id'] at hext
  refine ⟨addLabels_eq_ok.mpr ⟨hndl, hl, rfl⟩, hndv,
    fun n hn => hext.lookup_eq_none_of (fun h => hdisj h hn) (hfresh n (List.mem_append_right _ hn)),
    fun l hl => hext.mem_current hl, fun n hn => ?_⟩
  rcases List.mem_append.mp hn with hn | hn
  · exact resolveIn_isSome_of_mem_current (hext.mem_current hn)
  · exact hext.resolveIn_isSome (hvis n hn)

mutual

/-- The main pass succeeds on a list that passes the check, when its variables are distinct and
    new to the current scope, its labels are bound there and the visible names are found. -/
theorem runStatementsMain_complete :
    ∀ (statements : List Ast.Statement) {r : ScopedResolver} {vis : List String},
      (varNamesOf statements).Nodup →
      (∀ n ∈ varNamesOf statements, r.current.lookup n = none) →
      (∀ l ∈ labelsOf statements, l ∈ r.current.map Prod.fst) →
      (∀ n ∈ vis, (resolveIn r.scopes n).isSome) →
      stmtsScoped vis statements = true →
      ∃ out r', runStatementsMain statements r = .ok (out, r')
  | [], r, _, _, _, _, _, _ => ⟨[], r, rfl⟩
  | s :: rest, r, vis, hnd, hfresh, hlab, hvis, hsc => by
    rw [varNamesOf_cons] at hnd hfresh
    rw [labelsOf_cons] at hlab
    simp only [stmtsScoped, Bool.and_eq_true] at hsc
    obtain ⟨-, hnd₂, hdisj⟩ := List.nodup_append.mp hnd
    obtain ⟨o₁, r₁, h₁⟩ := runStatement_complete s (fun n hn => hfresh n (List.mem_append_left _ hn))
      (fun l hl => hlab l (List.mem_append_left _ hl)) hvis hsc.1
    have hext := runStatement_extends s h₁
    obtain ⟨o₂, r₂, h₂⟩ := runStatementsMain_complete rest hnd₂
      (fun n hn => hext.lookup_eq_none_of (fun h => hdisj h hn) (hfresh n (List.mem_append_right _ hn)))
      (fun l hl => hext.mem_current_of_mem (hlab l (List.mem_append_right _ hl)))
      (fun n hn => (List.mem_append.mp hn).elim
        (fun hn => resolveIn_isSome_of_mem_current (hext.mem_current hn))
        (fun hn => hext.resolveIn_isSome (hvis n hn)))
      hsc.2
    refine ⟨o₁ ++ o₂, r₂, ?_⟩
    rw [runStatementsMain, StateT.bind_apply_of_eq_ok h₁, StateT.bind_apply_of_eq_ok h₂]
    rfl

/-- One statement of the main pass succeeds when it passes the check, its variables are new to
    the current scope, its label is bound there and the visible names are found. -/
theorem runStatement_complete :
    ∀ (statement : Ast.Statement) {r : ScopedResolver} {vis : List String},
      (∀ n ∈ varNamesOf [statement], r.current.lookup n = none) →
      (∀ l ∈ labelsOf [statement], l ∈ r.current.map Prod.fst) →
      (∀ n ∈ vis, (resolveIn r.scopes n).isSome) →
      stmtScoped vis statement = true →
      ∃ out r', runStatement statement r = .ok (out, r')
  | .label l, r, _, _, hlab, _, _ => by
    have hl : r.current.lookup l ≠ none :=
      fun h => Scope.lookup_eq_none_iff.mp h (hlab l (by simp [labelsOf]))
    obtain ⟨id, hid⟩ := Option.ne_none_iff_exists'.mp hl
    refine ⟨[.label id], r, ?_⟩
    rw [runStatement, StateT.bind_apply_of_eq_ok (getInCurrentScope_eq_ok.mpr ⟨hid, rfl⟩)]
    rfl
  | .variable decl, r, _, hfresh, _, _, _ => by
    have h := runMultivariable_eq_ok.mpr
      ⟨fun n hn => hfresh n (by simpa [varNamesOf] using hn), rfl, rfl⟩
    simp only [runStatement]
    exact ⟨_, _, h⟩
  | .instruction p i, r, vis, _, _, hvis, hsc => by
    simp only [stmtScoped, List.all_eq_true, decide_eq_true_eq] at hsc
    have hfound : ∀ n ∈ guardNames p ++ i.names, (resolveIn r.scopes n).isSome :=
      fun n hn => hvis n (hsc n hn)
    refine ⟨[.instruction (p.map fun q => ⟨q.not, r.resolved q.label⟩, i.map (·.map r.resolved))],
      r, ?_⟩
    rw [runStatement, StateT.bind_apply_of_eq_ok ((predicate_mapM_eq_ok p).mpr ⟨rfl, fun q hq => hfound _
        (List.mem_append_left _ (List.mem_map.mpr ⟨q, Option.mem_toList.mpr hq, rfl⟩)), rfl⟩),
      StateT.bind_apply_of_eq_ok ((runInstruction_eq_ok i).mpr ⟨rfl, fun op hop n hn => hfound n
        (List.mem_append_right _ (List.mem_flatMap.mpr ⟨op, hop, hn⟩)), rfl⟩)]
    rfl
  | .block b, r, vis, _, _, hvis, hsc => by
    simp only [stmtScoped, Bool.and_eq_true, decide_eq_true_eq] at hsc
    obtain ⟨hlab, hndv, hfresh, hmem, hvis₂⟩ := addLabels_complete (r := r.pushScope) hsc.1
      (by simp) (fun n hn => resolveIn_isSome_iff.mpr
        (let ⟨s, hs, hn⟩ := resolveIn_isSome_iff.mp (hvis n hn); ⟨s, List.mem_cons_of_mem _ hs, hn⟩))
    obtain ⟨o, r₃, hmain⟩ := runStatementsMain_complete b hndv hfresh hmem hvis₂ hsc.2
    have ho : r₃.outer = r.current :: r.outer := by
      rw [(runStatementsMain_extends b hmain).outer_eq, bindAll_outer, pushScope_outer]
    refine ⟨o, r₃.popScope _ _ ho, ?_⟩
    rw [runStatement, StateT.bind_apply_of_eq_ok (startScope_apply r),
      StateT.bind_apply_of_eq_ok hlab, StateT.bind_apply_of_eq_ok hmain,
      StateT.bind_apply_of_eq_ok ((endScope_eq_ok (u := ())).mpr ⟨_, _, ho, rfl⟩)]
    rfl

end

end Statements

/-! ## Methods and modules -/

section Methods

variable {r : ScopedResolver} {vis : List String}

/-- The name step of a method always succeeds, and adds to the module scope at most the device
    function's name. -/
theorem methodName_complete (n : Ast.MethodName String) (r : ScopedResolver) :
    ∃ o r₁, methodName n r = .ok (o, r₁) ∧ r₁.outer = r.outer ∧
      ∀ m, m ∈ r₁.current.map Prod.fst ↔ m ∈ r.current.map Prod.fst ∨ n = .func m := by
  cases n with
  | kernel k => exact ⟨_, r, rfl, rfl, by simp⟩
  | func t =>
    cases h : r.current.lookup t with
    | some id =>
      have ht : t ∈ r.current.map Prod.fst := by
        by_contra hn
        rw [Scope.lookup_eq_none_iff.mpr hn] at h
        cases h
      refine ⟨.func id, r, ?_, rfl, fun m => ⟨.inl, ?_⟩⟩
      · rw [methodName, StateT.bind_apply_of_eq_ok
          (addOrGetInCurrentScopeUntyped_eq_ok.mpr (.inl ⟨h, rfl⟩))]
        rfl
      · rintro (hm | hm)
        · exact hm
        · cases hm; exact ht
    | none =>
      refine ⟨.func r.currentId, r.bind t none, ?_, rfl, fun m => ?_⟩
      · rw [methodName, StateT.bind_apply_of_eq_ok
          (addOrGetInCurrentScopeUntyped_eq_ok.mpr (.inr ⟨h, rfl, rfl⟩))]
        rfl
      · simp [eq_comm, or_comm]

/-- A method body that passes the check runs in the function scope `r` that its arguments
    opened, when the module-level names `vis` are found. -/
theorem body_mapM_complete {args : List String} {body : Option (List Ast.Statement)}
    (hfresh : ∀ n, r.current.lookup n = none ↔ n ∉ args) (hvis : ∀ n ∈ args ++ vis, (resolveIn r.scopes n).isSome)
    (hsc : ∀ b, body = some b →
      (args ++ labelsOf b ++ varNamesOf b).Nodup ∧ stmtsScoped (labelsOf b ++ args ++ vis) b = true) :
    ∃ out r', (body.mapM runStatements) r = .ok (out, r') ∧ r'.outer = r.outer := by
  cases body with
  | none => exact ⟨none, r, rfl, rfl⟩
  | some b =>
    obtain ⟨hnd, hsc⟩ := hsc b rfl
    rw [List.append_assoc] at hnd
    obtain ⟨-, hnd', hdisj⟩ := List.nodup_append.mp hnd
    obtain ⟨hlab, hndv, hfr, hmem, hvis₂⟩ := addLabels_complete hnd'
      (fun n hn => (hfresh n).mpr fun ha => hdisj ha hn) hvis
    rw [List.append_assoc] at hsc
    obtain ⟨o, r₄, hmain⟩ := runStatementsMain_complete b hndv hfr hmem hvis₂ hsc
    refine ⟨some o, r₄, ?_, ?_⟩
    · simp only [Option.mapM]
      rw [StateT.bind_apply_of_eq_ok (by rw [runStatements, StateT.bind_apply_of_eq_ok hlab]; exact hmain)]
      rfl
    · rw [(runStatementsMain_extends b hmain).outer_eq, bindAll_outer]

/-- A method without shared memory that passes the check runs, when the names `vis` it may use
    are bound in the module scope or are its own name; it leaves the module scope with at most
    its own name added. -/
theorem runMethod_complete (linkage : Ast.LinkingDirective) {f : Ast.Function}
    (hsm : f.funcDirective.sharedMem = none)
    (hvis : ∀ n ∈ vis, n ∈ r.current.map Prod.fst ∨ f.funcDirective.name = .func n)
    (hsc : methodScoped vis f = true) :
    ∃ out r', runMethod linkage f r = .ok (out, r') ∧ r'.outer = r.outer ∧
      ∀ m, m ∈ r'.current.map Prod.fst ↔
        m ∈ r.current.map Prod.fst ∨ f.funcDirective.name = .func m := by
  obtain ⟨o, r₁, hname, ho₁, hcur₁⟩ := methodName_complete f.funcDirective.name r
  have hsc' : ((argsOf f.funcDirective).map (·.name)).Nodup ∧ ∀ b, f.body = some b →
      ((argsOf f.funcDirective).map (·.name) ++ labelsOf b ++ varNamesOf b).Nodup ∧
        stmtsScoped (labelsOf b ++ (argsOf f.funcDirective).map (·.name) ++ vis) b = true := by
    unfold methodScoped at hsc
    cases hb : f.body with
    | none => simp_all
    | some b =>
      simp only [hb, Bool.and_eq_true, decide_eq_true_eq] at hsc
      refine ⟨hsc.1.sublist ?_, fun b' hb' => ?_⟩
      · rw [List.append_assoc]; exact List.sublist_append_left _ _
      · cases hb'; exact hsc
  obtain ⟨d, hdecl⟩ : ∃ d, runFunctionDecl f.funcDirective o r₁.pushScope =
      .ok (d, r₁.pushScope.bindAll ((argsOf f.funcDirective).map varEntry)) :=
    ⟨_, runFunctionDecl_eq_ok.mpr ⟨hsm, hsc'.1, by simp, rfl, rfl⟩⟩
  obtain ⟨body, r₃, hbody, ho₃⟩ := body_mapM_complete
    (r := r₁.pushScope.bindAll ((argsOf f.funcDirective).map varEntry))
    (fun n => by rw [bindAll_current_lookup_eq_none, map_fst_varEntry]; simp)
    (fun n hn => (List.mem_append.mp hn).elim
      (fun ha => resolveIn_isSome_of_mem_current (bindAll_mem_current _ _ (by simpa using ha)))
      (fun hv => resolveIn_isSome_iff.mpr ⟨r₁.current, by simp [ScopedResolver.scopes],
        (hcur₁ n).mpr (hvis n hv)⟩))
    hsc'.2
  have ho : r₃.outer = r₁.current :: r₁.outer := by rw [ho₃, bindAll_outer]; rfl
  refine ⟨{ funcDecl := d, globals := [], body, importAs := none, tuning := f.tuning, linkage },
    r₃.popScope _ _ ho, ?_, by simp [ho₁], fun m => by simp [hcur₁]⟩
  rw [runMethod, StateT.bind_apply_of_eq_ok hname, StateT.bind_apply_of_eq_ok (startScope_apply _),
    StateT.bind_apply_of_eq_ok hdecl, StateT.bind_apply_of_eq_ok hbody,
    StateT.bind_apply_of_eq_ok ((endScope_eq_ok (u := ())).mpr ⟨_, _, ho, rfl⟩)]
  rfl

/-- The directives of a module that passes the pass's own check run, when the module scope binds
    exactly the module variables `vars` and device-function names `funcs` declared so far. -/
theorem mapM_runDirective_complete_of_accepted :
    ∀ (ds : List Ast.Directive) {r : ScopedResolver} {vars funcs : List String},
      (∀ l f, .method l f ∈ ds → f.funcDirective.sharedMem = none) →
      (∀ n, n ∈ r.current.map Prod.fst ↔ n ∈ vars ++ funcs) →
      directivesAccepted vars funcs ds = true →
      ∃ out r', (ds.mapM runDirective) r = .ok (out, r') ∧ r'.outer = r.outer
  | [], r, _, _, _, _, _ => ⟨[], r, rfl, rfl⟩
  | .variable linking v :: rest, r, vars, funcs, hsm, hcur, hsc => by
    simp only [directivesAccepted, Bool.and_eq_true, decide_eq_true_eq] at hsc
    have hl : r.current.lookup v.name = none :=
      Scope.lookup_eq_none_iff.mpr fun h => hsc.1 ((hcur _).mp h)
    have hcur' : ∀ n, n ∈ (r.bind v.name (some (v.vType, v.stateSpace))).current.map Prod.fst ↔
        n ∈ (v.name :: vars) ++ funcs := fun n => by simp [hcur]
    obtain ⟨out, r', hrest, ho⟩ := mapM_runDirective_complete_of_accepted rest
      (fun l f h => hsm l f (List.mem_cons_of_mem _ h)) hcur' hsc.2
    refine ⟨.variable linking (v.rename r.currentId) :: out, r', ?_, ho⟩
    rw [List.mapM_cons, StateT.bind_apply_of_eq_ok (by
      rw [runDirective, StateT.bind_apply_of_eq_ok (runVariable_eq_ok.mpr ⟨hl, rfl, rfl⟩)]; rfl),
      StateT.bind_apply_of_eq_ok hrest]
    rfl
  | .method linking f :: rest, r, vars, funcs, hsm, hcur, hsc => by
    have hsm₀ := hsm linking f (List.mem_cons_self _ _)
    have hsm' := fun l f h => hsm l f (List.mem_cons_of_mem _ h)
    cases hn : f.funcDirective.name with
    | kernel k =>
      simp only [directivesAccepted, hn, Bool.and_eq_true] at hsc
      obtain ⟨o, r₁, hm, ho₁, hcur₁⟩ := runMethod_complete linking hsm₀
        (fun n h => .inl ((hcur n).mpr h)) hsc.1
      obtain ⟨out, r', hrest, ho⟩ := mapM_runDirective_complete_of_accepted rest (r := r₁) hsm'
        (fun n => by simp [hcur₁, hn, hcur]) hsc.2
      refine ⟨.method o :: out, r', ?_, ho.trans ho₁⟩
      rw [List.mapM_cons, StateT.bind_apply_of_eq_ok (by
        rw [runDirective, StateT.bind_apply_of_eq_ok hm]; rfl), StateT.bind_apply_of_eq_ok hrest]
      rfl
    | func t =>
      simp only [directivesAccepted, hn, Bool.and_eq_true] at hsc
      obtain ⟨o, r₁, hm, ho₁, hcur₁⟩ := runMethod_complete linking hsm₀
        (fun n h => by
          rcases List.mem_append.mp h with h | h
          · exact .inl ((hcur n).mpr (List.mem_append_left _ h))
          · rcases List.mem_cons.mp h with rfl | h
            · exact .inr hn
            · exact .inl ((hcur n).mpr (List.mem_append_right _ h))) hsc.1
      obtain ⟨out, r', hrest, ho⟩ := mapM_runDirective_complete_of_accepted rest (r := r₁) hsm'
        (fun n => by simp [hcur₁, hn, hcur, eq_comm, or_comm, or_left_comm]) hsc.2
      refine ⟨.method o :: out, r', ?_, ho.trans ho₁⟩
      rw [List.mapM_cons, StateT.bind_apply_of_eq_ok (by
        rw [runDirective, StateT.bind_apply_of_eq_ok hm]; rfl), StateT.bind_apply_of_eq_ok hrest]
      rfl

/-- The directives of a module that passes the check run, when the module scope binds exactly
    the module variables `vars` and device-function names `funcs` declared so far. -/
theorem mapM_runDirective_complete (ds : List Ast.Directive) {r : ScopedResolver}
    {vars funcs : List String} (hsm : ∀ l f, .method l f ∈ ds → f.funcDirective.sharedMem = none)
    (hcur : ∀ n, n ∈ r.current.map Prod.fst ↔ n ∈ vars ++ funcs)
    (hsc : directivesScoped vars funcs ds = true) :
    ∃ out r', (ds.mapM runDirective) r = .ok (out, r') ∧ r'.outer = r.outer :=
  mapM_runDirective_complete_of_accepted ds hsm hcur (directivesAccepted_of_scoped hsc)

end Methods

/-- When no method carries a shared-memory declaration, the pass fails only on a module that
    fails the name-level check: one where some scope declares a name twice or some used name
    has no visible declaration.  That is, every module passing the check runs to `Ok`. -/
theorem run_eq_ok_of_scoped {ds : List Ast.Directive} {r : ScopedResolver}
    (hsm : ∀ l f, .method l f ∈ ds → f.funcDirective.sharedMem = none)
    (hsc : directivesScoped [] [] ds = true) :
    ∃ out r', run ds r = .ok (out, r') := by
  obtain ⟨out, r₂, hds, ho⟩ := mapM_runDirective_complete ds (r := r.pushScope) hsm (by simp) hsc
  rw [pushScope_outer] at ho
  refine ⟨out, r₂.popScope _ _ ho, ?_⟩
  rw [run, StateT.bind_apply_of_eq_ok (startScope_apply r), StateT.bind_apply_of_eq_ok hds,
    StateT.bind_apply_of_eq_ok ((endScope_eq_ok (u := ())).mpr ⟨_, _, ho, rfl⟩)]
  rfl

/-- A kernel whose nested block shadows a variable and uses an argument of the function scope. -/
def shadowing : List Ast.Directive :=
  let var (n : String) : Ast.Variable String :=
    { align := none, vType := .scalar .u32, stateSpace := .reg, name := n, arrayInit := [] }
  [.method ⟨0⟩
    { funcDirective :=
        { returnArguments := [], name := .kernel "k", inputArguments := [var "a"], sharedMem := none }
      tuning := []
      body := some
        [.variable ⟨var "x", none⟩,
         .block [.variable ⟨var "x", none⟩, .instruction none (.other [.reg "x", .reg "a"])],
         .instruction none (.other [.reg "x"])] }]

theorem shadowing_runs :
    (∀ l f, .method l f ∈ shadowing → f.funcDirective.sharedMem = none) ∧
      directivesScoped [] [] shadowing = true ∧
      ∃ out r', run shadowing ScopedResolver.new = .ok (out, r') :=
  have hsm : ∀ l f, .method l f ∈ shadowing → f.funcDirective.sharedMem = none := by
    intro l f h
    simp only [shadowing, List.mem_singleton, Ast.Directive.method.injEq] at h
    obtain ⟨-, rfl⟩ := h
    rfl
  ⟨hsm, by decide, run_eq_ok_of_scoped hsm (by decide)⟩

end ZludaPtx.NormalizeIdentifiers
