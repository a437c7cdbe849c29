import ZludaPtx.NormalizeSound
import ZludaPtx.NormalizeComplete

/-!
# Exactly when `normalize_identifiers2` succeeds

`NormalizeComplete` shows that a module passing the name-level check `directivesScoped` runs.
The converse fails at one point: the name step of a device function takes any binding the module
scope already has, a module variable's included (`varThenFunc`).  Without that one demand the
check is `directivesAccepted`, and it decides the pass: from a resolver whose scopes bind
nothing, a fresh one, `run` returns `Ok` exactly when no method carries a shared-memory
declaration and the module passes `directivesAccepted`.

The new direction goes through the scoping judgement `run_sound` gives.  Its side conditions
are the check's duplicate tests (a label or variable new to its scope), and a name it resolves
lies in a visible scope.  The invariant is `NamesWithin`: every name the visible scopes bind is
among the names the check counts as visible.

## Key results

- `stmtsResolve_scoped` / `stmtResolve_scoped`: a resolved statement list passes the check
- `methodResolves_scoped`, `directivesResolve_accepted`: methods and modules
- `run_eq_ok_iff_accepted`: the exact success condition of the pass
-/

namespace ZludaPtx.Scoping

open NormalizeIdentifiers

/-! ## The names scopes bind -/

/-- Every name a scope of `scopes` binds is among `vis`. -/
def NamesWithin (scopes : List Scope) (vis : List String) : Prop :=
  ∀ s ∈ scopes, ∀ n ∈ s.map Prod.fst, n ∈ vis

namespace NamesWithin

variable {s : Scope} {env : List Scope} {vis : List String}

theorem cons (hs : ∀ n ∈ s.map Prod.fst, n ∈ vis) (h : NamesWithin env vis) :
    NamesWithin (s :: env) vis := by
  rintro t (_ | ⟨_, ht⟩)
  · exact hs
  · exact h t ht

theorem tail (h : NamesWithin (s :: env) vis) : NamesWithin env vis :=
  fun t ht => h t (List.mem_cons_of_mem _ ht)

theorem mono (h : NamesWithin env vis) {vis' : List String} (hv : ∀ n ∈ vis, n ∈ vis') :
    NamesWithin env vis' :=
  fun t ht n hn => hv n (h t ht n hn)

/-- A new scope whose names are `new`. -/
theorem push (h : NamesWithin env vis) {new : List String} (hs : ∀ n ∈ s.map Prod.fst, n ∈ new) :
    NamesWithin (s :: env) (new ++ vis) :=
  cons (fun n hn => List.mem_append_left _ (hs n hn))
    (h.mono fun _ => List.mem_append_right _)

/-- The current scope grown by names `new`. -/
theorem extend (h : NamesWithin (s :: env) vis) {s' : Scope} {new : List String}
    (hs : ∀ n ∈ s'.map Prod.fst, n ∈ new ∨ n ∈ s.map Prod.fst) :
    NamesWithin (s' :: env) (new ++ vis) :=
  cons (fun n hn => (hs n hn).elim (List.mem_append_left _)
      fun hn => List.mem_append_right _ (h s (List.mem_cons_self _ _) n hn))
    (h.tail.mono fun _ => List.mem_append_right _)

end NamesWithin

/-- The names `binds` binds, when there is an identifier for each. -/
theorem mem_binds_keys {names : List String} {ids : List SpirvWord}
    (h : ids.length = names.length) {n : String} :
    n ∈ (binds names ids).map Prod.fst ↔ n ∈ names := by
  rw [binds, List.map_reverse, List.mem_reverse, List.map_fst_zip _ _ h.ge]

/-- The scope a block opens, `base` then its labels. -/
theorem NamesWithin.blockScope {base : Scope} {env : List Scope} {vis labels : List String}
    {ids : List SpirvWord} (hlen : ids.length = labels.length) (h : NamesWithin (base :: env) vis) :
    NamesWithin ((binds labels ids ++ base) :: env) (labels ++ vis) :=
  h.extend fun n hn => by rwa [List.map_append, List.mem_append, mem_binds_keys hlen] at hn

/-- A block whose labels are distinct and new to `base`, and whose variables are distinct and
    new to the scope its labels open, declares no name twice and none of `base`'s. -/
theorem block_nodup {base : Scope} {b : List Ast.Statement} {ids : List SpirvWord}
    (hlen : ids.length = (labelsOf b).length) (hnd : (labelsOf b).Nodup)
    (hfresh : ∀ l ∈ labelsOf b, base.lookup l = none) (hndv : (varNamesOf b).Nodup)
    (hfreshv : ∀ n ∈ varNamesOf b, n ∉ (binds (labelsOf b) ids ++ base).map Prod.fst) :
    (labelsOf b ++ varNamesOf b).Nodup ∧
      ∀ n ∈ labelsOf b ++ varNamesOf b, n ∉ base.map Prod.fst := by
  simp only [List.map_append, List.mem_append, mem_binds_keys hlen, not_or] at hfreshv
  refine ⟨List.nodup_append.mpr ⟨hnd, hndv, fun l hl hv => (hfreshv l hv).1 hl⟩, fun n hn => ?_⟩
  rcases List.mem_append.mp hn with hn | hn
  · exact Scope.lookup_eq_none_iff.mp (hfresh n hn)
  · exact (hfreshv n hn).2

/-! ## Statements -/

mutual

/-- A statement list the judgement resolves passes the check, with every name its scopes bind
    counted visible, and its variables are distinct and new to the current scope. -/
theorem stmtsResolve_scoped :
    ∀ (statements : List Ast.Statement) {env cur out decls vis},
      StmtsResolve env cur statements out decls → NamesWithin (cur :: env) vis →
      stmtsScoped vis statements = true ∧ (varNamesOf statements).Nodup ∧
        ∀ n ∈ varNamesOf statements, n ∉ cur.map Prod.fst
  | [], _, _, _, _, _, _, _ => ⟨rfl, List.nodup_nil, fun _ h => nomatch h⟩
  | s :: rest, env, cur, out, decls, vis, h, hvis => by
    cases h with
    | cons hs hrest =>
      obtain ⟨hsc, hnd, hfresh, hcur⟩ := stmtResolve_scoped s hs hvis
      obtain ⟨hsc', hnd', hfresh'⟩ :=
        stmtsResolve_scoped rest hrest (hvis.extend fun n hn => (hcur n).mp hn)
      rw [varNamesOf_cons]
      refine ⟨by simp only [stmtsScoped, hsc, hsc', Bool.and_self],
        List.nodup_append.mpr ⟨hnd, hnd', fun n h₁ h₂ => hfresh' n h₂ ((hcur n).mpr (.inl h₁))⟩,
        fun n hn => ?_⟩
      rcases List.mem_append.mp hn with hn | hn
      · exact hfresh n hn
      · exact fun hc => hfresh' n hn ((hcur n).mpr (.inr hc))

/-- One statement the judgement resolves passes the check; its variables are distinct and new to
    the current scope, which it grows by exactly them. -/
theorem stmtResolve_scoped :
    ∀ (statement : Ast.Statement) {env cur out decls cur' vis},
      StmtResolve env cur statement out decls cur' → NamesWithin (cur :: env) vis →
      stmtScoped vis statement = true ∧ (varNamesOf [statement]).Nodup ∧
        (∀ n ∈ varNamesOf [statement], n ∉ cur.map Prod.fst) ∧
        ∀ n, n ∈ cur'.map Prod.fst ↔ n ∈ varNamesOf [statement] ∨ n ∈ cur.map Prod.fst
  | .label _, _, _, _, _, _, _, h, _ => by
    cases h
    simp [stmtScoped, varNamesOf]
  | .variable decl, _, _, _, _, _, _, h, _ => by
    cases h with
    | «variable» hlen hfresh =>
      have hv : varNamesOf [.variable decl] = expansionNames decl := by simp [varNamesOf]
      rw [hv]
      refine ⟨rfl, expansionNames_nodup decl,
        fun n hn => Scope.lookup_eq_none_iff.mp (hfresh n hn), fun n => ?_⟩
      rw [List.map_append, List.mem_append, mem_binds_keys hlen]
  | .instruction p i, _, _, _, _, _, vis, h, hvis => by
    cases h with
    | instruction hn =>
      refine ⟨List.all_eq_true.mpr fun n hm => decide_eq_true ?_, by simp [varNamesOf]⟩
      obtain ⟨s, hs, hns⟩ := resolveIn_isSome_iff.mp (hn n hm)
      exact hvis s hs n hns
  | .block b, _, _, _, _, _, _, h, hvis => by
    cases h with
    | block hb =>
      cases hb with
      | mk hlen hnd hfresh hstmts =>
        obtain ⟨hsc, hndv, hfreshv⟩ := stmtsResolve_scoped b hstmts
          (NamesWithin.blockScope hlen (hvis.cons fun _ h => by simp at h))
        have hblock := block_nodup hlen hnd hfresh hndv hfreshv
        refine ⟨?_, by simp [varNamesOf]⟩
        simp only [stmtScoped, hsc, hblock.1, decide_True, Bool.and_self]

end

/-! ## Methods and modules -/

/-- What the name step leaves in the module scope: the names before it, and the device
    function's own. -/
theorem NameResolves.names_iff {m m' : Scope} {n o ds fs} (h : NameResolves m n o ds fs m') :
    ∀ x, x ∈ m'.map Prod.fst ↔ x ∈ m.map Prod.fst ∨ n = .func x := by
  cases h with
  | kernel => simp
  | funcBound hl =>
    have ht := List.mem_map_of_mem Prod.fst (List.mem_of_lookup_eq_some hl)
    intro x
    constructor
    · exact .inl
    · rintro (hx | hx)
      · exact hx
      · cases hx; exact ht
  | funcNew => simp [eq_comm, or_comm]

theorem MethodResolves.names_iff {env : List Scope} {modScope modScope' : Scope} {linkage f out decls fs}
    (h : MethodResolves env modScope linkage f out decls fs modScope') :
    ∀ x, x ∈ modScope'.map Prod.fst ↔ x ∈ modScope.map Prod.fst ∨ f.funcDirective.name = .func x := by
  cases h with
  | mk hname => exact hname.names_iff

/-- A method the judgement resolves has no shared-memory declaration, and passes the check with
    every name the module's scopes bind counted visible. -/
theorem methodResolves_scoped {env : List Scope} {modScope modScope' : Scope} {linkage f out decls fs}
    {vis : List String} (h : MethodResolves env modScope linkage f out decls fs modScope')
    (hvis : NamesWithin (modScope' :: env) vis) :
    f.funcDirective.sharedMem = none ∧ methodScoped vis f = true := by
  cases h with
  | mk _ hsm hrlen hilen hnd hbody =>
    rename_i rids iids _ _ _
    refine ⟨hsm, ?_⟩
    have hlen : (rids ++ iids).length = ((argsOf f.funcDirective).map (·.name)).length := by
      simp [argsOf, hrlen, hilen]
    unfold methodScoped
    cases hfb : f.body with
    | none => simpa using hnd
    | some b =>
      rw [hfb] at hbody
      cases hbody with
      | some hblock =>
        cases hblock with
        | mk hlenl hndl hfresh hstmts =>
          have hbase := hvis.push fun n hn => (mem_binds_keys hlen).mp hn
          obtain ⟨hsc, hndv, hfreshv⟩ := stmtsResolve_scoped b hstmts (hbase.blockScope hlenl)
          obtain ⟨hblock, hout⟩ := block_nodup hlenl hndl hfresh hndv hfreshv
          have hall : ((argsOf f.funcDirective).map (·.name) ++ (labelsOf b ++ varNamesOf b)).Nodup :=
            List.nodup_append.mpr ⟨hnd, hblock, fun n ha hb => hout n hb ((mem_binds_keys hlen).mpr ha)⟩
          simp only [hall, List.append_assoc, hsc, decide_True, Bool.and_self]

/-- A module the judgement resolves, whose module scope binds exactly the module variables `vars`
    and device-function names `funcs` and whose outer scopes bind nothing, has no method with
    shared memory and passes the pass's own check. -/
theorem directivesResolve_accepted {env : List Scope} (henv : ∀ s ∈ env, s = []) :
    ∀ (ds : List Ast.Directive) {modScope out decls fs} {vars funcs : List String},
      DirectivesResolve env modScope ds out decls fs →
      (∀ n, n ∈ modScope.map Prod.fst ↔ n ∈ vars ++ funcs) →
      (∀ l f, .method l f ∈ ds → f.funcDirective.sharedMem = none) ∧
        directivesAccepted vars funcs ds = true
  | [], _, _, _, _, _, _, _, _ => ⟨fun _ _ h => (nomatch h), rfl⟩
  | .variable _ v :: rest, _, _, _, _, vars, funcs, h, hmod => by
    cases h with
    | «variable» hfresh hrest =>
      obtain ⟨hsm, hacc⟩ := directivesResolve_accepted henv rest hrest
        (show ∀ n, _ ↔ n ∈ (v.name :: vars) ++ funcs from fun n => by simp [hmod])
      refine ⟨fun l f hm => hsm l f (by simpa using hm), ?_⟩
      simp only [directivesAccepted, hacc, Bool.and_true, decide_eq_true_eq]
      exact fun hn => Scope.lookup_eq_none_iff.mp hfresh ((hmod _).mpr hn)
  | .method _ f :: rest, _, _, _, _, vars, funcs, h, hmod => by
    cases h with
    | method hm hrest =>
      rename_i modScope'
      -- the device-function names after the name step, which the check splits at
      obtain ⟨funcs', hsplit, hmod'⟩ : ∃ funcs' : List String,
          directivesAccepted vars funcs (.method _ f :: rest) =
            (methodScoped (vars ++ funcs') f && directivesAccepted vars funcs' rest) ∧
          ∀ x, x ∈ modScope'.map Prod.fst ↔ x ∈ vars ++ funcs' := by
        have hnames := fun x => (hm.names_iff x).trans (or_congr_left (hmod x))
        cases hn : f.funcDirective.name with
        | kernel k => exact ⟨funcs, by simp [directivesAccepted, hn], fun x => by simp [hnames, hn]⟩
        | func t =>
          exact ⟨t :: funcs, by simp [directivesAccepted, hn],
            fun x => by simp [hnames, hn, eq_comm, or_comm, or_left_comm]⟩
      obtain ⟨hsm₀, hsc⟩ := methodResolves_scoped hm (NamesWithin.cons (fun x => (hmod' x).mp)
        fun s hs x hx => by rw [henv s hs] at hx; cases hx)
      obtain ⟨hsm, hacc⟩ := directivesResolve_accepted henv rest hrest hmod'
      refine ⟨fun l g hg => ?_, by rw [hsplit, hsc, hacc]; rfl⟩
      rcases List.mem_cons.mp hg with hg | hg
      · cases hg; exact hsm₀
      · exact hsm l g hg

end ZludaPtx.Scoping

namespace ZludaPtx.NormalizeIdentifiers

open ScopedResolver Scoping

/-! ## The pass -/

/-- **Exactly when the pass succeeds.**  From a resolver whose scopes bind no name (a fresh one),
    `normalize_identifiers2` returns `Ok` exactly when no method carries a shared-memory
    declaration and the module passes `directivesAccepted`: no scope declares a name twice, a
    module variable's name is new to the module scope, and every name an instruction uses has a
    visible declaration. -/
theorem run_eq_ok_iff_accepted {ds : List Ast.Directive} {r : ScopedResolver}
    (hr : ∀ s ∈ r.scopes, s = []) :
    (∃ out r', run ds r = .ok (out, r')) ↔
      (∀ l f, .method l f ∈ ds → f.funcDirective.sharedMem = none) ∧
        directivesAccepted [] [] ds = true := by
  constructor
  · rintro ⟨out, r', h⟩
    obtain ⟨decls, fs, hres, -⟩ := run_sound h
    exact directivesResolve_accepted hr ds hres (by simp)
  · rintro ⟨hsm, hacc⟩
    obtain ⟨out, r₂, hds, ho⟩ :=
      mapM_runDirective_complete_of_accepted ds (r := r.pushScope) hsm (by simp) hacc
    rw [pushScope_outer] at ho
    refine ⟨out, r₂.popScope _ _ ho, ?_⟩
    rw [run, StateT.bind_apply_of_eq_ok (startScope_apply r), StateT.bind_apply_of_eq_ok hds,
      StateT.bind_apply_of_eq_ok ((endScope_eq_ok (u := ())).mpr ⟨_, _, ho, rfl⟩)]
    rfl

/-- The module whose device function reuses a module variable's name runs, and passes
    `directivesAccepted`. -/
theorem varThenFunc_accepted : (∀ s ∈ ScopedResolver.new.scopes, s = []) ∧
    ((∃ out r', run varThenFunc ScopedResolver.new = .ok (out, r')) ↔
      (∀ l f, .method l f ∈ varThenFunc → f.funcDirective.sharedMem = none) ∧
        directivesAccepted [] [] varThenFunc = true) :=
  ⟨by simp [ScopedResolver.scopes, ScopedResolver.new],
    run_eq_ok_iff_accepted (by simp [ScopedResolver.scopes, ScopedResolver.new])⟩

/-- `directivesScoped` is the stricter check: it rejects that module. -/
example : directivesScoped [] [] varThenFunc = false ∧ directivesAccepted [] [] varThenFunc = true := by
  decide

end ZludaPtx.NormalizeIdentifiers
