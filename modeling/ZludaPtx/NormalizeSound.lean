import ZludaPtx.Scoping

/-!
# Soundness of `normalize_identifiers2`

A successful run of the pass resolves every name as PTX scoping says: its output is related to
its input by the scoping judgement of `Scoping`, with the module scope opened inside the
resolver's scopes.  The proof follows the pass: one lemma per function, the statement lists
and single statements by mutual recursion over the nested blocks, and each lemma also records
the identifiers the step handed out (`Allocated`), which is what makes the declared
identifiers distinct and their table entries right.

## Key results

- `runStatementsMain_sound` / `runStatement_sound`: the main pass over nested blocks
- `runStatements_sound`, `runMethod_sound`, `mapM_runDirective_sound`: lists, methods, modules
- `run_sound`: a successful run is related to its input by `DirectivesResolve`, and declares,
  in order, exactly the identifiers it hands out
-/

namespace ZludaPtx.NormalizeIdentifiers

open ScopedResolver Scoping

section Statements

variable {r r₁ r' : ScopedResolver}

/-- The label pre-pass, followed by a main pass that resolves in the scope it leaves, resolves
    the list in a scope of its own around the current scope. -/
theorem runStatements_sound_of_main {b : List Ast.Statement} {out} {u : Unit}
    (hlab : addLabels b r = .ok (u, r₁))
    (hmain : ∃ decls, StmtsResolve r₁.outer r₁.current b out decls ∧ Allocated r₁ r' decls) :
    ∃ decls, BlockResolves r.outer r.current b out decls ∧ Allocated r r' decls := by
  obtain ⟨hnd, hfresh, rfl⟩ := addLabels_eq_ok.mp hlab
  obtain ⟨decls, hstmts, ha⟩ := hmain
  have ha₁ := Allocated.bindAll r ((labelsOf b).map (·, none))
  simp only [List.map_map, Function.comp_def, List.length_map] at ha₁
  rw [bindAll_outer, bindAll_current] at hstmts
  simp only [List.map_map, Function.comp_def, List.map_id', List.length_map] at hstmts
  exact ⟨_, .mk (by simp : (List.range' r.currentId (labelsOf b).length).length = _) hnd hfresh
    hstmts, ha₁.trans ha⟩

/-- A resolved instruction uses only names that some visible scope declares. -/
theorem instruction_names_isSome {p : Option (Ast.PredAt String)}
    {i : Ast.Instruction (Ast.ParsedOperand String)}
    (hp : ∀ q ∈ p, (resolveIn r.scopes q.label).isSome)
    (hi : ∀ op ∈ i.operands, ∀ n ∈ op.names, (resolveIn r.scopes n).isSome) :
    ∀ n ∈ guardNames p ++ i.names, (resolveIn (r.current :: r.outer) n).isSome := by
  intro n hn
  rcases List.mem_append.mp hn with hn | hn
  · obtain ⟨q, hq, rfl⟩ := List.mem_map.mp hn
    exact hp q (Option.mem_toList.mp hq)
  · obtain ⟨op, hop, hn⟩ := List.mem_flatMap.mp hn
    exact hi op hop n hn

mutual

/-- The main pass resolves its list as scoping says, in the scopes it starts from, and hands
    out exactly the identifiers of the list's declarations. -/
theorem runStatementsMain_sound :
    ∀ (statements : List Ast.Statement) {r r' : ScopedResolver} {out},
      runStatementsMain statements r = .ok (out, r') →
      ∃ decls, StmtsResolve r.outer r.current statements out decls ∧ Allocated r r' decls
  | [], r, r', out, h => by
    simp only [runStatementsMain, StateT.pure_apply, Except.ok.injEq, Prod.mk.injEq] at h
    obtain ⟨rfl, rfl⟩ := h
    exact ⟨[], .nil, .nil rfl rfl⟩
  | s :: rest, r, r', out, h => by
    simp only [runStatementsMain, StateT.bind_apply_eq_ok, StateT.pure_apply, Except.ok.injEq,
      Prod.mk.injEq] at h
    obtain ⟨_, r₁, h₁, _, _, h₂, rfl, rfl⟩ := h
    obtain ⟨d₁, hs, ha₁⟩ := runStatement_sound s h₁
    obtain ⟨d₂, hrest, ha₂⟩ := runStatementsMain_sound rest h₂
    rw [(runStatement_extends s h₁).outer_eq] at hrest
    exact ⟨d₁ ++ d₂, .cons hs hrest, ha₁.trans ha₂⟩

/-- One statement of the main pass resolves as scoping says, and leaves the current scope the
    judgement names. -/
theorem runStatement_sound :
    ∀ (statement : Ast.Statement) {r r' : ScopedResolver} {out},
      runStatement statement r = .ok (out, r') →
      ∃ decls, StmtResolve r.outer r.current statement out decls r'.current ∧ Allocated r r' decls
  | .label l, r, r', out, h => by
    simp only [runStatement, StateT.bind_apply_eq_ok, getInCurrentScope_eq_ok,
      StateT.pure_apply, Except.ok.injEq, Prod.mk.injEq] at h
    obtain ⟨_, _, ⟨hl, rfl⟩, rfl, rfl⟩ := h
    exact ⟨[], .label hl, .nil rfl rfl⟩
  | .variable decl, r, r', out, h => by
    obtain ⟨hfresh, rfl, rfl⟩ := runMultivariable_eq_ok.mp h
    have hc := bindAll_current r
      ((expansionNames decl).map (·, some (decl.var.vType, decl.var.stateSpace)))
    have ha := Allocated.bindAll r
      ((expansionNames decl).map (·, some (decl.var.vType, decl.var.stateSpace)))
    simp only [List.map_map, Function.comp_def, List.map_id', List.length_map] at hc ha
    rw [hc]
    exact ⟨_, .variable (by simp) hfresh, ha⟩
  | .instruction p i, r, r', out, h => by
    simp only [runStatement, StateT.bind_apply_eq_ok, predicate_mapM_eq_ok, runInstruction_eq_ok,
      StateT.pure_apply, Except.ok.injEq, Prod.mk.injEq] at h
    obtain ⟨_, _, ⟨rfl, hp, rfl⟩, _, _, ⟨rfl, hi, rfl⟩, rfl, rfl⟩ := h
    exact ⟨[], .instruction (instruction_names_isSome hp hi), .nil rfl rfl⟩
  | .block b, r, r', out, h => by
    simp only [runStatement, StateT.bind_apply_eq_ok, startScope_apply, Except.ok.injEq,
      Prod.mk.injEq, StateT.pure_apply] at h
    obtain ⟨_, _, ⟨-, rfl⟩, _, r₂, hlab, _, r₃, hrun, _, r₄, hend, rfl, rfl⟩ := h
    obtain ⟨decls, hblock, ha⟩ := runStatements_sound_of_main hlab (runStatementsMain_sound b hrun)
    obtain ⟨s, ss, hs, rfl⟩ := endScope_eq_ok.mp hend
    have ho : r₃.outer = r.current :: r.outer := by
      rw [(runStatementsMain_extends b hrun).outer_eq, (addLabels_eq_ok.mp hlab).2.2]
      simp
    rw [hs] at ho
    obtain ⟨rfl, rfl⟩ := List.cons.inj ho
    have ha' := ((Allocated.nil rfl rfl : Allocated r r.pushScope []).trans ha).trans
      (Allocated.nil rfl rfl : Allocated r₃ (r₃.popScope _ _ hs) [])
    rw [List.nil_append, List.append_nil] at ha'
    exact ⟨decls, .block hblock, ha'⟩

end

/-- `run_statements` resolves its list in a scope of its own around the current scope. -/
theorem runStatements_sound {b : List Ast.Statement} {out}
    (h : runStatements b r = .ok (out, r')) :
    (∃ decls, BlockResolves r.outer r.current b out decls ∧ Allocated r r' decls) ∧
      r'.outer = r.outer := by
  simp only [runStatements, StateT.bind_apply_eq_ok] at h
  obtain ⟨_, r₁, hlab, hmain⟩ := h
  refine ⟨runStatements_sound_of_main hlab (runStatementsMain_sound b hmain), ?_⟩
  rw [(runStatementsMain_extends b hmain).outer_eq, (addLabels_eq_ok.mp hlab).2.2, bindAll_outer]

end Statements

/-! ## Methods and modules -/

section Methods

variable {r r₁ r' : ScopedResolver}

/-- A method's name step binds a device function's name as `NameResolves` says. -/
theorem methodName_sound {n : Ast.MethodName String} {o} (h : methodName n r = .ok (o, r')) :
    ∃ ds fs, NameResolves r.current n o ds fs r'.current ∧ Allocated r r' ds ∧ r'.outer = r.outer := by
  cases n with
  | kernel k =>
    simp only [methodName, StateT.pure_apply, Except.ok.injEq, Prod.mk.injEq] at h
    obtain ⟨rfl, rfl⟩ := h
    exact ⟨[], [], .kernel, .nil rfl rfl, rfl⟩
  | func t =>
    simp only [methodName, StateT.bind_apply_eq_ok, addOrGetInCurrentScopeUntyped_eq_ok,
      StateT.pure_apply, Except.ok.injEq, Prod.mk.injEq] at h
    obtain ⟨_, _, ⟨hl, rfl⟩ | ⟨hl, rfl, rfl⟩, rfl, rfl⟩ := h
    · exact ⟨[], _, .funcBound hl, .nil rfl rfl, rfl⟩
    · exact ⟨_, _, .funcNew hl, Allocated.bind r t none, rfl⟩

/-- A method body, when present, resolves in the function scope. -/
theorem body_mapM_sound {body : Option (List Ast.Statement)} {out}
    (h : (body.mapM runStatements) r = .ok (out, r')) :
    (∃ decls, BodyResolves r.outer r.current body out decls ∧ Allocated r r' decls) ∧
      r'.outer = r.outer := by
  cases body with
  | none =>
    simp only [Option.mapM, StateT.pure_apply, Except.ok.injEq, Prod.mk.injEq] at h
    obtain ⟨rfl, rfl⟩ := h
    exact ⟨⟨[], .none, .nil rfl rfl⟩, rfl⟩
  | some b =>
    simp only [Option.mapM, StateT.bind_apply_eq_ok, StateT.pure_apply, Except.ok.injEq,
      Prod.mk.injEq] at h
    obtain ⟨_, _, h, rfl, rfl⟩ := h
    obtain ⟨⟨decls, hb, ha⟩, ho⟩ := runStatements_sound h
    exact ⟨⟨decls, .some hb, ha⟩, ho⟩

/-- `run_method` resolves a method as `MethodResolves` says. -/
theorem runMethod_sound {linkage : Ast.LinkingDirective} {f : Ast.Function} {out}
    (h : runMethod linkage f r = .ok (out, r')) :
    ∃ decls fs, MethodResolves r.outer r.current linkage f out decls fs r'.current ∧
      Allocated r r' decls ∧ r'.outer = r.outer := by
  simp only [runMethod, StateT.bind_apply_eq_ok, startScope_apply, StateT.pure_apply,
    Except.ok.injEq, Prod.mk.injEq] at h
  obtain ⟨_, r₁, hname, _, _, ⟨-, rfl⟩, _, r₂, hdecl, _, r₃, hbody, _, r₄, hend, rfl, rfl⟩ := h
  obtain ⟨dsName, fs, hn, haName, hoName⟩ := methodName_sound hname
  obtain ⟨hsm, hnd, -, rfl, rfl⟩ := runFunctionDecl_eq_ok.mp hdecl
  obtain ⟨⟨dsBody, hb, haBody⟩, hoBody⟩ := body_mapM_sound hbody
  obtain ⟨s, ss, hs, rfl⟩ := endScope_eq_ok.mp hend
  have ho : r₃.outer = r₁.current :: r₁.outer := by rw [hoBody, bindAll_outer]; rfl
  rw [hs] at ho
  obtain ⟨rfl, rfl⟩ := List.cons.inj ho
  have hargs := Allocated.bindAll r₁.pushScope ((argsOf f.funcDirective).map varEntry)
  rw [bindAll_outer, pushScope_outer, bindAll_current, pushScope_current, List.append_nil,
    map_fst_varEntry] at hb
  simp only [List.length_map, pushScope_currentId] at hb ⊢
  simp only [List.map_map, Function.comp_def, varEntry, List.length_map, pushScope_currentId] at hargs
  have hids : List.range' r₁.currentId (argsOf f.funcDirective).length =
      List.range' r₁.currentId f.funcDirective.returnArguments.length ++
        List.range' (r₁.currentId + f.funcDirective.returnArguments.length)
          f.funcDirective.inputArguments.length := by
    rw [List.range'_append_1, argsOf, List.length_append, Nat.add_comm]
  rw [hids, hoName] at hb
  rw [hids] at hargs
  refine ⟨_, fs, .mk hn hsm (by simp) (by simp) hnd hb, ?_, hoName⟩
  have ha := ((haName.trans ((Allocated.nil rfl rfl : Allocated r₁ r₁.pushScope []).trans
    hargs)).trans haBody).trans (Allocated.nil rfl rfl : Allocated r₃ (r₃.popScope _ _ hs) [])
  rwa [List.nil_append, List.append_nil] at ha

/-- `run_directive` over a module's directives resolves them as `DirectivesResolve` says, in the
    module scope it starts from. -/
theorem mapM_runDirective_sound :
    ∀ (ds : List Ast.Directive) {r r' : ScopedResolver} {out},
      (ds.mapM runDirective) r = .ok (out, r') →
      ∃ decls fs, DirectivesResolve r.outer r.current ds out decls fs ∧ Allocated r r' decls ∧
        r'.outer = r.outer
  | [], r, r', out, h => by
    simp only [List.mapM_nil, StateT.pure_apply, Except.ok.injEq, Prod.mk.injEq] at h
    obtain ⟨rfl, rfl⟩ := h
    exact ⟨[], [], .nil, .nil rfl rfl, rfl⟩
  | d :: rest, r, r', out, h => by
    rw [List.mapM_cons] at h
    simp only [StateT.bind_apply_eq_ok, StateT.pure_apply, Except.ok.injEq, Prod.mk.injEq] at h
    obtain ⟨_, r₁, h₁, _, _, h₂, rfl, rfl⟩ := h
    obtain ⟨declsRest, fsRest, hrest, haRest, hoRest⟩ := mapM_runDirective_sound rest h₂
    cases d with
    | «variable» linking v =>
      simp only [runDirective, StateT.bind_apply_eq_ok, runVariable_eq_ok, StateT.pure_apply,
        Except.ok.injEq, Prod.mk.injEq] at h₁
      obtain ⟨_, _, ⟨hl, rfl, rfl⟩, rfl, rfl⟩ := h₁
      exact ⟨_, fsRest, .variable hl hrest, (Allocated.bind r _ _).trans haRest, hoRest⟩
    | method linking f =>
      simp only [runDirective, StateT.bind_apply_eq_ok, StateT.pure_apply, Except.ok.injEq,
        Prod.mk.injEq] at h₁
      obtain ⟨_, _, h₁, rfl, rfl⟩ := h₁
      obtain ⟨dsM, fsM, hm, haM, hoM⟩ := runMethod_sound h₁
      rw [hoM] at hrest
      exact ⟨_, _, .method hm hrest, haM.trans haRest, hoRest.trans hoM⟩

/-- A successful run is related to its input by `DirectivesResolve`, with the module scope
    opened inside the resolver's scopes, and hands out exactly the declared identifiers, in
    order. -/
theorem run_sound {ds : List Ast.Directive} {out} (h : run ds r = .ok (out, r')) :
    ∃ decls fs, DirectivesResolve r.scopes [] ds out decls fs ∧ Allocated r r' decls := by
  simp only [run, StateT.bind_apply_eq_ok, startScope_apply, StateT.pure_apply, Except.ok.injEq,
    Prod.mk.injEq] at h
  obtain ⟨_, _, ⟨-, rfl⟩, _, r₂, hds, _, r₃, hend, rfl, rfl⟩ := h
  obtain ⟨decls, fs, hres, ha, -⟩ := mapM_runDirective_sound ds hds
  obtain ⟨s, ss, hs, rfl⟩ := endScope_eq_ok.mp hend
  have ha' := ((Allocated.nil rfl rfl : Allocated r r.pushScope []).trans ha).trans
    (Allocated.nil rfl rfl : Allocated r₂ (r₂.popScope _ _ hs) [])
  rw [List.nil_append, List.append_nil] at ha'
  exact ⟨decls, fs, hres, ha'⟩

end Methods

/-! ## Resolution and declarations of a whole module -/

section Module

variable {ds : List Ast.Directive} {r r' : ScopedResolver} {out : List NormalizedDirective2}

/-- Whenever the pass succeeds, its output is the input with every name resolved as PTX scoping
    says: blocks inlined in order, each `%r<N>` expanded, every operand and guard renamed to the
    identifier of the declaration of the innermost enclosing scope that declares it (labels
    hoisted), every label to its own declaration's identifier. -/
theorem run_eq_ok_resolves (h : run ds r = .ok (out, r')) :
    ∃ decls fs, DirectivesResolve r.scopes [] ds out decls fs :=
  let ⟨decls, fs, hres, _⟩ := run_sound h
  ⟨decls, fs, hres⟩

/-- A kernel whose first instruction names a label declared after it. -/
def forwardLabel : List Ast.Directive :=
  [.method ⟨0⟩
    { funcDirective :=
        { returnArguments := [], name := .kernel "k", inputArguments := [], sharedMem := none }
      tuning := []
      body := some [.instruction none (.other [.reg "L"]), .label "L"] }]

/-- The forward reference names the label's own identifier. -/
theorem forwardLabel_resolves :
    ∃ r', run forwardLabel ScopedResolver.new = .ok ([.method
        { funcDecl :=
            { returnArguments := [], name := .kernel "k", inputArguments := [], sharedMem := none }
          globals := [], importAs := none, tuning := [], linkage := ⟨0⟩
          body := some [.instruction (none, .other [.reg 1]), .label 1] }], r') ∧
      ∃ decls fs, DirectivesResolve ScopedResolver.new.scopes [] forwardLabel
        [.method
          { funcDecl :=
              { returnArguments := [], name := .kernel "k", inputArguments := [], sharedMem := none }
            globals := [], importAs := none, tuning := [], linkage := ⟨0⟩
            body := some [.instruction (none, .other [.reg 1]), .label 1] }] decls fs :=
  ⟨_, rfl, run_eq_ok_resolves rfl⟩

/-- When no module variable shares its name with a device function, a successful run declares
    pairwise distinct identifiers, each described in the table by its source name and, for
    variables and arguments, its type; a device function's identifier is its own declaration's,
    shared by every method of its name and by no other name. -/
theorem run_eq_ok_decls_distinct (h : run ds r = .ok (out, r'))
    (hnames : ∀ n ∈ moduleVarNames ds, n ∉ deviceFunctionNames ds) :
    ∃ decls fs, DirectivesResolve r.scopes [] ds out decls fs ∧
      (decls.map Prod.fst).Nodup ∧
      (∀ d ∈ decls, r'.identMap.lookup d.1 = some d.2) ∧
      (∀ f ∈ fs, (f.2, ⟨some f.1, none⟩) ∈ decls) ∧
      (∀ d ∈ decls, ∀ f ∈ fs, d.1 = f.2 → d = (f.2, ⟨some f.1, none⟩)) ∧
      (∀ f ∈ fs, ∀ g ∈ fs, f.1 = g.1 ↔ f.2 = g.2) := by
  obtain ⟨decls, fs, hres, ha⟩ := run_sound h
  have hnd : (decls.map Prod.fst).Nodup := ha.ids_eq ▸ List.nodup_range' _ _
  have huniq := List.inj_on_of_nodup_map hnd
  have hfun : ∀ f ∈ fs, (f.2, ⟨some f.1, none⟩) ∈ decls := fun f hf => by
    rcases hres.mem_cases f hf with hd | hl | hv
    · exact hd
    · cases hl
    · exact absurd (hres.mem_deviceFunctionNames f hf) (hnames _ hv)
  refine ⟨decls, fs, hres, hnd, fun d hd => ha.lookup_eq hd, hfun,
    fun d hd f hf he => huniq hd (hfun f hf) he,
    fun f hf g hg => ⟨hres.eq_of_name_eq f hf g hg, fun he => ?_⟩⟩
  have := huniq (hfun f hf) (hfun g hg) he
  simp only [Prod.mk.injEq, IdentEntry.mk.injEq, Option.some.injEq, and_true] at this
  exact this.2

/-- A module variable `foo` followed by a device function `foo`. -/
def varThenFunc : List Ast.Directive :=
  [.variable ⟨0⟩
    { align := none, vType := .scalar .u32, stateSpace := .global, name := "foo", arrayInit := [] },
   .method ⟨0⟩
    { funcDirective :=
        { returnArguments := [], name := .func "foo", inputArguments := [], sharedMem := none }
      tuning := [], body := none }]

/-- The device function `foo` gets the module variable's identifier, whose table entry carries the
    variable's type. -/
theorem varThenFunc_shares_id :
    ∃ r', run varThenFunc ScopedResolver.new = .ok ([.variable ⟨0⟩
        { align := none, vType := .scalar .u32, stateSpace := .global, name := 1, arrayInit := [] },
       .method
        { funcDecl :=
            { returnArguments := [], name := .func 1, inputArguments := [], sharedMem := none }
          globals := [], body := none, importAs := none, tuning := [], linkage := ⟨0⟩ }], r') ∧
      r'.identMap.lookup 1 = some ⟨some "foo", some (.scalar .u32, .global)⟩ :=
  ⟨_, rfl, rfl⟩

/-- A device function with one argument, declared and then defined with a label shadowed in a
    nested block. -/
def declThenDef : List Ast.Directive :=
  let arg : Ast.Variable String :=
    { align := none, vType := .scalar .u32, stateSpace := .reg, name := "a", arrayInit := [] }
  let decl : Ast.MethodDeclaration String :=
    { returnArguments := [], name := .func "f", inputArguments := [arg], sharedMem := none }
  [.method ⟨0⟩ { funcDirective := decl, tuning := [], body := none },
   .method ⟨0⟩ { funcDirective := decl, tuning := [], body := some [.label "l", .block [.label "l"]] }]

theorem declThenDef_decls_distinct :
    (∀ n ∈ moduleVarNames declThenDef, n ∉ deviceFunctionNames declThenDef) ∧
    ∃ out r', run declThenDef ScopedResolver.new = .ok (out, r') ∧
      ∃ decls fs, DirectivesResolve ScopedResolver.new.scopes [] declThenDef out decls fs ∧
        (decls.map Prod.fst).Nodup ∧
        (∀ d ∈ decls, r'.identMap.lookup d.1 = some d.2) ∧
        (∀ f ∈ fs, (f.2, ⟨some f.1, none⟩) ∈ decls) ∧
        (∀ d ∈ decls, ∀ f ∈ fs, d.1 = f.2 → d = (f.2, ⟨some f.1, none⟩)) ∧
        (∀ f ∈ fs, ∀ g ∈ fs, f.1 = g.1 ↔ f.2 = g.2) :=
  ⟨by decide, _, _, rfl, run_eq_ok_decls_distinct rfl (by decide)⟩

end Module

end ZludaPtx.NormalizeIdentifiers
