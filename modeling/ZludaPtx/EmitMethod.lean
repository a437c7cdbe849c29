import ZludaPtx.EmitSteps

/-!
# The method header

`emit_method` before the body: the name, the function type, `LLVMAddFunction`, the registration
of a device function's identifier, the parameter loop and the calling convention.  One round of
the parameter loop is described once (`emitParams_cons_eq_ok`), and the whole loop by induction
from it (`emitParams_frame`, and `emitParams_names` for the names under well-formed interned
words); `emitMethod_eq_ok` takes a successful `emit_method` apart into these pieces and the
body, so that the results about methods never unfold it.

## Key results

- `emitParams_cons_eq_ok`: one round of the parameter loop
- `emitParams_frame`: the loop's effect on the function, the builder and the value table
- `emitParams_names`: with well-formed words, parameter `i` is named `decimal(id_i)`
- `lookup_paramBindings`: with distinct identifiers, parameter `j`'s identifier stands for it
- `emitMethod_eq_ok`: the inversion lemma of `emit_method`
-/

namespace ZludaPtx.EmitLlvm

open Llvm

variable {dbg : Bool}

/-- The value registrations of the parameter loop of function `fn` from parameter `i` on, newest
    first. -/
def paramBindings (fn : Nat) : Nat → List (Ast.Variable SpirvWord) → List (SpirvWord × Value)
  | _, [] => []
  | i, param :: params => paramBindings fn (i + 1) params ++ [(param.name, .param fn i)]

/-- Only the parameters' identifiers are registered. -/
theorem mem_paramBindings {fn i : Nat} {params : List (Ast.Variable SpirvWord)}
    {e : SpirvWord × Value} (h : e ∈ paramBindings fn i params) : e.1 ∈ params.map (·.name) := by
  induction params generalizing i with
  | nil => cases h
  | cons param params ih =>
    rcases List.mem_append.mp h with h | h
    · exact List.mem_cons_of_mem _ (ih h)
    · rw [List.mem_singleton.mp h]; exact List.mem_cons_self _ _

/-- An identifier that names no parameter is not registered by the loop. -/
theorem lookup_paramBindings_of_not_mem {fn i : Nat} {params : List (Ast.Variable SpirvWord)}
    {w : SpirvWord} (hw : w ∉ params.map (·.name)) : (paramBindings fn i params).lookup w = none :=
  List.lookup_eq_none_iff.mpr fun e he => by
    simpa using fun heq : w = e.1 => hw (heq ▸ mem_paramBindings he)

/-- A parameter's identifier stands for a parameter of the function. -/
theorem lookup_paramBindings_of_mem (fn i : Nat) {params : List (Ast.Variable SpirvWord)}
    {w : SpirvWord} (hw : w ∈ params.map (·.name)) :
    ∃ j, (paramBindings fn i params).lookup w = some (.param fn j) := by
  induction params generalizing i with
  | nil => cases hw
  | cons p ps ih =>
    rw [paramBindings, List.lookup_append]
    by_cases hps : w ∈ ps.map (·.name)
    · obtain ⟨j, hj⟩ := ih (i + 1) hps
      exact ⟨j, by rw [hj]; rfl⟩
    · have hwp : w = p.name := by simpa [hps] using hw
      exact ⟨i, by rw [lookup_paramBindings_of_not_mem hps, hwp]; simp⟩

/-- With distinct identifiers, the identifier of parameter `j` stands for parameter `i + j`. -/
theorem lookup_paramBindings (fn i : Nat) {params : List (Ast.Variable SpirvWord)}
    (hnd : (params.map (·.name)).Nodup) {j : Nat} (hj : j < params.length) :
    (paramBindings fn i params).lookup (params.get ⟨j, hj⟩).name = some (.param fn (i + j)) := by
  induction params generalizing i j with
  | nil => cases hj
  | cons param params ih =>
    rw [List.map_cons, List.nodup_cons] at hnd
    simp only [paramBindings, List.lookup_append]
    cases j with
    | zero => simp [lookup_paramBindings_of_not_mem hnd.1]
    | succ j =>
      rw [List.get_cons_succ, ih (i + 1) hnd.2 (Nat.lt_of_succ_lt_succ hj)]
      simp [Nat.add_assoc, Nat.add_comm 1 j]

/-- One round of the parameter loop, on the module's last function: parameter `i` is named after
    its interned identifier and registered for its LLVM parameter, and a kernel's parameter also
    gets `byref` of its type at index `i + 1`. -/
theorem emitParams_cons_eq_ok {pre : List Function} {f : Function} {isKernel : Bool} {i : Nat}
    {param : Ast.Variable SpirvWord} {params : List (Ast.Variable SpirvWord)} {st st' : EmitState}
    (hm : st.module = ⟨pre ++ [f]⟩)
    (h : emitParams pre.length isKernel i (param :: params) st = .ok ((), st')) :
    ∃ n r attrs, ResolveIdent.getOrAdd param.name st.resolver = .ok (n, r) ∧
      (isKernel = false ∧ attrs = [] ∨
        isKernel = true ∧ ∃ t, getType param.vType = .ok t ∧ attrs = [(i + 1, .byref t)]) ∧
      emitParams pre.length isKernel (i + 1) params
        ⟨⟨pre ++ [{ f with paramNames := f.paramNames.set i n, attributes := f.attributes ++ attrs }]⟩,
          st.builder, { r with values := (param.name, .param pre.length i) :: r.values }⟩ =
        .ok ((), st') := by
  simp only [emitParams, StateT.bind_apply_eq_ok, resolve_apply_eq_ok,
    setValueName2_param_apply_eq_ok, ResolveIdent.register_eq_ok] at h
  obtain ⟨n, _, ⟨r, hn, rfl⟩, _, _, rfl, _, _, ⟨_, rfl, rfl⟩, _, _, hk, hrest⟩ := h
  cases isKernel
  · simp only [Bool.false_eq_true, ↓reduceIte, StateT.pure_apply, Except.ok.injEq,
      Prod.mk.injEq] at hk
    obtain ⟨-, rfl⟩ := hk
    rw [hm, Module.setParamName_last] at hrest
    exact ⟨n, r, [], hn, .inl ⟨rfl, rfl⟩, by simpa only [List.append_nil] using hrest⟩
  · simp only [↓reduceIte, StateT.bind_apply_eq_ok, liftE_apply_eq_ok,
      addAttributeAtIndex_apply_eq_ok] at hk
    obtain ⟨t, _, ⟨ht, rfl⟩, rfl⟩ := hk
    rw [hm, Module.setParamName_last, Module.addAttribute_last] at hrest
    exact ⟨n, r, _, hn, .inr ⟨rfl, t, ht, rfl⟩, hrest⟩

/-- The parameter loop changes only the names and attributes of the last function, leaves the
    builder, and registers each parameter's identifier for its LLVM parameter; a kernel's
    parameter `i` gets `byref` of its type at index `i + 1`, a device function's none. -/
theorem emitParams_frame {pre : List Function} {f : Function} {isKernel : Bool} {i : Nat}
    {params : List (Ast.Variable SpirvWord)} {st st' : EmitState} (hm : st.module = ⟨pre ++ [f]⟩)
    (h : emitParams pre.length isKernel i params st = .ok ((), st')) :
    ∃ f', st'.module = ⟨pre ++ [f']⟩ ∧ f'.name = f.name ∧ f'.type = f.type ∧
      f'.callConv = f.callConv ∧ f'.blocks = f.blocks ∧ st'.builder = st.builder ∧
      st'.resolver.values = paramBindings pre.length i params ++ st.resolver.values ∧
      (isKernel = true → ∃ tys, params.mapM (fun v => getType v.vType) = .ok tys ∧
        f'.attributes = f.attributes ++ (List.range' (i + 1) params.length).zip (tys.map .byref)) ∧
      (isKernel = false → f'.attributes = f.attributes) := by
  induction params generalizing i st f with
  | nil =>
    simp only [emitParams, StateT.pure_apply, Except.ok.injEq, Prod.mk.injEq] at h
    obtain ⟨-, rfl⟩ := h
    exact ⟨f, hm, rfl, rfl, rfl, rfl, rfl, by simp [paramBindings], fun _ => ⟨[], rfl, by simp⟩,
      fun _ => rfl⟩
  | cons param params ih =>
    obtain ⟨n, r, attrs, hn, hk, hrest⟩ := emitParams_cons_eq_ok hm h
    obtain ⟨f', hm', hname, htype, hcc, hblocks, hb, hvals, hattrK, hattrF⟩ := ih rfl hrest
    refine ⟨f', hm', hname, htype, hcc, hblocks, hb, ?_, fun hK => ?_, fun hF => ?_⟩
    · simp [hvals, paramBindings, ResolveIdent.getOrAdd_values hn]
    · obtain ⟨-, t, ht, rfl⟩ := hk.resolve_left (by simp [hK])
      obtain ⟨tys, htys, hattr⟩ := hattrK hK
      exact ⟨t :: tys, by simp only [List.mapM_cons, ht, htys]; rfl, by simp [hattr, List.range'_succ]⟩
    · obtain ⟨-, rfl⟩ := hk.resolve_right (by simp [hF])
      simpa using hattrF hF

/-- With well-formed words, the parameter loop names each parameter after its identifier and
    keeps the words well formed. -/
theorem emitParams_names {pre : List Function} {f : Function} {isKernel : Bool}
    {done : List String} {params : List (Ast.Variable SpirvWord)} {st st' : EmitState}
    (hm : st.module = ⟨pre ++ [f]⟩) (hw : st.resolver.WordsWf)
    (hn : f.paramNames = done ++ List.replicate params.length "")
    (h : emitParams pre.length isKernel done.length params st = .ok ((), st')) :
    ∃ f', st'.module = ⟨pre ++ [f']⟩ ∧ f'.paramNames = done ++ params.map (toString ·.name) ∧
      st'.resolver.WordsWf := by
  induction params generalizing done st f with
  | nil =>
    simp only [emitParams, StateT.pure_apply, Except.ok.injEq, Prod.mk.injEq] at h
    obtain ⟨-, rfl⟩ := h
    exact ⟨f, hm, by simpa using hn, hw⟩
  | cons param params ih =>
    obtain ⟨n, r, attrs, hgn, -, hrest⟩ := emitParams_cons_eq_ok hm h
    obtain ⟨r', hr', -, hw'⟩ := ResolveIdent.getOrAdd_eq_ok hw param.name
    obtain ⟨rfl, rfl⟩ : toString param.name = n ∧ r' = r := by
      simpa [hr'] using hgn
    have hset : (f.paramNames.set done.length (toString param.name)) =
        (done ++ [toString param.name]) ++ List.replicate params.length "" := by
      rw [hn, List.length_cons, List.replicate_succ, List.set_append_right _ _ (Nat.le_refl _)]
      simp
    rw [show done.length + 1 = (done ++ [toString param.name]).length by simp] at hrest
    obtain ⟨f', hm', hnames, hw''⟩ := ih rfl hw' (by simpa using hset) hrest
    exact ⟨f', hm', by simpa using hnames, hw''⟩

/-- The registration `emit_method` makes for the method itself: a device function's identifier
    stands for the added function. -/
def selfBinding (name : Ast.MethodName SpirvWord) (fn : Nat) : List (SpirvWord × Value) :=
  match name with
  | .func id => [(id, .function fn)]
  | .kernel _ => []

/-- A successful `emit_method`, step by step: the name and the function type are computed, the
    function is added as the module's last, a device function's identifier is registered for
    it, the parameter loop runs, the calling convention is set, and the body, if any, is
    emitted. -/
theorem emitMethod_eq_ok {idDefs : List (SpirvWord × IdentEntry)}
    {method : Function2 EmitStatement} {st st' : EmitState}
    (h : emitMethod dbg idDefs method st = .ok ((), st')) :
    ∃ name fnType st₂ st₃, methodName idDefs method = .ok name ∧
      name.data.contains '\x00' = false ∧
      getFunctionType (method.funcDecl.returnArguments.map (·.vType))
        (method.funcDecl.inputArguments.map fun v => getInputArgumentType v.vType v.stateSpace) =
          .ok fnType ∧
      emitParams st.module.functions.length method.funcDecl.name.isKernel 0
        method.funcDecl.inputArguments
        { st with
          module := st.module.addFunction name fnType
          resolver := { st.resolver with
            values := selfBinding method.funcDecl.name st.module.functions.length ++
              st.resolver.values } } = .ok ((), st₂) ∧
      st₃ = { st₂ with
        module := st₂.module.setCallConv st.module.functions.length
          (if method.funcDecl.name.isKernel then kernelCallConvention else funcCallConvention) } ∧
      (∀ body, method.body = some body →
        emitBody dbg st.module.functions.length body st₃ = .ok ((), st')) ∧
      (method.body = none → st' = st₃) := by
  simp only [emitMethod, StateT.bind_apply_eq_ok, liftE_apply_eq_ok, addFunction_apply_eq_ok,
    setFunctionCallConv_apply_eq_ok] at h
  obtain ⟨name, s₀, ⟨hname, rfl⟩, _, s₁, hc, fnType, s₂, ⟨hty, rfl⟩, _, _, ⟨rfl, rfl⟩, _, s₃, hreg,
    _, s₄, hparams, _, _, rfl, hbody⟩ := h
  cases hcn : name.data.contains '\x00' <;>
    simp only [hcn, ↓reduceIte, throw_apply, reduceCtorEq, StateT.pure_apply, Except.ok.injEq,
      Prod.mk.injEq] at hc
  obtain ⟨-, rfl⟩ := hc
  have hs₃ : s₃ = { s₀ with
      module := s₀.module.addFunction name fnType
      resolver := { s₀.resolver with
        values := selfBinding method.funcDecl.name s₀.module.functions.length ++
          s₀.resolver.values } } := by
    cases hn : method.funcDecl.name <;> simp only [hn] at hreg
    · simpa [selfBinding, eq_comm] using hreg
    · obtain ⟨r, hr, rfl⟩ := resolve_apply_eq_ok.mp hreg
      rw [ResolveIdent.register_eq_ok] at hr
      simp [hr, selfBinding]
  subst hs₃
  refine ⟨name, fnType, s₄, _, hname, hcn, hty, hparams, rfl, fun body hb => ?_, fun hb => ?_⟩
  · simpa [hb] using hbody
  · simp only [hb, StateT.pure_apply, Except.ok.injEq, Prod.mk.injEq] at hbody
    exact hbody.2.symm

/-- The header of a successful `emit_method`: the function is added as the module's last, with
    the method's name and function type, no blocks and its calling convention; with distinct
    parameter identifiers each parameter's identifier stands for it, and a kernel's parameter
    `i` has `byref` of its type at index `i + 1`, a device function's parameters nothing; with
    well-formed words each parameter is named after its identifier.  The body, if any, is then
    emitted from the state the header leaves. -/
theorem emitMethod_header {idDefs : List (SpirvWord × IdentEntry)}
    {method : Function2 EmitStatement} {st st' : EmitState}
    (h : emitMethod dbg idDefs method st = .ok ((), st')) :
    ∃ name f st₃, methodName idDefs method = .ok name ∧
      st₃.module = ⟨st.module.functions ++ [f]⟩ ∧ f.name = name ∧
      getFunctionType (method.funcDecl.returnArguments.map (·.vType))
        (method.funcDecl.inputArguments.map fun v => getInputArgumentType v.vType v.stateSpace) =
          .ok f.type ∧
      f.blocks = [] ∧
      f.callConv =
        (if method.funcDecl.name.isKernel then kernelCallConvention else funcCallConvention) ∧
      (method.funcDecl.name.isKernel = true → ∃ tys,
        method.funcDecl.inputArguments.mapM (fun v => getType v.vType) = .ok tys ∧
        f.attributes =
          (List.range' 1 method.funcDecl.inputArguments.length).zip (tys.map .byref)) ∧
      (method.funcDecl.name.isKernel = false → f.attributes = []) ∧
      st₃.resolver.values = paramBindings st.module.functions.length 0
        method.funcDecl.inputArguments ++
          selfBinding method.funcDecl.name st.module.functions.length ++ st.resolver.values ∧
      (st.resolver.WordsWf →
        f.paramNames = method.funcDecl.inputArguments.map (toString ·.name)) ∧
      (∀ body, method.body = some body →
        emitBody dbg st.module.functions.length body st₃ = .ok ((), st')) ∧
      (method.body = none → st' = st₃) := by
  obtain ⟨name, fnType, st₂, st₃, hname, -, hty, hparams, rfl, hbody, hnone⟩ := emitMethod_eq_ok h
  obtain ⟨f', hm', hn', ht', -, hb', -, hv', hk', hd'⟩ := emitParams_frame rfl hparams
  have hlen : (Function.declaration name fnType).paramNames =
      [] ++ List.replicate method.funcDecl.inputArguments.length "" := by
    have := List.length_eq_of_mapM_eq_ok (getFunctionType_params hty)
    rw [List.length_map] at this
    simp [Function.declaration, this]
  refine ⟨name, { f' with callConv :=
      if method.funcDecl.name.isKernel then kernelCallConvention else funcCallConvention }, _,
    hname, ?_, hn', ?_, hb', rfl, fun hk => ?_, hd', by simp [hv'], fun hw => ?_, hbody, hnone⟩
  · show st₂.module.setCallConv _ _ = _
    rw [hm', Module.setCallConv_last]
  · show _ = .ok f'.type
    rw [ht']
    exact hty
  · obtain ⟨tys, htys, hattr⟩ := hk' hk
    exact ⟨tys, htys, by simpa [Function.declaration] using hattr⟩
  · obtain ⟨f'', hm'', hnames, -⟩ := emitParams_names (by rfl) (by exact hw) hlen hparams
    rw [hm'] at hm''
    simp only [Module.mk.injEq, List.append_cancel_left_eq, List.cons.injEq, and_true] at hm''
    simpa [hm''] using hnames

end ZludaPtx.EmitLlvm
