import ZludaPtx.EmitLayout

/-!
# Methods in the module

What `emit_method` leaves for the rest of the module: one function added at the end, under the
method's name, with the signature its declaration gives, and a value table in which the
parameters and a device function's own identifier stand for the values `emit_method` created.
The directive loop adds one function per method directive: a device function declared and then
defined becomes two functions of one name, and a call emitted between the two calls the
declaration's function, which never gets a body.

## Key results

- `emitMethod_adds_function`: one function, named by `methodName`
- `emitMethod_signature`: type, calling convention, parameter names, values and attributes
- `emitDirectives_functions`: one function per method directive, in order
- `run_method_at`: where `run` emitted each method directive
- `declCallDef_calls_declaration`: a call between a declaration and its definition
-/

namespace ZludaPtx.EmitLlvm

open Llvm

variable {dbg : Bool}

/-- After the header, the body changes only the blocks of the new function, and registers only
    identifiers it defines. -/
theorem emitMethod_after_header {method : Function2 EmitStatement} {pre : List Function}
    {f : Function} {st₃ st' : EmitState} (hm₃ : st₃.module = ⟨pre ++ [f]⟩) (hb₀ : f.blocks = [])
    (hbody : ∀ body, method.body = some body → emitBody dbg pre.length body st₃ = .ok ((), st'))
    (hnone : method.body = none → st' = st₃) :
    ∃ bs ds, st'.module = ⟨pre ++ [{ f with blocks := bs }]⟩ ∧
      RegistersOnly ds st₃.resolver st'.resolver ∧
      ∀ d ∈ ds, ∃ body, method.body = some body ∧ d ∈ body.flatMap defsOf := by
  cases hb : method.body with
  | none =>
    rw [hnone hb]
    have hf : { f with blocks := [] } = f := by cases f; cases hb₀; rfl
    exact ⟨[], [], by rw [hm₃, hf], .of_values_eq rfl, fun _ h => nomatch h⟩
  | some body =>
    obtain ⟨-, -, bs, -, -, hm', -, hr⟩ := emitBody_layout hm₃ hb₀ (hbody body hb)
    exact ⟨bs, _, hm', hr, fun d hd => ⟨body, rfl, hd⟩⟩

/-- `emit_method` adds one function at the end of the module, named by `methodName`. -/
theorem emitMethod_adds_function {idDefs : List (SpirvWord × IdentEntry)}
    {method : Function2 EmitStatement} {st st' : EmitState}
    (h : emitMethod dbg idDefs method st = .ok ((), st')) :
    ∃ f, st'.module.functions = st.module.functions ++ [f] ∧
      methodName idDefs method = .ok f.name := by
  obtain ⟨name, f, st₃, hname, hm₃, hn, -, hb₀, -, -, -, -, -, hbody, hnone⟩ :=
    emitMethod_header h
  obtain ⟨bs, -, hm', -⟩ := emitMethod_after_header hm₃ hb₀ hbody hnone
  exact ⟨{ f with blocks := bs }, by rw [hm'], hn ▸ hname⟩

/-- The signature of the function `emit_method` adds, and what the method's identifiers stand
    for afterwards.  The type is `get_function_type` of the declaration; the calling convention
    is the kernel one exactly for a kernel; with well-formed interned words, parameter `i` is
    named `decimal(id_i)`; a kernel's parameter `i` has `byref` of its type at index `i + 1`
    and a device function's parameters nothing.  With distinct parameter identifiers that the
    method's own identifier and the body's definitions avoid, identifier `id_i` stands for
    parameter `i` after the whole method, and a device function's identifier for the function. -/
theorem emitMethod_signature {idDefs : List (SpirvWord × IdentEntry)}
    {method : Function2 EmitStatement} {st st' : EmitState} (hw : st.resolver.WordsWf)
    (hnd : (method.funcDecl.inputArguments.map (·.name)).Nodup)
    (hself : ∀ id, method.funcDecl.name = .func id →
      id ∉ method.funcDecl.inputArguments.map (·.name))
    (hdefs : ∀ body, method.body = some body → ∀ d ∈ body.flatMap defsOf,
      d ∉ method.funcDecl.inputArguments.map (·.name) ∧
        ∀ id, method.funcDecl.name = .func id → d ≠ id)
    (h : emitMethod dbg idDefs method st = .ok ((), st')) :
    ∃ f, st'.module.functions = st.module.functions ++ [f] ∧
      getFunctionType (method.funcDecl.returnArguments.map (·.vType))
        (method.funcDecl.inputArguments.map fun v => getInputArgumentType v.vType v.stateSpace) =
          .ok f.type ∧
      f.callConv =
        (if method.funcDecl.name.isKernel then kernelCallConvention else funcCallConvention) ∧
      f.paramNames = method.funcDecl.inputArguments.map (toString ·.name) ∧
      (∀ j (hj : j < method.funcDecl.inputArguments.length),
        ResolveIdent.value (method.funcDecl.inputArguments.get ⟨j, hj⟩).name st'.resolver =
          .ok (.param st.module.functions.length j, st'.resolver)) ∧
      (method.funcDecl.name.isKernel = true → ∃ tys,
        method.funcDecl.inputArguments.mapM (fun v => getType v.vType) = .ok tys ∧
        f.attributes =
          (List.range' 1 method.funcDecl.inputArguments.length).zip (tys.map .byref)) ∧
      (method.funcDecl.name.isKernel = false → f.attributes = []) ∧
      (∀ id, method.funcDecl.name = .func id →
        ResolveIdent.value id st'.resolver =
          .ok (.function st.module.functions.length, st'.resolver)) := by
  obtain ⟨-, f, st₃, -, hm₃, -, hty, hb₀, hcc, hk, hd, hv₃, hnames, hbody, hnone⟩ :=
    emitMethod_header h
  obtain ⟨bs, ds, hm', hr, hds⟩ := emitMethod_after_header hm₃ hb₀ hbody hnone
  have hnot : ∀ d ∈ ds, d ∉ method.funcDecl.inputArguments.map (·.name) ∧
      ∀ id, method.funcDecl.name = .func id → d ≠ id := fun d hd => by
    obtain ⟨body, hb, hd⟩ := hds d hd
    exact hdefs body hb d hd
  refine ⟨{ f with blocks := bs }, by rw [hm'], hty, hcc, hnames hw, fun j hj => ?_, hk, hd,
    fun id hid => ?_⟩
  · have hmem : (method.funcDecl.inputArguments.get ⟨j, hj⟩).name ∈
        method.funcDecl.inputArguments.map (·.name) :=
      List.mem_map_of_mem _ (List.get_mem _ _ _)
    refine ResolveIdent.value_eq_ok.mpr ⟨?_, rfl⟩
    rw [hr.lookup_eq fun hd' => (hnot _ hd').1 hmem, hv₃, List.append_assoc, List.lookup_append,
      lookup_paramBindings _ _ hnd hj, Nat.zero_add]
    rfl
  · refine ResolveIdent.value_eq_ok.mpr ⟨?_, rfl⟩
    rw [hr.lookup_eq fun hd' => (hnot _ hd').2 id hid rfl, hv₃, List.append_assoc,
      List.lookup_append,
      lookup_paramBindings_of_not_mem (hself id hid), Option.none_or, hid]
    simp [selfBinding]

/-- A device function with a register parameter `a`, whose body sets `a` to the constant 5. -/
def constParam : Function2 EmitStatement :=
  { funcDecl :=
      { returnArguments := [], name := .func 1, sharedMem := none
        inputArguments := [⟨none, .scalar .u32, .reg, 2, []⟩] }
    globals := [], importAs := none, tuning := [], linkage := ⟨0⟩
    body := some [.constant ⟨2, .u32, .u64 5⟩, .instruction .ret] }

/-- After the method, the parameter's identifier stands for the constant, not for the
    parameter. -/
theorem constParam_value : ∃ st', emitMethod true [(1, ⟨some "f", none⟩)] constParam EmitState.new =
    .ok ((), st') ∧ ResolveIdent.value 2 st'.resolver = .ok (.constInt 32 5, st'.resolver) :=
  ⟨_, rfl, rfl⟩

/-- `constParam` with the constant defined under a fresh identifier: a device function `f` with a
    register parameter `a`, whose body defines the constant 5 as `c`. -/
def freshConst : Function2 EmitStatement :=
  { funcDecl :=
      { returnArguments := [], name := .func 1, sharedMem := none
        inputArguments := [⟨none, .scalar .u32, .reg, 2, []⟩] }
    globals := [], importAs := none, tuning := [], linkage := ⟨0⟩
    body := some [.constant ⟨3, .u32, .u64 5⟩, .instruction .ret] }

theorem freshConst_signature :
    ∃ st', emitMethod true [(1, ⟨some "f", none⟩)] freshConst EmitState.new = .ok ((), st') ∧
    ∃ f, st'.module.functions = EmitState.new.module.functions ++ [f] ∧
      getFunctionType (freshConst.funcDecl.returnArguments.map (·.vType))
        (freshConst.funcDecl.inputArguments.map fun v => getInputArgumentType v.vType v.stateSpace) =
          .ok f.type ∧
      f.callConv =
        (if freshConst.funcDecl.name.isKernel then kernelCallConvention else funcCallConvention) ∧
      f.paramNames = freshConst.funcDecl.inputArguments.map (toString ·.name) ∧
      (∀ j (hj : j < freshConst.funcDecl.inputArguments.length),
        ResolveIdent.value (freshConst.funcDecl.inputArguments.get ⟨j, hj⟩).name st'.resolver =
          .ok (.param EmitState.new.module.functions.length j, st'.resolver)) ∧
      (freshConst.funcDecl.name.isKernel = true → ∃ tys,
        freshConst.funcDecl.inputArguments.mapM (fun v => getType v.vType) = .ok tys ∧
        f.attributes =
          (List.range' 1 freshConst.funcDecl.inputArguments.length).zip (tys.map .byref)) ∧
      (freshConst.funcDecl.name.isKernel = false → f.attributes = []) ∧
      (∀ id, freshConst.funcDecl.name = .func id →
        ResolveIdent.value id st'.resolver =
          .ok (.function EmitState.new.module.functions.length, st'.resolver)) :=
  have h : emitMethod true [(1, ⟨some "f", none⟩)] freshConst EmitState.new = .ok ((), _) := rfl
  have hdefs : ∀ body, freshConst.body = some body → ∀ d ∈ body.flatMap defsOf,
      d ∉ freshConst.funcDecl.inputArguments.map (·.name) ∧
        ∀ id, freshConst.funcDecl.name = .func id → d ≠ id := by
    rintro _ ⟨⟩ d hd
    obtain rfl : d = 3 := by simpa [defsOf] using hd
    exact ⟨by decide, fun _ h => by cases h; decide⟩
  ⟨_, h, emitMethod_signature ResolveIdent.new_wordsWf (by decide) (fun _ h => by cases h; decide)
    hdefs h⟩

/-- The directive loop adds one function per directive, in order, each named by its method's
    name; it stops at a module variable. -/
theorem emitDirectives_functions {idDefs : List (SpirvWord × IdentEntry)}
    {ds : List (Directive2 EmitStatement)} {st st' : EmitState}
    (h : emitDirectives dbg idDefs ds st = .ok ((), st')) :
    ∃ fs, st'.module.functions = st.module.functions ++ fs ∧
      List.Forall₂ (fun d f => ∃ m, d = .method m ∧ methodName idDefs m = .ok f.name) ds fs := by
  induction ds generalizing st with
  | nil =>
    simp only [emitDirectives, StateT.pure_apply, Except.ok.injEq, Prod.mk.injEq] at h
    obtain ⟨-, rfl⟩ := h
    exact ⟨[], by simp, .nil⟩
  | cons d ds ih =>
    cases d with
    | «variable» => simp [emitDirectives] at h
    | method m =>
      simp only [emitDirectives, StateT.bind_apply_eq_ok] at h
      obtain ⟨_, st₁, hm, hds⟩ := h
      obtain ⟨f, hf, hname⟩ := emitMethod_adds_function hm
      obtain ⟨fs, hfs, hall⟩ := ih hds
      exact ⟨f :: fs, by rw [hfs, hf, List.append_assoc, List.singleton_append],
        .cons ⟨m, rfl, hname⟩ hall⟩

/-- The run invariant principle of the directive loop: a property of the emitter's state that each
    method of `ds` keeps holds after a successful loop over `ds`. -/
theorem emitDirectives_preserves {idDefs : List (SpirvWord × IdentEntry)}
    {ds : List (Directive2 EmitStatement)} (P : EmitState → Prop)
    (hstep : ∀ method st st', .method method ∈ ds → emitMethod dbg idDefs method st = .ok ((), st') →
      P st → P st')
    {st st' : EmitState} (h : emitDirectives dbg idDefs ds st = .ok ((), st')) (hP : P st) : P st' := by
  induction ds generalizing st with
  | nil =>
    simp only [emitDirectives, StateT.pure_apply, Except.ok.injEq, Prod.mk.injEq] at h
    exact h.2 ▸ hP
  | cons d ds ih =>
    cases d with
    | «variable» => simp [emitDirectives] at h
    | method m =>
      simp only [emitDirectives, StateT.bind_apply_eq_ok] at h
      obtain ⟨_, st₁, hm, hds⟩ := h
      exact ih (fun m' s s' hm' => hstep m' s s' (List.mem_cons_of_mem _ hm')) hds
        (hstep m st st₁ (List.mem_cons_self _ _) hm hP)

/-- A successful loop over `ds₁ ++ ds₂` is a successful loop over `ds₁`, then one over `ds₂`. -/
theorem emitDirectives_append_eq_ok {idDefs : List (SpirvWord × IdentEntry)}
    {ds₁ ds₂ : List (Directive2 EmitStatement)} {st st'' : EmitState}
    (h : emitDirectives dbg idDefs (ds₁ ++ ds₂) st = .ok ((), st'')) :
    ∃ st', emitDirectives dbg idDefs ds₁ st = .ok ((), st') ∧
      emitDirectives dbg idDefs ds₂ st' = .ok ((), st'') := by
  induction ds₁ generalizing st with
  | nil => exact ⟨st, rfl, h⟩
  | cons d ds₁ ih =>
    cases d with
    | «variable» => simp [emitDirectives] at h
    | method m =>
      simp only [List.cons_append, emitDirectives, StateT.bind_apply_eq_ok] at h ⊢
      obtain ⟨_, st₁, hm, hds⟩ := h
      obtain ⟨st', h₁, h₂⟩ := ih hds
      exact ⟨st', ⟨(), st₁, hm, h₁⟩, h₂⟩

/-- `emit_llvm::run` returns the module the directive loop leaves, when the verifier accepts it. -/
theorem run_eq_ok {verify : Module → Bool} {idDefs : List (SpirvWord × IdentEntry)}
    {ds : List (Directive2 EmitStatement)} {m : Module} :
    run dbg verify idDefs ds = .ok m ↔ ∃ st, emitDirectives dbg idDefs ds EmitState.new = .ok ((), st) ∧
      verify st.module = true ∧ st.module = m := by
  cases he : emitDirectives dbg idDefs ds EmitState.new with
  | error e => simp [run, he, bind, Except.bind]
  | ok p =>
    obtain ⟨⟨⟩, st⟩ := p
    cases hv : verify st.module <;>
      simp [run, he, bind, Except.bind, hv, pure, Except.pure, throw, throwThe]

/-- When `run` returns a module, the loop reached each method directive, at its index `k`, after
    the first `k` directives, with `k` functions in the module; the function it added for the
    method is the module's function `k`. -/
theorem run_method_at {verify : Module → Bool} {idDefs : List (SpirvWord × IdentEntry)}
    {ds : List (Directive2 EmitStatement)} {m : Module} (h : run dbg verify idDefs ds = .ok m)
    {k : Nat} {method : Function2 EmitStatement} (hk : ds[k]? = some (.method method)) :
    ∃ st st₁, emitDirectives dbg idDefs (ds.take k) EmitState.new = .ok ((), st) ∧
      emitMethod dbg idDefs method st = .ok ((), st₁) ∧ st.module.functions.length = k ∧
      ∀ f, st₁.module.functions = st.module.functions ++ [f] → m.functions[k]? = some f := by
  obtain ⟨st', hst', -, rfl⟩ := run_eq_ok.mp h
  obtain ⟨hlt, hget⟩ := List.getElem?_eq_some_iff.mp hk
  rw [← List.take_append_drop k ds, List.drop_eq_getElem_cons hlt, hget] at hst'
  obtain ⟨st, hpre, hrest⟩ := emitDirectives_append_eq_ok hst'
  simp only [emitDirectives, StateT.bind_apply_eq_ok] at hrest
  obtain ⟨⟨⟩, st₁, hm, hpost⟩ := hrest
  obtain ⟨fs, hfs, hall⟩ := emitDirectives_functions hpre
  have hlen : st.module.functions.length = k := by
    rw [hfs, List.length_append, ← hall.length_eq, List.length_take]
    exact (Nat.zero_add _).trans (Nat.min_eq_left hlt.le)
  obtain ⟨gs, hgs, -⟩ := emitDirectives_functions hpost
  refine ⟨st, st₁, hpre, hm, hlen, fun f hf => ?_⟩
  rw [← hlen, hgs, hf, List.append_assoc, List.getElem?_append_right (Nat.le_refl _), Nat.sub_self]
  simp

/-- The declaration of a device function `f`. -/
def declF : Function2 EmitStatement :=
  ⟨⟨[], .func 1, [], none⟩, [], none, none, [], ⟨0⟩⟩

/-- A kernel that calls `f`. -/
def callerK : Function2 EmitStatement :=
  ⟨⟨[], .kernel "k", [], none⟩, [],
    some [.instruction (.call ⟨[], []⟩ [] 1 []), .instruction .ret], none, [], ⟨0⟩⟩

/-- The definition of `f`. -/
def defF : Function2 EmitStatement :=
  ⟨⟨[], .func 1, [], none⟩, [], some [.instruction .ret], none, [], ⟨0⟩⟩

/-- `f` declared, then called from a kernel, then defined, as the normalize pass leaves it: both
    methods of `f` carry one identifier. -/
def declCallDef : List (Directive2 EmitStatement) := [.method declF, .method callerK, .method defF]

/-- The module gets two functions named `f`: the kernel calls the first, which never gets a body,
    and the body goes to the second. -/
theorem declCallDef_calls_declaration :
    emitDirectives true [(1, ⟨some "f", none⟩)] declCallDef EmitState.new =
      .ok ((), ⟨⟨[⟨"f", ⟨.void, []⟩, [], [], .c, []⟩,
        ⟨"k", ⟨.void, []⟩, [], [], .amdgpuKernel,
          [⟨"", [.br 1]⟩, ⟨"", [.call ⟨.void, []⟩ (.function 0) [] "", .retVoid]⟩]⟩,
        ⟨"f", ⟨.void, []⟩, [], [], .c, [⟨"", [.br 1]⟩, ⟨"", [.retVoid]⟩]⟩]⟩,
        some ⟨2, 1⟩, ⟨[], [(1, .function 2), (1, .function 0)]⟩⟩) := by
  have h₁ : emitMethod true [(1, ⟨some "f", none⟩)] declF EmitState.new =
      .ok ((), ⟨⟨[⟨"f", ⟨.void, []⟩, [], [], .c, []⟩]⟩, none, ⟨[], [(1, .function 0)]⟩⟩) := rfl
  have h₂ : emitMethod true [(1, ⟨some "f", none⟩)] callerK
      ⟨⟨[⟨"f", ⟨.void, []⟩, [], [], .c, []⟩]⟩, none, ⟨[], [(1, .function 0)]⟩⟩ =
      .ok ((), ⟨⟨[⟨"f", ⟨.void, []⟩, [], [], .c, []⟩,
        ⟨"k", ⟨.void, []⟩, [], [], .amdgpuKernel,
          [⟨"", [.br 1]⟩, ⟨"", [.call ⟨.void, []⟩ (.function 0) [] "", .retVoid]⟩]⟩]⟩,
        some ⟨1, 1⟩, ⟨[], [(1, .function 0)]⟩⟩) := rfl
  simp only [declCallDef, emitDirectives, StateT.bind_apply_of_eq_ok h₁,
    StateT.bind_apply_of_eq_ok h₂]
  rfl

end ZludaPtx.EmitLlvm
