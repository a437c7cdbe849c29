import ZludaPtx.EmitLlvm

/-!
# What one statement does

One lemma per emitting function, saying everything it can do when it succeeds, so that the
proofs about whole bodies never unfold an emitter.  Three kinds of statement differ in where
their instructions go:

- a `Variable` appends one alloca, of its type in its state space, at the variables builder;
- a `Label` appends a block, possibly a branch to it at the module builder's block, and moves
  the module builder to the new block;
- every other statement appends what `Emits` allows (nothing, or one instruction of the kind
  its opcode names) at the module builder's block, and leaves the builder where it is.

Every statement registers values only for the identifiers it defines (`defsOf`); interning
names never touches the values.

## Key results

- `emitStatement_cases`: the effect of one statement, for each kind
- `emitStatements_registersOnly`: a whole body registers only identifiers its statements define
- `emitConstant_apply_eq_ok`: `emit_constant` registers the value `constantValue` computes
- `emitConstant_value_by_width`: an unsigned immediate becomes its low bits at every width; a
  signed one is sign-extended up to 64 bits, and zero-extended at 128
-/

namespace ZludaPtx.EmitLlvm

open Llvm

variable {dbg : Bool}

/-! ## Specifications of a step -/

/-- The identifiers whose value a statement registers. -/
def defsOf : EmitStatement → List SpirvWord
  | .variable v => [v.name]
  | .instruction (.mov dst _) => [dst]
  | .instruction (.ld _ dst _) => [dst]
  | .instruction (.add _ dst _ _) => [dst]
  | .instruction (.call _ rets _ _) => rets
  | .loadVar d => [d.dst]
  | .conversion c => [c.dst]
  | .constant c => [c.dst]
  | _ => []

/-- The identifiers a statement looks up with `ResolveIdent::value`. -/
def usesOf : EmitStatement → List SpirvWord
  | .instruction (.mov _ src) => [src]
  | .instruction (.ld _ _ src) => [src]
  | .instruction (.add _ _ src1 src2) => [src1, src2]
  | .instruction (.st _ src1 src2) => [src1, src2]
  | .instruction (.call _ _ func ins) => ins ++ [func]
  | .loadVar d => [d.src]
  | .storeVar d => [d.src1, d.src2]
  | .conversion c => [c.src]
  | _ => []

/-- Whether a statement is `ret`. -/
def isRet : EmitStatement → Bool
  | .instruction .ret => true
  | _ => false

/-- Whether a statement builds an instruction at the module builder: every kind the emitter lowers
    but a declaration, whose alloca goes to the allocas block, a label, `mov` and a constant. -/
def buildsInst : EmitStatement → Bool
  | .variable _ | .label _ | .instruction (.mov _ _) | .constant _ => false
  | _ => true

/-- What a statement puts at the module builder's block: nothing for a declaration, a `mov` or a
    constant; for a label, at most a branch; otherwise one instruction of its opcode's kind. -/
def Emits : EmitStatement → List Inst → Prop
  | .variable _, is => is = []
  | .label _, is => is = [] ∨ ∃ b, is = [.br b]
  | .instruction (.mov _ _), is => is = []
  | .instruction (.ld d _ _), is => ∃ t ptr n, getType d.typ = .ok t ∧ is = [.load t ptr n]
  | .instruction (.add .integer _ _ _), is => ∃ a b n, is = [.add a b n]
  | .instruction (.add .float _ _ _), is => ∃ a b n, is = [.fadd a b n]
  | .instruction (.st _ _ _), is => ∃ v ptr, is = [.store v ptr]
  | .instruction (.call _ _ _ _), is => ∃ t c args n, is = [.call t c args n]
  | .instruction .ret, is => is = [.retVoid]
  | .loadVar d, is => ∃ t ptr n, getType d.typ = .ok t ∧ is = [.load t ptr n]
  | .storeVar _, is => ∃ v ptr, is = [.store v ptr]
  | .conversion c, is => ∃ v t n, getPointerType c.toSpace = .ok t ∧ is = [.intToPtr v t n]
  | .constant _, is => is = []
  | _, _ => False

/-- The alloca of a declaration: of its type, in its state space's address space, with its
    alignment. -/
def AllocaOf (v : Ast.Variable SpirvWord) (a : Inst) : Prop :=
  ∃ t space name, getType v.vType = .ok t ∧ getStateSpace v.stateSpace = .ok space ∧
    a = .alloca t space name v.align

/-- The value table grew at the front, by registrations of identifiers in `ds` only. -/
def RegistersOnly (ds : List SpirvWord) (r r' : ResolveIdent) : Prop :=
  ∃ new : List (SpirvWord × Value), r'.values = new ++ r.values ∧ ∀ e ∈ new, e.1 ∈ ds

namespace RegistersOnly

variable {ds ds' : List SpirvWord} {r r₁ r' : ResolveIdent}

theorem of_values_eq (h : r'.values = r.values) : RegistersOnly ds r r' :=
  ⟨[], by simpa using h, by simp⟩

theorem register {w : SpirvWord} {v : Value} (h : r'.values = (w, v) :: r.values) (hw : w ∈ ds) :
    RegistersOnly ds r r' :=
  ⟨[(w, v)], h, by simpa using hw⟩

theorem trans (h₁ : RegistersOnly ds r r₁) (h₂ : RegistersOnly ds' r₁ r') :
    RegistersOnly (ds ++ ds') r r' := by
  obtain ⟨n₁, h₁, hn₁⟩ := h₁
  obtain ⟨n₂, h₂, hn₂⟩ := h₂
  exact ⟨n₂ ++ n₁, by rw [h₂, h₁, List.append_assoc], fun e he => by
    rcases List.mem_append.mp he with he | he
    · exact List.mem_append_right _ (hn₂ e he)
    · exact List.mem_append_left _ (hn₁ e he)⟩

/-- A lookup of an identifier that was not registered is unchanged. -/
theorem lookup_eq (h : RegistersOnly ds r r') {w : SpirvWord} (hw : w ∉ ds) :
    r'.values.lookup w = r.values.lookup w := by
  obtain ⟨new, h, hn⟩ := h
  have : new.lookup w = none := List.lookup_eq_none_iff.mpr fun e he => by
    simpa using fun heq : w = e.1 => hw (heq ▸ hn e he)
  rw [h, List.lookup_append, this, Option.none_or]

end RegistersOnly

/-- One statement emitted through the module builder at `p`: what `Emits` allows appended
    there, the builder in place, values registered only for the statement's definitions. -/
structure MainStep (s : EmitStatement) (p : Position) (st st' : EmitState) : Prop where
  appends : ∃ is, Emits s is ∧ st'.module = st.module.appendInsts p is
  builder_eq : st'.builder = st.builder
  registers : RegistersOnly (defsOf s) st.resolver st'.resolver

/-! ## One lemma per emitting function -/

section Steps

variable {st st' : EmitState} {p : Position}

/-- A step that changes nothing but registers values for `ds`. -/
private theorem mainStep_of_values {s : EmitStatement} (hs : Emits s [])
    (hm : st'.module = st.module) (hb : st'.builder = st.builder)
    (hr : RegistersOnly (defsOf s) st.resolver st'.resolver) : MainStep s p st st' :=
  ⟨⟨[], hs, by simpa using hm⟩, hb, hr⟩

theorem emitMov_step {dst src : SpirvWord} (h : emitMov dst src st = .ok ((), st')) :
    MainStep (.instruction (.mov dst src)) p st st' := by
  simp only [emitMov, StateT.bind_apply_eq_ok, resolve_apply_eq_ok, ResolveIdent.value_eq_ok,
    ResolveIdent.register_eq_ok] at h
  obtain ⟨v, _, ⟨_, ⟨-, rfl⟩, rfl⟩, _, rfl, rfl⟩ := h
  exact mainStep_of_values rfl rfl rfl (.register rfl (List.mem_singleton_self _))

theorem emitLd_step {d : Ast.LdDetails} {dst src : SpirvWord} (hp : st.builder = some p)
    (h : emitLd d dst src st = .ok ((), st')) : MainStep (.instruction (.ld d dst src)) p st st' := by
  simp only [emitLd, withResult, StateT.bind_apply_eq_ok, todoIf_apply_eq_ok, liftE_apply_eq_ok,
    resolve_apply_eq_ok, build_apply_eq_ok, ResolveIdent.value_eq_ok,
    ResolveIdent.register_eq_ok] at h
  obtain ⟨_, _, ⟨-, rfl⟩, _, _, ⟨-, rfl⟩, t, _, ⟨ht, rfl⟩, ptr, _, ⟨_, ⟨-, rfl⟩, rfl⟩, n, _,
    ⟨r, hn, rfl⟩, _, _, ⟨q, hq, rfl, rfl⟩, _, rfl, rfl⟩ := h
  obtain rfl : q = p := Option.some.inj (hq.symm.trans hp)
  exact ⟨⟨_, ⟨t, ptr, n, ht, rfl⟩, rfl⟩, rfl,
    .register (congrArg (List.cons _) (ResolveIdent.getOrAddRaw_values hn)) (List.mem_singleton_self _)⟩

theorem emitAdd_step {d : Ast.ArithDetails} {dst src1 src2 : SpirvWord} (hp : st.builder = some p)
    (h : emitAdd d dst src1 src2 st = .ok ((), st')) :
    MainStep (.instruction (.add d dst src1 src2)) p st st' := by
  simp only [emitAdd, withResult, StateT.bind_apply_eq_ok, resolve_apply_eq_ok,
    build_apply_eq_ok, ResolveIdent.value_eq_ok, ResolveIdent.register_eq_ok] at h
  obtain ⟨a, _, ⟨_, ⟨-, rfl⟩, rfl⟩, b, _, ⟨_, ⟨-, rfl⟩, rfl⟩, n, _, ⟨r, hn, rfl⟩, _, _,
    ⟨q, hq, rfl, rfl⟩, _, rfl, rfl⟩ := h
  obtain rfl : q = p := Option.some.inj (hq.symm.trans hp)
  refine ⟨⟨_, ?_, rfl⟩, rfl,
    .register (congrArg (List.cons _) (ResolveIdent.getOrAddRaw_values hn)) (List.mem_singleton_self _)⟩
  cases d <;> exact ⟨a, b, n, rfl⟩

theorem emitSt_step {d : Ast.StData} {src1 src2 : SpirvWord} (hp : st.builder = some p)
    (h : emitSt d src1 src2 st = .ok ((), st')) : MainStep (.instruction (.st d src1 src2)) p st st' := by
  simp only [emitSt, StateT.bind_apply_eq_ok, resolve_apply_eq_ok, todoIf_apply_eq_ok,
    discard_apply_eq_ok, build_apply_eq_ok, ResolveIdent.value_eq_ok] at h
  obtain ⟨ptr, _, ⟨_, ⟨-, rfl⟩, rfl⟩, v, _, ⟨_, ⟨-, rfl⟩, rfl⟩, _, _, ⟨-, rfl⟩, _, q, hq, -, rfl⟩ := h
  obtain rfl : q = p := Option.some.inj (hq.symm.trans hp)
  exact ⟨⟨_, ⟨v, ptr, rfl⟩, rfl⟩, rfl, .of_values_eq rfl⟩

theorem emitStoreVar_step {d : StoreVarDetails} (hp : st.builder = some p)
    (h : emitStoreVar d st = .ok ((), st')) : MainStep (.storeVar d) p st st' := by
  simp only [emitStoreVar, StateT.bind_apply_eq_ok, resolve_apply_eq_ok, discard_apply_eq_ok,
    build_apply_eq_ok, ResolveIdent.value_eq_ok] at h
  obtain ⟨ptr, _, ⟨_, ⟨-, rfl⟩, rfl⟩, v, _, ⟨_, ⟨-, rfl⟩, rfl⟩, _, q, hq, -, rfl⟩ := h
  obtain rfl : q = p := Option.some.inj (hq.symm.trans hp)
  exact ⟨⟨_, ⟨v, ptr, rfl⟩, rfl⟩, rfl, .of_values_eq rfl⟩

theorem emitRet_step (hp : st.builder = some p) (h : emitRet st = .ok ((), st')) :
    MainStep (.instruction .ret) p st st' := by
  simp only [emitRet, discard_apply_eq_ok, build_apply_eq_ok] at h
  obtain ⟨_, q, hq, -, rfl⟩ := h
  obtain rfl : q = p := Option.some.inj (hq.symm.trans hp)
  exact ⟨⟨_, rfl, rfl⟩, rfl, .of_values_eq rfl⟩

theorem emitLoadVariable_step {d : LoadVarDetails} (hp : st.builder = some p)
    (h : emitLoadVariable d st = .ok ((), st')) : MainStep (.loadVar d) p st st' := by
  simp only [emitLoadVariable, withResult, StateT.bind_apply_eq_ok, todoIf_apply_eq_ok,
    liftE_apply_eq_ok, resolve_apply_eq_ok, build_apply_eq_ok, ResolveIdent.value_eq_ok,
    ResolveIdent.register_eq_ok] at h
  obtain ⟨_, _, ⟨-, rfl⟩, t, _, ⟨ht, rfl⟩, ptr, _, ⟨_, ⟨-, rfl⟩, rfl⟩, n, _, ⟨r, hn, rfl⟩, _, _,
    ⟨q, hq, rfl, rfl⟩, _, rfl, rfl⟩ := h
  obtain rfl : q = p := Option.some.inj (hq.symm.trans hp)
  exact ⟨⟨_, ⟨t, ptr, n, ht, rfl⟩, rfl⟩, rfl,
    .register (congrArg (List.cons _) (ResolveIdent.getOrAddRaw_values hn)) (List.mem_singleton_self _)⟩

theorem emitConversion_step {c : ImplicitConversion} (hp : st.builder = some p)
    (h : emitConversion c st = .ok ((), st')) : MainStep (.conversion c) p st st' := by
  cases hk : c.kind <;> simp only [emitConversion, hk, throw_apply, reduceCtorEq] at h
  simp only [withResult, StateT.bind_apply_eq_ok, liftE_apply_eq_ok, resolve_apply_eq_ok,
    build_apply_eq_ok, ResolveIdent.value_eq_ok, ResolveIdent.register_eq_ok] at h
  obtain ⟨v, _, ⟨_, ⟨-, rfl⟩, rfl⟩, t, _, ⟨ht, rfl⟩, n, _, ⟨r, hn, rfl⟩, _, _,
    ⟨q, hq, rfl, rfl⟩, _, rfl, rfl⟩ := h
  obtain rfl : q = p := Option.some.inj (hq.symm.trans hp)
  exact ⟨⟨_, ⟨v, t, n, ht, rfl⟩, rfl⟩, rfl,
    .register (congrArg (List.cons _) (ResolveIdent.getOrAddRaw_values hn)) (List.mem_singleton_self _)⟩

/-- The value `emit_constant` computes for a constant definition: `LLVMConstInt` of the scalar
    type without sign extension for both integer immediates, `LLVMConstReal` for the others. -/
def constantValue (c : ConstantDefinition) : Except TranslateError Value := do
  let type_ ← getScalarType c.typ
  match c.value with
  | .u64 x => constInt type_ x false
  | .s64 x => constInt type_ ⟨x⟩ false
  | .f32 x => constReal type_ (.f32 x)
  | .f64 x => constReal type_ (.f64 x)

/-- `emit_constant` succeeds exactly when `constantValue` does, and registers that value for the
    destination, building nothing. -/
theorem emitConstant_apply_eq_ok {c : ConstantDefinition} {u : Unit} :
    emitConstant c st = .ok (u, st') ↔ ∃ v, constantValue c = .ok v ∧
      st' = { st with resolver := { st.resolver with values := (c.dst, v) :: st.resolver.values } } := by
  simp only [emitConstant, constantValue, StateT.bind_apply_eq_ok, liftE_apply_eq_ok,
    resolve_apply_eq_ok, ResolveIdent.register_eq_ok]
  cases ht : getScalarType c.typ with
  | error e => simp [bind, Except.bind]
  | ok t =>
    simp only [bind, Except.bind]
    constructor
    · rintro ⟨_, _, ⟨hta, rfl⟩, v, _, ⟨hv, rfl⟩, _, rfl, rfl⟩
      cases hta
      exact ⟨v, hv, rfl⟩
    · rintro ⟨v, hv, rfl⟩
      exact ⟨t, st, ⟨rfl, rfl⟩, v, st, ⟨hv, rfl⟩, _, rfl, rfl⟩

/-- An unsigned immediate becomes its low `w` bits at integer width `w`. -/
theorem constantValue_u64 {c : ConstantDefinition} {w : Nat} {x : UInt64}
    (hs : getScalarType c.typ = .ok (.int w)) (hv : c.value = .u64 x) :
    constantValue c = .ok (.constInt w (x.toNat % 2 ^ w)) := by
  simp [constantValue, hs, hv, bind, Except.bind, constInt_int]

/-- A signed immediate is passed on as its 64 bits without sign extension: it becomes the low
    `w` bits of its two's complement, zero-extended past 64. -/
theorem constantValue_s64 {c : ConstantDefinition} {w : Nat} {x : BitVec 64}
    (hs : getScalarType c.typ = .ok (.int w)) (hv : c.value = .s64 x) :
    constantValue c = .ok (.constInt w (x.toNat % 2 ^ w)) := by
  simp [constantValue, hs, hv, bind, Except.bind, constInt_int, UInt64.toNat]

/-- Up to 64 bits, the low bits of a signed immediate are its sign extension to the width. -/
theorem constantValue_s64_of_le {c : ConstantDefinition} {w : Nat} {x : BitVec 64}
    (hs : getScalarType c.typ = .ok (.int w)) (hv : c.value = .s64 x) (hw : w ≤ 64) :
    constantValue c = .ok (.constInt w (x.signExtend w).toNat) := by
  rw [constantValue_s64 hs hv, BitVec.signExtend_eq_setWidth_of_lt _ hw, BitVec.toNat_setWidth]

/-- `emit_constant` registers an unsigned immediate as its low `w` bits at every integer width
    `w`, and a signed immediate as its sign extension up to 64 bits; past 64 it zero-extends: at
    `.b128` the signed immediate `-1` becomes `2^64 - 1`, not its sign extension `2^128 - 1`. -/
theorem emitConstant_value_by_width (st : EmitState) (dst : SpirvWord) :
    (∀ (typ : ScalarType) (w : Nat) (x : UInt64), getScalarType typ = .ok (.int w) →
      ∃ st', emitConstant ⟨dst, typ, .u64 x⟩ st = .ok ((), st') ∧
        st'.resolver.values.lookup dst = some (.constInt w (x.toNat % 2 ^ w))) ∧
    (∀ (typ : ScalarType) (w : Nat) (x : BitVec 64), getScalarType typ = .ok (.int w) → w ≤ 64 →
      ∃ st', emitConstant ⟨dst, typ, .s64 x⟩ st = .ok ((), st') ∧
        st'.resolver.values.lookup dst = some (.constInt w (x.signExtend w).toNat)) ∧
    ∃ st', emitConstant ⟨dst, .b128, .s64 (-1)⟩ st = .ok ((), st') ∧
      st'.resolver.values.lookup dst = some (.constInt 128 (2 ^ 64 - 1)) ∧
      2 ^ 64 - 1 ≠ ((-1 : BitVec 64).signExtend 128).toNat :=
  ⟨fun _ _ _ hs => ⟨_, emitConstant_apply_eq_ok.mpr ⟨_, constantValue_u64 hs rfl, rfl⟩, by simp⟩,
    fun _ _ _ hs hw =>
      ⟨_, emitConstant_apply_eq_ok.mpr ⟨_, constantValue_s64_of_le hs rfl hw, rfl⟩, by simp⟩,
    _, emitConstant_apply_eq_ok.mpr ⟨_, constantValue_s64 rfl rfl, rfl⟩, by simp, by decide⟩

theorem emitConstant_step {c : ConstantDefinition} (h : emitConstant c st = .ok ((), st')) :
    MainStep (.constant c) p st st' := by
  obtain ⟨v, -, rfl⟩ := emitConstant_apply_eq_ok.mp h
  exact mainStep_of_values rfl rfl rfl (.register rfl (List.mem_singleton_self _))

/-- Looking up operands changes nothing. -/
private theorem mapM_value_state {l : List SpirvWord} {vs : List Value}
    (h : l.mapM (fun arg => resolve (ResolveIdent.value arg)) st = .ok (vs, st')) : st' = st := by
  induction l generalizing vs st' with
  | nil => simp only [List.mapM_nil, StateT.pure_apply, Except.ok.injEq, Prod.mk.injEq] at h;
           exact h.2.symm
  | cons a l ih =>
    simp only [List.mapM_cons, StateT.bind_apply_eq_ok, resolve_apply_eq_ok,
      ResolveIdent.value_eq_ok, StateT.pure_apply, Except.ok.injEq, Prod.mk.injEq] at h
    obtain ⟨_, _, ⟨_, ⟨-, rfl⟩, rfl⟩, _, _, hl, -, rfl⟩ := h
    exact ih hl

/-- Naming the call interns at most the destination's name. -/
private theorem callName_state {a : List (PtxType × StateSpace)} {b : List SpirvWord} {n : String}
    (h : callName a b st = .ok (n, st')) :
    st'.module = st.module ∧ st'.builder = st.builder ∧ st'.resolver.values = st.resolver.values := by
  rcases a with _ | ⟨_, _ | _⟩ <;> rcases b with _ | ⟨_, _ | _⟩ <;>
    simp only [callName, throw_apply, reduceCtorEq, StateT.pure_apply, Except.ok.injEq,
      Prod.mk.injEq] at h
  · obtain ⟨-, rfl⟩ := h
    exact ⟨rfl, rfl, rfl⟩
  · obtain ⟨r, hr, rfl⟩ := resolve_apply_eq_ok.mp h
    exact ⟨rfl, rfl, ResolveIdent.getOrAddRaw_values hr⟩

/-- Registering the call's result registers only the result. -/
private theorem registerCallResult_state {b : List SpirvWord} {v : Value}
    (h : registerCallResult b v st = .ok ((), st')) :
    st'.module = st.module ∧ st'.builder = st.builder ∧ RegistersOnly b st.resolver st'.resolver := by
  rcases b with _ | ⟨_, _ | _⟩ <;>
    simp only [registerCallResult, throw_apply, reduceCtorEq, StateT.pure_apply, Except.ok.injEq,
      Prod.mk.injEq] at h
  · obtain ⟨-, rfl⟩ := h
    exact ⟨rfl, rfl, .of_values_eq rfl⟩
  · obtain ⟨r, hr, rfl⟩ := resolve_apply_eq_ok.mp h
    rw [ResolveIdent.register_eq_ok] at hr
    subst hr
    exact ⟨rfl, rfl, .register rfl (List.mem_singleton_self _)⟩

theorem emitCall_step {d : Ast.CallDetails} {rets : List SpirvWord} {func : SpirvWord}
    {ins : List SpirvWord} (hp : st.builder = some p) (h : emitCall dbg d rets func ins st = .ok ((), st')) :
    MainStep (.instruction (.call d rets func ins)) p st st' := by
  simp only [emitCall, StateT.bind_apply_eq_ok, todoIf_apply_eq_ok, liftE_apply_eq_ok,
    resolve_apply_eq_ok, build_apply_eq_ok, ResolveIdent.value_eq_ok] at h
  obtain ⟨_, s₀, ⟨-, hs₀⟩, n, s₁, hn, t, s₂, ⟨-, hs₂⟩, args, s₃, hargs, callee, _,
    ⟨_, ⟨-, rfl⟩, rfl⟩, v, s₅, ⟨q, hq, -, rfl⟩, hret⟩ := h
  rw [hs₀] at hn
  rw [hs₂] at hargs
  rw [mapM_value_state hargs] at hq hret
  obtain ⟨hm₁, hb₁, hv₁⟩ := callName_state hn
  obtain ⟨hm₂, hb₂, hv₂⟩ := registerCallResult_state hret
  obtain rfl : q = p := Option.some.inj (hq.symm.trans (hb₁.trans hp))
  refine ⟨⟨_, ⟨t, callee, args, n, rfl⟩, ?_⟩, hb₂.trans hb₁, ?_⟩
  · rw [hm₂]; simp only [hm₁]
  · obtain ⟨new, hnew, hmem⟩ := hv₂
    exact ⟨new, by rw [hnew]; simp only [hv₁], hmem⟩

theorem emitInstruction_step {i : Ast.Instruction SpirvWord} (hp : st.builder = some p)
    (h : emitInstruction dbg i st = .ok ((), st')) : MainStep (.instruction i) p st st' := by
  cases i with
  | mov dst src => exact emitMov_step h
  | ld d dst src => exact emitLd_step hp h
  | st d src1 src2 => exact emitSt_step hp h
  | add d dst src1 src2 => exact emitAdd_step hp h
  | call d rets func ins => exact emitCall_step hp h
  | ret => exact emitRet_step hp h
  | other _ => simp [emitInstruction] at h

/-- One declaration: its alloca appended at the variables builder, the module builder in place,
    only the declared identifier registered. -/
theorem emitVariable_step {ctx : MethodEmitContext} {v : Ast.Variable SpirvWord}
    (h : emitVariable ctx v st = .ok ((), st')) :
    (∃ a, AllocaOf v a ∧ st'.module = st.module.appendInsts ctx.variablesBuilder [a]) ∧
      st'.builder = st.builder ∧ RegistersOnly [v.name] st.resolver st'.resolver := by
  cases hal : v.align <;>
    simp only [emitVariable, hal, StateT.bind_apply_eq_ok, liftE_apply_eq_ok, resolve_apply_eq_ok,
      buildAt_apply_eq_ok, ResolveIdent.register_eq_ok, todoIf_apply_eq_ok,
      setAlignment_inst_apply_eq_ok, StateT.pure_apply, Except.ok.injEq, Prod.mk.injEq] at h
  · obtain ⟨t, _, ⟨ht, rfl⟩, sp, _, ⟨hsp, rfl⟩, n, _, ⟨r, hn, rfl⟩, _, _, ⟨rfl, rfl⟩, _, _,
      ⟨_, rfl, rfl⟩, _, _, ⟨-, rfl⟩, _, -, rfl⟩ := h
    exact ⟨⟨_, ⟨t, sp, n, ht, hsp, by rw [hal]⟩, rfl⟩, rfl,
      .register (congrArg (List.cons _) (ResolveIdent.getOrAddRaw_values hn)) (List.mem_singleton_self _)⟩
  · obtain ⟨t, _, ⟨ht, rfl⟩, sp, _, ⟨hsp, rfl⟩, n, _, ⟨r, hn, rfl⟩, _, _, ⟨rfl, rfl⟩, _, _,
      ⟨_, rfl, rfl⟩, _, _, hsa, _, -, rfl⟩ := h
    rw [setAlignment_inst_apply_eq_ok] at hsa
    subst hsa
    exact ⟨⟨_, ⟨t, sp, n, ht, hsp, by rw [hal]; rfl⟩, Module.modifyInst_appendInsts _ _ _ _⟩, rfl,
      .register (congrArg (List.cons _) (ResolveIdent.getOrAddRaw_values hn)) (List.mem_singleton_self _)⟩

/-- One label: a block appended to the method, a branch to it built at the module builder's
    block unless that block ends in a terminator, the module builder moved to the new block. -/
theorem emitLabel_step {ctx : MethodEmitContext} {label : SpirvWord} (hp : st.builder = some p)
    (h : emitLabel ctx label st = .ok ((), st')) :
    (∃ name is, (is = [] ∨ is = [.br (st.module.blocks ctx.method).length]) ∧
      st'.module = (st.module.appendBlock ctx.method name).appendInsts p is) ∧
    st'.builder = some ⟨ctx.method, (st.module.blocks ctx.method).length⟩ ∧
    st'.resolver.values = st.resolver.values := by
  simp only [emitLabel, StateT.bind_apply_eq_ok, resolve_apply_eq_ok,
    appendBasicBlockInContext_apply_eq_ok, getInsertBlock_apply_eq_ok,
    getBasicBlockTerminator_apply_eq_ok, positionBuilderAtEnd_apply_eq_ok] at h
  obtain ⟨n, _, ⟨r, hn, rfl⟩, _, _, ⟨rfl, rfl⟩, q, _, ⟨hq, rfl⟩, _, s₄, ⟨rfl, rfl⟩, _, s₅, hbr,
    rfl⟩ := h
  obtain rfl : q = p := Option.some.inj (hq.symm.trans hp)
  split at hbr
  · obtain ⟨_, hb⟩ := discard_apply_eq_ok.mp hbr
    obtain ⟨q', hq', -, rfl⟩ := build_apply_eq_ok.mp hb
    obtain rfl : q' = q := Option.some.inj (hq'.symm.trans hq)
    exact ⟨⟨n, _, .inr rfl, rfl⟩, rfl, ResolveIdent.getOrAddRaw_values hn⟩
  · cases hbr
    exact ⟨⟨n, [], .inl rfl, by simp⟩, rfl, ResolveIdent.getOrAddRaw_values hn⟩

/-- A label's output at the module builder's block. -/
theorem emits_label (l : SpirvWord) (b : Nat) {is : List Inst} (h : is = [] ∨ is = [.br b]) :
    Emits (.label l) is :=
  h.imp id fun h => ⟨b, h⟩

/-- The effect of one statement, by its kind: a declaration, a label, or a statement emitted
    through the module builder. -/
theorem emitStatement_cases {ctx : MethodEmitContext} {s : EmitStatement}
    (hp : st.builder = some p) (h : emitStatement dbg ctx s st = .ok ((), st')) :
    (∃ v, s = .variable v ∧
      (∃ a, AllocaOf v a ∧ st'.module = st.module.appendInsts ctx.variablesBuilder [a]) ∧
      st'.builder = st.builder ∧ RegistersOnly [v.name] st.resolver st'.resolver) ∨
    (∃ l, s = .label l ∧
      (∃ name is, (is = [] ∨ is = [.br (st.module.blocks ctx.method).length]) ∧
        st'.module = (st.module.appendBlock ctx.method name).appendInsts p is) ∧
      st'.builder = some ⟨ctx.method, (st.module.blocks ctx.method).length⟩ ∧
      st'.resolver.values = st.resolver.values) ∨
    ((∀ v, s ≠ .variable v) ∧ (∀ l, s ≠ .label l) ∧ MainStep s p st st') := by
  cases s with
  | «variable» v => exact .inl ⟨v, rfl, emitVariable_step h⟩
  | label l => exact .inr (.inl ⟨l, rfl, emitLabel_step hp h⟩)
  | instruction i => exact .inr (.inr ⟨by simp, by simp, emitInstruction_step hp h⟩)
  | loadVar d => exact .inr (.inr ⟨by simp, by simp, emitLoadVariable_step hp h⟩)
  | storeVar d => exact .inr (.inr ⟨by simp, by simp, emitStoreVar_step hp h⟩)
  | conversion c => exact .inr (.inr ⟨by simp, by simp, emitConversion_step hp h⟩)
  | constant c => exact .inr (.inr ⟨by simp, by simp, emitConstant_step h⟩)
  | conditional | retValue | ptrAccess | repackVector | functionPointer | vectorAccess =>
    simp [emitStatement] at h

end Steps

/-! ## Whole bodies -/

/-- Inside a body the module builder is always positioned, and the body registers values only
    for the identifiers its statements define. -/
theorem emitStatements_registersOnly {ctx : MethodEmitContext} {body : List EmitStatement}
    {st st' : EmitState} (hp : st.builder.isSome) (h : emitStatements dbg ctx body st = .ok ((), st')) :
    st'.builder.isSome ∧ RegistersOnly (body.flatMap defsOf) st.resolver st'.resolver := by
  induction body generalizing st with
  | nil =>
    simp only [emitStatements, StateT.pure_apply, Except.ok.injEq, Prod.mk.injEq] at h
    obtain ⟨-, rfl⟩ := h
    exact ⟨hp, .of_values_eq rfl⟩
  | cons s ss ih =>
    simp only [emitStatements, StateT.bind_apply_eq_ok] at h
    obtain ⟨_, st₁, hs, hss⟩ := h
    obtain ⟨q, hq⟩ := Option.isSome_iff_exists.mp hp
    have h₁ : st₁.builder.isSome ∧ RegistersOnly (defsOf s) st.resolver st₁.resolver := by
      rcases emitStatement_cases hq hs with ⟨v, rfl, -, hb, hr⟩ | ⟨l, rfl, -, hb, hv⟩ | ⟨-, -, hm⟩
      · exact ⟨hb ▸ hp, hr⟩
      · exact ⟨by simp [hb], .of_values_eq hv⟩
      · exact ⟨hm.builder_eq ▸ hp, hm.registers⟩
    obtain ⟨hp', hr'⟩ := ih h₁.1 hss
    exact ⟨hp', h₁.2.trans hr'⟩

end ZludaPtx.EmitLlvm
