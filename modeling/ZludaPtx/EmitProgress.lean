import ZludaPtx.EmitModule

/-!
# Exactly when the emitter reaches the verifier

`emit_llvm::run` panics at a `todo!()`, at a type it cannot lower, at an operand that no earlier
statement registered, at a method name LLVM cannot take, and, in a debug build, at a call
argument outside the register space.  This file gives the modules that avoid all of these a
name, `directivesSupported`, computed from the build and the directives alone, and proves that
they are exactly the modules on which `run` emits the whole module and leaves the decision to the
verifier.

The proof is a small program logic over the emitter's monad.  `Runs P x C Q` says that from a
state satisfying `P`, `x` succeeds exactly when `C` holds, and then ends in a state satisfying
`Q`.  Each action has one rule, a statement's rule is the composition of the rules of the actions
it makes, and the rules for the statement loop, the parameter loop and the directive loop are
inductions.  The invariant `Inv B K` says that the identifiers with a registered value are
exactly those of `K`; `K` grows by each statement's definitions (`defsOf`) along a body and by
each method's identifiers along the module, as `bodySupported` and `directivesSupported` thread
it.

## Key results

- `emitStatement_runs`: a statement succeeds exactly when it is `supported` and its operands are
  registered, and then registers what it defines
- `emitStatements_runs` / `emitMethod_runs` / `emitDirectives_runs`: the same for a body, a
  method and the module
- `run_eq_iff_directivesSupported`: in either build, `run` fails other than at the verifier
  exactly on the modules `directivesSupported` rejects for that build
-/

namespace ZludaPtx.EmitLlvm

open Llvm

variable {dbg : Bool}

/-! ## A triple over the emitter's monad -/

/-- From a state satisfying `P`, `x` succeeds exactly when `C` holds, and then ends in a state
    satisfying `Q`. -/
structure Runs {α : Type} (P : EmitState → Prop) (x : EmitM α) (C : Prop)
    (Q : EmitState → Prop) : Prop where
  succeeds : ∀ st, P st → C → ∃ a st', x st = .ok (a, st') ∧ Q st'
  needs : ∀ st a st', P st → x st = .ok (a, st') → C ∧ Q st'

namespace Runs

variable {α β : Type} {P Q Q' R : EmitState → Prop} {C C' C₁ C₂ : Prop} {x y : EmitM α}

/-- An action that succeeds from every state satisfying `P`. -/
theorem total (h : ∀ st, P st → ∃ a st', x st = .ok (a, st') ∧ Q st') : Runs P x True Q where
  succeeds st hP _ := h st hP
  needs st _ _ hP e := by
    obtain ⟨_, _, h₀, hQ⟩ := h st hP
    rw [h₀] at e
    cases e
    exact ⟨trivial, hQ⟩

theorem bind {f : α → EmitM β} (hx : Runs P x C₁ Q) (hf : ∀ a, Runs Q (f a) C₂ R) :
    Runs P (x >>= f) (C₁ ∧ C₂) R where
  succeeds st hP hC :=
    let ⟨a, _, h₁, hQ⟩ := hx.succeeds st hP hC.1
    let ⟨b, st₂, h₂, hR⟩ := (hf a).succeeds _ hQ hC.2
    ⟨b, st₂, (StateT.bind_apply_of_eq_ok h₁).trans h₂, hR⟩
  needs st _ _ hP h :=
    let ⟨a, _, h₁, h₂⟩ := StateT.bind_apply_eq_ok.mp h
    let ⟨hC₁, hQ⟩ := hx.needs st a _ hP h₁
    let ⟨hC₂, hR⟩ := (hf a).needs _ _ _ hQ h₂
    ⟨⟨hC₁, hC₂⟩, hR⟩

/-- A type computation followed by what uses its result: the condition of the second half may
    depend on that result. -/
theorem liftE_bind {x : Except TranslateError α} {f : α → EmitM β} {C : α → Prop}
    (hf : ∀ a, Runs P (f a) (C a) R) : Runs P (liftE x >>= f) (∃ a, x = .ok a ∧ C a) R where
  succeeds st hP := fun ⟨a, hx, hC⟩ =>
    let ⟨b, st', h', hR⟩ := (hf a).succeeds st hP hC
    ⟨b, st', (StateT.bind_apply_of_eq_ok (liftE_apply_eq_ok.mpr ⟨hx, rfl⟩)).trans h', hR⟩
  needs st _ _ hP h := by
    obtain ⟨a, _, h₁, h₂⟩ := StateT.bind_apply_eq_ok.mp h
    obtain ⟨hx, rfl⟩ := liftE_apply_eq_ok.mp h₁
    obtain ⟨hC, hR⟩ := (hf a).needs _ _ _ hP h₂
    exact ⟨⟨a, hx, hC⟩, hR⟩

theorem pure (a : α) : Runs P (Pure.pure a) True P := total fun st h => ⟨a, st, rfl, h⟩

theorem fail (e : TranslateError) : Runs P (MonadExcept.throw e : EmitM α) False Q :=
  ⟨fun _ _ h => h.elim, fun _ _ _ _ h => nomatch h⟩

theorem discard (h : Runs P x C Q) : Runs P (Functor.discard x) C Q where
  succeeds st hP hC :=
    let ⟨_, st', h', hQ⟩ := h.succeeds st hP hC
    ⟨(), st', discard_apply_eq_ok.mpr ⟨_, h'⟩, hQ⟩
  needs st _ _ hP e :=
    let ⟨_, h'⟩ := discard_apply_eq_ok.mp e
    h.needs st _ _ hP h'

theorem mono (h : Runs P x C Q) (hC : C ↔ C') (hQ : ∀ st, Q st → Q' st) : Runs P x C' Q' where
  succeeds st hP hC' :=
    let ⟨a, st', h', hq⟩ := h.succeeds st hP (hC.mpr hC')
    ⟨a, st', h', hQ st' hq⟩
  needs st a st' hP e :=
    let ⟨hc, hq⟩ := h.needs st a st' hP e
    ⟨hC.mp hc, hQ st' hq⟩

/-- A branch runs as the branch its condition takes does. -/
theorem ite {c : Prop} [Decidable c] (h₁ : c → Runs P x C Q) (h₂ : ¬c → Runs P y C Q) :
    Runs P (if c then x else y) C Q := by
  split
  · exact h₁ ‹_›
  · exact h₂ ‹_›

end Runs

/-! ## The invariant -/

/-- What holds while the emitter runs: the module's builder as `B` says, the resolver's interned
    words well formed, and a value registered for exactly the identifiers of `K`. -/
structure Inv (B : Option Position → Prop) (K : List SpirvWord) (st : EmitState) : Prop where
  builder : B st.builder
  words : st.resolver.WordsWf
  known : ∀ w, (st.resolver.values.lookup w).isSome ↔ w ∈ K

namespace Inv

variable {B : Option Position → Prop} {K : List SpirvWord} {st : EmitState}

theorem new : Inv (fun _ => True) [] EmitState.new :=
  ⟨trivial, ResolveIdent.new_wordsWf, fun _ => by simp [EmitState.new, ResolveIdent.new]⟩

/-- A change to the module alone keeps the invariant. -/
theorem module (h : Inv B K st) (m : Module) : Inv B K { st with module := m } :=
  ⟨h.builder, h.words, h.known⟩

/-- Registering a value for `w` adds `w` to what is registered. -/
theorem register (h : Inv B K st) (w : SpirvWord) (v : Value) :
    Inv B (w :: K)
      { st with resolver := { st.resolver with values := (w, v) :: st.resolver.values } } := by
  refine ⟨h.builder, h.words, fun u => ?_⟩
  by_cases hw : u = w
  · simp [hw]
  · simpa [List.lookup_cons, beq_false_of_ne hw, hw] using h.known u

theorem forget (h : Inv B K st) : Inv (fun _ => True) K st :=
  ⟨trivial, h.words, h.known⟩

end Inv

/-! ## One rule per action -/

section Actions

variable {α : Type} {P : EmitState → Prop} {B : Option Position → Prop} {K : List SpirvWord}

/-- An action that always succeeds and changes only the module keeps the invariant. -/
theorem runs_of_module {x : EmitM α} (h : ∀ st, ∃ a m, x st = .ok (a, { st with module := m })) :
    Runs (Inv B K) x True (Inv B K) :=
  Runs.total fun st hI =>
    let ⟨a, m, hx⟩ := h st
    ⟨a, _, hx, hI.module m⟩

theorem runs_liftE (x : Except TranslateError α) : Runs P (liftE x) (x.toBool = true) P := by
  cases x with
  | error => exact ⟨fun _ _ h => (nomatch h), fun _ _ _ _ h => nomatch h⟩
  | ok a =>
    exact (Runs.total fun st h => ⟨a, st, rfl, h⟩).mono (iff_of_true trivial rfl) fun _ h => h

theorem runs_todoIf (c : Bool) : Runs P (todoIf c) (c = false) P where
  succeeds st hP hc := ⟨(), st, todoIf_apply_eq_ok.mpr ⟨hc, rfl⟩, hP⟩
  needs _ _ _ hP h := by
    obtain ⟨hc, rfl⟩ := todoIf_apply_eq_ok.mp h
    exact ⟨hc, hP⟩

/-- `ResolveIdent::value` succeeds exactly on a registered identifier. -/
theorem runs_value (w : SpirvWord) :
    Runs (Inv B K) (resolve (ResolveIdent.value w)) (w ∈ K) (Inv B K) where
  succeeds st hI hw := by
    obtain ⟨v, hv⟩ := Option.isSome_iff_exists.mp ((hI.known w).mpr hw)
    exact ⟨v, st, resolve_apply_eq_ok.mpr ⟨_, ResolveIdent.value_eq_ok.mpr ⟨hv, rfl⟩, rfl⟩, hI⟩
  needs st _ _ hI h := by
    obtain ⟨r, hr, rfl⟩ := resolve_apply_eq_ok.mp h
    obtain ⟨hv, rfl⟩ := ResolveIdent.value_eq_ok.mp hr
    exact ⟨(hI.known w).mp (by simp [hv]), hI⟩

theorem runs_mapM_value : ∀ ws : List SpirvWord,
    Runs (Inv B K) (ws.mapM fun w => resolve (ResolveIdent.value w)) (∀ w ∈ ws, w ∈ K) (Inv B K)
  | [] => (Runs.pure _).mono (by simp) fun _ h => h
  | w :: ws => by
    rw [List.mapM_cons]
    exact ((runs_value w).bind fun _ => (runs_mapM_value ws).bind fun _ => Runs.pure _).mono
      (by simp) fun _ h => h

theorem runs_getOrAddRaw (w : SpirvWord) :
    Runs (Inv B K) (resolve (ResolveIdent.getOrAddRaw w)) True (Inv B K) :=
  Runs.total fun st hI => by
    obtain ⟨r', h, hv, hw⟩ := ResolveIdent.getOrAddRaw_eq_ok hI.words w
    exact ⟨_, _, resolve_apply_eq_ok.mpr ⟨r', h, rfl⟩, hI.builder, hw, by rw [hv]; exact hI.known⟩

theorem runs_getOrAdd (w : SpirvWord) :
    Runs (Inv B K) (resolve (ResolveIdent.getOrAdd w)) True (Inv B K) :=
  Runs.total fun st hI => by
    obtain ⟨r', h, hv, hw⟩ := ResolveIdent.getOrAdd_eq_ok hI.words w
    exact ⟨_, _, resolve_apply_eq_ok.mpr ⟨r', h, rfl⟩, hI.builder, hw, by rw [hv]; exact hI.known⟩

theorem runs_register (w : SpirvWord) (v : Value) :
    Runs (Inv B K) (resolve (ResolveIdent.register w v)) True (Inv B (w :: K)) :=
  Runs.total fun _ hI =>
    ⟨(), _, resolve_apply_eq_ok.mpr ⟨_, ResolveIdent.register_eq_ok.mpr rfl, rfl⟩,
      hI.register w v⟩

theorem runs_withResult {w : SpirvWord} {f : String → EmitM Value}
    (hf : ∀ n, Runs (Inv B K) (f n) True (Inv B K)) :
    Runs (Inv B K) (withResult w f) True (Inv B (w :: K)) :=
  ((runs_getOrAddRaw w).bind fun n => (hf n).bind fun v => runs_register w v).mono
    (by simp) fun _ h => h

theorem runs_getInsertBlock :
    Runs (Inv (·.isSome) K) getInsertBlock True (Inv (·.isSome) K) :=
  Runs.total fun st hI => by
    obtain ⟨p, hp⟩ := Option.isSome_iff_exists.mp hI.builder
    exact ⟨p, st, getInsertBlock_apply_eq_ok.mpr ⟨hp, rfl⟩, hI⟩

theorem runs_buildAt (p : Position) (i : Inst) : Runs (Inv B K) (buildAt p i) True (Inv B K) :=
  runs_of_module fun _ => ⟨_, _, rfl⟩

theorem runs_build (i : Inst) : Runs (Inv (·.isSome) K) (build i) True (Inv (·.isSome) K) :=
  (runs_getInsertBlock.bind fun p => runs_buildAt p i).mono (by simp) fun _ h => h

theorem runs_positionBuilderAtEnd (p : Position) :
    Runs (Inv B K) (positionBuilderAtEnd p) True (Inv (·.isSome) K) :=
  Runs.total fun _ hI => ⟨(), _, rfl, rfl, hI.words, hI.known⟩

theorem runs_appendBasicBlockInContext (fn : Nat) (name : String) :
    Runs (Inv B K) (appendBasicBlockInContext fn name) True (Inv B K) :=
  runs_of_module fun _ => ⟨_, _, rfl⟩

theorem runs_getBasicBlockTerminator (p : Position) :
    Runs (Inv B K) (getBasicBlockTerminator p) True (Inv B K) :=
  runs_of_module fun st => ⟨_, st.module, rfl⟩

theorem runs_setAlignment (v : Value) (align : UInt32) :
    Runs (Inv B K) (setAlignment v align) True (Inv B K) :=
  runs_of_module fun st => by cases v <;> exact ⟨(), _, rfl⟩

theorem runs_setValueName2 (v : Value) (name : String) :
    Runs (Inv B K) (setValueName2 v name) True (Inv B K) :=
  runs_of_module fun st => by cases v <;> exact ⟨(), _, rfl⟩

theorem runs_addAttributeAtIndex (fn idx : Nat) (attr : Attribute) :
    Runs (Inv B K) (addAttributeAtIndex fn idx attr) True (Inv B K) :=
  runs_of_module fun _ => ⟨_, _, rfl⟩

theorem runs_addFunction (name : String) (type : FunctionType) :
    Runs (Inv B K) (addFunction name type) True (Inv B K) :=
  runs_of_module fun _ => ⟨_, _, rfl⟩

theorem runs_setFunctionCallConv (fn : Nat) (cc : CallConv) :
    Runs (Inv B K) (setFunctionCallConv fn cc) True (Inv B K) :=
  runs_of_module fun _ => ⟨_, _, rfl⟩

end Actions

/-! ## Statements -/

/-- The result shapes `emit_call` lowers: no result, or one. -/
def callShape : List (PtxType × StateSpace) → List SpirvWord → Bool
  | [], [] => true
  | [_], [_] => true
  | _, _ => false

theorem length_le_one_of_callShape {rts : List (PtxType × StateSpace)} {rets : List SpirvWord}
    (h : callShape rts rets = true) : rets.length ≤ 1 := by
  unfold callShape at h
  split at h <;> simp_all

/-- The statements `emit_statement` lowers without reaching a `todo!()`, a failed
    `debug_assert` or a type it cannot lower: each guard of the source, negated.  Only a call
    depends on the build: a debug build also needs every argument in the register space. -/
def supported (debugAssertions : Bool) : EmitStatement → Bool
  | .variable v =>
    (getType v.vType).toBool && (getStateSpace v.stateSpace).toBool && v.arrayInit.isEmpty
  | .label _ => true
  | .instruction (.mov _ _) => true
  | .instruction (.ld d _ _) => !d.nonCoherent && !(d.qualifier != .weak) && (getType d.typ).toBool
  | .instruction (.add _ _ _ _) => true
  | .instruction (.st d _ _) => !(d.qualifier != .weak)
  | .instruction (.call d rets _ _) =>
    !(debugAssertions &&
      (d.returnArguments.any (·.2 != .reg) || d.inputArguments.any (·.2 != .reg))) &&
      callShape d.returnArguments rets &&
      (getFunctionType (d.returnArguments.map (·.1))
        (d.inputArguments.map fun (type_, space) => getInputArgumentType type_ space)).toBool
  | .instruction .ret => true
  | .instruction (.other _) => false
  | .loadVar d => !d.memberIndex.isSome && (getType d.typ).toBool
  | .storeVar _ => true
  | .conversion c => c.kind == .bitToPtr && (getPointerType c.toSpace).toBool
  | .constant c => (constantValue c).toBool
  | _ => false

/-- The identifiers registered once a body has run from `K`: each statement's definitions in
    front of what was there before it. -/
def knownAfter (K : List SpirvWord) (body : List EmitStatement) : List SpirvWord :=
  body.foldl (fun K s => defsOf s ++ K) K

/-- Every statement of the body is supported, and every identifier it looks up is registered
    when it runs: it is in `K`, or an earlier statement defined it. -/
def bodySupported (debugAssertions : Bool) : List SpirvWord → List EmitStatement → Bool
  | _, [] => true
  | K, s :: ss =>
    supported debugAssertions s && (usesOf s).all K.contains &&
      bodySupported debugAssertions (defsOf s ++ K) ss

section Statements

variable {B : Option Position → Prop} {K : List SpirvWord}

theorem runs_setAlignment? (a : Value) (align : Option UInt32) :
    Runs (Inv B K)
      (match align with
        | some align => setAlignment a align
        | none => pure ())
      True (Inv B K) := by
  cases align with
  | none => exact Runs.pure ()
  | some n => exact runs_setAlignment a n

theorem runs_emitVariable (ctx : MethodEmitContext) (v : Ast.Variable SpirvWord) :
    Runs (Inv B K) (emitVariable ctx v)
      (((getType v.vType).toBool && (getStateSpace v.stateSpace).toBool && v.arrayInit.isEmpty) = true)
      (Inv B (v.name :: K)) :=
  ((runs_liftE _).bind fun _ => (runs_liftE _).bind fun _ => (runs_getOrAddRaw _).bind fun _ =>
    (runs_buildAt _ _).bind fun a => (runs_register _ a).bind fun _ =>
      (runs_setAlignment? a v.align).bind fun _ => runs_todoIf _).mono
        (by simp [and_assoc]) fun _ h => h

/-- A label needs the builder positioned, to close the block before it. -/
theorem runs_emitLabel (ctx : MethodEmitContext) (l : SpirvWord) :
    Runs (Inv (·.isSome) K) (emitLabel ctx l) True (Inv (·.isSome) K) :=
  ((runs_getOrAddRaw l).bind fun _ => (runs_appendBasicBlockInContext _ _).bind fun _ =>
    runs_getInsertBlock.bind fun _ => (runs_getBasicBlockTerminator _).bind fun _ =>
      (Runs.ite (fun _ => (runs_build _).discard) fun _ => Runs.pure ()).bind fun _ =>
        runs_positionBuilderAtEnd _).mono (by simp) fun _ h => h

theorem runs_callName (rts : List (PtxType × StateSpace)) (rets : List SpirvWord) :
    Runs (Inv B K) (callName rts rets) (callShape rts rets = true) (Inv B K) := by
  unfold callShape callName
  split
  · exact (Runs.pure _).mono (by simp) fun _ h => h
  · exact (runs_getOrAddRaw _).mono (by simp) fun _ h => h
  · exact (Runs.fail _).mono (by simp) fun _ h => h

theorem runs_registerCallResult (rets : List SpirvWord) (v : Value) :
    Runs (Inv B K) (registerCallResult rets v) (rets.length ≤ 1) (Inv B (rets ++ K)) := by
  unfold registerCallResult
  split
  · exact (Runs.pure _).mono (by simp) fun _ h => h
  · exact (runs_register _ v).mono (by simp) fun _ h => h
  · next h₁ h₂ =>
    refine (Runs.fail _).mono ⟨False.elim, fun hl => ?_⟩ fun _ h => h
    rcases rets with _ | ⟨a, _ | ⟨b, t⟩⟩
    · exact absurd rfl h₁
    · exact absurd rfl (h₂ a)
    · simp at hl

theorem runs_emitCall (d : Ast.CallDetails) (rets : List SpirvWord) (func : SpirvWord)
    (ins : List SpirvWord) :
    Runs (Inv (·.isSome) K) (emitCall dbg d rets func ins)
      (supported dbg (.instruction (.call d rets func ins)) = true ∧ (∀ w ∈ ins, w ∈ K) ∧ func ∈ K)
      (Inv (·.isSome) (rets ++ K)) := by
  refine ((runs_todoIf _).bind fun _ => (runs_callName _ _).bind fun _ =>
    (runs_liftE _).bind fun _ => (runs_mapM_value _).bind fun _ => (runs_value _).bind fun _ =>
      (runs_build _).bind fun v => runs_registerCallResult rets v).mono ?_ fun _ h => h
  simp only [supported, Bool.and_eq_true, Bool.not_eq_true', true_and]
  constructor
  · rintro ⟨hr, hs, ht, hi, hf, -⟩
    exact ⟨⟨⟨hr, hs⟩, ht⟩, hi, hf⟩
  · rintro ⟨⟨⟨hr, hs⟩, ht⟩, hi, hf⟩
    exact ⟨hr, hs, ht, hi, hf, length_le_one_of_callShape hs⟩

theorem runs_emitInstruction (i : Ast.Instruction SpirvWord) :
    Runs (Inv (·.isSome) K) (emitInstruction dbg i)
      (supported dbg (.instruction i) = true ∧ ∀ w ∈ usesOf (.instruction i), w ∈ K)
      (Inv (·.isSome) (defsOf (.instruction i) ++ K)) := by
  cases i with
  | mov dst src =>
    exact ((runs_value src).bind fun v => runs_register dst v).mono (by simp [supported, usesOf])
      fun _ h => h
  | ld d dst src =>
    exact ((runs_todoIf _).bind fun _ => (runs_todoIf _).bind fun _ => (runs_liftE _).bind fun _ =>
      (runs_value src).bind fun _ => runs_withResult fun _ => runs_build _).mono
        (by simp [supported, usesOf, and_assoc]) fun _ h => h
  | add d dst src1 src2 =>
    exact ((runs_value src1).bind fun _ => (runs_value src2).bind fun _ =>
      runs_withResult fun _ => runs_build _).mono (by simp [supported, usesOf]) fun _ h => h
  | st d src1 src2 =>
    exact ((runs_value src1).bind fun _ => (runs_value src2).bind fun _ =>
      (runs_todoIf _).bind fun _ => (runs_build _).discard).mono
        (by simp [supported, usesOf]; tauto) fun _ h => h
  | call d rets func ins =>
    exact (runs_emitCall d rets func ins).mono (by simp [usesOf, or_imp, forall_and]) fun _ h => h
  | ret => exact (runs_build _).discard.mono (by simp [supported, usesOf]) fun _ h => h
  | other _ => exact (Runs.fail _).mono (by simp [supported]) fun _ h => h

theorem runs_emitConversion (c : ImplicitConversion) :
    Runs (Inv (·.isSome) K) (emitConversion c)
      (supported dbg (.conversion c) = true ∧ ∀ w ∈ usesOf (.conversion c), w ∈ K)
      (Inv (·.isSome) (defsOf (.conversion c) ++ K)) := by
  unfold emitConversion
  cases hk : c.kind
  case bitToPtr =>
    exact ((runs_value _).bind fun _ => (runs_liftE _).bind fun _ =>
      runs_withResult fun _ => runs_build _).mono
        (by simp [supported, usesOf, hk]; tauto) fun _ h => h
  all_goals exact (Runs.fail _).mono (by simp [supported, hk]) fun _ h => h

theorem runs_emitConstant (c : ConstantDefinition) :
    Runs (Inv B K) (emitConstant c) ((constantValue c).toBool = true) (Inv B (c.dst :: K)) where
  succeeds st hI hc := by
    cases hv : constantValue c with
    | error => rw [hv] at hc; cases hc
    | ok v => exact ⟨(), _, emitConstant_apply_eq_ok.mpr ⟨v, hv, rfl⟩, hI.register c.dst v⟩
  needs st _ _ hI h := by
    obtain ⟨v, hv, rfl⟩ := emitConstant_apply_eq_ok.mp h
    exact ⟨by rw [hv]; rfl, hI.register c.dst v⟩

/-- A statement succeeds exactly when it is supported and every identifier it looks up is
    registered; it keeps the builder positioned and registers what it defines. -/
theorem emitStatement_runs (ctx : MethodEmitContext) (s : EmitStatement) :
    Runs (Inv (·.isSome) K) (emitStatement dbg ctx s) (supported dbg s = true ∧ ∀ w ∈ usesOf s, w ∈ K)
      (Inv (·.isSome) (defsOf s ++ K)) := by
  cases s with
  | «variable» v => exact (runs_emitVariable ctx v).mono (by simp [supported, usesOf]) fun _ h => h
  | label l => exact (runs_emitLabel ctx l).mono (by simp [supported, usesOf]) fun _ h => h
  | instruction i => exact runs_emitInstruction i
  | loadVar d =>
    exact ((runs_todoIf _).bind fun _ => (runs_liftE _).bind fun _ => (runs_value _).bind fun _ =>
      runs_withResult fun _ => runs_build _).mono
        (by simp [supported, usesOf, and_assoc]) fun _ h => h
  | storeVar d =>
    exact ((runs_value _).bind fun _ => (runs_value _).bind fun _ => (runs_build _).discard).mono
      (by simp [supported, usesOf]) fun _ h => h
  | conversion c => exact runs_emitConversion c
  | constant c => exact (runs_emitConstant c).mono (by simp [supported, usesOf]) fun _ h => h
  | conditional | retValue | ptrAccess | repackVector | functionPointer | vectorAccess =>
    exact (Runs.fail _).mono (by simp [supported]) fun _ h => h

/-- The statement loop succeeds exactly on the bodies `bodySupported` accepts, and registers
    every definition. -/
theorem emitStatements_runs (ctx : MethodEmitContext) :
    ∀ (K : List SpirvWord) (body : List EmitStatement),
      Runs (Inv (·.isSome) K) (emitStatements dbg ctx body) (bodySupported dbg K body = true)
        (Inv (·.isSome) (knownAfter K body))
  | _, [] => (Runs.pure ()).mono (by simp [bodySupported]) fun _ h => h
  | K, s :: ss =>
    ((emitStatement_runs ctx s).bind fun _ => emitStatements_runs ctx (defsOf s ++ K) ss).mono
      (by simp [bodySupported, and_assoc]) fun _ h => h

end Statements

/-! ## Methods and the module -/

/-- What is registered once `emit_method` registered the method itself: a device function's
    identifier. -/
def selfKnown (name : Ast.MethodName SpirvWord) (K : List SpirvWord) : List SpirvWord :=
  match name with
  | .func id => id :: K
  | .kernel _ => K

/-- What is registered once `emit_method` has run its parameter loop. -/
def headerKnown (method : Function2 EmitStatement) (K : List SpirvWord) : List SpirvWord :=
  method.funcDecl.inputArguments.foldl (fun K p => p.name :: K) (selfKnown method.funcDecl.name K)

/-- What is registered once `emit_method` is done. -/
def methodKnown (method : Function2 EmitStatement) (K : List SpirvWord) : List SpirvWord :=
  knownAfter (headerKnown method K) (method.body.getD [])

/-- The methods `emit_method` emits without a panic once the identifiers `K` are registered: a
    name without a NUL, a function type it can lower, a lowerable type for every kernel
    parameter, and a body that `bodySupported` accepts after the parameters. -/
def methodSupported (debugAssertions : Bool) (idDefs : List (SpirvWord × IdentEntry)) (K : List SpirvWord)
    (method : Function2 EmitStatement) : Bool :=
  (match methodName idDefs method with
    | .ok name => !name.data.contains '\x00'
    | .error _ => false) &&
  (getFunctionType (method.funcDecl.returnArguments.map (·.vType))
    (method.funcDecl.inputArguments.map fun v => getInputArgumentType v.vType v.stateSpace)).toBool &&
  (!method.funcDecl.name.isKernel ||
    method.funcDecl.inputArguments.all fun v => (getType v.vType).toBool) &&
  method.body.all (bodySupported debugAssertions (headerKnown method K))

/-- The modules `run` emits without a panic: no module variable, and every method supported
    once the methods before it have registered their identifiers. -/
def directivesSupported (debugAssertions : Bool) (idDefs : List (SpirvWord × IdentEntry)) :
    List SpirvWord → List (Directive2 EmitStatement) → Bool
  | _, [] => true
  | _, .variable .. :: _ => false
  | K, .method m :: ds =>
    methodSupported debugAssertions idDefs K m &&
      directivesSupported debugAssertions idDefs (methodKnown m K) ds

section Methods

variable {B : Option Position → Prop} {K : List SpirvWord}

theorem runs_registerSelf (name : Ast.MethodName SpirvWord) (fn : Nat) :
    Runs (Inv B K)
      (match name with
        | .func name => resolve (ResolveIdent.register name (.function fn))
        | .kernel _ => pure ())
      True (Inv B (selfKnown name K)) := by
  cases name with
  | kernel _ => exact Runs.pure ()
  | func id => exact runs_register id _

/-- The parameter loop registers every parameter; it succeeds exactly when `getType` lowers the
    type of every parameter of a kernel. -/
theorem emitParams_runs (fn : Nat) (isKernel : Bool) :
    ∀ (i : Nat) (K : List SpirvWord) (params : List (Ast.Variable SpirvWord)),
      Runs (Inv B K) (emitParams fn isKernel i params)
        (isKernel = true → ∀ p ∈ params, (getType p.vType).toBool = true)
        (Inv B (params.foldl (fun K p => p.name :: K) K))
  | _, _, [] => (Runs.pure ()).mono (by simp) fun _ h => h
  | i, _, p :: ps =>
    ((runs_getOrAdd p.name).bind fun _ => (runs_setValueName2 _ _).bind fun _ =>
      (runs_register _ _).bind fun _ =>
        (Runs.ite (C := isKernel = true → (getType p.vType).toBool = true)
          (fun hk => ((runs_liftE _).bind fun _ => runs_addAttributeAtIndex _ _ _).mono
            (by simp [hk]) fun _ h => h)
          fun hk => (Runs.pure ()).mono (by simp [hk]) fun _ h => h).bind fun _ =>
        emitParams_runs fn isKernel (i + 1) _ ps).mono
      (by simp only [true_and, List.forall_mem_cons, imp_and]) fun _ h => h

theorem emitBody_runs (fn : Nat) (K : List SpirvWord) (body : List EmitStatement) :
    Runs (Inv B K) (emitBody dbg fn body) (bodySupported dbg K body = true)
      (Inv (·.isSome) (knownAfter K body)) :=
  ((runs_appendBasicBlockInContext _ _).bind fun _ =>
    (runs_appendBasicBlockInContext _ _).bind fun _ => (runs_positionBuilderAtEnd _).bind fun _ =>
      (emitStatements_runs _ K body).bind fun _ => (runs_buildAt _ _).discard).mono
    (by simp) fun _ h => h

theorem runs_emitBody? (fn : Nat) (K : List SpirvWord) (body : Option (List EmitStatement)) :
    Runs (Inv B K)
      (match body with
        | some statements => emitBody dbg fn statements
        | none => pure ())
      (body.all (bodySupported dbg K) = true) (Inv (fun _ => True) (knownAfter K (body.getD []))) := by
  cases body with
  | none => exact (Runs.pure ()).mono (by simp) fun _ h => h.forget
  | some b => exact (emitBody_runs fn K b).mono (by simp) fun _ h => h.forget

/-- A method is emitted exactly when it is supported, and afterwards its identifier, its
    parameters and its body's definitions are registered. -/
theorem emitMethod_runs (dbg : Bool) (idDefs : List (SpirvWord × IdentEntry)) (K : List SpirvWord)
    (method : Function2 EmitStatement) :
    Runs (Inv B K) (emitMethod dbg idDefs method) (methodSupported dbg idDefs K method = true)
      (Inv (fun _ => True) (methodKnown method K)) := by
  refine (Runs.liftE_bind fun (name : String) =>
    (Runs.ite (C := name.data.contains '\x00' = false)
      (fun hc => (Runs.fail _).mono (by rw [hc]; decide) fun _ h => h)
      (fun hc => (Runs.pure ()).mono (iff_of_true trivial (Bool.eq_false_iff.mpr hc))
        fun _ h => h)).bind fun _ =>
    (runs_liftE _).bind fun _ => (runs_addFunction _ _).bind fun fn =>
      (runs_registerSelf _ fn).bind fun _ => (emitParams_runs fn _ 0 _ _).bind fun _ =>
        (runs_setFunctionCallConv _ _).bind fun _ => runs_emitBody? fn _ _).mono ?_ fun _ h => h
  cases hn : methodName idDefs method <;> cases hk : method.funcDecl.name.isKernel <;>
    simp [methodSupported, hn, hk, headerKnown, and_assoc]

/-- The directive loop succeeds exactly on the modules `directivesSupported` accepts. -/
theorem emitDirectives_runs (dbg : Bool) (idDefs : List (SpirvWord × IdentEntry)) :
    ∀ (K : List SpirvWord) (ds : List (Directive2 EmitStatement)),
      Runs (Inv (fun _ => True) K) (emitDirectives dbg idDefs ds)
        (directivesSupported dbg idDefs K ds = true) (fun _ => True)
  | _, [] => (Runs.total fun st _ => ⟨(), st, rfl, trivial⟩).mono (by simp [directivesSupported])
      fun _ h => h
  | _, .variable .. :: _ => (Runs.fail _).mono (by simp [directivesSupported]) fun _ h => h
  | K, .method m :: ds =>
    ((emitMethod_runs dbg idDefs K m).bind fun _ =>
      emitDirectives_runs dbg idDefs (methodKnown m K) ds).mono
      (by simp [directivesSupported]) fun _ h => h

end Methods

/-- `emit_llvm::run` fails other than at the verifier exactly on the modules that
    `directivesSupported` rejects in the build it was compiled in: on every other module it
    emits one module, whatever the verifier, and returns it when the verifier accepts it.  No
    `todo!()`, failed `debug_assert`, unlowerable type, unregistered operand or rejected name is
    reached on them, and one is reached on each module it rejects. -/
theorem run_eq_iff_directivesSupported (debugAssertions : Bool)
    (idDefs : List (SpirvWord × IdentEntry)) (ds : List (Directive2 EmitStatement)) :
    (∃ m, ∀ verify : Module → Bool,
      run debugAssertions verify idDefs ds = if verify m then .ok m else .error .aborted) ↔
      directivesSupported debugAssertions idDefs [] ds = true := by
  have h := emitDirectives_runs debugAssertions idDefs [] ds
  constructor
  · rintro ⟨m, hm⟩
    cases he : emitDirectives debugAssertions idDefs ds EmitState.new with
    | error e => simpa [run, he] using hm fun _ => true
    | ok p => exact (h.needs _ p.1 p.2 Inv.new he).1
  · intro hs
    obtain ⟨_, st, hst, -⟩ := h.succeeds _ Inv.new hs
    exact ⟨st.module, fun verify => by simp only [run, hst]; rfl⟩

/-- A kernel in the shape the earlier passes hand the emitter: it loads its pointer parameter,
    converts it to a global pointer, loads through it, adds one and stores the sum back. -/
def addOneKernel : Function2 EmitStatement :=
  { funcDecl := { returnArguments := [], name := .kernel "add_one",
                  inputArguments := [⟨none, .scalar .u64, .paramEntry, 1, []⟩], sharedMem := none }
    globals := [], importAs := none, tuning := [], linkage := ⟨0⟩
    body := some [
      .loadVar ⟨2, 1, .scalar .u64, none⟩,
      .conversion ⟨2, 5, .global, .bitToPtr⟩,
      .instruction (.ld ⟨.weak, false, .scalar .u64⟩ 6 5),
      .constant ⟨3, .u64, .u64 1⟩,
      .instruction (.add .integer 7 6 3),
      .instruction (.st ⟨.weak⟩ 5 7),
      .instruction .ret] }

/-- A kernel that passes a constant to `f` as an argument in the `.param::entry` space. -/
def paramCallK : Function2 EmitStatement :=
  ⟨⟨[], .kernel "k", [], none⟩, [],
    some [.constant ⟨3, .u64, .u64 7⟩,
      .instruction (.call ⟨[], [(.scalar .u64, .paramEntry)]⟩ [] 1 [3]), .instruction .ret],
    none, [], ⟨0⟩⟩

/-- A release build emits the call, whatever the verifier; a debug build panics at it. -/
theorem paramCallK_run :
    (∃ m, ∀ verify : Module → Bool,
      run false verify [(1, ⟨some "f", none⟩)] [.method declF, .method paramCallK] =
        if verify m then .ok m else .error .aborted) ∧
    ¬ ∃ m, ∀ verify : Module → Bool,
      run true verify [(1, ⟨some "f", none⟩)] [.method declF, .method paramCallK] =
        if verify m then .ok m else .error .aborted :=
  ⟨(run_eq_iff_directivesSupported false _ _).mpr (by decide),
    fun h => absurd ((run_eq_iff_directivesSupported true _ _).mp h) (by decide)⟩

end ZludaPtx.EmitLlvm
