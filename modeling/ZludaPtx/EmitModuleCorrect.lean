import ZludaPtx.EmitCorrect
import ZludaPtx.EmitModule

/-!
# Every function of the module computes what its method's body does

`emitMethod_preserves` assumes that no identifier known before a method stands for an
instruction of the function being added.  Over the directive loop of `run` this is a run
invariant, `InstsBelow`: every instruction the emitter knows belongs to a function already in the
module.  A statement registers the value of its own instruction, a value already known or a
constant (`Lowers.registers`), so a body keeps the invariant for the function being added; the
header registers parameters and the function itself; so each method keeps it, and so does every
prefix of the loop.  With it, every method `run` emits with a body is the module's function at
the method's own index, and computes what the body computes from the values the loop knew when
it reached the method.

## Key results

- `Lowered.instsBelow`: a body's trace keeps the invariant
- `emitDirectives_instsBelow`: the run invariant of the directive loop
- `run_preserves`: every method emitted with a body
-/

namespace ZludaPtx.EmitLlvm

open Llvm

variable {dbg : Bool}

/-! ## The invariant -/

/-- Every instruction among the values `vals` belongs to one of the first `n` functions. -/
def InstsBelow (n : Nat) (vals : List (SpirvWord × Value)) : Prop :=
  ∀ e ∈ vals, ∀ f b i, e.2 = .inst f b i → f < n

namespace InstsBelow

variable {n : Nat} {vals : List (SpirvWord × Value)}

theorem mono (h : InstsBelow n vals) {n' : Nat} (hn : n ≤ n') : InstsBelow n' vals :=
  fun e he f b i hf => Nat.lt_of_lt_of_le (h e he f b i hf) hn

theorem append {new : List (SpirvWord × Value)} (hnew : InstsBelow n new)
    (h : InstsBelow n vals) : InstsBelow n (new ++ vals) := fun e he =>
  (List.mem_append.mp he).elim (hnew e) (h e)

/-- No identifier stands for an instruction of function `n`, which is not in the module yet. -/
theorem lookup_ne (h : InstsBelow n vals) (w : SpirvWord) (b i : Nat) :
    vals.lookup w ≠ some (.inst n b i) := fun hw =>
  Nat.lt_irrefl n (h _ (List.mem_of_lookup_eq_some hw) n b i rfl)

/-- The method header registers parameters and the function itself. -/
theorem header (h : InstsBelow n vals) (fn : Nat) (params : List (Ast.Variable SpirvWord))
    (name : Ast.MethodName SpirvWord) :
    InstsBelow n (paramBindings fn 0 params ++ selfBinding name fn ++ vals) := by
  refine append (fun e he f b i hf => ?_) h
  rcases List.mem_append.mp he with he | he
  · obtain ⟨j, hj⟩ := param_of_mem_paramBindings he
    rw [hj] at hf
    cases hf
  · cases name <;> simp only [selfBinding, List.mem_singleton, List.not_mem_nil] at he
    rw [he] at hf
    cases hf

end InstsBelow

/-! ## Bodies -/

section Body

variable {fn n : Nat}

/-- A statement lowered in one of the first `n` functions keeps the invariant. -/
theorem Lowers.instsBelow {vals : List (SpirvWord × Value)} {b i : Nat} {s : EmitStatement}
    {is : List Inst} {new : List (SpirvWord × Value)} (hfn : fn < n)
    (hl : Lowers vals (.inst fn b i) s is new) (h : InstsBelow n vals) :
    InstsBelow n (new ++ vals) := by
  refine InstsBelow.append (fun e he f b' i' hf => ?_) h
  rcases hl.registers he with ⟨he, -⟩ | ⟨w, -, hw⟩ | ⟨c, hc⟩
  · rw [he] at hf
    cases hf
    exact hfn
  · exact h _ (List.mem_of_lookup_eq_some hw) f b' i' hf
  · rcases constantValue_const hc with ⟨_, _, hc⟩ | ⟨_, _, hc⟩ <;> rw [hc] at hf <;> cases hf

/-- The run lemma over a body's trace: a declaration registers its alloca, an instruction of the
    function itself, and every other statement keeps the invariant. -/
theorem Lowered.instsBelow (hfn : fn < n) {ss : List EmitStatement} {os : List (List Inst)}
    {pt pe : Point} (hl : Lowered fn pt ss os pe) : InstsBelow n pt.vals → InstsBelow n pe.vals := by
  refine Lowered.induction (fun _ h => h) ?_ (fun _ _ _ _ _ ih => ih)
    (fun _ _ _ _ _ _ _ _ _ hlow ih h => ih (hlow.instsBelow hfn h)) hl
  intro pt v _ _ _ ih h
  refine ih fun e he f b i hf => ?_
  rcases List.mem_cons.mp he with rfl | he
  · cases hf
    exact hfn
  · exact h e he f b i hf

end Body

/-! ## Methods and the directive loop -/

/-- A method keeps every instruction the emitter knows within the module's functions. -/
theorem emitMethod_instsBelow {idDefs : List (SpirvWord × IdentEntry)}
    {method : Function2 EmitStatement} {st st' : EmitState}
    (h : emitMethod dbg idDefs method st = .ok ((), st'))
    (hI : InstsBelow st.module.functions.length st.resolver.values) :
    InstsBelow st'.module.functions.length st'.resolver.values := by
  obtain ⟨f, hfs, -⟩ := emitMethod_adds_function h
  have hH := (hI.mono (Nat.le_succ _)).header st.module.functions.length
    method.funcDecl.inputArguments method.funcDecl.name
  rw [hfs, List.length_append, List.length_singleton]
  cases hb : method.body with
  | none =>
    obtain ⟨_, _, _, -, -, -, -, -, -, -, -, hv₃, -, -, hnone⟩ := emitMethod_header h
    rwa [hnone hb, hv₃]
  | some body =>
    obtain ⟨_, _, _, pe, -, hl, hpe, -⟩ := emitMethod_lowered hb h
    rw [hpe]
    exact hl.instsBelow (Nat.lt_succ_self _) hH

/-- The run invariant: a successful directive loop keeps every instruction the emitter knows
    within the module's functions. -/
theorem emitDirectives_instsBelow {idDefs : List (SpirvWord × IdentEntry)}
    {ds : List (Directive2 EmitStatement)} {st st' : EmitState}
    (h : emitDirectives dbg idDefs ds st = .ok ((), st'))
    (hI : InstsBelow st.module.functions.length st.resolver.values) :
    InstsBelow st'.module.functions.length st'.resolver.values :=
  emitDirectives_preserves (fun st => InstsBelow st.module.functions.length st.resolver.values)
    (fun _ _ _ _ hm => emitMethod_instsBelow hm) h hI

/-! ## The module -/

variable {V M : Type}

/-- **Every function of the module computes what its method's body does.**  When `run` returns a
    module, take any method directive with a body, at any index `k`.  The module's function `k`,
    called on any arguments with any memory and given fuel to enter each of its blocks, ends
    exactly as the body does from the registers `entryRegs` gives it.  There each parameter holds
    its argument, a device function's own identifier its address, and every identifier the loop
    knew on reaching the method (after the first `k` directives) what its value stands for.
    Both get stuck, or both end in the same memory, at a `ret` in both or after the last
    statement in both. -/
theorem run_preserves (I : Interp V M) {verify : Module → Bool}
    {idDefs : List (SpirvWord × IdentEntry)} {ds : List (Directive2 EmitStatement)} {m : Module}
    (h : run dbg verify idDefs ds = .ok m) {k : Nat} {method : Function2 EmitStatement}
    {body : List EmitStatement} (hk : ds[k]? = some (.method method))
    (hbody : method.body = some body) (args : List V) (mem : M) {fuel : Nat}
    (hfuel : (body.filter isLabel).length + 2 ≤ fuel) :
    ∃ f st, m.functions[k]? = some f ∧
      emitDirectives dbg idDefs (ds.take k) EmitState.new = .ok ((), st) ∧
      execFunction I k f args mem fuel =
        (execBody I body ⟨entryRegs I k args (paramBindings k 0 method.funcDecl.inputArguments ++
          selfBinding method.funcDecl.name k ++ st.resolver.values), mem, 0⟩).map
          fun r => (r.1.mem, r.2) := by
  obtain ⟨st, st₁, hpre, hm, hlen, hat⟩ := run_method_at h hk
  obtain ⟨f, outs, allocas, _, hf, hl, -, ha, hbs⟩ := emitMethod_lowered hbody hm
  have hI := emitDirectives_instsBelow hpre fun _ he => by
    simp [EmitState.new, ResolveIdent.new] at he
  refine ⟨f, st, hat f hf, hpre, ?_⟩
  rw [← hlen]
  exact execFunction_of_lowered hl ha hbs (lookup_header_ne_inst _ _ _ hI.lookup_ne) mem hfuel

/-- In `declCallDef`, the kernel between the declaration of `f` and its definition is function 1,
    and it runs from registers in which `f`'s identifier stands for function 0. -/
theorem callerK_preserves : ∃ m, run true (fun _ => true) [(1, ⟨some "f", none⟩)] declCallDef = .ok m ∧
    ∃ f st, m.functions[1]? = some f ∧
      emitDirectives true [(1, ⟨some "f", none⟩)] (declCallDef.take 1) EmitState.new = .ok ((), st) ∧
      execFunction natInterp 1 f [] (fun _ => 0) 2 =
        (execBody natInterp (callerK.body.getD []) ⟨entryRegs natInterp 1 []
          (paramBindings 1 0 callerK.funcDecl.inputArguments ++
            selfBinding callerK.funcDecl.name 1 ++ st.resolver.values), fun _ => 0, 0⟩).map
          fun r => (r.1.mem, r.2) := by
  obtain ⟨_, st, hst, -⟩ :=
    (emitDirectives_runs true [(1, ⟨some "f", none⟩)] [] declCallDef).succeeds _ Inv.new (by decide)
  have h : run true (fun _ => true) [(1, ⟨some "f", none⟩)] declCallDef = .ok st.module :=
    run_eq_ok.mpr ⟨st, hst, rfl, rfl⟩
  exact ⟨_, h, run_preserves natInterp h (k := 1) rfl rfl [] (fun _ => 0) (by decide)⟩

end ZludaPtx.EmitLlvm
