import ZludaPtx.EmitSemantics
import ZludaPtx.EmitLowering
import ZludaPtx.EmitProgress

/-!
# The emitter preserves what a body means

`emit_method` lowers a body to an LLVM function.  Called on any arguments with any memory, the
function ends as the body does when run from registers holding what the identifiers known at the
method's start stand for (`emitMethod_preserves`).  Either both get stuck, or both end in the
same memory, both at a `ret` or both after their last statement.  This holds for any
interpretation of the operations.

The proof is a simulation over the trace `Lowered`.  Between the body's state and the function's
frame it keeps `Agree`: each register holds what its identifier's value stands for in the frame,
and the memories are one.  It also keeps three facts about the frame: every known value that is
an instruction has already run (`Settled`); the allocas ran on entry (`Allocated`); and the code
still to run is what the rest of the body emitted (`Sim`).  One lemma per kind of statement
takes `Sim` past it (`Sim.next_variable`, `Sim.next_label`, `Sim.next_lowers`); the run lemma
`lowered_exec` is the induction over the body.

## Key results

- `Lowers.exec`: a lowered statement and its instructions keep the agreement, or both get stuck
- `lowered_exec`: the run lemma, from any point of the trace
- `execFunction_of_lowered`: a function laid out from a trace computes what the body does
- `emitMethod_preserves`: the emitted function computes what the body does
-/

namespace ZludaPtx.EmitLlvm

open Llvm

variable {dbg : Bool}

variable {V M : Type} (I : Interp V M)

/-! ## The simulation relation -/

/-- A value has run before index `i` of block `b` of function `fn`, if it is an instruction of
    `fn` at all. -/
def RanBefore (fn b i : Nat) (v : Value) : Prop :=
  ∀ b' i', v = .inst fn b' i' → b' < b ∨ (b' = b ∧ i' < i)

/-- Every value known has run before index `i` of block `b`. -/
def Settled (fn : Nat) (vals : List (SpirvWord × Value)) (b i : Nat) : Prop :=
  ∀ w v, vals.lookup w = some v → RanBefore fn b i v

/-- The body's state and the frame of function `fn` called on `args` agree, where the emitter
    knows the values `vals`: each register holds what its identifier's value stands for, and the
    memories are one. -/
structure Agree (fn : Nat) (args : List V) (vals : List (SpirvWord × Value)) (σ : BodyState V M)
    (τ : FrameState V M) : Prop where
  regs : ∀ w, σ.regs w = (vals.lookup w).bind (evalValue I fn args τ.results)
  mem : σ.mem = τ.mem

/-- The first `K` allocas have run: the result of the `k`-th is the address of the `k`-th local. -/
def Allocated (K : Nat) (τ : FrameState V M) : Prop :=
  ∀ k < K, τ.results.lookup (0, k) = some (I.alloca k)

/-- The simulation at point `pt` of the trace, with the statements `ss` still to run and what they
    emitted, `os`.  The code of block `pt.block` from the builder's place on, and of every later
    block, is what they emitted.  The instructions of that block before the place ran through,
    and the block lies past the allocas block.  The body's state and the frame agree, and every
    known value has run.  The `K` allocas have run, the body has declared its locals up to
    `pt.allocas`, and the statements still to run declare no more than the rest. -/
structure Sim (fn : Nat) (args : List V) (code : List (List Inst)) (K : Nat) (pt : Point) (ss : List EmitStatement)
    (os : List (List Inst)) (σ : BodyState V M) (τ : FrameState V M) : Prop where
  current : code[pt.block]? = some (pt.cur ++ (segments (ss.zip os)).1)
  later : code.drop (pt.block + 1) = (segments (ss.zip os)).2
  entered : 0 < pt.block
  ranThrough : ∀ x ∈ pt.cur, x.isTerminator = false
  agree : Agree I fn args pt.vals σ τ
  settled : Settled fn pt.vals pt.block pt.cur.length
  allocated : Allocated I K τ
  locals : σ.locals = pt.allocas
  allocas : pt.allocas + (variablesOf ss).length ≤ K

variable {I} {fn : Nat} {args : List V} {vals : List (SpirvWord × Value)} {b i K : Nat}
  {σ σ' : BodyState V M} {τ τ' : FrameState V M}

theorem RanBefore.mono {v : Value} {b' i' : Nat} (h : RanBefore fn b i v)
    (hle : b < b' ∨ (b = b' ∧ i ≤ i')) : RanBefore fn b' i' v := fun c j hv => by
  have := h c j hv
  omega

/-- The instruction at index `i` of block `b` has run before the next index. -/
theorem ranBefore_here : RanBefore fn b (i + 1) (.inst fn b i) := fun _ _ h => by
  injection h with _ hb hi
  omega

theorem Settled.mono {b' i' : Nat} (h : Settled fn vals b i) (hle : b < b' ∨ (b = b' ∧ i ≤ i')) :
    Settled fn vals b' i' := fun w v hw => (h w v hw).mono hle

/-- Values registered in front that have run keep every known value run. -/
theorem Settled.append {new : List (SpirvWord × Value)} (h : Settled fn vals b i)
    (hnew : ∀ e ∈ new, RanBefore fn b i e.2) : Settled fn (new ++ vals) b i := by
  intro w v hw
  rw [List.lookup_append] at hw
  cases hn : new.lookup w with
  | none => rw [hn, Option.none_or] at hw; exact h w v hw
  | some v' =>
    rw [hn, Option.or_some] at hw
    cases hw
    exact hnew _ (List.mem_of_lookup_eq_some hn)

/-- Recording a result changes nothing for a value that ran before it. -/
theorem evalValue_record {rs : List ((Nat × Nat) × V)} {x : V} {v : Value}
    (hv : RanBefore fn b i v) :
    evalValue I fn args (((b, i), x) :: rs) v = evalValue I fn args rs v := by
  cases v with
  | inst f b' i' =>
    by_cases hf : f = fn
    · subst hf
      have hne : (b', i') ≠ (b, i) := fun h => by
        injection h with h₁ h₂
        have := hv b' i' rfl
        omega
      simp [evalValue, List.lookup_cons, beq_false_of_ne hne]
    · simp [evalValue, hf]
  | _ => rfl

@[simp] theorem evalValue_record_self (rs : List ((Nat × Nat) × V)) (x : V) :
    evalValue I fn args (((b, i), x) :: rs) (.inst fn b i) = some x := by
  simp [evalValue, List.lookup_cons]

/-- A value that is no instruction of `fn` stands for the same whatever has run. -/
theorem evalValue_of_not_inst {v : Value} (hv : ∀ b i, v ≠ .inst fn b i)
    (rs rs' : List ((Nat × Nat) × V)) : evalValue I fn args rs v = evalValue I fn args rs' v := by
  cases v with
  | inst f b i =>
    have hf : f ≠ fn := fun h => hv b i (h ▸ rfl)
    simp [evalValue, hf]
  | _ => rfl

namespace Agree

/-- What an operand's register holds, from its value. -/
theorem reg_of_lookup (hA : Agree I fn args vals σ τ) {w : SpirvWord} {v : Value}
    (h : vals.lookup w = some v) : σ.regs w = evalValue I fn args τ.results v := by
  rw [hA.regs w, h]
  rfl

/-- Operands read together: the registers hold what their values stand for. -/
theorem mapM_regs (hA : Agree I fn args vals σ τ) :
    ∀ {ws : List SpirvWord} {xs : List Value}, ws.mapM (vals.lookup ·) = some xs →
      ws.mapM σ.regs = xs.mapM (evalValue I fn args τ.results)
  | [], xs, h => by
    rw [List.mapM_nil] at h
    cases h
    rfl
  | w :: ws, xs, h => by
    rw [List.mapM_cons] at h
    cases hw : vals.lookup w with
    | none => rw [hw] at h; cases h
    | some v =>
      cases hws : ws.mapM (vals.lookup ·) with
      | none => rw [hw, hws] at h; cases h
      | some vs =>
        rw [hw, hws] at h
        cases h
        simp only [List.mapM_cons, hA.reg_of_lookup hw, hA.mapM_regs hws]

/-- Recording a result at a place no known value names keeps the agreement. -/
theorem record (hA : Agree I fn args vals σ τ) (hS : Settled fn vals b i) (x : V) :
    Agree I fn args vals σ (τ.record b i x) where
  regs w := by
    rw [hA.regs w]
    cases hw : vals.lookup w with
    | none => rfl
    | some v => exact (evalValue_record (hS w v hw)).symm
  mem := hA.mem

/-- Registering `v` for `w`, whose register gets what `v` stands for. -/
theorem register (hA : Agree I fn args vals σ τ) {w : SpirvWord} {v : Value}
    (hregs : σ'.regs = setReg σ.regs w (evalValue I fn args τ.results v)) (hmem : σ'.mem = σ.mem) :
    Agree I fn args ((w, v) :: vals) σ' τ where
  regs u := by
    rw [hregs]
    by_cases hu : u = w
    · subst hu
      simp
    · rw [setReg_of_ne _ hu, hA.regs u]
      simp [List.lookup_cons, beq_false_of_ne hu]
  mem := hmem.trans hA.mem

/-- A new memory on both sides, and nothing else new. -/
theorem setMem (hA : Agree I fn args vals σ τ) (hregs : σ'.regs = σ.regs)
    (hres : τ'.results = τ.results) (hmem : σ'.mem = τ'.mem) : Agree I fn args vals σ' τ' where
  regs w := by rw [hregs, hres, hA.regs w]
  mem := hmem

/-- An instruction at index `i` of block `b` whose result `x` is registered for `dst`. -/
theorem produce (hA : Agree I fn args vals σ τ) (hS : Settled fn vals b i) {dst : SpirvWord}
    {x : V} (hregs : σ'.regs = setReg σ.regs dst (some x)) (hmem : σ'.mem = σ.mem) :
    Agree I fn args ((dst, .inst fn b i) :: vals) σ' (τ.record b i x) :=
  (hA.record hS x).register (by rw [hregs]; simp) hmem

end Agree

/-- Recording a result outside the allocas block keeps every alloca's result. -/
theorem Allocated.record (hK : Allocated I K τ) (hb : 0 < b) (i : Nat) (x : V) :
    Allocated I K (τ.record b i x) := fun k hk => by
  have hne : ((0 : Nat), k) ≠ (b, i) := fun h => by
    injection h with h
    omega
  simp only [FrameState.record_results, List.lookup_cons, beq_false_of_ne hne]
  exact hK k hk

/-! ## One lowered statement -/

/-- A `bind` on both sides of an `Option.Rel`. -/
theorem rel_bind {α β γ : Type} {R : α → β → Prop} (o : Option γ) {f : γ → Option α}
    {g : γ → Option β} (h : ∀ c, Option.Rel R (f c) (g c)) : Option.Rel R (o >>= f) (o >>= g) := by
  cases o with
  | none => exact .none
  | some c => exact h c

theorem rel_cases {α β : Type} {R : α → β → Prop} {o₁ : Option α} {o₂ : Option β}
    (h : Option.Rel R o₁ o₂) : (o₁ = none ∧ o₂ = none) ∨ ∃ a b, o₁ = some a ∧ o₂ = some b ∧ R a b := by
  cases h with
  | none => exact .inl ⟨rfl, rfl⟩
  | some h => exact .inr ⟨_, _, rfl, rfl, h⟩

theorem eq_ret_of_isRet {s : EmitStatement} (h : isRet s = true) : s = .instruction .ret := by
  cases s with
  | instruction i => cases i <;> first | rfl | cases h
  | _ => cases h

namespace Lowers

variable {s : EmitStatement} {is : List Inst} {new : List (SpirvWord × Value)}

/-- A lowered statement keeps every known value run: what it registers is its own instruction,
    a value already known, or a constant. -/
theorem settled (hl : Lowers vals (.inst fn b i) s is new) (hS : Settled fn vals b i) :
    Settled fn (new ++ vals) b (i + is.length) := by
  have hS' := hS.mono (.inr ⟨rfl, Nat.le_add_right i is.length⟩)
  refine hS'.append fun e he => ?_
  rcases hl.registers he with ⟨he, hlen⟩ | ⟨w, -, hw⟩ | ⟨c, hc⟩
  · rw [he, hlen]
    exact ranBefore_here
  · exact hS' w _ hw
  · intro b' i' hv
    rcases constantValue_const hc with ⟨_, _, hc⟩ | ⟨_, _, hc⟩ <;> rw [hc] at hv <;> cases hv

/-- A lowered statement other than `ret`, and what it built at index `i` of block `b`: from
    agreeing states both get stuck, or both go on, control staying in the block, still agreeing
    once its values are registered, every alloca's result kept and no local declared. -/
theorem exec (hl : Lowers vals (.inst fn b i) s is new) (hr : isRet s = false)
    (hA : Agree I fn args vals σ τ) (hS : Settled fn vals b i) (hK : Allocated I K τ) (hb : 0 < b) :
    Option.Rel (fun σ' r => r.2 = .next ∧ Agree I fn args (new ++ vals) σ' r.1 ∧
      Allocated I K r.1 ∧ σ'.locals = σ.locals)
      (execStatement I σ s) (execInsts I fn args b i is τ) := by
  cases s with
  | instruction ins =>
    cases ins with
    | mov dst src =>
      obtain ⟨v, hv, rfl, rfl⟩ := hl
      exact .some ⟨rfl, hA.register (by simp [hA.reg_of_lookup hv]) rfl, hK, rfl⟩
    | ld _ dst src =>
      obtain ⟨t, ptr, n, hptr, rfl, rfl⟩ := hl
      simp only [execStatement, execInsts_singleton, execInst, hA.reg_of_lookup hptr]
      exact rel_bind _ fun p =>
        .some ⟨rfl, hA.produce hS (by simp [hA.mem]) rfl, hK.record hb _ _, rfl⟩
    | add d dst src1 src2 =>
      cases d <;> obtain ⟨x, y, n, hx, hy, rfl, rfl⟩ := hl <;>
        simp only [execStatement, execInsts_singleton, execInst, hA.reg_of_lookup hx,
          hA.reg_of_lookup hy] <;>
        exact rel_bind _ fun _ => rel_bind _ fun _ =>
          .some ⟨rfl, hA.produce hS rfl rfl, hK.record hb _ _, rfl⟩
    | st _ src1 src2 =>
      obtain ⟨ptr, x, hptr, hx, rfl, rfl⟩ := hl
      simp only [execStatement, execInsts_singleton, execInst, hA.reg_of_lookup hptr,
        hA.reg_of_lookup hx]
      exact rel_bind _ fun _ => rel_bind _ fun _ =>
        .some ⟨rfl, hA.setMem rfl rfl (by simp [hA.mem]), hK, rfl⟩
    | call _ rets func ins =>
      obtain ⟨t, g, xs, n, hg, hxs, rfl, hlen, rfl⟩ := hl
      simp only [execStatement, execInsts_singleton, execInst, hA.reg_of_lookup hg,
        hA.mapM_regs hxs]
      refine rel_bind _ fun g => rel_bind _ fun as => ?_
      have hcall : Agree I fn args vals { σ with mem := (I.call g as τ.mem).2 }
          { τ.record b i (I.call g as τ.mem).1 with mem := (I.call g as τ.mem).2 } :=
        (hA.record hS _).setMem rfl rfl rfl
      rcases rets with _ | ⟨d, _ | ⟨_, _⟩⟩
      · exact .some ⟨rfl, by simpa [hA.mem] using hcall, hK.record hb _ _, rfl⟩
      · exact .some ⟨rfl, hcall.register (by simp [hA.mem]) (by simp [hA.mem]), hK.record hb _ _, rfl⟩
      · simp at hlen
    | ret => cases hr
    | other => cases hl
  | loadVar d =>
    obtain ⟨t, ptr, n, hptr, rfl, rfl⟩ := hl
    simp only [execStatement, execInsts_singleton, execInst, hA.reg_of_lookup hptr]
    exact rel_bind _ fun p =>
      .some ⟨rfl, hA.produce hS (by simp [hA.mem]) rfl, hK.record hb _ _, rfl⟩
  | storeVar d =>
    obtain ⟨ptr, x, hptr, hx, rfl, rfl⟩ := hl
    simp only [execStatement, execInsts_singleton, execInst, hA.reg_of_lookup hptr,
      hA.reg_of_lookup hx]
    exact rel_bind _ fun _ => rel_bind _ fun _ =>
      .some ⟨rfl, hA.setMem rfl rfl (by simp [hA.mem]), hK, rfl⟩
  | conversion c =>
    obtain ⟨hk, x, t, n, hx, rfl, rfl⟩ := hl
    simp only [execStatement, hk, execInsts_singleton, execInst, hA.reg_of_lookup hx]
    exact rel_bind _ fun _ => .some ⟨rfl, hA.produce hS rfl rfl, hK.record hb _ _, rfl⟩
  | constant c =>
    obtain ⟨v, hv, rfl, rfl⟩ := hl
    simp only [execStatement, hv]
    refine .some ⟨rfl, hA.register ?_ rfl, hK, rfl⟩
    rcases constantValue_const hv with ⟨_, _, rfl⟩ | ⟨_, _, rfl⟩ <;> rfl
  | _ => cases hl

end Lowers

/-! ## The run lemma -/

namespace Sim

variable {code : List (List Inst)} {pt : Point} {ss : List EmitStatement} {os : List (List Inst)}

/-- Past a declaration: its register holds the address of the next local, which its alloca
    recorded on entry. -/
theorem next_variable {v : Ast.Variable SpirvWord}
    (hs : Sim I fn args code K pt (.variable v :: ss) ([] :: os) σ τ) :
    Sim I fn args code K
      { pt with vals := (v.name, .inst fn 0 pt.allocas) :: pt.vals, allocas := pt.allocas + 1 } ss os
      { σ with regs := setReg σ.regs v.name (some (I.alloca σ.locals)), locals := σ.locals + 1 } τ := by
  have hseg := segments_cons_of_ne (s := .variable v) [] (ss.zip os) fun _ h => Statement.noConfusion h
  have hk : pt.allocas < K := by have := hs.allocas; simp at this; omega
  refine ⟨?_, ?_, hs.entered, hs.ranThrough, ?_, ?_, hs.allocated, by simp [hs.locals], ?_⟩
  · simpa [hseg] using hs.current
  · simpa [hseg] using hs.later
  · exact hs.agree.register (by simp [evalValue, hs.allocated _ hk, hs.locals]) rfl
  · have hv : RanBefore fn pt.block pt.cur.length (.inst fn 0 pt.allocas) := fun b' i' h => by
      injection h with _ hb
      exact .inl (hb ▸ hs.entered)
    show Settled fn ([(v.name, .inst fn 0 pt.allocas)] ++ pt.vals) pt.block pt.cur.length
    exact hs.settled.append (by simpa using hv)
  · have := hs.allocas; simp at this ⊢; omega

/-- Past a label: control is at the start of its block. -/
theorem next_label {l : SpirvWord} {is : List Inst}
    (hs : Sim I fn args code K pt (.label l :: ss) (is :: os) σ τ) :
    Sim I fn args code K { pt with block := pt.block + 1, cur := [] } ss os σ τ := by
  have hlater := hs.later
  rw [List.zip_cons_cons, segments_label] at hlater
  refine ⟨?_, ?_, Nat.succ_pos _, by simp, hs.agree, hs.settled.mono (.inl (Nat.lt_succ_self _)),
    hs.allocated, hs.locals, by simpa using hs.allocas⟩
  · have h0 := List.getElem?_drop code (pt.block + 1) 0
    rw [hlater] at h0
    simpa using h0.symm
  · show code.drop (pt.block + 1 + 1) = _
    rw [← List.drop_drop, hlater]
    rfl

/-- Past a statement lowered at the builder's place, whose instructions ran through to `τ'`. -/
theorem next_lowers {s : EmitStatement} {is : List Inst} {new : List (SpirvWord × Value)}
    (hs : Sim I fn args code K pt (s :: ss) (is :: os) σ τ) (hv : ∀ v, s ≠ .variable v)
    (hl : ∀ l, s ≠ .label l) (hlow : Lowers pt.vals (.inst fn pt.block pt.cur.length) s is new)
    (hrun : execInsts I fn args pt.block pt.cur.length is τ = some (τ', .next))
    (hA : Agree I fn args (new ++ pt.vals) σ' τ') (hK : Allocated I K τ')
    (hloc : σ'.locals = σ.locals) :
    Sim I fn args code K { pt with vals := new ++ pt.vals, cur := pt.cur ++ is } ss os σ' τ' := by
  have hseg := segments_cons_of_ne is (ss.zip os) hl
  refine ⟨?_, ?_, hs.entered, ?_, hA, ?_, hK, hloc.trans hs.locals, ?_⟩
  · simpa [hseg] using hs.current
  · simpa [hseg] using hs.later
  · intro x hx
    rcases List.mem_append.mp hx with hx | hx
    · exact hs.ranThrough x hx
    · exact not_terminator_of_execInsts I hrun x hx
  · simpa using hlow.settled hs.settled
  · simpa [variablesOf_cons_of_ne _ hv] using hs.allocas

end Sim

/-- The run lemma: from any point of the trace where the simulation holds, with fuel for the
    blocks still to enter, the code still to run ends as the statements still to run do. -/
theorem lowered_exec (code : List (List Inst)) (K : Nat) {ss : List EmitStatement}
    {os : List (List Inst)} {pt pe : Point} (hl : Lowered fn pt ss os pe) :
    ∀ (σ : BodyState V M) (τ : FrameState V M) (fuel : Nat), Sim I fn args code K pt ss os σ τ →
      (ss.filter isLabel).length < fuel →
      (execFrom I fn args code fuel pt.block pt.cur.length τ).map (fun r => (r.1.mem, r.2)) =
        (execBody I ss σ).map fun r => (r.1.mem, r.2) := by
  refine Lowered.induction ?nil ?decl ?label ?lowers hl
  case nil =>
    intro pt σ τ fuel hs hf
    obtain ⟨fuel, rfl⟩ : ∃ f, fuel = f + 1 := ⟨fuel - 1, by simp at hf; omega⟩
    have hc : code[pt.block]? = some (pt.cur ++ []) := by simpa [segments] using hs.current
    rw [execFrom_end I hc (List.drop_left _ _)]
    simp [execBody, hs.agree.mem]
  case decl =>
    -- a declaration runs nothing in the function
    intro pt v ss os pe ih σ τ fuel hs hf
    simpa [execBody, isRet, execStatement] using ih _ _ _ hs.next_variable (by simpa [isLabel] using hf)
  case label =>
    -- a label: the branch to its block
    intro pt l ss os pe ih σ τ fuel hs hf
    obtain ⟨fuel, rfl⟩ : ∃ f, fuel = f + 1 := ⟨fuel - 1, by omega⟩
    rw [if_pos (by rw [Block.terminator_eq_none hs.ranThrough]; rfl)] at hs
    have hc := hs.current
    rw [List.zip_cons_cons, segments_label] at hc
    rw [execFrom_br I hc (List.drop_left _ _)]
    simpa [execBody, isRet, execStatement] using ih _ _ _ hs.next_label (by simpa [isLabel] using hf)
  case lowers =>
    intro pt s is new ss os pe hv hl hlow ih σ τ fuel hs hf
    obtain ⟨fuel, rfl⟩ : ∃ f, fuel = f + 1 := ⟨fuel - 1, by omega⟩
    have hc := hs.current
    rw [List.zip_cons_cons, segments_cons_of_ne _ _ hl] at hc
    cases hr : isRet s
    · -- a lowered statement: its instructions, then the rest
      rcases rel_cases (hlow.exec hr hs.agree hs.settled hs.allocated hs.entered) with
        ⟨hσ, hτ⟩ | ⟨σ', ⟨τ', flow⟩, hσ, hτ, rfl, hA', hK', hloc⟩
      · rw [execFrom_of_execInsts_none I hc (List.drop_left _ _) hτ]
        simp [execBody, hr, hσ]
      · rw [execFrom_of_execInsts I hc (List.drop_left _ _) hτ]
        simpa [execBody, hr, hσ] using
          ih _ _ _ (hs.next_lowers hv hl hlow hτ hA' hK' hloc)
            (by simpa [List.filter_cons, show isLabel s = false by cases s <;> simp_all [isLabel]] using hf)
    · -- `ret`: the function returns
      obtain rfl := eq_ret_of_isRet hr
      obtain ⟨rfl, -⟩ := hlow
      rw [execFrom_retVoid I hc (List.drop_left _ _)]
      simp [execBody, isRet, hs.agree.mem]

/-! ## Methods -/

/-- The allocas of the allocas block run through from its start, each recording the address of
    the next local. -/
theorem execInsts_allocas {vs : List (Ast.Variable SpirvWord)} {allocas : List Inst}
    (ha : List.Forall₂ AllocaOf vs allocas) :
    ∀ τ : FrameState V M, Allocated I τ.allocas τ → ∃ τ',
      execInsts I fn args 0 τ.allocas allocas τ = some (τ', .next) ∧ τ'.mem = τ.mem ∧
        Allocated I (τ.allocas + allocas.length) τ' := by
  induction ha with
  | nil => exact fun τ hK => ⟨τ, rfl, rfl, hK⟩
  | @cons v a vs as hva _ ih =>
    intro τ hK
    obtain ⟨t, space, name, -, -, rfl⟩ := hva
    have hK₁ : Allocated I (τ.allocas + 1)
        { τ.record 0 τ.allocas (I.alloca τ.allocas) with allocas := τ.allocas + 1 } := fun k hk => by
      by_cases hkk : k = τ.allocas
      · subst hkk
        simp
      · have hne : ((0 : Nat), k) ≠ (0, τ.allocas) := by simpa using hkk
        simp only [FrameState.record_results, List.lookup_cons, beq_false_of_ne hne]
        exact hK k (by omega)
    obtain ⟨τ', h', hm', hK'⟩ := ih { τ.record 0 τ.allocas (I.alloca τ.allocas) with allocas := τ.allocas + 1 } hK₁
    refine ⟨τ', by simpa [execInsts, execInst] using h', hm', ?_⟩
    simpa [Nat.add_assoc, Nat.add_comm 1] using hK'

/-- The registers a body of function `fn` starts with, called on `args`: each identifier the
    emitter knows holds what its value stands for at the function's entry. -/
def entryRegs (I : Interp V M) (fn : Nat) (args : List V) (vals : List (SpirvWord × Value)) :
    SpirvWord → Option V :=
  fun w => (vals.lookup w).bind (evalValue I fn args [])

/-- The parameters stand for parameters of the function. -/
theorem param_of_mem_paramBindings {i : Nat} {params : List (Ast.Variable SpirvWord)}
    {e : SpirvWord × Value} (he : e ∈ paramBindings fn i params) : ∃ j, e.2 = .param fn j := by
  induction params generalizing i with
  | nil => cases he
  | cons p ps ih =>
    rcases List.mem_append.mp he with he | he
    · exact ih he
    · exact ⟨i, by rw [List.mem_singleton.mp he]⟩

/-- The values the method header registers are parameters and functions, never instructions. -/
theorem lookup_header_ne_inst {f : Nat} (fn : Nat) (params : List (Ast.Variable SpirvWord))
    (name : Ast.MethodName SpirvWord) (hvals : ∀ w b i, vals.lookup w ≠ some (.inst f b i)) :
    ∀ w b i, (paramBindings fn 0 params ++ selfBinding name fn ++ vals).lookup w ≠
      some (.inst f b i) := by
  intro w b i h
  simp only [List.lookup_append, Option.or_eq_some, Option.or_eq_none] at h
  rcases h with (h | ⟨-, h⟩) | ⟨-, h⟩
  · obtain ⟨j, hj⟩ := param_of_mem_paramBindings (List.mem_of_lookup_eq_some h)
    cases hj
  · have h := List.mem_of_lookup_eq_some h
    cases name <;> simp [selfBinding] at h
  · exact hvals w b i h

/-- A function laid out from a body's trace as `emitMethod_lowered` says, called on any arguments
    with any memory and given fuel to enter each of its blocks, ends as the body does from the
    registers `entryRegs` gives it, when no value the trace starts from is an instruction of the
    function. -/
theorem execFunction_of_lowered {f : Function} {body : List EmitStatement}
    {outs : List (List Inst)} {allocas : List Inst} {pe : Point}
    (hl : Lowered fn ⟨vals, 1, [], 0⟩ body outs pe)
    (ha : List.Forall₂ AllocaOf (variablesOf body) allocas)
    (hbs : f.blocks.map Block.insts = (allocas ++ [.br 1]) :: (segments (body.zip outs)).1 ::
      (segments (body.zip outs)).2)
    (hnot : ∀ w b i, vals.lookup w ≠ some (.inst fn b i)) (mem : M) {fuel : Nat}
    (hfuel : (body.filter isLabel).length + 2 ≤ fuel) :
    execFunction I fn f args mem fuel =
      (execBody I body ⟨entryRegs I fn args vals, mem, 0⟩).map fun r => (r.1.mem, r.2) := by
  obtain ⟨τ, hrun, hmem, hK⟩ := @execInsts_allocas _ _ I fn args _ _ ha ⟨[], mem, 0⟩
    fun _ hk => absurd hk (Nat.not_lt_zero _)
  dsimp only at hrun hmem hK
  obtain ⟨fuel, rfl⟩ : ∃ f', fuel = f' + 1 := ⟨fuel - 1, by omega⟩
  have hc₀ : (f.blocks.map Block.insts)[0]? = some (allocas ++ [.br 1]) := by rw [hbs]; rfl
  have hentry : execFrom I fn args (f.blocks.map Block.insts) (fuel + 1) 0 0 ⟨[], mem, 0⟩ =
      execFrom I fn args (f.blocks.map Block.insts) fuel 1 0 τ := by
    rw [execFrom_of_execInsts I hc₀ (List.drop_zero _) hrun, Nat.zero_add,
      execFrom_br I hc₀ (List.drop_left _ _)]
  have hsim : Sim I fn args (f.blocks.map Block.insts) allocas.length ⟨vals, 1, [], 0⟩ body outs
      ⟨entryRegs I fn args vals, mem, 0⟩ τ := by
    refine ⟨by rw [hbs]; simp, by rw [hbs]; rfl, Nat.one_pos, by simp, ⟨fun w => ?_, hmem.symm⟩,
      fun w v hw b' i' hv => absurd (hv ▸ hw) (hnot w b' i'), by simpa using hK, rfl,
      by simp [ha.length_eq]⟩
    simp only [entryRegs]
    cases hw : vals.lookup w with
    | none => rfl
    | some v =>
      exact evalValue_of_not_inst (fun b i hv => hnot w b i (hv ▸ hw)) _ _
  rw [execFunction, hentry]
  exact lowered_exec _ _ hl _ _ _ hsim (by omega)

/-- **The emitter preserves what a body means.**  A method emitted with a body becomes an LLVM
    function that, called on any arguments with any memory and given fuel to enter each of its
    blocks, ends exactly as the body does when run from the registers `entryRegs` gives it: each
    parameter holds its argument, a device function's own identifier its address, and every
    identifier known before the method what its value stands for.  Both get stuck, or both end in
    the same memory, at a `ret` in both or after the last statement in both.  The only
    assumption is that no identifier known before the method stands for an instruction of the
    function being added. -/
theorem emitMethod_preserves (I : Interp V M) {idDefs : List (SpirvWord × IdentEntry)}
    {method : Function2 EmitStatement} {body : List EmitStatement} {st st' : EmitState}
    (hbody : method.body = some body) (h : emitMethod dbg idDefs method st = .ok ((), st'))
    (hfresh : ∀ w b i, st.resolver.values.lookup w ≠ some (.inst st.module.functions.length b i))
    (args : List V) (mem : M) {fuel : Nat} (hfuel : (body.filter isLabel).length + 2 ≤ fuel) :
    ∃ f, st'.module.functions = st.module.functions ++ [f] ∧
      execFunction I st.module.functions.length f args mem fuel =
        (execBody I body ⟨entryRegs I st.module.functions.length args
          (paramBindings st.module.functions.length 0 method.funcDecl.inputArguments ++
            selfBinding method.funcDecl.name st.module.functions.length ++ st.resolver.values),
          mem, 0⟩).map fun r => (r.1.mem, r.2) := by
  obtain ⟨f, outs, allocas, _, hfs, hl, -, ha, hbs⟩ := emitMethod_lowered hbody h
  exact ⟨f, hfs, execFunction_of_lowered hl ha hbs
    (lookup_header_ne_inst _ method.funcDecl.inputArguments method.funcDecl.name hfresh) mem hfuel⟩

/-- Values as naturals and memory as a map from addresses to values: loads and stores read and
    write it, both additions are `+`, an integer is its own address, local `k` lives at
    `2 ^ 32 + k` and function `k` at `k`, an integer constant is its value, and a call returns `0`
    and leaves the memory. -/
def natInterp : Interp Nat (Nat → Nat) where
  load m p := m p
  store m p x := fun a => if a = p then x else m a
  add := (· + ·)
  fadd := (· + ·)
  intToPtr := id
  alloca k := 2 ^ 32 + k
  function k := k
  const
    | .constInt _ n => n
    | _ => 0
  call _ _ m := (0, m)

/-- A kernel that doubles the value behind its pointer parameter, declaring a local and crossing
    a label on the way. -/
def doubleKernel : Function2 EmitStatement :=
  { funcDecl := { returnArguments := [], name := .kernel "double",
                  inputArguments := [⟨none, .scalar .u64, .paramEntry, 1, []⟩], sharedMem := none }
    globals := [], importAs := none, tuning := [], linkage := ⟨0⟩
    body := some [
      .variable ⟨none, .scalar .u64, .local, 9, []⟩,
      .loadVar ⟨2, 1, .scalar .u64, none⟩,
      .conversion ⟨2, 5, .global, .bitToPtr⟩,
      .instruction (.ld ⟨.weak, false, .scalar .u64⟩ 6 5),
      .instruction (.add .integer 7 6 6),
      .label 8,
      .instruction (.st ⟨.weak⟩ 5 7),
      .instruction .ret] }

theorem doubleKernel_preserves : ∃ st', emitMethod true [] doubleKernel EmitState.new = .ok ((), st') ∧
    ∃ f, st'.module.functions = EmitState.new.module.functions ++ [f] ∧
      execFunction natInterp EmitState.new.module.functions.length f [16] (fun _ => 0) 4 =
        (execBody natInterp (doubleKernel.body.getD []) ⟨entryRegs natInterp
          EmitState.new.module.functions.length [16]
          (paramBindings EmitState.new.module.functions.length 0
              doubleKernel.funcDecl.inputArguments ++
            selfBinding doubleKernel.funcDecl.name EmitState.new.module.functions.length ++
              EmitState.new.resolver.values), fun _ => 0, 0⟩).map fun r => (r.1.mem, r.2) := by
  obtain ⟨_, st', h, -⟩ := (emitMethod_runs true [] [] doubleKernel).succeeds _ Inv.new (by decide)
  exact ⟨st', h, emitMethod_preserves natInterp rfl h (fun _ _ _ h => nomatch h) [16] (fun _ => 0)
    (by decide)⟩

end ZludaPtx.EmitLlvm
