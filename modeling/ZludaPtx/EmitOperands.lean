import ZludaPtx.EmitLowering
import ZludaPtx.EmitProgress

/-!
# What every emitted instruction reads

LLVM's verifier rejects an instruction that reads a value of another function, or a value whose
definition does not dominate it.  `emit_method` builds a chain of blocks: the allocas block
branches to the body's first block, and each label's block is entered only from the one before.
In a chain an instruction dominates every instruction placed after it, so `WellPlaced` asks two
things of an instruction: a branch goes to the next block, and every operand is a parameter of
the function, a function, a constant, or an instruction of the function placed before it.

The emitter takes each operand from its value table, so an instruction reads what the body's
operands stand for.  When every identifier the body reads before defining it stands, at the
method's start, for a parameter, a function or a constant (`ReadsAvailable`), every instruction
of the emitted function is well placed.  Each statement registers exactly the identifiers it
defines (`Lowers.keys`), each for its own instruction, a value it read or a constant, so the
condition holds again after every statement (`Lowered.wellPlaced`).

## Key results

- `Lowers.wellPlaced`: a lowered statement whose operands stand for available values
- `Lowered.wellPlaced`: the run lemma over a body's trace
- `run_wellPlaced`: every function `run` emits for a method with a body
-/

namespace ZludaPtx.EmitLlvm

open Llvm

variable {dbg : Bool}

/-! ## Where a value may be read -/

/-- A value an instruction at index `i` of block `b` of function `fn` may read: a parameter of
    `fn`, a function, a constant, or an instruction of `fn` placed before it. -/
def AvailableAt (fn b i : Nat) : Value → Prop
  | .param f _ => f = fn
  | .inst f b' i' => f = fn ∧ (b' < b ∨ (b' = b ∧ i' < i))
  | _ => True

instance (fn b i : Nat) : (v : Value) → Decidable (AvailableAt fn b i v)
  | .function _ | .constInt .. | .constReal .. => isTrue trivial
  | .param f _ => inferInstanceAs (Decidable (f = fn))
  | .inst f b' i' => inferInstanceAs (Decidable (f = fn ∧ (b' < b ∨ (b' = b ∧ i' < i))))

theorem AvailableAt.mono {fn b i b' i' : Nat} {v : Value} (h : AvailableAt fn b i v)
    (hle : b < b' ∨ (b = b' ∧ i ≤ i')) : AvailableAt fn b' i' v := by
  cases v with
  | inst f c j =>
    obtain ⟨hf, hc⟩ := h
    exact ⟨hf, by omega⟩
  | _ => exact h

/-- An instruction at index `i` of block `b` of function `fn` fits the chain of blocks: a branch
    goes to the next block, and every operand is available where the instruction stands. -/
def WellPlaced (fn b i : Nat) (x : Inst) : Prop :=
  (∀ d, x = .br d → d = b + 1) ∧ ∀ v ∈ x.operands, AvailableAt fn b i v

/-- The instructions of block `b` from index `i` on are well placed. -/
def WellPlacedFrom (fn b : Nat) : Nat → List Inst → Prop
  | _, [] => True
  | i, x :: xs => WellPlaced fn b i x ∧ WellPlacedFrom fn b (i + 1) xs

/-- The blocks from block `b` on are well placed. -/
def BlocksWellPlaced (fn : Nat) : Nat → List (List Inst) → Prop
  | _, [] => True
  | b, c :: cs => WellPlacedFrom fn b 0 c ∧ BlocksWellPlaced fn (b + 1) cs

theorem wellPlacedFrom_append {fn b : Nat} (c d : List Inst) (i : Nat) :
    WellPlacedFrom fn b i (c ++ d) ↔ WellPlacedFrom fn b i c ∧ WellPlacedFrom fn b (i + c.length) d := by
  induction c generalizing i with
  | nil => simp [WellPlacedFrom]
  | cons x xs ih => simp [WellPlacedFrom, ih, and_assoc, Nat.add_assoc, Nat.add_comm 1]

/-! ## Bodies -/

/-- The identifiers a body reads before defining them. -/
def freeReads : List EmitStatement → List SpirvWord
  | [] => []
  | s :: ss => usesOf s ++ (freeReads ss).filter fun w => !(defsOf s).contains w

/-- Every identifier the statements `ss` read before defining them stands, among `vals`, for a
    value available at index `i` of block `b` of function `fn`. -/
def ReadsAvailable (fn : Nat) (vals : List (SpirvWord × Value)) (ss : List EmitStatement)
    (b i : Nat) : Prop :=
  ∀ w ∈ freeReads ss, ∃ v, vals.lookup w = some v ∧ AvailableAt fn b i v

section Trace

variable {fn : Nat} {vals : List (SpirvWord × Value)} {b i : Nat} {s : EmitStatement}
  {ss : List EmitStatement}

/-- A lowered statement whose operands stand for available values builds a well-placed
    instruction. -/
theorem Lowers.wellPlaced {is : List Inst} {new : List (SpirvWord × Value)}
    (hl : Lowers vals (.inst fn b i) s is new)
    (hreads : ∀ w ∈ usesOf s, ∃ v, vals.lookup w = some v ∧ AvailableAt fn b i v) :
    WellPlacedFrom fn b i is := by
  rcases hl.builds with ⟨-, rfl⟩ | ⟨-, x, rfl, -, hx, hops⟩
  · trivial
  refine ⟨⟨fun d h => absurd h (hx d), fun v hv => ?_⟩, trivial⟩
  obtain ⟨w, hw, h⟩ := hops v hv
  obtain ⟨v', h', hav⟩ := hreads w hw
  rw [h] at h'
  cases h'
  exact hav

/-- After a lowered statement the identifiers the rest reads still stand for available values:
    those it defines for what it registered, the others as before. -/
theorem Lowers.readsAvailable {is : List Inst} {new : List (SpirvWord × Value)}
    (hl : Lowers vals (.inst fn b i) s is new) (hreads : ReadsAvailable fn vals (s :: ss) b i) :
    ReadsAvailable fn (new ++ vals) ss b (i + is.length) := by
  have hmono : ∀ {v}, AvailableAt fn b i v → AvailableAt fn b (i + is.length) v :=
    fun h => h.mono (.inr ⟨rfl, Nat.le_add_right _ _⟩)
  intro w hw
  rw [List.lookup_append]
  by_cases hd : w ∈ defsOf s
  · -- `w` is defined here: its value is what the statement registered
    rw [← hl.keys] at hd
    obtain ⟨e, he, rfl⟩ := List.mem_map.mp hd
    obtain ⟨v, hv⟩ : ∃ v, new.lookup e.1 = some v := by
      cases h : new.lookup e.1 with
      | none => simpa using List.lookup_eq_none_iff.mp h e he
      | some v => exact ⟨v, rfl⟩
    refine ⟨v, by rw [hv]; rfl, ?_⟩
    rcases hl.registers (List.mem_of_lookup_eq_some hv) with ⟨rfl, hlen⟩ | ⟨u, hu, hu'⟩ | ⟨c, hc⟩
    · exact ⟨rfl, .inr ⟨rfl, by omega⟩⟩
    · obtain ⟨v', h', hav⟩ := hreads u (List.mem_append_left _ hu)
      rw [hu'] at h'
      cases h'
      exact hmono hav
    · rcases constantValue_const hc with ⟨_, _, rfl⟩ | ⟨_, _, rfl⟩ <;> trivial
  · -- `w` is not defined here: it was read before, by the statement or after it
    obtain ⟨v, hv, hav⟩ := hreads w (List.mem_append_right _ (List.mem_filter.mpr
      ⟨hw, by simpa using hd⟩))
    exact ⟨v, by rw [hl.lookup_eq_none hd, Option.none_or, hv], hmono hav⟩

/-- The run lemma: from a point past the allocas block, where the block so far is well placed and
    every identifier the rest of the body reads before defining it stands for an available value,
    the blocks the rest emits into, the current one first, are well placed. -/
theorem Lowered.wellPlaced {os : List (List Inst)} {pt pe : Point} (hl : Lowered fn pt ss os pe) :
    0 < pt.block → ReadsAvailable fn pt.vals ss pt.block pt.cur.length →
      WellPlacedFrom fn pt.block 0 pt.cur →
      BlocksWellPlaced fn pt.block
        ((pt.cur ++ (segments (ss.zip os)).1) :: (segments (ss.zip os)).2) := by
  refine Lowered.induction ?nil ?decl ?label ?lowers hl
  case nil => exact fun _ _ _ hcur => by simpa [segments, BlocksWellPlaced] using hcur
  case decl =>
    -- a declaration registers its alloca, which the allocas block holds
    intro pt v ss os pe ih hb hreads hcur
    rw [List.zip_cons_cons, segments_cons_of_ne _ _ fun _ h => Statement.noConfusion h,
      List.nil_append]
    refine (ih hb (fun w hw => ?_) hcur :)
    by_cases hwv : w = v.name
    · exact ⟨.inst fn 0 pt.allocas, by simp [hwv], rfl, .inl hb⟩
    · obtain ⟨u, hu, hav⟩ := hreads w (by simp [freeReads, usesOf, defsOf, hw, hwv])
      exact ⟨u, by simpa [List.lookup_cons, beq_false_of_ne hwv] using hu, hav⟩
  case label =>
    -- a label closes the block, with a branch to the next one unless it ends in a terminator
    intro pt l ss os pe ih _ hreads hcur
    rw [List.zip_cons_cons, segments_label]
    refine ⟨(wellPlacedFrom_append _ _ _).mpr ⟨hcur, ?_⟩, ?_⟩
    · split
      · exact ⟨⟨fun d h => by cases h; rfl, nofun⟩, trivial⟩
      · trivial
    · refine (ih (Nat.succ_pos _) (fun w hw => ?_) trivial :)
      obtain ⟨u, hu, hav⟩ := hreads w (by simpa [freeReads, usesOf, defsOf] using hw)
      exact ⟨u, hu, hav.mono (.inl (Nat.lt_succ_self _))⟩
  case lowers =>
    -- any other statement appends what it builds to the block
    intro pt s is new ss os pe _ hl hlow ih hb hreads hcur
    rw [List.zip_cons_cons, segments_cons_of_ne _ _ hl, ← List.append_assoc]
    have hreads' := hlow.readsAvailable hreads
    rw [← List.length_append] at hreads'
    refine ih hb hreads' ((wellPlacedFrom_append _ _ _).mpr ⟨hcur, ?_⟩)
    rw [Nat.zero_add]
    exact hlow.wellPlaced fun w hw => hreads w (List.mem_append_left _ hw)

end Trace

/-- The allocas block's allocas read nothing. -/
theorem wellPlacedFrom_allocas {fn i : Nat} {vs : List (Ast.Variable SpirvWord)} {allocas : List Inst}
    (ha : List.Forall₂ AllocaOf vs allocas) : WellPlacedFrom fn 0 i allocas := by
  induction ha generalizing i with
  | nil => trivial
  | cons hva _ ih =>
    obtain ⟨_, _, _, -, -, rfl⟩ := hva
    exact ⟨⟨nofun, nofun⟩, ih⟩

/-! ## Methods and the module -/

/-- A method emitted with a body becomes a function whose blocks are well placed, when every
    identifier the body reads before defining it stands, at the method's start, for a parameter,
    a function or a constant. -/
theorem emitMethod_wellPlaced {idDefs : List (SpirvWord × IdentEntry)}
    {method : Function2 EmitStatement} {body : List EmitStatement} {st st' : EmitState}
    (hbody : method.body = some body) (h : emitMethod dbg idDefs method st = .ok ((), st')) :
    ∃ f, st'.module.functions = st.module.functions ++ [f] ∧
      (ReadsAvailable st.module.functions.length
          (paramBindings st.module.functions.length 0 method.funcDecl.inputArguments ++
            selfBinding method.funcDecl.name st.module.functions.length ++ st.resolver.values)
          body 1 0 →
        BlocksWellPlaced st.module.functions.length 0 (f.blocks.map Block.insts)) := by
  obtain ⟨f, outs, allocas, _, hfs, hl, -, ha, hbs⟩ := emitMethod_lowered hbody h
  refine ⟨f, hfs, fun hreads => ?_⟩
  rw [hbs]
  refine ⟨(wellPlacedFrom_append _ _ _).mpr ⟨wellPlacedFrom_allocas ha,
    ⟨fun d h => by cases h; rfl, nofun⟩, trivial⟩, ?_⟩
  simpa using hl.wellPlaced Nat.one_pos hreads trivial

/-- **What every function `run` emits reads.**  When `run` returns a module, take a method
    directive with a body, at index `k`, and the values the loop knew on reaching it.  If every
    identifier the body reads before defining it stands then for a parameter of the method, a
    function or a constant, the module's function `k` fits LLVM's rules for a chain of blocks:
    every branch goes to the next block, and every operand of every instruction is a parameter of
    the function, a function, a constant, or an instruction of the function placed before it. -/
theorem run_wellPlaced {verify : Module → Bool} {idDefs : List (SpirvWord × IdentEntry)}
    {ds : List (Directive2 EmitStatement)} {m : Module} (h : run dbg verify idDefs ds = .ok m)
    {k : Nat} {method : Function2 EmitStatement} {body : List EmitStatement}
    (hk : ds[k]? = some (.method method)) (hbody : method.body = some body) :
    ∃ f st, m.functions[k]? = some f ∧
      emitDirectives dbg idDefs (ds.take k) EmitState.new = .ok ((), st) ∧
      (ReadsAvailable k (paramBindings k 0 method.funcDecl.inputArguments ++
          selfBinding method.funcDecl.name k ++ st.resolver.values) body 1 0 →
        BlocksWellPlaced k 0 (f.blocks.map Block.insts)) := by
  obtain ⟨st, st₁, hpre, hm, hlen, hat⟩ := run_method_at h hk
  obtain ⟨f, hf, hwp⟩ := emitMethod_wellPlaced hbody hm
  refine ⟨f, st, hat f hf, hpre, ?_⟩
  rw [← hlen]
  exact hwp

/-- The add-one kernel reads only its parameter before defining what it reads: its function is
    well placed. -/
theorem addOneKernel_wellPlaced : ∃ m, run true (fun _ => true) [] [.method addOneKernel] = .ok m ∧
    ∃ f, m.functions[0]? = some f ∧ BlocksWellPlaced 0 0 (f.blocks.map Block.insts) := by
  obtain ⟨_, st, hst, -⟩ :=
    (emitDirectives_runs true [] [] [.method addOneKernel]).succeeds _ Inv.new (by decide)
  have h : run true (fun _ => true) [] [.method addOneKernel] = .ok st.module :=
    run_eq_ok.mpr ⟨st, hst, rfl, rfl⟩
  obtain ⟨f, st₀, hf, hpre, hwp⟩ := run_wellPlaced h (k := 0) rfl rfl
  cases hpre
  refine ⟨_, h, f, hf, hwp fun w hw => ?_⟩
  simp [addOneKernel, freeReads, usesOf, defsOf] at hw
  subst hw
  exact ⟨_, rfl, rfl⟩

end ZludaPtx.EmitLlvm
