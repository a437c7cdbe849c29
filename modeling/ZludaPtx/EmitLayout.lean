import ZludaPtx.EmitMethod

/-!
# Where the instructions of a body go

`emit_method` gives a body two blocks before its first statement: the allocas block, which the
variables builder fills, and the real entry block, where the module builder starts.  A
declaration puts its alloca in the allocas block; a label appends a block and moves the module
builder there, after a branch from the block it leaves unless that block already ends in a
terminator; every other statement builds at the module builder.  When the statements are done,
the allocas block branches to the real entry block.

`segments` says where the module builder's instructions end up.  Given each statement paired
with what it emits there, it lists the instructions before the first label, then those of each
label's block; a label's own branch closes the block it leaves.  The run lemma
`emitStatements_layout` keeps the function's blocks as the allocas block, the blocks already
closed and the current one, over any body, from the effect of one statement
(`emitStatement_cases`).

## Key results

- `emitStatements_layout`: the run lemma, the blocks of a body in terms of `segments`
- `emitBody_layout`: a body emitted into a function with no blocks yet
- `emitMethod_blocks`: the blocks of an emitted method, the allocas block first
- `emitMethod_ret_ret`: two returns in a row put two terminators in one block
-/

namespace ZludaPtx.EmitLlvm

open Llvm

variable {dbg : Bool}

/-! ## The layout of a body -/

/-- Whether a statement is a label. -/
def isLabel : EmitStatement → Bool
  | .label _ => true
  | _ => false

/-- The declarations of a body, in statement order. -/
def variablesOf : List EmitStatement → List (Ast.Variable SpirvWord)
  | [] => []
  | .variable v :: ss => v :: variablesOf ss
  | _ :: ss => variablesOf ss

/-- The instructions the module builder places, for the statements of a body each paired with
    what it emits there: those before the first label, then those of each label's block. -/
def segments : List (EmitStatement × List Inst) → List Inst × List (List Inst)
  | [] => ([], [])
  | (.label _, is) :: rest => (is, (segments rest).1 :: (segments rest).2)
  | (_, is) :: rest => (is ++ (segments rest).1, (segments rest).2)

@[simp] theorem variablesOf_variable (v : Ast.Variable SpirvWord) (ss : List EmitStatement) :
    variablesOf (.variable v :: ss) = v :: variablesOf ss := rfl

theorem variablesOf_cons_of_ne {s : EmitStatement} (ss : List EmitStatement)
    (h : ∀ v, s ≠ .variable v) : variablesOf (s :: ss) = variablesOf ss := by
  cases s <;> first | rfl | exact absurd rfl (h _)

@[simp] theorem variablesOf_label (l : SpirvWord) (ss : List EmitStatement) :
    variablesOf (.label l :: ss) = variablesOf ss := rfl

@[simp] theorem segments_label (l : SpirvWord) (is : List Inst)
    (rest : List (EmitStatement × List Inst)) :
    segments ((.label l, is) :: rest) = (is, (segments rest).1 :: (segments rest).2) := rfl

theorem segments_cons_of_ne {s : EmitStatement} (is : List Inst)
    (rest : List (EmitStatement × List Inst)) (h : ∀ l, s ≠ .label l) :
    segments ((s, is) :: rest) = (is ++ (segments rest).1, (segments rest).2) := by
  cases s <;> first | rfl | exact absurd rfl (h _)

/-- One block per label after the entry's instructions. -/
theorem length_segments_zip {R : EmitStatement → List Inst → Prop} {body : List EmitStatement}
    {outs : List (List Inst)} (h : List.Forall₂ R body outs) :
    (segments (body.zip outs)).2.length = (body.filter isLabel).length := by
  induction h with
  | nil => rfl
  | @cons s is body outs _ _ ih => cases s <;> simpa [segments, isLabel] using ih

/-- Two returns in a row emit into one block: the entry's or a label's. -/
theorem ret_ret_infix_segments {pre post : List EmitStatement} {outs : List (List Inst)}
    (ho : List.Forall₂ Emits (pre ++ .instruction .ret :: .instruction .ret :: post) outs) :
    ∃ seg ∈ (segments ((pre ++ Statement.instruction .ret :: Statement.instruction .ret :: post).zip
        outs)).1 :: (segments ((pre ++ Statement.instruction .ret :: Statement.instruction .ret ::
          post).zip outs)).2,
      [Inst.retVoid, .retVoid] <:+: seg := by
  induction pre generalizing outs with
  | nil =>
    obtain _ | ⟨h₁, _ | ⟨h₂, -⟩⟩ := ho
    obtain rfl : _ = [Inst.retVoid] := h₁
    obtain rfl : _ = [Inst.retVoid] := h₂
    refine ⟨_, List.mem_cons_self _ _, ?_⟩
    rw [List.nil_append, List.zip_cons_cons, List.zip_cons_cons,
      segments_cons_of_ne _ _ fun _ h => Statement.noConfusion h,
      segments_cons_of_ne _ _ fun _ h => Statement.noConfusion h]
    exact List.infix_append' [] [Inst.retVoid, .retVoid] _
  | cons s pre ih =>
    obtain _ | ⟨-, ho⟩ := ho
    obtain ⟨seg, hseg, hinf⟩ := ih ho
    rw [List.cons_append, List.zip_cons_cons]
    by_cases hl : ∀ l, s ≠ .label l
    · rw [segments_cons_of_ne _ _ hl]
      rcases List.mem_cons.mp hseg with rfl | hseg
      · exact ⟨_, List.mem_cons_self _ _, hinf.trans (List.suffix_append _ _).isInfix⟩
      · exact ⟨seg, List.mem_cons_of_mem _ hseg, hinf⟩
    · push_neg at hl
      obtain ⟨l, rfl⟩ := hl
      exact ⟨seg, List.mem_cons_of_mem _ hseg, hinf⟩

/-! ## The run lemma -/

/-- Building at the current block of a function laid out as its first block, the blocks closed
    since, the current block and any after it. -/
theorem appendInsts_current (pre : List Function) (f : Function) (b₀ cur : Block)
    (closed rest : List Block) (is : List Inst) :
    (Llvm.Module.mk (pre ++ [{ f with blocks := b₀ :: closed ++ cur :: rest }])).appendInsts
        ⟨pre.length, closed.length + 1⟩ is =
      ⟨pre ++ [{ f with blocks := b₀ :: closed ++ { cur with insts := cur.insts ++ is } :: rest }]⟩ := by
  rw [Module.appendInsts_last]
  exact congrArg (fun bs => Llvm.Module.mk (pre ++ [{ f with blocks := bs }]))
    (List.modify_append_cons_length (b₀ :: closed) rest cur _)

/-- Over a whole body the function keeps the shape: the allocas block, with one alloca per
    declaration appended; the blocks closed before; the current block, with the module builder's
    instructions before the first label; one block per label. -/
theorem emitStatements_layout {pre : List Function} {f : Function} {b₀ cur : Block}
    {closed : List Block} {body : List EmitStatement} {st st' : EmitState}
    (hm : st.module = ⟨pre ++ [{ f with blocks := b₀ :: closed ++ [cur] }]⟩)
    (hb : st.builder = some ⟨pre.length, closed.length + 1⟩)
    (h : emitStatements dbg ⟨pre.length, ⟨pre.length, 0⟩⟩ body st = .ok ((), st')) :
    ∃ outs allocas bs, List.Forall₂ Emits body outs ∧
      List.Forall₂ AllocaOf (variablesOf body) allocas ∧
      st'.module = ⟨pre ++ [{ f with blocks := bs }]⟩ ∧
      bs.map Block.insts = (b₀.insts ++ allocas) :: closed.map Block.insts ++
        (cur.insts ++ (segments (body.zip outs)).1) :: (segments (body.zip outs)).2 := by
  induction body generalizing st b₀ closed cur with
  | nil =>
    simp only [emitStatements, StateT.pure_apply, Except.ok.injEq, Prod.mk.injEq] at h
    obtain ⟨-, rfl⟩ := h
    exact ⟨[], [], _, .nil, .nil, hm, by simp [segments]⟩
  | cons s ss ih =>
    simp only [emitStatements, StateT.bind_apply_eq_ok] at h
    obtain ⟨_, st₁, hs, hss⟩ := h
    rcases emitStatement_cases hb hs with
      ⟨v, rfl, ⟨a, ha, hm₁⟩, hb₁, -⟩ | ⟨l, rfl, ⟨name, is, his, hm₁⟩, hb₁, -⟩ | ⟨hv, hl, hstep⟩
    · -- a declaration: its alloca closes the allocas block so far
      have hm₁' : st₁.module =
          ⟨pre ++ [{ f with blocks := { b₀ with insts := b₀.insts ++ [a] } :: closed ++ [cur] }]⟩ := by
        rw [hm₁, hm, Module.appendInsts_last]; rfl
      obtain ⟨outs, allocas, bs, ho, ha', hm', hbs⟩ := ih hm₁' (hb₁.trans hb) hss
      refine ⟨[] :: outs, a :: allocas, bs, .cons rfl ho, .cons ha ha', hm', ?_⟩
      rw [hbs, List.zip_cons_cons, segments_cons_of_ne _ _ fun _ h => Statement.noConfusion h]
      simp
    · -- a label: the current block is closed with its branch, the new block is current
      have hm₁' : st₁.module = ⟨pre ++ [{ f with
          blocks := b₀ :: (closed ++ [{ cur with insts := cur.insts ++ is }]) ++ [⟨name, []⟩] }]⟩ := by
        rw [hm₁, hm, Module.appendBlock_last, List.append_assoc, List.singleton_append,
          appendInsts_current]
        simp
      have hb₁' : st₁.builder =
          some ⟨pre.length, (closed ++ [{ cur with insts := cur.insts ++ is }]).length + 1⟩ := by
        rw [hb₁, hm, Module.blocks_append]; simp
      obtain ⟨outs, allocas, bs, ho, ha', hm', hbs⟩ := ih hm₁' hb₁' hss
      refine ⟨is :: outs, allocas, bs, .cons (emits_label l _ his) ho, ha', hm', ?_⟩
      simp [hbs]
    · -- any other statement: its instructions go at the end of the current block
      obtain ⟨is, his, hm₁⟩ := hstep.appends
      have hm₁' : st₁.module =
          ⟨pre ++ [{ f with blocks := b₀ :: closed ++ [{ cur with insts := cur.insts ++ is }] }]⟩ := by
        rw [hm₁, hm, appendInsts_current]
      obtain ⟨outs, allocas, bs, ho, ha', hm', hbs⟩ := ih hm₁' (hstep.builder_eq.trans hb) hss
      refine ⟨is :: outs, allocas, bs, .cons his ho, ?_, hm', ?_⟩
      · rwa [variablesOf_cons_of_ne _ hv]
      · rw [hbs, List.zip_cons_cons, segments_cons_of_ne _ _ hl]
        simp

/-! ## Bodies and methods -/

/-- A body emitted into a function with no blocks yet: the allocas block, holding one alloca per
    declaration and then the branch to the real entry block; the real entry block; one block per
    label.  Only the identifiers the body defines get values. -/
theorem emitBody_layout {pre : List Function} {f : Function} {body : List EmitStatement}
    {st st' : EmitState} (hm : st.module = ⟨pre ++ [f]⟩) (hf : f.blocks = [])
    (h : emitBody dbg pre.length body st = .ok ((), st')) :
    ∃ outs allocas bs, List.Forall₂ Emits body outs ∧
      List.Forall₂ AllocaOf (variablesOf body) allocas ∧
      st'.module = ⟨pre ++ [{ f with blocks := bs }]⟩ ∧
      bs.map Block.insts = (allocas ++ [.br 1]) :: (segments (body.zip outs)).1 ::
        (segments (body.zip outs)).2 ∧
      RegistersOnly (body.flatMap defsOf) st.resolver st'.resolver := by
  simp only [emitBody, StateT.bind_apply_eq_ok, appendBasicBlockInContext_apply_eq_ok,
    positionBuilderAtEnd_apply_eq_ok] at h
  obtain ⟨_, _, ⟨rfl, rfl⟩, _, _, ⟨rfl, rfl⟩, _, _, rfl, _, s₄, hbody, hbr⟩ := h
  obtain ⟨_, hbr⟩ := discard_apply_eq_ok.mp hbr
  obtain ⟨-, rfl⟩ := buildAt_apply_eq_ok.mp hbr
  have hf' : f = { f with blocks := [] } := by cases f; cases hf; rfl
  have hm₂ : ((st.module.appendBlock pre.length "").appendBlock pre.length "") =
      ⟨pre ++ [{ f with blocks := ⟨"", []⟩ :: [] ++ [⟨"", []⟩] }]⟩ := by
    rw [hm, hf', Module.appendBlock_last, Module.appendBlock_last]; rfl
  have hb₀ : (st.module.blocks pre.length).length = 0 := by simp [hm, hf]
  have hb₁ : ((st.module.appendBlock pre.length "").blocks pre.length).length = 1 := by
    rw [hm, hf', Module.appendBlock_last, Module.blocks_append]; rfl
  rw [hb₀, hb₁] at hbody ⊢
  obtain ⟨outs, allocas, bs, ho, ha, hm', hbs⟩ := emitStatements_layout hm₂ rfl hbody
  obtain ⟨-, hr⟩ := emitStatements_registersOnly (by rfl) hbody
  obtain ⟨b₀, bs, rfl⟩ : ∃ b₀ bs', bs = b₀ :: bs' := by
    cases bs with
    | nil => cases hbs
    | cons b₀ bs => exact ⟨b₀, bs, rfl⟩
  refine ⟨outs, allocas, { b₀ with insts := b₀.insts ++ [.br 1] } :: bs, ho, ha, ?_, ?_, hr⟩
  · rw [hm', Module.appendInsts_last]; rfl
  · simp only [List.map_cons, List.cons.injEq] at hbs ⊢
    simpa using hbs

/-- The blocks of a method emitted with a body: the allocas block, holding one alloca per
    declaration in statement order, each of the declaration's type in its state space's address
    space, and then only the branch to the real entry block; the real entry block, holding the
    instructions of the statements before the first label; one block per label, holding those
    of the statements after it up to the next label.  Each statement puts there what `Emits`
    allows, in statement order. -/
theorem emitMethod_blocks {idDefs : List (SpirvWord × IdentEntry)}
    {method : Function2 EmitStatement} {body : List EmitStatement} {st st' : EmitState}
    (hbody : method.body = some body) (h : emitMethod dbg idDefs method st = .ok ((), st')) :
    ∃ f outs allocas, st'.module.functions = st.module.functions ++ [f] ∧
      List.Forall₂ Emits body outs ∧ List.Forall₂ AllocaOf (variablesOf body) allocas ∧
      f.blocks.length = (body.filter isLabel).length + 2 ∧
      f.blocks.map Block.insts = (allocas ++ [.br 1]) :: (segments (body.zip outs)).1 ::
        (segments (body.zip outs)).2 := by
  obtain ⟨-, f₀, st₃, -, hm₃, -, -, hb₀, -, -, -, -, -, hbody', -⟩ := emitMethod_header h
  obtain ⟨outs, allocas, bs, ho, ha, hm', hbs, -⟩ := emitBody_layout hm₃ hb₀ (hbody' body hbody)
  refine ⟨{ f₀ with blocks := bs }, outs, allocas, by rw [hm'], ho, ha, ?_, hbs⟩
  rw [← List.length_map bs Block.insts, hbs]
  simp [length_segments_zip ho]

/-- A kernel whose body declares a local, then a label, then returns. -/
def localLabelRet : Function2 EmitStatement :=
  { funcDecl := { returnArguments := [], name := .kernel "k", inputArguments := [], sharedMem := none }
    globals := [], importAs := none, tuning := [], linkage := ⟨0⟩
    body := some [.variable ⟨none, .scalar .u32, .local, 1, []⟩, .label 2, .instruction .ret] }

theorem localLabelRet_blocks : ∃ st', emitMethod true [] localLabelRet EmitState.new = .ok ((), st') ∧
    ∃ f outs allocas, st'.module.functions = EmitState.new.module.functions ++ [f] ∧
      List.Forall₂ Emits [.variable ⟨none, .scalar .u32, .local, 1, []⟩, .label 2,
        .instruction .ret] outs ∧
      List.Forall₂ AllocaOf [⟨none, .scalar .u32, .local, 1, []⟩] allocas ∧
      f.blocks.length = 3 ∧
      f.blocks.map Block.insts = (allocas ++ [.br 1]) ::
        (segments ([Statement.variable ⟨none, .scalar .u32, .local, 1, []⟩, .label 2,
          .instruction .ret].zip outs)).1 ::
        (segments ([Statement.variable ⟨none, .scalar .u32, .local, 1, []⟩, .label 2,
          .instruction .ret].zip outs)).2 :=
  have h : emitMethod true [] localLabelRet EmitState.new = .ok ((),
      ⟨⟨[⟨"k", ⟨.void, []⟩, [], [], .amdgpuKernel,
        [⟨"", [.alloca (.int 32) privateAddressSpace "1" none, .br 1]⟩, ⟨"", [.br 2]⟩,
          ⟨"2", [.retVoid]⟩]⟩]⟩,
        some ⟨0, 2⟩, ⟨[(2, "2\x00"), (1, "1\x00")], [(1, .inst 0 0 0)]⟩⟩) := rfl
  ⟨_, h, emitMethod_blocks rfl h⟩

/-- Two returns in a row in a body put two terminators into one block of the emitted function,
    the first of them not its last instruction. -/
theorem emitMethod_ret_ret {idDefs : List (SpirvWord × IdentEntry)}
    {method : Function2 EmitStatement} {pre post : List EmitStatement} {st st' : EmitState}
    (hbody : method.body = some (pre ++ .instruction .ret :: .instruction .ret :: post))
    (h : emitMethod dbg idDefs method st = .ok ((), st')) :
    ∃ f, st'.module.functions = st.module.functions ++ [f] ∧ ∃ b ∈ f.blocks,
      [Inst.retVoid, .retVoid] <:+: b.insts ∧ 2 ≤ (b.insts.filter Inst.isTerminator).length := by
  obtain ⟨-, f₀, st₃, -, hm₃, -, -, hb₀, -, -, -, -, -, hbody', -⟩ := emitMethod_header h
  obtain ⟨outs, _, bs, ho, -, hm', hbs, -⟩ := emitBody_layout hm₃ hb₀ (hbody' _ hbody)
  obtain ⟨seg, hseg, hinf⟩ := ret_ret_infix_segments ho
  have hmem : seg ∈ bs.map Block.insts := by rw [hbs]; exact List.mem_cons_of_mem _ hseg
  obtain ⟨b, hb, rfl⟩ := List.mem_map.mp hmem
  exact ⟨_, by rw [hm'], b, hb, hinf, (hinf.filter Inst.isTerminator).length_le⟩

/-- A kernel whose body is two returns. -/
def retRet : Function2 EmitStatement :=
  { funcDecl := { returnArguments := [], name := .kernel "k", inputArguments := [], sharedMem := none }
    globals := [], importAs := none, tuning := [], linkage := ⟨0⟩
    body := some [.instruction .ret, .instruction .ret] }

theorem retRet_two_terminators : ∃ st', emitMethod true [] retRet EmitState.new = .ok ((), st') ∧
    ∃ f, st'.module.functions = EmitState.new.module.functions ++ [f] ∧ ∃ b ∈ f.blocks,
      [Inst.retVoid, .retVoid] <:+: b.insts ∧ 2 ≤ (b.insts.filter Inst.isTerminator).length :=
  have h : emitMethod true [] retRet EmitState.new = .ok ((), _) := rfl
  ⟨_, h, emitMethod_ret_ret (show retRet.body = some ([] ++ _) from rfl) h⟩

end ZludaPtx.EmitLlvm
