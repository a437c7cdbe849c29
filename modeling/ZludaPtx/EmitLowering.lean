import ZludaPtx.EmitLayout

/-!
# What each statement is lowered to, exactly

`Emits` says which kind of instruction a statement puts at the module builder; a proof about
what the emitted code computes needs more: which values the instruction reads, which value the
statement registers for its destination, and where that instruction sits.  `Lowers` says it for
every statement emitted through the module builder, from the values known before it and the
place its instruction takes.  The instruction types and names are left out.  `LowersAt` adds
declarations and labels and says where the emitter is afterwards.  `Lowered` is a whole body,
statement by statement.

There is one exact lemma per emitting function (`emitLd_lowers`, ...), and one run lemma,
`emitStatements_lowered`, shaped like `emitStatements_layout`.  It pairs the trace of a body with
the blocks it leaves.

## Key results

- `emitStatement_lowers`: the exact effect of one statement, for each kind
- `emitStatements_lowered`: the run lemma, a body's trace and blocks
- `emitBody_lowered`: a body emitted into a function with no blocks yet
-/

namespace ZludaPtx.EmitLlvm

open Llvm

variable {dbg : Bool}

/-! ## Exact lowering -/

/-- What a statement other than a declaration or a label emits at the module builder, but for the
    types and names of its instructions.  `vals` are the values known before it, `here` the value
    of the next place in the builder's block, and `new` the values it registers, newest first. -/
def Lowers (vals : List (SpirvWord × Value)) (here : Value) :
    EmitStatement → List Inst → List (SpirvWord × Value) → Prop
  | .instruction (.mov dst src), is, new =>
    ∃ v, vals.lookup src = some v ∧ is = [] ∧ new = [(dst, v)]
  | .instruction (.ld _ dst src), is, new =>
    ∃ t ptr n, vals.lookup src = some ptr ∧ is = [.load t ptr n] ∧ new = [(dst, here)]
  | .instruction (.add .integer dst src1 src2), is, new =>
    ∃ x y n, vals.lookup src1 = some x ∧ vals.lookup src2 = some y ∧ is = [.add x y n] ∧
      new = [(dst, here)]
  | .instruction (.add .float dst src1 src2), is, new =>
    ∃ x y n, vals.lookup src1 = some x ∧ vals.lookup src2 = some y ∧ is = [.fadd x y n] ∧
      new = [(dst, here)]
  | .instruction (.st _ src1 src2), is, new =>
    ∃ ptr x, vals.lookup src1 = some ptr ∧ vals.lookup src2 = some x ∧ is = [.store x ptr] ∧
      new = []
  | .instruction (.call _ rets func ins), is, new =>
    ∃ t g xs n, vals.lookup func = some g ∧ ins.mapM (vals.lookup ·) = some xs ∧
      is = [.call t g xs n] ∧ rets.length ≤ 1 ∧ new = rets.map (·, here)
  | .instruction .ret, is, new => is = [.retVoid] ∧ new = []
  | .loadVar d, is, new =>
    ∃ t ptr n, vals.lookup d.src = some ptr ∧ is = [.load t ptr n] ∧ new = [(d.dst, here)]
  | .storeVar d, is, new =>
    ∃ ptr x, vals.lookup d.src1 = some ptr ∧ vals.lookup d.src2 = some x ∧
      is = [.store x ptr] ∧ new = []
  | .conversion c, is, new =>
    c.kind = .bitToPtr ∧ ∃ x t n, vals.lookup c.src = some x ∧ is = [.intToPtr x t n] ∧
      new = [(c.dst, here)]
  | .constant c, is, new => ∃ v, constantValue c = .ok v ∧ is = [] ∧ new = [(c.dst, v)]
  | _, _, _ => False

/-- The value `emit_constant` computes is a constant. -/
theorem constantValue_const {c : ConstantDefinition} {v : Value} (h : constantValue c = .ok v) :
    (∃ w n, v = .constInt w n) ∨ ∃ t x, v = .constReal t x := by
  simp only [constantValue, bind, Except.bind] at h
  split at h
  · cases h
  · split at h <;> simp only [constInt, constReal] at h <;> split at h <;> cases h <;> simp

/-- Each value a lowered statement registers is the value of its one instruction, a value one of
    its operands stands for, or a constant. -/
theorem Lowers.registers {vals : List (SpirvWord × Value)} {here : Value} {s : EmitStatement}
    {is : List Inst} {new : List (SpirvWord × Value)} (hl : Lowers vals here s is new)
    {e : SpirvWord × Value} (he : e ∈ new) :
    (e.2 = here ∧ is.length = 1) ∨ (∃ w ∈ usesOf s, vals.lookup w = some e.2) ∨
      ∃ c, constantValue c = .ok e.2 := by
  cases s with
  | instruction ins =>
    cases ins with
    | mov =>
      obtain ⟨v, hv, -, rfl⟩ := hl
      obtain rfl := List.mem_singleton.mp he
      exact .inr (.inl ⟨_, List.mem_singleton_self _, hv⟩)
    | ld =>
      obtain ⟨_, _, _, _, rfl, rfl⟩ := hl
      obtain rfl := List.mem_singleton.mp he
      exact .inl ⟨rfl, rfl⟩
    | add d =>
      cases d <;> obtain ⟨_, _, _, _, _, rfl, rfl⟩ := hl <;> obtain rfl := List.mem_singleton.mp he <;>
        exact .inl ⟨rfl, rfl⟩
    | st => obtain ⟨_, _, _, _, _, rfl⟩ := hl; cases he
    | call =>
      obtain ⟨_, _, _, _, _, _, rfl, -, rfl⟩ := hl
      obtain ⟨_, -, rfl⟩ := List.mem_map.mp he
      exact .inl ⟨rfl, rfl⟩
    | ret => obtain ⟨-, rfl⟩ := hl; cases he
    | other => cases hl
  | loadVar =>
    obtain ⟨_, _, _, _, rfl, rfl⟩ := hl
    obtain rfl := List.mem_singleton.mp he
    exact .inl ⟨rfl, rfl⟩
  | storeVar => obtain ⟨_, _, _, _, _, rfl⟩ := hl; cases he
  | conversion =>
    obtain ⟨-, _, _, _, _, rfl, rfl⟩ := hl
    obtain rfl := List.mem_singleton.mp he
    exact .inl ⟨rfl, rfl⟩
  | constant c =>
    obtain ⟨v, hv, -, rfl⟩ := hl
    obtain rfl := List.mem_singleton.mp he
    exact .inr (.inr ⟨c, hv⟩)
  | _ => cases hl

/-- A lowered statement registers exactly the identifiers it defines, in order. -/
theorem Lowers.keys {vals : List (SpirvWord × Value)} {here : Value} {s : EmitStatement}
    {is : List Inst} {new : List (SpirvWord × Value)} (hl : Lowers vals here s is new) :
    new.map Prod.fst = defsOf s := by
  cases s with
  | instruction ins =>
    cases ins with
    | mov => obtain ⟨_, -, -, rfl⟩ := hl; rfl
    | ld => obtain ⟨_, _, _, -, -, rfl⟩ := hl; rfl
    | add d => cases d <;> obtain ⟨_, _, _, -, -, -, rfl⟩ := hl <;> rfl
    | st => obtain ⟨_, _, -, -, -, rfl⟩ := hl; rfl
    | call => obtain ⟨_, _, _, _, -, -, -, -, rfl⟩ := hl; simp [defsOf, Function.comp_def]
    | ret => obtain ⟨-, rfl⟩ := hl; rfl
    | other => cases hl
  | loadVar => obtain ⟨_, _, _, -, -, rfl⟩ := hl; rfl
  | storeVar => obtain ⟨_, _, -, -, -, rfl⟩ := hl; rfl
  | conversion => obtain ⟨-, _, _, _, -, -, rfl⟩ := hl; rfl
  | constant => obtain ⟨_, -, -, rfl⟩ := hl; rfl
  | _ => cases hl

/-- A lowered statement found a value for every identifier it reads. -/
theorem Lowers.found {vals : List (SpirvWord × Value)} {here : Value} {s : EmitStatement}
    {is : List Inst} {new : List (SpirvWord × Value)} (hl : Lowers vals here s is new) :
    ∀ w ∈ usesOf s, ∃ v, vals.lookup w = some v := by
  cases s with
  | instruction ins =>
    cases ins with
    | mov => obtain ⟨v, hv, -⟩ := hl; simpa [usesOf] using ⟨v, hv⟩
    | ld => obtain ⟨_, p, _, hp, -⟩ := hl; simpa [usesOf] using ⟨p, hp⟩
    | add d => cases d <;> obtain ⟨x, y, _, hx, hy, -⟩ := hl <;> simp [usesOf, hx, hy]
    | st => obtain ⟨p, x, hp, hx, -⟩ := hl; simp [usesOf, hp, hx]
    | call =>
      obtain ⟨_, g, xs, _, hg, hxs, -⟩ := hl
      intro w hw
      rcases List.mem_append.mp hw with hw | hw
      · obtain ⟨x, -, hx⟩ := (List.mapM_eq_some_iff_forall₂.mp hxs).flip.exists_of_mem_right hw
        exact ⟨x, hx⟩
      · exact ⟨g, (List.mem_singleton.mp hw).symm ▸ hg⟩
    | ret => simp [usesOf]
    | other => cases hl
  | loadVar => obtain ⟨_, p, _, hp, -⟩ := hl; simpa [usesOf] using ⟨p, hp⟩
  | storeVar => obtain ⟨p, x, hp, hx, -⟩ := hl; simp [usesOf, hp, hx]
  | conversion => obtain ⟨-, x, _, _, hx, -⟩ := hl; simpa [usesOf] using ⟨x, hx⟩
  | constant => simp [usesOf]
  | _ => cases hl

/-- A lowered statement registers nothing for an identifier it does not define. -/
theorem Lowers.lookup_eq_none {vals : List (SpirvWord × Value)} {here : Value} {s : EmitStatement}
    {is : List Inst} {new : List (SpirvWord × Value)} (hl : Lowers vals here s is new)
    {w : SpirvWord} (hw : w ∉ defsOf s) : new.lookup w = none :=
  List.lookup_eq_none_iff.mpr fun e he => by
    simpa using fun heq : w = e.1 => hw (by rw [← hl.keys, heq]; exact List.mem_map_of_mem _ he)

/-- What a lowered statement builds: nothing, when `buildsInst` says so, or else one instruction,
    a terminator exactly for `ret` and never a branch, whose operands are values its operands
    stand for. -/
theorem Lowers.builds {vals : List (SpirvWord × Value)} {here : Value} {s : EmitStatement}
    {is : List Inst} {new : List (SpirvWord × Value)} (hl : Lowers vals here s is new) :
    (buildsInst s = false ∧ is = []) ∨
      (buildsInst s = true ∧ ∃ x, is = [x] ∧ x.isTerminator = isRet s ∧ (∀ d, x ≠ .br d) ∧
        ∀ v ∈ x.operands, ∃ w ∈ usesOf s, vals.lookup w = some v) := by
  cases s with
  | instruction ins =>
    cases ins with
    | mov => obtain ⟨_, -, rfl, -⟩ := hl; exact .inl ⟨rfl, rfl⟩
    | ld =>
      obtain ⟨_, _, _, h, rfl, -⟩ := hl
      exact .inr ⟨rfl, _, rfl, rfl, nofun, by simpa [Inst.operands, usesOf]⟩
    | add d =>
      cases d <;> obtain ⟨_, _, _, h₁, h₂, rfl, -⟩ := hl <;>
        exact .inr ⟨rfl, _, rfl, rfl, nofun, by simp [Inst.operands, usesOf, h₁, h₂]⟩
    | st =>
      obtain ⟨_, _, h₁, h₂, rfl, -⟩ := hl
      exact .inr ⟨rfl, _, rfl, rfl, nofun, by simp [Inst.operands, usesOf, h₁, h₂]⟩
    | call _ _ func ins =>
      obtain ⟨_, _, xs, _, hg, hxs, rfl, -, -⟩ := hl
      refine .inr ⟨rfl, _, rfl, rfl, nofun, fun v hv => ?_⟩
      rcases List.mem_cons.mp hv with rfl | hv
      · exact ⟨func, by simp [usesOf], hg⟩
      · obtain ⟨w, hw, h⟩ := (List.mapM_eq_some_iff_forall₂.mp hxs).exists_of_mem_right hv
        exact ⟨w, List.mem_append_left _ hw, h⟩
    | ret => obtain ⟨rfl, -⟩ := hl; exact .inr ⟨rfl, _, rfl, rfl, nofun, nofun⟩
    | other => cases hl
  | loadVar =>
    obtain ⟨_, _, _, h, rfl, -⟩ := hl
    exact .inr ⟨rfl, _, rfl, rfl, nofun, by simpa [Inst.operands, usesOf]⟩
  | storeVar =>
    obtain ⟨_, _, h₁, h₂, rfl, -⟩ := hl
    exact .inr ⟨rfl, _, rfl, rfl, nofun, by simp [Inst.operands, usesOf, h₁, h₂]⟩
  | conversion =>
    obtain ⟨-, _, _, _, h, rfl, -⟩ := hl
    exact .inr ⟨rfl, _, rfl, rfl, nofun, by simpa [Inst.operands, usesOf]⟩
  | constant => obtain ⟨_, -, rfl, -⟩ := hl; exact .inl ⟨rfl, rfl⟩
  | _ => cases hl

/-- Where the emitter is in a body: the values known, the module builder's block and what it
    holds so far, and the number of allocas so far. -/
structure Point where
  vals : List (SpirvWord × Value)
  block : Nat
  cur : List Inst
  allocas : Nat

/-- One statement emitted at point `pt` of function `fn`, putting `is` at the module builder and
    leaving the emitter at `pt'`: a declaration registers the next alloca, a label closes the
    block with a branch to the next one unless it ends in a terminator, and any other statement
    is lowered at the end of the block. -/
def LowersAt (fn : Nat) (pt : Point) : EmitStatement → List Inst → Point → Prop
  | .variable v, is, pt' => is = [] ∧
    pt' = { pt with vals := (v.name, .inst fn 0 pt.allocas) :: pt.vals, allocas := pt.allocas + 1 }
  | .label _, is, pt' =>
    is = (if (Block.terminator ⟨"", pt.cur⟩).isNone then [.br (pt.block + 1)] else []) ∧
    pt' = { pt with block := pt.block + 1, cur := [] }
  | s, is, pt' => ∃ new, Lowers pt.vals (.inst fn pt.block pt.cur.length) s is new ∧
    pt' = { pt with vals := new ++ pt.vals, cur := pt.cur ++ is }

/-- A body emitted from point `pt` of function `fn` to point `pe`, each statement paired with what
    it put at the module builder. -/
def Lowered (fn : Nat) : Point → List EmitStatement → List (List Inst) → Point → Prop
  | pt, [], [], pe => pe = pt
  | pt, s :: ss, is :: os, pe => ∃ pt', LowersAt fn pt s is pt' ∧ Lowered fn pt' ss os pe
  | _, _, _, _ => False

theorem lowersAt_of_lowers {fn : Nat} {pt : Point} {s : EmitStatement} {is : List Inst}
    {new : List (SpirvWord × Value)} (hv : ∀ v, s ≠ .variable v) (hl : ∀ l, s ≠ .label l)
    (h : Lowers pt.vals (.inst fn pt.block pt.cur.length) s is new) :
    LowersAt fn pt s is { pt with vals := new ++ pt.vals, cur := pt.cur ++ is } := by
  cases s with
  | «variable» v => exact absurd rfl (hv v)
  | label l => exact absurd rfl (hl l)
  | _ => exact ⟨new, h, rfl⟩

/-- What one statement at point `pt` can have done, by its kind. -/
theorem lowersAt_cases {fn : Nat} {pt pt' : Point} {s : EmitStatement} {is : List Inst}
    (h : LowersAt fn pt s is pt') :
    (∃ v, s = .variable v ∧ is = [] ∧
      pt' = { pt with vals := (v.name, .inst fn 0 pt.allocas) :: pt.vals, allocas := pt.allocas + 1 }) ∨
    (∃ l, s = .label l ∧
      is = (if (Block.terminator ⟨"", pt.cur⟩).isNone then [.br (pt.block + 1)] else []) ∧
      pt' = { pt with block := pt.block + 1, cur := [] }) ∨
    ((∀ v, s ≠ .variable v) ∧ (∀ l, s ≠ .label l) ∧
      ∃ new, Lowers pt.vals (.inst fn pt.block pt.cur.length) s is new ∧
        pt' = { pt with vals := new ++ pt.vals, cur := pt.cur ++ is }) := by
  cases s with
  | «variable» v => exact .inl ⟨v, rfl, h⟩
  | label l => exact .inr (.inl ⟨l, rfl, h⟩)
  | _ => exact .inr (.inr ⟨by simp, by simp, h⟩)

/-- Induction over a body's trace, with one case per kind of statement. -/
@[elab_as_elim]
theorem Lowered.induction {fn : Nat}
    {motive : Point → List EmitStatement → List (List Inst) → Point → Prop}
    (nil : ∀ pt, motive pt [] [] pt)
    (decl : ∀ (pt : Point) v ss os pe,
      motive { pt with vals := (v.name, .inst fn 0 pt.allocas) :: pt.vals
                       allocas := pt.allocas + 1 } ss os pe →
        motive pt (.variable v :: ss) ([] :: os) pe)
    (label : ∀ (pt : Point) l ss os pe, motive { pt with block := pt.block + 1, cur := [] } ss os pe →
      motive pt (.label l :: ss)
        ((if (Block.terminator ⟨"", pt.cur⟩).isNone then [.br (pt.block + 1)] else []) :: os) pe)
    (lowers : ∀ (pt : Point) s is new ss os pe, (∀ v, s ≠ .variable v) → (∀ l, s ≠ .label l) →
      Lowers pt.vals (.inst fn pt.block pt.cur.length) s is new →
      motive { pt with vals := new ++ pt.vals, cur := pt.cur ++ is } ss os pe →
      motive pt (s :: ss) (is :: os) pe) :
    ∀ {ss os pt pe}, Lowered fn pt ss os pe → motive pt ss os pe := by
  intro ss
  induction ss with
  | nil =>
    rintro (_ | _) pt pe hl
    · exact (show pe = pt from hl) ▸ nil pt
    · exact hl.elim
  | cons s ss ih =>
    rintro (_ | ⟨is, os⟩) pt pe hl
    · exact hl.elim
    obtain ⟨pt', hat, hrest⟩ := hl
    rcases lowersAt_cases hat with ⟨v, rfl, rfl, rfl⟩ | ⟨l, rfl, rfl, rfl⟩ | ⟨hv, hl, new, hlow, rfl⟩
    · exact decl pt v ss os pe (ih hrest)
    · exact label pt l ss os pe (ih hrest)
    · exact lowers pt s is new ss os pe hv hl hlow (ih hrest)

/-- A statement emitted as `Lowers` says through the module builder at `p`: its instructions
    appended there, the builder in place, its values registered in front. -/
def LowersStep (s : EmitStatement) (p : Position) (st st' : EmitState) : Prop :=
  ∃ is new, Lowers st.resolver.values (.inst p.fn p.block (st.module.insts p).length) s is new ∧
    st'.module = st.module.appendInsts p is ∧ st'.builder = st.builder ∧
    st'.resolver.values = new ++ st.resolver.values

/-! ## One lemma per emitting function -/

section Steps

variable {st st' : EmitState} {p : Position}

/-- Looking up operands changes nothing, and finds each operand's value. -/
theorem mapM_value_apply_eq_ok {l : List SpirvWord} {vs : List Value}
    (h : l.mapM (fun arg => resolve (ResolveIdent.value arg)) st = .ok (vs, st')) :
    l.mapM (st.resolver.values.lookup ·) = some vs ∧ st' = st := by
  induction l generalizing vs st' with
  | nil =>
    simp only [List.mapM_nil, StateT.pure_apply, Except.ok.injEq, Prod.mk.injEq] at h
    obtain ⟨rfl, rfl⟩ := h
    exact ⟨rfl, rfl⟩
  | cons a l ih =>
    simp only [List.mapM_cons, StateT.bind_apply_eq_ok, resolve_apply_eq_ok,
      ResolveIdent.value_eq_ok, StateT.pure_apply, Except.ok.injEq, Prod.mk.injEq] at h
    obtain ⟨v, _, ⟨_, ⟨hv, rfl⟩, rfl⟩, vs', _, hl, rfl, rfl⟩ := h
    obtain ⟨hvs, rfl⟩ := ih hl
    exact ⟨by rw [List.mapM_cons, hv, hvs]; rfl, rfl⟩

/-- Naming the call: at most one result, and nothing but the interned names changes. -/
theorem callName_apply_eq_ok {a : List (PtxType × StateSpace)} {b : List SpirvWord} {n : String}
    (h : callName a b st = .ok (n, st')) : b.length ≤ 1 ∧
      st'.module = st.module ∧ st'.builder = st.builder ∧ st'.resolver.values = st.resolver.values := by
  rcases a with _ | ⟨_, _ | _⟩ <;> rcases b with _ | ⟨_, _ | _⟩ <;>
    simp only [callName, throw_apply, reduceCtorEq, StateT.pure_apply, Except.ok.injEq,
      Prod.mk.injEq] at h
  · obtain ⟨-, rfl⟩ := h
    exact ⟨by simp, rfl, rfl, rfl⟩
  · obtain ⟨r, hr, rfl⟩ := resolve_apply_eq_ok.mp h
    exact ⟨by simp, rfl, rfl, ResolveIdent.getOrAddRaw_values hr⟩

/-- Registering the call's result: the result, if there is one, stands for the call. -/
theorem registerCallResult_apply_eq_ok {b : List SpirvWord} {v : Value} (hb : b.length ≤ 1)
    (h : registerCallResult b v st = .ok ((), st')) : st'.module = st.module ∧
      st'.builder = st.builder ∧ st'.resolver.values = b.map (·, v) ++ st.resolver.values := by
  rcases b with _ | ⟨_, _ | _⟩
  · simp only [registerCallResult, StateT.pure_apply, Except.ok.injEq, Prod.mk.injEq] at h
    obtain ⟨-, rfl⟩ := h
    exact ⟨rfl, rfl, rfl⟩
  · obtain ⟨r, hr, rfl⟩ := resolve_apply_eq_ok.mp h
    rw [ResolveIdent.register_eq_ok] at hr
    subst hr
    exact ⟨rfl, rfl, rfl⟩
  · simp at hb

theorem emitMov_lowers {dst src : SpirvWord} (h : emitMov dst src st = .ok ((), st')) :
    LowersStep (.instruction (.mov dst src)) p st st' := by
  simp only [emitMov, StateT.bind_apply_eq_ok, resolve_apply_eq_ok, ResolveIdent.value_eq_ok,
    ResolveIdent.register_eq_ok] at h
  obtain ⟨v, _, ⟨_, ⟨hv, rfl⟩, rfl⟩, _, rfl, rfl⟩ := h
  exact ⟨[], _, ⟨v, hv, rfl, rfl⟩, by simp, rfl, rfl⟩

theorem emitLd_lowers {d : Ast.LdDetails} {dst src : SpirvWord} (hp : st.builder = some p)
    (h : emitLd d dst src st = .ok ((), st')) : LowersStep (.instruction (.ld d dst src)) p st st' := by
  simp only [emitLd, withResult, StateT.bind_apply_eq_ok, todoIf_apply_eq_ok, liftE_apply_eq_ok,
    resolve_apply_eq_ok, build_apply_eq_ok, ResolveIdent.value_eq_ok,
    ResolveIdent.register_eq_ok] at h
  obtain ⟨_, _, ⟨-, rfl⟩, _, _, ⟨-, rfl⟩, t, _, ⟨-, rfl⟩, ptr, _, ⟨_, ⟨hptr, rfl⟩, rfl⟩, n, _,
    ⟨r, hn, rfl⟩, _, _, ⟨q, hq, rfl, rfl⟩, _, rfl, rfl⟩ := h
  obtain rfl : q = p := Option.some.inj (hq.symm.trans hp)
  exact ⟨_, _, ⟨t, ptr, n, hptr, rfl, rfl⟩, rfl, rfl, by simp [ResolveIdent.getOrAddRaw_values hn]⟩

theorem emitAdd_lowers {d : Ast.ArithDetails} {dst src1 src2 : SpirvWord}
    (hp : st.builder = some p) (h : emitAdd d dst src1 src2 st = .ok ((), st')) :
    LowersStep (.instruction (.add d dst src1 src2)) p st st' := by
  simp only [emitAdd, withResult, StateT.bind_apply_eq_ok, resolve_apply_eq_ok,
    build_apply_eq_ok, ResolveIdent.value_eq_ok, ResolveIdent.register_eq_ok] at h
  obtain ⟨x, _, ⟨_, ⟨hx, rfl⟩, rfl⟩, y, _, ⟨_, ⟨hy, rfl⟩, rfl⟩, n, _, ⟨r, hn, rfl⟩, _, _,
    ⟨q, hq, rfl, rfl⟩, _, rfl, rfl⟩ := h
  obtain rfl : q = p := Option.some.inj (hq.symm.trans hp)
  cases d <;>
    exact ⟨_, _, ⟨x, y, n, hx, hy, rfl, rfl⟩, rfl, rfl, by simp [ResolveIdent.getOrAddRaw_values hn]⟩

theorem emitSt_lowers {d : Ast.StData} {src1 src2 : SpirvWord} (hp : st.builder = some p)
    (h : emitSt d src1 src2 st = .ok ((), st')) : LowersStep (.instruction (.st d src1 src2)) p st st' := by
  simp only [emitSt, StateT.bind_apply_eq_ok, resolve_apply_eq_ok, todoIf_apply_eq_ok,
    discard_apply_eq_ok, build_apply_eq_ok, ResolveIdent.value_eq_ok] at h
  obtain ⟨ptr, _, ⟨_, ⟨hptr, rfl⟩, rfl⟩, x, _, ⟨_, ⟨hx, rfl⟩, rfl⟩, _, _, ⟨-, rfl⟩, _, q, hq, -,
    rfl⟩ := h
  obtain rfl : q = p := Option.some.inj (hq.symm.trans hp)
  exact ⟨_, [], ⟨ptr, x, hptr, hx, rfl, rfl⟩, rfl, rfl, rfl⟩

theorem emitStoreVar_lowers {d : StoreVarDetails} (hp : st.builder = some p)
    (h : emitStoreVar d st = .ok ((), st')) : LowersStep (.storeVar d) p st st' := by
  simp only [emitStoreVar, StateT.bind_apply_eq_ok, resolve_apply_eq_ok, discard_apply_eq_ok,
    build_apply_eq_ok, ResolveIdent.value_eq_ok] at h
  obtain ⟨ptr, _, ⟨_, ⟨hptr, rfl⟩, rfl⟩, x, _, ⟨_, ⟨hx, rfl⟩, rfl⟩, _, q, hq, -, rfl⟩ := h
  obtain rfl : q = p := Option.some.inj (hq.symm.trans hp)
  exact ⟨_, [], ⟨ptr, x, hptr, hx, rfl, rfl⟩, rfl, rfl, rfl⟩

theorem emitRet_lowers (hp : st.builder = some p) (h : emitRet st = .ok ((), st')) :
    LowersStep (.instruction .ret) p st st' := by
  simp only [emitRet, discard_apply_eq_ok, build_apply_eq_ok] at h
  obtain ⟨_, q, hq, -, rfl⟩ := h
  obtain rfl : q = p := Option.some.inj (hq.symm.trans hp)
  exact ⟨_, [], ⟨rfl, rfl⟩, rfl, rfl, rfl⟩

theorem emitLoadVariable_lowers {d : LoadVarDetails} (hp : st.builder = some p)
    (h : emitLoadVariable d st = .ok ((), st')) : LowersStep (.loadVar d) p st st' := by
  simp only [emitLoadVariable, withResult, StateT.bind_apply_eq_ok, todoIf_apply_eq_ok,
    liftE_apply_eq_ok, resolve_apply_eq_ok, build_apply_eq_ok, ResolveIdent.value_eq_ok,
    ResolveIdent.register_eq_ok] at h
  obtain ⟨_, _, ⟨-, rfl⟩, t, _, ⟨-, rfl⟩, ptr, _, ⟨_, ⟨hptr, rfl⟩, rfl⟩, n, _, ⟨r, hn, rfl⟩, _, _,
    ⟨q, hq, rfl, rfl⟩, _, rfl, rfl⟩ := h
  obtain rfl : q = p := Option.some.inj (hq.symm.trans hp)
  exact ⟨_, _, ⟨t, ptr, n, hptr, rfl, rfl⟩, rfl, rfl, by simp [ResolveIdent.getOrAddRaw_values hn]⟩

theorem emitConversion_lowers {c : ImplicitConversion} (hp : st.builder = some p)
    (h : emitConversion c st = .ok ((), st')) : LowersStep (.conversion c) p st st' := by
  cases hk : c.kind <;> simp only [emitConversion, hk, throw_apply, reduceCtorEq] at h
  simp only [withResult, StateT.bind_apply_eq_ok, liftE_apply_eq_ok, resolve_apply_eq_ok,
    build_apply_eq_ok, ResolveIdent.value_eq_ok, ResolveIdent.register_eq_ok] at h
  obtain ⟨x, _, ⟨_, ⟨hx, rfl⟩, rfl⟩, t, _, ⟨-, rfl⟩, n, _, ⟨r, hn, rfl⟩, _, _,
    ⟨q, hq, rfl, rfl⟩, _, rfl, rfl⟩ := h
  obtain rfl : q = p := Option.some.inj (hq.symm.trans hp)
  exact ⟨_, _, ⟨hk, x, t, n, hx, rfl, rfl⟩, rfl, rfl, by simp [ResolveIdent.getOrAddRaw_values hn]⟩

theorem emitConstant_lowers {c : ConstantDefinition} (h : emitConstant c st = .ok ((), st')) :
    LowersStep (.constant c) p st st' := by
  obtain ⟨v, hv, rfl⟩ := emitConstant_apply_eq_ok.mp h
  exact ⟨[], _, ⟨v, hv, rfl, rfl⟩, by simp, rfl, rfl⟩

theorem emitCall_lowers {d : Ast.CallDetails} {rets : List SpirvWord} {func : SpirvWord}
    {ins : List SpirvWord} (hp : st.builder = some p) (h : emitCall dbg d rets func ins st = .ok ((), st')) :
    LowersStep (.instruction (.call d rets func ins)) p st st' := by
  simp only [emitCall, StateT.bind_apply_eq_ok, todoIf_apply_eq_ok, liftE_apply_eq_ok,
    resolve_apply_eq_ok, build_apply_eq_ok, ResolveIdent.value_eq_ok] at h
  obtain ⟨_, _, ⟨-, rfl⟩, n, s₁, hn, t, _, ⟨-, rfl⟩, xs, s₃, hxs, g, _, ⟨_, ⟨hg, rfl⟩, rfl⟩, v, _,
    ⟨q, hq, rfl, rfl⟩, hret⟩ := h
  obtain ⟨hlen, hm₁, hb₁, hv₁⟩ := callName_apply_eq_ok hn
  obtain ⟨hxs, rfl⟩ := mapM_value_apply_eq_ok hxs
  obtain ⟨hm₂, hb₂, hv₂⟩ := registerCallResult_apply_eq_ok hlen hret
  obtain rfl : q = p := Option.some.inj (hq.symm.trans (hb₁.trans hp))
  refine ⟨_, _, ⟨t, g, xs, n, by rwa [← hv₁], by rwa [← hv₁], rfl, hlen, rfl⟩, ?_, hb₂.trans hb₁, ?_⟩
  · rw [hm₂]; simp only [hm₁]
  · rw [hv₂]; simp only [hv₁, hm₁]

theorem emitInstruction_lowers {i : Ast.Instruction SpirvWord} (hp : st.builder = some p)
    (h : emitInstruction dbg i st = .ok ((), st')) : LowersStep (.instruction i) p st st' := by
  cases i with
  | mov dst src => exact emitMov_lowers h
  | ld d dst src => exact emitLd_lowers hp h
  | st d src1 src2 => exact emitSt_lowers hp h
  | add d dst src1 src2 => exact emitAdd_lowers hp h
  | call d rets func ins => exact emitCall_lowers hp h
  | ret => exact emitRet_lowers hp h
  | other _ => simp [emitInstruction] at h

/-- One declaration: its alloca appended at the variables builder and registered for its
    identifier. -/
theorem emitVariable_lowers {ctx : MethodEmitContext} {v : Ast.Variable SpirvWord}
    (h : emitVariable ctx v st = .ok ((), st')) :
    (∃ a, AllocaOf v a ∧ st'.module = st.module.appendInsts ctx.variablesBuilder [a]) ∧
      st'.builder = st.builder ∧
      st'.resolver.values = (v.name, .inst ctx.variablesBuilder.fn ctx.variablesBuilder.block
        (st.module.insts ctx.variablesBuilder).length) :: st.resolver.values := by
  cases hal : v.align <;>
    simp only [emitVariable, hal, StateT.bind_apply_eq_ok, liftE_apply_eq_ok, resolve_apply_eq_ok,
      buildAt_apply_eq_ok, ResolveIdent.register_eq_ok, todoIf_apply_eq_ok,
      setAlignment_inst_apply_eq_ok, StateT.pure_apply, Except.ok.injEq, Prod.mk.injEq] at h
  · obtain ⟨t, _, ⟨ht, rfl⟩, sp, _, ⟨hsp, rfl⟩, n, _, ⟨r, hn, rfl⟩, _, _, ⟨rfl, rfl⟩, _, _,
      ⟨_, rfl, rfl⟩, _, _, ⟨-, rfl⟩, _, -, rfl⟩ := h
    exact ⟨⟨_, ⟨t, sp, n, ht, hsp, by rw [hal]⟩, rfl⟩, rfl,
      by simp [ResolveIdent.getOrAddRaw_values hn]⟩
  · obtain ⟨t, _, ⟨ht, rfl⟩, sp, _, ⟨hsp, rfl⟩, n, _, ⟨r, hn, rfl⟩, _, _, ⟨rfl, rfl⟩, _, _,
      ⟨_, rfl, rfl⟩, _, _, hsa, _, -, rfl⟩ := h
    rw [setAlignment_inst_apply_eq_ok] at hsa
    subst hsa
    exact ⟨⟨_, ⟨t, sp, n, ht, hsp, by rw [hal]; rfl⟩, Module.modifyInst_appendInsts _ _ _ _⟩, rfl,
      by simp [ResolveIdent.getOrAddRaw_values hn]⟩

/-- One label: a block appended to the method, a branch to it at the module builder's block
    exactly when that block does not end in a terminator, the module builder moved to the new
    block. -/
theorem emitLabel_lowers {ctx : MethodEmitContext} {label : SpirvWord} (hp : st.builder = some p)
    (h : emitLabel ctx label st = .ok ((), st')) :
    (∃ name, st'.module = (st.module.appendBlock ctx.method name).appendInsts p
      (if ((st.module.appendBlock ctx.method name).terminator p).isNone
        then [.br (st.module.blocks ctx.method).length] else [])) ∧
    st'.builder = some ⟨ctx.method, (st.module.blocks ctx.method).length⟩ ∧
    st'.resolver.values = st.resolver.values := by
  simp only [emitLabel, StateT.bind_apply_eq_ok, resolve_apply_eq_ok,
    appendBasicBlockInContext_apply_eq_ok, getInsertBlock_apply_eq_ok,
    getBasicBlockTerminator_apply_eq_ok, positionBuilderAtEnd_apply_eq_ok] at h
  obtain ⟨n, _, ⟨r, hn, rfl⟩, _, _, ⟨rfl, rfl⟩, q, _, ⟨hq, rfl⟩, _, s₄, ⟨rfl, rfl⟩, _, s₅, hbr,
    rfl⟩ := h
  obtain rfl : q = p := Option.some.inj (hq.symm.trans hp)
  split at hbr
  · next ht =>
    obtain ⟨_, hb⟩ := discard_apply_eq_ok.mp hbr
    obtain ⟨q', hq', -, rfl⟩ := build_apply_eq_ok.mp hb
    obtain rfl : q' = q := Option.some.inj (hq'.symm.trans hq)
    exact ⟨⟨n, by simp [ht]⟩, rfl, ResolveIdent.getOrAddRaw_values hn⟩
  · next ht =>
    cases hbr
    exact ⟨⟨n, by simp [ht]⟩, rfl, ResolveIdent.getOrAddRaw_values hn⟩

/-- The exact effect of one statement, by its kind. -/
theorem emitStatement_lowers {ctx : MethodEmitContext} {s : EmitStatement}
    (hp : st.builder = some p) (h : emitStatement dbg ctx s st = .ok ((), st')) :
    (∃ v, s = .variable v ∧
      (∃ a, AllocaOf v a ∧ st'.module = st.module.appendInsts ctx.variablesBuilder [a]) ∧
      st'.builder = st.builder ∧
      st'.resolver.values = (v.name, .inst ctx.variablesBuilder.fn ctx.variablesBuilder.block
        (st.module.insts ctx.variablesBuilder).length) :: st.resolver.values) ∨
    (∃ l, s = .label l ∧
      (∃ name, st'.module = (st.module.appendBlock ctx.method name).appendInsts p
        (if ((st.module.appendBlock ctx.method name).terminator p).isNone
          then [.br (st.module.blocks ctx.method).length] else [])) ∧
      st'.builder = some ⟨ctx.method, (st.module.blocks ctx.method).length⟩ ∧
      st'.resolver.values = st.resolver.values) ∨
    ((∀ v, s ≠ .variable v) ∧ (∀ l, s ≠ .label l) ∧ LowersStep s p st st') := by
  cases s with
  | «variable» v => exact .inl ⟨v, rfl, emitVariable_lowers h⟩
  | label l => exact .inr (.inl ⟨l, rfl, emitLabel_lowers hp h⟩)
  | instruction i => exact .inr (.inr ⟨by simp, by simp, emitInstruction_lowers hp h⟩)
  | loadVar d => exact .inr (.inr ⟨by simp, by simp, emitLoadVariable_lowers hp h⟩)
  | storeVar d => exact .inr (.inr ⟨by simp, by simp, emitStoreVar_lowers hp h⟩)
  | conversion c => exact .inr (.inr ⟨by simp, by simp, emitConversion_lowers hp h⟩)
  | constant c => exact .inr (.inr ⟨by simp, by simp, emitConstant_lowers h⟩)
  | conditional | retValue | ptrAccess | repackVector | functionPointer | vectorAccess =>
    simp [emitStatement] at h

end Steps

/-! ## The run lemma -/

section Run

variable {pre : List Function} {f : Function} {b₀ cur : Block} {closed : List Block}

/-- The allocas block of a function laid out as its first block, the blocks closed since and the
    current block. -/
@[simp] theorem insts_first :
    (Llvm.Module.mk (pre ++ [{ f with blocks := b₀ :: closed ++ [cur] }])).insts ⟨pre.length, 0⟩ =
      b₀.insts := by
  simp [Module.insts]

/-- The current block of a function laid out as its first block, the blocks closed since and the
    current block. -/
@[simp] theorem insts_current :
    (Llvm.Module.mk (pre ++ [{ f with blocks := b₀ :: closed ++ [cur] }])).insts
      ⟨pre.length, closed.length + 1⟩ = cur.insts := by
  simp [Module.insts, List.getElem?_append_right]

/-- A label's question whether the current block ends in a terminator, asked once its own block is
    appended: a question about the current block's instructions. -/
theorem terminator_appendBlock_current (name : String) :
    ((Llvm.Module.mk (pre ++ [{ f with blocks := b₀ :: closed ++ [cur] }])).appendBlock pre.length
      name).terminator ⟨pre.length, closed.length + 1⟩ = Block.terminator ⟨"", cur.insts⟩ := by
  rw [Module.appendBlock_last]
  simp [Module.terminator, List.getElem?_append_right, List.getElem_append_right]
  rfl

/-- Over a whole body, the trace of what each statement emitted, ending at the values the emitter
    knows afterwards, and the blocks it leaves: the allocas block, with one alloca per declaration
    appended; the blocks closed before; the current block, with the module builder's instructions
    before the first label; one block per label. -/
theorem emitStatements_lowered {body : List EmitStatement} {st st' : EmitState}
    (hm : st.module = ⟨pre ++ [{ f with blocks := b₀ :: closed ++ [cur] }]⟩)
    (hb : st.builder = some ⟨pre.length, closed.length + 1⟩)
    (h : emitStatements dbg ⟨pre.length, ⟨pre.length, 0⟩⟩ body st = .ok ((), st')) :
    ∃ outs allocas bs pe,
      Lowered pre.length ⟨st.resolver.values, closed.length + 1, cur.insts, b₀.insts.length⟩ body
        outs pe ∧ st'.resolver.values = pe.vals ∧
      List.Forall₂ AllocaOf (variablesOf body) allocas ∧
      st'.module = ⟨pre ++ [{ f with blocks := bs }]⟩ ∧
      bs.map Block.insts = (b₀.insts ++ allocas) :: closed.map Block.insts ++
        (cur.insts ++ (segments (body.zip outs)).1) :: (segments (body.zip outs)).2 := by
  induction body generalizing st b₀ closed cur with
  | nil =>
    simp only [emitStatements, StateT.pure_apply, Except.ok.injEq, Prod.mk.injEq] at h
    obtain ⟨-, rfl⟩ := h
    exact ⟨[], [], _, _, rfl, rfl, .nil, hm, by simp [segments]⟩
  | cons s ss ih =>
    simp only [emitStatements, StateT.bind_apply_eq_ok] at h
    obtain ⟨_, st₁, hs, hss⟩ := h
    rcases emitStatement_lowers hb hs with
      ⟨v, rfl, ⟨a, ha, hm₁⟩, hb₁, hv₁⟩ | ⟨l, rfl, ⟨name, hm₁⟩, hb₁, hv₁⟩ |
        ⟨hv, hl, is, new, hlow, hm₁, hb₁, hv₁⟩
    · -- a declaration: its alloca is the allocas block's next instruction
      have hm₁' : st₁.module =
          ⟨pre ++ [{ f with blocks := { b₀ with insts := b₀.insts ++ [a] } :: closed ++ [cur] }]⟩ := by
        rw [hm₁, hm, Module.appendInsts_last]; rfl
      obtain ⟨outs, allocas, bs, pe, ho, hpe, ha', hm', hbs⟩ := ih hm₁' (hb₁.trans hb) hss
      rw [hv₁, hm, insts_first] at ho
      refine ⟨[] :: outs, a :: allocas, bs, pe, ⟨_, ⟨rfl, rfl⟩, by simpa using ho⟩, hpe, .cons ha ha',
        hm', ?_⟩
      rw [hbs, List.zip_cons_cons, segments_cons_of_ne _ _ fun _ h => Statement.noConfusion h]
      simp
    · -- a label: the current block is closed, with its branch unless it ends in a terminator
      rw [hm, terminator_appendBlock_current, Module.blocks_append] at hm₁
      generalize his : (if (Block.terminator ⟨"", cur.insts⟩).isNone
        then [Inst.br (b₀ :: closed ++ [cur]).length] else []) = is at hm₁
      have hm₁' : st₁.module = ⟨pre ++ [{ f with
          blocks := b₀ :: (closed ++ [{ cur with insts := cur.insts ++ is }]) ++ [⟨name, []⟩] }]⟩ := by
        rw [hm₁, Module.appendBlock_last, List.append_assoc, List.singleton_append,
          appendInsts_current]
        simp
      have hb₁' : st₁.builder =
          some ⟨pre.length, (closed ++ [{ cur with insts := cur.insts ++ is }]).length + 1⟩ := by
        rw [hb₁, hm, Module.blocks_append]; simp
      obtain ⟨outs, allocas, bs, pe, ho, hpe, ha', hm', hbs⟩ := ih hm₁' hb₁' hss
      rw [hv₁] at ho
      refine ⟨is :: outs, allocas, bs, pe, ⟨_, ⟨by simpa using his.symm, rfl⟩, by simpa using ho⟩,
        hpe, ha', hm', ?_⟩
      simp [hbs]
    · -- any other statement: its instructions go at the end of the current block
      have hm₁' : st₁.module =
          ⟨pre ++ [{ f with blocks := b₀ :: closed ++ [{ cur with insts := cur.insts ++ is }] }]⟩ := by
        rw [hm₁, hm, appendInsts_current]
      rw [hm, insts_current] at hlow
      obtain ⟨outs, allocas, bs, pe, ho, hpe, ha', hm', hbs⟩ := ih hm₁' (hb₁.trans hb) hss
      rw [hv₁] at ho
      refine ⟨is :: outs, allocas, bs, pe, ⟨_, lowersAt_of_lowers hv hl hlow, ho⟩, hpe, ?_, hm', ?_⟩
      · rwa [variablesOf_cons_of_ne _ hv]
      · rw [hbs, List.zip_cons_cons, segments_cons_of_ne _ _ hl]
        simp

/-- A body emitted into a function with no blocks yet: its trace from the real entry block, with
    no allocas yet, to the values known afterwards; the allocas block, one alloca per declaration and the branch to the real entry
    block; the real entry block; one block per label. -/
theorem emitBody_lowered {body : List EmitStatement} {st st' : EmitState}
    (hm : st.module = ⟨pre ++ [f]⟩) (hf : f.blocks = [])
    (h : emitBody dbg pre.length body st = .ok ((), st')) :
    ∃ outs allocas bs pe, Lowered pre.length ⟨st.resolver.values, 1, [], 0⟩ body outs pe ∧
      st'.resolver.values = pe.vals ∧ List.Forall₂ AllocaOf (variablesOf body) allocas ∧
      st'.module = ⟨pre ++ [{ f with blocks := bs }]⟩ ∧
      bs.map Block.insts = (allocas ++ [.br 1]) :: (segments (body.zip outs)).1 ::
        (segments (body.zip outs)).2 := by
  simp only [emitBody, StateT.bind_apply_eq_ok, appendBasicBlockInContext_apply_eq_ok,
    positionBuilderAtEnd_apply_eq_ok] at h
  obtain ⟨_, _, ⟨rfl, rfl⟩, _, _, ⟨rfl, rfl⟩, _, _, rfl, _, s₄, hbody, hbr⟩ := h
  obtain ⟨_, hbr⟩ := discard_apply_eq_ok.mp hbr
  obtain ⟨-, rfl⟩ := buildAt_apply_eq_ok.mp hbr
  have hf' : f = { f with blocks := [] } := by cases f; cases hf; rfl
  have hm₂ : ((st.module.appendBlock pre.length "").appendBlock pre.length "") =
      ⟨pre ++ [{ f with blocks := ⟨"", []⟩ :: [] ++ [⟨"", []⟩] }]⟩ := by
    rw [hm, hf', Module.appendBlock_last, Module.appendBlock_last]; rfl
  have hb₀ : (st.module.blocks pre.length).length = 0 := by simp [hm, hf]
  have hb₁ : ((st.module.appendBlock pre.length "").blocks pre.length).length = 1 := by
    rw [hm, hf', Module.appendBlock_last, Module.blocks_append]; rfl
  rw [hb₀, hb₁] at hbody ⊢
  obtain ⟨outs, allocas, bs, pe, ho, hpe, ha, hm', hbs⟩ := emitStatements_lowered hm₂ rfl hbody
  obtain ⟨b₀, bs, rfl⟩ : ∃ b₀ bs', bs = b₀ :: bs' := by
    cases bs with
    | nil => cases hbs
    | cons b₀ bs => exact ⟨b₀, bs, rfl⟩
  refine ⟨outs, allocas, { b₀ with insts := b₀.insts ++ [.br 1] } :: bs, pe, ho, hpe, ha, ?_, ?_⟩
  · rw [hm', Module.appendInsts_last]; rfl
  · simp only [List.map_cons, List.cons.injEq] at hbs ⊢
    simpa using hbs

end Run

/-- A method emitted with a body: its function added as the module's last, and the body's trace
    from the real entry block, starting from the values the header leaves (the parameters, the
    device function's own identifier, and what was known before) and ending at the values known
    afterwards; the blocks as in `emitMethod_blocks`. -/
theorem emitMethod_lowered {idDefs : List (SpirvWord × IdentEntry)}
    {method : Function2 EmitStatement} {body : List EmitStatement} {st st' : EmitState}
    (hbody : method.body = some body) (h : emitMethod dbg idDefs method st = .ok ((), st')) :
    ∃ f outs allocas pe, st'.module.functions = st.module.functions ++ [f] ∧
      Lowered st.module.functions.length
        ⟨paramBindings st.module.functions.length 0 method.funcDecl.inputArguments ++
          selfBinding method.funcDecl.name st.module.functions.length ++ st.resolver.values,
          1, [], 0⟩ body outs pe ∧ st'.resolver.values = pe.vals ∧
      List.Forall₂ AllocaOf (variablesOf body) allocas ∧
      f.blocks.map Block.insts = (allocas ++ [.br 1]) :: (segments (body.zip outs)).1 ::
        (segments (body.zip outs)).2 := by
  obtain ⟨-, f₀, st₃, -, hm₃, -, -, hb₀, -, -, -, hv₃, -, hbody', -⟩ := emitMethod_header h
  obtain ⟨outs, allocas, bs, pe, ho, hpe, ha, hm', hbs⟩ :=
    emitBody_lowered hm₃ hb₀ (hbody' body hbody)
  rw [hv₃] at ho
  exact ⟨{ f₀ with blocks := bs }, outs, allocas, pe, by rw [hm'], ho, hpe, ha, hbs⟩

end ZludaPtx.EmitLlvm
