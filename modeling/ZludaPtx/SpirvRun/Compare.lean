import ZludaPtx.SpirvRun.EqMap
import Mathlib.Data.List.Zip

/-!
# Comparing SPIR-V functions up to their ids

`test_spvtxt_assert` checks the SPIR-V the compiler emits against a hand-written module with
`is_spirv_fns_equal`, function by function, each with a fresh `EqMap`.  Opcodes, the presence of
result types and ids, the numbers of operands, parameters, blocks and instructions, and every
operand that is not an id must agree; ids must follow one renaming.  `is_option_equal` panics
when one side has an optional instruction or id and the other does not.

The specification is the relation `Function.Renamed ρ`: the second function is the first with
every id renamed by `ρ` and every other operand equal to its counterpart as the operand type's
`PartialEq` compares it.  Every comparison function is proved sound (an accepted comparison
records, in the `EqMap`, a renaming under which its arguments are related: `Accepted`) and
complete (on the way of a renaming injective on the first function's ids, it accepts: `Follows`).
At the top, `is_spirv_fn_equal` answers `true` exactly when some renaming injective on the first
function's ids relates the two functions.

## Key results

- `isSpirvFnEqual_eq_true_iff`: `is_spirv_fn_equal` accepts exactly the renamed copies
- `isSpirvFnsEqual_eq_true_iff`: `is_spirv_fns_equal` accepts function by function, each with a
  renaming of its own
- `isSpirvFnEqual_self_iff`: a function passes against itself exactly when each of its
  operands that is not an id equals itself
- `isSpirvFnsEqual_comm`: its answer, a panic included, does not depend on the order of the two
  lists
- `isSpirvFnsEqual_trans`: two lists that pass against a third pass against each other
-/

namespace ZludaPtx.SpirvRun

/-- `spirv_headers::Word`. -/
abbrev Word := UInt32

/-- `rspirv::dr::Operand`, as the comparison sees it: the three kinds of id it renames, and every
    other operand as a value of `L`, compared as the derived `PartialEq` compares the payloads. -/
inductive Operand (L : Type) where
  | idMemorySemantics (w : Word)
  | idScope (w : Word)
  | idRef (w : Word)
  | other (value : L)
  deriving BEq

/-- `rspirv::dr::Instruction`: the opcode of its `class`, the optional result type and result id,
    and the operands. -/
structure Instruction (L : Type) where
  opcode : Nat
  resultType : Option Word
  resultId : Option Word
  operands : List (Operand L)

/-- `rspirv::dr::Block`. -/
structure Block (L : Type) where
  label : Option (Instruction L)
  instructions : List (Instruction L)

/-- `rspirv::dr::Function`: its `OpFunction` (`def`) and `OpFunctionEnd` (`end`), its
    parameters and its blocks. -/
structure Function (L : Type) where
  def_ : Option (Instruction L)
  end_ : Option (Instruction L)
  parameters : List (Instruction L)
  blocks : List (Block L)

/-- The comparison functions thread the `EqMap` and may `panic!()`. -/
abbrev EqM := StateT (EqMap Word) Option

variable {L : Type} [BEq L]

/-- `if !check { return false; } rest`: `rest` runs only after `check` answered `true`; a `false`
    or a panic of `check` is the answer. -/
def checkThen (check rest : EqM Bool) : EqM Bool := fun m =>
  match check m with
  | some (true, m₁) => rest m₁
  | r => r

/-- `is_word_equal`. -/
def isWordEqual (t1 t2 : Word) : EqM Bool := fun m => some (m.isEqual t1 t2)

/-- `is_option_equal`: `panic!()` when only one side is present. -/
def isOptionEqual {β : Type} (o1 o2 : Option β) (f : β → β → EqM Bool) : EqM Bool :=
  match o1, o2 with
  | some t1, some t2 => f t1 t2
  | none, none => pure true
  | _, _ => fun _ => none

/-- The loops over two zipped slices: `f` on each pair in order, returning `false` at the first
    pair it rejects. -/
def allEqual {β : Type} (f : β → β → EqM Bool) : List β → List β → EqM Bool
  | x :: xs, y :: ys => checkThen (f x y) (allEqual f xs ys)
  | _, _ => pure true

/-- One operand of `is_instr_equal`: ids of one kind through `is_word_equal`, anything else with
    `!=`. -/
def isOperandEqual : Operand L → Operand L → EqM Bool
  | .idMemorySemantics w1, .idMemorySemantics w2 => isWordEqual w1 w2
  | .idScope w1, .idScope w2 => isWordEqual w1 w2
  | .idRef w1, .idRef w2 => isWordEqual w1 w2
  | o1, o2 => pure (o1 == o2)

/-- `is_instr_equal`. -/
def isInstrEqual (instr1 instr2 : Instruction L) : EqM Bool :=
  if instr1.opcode != instr2.opcode then pure false else
  checkThen (isOptionEqual instr1.resultType instr2.resultType isWordEqual) <|
  checkThen (isOptionEqual instr1.resultId instr2.resultId isWordEqual) <|
  if instr1.operands.length != instr2.operands.length then pure false else
  allEqual isOperandEqual instr1.operands instr2.operands

/-- `is_block_equal`. -/
def isBlockEqual (b1 b2 : Block L) : EqM Bool :=
  checkThen (isOptionEqual b1.label b2.label isInstrEqual) <|
  if b1.instructions.length != b2.instructions.length then pure false else
  allEqual isInstrEqual b1.instructions b2.instructions

/-- The checks of `is_spirv_fn_equal`, on the map they are given. -/
def isSpirvFnEqualWith (fn1 fn2 : Function L) : EqM Bool :=
  checkThen (isOptionEqual fn1.def_ fn2.def_ isInstrEqual) <|
  checkThen (isOptionEqual fn1.end_ fn2.end_ isInstrEqual) <|
  if fn1.parameters.length != fn2.parameters.length then pure false else
  checkThen (allEqual isInstrEqual fn1.parameters fn2.parameters) <|
  if fn1.blocks.length != fn2.blocks.length then pure false else
  allEqual isBlockEqual fn1.blocks fn2.blocks

/-- `is_spirv_fn_equal`: its checks from `EqMap::new`; `none` is a panic. -/
def isSpirvFnEqual (fn1 fn2 : Function L) : Option Bool :=
  Prod.fst <$> isSpirvFnEqualWith fn1 fn2 EqMap.new

/-- The loop of `is_spirv_fns_equal` over the zipped functions. -/
def isSpirvFnsEqualLoop : List (Function L × Function L) → Option Bool
  | [] => some true
  | (fn1, fn2) :: rest =>
    match isSpirvFnEqual fn1 fn2 with
    | some true => isSpirvFnsEqualLoop rest
    | r => r

/-- `is_spirv_fns_equal`. -/
def isSpirvFnsEqual (fns1 fns2 : List (Function L)) : Option Bool :=
  if fns1.length != fns2.length then some false else isSpirvFnsEqualLoop (fns1.zip fns2)

/-! ## Renamed copies -/

/-- The ids of an operand. -/
def Operand.ids : Operand L → List Word
  | .idMemorySemantics w | .idScope w | .idRef w => [w]
  | .other _ => []

/-- `o₂` is `o₁` with its id renamed by `ρ`; an operand that is not an id equals its counterpart
    by `L`'s equality. -/
def Operand.Renamed (ρ : Word → Word) : Operand L → Operand L → Prop
  | .idMemorySemantics a, .idMemorySemantics b => ρ a = b
  | .idScope a, .idScope b => ρ a = b
  | .idRef a, .idRef b => ρ a = b
  | .other l₁, .other l₂ => (l₁ == l₂) = true
  | _, _ => False

/-- The ids of an instruction: its result type and id, then its operands'. -/
def Instruction.ids (i : Instruction L) : List Word :=
  i.resultType.toList ++ i.resultId.toList ++ i.operands.flatMap Operand.ids

/-- `i₂` is `i₁` with every id renamed by `ρ`. -/
structure Instruction.Renamed (ρ : Word → Word) (i₁ i₂ : Instruction L) : Prop where
  opcode : i₁.opcode = i₂.opcode
  resultType : Option.Rel (fun a b => ρ a = b) i₁.resultType i₂.resultType
  resultId : Option.Rel (fun a b => ρ a = b) i₁.resultId i₂.resultId
  operands : List.Forall₂ (Operand.Renamed ρ) i₁.operands i₂.operands

/-- The ids of a block: its label's, then its instructions'. -/
def Block.ids (b : Block L) : List Word :=
  b.label.toList.flatMap Instruction.ids ++ b.instructions.flatMap Instruction.ids

/-- `b₂` is `b₁` with every id renamed by `ρ`. -/
structure Block.Renamed (ρ : Word → Word) (b₁ b₂ : Block L) : Prop where
  label : Option.Rel (Instruction.Renamed ρ) b₁.label b₂.label
  instructions : List.Forall₂ (Instruction.Renamed ρ) b₁.instructions b₂.instructions

/-- The ids of a function. -/
def Function.ids (f : Function L) : List Word :=
  f.def_.toList.flatMap Instruction.ids ++ f.end_.toList.flatMap Instruction.ids ++
    f.parameters.flatMap Instruction.ids ++ f.blocks.flatMap Block.ids

/-- `f₂` is `f₁` with every id renamed by `ρ`. -/
structure Function.Renamed (ρ : Word → Word) (f₁ f₂ : Function L) : Prop where
  def_ : Option.Rel (Instruction.Renamed ρ) f₁.def_ f₂.def_
  end_ : Option.Rel (Instruction.Renamed ρ) f₁.end_ f₂.end_
  parameters : List.Forall₂ (Instruction.Renamed ρ) f₁.parameters f₂.parameters
  blocks : List.Forall₂ (Block.Renamed ρ) f₁.blocks f₂.blocks

/-! ## Soundness and completeness, level by level -/

section Levels

variable {β : Type} {m m₁ m' : EqMap Word} {ρ : Word → Word} {s : List Word}

/-- An accepted comparison from `m` to `m'`: the maps stay inverse, keep every recorded pair and
    record every id of `ids`, and `R` holds of every renaming that agrees with them. -/
structure Accepted (ids : List Word) (R : (Word → Word) → Prop) (m m' : EqMap Word) : Prop where
  wf : m'.Wf
  sub : m.Sub m'
  recorded : ∀ a ∈ ids, (m'.m1.lookup a).isSome
  renamed : ∀ ρ, m'.Agrees ρ → R ρ

theorem Accepted.refl {R : (Word → Word) → Prop} (h : m.Wf) (hR : ∀ ρ, R ρ) :
    Accepted [] R m m :=
  ⟨h, EqMap.Sub.refl m, by simp, fun ρ _ => hR ρ⟩

theorem Accepted.trans {ids₁ ids₂ : List Word} {R₁ R₂ : (Word → Word) → Prop}
    (h₁ : Accepted ids₁ R₁ m m₁) (h₂ : Accepted ids₂ R₂ m₁ m') :
    Accepted (ids₁ ++ ids₂) (fun ρ => R₁ ρ ∧ R₂ ρ) m m' where
  wf := h₂.wf
  sub := h₁.sub.trans h₂.sub
  recorded a ha := by
    rcases List.mem_append.mp ha with ha | ha
    · obtain ⟨b, hb⟩ := Option.isSome_iff_exists.mp (h₁.recorded a ha)
      rw [h₂.sub a b hb]; rfl
    · exact h₂.recorded a ha
  renamed ρ hρ := ⟨h₁.renamed ρ (hρ.mono h₂.sub), h₂.renamed ρ hρ⟩

theorem Accepted.imp {ids ids' : List Word} {R R' : (Word → Word) → Prop}
    (h : Accepted ids R m m') (hids : ∀ a ∈ ids', a ∈ ids) (hR : ∀ ρ, R ρ → R' ρ) :
    Accepted ids' R' m m' :=
  ⟨h.wf, h.sub, fun a ha => h.recorded a (hids a ha), fun ρ hρ => hR ρ (h.renamed ρ hρ)⟩

/-- A comparison state on the way of the renaming `ρ`: the maps inverse, `ρ` agreeing with them,
    and every recorded id among `s`. -/
structure Follows (ρ : Word → Word) (s : List Word) (m : EqMap Word) : Prop where
  wf : m.Wf
  agrees : m.Agrees ρ
  recordedIn : m.RecordedIn s

/-- `cmp` is sound for `R`: an accepted comparison establishes `R` under every renaming that
    agrees with the map it leaves. -/
def Sound (cmp : β → β → EqM Bool) (ids : β → List Word) (R : (Word → Word) → β → β → Prop) :
    Prop :=
  ∀ x y m m', m.Wf → cmp x y m = some (true, m') → Accepted (ids x) (fun ρ => R ρ x y) m m'

/-- `cmp` is complete for `R` along `ρ` within `s`: from a state on the way of `ρ`, it accepts
    every pair `R ρ` relates whose first side has its ids in `s`. -/
def Complete (ρ : Word → Word) (s : List Word) (cmp : β → β → EqM Bool) (ids : β → List Word)
    (R : (Word → Word) → β → β → Prop) : Prop :=
  ∀ x y m, Follows ρ s m → (∀ a ∈ ids x, a ∈ s) → R ρ x y →
    ∃ m', cmp x y m = some (true, m') ∧ Follows ρ s m'

@[simp] theorem pure_apply (b : Bool) (m : EqMap Word) : (pure b : EqM Bool) m = some (b, m) :=
  rfl

theorem checkThen_eq_true {check rest : EqM Bool} :
    checkThen check rest m = some (true, m') ↔
      ∃ m₁, check m = some (true, m₁) ∧ rest m₁ = some (true, m') := by
  unfold checkThen
  rcases h : check m with _ | ⟨_ | _, m₁⟩ <;> simp

theorem ite_apply_eq_true {c : Bool} {rest : EqM Bool} :
    (if c then pure false else rest) m = some (true, m') ↔ c = false ∧ rest m = some (true, m') := by
  cases c <;> simp

theorem isWordEqual_sound : Sound isWordEqual (fun a => [a]) (fun ρ a b => ρ a = b) := by
  intro a b m m' h he
  obtain ⟨hw, hs, hab⟩ := EqMap.isEqual_sound h (Option.some.inj he)
  exact ⟨hw, hs, fun x hx => by rw [List.mem_singleton.mp hx, hab]; rfl, fun ρ hρ => hρ a b hab⟩

theorem isWordEqual_complete (hinj : Set.InjOn ρ {a | a ∈ s}) :
    Complete ρ s isWordEqual (fun a => [a]) (fun ρ a b => ρ a = b) := by
  rintro a b m ⟨hw, hρ, hrec⟩ ha rfl
  obtain ⟨m', he, hρ', hrec'⟩ :=
    EqMap.isEqual_of_agrees hw hρ hrec (ha a (List.mem_singleton_self a)) hinj
  exact ⟨m', congrArg some he, by simpa [he] using EqMap.isEqual_wf hw a (ρ a), hρ', hrec'⟩

theorem isOptionEqual_sound {f : β → β → EqM Bool} {ids : β → List Word}
    {R : (Word → Word) → β → β → Prop} (hf : Sound f ids R) :
    Sound (fun o₁ o₂ => isOptionEqual o₁ o₂ f) (fun o => o.toList.flatMap ids)
      (fun ρ => Option.Rel (R ρ)) := by
  rintro (_ | x) (_ | y) m m' h he <;> simp only [isOptionEqual] at he
  · obtain rfl : m = m' := (Prod.mk.inj (Option.some.inj he)).2
    exact Accepted.refl h fun _ => .none
  · cases he
  · cases he
  · exact (hf x y m m' h he).imp (by simp) fun _ => .some

theorem isOptionEqual_complete {f : β → β → EqM Bool} {ids : β → List Word}
    {R : (Word → Word) → β → β → Prop} (hf : Complete ρ s f ids R) :
    Complete ρ s (fun o₁ o₂ => isOptionEqual o₁ o₂ f) (fun o => o.toList.flatMap ids)
      (fun ρ => Option.Rel (R ρ)) := by
  rintro o₁ o₂ m hm hids (hr | _)
  · exact hf _ _ m hm (fun a ha => hids a (by simpa using ha)) hr
  · exact ⟨m, rfl, hm⟩

theorem allEqual_sound {f : β → β → EqM Bool} {ids : β → List Word}
    {R : (Word → Word) → β → β → Prop} (hf : Sound f ids R) :
    ∀ {xs ys : List β} {m m' : EqMap Word}, xs.length = ys.length → m.Wf →
      allEqual f xs ys m = some (true, m') →
      Accepted (xs.flatMap ids) (fun ρ => List.Forall₂ (R ρ) xs ys) m m'
  | [], [], m, m', _, h, he => by
    obtain rfl : m = m' := (Prod.mk.inj (Option.some.inj he)).2
    exact Accepted.refl h fun _ => .nil
  | x :: xs, y :: ys, m, m', hl, h, he => by
    obtain ⟨m₁, h₁, h₂⟩ := checkThen_eq_true.mp he
    have a₁ := hf x y m m₁ h h₁
    exact (a₁.trans (allEqual_sound hf (Nat.succ.inj hl) a₁.wf h₂)).imp (by simp)
      fun _ ⟨r, rs⟩ => .cons r rs
  | [], _ :: _, _, _, hl, _, _ => by cases hl
  | _ :: _, [], _, _, hl, _, _ => by cases hl

theorem allEqual_complete {f : β → β → EqM Bool} {ids : β → List Word}
    {R : (Word → Word) → β → β → Prop} (hf : Complete ρ s f ids R) :
    ∀ {xs ys : List β} {m : EqMap Word}, List.Forall₂ (R ρ) xs ys → Follows ρ s m →
      (∀ a ∈ xs.flatMap ids, a ∈ s) → ∃ m', allEqual f xs ys m = some (true, m') ∧ Follows ρ s m'
  | _, _, m, .nil, hm, _ => ⟨m, rfl, hm⟩
  | x :: xs, y :: ys, m, .cons hr hrs, hm, hids => by
    obtain ⟨m₁, h₁, hm₁⟩ := hf x y m hm (fun a ha => hids a (by simp [ha])) hr
    obtain ⟨m', h₂, hm'⟩ := allEqual_complete hf hrs hm₁ (fun a ha => hids a (by simp [ha]))
    exact ⟨m', checkThen_eq_true.mpr ⟨m₁, h₁, h₂⟩, hm'⟩

end Levels

/-! ## Operands, instructions, blocks and functions -/

section Instructions

variable {ρ : Word → Word} {s : List Word}

/-- The derived `PartialEq` compares two non-id operands by their payloads. -/
@[simp] theorem Operand.other_beq_other (l₁ l₂ : L) :
    (Operand.other l₁ == Operand.other l₂) = (l₁ == l₂) :=
  rfl

theorem isOperandEqual_sound : Sound (isOperandEqual (L := L)) Operand.ids Operand.Renamed := by
  intro o₁ o₂ m m' h he
  cases o₁ <;> cases o₂ <;> simp only [isOperandEqual] at he <;>
    first
    | exact isWordEqual_sound _ _ m m' h he
    | obtain ⟨hb, rfl⟩ := Prod.mk.inj (Option.some.inj he)
      first
      | exact Accepted.refl h fun _ => hb
      | cases hb

theorem isOperandEqual_complete (hinj : Set.InjOn ρ {a | a ∈ s}) :
    Complete ρ s (isOperandEqual (L := L)) Operand.ids Operand.Renamed := by
  intro o₁ o₂ m hm hids hr
  cases o₁ <;> cases o₂ <;> simp only [Operand.Renamed] at hr <;>
    first
    | exact isWordEqual_complete hinj _ _ m hm hids hr
    | exact ⟨m, by simp [isOperandEqual, hr], hm⟩

theorem isInstrEqual_sound : Sound (isInstrEqual (L := L)) Instruction.ids Instruction.Renamed := by
  intro i₁ i₂ m m' h he
  simp only [isInstrEqual, ite_apply_eq_true, bne_eq_false_iff_eq, checkThen_eq_true] at he
  obtain ⟨hop, m₁, h₁, m₂, h₂, hlen, h₃⟩ := he
  have a₁ := isOptionEqual_sound isWordEqual_sound _ _ m m₁ h h₁
  have a₂ := isOptionEqual_sound isWordEqual_sound _ _ m₁ m₂ a₁.wf h₂
  have a₃ := allEqual_sound isOperandEqual_sound hlen a₂.wf h₃
  exact ((a₁.trans a₂).trans a₃).imp (by simp [Instruction.ids])
    fun _ ⟨⟨r₁, r₂⟩, r₃⟩ => ⟨hop, r₁, r₂, r₃⟩

theorem isInstrEqual_complete (hinj : Set.InjOn ρ {a | a ∈ s}) :
    Complete ρ s (isInstrEqual (L := L)) Instruction.ids Instruction.Renamed := by
  intro i₁ i₂ m hm hids ⟨hop, r₁, r₂, r₃⟩
  have hids' : ∀ a ∈ i₁.ids, a ∈ s := hids
  simp only [Instruction.ids, List.mem_append] at hids'
  obtain ⟨m₁, h₁, hm₁⟩ := isOptionEqual_complete (isWordEqual_complete hinj) _ _ m hm
    (fun a ha => hids' a (.inl (.inl (by simpa using ha)))) r₁
  obtain ⟨m₂, h₂, hm₂⟩ := isOptionEqual_complete (isWordEqual_complete hinj) _ _ m₁ hm₁
    (fun a ha => hids' a (.inl (.inr (by simpa using ha)))) r₂
  obtain ⟨m', h₃, hm'⟩ := allEqual_complete (isOperandEqual_complete hinj) r₃ hm₂
    (fun a ha => hids' a (.inr ha))
  refine ⟨m', ?_, hm'⟩
  simp only [isInstrEqual, ite_apply_eq_true, bne_eq_false_iff_eq, checkThen_eq_true]
  exact ⟨hop, m₁, h₁, m₂, h₂, r₃.length_eq, h₃⟩

theorem isBlockEqual_sound : Sound (isBlockEqual (L := L)) Block.ids Block.Renamed := by
  intro b₁ b₂ m m' h he
  simp only [isBlockEqual, ite_apply_eq_true, bne_eq_false_iff_eq, checkThen_eq_true] at he
  obtain ⟨m₁, h₁, hlen, h₂⟩ := he
  have a₁ := isOptionEqual_sound isInstrEqual_sound _ _ m m₁ h h₁
  exact (a₁.trans (allEqual_sound isInstrEqual_sound hlen a₁.wf h₂)).imp (by simp [Block.ids])
    fun _ ⟨r₁, r₂⟩ => ⟨r₁, r₂⟩

theorem isBlockEqual_complete (hinj : Set.InjOn ρ {a | a ∈ s}) :
    Complete ρ s (isBlockEqual (L := L)) Block.ids Block.Renamed := by
  intro b₁ b₂ m hm hids ⟨r₁, r₂⟩
  have hids' : ∀ a ∈ b₁.ids, a ∈ s := hids
  simp only [Block.ids, List.mem_append] at hids'
  obtain ⟨m₁, h₁, hm₁⟩ := isOptionEqual_complete (isInstrEqual_complete hinj) _ _ m hm
    (fun a ha => hids' a (.inl ha)) r₁
  obtain ⟨m', h₂, hm'⟩ := allEqual_complete (isInstrEqual_complete hinj) r₂ hm₁
    (fun a ha => hids' a (.inr ha))
  refine ⟨m', ?_, hm'⟩
  simp only [isBlockEqual, ite_apply_eq_true, bne_eq_false_iff_eq, checkThen_eq_true]
  exact ⟨m₁, h₁, r₂.length_eq, h₂⟩

theorem isSpirvFnEqualWith_sound :
    Sound (isSpirvFnEqualWith (L := L)) Function.ids Function.Renamed := by
  intro f₁ f₂ m m' h he
  simp only [isSpirvFnEqualWith, ite_apply_eq_true, bne_eq_false_iff_eq, checkThen_eq_true] at he
  obtain ⟨m₁, h₁, m₂, h₂, hlp, m₃, h₃, hlb, h₄⟩ := he
  have a₁ := isOptionEqual_sound isInstrEqual_sound _ _ m m₁ h h₁
  have a₂ := isOptionEqual_sound isInstrEqual_sound _ _ m₁ m₂ a₁.wf h₂
  have a₃ := allEqual_sound isInstrEqual_sound hlp a₂.wf h₃
  have a₄ := allEqual_sound isBlockEqual_sound hlb a₃.wf h₄
  exact (((a₁.trans a₂).trans a₃).trans a₄).imp (by simp [Function.ids])
    fun _ ⟨⟨⟨r₁, r₂⟩, r₃⟩, r₄⟩ => ⟨r₁, r₂, r₃, r₄⟩

theorem isSpirvFnEqualWith_complete (hinj : Set.InjOn ρ {a | a ∈ s}) :
    Complete ρ s (isSpirvFnEqualWith (L := L)) Function.ids Function.Renamed := by
  intro f₁ f₂ m hm hids ⟨r₁, r₂, r₃, r₄⟩
  have hids' : ∀ a ∈ f₁.ids, a ∈ s := hids
  simp only [Function.ids, List.mem_append] at hids'
  obtain ⟨m₁, h₁, hm₁⟩ := isOptionEqual_complete (isInstrEqual_complete hinj) _ _ m hm
    (fun a ha => hids' a (.inl (.inl (.inl ha)))) r₁
  obtain ⟨m₂, h₂, hm₂⟩ := isOptionEqual_complete (isInstrEqual_complete hinj) _ _ m₁ hm₁
    (fun a ha => hids' a (.inl (.inl (.inr ha)))) r₂
  obtain ⟨m₃, h₃, hm₃⟩ := allEqual_complete (isInstrEqual_complete hinj) r₃ hm₂
    (fun a ha => hids' a (.inl (.inr ha)))
  obtain ⟨m', h₄, hm'⟩ := allEqual_complete (isBlockEqual_complete hinj) r₄ hm₃
    (fun a ha => hids' a (.inr ha))
  refine ⟨m', ?_, hm'⟩
  simp only [isSpirvFnEqualWith, ite_apply_eq_true, bne_eq_false_iff_eq, checkThen_eq_true]
  exact ⟨m₁, h₁, m₂, h₂, r₃.length_eq, m₃, h₃, r₄.length_eq, h₄⟩

end Instructions

/-! ## The test oracle -/

/-- `is_spirv_fn_equal` answers `true`, without panicking, exactly when the second function is the
    first with its ids renamed by a function injective on the first function's ids, every other
    operand equal to its counterpart by its own equality. -/
theorem isSpirvFnEqual_eq_true_iff (fn₁ fn₂ : Function L) :
    isSpirvFnEqual fn₁ fn₂ = some true ↔
      ∃ ρ : Word → Word, Set.InjOn ρ {a | a ∈ fn₁.ids} ∧ fn₁.Renamed ρ fn₂ := by
  constructor
  · intro h
    obtain ⟨⟨b, m'⟩, he, hb⟩ := Option.map_eq_some'.mp h
    obtain rfl : b = true := hb
    have acc := isSpirvFnEqualWith_sound fn₁ fn₂ _ _ EqMap.new_wf he
    have hlook : ∀ a ∈ fn₁.ids, m'.m1.lookup a = some ((m'.m1.lookup a).getD a) := fun a ha => by
      obtain ⟨c, hc⟩ := Option.isSome_iff_exists.mp (acc.recorded a ha)
      simp [hc]
    refine ⟨fun a => (m'.m1.lookup a).getD a, fun a ha b hb hab => ?_,
      acc.renamed _ fun a b h => by simp [h]⟩
    exact acc.wf.injective (hlook a ha) ((hlook b hb).trans (congrArg some hab.symm))
  · rintro ⟨ρ, hinj, hr⟩
    obtain ⟨m', he, -⟩ := isSpirvFnEqualWith_complete hinj fn₁ fn₂ EqMap.new
      ⟨EqMap.new_wf, EqMap.new_agrees ρ, EqMap.new_recordedIn _⟩ (fun _ ha => ha) hr
    show Option.map Prod.fst _ = _
    rw [he]
    rfl

theorem isSpirvFnsEqualLoop_eq_true_iff (ps : List (Function L × Function L)) :
    isSpirvFnsEqualLoop ps = some true ↔ ∀ p ∈ ps, isSpirvFnEqual p.1 p.2 = some true := by
  induction ps with
  | nil => simp [isSpirvFnsEqualLoop]
  | cons p ps ih =>
    obtain ⟨f₁, f₂⟩ := p
    simp only [isSpirvFnsEqualLoop, List.mem_cons, forall_eq_or_imp]
    rcases h : isSpirvFnEqual f₁ f₂ with _ | _ | _ <;> simp [ih]

/-- `is_spirv_fns_equal` answers `true` exactly when the lists have equal lengths and
    `is_spirv_fn_equal` answers `true` on every pair. -/
theorem isSpirvFnsEqual_eq_true_iff_forall₂ (fns₁ fns₂ : List (Function L)) :
    isSpirvFnsEqual fns₁ fns₂ = some true ↔
      List.Forall₂ (fun f₁ f₂ => isSpirvFnEqual f₁ f₂ = some true) fns₁ fns₂ := by
  rw [List.forall₂_iff_zip]
  by_cases hl : fns₁.length = fns₂.length
  · simp only [isSpirvFnsEqual, hl, bne_self_eq_false, Bool.false_eq_true, ↓reduceIte,
      isSpirvFnsEqualLoop_eq_true_iff, true_and]
    exact ⟨fun h a b hab => h (a, b) hab, fun h p hp => h hp⟩
  · simp [isSpirvFnsEqual, hl]

/-- `is_spirv_fns_equal` answers `true`, without panicking, exactly when the two lists have equal
    lengths and each function of the second is its counterpart of the first renamed, each pair
    with a renaming of its own. -/
theorem isSpirvFnsEqual_eq_true_iff (fns₁ fns₂ : List (Function L)) :
    isSpirvFnsEqual fns₁ fns₂ = some true ↔
      List.Forall₂ (fun f₁ f₂ => ∃ ρ : Word → Word, Set.InjOn ρ {a | a ∈ f₁.ids} ∧
        f₁.Renamed ρ f₂) fns₁ fns₂ := by
  rw [isSpirvFnsEqual_eq_true_iff_forall₂]
  exact ⟨(·.imp fun a b => (isSpirvFnEqual_eq_true_iff a b).mp),
    (·.imp fun a b => (isSpirvFnEqual_eq_true_iff a b).mpr)⟩

/-! ## A function against itself -/

/-- The operands of an instruction that are not ids, in order. -/
def Instruction.literals (i : Instruction L) : List L :=
  i.operands.flatMap fun
    | .other l => [l]
    | _ => []

/-- The operands of a block that are not ids. -/
def Block.literals (b : Block L) : List L :=
  b.label.toList.flatMap Instruction.literals ++ b.instructions.flatMap Instruction.literals

/-- The operands of a function that are not ids. -/
def Function.literals (f : Function L) : List L :=
  f.def_.toList.flatMap Instruction.literals ++ f.end_.toList.flatMap Instruction.literals ++
    f.parameters.flatMap Instruction.literals ++ f.blocks.flatMap Block.literals

section Self

variable {ρ : Word → Word} {γ : Type} {R : γ → γ → Prop} {lits : γ → List L}

theorem beq_self_of_forall₂ {xs : List γ} (h : List.Forall₂ R xs xs)
    (hR : ∀ x, R x x → ∀ l ∈ lits x, (l == l) = true) : ∀ l ∈ xs.flatMap lits, (l == l) = true := by
  intro l hl
  obtain ⟨x, hx, hl⟩ := List.mem_flatMap.mp hl
  exact hR x (List.forall₂_same.mp h x hx) l hl

theorem beq_self_of_rel {o : Option γ} (h : Option.Rel R o o)
    (hR : ∀ x, R x x → ∀ l ∈ lits x, (l == l) = true) :
    ∀ l ∈ o.toList.flatMap lits, (l == l) = true := by
  cases h with
  | none => simp
  | some hx => simpa using hR _ hx

theorem Instruction.Renamed.beq_self {i : Instruction L} (h : i.Renamed ρ i) :
    ∀ l ∈ i.literals, (l == l) = true :=
  beq_self_of_forall₂ h.operands fun o ho l hl => by
    cases o <;> simp_all [Operand.Renamed]

theorem Block.Renamed.beq_self {b : Block L} (h : b.Renamed ρ b) :
    ∀ l ∈ b.literals, (l == l) = true := by
  simp only [Block.literals, List.mem_append]
  rintro l (hl | hl)
  · exact beq_self_of_rel h.label (fun _ => Instruction.Renamed.beq_self) l hl
  · exact beq_self_of_forall₂ h.instructions (fun _ => Instruction.Renamed.beq_self) l hl

theorem Function.Renamed.beq_self {f : Function L} (h : f.Renamed ρ f) :
    ∀ l ∈ f.literals, (l == l) = true := by
  simp only [Function.literals, List.mem_append]
  rintro l (((hl | hl) | hl) | hl)
  · exact beq_self_of_rel h.def_ (fun _ => Instruction.Renamed.beq_self) l hl
  · exact beq_self_of_rel h.end_ (fun _ => Instruction.Renamed.beq_self) l hl
  · exact beq_self_of_forall₂ h.parameters (fun _ => Instruction.Renamed.beq_self) l hl
  · exact beq_self_of_forall₂ h.blocks (fun _ => Block.Renamed.beq_self) l hl

theorem forall₂_self {xs : List γ} (hR : ∀ x ∈ xs, (∀ l ∈ lits x, (l == l) = true) → R x x)
    (h : ∀ l ∈ xs.flatMap lits, (l == l) = true) : List.Forall₂ R xs xs :=
  List.forall₂_same.mpr fun x hx =>
    hR x hx fun l hl => h l (List.mem_flatMap.mpr ⟨x, hx, hl⟩)

theorem rel_self {o : Option γ} (hR : ∀ x ∈ o, (∀ l ∈ lits x, (l == l) = true) → R x x)
    (h : ∀ l ∈ o.toList.flatMap lits, (l == l) = true) : Option.Rel R o o := by
  cases o with
  | none => exact .none
  | some x => exact .some (hR x rfl fun l hl => h l (by simpa using hl))

theorem Instruction.renamed_id {i : Instruction L} (h : ∀ l ∈ i.literals, (l == l) = true) :
    i.Renamed id i where
  opcode := rfl
  resultType := by cases i.resultType <;> constructor; rfl
  resultId := by cases i.resultId <;> constructor; rfl
  operands := forall₂_self (fun o _ ho => by cases o <;> simp_all [Operand.Renamed]) h

theorem Block.renamed_id {b : Block L} (h : ∀ l ∈ b.literals, (l == l) = true) :
    b.Renamed id b where
  label := rel_self (fun _ _ => Instruction.renamed_id)
    fun l hl => h l (List.mem_append_left _ hl)
  instructions := forall₂_self (fun _ _ => Instruction.renamed_id)
    fun l hl => h l (List.mem_append_right _ hl)

theorem Function.renamed_id {f : Function L} (h : ∀ l ∈ f.literals, (l == l) = true) :
    f.Renamed id f where
  def_ := rel_self (fun _ _ => Instruction.renamed_id) fun l hl => h l (by
    simp only [Function.literals, List.mem_append]; exact .inl (.inl (.inl hl)))
  end_ := rel_self (fun _ _ => Instruction.renamed_id) fun l hl => h l (by
    simp only [Function.literals, List.mem_append]; exact .inl (.inl (.inr hl)))
  parameters := forall₂_self (fun _ _ => Instruction.renamed_id) fun l hl => h l (by
    simp only [Function.literals, List.mem_append]; exact .inl (.inr hl))
  blocks := forall₂_self (fun _ _ => Block.renamed_id) fun l hl => h l (by
    simp only [Function.literals, List.mem_append]; exact .inr hl)

/-- A function compared with itself passes exactly when every operand of it that is not an id
    equals itself.  Where that equality is not reflexive, as IEEE equality of floats is not at
    NaN, a function holding such an operand does not pass against itself. -/
theorem isSpirvFnEqual_self_iff (fn : Function L) :
    isSpirvFnEqual fn fn = some true ↔ ∀ l ∈ fn.literals, (l == l) = true := by
  rw [isSpirvFnEqual_eq_true_iff]
  exact ⟨fun ⟨_, _, h⟩ => h.beq_self, fun h => ⟨id, Set.injOn_id _, Function.renamed_id h⟩⟩

end Self

/-! ## The order of the two functions does not matter -/

section Symmetry

variable {β : Type}

/-- `cmp` answers the same with its arguments exchanged, run on the exchanged map, and leaves
    the exchanged map; a panic stays a panic. -/
def SwapComm (cmp : β → β → EqM Bool) : Prop :=
  ∀ x y m, cmp y x m.swap = (cmp x y m).map (Prod.map id EqMap.swap)

theorem bne_comm {α : Type} [BEq α] [LawfulBEq α] (a b : α) : (a != b) = (b != a) := by
  rw [bne, bne, Bool.beq_comm]

theorem checkThen_swap {c c' r r' : EqM Bool}
    (hc : ∀ m, c' m.swap = (c m).map (Prod.map id EqMap.swap))
    (hr : ∀ m, r' m.swap = (r m).map (Prod.map id EqMap.swap)) (m : EqMap Word) :
    checkThen c' r' m.swap = (checkThen c r m).map (Prod.map id EqMap.swap) := by
  unfold checkThen
  rw [hc]
  cases h : c m with
  | none => rfl
  | some p =>
    obtain ⟨_ | _, m₁⟩ := p
    · rfl
    · exact hr m₁

theorem ite_swap {c : Bool} {r r' : EqM Bool}
    (hr : ∀ m, r' m.swap = (r m).map (Prod.map id EqMap.swap)) (m : EqMap Word) :
    (if c then pure false else r') m.swap =
      ((if c then pure false else r) m).map (Prod.map id EqMap.swap) := by
  cases c
  · exact hr m
  · rfl

theorem isWordEqual_swap : SwapComm isWordEqual := fun a b m =>
  congrArg some (EqMap.isEqual_swap m a b)

theorem isOptionEqual_swap {f : β → β → EqM Bool} (hf : SwapComm f) :
    SwapComm fun o₁ o₂ => isOptionEqual o₁ o₂ f := by
  rintro (_ | x) (_ | y) m
  · rfl
  · rfl
  · rfl
  · exact hf x y m

theorem allEqual_swap {f : β → β → EqM Bool} (hf : SwapComm f) : SwapComm (allEqual f)
  | x :: xs, y :: ys, m => checkThen_swap (hf x y) (allEqual_swap hf xs ys) m
  | [], [], _ | [], _ :: _, _ | _ :: _, [], _ => rfl

variable (hL : ∀ a b : L, (a == b) = (b == a))
include hL

theorem isOperandEqual_swap : SwapComm (isOperandEqual (L := L)) := by
  intro o₁ o₂ m
  cases o₁ <;> cases o₂ <;> first
    | exact isWordEqual_swap _ _ m
    | rfl
    | simp [isOperandEqual, hL]

theorem isInstrEqual_swap : SwapComm (isInstrEqual (L := L)) := fun i₁ i₂ m => by
  unfold isInstrEqual
  rw [bne_comm i₂.opcode, bne_comm i₂.operands.length]
  exact ite_swap (checkThen_swap (isOptionEqual_swap isWordEqual_swap _ _)
    (checkThen_swap (isOptionEqual_swap isWordEqual_swap _ _)
      (ite_swap (allEqual_swap (isOperandEqual_swap hL) _ _)))) m

theorem isBlockEqual_swap : SwapComm (isBlockEqual (L := L)) := fun b₁ b₂ m => by
  unfold isBlockEqual
  rw [bne_comm b₂.instructions.length]
  exact checkThen_swap (isOptionEqual_swap (isInstrEqual_swap hL) _ _)
    (ite_swap (allEqual_swap (isInstrEqual_swap hL) _ _)) m

theorem isSpirvFnEqualWith_swap : SwapComm (isSpirvFnEqualWith (L := L)) := fun f₁ f₂ m => by
  unfold isSpirvFnEqualWith
  rw [bne_comm f₂.parameters.length, bne_comm f₂.blocks.length]
  exact checkThen_swap (isOptionEqual_swap (isInstrEqual_swap hL) _ _)
    (checkThen_swap (isOptionEqual_swap (isInstrEqual_swap hL) _ _)
      (ite_swap (checkThen_swap (allEqual_swap (isInstrEqual_swap hL) _ _)
        (ite_swap (allEqual_swap (isBlockEqual_swap hL) _ _))))) m

theorem isSpirvFnEqual_comm (fn₁ fn₂ : Function L) :
    isSpirvFnEqual fn₂ fn₁ = isSpirvFnEqual fn₁ fn₂ := by
  have h := isSpirvFnEqualWith_swap hL fn₁ fn₂ EqMap.new
  rw [EqMap.new_swap] at h
  simp only [isSpirvFnEqual, h, Option.map_eq_map, Option.map_map]
  rfl

theorem isSpirvFnsEqualLoop_swap (ps : List (Function L × Function L)) :
    isSpirvFnsEqualLoop (ps.map Prod.swap) = isSpirvFnsEqualLoop ps := by
  induction ps with
  | nil => rfl
  | cons p ps ih =>
    obtain ⟨f₁, f₂⟩ := p
    simp only [List.map_cons, Prod.swap_prod_mk, isSpirvFnsEqualLoop, isSpirvFnEqual_comm hL, ih]

/-- The answer of `is_spirv_fns_equal`, `true`, `false` or a panic, does not depend on which
    list is the expected one, so long as the equality of the operands that are not ids is
    symmetric (as IEEE equality of float literals is). -/
theorem isSpirvFnsEqual_comm (fns₁ fns₂ : List (Function L)) :
    isSpirvFnsEqual fns₂ fns₁ = isSpirvFnsEqual fns₁ fns₂ := by
  unfold isSpirvFnsEqual
  rw [bne_comm, ← List.zip_swap, isSpirvFnsEqualLoop_swap hL]

end Symmetry

/-- A function with an `OpFunction` and one without, over `Nat` literals. -/
def withDef : Function Nat :=
  { def_ := some ⟨54, some 1, some 2, [.other 0]⟩, end_ := none, parameters := [], blocks := [] }

def withoutDef : Function Nat := { def_ := none, end_ := none, parameters := [], blocks := [] }

theorem withDef_withoutDef_comm :
    (∀ a b : Nat, (a == b) = (b == a)) ∧
      isSpirvFnsEqual [withoutDef] [withDef] = isSpirvFnsEqual [withDef] [withoutDef] :=
  ⟨fun _ _ => Bool.beq_comm, isSpirvFnsEqual_comm (fun _ _ => Bool.beq_comm) _ _⟩


/-! ## Comparisons chain -/

section Transitivity

variable {ρ ρ₁ ρ₂ : Word → Word} {γ : Type}

theorem forall₂_comp {R₁ R₂ R₃ : γ → γ → Prop} {xs ys zs : List γ}
    (h₁ : List.Forall₂ R₁ xs ys) (h₂ : List.Forall₂ R₂ ys zs)
    (h : ∀ a b c, R₁ a b → R₂ b c → R₃ a c) : List.Forall₂ R₃ xs zs := by
  induction h₁ generalizing zs with
  | nil => cases h₂; exact .nil
  | cons hab _ ih =>
    cases h₂ with
    | cons hbc t => exact .cons (h _ _ _ hab hbc) (ih t)

theorem rel_comp {R₁ R₂ R₃ : γ → γ → Prop} {o₁ o₂ o₃ : Option γ}
    (h₁ : Option.Rel R₁ o₁ o₂) (h₂ : Option.Rel R₂ o₂ o₃)
    (h : ∀ a b c, R₁ a b → R₂ b c → R₃ a c) : Option.Rel R₃ o₁ o₃ := by
  cases h₁ with
  | none => cases h₂; exact .none
  | some hab =>
    cases h₂ with
    | some hbc => exact .some (h _ _ _ hab hbc)

/-- The ids of renamed lists are the renamed ids. -/
theorem flatMap_ids_of_forall₂ {R : γ → γ → Prop} {ids : γ → List Word}
    (hR : ∀ a b, R a b → ids b = (ids a).map ρ) {xs ys : List γ} (h : List.Forall₂ R xs ys) :
    ys.flatMap ids = (xs.flatMap ids).map ρ := by
  induction h with
  | nil => rfl
  | cons hab _ ih => simp [hR _ _ hab, ih]

theorem flatMap_ids_of_rel {R : γ → γ → Prop} {ids : γ → List Word}
    (hR : ∀ a b, R a b → ids b = (ids a).map ρ) {o₁ o₂ : Option γ} (h : Option.Rel R o₁ o₂) :
    o₂.toList.flatMap ids = (o₁.toList.flatMap ids).map ρ := by
  cases h with
  | none => rfl
  | some hab => simp [hR _ _ hab]

theorem toList_of_rel {o₁ o₂ : Option Word} (h : Option.Rel (fun a b => ρ a = b) o₁ o₂) :
    o₂.toList = o₁.toList.map ρ := by
  cases h with
  | none => rfl
  | some hab => simp [hab]

theorem Operand.Renamed.ids {o₁ o₂ : Operand L} (h : o₁.Renamed ρ o₂) : o₂.ids = o₁.ids.map ρ := by
  cases o₁ <;> cases o₂ <;> simp_all [Operand.Renamed, Operand.ids]

theorem Instruction.Renamed.ids {i₁ i₂ : Instruction L} (h : i₁.Renamed ρ i₂) :
    i₂.ids = i₁.ids.map ρ := by
  simp only [Instruction.ids, List.map_append, toList_of_rel h.resultType,
    toList_of_rel h.resultId, flatMap_ids_of_forall₂ (R := Operand.Renamed ρ) (fun _ _ h => h.ids) h.operands]

theorem Block.Renamed.ids {b₁ b₂ : Block L} (h : b₁.Renamed ρ b₂) : b₂.ids = b₁.ids.map ρ := by
  simp only [Block.ids, List.map_append,
    flatMap_ids_of_rel (R := Instruction.Renamed ρ) (fun _ _ h => h.ids) h.label,
    flatMap_ids_of_forall₂ (R := Instruction.Renamed ρ) (fun _ _ h => h.ids) h.instructions]

theorem Function.Renamed.ids {f₁ f₂ : Function L} (h : f₁.Renamed ρ f₂) :
    f₂.ids = f₁.ids.map ρ := by
  simp only [Function.ids, List.map_append,
    flatMap_ids_of_rel (R := Instruction.Renamed ρ) (fun _ _ h => h.ids) h.def_,
    flatMap_ids_of_rel (R := Instruction.Renamed ρ) (fun _ _ h => h.ids) h.end_,
    flatMap_ids_of_forall₂ (R := Instruction.Renamed ρ) (fun _ _ h => h.ids) h.parameters,
    flatMap_ids_of_forall₂ (R := Block.Renamed ρ) (fun _ _ h => h.ids) h.blocks]

variable (hL : ∀ a b c : L, (a == b) = true → (b == c) = true → (a == c) = true)
include hL

theorem Operand.Renamed.comp {o₁ o₂ o₃ : Operand L} (h₁ : o₁.Renamed ρ₁ o₂)
    (h₂ : o₂.Renamed ρ₂ o₃) : o₁.Renamed (ρ₂ ∘ ρ₁) o₃ := by
  cases o₁ <;> cases o₂ <;> (try exact h₁.elim) <;> cases o₃ <;> (try exact h₂.elim)
  all_goals first
    | exact (congrArg ρ₂ h₁).trans h₂
    | exact hL _ _ _ h₁ h₂

theorem Instruction.Renamed.comp {i₁ i₂ i₃ : Instruction L} (h₁ : i₁.Renamed ρ₁ i₂)
    (h₂ : i₂.Renamed ρ₂ i₃) : i₁.Renamed (ρ₂ ∘ ρ₁) i₃ where
  opcode := h₁.opcode.trans h₂.opcode
  resultType := rel_comp h₁.resultType h₂.resultType
    fun _ _ _ hab hbc => (congrArg ρ₂ hab).trans hbc
  resultId := rel_comp h₁.resultId h₂.resultId fun _ _ _ hab hbc => (congrArg ρ₂ hab).trans hbc
  operands := forall₂_comp h₁.operands h₂.operands fun _ _ _ => Operand.Renamed.comp hL

theorem Block.Renamed.comp {b₁ b₂ b₃ : Block L} (h₁ : b₁.Renamed ρ₁ b₂)
    (h₂ : b₂.Renamed ρ₂ b₃) : b₁.Renamed (ρ₂ ∘ ρ₁) b₃ where
  label := rel_comp h₁.label h₂.label fun _ _ _ => Instruction.Renamed.comp hL
  instructions :=
    forall₂_comp h₁.instructions h₂.instructions fun _ _ _ => Instruction.Renamed.comp hL

theorem Function.Renamed.comp {f₁ f₂ f₃ : Function L} (h₁ : f₁.Renamed ρ₁ f₂)
    (h₂ : f₂.Renamed ρ₂ f₃) : f₁.Renamed (ρ₂ ∘ ρ₁) f₃ where
  def_ := rel_comp h₁.def_ h₂.def_ fun _ _ _ => Instruction.Renamed.comp hL
  end_ := rel_comp h₁.end_ h₂.end_ fun _ _ _ => Instruction.Renamed.comp hL
  parameters :=
    forall₂_comp h₁.parameters h₂.parameters fun _ _ _ => Instruction.Renamed.comp hL
  blocks := forall₂_comp h₁.blocks h₂.blocks fun _ _ _ => Block.Renamed.comp hL

theorem isSpirvFnEqual_trans {f₁ f₂ f₃ : Function L} (h₁₂ : isSpirvFnEqual f₁ f₂ = some true)
    (h₂₃ : isSpirvFnEqual f₂ f₃ = some true) : isSpirvFnEqual f₁ f₃ = some true := by
  obtain ⟨ρ₁, hi₁, hr₁⟩ := (isSpirvFnEqual_eq_true_iff f₁ f₂).mp h₁₂
  obtain ⟨ρ₂, hi₂, hr₂⟩ := (isSpirvFnEqual_eq_true_iff f₂ f₃).mp h₂₃
  have hmaps : Set.MapsTo ρ₁ {a | a ∈ f₁.ids} {a | a ∈ f₂.ids} := fun a ha => by
    simpa [hr₁.ids] using List.mem_map_of_mem ρ₁ ha
  exact (isSpirvFnEqual_eq_true_iff f₁ f₃).mpr ⟨ρ₂ ∘ ρ₁, hi₂.comp hi₁ hmaps, hr₁.comp hL hr₂⟩

/-- Two lists that both pass against a third pass against each other, when the equality of the
    operands that are not ids is transitive: with symmetry and a function's passing against
    itself, `is_spirv_fns_equal` is an equivalence. -/
theorem isSpirvFnsEqual_trans {fns₁ fns₂ fns₃ : List (Function L)}
    (h₁₂ : isSpirvFnsEqual fns₁ fns₂ = some true) (h₂₃ : isSpirvFnsEqual fns₂ fns₃ = some true) :
    isSpirvFnsEqual fns₁ fns₃ = some true := by
  rw [isSpirvFnsEqual_eq_true_iff_forall₂] at h₁₂ h₂₃ ⊢
  exact forall₂_comp h₁₂ h₂₃ fun _ _ _ => isSpirvFnEqual_trans hL

end Transitivity

/-- One function written with three different choices of ids. -/
def kernelWithIds (fn param entry : Word) : Function Nat :=
  { def_ := some ⟨54, some 1, some fn, [.other 0]⟩
    end_ := some ⟨56, none, none, []⟩
    parameters := [⟨55, some 1, some param, []⟩]
    blocks := [⟨some ⟨248, none, some entry, []⟩, [⟨253, none, none, []⟩]⟩] }

theorem kernelWithIds_trans :
    (∀ a b c : Nat, (a == b) = true → (b == c) = true → (a == c) = true) ∧
      isSpirvFnsEqual [kernelWithIds 2 3 4] [kernelWithIds 7 8 9] = some true ∧
      isSpirvFnsEqual [kernelWithIds 7 8 9] [kernelWithIds 4 2 3] = some true ∧
      isSpirvFnsEqual [kernelWithIds 2 3 4] [kernelWithIds 4 2 3] = some true :=
  have hL : ∀ a b c : Nat, (a == b) = true → (b == c) = true → (a == c) = true := by
    simp_all
  have h₁₂ : isSpirvFnsEqual [kernelWithIds 2 3 4] [kernelWithIds 7 8 9] = some true := by decide
  have h₂₃ : isSpirvFnsEqual [kernelWithIds 7 8 9] [kernelWithIds 4 2 3] = some true := by decide
  ⟨hL, h₁₂, h₂₃, isSpirvFnsEqual_trans hL h₁₂ h₂₃⟩

end ZludaPtx.SpirvRun
