import Mathlib.Data.List.Basic

/-! # The PTX syntax the two passes consume

Two families of types meet here.  The parser's AST (`ptx_parser`, imported as `ast` by both
passes) and the pass-level statement and directive types (`pass/mod.rs`) are not among the
modelled sources: they are modelled from the spec (§3) and from the way
`normalize_identifiers2.rs` and `emit_llvm.rs` use them.  Only the fields those passes read or
copy are kept; `MODEL_MAP.json` lists what is left out.

Identifiers (`SpirvWord`) are natural numbers: the resolver hands them out from a counter
(§4.1), and no modelled function depends on their width.  Machine integers stored in the
syntax keep the source's widths (`UInt8`, `UInt32`, `UInt64`); a signed 64-bit immediate is
its two's-complement bit pattern, a `BitVec 64` read back with `BitVec.toInt`.
-/

namespace ZludaPtx

/-- A numbered identifier, the source's `SpirvWord`. -/
abbrev SpirvWord := Nat

/-- `TranslateError`, the one error channel of both passes (§7).  The source's panics
    (`todo!()`, `assert!`, `panic!`, indexing a missing map entry) return nothing to the caller;
    the model reports them as `aborted`, which no source function returns as an error. -/
inductive TranslateError where
  /-- `error_unreachable()`: an invariant an earlier pass should uphold does not hold. -/
  | unreachable
  /-- `TranslateError::Todo`: a construct whose lowering is a known gap. -/
  | todo
  /-- A panic of the source. -/
  | aborted
  deriving DecidableEq, Repr

/-- Modelled from the spec: `ast::ScalarType`, the PTX scalar types. -/
inductive ScalarType where
  | u8 | u16 | u16x2 | u32 | u64 | s8 | s16 | s16x2 | s32 | s64
  | b8 | b16 | b32 | b64 | b128 | pred | f16 | f16x2 | f32 | f64 | bf16 | bf16x2
  deriving DecidableEq, Repr

/-- Modelled from the spec: `ast::StateSpace`, the PTX state spaces (§3). -/
inductive StateSpace where
  | reg | generic | param | paramEntry | paramFunc | «local» | global | const | shared
  | sharedCta | sharedCluster
  deriving DecidableEq, Repr

/-- The parser's `NonZeroU8`, the width of a packed array element: a byte that is not zero. -/
structure NonZeroU8 where
  val : UInt8
  ne_zero : val ≠ 0
  deriving DecidableEq

/-- Modelled from the spec: `ast::Type`.  An array carries an optional packed width, its
    element scalar and its dimensions, outermost first; no dimension is a flexible array. -/
inductive PtxType where
  | scalar (s : ScalarType)
  | vector (size : UInt8) (s : ScalarType)
  | array (vec : Option NonZeroU8) (s : ScalarType) (dims : List UInt32)
  | pointer (s : ScalarType) (space : StateSpace)
  deriving DecidableEq

/-- Modelled from the spec: `ast::ImmediateValue`.  `s64` holds the bits of an `i64`;
    the floating-point immediates hold their bit patterns, which nothing here computes with. -/
inductive ImmediateValue where
  | u64 (x : UInt64)
  | s64 (x : BitVec 64)
  | f32 (bits : UInt32)
  | f64 (bits : UInt64)
  deriving DecidableEq

namespace Ast

/-- Modelled from the spec: `ast::ParsedOperand`, an operand as the parser produced it, over
    identifiers of type `α` (source names before normalization). -/
inductive ParsedOperand (α : Type) where
  | reg (r : α)
  | regOffset (r : α) (offset : Int)
  | imm (v : ImmediateValue)
  | vecMember (r : α) (idx : UInt8)
  | vecPack (rs : List α)
  deriving DecidableEq

namespace ParsedOperand

/-- The identifiers an operand mentions, in order. -/
def names {α : Type} : ParsedOperand α → List α
  | reg r => [r]
  | regOffset r _ => [r]
  | imm _ => []
  | vecMember r _ => [r]
  | vecPack rs => rs

/-- Rename every identifier of an operand. -/
def map {α β : Type} (f : α → β) : ParsedOperand α → ParsedOperand β
  | reg r => reg (f r)
  | regOffset r o => regOffset (f r) o
  | imm v => imm v
  | vecMember r i => vecMember (f r) i
  | vecPack rs => vecPack (rs.map f)

/-- Rename every identifier of an operand through a fallible map, left to right. -/
def mapM {m : Type → Type} [Monad m] {α β : Type} (f : α → m β) :
    ParsedOperand α → m (ParsedOperand β)
  | reg r => reg <$> f r
  | regOffset r o => (regOffset · o) <$> f r
  | imm v => pure (imm v)
  | vecMember r i => (vecMember · i) <$> f r
  | vecPack rs => vecPack <$> rs.mapM f

end ParsedOperand

/-- `ast::LdStQualifier`; the memory scope of the non-weak qualifiers is left out. -/
inductive LdStQualifier where
  | weak | volatile | relaxed | acquire | release
  deriving DecidableEq, Repr

/-- `ast::LdDetails`: the fields `emit_ld` reads. -/
structure LdDetails where
  qualifier : LdStQualifier
  nonCoherent : Bool
  typ : PtxType
  deriving DecidableEq

/-- `ast::StData`: the field `emit_st` reads. -/
structure StData where
  qualifier : LdStQualifier
  deriving DecidableEq

/-- `ast::ArithDetails`: `emit_add` dispatches on the variant only. -/
inductive ArithDetails where
  | integer | float
  deriving DecidableEq, Repr

/-- `ast::CallDetails`: the declared return and input types of the callee. -/
structure CallDetails where
  returnArguments : List (PtxType × StateSpace)
  inputArguments : List (PtxType × StateSpace)
  deriving DecidableEq

/-- Modelled from the spec: `ast::Instruction`, over operands of type `α`.  The opcodes the
    emitter lowers keep their arguments; every other opcode (`mul`, `setp`, `bra`, ...) is
    `other` with its operand list, which the normalize pass renames and the emitter rejects. -/
inductive Instruction (α : Type) where
  | mov (dst src : α)
  | ld (data : LdDetails) (dst src : α)
  | st (data : StData) (src1 src2 : α)
  | add (data : ArithDetails) (dst src1 src2 : α)
  | call (data : CallDetails) (returnArguments : List α) (func : α) (inputArguments : List α)
  | ret
  | other (operands : List α)
  deriving DecidableEq

namespace Instruction

/-- The operands of an instruction, in the order the visitor meets them. -/
def operands {α : Type} : Instruction α → List α
  | mov dst src => [dst, src]
  | ld _ dst src => [dst, src]
  | st _ src1 src2 => [src1, src2]
  | add _ dst src1 src2 => [dst, src1, src2]
  | call _ rets func ins => rets ++ func :: ins
  | ret => []
  | other ops => ops

/-- Apply `f` to every operand. -/
def map {α β : Type} (f : α → β) : Instruction α → Instruction β
  | mov dst src => mov (f dst) (f src)
  | ld d dst src => ld d (f dst) (f src)
  | st d src1 src2 => st d (f src1) (f src2)
  | add d dst src1 src2 => add d (f dst) (f src1) (f src2)
  | call d rets func ins => call d (rets.map f) (f func) (ins.map f)
  | ret => ret
  | other ops => other (ops.map f)

/-- Apply a fallible `f` to every operand, left to right. -/
def mapM {m : Type → Type} [Monad m] {α β : Type} (f : α → m β) :
    Instruction α → m (Instruction β)
  | mov dst src => return mov (← f dst) (← f src)
  | ld d dst src => return ld d (← f dst) (← f src)
  | st d src1 src2 => return st d (← f src1) (← f src2)
  | add d dst src1 src2 => return add d (← f dst) (← f src1) (← f src2)
  | call d rets func ins => return call d (← rets.mapM f) (← f func) (← ins.mapM f)
  | ret => pure ret
  | other ops => other <$> ops.mapM f

/-- The source names an instruction over parsed operands mentions. -/
def names (i : Instruction (ParsedOperand String)) : List String :=
  i.operands.flatMap ParsedOperand.names

end Instruction

/-- `ast::Variable`: a declaration whose name has type `α`. -/
structure Variable (α : Type) where
  align : Option UInt32
  vType : PtxType
  stateSpace : StateSpace
  name : α
  arrayInit : List UInt8
  deriving DecidableEq

/-- The declaration `v` under the identifier `i`. -/
def Variable.rename {α : Type} (v : Variable α) (i : SpirvWord) : Variable SpirvWord :=
  { v with name := i }

/-- `ast::MultiVariable`: a declaration, with a count for the `%r<N>` form. -/
structure MultiVariable where
  var : Variable String
  count : Option UInt32
  deriving DecidableEq

/-- `ast::PredAt`: the guard `@p` or `@!p` of an instruction. -/
structure PredAt (α : Type) where
  not : Bool
  label : α
  deriving DecidableEq

/-- Modelled from the spec: `ast::Statement` as the parser produces it (§4.3). -/
inductive Statement where
  | label (name : String)
  | variable (v : MultiVariable)
  | instruction (pred : Option (PredAt String)) (inst : Instruction (ParsedOperand String))
  | block (b : List Statement)

/-- `ast::MethodName`: a kernel keeps its text, a device function is an identifier. -/
inductive MethodName (α : Type) where
  | kernel (name : String)
  | func (name : α)
  deriving DecidableEq

/-- `MethodName::is_kernel`. -/
def MethodName.isKernel {α : Type} : MethodName α → Bool
  | kernel _ => true
  | func _ => false

/-- `ast::MethodDeclaration`. -/
structure MethodDeclaration (α : Type) where
  returnArguments : List (Variable α)
  name : MethodName α
  inputArguments : List (Variable α)
  sharedMem : Option α
  deriving DecidableEq

/-- `ast::TuningDirective`, copied through normalization. -/
inductive TuningDirective where
  | maxNReg (n : UInt32)
  | maxNtid (x y z : UInt32)
  | reqNtid (x y z : UInt32)
  | minNCtaPerSm (n : UInt32)
  deriving DecidableEq

/-- `ast::LinkingDirective`, a set of linkage flags copied through normalization. -/
structure LinkingDirective where
  bits : UInt8
  deriving DecidableEq

/-- `ast::Function`: a method as parsed. -/
structure Function where
  funcDirective : MethodDeclaration String
  tuning : List TuningDirective
  body : Option (List Statement)

/-- `ast::Directive`: a module-level variable or a method. -/
inductive Directive where
  | variable (linking : LinkingDirective) (v : Variable String)
  | method (linking : LinkingDirective) (f : Function)

end Ast

/-- `LdArgs`-shaped details of a load produced by a later pass. -/
structure LoadVarDetails where
  dst : SpirvWord
  src : SpirvWord
  typ : PtxType
  memberIndex : Option (UInt8 × Bool)
  deriving DecidableEq

/-- Details of a store produced by a later pass: its `StArgs`. -/
structure StoreVarDetails where
  src1 : SpirvWord
  src2 : SpirvWord
  deriving DecidableEq

/-- `ConversionKind`. -/
inductive ConversionKind where
  | default | signExtend | bitToPtr | ptrToPtr | addressOf
  deriving DecidableEq, Repr

/-- `ImplicitConversion`: the fields `emit_conversion` reads. -/
structure ImplicitConversion where
  src : SpirvWord
  dst : SpirvWord
  toSpace : StateSpace
  kind : ConversionKind
  deriving DecidableEq

/-- `ConstantDefinition`. -/
structure ConstantDefinition where
  dst : SpirvWord
  typ : ScalarType
  value : ImmediateValue
  deriving DecidableEq

/-- Modelled from the spec: the pass-level `Statement<I, SpirvWord>` (§3), over instructions
    of type `I`.  The forms produced by later passes that the emitter does not lower carry no
    data here. -/
inductive Statement (I : Type) where
  | variable (v : Ast.Variable SpirvWord)
  | label (id : SpirvWord)
  | instruction (i : I)
  | conditional
  | loadVar (d : LoadVarDetails)
  | storeVar (d : StoreVarDetails)
  | conversion (c : ImplicitConversion)
  | constant (c : ConstantDefinition)
  | retValue
  | ptrAccess
  | repackVector
  | functionPointer
  | vectorAccess
  deriving DecidableEq

/-- `Function2`: a method after normalization, with statements of type `S`. -/
structure Function2 (S : Type) where
  funcDecl : Ast.MethodDeclaration SpirvWord
  globals : List (Ast.Variable SpirvWord)
  body : Option (List S)
  importAs : Option String
  tuning : List Ast.TuningDirective
  linkage : Ast.LinkingDirective
  deriving DecidableEq

/-- `Directive2`. -/
inductive Directive2 (S : Type) where
  | variable (linking : Ast.LinkingDirective) (v : Ast.Variable SpirvWord)
  | method (f : Function2 S)
  deriving DecidableEq

/-- `NormalizedStatement`: a guarded instruction keeps parsed operands, now over identifiers. -/
abbrev NormalizedStatement :=
  Statement (Option (Ast.PredAt SpirvWord) × Ast.Instruction (Ast.ParsedOperand SpirvWord))

/-- `NormalizedDirective2`. -/
abbrev NormalizedDirective2 := Directive2 NormalizedStatement

/-- `NormalizedFunction2`. -/
abbrev NormalizedFunction2 := Function2 NormalizedStatement

end ZludaPtx
