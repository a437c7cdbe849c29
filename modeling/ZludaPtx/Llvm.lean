import ZludaPtx.Ast
import ZludaPtx.ForStd.List
import Mathlib.Algebra.Group.Nat.Basic

/-!
# The part of LLVM the emitter drives

`emit_llvm.rs` builds its module through the LLVM C API.  This file models the objects it
creates and the calls it makes, as far as the emitter can observe them: a module is its list of
functions in the order `LLVMAddFunction` created them; a function has a name, a type, parameter
names, attributes, a calling convention and a list of basic blocks; a block is a name and a list
of instructions; a builder is a position at the end of a block.

Values are references: to a function or a parameter by position, to an instruction by its
function, block and index in the block (blocks only ever grow at the end, so these never move),
or a constant.  `LLVMConstInt` is modelled by its documented meaning: an `APInt` of the type's
width built from the 64-bit operand, sign- or zero-extended by its flag, and truncated when the
type is narrower.

LLVM's renaming of a second global or block of the same name and its symbol tables are not
modelled: names are recorded as given.

## Key results

- `Module.modifyFunction_append`: changing the last function keeps the ones before it
- `Block.terminator`: what `LLVMGetBasicBlockTerminator` inspects, the last instruction only
- `constInt_int`: `LLVMConstInt` on an integer type
-/

namespace ZludaPtx.Llvm

/-- The LLVM types the emitter builds. -/
inductive LlvmType where
  | void
  | int (bits : Nat)
  | half
  | float
  | double
  | bfloat
  | vector (elem : LlvmType) (count : Nat)
  | array (elem : LlvmType) (count : Nat)
  | pointer (addrSpace : Nat)
  deriving DecidableEq, Repr

/-- A function type, `LLVMFunctionType(ret, params, n, 0)`: never variadic. -/
structure FunctionType where
  ret : LlvmType
  params : List LlvmType
  deriving DecidableEq, Repr

/-- The two calling conventions the emitter sets. -/
inductive CallConv where
  | c
  | amdgpuKernel
  deriving DecidableEq, Repr

/-- The one attribute the emitter creates, `byref(<ty>)`. -/
inductive Attribute where
  | byref (type : LlvmType)
  deriving DecidableEq, Repr

/-- A value reference. -/
inductive Value where
  /-- The function created `index`-th in the module. -/
  | function (index : Nat)
  /-- Parameter `index` of a function. -/
  | param (function index : Nat)
  /-- The `index`-th instruction of a block of a function. -/
  | inst (function block index : Nat)
  /-- An integer constant of width `bits`, by its unsigned value. -/
  | constInt (bits value : Nat)
  /-- A floating-point constant, by the immediate it was made from. -/
  | constReal (type : LlvmType) (imm : ImmediateValue)
  deriving DecidableEq

/-- The instructions the emitter builds, with the name it passes. -/
inductive Inst where
  | alloca (type : LlvmType) (addrSpace : Nat) (name : String) (align : Option UInt32)
  | load (type : LlvmType) (ptr : Value) (name : String)
  | store (value ptr : Value)
  | add (lhs rhs : Value) (name : String)
  | fadd (lhs rhs : Value) (name : String)
  | intToPtr (value : Value) (type : LlvmType) (name : String)
  | call (type : FunctionType) (callee : Value) (args : List Value) (name : String)
  /-- An unconditional branch to a block of the same function, by position. -/
  | br (dest : Nat)
  | retVoid
  deriving DecidableEq

/-- The terminators among the instructions the emitter builds. -/
def Inst.isTerminator : Inst → Bool
  | br _ | retVoid => true
  | _ => false

/-- The values an instruction reads. -/
def Inst.operands : Inst → List Value
  | alloca .. | br _ | retVoid => []
  | load _ ptr _ => [ptr]
  | store value ptr => [value, ptr]
  | add lhs rhs _ | fadd lhs rhs _ => [lhs, rhs]
  | intToPtr value _ _ => [value]
  | call _ callee args _ => callee :: args

/-- `LLVMSetAlignment` on an instruction: only an alloca carries an alignment here. -/
def Inst.setAlign (a : UInt32) : Inst → Inst
  | alloca t s n _ => alloca t s n (some a)
  | i => i

/-- A basic block. -/
structure Block where
  name : String
  insts : List Inst
  deriving DecidableEq

/-- `LLVMGetBasicBlockTerminator`: the block's last instruction if it is a terminator.  LLVM
    looks at nothing else, so an earlier terminator goes unnoticed. -/
def Block.terminator (b : Block) : Option Inst :=
  match b.insts.getLast? with
  | some i => if i.isTerminator then some i else none
  | none => none

/-- A block with no terminator has none to report. -/
theorem Block.terminator_eq_none {b : Block} (h : ∀ x ∈ b.insts, x.isTerminator = false) :
    b.terminator = none := by
  unfold Block.terminator
  split
  · next x hx => simp [h x (List.mem_of_getLast?_eq_some hx)]
  · rfl

/-- A function of the module. -/
structure Function where
  name : String
  type : FunctionType
  paramNames : List String
  attributes : List (Nat × Attribute)
  callConv : CallConv
  blocks : List Block
  deriving DecidableEq

/-- A new function as `LLVMAddFunction` creates it: unnamed parameters, no attributes, the C
    calling convention and no blocks, a declaration until blocks are appended. -/
def Function.declaration (name : String) (type : FunctionType) : Function where
  name := name
  type := type
  paramNames := type.params.map fun _ => ""
  attributes := []
  callConv := .c
  blocks := []

/-- Where a builder inserts: at the end of block `block` of function `fn`. -/
structure Position where
  fn : Nat
  block : Nat
  deriving DecidableEq, Repr

/-- An LLVM module: its functions, in creation order. -/
structure Module where
  functions : List Function
  deriving DecidableEq

/-- `LLVMConstInt(ty, n, signExtend)`: an integer type gets the `APInt` of its width built from
    `n`; any other type is a failed LLVM assertion. -/
def constInt (ty : LlvmType) (n : UInt64) (signExtend : Bool) : Except TranslateError Value :=
  match ty with
  | .int w =>
    .ok (.constInt w (if signExtend then (n.toBitVec.signExtend w).toNat
      else (n.toBitVec.zeroExtend w).toNat))
  | _ => .error .aborted

/-- `LLVMConstReal(ty, x)`: a floating-point type gets the constant; any other type is a failed
    LLVM assertion. -/
def constReal (ty : LlvmType) (imm : ImmediateValue) : Except TranslateError Value :=
  match ty with
  | .half | .float | .double | .bfloat => .ok (.constReal ty imm)
  | _ => .error .aborted

/-- `LLVMConstInt` on an integer type, without sign extension: the operand's low `w` bits, or the
    operand itself zero-extended when the type is wider. -/
theorem constInt_int (w : Nat) (n : UInt64) :
    constInt (.int w) n false = .ok (.constInt w (n.toNat % 2 ^ w)) := by
  simp only [constInt, Bool.false_eq_true, ↓reduceIte, BitVec.truncate_eq_setWidth,
    BitVec.toNat_setWidth, UInt64.toNat]

namespace Module

/-- Apply `g` to function `fn`. -/
def modifyFunction (m : Module) (fn : Nat) (g : Function → Function) : Module :=
  ⟨m.functions.modify g fn⟩

/-- The blocks of function `fn`, none when there is no such function. -/
def blocks (m : Module) (fn : Nat) : List Block :=
  ((m.functions[fn]?).map Function.blocks).getD []

/-- The instructions of the block at `p`, none when there is no such block. -/
def insts (m : Module) (p : Position) : List Inst :=
  (((m.blocks p.fn)[p.block]?).map Block.insts).getD []

/-- `LLVMAddFunction`: a new function at the end.  The function keeps the requested name even
    when the module has one of that name already, where LLVM would give it a fresh suffix. -/
def addFunction (m : Module) (name : String) (type : FunctionType) : Module :=
  ⟨m.functions ++ [Function.declaration name type]⟩

/-- `LLVMSetValueName2` on parameter `i` of function `fn`. -/
def setParamName (m : Module) (fn i : Nat) (name : String) : Module :=
  m.modifyFunction fn fun f => { f with paramNames := f.paramNames.set i name }

/-- `LLVMAddAttributeAtIndex`. -/
def addAttribute (m : Module) (fn idx : Nat) (attr : Attribute) : Module :=
  m.modifyFunction fn fun f => { f with attributes := f.attributes ++ [(idx, attr)] }

/-- `LLVMSetFunctionCallConv`. -/
def setCallConv (m : Module) (fn : Nat) (cc : CallConv) : Module :=
  m.modifyFunction fn fun f => { f with callConv := cc }

/-- `LLVMAppendBasicBlockInContext`: an empty block at the end of function `fn`. -/
def appendBlock (m : Module) (fn : Nat) (name : String) : Module :=
  m.modifyFunction fn fun f => { f with blocks := f.blocks ++ [⟨name, []⟩] }

/-- Instructions built at the end of the block at `p`. -/
def appendInsts (m : Module) (p : Position) (is : List Inst) : Module :=
  m.modifyFunction p.fn fun f =>
    { f with blocks := f.blocks.modify (fun b => { b with insts := b.insts ++ is }) p.block }

/-- Rewrite instruction `index` of the block at `p`. -/
def modifyInst (m : Module) (p : Position) (index : Nat) (g : Inst → Inst) : Module :=
  m.modifyFunction p.fn fun f =>
    { f with blocks := f.blocks.modify (fun b => { b with insts := b.insts.modify g index }) p.block }

/-- The terminator of the block at `p`, as `LLVMGetBasicBlockTerminator` reports it. -/
def terminator (m : Module) (p : Position) : Option Inst :=
  ((m.blocks p.fn)[p.block]?).bind Block.terminator

/-- Changing the last function of a module keeps the functions before it. -/
theorem modifyFunction_append (fs : List Function) (f : Function) (g : Function → Function) :
    (Module.mk (fs ++ [f])).modifyFunction fs.length g = ⟨fs ++ [g f]⟩ := by
  simp only [modifyFunction, mk.injEq]
  induction fs with
  | nil => rfl
  | cons x xs ih => simp [ih]

@[simp] theorem appendInsts_nil (m : Module) (p : Position) : m.appendInsts p [] = m := by
  have hb : (fun b : Block => { b with insts := b.insts ++ [] }) = id := by funext b; simp
  have hf : (fun f : Function => { f with blocks := f.blocks.modify id p.block }) = id := by
    funext f; simp [List.modify, List.modifyHead_id]
  simp only [appendInsts, modifyFunction, hb, hf]
  simp [List.modify, List.modifyHead_id]

/-- Rewriting the instruction just built is building the rewritten one. -/
theorem modifyInst_appendInsts (m : Module) (p : Position) (i : Inst) (g : Inst → Inst) :
    (m.appendInsts p [i]).modifyInst p (m.insts p).length g = m.appendInsts p [g i] := by
  simp only [appendInsts, modifyInst, modifyFunction, List.modify_modify_eq, Function.comp_def,
    mk.injEq]
  refine List.modify_congr fun f hf => ?_
  simp only [Function.mk.injEq, true_and, and_true]
  refine List.modify_congr fun b hb => ?_
  have : m.insts p = b.insts := by simp [insts, blocks, hf, hb]
  simp [this, List.modify_append_length]

/-- Building in the last function of a module, by its blocks. -/
theorem appendInsts_last (pre : List Function) (f : Function) (bs : List Block) (k : Nat)
    (is : List Inst) :
    (Module.mk (pre ++ [{ f with blocks := bs }])).appendInsts ⟨pre.length, k⟩ is =
      ⟨pre ++ [{ f with blocks := bs.modify (fun b => { b with insts := b.insts ++ is }) k }]⟩ :=
  modifyFunction_append _ _ _

/-- Appending a block to the last function of a module. -/
theorem appendBlock_last (pre : List Function) (f : Function) (bs : List Block) (name : String) :
    (Module.mk (pre ++ [{ f with blocks := bs }])).appendBlock pre.length name =
      ⟨pre ++ [{ f with blocks := bs ++ [⟨name, []⟩] }]⟩ :=
  modifyFunction_append _ _ _

/-- Naming a parameter of the last function of a module. -/
theorem setParamName_last (pre : List Function) (f : Function) (i : Nat) (name : String) :
    (Module.mk (pre ++ [f])).setParamName pre.length i name =
      ⟨pre ++ [{ f with paramNames := f.paramNames.set i name }]⟩ :=
  modifyFunction_append _ _ _

/-- Adding an attribute to the last function of a module. -/
theorem addAttribute_last (pre : List Function) (f : Function) (idx : Nat) (attr : Attribute) :
    (Module.mk (pre ++ [f])).addAttribute pre.length idx attr =
      ⟨pre ++ [{ f with attributes := f.attributes ++ [(idx, attr)] }]⟩ :=
  modifyFunction_append _ _ _

/-- Setting the calling convention of the last function of a module. -/
theorem setCallConv_last (pre : List Function) (f : Function) (cc : CallConv) :
    (Module.mk (pre ++ [f])).setCallConv pre.length cc = ⟨pre ++ [{ f with callConv := cc }]⟩ :=
  modifyFunction_append _ _ _

@[simp] theorem blocks_append (fs : List Function) (f : Function) :
    (Module.mk (fs ++ [f])).blocks fs.length = f.blocks := by
  simp [blocks]

@[simp] theorem addFunction_functions (m : Module) (name type) :
    (m.addFunction name type).functions = m.functions ++ [Function.declaration name type] := rfl

end Module

end ZludaPtx.Llvm
