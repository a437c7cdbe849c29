import ZludaPtx.Llvm

/-!
# The emitter's type lowering

`get_scalar_type`, `get_type`, `get_state_space`, `get_pointer_type`,
`get_input_argument_type` and `get_function_type` of `emit_llvm.rs`: how a PTX type and state
space become an LLVM type and address space.  `get_scalar_type` returns a type directly and
panics (`todo!()`) on the packed two-element scalars; the model reports that as `aborted`.

An array's dimensions are folded with `rfold`, right to left, each step wrapping the type built
so far: the model folds the reversed list from the left with the same closure.  `nest` states
the intended layout, first dimension outermost, and `getType_array` shows the two agree.

## Key results

- `getType_array`: an array type is the dimensions nested around the element, first outermost
-/

namespace ZludaPtx.EmitLlvm

open Llvm

/-- `GENERIC_ADDRESS_SPACE`. -/
def genericAddressSpace : Nat := 0
/-- `GLOBAL_ADDRESS_SPACE`. -/
def globalAddressSpace : Nat := 1
/-- `SHARED_ADDRESS_SPACE`. -/
def sharedAddressSpace : Nat := 3
/-- `CONSTANT_ADDRESS_SPACE`. -/
def constantAddressSpace : Nat := 4
/-- `PRIVATE_ADDRESS_SPACE`. -/
def privateAddressSpace : Nat := 5

/-- `get_scalar_type`. -/
def getScalarType : ScalarType → Except TranslateError LlvmType
  | .pred => .ok (.int 1)
  | .s8 | .b8 | .u8 => .ok (.int 8)
  | .b16 | .u16 | .s16 => .ok (.int 16)
  | .s32 | .b32 | .u32 => .ok (.int 32)
  | .u64 | .s64 | .b64 => .ok (.int 64)
  | .b128 => .ok (.int 128)
  | .f16 => .ok .half
  | .f32 => .ok .float
  | .f64 => .ok .double
  | .bf16 => .ok .bfloat
  | .u16x2 | .s16x2 | .f16x2 | .bf16x2 => .error .aborted

/-- `get_state_space`. -/
def getStateSpace : StateSpace → Except TranslateError Nat
  | .reg => .ok privateAddressSpace
  | .generic => .ok genericAddressSpace
  | .param => .error .todo
  | .paramEntry => .ok constantAddressSpace
  | .paramFunc => .error .todo
  | .local => .ok privateAddressSpace
  | .global => .ok globalAddressSpace
  | .const => .ok constantAddressSpace
  | .shared => .ok sharedAddressSpace
  | .sharedCta => .error .todo
  | .sharedCluster => .error .todo

/-- `get_pointer_type`: an opaque pointer in the state space's address space. -/
def getPointerType (toSpace : StateSpace) : Except TranslateError LlvmType := do
  return .pointer (← getStateSpace toSpace)

/-- `get_type`. -/
def getType : PtxType → Except TranslateError LlvmType
  | .scalar scalar => getScalarType scalar
  | .vector size scalar => do
    let baseType ← getScalarType scalar
    return .vector baseType size.toNat
  | .array vec scalar dimensions => do
    let scalarType ← getScalarType scalar
    let underlyingType := match vec with
      | some size => LlvmType.vector scalarType size.val.toNat
      | none => scalarType
    if dimensions.isEmpty then
      return .array underlyingType 0
    return dimensions.reverse.foldl (fun result dimension => .array result dimension.toNat)
      underlyingType
  | .pointer _ space => getPointerType space

/-- `get_input_argument_type`: a kernel parameter is passed by pointer into the constant
    space, a register argument by value; no other state space reaches the emitter. -/
def getInputArgumentType (vType : PtxType) (stateSpace : StateSpace) :
    Except TranslateError LlvmType :=
  match stateSpace with
  | .paramEntry => do return .pointer (← getStateSpace stateSpace)
  | .reg => getType vType
  | _ => .error .unreachable

/-- `get_function_type`: the input argument types are collected first, the first failure
    winning; then the return type, `void` for none and a panic for more than one. -/
def getFunctionType (returnArgs : List PtxType)
    (inputArgs : List (Except TranslateError LlvmType)) : Except TranslateError FunctionType := do
  let inputArgs ← inputArgs.mapM id
  let returnType ← match returnArgs with
    | [] => pure .void
    | [t] => getType t
    | _ => throw .aborted
  return ⟨returnType, inputArgs⟩

/-- The parameter types of a function type `get_function_type` builds are its input argument
    types, in order. -/
theorem getFunctionType_params {rets : List PtxType} {ins : List (Except TranslateError LlvmType)}
    {t : FunctionType} (h : getFunctionType rets ins = .ok t) : ins.mapM id = .ok t.params := by
  simp only [getFunctionType, bind, Except.bind] at h
  cases hi : ins.mapM id <;> simp only [hi, reduceCtorEq] at h
  split at h <;> (try split at h) <;>
    first | cases h; rfl | simp only [throw, throwThe, MonadExceptOf.throw, reduceCtorEq] at h

/-- `nest ds e`: the array type with dimensions `ds` around `e`, the first dimension outermost. -/
def nest : List Nat → LlvmType → LlvmType
  | [], e => e
  | d :: rest, e => .array (nest rest e) d

/-- Folding the reversed dimensions from the left nests them with the first outermost. -/
theorem foldl_reverse_eq_nest (ds : List UInt32) (e : LlvmType) :
    ds.reverse.foldl (fun result dimension => LlvmType.array result dimension.toNat) e =
      nest (ds.map UInt32.toNat) e := by
  rw [List.foldl_reverse]
  induction ds with
  | nil => rfl
  | cons d ds ih => simp [nest, ih]

/-- `get_type` of an array: with no dimensions, `[0 x E]`; otherwise the dimensions nested
    around `E`, the first outermost, where `E` is the element scalar's type, wrapped as a vector
    when the array is packed. -/
theorem getType_array {s : ScalarType} {e : LlvmType} (hs : getScalarType s = .ok e)
    (vec : Option NonZeroU8) (ds : List UInt32) :
    getType (.array vec s ds) =
      .ok (if ds = [] then .array (vec.elim e fun v => .vector e v.val.toNat) 0
        else nest (ds.map UInt32.toNat) (vec.elim e fun v => .vector e v.val.toNat)) := by
  cases vec <;> cases ds <;> simp [getType, hs, -List.foldl_reverse, foldl_reverse_eq_nest, nest]

/-- A two-dimensional `.u32` array: `[2 x [3 x i32]]`. -/
theorem getType_u32_two_by_three :
    getScalarType .u32 = .ok (.int 32) ∧
      getType (.array none .u32 [2, 3]) = .ok (.array (.array (.int 32) 3) 2) :=
  ⟨rfl, getType_array (show getScalarType .u32 = .ok (.int 32) from rfl) none [2, 3]⟩

end ZludaPtx.EmitLlvm
