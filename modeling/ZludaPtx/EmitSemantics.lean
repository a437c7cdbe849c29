import ZludaPtx.EmitSteps

/-!
# What a body means, and what its LLVM function does

Two semantics over one interpretation of the operations.  `Interp` leaves open what values and
memories are and what each operation does: loading and storing, integer and floating-point
addition, the bit-to-pointer conversion, the address of a function's `k`-th local and of the
module's `k`-th function, constants, and calls.

A body runs its statements in order over a register file (`execBody`).  A declaration's register
gets the address of the body's next local, `mov` copies a register, a constant gets what the
LLVM constant `emit_constant` builds for it stands for, and `ret` ends the body.  A statement
that reads a register with no value gets stuck, as does one the emitter does not lower.  Since a
constant's meaning on both sides is the emitter's own `constantValue`, what the lowering is shown
to preserve says nothing about whether that value is the immediate's: `EmitSteps` states what
`constantValue` gives at each width.

An LLVM function runs its code block by block (`execFunction`).  Each instruction's result is
recorded under its block and index, which is how `Value.inst` names it.  A branch enters the
block it names, `ret void` ends the call, and running past a block's last instruction ends the
call without a return.  Entering a block costs one unit of fuel.

Types and names of instructions play no part: this is the data flow, the control flow and the
order of the memory accesses of the lowering.  `Emits` and `AllocaOf` say which types the
instructions carry.

## Key results

- `execInsts_append`: running two pieces of a block is running one, then the other
- `execFrom_of_execInsts`: the code of a block from index `i`, when its first instructions run
  through
- `execFrom_br`, `execFrom_retVoid`, `execFrom_end`: a branch, a return, and the end of a block
-/

namespace ZludaPtx.EmitLlvm

open Llvm

/-- The meaning of the operations the emitter lowers, over values `V` and memories `M`. -/
structure Interp (V M : Type) where
  /-- The value at an address: `ld`, and `LLVMBuildLoad2`. -/
  load : M → V → V
  /-- The memory after a value is written at an address: `st`, and `LLVMBuildStore`. -/
  store : M → V → V → M
  /-- Integer addition: `add` on integers, and `LLVMBuildAdd`. -/
  add : V → V → V
  /-- Floating-point addition: `add` on floats, and `LLVMBuildFAdd`. -/
  fadd : V → V → V
  /-- An integer as a pointer: the bit-to-pointer conversion, and `LLVMBuildIntToPtr`. -/
  intToPtr : V → V
  /-- The address of a function's `k`-th local: `LLVMBuildAlloca`. -/
  alloca : Nat → V
  /-- The address of the module's `k`-th function. -/
  function : Nat → V
  /-- What an LLVM constant stands for. -/
  const : Value → V
  /-- A call of the function at an address on arguments: its result and the memory after it. -/
  call : V → List V → M → V × M

variable {V M : Type} (I : Interp V M)

/-! ## Bodies -/

/-- A running body: the value of each register, the memory, and how many locals it declared. -/
structure BodyState (V M : Type) where
  regs : SpirvWord → Option V
  mem : M
  locals : Nat

/-- Registers with `w` holding `x`. -/
def setReg (regs : SpirvWord → Option V) (w : SpirvWord) (x : Option V) : SpirvWord → Option V :=
  fun u => if u = w then x else regs u

@[simp] theorem setReg_self (regs : SpirvWord → Option V) (w : SpirvWord) (x : Option V) :
    setReg regs w x w = x := if_pos rfl

theorem setReg_of_ne {regs : SpirvWord → Option V} {w u : SpirvWord} (x : Option V) (h : u ≠ w) :
    setReg regs w x u = regs u := if_neg h

/-- One statement of a body other than `ret`; `none` where it reads a register with no value,
    and for every statement the emitter does not lower. -/
def execStatement (σ : BodyState V M) : EmitStatement → Option (BodyState V M)
  | .variable v =>
    some { σ with regs := setReg σ.regs v.name (some (I.alloca σ.locals)), locals := σ.locals + 1 }
  | .label _ => some σ
  | .instruction (.mov dst src) => some { σ with regs := setReg σ.regs dst (σ.regs src) }
  | .instruction (.ld _ dst src) => do
    let p ← σ.regs src
    some { σ with regs := setReg σ.regs dst (some (I.load σ.mem p)) }
  | .instruction (.add .integer dst src1 src2) => do
    let x ← σ.regs src1
    let y ← σ.regs src2
    some { σ with regs := setReg σ.regs dst (some (I.add x y)) }
  | .instruction (.add .float dst src1 src2) => do
    let x ← σ.regs src1
    let y ← σ.regs src2
    some { σ with regs := setReg σ.regs dst (some (I.fadd x y)) }
  | .instruction (.st _ src1 src2) => do
    let x ← σ.regs src2
    let p ← σ.regs src1
    some { σ with mem := I.store σ.mem p x }
  | .instruction (.call _ rets func ins) => do
    let g ← σ.regs func
    let args ← ins.mapM σ.regs
    let res := I.call g args σ.mem
    match rets with
    | [] => some { σ with mem := res.2 }
    | [dst] => some { σ with regs := setReg σ.regs dst (some res.1), mem := res.2 }
    | _ => none
  | .loadVar d => do
    let p ← σ.regs d.src
    some { σ with regs := setReg σ.regs d.dst (some (I.load σ.mem p)) }
  | .storeVar d => do
    let x ← σ.regs d.src2
    let p ← σ.regs d.src1
    some { σ with mem := I.store σ.mem p x }
  | .conversion c =>
    match c.kind with
    | .bitToPtr => do
      let x ← σ.regs c.src
      some { σ with regs := setReg σ.regs c.dst (some (I.intToPtr x)) }
    | _ => none
  | .constant c =>
    match constantValue c with
    | .ok v => some { σ with regs := setReg σ.regs c.dst (some (I.const v)) }
    | .error _ => none
  | _ => none

/-- A body run from `σ`: the state it ends in, and whether it ended at a `ret` rather than after
    its last statement; `none` when a statement gets stuck. -/
def execBody : List EmitStatement → BodyState V M → Option (BodyState V M × Bool)
  | [], σ => some (σ, false)
  | s :: ss, σ => if isRet s then some (σ, true) else (execStatement I σ s).bind (execBody ss)

/-! ## LLVM functions -/

/-- A running LLVM function: the result of each instruction run so far by block and index,
    newest first, the memory, and how many allocas have run. -/
structure FrameState (V M : Type) where
  results : List ((Nat × Nat) × V)
  mem : M
  allocas : Nat

/-- The frame with result `x` recorded for index `i` of block `b`. -/
def FrameState.record (τ : FrameState V M) (b i : Nat) (x : V) : FrameState V M :=
  { τ with results := ((b, i), x) :: τ.results }

@[simp] theorem FrameState.record_mem (τ : FrameState V M) (b i : Nat) (x : V) :
    (τ.record b i x).mem = τ.mem := rfl

@[simp] theorem FrameState.record_results (τ : FrameState V M) (b i : Nat) (x : V) :
    (τ.record b i x).results = ((b, i), x) :: τ.results := rfl

/-- What a value stands for in function `fn` called on `args`: a parameter its argument, an
    instruction its recorded result.  Another function's parameters and instructions stand for
    nothing there. -/
def evalValue (fn : Nat) (args : List V) (results : List ((Nat × Nat) × V)) : Value → Option V
  | .function k => some (I.function k)
  | .param f i => if f = fn then args[i]? else none
  | .inst f b i => if f = fn then results.lookup (b, i) else none
  | .constInt w n => some (I.const (.constInt w n))
  | .constReal t x => some (I.const (.constReal t x))

/-- Where control goes after an instruction. -/
inductive Flow where
  | next
  | br (dest : Nat)
  | ret

/-- One instruction of function `fn`, at index `i` of block `b`. -/
def execInst (fn : Nat) (args : List V) (b i : Nat) (τ : FrameState V M) :
    Inst → Option (FrameState V M × Flow)
  | .alloca .. =>
    some ({ τ.record b i (I.alloca τ.allocas) with allocas := τ.allocas + 1 }, .next)
  | .load _ ptr _ => do
    let p ← evalValue I fn args τ.results ptr
    some (τ.record b i (I.load τ.mem p), .next)
  | .store value ptr => do
    let x ← evalValue I fn args τ.results value
    let p ← evalValue I fn args τ.results ptr
    some ({ τ with mem := I.store τ.mem p x }, .next)
  | .add lhs rhs _ => do
    let x ← evalValue I fn args τ.results lhs
    let y ← evalValue I fn args τ.results rhs
    some (τ.record b i (I.add x y), .next)
  | .fadd lhs rhs _ => do
    let x ← evalValue I fn args τ.results lhs
    let y ← evalValue I fn args τ.results rhs
    some (τ.record b i (I.fadd x y), .next)
  | .intToPtr value _ _ => do
    let x ← evalValue I fn args τ.results value
    some (τ.record b i (I.intToPtr x), .next)
  | .call _ callee vals _ => do
    let g ← evalValue I fn args τ.results callee
    let xs ← vals.mapM (evalValue I fn args τ.results)
    let res := I.call g xs τ.mem
    some ({ τ.record b i res.1 with mem := res.2 }, .next)
  | .br dest => some (τ, .br dest)
  | .retVoid => some (τ, .ret)

/-- The instructions of block `b` from index `i` on, until one leaves the block. -/
def execInsts (fn : Nat) (args : List V) (b : Nat) :
    Nat → List Inst → FrameState V M → Option (FrameState V M × Flow)
  | _, [], τ => some (τ, .next)
  | i, x :: xs, τ =>
    match execInst I fn args b i τ x with
    | some (τ', .next) => execInsts fn args b (i + 1) xs τ'
    | r => r

/-- The code of function `fn`, its blocks' instructions, run from index `i` of block `b`: the
    frame it ends in, and whether it returned.  Entering a block costs one unit of fuel; `none`
    when the fuel runs out, a branch names no block, or an instruction gets stuck. -/
def execFrom (fn : Nat) (args : List V) (code : List (List Inst)) :
    Nat → Nat → Nat → FrameState V M → Option (FrameState V M × Bool)
  | 0, _, _, _ => none
  | fuel + 1, b, i, τ =>
    match code[b]? with
    | none => none
    | some is =>
      match execInsts I fn args b i (is.drop i) τ with
      | some (τ', .br dest) => execFrom fn args code fuel dest 0 τ'
      | some (τ', .ret) => some (τ', true)
      | some (τ', .next) => some (τ', false)
      | none => none

/-- A call of `f`, the module's function `fn`, on `args` with memory `mem`: the memory it leaves
    and whether it returned. -/
def execFunction (fn : Nat) (f : Function) (args : List V) (mem : M) (fuel : Nat) :
    Option (M × Bool) :=
  (execFrom I fn args (f.blocks.map Block.insts) fuel 0 0 ⟨[], mem, 0⟩).map fun r => (r.1.mem, r.2)

/-! ## Running pieces of code -/

variable {fn : Nat} {args : List V}

/-- A block piece of one instruction runs that instruction. -/
@[simp] theorem execInsts_singleton (b i : Nat) (x : Inst) (τ : FrameState V M) :
    execInsts I fn args b i [x] τ = execInst I fn args b i τ x := by
  simp only [execInsts]
  split <;> simp_all

/-- Running two pieces of a block: the first, then the second if control is still in the
    block. -/
theorem execInsts_append (b : Nat) (is rest : List Inst) :
    ∀ (i : Nat) (τ : FrameState V M), execInsts I fn args b i (is ++ rest) τ =
      match execInsts I fn args b i is τ with
      | some (τ', .next) => execInsts I fn args b (i + is.length) rest τ'
      | r => r := by
  induction is with
  | nil => intro i τ; rfl
  | cons x xs ih =>
    intro i τ
    simp only [List.cons_append, execInsts, List.length_cons]
    rcases execInst I fn args b i τ x with _ | ⟨τ', _ | _ | _⟩
    · rfl
    · simp only [List.append_eq, ih, Nat.add_assoc, Nat.add_comm 1]
    · rfl
    · rfl

/-- Instructions that run through, control staying in the block, hold no terminator. -/
theorem not_terminator_of_execInsts {b : Nat} {is : List Inst} :
    ∀ {i : Nat} {τ τ' : FrameState V M}, execInsts I fn args b i is τ = some (τ', .next) →
      ∀ x ∈ is, x.isTerminator = false := by
  induction is with
  | nil => simp
  | cons x xs ih =>
    intro i τ τ' h y hy
    simp only [execInsts] at h
    split at h
    · next τ₁ hx =>
      rcases List.mem_cons.mp hy with rfl | hy
      · cases y <;> first | rfl | simp [execInst] at hx
      · exact ih h y hy
    · next hx => exact absurd h (hx τ')

/-- The code of a block from index `i`, when its next instructions `is` run through: the code
    from just after them. -/
theorem execFrom_of_execInsts {code : List (List Inst)} {b i fuel : Nat} {c is rest : List Inst}
    {τ τ' : FrameState V M} (hc : code[b]? = some c) (hdrop : c.drop i = is ++ rest)
    (his : execInsts I fn args b i is τ = some (τ', .next)) :
    execFrom I fn args code (fuel + 1) b i τ = execFrom I fn args code (fuel + 1) b (i + is.length) τ' := by
  have hdrop' : c.drop (i + is.length) = rest := by
    rw [← List.drop_drop, hdrop, List.drop_left]
  simp only [execFrom, hc, hdrop, hdrop', execInsts_append, his]

/-- The code of a block from index `i`, when the instructions there get stuck: stuck. -/
theorem execFrom_of_execInsts_none {code : List (List Inst)} {b i fuel : Nat} {c is rest : List Inst}
    {τ : FrameState V M} (hc : code[b]? = some c) (hdrop : c.drop i = is ++ rest)
    (his : execInsts I fn args b i is τ = none) :
    execFrom I fn args code (fuel + 1) b i τ = none := by
  simp only [execFrom, hc, hdrop, execInsts_append, his]

/-- The code of a block from index `i`, when nothing of the block is left: the call ends without
    a return. -/
theorem execFrom_end {code : List (List Inst)} {b i fuel : Nat} {c : List Inst}
    {τ : FrameState V M} (hc : code[b]? = some c) (hdrop : c.drop i = []) :
    execFrom I fn args code (fuel + 1) b i τ = some (τ, false) := by
  simp only [execFrom, hc, hdrop, execInsts]

/-- The code of a block from index `i`, when a branch is next: the code of the block it names,
    from its start. -/
theorem execFrom_br {code : List (List Inst)} {b i fuel d : Nat} {c rest : List Inst}
    {τ : FrameState V M} (hc : code[b]? = some c) (hdrop : c.drop i = .br d :: rest) :
    execFrom I fn args code (fuel + 1) b i τ = execFrom I fn args code fuel d 0 τ := by
  simp only [execFrom, hc, hdrop, execInsts, execInst]

/-- The code of a block from index `i`, when `ret void` is next: the call returns. -/
theorem execFrom_retVoid {code : List (List Inst)} {b i fuel : Nat} {c rest : List Inst}
    {τ : FrameState V M} (hc : code[b]? = some c) (hdrop : c.drop i = .retVoid :: rest) :
    execFrom I fn args code (fuel + 1) b i τ = some (τ, true) := by
  simp only [execFrom, hc, hdrop, execInsts, execInst]

end ZludaPtx.EmitLlvm
