import ZludaPtx.ForStd.Repr
import ZludaPtx.ForStd.List
import ZludaPtx.ForStd.StateT
import ZludaPtx.Ast
import ZludaPtx.Resolver
import ZludaPtx.NormalizeIdentifiers
import ZludaPtx.NormalizeScopes
import ZludaPtx.Scoping
import ZludaPtx.NormalizeSound
import ZludaPtx.NormalizeComplete
import ZludaPtx.NormalizeRoundTrip
import ZludaPtx.NormalizeExact
import ZludaPtx.Llvm
import ZludaPtx.ResolveIdent
import ZludaPtx.EmitTypes
import ZludaPtx.EmitLlvm
import ZludaPtx.EmitSteps
import ZludaPtx.EmitMethod
import ZludaPtx.EmitLayout
import ZludaPtx.EmitModule
import ZludaPtx.EmitProgress
import ZludaPtx.EmitSemantics
import ZludaPtx.EmitLowering
import ZludaPtx.EmitCorrect
import ZludaPtx.EmitModuleCorrect
import ZludaPtx.EmitTerminators
import ZludaPtx.EmitOperands
import ZludaPtx.EmitScoped
import ZludaPtx.SpirvRun.EqMap
import ZludaPtx.SpirvRun.Compare
import ZludaPtx.ZludaMl.ImplCommon
