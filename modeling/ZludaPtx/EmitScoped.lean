import ZludaPtx.EmitOperands

/-!
# What the emitter needs of identifiers

`emit_llvm` keeps one value table for the whole module: what a method's header and body register
stays registered for every method after it.  So an identifier a body reads may stand for a
parameter or an instruction of another function, and the emitter does not check this: the
instruction it builds then reads a value of another function, which LLVM's verifier rejects.
`identsScoped` rules it out on the input: no parameter or definition of a body is a device
function's identifier, and every identifier a body reads before defining it is a parameter of its
method or a device function's.  The identifiers the normalize pass hands out are unique and
scoped, which gives both.

Under the check every registration of a device function's identifier stands for a function
(`FuncsBound`, a run invariant of the directive loop), and every identifier a body reads before
defining it was found at the method's start (`Lowered.found`), so it stands there for a parameter
of the method or a function.  Then every function `run` emits is well placed, with no assumption
on the emitter's state.

## Key results

- `Lowered.found`: a body's trace found every identifier the body reads before defining it
- `emitDirectives_funcsBound`: the run invariant of the directive loop
- `run_wellPlaced_of_scoped`: every function of the module `run` returns is well placed
-/

namespace ZludaPtx.EmitLlvm

open Llvm

variable {dbg : Bool}

/-! ## The check -/

/-- The identifiers of a module's device functions. -/
def funcIds (ds : List (Directive2 EmitStatement)) : List SpirvWord :=
  ds.filterMap fun
    | .method m =>
      match m.funcDecl.name with
      | .func id => some id
      | .kernel _ => none
    | .variable .. => none

/-- The identifiers a method defines: its parameters, and what its body defines. -/
def localIds (method : Function2 EmitStatement) : List SpirvWord :=
  method.funcDecl.inputArguments.map (·.name) ++ (method.body.getD []).flatMap defsOf

/-- What the emitter needs of a module's identifiers: no parameter or definition of a body is a
    device function's identifier, and every identifier a body reads before defining it is a
    parameter of its method or a device function's. -/
def identsScoped (ds : List (Directive2 EmitStatement)) : Bool :=
  ds.all fun
    | .method m =>
      (localIds m).all (· ∉ funcIds ds) &&
        (freeReads (m.body.getD [])).all fun w =>
          w ∈ m.funcDecl.inputArguments.map (·.name) || w ∈ funcIds ds
    | .variable .. => true

theorem identsScoped_sound {ds : List (Directive2 EmitStatement)} (h : identsScoped ds = true)
    {method : Function2 EmitStatement} (hm : .method method ∈ ds) :
    (∀ w ∈ localIds method, w ∉ funcIds ds) ∧
      ∀ body, method.body = some body → ∀ w ∈ freeReads body,
        w ∈ method.funcDecl.inputArguments.map (·.name) ∨ w ∈ funcIds ds := by
  have hm := List.all_eq_true.mp h _ hm
  simp only [Bool.and_eq_true, List.all_eq_true, decide_eq_true_eq, Bool.or_eq_true] at hm
  exact ⟨hm.1, fun body hb => by simpa [hb] using hm.2⟩

/-! ## The run invariant -/

/-- Every registration of an identifier of `F` stands for a function. -/
def FuncsBound (F : List SpirvWord) (vals : List (SpirvWord × Value)) : Prop :=
  ∀ e ∈ vals, e.1 ∈ F → ∃ j, e.2 = .function j

/-- A method whose parameters and definitions are not in `F` keeps the invariant: its header
    registers its parameters and its own function, its body only what the body defines. -/
theorem emitMethod_funcsBound {F : List SpirvWord} {idDefs : List (SpirvWord × IdentEntry)}
    {method : Function2 EmitStatement} {st st' : EmitState}
    (h : emitMethod dbg idDefs method st = .ok ((), st')) (hloc : ∀ w ∈ localIds method, w ∉ F)
    (hI : FuncsBound F st.resolver.values) : FuncsBound F st'.resolver.values := by
  obtain ⟨_, _, _, -, hm₃, -, -, hb₀, -, -, -, hv₃, -, hbody, hnone⟩ := emitMethod_header h
  obtain ⟨_, ds, -, ⟨new, hv', hnew⟩, hds⟩ := emitMethod_after_header hm₃ hb₀ hbody hnone
  intro e he hF
  rw [hv', hv₃] at he
  simp only [List.mem_append] at he
  rcases he with he | (he | he) | he
  · -- registered by the body: one of its definitions
    obtain ⟨body, hb, hd⟩ := hds e.1 (hnew e he)
    exact absurd hF (hloc e.1 (List.mem_append_right _ (by simpa [hb] using hd)))
  · exact absurd hF (hloc e.1 (List.mem_append_left _ (mem_paramBindings he)))
  · -- the function itself
    cases hn : method.funcDecl.name <;> simp only [selfBinding, hn, List.mem_singleton,
      List.not_mem_nil] at he
    exact ⟨_, by rw [he]⟩
  · exact hI e he hF

/-- The run invariant of the directive loop, for the device-function identifiers `F`. -/
theorem emitDirectives_funcsBound {F : List SpirvWord} {idDefs : List (SpirvWord × IdentEntry)}
    {ds : List (Directive2 EmitStatement)} {st st' : EmitState}
    (h : emitDirectives dbg idDefs ds st = .ok ((), st'))
    (hloc : ∀ method, .method method ∈ ds → ∀ w ∈ localIds method, w ∉ F)
    (hI : FuncsBound F st.resolver.values) : FuncsBound F st'.resolver.values :=
  emitDirectives_preserves (fun st => FuncsBound F st.resolver.values)
    (fun method _ _ hm h => emitMethod_funcsBound h (hloc method hm)) h hI

/-! ## Bodies -/

/-- A body's trace found every identifier the body reads before defining it among the values it
    started from. -/
theorem Lowered.found {fn : Nat} {ss : List EmitStatement} {os : List (List Inst)} {pt pe : Point}
    (hl : Lowered fn pt ss os pe) : ∀ w ∈ freeReads ss, ∃ v, pt.vals.lookup w = some v := by
  refine Lowered.induction ?nil ?decl ?label ?lowers hl
  case nil => exact fun _ _ h => nomatch h
  case decl =>
    -- a declaration reads nothing and registers its own identifier
    intro pt v ss os pe ih w hw
    simp only [freeReads, usesOf, defsOf, List.nil_append, List.mem_filter] at hw
    have hne : w ≠ v.name := fun h => by simp [h] at hw
    obtain ⟨x, hx⟩ := ih w hw.1
    exact ⟨x, by simpa [List.lookup_cons, beq_false_of_ne hne] using hx⟩
  case label =>
    intro pt l ss os pe ih w hw
    exact ih w (by simpa [freeReads, usesOf, defsOf] using hw)
  case lowers =>
    intro pt s is new ss os pe _ _ hlow ih w hw
    rcases List.mem_append.mp hw with hw | hw
    · exact hlow.found w hw
    · obtain ⟨hw, hd⟩ := List.mem_filter.mp hw
      obtain ⟨x, hx⟩ := ih w hw
      rw [List.lookup_append, hlow.lookup_eq_none (by simpa using hd), Option.none_or] at hx
      exact ⟨x, hx⟩

/-- At a method's start an identifier the body reads before defining it, if it is a parameter of
    the method or, under the invariant, a device function's, stands for a parameter of the function
    or a function, which the whole function may read. -/
theorem readsAvailable_of_funcsBound {F : List SpirvWord} {fn : Nat}
    {params : List (Ast.Variable SpirvWord)} {name : Ast.MethodName SpirvWord}
    {vals : List (SpirvWord × Value)} {body : List EmitStatement} (hI : FuncsBound F vals)
    (hreads : ∀ w ∈ freeReads body, w ∈ params.map (·.name) ∨ w ∈ F)
    (hfound : ∀ w ∈ freeReads body,
      ∃ v, (paramBindings fn 0 params ++ selfBinding name fn ++ vals).lookup w = some v) :
    ReadsAvailable fn (paramBindings fn 0 params ++ selfBinding name fn ++ vals) body 1 0 := by
  intro w hw
  obtain ⟨v, hv⟩ := hfound w hw
  refine ⟨v, hv, ?_⟩
  by_cases hp : w ∈ params.map (·.name)
  · -- the parameters come first
    obtain ⟨j, hj⟩ := lookup_paramBindings_of_mem fn 0 hp
    rw [List.lookup_append, List.lookup_append, hj] at hv
    cases hv
    rfl
  have he := List.mem_of_lookup_eq_some hv
  simp only [List.mem_append] at he
  rcases he with (he | he) | he
  · exact absurd (mem_paramBindings he) hp
  · cases name <;> simp only [selfBinding, List.mem_singleton, List.not_mem_nil,
      Prod.mk.injEq] at he
    rw [he.2]
    trivial
  · obtain ⟨j, hj⟩ := hI _ he ((hreads w hw).resolve_left hp)
    rw [show v = _ from hj]
    trivial

/-! ## Methods and the module -/

/-- A method whose body reads before defining only its parameters and identifiers of `F` adds a
    well-placed function, when the invariant holds before it. -/
theorem emitMethod_wellPlaced_of_funcsBound {F : List SpirvWord}
    {idDefs : List (SpirvWord × IdentEntry)} {method : Function2 EmitStatement} {st st' : EmitState}
    (h : emitMethod dbg idDefs method st = .ok ((), st')) (hI : FuncsBound F st.resolver.values)
    (hreads : ∀ body, method.body = some body → ∀ w ∈ freeReads body,
      w ∈ method.funcDecl.inputArguments.map (·.name) ∨ w ∈ F) :
    ∃ f, st'.module.functions = st.module.functions ++ [f] ∧
      BlocksWellPlaced st.module.functions.length 0 (f.blocks.map Block.insts) := by
  cases hb : method.body with
  | none =>
    -- a declaration adds a function with no blocks
    obtain ⟨_, f, _, -, hm₃, -, -, hb₀, -, -, -, -, -, -, hnone⟩ := emitMethod_header h
    rw [hnone hb] at *
    exact ⟨f, by rw [hm₃], by rw [hb₀]; trivial⟩
  | some body =>
    obtain ⟨f, hfs, hwp⟩ := emitMethod_wellPlaced hb h
    obtain ⟨_, _, _, _, -, hl, -⟩ := emitMethod_lowered hb h
    exact ⟨f, hfs, hwp (readsAvailable_of_funcsBound hI (hreads body hb) hl.found)⟩

/-- Every function of a module is well placed: its blocks, numbered from 0, fit the chain the
    emitter builds. -/
def ModuleWellPlaced (m : Module) : Prop :=
  ∀ k f, m.functions[k]? = some f → BlocksWellPlaced k 0 (f.blocks.map Block.insts)

/-- **Every function `run` emits is well placed.**  When `run` returns a module for directives
    whose identifiers pass `identsScoped`, every function of the module fits LLVM's SSA rules for
    a chain of blocks: every branch goes to the next block, and every operand of every instruction
    is a parameter of that function, a function, a constant, or an instruction of that same
    function placed before it.  No instruction reads a value of another function. -/
theorem run_wellPlaced_of_scoped {verify : Module → Bool} {idDefs : List (SpirvWord × IdentEntry)}
    {ds : List (Directive2 EmitStatement)} {m : Module} (h : run dbg verify idDefs ds = .ok m)
    (hsc : identsScoped ds = true) : ModuleWellPlaced m := by
  intro k f hf
  obtain ⟨st', hst', -, rfl⟩ := run_eq_ok.mp h
  obtain ⟨fs, hfs, hall⟩ := emitDirectives_functions hst'
  -- the `k`-th function comes from the `k`-th directive, a method
  have hk : k < ds.length := by
    rw [hall.length_eq]
    simpa [hfs, EmitState.new] using (List.getElem?_eq_some_iff.mp hf).1
  obtain ⟨d, hd⟩ : ∃ d, ds[k]? = some d := ⟨_, List.getElem?_eq_getElem hk⟩
  obtain ⟨_, -, method, rfl, -⟩ := hall.flip.exists_of_mem_right (List.mem_iff_getElem?.mpr ⟨k, hd⟩)
  obtain ⟨st, st₁, hpre, hm, hlen, hat⟩ := run_method_at h hd
  have hI := emitDirectives_funcsBound hpre
    (fun method' hm' => (identsScoped_sound hsc (List.mem_of_mem_take hm')).1)
    (fun _ he => nomatch he)
  obtain ⟨f', hf', hwp⟩ := emitMethod_wellPlaced_of_funcsBound hm hI
    (identsScoped_sound hsc (List.mem_iff_getElem?.mpr ⟨k, hd⟩)).2
  obtain rfl : f' = f := Option.some.inj ((hat f' hf').symm.trans hf)
  rwa [hlen] at hwp

/-- The module of `declCallDef`, whose kernel calls `f` by its identifier, is well placed. -/
theorem declCallDef_wellPlaced :
    ∃ m, run true (fun _ => true) [(1, ⟨some "f", none⟩)] declCallDef = .ok m ∧
      identsScoped declCallDef = true ∧ ModuleWellPlaced m := by
  obtain ⟨_, st, hst, -⟩ :=
    (emitDirectives_runs true [(1, ⟨some "f", none⟩)] [] declCallDef).succeeds _ Inv.new (by decide)
  have h : run true (fun _ => true) [(1, ⟨some "f", none⟩)] declCallDef = .ok st.module :=
    run_eq_ok.mpr ⟨st, hst, rfl, rfl⟩
  exact ⟨_, h, by decide, run_wellPlaced_of_scoped h (by decide)⟩

end ZludaPtx.EmitLlvm
