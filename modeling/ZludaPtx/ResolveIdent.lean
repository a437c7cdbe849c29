import ZludaPtx.Llvm
import ZludaPtx.ForStd.Repr
import ZludaPtx.ForStd.StateT
import ZludaPtx.ForStd.List
import Mathlib.Data.String.Basic

/-!
# `ResolveIdent`: LLVM names and values of identifiers

The emitter names every LLVM value after the identifier it defines, and finds the value an
operand stands for through the same table.  `ResolveIdent` holds two hash maps: `words`, the
text of each identifier's name, stored as its decimal rendering followed by a NUL so that LLVM
can read it as a C string, and `values`, the LLVM value last registered for each identifier.

`get_or_ad_impl` interns the text on first use and hands out the slice without its last
character; `get_or_add_raw` and `with_result` hand LLVM a pointer to that slice, from which LLVM
reads up to the first NUL of the stored text.  The model returns the stored text with the slice,
and `cString` is what LLVM reads from it.

## Key results

- `getOrAdd_eq_ok` / `getOrAddRaw_eq_ok`: with well-formed `words`, both give `toString word`
- `getOrAdImpl_values`: interning never touches `values`
- `value_eq_ok`: `value` is a lookup of the newest registration
- `runOps_of_wordsWf`: every sequence of operations keeps `words` well formed, and fails only
  where `value` finds nothing registered
- `runOps_new_names`: from a fresh resolver, every state a sequence reaches names each
  identifier by its decimal rendering, whichever operation interned it
-/

namespace ZludaPtx.EmitLlvm

open Llvm

/-- `ResolveIdent`.  Both hash maps are association lists, newest entry first, so that a lookup
    sees the last `insert`. -/
structure ResolveIdent where
  words : List (SpirvWord × String)
  values : List (SpirvWord × Value)

/-- The resolver's operations fail only by panicking. -/
abbrev ResolveM := StateT ResolveIdent (Except TranslateError)

namespace ResolveIdent

/-- `ResolveIdent::new`: both maps empty. -/
def new : ResolveIdent := ⟨[], []⟩

/-- The entry of `words` for `word` (`hash_map::Entry`): the stored text, or else the decimal
    rendering of `word` followed by a NUL, inserted. -/
def entry (word : SpirvWord) (r : ResolveIdent) : String × ResolveIdent :=
  match r.words.lookup word with
  | some str => (str, r)
  | none =>
    let text := toString word ++ "\x00"
    (text, { r with words := (word, text) :: r.words })

/-- `get_or_ad_impl`: the slice `&str[..str.len() - 1]` of `word`'s entry, with the entry it
    points into.  An empty entry makes the subtraction underflow, a panic. -/
def getOrAdImpl (word : SpirvWord) : ResolveM (String × String) := fun r =>
  let (str, r') := entry word r
  if str.length = 0 then .error .aborted else .ok ((str.take (str.length - 1), str), r')

/-- The C string LLVM reads through a pointer to the start of `s`: the characters before the
    first NUL. -/
def cString (s : String) : String := ⟨s.data.takeWhile (· != '\x00')⟩

/-- `get_or_add`: the slice itself. -/
def getOrAdd (word : SpirvWord) : ResolveM String := do
  return (← getOrAdImpl word).1

/-- `get_or_add_raw`: a pointer to the slice, as the C string LLVM reads through it. -/
def getOrAddRaw (word : SpirvWord) : ResolveM String := do
  return cString (← getOrAdImpl word).2

/-- `register`: `values.insert(word, v)`. -/
def register (word : SpirvWord) (v : Value) : ResolveM Unit := fun r =>
  .ok ((), { r with values := (word, v) :: r.values })

/-- `with_result`: intern `word`, hand `fn_` the C string of its name to build the value, and
    register the value.  The emitter's `withResult` is the same sequence with `fn_` building an
    instruction in the emitter's monad. -/
def withResult (word : SpirvWord) (fn_ : String → Value) : ResolveM Unit := do
  let dst ← getOrAddRaw word
  register word (fn_ dst)

/-- `value`: the registered value, or `error_unreachable()`. -/
def value (word : SpirvWord) : ResolveM Value := fun r =>
  match r.values.lookup word with
  | some v => .ok (v, r)
  | none => .error .unreachable

/-- Every text in `words` is its identifier's decimal rendering followed by one NUL. -/
def WordsWf (r : ResolveIdent) : Prop := ∀ e ∈ r.words, e.2 = toString e.1 ++ "\x00"

theorem new_wordsWf : new.WordsWf := fun _ h => nomatch h

@[simp] theorem entry_values (word : SpirvWord) (r : ResolveIdent) :
    (entry word r).2.values = r.values := by
  unfold entry; split <;> rfl

/-- With well-formed `words`, the entry for `word` is its rendering with a NUL, and the words
    stay well formed. -/
theorem entry_of_wordsWf {r : ResolveIdent} (h : r.WordsWf) (word : SpirvWord) :
    (entry word r).1 = toString word ++ "\x00" ∧ (entry word r).2.WordsWf := by
  unfold entry
  split
  · next str hl => exact ⟨h _ (List.mem_of_lookup_eq_some hl), h⟩
  · exact ⟨rfl, fun e he => (List.mem_cons.mp he).elim (fun he => by rw [he]) (h e)⟩

/-- A NUL-terminated rendering, read back as a slice: the rendering. -/
private theorem take_toString_nul (word : SpirvWord) :
    (toString word ++ "\x00").take ((toString word ++ "\x00").length - 1) = toString word := by
  rw [String.take_eq]
  ext1
  show ((toString word).data ++ ['\x00']).take (((toString word).data ++ ['\x00']).length - 1) = _
  simp

/-- A rendering is digits only: it holds no NUL. -/
theorem nul_not_mem_toString (word : SpirvWord) : '\x00' ∉ (toString word).data := fun h =>
  absurd (Nat.isDigit_of_mem_toString h) (by decide)

/-- A NUL-terminated rendering, read as a C string: the rendering, which holds no NUL. -/
theorem cString_toString_nul (word : SpirvWord) :
    cString (toString word ++ "\x00") = toString word := by
  have hdig : ∀ c ∈ (toString word).data, (c != '\x00') = true := fun c hc => by
    simpa using fun h : c = '\x00' => nul_not_mem_toString word (h ▸ hc)
  rw [cString]
  ext1
  simp [String.data_append, List.takeWhile_append_of_pos hdig]

/-- Interning never touches `values`. -/
theorem getOrAdImpl_values {word : SpirvWord} {r r' : ResolveIdent} {a : String × String}
    (h : getOrAdImpl word r = .ok (a, r')) : r'.values = r.values := by
  simp only [getOrAdImpl] at h
  split at h
  · cases h
  · cases h; exact entry_values word r

/-- With well-formed `words`, `get_or_ad_impl` hands out the rendering of `word`, as the slice
    and as the text it points into, and keeps the words well formed. -/
theorem getOrAdImpl_of_wordsWf {r : ResolveIdent} (h : r.WordsWf) (word : SpirvWord) :
    ∃ r', getOrAdImpl word r = .ok ((toString word, toString word ++ "\x00"), r') ∧
      r'.values = r.values ∧ r'.WordsWf := by
  obtain ⟨he, hwf⟩ := entry_of_wordsWf h word
  refine ⟨(entry word r).2, ?_, entry_values word r, hwf⟩
  have hlen : (toString word ++ "\x00").length ≠ 0 := by
    have h1 : "\x00".length = 1 := rfl
    rw [String.length_append, h1]
    exact Nat.succ_ne_zero _
  simp only [getOrAdImpl, he, take_toString_nul, if_neg hlen]

/-- With well-formed `words`, `get_or_add` gives the rendering of `word`. -/
theorem getOrAdd_eq_ok {r : ResolveIdent} (h : r.WordsWf) (word : SpirvWord) :
    ∃ r', getOrAdd word r = .ok (toString word, r') ∧ r'.values = r.values ∧ r'.WordsWf := by
  obtain ⟨r', hi, hv, hw⟩ := getOrAdImpl_of_wordsWf h word
  exact ⟨r', by simp [getOrAdd, StateT.bind_apply_of_eq_ok hi], hv, hw⟩

/-- With well-formed `words`, `get_or_add_raw` hands LLVM the rendering of `word`. -/
theorem getOrAddRaw_eq_ok {r : ResolveIdent} (h : r.WordsWf) (word : SpirvWord) :
    ∃ r', getOrAddRaw word r = .ok (toString word, r') ∧ r'.values = r.values ∧ r'.WordsWf := by
  obtain ⟨r', hi, hv, hw⟩ := getOrAdImpl_of_wordsWf h word
  refine ⟨r', ?_, hv, hw⟩
  simp [getOrAddRaw, StateT.bind_apply_of_eq_ok hi, cString_toString_nul]

theorem getOrAdd_values {word : SpirvWord} {r r' : ResolveIdent} {n : String}
    (h : getOrAdd word r = .ok (n, r')) : r'.values = r.values := by
  obtain ⟨_, h, _⟩ := StateT.map_apply_eq_ok.mp h
  exact getOrAdImpl_values h

theorem getOrAddRaw_values {word : SpirvWord} {r r' : ResolveIdent} {n : String}
    (h : getOrAddRaw word r = .ok (n, r')) : r'.values = r.values := by
  simp only [getOrAddRaw, StateT.bind_apply_eq_ok, StateT.pure_apply, Except.ok.injEq,
    Prod.mk.injEq] at h
  obtain ⟨_, _, h, -, rfl⟩ := h
  exact getOrAdImpl_values h

theorem register_eq_ok {word : SpirvWord} {v : Value} {r r' : ResolveIdent} {u : Unit} :
    register word v r = .ok (u, r') ↔ r' = { r with values := (word, v) :: r.values } := by
  simp [register, eq_comm]

/-- `value` succeeds exactly on a registered identifier, with its newest value. -/
theorem value_eq_ok {word : SpirvWord} {r r' : ResolveIdent} {v : Value} :
    value word r = .ok (v, r') ↔ r.values.lookup word = some v ∧ r' = r := by
  cases h : r.values.lookup word with
  | none => simp [value, h]
  | some v' =>
    simp only [value, h, Except.ok.injEq, Prod.mk.injEq, Option.some.injEq]
    exact ⟨fun ⟨a, b⟩ => ⟨a, b.symm⟩, fun ⟨a, b⟩ => ⟨a, b.symm⟩⟩

/-! ## Runs of operations

Any sequence of calls of the resolver's interface, from `ResolveIdent::new`.  Each call from a
state with well-formed words either fails with `error_unreachable()` (only `value` can) or leaves
the words well formed (`Op.run_of_wordsWf`); by induction, so does every sequence
(`runOps_of_wordsWf`).  No call ever panics: the slice bound `str.len() - 1` never underflows. -/

/-- One call of the resolver's interface, `with_result` with the closure that builds the value
    from the name it is handed. -/
inductive Op where
  | getOrAdd (word : SpirvWord)
  | getOrAddRaw (word : SpirvWord)
  | withResult (word : SpirvWord) (fn_ : String → Value)
  | register (word : SpirvWord) (v : Value)
  | value (word : SpirvWord)

/-- Perform one call, dropping its result. -/
def Op.run : Op → ResolveM Unit
  | .getOrAdd word => do let _ ← ResolveIdent.getOrAdd word; pure ()
  | .getOrAddRaw word => do let _ ← ResolveIdent.getOrAddRaw word; pure ()
  | .withResult word fn_ => ResolveIdent.withResult word fn_
  | .register word v => ResolveIdent.register word v
  | .value word => do let _ ← ResolveIdent.value word; pure ()

/-- A sequence of calls, in order; the first failure ends it. -/
def runOps : List Op → ResolveM Unit
  | [] => pure ()
  | op :: ops => do
    op.run
    runOps ops

/-- With well-formed words, `with_result` hands `fn_` the rendering of `word` and registers what
    `fn_` builds from it. -/
theorem withResult_eq_ok {r : ResolveIdent} (h : r.WordsWf) (word : SpirvWord)
    (fn_ : String → Value) : ∃ r', withResult word fn_ r = .ok ((), r') ∧
      r'.values = (word, fn_ (toString word)) :: r.values ∧ r'.WordsWf := by
  obtain ⟨r', hr, hv, hw⟩ := getOrAddRaw_eq_ok h word
  exact ⟨{ r' with values := (word, fn_ (toString word)) :: r'.values },
    by simp only [withResult, StateT.bind_apply_of_eq_ok hr, register], by rw [hv], hw⟩

/-- From well-formed words, a call fails only as `value` of an unregistered identifier, and
    otherwise keeps the words well formed. -/
theorem Op.run_of_wordsWf {r : ResolveIdent} (h : r.WordsWf) (op : Op) :
    (∃ r', op.run r = .ok ((), r') ∧ r'.WordsWf) ∨ op.run r = .error .unreachable := by
  cases op with
  | getOrAdd word =>
    obtain ⟨r', hr, -, hw⟩ := getOrAdd_eq_ok h word
    exact .inl ⟨r', by simp only [Op.run, StateT.bind_apply_of_eq_ok hr, StateT.pure_apply], hw⟩
  | getOrAddRaw word =>
    obtain ⟨r', hr, -, hw⟩ := getOrAddRaw_eq_ok h word
    exact .inl ⟨r', by simp only [Op.run, StateT.bind_apply_of_eq_ok hr, StateT.pure_apply], hw⟩
  | withResult word fn_ =>
    obtain ⟨r', hr, -, hw⟩ := withResult_eq_ok h word fn_
    exact .inl ⟨r', hr, hw⟩
  | register word v => exact .inl ⟨_, rfl, h⟩
  | value word =>
    cases hl : r.values.lookup word with
    | none => exact .inr (StateT.bind_apply_eq_error.mpr (.inl (by simp [ResolveIdent.value, hl])))
    | some v =>
      have hv := ResolveIdent.value_eq_ok.mpr ⟨hl, rfl⟩
      exact .inl ⟨r, by simp only [Op.run, StateT.bind_apply_of_eq_ok hv, StateT.pure_apply], h⟩

/-- The run lemma: from well-formed words, a sequence of calls fails only as `value` of an
    unregistered identifier, and otherwise ends with well-formed words. -/
theorem runOps_of_wordsWf (ops : List Op) {r : ResolveIdent} (h : r.WordsWf) :
    (∃ r', runOps ops r = .ok ((), r') ∧ r'.WordsWf) ∨ runOps ops r = .error .unreachable := by
  induction ops generalizing r with
  | nil => exact .inl ⟨r, rfl, h⟩
  | cons op ops ih =>
    rcases Op.run_of_wordsWf h op with ⟨r₁, h₁, hw₁⟩ | h₁
    · rw [runOps, StateT.bind_apply_of_eq_ok h₁]
      exact ih hw₁
    · exact .inr (StateT.bind_apply_eq_error.mpr (.inl h₁))

/-- Every sequence of calls from `ResolveIdent::new` that succeeds leaves every entry of `words`
    the decimal rendering of its identifier followed by one NUL; then, for every identifier,
    `get_or_ad_impl` finds that text and its slice without underflow, `get_or_add` returns the
    rendering, and `get_or_add_raw` and `with_result` hand LLVM the rendering, which holds no
    NUL; distinct identifiers have distinct renderings.  A sequence that fails, fails with
    `error_unreachable()`: no call panics. -/
theorem runOps_new_names (ops : List Op) :
    (∀ r, runOps ops new = .ok ((), r) → r.WordsWf ∧ ∀ word : SpirvWord,
      (∃ r', getOrAdImpl word r = .ok ((toString word, toString word ++ "\x00"), r')) ∧
      (∃ r', getOrAdd word r = .ok (toString word, r')) ∧
      (∃ r', getOrAddRaw word r = .ok (toString word, r')) ∧
      (∀ fn_, ∃ r', withResult word fn_ r = .ok ((), r') ∧
        r'.values = (word, fn_ (toString word)) :: r.values) ∧
      '\x00' ∉ (toString word).data) ∧
    (∀ e, runOps ops new = .error e → e = .unreachable) ∧
    Function.Injective (toString : SpirvWord → String) := by
  refine ⟨fun r hr => ?_, fun e he => ?_, Nat.toString_injective⟩
  · rcases runOps_of_wordsWf ops new_wordsWf with ⟨r', h, hw⟩ | h <;> rw [h] at hr <;> cases hr
    refine ⟨hw, fun word => ⟨?_, ?_, ?_, fun fn_ => ?_, nul_not_mem_toString word⟩⟩
    · obtain ⟨r', h, -⟩ := getOrAdImpl_of_wordsWf hw word; exact ⟨r', h⟩
    · obtain ⟨r', h, -⟩ := getOrAdd_eq_ok hw word; exact ⟨r', h⟩
    · obtain ⟨r', h, -⟩ := getOrAddRaw_eq_ok hw word; exact ⟨r', h⟩
    · obtain ⟨r', h, hv, -⟩ := withResult_eq_ok hw word fn_; exact ⟨r', h, hv⟩
  · rcases runOps_of_wordsWf ops new_wordsWf with ⟨r', h, -⟩ | h <;> rw [h] at he <;> cases he
    rfl

/-- Interning `3` raw, then giving `7` a value through `with_result` and reading it back: the
    resolver reached has well-formed words, and names `7` by `"7"`. -/
theorem rawResultValue_names :
    ∃ r, runOps [.getOrAddRaw 3, .withResult 7 fun _ => .constInt 32 5, .value 7] new =
        .ok ((), r) ∧ r.WordsWf ∧ ∃ r', getOrAddRaw 7 r = .ok ("7", r') :=
  have h : runOps [.getOrAddRaw 3, .withResult 7 fun _ => .constInt 32 5, .value 7] new =
      .ok ((), _) := rfl
  ⟨_, h, ((runOps_new_names _).1 _ h).1, (((runOps_new_names _).1 _ h).2 7).2.2.1⟩

end ResolveIdent

end ZludaPtx.EmitLlvm
