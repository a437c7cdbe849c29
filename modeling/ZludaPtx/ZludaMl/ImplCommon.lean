import Mathlib.Data.List.Basic

/-!
# The NVML shim's driver version

`zluda_ml` answers NVML's `nvmlSystemGetDriverVersion` by copying the C string `"550.77"` into
the caller's buffer `result` of `length` bytes.  It copies at most `length` bytes of the string
with its NUL, then writes a NUL over the last byte it copied, so that a short buffer still holds
a terminated string.

Process memory is a function from addresses to bytes, with address `0` the null pointer.  The
Rust slice `from_raw_parts_mut(result, copy_length)` is a view of that memory: the model reads
it into a list, applies `copy_from_slice` and `last_mut` to the list, and writes it back.  The
two operations that can panic, `&version[..copy_length]` and `copy_from_slice`, return `none`
when they would.

## Key results

- `systemGetDriverVersion_frame`: the call never panics, and it changes no byte outside the
  first `min length 7` bytes of a non-null buffer
- `systemGetDriverVersion_cString`: with a non-null buffer of at least one byte, a C-string
  reader that looks at no more than `length` bytes finds `"550.77"` cut to `length - 1` bytes
-/

namespace ZludaPtx.ZludaMl

/-- `nvmlReturn_t`, the codes this file returns. -/
inductive NvmlReturn where
  | success
  | errorInvalidArgument
  | errorNotSupported
  deriving DecidableEq, Repr

/-- The bytes of process memory, by address; address `0` is the null pointer. -/
abbrev Memory := Nat → UInt8

namespace Memory

/-- The `n` bytes at `p`: what `from_raw_parts_mut(p, n)` views. -/
def read (mem : Memory) (p n : Nat) : List UInt8 := (List.range n).map fun i => mem (p + i)

/-- Memory with `bytes` at `p`, `p + 1`, …: a slice view written back. -/
def write (mem : Memory) (p : Nat) (bytes : List UInt8) : Memory := fun a =>
  if p ≤ a ∧ a < p + bytes.length then bytes.getD (a - p) 0 else mem a

end Memory

/-- The C string at the start of some bytes: the bytes before the first NUL, `none` when there is
    no NUL. -/
def cString : List UInt8 → Option (List UInt8)
  | [] => none
  | b :: bs => if b = 0 then some [] else (b :: ·) <$> cString bs

/-- `&s[..n]`, which panics past the end of `s`. -/
def sliceTo (s : List UInt8) (n : Nat) : Option (List UInt8) :=
  if n ≤ s.length then some (s.take n) else none

/-- `dst.copy_from_slice(src)`, which panics unless the two lengths agree. -/
def copyFromSlice (dst src : List UInt8) : Option (List UInt8) :=
  if dst.length = src.length then some src else none

/-- `if let Some(last) = s.last_mut() { *last = b; }`. -/
def setLast (s : List UInt8) (b : UInt8) : List UInt8 := s.set (s.length - 1) b

/-- `VERSION`, `c"550.77"`: its bytes, without the NUL. -/
def VERSION : List UInt8 := "550.77".toList.map fun c => c.toNat.toUInt8

/-- `CStr::to_bytes_with_nul`. -/
def toBytesWithNul (s : List UInt8) : List UInt8 := s ++ [0]

/-- `system_get_driver_version`: refuse a null buffer; otherwise copy the version with its NUL,
    cut to `length` bytes, and write a NUL over the last byte copied.  `none` is a panic. -/
def systemGetDriverVersion (result : Nat) (length : UInt32) (mem : Memory) :
    Option (NvmlReturn × Memory) :=
  if result = 0 then some (.errorInvalidArgument, mem) else do
    let version := toBytesWithNul VERSION
    let copyLength := min length.toNat version.length
    let slice := mem.read result copyLength
    let slice ← copyFromSlice slice (← sliceTo version copyLength)
    let slice := setLast slice 0
    pure (.success, mem.write result slice)

/-- `unimplemented`: `unimplemented!()` panics in a debug build; a release build answers
    `ERROR_NOT_SUPPORTED`. -/
def unimplemented (debugAssertions : Bool) : Option NvmlReturn :=
  if debugAssertions then none else some .errorNotSupported

/-- `error_string`: the bytes at the pointer it returns, the empty C string, whatever the code. -/
def errorString (_result : NvmlReturn) : List UInt8 := [0]

/-! ## Memory, slices and C strings -/

namespace Memory

@[simp] theorem length_read (mem : Memory) (p n : Nat) : (mem.read p n).length = n := by
  simp [read]

/-- Writing `bytes` at `p` changes no byte outside the `bytes.length` bytes from `p`. -/
theorem write_apply (mem : Memory) (p : Nat) (bytes : List UInt8) (a : Nat) :
    mem.write p bytes a = mem a ∨ (p ≤ a ∧ a < p + bytes.length) := by
  unfold write
  split
  · exact .inr ‹_›
  · exact .inl rfl

/-- Reading back from where `bytes` were written: `bytes`, then the memory after them. -/
theorem read_write (mem : Memory) (p n : Nat) (bytes : List UInt8) (h : bytes.length ≤ n) :
    (mem.write p bytes).read p n = bytes ++ mem.read (p + bytes.length) (n - bytes.length) := by
  refine List.ext_getElem (by simp; omega) fun i h₁ h₂ => ?_
  simp only [read, write, List.getElem_map, List.getElem_range, List.getElem_append]
  by_cases hi : i < bytes.length
  · simp [hi]
  · simp only [dif_neg hi, List.getElem_map, List.getElem_range]
    rw [if_neg (by omega)]
    congr 1
    omega

end Memory

/-- A NUL after bytes that hold none ends the C string they make. -/
theorem cString_append_zero {s : List UInt8} (h : (0 : UInt8) ∉ s) (rest : List UInt8) :
    cString (s ++ 0 :: rest) = some s := by
  induction s with
  | nil => rfl
  | cons b s ih =>
    simp only [List.mem_cons, not_or] at h
    simp [cString, Ne.symm h.1, ih h.2]

/-- Writing a NUL over the last of the first `c` bytes of `s ++ [b]`, `c` at least one and at
    most its length, leaves the first `c - 1` bytes of `s` and a NUL. -/
theorem setLast_take_append (b : UInt8) :
    ∀ (s : List UInt8) {c : Nat}, 0 < c → c ≤ s.length + 1 →
      setLast ((s ++ [b]).take c) 0 = s.take (c - 1) ++ [0]
  | [], c, _, h => by
    obtain rfl : c = 1 := by simp at h; omega
    rfl
  | x :: s, c + 1, _, h => by
    cases c with
    | zero => rfl
    | succ c =>
      have ih := setLast_take_append b s (Nat.succ_pos c) (by simp at h; omega)
      have hlen : ((s ++ [b]).take (c + 1)).length = c + 1 := by simp at h ⊢; omega
      rw [setLast, hlen, Nat.add_sub_cancel] at ih
      rw [setLast, List.cons_append, List.take_succ_cons, List.length_cons, hlen,
        Nat.add_sub_cancel, List.set_cons_succ, ih]
      rfl

/-! ## `system_get_driver_version` -/

theorem length_VERSION : VERSION.length = 6 := by decide

theorem length_toBytesWithNul_VERSION : (toBytesWithNul VERSION).length = 7 := by decide

theorem zero_not_mem_VERSION : (0 : UInt8) ∉ VERSION := by decide

/-- On a non-null buffer, neither slice operation panics: the copy is `min length 7` bytes of
    the version with its NUL, the last of them then overwritten by a NUL. -/
theorem systemGetDriverVersion_of_ne_zero {result : Nat} (length : UInt32) (mem : Memory)
    (h : result ≠ 0) :
    systemGetDriverVersion result length mem = some (.success,
      mem.write result (setLast ((toBytesWithNul VERSION).take (min length.toNat 7)) 0)) := by
  have hc : min length.toNat 7 ≤ 7 := min_le_right _ _
  have hl : ((toBytesWithNul VERSION).take (min length.toNat 7)).length = min length.toNat 7 := by
    simp [length_toBytesWithNul_VERSION]
  simp [systemGetDriverVersion, h, length_toBytesWithNul_VERSION, sliceTo, copyFromSlice, hc, hl]

/-- The bytes a copy of `c` bytes leaves: none, or the first `c - 1` bytes of the version and a
    NUL. -/
theorem setLast_take_VERSION {c : Nat} (hc : c ≤ 7) :
    setLast ((toBytesWithNul VERSION).take c) 0 =
      if c = 0 then [] else VERSION.take (c - 1) ++ [0] := by
  split
  · next h => subst h; rfl
  · next h =>
    exact setLast_take_append 0 VERSION (Nat.pos_of_ne_zero h) (by rw [length_VERSION]; exact hc)

/-- `system_get_driver_version` never panics, and it writes nothing outside the first
    `min length 7` bytes of the buffer, and nothing at all through a null pointer: a caller whose
    buffer holds `length` bytes never sees a byte past its end written. -/
theorem systemGetDriverVersion_frame (result : Nat) (length : UInt32) (mem : Memory) :
    ∃ ret mem', systemGetDriverVersion result length mem = some (ret, mem') ∧
      ∀ a, mem' a = mem a ∨ (result ≠ 0 ∧ result ≤ a ∧ a < result + min length.toNat 7) := by
  by_cases h : result = 0
  · exact ⟨.errorInvalidArgument, mem, by simp [systemGetDriverVersion, h], fun _ => .inl rfl⟩
  · refine ⟨_, _, systemGetDriverVersion_of_ne_zero length mem h, fun a => ?_⟩
    rcases Memory.write_apply mem result _ a with ha | ⟨h₁, h₂⟩
    · exact .inl ha
    · refine .inr ⟨h, h₁, lt_of_lt_of_le h₂ ?_⟩
      simp [setLast, length_toBytesWithNul_VERSION]

/-- With a non-null buffer of at least one byte, the call succeeds and leaves a terminated
    string in the buffer: a C-string reader that looks at no more than `length` bytes finds the
    version `"550.77"` cut to `length - 1` bytes, the whole version from `length = 7` on. -/
theorem systemGetDriverVersion_cString {result : Nat} {length : UInt32} (mem : Memory)
    (hres : result ≠ 0) (hlen : 0 < length.toNat) :
    ∃ mem', systemGetDriverVersion result length mem = some (.success, mem') ∧
      cString (mem'.read result length.toNat) = some (VERSION.take (length.toNat - 1)) := by
  refine ⟨_, systemGetDriverVersion_of_ne_zero length mem hres, ?_⟩
  rw [setLast_take_VERSION (min_le_right _ _), if_neg (by omega)]
  have hwritten : (VERSION.take (min length.toNat 7 - 1) ++ [0]).length ≤ length.toNat := by
    simp [length_VERSION]; omega
  have htake : VERSION.take (min length.toNat 7 - 1) = VERSION.take (length.toNat - 1) := by
    rcases le_total length.toNat 7 with h | h
    · rw [min_eq_left h]
    · rw [min_eq_right h, List.take_of_length_le (by simp [length_VERSION]),
        List.take_of_length_le (by simp [length_VERSION]; omega)]
  rw [Memory.read_write _ _ _ _ hwritten, List.append_assoc, List.singleton_append, htake]
  exact cString_append_zero (fun h => zero_not_mem_VERSION (List.mem_of_mem_take h)) _

/-- A buffer of four bytes at address 16 gets `"550"` and a NUL. -/
theorem fourBytes_cString :
    (16 ≠ 0 ∧ 0 < (4 : UInt32).toNat) ∧
      ∃ mem', systemGetDriverVersion 16 4 (fun _ => 0xff) = some (.success, mem') ∧
        cString (mem'.read 16 (4 : UInt32).toNat) = some (VERSION.take ((4 : UInt32).toNat - 1)) :=
  ⟨⟨by decide, by decide⟩, systemGetDriverVersion_cString _ (by decide) (by decide)⟩

end ZludaPtx.ZludaMl
