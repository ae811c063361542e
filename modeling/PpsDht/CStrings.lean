import Mathlib.Algebra.Group.Nat.Defs
import Mathlib.Data.List.Basic
import Mathlib.Data.List.TakeWhile

/-! # Strings, constants and error codes

A `CString` carries the proof that it holds no zero byte. Reading a string out
of an array is partial: without a zero in the rest of the array, `strlen` and its
relatives run past the end, which is undefined. -/
namespace PpsDht

abbrev Bytes := List UInt8

/-- The payload of one datagram. -/
abbrev Datagram := Bytes

/-- The characters before the terminating zero. -/
@[ext] structure CString where
  chars : Bytes
  nulFree : 0 ∉ chars
  deriving DecidableEq

namespace CString

def length (s : CString) : ℕ := s.chars.length

def empty : CString := ⟨[],List.not_mem_nil⟩

/-- A character repeated. -/
def replicate (n : ℕ) (c : UInt8) (h : c ≠ 0) : CString :=
  ⟨List.replicate n c,fun hz => h (List.eq_of_mem_replicate hz).symm⟩

/-- The strings of one letter, `k` and `v`. -/
def letterK : CString := ⟨[107],by decide⟩

def letterV : CString := ⟨[118],by decide⟩

/-- The characters with the terminating zero, as they lie in memory. -/
def stored (s : CString) : Bytes := s.chars ++ [0]

@[simp] theorem chars_empty : empty.chars = [] := rfl

@[simp] theorem length_empty : empty.length = 0 := rfl

@[simp] theorem length_replicate (n : ℕ) (c : UInt8) (h : c ≠ 0) : (replicate n c h).length = n :=
  List.length_replicate

@[simp] theorem length_stored (s : CString) : s.stored.length = s.length + 1 := by
  simp [stored,length]

@[simp] theorem length_chars (s : CString) : s.chars.length = s.length := rfl

theorem length_separated (s t : CString) : (s.chars ++ 0::t.chars).length = s.length + 1 + t.length := by
  simp only [List.length_append,List.length_cons,length_chars]
  omega

@[simp] theorem length_eq_zero {s : CString} : s.length = 0 ↔ s = empty := by
  rw [CString.ext_iff,length,List.length_eq_zero_iff,chars_empty]

theorem chars_eq_nil {s : CString} : s.chars = [] ↔ s = empty := by
  rw [CString.ext_iff,chars_empty]

/-- The first character is never the terminator. -/
theorem ne_zero_of_mem {s : CString} {c : UInt8} (h : c ∈ s.chars) : c ≠ 0 :=
  fun he => s.nulFree (he ▸ h)

end CString

/-- The longest string at the start of an array. -/
def upToNul (buf : Bytes) : CString :=
  ⟨buf.takeWhile (· ≠ 0),fun h => by simpa using List.mem_takeWhile_imp h⟩

/-- The string at the start of an array, undefined when nothing terminates it. -/
def readString (buf : Bytes) : Option CString :=
  if 0 ∈ buf then some (upToNul buf) else none

/-- `memchr`: the first position of `c` among the first `n` bytes. -/
def memchr (c : UInt8) : Bytes → ℕ → Option ℕ
  | b::buf, n+1 => if b = c then some 0 else (memchr c buf n).map (· + 1)
  | _, _ => none

/-- `strncmp`: only the sign of the result is specified; comparison ends at a zero. -/
def strncmp : Bytes → Bytes → ℕ → ℤ
  | a::as, b::bs, n+1 =>
    if a ≠ b then (a.toNat : ℤ) - b.toNat else if a = 0 then 0 else strncmp as bs n
  | _, _, _ => 0

/-- Copying bytes into an array at an offset, undefined when they do not fit. -/
def copyAt (buf : Bytes) (i : ℕ) (bytes : Bytes) : Option Bytes :=
  if i + bytes.length ≤ buf.length then some (buf.take i ++ bytes ++ buf.drop (i + bytes.length)) else none

private theorem upToNul_append (s : CString) (rest : Bytes) : upToNul (s.chars ++ 0::rest) = s := by
  ext1
  have h : ∀ c ∈ s.chars, decide (c ≠ 0) = true := fun c hc => by
    simpa using CString.ne_zero_of_mem hc
  simp only [upToNul]
  rw [List.takeWhile_append_of_pos h]
  simp

@[simp] theorem readString_append (s : CString) (rest : Bytes) :
    readString (s.chars ++ 0::rest) = some s := by
  simp [readString,upToNul_append]

@[simp] theorem readString_stored (s : CString) (rest : Bytes) :
    readString (s.stored ++ rest) = some s := by
  simp [CString.stored]

@[simp] theorem readString_zero (rest : Bytes) : readString (0::rest) = some .empty :=
  readString_append .empty rest

theorem readString_eq_none {buf : Bytes} : readString buf = none ↔ 0 ∉ buf := by
  by_cases h : 0 ∈ buf <;> simp [readString,h]

/-- A readable array splits into the string, its terminator and what follows. -/
theorem readString_eq_some {buf : Bytes} {s : CString} :
    readString buf = some s ↔ ∃ rest, buf = s.chars ++ 0::rest := by
  constructor
  · intro h
    by_cases hz : 0 ∈ buf
    · obtain ⟨front,rest,rfl,hfront⟩ := List.eq_append_cons_of_mem hz
      have hs : readString (front ++ 0::rest) = some ⟨front,hfront⟩ :=
        readString_append ⟨front,hfront⟩ rest
      obtain rfl := Option.some.inj (hs.symm.trans h)
      exact ⟨rest,rfl⟩
    · simp [readString,hz] at h
  · rintro ⟨rest,rfl⟩
    exact readString_append s rest

theorem length_lt_of_readString {buf : Bytes} {s : CString} (h : readString buf = some s) :
    s.length < buf.length := by
  obtain ⟨rest,rfl⟩ := readString_eq_some.mp h
  simp

/-- Every array is either unterminated or starts with exactly one string. -/
theorem exists_of_zero_mem {buf : Bytes} (h : 0 ∈ buf) :
    ∃ (s : CString) (rest : Bytes), buf = s.chars ++ 0::rest := by
  obtain ⟨rest,hr⟩ := readString_eq_some.mp (show readString buf = some (upToNul buf) by
    simp [readString,h])
  exact ⟨_,rest,hr⟩

theorem memchr_none {c : UInt8} {buf : Bytes} (h : c ∉ buf) (rest : Bytes) :
    memchr c (buf ++ rest) buf.length = none := by
  induction buf with
  | nil => cases rest <;> rfl
  | cons b buf ih =>
    rw [List.mem_cons,not_or] at h
    simp [memchr,Ne.symm h.1,ih h.2]

theorem memchr_append (s : CString) (rest : Bytes) {n : ℕ} (h : s.length < n) :
    memchr 0 (s.chars ++ 0::rest) n = some s.length := by
  obtain ⟨chars,hs⟩ := s
  change chars.length < n at h
  change memchr 0 (chars ++ 0::rest) n = some chars.length
  induction chars generalizing n with
  | nil =>
    obtain ⟨m,rfl⟩ := Nat.exists_eq_succ_of_ne_zero (Nat.ne_zero_of_lt h)
    simp [memchr]
  | cons b chars ih =>
    obtain ⟨m,rfl⟩ := Nat.exists_eq_succ_of_ne_zero (Nat.ne_zero_of_lt h)
    rw [List.mem_cons,not_or] at hs
    have hm : chars.length < m := by simpa using h
    simp [memchr,Ne.symm hs.1,ih hs.2 hm]

theorem length_copyAt {buf bytes buf' : Bytes} {i : ℕ} (h : copyAt buf i bytes = some buf') :
    buf'.length = buf.length := by
  rw [copyAt] at h
  split at h
  · rw [← Option.some.inj h,List.length_append,List.length_append,List.length_take,List.length_drop]
    omega
  · cases h

theorem copyAt_append (front middle back : Bytes) {bytes : Bytes} (h : bytes.length = middle.length) :
    copyAt (front ++ middle ++ back) front.length bytes = some (front ++ bytes ++ back) := by
  have hfit : front.length + bytes.length ≤ (front ++ middle ++ back).length := by
    simp only [List.length_append]
    omega
  have hdrop : (front ++ middle ++ back).drop (front.length + bytes.length) = back := by
    rw [h,← List.length_append,List.drop_left]
  rw [copyAt,if_pos hfit,hdrop,List.append_assoc front middle,List.take_left]

def maxMsgElemSize : ℕ := 32753

/-- Maximum number of bytes in a message. -/
def maxMsgSize : ℕ := maxMsgElemSize * 2 + 1

def htableSize : ℕ := 256

/-- `SIZE_MAX` on the 64-bit target. -/
def sizeMax : ℕ := 2^64 - 1

def intMax : ℕ := 2^31 - 1

inductive ErrorCode where
  | errNone
  | errNomem
  | errIo
  | errBadParameter
  | errNetwork
  | errNotFound
  deriving DecidableEq

end PpsDht
