import Mathlib.Algebra.Ring.Nat
import Mathlib.Data.List.Basic
import Mathlib.Data.List.TakeWhile
import Mathlib.Data.UInt
import Mathlib.Tactic.Ring

/-! # Formatted input and output

The conversions of `fscanf` on the rest of a stream: words of bounded width and
decimal numbers with an optional sign. White space in front is skipped. The decimal
digits that `printf` writes are read back as the same number. -/
namespace PpsDht.Scanning

/-- `isspace`: blank, tab, line feed and their like. -/
def isSpace (c : UInt8) : Bool := c = 32 || (9 ≤ c && c ≤ 13)

def isDigit (c : UInt8) : Bool := 48 ≤ c && c ≤ 57

def skipSpace (input : List UInt8) : List UInt8 := input.dropWhile isSpace

/-- `%s` with a field width. -/
def scanWord (width : ℕ) (input : List UInt8) : Option (List UInt8 × List UInt8) :=
  let word := ((skipSpace input).take width).takeWhile fun c => !isSpace c
  if word = [] then none else some (word,(skipSpace input).drop word.length)

def digitsValue (digits : List UInt8) : ℕ := digits.foldl (fun n c => 10 * n + (c.toNat - 48)) 0

def isSign (c : UInt8) : Bool := c = 43 || c = 45

def skipSign (input : List UInt8) : List UInt8 := if input.head?.any isSign then input.tail else input

def minusSign (negative : Bool) : List UInt8 := if negative then [45] else []

/-- A number as it is written: whether it has a minus sign, and its digits. -/
def scanNumeral (input : List UInt8) : Option ((Bool × ℕ) × List UInt8) :=
  let start := skipSpace input
  let digits := (skipSign start).takeWhile isDigit
  if digits = [] then none
  else some ((start.head? = some 45,digitsValue digits),(skipSign start).drop digits.length)

/-- `strtoul` to 64 bits: too large numbers saturate, a minus sign negates modulo `2^64`. -/
def toUnsigned (negative : Bool) (n : ℕ) : ℕ :=
  if 2^64 ≤ n then 2^64 - 1 else if negative then (2^64 - n) % 2^64 else n

/-- `%lu`, and `%hu` before it is cut to its width. -/
def scanUnsigned (input : List UInt8) : Option (ℕ × List UInt8) :=
  (scanNumeral input).map fun r => (toUnsigned r.1.1 r.1.2,r.2)

/-- The input begins with blanks and a word, which ends at white space or fills the width. -/
inductive WordText (width : ℕ) (word rest : List UInt8) : List UInt8 → Prop
  | mk {blanks : List UInt8} (hblanks : ∀ c ∈ blanks, isSpace c) (hword : ∀ c ∈ word, ¬isSpace c) (hne : word ≠ [])
      (hlen : word.length ≤ width) (hend : word.length < width → ∀ c, rest.head? = some c → isSpace c) :
      WordText width word rest (blanks ++ (word ++ rest))

/-- The input begins with blanks and digits, perhaps behind a sign, up to something else. -/
inductive NumeralText (negative : Bool) (n : ℕ) (rest : List UInt8) : List UInt8 → Prop
  | mk {blanks sign digits : List UInt8} (hblanks : ∀ c ∈ blanks, isSpace c)
      (hsign : sign = minusSign negative ∨ sign = [43] ∧ negative = false) (hdigits : ∀ c ∈ digits, isDigit c)
      (hne : digits ≠ []) (hvalue : digitsValue digits = n) (hend : ∀ c, rest.head? = some c → ¬isDigit c) :
      NumeralText negative n rest (blanks ++ (sign ++ (digits ++ rest)))

private theorem length_skipSpace_le (input : List UInt8) : (skipSpace input).length ≤ input.length :=
  (List.dropWhile_suffix isSpace).length_le

private theorem length_skipSign_le (input : List UInt8) : (skipSign input).length ≤ input.length := by
  rw [skipSign]
  split
  · rw [List.length_tail]
    omega
  · exact le_rfl

private theorem toUnsigned_lt (negative : Bool) (n : ℕ) : toUnsigned negative n < 2^64 := by
  rw [toUnsigned]
  split
  · omega
  · split
    · exact Nat.mod_lt _ (by decide)
    · omega

theorem skipSpace_append {blanks : List UInt8} (h : ∀ c ∈ blanks, isSpace c) (rest : List UInt8) :
    skipSpace (blanks ++ rest) = skipSpace rest :=
  List.dropWhile_append_of_pos h

private theorem skipSpace_of_head {input : List UInt8} (h : ∀ c, input.head? = some c → ¬isSpace c) :
    skipSpace input = input := by
  cases input with
  | nil => rfl
  | cons c input => exact List.dropWhile_cons_of_neg (h c rfl)

/-- Characters that satisfy a test, up to one that does not. -/
theorem takeWhile_append_of_head {p : UInt8 → Bool} {front : List UInt8} (hfront : ∀ c ∈ front, p c)
    {rest : List UInt8} (hrest : ∀ c, rest.head? = some c → ¬p c) : (front ++ rest).takeWhile p = front := by
  rw [List.takeWhile_append_of_pos hfront]
  cases rest with
  | nil => simp
  | cons c rest => rw [List.takeWhile_cons_of_neg (hrest c rfl),List.append_nil]

theorem scanWord_shorter {width : ℕ} {input word rest : List UInt8} (h : scanWord width input = some (word,rest)) :
    rest.length < input.length ∧ word.length ≤ width := by
  simp only [scanWord] at h
  split at h
  · cases h
  · rename_i hne
    cases h
    have hpos := List.length_pos_iff.mpr hne
    have htake := (List.takeWhile_prefix (fun c => !isSpace c) (l := (skipSpace input).take width)).length_le
    have hskip := length_skipSpace_le input
    rw [List.length_take] at htake
    rw [List.length_drop]
    omega

theorem scanUnsigned_shorter {input rest : List UInt8} {n : ℕ} (h : scanUnsigned input = some (n,rest)) :
    rest.length ≤ input.length ∧ n < 2^64 := by
  obtain ⟨⟨⟨negative,m⟩,rest'⟩,hscan,heq⟩ := Option.map_eq_some_iff.mp h
  obtain ⟨rfl,rfl⟩ := Prod.mk.inj heq
  refine ⟨?_,toUnsigned_lt negative m⟩
  simp only [scanNumeral] at hscan
  split at hscan
  · exact absurd hscan nofun
  · obtain ⟨-,rfl⟩ := Prod.mk.inj (Option.some.inj hscan)
    rw [List.length_drop]
    exact (Nat.sub_le _ _).trans ((length_skipSign_le _).trans (length_skipSpace_le input))

private theorem drop_length_takeWhile (p : UInt8 → Bool) (l : List UInt8) :
    l.drop (l.takeWhile p).length = l.dropWhile p := by
  induction l with
  | nil => rfl
  | cons c l ih => cases h : p c <;> simp [h,ih]

/-- What follows the longest front that satisfies a test does not. -/
theorem not_of_head_dropWhile {p : UInt8 → Bool} {l : List UInt8} {c : UInt8}
    (h : (l.dropWhile p).head? = some c) : ¬p c := by
  have hhead := List.head?_dropWhile_not p l
  rw [h] at hhead
  simpa using hhead

/-- A word at the front is read, up to its end or its width. -/
theorem WordText.scan {width : ℕ} {input word rest : List UInt8} (h : WordText width word rest input) :
    scanWord width input = some (word,rest) := by
  obtain @⟨blanks,hblanks,hword,hne,hlen,hend⟩ := h
  have hstart : skipSpace (blanks ++ (word ++ rest)) = word ++ rest := by
    rw [skipSpace_append hblanks,skipSpace_of_head]
    intro c hc
    rw [List.head?_append_of_ne_nil _ hne] at hc
    exact hword c (List.mem_of_mem_head? hc)
  have hread : ((word ++ rest).take width).takeWhile (fun c => !isSpace c) = word := by
    rw [List.take_append,List.take_of_length_le hlen]
    refine takeWhile_append_of_head (by simpa using hword) fun c hc => ?_
    cases rest with
    | nil => simp at hc
    | cons d rest =>
      cases hwidth : width - word.length with
      | zero => simp [hwidth] at hc
      | succ n =>
        rw [hwidth,List.take_succ_cons,List.head?_cons] at hc
        obtain rfl := Option.some.inj hc
        simpa using hend (by omega) d rfl
  simp only [scanWord,hstart,hread,hne,if_false,List.drop_left]

/-- A word is read exactly from a text that begins with it. -/
theorem scanWord_eq_some_iff {width : ℕ} {input word rest : List UInt8} :
    scanWord width input = some (word,rest) ↔ WordText width word rest input := by
  refine ⟨fun h => ?_,WordText.scan⟩
  simp only [scanWord] at h
  split at h
  · cases h
  · rename_i hne
    obtain ⟨hword,hrest⟩ := Prod.mk.inj (Option.some.inj h)
    have hprefix : word <+: skipSpace input := hword ▸ (List.takeWhile_prefix _).trans (List.take_prefix _ _)
    have hsplit : word ++ rest = skipSpace input := by
      rw [← hrest,hword,List.prefix_iff_eq_append.mp hprefix]
    have hinput : input = input.takeWhile isSpace ++ (word ++ rest) := by
      rw [hsplit,skipSpace,List.takeWhile_append_dropWhile]
    rw [hinput]
    refine ⟨fun c hc => List.mem_takeWhile_imp hc,fun c hc => ?_,hword ▸ hne,?_,fun hlt c hc => ?_⟩
    · rw [← hword] at hc
      simpa using List.mem_takeWhile_imp hc
    · rw [← hword]
      exact (List.takeWhile_prefix _).length_le.trans (List.length_take_le _ _)
    · have hafter : ((skipSpace input).take width).dropWhile (fun c => !isSpace c) = rest.take (width - word.length) := by
        rw [← drop_length_takeWhile,hword,← hsplit,List.drop_take,List.drop_left]
      have hhead := @not_of_head_dropWhile (fun c => !isSpace c) ((skipSpace input).take width) c
      rw [hafter,List.head?_take,if_neg (by omega)] at hhead
      simpa using hhead hc

/-- A word between blanks is read whole. -/
theorem scanWord_text {width : ℕ} {blanks word : List UInt8} (rest : List UInt8) (hblanks : ∀ c ∈ blanks, isSpace c)
    (hword : ∀ c ∈ word, ¬isSpace c) (hne : word ≠ []) (hlen : word.length ≤ width)
    (hrest : ∀ c, rest.head? = some c → isSpace c) :
    scanWord width (blanks ++ (word ++ rest)) = some (word,rest) :=
  WordText.scan ⟨hblanks,hword,hne,hlen,fun _ => hrest⟩

/-- A digit is no white space and no sign. -/
theorem of_isDigit {c : UInt8} (h : isDigit c) : ¬isSpace c ∧ ¬isSign c := by
  simp only [isDigit,isSpace,isSign,Bool.and_eq_true,Bool.or_eq_true,decide_eq_true_eq,not_or,UInt8.le_iff_toNat_le,
    UInt8.toNat_ofNat,← UInt8.toNat_inj] at h ⊢
  omega

/-- A sign, if there is one, is skipped in front of a digit. -/
theorem skipSign_text {negative : Bool} {sign : List UInt8} (h : sign = minusSign negative ∨ sign = [43] ∧ negative = false)
    {rest : List UInt8} {d : UInt8} (hd : rest.head? = some d) (hdigit : isDigit d) :
    skipSpace (sign ++ rest) = sign ++ rest ∧ skipSign (sign ++ rest) = rest ∧
      decide ((sign ++ rest).head? = some 45) = negative := by
  obtain ⟨hspace,hsign⟩ := of_isDigit hdigit
  have hminus : ¬d = 45 := fun h => hsign (h ▸ rfl)
  obtain ⟨rest,rfl⟩ := List.head?_eq_some_iff.mp hd
  rcases h with rfl | ⟨rfl,rfl⟩
  · cases negative with
    | false => simp [minusSign,skipSpace,skipSign,hspace,hsign,hminus]
    | true => exact ⟨rfl,rfl,rfl⟩
  · exact ⟨rfl,rfl,rfl⟩

/-- A numeral at the front is read whole. -/
theorem NumeralText.scan {input rest : List UInt8} {negative : Bool} {n : ℕ} (h : NumeralText negative n rest input) :
    scanNumeral input = some ((negative,n),rest) := by
  obtain @⟨blanks,sign,digits,hblanks,hsign,hdigits,hne,hvalue,hend⟩ := h
  obtain ⟨d,hd⟩ := Option.isSome_iff_exists.mp (List.isSome_head?.mpr hne)
  have hhead : (digits ++ rest).head? = some d := (List.head?_append_of_ne_nil _ hne).trans hd
  obtain ⟨hspace,hskip,hminus⟩ := skipSign_text hsign hhead (hdigits d (List.mem_of_mem_head? hd))
  simp only [scanNumeral,skipSpace_append hblanks,hspace,hskip,hminus,takeWhile_append_of_head hdigits hend,hne,
    if_false,List.drop_left,hvalue]

/-- A numeral is read exactly from a text that begins with it. -/
theorem scanNumeral_eq_some_iff {input rest : List UInt8} {negative : Bool} {n : ℕ} :
    scanNumeral input = some ((negative,n),rest) ↔ NumeralText negative n rest input := by
  refine ⟨fun h => ?_,NumeralText.scan⟩
  simp only [scanNumeral] at h
  split at h
  · cases h
  · rename_i hne
    obtain ⟨hvalue,hrest⟩ := Prod.mk.inj (Option.some.inj h)
    obtain ⟨hminus,hvalue⟩ := Prod.mk.inj hvalue
    rw [drop_length_takeWhile] at hrest
    have hdigits : (skipSign (skipSpace input)).takeWhile isDigit ++ rest = skipSign (skipSpace input) := by
      rw [← hrest,List.takeWhile_append_dropWhile]
    obtain ⟨sign,hsign,hstart⟩ : ∃ sign, (sign = minusSign negative ∨ sign = [43] ∧ negative = false) ∧
        skipSpace input = sign ++ skipSign (skipSpace input) := by
      rw [← hminus]
      cases skipSpace input with
      | nil => exact ⟨[],Or.inl rfl,rfl⟩
      | cons c start =>
        by_cases hc : isSign c
        · rw [isSign,Bool.or_eq_true,decide_eq_true_eq,decide_eq_true_eq] at hc
          rcases hc with rfl | rfl
          · exact ⟨[43],Or.inr ⟨rfl,rfl⟩,rfl⟩
          · exact ⟨[45],Or.inl rfl,rfl⟩
        · have hplain : ¬c = 45 := fun h => hc (h ▸ rfl)
          exact ⟨[],Or.inl (by simp [minusSign,hplain]),by simp [skipSign,hc]⟩
    have hinput : input = input.takeWhile isSpace ++ (sign ++ ((skipSign (skipSpace input)).takeWhile isDigit ++ rest)) := by
      rw [hdigits,← hstart,skipSpace,List.takeWhile_append_dropWhile]
    rw [hinput]
    exact ⟨fun c hc => List.mem_takeWhile_imp hc,hsign,fun c hc => List.mem_takeWhile_imp hc,hne,hvalue,
      fun c hc => not_of_head_dropWhile (hrest ▸ hc)⟩

/-- A number after blanks and before something else is read whole. -/
theorem scanNumeral_text {blanks digits : List UInt8} (negative : Bool) (rest : List UInt8)
    (hblanks : ∀ c ∈ blanks, isSpace c) (hdigits : ∀ c ∈ digits, isDigit c) (hne : digits ≠ [])
    (hrest : ∀ c, rest.head? = some c → ¬isDigit c) :
    scanNumeral (blanks ++ (minusSign negative ++ (digits ++ rest))) = some ((negative,digitsValue digits),rest) :=
  NumeralText.scan ⟨hblanks,Or.inl rfl,hdigits,hne,rfl,hrest⟩

/-- Digits after blanks and before something else are read whole. -/
theorem scanUnsigned_text {blanks digits : List UInt8} (rest : List UInt8) (hblanks : ∀ c ∈ blanks, isSpace c)
    (hdigits : ∀ c ∈ digits, isDigit c) (hne : digits ≠ []) (hrange : digitsValue digits < 2^64)
    (hrest : ∀ c, rest.head? = some c → ¬isDigit c) :
    scanUnsigned (blanks ++ (digits ++ rest)) = some (digitsValue digits,rest) := by
  have hread := scanNumeral_text false rest hblanks hdigits hne hrest
  rw [minusSign,if_neg (by decide),List.nil_append] at hread
  rw [scanUnsigned,hread,Option.map_some,toUnsigned,if_neg (Nat.not_le.mpr hrange),if_neg Bool.false_ne_true]

def charByte (c : Char) : UInt8 := UInt8.ofNat c.toNat

/-- `%lu` of `printf`. -/
def digitsOf (n : ℕ) : List UInt8 := (Nat.toDigits 10 n).map charByte

/-- `%0*lu`: zeros in front up to the width. -/
def zeroPadded (width n : ℕ) : List UInt8 := List.replicate (width - (digitsOf n).length) 48 ++ digitsOf n

/-- `%ld`. -/
def signedDigits (z : ℤ) : List UInt8 := minusSign (z < 0) ++ digitsOf z.natAbs

/-- A number that was read, with its sign. -/
def signedValue (numeral : Bool × ℕ) : ℤ := if numeral.1 then -numeral.2 else numeral.2

private theorem toNat_charByte {c : Char} (h : c.isDigit) : (charByte c).toNat = c.toNat := by
  have hdigit := (Char.isDigit_iff_toNat.mp h).2
  change c.toNat ≤ 57 at hdigit
  rw [charByte,UInt8.toNat_ofNat',Nat.mod_eq_of_lt (by omega)]

private theorem isDigit_charByte {c : Char} (h : c.isDigit) : isDigit (charByte c) := by
  have hdigit := Char.isDigit_iff_toNat.mp h
  change 48 ≤ c.toNat ∧ c.toNat ≤ 57 at hdigit
  simp only [isDigit,Bool.and_eq_true,decide_eq_true_eq,UInt8.le_iff_toNat_le,toNat_charByte h]
  exact hdigit

theorem isDigit_of_mem_digitsOf {n : ℕ} {c : UInt8} (h : c ∈ digitsOf n) : isDigit c := by
  obtain ⟨d,hd,rfl⟩ := List.mem_map.mp h
  exact isDigit_charByte (Nat.isDigit_of_mem_toDigits (by decide) (by decide) hd)

theorem digitsOf_ne_nil (n : ℕ) : digitsOf n ≠ [] :=
  fun h => Nat.toDigits_ne_nil (List.map_eq_nil_iff.mp h)

private theorem length_digitsOf_le {n k : ℕ} (hk : 0 < k) (h : n < 10^k) : (digitsOf n).length ≤ k := by
  rw [digitsOf,List.length_map]
  exact (Nat.length_toDigits_le_iff (by decide) hk).mpr h

theorem isDigit_of_mem_zeroPadded {width n : ℕ} {c : UInt8} (h : c ∈ zeroPadded width n) : isDigit c := by
  rcases List.mem_append.mp h with h | h
  · rw [List.eq_of_mem_replicate h]
    decide
  · exact isDigit_of_mem_digitsOf h

private theorem length_zeroPadded {width n : ℕ} (hwidth : 0 < width) (h : n < 10^width) :
    (zeroPadded width n).length = width := by
  have := length_digitsOf_le hwidth h
  rw [zeroPadded,List.length_append,List.length_replicate]
  omega

/-- Digits behind one another: the front ones count for more. -/
theorem digitsValue_append (front back : List UInt8) :
    digitsValue (front ++ back) = digitsValue front * 10^back.length + digitsValue back := by
  induction back using List.reverseRecOn with
  | nil => simp [digitsValue]
  | append_singleton back c ih =>
    have hlast : ∀ l : List UInt8, digitsValue (l ++ [c]) = 10 * digitsValue l + (c.toNat - 48) := fun l => by
      rw [digitsValue,List.foldl_append,List.foldl_cons,List.foldl_nil,digitsValue]
    rw [← List.append_assoc,hlast,hlast,ih,List.length_append,List.length_singleton]
    ring

private theorem digitsValue_zeros (n : ℕ) : digitsValue (List.replicate n 48) = 0 := by
  induction n with
  | zero => rfl
  | succ n ih => rw [List.replicate_succ',digitsValue_append,ih]; rfl

@[simp] theorem digitsValue_digitsOf (n : ℕ) : digitsValue (digitsOf n) = n := by
  have hchars : ∀ (chars : List Char) (m : ℕ), (∀ c ∈ chars, c.isDigit) →
      (chars.map charByte).foldl (fun n c => 10 * n + (c.toNat - 48)) m = Nat.ofDigitChars 10 chars m := by
    intro chars
    induction chars with
    | nil => intros; rw [Nat.ofDigitChars_nil]; rfl
    | cons c chars ih =>
      intro m h
      rw [List.map_cons,List.foldl_cons,toNat_charByte (h c List.mem_cons_self),Nat.ofDigitChars_cons]
      exact ih _ fun d hd => h d (List.mem_cons_of_mem c hd)
  calc digitsValue (digitsOf n) = Nat.ofDigitChars 10 (Nat.toDigits 10 n) 0 :=
        hchars _ 0 fun c hc => Nat.isDigit_of_mem_toDigits (by decide) (by decide) hc
    _ = n := Nat.ofDigitChars_ten_toDigits

@[simp] theorem digitsValue_zeroPadded (width n : ℕ) : digitsValue (zeroPadded width n) = n := by
  rw [zeroPadded,digitsValue_append,digitsValue_zeros,digitsValue_digitsOf,Nat.zero_mul,Nat.zero_add]

/-- Two numbers written one after the other, the second to a width that it does not exceed,
stand for a number in which the second makes up the last places. -/
theorem digitsValue_glued (m : ℕ) {width n : ℕ} (hwidth : 0 < width) (h : n < 10^width) :
    digitsValue (digitsOf m ++ zeroPadded width n) = m * 10^width + n := by
  rw [digitsValue_append,digitsValue_digitsOf,digitsValue_zeroPadded,length_zeroPadded hwidth h]

end PpsDht.Scanning
