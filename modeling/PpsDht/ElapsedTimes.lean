import Mathlib.Data.Rat.Cast.Defs
import PpsDht.BinaryRounding
import PpsDht.TestParser

/-! # The times that the benchmark prints

The seconds and the nanoseconds are subtracted each for themselves and printed behind one
another. Where the nanoseconds had to be brought above zero the second that they took is
not taken off the seconds, and the number is one second too large. The number is read back
as the nearest `double`. -/
namespace PpsDht
open BinaryRounding Scanning

/-- `%lf` into a `double` of 53 binary digits. The numbers that are printed are far from its range's end. -/
structure RoundingScanner extends DoubleScanner ℚ where
  nearest_eq : ∀ (negative : Bool) (n : ℕ), n < 2^100 →
    nearest (negative,n) = if negative then -(roundNearest 53 n : ℚ) else roundNearest 53 n

namespace Timespec

/-- A reading of a clock: less than a second in the nanoseconds. -/
def IsReading (t : Timespec) : Prop := 0 ≤ t.tvNsec.toInt ∧ t.tvNsec.toInt < 10^9

def nanoseconds (t : Timespec) : ℤ := t.tvSec.toInt * 10^9 + t.tvNsec.toInt

/-- The time between two readings. -/
def elapsed (timeStart timeEnd : Timespec) : ℤ :=
  (timeEnd.tvSec.toInt - timeStart.tvSec.toInt) * 10^9 + (timeEnd.tvNsec.toInt - timeStart.tvNsec.toInt)

end Timespec

private theorem long_of_fits {z : ℤ} (hlow : -2^63 ≤ z) (hhigh : z < 2^63) : long z = some z := if_pos ⟨hlow,hhigh⟩

private theorem long_eq_some {z r : ℤ} (h : long z = some r) : z = r ∧ -2^63 ≤ z ∧ z < 2^63 := by
  rw [long] at h
  split at h
  · exact ⟨Option.some.inj h,‹_›⟩
  · cases h

theorem addSeconds_of_nonneg {nsec : ℤ} (h : 0 ≤ nsec) : addSeconds nsec = nsec := by
  rw [addSeconds,if_neg (not_lt.mpr h)]

/-- Less than a second below zero the loop turns once. -/
theorem addSeconds_of_neg {nsec : ℤ} (h : nsec < 0) (hsecond : -10^9 ≤ nsec) : addSeconds nsec = nsec + 10^9 := by
  rw [addSeconds,if_pos h,addSeconds_of_nonneg (by omega)]

/-- What is printed is one number, up to the end of the line. -/
theorem printTime_numeral {timeStart timeEnd : Timespec} {time : Bytes} (h : printTime timeStart timeEnd = some time) :
    ∃ negative digits, time = minusSign negative ++ (digits ++ [10]) ∧ digits ≠ [] ∧ ∀ c ∈ digits, isDigit c := by
  obtain ⟨nsec,-,h⟩ := Option.bind_eq_some_iff.mp h
  obtain ⟨sec,-,h⟩ := Option.bind_eq_some_iff.mp h
  refine ⟨sec < 0,digitsOf sec.natAbs ++ zeroPadded 9 (addSeconds nsec).toNat,?_,?_,fun c hc => ?_⟩
  · rw [← Option.some.inj h,signedDigits,List.append_assoc,List.append_assoc]
  · exact List.append_ne_nil_of_left_ne_nil (digitsOf_ne_nil _) _
  · rcases List.mem_append.mp hc with hc | hc
    · exact isDigit_of_mem_digitsOf hc
    · exact isDigit_of_mem_zeroPadded hc

/-- The digits that are printed, when no second is below the first one's and the nanoseconds
make up less than a second. -/
theorem printTime_digits {timeStart timeEnd : Timespec} {sec : ℕ} {nsec : ℤ}
    (hnsec : timeEnd.tvNsec.toInt - timeStart.tvNsec.toInt = nsec) (hsecond : -10^9 < nsec ∧ nsec < 10^9)
    (hsec : timeEnd.tvSec.toInt - timeStart.tvSec.toInt = sec) (hfits : (sec : ℤ) < 2^63) :
    ∃ digits, printTime timeStart timeEnd = some (digits ++ [10]) ∧ digits ≠ [] ∧ (∀ c ∈ digits, isDigit c) ∧
      digitsValue digits = sec * 10^9 + (addSeconds nsec).toNat ∧ digitsValue digits < 2^94 := by
  have hbelow : (addSeconds nsec).toNat < 10^9 := by
    rcases lt_or_ge nsec 0 with hneg | hpos
    · rw [addSeconds_of_neg hneg hsecond.1.le]
      omega
    · rw [addSeconds_of_nonneg hpos]
      omega
  have hvalue := digitsValue_glued sec (by decide) hbelow
  refine ⟨digitsOf sec ++ zeroPadded 9 (addSeconds nsec).toNat,?_,
    List.append_ne_nil_of_left_ne_nil (digitsOf_ne_nil _) _,fun c hc => ?_,hvalue,by omega⟩
  · rw [printTime,hnsec,hsec,long_of_fits (by omega) (by omega),long_of_fits (by omega) hfits]
    simp only [Option.bind_eq_bind,Option.bind_some,signedDigits,minusSign,Int.natAbs_natCast]
    rw [if_neg (by simp),List.nil_append,List.append_assoc]
  · exact (List.mem_append.mp hc).elim isDigit_of_mem_digitsOf isDigit_of_mem_zeroPadded

/-- In the file of the results the digits are read as the double nearest to their number. -/
theorem RoundingScanner.scan_digits (scanner : RoundingScanner) {digits : Bytes} (hne : digits ≠ [])
    (hdigits : ∀ c ∈ digits, isDigit c) (hvalue : digitsValue digits < 2^94) (rest : Bytes) :
    scanner.scan (32::(digits ++ [10] ++ rest)) = (some (roundNearest 53 (digitsValue digits) : ℚ),10::rest) := by
  have hscan := @DoubleScanner.scan_numeral _ scanner.toDoubleScanner [32] digits false (10::rest)
    (by simp [isSpace]) hdigits hne (fun c hc => Option.some.inj hc ▸ rfl)
  rw [scanner.nearest_eq false _ (hvalue.trans (Nat.pow_lt_pow_right (by decide) (by decide)))] at hscan
  simpa [minusSign] using hscan

/-- A number is read back exactly if the digits round to it. -/
theorem RoundingScanner.scan_eq_iff (scanner : RoundingScanner) {digits : Bytes} (hne : digits ≠ [])
    (hdigits : ∀ c ∈ digits, isDigit c) (hvalue : digitsValue digits < 2^94) (n : ℕ) :
    (∀ rest, scanner.scan (32::(digits ++ [10] ++ rest)) = (some ((n : ℤ) : ℚ),10::rest)) ↔
      roundNearest 53 (digitsValue digits) = n := by
  constructor
  · intro hscan
    have hsame := congrArg Prod.fst ((scanner.scan_digits hne hdigits hvalue []).symm.trans (hscan []))
    exact_mod_cast Option.some.inj hsame
  · intro hround rest
    rw [scanner.scan_digits hne hdigits hvalue rest,hround]
    rfl

private theorem printTime_overflow {timeStart timeEnd : Timespec}
    (h : 2^63 ≤ timeEnd.tvSec.toInt - timeStart.tvSec.toInt) : printTime timeStart timeEnd = none := by
  cases htime : printTime timeStart timeEnd with
  | none => rfl
  | some time =>
    obtain ⟨nsec,-,hrest⟩ := Option.bind_eq_some_iff.mp htime
    obtain ⟨sec,hsec,-⟩ := Option.bind_eq_some_iff.mp hrest
    exact absurd (long_eq_some hsec).2.2 (not_lt.mpr h)

/-- A second too many goes unnoticed only where doubles lie more than two seconds apart. -/
theorem roundNearest_second_iff {n : ℕ} : roundNearest 53 (n + 10^9) = n ↔ 2^83 ≤ n ∧ Representable 53 n := by
  constructor
  · intro h
    have hlow : 2^83 ≤ n := by
      by_contra hlow
      rcases lt_or_ge (n + 10^9) (2^83) with hlt | hge
      · have hplace : lastPlace 53 (n + 10^9) ≤ 2^30 := by
          have hlog := (Nat.log2_lt (show n + 10^9 ≠ 0 by omega)).mpr hlt
          exact Nat.pow_le_pow_right Nat.two_pos (by omega)
        have herror := nearestMultiple_error (lastPlace_pos 53 (n + 10^9)) (n + 10^9)
        rw [← roundNearest,h] at herror
        omega
      · have hkept := pow_le_roundNearest (show 0 < 53 by decide) hge
        rw [h] at hkept
        exact hlow hkept
    exact ⟨hlow,h ▸ representable_roundNearest (by decide) _⟩
  · rintro ⟨hlow,hrep⟩
    refine roundNearest_add (by decide) hrep ?_
    have hlog := (Nat.le_log2 (show n ≠ 0 by omega)).mpr hlow
    have hplace : 2^31 ≤ lastPlace 53 n := Nat.pow_le_pow_right Nat.two_pos (by omega)
    omega

/-- The number read back is the time between the readings exactly if the seconds between them
fit, this time is a double, and the later reading has no fewer nanoseconds in its last second
or the second too many is lost in rounding. -/
theorem printTime_elapsed_iff (scanner : RoundingScanner) {timeStart timeEnd : Timespec}
    (hstart : timeStart.IsReading) (hend : timeEnd.IsReading) (hle : timeStart.nanoseconds ≤ timeEnd.nanoseconds) :
    (∃ time, printTime timeStart timeEnd = some time ∧ ∀ rest,
        scanner.scan (32::(time ++ rest)) = (some (Timespec.elapsed timeStart timeEnd : ℚ),10::rest)) ↔
      timeEnd.tvSec.toInt - timeStart.tvSec.toInt < 2^63 ∧
        Representable 53 (Timespec.elapsed timeStart timeEnd).toNat ∧
        (timeStart.tvNsec.toInt ≤ timeEnd.tvNsec.toInt ∨ 2^83 ≤ Timespec.elapsed timeStart timeEnd) := by
  obtain ⟨hstart,hstart'⟩ := hstart
  obtain ⟨hend,hend'⟩ := hend
  rw [Timespec.nanoseconds,Timespec.nanoseconds] at hle
  obtain ⟨sec,hsec⟩ := Int.eq_ofNat_of_zero_le (a := timeEnd.tvSec.toInt - timeStart.tvSec.toInt) (by omega)
  obtain ⟨n,hn⟩ := Int.eq_ofNat_of_zero_le (a := Timespec.elapsed timeStart timeEnd) (by rw [Timespec.elapsed]; omega)
  have helapsed := hn
  rw [Timespec.elapsed,hsec] at helapsed
  rw [hn,hsec,Int.toNat_natCast]
  rcases lt_or_ge (sec : ℤ) (2^63) with hfits | hlarge
  · obtain ⟨digits,htime,hne,hdigits,hvalue,hrange⟩ := printTime_digits rfl ⟨by omega,by omega⟩ hsec hfits
    have hread : (∃ time, printTime timeStart timeEnd = some time ∧ ∀ rest,
        scanner.scan (32::(time ++ rest)) = (some ((n : ℤ) : ℚ),10::rest)) ↔ roundNearest 53 (digitsValue digits) = n := by
      simp only [htime,Option.some.injEq,exists_eq_left']
      exact scanner.scan_eq_iff hne hdigits hrange n
    rw [hread,hvalue]
    rcases lt_or_ge (timeEnd.tvNsec.toInt - timeStart.tvNsec.toInt) 0 with hneg | hpos
    · rw [addSeconds_of_neg hneg (by omega),
        show sec * 10^9 + Int.toNat (timeEnd.tvNsec.toInt - timeStart.tvNsec.toInt + 10^9) = n + 10^9 by omega,
        roundNearest_second_iff]
      constructor
      · exact fun ⟨hlow,hrep⟩ => ⟨hfits,hrep,Or.inr (by exact_mod_cast hlow)⟩
      · exact fun ⟨_,hrep,hor⟩ => ⟨by exact_mod_cast hor.resolve_left (by omega),hrep⟩
    · rw [addSeconds_of_nonneg hpos,
        show sec * 10^9 + Int.toNat (timeEnd.tvNsec.toInt - timeStart.tvNsec.toInt) = n by omega,
        roundNearest_eq_self_iff]
      exact ⟨fun hrep => ⟨hfits,hrep,Or.inl (by omega)⟩,fun h => h.2.1⟩
  · rw [printTime_overflow (by omega)]
    constructor
    · rintro ⟨_,h,-⟩
      cases h
    · rintro ⟨h,-⟩
      omega

/-- Rounding of the numerals; of other texts nothing is read. -/
def roundingScanner : RoundingScanner where
  scan input := match scanNumeral input with
    | some ((negative,n),rest) => (some (if negative then -(roundNearest 53 n : ℚ) else roundNearest 53 n),rest)
    | none => (none,afterMismatch input)
  zero := 0
  nearest numeral := if numeral.1 then -(roundNearest 53 numeral.2 : ℚ) else roundNearest 53 numeral.2
  scan_numeral negative rest hblanks hdigits hne hrest := by
    rw [scanNumeral_text negative rest hblanks hdigits hne fun c hc hdigit => (of_isDigit hdigit).1 (hrest c hc)]
  nearest_eq _ _ _ := rfl

/-- Two seconds and a part of the next, without a second boundary in the nanoseconds. -/
theorem printTime_elapsed_two_seconds :
    ∃ time, printTime ⟨5,100⟩ ⟨7,300⟩ = some time ∧ ∀ rest,
      roundingScanner.scan (32::(time ++ rest)) = (some (Timespec.elapsed ⟨5,100⟩ ⟨7,300⟩ : ℚ),10::rest) :=
  (printTime_elapsed_iff roundingScanner ⟨by decide,by decide⟩ ⟨by decide,by decide⟩ (by decide)).mpr
    ⟨by decide,⟨2000000200,0,by decide,by decide⟩,Or.inl (by decide)⟩

/-- One nanosecond across the end of a second is printed, and read, as a second and a nanosecond. -/
theorem printTime_second_boundary :
    Timespec.IsReading ⟨0,999999999⟩ ∧ Timespec.IsReading ⟨1,0⟩ ∧
      Timespec.nanoseconds ⟨0,999999999⟩ ≤ Timespec.nanoseconds ⟨1,0⟩ ∧
      Timespec.elapsed ⟨0,999999999⟩ ⟨1,0⟩ = 1 ∧
      ∃ time, printTime ⟨0,999999999⟩ ⟨1,0⟩ = some time ∧ ∀ (scanner : RoundingScanner) (rest : Bytes),
        scanner.scan (32::(time ++ rest)) = (some 1000000001,10::rest) := by
  refine ⟨⟨by decide,by decide⟩,⟨by decide,by decide⟩,by decide,by decide,?_⟩
  obtain ⟨digits,htime,hne,hdigits,hvalue,hrange⟩ := @printTime_digits ⟨0,999999999⟩ ⟨1,0⟩ 1 (-999999999) (by decide)
    (by decide) (by decide) (by decide)
  rw [addSeconds_of_neg (by decide) (by decide)] at hvalue
  have hexact : roundNearest 53 1000000001 = 1000000001 :=
    roundNearest_eq_self_iff.mpr ⟨1000000001,0,by decide,by decide⟩
  refine ⟨_,htime,fun scanner rest => ?_⟩
  rw [scanner.scan_digits hne hdigits hrange rest,hvalue,show 1 * 10^9 + (-999999999 + 10^9 : ℤ).toNat = 1000000001 from rfl,
    hexact]
  rfl

end PpsDht
