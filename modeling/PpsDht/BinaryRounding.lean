import Mathlib.Data.Nat.Log
import Mathlib.Tactic.Ring

/-! # Whole numbers in binary floating point

A format keeps `p` binary digits of a number. A whole number is rounded to the nearest
multiple of the unit in its last place, of two equally near ones to the even multiple.
Exponents are not bounded here. -/
namespace PpsDht.BinaryRounding

/-- The numbers that a format of `p` digits holds. -/
def Representable (p n : ℕ) : Prop := ∃ m e, m < 2^p ∧ n = m * 2^e

/-- The unit in the last of `p` digits. -/
def lastPlace (p n : ℕ) : ℕ := 2^(n.log2 + 1 - p)

def nearestMultiple (u n : ℕ) : ℕ :=
  if 2 * (n % u) < u ∨ 2 * (n % u) = u ∧ n / u % 2 = 0 then n / u * u else (n / u + 1) * u

def roundNearest (p n : ℕ) : ℕ := nearestMultiple (lastPlace p n) n

theorem lastPlace_pos (p n : ℕ) : 0 < lastPlace p n := Nat.two_pow_pos _

private theorem dvd_nearestMultiple (u n : ℕ) : u ∣ nearestMultiple u n := by
  rw [nearestMultiple]
  split <;> exact Nat.dvd_mul_left _ _

private theorem nearestMultiple_of_remainder {u n : ℕ} (h : 2 * (n % u) < u) : nearestMultiple u n = n / u * u :=
  if_pos (Or.inl h)

/-- Half a unit is lost at most. -/
theorem nearestMultiple_error {u : ℕ} (hu : 0 < u) (n : ℕ) : 2 * n ≤ 2 * nearestMultiple u n + u := by
  have hdiv := Nat.div_add_mod n u
  rw [Nat.mul_comm] at hdiv
  rw [nearestMultiple]
  split
  · omega
  · have hmul : (n / u + 1) * u = n / u * u + u := by ring
    have hmod := Nat.mod_lt n hu
    omega

private theorem nearestMultiple_le (u n : ℕ) : nearestMultiple u n ≤ (n / u + 1) * u := by
  rw [nearestMultiple]
  split
  · exact Nat.mul_le_mul_right u (Nat.le_succ _)
  · exact le_rfl

private theorem div_mul_le_nearestMultiple (u n : ℕ) : n / u * u ≤ nearestMultiple u n := by
  rw [nearestMultiple]
  split
  · exact le_rfl
  · exact Nat.mul_le_mul_right u (Nat.le_succ _)

private theorem representable_iff {p n : ℕ} : Representable p n ↔ lastPlace p n ∣ n := by
  rcases n.eq_zero_or_pos with rfl | hn
  · exact iff_of_true ⟨0,0,Nat.two_pow_pos p,rfl⟩ (Nat.dvd_zero _)
  constructor
  · rintro ⟨m,e,hm,rfl⟩
    refine (Nat.pow_dvd_pow 2 ?_).trans (Nat.dvd_mul_left _ m)
    have hlt : m * 2^e < 2^(p + e) := by
      rw [pow_add]
      exact Nat.mul_lt_mul_of_pos_right hm (Nat.two_pow_pos e)
    have hlog := (Nat.log2_lt hn.ne').mpr hlt
    omega
  · rintro ⟨q,hq⟩
    refine ⟨q,n.log2 + 1 - p,?_,hq.trans (Nat.mul_comm _ _)⟩
    by_contra hge
    have hle : 2^(n.log2 + 1) ≤ n := by
      calc 2^(n.log2 + 1) ≤ 2^(n.log2 + 1 - p) * 2^p := by
            rw [← pow_add]
            exact Nat.pow_le_pow_right Nat.two_pos (by omega)
        _ ≤ 2^(n.log2 + 1 - p) * q := Nat.mul_le_mul_left _ (Nat.not_lt.mp hge)
        _ = n := hq.symm
    exact absurd Nat.lt_log2_self (Nat.not_lt.mpr hle)

theorem representable_roundNearest {p : ℕ} (hp : 0 < p) (n : ℕ) : Representable p (roundNearest p n) := by
  obtain ⟨q,hq⟩ := dvd_nearestMultiple (lastPlace p n) n
  have hpos := lastPlace_pos p n
  have hdigits : n / lastPlace p n < 2^p := by
    rw [Nat.div_lt_iff_lt_mul hpos,lastPlace,← pow_add]
    exact Nat.lt_log2_self.trans_le (Nat.pow_le_pow_right Nat.two_pos (by omega))
  have hle : q ≤ 2^p := by
    have hbound := hq ▸ nearestMultiple_le (lastPlace p n) n
    rw [Nat.mul_comm] at hbound
    exact (Nat.le_of_mul_le_mul_right hbound hpos).trans hdigits
  rw [roundNearest,hq]
  rcases hle.lt_or_eq with hlt | rfl
  · exact ⟨q,_,hlt,Nat.mul_comm _ _⟩
  · refine ⟨1,n.log2 + 1 - p + p,Nat.one_lt_two_pow hp.ne',?_⟩
    rw [lastPlace,← pow_add,Nat.one_mul]

/-- Exactly the representable numbers are kept. -/
theorem roundNearest_eq_self_iff {p n : ℕ} : roundNearest p n = n ↔ Representable p n := by
  rw [representable_iff]
  constructor
  · intro h
    have hdvd := dvd_nearestMultiple (lastPlace p n) n
    rwa [← roundNearest,h] at hdvd
  · intro h
    have hmod : 2 * (n % lastPlace p n) < lastPlace p n := by
      rw [Nat.mod_eq_zero_of_dvd h]
      exact lastPlace_pos p n
    exact (nearestMultiple_of_remainder hmod).trans (Nat.div_mul_cancel h)

/-- Numbers do not fall below a power of two. -/
theorem pow_le_roundNearest {p n k : ℕ} (hp : 0 < p) (h : 2^k ≤ n) : 2^k ≤ roundNearest p n := by
  have hn : n ≠ 0 := fun hn => absurd (hn ▸ h) (Nat.not_le.mpr (Nat.two_pow_pos k))
  have hk := (Nat.le_log2 hn).mpr h
  have hdvd : lastPlace p n ∣ 2^n.log2 := Nat.pow_dvd_pow 2 (by omega)
  have hfloor : 2^n.log2 ≤ n / lastPlace p n * lastPlace p n := by
    rw [← Nat.div_mul_cancel hdvd]
    exact Nat.mul_le_mul_right _ (Nat.div_le_div_right (Nat.log2_self_le hn))
  exact ((Nat.pow_le_pow_right Nat.two_pos hk).trans hfloor).trans (div_mul_le_nearestMultiple _ n)

/-- Less than half a unit more than a representable number is lost. -/
theorem roundNearest_add {p n x : ℕ} (hp : 0 < p) (h : Representable p n) (hx : 2 * x < lastPlace p n) :
    roundNearest p (n + x) = n := by
  have hdvd := representable_iff.mp h
  have hn : n ≠ 0 ∨ x = 0 := by
    by_contra hne
    obtain ⟨rfl,hx0⟩ := not_or.mp hne |>.imp_left not_not.mp
    have : lastPlace p 0 = 1 := by
      rw [lastPlace,Nat.log2_zero,show 0 + 1 - p = 0 by omega,pow_zero]
    omega
  rcases hn with hn | rfl
  · have hup : lastPlace p n ∣ 2^(n.log2 + 1) := Nat.pow_dvd_pow 2 (by omega)
    have hnext : n + lastPlace p n ≤ 2^(n.log2 + 1) := by
      have hlt : n / lastPlace p n < 2^(n.log2 + 1) / lastPlace p n := Nat.div_lt_div_of_lt_of_dvd hup Nat.lt_log2_self
      calc n + lastPlace p n = (n / lastPlace p n + 1) * lastPlace p n := by
            rw [Nat.succ_mul,Nat.div_mul_cancel hdvd]
        _ ≤ 2^(n.log2 + 1) / lastPlace p n * lastPlace p n := Nat.mul_le_mul_right _ hlt
        _ = 2^(n.log2 + 1) := Nat.div_mul_cancel hup
    have hsame : (n + x).log2 = n.log2 := by
      apply Nat.le_antisymm
      · exact Nat.lt_succ_iff.mp ((Nat.log2_lt (by omega)).mpr (by omega))
      · exact (Nat.le_log2 (by omega)).mpr ((Nat.log2_self_le hn).trans (Nat.le_add_right n x))
    have hplace : lastPlace p (n + x) = lastPlace p n := by rw [lastPlace,lastPlace,hsame]
    have hmod : (n + x) % lastPlace p n = x := by
      rw [Nat.add_mod,Nat.mod_eq_zero_of_dvd hdvd,Nat.zero_add,Nat.mod_mod,Nat.mod_eq_of_lt (by omega)]
    have hdiv := Nat.div_add_mod (n + x) (lastPlace p n)
    rw [hmod,Nat.mul_comm] at hdiv
    rw [roundNearest,hplace,nearestMultiple_of_remainder (by rwa [hmod])]
    omega
  · exact roundNearest_eq_self_iff.mpr h

end PpsDht.BinaryRounding
