import PpsDht.FailingTables
import PpsDht.Network

/-! # The votes counted in the local hash table

A counter is the first byte of a string. It never exceeds the votes cast, equals
them when no allocation fails, and is read back correctly below 128 votes. At 128
votes the byte is negative and becomes a huge unsigned number. -/
namespace PpsDht
open Mem

/-- The string that stands for `n` votes, for `n` below 256. -/
def counter (n : ℕ) : Option CString :=
  if h : UInt8.ofNat n = 0 then none else some ⟨[UInt8.ofNat n],by simpa [eq_comm] using h⟩

@[simp] theorem counter_zero : counter 0 = none := rfl

private theorem counter_eq_some {n : ℕ} {s : CString} (h : counter n = some s) :
    s.chars = [UInt8.ofNat n] ∧ n ≠ 0 := by
  have hn : n ≠ 0 := fun hz => by
    rw [hz,counter_zero] at h
    exact absurd h nofun
  rw [counter] at h
  split at h
  · exact absurd h nofun
  · rw [← Option.some.inj h]
    exact ⟨rfl,hn⟩

private theorem readString_counter {n : ℕ} (h : n ≠ 0) (hn : n ≤ 128) :
    ∃ s, counter n = some s ∧ readString [UInt8.ofNat n,0] = some s := by
  have hz : UInt8.ofNat n ≠ 0 := fun hz => by
    have hnat := congrArg UInt8.toNat hz
    rw [UInt8.toNat_ofNat',UInt8.toNat_zero] at hnat
    omega
  have hfree : (0 : UInt8) ∉ [UInt8.ofNat n] := by simpa [eq_comm] using hz
  exact ⟨⟨[UInt8.ofNat n],hfree⟩,by rw [counter,dif_neg hz],readString_append ⟨[UInt8.ofNat n],hfree⟩ []⟩

private theorem eq_zero_of_counter {n : ℕ} (hn : n ≤ 128) (h : counter n = none) : n = 0 := by
  by_contra hz
  obtain ⟨s,hs,-⟩ := readString_counter hz hn
  exact absurd (h.symm.trans hs) nofun

/-- The comparison with the quorum, up to the first negative count. -/
theorem le_unsignedOfChar {R n : ℕ} (hR : R ≤ intMax ∨ n < 128) (hn : n ≤ 128) :
    R ≤ unsignedOfChar (UInt8.ofNat n) ↔ min R 128 ≤ n := by
  have hnat : (UInt8.ofNat n).toNat = n := by
    rw [UInt8.toNat_ofNat']
    omega
  rw [intMax] at hR
  rw [unsignedOfChar,hnat]
  split <;> omega

/-- Each counter stands for at most the votes seen, and for all of them if `exact` holds. -/
def Tally {N : ℕ} (exact : Prop) (m : ChainedMap N) (seen : List CString) : Prop :=
  ∀ w, ∃ n, m.lookup w = counter n ∧ n ≤ seen.count w ∧ n < 128 ∧ (exact → n = seen.count w)

variable {N : ℕ} {exact : Prop}

theorem tally_initial (h : N ≠ 0) : Tally exact (.empty h) [] := fun w =>
  ⟨0,ChainedMap.lookup_empty h w,Nat.le_refl 0,by decide,fun _ => rfl⟩

/-- One more vote, stored or, after a failed allocation, lost. -/
theorem Tally.vote {m m' : ChainedMap N} {seen : List CString} (h : Tally exact m seen) {w s : CString}
    {n : ℕ} (hs : counter n = some s) (hle : n ≤ seen.count w + 1) (hlt : n < 128)
    (hexact : exact → n = seen.count w + 1) (hm : m' = m.add w s ∨ ¬exact ∧ m' = m) :
    Tally exact m' (w::seen) := by
  intro w'
  obtain ⟨n',hlookup,hle',hlt',hexact'⟩ := h w'
  rcases hm with rfl | ⟨hno,rfl⟩
  · by_cases hw : w' = w
    · subst hw
      refine ⟨n,?_,?_,hlt,?_⟩
      · rw [ChainedMap.lookup_add,if_pos rfl,hs]
      · rwa [List.count_cons_self]
      · rwa [List.count_cons_self]
    · refine ⟨n',?_,?_,hlt',?_⟩
      · rw [ChainedMap.lookup_add,if_neg hw,hlookup]
      · rwa [List.count_cons_of_ne (Ne.symm hw)]
      · rwa [List.count_cons_of_ne (Ne.symm hw)]
  · exact ⟨n',hlookup,hle'.trans (List.count_le_count_cons),hlt',fun he => absurd he hno⟩

/-- The copy that was read, absent or a counter, is replaced by the next counter. -/
theorem incrementAndGet_eq {table : Htable} {w : CString} {outcomes rest : Outcomes} {n : ℕ} (hn : n < 128)
    (hget : getHtableValue table w outcomes = some (counter n,rest)) :
    ∃ s, counter (n + 1) = some s ∧ incrementAndGet table w outcomes =
      (addHtableValue table w s >>= fun r => pure (unsignedOfChar (UInt8.ofNat (n + 1)),r.2)) rest := by
  obtain ⟨s,hs,hread⟩ := readString_counter n.succ_ne_zero hn
  refine ⟨s,hs,?_⟩
  rw [incrementAndGet]
  change (getHtableValue table w outcomes).bind _ = _
  rw [hget,Option.bind_some]
  cases hc : counter n with
  | none =>
    obtain rfl := eq_zero_of_counter hn.le hc
    obtain rfl := Option.some.inj hs
    rfl
  | some v =>
    obtain ⟨hv,-⟩ := counter_eq_some hc
    have hfirst : UInt8.ofNat n + 1 = UInt8.ofNat (n + 1) := by simp
    simp only [CString.stored,hv,List.cons_append,List.nil_append,List.headD_cons,List.tail_cons,hfirst,hread]
    rfl

/-- One vote is counted: the count is that of `n` votes, `n` at most the votes cast
for this value, and below 128 votes the table keeps the tally. -/
theorem incrementAndGet_tally {m : ChainedMap N} {seen : List CString} (h : Tally exact m seen)
    (w : CString) {outcomes : Outcomes} (he : exact → outcomes = []) :
    ∃ (n : ℕ) (m' : ChainedMap N) (rest : Outcomes),
      incrementAndGet m.table w outcomes = some ((unsignedOfChar (UInt8.ofNat n),m'.table),rest) ∧
      (exact → rest = []) ∧ n ≤ 128 ∧ n ≤ seen.count w + 1 ∧ (exact → n = seen.count w + 1) ∧
      (n < 128 → Tally exact m' (w::seen)) := by
  obtain ⟨n₀,hlookup,hle₀,hlt₀,hexact₀⟩ := h w
  obtain ⟨o,rest,hget,ho,hget₀⟩ :=
    (getHtableValue_returns m w).apply (getHtableValue_succeeds m w) outcomes
  obtain ⟨n,rfl,hle,hlt,hexact⟩ : ∃ n, o = counter n ∧ n ≤ seen.count w ∧ n < 128 ∧
      (exact → n = seen.count w) := by
    rcases ho with rfl | rfl
    · refine ⟨0,rfl,Nat.zero_le _,by decide,fun hx => ?_⟩
      have hnone : counter n₀ = none := hlookup.symm.trans (hget₀ (he hx)).1.symm
      exact (eq_zero_of_counter hlt₀.le hnone).symm.trans (hexact₀ hx)
    · exact ⟨n₀,hlookup,hle₀,hlt₀,hexact₀⟩
  obtain ⟨s,hs,heq⟩ := incrementAndGet_eq hlt hget
  obtain ⟨r,rest',hadd,hr,hadd₀⟩ :=
    (addHtableValue_returns m w s).apply (addHtableValue_succeeds m w s) rest
  have hm : ∃ m' : ChainedMap N, r.2 = m'.table ∧ (m' = m.add w s ∨ ¬exact ∧ m' = m) := by
    rcases hr with rfl | rfl
    · exact ⟨_,rfl,Or.inl rfl⟩
    · refine ⟨m,rfl,Or.inr ⟨fun hx => ?_,rfl⟩⟩
      have hcode := (hadd₀ (hget₀ (he hx)).2).1
      exact absurd (congrArg Prod.fst hcode) nofun
  obtain ⟨m',hm',hcases⟩ := hm
  refine ⟨n + 1,m',rest',?_,fun hx => (hadd₀ (hget₀ (he hx)).2).2,hlt,Nat.succ_le_succ hle,
    fun hx => congrArg Nat.succ (hexact hx),fun hn => ?_⟩
  · rw [heq]
    change (addHtableValue m.table w s rest).bind _ = _
    rw [hadd,← hm']
    rfl
  · exact h.vote hs (Nat.succ_le_succ hle) hn (fun hx => congrArg Nat.succ (hexact hx)) hcases

end PpsDht
