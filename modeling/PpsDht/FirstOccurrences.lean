import Mathlib.Data.List.Dedup
import Mathlib.Data.List.Induction
import Mathlib.Data.List.Nodup
import Mathlib.Data.List.Perm.Subperm
import Mathlib.Tactic.Common

/-! # First occurrences

`distinctBy f seen as` keeps the items of `as` whose class under `f` is met for
the first time, the classes in `seen` counting as met. Among the items of a list
one is the first to occur a given number of times. -/
namespace PpsDht.FirstOccurrences

variable {α β : Type} [DecidableEq β] (f : α → β)

def distinctBy : List β → List α → List α
  | _, [] => []
  | seen, a::as => if f a ∈ seen then distinctBy seen as else a::distinctBy (seen ++ [f a]) as

/-- The classes kept are those met and not seen before. -/
theorem mem_map_distinctBy (seen : List β) (as : List α) (b : β) :
    b ∈ (distinctBy f seen as).map f ↔ b ∈ as.map f ∧ b ∉ seen := by
  induction as generalizing seen with
  | nil => simp [distinctBy]
  | cons a as ih =>
    rw [distinctBy]
    split
    · rename_i ha
      rw [ih,List.map_cons,List.mem_cons]
      constructor
      · exact fun h => ⟨Or.inr h.1,h.2⟩
      · rintro ⟨rfl | h,hn⟩
        · exact absurd ha hn
        · exact ⟨h,hn⟩
    · rename_i ha
      rw [List.map_cons,List.mem_cons,ih,List.map_cons,List.mem_cons,List.mem_append,List.mem_singleton]
      by_cases hb : b = f a
      · simp [hb,ha]
      · simp [hb]

theorem nodup_map_distinctBy (seen : List β) (as : List α) : ((distinctBy f seen as).map f).Nodup := by
  induction as generalizing seen with
  | nil => exact List.nodup_nil
  | cons a as ih =>
    rw [distinctBy]
    split
    · exact ih seen
    · rw [List.map_cons,List.nodup_cons,mem_map_distinctBy]
      refine ⟨fun h => h.2 ?_,ih _⟩
      exact List.mem_append_right _ (List.mem_singleton_self _)

/-- As many items are kept as there are classes. -/
theorem length_distinctBy (as : List α) : (distinctBy f [] as).length = (as.map f).dedup.length := by
  rw [← List.length_map f]
  have h : ((distinctBy f [] as).map f).Perm (as.map f).dedup :=
    (List.perm_ext_iff_of_nodup (nodup_map_distinctBy f [] as) (List.nodup_dedup _)).mpr fun b => by
      rw [mem_map_distinctBy,List.mem_dedup]
      exact and_iff_left List.not_mem_nil
  exact h.length_eq

theorem distinctBy_append (seen : List β) (as bs : List α) :
    distinctBy f seen (as ++ bs) =
      distinctBy f seen as ++ distinctBy f (seen ++ (distinctBy f seen as).map f) bs := by
  induction as generalizing seen with
  | nil => simp [distinctBy]
  | cons a as ih =>
    rw [List.cons_append,distinctBy,distinctBy]
    split
    · exact ih seen
    · rw [ih,List.map_cons,List.cons_append,List.append_assoc,List.singleton_append]

/-- One more item is kept unless its class is among those kept. -/
theorem distinctBy_concat (as : List α) (a : α) :
    distinctBy f [] (as ++ [a]) =
      if f a ∈ (distinctBy f [] as).map f then distinctBy f [] as else distinctBy f [] as ++ [a] := by
  rw [distinctBy_append,List.nil_append,distinctBy]
  split
  · rw [distinctBy,List.append_nil]
  · rw [distinctBy]

/-- The item kept at position `i` is the first of its class, and `i` classes were
met before it. -/
theorem distinctBy_getElem? {seen : List β} {as : List α} {i : ℕ} {a : α}
    (h : (distinctBy f seen as)[i]? = some a) :
    ∃ before after : List α, as = before ++ a::after ∧ f a ∉ seen ∧ f a ∉ before.map f ∧
      (distinctBy f seen before).length = i := by
  induction as generalizing seen i with
  | nil => simp [distinctBy] at h
  | cons b as ih =>
    rw [distinctBy] at h
    split at h
    · rename_i hb
      obtain ⟨before,after,rfl,hs,hn,hi⟩ := ih h
      refine ⟨b::before,after,rfl,hs,?_,?_⟩
      · rw [List.map_cons,List.mem_cons,not_or]
        exact ⟨fun he => hs (he ▸ hb),hn⟩
      · rw [distinctBy,if_pos hb,hi]
    · rename_i hb
      cases i with
      | zero =>
        obtain rfl := Option.some.inj h
        exact ⟨[],as,rfl,hb,List.not_mem_nil,rfl⟩
      | succ i =>
        obtain ⟨before,after,rfl,hs,hn,hi⟩ := ih h
        rw [List.mem_append,List.mem_singleton,not_or] at hs
        refine ⟨b::before,after,rfl,hs.1,?_,?_⟩
        · rw [List.map_cons,List.mem_cons,not_or]
          exact ⟨hs.2,hn⟩
        · rw [distinctBy,if_neg hb,List.length_cons,hi]

/-- The first item of a class not seen before is kept. -/
theorem distinctBy_of_find? {seen : List β} {as : List α} {a : α} (h : as.find? (f · ∉ seen) = some a) :
    distinctBy f seen as = a::distinctBy f (seen ++ [f a]) as := by
  induction as with
  | nil => cases h
  | cons b as ih =>
    by_cases hb : f b ∈ seen
    · rw [List.find?_cons_of_neg (by simpa using hb)] at h
      rw [distinctBy,distinctBy,if_pos hb,if_pos (List.mem_append_left _ hb),ih h]
    · rw [List.find?_cons_of_pos (by simpa using hb)] at h
      obtain rfl := Option.some.inj h
      rw [distinctBy,distinctBy,if_neg hb,if_pos (List.mem_append_right _ (List.mem_singleton_self _))]

theorem exists_find?_of_distinctBy {seen : List β} {as : List α} (h : distinctBy f seen as ≠ []) :
    ∃ a, as.find? (f · ∉ seen) = some a := by
  by_contra hnone
  obtain ⟨a,ha⟩ := List.exists_mem_of_ne_nil _ h
  obtain ⟨hmem,hnew⟩ := (mem_map_distinctBy f seen as (f a)).mp (List.mem_map_of_mem ha)
  obtain ⟨b,hb,hba⟩ := List.mem_map.mp hmem
  have hall := List.find?_eq_none.mp (Option.eq_none_iff_forall_ne_some.mpr (not_exists.mp hnone)) b hb
  exact hall (by simpa [hba] using hnew)

/-- The classes kept depend on the classes met alone. -/
theorem map_distinctBy (seen : List β) (as : List α) :
    (distinctBy f seen as).map f = distinctBy id seen (as.map f) := by
  induction as generalizing seen with
  | nil => rfl
  | cons a as ih =>
    rw [distinctBy,List.map_cons,distinctBy]
    split
    · rename_i ha
      rw [if_pos (show id (f a) ∈ seen from ha),ih]
    · rename_i ha
      rw [if_neg (show id (f a) ∉ seen from ha),List.map_cons,ih]
      rfl

/-- Leaving a class out before or after makes no difference. -/
theorem filter_distinctBy (b : β) {seen seen' : List β} (h : ∀ c, c ≠ b → (c ∈ seen ↔ c ∈ seen')) (as : List α) :
    (distinctBy f seen as).filter (fun a => f a ≠ b) = distinctBy f seen' (as.filter fun a => f a ≠ b) := by
  induction as generalizing seen seen' with
  | nil => rfl
  | cons a as ih =>
    by_cases hb : f a = b
    · rw [distinctBy,List.filter_cons_of_neg (by simpa using hb)]
      split
      · exact ih h
      · rw [List.filter_cons_of_neg (by simpa using hb)]
        refine ih fun c hc => ?_
        simp [h c hc,hb,hc]
    · rw [List.filter_cons_of_pos (by simpa using hb),distinctBy,distinctBy]
      simp only [h (f a) hb]
      split
      · exact ih h
      · rw [List.filter_cons_of_pos (by simpa using hb),ih fun c hc => ?_]
        simp [h c hc]

/-- Among the first items of a list without duplicates `b` occurs once or not at all. -/
theorem take_filter_ne {bs : List β} (h : bs.Nodup) (b : β) (n : ℕ) :
    bs.take n = (bs.filter (· ≠ b)).take n ∨
      (bs.take n).count b = 1 ∧ (bs.take n).filter (· ≠ b) = (bs.filter (· ≠ b)).take (n - 1) := by
  induction bs generalizing n with
  | nil => simp
  | cons c bs ih =>
    obtain ⟨hc,h⟩ := List.nodup_cons.mp h
    cases n with
    | zero => simp
    | succ n =>
      by_cases hb : c = b
      · subst hb
        have hself : bs.filter (· ≠ c) = bs :=
          List.filter_eq_self.mpr fun a ha => by simpa using fun he : a = c => hc (he ▸ ha)
        have htake : (bs.take n).filter (· ≠ c) = bs.take n :=
          List.filter_eq_self.mpr fun a ha => by simpa using fun he : a = c => hc (he ▸ List.mem_of_mem_take ha)
        have hcount : (bs.take n).count c = 0 := List.count_eq_zero.mpr fun ha => hc (List.mem_of_mem_take ha)
        right
        simp only [List.take_succ_cons,List.count_cons_self,hcount,ne_eq,not_true_eq_false,decide_false,
          Bool.false_eq_true,not_false_eq_true,List.filter_cons_of_neg,Nat.add_sub_cancel]
        exact ⟨trivial,htake.trans (congrArg (List.take n) hself.symm)⟩
      · rcases ih h n with heq | ⟨hcount,heq⟩
        · left
          rw [List.take_succ_cons,heq,List.filter_cons_of_pos (by simpa using hb),List.take_succ_cons]
        · right
          have hn : n ≠ 0 := by
            rintro rfl
            simp at hcount
          obtain ⟨n,rfl⟩ := Nat.exists_eq_succ_of_ne_zero hn
          rw [List.take_succ_cons,List.count_cons_of_ne hb,List.filter_cons_of_pos (by simpa using hb),heq,
            List.filter_cons_of_pos (by simpa using hb)]
          exact ⟨hcount,rfl⟩

/-- If some item occurs `n` times, one is the first to do so. -/
theorem exists_first_count {α : Type} [DecidableEq α] {n : ℕ} (hn : 0 < n) {as : List α}
    (h : ∃ a, n ≤ as.count a) :
    ∃ before a after, as = before ++ a::after ∧ (∀ b, before.count b < n) ∧ n ≤ before.count a + 1 := by
  induction as using List.reverseRecOn with
  | nil =>
    obtain ⟨a,ha⟩ := h
    exact absurd (Nat.lt_of_lt_of_le hn ha) (Nat.lt_irrefl 0)
  | append_singleton as a ih =>
    by_cases hinit : ∃ b, n ≤ as.count b
    · obtain ⟨before,b,after,rfl,hb⟩ := ih hinit
      refine ⟨before,b,after ++ [a],?_,hb⟩
      rw [List.append_assoc,List.cons_append]
    · have hall : ∀ b, as.count b < n := fun b => Nat.lt_of_not_le fun hb => hinit ⟨b,hb⟩
      obtain ⟨b,hb⟩ := h
      rw [List.count_append,List.count_singleton] at hb
      have hb' := hall b
      obtain rfl : a = b := by
        by_contra hne
        rw [if_neg (by simpa using hne)] at hb
        omega
      refine ⟨as,a,[],rfl,hall,?_⟩
      simpa using hb

/-- Two lists of distinct elements of a shorter list have one in common. -/
theorem exists_common {A B as : List α} (hA : A.Nodup) (hB : B.Nodup) (hAs : A ⊆ as) (hBs : B ⊆ as)
    (hlen : as.length < A.length + B.length) : ∃ a, a ∈ A ∧ a ∈ B := by
  by_contra hcommon
  have hdisjoint : A.Disjoint B := fun a ha hb => hcommon ⟨a,ha,hb⟩
  have hle := ((hA.append hB hdisjoint).subperm (List.append_subset.mpr ⟨hAs,hBs⟩)).length_le
  rw [List.length_append] at hle
  omega

end PpsDht.FirstOccurrences
