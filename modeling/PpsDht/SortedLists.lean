import Mathlib.Data.List.Rotate
import Mathlib.Data.List.Sort
import Mathlib.Data.List.TakeWhile

/-! # Lists sorted by a rank

The rank takes values in a linear order; items of equal rank may stand in any
order. A search for a lower bound splits such a list in two. -/
namespace PpsDht.SortedLists

variable {α β γ : Type} [LinearOrder γ] (rank : α → γ)

def SortedBy (as : List α) : Prop := as.Pairwise fun a b => rank a ≤ rank b

variable {rank} {as bs : List α}

theorem SortedBy.sublist (h : SortedBy rank bs) (hs : as.Sublist bs) : SortedBy rank as :=
  List.Pairwise.sublist hs h

/-- Two sorted arrangements of the same items have the same ranks. -/
theorem map_rank_eq (hp : as.Perm bs) (ha : SortedBy rank as) (hb : SortedBy rank bs) :
    as.map rank = bs.map rank := by
  refine List.Perm.eq_of_pairwise (fun c d _ _ (hcd : c ≤ d) hdc => le_antisymm hcd hdc) ?_ ?_ (hp.map rank)
  · exact List.pairwise_map.mpr ha
  · exact List.pairwise_map.mpr hb

/-- What is the same for items of equal rank comes in the same order. -/
theorem map_eq_of_ties (f : α → β) (hp : as.Perm bs) (ha : SortedBy rank as) (hb : SortedBy rank bs)
    (hties : ∀ a ∈ as, ∀ b ∈ as, rank a = rank b → f a = f b) : as.map f = bs.map f := by
  refine List.ext_getElem? fun i => ?_
  have hrank := congrArg (·[i]?) (map_rank_eq hp ha hb)
  simp only [List.getElem?_map] at hrank ⊢
  cases hi : as[i]? with
  | none =>
    rw [hi,Option.map_none,eq_comm,Option.map_eq_none_iff] at hrank
    rw [hrank]
  | some a =>
    rw [hi,Option.map_some,eq_comm,Option.map_eq_some_iff] at hrank
    obtain ⟨b,hb,hab⟩ := hrank
    have hmem := hp.mem_iff.mpr (List.mem_of_getElem? hb)
    rw [hb,Option.map_some,Option.map_some,hties a (List.mem_of_getElem? hi) b hmem hab.symm]

/-- Any item can stand in front of those of its rank. -/
theorem exists_sortedBy_leading (rank : α → γ) {a : α} (h : a ∈ as) :
    ∃ front back, (front ++ a::back).Perm as ∧ SortedBy rank (front ++ a::back) ∧ ∀ b ∈ front, rank b < rank a := by
  obtain ⟨before,after,rfl⟩ := List.append_of_mem h
  have htotal : Std.Total fun a b : α => rank a ≤ rank b := ⟨fun a b => le_total (rank a) (rank b)⟩
  have htrans : IsTrans α fun a b => rank a ≤ rank b := ⟨fun _ _ _ => le_trans⟩
  have hperm := List.perm_insertionSort (fun a b => rank a ≤ rank b) (a::(before ++ after))
  have hsorted := List.pairwise_insertionSort (fun a b => rank a ≤ rank b) (a::(before ++ after))
  rw [List.insertionSort_cons_eq_take_drop] at hperm hsorted
  refine ⟨_,_,hperm.trans List.perm_middle.symm,hsorted,fun b hb => ?_⟩
  simpa using List.mem_takeWhile_imp hb

/-- Rotated to the first item that satisfies an upward closed predicate, a list shows
the items that satisfy it and then the others. -/
theorem rotate_findIdx {p : α → Bool} (h : as.Pairwise fun a b => p a → p b) :
    as.rotate ((as.findIdx? p).getD 0) = as.filter p ++ as.filter fun a => !p a := by
  cases hi : as.findIdx? p with
  | none =>
    have hnone := List.findIdx?_eq_none_iff.mp hi
    have hp : as.filter p = [] := by simpa using hnone
    have hnot : as.filter (fun a => !p a) = as := by simpa using hnone
    rw [hp,hnot]
    exact List.rotate_zero as
  | some i =>
    obtain ⟨hlen,hpi,hbefore⟩ := List.findIdx?_eq_some_iff_getElem.mp hi
    have htake : ∀ a ∈ as.take i, ¬p a := by
      intro a ha
      obtain ⟨j,hj,rfl⟩ := List.mem_take_iff_getElem.mp ha
      exact hbefore j (Nat.lt_of_lt_of_le hj (Nat.min_le_left _ _))
    have hdrop : ∀ a ∈ as.drop i, p a := by
      rw [← List.take_append_drop i as,List.pairwise_append] at h
      rw [List.drop_eq_getElem_cons hlen] at h ⊢
      refine List.forall_mem_cons.mpr ⟨hpi,fun a ha => ?_⟩
      exact (List.pairwise_cons.mp h.2.1).1 a ha hpi
    have hsplit := List.take_append_drop i as
    have hp : as.filter p = as.drop i := by
      conv_lhs => rw [← hsplit,List.filter_append]
      rw [List.filter_eq_nil_iff.mpr htake,List.filter_eq_self.mpr hdrop,List.nil_append]
    have hnot : as.filter (fun a => !p a) = as.take i := by
      conv_lhs => rw [← hsplit,List.filter_append]
      rw [List.filter_eq_self.mpr (by simpa using htake),
        List.filter_eq_nil_iff.mpr (by simpa using hdrop),List.append_nil]
    rw [hp,hnot,Option.getD_some,List.rotate_eq_drop_append_take hlen.le]

/-- In a sorted list the items from a bound on come last. -/
theorem SortedBy.rotate_lowerBound (h : SortedBy rank as) (c : γ) {p : α → Bool}
    (hp : ∀ a, p a ↔ c ≤ rank a) :
    as.rotate ((as.findIdx? p).getD 0) = as.filter p ++ as.filter fun a => !p a :=
  rotate_findIdx (h.imp fun hab ha => (hp _).mpr (((hp _).mp ha).trans hab))

end PpsDht.SortedLists
