import Mathlib.Data.List.Lemmas
import Mathlib.Data.List.Nodup
import Mathlib.Tactic.Common

/-! # Association lists updated in place

`upsert` overwrites the value of a key where it stands and appends a new key at
the end, so the order of the keys is the order of their first insertion. -/
namespace PpsDht.AssociationLists

variable {α β : Type} [DecidableEq α]

def upsert (a : α) (b : β) : List (α × β) → List (α × β)
  | [] => [(a,b)]
  | p::l => if p.1 = a then (p.1,b)::l else p::upsert a b l

theorem lookup_cons (a : α) (p : α × β) (l : List (α × β)) :
    (p::l).lookup a = if p.1 = a then some p.2 else l.lookup a := by
  by_cases h : p.1 = a
  · subst h
    rw [List.lookup_cons_self,if_pos rfl]
  · rw [List.lookup_cons,if_neg h,beq_eq_false_iff_ne.mpr (Ne.symm h)]

theorem lookup_upsert (a a' : α) (b : β) (l : List (α × β)) :
    (upsert a b l).lookup a' = if a' = a then some b else l.lookup a' := by
  induction l with
  | nil => simp [upsert,lookup_cons,eq_comm]
  | cons p l ih =>
    by_cases h : p.1 = a
    · by_cases h' : a' = a
      · simp [upsert,lookup_cons,h,h']
      · simp [upsert,lookup_cons,h,h',Ne.symm h']
    · by_cases h' : a' = a
      · subst h'
        simp [upsert,lookup_cons,h,ih]
      · simp [upsert,lookup_cons,h,h',ih]

theorem mem_upsert {a : α} {b : β} {l : List (α × β)} {p : α × β} (h : p ∈ upsert a b l) :
    p = (a,b) ∨ p ∈ l := by
  induction l with
  | nil => exact Or.inl (List.mem_singleton.mp h)
  | cons q l ih =>
    by_cases hq : q.1 = a
    · rw [upsert,if_pos hq,List.mem_cons,hq] at h
      exact h.imp_right (List.mem_cons_of_mem q)
    · rw [upsert,if_neg hq,List.mem_cons] at h
      rcases h with rfl | h
      · exact Or.inr List.mem_cons_self
      · exact (ih h).imp_right (List.mem_cons_of_mem q)

/-- Overwriting moves no key, and a new key goes last. -/
theorem keys_upsert (a : α) (b : β) (l : List (α × β)) :
    (upsert a b l).map Prod.fst =
      if a ∈ l.map Prod.fst then l.map Prod.fst else l.map Prod.fst ++ [a] := by
  induction l with
  | nil => simp [upsert]
  | cons p l ih =>
    by_cases h : p.1 = a
    · simp [upsert,h]
    · rw [upsert,if_neg h,List.map_cons,ih,List.map_cons]
      by_cases hl : a ∈ l.map Prod.fst
      · rw [if_pos hl,if_pos (List.mem_cons_of_mem _ hl)]
      · have hp : a ∉ p.1::l.map Prod.fst := by
          rw [List.mem_cons,not_or]
          exact ⟨Ne.symm h,hl⟩
        rw [if_neg hl,if_neg hp,List.cons_append]

theorem nodup_upsert (a : α) (b : β) {l : List (α × β)} (h : (l.map Prod.fst).Nodup) :
    ((upsert a b l).map Prod.fst).Nodup := by
  rw [keys_upsert]
  split
  · exact h
  · rename_i ha
    exact List.nodup_append.mpr ⟨h,List.nodup_singleton a,fun x hx y hy => by
      rw [List.mem_singleton.mp hy]
      exact fun he => ha (he ▸ hx)⟩

theorem lookup_eq_some_iff {l : List (α × β)} (h : (l.map Prod.fst).Nodup) {a : α} {b : β} :
    l.lookup a = some b ↔ (a,b) ∈ l := by
  induction l with
  | nil => simp
  | cons p l ih =>
    obtain ⟨hp,hl⟩ := List.nodup_cons.mp h
    rw [lookup_cons,List.mem_cons]
    by_cases ha : p.1 = a
    · subst ha
      have hn : (p.1,b) ∉ l := fun hm => hp (List.mem_map.mpr ⟨(p.1,b),hm,rfl⟩)
      rw [if_pos rfl,Option.some.injEq,or_iff_left hn,Prod.ext_iff]
      simp [eq_comm]
    · rw [if_neg ha,ih hl]
      exact (or_iff_right (fun he => ha (congrArg Prod.fst he).symm)).symm

theorem lookup_isSome_iff {a : α} {l : List (α × β)} : (l.lookup a).isSome ↔ a ∈ l.map Prod.fst := by
  induction l with
  | nil => simp
  | cons p l ih =>
    rw [lookup_cons,List.map_cons,List.mem_cons,← ih]
    by_cases h : p.1 = a
    · simp [h]
    · simp [h,Ne.symm h]

end PpsDht.AssociationLists
