import Mathlib.Algebra.Order.BigOperators.Group.List
import Mathlib.Algebra.Order.Group.Nat
import Mathlib.Algebra.Order.Ring.Nat
import Mathlib.Tactic.Common

/-! # Greedy packing into blocks of bounded size

An item opens a new block exactly when it does not fit in the current one. The
result separates the items that join the block already open from the new blocks. -/
namespace PpsDht.GreedyPacking

variable {α : Type} (limit : ℕ) (cost : α → ℕ)

def pack (size : ℕ) : List α → List α × List (List α)
  | [] => ([],[])
  | a::as =>
    if limit < size + cost a then ([],(a::(pack (cost a) as).1)::(pack (cost a) as).2)
    else (a::(pack (size + cost a) as).1,(pack (size + cost a) as).2)

def total (block : List α) : ℕ := (block.map cost).sum

/-- The sizes of all blocks, the one already open included. -/
def fills (size : ℕ) (as : List α) : List ℕ :=
  (size + total cost (pack limit cost size as).1)::(pack limit cost size as).2.map (total cost)

@[simp] theorem total_nil : total cost [] = 0 := rfl

@[simp] theorem total_cons (a : α) (block : List α) :
    total cost (a::block) = cost a + total cost block := by
  simp [total]

theorem cost_le_total {a : α} {block : List α} (h : a ∈ block) : cost a ≤ total cost block :=
  List.single_le_sum (fun _ _ => Nat.zero_le _) _ (List.mem_map_of_mem h)

/-- Packing keeps every item, in order. -/
theorem pack_flatten (size : ℕ) (as : List α) :
    (pack limit cost size as).1 ++ (pack limit cost size as).2.flatten = as := by
  induction as generalizing size with
  | nil => rfl
  | cons a as ih =>
    rw [pack]
    split
    · simpa using ih (cost a)
    · simpa using ih (size + cost a)

/-- Nothing is added to the open block beyond the limit. -/
theorem pack_open (size : ℕ) (as : List α) :
    (pack limit cost size as).1 = [] ∨ size + total cost (pack limit cost size as).1 ≤ limit := by
  induction as generalizing size with
  | nil => exact Or.inl rfl
  | cons a as ih =>
    rw [pack]
    split
    · exact Or.inl rfl
    · right
      rename_i hfit
      rcases ih (size + cost a) with h | h
      · simp only [h,total_cons,total_nil]
        omega
      · simp only [total_cons]
        omega

/-- A new block is never empty, and only a single item can exceed the limit. -/
theorem pack_blocks (size : ℕ) (as : List α) :
    ∀ block ∈ (pack limit cost size as).2, block ≠ [] ∧
      (total cost block ≤ limit ∨ ∃ a ∈ as, block = [a] ∧ limit < cost a) := by
  induction as generalizing size with
  | nil => exact fun block h => absurd h List.not_mem_nil
  | cons a as ih =>
    intro block hb
    have hlater : ∀ {n : ℕ}, block ∈ (pack limit cost n as).2 → block ≠ [] ∧
        (total cost block ≤ limit ∨ ∃ b ∈ a::as, block = [b] ∧ limit < cost b) := fun h => by
      obtain ⟨hne,hlim⟩ := ih _ block h
      exact ⟨hne,hlim.imp_right fun ⟨b,hb,h⟩ => ⟨b,List.mem_cons_of_mem a hb,h⟩⟩
    rw [pack] at hb
    split at hb
    · rcases List.mem_cons.mp hb with rfl | hb
      · refine ⟨List.cons_ne_nil _ _,?_⟩
        rcases pack_open limit cost (cost a) as with h | h
        · rw [h,total_cons,total_nil,Nat.add_zero]
          exact (Nat.lt_or_ge limit (cost a)).symm.imp_right fun hc => ⟨a,List.mem_cons_self,rfl,hc⟩
        · exact Or.inl (by rwa [total_cons])
      · exact hlater hb
    · exact hlater hb

end PpsDht.GreedyPacking
