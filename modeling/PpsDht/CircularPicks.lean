import Mathlib.Data.List.Rotate
import Mathlib.Data.Nat.Nth
import PpsDht.FirstOccurrences

/-! # Picking classes around a circle

From a circle of items, each given by its class, one after the other is picked: some items
are skipped, the class of the next is taken, and its items leave the circle. How many items
are skipped is found by counting those of classes not chosen yet from place to place. -/
namespace PpsDht.CircularPicks
open FirstOccurrences

variable {α : Type} [DecidableEq α]

/-- The circle behind the pick of a class after some skips. -/
def remaining (circle : List α) (skips : ℕ) (a : α) : List α := (circle.rotate skips).filter (· ≠ a)

def picks : List α → List ℕ → List α
  | _, [] => []
  | circle, skips::more => match (circle.rotate skips).head? with
    | none => []
    | some a => a::picks (remaining circle skips a) more

theorem picks_cons {circle : List α} {skips : ℕ} {a : α} (h : (circle.rotate skips).head? = some a) (more : List ℕ) :
    picks circle (skips::more) = a::picks (remaining circle skips a) more := by
  rw [picks,h]

/-- The item at a place, the places being counted on from lap to lap. -/
def itemAt (circle : List α) (place : ℕ) : Option α := circle[place % circle.length]?

/-- The items of classes not chosen yet from a place on. -/
def ahead (circle chosen : List α) (place : ℕ) : List α := (circle.rotate place).filter (· ∉ chosen)

/-- How many places before this one have an item of a class not chosen yet. -/
def openBefore (circle chosen : List α) (place : ℕ) : ℕ :=
  Nat.count (fun p => (itemAt circle p).any (· ∉ chosen)) place

/-- The skips in front of each pick from a place on: as many as there are items of classes not
chosen yet before some further item of the first class of the circle not chosen yet. -/
inductive SkipsTo (circle : List α) : ℕ → List α → List ℕ → Prop
  | done (place : ℕ) (chosen : List α) : SkipsTo circle place chosen []
  | turn {place next skips : ℕ} {chosen : List α} {more : List ℕ} {a : α} (hle : place ≤ next)
      (hdue : circle.find? (· ∉ chosen) = some a) (hnext : itemAt circle next = some a)
      (hskips : openBefore circle chosen next = openBefore circle chosen place + skips)
      (hmore : SkipsTo circle (next + 1) (chosen ++ [a]) more) : SkipsTo circle place chosen (skips::more)

section Places

variable {circle chosen : List α} {place next skips : ℕ} {a : α}

omit [DecidableEq α] in
private theorem rotate_itemAt (h : itemAt circle place = some a) :
    ∃ rest, circle.rotate place = a::rest ∧ circle.rotate (place + 1) = rest ++ [a] := by
  obtain ⟨hlt,-⟩ := List.getElem?_eq_some_iff.mp h
  have hhead : (circle.rotate place).head? = some a := by rw [← List.rotate_mod,List.head?_rotate hlt,← h,itemAt]
  obtain ⟨rest,hrest⟩ := List.head?_eq_some_iff.mp hhead
  refine ⟨rest,hrest,?_⟩
  rw [← List.rotate_rotate,hrest,List.rotate_cons_succ,List.rotate_zero]

theorem ahead_mod (circle chosen : List α) (place : ℕ) :
    ahead circle chosen (place % circle.length) = ahead circle chosen place := by
  rw [ahead,ahead,List.rotate_mod]

theorem ahead_nil (circle : List α) (place : ℕ) : ahead circle [] place = circle.rotate place :=
  List.filter_eq_self.mpr fun _ _ => decide_eq_true List.not_mem_nil

theorem head?_ahead (h : itemAt circle place = some a) (ha : a ∉ chosen) :
    (ahead circle chosen place).head? = some a := by
  obtain ⟨rest,hrest,-⟩ := rotate_itemAt h
  rw [ahead,hrest,List.filter_cons_of_pos (by simpa using ha),List.head?_cons]

/-- Past an item of a chosen class. -/
theorem ahead_chosen (h : itemAt circle place = some a) (ha : a ∈ chosen) :
    ahead circle chosen (place + 1) = ahead circle chosen place := by
  obtain ⟨rest,hrest,hnext⟩ := rotate_itemAt h
  rw [ahead,ahead,hrest,hnext,List.filter_append,List.filter_cons_of_neg (by simpa using ha),
    List.filter_cons_of_neg (by simpa using ha),List.filter_nil,List.append_nil]

/-- Past an item that is skipped. -/
theorem ahead_skipped (h : itemAt circle place = some a) (ha : a ∉ chosen) :
    ahead circle chosen (place + 1) = (ahead circle chosen place).rotate 1 := by
  obtain ⟨rest,hrest,hnext⟩ := rotate_itemAt h
  rw [ahead,ahead,hrest,hnext,List.filter_append,List.filter_cons_of_pos (by simpa using ha),
    List.filter_cons_of_pos (by simpa using ha),List.filter_nil,List.rotate_cons_succ,List.rotate_zero]

/-- Past an item whose class is chosen. -/
theorem ahead_picked (h : itemAt circle place = some a) :
    ahead circle (chosen ++ [a]) (place + 1) = (ahead circle chosen place).filter (· ≠ a) := by
  have hfilter : ∀ items : List α, (items.filter (· ∉ chosen)).filter (· ≠ a) =
      items.filter (· ∉ chosen ++ [a]) := fun items => by
    rw [List.filter_filter]
    refine List.filter_congr fun b _ => ?_
    simp only [List.mem_append,List.mem_singleton,not_or,Bool.decide_and,Bool.and_comm]
  obtain ⟨rest,hrest,hnext⟩ := rotate_itemAt h
  rw [ahead,ahead,hfilter,hrest,hnext,List.filter_append,List.filter_cons_of_neg (by simp),
    List.filter_cons_of_neg (by simp),List.filter_nil,List.append_nil]

/-- What is ahead turns with the number of items passed. -/
theorem ahead_rotate (hle : place ≤ next)
    (hskips : openBefore circle chosen next = openBefore circle chosen place + skips) :
    ahead circle chosen next = (ahead circle chosen place).rotate skips := by
  induction next,hle using Nat.le_induction generalizing skips with
  | base =>
    obtain rfl : skips = 0 := by omega
    rw [List.rotate_zero]
  | succ next hle ih =>
    obtain ⟨before,hbefore⟩ := Nat.exists_eq_add_of_le (Nat.count_monotone
      (fun p => (itemAt circle p).any (· ∉ chosen)) hle)
    have hturned := ih hbefore
    rw [openBefore,Nat.count_succ] at hskips
    cases hitem : itemAt circle next with
    | none =>
      have hempty : circle = [] := by
        by_contra hne
        have hlen := List.getElem?_eq_none_iff.mp hitem
        exact absurd (Nat.mod_lt next (List.length_pos_iff.mpr hne)) (Nat.not_lt.mpr hlen)
      simp [ahead,hempty]
    | some a =>
      rw [hitem,Option.any_some] at hskips
      by_cases ha : a ∈ chosen
      · rw [if_neg (by simpa using ha)] at hskips
        obtain rfl : before = skips := by
          rw [openBefore] at hskips
          omega
        rw [ahead_chosen hitem ha,hturned]
      · rw [if_pos (by simpa using ha)] at hskips
        obtain rfl : skips = before + 1 := by
          rw [openBefore] at hskips
          omega
        rw [ahead_skipped hitem ha,hturned,List.rotate_rotate]

/-- A class that is not chosen yet is met after any number of items. -/
theorem exists_open (ha : a ∈ circle) (hopen : a ∉ chosen) (place skips : ℕ) :
    ∃ next b, place ≤ next ∧ itemAt circle next = some b ∧ b ∉ chosen ∧
      openBefore circle chosen next = openBefore circle chosen place + skips := by
  obtain ⟨i,hi,rfl⟩ := List.getElem_of_mem ha
  have hinfinite : {p | (itemAt circle p).any (· ∉ chosen)}.Infinite := by
    refine Set.infinite_of_not_bddAbove fun ⟨bound,hbound⟩ => ?_
    have hmem : bound * circle.length + (i + circle.length) ∈ {p | (itemAt circle p).any (· ∉ chosen)} := by
      have hitem : itemAt circle (bound * circle.length + (i + circle.length)) = some circle[i] := by
        rw [itemAt,Nat.mul_add_mod',Nat.add_mod_right,Nat.mod_eq_of_lt hi,List.getElem?_eq_getElem hi]
      simpa [hitem] using hopen
    have hle := hbound hmem
    have hmul := Nat.le_mul_of_pos_right bound (Nat.zero_lt_of_lt hi)
    omega
  obtain ⟨b,hb,hnew⟩ := (Option.any_eq_true _ _).mp
    (Nat.nth_mem_of_infinite hinfinite (openBefore circle chosen place + skips))
  exact ⟨_,b,(Nat.count_le_iff_le_nth hinfinite).mp (Nat.le_add_right _ _),hb,of_decide_eq_true hnew,
    Nat.count_nth_of_infinite hinfinite _⟩

end Places

/-- The first classes of the circle that are not chosen yet are picked exactly if the skips
lead to them. -/
theorem picks_eq_iff {circle chosen : List α} {place : ℕ} {skips : List ℕ}
    (h : skips.length ≤ (distinctBy id chosen circle).length) :
    picks (ahead circle chosen place) skips = (distinctBy id chosen circle).take skips.length ↔
      SkipsTo circle place chosen skips := by
  induction skips generalizing chosen place with
  | nil => exact iff_of_true rfl (.done _ _)
  | cons skip skips ih =>
    obtain ⟨a,hdue⟩ := exists_find?_of_distinctBy id (List.ne_nil_of_length_pos (Nat.zero_lt_of_lt h))
    have hfirst : distinctBy id chosen circle = a::distinctBy id (chosen ++ [a]) circle := distinctBy_of_find? id hdue
    rw [hfirst,List.length_cons,List.length_cons] at h
    rw [hfirst,List.length_cons,List.take_succ_cons]
    have hmem := List.mem_of_find?_eq_some hdue
    have hopen : a ∉ chosen := by simpa using List.find?_some hdue
    constructor
    · intro hpicks
      obtain ⟨next,b,hle,hnext,hb,hskips⟩ := exists_open hmem hopen place skip
      have hturn := ahead_rotate hle hskips
      have hhead := head?_ahead hnext hb
      rw [hturn] at hhead
      rw [picks_cons hhead,List.cons.injEq] at hpicks
      obtain ⟨rfl,hpicks⟩ := hpicks
      rw [remaining,← hturn,← ahead_picked hnext] at hpicks
      exact .turn hle hdue hnext hskips ((ih (Nat.le_of_succ_le_succ h)).mp hpicks)
    · rintro (_ | ⟨hle,hdue',hnext,hskips,hmore⟩)
      obtain rfl := Option.some.inj (hdue.symm.trans hdue')
      have hturn := ahead_rotate hle hskips
      have hhead := head?_ahead hnext hopen
      rw [hturn] at hhead
      rw [picks_cons hhead,remaining,← hturn,← ahead_picked hnext,(ih (Nat.le_of_succ_le_succ h)).mpr hmore]

end PpsDht.CircularPicks
