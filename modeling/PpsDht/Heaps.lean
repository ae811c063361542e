import Mathlib

/-! # Assertions about heaps

An assertion holds of the part of a heap that it describes, and of that part only. Products
are for separate parts and suprema for choices: the assertions are a commutative quantale. -/
namespace PpsDht.Heaps

abbrev Addr := ℕ

/-- The live blocks with their contents. -/
abbrev Heap (β : Type) := Finmap fun _ : Addr => β

def HProp (β : Type) := Heap β → Prop

namespace HProp

variable {β : Type} {P Q R : HProp β} {h h₁ h₂ : Heap β}

instance : CompleteLattice (HProp β) := inferInstanceAs (CompleteLattice (Heap β → Prop))

instance : Mul (HProp β) := ⟨fun P Q h => ∃ h₁ h₂, h₁.Disjoint h₂ ∧ h = h₁ ∪ h₂ ∧ P h₁ ∧ Q h₂⟩

instance : One (HProp β) := ⟨fun h => h = ∅⟩

theorem mul_intro (hd : h₁.Disjoint h₂) (hP : P h₁) (hQ : Q h₂) : (P * Q) (h₁ ∪ h₂) := ⟨h₁,h₂,hd,rfl,hP,hQ⟩

theorem iSup_iff {ι : Sort*} {P : ι → HProp β} : (⨆ i, P i) h ↔ ∃ i, P i h := by
  constructor
  · have hle : ⨆ i, P i ≤ (fun h => ∃ i, P i h : HProp β) := iSup_le fun i h hi => ⟨i,hi⟩
    exact hle h
  · rintro ⟨i,hi⟩
    exact le_iSup P i h hi

theorem not_bot : ¬(⊥ : HProp β) h := id

protected theorem mul_comm (P Q : HProp β) : P * Q = Q * P := by
  have hswap : ∀ P Q : HProp β, P * Q ≤ Q * P := fun P Q h => by
    rintro ⟨h₁,h₂,hd,rfl,hP,hQ⟩
    exact ⟨h₂,h₁,hd.symm,Finmap.union_comm_of_disjoint hd,hQ,hP⟩
  exact le_antisymm (hswap P Q) (hswap Q P)

protected theorem mul_assoc (P Q R : HProp β) : P * Q * R = P * (Q * R) := by
  have hleft : ∀ P Q R : HProp β, P * Q * R ≤ P * (Q * R) := fun P Q R h => by
    rintro ⟨-,h₃,hd,rfl,⟨h₁,h₂,hd',rfl,hP,hQ⟩,hR⟩
    rw [Finmap.disjoint_union_left] at hd
    refine ⟨h₁,h₂ ∪ h₃,?_,Finmap.union_assoc,hP,mul_intro hd.2 hQ hR⟩
    rw [Finmap.disjoint_union_right]
    exact ⟨hd',hd.1⟩
  refine le_antisymm (hleft P Q R) ?_
  have hright := hleft R Q P
  rwa [HProp.mul_comm (R * Q),HProp.mul_comm R Q,HProp.mul_comm R,HProp.mul_comm Q P] at hright

protected theorem one_mul (P : HProp β) : 1 * P = P := by
  refine le_antisymm (fun h => ?_) fun h hP => ⟨∅,h,Finmap.disjoint_empty h,Finmap.empty_union.symm,rfl,hP⟩
  rintro ⟨-,h₂,-,rfl,rfl,hP⟩
  rwa [Finmap.empty_union]

instance : CommMonoid (HProp β) where
  mul_assoc := HProp.mul_assoc
  mul_comm := HProp.mul_comm
  one_mul := HProp.one_mul
  mul_one P := (HProp.mul_comm P 1).trans (HProp.one_mul P)

instance : IsQuantale (HProp β) := by
  have hmul : ∀ (P : HProp β) (S : Set (HProp β)), P * sSup S = ⨆ Q ∈ S, P * Q := fun P S => by
    rw [sSup_eq_iSup]
    refine le_antisymm (fun h => ?_) (iSup₂_le fun Q hQ h => ?_)
    · rintro ⟨h₁,h₂,hd,rfl,hP,hS⟩
      obtain ⟨Q,hQ⟩ := iSup_iff.mp hS
      obtain ⟨hmem,hQ⟩ := iSup_iff.mp hQ
      exact iSup_iff.mpr ⟨Q,iSup_iff.mpr ⟨hmem,mul_intro hd hP hQ⟩⟩
    · rintro ⟨h₁,h₂,hd,rfl,hP,hQ'⟩
      exact mul_intro hd hP (iSup_iff.mpr ⟨Q,iSup_iff.mpr ⟨hQ,hQ'⟩⟩)
  exact ⟨hmul,fun S P => by simp only [mul_comm _ P,hmul]⟩

/-- A fact that is not about the heap. -/
def given (φ : Prop) (P : HProp β) : HProp β := fun h => φ ∧ P h

theorem given_mul (φ : Prop) (P Q : HProp β) : given φ P * Q = given φ (P * Q) := by
  refine le_antisymm (fun h => ?_) fun h => ?_
  · rintro ⟨h₁,h₂,hd,rfl,⟨hφ,hP⟩,hQ⟩
    exact ⟨hφ,mul_intro hd hP hQ⟩
  · rintro ⟨hφ,h₁,h₂,hd,rfl,hP,hQ⟩
    exact mul_intro hd ⟨hφ,hP⟩ hQ

theorem mul_given (φ : Prop) (P Q : HProp β) : P * given φ Q = given φ (P * Q) := by
  rw [mul_comm,given_mul,mul_comm]

theorem le_given {φ : Prop} (hφ : φ) (h : P ≤ Q) : P ≤ given φ Q := fun heap hP => ⟨hφ,h heap hP⟩

@[simp] theorem given_of_true {φ : Prop} (hφ : φ) : given φ P = P :=
  le_antisymm (fun _ h => h.2) (le_given hφ le_rfl)

/-- One block. -/
def block (a : Addr) (b : β) : HProp β := fun h => h = Finmap.singleton a b

/-- The blocks that the assertion describes are `n` in number. -/
def Occupies (P : HProp β) (n : ℕ) : Prop := ∀ h, P h → h.keys.card = n

variable {m n : ℕ}

theorem Occupies.one : Occupies (1 : HProp β) 0 := by
  rintro h rfl
  rfl

theorem Occupies.block (a : Addr) (b : β) : Occupies (block a b) 1 := by
  rintro h rfl
  rw [Finmap.keys_singleton,Finset.card_singleton]

theorem Occupies.mul (hP : Occupies P m) (hQ : Occupies Q n) : Occupies (P * Q) (m + n) := by
  rintro h ⟨h₁,h₂,hd,rfl,hP',hQ'⟩
  have hdisjoint : Disjoint h₁.keys h₂.keys :=
    Finset.disjoint_left.mpr fun a ha ha' => hd a (Finmap.mem_keys.mp ha) (Finmap.mem_keys.mp ha')
  rw [Finmap.keys_union,Finset.card_union_of_disjoint hdisjoint,hP _ hP',hQ _ hQ']

theorem Occupies.iSup {ι : Type*} {P : ι → HProp β} (h : ∀ i, Occupies (P i) n) : Occupies (⨆ i, P i) n :=
  fun heap hP => by
    obtain ⟨i,hi⟩ := iSup_iff.mp hP
    exact h i heap hi

theorem Occupies.given {φ : Prop} (h : φ → Occupies P n) : Occupies (given φ P) n :=
  fun heap hP => h hP.1 heap hP.2

theorem Occupies.bot : Occupies (⊥ : HProp β) n := fun _ h => absurd h not_bot

end HProp

end PpsDht.Heaps
