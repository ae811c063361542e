import PpsDht.AllocatingPrograms
import PpsDht.Heaps

/-! # Programs on a heap

A program allocates, frees, reads and writes blocks. `Implements` relates it to a program on
plain values that makes the same allocations: from the blocks of the values it ends with the
blocks of the results, whatever other blocks there are, and is undefined where the other is. -/
namespace PpsDht.Heaps
open Mem

/-- Which address a new block gets: any that is not in use. -/
structure Allocator where
  fresh : Finset Addr → Addr
  fresh_notMem : ∀ used, fresh used ∉ used

/-- Behind all addresses in use. -/
instance : Inhabited Allocator where
  default :=
    { fresh := fun used => used.sup id + 1
      fresh_notMem := fun used h => Nat.not_succ_le_self _ (used.le_sup (f := id) h) }

abbrev HeapProg (β α : Type) := StateT (Heap β) Mem α

section Operations
variable {α β : Type}

def fault : HeapProg β α := fun _ => undefined

/-- Null when there is no memory. -/
def alloc (A : Allocator) (b : β) : HeapProg β (Option Addr) := fun h => do
  if ← malloc then pure (some (A.fresh h.keys),h.insert (A.fresh h.keys) b) else pure (none,h)

/-- Freeing a null pointer does nothing. -/
def free : Option Addr → HeapProg β Unit
  | none => pure ()
  | some a => fun h => if a ∈ h then pure ((),h.erase a) else undefined

def load (a : Addr) : HeapProg β β := fun h => (lift (h.lookup a) : Mem β) >>= fun b => pure (b,h)

def store (a : Addr) (b : β) : HeapProg β Unit := fun h => if a ∈ h then pure ((),h.insert a b) else undefined

def liveBlocks : HeapProg β ℕ := fun h => pure (h.keys.card,h)

end Operations

variable {α α' γ γ' β : Type} {P P' F : HProp β} {m : HeapProg β α} {f : Mem α'} {Q Q' : α → α' → HProp β}
  {k : α → HeapProg β γ} {g : α' → Mem γ'} {R : γ → γ' → HProp β}

/-- The blocks of `P` become those of `Q`, all others stay as they are. -/
structure Implements (P : HProp β) (m : HeapProg β α) (f : Mem α') (Q : α → α' → HProp β) : Prop where
  faults : ∀ {h frame outcomes}, P h → h.Disjoint frame → f outcomes = none → m (h ∪ frame) outcomes = none
  returns : ∀ {h frame outcomes a' rest}, P h → h.Disjoint frame → f outcomes = some (a',rest) →
    ∃ a h', m (h ∪ frame) outcomes = some ((a,h' ∪ frame),rest) ∧ h'.Disjoint frame ∧ Q a a' h'

theorem bind_apply {h h' : Heap β} {outcomes rest : Outcomes} {a : α} (hm : m h outcomes = some ((a,h'),rest))
    (k : α → HeapProg β γ) : (m >>= k) h outcomes = k a h' rest :=
  Mem.bind_apply hm fun p => k p.1 p.2

private theorem bind_fault {h : Heap β} {outcomes : Outcomes} (hm : m h outcomes = none) (k : α → HeapProg β γ) :
    (m >>= k) h outcomes = none := by
  change (m h outcomes).bind _ = none
  rw [hm]
  rfl

private theorem mem_bind_cases {outcomes : Outcomes} : (f >>= g) outcomes = none ∧ f outcomes = none ∨
    ∃ a' rest, f outcomes = some (a',rest) ∧ (f >>= g) outcomes = g a' rest := by
  cases hf : f outcomes with
  | none =>
    refine Or.inl ⟨?_,rfl⟩
    change (f outcomes).bind _ = none
    rw [hf]
    rfl
  | some p => exact Or.inr ⟨p.1,p.2,rfl,Mem.bind_apply hf g⟩

namespace Implements

theorem pure {a : α} {a' : α'} (h : P ≤ Q a a') : Implements P (pure a) (pure a') Q where
  faults _ _ hf := absurd hf (Option.some_ne_none _)
  returns hP hd hf := by
    obtain ⟨rfl,rfl⟩ := Prod.mk.inj (Option.some.inj hf)
    exact ⟨a,_,rfl,hd,h _ hP⟩

theorem fault : Implements P (fault : HeapProg β α) (undefined : Mem α') Q where
  faults _ _ _ := rfl
  returns _ _ hf := absurd hf (Option.some_ne_none _).symm

theorem bot : Implements ⊥ m f Q where
  faults h := absurd h HProp.not_bot
  returns h := absurd h HProp.not_bot

theorem bot_mul : Implements (⊥ * F) m f Q := by
  rw [Quantale.bot_mul]
  exact bot

theorem mul_bot_mul : Implements (P * (⊥ * F)) m f Q := by
  rw [mul_left_comm]
  exact bot_mul

theorem given {φ : Prop} (h : φ → Implements P m f Q) : Implements (HProp.given φ P) m f Q where
  faults hP := (h hP.1).faults hP.2
  returns hP := (h hP.1).returns hP.2

theorem iSup {ι : Type*} {P : ι → HProp β} (h : ∀ i, Implements (P i) m f Q) : Implements (⨆ i, P i) m f Q where
  faults hP := by
    obtain ⟨i,hi⟩ := HProp.iSup_iff.mp hP
    exact (h i).faults hi
  returns hP := by
    obtain ⟨i,hi⟩ := HProp.iSup_iff.mp hP
    exact (h i).returns hi

theorem mono (h : Implements P m f Q) (hP : P' ≤ P) (hQ : ∀ a a', Q a a' ≤ Q' a a') : Implements P' m f Q' where
  faults hh := h.faults (hP _ hh)
  returns hh hd hf := by
    obtain ⟨a,h',hm,hd',hQ'⟩ := h.returns (hP _ hh) hd hf
    exact ⟨a,h',hm,hd',hQ a _ _ hQ'⟩

theorem frame (h : Implements P m f Q) (F : HProp β) : Implements (P * F) m f fun a a' => Q a a' * F where
  faults := by
    rintro _ frame outcomes ⟨h₁,h₂,hd,rfl,hP,-⟩ hd' hf
    rw [Finmap.disjoint_union_left] at hd'
    rw [Finmap.union_assoc]
    exact h.faults hP (by rw [Finmap.disjoint_union_right]; exact ⟨hd,hd'.1⟩) hf
  returns := by
    rintro _ frame outcomes a' rest ⟨h₁,h₂,hd,rfl,hP,hF⟩ hd' hf
    rw [Finmap.disjoint_union_left] at hd'
    obtain ⟨a,h',hm,hnew,hQ⟩ := h.returns hP (by rw [Finmap.disjoint_union_right]; exact ⟨hd,hd'.1⟩) hf
    rw [Finmap.disjoint_union_right] at hnew
    refine ⟨a,h' ∪ h₂,?_,?_,HProp.mul_intro hnew.1 hQ hF⟩
    · rw [Finmap.union_assoc,hm,Finmap.union_assoc]
    · rw [Finmap.disjoint_union_left]
      exact ⟨hnew.2,hd'.2⟩

theorem bind (h : Implements P m f Q) (hk : ∀ a a', Implements (Q a a') (k a) (g a') R) :
    Implements P (m >>= k) (f >>= g) R where
  faults hP hd hf := by
    rcases mem_bind_cases with ⟨-,hnone⟩ | ⟨a',rest,hsome,hg⟩
    · exact bind_fault (h.faults hP hd hnone) k
    · obtain ⟨a,h',hm,hd',hQ⟩ := h.returns hP hd hsome
      rw [bind_apply hm]
      exact (hk a a').faults hQ hd' (hg.symm.trans hf)
  returns hP hd hf := by
    rcases mem_bind_cases with ⟨hnone,-⟩ | ⟨a',rest,hsome,hg⟩
    · exact absurd (hnone.symm.trans hf) (Option.some_ne_none _).symm
    · obtain ⟨a,h',hm,hd',hQ⟩ := h.returns hP hd hsome
      rw [bind_apply hm]
      exact (hk a a').returns hQ hd' (hg.symm.trans hf)

/-- A call in a larger heap. -/
theorem call (h : Implements P m f Q) (hk : ∀ a a', Implements (Q a a' * F) (k a) (g a') R) :
    Implements (P * F) (m >>= k) (f >>= g) R :=
  (h.frame F).bind hk

/-- A call that is no step of the other program. -/
theorem silent {f : Mem γ'} {a' : α'} (h : Implements P m (Pure.pure a') Q)
    (hk : ∀ a, Implements (Q a a' * F) (k a) f R) : Implements (P * F) (m >>= k) f R where
  faults hP hd hf := by
    obtain ⟨a,h',hm,hd',hQ⟩ := (h.frame F).returns hP hd rfl
    rw [bind_apply hm]
    exact (hk a).faults hQ hd' hf
  returns hP hd hf := by
    obtain ⟨a,h',hm,hd',hQ⟩ := (h.frame F).returns hP hd rfl
    rw [bind_apply hm]
    exact (hk a).returns hQ hd' hf

theorem lift_bind {f : α' → Mem γ'} {o : Option α'} {a' : α'} {m : HeapProg β γ} (ho : o = some a')
    (h : Implements P m (f a') R) : Implements P m (lift o >>= f) R := by
  subst ho
  exact h

/-- To show it for a program without allocations, show what each run of it does. -/
theorem of_run {a' : α'} (h : ∀ heap frame outcomes, P heap → heap.Disjoint frame → ∃ a heap',
    m (heap ∪ frame) outcomes = some ((a,heap' ∪ frame),outcomes) ∧ heap'.Disjoint frame ∧ Q a a' heap') :
    Implements P m (Pure.pure a') Q where
  faults _ _ hf := absurd hf (Option.some_ne_none _)
  returns hP hd hf := by
    obtain ⟨rfl,rfl⟩ := Prod.mk.inj (Option.some.inj hf)
    exact h _ _ _ hP hd

end Implements

theorem disjoint_singleton {a : Addr} {b : β} {h : Heap β} : (Finmap.singleton a b).Disjoint h ↔ a ∉ h := by
  simp only [Finmap.Disjoint,Finmap.mem_singleton,forall_eq]

private theorem insert_eq_union (a : Addr) (b : β) (h : Heap β) : h.insert a b = Finmap.singleton a b ∪ h := by
  have hinsert : (∅ ∪ h).insert a b = Finmap.insert a b ∅ ∪ h := Finmap.insert_union
  rw [Finmap.empty_union] at hinsert
  exact hinsert

private theorem mem_singleton_union (a : Addr) (b : β) (h : Heap β) : a ∈ Finmap.singleton a b ∪ h := by
  rw [Finmap.mem_union]
  exact Or.inl ((Finmap.mem_singleton a a b).mpr rfl)

theorem alloc_implements (A : Allocator) (b : β) : Implements 1 (alloc A b) malloc fun p ok =>
    if ok then ⨆ a, HProp.given (p = some a) (HProp.block a b) else HProp.given (p = none) 1 where
  faults _ _ hf := by
    rename_i outcomes _ _
    cases outcomes <;> exact absurd hf (Option.some_ne_none _)
  returns := by
    rintro _ frame outcomes ok rest rfl hd hf
    have hfresh := A.fresh_notMem (Finmap.keys (∅ ∪ frame))
    have hnext := malloc_bind Pure.pure outcomes
    rw [bind_pure,hf] at hnext
    obtain ⟨rfl,rfl⟩ := Prod.mk.inj (Option.some.inj hnext)
    rw [alloc,malloc_bind]
    cases nextSucceeds outcomes with
    | false => exact ⟨none,∅,rfl,hd,rfl,rfl⟩
    | true =>
      rw [Finmap.mem_keys,Finmap.empty_union] at hfresh
      rw [if_pos rfl,Finmap.empty_union,insert_eq_union]
      exact ⟨_,_,rfl,disjoint_singleton.mpr hfresh,HProp.iSup_iff.mpr ⟨_,rfl,rfl⟩⟩

private theorem erase_singleton_union {a : Addr} {b : β} {h : Heap β} (ha : a ∉ h) :
    (Finmap.singleton a b ∪ h).erase a = h := by
  refine Finmap.ext_lookup fun a' => ?_
  by_cases heq : a' = a
  · rw [heq,Finmap.lookup_erase,Finmap.lookup_eq_none.mpr ha]
  · rw [Finmap.lookup_erase_ne heq,Finmap.lookup_union_right fun hmem => heq ((Finmap.mem_singleton a' a b).mp hmem)]

theorem free_implements (a : Addr) (b : β) :
    Implements (HProp.block a b) (free (some a)) (pure ()) fun _ _ => 1 := by
  refine Implements.of_run fun heap frame outcomes hheap hd => ?_
  obtain rfl : heap = _ := hheap
  rw [disjoint_singleton] at hd
  refine ⟨(),∅,?_,Finmap.disjoint_empty frame,rfl⟩
  have hfree : free (some a) (Finmap.singleton a b ∪ frame) = _ := if_pos (mem_singleton_union a b frame)
  rw [hfree,erase_singleton_union hd,Finmap.empty_union]
  rfl

theorem load_implements (a : Addr) (b : β) :
    Implements (HProp.block a b) (load a) (pure b) fun b' _ => HProp.given (b' = b) (HProp.block a b) := by
  refine Implements.of_run fun heap frame outcomes hheap hd => ?_
  obtain rfl : heap = _ := hheap
  refine ⟨b,_,?_,hd,rfl,rfl⟩
  have hmem : a ∈ (Finmap.singleton a b : Heap β) := (Finmap.mem_singleton a a b).mpr rfl
  have hlookup : (Finmap.singleton a b ∪ frame : Heap β).lookup a = some b :=
    (Finmap.lookup_union_left hmem).trans Finmap.lookup_singleton_eq
  rw [load,lift_bind hlookup]
  rfl

theorem store_implements (a : Addr) (b b' : β) :
    Implements (HProp.block a b) (store a b') (pure ()) fun _ _ => HProp.block a b' := by
  refine Implements.of_run fun heap frame outcomes hheap hd => ?_
  obtain rfl : heap = _ := hheap
  rw [disjoint_singleton] at hd
  refine ⟨(),_,?_,disjoint_singleton.mpr hd,rfl⟩
  have hstore : store a b' (Finmap.singleton a b ∪ frame) = _ := if_pos (mem_singleton_union a b frame)
  rw [hstore,Finmap.insert_union,Finmap.insert_singleton_eq]
  rfl

namespace Implements

theorem alloc_bind {A : Allocator} {b : β} {k : Option Addr → HeapProg β γ} {g : Bool → Mem γ'}
    (hsome : ∀ a, Implements (HProp.block a b * F) (k (some a)) (g true) R)
    (hnone : Implements F (k none) (g false) R) : Implements F (alloc A b >>= k) (malloc >>= g) R := by
  rw [← one_mul F]
  refine (alloc_implements A b).call fun p ok => ?_
  cases ok with
  | false =>
    rw [if_neg Bool.false_ne_true,HProp.given_mul,one_mul]
    exact .given fun hp => hp ▸ hnone
  | true =>
    rw [if_pos rfl,Quantale.iSup_mul_distrib]
    refine .iSup fun a => ?_
    rw [HProp.given_mul]
    exact .given fun hp => hp ▸ hsome a

variable {f : Mem γ'}

theorem free_bind {a : Addr} {b : β} {k : Unit → HeapProg β γ} (h : Implements F (k ()) f R) :
    Implements (HProp.block a b * F) (free (some a) >>= k) f R :=
  (free_implements a b).silent fun _ => by rwa [one_mul]

theorem load_bind {a : Addr} {b : β} {k : β → HeapProg β γ} (h : Implements (HProp.block a b * F) (k b) f R) :
    Implements (HProp.block a b * F) (load a >>= k) f R := by
  refine (load_implements a b).silent fun b' => ?_
  rw [HProp.given_mul]
  exact .given fun hb => hb ▸ h

theorem store_bind {a : Addr} {b b' : β} {k : Unit → HeapProg β γ}
    (h : Implements (HProp.block a b' * F) (k ()) f R) :
    Implements (HProp.block a b * F) (store a b' >>= k) f R :=
  (store_implements a b b').silent fun _ => h

private theorem congr_run {m' : HeapProg β α} {f : Mem α'} (h : Implements P m' f Q) (hm : ∀ heap frame outcomes, P heap →
    heap.Disjoint frame → m (heap ∪ frame) outcomes = m' (heap ∪ frame) outcomes) : Implements P m f Q where
  faults hP hd hf := (hm _ _ _ hP hd).trans (h.faults hP hd hf)
  returns hP hd hf := by
    rw [hm _ _ _ hP hd]
    exact h.returns hP hd hf

/-- When the allocation behind it fails, what was freed is freed once more. -/
theorem free_alloc_bind {A : Allocator} {a : Addr} {b b' : β} {k : Option Addr → HeapProg β γ}
    {k' : Unit → HeapProg β γ} {g : Bool → Mem γ'} (hnone : k none = free (some a) >>= k') (hg : g false = undefined)
    (hsome : ∀ p, Implements (HProp.block p b' * F) (k (some p)) (g true) R) :
    Implements (HProp.block a b * F) (free (some a) >>= fun _ => alloc A b' >>= k) (malloc >>= g) R := by
  let k₂ : Option Addr → HeapProg β γ := fun p => p.elim Heaps.fault fun p => k (some p)
  have hk₂ : Implements (HProp.block a b * F) (free (some a) >>= fun _ => alloc A b' >>= k₂) (malloc >>= g) R := by
    refine free_bind (alloc_bind hsome ?_)
    rw [hg]
    exact fault
  refine hk₂.congr_run ?_
  rintro _ frame outcomes ⟨_,h,hd,rfl,rfl,-⟩ hd'
  have ha : a ∉ h := disjoint_singleton.mp hd
  rw [Finmap.disjoint_union_left] at hd'
  have ha' : a ∉ h ∪ frame := by
    rw [Finmap.mem_union,not_or]
    exact ⟨ha,disjoint_singleton.mp hd'.1⟩
  have hfree : free (some a) (Finmap.singleton a b ∪ h ∪ frame) outcomes = some (((),h ∪ frame),outcomes) := by
    rw [Finmap.union_assoc]
    have hstep : free (some a) (Finmap.singleton a b ∪ (h ∪ frame)) = _ := if_pos (mem_singleton_union a b _)
    rw [hstep,erase_singleton_union ha']
    rfl
  rw [bind_apply hfree,bind_apply hfree]
  have hagain : free (some a) (h ∪ frame) = (undefined : Mem (Unit × Heap β)) := if_neg ha'
  cases hnext : nextSucceeds outcomes with
  | true =>
    have halloc : alloc A b' (h ∪ frame) outcomes =
        some ((some (A.fresh (h ∪ frame).keys),(h ∪ frame).insert (A.fresh (h ∪ frame).keys) b'),outcomes.tail) := by
      rw [alloc,malloc_bind,hnext]
      rfl
    rw [bind_apply halloc,bind_apply halloc]
    rfl
  | false =>
    have halloc : alloc A b' (h ∪ frame) outcomes = some ((none,h ∪ frame),outcomes.tail) := by
      rw [alloc,malloc_bind,hnext]
      rfl
    rw [bind_apply halloc,bind_apply halloc,hnone]
    exact bind_fault (congrFun hagain _) k'

theorem get_bind {k : Outcomes → HeapProg β γ} {g : Outcomes → Mem γ'}
    (h : ∀ outcomes, Implements P (k outcomes) (g outcomes) R) :
    Implements P (liftM (get : Mem Outcomes) >>= k) (get >>= g) R where
  faults hP hd hf := (h _).faults hP hd hf
  returns hP hd hf := (h _).returns hP hd hf

/-- As many blocks are live as the assertion describes, or more. -/
theorem liveBlocks_bind {n : ℕ} {k : ℕ → HeapProg β γ} (hn : P.Occupies n)
    (h : ∀ live, n ≤ live → Implements (P * F) (k live) f R) : Implements (P * F) (liveBlocks >>= k) f R := by
  have hlive : ∀ {heap frame : Heap β}, (P * F) heap → n ≤ (heap ∪ frame).keys.card := by
    rintro _ frame ⟨h₁,h₂,-,rfl,hP,-⟩
    rw [← hn _ hP,Finmap.union_assoc,Finmap.keys_union]
    exact Finset.card_le_card Finset.subset_union_left
  constructor
  · intro heap frame outcomes hP hd hf
    rw [bind_apply rfl]
    exact (h _ (hlive hP)).faults hP hd hf
  · intro heap frame outcomes a' rest hP hd hf
    rw [bind_apply rfl]
    exact (h _ (hlive hP)).returns hP hd hf

end Implements

end PpsDht.Heaps
