import PpsDht.HeapPrograms
import PpsDht.Network
import PpsDht.SocketPrograms

/-! # Programs with a heap and a socket

`Follows` relates a program to one on plain values that sends and receives the same. -/
namespace PpsDht.Heaps
open Mem Net SocketPrograms

abbrev HeapNet (β α : Type) := StateT (Heap β) Net α

namespace HeapNet
variable {α β : Type}

/-- A part without messages. -/
def ofHeap (m : HeapProg β α) : HeapNet β α := fun h => ofMem (m h)

/-- A part that does not touch the heap. -/
def ofNet (m : Net α) : HeapNet β α := fun h outcomes => m outcomes >>= fun r => .ret ((r.1,h),r.2)

def sendto (address : SockAddr) (d : Datagram) : HeapNet β Unit := fun h outcomes =>
  .send address d (.ret (((),h),outcomes))

instance : MonadLift (HeapProg β) (HeapNet β) := ⟨ofHeap⟩

instance : MonadLift Net (HeapNet β) := ⟨ofNet⟩

end HeapNet

variable {α α' γ γ' β : Type} {P P' F : HProp β} {m : HeapNet β α} {f : Net α'} {Q Q' : α → α' → HProp β}
  {k : α → HeapNet β γ} {g : α' → Net γ'} {R : γ → γ' → HProp β}

/-- From a heap with the blocks of `P` the programs send and receive the same, and end with the
blocks of `Q` in the place of those. -/
def Follows (P : HProp β) (m : HeapNet β α) (f : Net α') (Q : α → α' → HProp β) : Prop :=
  ∀ heap frame outcomes, P heap → heap.Disjoint frame → Prog.Related
    (fun r r' => r.2 = r'.2 ∧ ∃ heap', r.1.2 = heap' ∪ frame ∧ heap'.Disjoint frame ∧ Q r.1.1 r'.1 heap')
    (m (heap ∪ frame) outcomes) (f outcomes)

namespace Follows

theorem pure {a : α} {a' : α'} (h : P ≤ Q a a') : Follows P (pure a) (pure a') Q :=
  fun heap _ _ hP hd => .ret ⟨rfl,heap,rfl,hd,h heap hP⟩

theorem bot : Follows ⊥ m f Q := fun _ _ _ h => absurd h HProp.not_bot

theorem bot_mul : Follows (⊥ * F) m f Q := by
  rw [Quantale.bot_mul]
  exact bot

theorem given {φ : Prop} (h : φ → Follows P m f Q) : Follows (HProp.given φ P) m f Q :=
  fun heap frame outcomes hP => h hP.1 heap frame outcomes hP.2

theorem iSup {ι : Type*} {P : ι → HProp β} (h : ∀ i, Follows (P i) m f Q) : Follows (⨆ i, P i) m f Q :=
  fun heap frame outcomes hP => by
    obtain ⟨i,hi⟩ := HProp.iSup_iff.mp hP
    exact h i heap frame outcomes hi

theorem mono (h : Follows P m f Q) (hP : P' ≤ P) (hQ : ∀ a a', Q a a' ≤ Q' a a') : Follows P' m f Q' :=
  fun heap frame outcomes hP' hd => (h heap frame outcomes (hP heap hP') hd).mono fun _ _ => by
    rintro ⟨hrest,heap',hheap,hd',hQ'⟩
    exact ⟨hrest,heap',hheap,hd',hQ _ _ _ hQ'⟩

theorem frame (h : Follows P m f Q) (F : HProp β) : Follows (P * F) m f fun a a' => Q a a' * F := by
  rintro _ frame outcomes ⟨h₁,h₂,hd,rfl,hP,hF⟩ hd'
  rw [Finmap.disjoint_union_left] at hd'
  rw [Finmap.union_assoc]
  refine (h h₁ (h₂ ∪ frame) outcomes hP ?_).mono ?_
  · rw [Finmap.disjoint_union_right]
    exact ⟨hd,hd'.1⟩
  · rintro r r' ⟨hrest,heap',hheap,hnew,hQ⟩
    rw [Finmap.disjoint_union_right] at hnew
    refine ⟨hrest,heap' ∪ h₂,by rw [hheap,Finmap.union_assoc],?_,HProp.mul_intro hnew.1 hQ hF⟩
    rw [Finmap.disjoint_union_left]
    exact ⟨hnew.2,hd'.2⟩

/-- Where every way is followed, the one from given outcomes of the allocations is. -/
theorem fixed (h : Follows P m f Q) (outcomes : Outcomes) :
    Follows P (fun heap _ => m heap outcomes) (fun _ => f outcomes) Q := fun heap frame _ => h heap frame outcomes

theorem bind_fixed {outcomes : Outcomes} (h : Follows P (fun heap _ => m heap outcomes) (fun _ => f outcomes) Q)
    (hk : ∀ a a', Follows (Q a a') (k a) (g a') R) :
    Follows P (fun heap _ => (m >>= k) heap outcomes) (fun _ => (f >>= g) outcomes) R :=
  fun heap frame outcomes hP hd => (h heap frame outcomes hP hd).bind <| by
    rintro ⟨⟨a,_⟩,rest⟩ ⟨a',rest'⟩ ⟨hrest,heap',hheap,hd',hQ⟩
    obtain rfl : rest = rest' := hrest
    obtain rfl : _ = heap' ∪ frame := hheap
    exact hk a a' heap' frame rest hQ hd'

theorem bind (h : Follows P m f Q) (hk : ∀ a a', Follows (Q a a') (k a) (g a') R) :
    Follows P (m >>= k) (f >>= g) R := fun heap frame outcomes =>
  bind_fixed (h.fixed outcomes) hk heap frame outcomes

/-- In a call the outcomes can be told apart. -/
theorem get_bind {m : HeapNet β γ} {g : Outcomes → Net γ'} (h : ∀ outcomes,
      Follows P (fun heap _ => m heap outcomes) (fun _ => g outcomes outcomes) R) : Follows P m (get >>= g) R :=
  fun heap frame outcomes => h outcomes heap frame outcomes

/-- A part without messages. -/
theorem ofHeap {m : HeapProg β α} {f : Mem α'} (h : Implements P m f Q) :
    Follows P (HeapNet.ofHeap m) (ofMem f) Q := by
  intro heap frame outcomes hP hd
  rw [HeapNet.ofHeap,ofMem,ofMem]
  cases hf : f outcomes with
  | none =>
    rw [h.faults hP hd hf]
    exact .fault
  | some r =>
    obtain ⟨a,heap',hm,hd',hQ⟩ := h.returns hP hd hf
    rw [hm]
    exact .ret ⟨rfl,heap',rfl,hd',hQ⟩

theorem ofNet (f : Net α) : Follows P (HeapNet.ofNet f) f fun a a' => HProp.given (a = a') P := by
  intro heap frame outcomes hP hd
  rw [← Prog.bind_ret (f outcomes)]
  exact (Prog.Related.refl (fun _ => rfl) (f outcomes)).bind fun r r' hr =>
    .ret ⟨congrArg Prod.snd hr,heap,rfl,hd,congrArg Prod.fst hr,hP⟩

/-- A last part that is no step of the other program. -/
theorem silent_end {k : α → HeapProg β γ} {R : γ → α' → HProp β} (h : Follows P m f Q)
    (hk : ∀ a a', Implements (Q a a') (k a) (Pure.pure a') R) : Follows P (m >>= fun a => liftM (k a)) f R := by
  intro heap frame outcomes hP hd
  rw [← Prog.bind_ret (f outcomes)]
  exact (h.bind (g := Pure.pure) fun a a' => ofHeap (hk a a')) heap frame outcomes hP hd

/-- A call without messages in a larger heap, from given outcomes of the allocations. -/
theorem call_fixed {m : HeapProg β α} {f : Mem α'} {outcomes : Outcomes} (h : Implements P m f Q)
    (hk : ∀ a a' rest, f outcomes = some (a',rest) → Follows (Q a a' * F) (k a) (g a') R) :
    Follows (P * F) (fun heap _ => (liftM m >>= k) heap outcomes) (fun _ => (liftM f >>= g) outcomes) R := by
  intro heap frame _ hP hd
  have hmem : ∀ {r}, f outcomes = r → (liftM f >>= g) outcomes = r.elim .fault fun r => g r.1 r.2 := by
    rintro r rfl
    change (ofMem f outcomes >>= fun r => g r.1 r.2) = _
    rw [ofMem]
    cases f outcomes <;> rfl
  have hheap : ∀ {r}, m (heap ∪ frame) outcomes = r →
      (liftM m >>= k) (heap ∪ frame) outcomes = r.elim .fault fun r => k r.1.1 r.1.2 r.2 := by
    rintro r rfl
    change (ofMem (m (heap ∪ frame)) outcomes >>= fun r => k r.1.1 r.1.2 r.2) = _
    rw [ofMem]
    cases m (heap ∪ frame) outcomes <;> rfl
  beta_reduce
  cases hf : f outcomes with
  | none =>
    rw [hmem hf,hheap ((h.frame F).faults hP hd hf)]
    exact .fault
  | some r =>
    obtain ⟨a,heap',hm,hd',hQ⟩ := (h.frame F).returns hP hd hf
    rw [hmem hf,hheap hm]
    exact hk a r.1 r.2 hf heap' frame r.2 hQ hd'

/-- A call without messages in a larger heap. -/
theorem call {m : HeapProg β α} {f : Mem α'} (h : Implements P m f Q)
    (hk : ∀ a a', Follows (Q a a' * F) (k a) (g a') R) :
    Follows (P * F) (liftM m >>= k) (liftM f >>= g) R := fun heap frame outcomes =>
  call_fixed h (fun a a' _ _ => hk a a') heap frame outcomes

/-- A call that is no step of the other program. -/
theorem silent {m : HeapProg β α} {f : Net γ'} {a' : α'} (h : Implements P m (Pure.pure a') Q)
    (hk : ∀ a, Follows (Q a a' * F) (k a) f R) : Follows (P * F) (liftM m >>= k) f R :=
  fun heap frame outcomes => call_fixed (g := fun _ => f) h (fun a b _ hf => by
    obtain ⟨rfl,-⟩ := Prod.mk.inj (Option.some.inj hf)
    exact hk a) heap frame outcomes

theorem sendto_bind {address : SockAddr} {d : Datagram} {k : Unit → HeapNet β γ} {g : Net γ'}
    (h : Follows P (k ()) g R) :
    Follows P (HeapNet.sendto address d >>= k) (fun outcomes => .send address d (g outcomes)) R :=
  fun heap frame outcomes hP hd => .send (h heap frame outcomes hP hd)

theorem recv_bind {k : Option Datagram → HeapNet β γ} {g : Option Datagram → Net γ'}
    (h : ∀ d, Follows P (k d) (g d) R) : Follows P (liftM recvfromServer >>= k) (recvfromServer >>= g) R :=
  fun heap frame outcomes hP hd => .recv fun d => h d heap frame outcomes hP hd

theorem lift_bind {m : HeapNet β γ} {o : Option α'} {a' : α'} (ho : o = some a') (h : Follows P m (g a') R) :
    Follows P m (liftM (lift o : Mem α') >>= g) R := by
  subst ho
  exact h

theorem fault_bind {o : Option α'} (ho : o = none) :
    Follows P (HeapNet.ofHeap fault : HeapNet β γ) (liftM (lift o : Mem α') >>= g) R := by
  subst ho
  exact fun _ _ _ _ _ => .fault

end Follows

end PpsDht.Heaps
