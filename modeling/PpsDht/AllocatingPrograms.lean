import Mathlib.Data.Option.Basic
import PpsDht.CStrings

/-! # Programs that allocate memory

Each allocation consumes the next outcome of a list and succeeds once the list
is used up, so a finite list is an arbitrary finite pattern of failures and
the empty list means that every allocation succeeds. Undefined behaviour (a
null or dangling pointer, an access outside an array) has no result at all. -/
namespace PpsDht

/-- Outcomes of the coming allocations. -/
abbrev Outcomes := List Bool

abbrev Mem (α : Type) := StateT Outcomes Option α

namespace Mem

def undefined {α : Type} : Mem α := fun _ => none

def malloc : Mem Bool := fun
  | [] => some (true,[])
  | ok::rest => some (ok,rest)

/-- A pure step that may be undefined. -/
def lift {α : Type} : Option α → Mem α
  | none => undefined
  | some a => pure a

/-- `strdup`: null on a null argument or when its allocation fails. -/
def strdup : Option CString → Mem (Option CString)
  | none => pure none
  | some s => do if ← malloc then pure (some s) else pure none

variable {α β : Type}

/-- With every allocation succeeding, the program returns `a`. -/
def Succeeds (m : Mem α) (a : α) : Prop := m [] = some (a,[])

theorem Succeeds.pure (a : α) : Succeeds (pure a) a := rfl

theorem Succeeds.bind {m : Mem α} {f : α → Mem β} {a : α} {b : β}
    (h : Succeeds m a) (hf : Succeeds (f a) b) : Succeeds (m >>= f) b := by
  change (m []).bind (fun p => f p.1 p.2) = _
  rw [h]
  exact hf

theorem Succeeds.unique {m : Mem α} {a b : α} (h : Succeeds m a) (h' : Succeeds m b) : a = b :=
  congrArg Prod.fst (Option.some.inj (h.symm.trans h'))

theorem malloc_succeeds : Succeeds malloc true := rfl

theorem lift_succeeds {o : Option α} {a : α} (h : o = some a) : Succeeds (lift o) a := by
  rw [h]
  exact .pure a

theorem strdup_succeeds (o : Option CString) : Succeeds (strdup o) o := by
  cases o <;> rfl

/-- A bind whose first half is known is its second half. -/
theorem Succeeds.bind_apply {m : Mem α} {a : α} (h : Succeeds m a) (f : α → Mem β) :
    (m >>= f) [] = f a [] := by
  change (m []).bind (fun p => f p.1 p.2) = _
  rw [h]
  rfl

/-- A program that only rearranges a result has one to rearrange. -/
theorem Succeeds.of_bind_pure {m : Mem α} {g : α → β} {b : β}
    (h : Succeeds (m >>= fun a => Pure.pure (g a)) b) : ∃ a, Succeeds m a ∧ g a = b := by
  change (m []).bind (fun p => some (g p.1,p.2)) = _ at h
  obtain ⟨⟨a,as⟩,hm,hb⟩ := Option.bind_eq_some_iff.mp h
  obtain ⟨rfl,rfl⟩ := Prod.mk.inj (Option.some.inj hb)
  exact ⟨a,hm,rfl⟩

/-- Whatever allocations fail, the program returns one of the results. -/
def Returns (m : Mem α) (results : α → Prop) : Prop :=
  ∀ outcomes, ∃ a rest, m outcomes = some (a,rest) ∧ results a

theorem Returns.pure {results : α → Prop} {a : α} (h : results a) : Returns (pure a) results :=
  fun outcomes => ⟨a,outcomes,rfl,h⟩

theorem Returns.bind {m : Mem α} {f : α → Mem β} {mid : α → Prop} {results : β → Prop}
    (h : Returns m mid) (hf : ∀ a, mid a → Returns (f a) results) : Returns (m >>= f) results := by
  intro outcomes
  obtain ⟨a,rest,hm,ha⟩ := h outcomes
  obtain ⟨b,rest',hb,hresult⟩ := hf a ha rest
  refine ⟨b,rest',?_,hresult⟩
  change (m outcomes).bind (fun p => f p.1 p.2) = _
  rw [hm]
  exact hb

/-- What a run returned is one of the results. -/
theorem Returns.result {m : Mem α} {results : α → Prop} {a : α} {outcomes rest : Outcomes}
    (h : Returns m results) (hm : m outcomes = some (a,rest)) : results a := by
  obtain ⟨b,rest',hb,hresult⟩ := h outcomes
  obtain ⟨rfl,-⟩ := Prod.mk.inj (Option.some.inj (hm.symm.trans hb))
  exact hresult

/-- Without failures the result is the one of success. -/
theorem Returns.apply {m : Mem α} {results : α → Prop} {a : α} (h : Returns m results)
    (hs : Succeeds m a) (outcomes : Outcomes) :
    ∃ b rest, m outcomes = some (b,rest) ∧ results b ∧ (outcomes = [] → b = a ∧ rest = []) := by
  obtain ⟨b,rest,hm,hb⟩ := h outcomes
  refine ⟨b,rest,hm,hb,fun he => ?_⟩
  rw [he,hs] at hm
  exact ⟨(Prod.mk.inj (Option.some.inj hm)).1.symm,(Prod.mk.inj (Option.some.inj hm)).2.symm⟩

theorem malloc_returns : Returns malloc fun _ => True := by
  intro outcomes
  cases outcomes with
  | nil => exact ⟨true,[],rfl,trivial⟩
  | cons ok rest => exact ⟨ok,rest,rfl,trivial⟩

theorem strdup_returns (s : CString) : Returns (strdup (some s)) fun o => o = none ∨ o = some s := by
  apply malloc_returns.bind
  intro ok _
  cases ok with
  | false => exact .pure (Or.inl rfl)
  | true => exact .pure (Or.inr rfl)

/-- With every allocation succeeding, the program still runs into undefined behaviour. -/
def Faults (m : Mem α) : Prop := m [] = none

theorem Faults.undefined : Faults (undefined : Mem α) := rfl

theorem Faults.bind {m : Mem α} (h : Faults m) (f : α → Mem β) : Faults (m >>= f) := by
  change (m []).bind (fun p => f p.1 p.2) = _
  rw [h]
  rfl

theorem Succeeds.bind_faults {m : Mem α} {f : α → Mem β} {a : α} (h : Succeeds m a)
    (hf : Faults (f a)) : Faults (m >>= f) :=
  (h.bind_apply f).trans hf

theorem Faults.not_succeeds {m : Mem α} (h : Faults m) (a : α) : ¬Succeeds m a := fun ha =>
  absurd (h.symm.trans ha) nofun

/-- The next allocation succeeds. -/
def nextSucceeds : Outcomes → Bool
  | [] => true
  | ok::_ => ok

/-- The next `n` allocations succeed. -/
def allSucceed : ℕ → Outcomes → Bool
  | 0, _ => true
  | n+1, outcomes => nextSucceeds outcomes && allSucceed n outcomes.tail

@[simp] theorem allSucceed_zero (outcomes : Outcomes) : allSucceed 0 outcomes = true := rfl

@[simp] theorem allSucceed_succ (n : ℕ) (outcomes : Outcomes) :
    allSucceed (n + 1) outcomes = (nextSucceeds outcomes && allSucceed n outcomes.tail) := rfl

/-- A bind goes on with the result and the outcomes left. -/
theorem bind_apply {m : Mem α} {outcomes rest : Outcomes} {a : α} (h : m outcomes = some (a,rest))
    (f : α → Mem β) : (m >>= f) outcomes = f a rest := by
  change (m outcomes).bind (fun p => f p.1 p.2) = _
  rw [h]
  rfl

theorem lift_apply {o : Option α} {a : α} (h : o = some a) (outcomes : Outcomes) :
    lift o outcomes = some (a,outcomes) := by
  rw [h]
  rfl

theorem of_lift_eq_some {o : Option α} {a : α} {outcomes rest : Outcomes} (h : lift o outcomes = some (a,rest)) :
    o = some a ∧ rest = outcomes := by
  cases o with
  | none => cases h
  | some a' =>
    cases h
    exact ⟨rfl,rfl⟩

theorem lift_bind {o : Option α} {a : α} (h : o = some a) (f : α → Mem β) (outcomes : Outcomes) :
    (lift o >>= f) outcomes = f a outcomes := by
  rw [h]
  rfl

theorem malloc_bind (f : Bool → Mem β) (outcomes : Outcomes) :
    (malloc >>= f) outcomes = f (nextSucceeds outcomes) outcomes.tail := by
  cases outcomes <;> rfl

theorem malloc_undefined : (malloc >>= fun _ => undefined : Mem α) = undefined := by
  funext outcomes
  exact malloc_bind _ outcomes

theorem strdup_apply (s : CString) (outcomes : Outcomes) :
    strdup (some s) outcomes = some (if nextSucceeds outcomes then some s else none,outcomes.tail) := by
  rw [strdup,malloc_bind]
  cases nextSucceeds outcomes <;> rfl

theorem strdup_bind (s : CString) (f : Option CString → Mem β) (outcomes : Outcomes) :
    (strdup (some s) >>= f) outcomes = f (if nextSucceeds outcomes then some s else none) outcomes.tail :=
  bind_apply (strdup_apply s outcomes) f

/-- Without an allocation there is one result, whatever the outcomes. -/
def Unallocating (m : Mem α) : Prop := ∃ o, m = lift o

theorem Unallocating.lift (o : Option α) : Unallocating (lift o) := ⟨o,rfl⟩

theorem Unallocating.pure (a : α) : Unallocating (pure a : Mem α) := ⟨some a,rfl⟩

theorem Unallocating.undefined : Unallocating (undefined : Mem α) := ⟨none,rfl⟩

theorem Unallocating.bind {m : Mem α} {f : α → Mem β} (h : Unallocating m) (hf : ∀ a, Unallocating (f a)) :
    Unallocating (m >>= f) := by
  obtain ⟨o,rfl⟩ := h
  cases o with
  | none => exact .undefined
  | some a => exact hf a

theorem Unallocating.apply {m : Mem α} (h : Unallocating m) (outcomes : Outcomes) :
    Faults m ∧ m outcomes = none ∨ ∃ a, Succeeds m a ∧ m outcomes = some (a,outcomes) := by
  obtain ⟨o,rfl⟩ := h
  cases o with
  | none => exact Or.inl ⟨rfl,rfl⟩
  | some a => exact Or.inr ⟨a,rfl,rfl⟩

/-- Every run of it has the result of success and leaves all outcomes. -/
theorem Unallocating.apply_eq_some {m : Mem α} (h : Unallocating m) {a : α} {outcomes rest : Outcomes} :
    m outcomes = some (a,rest) ↔ Succeeds m a ∧ rest = outcomes := by
  rcases h.apply outcomes with ⟨hfault,hnone⟩ | ⟨b,hsucceeds,hsome⟩
  · rw [hnone]
    exact iff_of_false nofun fun hm => hfault.not_succeeds a hm.1
  · rw [hsome,Option.some.injEq,Prod.mk.injEq,eq_comm (a := outcomes)]
    refine and_congr_left fun _ => ⟨?_,hsucceeds.unique⟩
    rintro rfl
    exact hsucceeds

/-- A bind with a result went through a result of its first half. -/
theorem of_bind_eq_some {m : Mem α} {f : α → Mem β} {outcomes : Outcomes} {result : β × Outcomes}
    (h : (m >>= f) outcomes = some result) : ∃ a rest, m outcomes = some (a,rest) ∧ f a rest = some result := by
  have hbind : (m outcomes).bind (fun p => f p.1 p.2) = some result := h
  obtain ⟨⟨a,rest⟩,hm,hf⟩ := Option.bind_eq_some_iff.mp hbind
  exact ⟨a,rest,hm,hf⟩

/-- A program uses up outcomes from the front. -/
def Consumes (m : Mem α) : Prop := ∀ outcomes a rest, m outcomes = some (a,rest) → rest <:+ outcomes

theorem Consumes.pure (a : α) : Consumes (pure a : Mem α) := fun outcomes b rest h => by
  obtain ⟨-,rfl⟩ := Prod.mk.inj (Option.some.inj h)
  exact List.suffix_refl _

theorem Consumes.undefined : Consumes (undefined : Mem α) := fun _ _ _ h => absurd h (Option.some_ne_none _).symm

theorem Consumes.malloc : Consumes malloc := fun outcomes ok rest h => by
  cases outcomes with
  | nil =>
    cases h
    exact List.suffix_refl _
  | cons ok' outcomes =>
    cases h
    exact List.suffix_cons _ _

theorem Consumes.bind {m : Mem α} {f : α → Mem β} (h : Consumes m) (hf : ∀ a, Consumes (f a)) :
    Consumes (m >>= f) := fun outcomes b rest hb => by
  obtain ⟨a,rest₁,hm,hb⟩ := of_bind_eq_some hb
  exact (hf a rest₁ b rest hb).trans (h outcomes a rest₁ hm)

end Mem
end PpsDht
