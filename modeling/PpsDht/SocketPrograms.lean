import Mathlib.Data.List.Basic
import Mathlib.Tactic.Common

/-! # Programs over one datagram socket

A program sends messages to addresses and receives messages without learning who
sent them; a receive that times out yields nothing. `run` feeds a program the
outcomes of its receives in order, `Exec` follows it along a trace of actions. Related
programs send the same messages, wait at the same points and go wrong together. -/
namespace PpsDht.SocketPrograms

inductive Prog (α μ ρ : Type) where
  | ret (r : ρ)
  | fault
  | send (a : α) (m : μ) (next : Prog α μ ρ)
  | recv (next : Option μ → Prog α μ ρ)

inductive Action (α μ : Type) where
  | sent (a : α) (m : μ)
  | received (m : μ)
  | timedOut

variable {α μ ρ τ : Type}

namespace Prog

def bind : Prog α μ ρ → (ρ → Prog α μ τ) → Prog α μ τ
  | ret r, f => f r
  | fault, _ => fault
  | send a m next, f => send a m (next.bind f)
  | recv next, f => recv fun i => (next i).bind f

instance : Monad (Prog α μ) where
  pure := ret
  bind := bind

@[simp] theorem pure_bind (r : ρ) (f : ρ → Prog α μ τ) : (ret r >>= f) = f r := rfl

@[simp] theorem send_bind (a : α) (m : μ) (next : Prog α μ ρ) (f : ρ → Prog α μ τ) :
    (send a m next >>= f) = send a m (next >>= f) := rfl

@[simp] theorem recv_bind (next : Option μ → Prog α μ ρ) (f : ρ → Prog α μ τ) :
    (recv next >>= f) = recv fun i => next i >>= f := rfl

theorem bind_bind {υ : Type} (p : Prog α μ ρ) (f : ρ → Prog α μ τ) (g : τ → Prog α μ υ) :
    (p >>= f) >>= g = p >>= fun r => f r >>= g := by
  induction p with
  | ret | fault => rfl
  | send a m next ih => exact congrArg (send a m) ih
  | recv next ih => exact congrArg recv (funext ih)

/-- The same message to each address in turn. -/
def sendAll (as : List α) (m : μ) (next : Prog α μ ρ) : Prog α μ ρ :=
  as.foldr (fun a p => send a m p) next

theorem sendAll_bind (as : List α) (m : μ) (next : Prog α μ ρ) (f : ρ → Prog α μ τ) :
    (sendAll as m next >>= f) = sendAll as m (next >>= f) := by
  induction as with
  | nil => rfl
  | cons a as ih => exact congrArg (send a m) ih

/-- The result on a sequence of inputs and the inputs left unread. -/
def run : Prog α μ ρ → List (Option μ) → Option (ρ × List (Option μ))
  | ret r, inputs => some (r,inputs)
  | fault, _ => none
  | send _ _ next, inputs => run next inputs
  | recv _, [] => none
  | recv next, i::inputs => run (next i) inputs

@[simp] theorem run_ret (r : ρ) (inputs : List (Option μ)) :
    (ret r : Prog α μ ρ).run inputs = some (r,inputs) := by
  cases inputs <;> rfl

@[simp] theorem run_sendAll (as : List α) (m : μ) (next : Prog α μ ρ) (inputs : List (Option μ)) :
    (sendAll as m next).run inputs = next.run inputs := by
  induction as with
  | nil => rfl
  | cons a as ih =>
    rw [← ih]
    cases inputs <;> rfl

theorem run_bind (p : Prog α μ ρ) (f : ρ → Prog α μ τ) (inputs : List (Option μ)) :
    (p >>= f).run inputs = (p.run inputs).bind fun q => (f q.1).run q.2 := by
  induction p generalizing inputs with
  | ret r =>
    rw [run_ret]
    rfl
  | fault => cases inputs <;> rfl
  | send a m next ih =>
    rw [send_bind]
    cases inputs <;> exact ih _
  | recv next ih =>
    cases inputs with
    | nil => rfl
    | cons i inputs => exact ih i inputs

/-- All sends of the program, whatever it receives, follow the list. -/
def Sends : Prog α μ ρ → List (α × μ) → Prop
  | ret _, _ => True
  | fault, _ => True
  | send a m next, l => ∃ l', l = (a,m)::l' ∧ next.Sends l'
  | recv next, l => ∀ i, (next i).Sends l

theorem sends_sendAll {next : Prog α μ ρ} (h : next.Sends []) (as : List α) (m : μ) :
    (sendAll as m next).Sends (as.map fun a => (a,m)) := by
  induction as with
  | nil => exact h
  | cons a as ih => exact ⟨_,rfl,ih⟩

theorem Sends.bind_ret {p : Prog α μ ρ} {l : List (α × μ)} (h : p.Sends l) (f : ρ → τ) :
    (p >>= fun r => ret (f r)).Sends l := by
  induction p generalizing l with
  | ret | fault => trivial
  | send a m next ih =>
    obtain ⟨l',rfl,h⟩ := h
    exact ⟨l',rfl,ih h⟩
  | recv next ih => exact fun i => ih i (h i)

/-- Whatever the program receives, its messages are of one kind. -/
def OnlySends (P : μ → Prop) : Prog α μ ρ → Prop
  | ret _ => True
  | fault => True
  | send _ m next => P m ∧ next.OnlySends P
  | recv next => ∀ i, (next i).OnlySends P

variable {P : μ → Prop}

theorem OnlySends.mono {Q : μ → Prop} {p : Prog α μ ρ} (h : p.OnlySends P) (hPQ : ∀ m, P m → Q m) :
    p.OnlySends Q := by
  induction p with
  | ret | fault => trivial
  | send a m next ih => exact ⟨hPQ m h.1,ih h.2⟩
  | recv next ih => exact fun i => ih i (h i)

theorem OnlySends.bind {p : Prog α μ ρ} (h : p.OnlySends P) {f : ρ → Prog α μ τ} (hf : ∀ r, (f r).OnlySends P) :
    (p >>= f).OnlySends P := by
  induction p with
  | ret r => exact hf r
  | fault => trivial
  | send a m next ih => exact ⟨h.1,ih h.2⟩
  | recv next ih => exact fun i => ih i (h i)

theorem onlySends_sendAll {m : μ} (hm : P m) {next : Prog α μ ρ} (h : next.OnlySends P) (as : List α) :
    (sendAll as m next).OnlySends P := by
  induction as with
  | nil => exact h
  | cons a as ih => exact ⟨hm,ih⟩

theorem Sends.onlySends {p : Prog α μ ρ} (h : p.Sends []) : p.OnlySends P := by
  induction p with
  | ret | fault => trivial
  | send a m next ih =>
    obtain ⟨l,hl,-⟩ := h
    cases hl
  | recv next ih => exact fun i => ih i (h i)

/-- A program that sends nothing and needs no more input is at its result. -/
theorem eq_ret_of_run {p : Prog α μ ρ} (hp : p.Sends []) {r : ρ} {unread : List (Option μ)}
    (h : p.run [] = some (r,unread)) : p = ret r := by
  cases p with
  | ret r' =>
    rw [run_ret] at h
    cases h
    rfl
  | fault => exact absurd h nofun
  | send =>
    obtain ⟨l',hl,-⟩ := hp
    exact absurd hl nofun
  | recv => exact absurd h nofun

theorem exists_recv_of_run {p : Prog α μ ρ} (hp : p.Sends []) {i : Option μ} {inputs : List (Option μ)} {r : ρ}
    (h : p.run (i::inputs) = some (r,[])) : ∃ next, p = recv next := by
  cases p with
  | ret r' =>
    rw [run_ret] at h
    exact absurd (congrArg Prod.snd (Option.some.inj h)) nofun
  | fault => exact absurd h nofun
  | send =>
    obtain ⟨l',hl,-⟩ := hp
    exact absurd hl nofun
  | recv next => exact ⟨next,rfl⟩

end Prog

namespace Action

def message? : Action α μ → Option (α × μ)
  | sent a m => some (a,m)
  | _ => none

def input? : Action α μ → Option (Option μ)
  | sent _ _ => none
  | received m => some (some m)
  | timedOut => some none

end Action

theorem exists_received {t : List (Action α μ)} (h : 0 < (t.filterMap Action.input?).countP Option.isSome) :
    ∃ m, .received m ∈ t := by
  obtain ⟨input,hinput,hsome⟩ := List.countP_pos_iff.mp h
  obtain ⟨action,haction,hmessage⟩ := List.mem_filterMap.mp hinput
  cases action with
  | sent => cases hmessage
  | timedOut =>
    cases hmessage
    cases hsome
  | received m => exact ⟨m,haction⟩

/-- The program gets from one point to another by these actions. -/
inductive Exec : Prog α μ ρ → List (Action α μ) → Prog α μ ρ → Prop
  | nil (p : Prog α μ ρ) : Exec p [] p
  | sent {a : α} {m : μ} {next p : Prog α μ ρ} {t : List (Action α μ)} (h : Exec next t p) :
      Exec (.send a m next) (.sent a m::t) p
  | received {m : μ} {next : Option μ → Prog α μ ρ} {p : Prog α μ ρ} {t : List (Action α μ)}
      (h : Exec (next (some m)) t p) : Exec (.recv next) (.received m::t) p
  | timedOut {next : Option μ → Prog α μ ρ} {p : Prog α μ ρ} {t : List (Action α μ)}
      (h : Exec (next none) t p) : Exec (.recv next) (.timedOut::t) p

theorem Exec.trans {p q r : Prog α μ ρ} {t t' : List (Action α μ)} (h : Exec p t q) (h' : Exec q t' r) :
    Exec p (t ++ t') r := by
  induction h with
  | nil => exact h'
  | sent _ ih => exact .sent (ih h')
  | received _ ih => exact .received (ih h')
  | timedOut _ ih => exact .timedOut (ih h')

theorem Exec.of_ret {r : ρ} {q : Prog α μ ρ} {t : List (Action α μ)} (h : Exec (.ret r) t q) : t = [] ∧ q = .ret r := by
  cases h
  exact ⟨rfl,rfl⟩

theorem Exec.of_fault {q : Prog α μ ρ} {t : List (Action α μ)} (h : Exec .fault t q) : t = [] ∧ q = .fault := by
  cases h
  exact ⟨rfl,rfl⟩

/-- A run splits at each program that the trace leads to. -/
theorem Exec.split {p q r : Prog α μ ρ} {t t' : List (Action α μ)} (h : Exec p t q) (h' : Exec p (t ++ t') r) :
    Exec q t' r := by
  induction h with
  | nil => exact h'
  | sent _ ih | received _ ih | timedOut _ ih =>
    cases h' with
    | _ h' => exact ih h'

theorem Exec.bind_ret {p : Prog α μ ρ} {t : List (Action α μ)} {r : ρ} (h : Exec p t (.ret r)) (f : ρ → Prog α μ τ) :
    Exec (p >>= f) t (f r) := by
  generalize hq : Prog.ret r = q at h
  induction h with
  | nil =>
    subst hq
    exact .nil _
  | sent _ ih => exact .sent (ih hq)
  | received _ ih => exact .received (ih hq)
  | timedOut _ ih => exact .timedOut (ih hq)

/-- A trace of two programs in a row is still in the first, or has its result and goes on in
the second. -/
theorem Exec.of_bind {p : Prog α μ ρ} {f : ρ → Prog α μ τ} {q : Prog α μ τ} {t : List (Action α μ)}
    (h : Exec (p >>= f) t q) :
    (∃ p', Exec p t p' ∧ (∀ r, p' ≠ .ret r) ∧ q = p' >>= f) ∨
      ∃ r t₁ t₂, t = t₁ ++ t₂ ∧ Exec p t₁ (.ret r) ∧ Exec (f r) t₂ q := by
  induction p generalizing t q with
  | ret r => exact .inr ⟨r,[],t,rfl,.nil _,h⟩
  | fault =>
    obtain ⟨rfl,rfl⟩ := Exec.of_fault h
    exact .inl ⟨.fault,.nil _,nofun,rfl⟩
  | send a m next ih =>
    rw [Prog.send_bind] at h
    cases h with
    | nil => exact .inl ⟨_,.nil _,nofun,rfl⟩
    | sent h =>
      obtain ⟨p',hp,hne,rfl⟩ | ⟨r,t₁,t₂,rfl,hp,hf⟩ := ih h
      · exact .inl ⟨p',.sent hp,hne,rfl⟩
      · exact .inr ⟨r,_,t₂,rfl,.sent hp,hf⟩
  | recv next ih =>
    rw [Prog.recv_bind] at h
    cases h with
    | nil => exact .inl ⟨_,.nil _,nofun,rfl⟩
    | received h =>
      obtain ⟨p',hp,hne,rfl⟩ | ⟨r,t₁,t₂,rfl,hp,hf⟩ := ih _ h
      · exact .inl ⟨p',.received hp,hne,rfl⟩
      · exact .inr ⟨r,_,t₂,rfl,.received hp,hf⟩
    | timedOut h =>
      obtain ⟨p',hp,hne,rfl⟩ | ⟨r,t₁,t₂,rfl,hp,hf⟩ := ih _ h
      · exact .inl ⟨p',.timedOut hp,hne,rfl⟩
      · exact .inr ⟨r,_,t₂,rfl,.timedOut hp,hf⟩

/-- What has not returned does not return by going on. -/
theorem Prog.eq_ret_of_bind {p : Prog α μ ρ} {f : ρ → Prog α μ τ} {b : τ} (h : p >>= f = .ret b) :
    ∃ r, p = .ret r := by
  cases p with
  | ret r => exact ⟨r,rfl⟩
  | fault | send | recv => cases h

/-- A finished run of two programs in a row is one of each. -/
theorem Exec.of_bind_ret {p : Prog α μ ρ} {f : ρ → Prog α μ τ} {b : τ} {t : List (Action α μ)}
    (h : Exec (p >>= f) t (.ret b)) : ∃ r t₁ t₂, t = t₁ ++ t₂ ∧ Exec p t₁ (.ret r) ∧ Exec (f r) t₂ (.ret b) := by
  obtain ⟨p',-,hne,hb⟩ | h := h.of_bind
  · obtain ⟨r,rfl⟩ := Prog.eq_ret_of_bind hb.symm
    exact absurd rfl (hne r)
  · exact h

/-- A trace that ends in a result feeds the program exactly its inputs. -/
theorem Exec.run {p : Prog α μ ρ} {t : List (Action α μ)} {r : ρ} (h : Exec p t (.ret r)) :
    p.run (t.filterMap Action.input?) = some (r,[]) := by
  generalize hq : Prog.ret r = q at h
  induction h with
  | nil =>
    subst hq
    rfl
  | sent _ ih =>
    rw [← ih hq]
    exact Prog.run_sendAll [_] _ _ _
  | received _ ih => exact ih hq
  | timedOut _ ih => exact ih hq

/-- What was sent so far is an initial part of what the program sends. -/
theorem Exec.sends {p q : Prog α μ ρ} {t : List (Action α μ)} (h : Exec p t q) {l : List (α × μ)}
    (hp : p.Sends l) : t.filterMap Action.message? <+: l := by
  induction h generalizing l with
  | nil => exact List.nil_prefix
  | sent _ ih =>
    obtain ⟨l',rfl,hp⟩ := hp
    exact List.prefix_cons_inj _ |>.mpr (ih hp)
  | received _ ih => exact ih (hp _)
  | timedOut _ ih => exact ih (hp _)

theorem Exec.onlySends {P : μ → Prop} {p q : Prog α μ ρ} {t : List (Action α μ)} (h : Exec p t q) (hp : p.OnlySends P)
    {a : α} {m : μ} (hsent : .sent a m ∈ t) : P m := by
  induction h with
  | nil => cases hsent
  | sent _ ih =>
    rcases List.mem_cons.mp hsent with heq | hsent
    · cases heq
      exact hp.1
    · exact ih hp.2 hsent
  | received _ ih | timedOut _ ih =>
    rcases List.mem_cons.mp hsent with heq | hsent
    · cases heq
    · exact ih (hp _) hsent

variable {ρ' τ' : Type}

inductive Prog.Related (R : ρ → ρ' → Prop) : Prog α μ ρ → Prog α μ ρ' → Prop
  | ret {r : ρ} {r' : ρ'} (h : R r r') : Related R (ret r) (ret r')
  | fault : Related R fault fault
  | send {a : α} {m : μ} {next : Prog α μ ρ} {next' : Prog α μ ρ'} (h : Related R next next') :
      Related R (send a m next) (send a m next')
  | recv {next : Option μ → Prog α μ ρ} {next' : Option μ → Prog α μ ρ'} (h : ∀ i, Related R (next i) (next' i)) :
      Related R (recv next) (recv next')

theorem Prog.bind_ret (p : Prog α μ ρ) : p >>= ret = p := by
  induction p with
  | ret | fault => rfl
  | send a m next ih => exact congrArg (send a m) ih
  | recv next ih => exact congrArg recv (funext ih)

namespace Prog.Related

variable {R : ρ → ρ' → Prop} {S : τ → τ' → Prop} {p : Prog α μ ρ} {p' : Prog α μ ρ'}

theorem bind (h : Related R p p') {f : ρ → Prog α μ τ} {f' : ρ' → Prog α μ τ'}
    (hf : ∀ r r', R r r' → Related S (f r) (f' r')) : Related S (p >>= f) (p' >>= f') := by
  induction h with
  | ret h => exact hf _ _ h
  | fault => exact .fault
  | send _ ih => exact .send ih
  | recv _ ih => exact .recv ih

theorem mono (h : Related R p p') {R' : ρ → ρ' → Prop} (hR : ∀ r r', R r r' → R' r r') : Related R' p p' := by
  induction h with
  | ret h => exact .ret (hR _ _ h)
  | fault => exact .fault
  | send _ ih => exact .send ih
  | recv _ ih => exact .recv ih

theorem refl {R : ρ → ρ → Prop} (hR : ∀ r, R r r) (p : Prog α μ ρ) : Related R p p := by
  induction p with
  | ret r => exact .ret (hR r)
  | fault => exact .fault
  | send a m next ih => exact .send ih
  | recv next ih => exact .recv ih

end Prog.Related

end PpsDht.SocketPrograms
