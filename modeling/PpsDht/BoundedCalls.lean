import PpsDht.ConcurrentNetworks

/-! # Calls that return

A program that answers any inputs after a bounded number of receives can be completed by
steps of its own, whatever the network and the other calls do. -/
namespace PpsDht.SocketPrograms

variable {α μ ρ : Type} {P : μ → Prop} {n : ℕ}

/-- On inputs of this kind the program has a result, after at most `n` of them. -/
def Prog.Answers (P : μ → Prop) (n : ℕ) (p : Prog α μ ρ) : Prop :=
  ∀ inputs : List (Option μ), inputs.length = n → (∀ m, some m ∈ inputs → P m) → ∃ result, p.run inputs = some result

private theorem Prog.Answers.of_send {a : α} {m : μ} {next : Prog α μ ρ} (h : (Prog.send a m next).Answers P n) :
    next.Answers P n := fun inputs hlen hin => by
  obtain ⟨result,hrun⟩ := h inputs hlen hin
  exact ⟨result,(run_sendAll [a] m next inputs).symm.trans hrun⟩

theorem Prog.answers_sendAll {next : Prog α μ ρ} (h : next.Answers P n) (as : List α) (m : μ) :
    (sendAll as m next).Answers P n := fun inputs hlen hin => by
  rw [run_sendAll]
  exact h inputs hlen hin

theorem Prog.Answers.bind_ret {τ : Type} {p : Prog α μ ρ} (h : p.Answers P n) (f : ρ → τ) :
    (p >>= fun r => .ret (f r)).Answers P n := fun inputs hlen hin => by
  obtain ⟨⟨r,unread⟩,hrun⟩ := h inputs hlen hin
  refine ⟨(f r,unread),?_⟩
  rw [run_bind,hrun,Option.bind_some,run_ret]

private theorem Prog.not_answers_fault : ¬(Prog.fault : Prog α μ ρ).Answers P n := fun h => by
  obtain ⟨result,hrun⟩ := h (List.replicate n none) List.length_replicate fun m hm =>
    absurd (List.eq_of_mem_replicate hm) nofun
  cases n <;> cases hrun

private theorem Prog.Answers.of_recv {next : Option μ → Prog α μ ρ} (h : (Prog.recv next).Answers P n) :
    ∃ n', n = n' + 1 ∧ (next none).Answers P n' ∧ ∀ m, P m → (next (some m)).Answers P n' := by
  cases n with
  | zero =>
    obtain ⟨result,hrun⟩ := h [] rfl nofun
    cases hrun
  | succ n =>
    refine ⟨n,rfl,fun inputs hlen hin => ?_,fun m hm inputs hlen hin => ?_⟩
    · refine h (none::inputs) (congrArg Nat.succ hlen) fun m' hm' => ?_
      exact hin m' ((List.mem_cons.mp hm').resolve_left nofun)
    · refine h (some m::inputs) (congrArg Nat.succ hlen) fun m' hm' => ?_
      rcases List.mem_cons.mp hm' with heq | hm'
      · exact Option.some.inj heq ▸ hm
      · exact hin m' hm'

/-- Along a trace the program uses up its receives. -/
theorem Exec.answers {p q : Prog α μ ρ} {t : List (Action α μ)} (h : Exec p t q) (hp : p.Answers P n)
    (ht : ∀ m, .received m ∈ t → P m) :
    ∃ n', n = (t.filterMap Action.input?).length + n' ∧ q.Answers P n' := by
  induction h generalizing n with
  | nil => exact ⟨n,(Nat.zero_add n).symm,hp⟩
  | sent _ ih => exact ih hp.of_send fun m hm => ht m (List.mem_cons_of_mem _ hm)
  | received _ ih =>
    obtain ⟨n,rfl,-,hsome⟩ := hp.of_recv
    obtain ⟨n',rfl,hq⟩ := ih (hsome _ (ht _ List.mem_cons_self)) fun m hm => ht m (List.mem_cons_of_mem _ hm)
    exact ⟨n',(Nat.succ_add _ _).symm,hq⟩
  | timedOut _ ih =>
    obtain ⟨n,rfl,hnone,-⟩ := hp.of_recv
    obtain ⟨n',rfl,hq⟩ := ih hnone fun m hm => ht m (List.mem_cons_of_mem _ hm)
    exact ⟨n',(Nat.succ_add _ _).symm,hq⟩

/-- Along a trace the program uses up its sends. -/
theorem Exec.sends_rest {p q : Prog α μ ρ} {t : List (Action α μ)} (h : Exec p t q) {l : List (α × μ)}
    (hp : p.Sends l) : ∃ l', l = t.filterMap Action.message? ++ l' ∧ q.Sends l' := by
  induction h generalizing l with
  | nil => exact ⟨l,rfl,hp⟩
  | sent _ ih =>
    obtain ⟨l',rfl,hnext⟩ := hp
    obtain ⟨rest,rfl,hq⟩ := ih hnext
    exact ⟨rest,rfl,hq⟩
  | received _ ih | timedOut _ ih => exact ih (hp _)

private theorem length_trace (t : List (Action α μ)) :
    t.length = (t.filterMap Action.message?).length + (t.filterMap Action.input?).length := by
  induction t with
  | nil => rfl
  | cons act t ih =>
    cases act <;> simp only [List.filterMap_cons,Action.message?,Action.input?,List.length_cons] <;> omega

end PpsDht.SocketPrograms

namespace PpsDht.DatagramNetworks
open SocketPrograms

variable {α σ μ ρ : Type} {es : List (Event α μ ρ)} {i : ℕ} {P : μ → Prop}

private theorem action_ne_none {e : Event α μ ρ} {act : Action α μ} (h : e.action? i = some act) : e.action? i ≠ none :=
  Option.ne_none_iff_exists'.mpr ⟨act,h⟩

variable [DecidableEq α] {sys : System α σ μ ρ} {servers : α → σ} {w : SharedWorld α σ μ ρ}

/-- A first action of the call and its completion from there are a completion. -/
theorem complete_cons {e : Event α μ ρ} (he : e.action? i ≠ none) {n : ℕ}
    (h : ∃ own r w', SharedRun sys servers (es ++ [e] ++ own ++ [.returned i r]) w' ∧
      (∀ e ∈ own, e.action? i ≠ none) ∧ own.length ≤ n) :
    ∃ own r w', SharedRun sys servers (es ++ own ++ [.returned i r]) w' ∧
      (∀ e ∈ own, e.action? i ≠ none) ∧ own.length ≤ n + 1 := by
  obtain ⟨own,r,w',hrun,hown,hlen⟩ := h
  refine ⟨e::own,r,w',?_,List.forall_mem_cons.mpr ⟨he,hown⟩,Nat.succ_le_succ hlen⟩
  rwa [List.append_assoc es] at hrun

/-- A call at a program that answers can go on to its return, without any message. -/
theorem SharedRun.complete (h : SharedRun sys servers es w) {q : Prog α μ ρ} (hprog : w.progs i = q)
    {l : List (α × μ)} (hsends : q.Sends l) {n : ℕ} (hq : q.Answers P n) :
    ∃ own r w', SharedRun sys servers (es ++ own ++ [.returned i r]) w' ∧
      (∀ e ∈ own, e.action? i ≠ none) ∧ own.length ≤ l.length + n := by
  induction q generalizing es w l n with
  | ret r =>
    have hrun := h.finish hprog
    rw [← List.append_nil es] at hrun
    exact ⟨[],r,_,hrun,nofun,Nat.zero_le _⟩
  | fault => exact absurd hq Prog.not_answers_fault
  | send a m next ih =>
    obtain ⟨l,rfl,hnext⟩ := hsends
    rw [List.length_cons,Nat.succ_add]
    by_cases hm : sys.sendable m
    · refine complete_cons ?_ (ih (h.send hprog hm) (Function.update_self _ _ _) hnext hq.of_send)
      exact action_ne_none (if_pos rfl)
    · refine complete_cons ?_ (ih (h.refuse hprog hm) (Function.update_self _ _ _) hnext hq.of_send)
      exact action_ne_none (if_pos rfl)
  | recv next ih =>
    obtain ⟨n,rfl,hnone,-⟩ := hq.of_recv
    refine complete_cons ?_ (ih none (h.timeOut hprog) (Function.update_self _ _ _) (hsends none) hnone)
    exact action_ne_none (if_pos rfl)

/-- A call whose program answers, on such messages as it receives, takes a bounded number of
actions in every run, and as long as it has not returned it can do so within this number. -/
theorem SharedRun.bounded (h : SharedRun sys servers es w) {l : List (α × μ)} (hsends : (sys.calls i).Sends l)
    {n : ℕ} (hcall : (sys.calls i).Answers P n) (hin : ∀ a m, .received i a m ∈ es → P m) :
    (es.filterMap (Event.action? i)).length ≤ l.length + n ∧ ((∀ r, .returned i r ∉ es) →
      ∃ own r w', SharedRun sys servers (es ++ own ++ [.returned i r]) w' ∧ (∀ e ∈ own, e.action? i ≠ none) ∧
        (es.filterMap (Event.action? i)).length + own.length ≤ l.length + n) := by
  have hreceived : ∀ m, .received m ∈ es.filterMap (Event.action? i) → P m := fun m hm => by
    obtain ⟨e,he,haction⟩ := List.mem_filterMap.mp hm
    cases e with
    | received j a m' =>
      rw [Event.action?,Option.ite_none_right_eq_some] at haction
      obtain ⟨rfl,hact⟩ := haction
      obtain rfl := Action.received.inj (Option.some.inj hact)
      exact hin a m' he
    | sent j a m' | refused j a m' | timedOut j =>
      rw [Event.action?,Option.ite_none_right_eq_some] at haction
      cases haction.2
    | _ => cases haction
  obtain ⟨q,hexec⟩ := h.exec i
  rw [length_trace]
  refine ⟨?_,fun hnot => ?_⟩
  · obtain ⟨n',rfl,-⟩ := hexec.answers hcall hreceived
    obtain ⟨rest,rfl,-⟩ := hexec.sends_rest hsends
    rw [List.length_append]
    omega
  · have hrunning := h.invariant.running i hnot
    obtain ⟨n',rfl,hq⟩ := hrunning.answers hcall hreceived
    obtain ⟨rest,rfl,hrest⟩ := hrunning.sends_rest hsends
    obtain ⟨own,r,w',hrun,hown,hlen⟩ := h.complete rfl hrest hq
    refine ⟨own,r,w',hrun,hown,?_⟩
    rw [List.length_append]
    omega

end PpsDht.DatagramNetworks
