import PpsDht.DatagramNetworks

/-! # Many clients at once

All calls of a system run at the same time, each in a process of its own with a
socket of its own. A step is one of some call with the servers and the network, so
what single steps do is known; a call that has returned is over. -/
namespace PpsDht.DatagramNetworks
open SocketPrograms

structure SharedWorld (α σ μ ρ : Type) where
  servers : α → σ
  net : Multiset (Packet α μ)
  progs : ℕ → Prog α μ ρ

variable {α σ μ ρ : Type}

/-- What there is for call `i` alone. -/
def SharedWorld.focus (w : SharedWorld α σ μ ρ) (i : ℕ) : World α σ μ ρ := ⟨w.servers,w.net,i,w.progs i⟩

/-- The message that server `a` handles in this event. -/
def Event.handledAt? [DecidableEq α] (a : α) (e : Event α μ ρ) : Option μ :=
  (e.handled?.filter fun p => p.1 = a).map Prod.snd

theorem Event.handledAt?_eq_some [DecidableEq α] {a : α} {e : Event α μ ρ} {m : μ} :
    e.handledAt? a = some m ↔ e.handled? = some (a,m) := by
  cases h : e.handled? with
  | none => simp [handledAt?,h]
  | some p =>
    obtain ⟨b,m'⟩ := p
    by_cases hb : b = a <;> simp [handledAt?,h,hb,Option.filter]

/-- The world of a client that makes its calls one after the other. -/
def World.shared (sys : System α σ μ ρ) (w : World α σ μ ρ) : SharedWorld α σ μ ρ where
  servers := w.servers
  net := w.net
  progs i := if i < w.call then .fault else if i = w.call then w.prog else sys.calls i

private theorem World.shared_focus (sys : System α σ μ ρ) (w : World α σ μ ρ) : (w.shared sys).focus w.call = w := by
  simp [World.shared,SharedWorld.focus]

/-- Only the program of the current call changes. -/
theorem World.update_shared (sys : System α σ μ ρ) (w w' : World α σ μ ρ) (hcall : w'.call = w.call) :
    Function.update (w.shared sys).progs w.call w'.prog = (w'.shared sys).progs := by
  funext i
  rw [Function.update_apply,World.shared,World.shared,hcall]
  by_cases hi : i = w.call <;> simp [hi]

private theorem World.update_shared_fault (sys : System α σ μ ρ) (w : World α σ μ ρ) :
    Function.update (w.shared sys).progs w.call .fault =
      (World.shared sys { w with call := w.call + 1, prog := sys.calls (w.call + 1) }).progs := by
  funext i
  rw [Function.update_apply,World.shared,World.shared]
  dsimp only
  rcases Nat.lt_trichotomy i w.call with hi | hi | hi
  · rw [if_neg hi.ne,if_pos hi,if_pos (Nat.lt_succ_of_lt hi)]
  · rw [if_pos hi,if_pos (Nat.lt_succ_of_le hi.le)]
  · rw [if_neg hi.ne',if_neg hi.asymm,if_neg hi.ne',if_neg (Nat.not_lt.mpr hi)]
    split
    · rename_i hnext
      rw [hnext]
    · rfl

/-- Call `i` returns `r` before call `j` takes its first action. -/
def Precedes (es : List (Event α μ ρ)) (i : ℕ) (r : ρ) (j : ℕ) : Prop :=
  ∃ before after, es = before ++ .returned i r::after ∧ before.filterMap (Event.action? j) = []

theorem Precedes.returned {es : List (Event α μ ρ)} {i j : ℕ} {r : ρ} (h : Precedes es i r j) : .returned i r ∈ es := by
  obtain ⟨before,after,rfl,-⟩ := h
  exact List.mem_append_right _ List.mem_cons_self

/-- Of two ways to cut a list, the one without the element comes first. -/
theorem prefix_of_not_mem {β : Type} {before before' after after' : List β} {b : β}
    (h : before ++ after = before' ++ b::after') (hb : b ∉ before) : before <+: before' := by
  rcases List.append_eq_append_iff.mp h with ⟨between,rfl,-⟩ | ⟨between,rfl,hafter⟩
  · exact List.prefix_append _ _
  · cases between with
    | nil => simp
    | cons c between =>
      obtain ⟨rfl,-⟩ := List.cons.inj hafter
      exact absurd (by simp) hb

variable [DecidableEq α]

inductive SharedStep (sys : System α σ μ ρ) :
    SharedWorld α σ μ ρ → Event α μ ρ → SharedWorld α σ μ ρ → Prop
  | act {w : SharedWorld α σ μ ρ} {i : ℕ} {e : Event α μ ρ} {servers : α → σ} {net : Multiset (Packet α μ)}
      {prog : Prog α μ ρ} (hs : Step sys (w.focus i) e ⟨servers,net,i,prog⟩) :
      SharedStep sys w e ⟨servers,net,Function.update w.progs i prog⟩
  | finish {w : SharedWorld α σ μ ρ} {i : ℕ} {r : ρ} (hprog : w.progs i = .ret r) :
      SharedStep sys w (.returned i r) { w with progs := Function.update w.progs i .fault }

def System.sharedStart (sys : System α σ μ ρ) (servers : α → σ) : SharedWorld α σ μ ρ :=
  ⟨servers,0,sys.calls⟩

inductive SharedRun (sys : System α σ μ ρ) (servers : α → σ) :
    List (Event α μ ρ) → SharedWorld α σ μ ρ → Prop
  | start : SharedRun sys servers [] (sys.sharedStart servers)
  | step {es : List (Event α μ ρ)} {w w' : SharedWorld α σ μ ρ} {e : Event α μ ρ}
      (h : SharedRun sys servers es w) (hs : SharedStep sys w e w') : SharedRun sys servers (es ++ [e]) w'

variable {sys : System α σ μ ρ} {servers : α → σ} {w w' : SharedWorld α σ μ ρ} {e : Event α μ ρ}
  {es : List (Event α μ ρ)} {i : ℕ}

theorem Step.shared {w w' : World α σ μ ρ} (h : Step sys w e w') :
    SharedStep sys (w.shared sys) e (w'.shared sys) := by
  have hact : w'.call = w.call → SharedStep sys (w.shared sys) e (w'.shared sys) := fun hcall => by
    have hstep : Step sys ((w.shared sys).focus w.call) e ⟨w'.servers,w'.net,w.call,w'.prog⟩ := by
      rw [World.shared_focus,← hcall]
      exact h
    have hshared := SharedStep.act hstep
    rw [World.update_shared sys w w' hcall] at hshared
    exact hshared
  rcases step_client h with ⟨-,-,-,hcall,-⟩ | ⟨-,-,hcall,-⟩ | ⟨r,rfl,hprog,-⟩
  · exact hact hcall
  · exact hact hcall
  · have hfocus : (w.shared sys).progs w.call = .ret r :=
      (congrArg World.prog (World.shared_focus sys w)).trans hprog
    have hshared : SharedStep sys (w.shared sys) (.returned w.call r) _ := .finish hfocus
    rw [World.update_shared_fault] at hshared
    cases h with
    | finish => exact hshared

/-- Calls made one after the other are calls made at any time. -/
theorem Run.shared {w : World α σ μ ρ} (h : Run sys servers es w) : SharedRun sys servers es (w.shared sys) := by
  induction h with
  | start =>
    have hprogs : ((sys.start servers).shared sys).progs = sys.calls := by
      funext i
      by_cases hi : i = 0 <;> simp [World.shared,System.start,hi]
    have hstart : (sys.start servers).shared sys = sys.sharedStart servers :=
      congrArg (SharedWorld.mk servers 0) hprogs
    rw [hstart]
    exact .start
  | step _ hs ih => exact ih.step hs.shared

/-- A call is over before a later one takes its first action. -/
theorem Run.precedes {w : World α σ μ ρ} (h : Run sys servers es w) {i j : ℕ} {r : ρ} (hij : i < j)
    (hret : .returned i r ∈ es) : Precedes es i r j := by
  induction h with
  | start => exact absurd hret List.not_mem_nil
  | step hrun hs ih =>
    rcases List.mem_append.mp hret with hret | hret
    · obtain ⟨before,after,rfl,hnone⟩ := ih hret
      exact ⟨before,_,List.append_assoc _ _ _,hnone⟩
    · obtain rfl := List.mem_singleton.mp hret
      cases hs with
      | finish => exact ⟨_,[],rfl,hrun.later hij⟩

/-- Servers and network change as in a step of a single call. -/
theorem SharedStep.exists_step (h : SharedStep sys w e w') :
    ∃ i w₁, Step sys (w.focus i) e w₁ ∧ w'.servers = w₁.servers ∧ w'.net = w₁.net := by
  cases h with
  | act hs => exact ⟨_,_,hs,rfl,rfl⟩
  | finish hprog => exact ⟨_,_,.finish hprog,rfl,rfl⟩

/-- A call goes on with an action of its own, is over when it returns, or is left alone. -/
theorem SharedStep.client (h : SharedStep sys w e w') (i : ℕ) :
    (∃ act, e.action? i = some act ∧ Exec (w.progs i) [act] (w'.progs i) ∧ ∀ r, e ≠ .returned i r) ∨
    (e.action? i = none ∧ w'.progs i = w.progs i ∧ ∀ r, e ≠ .returned i r) ∨
    ∃ r, e = .returned i r ∧ w.progs i = .ret r ∧ w'.progs i = .fault := by
  cases h with
  | act hs =>
    rename_i j servers net prog
    rcases step_client hs with ⟨act,hact,hexec,-,hret⟩ | ⟨hact,hprog,-,hret⟩ | ⟨r,rfl,-,hcall,-⟩
    · by_cases hj : j = i
      · subst hj
        refine Or.inl ⟨act,(hact j).trans (if_pos rfl),?_,hret j⟩
        dsimp only
        rw [Function.update_self]
        exact hexec
      · exact Or.inr (Or.inl ⟨(hact i).trans (if_neg hj),Function.update_of_ne (Ne.symm hj) _ _,hret i⟩)
    · refine Or.inr (Or.inl ⟨hact i,?_,hret i⟩)
      dsimp only
      rw [Function.update_apply]
      split
      · rename_i hj
        exact hj ▸ hprog
      · rfl
    · exact absurd hcall (Nat.ne_of_lt (Nat.lt_succ_self _))
  | finish hprog =>
    rename_i j r
    by_cases hj : j = i
    · subst hj
      exact Or.inr (Or.inr ⟨r,rfl,hprog,Function.update_self _ _ _⟩)
    · exact Or.inr (Or.inl ⟨rfl,Function.update_of_ne (Ne.symm hj) _ _,fun r' h => hj (Event.returned.inj h).1⟩)

/-- The actions of each call are those of its program, up to its return. -/
structure SharedInvariant (sys : System α σ μ ρ) (es : List (Event α μ ρ)) (w : SharedWorld α σ μ ρ) :
    Prop where
  running : ∀ i, (∀ r, .returned i r ∉ es) →
    Exec (sys.calls i) (es.filterMap (Event.action? i)) (w.progs i)
  returned : ∀ i r, .returned i r ∈ es →
    w.progs i = .fault ∧ Exec (sys.calls i) (es.filterMap (Event.action? i)) (.ret r)

theorem SharedInvariant.step (h : SharedInvariant sys es w) (hs : SharedStep sys w e w') :
    SharedInvariant sys (es ++ [e]) w' := by
  refine ⟨fun i hi => ?_,fun i r hr => ?_⟩
  · have hrunning := h.running i fun r hr => hi r (List.mem_append_left _ hr)
    rw [filterMap_concat]
    rcases hs.client i with ⟨act,hact,hexec,-⟩ | ⟨hact,hprog,-⟩ | ⟨r,rfl,-⟩
    · rw [hact]
      exact hrunning.trans hexec
    · rw [hact,Option.toList_none,List.append_nil,hprog]
      exact hrunning
    · exact absurd (List.mem_append_right _ (List.mem_singleton_self _)) (hi r)
  · rw [filterMap_concat]
    rcases hs.client i with ⟨act,hact,hexec,hret⟩ | ⟨hact,hprog,hret⟩ | ⟨r',rfl,hprog,hover⟩
    · rw [List.mem_append,List.mem_singleton,or_iff_left (Ne.symm (hret r))] at hr
      rw [(h.returned i r hr).1] at hexec
      exact absurd hexec.of_fault.1 nofun
    · rw [List.mem_append,List.mem_singleton,or_iff_left (Ne.symm (hret r))] at hr
      rw [hact,Option.toList_none,List.append_nil,hprog]
      exact h.returned i r hr
    · refine ⟨hover,?_⟩
      change Exec _ (_ ++ []) _
      rw [List.append_nil]
      have hnot : ∀ r, .returned i r ∉ es := fun r hr => by
        rw [(h.returned i r hr).1] at hprog
        exact absurd hprog nofun
      rcases List.mem_append.mp hr with hr | hr
      · exact absurd hr (hnot r)
      · obtain ⟨-,rfl⟩ := Event.returned.inj (List.mem_singleton.mp hr)
        exact hprog ▸ h.running i hnot

theorem SharedRun.invariant (h : SharedRun sys servers es w) : SharedInvariant sys es w := by
  induction h with
  | start => exact ⟨fun _ _ => .nil _,nofun⟩
  | step _ hs ih => exact ih.step hs

theorem SharedRun.exec (h : SharedRun sys servers es w) (i : ℕ) :
    ∃ p, Exec (sys.calls i) (es.filterMap (Event.action? i)) p := by
  by_cases hi : ∃ r, .returned i r ∈ es
  · obtain ⟨r,hr⟩ := hi
    exact ⟨_,(h.invariant.returned i r hr).2⟩
  · exact ⟨_,h.invariant.running i (not_exists.mp hi)⟩

theorem SharedRun.sends (h : SharedRun sys servers es w) {l : List (α × μ)} (hp : (sys.calls i).Sends l) :
    (es.filterMap (Event.action? i)).filterMap Action.message? <+: l := by
  obtain ⟨p,hexec⟩ := h.exec i
  exact hexec.sends hp

theorem SharedRun.returned (h : SharedRun sys servers es w) {r : ρ} (hr : .returned i r ∈ es) :
    (sys.calls i).run ((es.filterMap (Event.action? i)).filterMap Action.input?) = some (r,[]) :=
  (h.invariant.returned i r hr).2.run

theorem SharedRun.netInvariant (h : SharedRun sys servers es w) (i : ℕ) : NetInvariant es (w.focus i) := by
  induction h with
  | start => exact ⟨nofun,nofun,nofun,nofun⟩
  | step _ hs ih =>
    obtain ⟨j,w₁,hstep,-,hnet⟩ := hs.exists_step
    have hinv := NetInvariant.step (w := SharedWorld.focus _ j) ⟨ih.request,ih.reply,ih.served,ih.received⟩ hstep
    refine ⟨?_,?_,hinv.served,hinv.received⟩
    · rw [SharedWorld.focus,hnet]
      exact hinv.request
    · rw [SharedWorld.focus,hnet]
      exact hinv.reply

/-- The events so far are an initial part of the events of a longer run. -/
theorem SharedRun.split (h : SharedRun sys servers es w) {before after : List (Event α μ ρ)}
    (hes : es = before ++ e::after) :
    ∃ w₁ w₂, SharedRun sys servers before w₁ ∧ SharedStep sys w₁ e w₂ := by
  induction h generalizing after with
  | start => exact absurd hes.symm (by simp)
  | step hrun hs ih =>
    rename_i es w w' e'
    rcases List.eq_nil_or_concat after with rfl | ⟨after,last,rfl⟩
    · obtain ⟨rfl,he⟩ := List.append_inj' hes rfl
      exact ⟨w,w',hrun,(List.cons.inj he).1 ▸ hs⟩
    · rw [List.concat_eq_append,← List.cons_append,← List.append_assoc] at hes
      exact ih (List.append_inj' hes rfl).1

/-- One server handles a message, or nothing happens to the servers. -/
theorem SharedStep.handles (h : SharedStep sys w e w') :
    (e.handled? = none ∧ w'.servers = w.servers) ∨
    ∃ a m s replies, e.handled? = some (a,m) ∧ sys.handle (w.servers a) m s replies ∧
      w'.servers = Function.update w.servers a s := by
  obtain ⟨i,w₁,hstep,hservers,-⟩ := h.exists_step
  rw [hservers]
  exact step_servers hstep

theorem SharedStep.handle_of_served {a : α} {m : μ} {rs : List μ} (h : SharedStep sys w (.served i a m rs) w') :
    ∃ s, sys.handle (w.servers a) m s rs := by
  obtain ⟨j,w₁,hstep,-⟩ := h.exists_step
  exact DatagramNetworks.handle_of_served hstep

/-- What every handling of a message preserves holds of all servers at all times. -/
theorem SharedRun.servers_rule {P : σ → Prop} (h : SharedRun sys servers es w) (hstart : ∀ a, P (servers a))
    (hstep : ∀ s m s' replies, P s → sys.handle s m s' replies → P s') (a : α) : P (w.servers a) := by
  induction h generalizing a with
  | start => exact hstart a
  | step _ hs ih =>
    rcases hs.handles with ⟨-,hservers⟩ | ⟨b,m,s,replies,-,hhandle,hservers⟩
    · rw [hservers]
      exact ih a
    · rw [hservers,Function.update_apply]
      split
      · exact hstep _ _ _ _ (ih b) hhandle
      · exact ih a

/-- A call takes no action after its return. -/
theorem SharedRun.over (h : SharedRun sys servers es w) {before after : List (Event α μ ρ)} {r : ρ}
    (hes : es = before ++ .returned i r::after) : after.filterMap (Event.action? i) = [] := by
  obtain ⟨w₁,w₂,hrun,hs⟩ := h.split hes
  obtain hbefore := ((hrun.step hs).invariant.returned i r (by simp)).2
  obtain hall := (h.invariant.returned i r (by simp [hes])).2
  rw [filterMap_concat] at hbefore
  rw [hes,List.filterMap_append,List.filterMap_cons] at hall
  change Exec _ (_ ++ []) _ at hbefore
  rw [List.append_nil] at hbefore
  exact (hbefore.split hall).of_ret.1

private theorem SharedRun.not_action_after (h : SharedRun sys servers es w) {before after : List (Event α μ ρ)} {r : ρ}
    (hes : es = before ++ .returned i r::after) (he : e ∈ after) : e.action? i = none :=
  List.filterMap_eq_nil_iff.mp (h.over hes) e he

/-- The events of a run up to any point are those of a run. -/
theorem SharedRun.take (h : SharedRun sys servers es w) {before after : List (Event α μ ρ)}
    (hes : es = before ++ after) : ∃ w₁, SharedRun sys servers before w₁ := by
  cases after with
  | nil =>
    rw [List.append_nil] at hes
    exact ⟨w,hes ▸ h⟩
  | cons e after =>
    obtain ⟨w₁,-,hrun,-⟩ := h.split hes
    exact ⟨w₁,hrun⟩

theorem Step.mono {sys' : System α σ μ ρ} {w w' : World α σ μ ρ} (h : Step sys w e w')
    (hcalls : sys.calls = sys'.calls) (hsendable : ∀ m, sys.sendable m ↔ sys'.sendable m)
    (hhandle : ∀ s m s' replies, sys.handle s m s' replies → sys'.handle s m s' replies) : Step sys' w e w' := by
  cases h with
  | send hprog hm => exact .send hprog ((hsendable _).mp hm)
  | refuse hprog hm => exact .refuse hprog (mt (hsendable _).mpr hm)
  | receive hprog hnet => exact .receive hprog hnet
  | timeOut hprog => exact .timeOut hprog
  | serve hnet hs => exact .serve hnet (hhandle _ _ _ _ hs)
  | foreign hs => exact .foreign (hhandle _ _ _ _ hs)
  | lose hnet => exact .lose hnet
  | duplicate hp => exact .duplicate hp
  | finish hprog =>
    rw [hcalls]
    exact .finish hprog

/-- Servers that may do more allow for more runs. -/
theorem SharedRun.mono {sys' : System α σ μ ρ} (h : SharedRun sys servers es w) (hcalls : sys.calls = sys'.calls)
    (hsendable : ∀ m, sys.sendable m ↔ sys'.sendable m)
    (hhandle : ∀ s m s' replies, sys.handle s m s' replies → sys'.handle s m s' replies) :
    SharedRun sys' servers es w := by
  induction h with
  | start =>
    rw [System.sharedStart,hcalls]
    exact .start
  | step _ hs ih =>
    cases hs with
    | act hs => exact ih.step (.act (hs.mono hcalls hsendable hhandle))
    | finish hprog => exact ih.step (.finish hprog)

/-- No server has been served a message of a call that takes no action. -/
theorem SharedRun.not_served (h : SharedRun sys servers es w) (hi : es.filterMap (Event.action? i) = [])
    {a : α} {m : μ} {rs : List μ} : .served i a m rs ∉ es := fun hserved => by
  have hsent := (h.netInvariant i).served _ _ _ _ hserved
  exact absurd ((List.filterMap_eq_nil_iff.mp hi _ hsent).symm.trans (if_pos rfl)) nofun

/-- What a call receives it receives before it returns. -/
theorem SharedRun.received_before (h : SharedRun sys servers es w) {before after : List (Event α μ ρ)} {r : ρ}
    (hes : es = before ++ .returned i r::after) {a : α} {m : μ} (hm : .received i a m ∈ es) :
    .received i a m ∈ before := by
  have haction : (.received i a m : Event α μ ρ).action? i = some (.received m) := if_pos rfl
  rw [hes,List.mem_append,List.mem_cons] at hm
  rcases hm with hm | hm | hm
  · exact hm
  · exact absurd hm nofun
  · exact absurd ((h.not_action_after hes hm).symm.trans haction) nofun

section Steps
variable {a : α} {m : μ} {net : Multiset (Packet α μ)}

theorem SharedRun.send (h : SharedRun sys servers es w) {next : Prog α μ ρ} (hprog : w.progs i = .send a m next)
    (hm : sys.sendable m) : SharedRun sys servers (es ++ [.sent i a m])
      ⟨w.servers,⟨i,a,false,m⟩ ::ₘ w.net,Function.update w.progs i next⟩ :=
  h.step (.act (.send hprog hm))

theorem SharedRun.refuse (h : SharedRun sys servers es w) {next : Prog α μ ρ} (hprog : w.progs i = .send a m next)
    (hm : ¬sys.sendable m) : SharedRun sys servers (es ++ [.refused i a m])
      ⟨w.servers,w.net,Function.update w.progs i next⟩ :=
  h.step (.act (.refuse hprog hm))

theorem SharedRun.receive (h : SharedRun sys servers es w) {next : Option μ → Prog α μ ρ}
    (hprog : w.progs i = .recv next) (hnet : w.net = ⟨i,a,true,m⟩ ::ₘ net) :
    SharedRun sys servers (es ++ [.received i a m]) ⟨w.servers,net,Function.update w.progs i (next (some m))⟩ :=
  h.step (.act (.receive hprog hnet))

theorem SharedRun.timeOut (h : SharedRun sys servers es w) {next : Option μ → Prog α μ ρ}
    (hprog : w.progs i = .recv next) :
    SharedRun sys servers (es ++ [.timedOut i]) ⟨w.servers,w.net,Function.update w.progs i (next none)⟩ :=
  h.step (.act (.timeOut hprog))

theorem SharedRun.serve {tables : α → σ} {progs : ℕ → Prog α μ ρ}
    (h : SharedRun sys servers es ⟨tables,⟨i,a,false,m⟩ ::ₘ net,progs⟩) {s s' : σ} {reply : μ} (hs : tables a = s)
    (hhandle : sys.handle s m s' [reply]) : SharedRun sys servers (es ++ [.served i a m [reply]])
      ⟨Function.update tables a s',⟨i,a,true,reply⟩ ::ₘ net,progs⟩ := by
  subst hs
  have hstep := h.step (.act (.serve (w := SharedWorld.focus _ i) rfl hhandle))
  rw [replyPackets_singleton_add,SharedWorld.focus] at hstep
  dsimp only at hstep
  rwa [Function.update_eq_self] at hstep

theorem SharedRun.finish (h : SharedRun sys servers es w) {r : ρ} (hprog : w.progs i = .ret r) :
    SharedRun sys servers (es ++ [.returned i r]) ⟨w.servers,w.net,Function.update w.progs i .fault⟩ :=
  h.step (.finish hprog)

/-- A call receives its replies in any order and returns, and the other calls stay where they are. -/
theorem SharedRun.receive_all (h : SharedRun sys servers es w) {prog : Prog α μ ρ} (hprog : w.progs i = prog)
    (replies : List (α × μ)) (net : Multiset (Packet α μ))
    (hnet : w.net = Multiset.ofList (replies.map fun p => ⟨i,p.1,true,p.2⟩) + net) (hp : prog.Sends []) {r : ρ}
    (hrun : prog.run (replies.map fun p => some p.2) = some (r,[])) :
    ∃ progs, (∀ j, j ≠ i → progs j = w.progs j) ∧
      SharedRun sys servers (es ++ (replies.map fun p => .received i p.1 p.2) ++ [.returned i r])
        ⟨w.servers,net,progs⟩ := by
  induction replies generalizing es w prog with
  | nil =>
    rw [List.map_nil,Multiset.coe_nil,Multiset.zero_add] at hnet
    rw [List.map_nil,List.append_nil,← hnet]
    exact ⟨_,fun j hj => Function.update_of_ne hj _ _,h.finish (hprog.trans (Prog.eq_ret_of_run hp hrun))⟩
  | cons p replies ih =>
    obtain ⟨next,rfl⟩ := Prog.exists_recv_of_run hp hrun
    rw [List.map_cons,← Multiset.cons_coe,Multiset.cons_add] at hnet
    obtain ⟨progs,hothers,hrest⟩ := ih (h.receive hprog hnet) (Function.update_self _ _ _) rfl (hp (some p.2)) hrun
    rw [List.append_assoc es] at hrest
    exact ⟨progs,fun j hj => (hothers j hj).trans (Function.update_of_ne hj _ _),hrest⟩

end Steps

end PpsDht.DatagramNetworks
