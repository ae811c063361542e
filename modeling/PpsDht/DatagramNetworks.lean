import Mathlib.Data.List.Count
import Mathlib.Data.List.Induction
import Mathlib.Data.Multiset.AddSub
import Mathlib.Data.Multiset.Count
import Mathlib.Logic.Function.Basic
import PpsDht.SocketPrograms

/-! # One client and many servers on a datagram network

The client runs its calls one after the other, each on a socket of its own. The
network may lose, delay, reorder and duplicate packets but makes none up; other
clients' messages reach the servers as foreign ones. A run records its events,
with the server that sent a received message although the client does not see it. -/
namespace PpsDht.DatagramNetworks
open SocketPrograms

structure Packet (α μ : Type) where
  sock : ℕ
  addr : α
  isReply : Bool
  msg : μ

structure World (α σ μ ρ : Type) where
  servers : α → σ
  net : Multiset (Packet α μ)
  call : ℕ
  prog : Prog α μ ρ

/-- The programs of the calls, what a server does with a message, and which
messages can be sent at all. -/
structure System (α σ μ ρ : Type) where
  calls : ℕ → Prog α μ ρ
  handle : σ → μ → σ → List μ → Prop
  sendable : μ → Prop

inductive Event (α μ ρ : Type) where
  | sent (i : ℕ) (a : α) (m : μ)
  | refused (i : ℕ) (a : α) (m : μ)
  | received (i : ℕ) (a : α) (m : μ)
  | timedOut (i : ℕ)
  | served (i : ℕ) (a : α) (m : μ) (replies : List μ)
  | foreign (a : α) (m : μ)
  | lost (p : Packet α μ)
  | duplicated (p : Packet α μ)
  | returned (i : ℕ) (r : ρ)

variable {α σ μ ρ : Type}

namespace Event

/-- The action of call `i` in an event, if it is one. -/
def action? (i : ℕ) : Event α μ ρ → Option (Action α μ)
  | sent j a m => if j = i then some (.sent a m) else none
  | refused j a m => if j = i then some (.sent a m) else none
  | received j _ m => if j = i then some (.received m) else none
  | timedOut j => if j = i then some .timedOut else none
  | _ => none

def sentTo? (i : ℕ) : Event α μ ρ → Option α
  | sent j a _ => if j = i then some a else none
  | _ => none

def servedBy? (i : ℕ) : Event α μ ρ → Option α
  | served j a _ _ => if j = i then some a else none
  | _ => none

/-- The server and the message that it handles in this event. -/
def handled? : Event α μ ρ → Option (α × μ)
  | served _ a m _ => some (a,m)
  | foreign a m => some (a,m)
  | _ => none

/-- The sender of a message that call `i` received and that satisfies `Q`. -/
def receivedFrom? (i : ℕ) (Q : μ → Bool) : Event α μ ρ → Option α
  | received j a m => if j = i ∧ Q m then some a else none
  | _ => none

/-- The server of a packet of call `i` that was duplicated. -/
def duplicatedFor? (i : ℕ) (isReply : Bool) : Event α μ ρ → Option α
  | duplicated p => if p.sock = i ∧ p.isReply = isReply then some p.addr else none
  | _ => none

/-- The server, once for each reply it sends to call `i` that satisfies `Q`. -/
def answers (i : ℕ) (Q : μ → Bool) : Event α μ ρ → List α
  | served j a _ replies => if j = i then List.replicate (replies.countP Q) a else []
  | _ => []

end Event

theorem filterMap_concat {β γ : Type} (f : β → Option γ) (as : List β) (a : β) :
    (as ++ [a]).filterMap f = as.filterMap f ++ (f a).toList := by
  rw [List.filterMap_append,List.filterMap_cons,List.filterMap_nil]
  cases f a <;> rfl

theorem exists_last_of_filterMap {β γ : Type} {f : β → Option γ} {as : List β} {c : γ}
    (h : (as.filterMap f).getLast? = some c) :
    ∃ before b after, as = before ++ b::after ∧ f b = some c ∧ ∀ b' ∈ after, f b' = none := by
  induction as using List.reverseRecOn with
  | nil => exact absurd h nofun
  | append_singleton as b ih =>
    rw [filterMap_concat,List.getLast?_append] at h
    cases hb : f b with
    | none =>
      rw [hb] at h
      obtain ⟨before,b',after,rfl,hb',hafter⟩ := ih h
      refine ⟨before,b',after ++ [b],by simp,hb',fun x hx => ?_⟩
      rcases List.mem_append.mp hx with hx | hx
      · exact hafter x hx
      · rw [List.mem_singleton.mp hx,hb]
    | some c' =>
      rw [hb] at h
      exact ⟨as,b,[],rfl,hb.trans h,nofun⟩

/-- Each message among the inputs of a call was received from a server. -/
theorem mem_inputs {es : List (Event α μ ρ)} {i : ℕ} {m : μ}
    (hm : some m ∈ (es.filterMap (Event.action? i)).filterMap Action.input?) : ∃ a, .received i a m ∈ es := by
  obtain ⟨act,hmem,hinput⟩ := List.mem_filterMap.mp hm
  obtain ⟨e,he,haction⟩ := List.mem_filterMap.mp hmem
  cases e with
  | received j a m' =>
    rw [Event.action?,Option.ite_none_right_eq_some] at haction
    obtain ⟨rfl,hact⟩ := haction
    obtain rfl := Option.some.inj hact
    obtain rfl := Option.some.inj (Option.some.inj hinput)
    exact ⟨a,he⟩
  | sent j a m' | refused j a m' | timedOut j =>
    rw [Event.action?,Option.ite_none_right_eq_some] at haction
    obtain ⟨-,hact⟩ := haction
    obtain rfl := Option.some.inj hact
    exact absurd hinput nofun
  | _ => exact absurd haction nofun

def replyPackets (i : ℕ) (a : α) (replies : List μ) : Multiset (Packet α μ) :=
  Multiset.ofList (replies.map fun r => ⟨i,a,true,r⟩)

theorem replyPackets_singleton_add (i : ℕ) (a : α) (r : μ) (net : Multiset (Packet α μ)) :
    replyPackets i a [r] + net = ⟨i,a,true,r⟩ ::ₘ net :=
  Multiset.singleton_add _ _

variable [DecidableEq α]

inductive Step (sys : System α σ μ ρ) : World α σ μ ρ → Event α μ ρ → World α σ μ ρ → Prop
  | send {w : World α σ μ ρ} {a : α} {m : μ} {next : Prog α μ ρ} (hprog : w.prog = .send a m next)
      (hm : sys.sendable m) :
      Step sys w (.sent w.call a m) { w with net := ⟨w.call,a,false,m⟩ ::ₘ w.net, prog := next }
  | refuse {w : World α σ μ ρ} {a : α} {m : μ} {next : Prog α μ ρ} (hprog : w.prog = .send a m next)
      (hm : ¬sys.sendable m) : Step sys w (.refused w.call a m) { w with prog := next }
  | receive {w : World α σ μ ρ} {a : α} {m : μ} {next : Option μ → Prog α μ ρ}
      {net : Multiset (Packet α μ)} (hprog : w.prog = .recv next)
      (hnet : w.net = ⟨w.call,a,true,m⟩ ::ₘ net) :
      Step sys w (.received w.call a m) { w with net := net, prog := next (some m) }
  | timeOut {w : World α σ μ ρ} {next : Option μ → Prog α μ ρ} (hprog : w.prog = .recv next) :
      Step sys w (.timedOut w.call) { w with prog := next none }
  | serve {w : World α σ μ ρ} {i : ℕ} {a : α} {m : μ} {s : σ} {replies : List μ}
      {net : Multiset (Packet α μ)} (hnet : w.net = ⟨i,a,false,m⟩ ::ₘ net)
      (hs : sys.handle (w.servers a) m s replies) :
      Step sys w (.served i a m replies) { w with
        servers := Function.update w.servers a s
        net := replyPackets i a replies + net }
  | foreign {w : World α σ μ ρ} {a : α} {m : μ} {s : σ} {replies : List μ}
      (hs : sys.handle (w.servers a) m s replies) :
      Step sys w (.foreign a m) { w with servers := Function.update w.servers a s }
  | lose {w : World α σ μ ρ} {p : Packet α μ} {net : Multiset (Packet α μ)} (hnet : w.net = p ::ₘ net) :
      Step sys w (.lost p) { w with net := net }
  | duplicate {w : World α σ μ ρ} {p : Packet α μ} (hp : p ∈ w.net) :
      Step sys w (.duplicated p) { w with net := p ::ₘ w.net }
  | finish {w : World α σ μ ρ} {r : ρ} (hprog : w.prog = .ret r) :
      Step sys w (.returned w.call r) { w with call := w.call + 1, prog := sys.calls (w.call + 1) }

/-- The client at its first call, nothing in flight. -/
def System.start (sys : System α σ μ ρ) (servers : α → σ) : World α σ μ ρ :=
  ⟨servers,0,0,sys.calls 0⟩

/-- The runs from the start, with their events in order. -/
inductive Run (sys : System α σ μ ρ) (servers : α → σ) : List (Event α μ ρ) → World α σ μ ρ → Prop
  | start : Run sys servers [] (sys.start servers)
  | step {es : List (Event α μ ρ)} {w w' : World α σ μ ρ} {e : Event α μ ρ} (h : Run sys servers es w)
      (hs : Step sys w e w') : Run sys servers (es ++ [e]) w'

variable {sys : System α σ μ ρ} {servers : α → σ} {w w' : World α σ μ ρ} {e : Event α μ ρ}
  {es : List (Event α μ ρ)}

/-- What a step does to the client: an action of the current call, nothing, or the
change to the next call. -/
theorem step_client (h : Step sys w e w') :
    (∃ act, (∀ i, e.action? i = if w.call = i then some act else none) ∧ Exec w.prog [act] w'.prog ∧
      w'.call = w.call ∧ ∀ i r, e ≠ .returned i r) ∨
    ((∀ i, e.action? i = none) ∧ w'.prog = w.prog ∧ w'.call = w.call ∧ ∀ i r, e ≠ .returned i r) ∨
    ∃ r, e = .returned w.call r ∧ w.prog = .ret r ∧ w'.call = w.call + 1 ∧
      w'.prog = sys.calls (w.call + 1) := by
  cases h with
  | send hprog | refuse hprog =>
    refine Or.inl ⟨_,fun i => rfl,?_,rfl,nofun⟩
    rw [hprog]
    exact .sent (.nil _)
  | receive hprog =>
    refine Or.inl ⟨_,fun i => rfl,?_,rfl,nofun⟩
    rw [hprog]
    exact .received (.nil _)
  | timeOut hprog =>
    refine Or.inl ⟨_,fun i => rfl,?_,rfl,nofun⟩
    rw [hprog]
    exact .timedOut (.nil _)
  | serve | foreign | lose | duplicate => exact Or.inr (Or.inl ⟨fun i => rfl,rfl,rfl,nofun⟩)
  | finish hprog => exact Or.inr (Or.inr ⟨_,rfl,hprog,rfl,rfl⟩)

/-- A call that has not begun has taken no action. -/
theorem Run.later (h : Run sys servers es w) {i : ℕ} (hi : w.call < i) : es.filterMap (Event.action? i) = [] := by
  induction h with
  | start => rfl
  | step _ hs ih =>
    rw [filterMap_concat]
    rcases step_client hs with ⟨act,hact,-,hcall,-⟩ | ⟨hact,-,hcall,-⟩ | ⟨r,rfl,-,hcall,-⟩
    · rw [hcall] at hi
      rw [ih hi,hact,if_neg (Nat.ne_of_lt hi)]
      rfl
    · rw [ih (hcall ▸ hi),hact]
      rfl
    · rw [hcall] at hi
      rw [ih (Nat.lt_of_succ_lt hi)]
      rfl

/-- A packet in flight was there before, was just sent or is a reply just given. -/
theorem mem_net_of_step (h : Step sys w e w') {p : Packet α μ} (hp : p ∈ w'.net) :
    p ∈ w.net ∨ (p.isReply = false ∧ e = .sent p.sock p.addr p.msg) ∨
      p.isReply = true ∧ ∃ m rs, e = .served p.sock p.addr m rs ∧ p.msg ∈ rs := by
  cases h with
  | send =>
    rcases Multiset.mem_cons.mp hp with rfl | hp
    · exact Or.inr (Or.inl ⟨rfl,rfl⟩)
    · exact Or.inl hp
  | refuse | timeOut | foreign | finish => exact Or.inl hp
  | receive _ hnet | lose hnet =>
    rw [hnet]
    exact Or.inl (Multiset.mem_cons_of_mem hp)
  | serve hnet =>
    rcases Multiset.mem_add.mp hp with hp | hp
    · obtain ⟨r,hr,rfl⟩ := List.mem_map.mp (Multiset.mem_coe.mp hp)
      exact Or.inr (Or.inr ⟨rfl,_,_,rfl,hr⟩)
    · rw [hnet]
      exact Or.inl (Multiset.mem_cons_of_mem hp)
  | duplicate hmem =>
    rcases Multiset.mem_cons.mp hp with rfl | hp
    · exact Or.inl hmem
    · exact Or.inl hp

private theorem mem_net_of_served {i : ℕ} {a : α} {m : μ} {rs : List μ} (h : Step sys w (.served i a m rs) w') :
    ⟨i,a,false,m⟩ ∈ w.net := by
  cases h with
  | serve hnet =>
    rw [hnet]
    exact Multiset.mem_cons_self _ _

private theorem mem_net_of_received {i : ℕ} {a : α} {m : μ} (h : Step sys w (.received i a m) w') :
    ⟨i,a,true,m⟩ ∈ w.net := by
  cases h with
  | receive _ hnet =>
    rw [hnet]
    exact Multiset.mem_cons_self _ _

/-- Packets and receptions have their causes in the past: nothing is made up. -/
structure NetInvariant (es : List (Event α μ ρ)) (w : World α σ μ ρ) : Prop where
  request : ∀ p ∈ w.net, p.isReply = false → .sent p.sock p.addr p.msg ∈ es
  reply : ∀ p ∈ w.net, p.isReply = true → ∃ m rs, .served p.sock p.addr m rs ∈ es ∧ p.msg ∈ rs
  served : ∀ i a m rs, .served i a m rs ∈ es → .sent i a m ∈ es
  received : ∀ i a m, .received i a m ∈ es → ∃ m' rs, .served i a m' rs ∈ es ∧ m ∈ rs

theorem NetInvariant.step (h : NetInvariant es w) (hs : Step sys w e w') :
    NetInvariant (es ++ [e]) w' := by
  refine ⟨fun p hp hkind => ?_,fun p hp hkind => ?_,fun i a m rs he => ?_,fun i a m he => ?_⟩
  · rcases mem_net_of_step hs hp with hp | ⟨-,rfl⟩ | ⟨hreply,-⟩
    · exact List.mem_append_left _ (h.request p hp hkind)
    · exact List.mem_append_right _ (List.mem_singleton_self _)
    · exact absurd (hreply.symm.trans hkind) nofun
  · rcases mem_net_of_step hs hp with hp | ⟨hrequest,-⟩ | ⟨-,m,rs,rfl,hmem⟩
    · obtain ⟨m,rs,hserved,hmem⟩ := h.reply p hp hkind
      exact ⟨m,rs,List.mem_append_left _ hserved,hmem⟩
    · exact absurd (hrequest.symm.trans hkind) nofun
    · exact ⟨m,rs,List.mem_append_right _ (List.mem_singleton_self _),hmem⟩
  · rcases List.mem_append.mp he with he | he
    · exact List.mem_append_left _ (h.served i a m rs he)
    · obtain rfl := List.mem_singleton.mp he
      exact List.mem_append_left _ (h.request _ (mem_net_of_served hs) rfl)
  · rcases List.mem_append.mp he with he | he
    · obtain ⟨m',rs,hserved,hmem⟩ := h.received i a m he
      exact ⟨m',rs,List.mem_append_left _ hserved,hmem⟩
    · obtain rfl := List.mem_singleton.mp he
      obtain ⟨m',rs,hserved,hmem⟩ := h.reply _ (mem_net_of_received hs) rfl
      exact ⟨m',rs,List.mem_append_left _ hserved,hmem⟩

/-- What a step does to the servers: one of them handles a message, or nothing. -/
theorem step_servers (h : Step sys w e w') :
    (e.handled? = none ∧ w'.servers = w.servers) ∨
    ∃ a m s replies, e.handled? = some (a,m) ∧ sys.handle (w.servers a) m s replies ∧
      w'.servers = Function.update w.servers a s := by
  cases h with
  | send | refuse | receive | timeOut | lose | duplicate | finish => exact Or.inl ⟨rfl,rfl⟩
  | serve _ hs | foreign hs => exact Or.inr ⟨_,_,_,_,rfl,hs,rfl⟩

theorem handle_of_served {i : ℕ} {a : α} {m : μ} {rs : List μ} (h : Step sys w (.served i a m rs) w') :
    ∃ s, sys.handle (w.servers a) m s rs := by
  cases h with
  | serve _ hs => exact ⟨_,hs⟩

section
variable {tables : α → σ} {net : Multiset (Packet α μ)} {call : ℕ}

/-- A message to several servers can be sent in one go. -/
theorem Run.send_all {as : List α} {m : μ} {next : Prog α μ ρ}
    (h : Run sys servers es ⟨tables,net,call,.sendAll as m next⟩) (hm : sys.sendable m) :
    Run sys servers (es ++ as.map fun a => .sent call a m)
      ⟨tables,as.foldl (fun net a => ⟨call,a,false,m⟩ ::ₘ net) net,call,next⟩ := by
  induction as generalizing es net with
  | nil =>
    rw [List.map_nil,List.append_nil]
    exact h
  | cons a as ih =>
    have hrest := ih (h.step (.send rfl hm))
    rwa [List.append_assoc] at hrest

/-- Replies in flight can be received in any order. -/
theorem Run.receive_all {prog : Prog α μ ρ} (replies : List (α × μ))
    (h : Run sys servers es
      ⟨tables,Multiset.ofList (replies.map fun p => ⟨call,p.1,true,p.2⟩) + net,call,prog⟩)
    (hp : prog.Sends []) {r : ρ} (hrun : prog.run (replies.map fun p => some p.2) = some (r,[])) :
    Run sys servers (es ++ (replies.map fun p => .received call p.1 p.2) ++ [.returned call r])
      ⟨tables,net,call + 1,sys.calls (call + 1)⟩ := by
  induction replies generalizing es prog with
  | nil =>
    rw [List.map_nil,Multiset.coe_nil,Multiset.zero_add] at h
    rw [List.map_nil,List.append_nil]
    exact h.step (.finish (Prog.eq_ret_of_run hp hrun))
  | cons p replies ih =>
    obtain ⟨next,rfl⟩ := Prog.exists_recv_of_run hp hrun
    rw [List.map_cons,← Multiset.cons_coe,Multiset.cons_add] at h
    have hrest := ih (h.step (.receive rfl rfl)) (hp (some p.2)) hrun
    rwa [List.append_assoc es] at hrest

variable {prog : Prog α μ ρ}

theorem Run.duplicate_one {p : Packet α μ} (h : Run sys servers es ⟨tables,p ::ₘ net,call,prog⟩) :
    Run sys servers (es ++ [.duplicated p]) ⟨tables,p ::ₘ p ::ₘ net,call,prog⟩ :=
  h.step (.duplicate (Multiset.mem_cons_self p net))

theorem Run.serve_one {i : ℕ} {a : α} {m reply : μ} {s s' : σ}
    (h : Run sys servers es ⟨tables,⟨i,a,false,m⟩ ::ₘ net,call,prog⟩) (hs : tables a = s)
    (hhandle : sys.handle s m s' [reply]) :
    Run sys servers (es ++ [.served i a m [reply]])
      ⟨Function.update tables a s',⟨i,a,true,reply⟩ ::ₘ net,call,prog⟩ := by
  subst hs
  rw [← replyPackets_singleton_add]
  exact h.step (.serve rfl hhandle)

end

end PpsDht.DatagramNetworks
