import Mathlib.Data.List.Dedup
import Mathlib.Data.List.Induction
import PpsDht.ConcurrentNetworks

/-! # Counting packets on a datagram network

Packets are used up by being served or received, and come from sends, replies and
duplications only. So the servers behind the messages that a call received are as
many as the messages, less the duplications of packets of this call. -/
namespace PpsDht.DatagramNetworks
open SocketPrograms

variable {α σ μ ρ : Type}

/-- The servers that call `i` sent to, among those that it sent or tried to send to. -/
theorem sentTo_sublist (es : List (Event α μ ρ)) (i : ℕ) : (es.filterMap (Event.sentTo? i)).Sublist
    (((es.filterMap (Event.action? i)).filterMap Action.message?).map Prod.fst) := by
  induction es using List.reverseRecOn with
  | nil => exact .slnil
  | append_singleton es e ih =>
    have hlast : (e.sentTo? i).toList.Sublist
        (((e.action? i).toList.filterMap Action.message?).map Prod.fst) := by
      cases e with
      | sent j a m =>
        simp only [Event.sentTo?,Event.action?]
        split <;> exact .refl _
      | _ => exact List.nil_sublist _
    rw [filterMap_concat,filterMap_concat,List.filterMap_append,List.map_append]
    exact ih.append hlast

/-- As many servers sent the messages in `Q` as there are such inputs of the call. -/
theorem length_receivedFrom (es : List (Event α μ ρ)) (i : ℕ) (Q : μ → Bool) :
    (es.filterMap (Event.receivedFrom? i Q)).length =
      ((es.filterMap (Event.action? i)).filterMap Action.input?).countP fun input => input.any Q := by
  induction es using List.reverseRecOn with
  | nil => rfl
  | append_singleton es e ih =>
    have hlast : (e.receivedFrom? i Q).toList.length =
        ((e.action? i).toList.filterMap Action.input?).countP fun input => input.any Q := by
      cases e with
      | received j a m =>
        by_cases hj : j = i <;> by_cases hm : Q m <;>
          simp [Event.receivedFrom?,Event.action?,Action.input?,hj,hm]
      | sent j a m | refused j a m | timedOut j =>
        simp only [Event.receivedFrom?,Event.action?]
        split <;> rfl
      | _ => rfl
    rw [filterMap_concat,filterMap_concat,List.filterMap_append,List.length_append,List.countP_append,ih,hlast]

private theorem exists_served_of_mem_answers {es : List (Event α μ ρ)} {i : ℕ} {a : α} {Q : μ → Bool}
    (ha : a ∈ es.flatMap (Event.answers i Q)) : ∃ m rs r, .served i a m rs ∈ es ∧ r ∈ rs ∧ Q r := by
  obtain ⟨e,he,hmem⟩ := List.mem_flatMap.mp ha
  cases e with
  | served j b m rs =>
    rw [Event.answers,List.mem_ite_nil_right,List.mem_replicate] at hmem
    obtain ⟨rfl,hcount,rfl⟩ := hmem
    obtain ⟨r,hr,hQ⟩ := List.countP_pos_iff.mp (Nat.pos_of_ne_zero hcount)
    exact ⟨m,rs,r,he,hr,hQ⟩
  | _ => exact absurd hmem List.not_mem_nil

theorem exists_received_of_mem {es : List (Event α μ ρ)} {i : ℕ} {a : α} {Q : μ → Bool}
    (ha : a ∈ es.filterMap (Event.receivedFrom? i Q)) : ∃ m, .received i a m ∈ es ∧ Q m := by
  obtain ⟨e,he,hmem⟩ := List.mem_filterMap.mp ha
  cases e with
  | received j b m =>
    rw [Event.receivedFrom?,Option.ite_none_right_eq_some] at hmem
    obtain ⟨⟨rfl,hQ⟩,hb⟩ := hmem
    obtain rfl := Option.some.inj hb
    exact ⟨m,he,hQ⟩
  | _ => exact absurd hmem nofun

/-- How often a packet of call `i` was duplicated, request or reply. -/
def duplications (es : List (Event α μ ρ)) (i : ℕ) : ℕ :=
  (es.filterMap (Event.duplicatedFor? i false)).length + (es.filterMap (Event.duplicatedFor? i true)).length

private theorem filterMap_duplicatedFor {es : List (Event α μ ρ)} (hdup : ∀ p, .duplicated p ∉ es) (i : ℕ)
    (isReply : Bool) : es.filterMap (Event.duplicatedFor? i isReply) = [] := by
  refine List.filterMap_eq_nil_iff.mpr fun e he => ?_
  cases e with
  | duplicated p => exact absurd he (hdup p)
  | _ => rfl

theorem duplications_eq_zero {es : List (Event α μ ρ)} (hdup : ∀ p, .duplicated p ∉ es) (i : ℕ) :
    duplications es i = 0 := by
  rw [duplications,filterMap_duplicatedFor hdup,filterMap_duplicatedFor hdup]
  rfl

variable [DecidableEq α]

/-- The packets of call `i` and server `a` in flight, one way, with a message in `Q`. -/
def inFlight (net : Multiset (Packet α μ)) (i : ℕ) (a : α) (isReply : Bool) (Q : μ → Bool) : ℕ :=
  net.countP fun p => p.sock = i ∧ p.addr = a ∧ p.isReply = isReply ∧ Q p.msg

variable {net net' : Multiset (Packet α μ)} {i : ℕ} {a : α} {isReply : Bool} {Q : μ → Bool}

private theorem inFlight_cons (p : Packet α μ) : inFlight (p ::ₘ net) i a isReply Q =
    inFlight net i a isReply Q + if p.sock = i ∧ p.addr = a ∧ p.isReply = isReply ∧ Q p.msg then 1 else 0 :=
  Multiset.countP_cons _ _ _

private theorem inFlight_add : inFlight (net + net') i a isReply Q =
    inFlight net i a isReply Q + inFlight net' i a isReply Q :=
  Multiset.countP_add _ _ _

private theorem inFlight_replyPackets_false (j : ℕ) (b : α) (replies : List μ) :
    inFlight (replyPackets j b replies) i a false Q = 0 := by
  refine Multiset.countP_eq_zero.mpr fun p hp h => ?_
  obtain ⟨r,-,rfl⟩ := List.mem_map.mp (Multiset.mem_coe.mp hp)
  exact absurd h.2.2.1 nofun

private theorem inFlight_replyPackets (j : ℕ) (b : α) (m : μ) (replies : List μ) :
    inFlight (replyPackets j b replies) i a true Q =
      (Event.answers i Q (.served j b m replies : Event α μ ρ)).count a := by
  rw [inFlight,replyPackets,Multiset.coe_countP,List.countP_map,Event.answers]
  split
  · rename_i hj
    rw [List.count_replicate]
    split
    · rename_i hb
      simp [Function.comp_def,hj,eq_of_beq hb]
    · rename_i hb
      simpa [Function.comp_def] using fun _ _ _ hab => absurd hab (by simpa using hb)
  · rename_i hj
    simp [Function.comp_def,hj]

variable {sys : System α σ μ ρ} {servers : α → σ} {w w' : World α σ μ ρ} {e : Event α μ ρ}
  {es : List (Event α μ ρ)}

/-- A request is served out of the packets in flight. -/
theorem requests_step (h : Step sys w e w') (i : ℕ) (a : α) :
    inFlight w'.net i a false (fun _ => true) + (e.servedBy? i).toList.count a ≤
      inFlight w.net i a false (fun _ => true) + (e.sentTo? i).toList.count a +
        (e.duplicatedFor? i false).toList.count a := by
  cases h with
  | send hprog hm =>
    simp only [inFlight_cons,Event.sentTo?,Event.servedBy?,Event.duplicatedFor?]
    by_cases hi : w.call = i <;> simp [hi,List.count_cons]
  | refuse | timeOut | foreign | finish => simp [Event.sentTo?,Event.servedBy?,Event.duplicatedFor?]
  | receive hprog hnet =>
    rw [hnet,inFlight_cons]
    simp [Event.sentTo?,Event.servedBy?,Event.duplicatedFor?]
  | serve hnet hs =>
    rename_i j b m s replies net
    rw [hnet,inFlight_cons,inFlight_add,inFlight_replyPackets_false]
    by_cases hi : j = i <;>
      simp [hi,Event.sentTo?,Event.servedBy?,Event.duplicatedFor?,List.count_cons]
  | lose hnet =>
    rw [hnet,inFlight_cons]
    simp [Event.sentTo?,Event.servedBy?,Event.duplicatedFor?]
  | duplicate hp =>
    rename_i p
    simp only [inFlight_cons,Event.sentTo?,Event.servedBy?,Event.duplicatedFor?]
    by_cases hi : p.sock = i <;> by_cases hk : p.isReply <;> simp [hi,hk,List.count_cons]

/-- A reply is received out of the packets in flight. -/
theorem replies_step (h : Step sys w e w') (i : ℕ) (a : α) (Q : μ → Bool) :
    inFlight w'.net i a true Q + (e.receivedFrom? i Q).toList.count a ≤
      inFlight w.net i a true Q + (e.answers i Q).count a + (e.duplicatedFor? i true).toList.count a := by
  cases h with
  | send => simp [inFlight_cons,Event.answers,Event.receivedFrom?,Event.duplicatedFor?]
  | refuse | timeOut | foreign | finish => simp [Event.answers,Event.receivedFrom?,Event.duplicatedFor?]
  | receive hprog hnet =>
    rename_i b m next net
    rw [hnet,inFlight_cons]
    by_cases hi : w.call = i <;> by_cases hm : Q m <;>
      simp [hi,hm,Event.answers,Event.receivedFrom?,Event.duplicatedFor?,List.count_cons]
  | serve hnet hs =>
    rename_i j b m s replies net
    rw [hnet,inFlight_cons,inFlight_add,inFlight_replyPackets (ρ := ρ) j b m]
    simp [Event.receivedFrom?,Event.duplicatedFor?,Nat.add_comm]
  | lose hnet =>
    rw [hnet,inFlight_cons]
    simp [Event.answers,Event.receivedFrom?,Event.duplicatedFor?]
  | duplicate hp =>
    rename_i p
    simp only [inFlight_cons,Event.answers,Event.receivedFrom?,Event.duplicatedFor?]
    by_cases hi : p.sock = i <;> by_cases hk : p.isReply <;> by_cases hm : Q p.msg <;>
      simp [hi,hk,hm,List.count_cons]

variable {u : SharedWorld α σ μ ρ}

private theorem SharedRun.requests_le (h : SharedRun sys servers es u) (i : ℕ) (a : α) :
    inFlight u.net i a false (fun _ => true) + (es.filterMap (Event.servedBy? i)).count a ≤
      (es.filterMap (Event.sentTo? i)).count a + (es.filterMap (Event.duplicatedFor? i false)).count a := by
  induction h with
  | start => exact Nat.le_refl 0
  | step _ hs ih =>
    obtain ⟨j,w₁,hstep,-,hnet⟩ := hs.exists_step
    have hone := requests_step hstep i a
    rw [← hnet] at hone
    simp only [filterMap_concat,List.count_append]
    dsimp only [SharedWorld.focus] at hone
    omega

private theorem SharedRun.replies_le (h : SharedRun sys servers es u) (i : ℕ) (a : α) (Q : μ → Bool) :
    inFlight u.net i a true Q + (es.filterMap (Event.receivedFrom? i Q)).count a ≤
      (es.flatMap (Event.answers i Q)).count a + (es.filterMap (Event.duplicatedFor? i true)).count a := by
  induction h with
  | start => exact Nat.le_refl 0
  | step _ hs ih =>
    obtain ⟨j,w₁,hstep,-,hnet⟩ := hs.exists_step
    have hone := replies_step hstep i a Q
    rw [← hnet] at hone
    simp only [filterMap_concat,List.flatMap_append,List.flatMap_singleton,List.count_append]
    dsimp only [SharedWorld.focus] at hone
    omega

private theorem count_answers_le (hone : ∀ a m rs, .served i a m rs ∈ es → rs.countP Q ≤ 1) (a : α) :
    (es.flatMap (Event.answers i Q)).count a ≤ (es.filterMap (Event.servedBy? i)).count a := by
  induction es using List.reverseRecOn with
  | nil => exact Nat.le_refl 0
  | append_singleton es e ih =>
    have hbefore := ih fun a m rs h => hone a m rs (List.mem_append_left _ h)
    have hlast : (e.answers i Q).count a ≤ (e.servedBy? i).toList.count a := by
      cases e with
      | served j b m rs =>
        by_cases hj : j = i
        · have hrs := hone b m rs (by simp [hj])
          simp only [Event.answers,Event.servedBy?,if_pos hj,List.count_replicate,Option.toList_some,
            List.count_singleton]
          split <;> omega
        · simp [Event.answers,hj]
      | _ => exact Nat.zero_le _
    rw [filterMap_concat,List.flatMap_append,List.flatMap_singleton,List.count_append,List.count_append]
    exact Nat.add_le_add hbefore hlast

/-- A call that sends one request to each server, each answered once, receives more
than one message of a server, or one of a server that did not answer so, only by
duplications. -/
theorem SharedRun.received_le (h : SharedRun sys servers es u) (hsent : (es.filterMap (Event.sentTo? i)).Nodup)
    (hone : ∀ a m rs, .served i a m rs ∈ es → rs.countP Q ≤ 1) (a : α) :
    (es.filterMap (Event.receivedFrom? i Q)).count a ≤ (es.flatMap (Event.answers i Q)).dedup.count a +
      ((es.filterMap (Event.duplicatedFor? i false)).count a +
        (es.filterMap (Event.duplicatedFor? i true)).count a) := by
  have hrequests := h.requests_le i a
  have hreplies := h.replies_le i a Q
  have hanswers := count_answers_le hone a
  have hsent' := List.nodup_iff_count_le_one.mp hsent a
  rw [List.count_dedup]
  split
  · omega
  · rename_i hnot
    rw [List.count_eq_zero_of_not_mem hnot] at hreplies
    omega

private theorem SharedRun.length_received_le (h : SharedRun sys servers es u) (hsent : (es.filterMap (Event.sentTo? i)).Nodup)
    (hone : ∀ a m rs, .served i a m rs ∈ es → rs.countP Q ≤ 1) :
    (es.filterMap (Event.receivedFrom? i Q)).length ≤
      (es.flatMap (Event.answers i Q)).dedup.length + duplications es i := by
  have hsub : (es.filterMap (Event.receivedFrom? i Q)).Subperm ((es.flatMap (Event.answers i Q)).dedup ++
      (es.filterMap (Event.duplicatedFor? i false) ++ es.filterMap (Event.duplicatedFor? i true))) := by
    refine List.subperm_iff_count.mpr fun a => ?_
    rw [List.count_append,List.count_append]
    exact h.received_le hsent hone a
  have hlen := hsub.length_le
  rwa [List.length_append,List.length_append] at hlen

/-- With nothing duplicated no server is received from twice. -/
theorem SharedRun.nodup_received (h : SharedRun sys servers es u) (hsent : (es.filterMap (Event.sentTo? i)).Nodup)
    (hone : ∀ a m rs, .served i a m rs ∈ es → rs.countP Q ≤ 1) (hdup : ∀ p, .duplicated p ∉ es) :
    (es.filterMap (Event.receivedFrom? i Q)).Nodup := by
  refine List.nodup_iff_count_le_one.mpr fun a => ?_
  have hle := h.received_le hsent hone a
  rw [filterMap_duplicatedFor hdup,filterMap_duplicatedFor hdup] at hle
  exact hle.trans (List.nodup_iff_count_le_one.mp (List.nodup_dedup _) a)

variable {as : List α} {m : μ}

/-- A call that sends the same message to distinct servers sends each at most one. -/
theorem SharedRun.nodup_sentTo (h : SharedRun sys servers es u) (has : as.Nodup)
    (hp : (sys.calls i).Sends (as.map fun a => (a,m))) : (es.filterMap (Event.sentTo? i)).Nodup := by
  have hprefix := (h.sends hp).map Prod.fst
  rw [List.map_map,show Prod.fst ∘ (fun a : α => (a,m)) = id from rfl,List.map_id] at hprefix
  exact has.sublist ((sentTo_sublist es i).trans hprefix.sublist)

theorem SharedRun.mem_of_served (h : SharedRun sys servers es u) (hp : (sys.calls i).Sends (as.map fun a => (a,m)))
    {m' : μ} {rs : List μ} (hserved : .served i a m' rs ∈ es) : a ∈ as ∧ m' = m := by
  have hmem : (a,m') ∈ (es.filterMap (Event.action? i)).filterMap Action.message? :=
    List.mem_filterMap.mpr ⟨.sent a m',List.mem_filterMap.mpr
      ⟨_,(h.netInvariant i).served _ _ _ _ hserved,if_pos rfl⟩,rfl⟩
  obtain ⟨b,hb,he⟩ := List.mem_map.mp ((h.sends hp).subset hmem)
  obtain ⟨rfl,rfl⟩ := Prod.mk.inj he
  exact ⟨hb,rfl⟩

/-- With nothing duplicated a server is served at most one message of a call. -/
theorem SharedRun.nodup_served (h : SharedRun sys servers es u) (hsent : (es.filterMap (Event.sentTo? i)).Nodup)
    (hdup : ∀ p, .duplicated p ∉ es) : (es.filterMap (Event.servedBy? i)).Nodup := by
  refine List.nodup_iff_count_le_one.mpr fun a => ?_
  have hle := h.requests_le i a
  have hone := List.nodup_iff_count_le_one.mp hsent a
  rw [filterMap_duplicatedFor hdup,List.count_nil] at hle
  omega

/-- Before a message of a call is served, none of this call was served there. -/
theorem SharedRun.served_once (h : SharedRun sys servers es u) (hsent : (es.filterMap (Event.sentTo? i)).Nodup)
    (hdup : ∀ p, .duplicated p ∉ es) {before after : List (Event α μ ρ)} {rs : List μ}
    (hes : es = before ++ .served i a m rs::after) {m' : μ} {rs' : List μ} : .served i a m' rs' ∉ before := by
  intro hserved
  have hnodup := h.nodup_served hsent hdup
  rw [hes,List.filterMap_append] at hnodup
  refine (List.nodup_append'.mp hnodup).2.2 (List.mem_filterMap.mpr ⟨_,hserved,if_pos rfl⟩) ?_
  exact List.mem_filterMap.mpr ⟨_,List.mem_cons_self,if_pos rfl⟩

/-- Behind the messages that a call received there are as many distinct servers, less
the duplications. -/
theorem SharedRun.exists_answered (h : SharedRun sys servers es u) (has : as.Nodup)
    (hp : (sys.calls i).Sends (as.map fun a => (a,m)))
    (hone : ∀ a m rs, .served i a m rs ∈ es → rs.countP Q ≤ 1) :
    ∃ S : List α, S.Nodup ∧ S ⊆ as ∧
      (es.filterMap (Event.receivedFrom? i Q)).length ≤ S.length + duplications es i ∧
      ∀ a ∈ S, ∃ rs r, .served i a m rs ∈ es ∧ r ∈ rs ∧ Q r := by
  have hserved : ∀ a ∈ (es.flatMap (Event.answers i Q)).dedup,
      a ∈ as ∧ ∃ rs r, .served i a m rs ∈ es ∧ r ∈ rs ∧ Q r := fun a ha => by
    obtain ⟨m',rs,r,hmem,hr,hQ⟩ := exists_served_of_mem_answers (List.mem_dedup.mp ha)
    obtain ⟨ha',rfl⟩ := h.mem_of_served hp hmem
    exact ⟨ha',rs,r,hmem,hr,hQ⟩
  exact ⟨_,List.nodup_dedup _,fun a ha => (hserved a ha).1,
    h.length_received_le (h.nodup_sentTo has hp) hone,fun a ha => (hserved a ha).2⟩

end PpsDht.DatagramNetworks
