import PpsDht.ConcurrentCalls

/-! # How old a value a get can return

Clients put and get the same key at the same time. A get that starts after an acknowledged
put asks one of the servers that executed the put, as long as the quorums of the two calls
meet. It does not return a value that all its servers had stored before that put. -/
namespace PpsDht
open Mem Net SocketPrograms DatagramNetworks

section Freshness

variable {sha1 : Bytes → Digest} {clients : ℕ → Client} {calls : ℕ → Operation} {servers : SockAddr → Htable}
  {es : List (Event SockAddr Datagram Outcome)} {w : SharedWorld SockAddr Htable Datagram Outcome} {i j : ℕ}
  {a : SockAddr} {d : Datagram} {rs : List Datagram} {k v : CString} {out : Outcome}

/-- What a call received before it returned was served before. -/
theorem served_before (hrun : SharedRun (sharedDht sha1 clients calls) servers es w)
    {before after : List (Event SockAddr Datagram Outcome)} (hes : es = before ++ .returned i out::after)
    (hd : .received i a d ∈ es) : ∃ m rs, .served i a m rs ∈ before := by
  have hbefore := hrun.received_before hes hd
  obtain ⟨w₁,hrun₁⟩ := hrun.take hes
  obtain ⟨m,rs,hserved,-⟩ := (hrun₁.netInvariant i).received i a d hbefore
  exact ⟨m,rs,hserved⟩

/-- All these servers have executed the message of call `l`, and acknowledged it, before call
`i` takes its first action. -/
def SettledBefore {ρ : Type} (as : List SockAddr) (es : List (Event SockAddr Datagram ρ)) (l i : ℕ) : Prop :=
  ∃ before after, es = before ++ after ∧ before.filterMap (Event.action? i) = [] ∧
    ∀ a ∈ as, ∃ d rs, .served l a d rs ∈ before

/-- A put executed by a server after call `i`, or call `i` itself, is not settled before. -/
theorem not_settledBefore {l : ℕ} (h : (clients l).Ready)
    (hrun : SharedRun (sharedDht sha1 clients calls) servers es w) (hcall : calls l = .put k v)
    (hdup : ∀ p, .duplicated p ∉ es)
    {early late : List (Event SockAddr Datagram Outcome)} (hes : es = early ++ .served l a d rs::late)
    (hafter : l = i ∨ ∃ q rs, .served i a q rs ∈ early) : ¬SettledBefore ((clients l).servers sha1 k) es l i := by
  rintro ⟨old,new,hold,hnone,hall⟩
  have ha := (mem_servers_of_served h hrun (hes ▸ List.mem_append_right _ List.mem_cons_self)).1
  rw [hcall] at ha
  obtain ⟨d',rs',hdone⟩ := hall a ha
  obtain ⟨w₁,hrun₁⟩ := hrun.take hold
  rcases hafter with rfl | ⟨q,qs,hexec⟩
  · exact hrun₁.not_served hnone hdone
  · obtain ⟨early₁,early₂,rfl⟩ := List.append_of_mem hexec
    have hes₁ := hes.trans (List.append_assoc _ _ _)
    have hbefore := prefix_of_not_mem (hold.symm.trans hes₁) (hrun₁.not_served hnone)
    have hsent := hrun.nodup_sentTo ((clients l).nodup_servers sha1 _) (Operation.sends h sha1 (calls l))
    exact hrun.served_once hsent hdup hes (List.mem_append_left _ (hbefore.subset hdone))

/-- Where an acknowledged put meets a later get, the get is answered with the value of a put that
was sent, one that was not settled before. -/
theorem answer_after_put (hN : ∀ i, 0 < (clients i).args.N)
    (hrun : SharedRun (sharedDht sha1 clients calls) servers es w)
    {seen more : List (Event SockAddr Datagram Outcome)} (hseen : es = seen ++ more)
    (hreach : ∀ a, ReachableTable (servers a)) (hput : calls i = .put k v) (hget : calls j = .get k)
    (hk : k ≠ .empty) (hdup : ∀ p, .duplicated p ∉ es) (hprecedes : Precedes es i out j)
    (hacked : .received i a d ∈ es) {v' : CString} (hvote : .received j a v'.chars ∈ seen) :
    (∃ d, .foreign a d ∈ seen ∧ dispatch d = some (.put k v')) ∨
      ∃ l, calls l = .put k v' ∧ (∃ d, .sent l a d ∈ seen) ∧ ¬SettledBefore ((clients l).servers sha1 k) es l i := by
  obtain ⟨w₀,hrun₀⟩ := hrun.take hseen
  obtain ⟨q,rs,hserved₀,hmem⟩ := (hrun₀.netInvariant j).received j a _ hvote
  have hserved : .served j a q rs ∈ es := hseen ▸ List.mem_append_left _ hserved₀
  obtain ⟨before,after,hseen₀⟩ := List.append_of_mem hserved₀
  have hes : es = before ++ .served j a q rs::(after ++ more) := by rw [hseen,hseen₀,List.append_assoc,List.cons_append]
  obtain ⟨m,m₀,-,rfl,hlookup⟩ := answer_of_get (ready_of_served (hN j) hrun hserved) hrun hreach hget hk hes
  have hvalue : m.lookup k = some v' := getReply_eq_chars.mp (List.mem_singleton.mp hmem).symm
  -- the put was executed here before
  obtain ⟨first,rest,hfirst,hnone⟩ := hprecedes
  obtain ⟨q',rs',hexec⟩ := served_before hrun hfirst hacked
  have hexec' : .served i a q' rs' ∈ es := hfirst ▸ List.mem_append_left _ hexec
  obtain ⟨w₁,hrun₁⟩ := hrun.take hfirst
  have hearlier : first <+: before :=
    prefix_of_not_mem (hfirst.symm.trans hes) (hrun₁.not_served hnone)
  have hbound := (put_of_served (ready_of_served (hN i) hrun hexec') hrun hreach hput (Or.inl hk) hexec').2
  obtain ⟨u,hlast⟩ := Option.ne_none_iff_exists'.mp (lastPut_ne_none (hearlier.subset hexec) hbound)
  rw [hvalue,hlast,Option.some_or] at hlookup
  obtain rfl := Option.some.inj hlookup
  obtain ⟨early,e,late,d',rfl,hhandled,hdis,hlate⟩ := exists_put_of_lastPut hlast
  have he₀ : e ∈ seen := hseen₀ ▸ List.mem_append_left _ (List.mem_append_right _ List.mem_cons_self)
  have he : e ∈ es := hseen ▸ List.mem_append_left _ he₀
  cases e with
  | foreign b d'' =>
    obtain ⟨rfl,rfl⟩ := Prod.mk.inj (Option.some.inj hhandled)
    exact Or.inl ⟨d'',he₀,hdis⟩
  | served l b d'' rs'' =>
    obtain ⟨rfl,rfl⟩ := Prod.mk.inj (Option.some.inj hhandled)
    have h := ready_of_served (hN l) hrun he
    obtain ⟨-,hmsg⟩ := mem_servers_of_served h hrun he
    obtain ⟨before',after',hes'⟩ := List.append_of_mem he
    have hlen := (answer_of_split hrun hreach hes').1
    rw [hmsg] at hlen hdis
    have hcall := Operation.eq_put hlen ((dispatch_iff hlen _).mp hdis)
    have hsent := (hrun₀.netInvariant l).served l b _ _ he₀
    refine Or.inr ⟨l,hcall,⟨_,hsent⟩,not_settledBefore h hrun hcall hdup (hes.trans (List.append_assoc _ _ _)) ?_⟩
    rcases List.mem_append.mp (hearlier.subset hexec) with hearly | hmem'
    · exact Or.inr ⟨_,_,hearly⟩
    · rcases List.mem_cons.mp hmem' with heq | hlate'
      · exact Or.inl (Event.served.inj heq).1.symm
      · exact absurd (hbound.symm.trans (hlate _ hlate')) nofun
  | _ => cases hhandled

/-- A get without error that starts after an acknowledged put, where the two quorums meet. -/
theorem value_after_put {acked : Outcome} (hN : ∀ i, 0 < (clients i).args.N) (hvotes : (clients j).args.N ≤ 127)
    (hmeet : ((clients i).servers sha1 k ∪ (clients j).servers sha1 k).length <
      (clients i).args.W + (clients j).args.R)
    (hreach : ∀ a, ReachableTable (servers a)) (hrun : SharedRun (sharedDht sha1 clients calls) servers es w)
    (hput : calls i = .put k v) (hget : calls j = .get k) (hk : k ≠ .empty)
    (hdup : ∀ p, .duplicated p ∉ es) (hcode : acked.code = .errNone) (hprecedes : Precedes es i acked j)
    {seen after : List (Event SockAddr Datagram Outcome)} (hreturned : es = seen ++ .returned j out::after)
    (hout : out.code = .errNone) :
    ∃ v', out.value = some v' ∧ ((∃ a d, .foreign a d ∈ seen ∧ dispatch d = some (.put k v')) ∨
      ∃ l, calls l = .put k v' ∧ (∃ a d, .sent l a d ∈ seen) ∧
        ¬SettledBefore ((clients l).servers sha1 k) es l i) := by
  have hret : .returned j out ∈ es := hreturned ▸ List.mem_append_right _ List.mem_cons_self
  obtain ⟨A,hA,hAs,hacks,hacked⟩ := exists_acked (ready_of_returned (hN i) hrun hprecedes.returned hcode) hrun
    hreach hput hk hdup hprecedes.returned hcode
  obtain ⟨v',hv',B,hB,hBs,hvoters,hvoted⟩ := exists_voters (ready_of_returned (hN j) hrun hret hout) hvotes hrun
    hreach hget hdup hret hout
  obtain ⟨a,ha,hb⟩ := FirstOccurrences.exists_common hA hB (fun a ha => List.mem_union_iff.mpr (Or.inl (hAs ha)))
    (fun a ha => List.mem_union_iff.mpr (Or.inr (hBs ha))) (by omega)
  obtain ⟨d,hd⟩ := hacked a ha
  refine ⟨v',hv',?_⟩
  rcases answer_after_put hN hrun hreturned hreach hput hget hk hdup hprecedes hd
    (hrun.received_before hreturned (hvoted a hb)) with ⟨d,hd⟩ | ⟨l,hcall,⟨d,hsent⟩,hsettled⟩
  · exact Or.inl ⟨a,d,hd⟩
  · exact Or.inr ⟨l,hcall,⟨a,d,hsent⟩,hsettled⟩

/-- Any number of clients put and get at the same time, packets may be lost and reordered but
are not duplicated. A get that starts after an acknowledged put of its key, where the two
quorums must meet, fails or returns the value of a put that was sent before the get returned
and had not been executed and acknowledged by all its servers before the acknowledged put
started. -/
theorem get_fresh (sha1 : Bytes → Digest) (clients : ℕ → Client) (calls : ℕ → Operation)
    (servers : SockAddr → Htable) (es : List (Event SockAddr Datagram Outcome))
    (w : SharedWorld SockAddr Htable Datagram Outcome) (i j : ℕ) (k v : CString) (acked out : Outcome)
    (seen after : List (Event SockAddr Datagram Outcome))
    (hN : ∀ i, 0 < (clients i).args.N) (hvotes : (clients j).args.N ≤ 127)
    (hmeet : ((clients i).servers sha1 k ∪ (clients j).servers sha1 k).length <
      (clients i).args.W + (clients j).args.R)
    (hreach : ∀ a, ReachableTable (servers a)) (hrun : SharedRun (sharedDht sha1 clients calls) servers es w)
    (hput : calls i = .put k v) (hget : calls j = .get k) (hk : k ≠ .empty)
    (hdup : ∀ p, .duplicated p ∉ es) (hcode : acked.code = .errNone) (hprecedes : Precedes es i acked j)
    (hreturned : es = seen ++ .returned j out::after) (hout : out.code = .errNone) :
    ∃ v', out.value = some v' ∧ ((∃ a d, .foreign a d ∈ seen ∧ dispatch d = some (.put k v')) ∨
      ∃ l, calls l = .put k v' ∧ (∃ a d, .sent l a d ∈ seen) ∧
        ¬SettledBefore ((clients l).servers sha1 k) es l i) :=
  value_after_put hN hvotes hmeet hreach hrun hput hget hk hdup hcode hprecedes hreturned hout

/-- The key of one letter is put to itself, then to another letter, and then looked up. -/
def putsThenGet : ℕ → Operation
  | 0 => .put .letterK .letterK
  | 1 => .put .letterK .letterV
  | _ => .get .letterK

/-- Both servers execute the first put before the second one starts, which is over when server
`b` has acknowledged it. -/
def settledPut (a b : SockAddr) : List (Event SockAddr Datagram Outcome) :=
  [.sent 0 a [107,0,107],.sent 0 b [107,0,107],.served 0 b [107,0,107] [[]],.served 0 a [107,0,107] [[]],
    .received 0 a [],.returned 0 ⟨.errNone,none⟩,.sent 1 a [107,0,118],.sent 1 b [107,0,118],
    .served 1 b [107,0,118] [[]],.received 1 b [],.returned 1 ⟨.errNone,none⟩,.served 1 a [107,0,118] [[]],
    .sent 2 a [107],.sent 2 b [107],.served 2 b [107] [[118]],.served 2 a [107] [[118]],.received 2 a [118],
    .received 2 b [118],.returned 2 ⟨.errNone,some .letterV⟩]

private theorem exists_run_settledPut :
    ∃ (a b : SockAddr) (w : World SockAddr Htable Datagram Outcome),
      (localClient 2 2 1).servers (fun _ => .zero) .letterK = [a,b] ∧
      Run (localNetwork 2 2 1 putsThenGet) initialTables (settledPut a b) w := by
  have hready := localClient_ready 2 1 (show 0 < 2 by decide) (by decide)
  obtain ⟨a,b,hne,hab⟩ := localClient_servers_two 2 1 (fun _ => .zero) .letterK
  have hstart : Run (localNetwork 2 2 1 putsThenGet) initialTables [] _ := .start
  rw [System.start,calls_put hready rfl (by decide) (by decide) hab] at hstart
  have hsent : Run (localNetwork 2 2 1 putsThenGet) _ _
      ⟨_,⟨0,b,false,[107,0,107]⟩ ::ₘ ⟨0,a,false,[107,0,107]⟩ ::ₘ 0,0,_⟩ :=
    hstart.send_all (show [107,0,107].length ≤ maxMsgSize by decide)
  have hfirst := hsent.serve_one rfl (handle_put .initial .letterK .letterK (Or.inl (by decide)) (by decide))
  rw [Multiset.cons_swap] at hfirst
  have hboth := hfirst.serve_one (Function.update_of_ne hne.symm _ _)
    (handle_put .initial .letterK .letterK (Or.inl (by decide)) (by decide))
  have hreturned : Run (localNetwork 2 2 1 putsThenGet) _ _ ⟨_,⟨0,b,true,[]⟩ ::ₘ 0,1,_⟩ :=
    hboth.receive_all [(a,[])] ((putRecvLoop_sends 1 2 0 []).bind_ret _) rfl
  rw [calls_put hready rfl (by decide) (by decide) hab] at hreturned
  have hsent' : Run (localNetwork 2 2 1 putsThenGet) _ _
      ⟨_,⟨1,b,false,[107,0,118]⟩ ::ₘ ⟨1,a,false,[107,0,118]⟩ ::ₘ ⟨0,b,true,[]⟩ ::ₘ 0,1,_⟩ :=
    hreturned.send_all (show [107,0,118].length ≤ maxMsgSize by decide)
  have hserved := hsent'.serve_one ((Function.update_of_ne hne _ _).trans (Function.update_self _ _ _))
    (handle_put _ .letterK .letterV (Or.inl (by decide)) (by decide))
  have hacked : Run (localNetwork 2 2 1 putsThenGet) _ _
      ⟨_,⟨1,a,false,[107,0,118]⟩ ::ₘ ⟨0,b,true,[]⟩ ::ₘ 0,2,_⟩ :=
    hserved.receive_all [(b,[])] ((putRecvLoop_sends 1 2 0 []).bind_ret _) rfl
  have hlate := hacked.serve_one ((Function.update_of_ne hne.symm _ _).trans (Function.update_self _ _ _))
    (handle_put _ .letterK .letterV (Or.inl (by decide)) (by decide))
  rw [calls_get hready rfl (by decide) hab] at hlate
  have hasked : Run (localNetwork 2 2 1 putsThenGet) _ _
      ⟨_,⟨2,b,false,[107]⟩ ::ₘ ⟨2,a,false,[107]⟩ ::ₘ ⟨1,a,true,[]⟩ ::ₘ ⟨0,b,true,[]⟩ ::ₘ 0,2,_⟩ :=
    hlate.send_all (show [107].length ≤ maxMsgSize by decide)
  have hvote := hasked.serve_one ((Function.update_of_ne hne _ _).trans (Function.update_self _ _ _))
    (handle_get (ChainedMap.lookup_add_self _ _ _) (by decide) (by decide))
  rw [Multiset.cons_swap] at hvote
  have hvote' := hvote.serve_one ((Function.update_of_ne hne.symm _ _).trans (Function.update_self _ _ _))
    (handle_get (ChainedMap.lookup_add_self _ _ _) (by decide) (by decide))
  have hvotes := run_get_equal (R := 2) (n := 2) (v := .letterV) hready.positive.ne' (by decide) (by decide)
    (by decide) (by decide)
  have hfound : Run (localNetwork 2 2 1 putsThenGet) _ _ ⟨_,⟨1,a,true,[]⟩ ::ₘ ⟨0,b,true,[]⟩ ::ₘ 0,3,_⟩ :=
    hvote'.receive_all [(a,[118]),(b,[118])] ((getRecvLoop_sends 2 2 _ []).bind_ret _) hvotes
  exact ⟨a,b,_,hab,hfound⟩

/-- The value of the first put, which is settled, is not among those that can be returned. -/
theorem get_fresh_settled :
    ∃ (a b : SockAddr) (w : SharedWorld SockAddr Htable Datagram Outcome),
      SharedRun (sharedDht (fun _ => .zero) (fun _ => localClient 2 2 1) putsThenGet) initialTables (settledPut a b) w ∧
      SettledBefore ((localClient 2 2 1).servers (fun _ => .zero) .letterK) (settledPut a b) 0 1 ∧
      ∃ v, some CString.letterV = some v ∧
        ((∃ x d, .foreign x d ∈ (settledPut a b).take 18 ∧ dispatch d = some (.put .letterK v)) ∨
          ∃ l, putsThenGet l = .put .letterK v ∧ (∃ x d, .sent l x d ∈ (settledPut a b).take 18) ∧
            ¬SettledBefore ((localClient 2 2 1).servers (fun _ => .zero) .letterK) (settledPut a b) l 1) := by
  obtain ⟨a,b,w,hab,hrun⟩ := exists_run_settledPut
  have hready := localClient_ready 2 1 (show 0 < 2 by decide) (by decide)
  have hshared : SharedRun (sharedDht (fun _ => .zero) (fun _ => localClient 2 2 1) putsThenGet) initialTables
      (settledPut a b) (w.shared _) := hrun.shared
  have hmeet : ((localClient 2 2 1).servers (fun _ => .zero) .letterK ∪
      (localClient 2 2 1).servers (fun _ => .zero) .letterK).length < 1 + 2 := by
    rw [List.Subset.union_eq_right (List.Subset.refl _),hready.length_servers]
    decide
  have hsettled : SettledBefore ((localClient 2 2 1).servers (fun _ => .zero) .letterK) (settledPut a b) 0 1 := by
    refine ⟨(settledPut a b).take 6,(settledPut a b).drop 6,rfl,rfl,?_⟩
    rw [hab,List.forall_mem_cons,List.forall_mem_singleton]
    exact ⟨⟨[107,0,107],[[]],by simp [settledPut]⟩,⟨[107,0,107],[[]],by simp [settledPut]⟩⟩
  have hprecedes : Precedes (settledPut a b) 1 ⟨.errNone,none⟩ 2 :=
    ⟨(settledPut a b).take 10,(settledPut a b).drop 11,rfl,rfl⟩
  exact ⟨a,b,_,hshared,hsettled,get_fresh (fun _ => .zero) (fun _ => localClient 2 2 1) putsThenGet initialTables
    (settledPut a b) _ 1 2 .letterK .letterV ⟨.errNone,none⟩ ⟨.errNone,some .letterV⟩ ((settledPut a b).take 18) []
    (fun _ => hready.positive) (by decide) hmeet (fun _ => reachableTable_initial) hshared rfl rfl (by decide)
    (by simp [settledPut]) rfl hprecedes rfl rfl⟩

end Freshness

/-- Server `b` acknowledges the put, server `a` executes it only when the put is over. -/
def overlappingPut (a b : SockAddr) : List (Event SockAddr Datagram Outcome) :=
  [.sent 0 a [107,0,118],.sent 0 b [107,0,118],.served 0 b [107,0,118] [[]],.received 0 b [],
    .returned 0 ⟨.errNone,none⟩,.served 0 a [107,0,118] [[]],.sent 1 a [107],.sent 1 b [107],
    .served 1 b [107] [[118]],.served 1 a [107] [[118]],.received 1 a [118],.received 1 b [118],
    .returned 1 ⟨.errNone,some .letterV⟩]

theorem exists_run_overlappingPut :
    ∃ (a b : SockAddr) (w : World SockAddr Htable Datagram Outcome),
      Run (localNetwork 2 2 1 putThenGet) initialTables (overlappingPut a b) w := by
  have hready := localClient_ready 2 1 (show 0 < 2 by decide) (by decide)
  obtain ⟨a,b,hne,hab⟩ := localClient_servers_two 2 1 (fun _ => .zero) .letterK
  have hstart : Run (localNetwork 2 2 1 putThenGet) initialTables [] _ := .start
  rw [System.start,calls_put hready rfl (by decide) (by decide) hab] at hstart
  have hsent : Run (localNetwork 2 2 1 putThenGet) _ _
      ⟨_,⟨0,b,false,[107,0,118]⟩ ::ₘ ⟨0,a,false,[107,0,118]⟩ ::ₘ 0,0,_⟩ :=
    hstart.send_all (show [107,0,118].length ≤ maxMsgSize by decide)
  have hserved := hsent.serve_one rfl (handle_put .initial .letterK .letterV (Or.inl (by decide)) (by decide))
  have hreturned : Run (localNetwork 2 2 1 putThenGet) _ _ ⟨_,⟨0,a,false,[107,0,118]⟩ ::ₘ 0,1,_⟩ :=
    hserved.receive_all [(b,[])] ((putRecvLoop_sends 1 2 0 []).bind_ret _) rfl
  have hlate := hreturned.serve_one (Function.update_of_ne hne.symm _ _)
    (handle_put .initial .letterK .letterV (Or.inl (by decide)) (by decide))
  rw [calls_get hready rfl (by decide) hab] at hlate
  have hsent' : Run (localNetwork 2 2 1 putThenGet) _ _
      ⟨_,⟨1,b,false,[107]⟩ ::ₘ ⟨1,a,false,[107]⟩ ::ₘ ⟨0,a,true,[]⟩ ::ₘ 0,1,_⟩ :=
    hlate.send_all (show [107].length ≤ maxMsgSize by decide)
  have hfirst := hsent'.serve_one ((Function.update_of_ne hne _ _).trans (Function.update_self _ _ _))
    (handle_get (ChainedMap.lookup_add_self _ _ _) (by decide) (by decide))
  rw [Multiset.cons_swap] at hfirst
  have hsecond := hfirst.serve_one ((Function.update_of_ne hne.symm _ _).trans (Function.update_self _ _ _))
    (handle_get (ChainedMap.lookup_add_self _ _ _) (by decide) (by decide))
  have hvotes := run_get_equal (R := 2) (n := 2) (v := .letterV) hready.positive.ne' (by decide) (by decide)
    (by decide) (by decide)
  have hfound : Run (localNetwork 2 2 1 putThenGet) _ _ ⟨_,⟨0,a,true,[]⟩ ::ₘ 0,2,_⟩ :=
    hsecond.receive_all [(a,[118]),(b,[118])] ((getRecvLoop_sends 2 2 _ []).bind_ret _) hvotes
  exact ⟨a,b,_,hfound⟩

/-- With `N` at most 127 and less than `W + R`, and nothing duplicated, a get after a put
without error fails or returns the value of the put, in every order of the packets. -/
theorem networkGet_after_put (sha1 : Bytes → Digest) (client : Client) (calls : ℕ → Operation)
    (servers : SockAddr → Htable) (es : List (Event SockAddr Datagram Outcome))
    (w : World SockAddr Htable Datagram Outcome) (i j : ℕ) (k v : CString) (acked out : Outcome)
    (h : client.Ready) (hN : client.args.N ≤ 127) (hquorum : client.args.N < client.args.W + client.args.R)
    (hreach : ∀ a, ReachableTable (servers a)) (hrun : Run (dhtNetwork sha1 client calls) servers es w)
    (hij : i < j) (hput : calls i = .put k v) (hget : calls j = .get k) (hk : k ≠ .empty)
    (honly : ∀ l v', calls l = .put k v' → l = i)
    (hforeign : ∀ a d v', .foreign a d ∈ es → dispatch d ≠ some (.put k v'))
    (hdup : ∀ p, .duplicated p ∉ es) (hacked : .returned i acked ∈ es) (hcode : acked.code = .errNone)
    (hreturned : .returned j out ∈ es) :
    out = ⟨.errNone,some v⟩ ∨ out.code ≠ .errNone := by
  refine or_iff_not_imp_right.mpr fun hout => ?_
  rw [not_not] at hout
  have hshared : SharedRun (sharedDht sha1 (fun _ => client) calls) servers es (w.shared _) := hrun.shared
  have hmeet : (client.servers sha1 k ∪ client.servers sha1 k).length < client.args.W + client.args.R := by
    rw [List.Subset.union_eq_right (List.Subset.refl _),h.length_servers]
    exact hquorum
  obtain ⟨seen,after,hseen⟩ := List.append_of_mem hreturned
  have hmem : ∀ {e}, e ∈ seen → e ∈ es := fun he => hseen ▸ List.mem_append_left _ he
  obtain ⟨v',hv',hsource⟩ := value_after_put (fun _ => h.positive) hN hmeet hreach hshared hput hget hk hdup hcode
    (hrun.precedes hij hacked) hseen hout
  rcases hsource with ⟨a,d,hd,hdis⟩ | ⟨l,hcall,-,-⟩
  · exact absurd hdis (hforeign a d v' (hmem hd))
  · rw [honly l v' hcall,hput] at hcall
    obtain ⟨-,rfl⟩ := Operation.put.inj hcall
    cases out
    dsimp only at hout hv'
    rw [hout,hv']

theorem networkGet_after_put_overlapping :
    ∃ (a b : SockAddr) (w : World SockAddr Htable Datagram Outcome),
      Run (localNetwork 2 2 1 putThenGet) initialTables (overlappingPut a b) w ∧
      ((⟨.errNone,some .letterV⟩ : Outcome) = ⟨.errNone,some .letterV⟩ ∨
        (⟨.errNone,some .letterV⟩ : Outcome).code ≠ .errNone) := by
  obtain ⟨a,b,w,hrun⟩ := exists_run_overlappingPut
  have honly : ∀ l v', putThenGet l = .put .letterK v' → l = 0 := fun l v' hl => by
    cases l with
    | zero => rfl
    | succ l => exact absurd hl nofun
  exact ⟨a,b,w,hrun,networkGet_after_put (fun _ => .zero) (localClient 2 2 1) putThenGet
    initialTables (overlappingPut a b) w 0 1 .letterK .letterV ⟨.errNone,none⟩
    ⟨.errNone,some .letterV⟩ (localClient_ready 2 1 (by decide) (by decide)) (by decide) (by decide)
    (fun _ => reachableTable_initial) hrun (by decide) rfl rfl (by decide) honly
    (by simp [overlappingPut]) (by simp [overlappingPut]) (by simp [overlappingPut]) rfl
    (by simp [overlappingPut])⟩

end PpsDht
