import PpsDht.ConcurrentCalls

/-! # What an acknowledged put has done

A call counts messages, not servers. Behind a reached quorum there are as many
distinct servers as it needs, less the datagrams of this call that the network
duplicated. A server knows no order among puts but that of their arrival, so a late
datagram of an earlier put to the same key replaces the value there. -/
namespace PpsDht
open Mem SocketPrograms DatagramNetworks

/-- Server `a` has executed the request out of a message of call `i`. -/
def Executed (es : List (Event SockAddr Datagram Outcome)) (i : ℕ) (a : SockAddr) (r : Request) : Prop :=
  ∃ d rs, .served i a d rs ∈ es ∧ Denotes d r

/-- Server `a` has answered call `i` with the value. -/
def Answered (es : List (Event SockAddr Datagram Outcome)) (i : ℕ) (a : SockAddr) (v : CString) : Prop :=
  ∃ d rs, .served i a d rs ∈ es ∧ v.chars ∈ rs

variable {sha1 : Bytes → Digest} {clients : ℕ → Client} {calls : ℕ → Operation} {servers : SockAddr → Htable}
  {es : List (Event SockAddr Datagram Outcome)} {w : SharedWorld SockAddr Htable Datagram Outcome} {i : ℕ}
  {k v : CString} {out : Outcome}

private theorem exists_executed (h : (clients i).Ready) (hrun : SharedRun (sharedDht sha1 clients calls) servers es w)
    (hreach : ∀ a, ReachableTable (servers a)) (hcall : calls i = .put k v) (hne : k ≠ .empty ∨ v ≠ .empty)
    (hret : .returned i out ∈ es) (hcode : out.code = .errNone) :
    ∃ S : List SockAddr, S.Nodup ∧ S ⊆ (clients i).servers sha1 k ∧
      (clients i).args.W ≤ S.length + duplications es i ∧ ∀ a ∈ S, Executed es i a (.put k v) := by
  obtain ⟨S,hnodup,hsub,hlen,hS⟩ := hrun.exists_answered ((clients i).nodup_servers sha1 _)
    (Operation.sends h sha1 (calls i)) (one_answer_of_put h hrun hreach hcall hne fun _ => true)
  rw [hcall] at hsub hS
  refine ⟨S,hnodup,hsub,(received_of_put hrun hcall hret hcode).trans hlen,fun a ha => ?_⟩
  obtain ⟨rs,r,hserved,-⟩ := hS a ha
  exact ⟨_,rs,hserved,Operation.denotes_put hne⟩

theorem exists_answered (h : (clients i).Ready) (hrun : SharedRun (sharedDht sha1 clients calls) servers es w)
    (hreach : ∀ a, ReachableTable (servers a)) (hR : (clients i).args.R ≤ intMax ∨ (clients i).args.N < 128)
    (hcall : calls i = .get k) (hret : .returned i out ∈ es) (hcode : out.code = .errNone) :
    ∃ v, out.value = some v ∧ ∃ S : List SockAddr, S.Nodup ∧ S ⊆ (clients i).servers sha1 k ∧
      min (clients i).args.R 128 ≤ S.length + duplications es i ∧ ∀ a ∈ S, Answered es i a v := by
  obtain ⟨v,hv,hreceived⟩ := received_of_get h hrun hreach hR hcall hret hcode
  obtain ⟨S,hnodup,hsub,hlen,hS⟩ := hrun.exists_answered ((clients i).nodup_servers sha1 _)
    (Operation.sends h sha1 (calls i)) (one_answer_of_get h hrun hreach hcall (isValue v))
  rw [hcall] at hsub
  refine ⟨v,hv,S,hnodup,hsub,hreceived.trans hlen,fun a ha => ?_⟩
  obtain ⟨rs,r,hserved,hr,hQ⟩ := hS a ha
  exact ⟨_,rs,hserved,of_decide_eq_true hQ ▸ hr⟩

/-- The put's request to server `b` arrives twice and fills the quorum of two alone. -/
def duplicatedPut (a b : SockAddr) : List (Event SockAddr Datagram Outcome) :=
  [.sent 0 a [107,0,118],.sent 0 b [107,0,118],.duplicated ⟨0,b,false,[107,0,118]⟩,
    .served 0 b [107,0,118] [[]],.served 0 b [107,0,118] [[]],.received 0 b [],.received 0 b [],
    .returned 0 ⟨.errNone,none⟩,.sent 1 a [107],.sent 1 b [107],.served 1 b [107] [[118]],
    .received 1 b [118],.returned 1 ⟨.errNone,some .letterV⟩]

private theorem exists_run_duplicatedPut :
    ∃ (a b : SockAddr) (w : World SockAddr Htable Datagram Outcome),
      (localClient 2 1 2).servers (fun _ => .zero) .letterK = [a,b] ∧
      Run (localNetwork 2 1 2 putThenGet) initialTables (duplicatedPut a b) w := by
  have hready := localClient_ready 1 2 (show 0 < 2 by decide) (by decide)
  obtain ⟨a,b,-,hab⟩ := localClient_servers_two 1 2 (fun _ => .zero) .letterK
  have hstart : Run (localNetwork 2 1 2 putThenGet) initialTables [] _ := .start
  rw [System.start,calls_put hready rfl (by decide) (by decide) hab] at hstart
  have hsent : Run (localNetwork 2 1 2 putThenGet) _ _
      ⟨_,⟨0,b,false,[107,0,118]⟩ ::ₘ ⟨0,a,false,[107,0,118]⟩ ::ₘ 0,0,_⟩ :=
    hstart.send_all (show [107,0,118].length ≤ maxMsgSize by decide)
  have hserved := hsent.duplicate_one.serve_one rfl
    (handle_put .initial .letterK .letterV (Or.inl (by decide)) (by decide))
  rw [Multiset.cons_swap] at hserved
  have hserved' := hserved.serve_one (Function.update_self _ _ _)
    (handle_put _ .letterK .letterV (Or.inl (by decide)) (by decide))
  have hreturned : Run (localNetwork 2 1 2 putThenGet) _ _ ⟨_,⟨0,a,false,[107,0,118]⟩ ::ₘ 0,1,_⟩ :=
    hserved'.receive_all [(b,[]),(b,[])] ((putRecvLoop_sends 2 2 0 []).bind_ret _) rfl
  rw [calls_get hready rfl (by decide) hab] at hreturned
  have hsent' : Run (localNetwork 2 1 2 putThenGet) _ _
      ⟨_,⟨1,b,false,[107]⟩ ::ₘ ⟨1,a,false,[107]⟩ ::ₘ ⟨0,a,false,[107,0,118]⟩ ::ₘ 0,1,_⟩ :=
    hreturned.send_all (show [107].length ≤ maxMsgSize by decide)
  have hanswered := hsent'.serve_one (Function.update_self _ _ _)
    (handle_get (ChainedMap.lookup_add_self _ _ _) (by decide) (by decide))
  have hvote := run_get_equal (R := 1) (n := 2) (v := .letterV) hready.positive.ne' (by decide) (by decide)
    (by decide) (by decide)
  have hfound : Run (localNetwork 2 1 2 putThenGet) _ _
      ⟨_,⟨1,a,false,[107]⟩ ::ₘ ⟨0,a,false,[107,0,118]⟩ ::ₘ 0,2,_⟩ :=
    hanswered.receive_all [(b,[118])] ((getRecvLoop_sends 1 2 _ []).bind_ret _) hvote
  exact ⟨a,b,_,hab,hfound⟩

/-- In a run in which packets may be lost, reordered and duplicated, a put without error
has been executed by, and a get without error has the value of, as many distinct servers
as the quorum less the duplications of packets of this call. The count of a get has one
byte, so its quorum is taken to fit. -/
theorem quorums_distinct_servers (sha1 : Bytes → Digest) (client : Client) (calls : ℕ → Operation)
    (servers : SockAddr → Htable) (es : List (Event SockAddr Datagram Outcome))
    (w : World SockAddr Htable Datagram Outcome) (h : client.Ready)
    (hreach : ∀ a, ReachableTable (servers a)) (hrun : Run (dhtNetwork sha1 client calls) servers es w) :
    (∀ i k v out, calls i = .put k v → (k ≠ .empty ∨ v ≠ .empty) → .returned i out ∈ es →
      out.code = .errNone → ∃ S : List SockAddr, S.Nodup ∧ S ⊆ client.servers sha1 k ∧
        client.args.W ≤ S.length + duplications es i ∧ ∀ a ∈ S, Executed es i a (.put k v)) ∧
    (client.args.R ≤ 128 → ∀ i k out, calls i = .get k → .returned i out ∈ es → out.code = .errNone →
      ∃ v, out.value = some v ∧ ∃ S : List SockAddr, S.Nodup ∧ S ⊆ client.servers sha1 k ∧
        client.args.R ≤ S.length + duplications es i ∧ ∀ a ∈ S, Answered es i a v) := by
  have hshared : SharedRun (sharedDht sha1 (fun _ => client) calls) servers es (w.shared _) := hrun.shared
  refine ⟨fun i k v out hcall hne hret hcode => exists_executed h hshared hreach hcall hne hret hcode,
    fun hR i k out hcall hret hcode => ?_⟩
  have hmax : client.args.R ≤ intMax := hR.trans (by decide)
  have hfound := exists_answered h hshared hreach (Or.inl hmax) hcall hret hcode
  rwa [Nat.min_eq_left hR] at hfound

theorem quorums_distinct_servers_duplicated :
    ∃ (a b : SockAddr) (w : World SockAddr Htable Datagram Outcome),
      Run (localNetwork 2 1 2 putThenGet) initialTables (duplicatedPut a b) w ∧
      (∃ S : List SockAddr, S.Nodup ∧ S ⊆ (localClient 2 1 2).servers (fun _ => .zero) .letterK ∧
        2 ≤ S.length + duplications (duplicatedPut a b) 0 ∧
        ∀ x ∈ S, Executed (duplicatedPut a b) 0 x (.put .letterK .letterV)) ∧
      ∃ v, some CString.letterV = some v ∧ ∃ S : List SockAddr, S.Nodup ∧
        S ⊆ (localClient 2 1 2).servers (fun _ => .zero) .letterK ∧
        1 ≤ S.length + duplications (duplicatedPut a b) 1 ∧ ∀ x ∈ S, Answered (duplicatedPut a b) 1 x v := by
  obtain ⟨a,b,w,-,hrun⟩ := exists_run_duplicatedPut
  obtain ⟨hput,hget⟩ := quorums_distinct_servers (fun _ => .zero) (localClient 2 1 2) putThenGet
    initialTables (duplicatedPut a b) w
    (localClient_ready 1 2 (by decide) (by decide)) (fun _ => reachableTable_initial) hrun
  refine ⟨a,b,w,hrun,?_,?_⟩
  · exact hput 0 .letterK .letterV ⟨.errNone,none⟩ rfl (Or.inl (by decide)) (by simp [duplicatedPut]) rfl
  · exact hget (by decide) 1 .letterK ⟨.errNone,some .letterV⟩ rfl (by simp [duplicatedPut]) rfl

/-- A request that arrives twice makes one server fill a quorum of two. -/
theorem duplicated_put_one_server :
    ¬∀ (sha1 : Bytes → Digest) (client : Client) (calls : ℕ → Operation) (servers : SockAddr → Htable)
      (es : List (Event SockAddr Datagram Outcome)) (w : World SockAddr Htable Datagram Outcome),
      client.Ready → 1 ≤ client.args.R → client.args.R ≤ client.args.N → 1 ≤ client.args.W →
      client.args.W ≤ client.args.N → (∀ a, ReachableTable (servers a)) →
      Run (dhtNetwork sha1 client calls) servers es w →
      (∀ i k v out, calls i = .put k v → .returned i out ∈ es → out.code = .errNone →
        ∃ S : List SockAddr, S.Nodup ∧ S ⊆ client.servers sha1 k ∧ client.args.W ≤ S.length ∧
          ∀ a ∈ S, Executed es i a (.put k v)) ∧
      ∀ i k out, calls i = .get k → .returned i out ∈ es → out.code = .errNone →
        ∃ v, out.value = some v ∧ ∃ S : List SockAddr, S.Nodup ∧ S ⊆ client.servers sha1 k ∧
          client.args.R ≤ S.length ∧ ∀ a ∈ S, Answered es i a v := by
  intro h
  obtain ⟨a,b,w,-,hrun⟩ := exists_run_duplicatedPut
  obtain ⟨hput,-⟩ := h _ _ _ _ _ w (localClient_ready 1 2 (by decide) (by decide)) (by decide) (by decide)
    (by decide) (by decide) (fun _ => reachableTable_initial) hrun
  obtain ⟨S,hnodup,-,hlen,hS⟩ :=
    hput 0 .letterK .letterV ⟨.errNone,none⟩ rfl (by simp [duplicatedPut]) rfl
  have honly : S ⊆ [b] := fun x hx => by
    obtain ⟨d,rs,hserved,-⟩ := hS x hx
    have hx : x = b ∧ d = [107,0,118] ∧ rs = [[]] := by simpa [duplicatedPut] using hserved
    exact List.mem_singleton.mpr hx.1
  have hone := (hnodup.subperm honly).length_le
  exact absurd (hlen.trans hone) (show ¬2 ≤ 1 by decide)

/-- The server finds the value under the key. -/
def Holds (table : Htable) (k v : CString) : Prop := Succeeds (getHtableValue table k) (some v)

/-- Server `a` was served the message of call `l` after that of call `i`. -/
def ServedLate (es : List (Event SockAddr Datagram Outcome)) (l i : ℕ) (a : SockAddr) : Prop :=
  ∃ before after d rs, es = before ++ .served l a d rs::after ∧ ∃ d' rs', .served i a d' rs' ∈ before

variable {a : SockAddr}

/-- A server that was sent a put for the key holds the value of the last one. -/
theorem holds_of_lastPut (hrun : SharedRun (sharedDht sha1 clients calls) servers es w)
    (hreach : ∀ a, ReachableTable (servers a)) (hlast : lastPut? k a es = some v) : Holds (w.servers a) k v := by
  obtain ⟨m₀,hm₀,-⟩ := (hreach a).exists_map
  obtain ⟨m,hm,-⟩ := (reachableTable_of_sharedRun hrun hreach a).exists_map
  have hlookup := lookup_of_sharedRun hrun hm₀ hm k
  rw [List.filterMap_filterMap] at hlookup
  change _ = (lastPut? k a es).or _ at hlookup
  rw [hlast,Option.some_or] at hlookup
  rw [Holds,hm,← hlookup]
  exact getHtableValue_succeeds m k

/-- The last put that a server executed was made by the clients, if nobody else makes any for
this key. -/
theorem holds_last (hready : ∀ i, (clients i).Ready) (hrun : SharedRun (sharedDht sha1 clients calls) servers es w)
    (hreach : ∀ a, ReachableTable (servers a))
    (hforeign : ∀ a d v', .foreign a d ∈ es → dispatch d ≠ some (.put k v'))
    (hexec : Executed es i a (.put k v)) :
    ∃ l v', calls l = .put k v' ∧ Holds (w.servers a) k v' ∧ (l = i ∨ ServedLate es l i a) := by
  obtain ⟨d,rs,hserved,hd⟩ := hexec
  have hput : putAt? k a (.served i a d rs) = some v :=
    putAt?_eq_some.mpr ⟨d,rfl,dispatch_of_denotes hd (length_of_served hrun hreach hserved)⟩
  obtain ⟨v',hlast⟩ := Option.ne_none_iff_exists'.mp (lastPut_ne_none hserved hput)
  obtain ⟨before,e,after,d',rfl,hhandled,hdis,hafter⟩ := exists_put_of_lastPut hlast
  have hevent : e ∈ before ++ e::after := List.mem_append_right _ List.mem_cons_self
  cases e with
  | served l b d'' rs' =>
    obtain ⟨rfl,rfl⟩ := Prod.mk.inj (Option.some.inj hhandled)
    obtain ⟨-,rfl⟩ := mem_servers_of_served (hready l) hrun hevent
    have hlen := length_of_served hrun hreach hevent
    have hcall := Operation.eq_put hlen ((dispatch_iff hlen _).mp hdis)
    refine ⟨l,v',hcall,holds_of_lastPut hrun hreach hlast,?_⟩
    rcases List.mem_append.mp hserved with hbefore | hmem
    · exact Or.inr ⟨before,after,_,_,rfl,d,rs,hbefore⟩
    · rcases List.mem_cons.mp hmem with heq | hlate
      · exact Or.inl (Event.served.inj heq).1.symm
      · cases (hafter _ hlate).symm.trans hput
  | foreign b d'' =>
    obtain ⟨rfl,rfl⟩ := Prod.mk.inj (Option.some.inj hhandled)
    exact absurd hdis (hforeign _ _ _ hevent)
  | _ => cases hhandled

/-- The key of one letter is first put to itself and then to another letter. -/
def latePuts : ℕ → Operation
  | 0 => .put .letterK .letterK
  | _ => .put .letterK .letterV

/-- The first put times out and its request arrives after the second put. -/
def latePut (a : SockAddr) : List (Event SockAddr Datagram Outcome) :=
  [.sent 0 a [107,0,107],.timedOut 0,.returned 0 ⟨.errNetwork,none⟩,.sent 1 a [107,0,118],
    .served 1 a [107,0,118] [[]],.received 1 a [],.returned 1 ⟨.errNone,none⟩,.served 0 a [107,0,107] [[]]]

private theorem exists_run_latePut :
    ∃ (a : SockAddr) (w : World SockAddr Htable Datagram Outcome),
      (localClient 1 1 1).servers (fun _ => .zero) .letterK = [a] ∧
      Run (localNetwork 1 1 1 latePuts) initialTables (latePut a) w ∧
      Holds (w.servers a) .letterK .letterK := by
  have hready := localClient_ready 1 1 (show 0 < 1 by decide) (by decide)
  obtain ⟨a,ha⟩ := List.length_eq_one_iff.mp (hready.length_servers (fun _ => .zero) .letterK)
  have hstart : Run (localNetwork 1 1 1 latePuts) initialTables [] _ := .start
  rw [System.start,calls_put hready rfl (by decide) (by decide) ha] at hstart
  have hsent : Run (localNetwork 1 1 1 latePuts) _ _ ⟨_,⟨0,a,false,[107,0,107]⟩ ::ₘ 0,0,_⟩ :=
    hstart.send_all (show [107,0,107].length ≤ maxMsgSize by decide)
  have hreturned := (hsent.step (.timeOut rfl)).step (.finish rfl)
  rw [calls_put hready rfl (by decide) (by decide) ha] at hreturned
  have hsent' : Run (localNetwork 1 1 1 latePuts) _ _
      ⟨_,⟨1,a,false,[107,0,118]⟩ ::ₘ ⟨0,a,false,[107,0,107]⟩ ::ₘ 0,1,_⟩ :=
    hreturned.send_all (show [107,0,118].length ≤ maxMsgSize by decide)
  have hserved := hsent'.serve_one rfl
    (handle_put .initial .letterK .letterV (Or.inl (by decide)) (by decide))
  have hreturned' : Run (localNetwork 1 1 1 latePuts) _ _ ⟨_,⟨0,a,false,[107,0,107]⟩ ::ₘ 0,2,_⟩ :=
    hserved.receive_all [(a,[])] ((putRecvLoop_sends 1 1 0 []).bind_ret _) rfl
  have hlate := hreturned'.serve_one (Function.update_self _ _ _)
    (handle_put _ .letterK .letterK (Or.inl (by decide)) (by decide))
  refine ⟨a,_,ha,hlate,?_⟩
  have hget := getHtableValue_succeeds
    ((ServerMap.initial.add .letterK .letterV).add .letterK .letterK) .letterK
  rw [ChainedMap.lookup_add_self] at hget
  dsimp only
  rw [Function.update_self]
  exact hget

private theorem le_one_of_served_latePut {a b : SockAddr} {l : ℕ} {d : Datagram} {rs : List Datagram}
    (h : .served l b d rs ∈ latePut a) : l ≤ 1 := by
  simp only [latePut,List.mem_cons,reduceCtorEq,Event.served.injEq,false_or,List.not_mem_nil,or_false] at h
  omega

/-- After a put without error, with nothing duplicated, no foreign put to the key and none
of the client's later ones delivered, as many servers as the put needs have executed it,
and each of them holds the value or has since been served the late datagram of an earlier
put, whose value it holds. -/
theorem acknowledged_put_holds (sha1 : Bytes → Digest) (client : Client) (calls : ℕ → Operation)
    (servers : SockAddr → Htable) (es : List (Event SockAddr Datagram Outcome))
    (w : World SockAddr Htable Datagram Outcome) (i : ℕ) (k v : CString) (out : Outcome)
    (h : client.Ready) (hreach : ∀ a, ReachableTable (servers a))
    (hrun : Run (dhtNetwork sha1 client calls) servers es w) (hcall : calls i = .put k v)
    (hne : k ≠ .empty ∨ v ≠ .empty) (hret : .returned i out ∈ es) (hcode : out.code = .errNone)
    (hdup : ∀ p, .duplicated p ∉ es)
    (hforeign : ∀ a d v', .foreign a d ∈ es → dispatch d ≠ some (.put k v'))
    (hlater : ∀ l v' a d rs, i < l → calls l = .put k v' → .served l a d rs ∉ es) :
    ∃ S : List SockAddr, S.Nodup ∧ S ⊆ client.servers sha1 k ∧ client.args.W ≤ S.length ∧
      ∀ a ∈ S, Executed es i a (.put k v) ∧ (Holds (w.servers a) k v ∨
        ∃ l v', l < i ∧ calls l = .put k v' ∧ ServedLate es l i a ∧ Holds (w.servers a) k v') := by
  have hshared : SharedRun (sharedDht sha1 (fun _ => client) calls) servers es (w.shared _) := hrun.shared
  obtain ⟨S,hnodup,hsub,hlen,hS⟩ := exists_executed h hshared hreach hcall hne hret hcode
  rw [duplications_eq_zero hdup i,Nat.add_zero] at hlen
  refine ⟨S,hnodup,hsub,hlen,fun a ha => ⟨hS a ha,?_⟩⟩
  obtain ⟨l,v',hcall',hholds,hl⟩ := holds_last (fun _ => h) hshared hreach hforeign (hS a ha)
  rcases Nat.lt_trichotomy l i with hlt | rfl | hgt
  · exact Or.inr ⟨l,v',hlt,hcall',hl.resolve_left hlt.ne,hholds⟩
  · rw [hcall] at hcall'
    exact Or.inl ((Operation.put.inj hcall').2 ▸ hholds)
  · obtain ⟨before,after,d,rs,rfl,-⟩ := hl.resolve_left hgt.ne'
    exact absurd (by simp) (hlater l v' a d rs hgt hcall')

theorem acknowledged_put_holds_late :
    ∃ (a : SockAddr) (w : World SockAddr Htable Datagram Outcome),
      Run (localNetwork 1 1 1 latePuts) initialTables (latePut a) w ∧
      ∃ S : List SockAddr, S.Nodup ∧ S ⊆ (localClient 1 1 1).servers (fun _ => .zero) .letterK ∧
        1 ≤ S.length ∧ ∀ x ∈ S, Executed (latePut a) 1 x (.put .letterK .letterV) ∧
          (Holds (w.servers x) .letterK .letterV ∨ ∃ l v', l < 1 ∧ latePuts l = .put .letterK v' ∧
            ServedLate (latePut a) l 1 x ∧ Holds (w.servers x) .letterK v') := by
  obtain ⟨a,w,-,hrun,-⟩ := exists_run_latePut
  exact ⟨a,w,hrun,acknowledged_put_holds (fun _ => .zero) (localClient 1 1 1) latePuts initialTables
    (latePut a) w 1 .letterK .letterV ⟨.errNone,none⟩ (localClient_ready 1 1 (by decide) (by decide))
    (fun _ => reachableTable_initial) hrun rfl (Or.inl (by decide)) (by simp [latePut]) rfl
    (by simp [latePut]) (by simp [latePut])
    fun l v' b d rs hl _ hserved => Nat.not_le.mpr hl (le_one_of_served_latePut hserved)⟩

/-- Of two puts in a row the first one, given up, undoes the second one, acknowledged. -/
theorem latePut_undoes :
    ¬∀ (sha1 : Bytes → Digest) (client : Client) (calls : ℕ → Operation) (servers : SockAddr → Htable)
      (es : List (Event SockAddr Datagram Outcome)) (w : World SockAddr Htable Datagram Outcome) (i : ℕ)
      (k v : CString) (out : Outcome),
      client.Ready → 1 ≤ client.args.W → client.args.W ≤ client.args.N → (∀ a, ReachableTable (servers a)) →
      Run (dhtNetwork sha1 client calls) servers es w → (∀ l, ∃ v', calls l = .put k v') →
      calls i = .put k v → k ≠ .empty → k.length + 1 + v.length ≤ maxMsgSize → .returned i out ∈ es →
      out.code = .errNone → (∀ p, .duplicated p ∉ es) → (∀ a d, .foreign a d ∉ es) →
      (∀ l v' a d rs, i < l → calls l = .put k v' → .served l a d rs ∉ es) →
      ∃ S : List SockAddr, S.Nodup ∧ S ⊆ client.servers sha1 k ∧ client.args.W ≤ S.length ∧
        ∀ a ∈ S, Holds (w.servers a) k v := by
  intro h
  obtain ⟨a,w,ha,hrun,hholds⟩ := exists_run_latePut
  obtain ⟨S,-,hsub,hlen,hS⟩ := h _ _ _ _ (latePut a) w 1 .letterK .letterV ⟨.errNone,none⟩
    (localClient_ready 1 1 (by decide) (by decide)) (by decide) (by decide) (fun _ => reachableTable_initial)
    hrun (fun l => by cases l <;> exact ⟨_,rfl⟩) rfl (by decide) (by decide) (by simp [latePut]) rfl
    (by simp [latePut]) (by simp [latePut])
    fun l v' b d rs hl _ hserved => Nat.not_le.mpr hl (le_one_of_served_latePut hserved)
  obtain ⟨x,hx⟩ := List.exists_mem_of_length_pos hlen
  rw [ha] at hsub
  obtain rfl := List.mem_singleton.mp (hsub hx)
  have hvalue := Option.some.inj ((hS x hx).unique hholds)
  exact absurd hvalue (by decide)

end PpsDht
