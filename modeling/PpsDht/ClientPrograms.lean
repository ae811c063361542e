import PpsDht.HashtableMap
import PpsDht.Network
import PpsDht.RingWalk
import PpsDht.ServerLoop

/-! # Puts and gets as programs

A put sends the key, a zero and the value, a get the bare key. The checks of both
bound key and value one by one and let the empty key pass, so the server does not
always take the branch that was meant. With allocations succeeding, a put or a get sends
one request to each of its servers and then runs its receive loop. -/
namespace PpsDht
open Mem Net SocketPrograms

/-- The packet, if its memory can be allocated. -/
theorem createCatPacket_apply (k v : CString) (outcomes : Outcomes) :
    createCatPacket k v outcomes =
      some (if nextSucceeds outcomes then some (k.chars ++ 0::v.chars) else none,outcomes.tail) := by
  have hzeros : List.replicate (k.length + 1 + v.length) (0 : UInt8) =
      [] ++ List.replicate (k.length + 1) 0 ++ List.replicate v.length 0 := by
    rw [List.nil_append,List.replicate_append_replicate]
  have hkey := copyAt_append [] (List.replicate (k.length + 1) 0) (List.replicate v.length 0)
    (show k.stored.length = _ by simp)
  have hval := copyAt_append k.stored (List.replicate v.length 0) []
    (show v.chars.length = _ by simp)
  rw [← hzeros] at hkey
  rw [List.append_nil,List.append_nil,CString.length_stored] at hval
  rw [createCatPacket,malloc_bind]
  cases nextSucceeds outcomes with
  | false => rfl
  | true =>
    simp only [if_true]
    refine (bind_apply (lift_apply hkey _) _).trans ((bind_apply (lift_apply hval _) _).trans ?_)
    rw [CString.stored,List.append_assoc,List.singleton_append]
    rfl

theorem createCatPacket_succeeds (k v : CString) :
    Succeeds (createCatPacket k v) (some (k.chars ++ 0::v.chars)) := createCatPacket_apply k v []

theorem dispatch_put_iff {k v : CString} (h : k.length + 1 + v.length ≤ maxMsgSize) :
    dispatch (k.chars ++ 0::v.chars) = some (.put k v) ↔ k ≠ .empty ∨ v ≠ .empty := by
  have hlen := (CString.length_separated k v).trans_le h
  by_cases hv : v = .empty
  · subst hv
    rw [CString.chars_empty,dispatch_terminated k (by simpa using h)]
    by_cases hk : k = .empty <;> simp [hk]
  · simp [dispatch_of_denotes (.put k v hv) hlen,hv]

private theorem dispatch_get_iff {k : CString} (h : k.length ≤ maxMsgSize) :
    dispatch k.chars = some (.get k) ↔ k ≠ .empty := by
  rw [dispatch_chars k h]
  by_cases hk : k = .empty <;> simp [hk]

/-- Of the puts and gets that pass the checks, the server executes as such exactly
the puts that fit into a datagram with their separator and are not empty in key
and value, and the gets of a non-empty key. -/
theorem accepted_requests (k v : CString) (hk : tooLong k = false) :
    (tooLong v = false → ((∃ packet, Succeeds (createCatPacket k v) (some packet) ∧
        packet.length ≤ maxMsgSize ∧ dispatch packet = some (.put k v)) ↔
      k.length + 1 + v.length ≤ maxMsgSize ∧ (k ≠ .empty ∨ v ≠ .empty))) ∧
    (dispatch k.chars = some (.get k) ↔ k ≠ .empty) := by
  have hlen : k.length ≤ maxMsgSize := by simpa [tooLong] using hk
  refine ⟨fun _ => ⟨?_,fun ⟨hfit,hne⟩ => ?_⟩,dispatch_get_iff hlen⟩
  · rintro ⟨packet,hpacket,hfit,hput⟩
    obtain rfl := Option.some.inj (hpacket.unique (createCatPacket_succeeds k v))
    rw [CString.length_separated] at hfit
    exact ⟨hfit,(dispatch_put_iff hfit).mp hput⟩
  · exact ⟨_,createCatPacket_succeeds k v,(CString.length_separated k v).trans_le hfit,
      (dispatch_put_iff hfit).mpr hne⟩

theorem accepted_requests_letters :
    (tooLong .letterV = false → ((∃ packet, Succeeds (createCatPacket .letterK .letterV) (some packet) ∧
        packet.length ≤ maxMsgSize ∧ dispatch packet = some (.put .letterK .letterV)) ↔
      (1 + 1 + 1 ≤ maxMsgSize ∧ (CString.letterK ≠ .empty ∨ CString.letterV ≠ .empty)))) ∧
    (dispatch [107] = some (.get .letterK) ↔ CString.letterK ≠ .empty) :=
  accepted_requests .letterK .letterV (by decide)

/-- The empty key with the empty value passes the checks and is sent as a dump request. -/
theorem accepted_put_dumps :
    ¬∀ k v : CString, tooLong k = false → tooLong v = false →
      (∃ packet, Succeeds (createCatPacket k v) (some packet) ∧ packet.length ≤ maxMsgSize ∧
        dispatch packet = some (.put k v)) ∧ dispatch k.chars = some (.get k) := by
  intro h
  obtain ⟨packet,hpacket,-,hput⟩ := (h .empty .empty (by decide) (by decide)).1
  obtain rfl := Option.some.inj (hpacket.unique (createCatPacket_succeeds .empty .empty))
  have hdump : dispatch [0] = some .dump := dispatch_of_denotes .dump (by decide)
  exact absurd (hdump.symm.trans hput) nofun

/-- The ring holds as many servers as the client asks for. -/
structure Client.Ready (client : Client) : Prop where
  positive : 0 < client.args.N
  distinct : client.args.N ≤ (client.nodes.map Node.address).dedup.length

/-- The addresses that a put or get of the key contacts. -/
def Client.servers (client : Client) (sha1 : Bytes → Digest) (key : CString) : List SockAddr :=
  (serversFrom client.nodes (indexOfFirstNode client.nodes (sha1 key.chars)) client.args.N).map Node.address

theorem Client.nodup_servers (client : Client) (sha1 : Bytes → Digest) (key : CString) :
    (client.servers sha1 key).Nodup :=
  nodup_serversFrom _ _ _

theorem Client.Ready.length_servers {client : Client} (h : client.Ready) (sha1 : Bytes → Digest)
    (key : CString) : (client.servers sha1 key).length = client.args.N := by
  rw [servers,List.length_map,length_serversFrom h.distinct]

theorem Client.Ready.nodes {client : Client} (h : client.Ready) (sha1 : Bytes → Digest) (key : CString) :
    Succeeds (ringGetNodesForKey sha1 client.nodes client.args.N key)
      (some (serversFrom client.nodes (indexOfFirstNode client.nodes (sha1 key.chars)) client.args.N)) := by
  refine ringGetNodesForKey_succeeds (fun hnil => ?_) h.distinct
  have hdistinct := h.distinct
  rw [hnil] at hdistinct
  exact absurd (h.positive.trans_le hdistinct) (Nat.not_lt_zero 0)

/-- A client whose servers are as many as it asks for. -/
def localClient (N R W : ℕ) : Client := ⟨localRing N,⟨N,R,W⟩⟩

theorem localClient_ready {N : ℕ} (R W : ℕ) (h : 0 < N) (hN : N ≤ 2^16) : (localClient N R W).Ready :=
  ⟨h,(localRing_distinct hN).ge⟩

/-- The servers of two replicas are different. -/
theorem localClient_servers_two (R W : ℕ) (sha1 : Bytes → Digest) (key : CString) :
    ∃ a b, b ≠ a ∧ (localClient 2 R W).servers sha1 key = [a,b] := by
  have hready := localClient_ready R W (show 0 < 2 by decide) (by decide)
  obtain ⟨a,b,hab⟩ := List.length_eq_two.mp (hready.length_servers sha1 key)
  have hnodup := (localClient 2 R W).nodup_servers sha1 key
  rw [hab] at hnodup
  exact ⟨a,b,by simpa [eq_comm] using hnodup,hab⟩

theorem liftM_apply {α β : Type} {m : Mem α} {a : α} {outcomes rest : Outcomes}
    (h : m outcomes = some (a,rest)) (f : α → Net β) : ((liftM m : Net α) >>= f) outcomes = f a rest := by
  change (ofMem m outcomes >>= fun p => f p.1 p.2) = f a rest
  rw [ofMem,h]
  rfl

theorem liftM_fault {α β : Type} {m : Mem α} {outcomes : Outcomes} (h : m outcomes = none) (f : α → Net β) :
    ((liftM m : Net α) >>= f) outcomes = .fault := by
  change (ofMem m outcomes >>= fun p => f p.1 p.2) = .fault
  rw [ofMem,h]
  rfl

theorem pure_run {α : Type} (a : α) (outcomes : Outcomes) (inputs : List (Option Datagram)) :
    ((pure a : Net α) outcomes).run inputs = some ((a,outcomes),inputs) :=
  Prog.run_ret _ _

theorem of_pure_run {α : Type} {a b : α} {outcomes rest : Outcomes} {inputs unread : List (Option Datagram)}
    (h : ((pure a : Net α) outcomes).run inputs = some ((b,rest),unread)) : a = b := by
  rw [pure_run] at h
  exact congrArg (fun r => r.1.1) (Option.some.inj h)

theorem liftM_bind {α β : Type} {m : Mem α} {a : α} (h : Succeeds m a) (f : α → Net β) :
    ((liftM m : Net α) >>= f) [] = f a [] :=
  liftM_apply h f

/-- A run that gets past a step in memory ran that step. -/
theorem of_liftM_run {α β : Type} {m : Mem α} {f : α → Net β} {outcomes : Outcomes}
    {inputs : List (Option Datagram)} {result : (β × Outcomes) × List (Option Datagram)}
    (h : (((liftM m : Net α) >>= f) outcomes).run inputs = some result) :
    ∃ a rest, m outcomes = some (a,rest) ∧ (f a rest).run inputs = some result := by
  cases hm : m outcomes with
  | none =>
    rw [liftM_fault hm f] at h
    cases inputs <;> exact absurd h nofun
  | some p =>
    rw [liftM_apply hm f] at h
    exact ⟨p.1,p.2,rfl,h⟩

theorem sendtoServers_bind {α : Type} (nodes : List Node) (msg : Datagram) (f : Unit → Net α)
    (outcomes : Outcomes) : (sendtoServers nodes msg >>= f) outcomes =
      .sendAll (nodes.map Node.address) msg (f () outcomes) :=
  Prog.sendAll_bind _ _ _ _

theorem createSocket_succeeds : Succeeds createSocket .errNone := malloc_succeeds.bind (.pure _)

theorem networkPut_eq {client : Client} (h : client.Ready) (sha1 : Bytes → Digest) {k v : CString}
    (hk : tooLong k = false) (hv : tooLong v = false) :
    networkPut sha1 client (some k) (some v) [] =
      .sendAll (client.servers sha1 k) (k.chars ++ 0::v.chars)
        (putRecvLoop client.args.W client.args.N 0 [] >>= fun p =>
          .ret (if p.1 < client.args.W then .errNetwork else .errNone,p.2)) := by
  have hlen := h.length_servers sha1 k
  rw [Client.servers,List.length_map] at hlen
  rw [networkPut]
  simp only [hk,hv]
  rw [if_neg (by decide),liftM_bind createSocket_succeeds,if_neg (by decide),sendPacket,
    liftM_bind (createCatPacket_succeeds k v)]
  dsimp only
  rw [liftM_bind (h.nodes sha1 k)]
  dsimp only
  rw [sendtoServers_bind,hlen]
  refine congrArg (Prog.sendAll _ _) (congrArg (Prog.bind _) (funext fun p => ?_))
  by_cases hp : p.1 < client.args.W
  · simp only [hp,if_true]
    rfl
  · simp only [hp,if_false]
    rfl

theorem networkGet_eq {client : Client} (h : client.Ready) (sha1 : Bytes → Digest) {k : CString}
    (hk : tooLong k = false) (value : Option CString) :
    networkGet sha1 client (some k) value [] =
      .sendAll (client.servers sha1 k) k.chars
        (getRecvLoop client.args.R client.args.N (ChainedMap.empty h.positive.ne').table []) := by
  have hlen := h.length_servers sha1 k
  rw [Client.servers,List.length_map] at hlen
  rw [networkGet]
  simp only [hk]
  rw [if_neg (by decide),liftM_bind createSocket_succeeds,if_neg (by decide),
    liftM_bind (constructHtable_succeeds h.positive.ne'),if_neg (ChainedMap.buckets_ne_none _),contactNodes,
    liftM_bind (h.nodes sha1 k)]
  dsimp only
  rw [sendtoServers_bind,hlen]
  rfl

end PpsDht
