import PpsDht.HashtableInMemory
import PpsDht.LinkedNetwork
import PpsDht.NodesInMemory

/-! # The client library in memory follows its model

Each call sends and receives what its model does and reads the ring without changing it. What it
leaves behind is the value of a get, and in one case for each function an open socket. -/
namespace PpsDht.OnHeap
open Mem Heaps HProp

variable {F S : HProp Block} {A : Allocator} {sha1 : Bytes → Digest} {inetPton : CString → Option UInt32}
  {list : Addr} {nodes : List Node} {node : Node} {i n : ℕ}

theorem addressOf_implements (hS : NodesIn S list nodes) (hnode : nodes[i]? = some node) :
    Implements S (addressOf list i) (pure node.address) fun a a' => given (a = a') S := by
  rw [addressOf,← mul_one S]
  refine nodeAt_bind hS hnode fun c rest hrest => ?_
  have hperm : nodeFields (some c) node * (rest * 1) = fieldAt addresses c.address node.address *
      (fieldAt digests c.sha node.sha * rest) := by
    rw [mul_one,nodeFields]
    ac_rfl
  have hback : fieldAt addresses c.address node.address * (fieldAt digests c.sha node.sha * rest) = S * 1 := by
    rw [← hrest,← hperm,mul_one,mul_one]
  rw [hperm,← bind_pure (loadField addresses _)]
  refine loadField_bind (.pure (le_given rfl ?_))
  rw [hback]

theorem sendtoServers_follows (hS : NodesIn S list nodes) {msg : Code Datagram} {m : Datagram}
    (hmsg : Implements F msg (pure m) fun d d' => given (d = d') F) (hn : i + n = nodes.length) :
    Follows (S * F) (sendtoServers msg list n i) (Net.sendtoServers (nodes.drop i) m) fun _ _ => S * F := by
  induction n generalizing i with
  | zero =>
    rw [List.drop_eq_nil_of_le (Nat.add_zero i ▸ hn.ge)]
    exact .pure le_rfl
  | succ n ih =>
    have hi : i < nodes.length := by omega
    rw [List.drop_eq_getElem_cons hi,sendtoServers]
    refine .silent (addressOf_implements hS (List.getElem?_eq_getElem hi)) fun a => ?_
    rw [given_mul]
    refine .given ?_
    rintro rfl
    rw [mul_comm]
    refine .silent hmsg fun d => ?_
    rw [given_mul]
    refine .given ?_
    rintro rfl
    rw [mul_comm]
    exact .sendto_bind (ih (by omega))

/-- The socket of a call, null for -1. -/
def socketAt : Ptr → ErrorCode → HProp Block
  | some socket, .errNone => block socket .socket
  | none, .errNetwork => 1
  | _, _ => ⊥

theorem createSocket_implements : Implements 1 (createSocket A) PpsDht.createSocket socketAt := by
  rw [createSocket,PpsDht.createSocket,← bind_pure (alloc A _),← mul_one 1]
  refine .alloc_bind (fun socket => .pure ?_) (.pure ?_)
  · rw [mul_one,mul_one]
    exact le_rfl
  · rw [mul_one]
    exact le_rfl

theorem freeString_implements (p : Ptr) (s : Option CString) :
    Implements (stringAt p s) (free p) (pure ()) fun _ _ => 1 := by
  rw [← bind_pure (free p),← mul_one (stringAt p s)]
  exact freeString_bind (.pure le_rfl)

theorem incrementAndGet_implements (t : Htable) (table : PpsDht.Htable) (key : CString) :
    Implements (tableAt t table) (incrementAndGet A t key) (PpsDht.incrementAndGet table key)
      fun count r => given (count = r.1) (tableAt t r.2) := by
  refine (getHtableValue_implements t table key).bind fun p o => ?_
  cases o with
  | none =>
    cases p with
    | some a => exact .bot_mul
    | none =>
      rw [stringAt_none,one_mul]
      refine (addHtableValue_implements t table key ⟨[1],by decide⟩).bind fun code r => .given fun _ => ?_
      exact .pure (le_given rfl le_rfl)
  | some s =>
    cases p with
    | none => exact .bot_mul
    | some a =>
      refine Kind.read_bind (K := strings) ?_
      dsimp only
      cases hread : readString ((s.stored.headD 0 + 1)::s.stored.tail) with
      | none => exact .fault
      | some value =>
        refine .lift_bind rfl (Kind.write_bind (K := strings) ?_)
        rw [mul_comm]
        refine (addHtableValue_implements t table key value).call fun code r => ?_
        rw [given_mul,mul_comm]
        exact .given fun _ => .free_bind (.pure (le_given rfl le_rfl))

section Receiving
variable {t : Htable} {table : PpsDht.Htable} {socket : Addr}

/-- A socket that may have been left open. -/
def perhapsOpen : HProp Block := 1 ⊔ ⨆ socket, block socket .socket

/-- What a `networkGet` leaves behind besides the ring. The socket is lost when there is no memory for the value. -/
def gotAt (r : ErrorCode × Ptr) (o : Outcome) : HProp Block :=
  given (r.1 = o.code) (stringAt r.2 o.value * if o.code = .errNomem then perhapsOpen else 1)

theorem giveUp_implements : Implements (nodeListAt list nodes * (tableAt t table * block socket .socket))
    (giveUp t list socket) (pure ⟨.errNetwork,none⟩) gotAt := by
  refine nodeListFree_bind ((deleteHtableAndContent_implements t table).silent fun t' => ?_)
  rw [given_mul,one_mul,← mul_one (block socket Block.socket)]
  refine .given fun _ => .free_bind (.pure (le_given rfl ?_))
  rw [stringAt_none,one_mul]
  exact le_rfl

theorem returnValue_implements (reply : CString) :
    Implements (nodeListAt list nodes * (tableAt t table * block socket .socket)) (returnValue A t list socket reply)
      (PpsDht.returnValue reply) gotAt := by
  rw [returnValue,PpsDht.returnValue,mul_left_comm]
  refine (deleteHtableAndContent_implements t table).silent fun t' => ?_
  rw [given_mul,one_mul]
  refine .given fun _ => nodeListFree_bind ?_
  rw [← mul_one (block socket Block.socket)]
  refine newString_bind (fun p => ?_) ?_
  · rw [mul_left_comm]
    refine .free_bind (.pure (le_given rfl ?_))
    rw [if_neg (ErrorCode.noConfusion ·)]
    exact le_rfl
  · refine .pure (le_given rfl ?_)
    rw [stringAt_none,one_mul,mul_one,if_pos rfl]
    exact (le_iSup (fun socket => block socket Block.socket) socket).trans le_sup_right

theorem getRecvLoop_follows (quorum : ℕ) :
    Follows (nodeListAt list nodes * (tableAt t table * block socket .socket))
      (getRecvLoop A quorum t list socket n) (PpsDht.getRecvLoop quorum n table) gotAt := by
  have hgiveUp : ∀ table, Follows (nodeListAt list nodes * (tableAt t table * block socket .socket))
      (HeapNet.ofHeap (giveUp t list socket)) (pure ⟨.errNetwork,none⟩) gotAt := fun table =>
    .ofHeap giveUp_implements
  induction n generalizing table with
  | zero => exact hgiveUp table
  | succ n ih =>
    rw [getRecvLoop,PpsDht.getRecvLoop]
    refine .recv_bind fun d => ?_
    cases d with
    | none => exact hgiveUp table
    | some d =>
      dsimp only
      split
      · exact hgiveUp table
      · cases hreply : readString (d.take maxMsgSize ++
            List.replicate (maxMsgSize - (d.take maxMsgSize).length) 0) with
        | none => exact .fault_bind rfl
        | some reply =>
          refine .lift_bind rfl ?_
          rw [mul_left_comm]
          refine .call (incrementAndGet_implements t table reply) fun count r => ?_
          rw [given_mul,mul_left_comm]
          refine .given ?_
          rintro rfl
          split
          · exact .ofHeap (returnValue_implements reply)
          · exact ih

end Receiving

theorem close_implements (socket : Addr) : Implements (block socket .socket) (close socket) (pure ()) fun _ _ => 1 :=
  free_implements socket _

/-- An end without a value and, but for `errNomem`, without a lost socket. -/
theorem le_gotAt (code : ErrorCode) : S ≤ gotAt (code,none) ⟨code,none⟩ * S := by
  rw [gotAt,given_mul,stringAt_none,one_mul]
  refine le_given rfl ?_
  split
  · calc S = 1 * S := (one_mul S).symm
      _ ≤ perhapsOpen * S := mul_le_mul_left le_sup_left S
  · rw [one_mul]

theorem readSize_implements : Implements (nodeListAt list nodes) (nodeLists.head.read list) (pure ())
    fun r _ => given (r.2 = nodes.length) (nodeListAt list nodes) := by
  rw [← bind_pure (nodeLists.head.read list),← mul_one (nodeListAt list nodes)]
  exact readHead_bind fun p => .pure (le_given rfl le_rfl)

theorem nodeListFree_implements :
    Implements (nodeListAt list nodes) (nodeListFree (some list)) (pure ()) fun _ _ => 1 := by
  rw [← bind_pure (nodeListFree _),← mul_one (nodeListAt list nodes)]
  exact nodeListFree_bind (.pure le_rfl)

/-- The message to all nodes of a list. -/
theorem sendtoList_follows {msg : Code Datagram} {m : Datagram}
    (hmsg : Implements F msg (pure m) fun d d' => given (d = d') F) :
    Follows (nodeListAt list nodes * F) (sendtoServers msg list nodes.length 0) (Net.sendtoServers nodes m)
      fun _ _ => nodeListAt list nodes * F := by
  refine Follows.mono ?_ (mul_le_mul_left (listAt_le_iSup list nodes) F) fun _ _ => le_rfl
  rw [Quantale.iSup_mul_distrib]
  refine .iSup fun S => ?_
  exact (sendtoServers_follows S.2.1 hmsg (Nat.zero_add _)).mono le_rfl fun _ _ => mul_le_mul_left S.2.2 F

private theorem tableAt_missing {t : Htable} {table : PpsDht.Htable} (h : table.buckets = none) :
    tableAt t table ≤ given (t.buckets = none) 1 := by
  rw [tableAt,h]
  exact fun heap hheap => ⟨hheap.1.1,hheap.2⟩

private theorem tableAt_present {t : Htable} {table : PpsDht.Htable} (h : table.buckets ≠ none) :
    tableAt t table ≤ given (t.buckets ≠ none) (tableAt t table) := by
  obtain ⟨buckets,hbuckets⟩ := Option.ne_none_iff_exists'.mp h
  refine fun heap hheap => ⟨?_,hheap⟩
  rw [tableAt,hbuckets] at hheap
  obtain ⟨a,hheap⟩ := iSup_iff.mp hheap
  obtain ⟨cells,hheap⟩ := iSup_iff.mp hheap
  rw [hheap.1.1]
  exact Option.some_ne_none a

/-- The nodes of a key in a larger heap: with no list, or with one of its own. -/
theorem chooseNodes_bind {α α' : Type} {R : α → α' → HProp Block} {sinAddr : UInt32}
    (hip : inetPton ppsDefaultIp = some sinAddr) {ring : Addr} (hS : NodesIn S ring nodes) {wantedListSize : ℕ}
    {key : CString} {k : Ptr → HeapNet Block α} {g : Option (List Node) → Net α'}
    (hnone : Follows (S * F) (k none) (g none) R)
    (hsome : ∀ list chosen, Follows (nodeListAt list chosen * (S * F)) (k (some list)) (g (some chosen)) R) :
    Follows (S * F) (liftM (ringGetNodesForKey A sha1 inetPton ring wantedListSize key) >>= k)
      (liftM (PpsDht.ringGetNodesForKey sha1 nodes wantedListSize key) >>= g) R := by
  refine .call (ringGetNodesForKey_implements hip hS) fun p chosen => ?_
  rw [mul_assoc]
  cases p with
  | none =>
    cases chosen with
    | none =>
      rw [chosenAt,one_mul]
      exact hnone
    | some chosen => exact .bot_mul
  | some list =>
    cases chosen with
    | none => exact .bot_mul
    | some chosen => exact hsome list chosen

theorem contactNodes_follows {sinAddr : UInt32} (hip : inetPton ppsDefaultIp = some sinAddr) {ring : Addr}
    (hS : NodesIn S ring nodes) (args : Args) (key : CString) (t : Htable) (table : PpsDht.Htable) (socket : Addr) :
    Follows (tableAt t table * (block socket .socket * S)) (contactNodes A sha1 inetPton ring args key t socket)
      (PpsDht.contactNodes sha1 ⟨nodes,args⟩ key table) fun r o => gotAt r o * S := by
  rw [contactNodes,PpsDht.contactNodes]
  rw [← mul_assoc,mul_comm]
  refine chooseNodes_bind hip hS ?_ fun list chosen => ?_
  · rw [mul_left_comm]
    refine .silent (deleteHtableAndContent_implements t table) fun t' => ?_
    rw [given_mul,one_mul,mul_comm]
    refine .given fun _ => .silent (close_implements socket) fun _ => ?_
    rw [one_mul]
    exact .pure (le_gotAt _)
  · refine .silent readSize_implements fun r => ?_
    rw [given_mul]
    refine .given fun hsize => ?_
    dsimp only
    rw [hsize]
    refine (sendtoList_follows (.pure (le_given rfl le_rfl))).bind fun _ _ => ?_
    have hperm : nodeListAt list chosen * (S * (tableAt t table * block socket .socket)) =
        nodeListAt list chosen * (tableAt t table * block socket .socket) * S := by ac_rfl
    rw [hperm]
    exact (getRecvLoop_follows args.R).frame S

theorem networkGet_follows {sinAddr : UInt32} (hip : inetPton ppsDefaultIp = some sinAddr) {ring : Addr}
    (hS : NodesIn S ring nodes) (args : Args) (key : Option CString) (value : Ptr) (v : Option CString) :
    Follows (stringAt value v * S) (networkGet A sha1 inetPton ring args key value)
      (PpsDht.networkGet sha1 ⟨nodes,args⟩ key v) fun r o => gotAt r o * S := by
  cases key with
  | none =>
    refine .pure ?_
    rw [gotAt,given_mul,if_neg (ErrorCode.noConfusion ·),mul_one]
    exact le_given rfl le_rfl
  | some key =>
    rw [networkGet,PpsDht.networkGet]
    dsimp only
    by_cases hlong : tooLong key
    · rw [if_pos hlong,if_pos hlong]
      refine .pure ?_
      rw [gotAt,given_mul,if_neg (ErrorCode.noConfusion ·),mul_one]
      exact le_given rfl le_rfl
    · rw [if_neg hlong,if_neg hlong]
      refine .silent (freeString_implements value v) fun _ => ?_
      refine .call createSocket_implements fun socket code => ?_
      cases socket with
      | none =>
        cases code with
        | errNetwork =>
          rw [socketAt,one_mul]
          exact .pure (le_gotAt _)
        | _ => exact .bot_mul
      | some socket =>
        cases code with
        | errNone =>
          rw [if_neg (not_not_intro rfl),← one_mul (socketAt _ _ * S)]
          refine .call (constructHtable_implements args.N) fun t table => ?_
          by_cases htable : table.buckets = none
          · rw [if_pos htable]
            refine Follows.mono ?_ (mul_le_mul_left (tableAt_missing htable) _) fun _ _ => le_rfl
            rw [given_mul,one_mul]
            refine .given fun ht => ?_
            rw [if_pos ht]
            refine .silent (close_implements socket) fun _ => ?_
            rw [one_mul]
            exact .pure (le_gotAt _)
          · rw [if_neg htable]
            refine Follows.mono ?_ (mul_le_mul_left (tableAt_present htable) _) fun _ _ => le_rfl
            rw [given_mul]
            refine .given fun ht => ?_
            rw [if_neg ht]
            exact contactNodes_follows hip hS args key t table socket
        | _ => exact .bot_mul

section Packets

def packetAt : Ptr → Option Bytes → HProp Block
  | none, none => 1
  | some msg, some packet => block msg (.buffer packet)
  | _, _ => ⊥

private theorem writeBytes_lift_bind {α α' : Type} {R : α → α' → HProp Block} {msg : Addr} {bytes data : Bytes} {offset : ℕ}
    {k : Unit → Code α} {g : Bytes → Mem α'}
    (h : ∀ bytes, Implements (block msg (.buffer bytes) * F) (k ()) (g bytes) R) :
    Implements (block msg (.buffer bytes) * F) (writeBytes msg offset data >>= k)
      (lift (copyAt bytes offset data) >>= g) R := by
  rw [writeBytes,bind_assoc]
  refine Kind.read_bind (K := buffers) ?_
  cases copyAt bytes offset data with
  | none => exact .fault
  | some bytes => exact .lift_bind rfl (.store_bind (h bytes))

theorem createCatPacket_implements (key val : CString) :
    Implements 1 (createCatPacket A key val) (PpsDht.createCatPacket key val) packetAt := by
  rw [createCatPacket,PpsDht.createCatPacket,← mul_one 1]
  refine .alloc_bind (fun msg => ?_) (.pure ?_)
  · refine writeBytes_lift_bind fun bytes => writeBytes_lift_bind fun bytes => .pure ?_
    rw [mul_one,mul_one]
    exact le_rfl
  · rw [mul_one]
    exact le_rfl

end Packets

theorem sendPacket_follows {sinAddr : UInt32} (hip : inetPton ppsDefaultIp = some sinAddr) {ring : Addr}
    (hS : NodesIn S ring nodes) (args : Args) (key value : CString) (socket : Addr) :
    Follows (block socket .socket * S) (sendPacket A sha1 inetPton ring args key value socket)
      (PpsDht.sendPacket sha1 ⟨nodes,args⟩ key value) fun code code' => given (code = code') S := by
  rw [sendPacket,PpsDht.sendPacket]
  rw [← one_mul (block socket _ * S)]
  refine .call (createCatPacket_implements key value) fun p packet => ?_
  cases p with
  | none =>
    cases packet with
    | some packet => exact .bot_mul
    | none =>
      rw [packetAt,one_mul]
      refine .silent (close_implements socket) fun _ => ?_
      rw [one_mul]
      exact .pure (le_given rfl le_rfl)
  | some msg =>
    cases packet with
    | none => exact .bot_mul
    | some packet =>
      have hring : packetAt (some msg) (some packet) * (block socket .socket * S) =
          S * (block msg (.buffer packet) * block socket .socket) := by
        rw [packetAt]
        ac_rfl
      rw [hring]
      refine chooseNodes_bind hip hS ?_ fun list chosen => ?_
      · rw [mul_left_comm]
        refine .silent (free_implements msg _) fun _ => ?_
        rw [one_mul,mul_comm]
        refine .silent (close_implements socket) fun _ => ?_
        rw [one_mul]
        exact .pure (le_given rfl le_rfl)
      · refine .silent readSize_implements fun r => ?_
        rw [given_mul]
        refine .given fun hsize => ?_
        dsimp only
        rw [hsize]
        have hread : Implements (S * (block msg (.buffer packet) * block socket .socket)) (buffers.read msg)
            (pure packet) fun d d' => given (d = d') (S * (block msg (.buffer packet) * block socket .socket)) := by
          rw [← bind_pure (buffers.read msg),mul_left_comm]
          exact Kind.read_bind (K := buffers) (.pure (le_given rfl le_rfl))
        refine (sendtoList_follows hread).bind fun _ _ => (Follows.ofNet _).bind fun contacted contacted' => .given ?_
        rintro rfl
        have hmsg : nodeListAt list chosen * (S * (block msg (.buffer packet) * block socket .socket)) =
            block msg (.buffer packet) * (nodeListAt list chosen * (block socket .socket * S)) := by ac_rfl
        rw [hmsg]
        refine .silent (free_implements msg _) fun _ => ?_
        rw [one_mul]
        refine .silent nodeListFree_implements fun _ => ?_
        rw [one_mul]
        refine .silent (close_implements socket) fun _ => ?_
        rw [one_mul]
        split <;> exact .pure (le_given rfl le_rfl)

private theorem createSocket_cases {outcomes rest : Outcomes} {code : ErrorCode}
    (h : PpsDht.createSocket outcomes = some (code,rest)) :
    code = .errNone ∧ nextSucceeds outcomes = true ∨ code = .errNetwork ∧ nextSucceeds outcomes = false := by
  rw [PpsDht.createSocket,malloc_bind] at h
  cases hnext : nextSucceeds outcomes with
  | true =>
    rw [hnext] at h
    cases h
    exact Or.inl ⟨rfl,rfl⟩
  | false =>
    rw [hnext] at h
    cases h
    exact Or.inr ⟨rfl,rfl⟩

theorem createAgain_implements : Implements 1 (createAgain A) PpsDht.createSocket
    fun code code' => given (code = code' ∧ code' ≠ .errBadParameter) perhapsOpen := by
  rw [createAgain,← bind_pure PpsDht.createSocket]
  refine createSocket_implements.bind fun socket code => .pure ?_
  cases socket with
  | none =>
    cases code with
    | errNetwork => exact le_given ⟨rfl,by decide⟩ le_sup_left
    | _ => exact bot_le
  | some socket =>
    cases code with
    | errNone =>
      exact le_given ⟨rfl,by decide⟩ ((le_iSup (fun socket => block socket Block.socket) socket).trans le_sup_right)
    | _ => exact bot_le

/-- A `networkPut` leaves nothing behind unless its socket could not be created at first. -/
theorem networkPut_follows {sinAddr : UInt32} (hip : inetPton ppsDefaultIp = some sinAddr) {ring : Addr}
    (hS : NodesIn S ring nodes) (args : Args) (key value : Option CString) (outcomes : Outcomes) :
    Follows S (fun heap _ => networkPut A sha1 inetPton ring args key value heap outcomes)
      (fun _ => PpsDht.networkPut sha1 ⟨nodes,args⟩ key value outcomes) fun code code' => given (code = code')
        ((if nextSucceeds outcomes ∨ code' = .errBadParameter then 1 else perhapsOpen) * S) := by
  have hnothing : Follows S (pure .errBadParameter : HeapNet Block ErrorCode) (pure .errBadParameter : Net ErrorCode)
      fun code code' => given (code = code')
        ((if nextSucceeds outcomes ∨ code' = .errBadParameter then 1 else perhapsOpen) * S) := by
    refine .pure (le_given rfl ?_)
    rw [if_pos (Or.inr rfl),one_mul]
  cases key with
  | none => exact hnothing.fixed outcomes
  | some key =>
    cases value with
    | none => exact hnothing.fixed outcomes
    | some value =>
      rw [networkPut,PpsDht.networkPut]
      by_cases hlong : tooLong key ∨ tooLong value
      · rw [if_pos hlong,if_pos hlong]
        exact hnothing.fixed outcomes
      · rw [if_neg hlong,if_neg hlong,← one_mul S]
        refine .call_fixed createSocket_implements fun socket code rest hsocket => ?_
        rw [one_mul]
        cases socket with
        | none =>
          cases code with
          | errNetwork =>
            obtain ⟨hcode,-⟩ | ⟨-,hnext⟩ := createSocket_cases hsocket
            · cases hcode
            · -- what the second call creates is lost
              have hfailed : ErrorCode.errNetwork ≠ .errNone := by decide
              rw [if_pos hfailed,hnext,socketAt]
              refine ((Follows.ofHeap createAgain_implements).frame S).mono le_rfl fun code code' => ?_
              rw [given_mul]
              intro heap hheap
              obtain ⟨⟨hcode,hother⟩,hheap⟩ := hheap
              refine ⟨hcode,?_⟩
              rwa [if_neg (not_or.mpr ⟨Bool.false_ne_true,hother⟩)]
          | _ => exact .bot_mul
        | some socket =>
          cases code with
          | errNone =>
            obtain ⟨-,hnext⟩ | ⟨hcode,-⟩ := createSocket_cases hsocket
            · rw [if_neg (not_not_intro rfl),hnext]
              refine (sendPacket_follows hip hS args key value socket).mono le_rfl fun code code' => ?_
              rw [if_pos (Or.inl rfl),one_mul]
            · cases hcode
          | _ => exact .bot_mul

end PpsDht.OnHeap
