import PpsDht.DhtNetwork

/-! # What puts and gets send and receive

Whatever allocations fail, a get sends its key and nothing else and a put its key and value.
A put that returns without an error has received something, unless its socket could only be
created at the second attempt. -/
namespace PpsDht
open Mem Net SocketPrograms

variable {α β : Type} {outcomes : Outcomes}

/-- A step in memory is undefined or goes on with its result. -/
theorem exec_liftM {m : Mem α} {f : α → Net β} {t : List (Action SockAddr Datagram)}
    {q : Prog SockAddr Datagram (β × Outcomes)} (h : Exec (((liftM m : Net α) >>= f) outcomes) t q) :
    t = [] ∧ q = .fault ∨ ∃ a rest, m outcomes = some (a,rest) ∧ Exec (f a rest) t q := by
  cases hm : m outcomes with
  | none =>
    rw [liftM_fault hm f] at h
    exact .inl h.of_fault
  | some r =>
    rw [liftM_apply hm f] at h
    exact .inr ⟨r.1,r.2,rfl,h⟩

theorem liftM_onlySends {P : Datagram → Prop} {m : Mem α} {f : α → Net β}
    (h : ∀ a rest, m outcomes = some (a,rest) → (f a rest).OnlySends P) :
    (((liftM m : Net α) >>= f) outcomes).OnlySends P := by
  cases hm : m outcomes with
  | none =>
    rw [liftM_fault hm f]
    trivial
  | some r =>
    rw [liftM_apply hm f]
    exact h r.1 r.2 hm

variable {client : Client} {key value : CString}

theorem networkGet_onlySends (sha1 : Bytes → Digest) (client : Client) (key : CString) (pointed : Option CString)
    (outcomes : Outcomes) : (networkGet sha1 client (some key) pointed outcomes).OnlySends (· = key.chars) := by
  rw [networkGet]
  split
  · trivial
  refine liftM_onlySends fun code rest _ => ?_
  split
  · trivial
  refine liftM_onlySends fun table rest _ => ?_
  split
  · trivial
  rw [contactNodes]
  refine liftM_onlySends fun found rest _ => ?_
  cases found with
  | none => trivial
  | some nodes =>
    dsimp only
    rw [sendtoServers_bind]
    exact Prog.onlySends_sendAll (P := (· = key.chars)) rfl (getRecvLoop_sends _ _ _ _).onlySends _

private theorem getRecvLoop_received {R n : ℕ} {table : Htable} {inputs unread : List (Option Datagram)} {out : Outcome}
    {rest : Outcomes} (hcode : out.code = .errNone)
    (h : (getRecvLoop R n table outcomes).run inputs = some ((out,rest),unread)) :
    0 < inputs.countP Option.isSome := by
  cases n with
  | zero =>
    rw [getRecvLoop_zero] at h
    cases h
    cases hcode
  | succ n =>
    cases inputs with
    | nil => exact absurd h nofun
    | cons d inputs =>
      cases d with
      | none =>
        rw [getRecvLoop_timedOut] at h
        cases h
        cases hcode
      | some d =>
        rw [List.countP_cons_of_pos rfl]
        exact Nat.succ_pos _

/-- A get that returns a value has received something. -/
theorem networkGet_received {sha1 : Bytes → Digest} {pointed : Option CString} {val : CString}
    {inputs unread : List (Option Datagram)} {rest : Outcomes}
    (h : (networkGet sha1 client (some key) pointed outcomes).run inputs = some ((⟨.errNone,some val⟩,rest),unread)) :
    0 < inputs.countP Option.isSome := by
  obtain ⟨_,_,_,hloop⟩ := networkGet_run h
  exact getRecvLoop_received rfl hloop

private theorem createSocket_apply (outcomes : Outcomes) :
    createSocket outcomes = some (if nextSucceeds outcomes then .errNone else .errNetwork,outcomes.tail) := by
  rw [createSocket,malloc_bind]
  cases nextSucceeds outcomes <;> rfl

/-- Creating a socket fails and succeeds when it is tried again. -/
def SocketRetried (outcomes : Outcomes) : Prop := nextSucceeds outcomes = false ∧ nextSucceeds outcomes.tail = true

private theorem createCatPacket_result {packet : Bytes} {rest : Outcomes}
    (h : createCatPacket key value outcomes = some (some packet,rest)) : packet = key.chars ++ 0::value.chars := by
  rw [createCatPacket_apply] at h
  have hpacket := (Prod.mk.inj (Option.some.inj h)).1
  split at hpacket
  · exact (Option.some.inj hpacket).symm
  · cases hpacket

theorem networkPut_onlySends (sha1 : Bytes → Digest) (client : Client) (key value : CString) (outcomes : Outcomes) :
    (networkPut sha1 client (some key) (some value) outcomes).OnlySends (· = key.chars ++ 0::value.chars) := by
  rw [networkPut]
  split
  · trivial
  refine liftM_onlySends fun code rest _ => ?_
  split
  · change (ofMem createSocket rest).OnlySends _
    rw [ofMem]
    split <;> trivial
  rw [sendPacket]
  refine liftM_onlySends fun packet rest hpacket => ?_
  cases packet with
  | none => trivial
  | some msg =>
    refine liftM_onlySends fun found rest _ => ?_
    cases found with
    | none => trivial
    | some nodes =>
      dsimp only
      rw [sendtoServers_bind]
      refine Prog.onlySends_sendAll (P := (· = key.chars ++ 0::value.chars)) (createCatPacket_result hpacket) ?_ _
      refine (putRecvLoop_sends _ _ _ _).onlySends.bind fun r => ?_
      dsimp only
      split <;> trivial

/-- Whatever allocations fail, a put without error has contacted enough servers in the loop, or the
second attempt got a socket. -/
theorem networkPut_run {sha1 : Bytes → Digest} {inputs unread : List (Option Datagram)} {rest : Outcomes}
    (h : (networkPut sha1 client (some key) (some value) outcomes).run inputs = some ((.errNone,rest),unread)) :
    (∃ n contacted outcomes', client.args.W ≤ contacted ∧
        (putRecvLoop client.args.W n 0 outcomes').run inputs = some ((contacted,rest),unread)) ∨
      tooLong key = false ∧ SocketRetried outcomes := by
  rw [networkPut] at h
  split at h
  · cases of_pure_run h
  rename_i hshort
  rw [not_or,Bool.not_eq_true,Bool.not_eq_true] at hshort
  rw [liftM_apply (createSocket_apply outcomes)] at h
  cases hsocket : nextSucceeds outcomes with
  | false =>
    rw [hsocket,if_pos (by decide)] at h
    refine .inr ⟨hshort.1,hsocket,?_⟩
    change (ofMem createSocket outcomes.tail).run inputs = _ at h
    rw [ofMem,createSocket_apply] at h
    cases hnext : nextSucceeds outcomes.tail with
    | false =>
      rw [hnext] at h
      cases @of_pure_run _ ErrorCode.errNetwork _ _ _ _ _ h
    | true => rfl
  | true =>
    rw [hsocket,if_neg (by simp),sendPacket] at h
    obtain ⟨packet,rest₂,-,h⟩ := of_liftM_run h
    cases packet with
    | none => cases of_pure_run h
    | some msg =>
      obtain ⟨found,rest₃,-,h⟩ := of_liftM_run h
      cases found with
      | none => cases of_pure_run h
      | some nodes =>
        dsimp only at h
        rw [sendtoServers_bind,Prog.run_sendAll] at h
        have hbind := (Prog.run_bind (putRecvLoop client.args.W nodes.length 0 rest₃) _ inputs).symm.trans h
        obtain ⟨⟨⟨contacted,rest₄⟩,unread'⟩,hloop,hcode⟩ := Option.bind_eq_some_iff.mp hbind
        dsimp only at hcode
        split at hcode
        · cases of_pure_run hcode
        · rename_i hquorum
          rw [pure_run] at hcode
          cases hcode
          exact .inl ⟨nodes.length,contacted,rest₃,not_lt.mp hquorum,hloop⟩

theorem networkPut_received {sha1 : Bytes → Digest} (hW : 1 ≤ client.args.W)
    {inputs unread : List (Option Datagram)} {rest : Outcomes}
    (h : (networkPut sha1 client (some key) (some value) outcomes).run inputs = some ((.errNone,rest),unread)) :
    0 < inputs.countP Option.isSome ∨ tooLong key = false ∧ SocketRetried outcomes := by
  refine (networkPut_run h).imp_left fun ⟨n,contacted,outcomes',hquorum,hloop⟩ => ?_
  have hcount := putRecvLoop_run hloop
  omega

/-- A put whose socket is created at the second attempt sends nothing and returns no error. -/
theorem networkPut_retried (sha1 : Bytes → Digest) (client : Client) (h : SocketRetried outcomes)
    (hkey : tooLong key = false) (hvalue : tooLong value = false) :
    networkPut sha1 client (some key) (some value) outcomes = .ret (.errNone,outcomes.tail.tail) := by
  rw [networkPut]
  simp only [hkey,hvalue]
  rw [if_neg (by decide),liftM_apply (createSocket_apply outcomes),h.1,if_pos (by decide)]
  change ofMem createSocket outcomes.tail = _
  rw [ofMem,createSocket_apply,h.2]
  rfl

end PpsDht
