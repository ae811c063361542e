import PpsDht.DatagramNetworks
import PpsDht.QuorumReads
import PpsDht.ServerRefinement

/-! # The client and its servers on the network

The client makes its calls one after the other while every server runs its main
loop. Messages past the maximal size are refused on sending, and a server whose
behaviour is undefined takes no further step. -/
namespace PpsDht
open Mem Net SocketPrograms DatagramNetworks

inductive Operation where
  | put (key value : CString)
  | get (key : CString)
  deriving DecidableEq

namespace Operation

def key : Operation → CString
  | put k _ => k
  | get k => k

def message : Operation → Datagram
  | put k v => k.chars ++ 0::v.chars
  | get k => k.chars

/-- The call of the library; a put returns a code only. -/
def program (sha1 : Bytes → Digest) (client : Client) : Operation → Prog SockAddr Datagram Outcome
  | put k v => networkPut sha1 client (some k) (some v) [] >>= fun r => .ret ⟨r.1,none⟩
  | get k => networkGet sha1 client (some k) none [] >>= fun r => .ret r.1

end Operation

def dhtNetwork (sha1 : Bytes → Digest) (client : Client) (calls : ℕ → Operation) :
    System SockAddr Htable Datagram Outcome where
  calls i := (calls i).program sha1 client
  handle table d table' replies := d.length ≤ maxMsgSize ∧ Succeeds (serve table d) (table',replies)
  sendable d := d.length ≤ maxMsgSize

private theorem liftM_sends {α β : Type} (m : Mem α) {f : α → Net β} {l : List (SockAddr × Datagram)}
    (h : ∀ a rest, (f a rest).Sends l) (outcomes : Outcomes) :
    (((liftM m : Net α) >>= f) outcomes).Sends l := by
  cases hm : m outcomes with
  | none =>
    rw [liftM_fault hm f]
    trivial
  | some p =>
    rw [liftM_apply hm f]
    exact h p.1 p.2

theorem putRecvLoop_sends (W n contacted : ℕ) (outcomes : Outcomes) :
    (putRecvLoop W n contacted outcomes).Sends [] := by
  induction n generalizing contacted with
  | zero => trivial
  | succ n ih =>
    intro d
    cases d with
    | none => trivial
    | some d =>
      change ((if contacted + 1 ≥ W then pure (contacted + 1) else putRecvLoop W n (contacted + 1) : Net ℕ)
        outcomes).Sends []
      split
      · trivial
      · exact ih _

theorem getRecvLoop_sends (R n : ℕ) (table : Htable) (outcomes : Outcomes) :
    (getRecvLoop R n table outcomes).Sends [] := by
  induction n generalizing table outcomes with
  | zero => trivial
  | succ n ih =>
    rw [getRecvLoop_succ]
    intro d
    cases d with
    | none => trivial
    | some d =>
      dsimp only
      split
      · trivial
      · refine liftM_sends _ (fun reply rest => liftM_sends _ (fun p rest => ?_) rest) outcomes
        rw [afterVote]
        split
        · change (ofMem (returnValue reply) rest).Sends []
          rw [ofMem,returnValue_apply]
          trivial
        · exact ih _ _

variable {sha1 : Bytes → Digest} {client : Client}

theorem Operation.program_put (h : client.Ready) (sha1 : Bytes → Digest) {k v : CString}
    (hk : tooLong k = false) (hv : tooLong v = false) :
    (Operation.put k v).program sha1 client = .sendAll (client.servers sha1 k) (k.chars ++ 0::v.chars)
      (putRecvLoop client.args.W client.args.N 0 [] >>= fun p =>
        .ret ⟨if p.1 < client.args.W then .errNetwork else .errNone,none⟩) := by
  rw [program,networkPut_eq h sha1 hk hv,Prog.sendAll_bind,Prog.bind_bind]
  rfl

theorem Operation.program_get (h : client.Ready) (sha1 : Bytes → Digest) {k : CString}
    (hk : tooLong k = false) :
    (Operation.get k).program sha1 client = .sendAll (client.servers sha1 k) k.chars
      (getRecvLoop client.args.R client.args.N (ChainedMap.empty h.positive.ne').table [] >>= fun p =>
        .ret p.1) := by
  rw [program,networkGet_eq h sha1 hk,Prog.sendAll_bind]

/-- A put whose key or value is too long, or a get of such a key. -/
theorem Operation.program_tooLong {op : Operation}
    (h : match op with | put k v => tooLong k ∨ tooLong v | get k => tooLong k) :
    op.program sha1 client = .ret ⟨.errBadParameter,none⟩ := by
  cases op with
  | put k v =>
    rw [program,networkPut,if_pos h]
    rfl
  | get k =>
    rw [program,networkGet,if_pos h]
    rfl

/-- A call sends its message to the servers of its key, once each. -/
theorem Operation.sends (h : client.Ready) (sha1 : Bytes → Digest) (op : Operation) :
    (op.program sha1 client).Sends ((client.servers sha1 op.key).map fun a => (a,op.message)) := by
  cases op with
  | put k v =>
    by_cases hlong : tooLong k ∨ tooLong v
    · rw [program_tooLong hlong]
      trivial
    · rw [not_or,Bool.not_eq_true,Bool.not_eq_true] at hlong
      rw [program_put h sha1 hlong.1 hlong.2]
      exact Prog.sends_sendAll ((putRecvLoop_sends _ _ _ _).bind_ret _) _ _
  | get k =>
    cases hlong : tooLong k with
    | true =>
      rw [program_tooLong hlong]
      trivial
    | false =>
      rw [program_get h sha1 hlong]
      exact Prog.sends_sendAll ((getRecvLoop_sends _ _ _ _).bind_ret _) _ _

/-- A message that the server takes as a put was sent by this very put. -/
theorem Operation.eq_put {op : Operation} {k v : CString} (hlen : op.message.length ≤ maxMsgSize)
    (h : Denotes op.message (.put k v)) : op = .put k v := by
  have hdis := dispatch_of_denotes h hlen
  cases op with
  | put k' v' =>
    rw [message,CString.length_separated] at hlen
    by_cases hne : k' ≠ .empty ∨ v' ≠ .empty
    · rw [message,(dispatch_put_iff hlen).mpr hne] at hdis
      obtain ⟨rfl,rfl⟩ := Request.put.inj (Option.some.inj hdis)
      rfl
    · rw [not_or,not_not,not_not] at hne
      obtain ⟨rfl,rfl⟩ := hne
      have hdump : dispatch [0] = some .dump := dispatch_of_denotes .dump (by decide)
      exact absurd (hdump.symm.trans hdis) nofun
  | get k' =>
    rw [message,dispatch_chars k' hlen] at hdis
    split at hdis <;> exact absurd hdis nofun

/-- The server takes the message of a put as this put, unless key and value are empty. -/
theorem Operation.denotes_put {k v : CString} (h : k ≠ .empty ∨ v ≠ .empty) :
    Denotes (Operation.put k v).message (.put k v) := by
  by_cases hv : v = .empty
  · subst hv
    exact .putEmpty k (h.resolve_right (not_not.mpr rfl))
  · exact .put k v hv

variable {calls : ℕ → Operation} {i : ℕ} {k v : CString}

/-- The number of counted receives, all of them of messages. -/
theorem putRecvLoop_run {W n contacted total : ℕ} {outcomes rest : Outcomes}
    {inputs unread : List (Option Datagram)}
    (hrun : (putRecvLoop W n contacted outcomes).run inputs = some ((total,rest),unread)) :
    total ≤ contacted + inputs.countP Option.isSome := by
  induction n generalizing contacted inputs with
  | zero =>
    rw [putRecvLoop,pure_run] at hrun
    cases hrun
    exact Nat.le_add_right _ _
  | succ n ih =>
    cases inputs with
    | nil => exact absurd hrun nofun
    | cons d inputs =>
      cases d with
      | none =>
        change ((pure contacted : Net ℕ) outcomes).run inputs = _ at hrun
        rw [pure_run] at hrun
        cases hrun
        exact Nat.le_add_right _ _
      | some d =>
        change ((if contacted + 1 ≥ W then pure (contacted + 1) else putRecvLoop W n (contacted + 1) : Net ℕ)
          outcomes).run inputs = _ at hrun
        rw [List.countP_cons_of_pos rfl]
        split at hrun
        · rw [pure_run] at hrun
          cases hrun
          omega
        · have hle := ih hrun
          omega

/-- The message is the value, as a reply to a get. -/
def isValue (v : CString) (d : Datagram) : Bool := d = v.chars

theorem handle_put (m : ServerMap) (k v : CString) (hne : k ≠ .empty ∨ v ≠ .empty)
    (hlen : (k.chars ++ 0::v.chars).length ≤ maxMsgSize) :
    (dhtNetwork sha1 client calls).handle m.table (k.chars ++ 0::v.chars) (m.add k v).table [[]] := by
  have hdis := dispatch_of_denotes (Operation.denotes_put hne) hlen
  have hserve := serve_succeeds (m := m) hdis nofun
  exact ⟨hlen,hserve⟩

theorem handle_get {m : ServerMap} (hv : m.lookup k = some v) (hk : k ≠ .empty)
    (hlen : k.chars.length ≤ maxMsgSize) :
    (dhtNetwork sha1 client calls).handle m.table k.chars m.table [v.chars] := by
  have hserve := serve_succeeds (m := m) (dispatch_of_denotes (.get k hk) hlen) nofun
  rw [Request.answer,hv] at hserve
  exact ⟨hlen,hserve⟩

/-- A get returns a value that is all it receives. -/
theorem run_get_equal {R N n : ℕ} (hN : N ≠ 0) (hpos : 0 < R) (hR : R ≤ 128) (hn : R ≤ n)
    (hv : v.length < maxMsgSize) :
    (getRecvLoop R n (ChainedMap.empty hN).table [] >>= fun p =>
      .ret p.1 : Prog SockAddr Datagram Outcome).run (List.replicate R (some v.chars)) =
        some (⟨.errNone,some v⟩,[]) := by
  obtain ⟨R,rfl⟩ := Nat.exists_eq_add_one_of_ne_zero hpos.ne'
  have hfew : ∀ u, (List.replicate R v).count u ≤ R := fun u =>
    List.count_le_length.trans (List.length_replicate).le
  have hsize : ∀ u ∈ List.replicate R v, u.length < maxMsgSize := fun u hu =>
    List.eq_of_mem_replicate hu ▸ hv
  have hfirst := getRecvLoop_first (n := n) (hR.trans (by decide)) (tally_initial hN) hsize hv
    (fun u => by rw [List.count_nil,Nat.zero_add,Nat.min_eq_left hR]; exact Nat.lt_succ_of_le (hfew u))
    (by rw [List.count_replicate_self,List.count_nil,Nat.zero_add]; exact Nat.min_le_left _ _)
    (by rw [List.length_replicate]; exact hn) []
  rw [List.map_replicate,← List.replicate_succ'] at hfirst
  rw [Prog.run_bind,hfirst]
  rfl

theorem calls_put (h : client.Ready) (hcall : calls i = .put k v) (hk : tooLong k = false)
    (hv : tooLong v = false) {as : List SockAddr} (has : client.servers sha1 k = as) :
    (dhtNetwork sha1 client calls).calls i = .sendAll as (k.chars ++ 0::v.chars)
      (putRecvLoop client.args.W client.args.N 0 [] >>= fun p =>
        .ret ⟨if p.1 < client.args.W then .errNetwork else .errNone,none⟩) := by
  change (calls i).program sha1 client = _
  rw [hcall,Operation.program_put h sha1 hk hv,has]

theorem calls_get (h : client.Ready) (hcall : calls i = .get k) (hk : tooLong k = false)
    {as : List SockAddr} (has : client.servers sha1 k = as) :
    (dhtNetwork sha1 client calls).calls i = .sendAll as k.chars
      (getRecvLoop client.args.R client.args.N (ChainedMap.empty h.positive.ne').table [] >>= fun p =>
        .ret p.1) := by
  change (calls i).program sha1 client = _
  rw [hcall,Operation.program_get h sha1 hk,has]

/-- A client with as many local servers as it asks for, and servers that start empty. -/
abbrev localNetwork (N R W : ℕ) (calls : ℕ → Operation) : System SockAddr Htable Datagram Outcome :=
  dhtNetwork (fun _ => .zero) (localClient N R W) calls

abbrev initialTables : SockAddr → Htable := fun _ => ServerMap.initial.table

/-- The key and the value of one letter are put first and then looked up for good. -/
def putThenGet : ℕ → Operation
  | 0 => .put .letterK .letterV
  | _ => .get .letterK

end PpsDht
