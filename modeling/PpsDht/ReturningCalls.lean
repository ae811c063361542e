import PpsDht.BoundedCalls
import PpsDht.FreshGets

/-! # Puts and gets return

Whatever is lost and whatever other clients do, a put or get takes at most as many sends
and as many receives as it has servers, and then returns. -/
namespace PpsDht
open Mem Net SocketPrograms DatagramNetworks

private theorem putRecvLoop_answers (W n contacted : ℕ) (outcomes : Outcomes) :
    (putRecvLoop W n contacted outcomes).Answers (fun _ => True) n := by
  induction n generalizing contacted with
  | zero => exact fun inputs _ _ => ⟨_,pure_run contacted outcomes inputs⟩
  | succ n ih =>
    intro inputs hlen hin
    obtain ⟨d,inputs,rfl⟩ := List.exists_cons_of_length_eq_add_one hlen
    cases d with
    | none => exact ⟨_,pure_run contacted outcomes inputs⟩
    | some d =>
      change ∃ result, ((if contacted + 1 ≥ W then pure (contacted + 1) else putRecvLoop W n (contacted + 1) : Net ℕ)
        outcomes).run inputs = some result
      split
      · exact ⟨_,pure_run _ outcomes inputs⟩
      · exact ih _ inputs (Nat.succ.inj hlen) fun _ _ => trivial

/-- The votes of the loop end or go on, and no reply of a server is undefined for it. -/
theorem getRecvLoop_answers {R N n : ℕ} {m : ChainedMap N} {seen : List CString}
    (hR : R ≤ intMax ∨ seen.length + n < 128) (h : Tally True m seen) :
    (getRecvLoop R n m.table []).Answers IsReply n := by
  induction n generalizing m seen with
  | zero => exact fun inputs _ _ => ⟨_,getRecvLoop_zero m.table [] inputs⟩
  | succ n ih =>
    intro inputs hlen hin
    obtain ⟨input,inputs,rfl⟩ := List.exists_cons_of_length_eq_add_one hlen
    have hin' : ∀ d, some d ∈ inputs → IsReply d := fun d hd => hin d (List.mem_cons_of_mem _ hd)
    cases input with
    | none => exact ⟨_,getRecvLoop_timedOut m.table [] inputs⟩
    | some d =>
      obtain ⟨reply,rfl,hsize⟩ := hin d List.mem_cons_self
      cases reply with
      | none => exact ⟨_,getRecvLoop_notFound m.table [] inputs⟩
      | some u =>
        obtain ⟨votes,-,-,hcase⟩ := getRecvLoop_step (n := n) (hR.imp_right fun hlt => by omega) h
          (hsize u rfl) (fun _ => rfl) inputs
        rcases hcase with ⟨-,result,rest,hstep,-⟩ | ⟨-,m',rest,htally,hrest,hstep⟩
        · exact ⟨_,hstep⟩
        · obtain rfl := hrest trivial
          obtain ⟨result,hrun⟩ := ih (hR.imp_right fun hlt => by rw [List.length_cons]; omega) htally inputs
            (Nat.succ.inj hlen) hin'
          exact ⟨result,hstep.trans hrun⟩

/-- What a call can make sense of: a put reads no reply. -/
def Operation.Accepts : Operation → Datagram → Prop
  | put _ _, _ => True
  | get _, d => IsReply d

theorem Operation.answers {client : Client} (h : client.Ready) (hR : client.args.R ≤ intMax ∨ client.args.N < 128)
    (sha1 : Bytes → Digest) (op : Operation) : (op.program sha1 client).Answers op.Accepts client.args.N := by
  cases op with
  | put k v =>
    by_cases hlong : tooLong k ∨ tooLong v
    · rw [program_tooLong hlong]
      exact fun inputs _ _ => ⟨_,Prog.run_ret _ inputs⟩
    · rw [not_or,Bool.not_eq_true,Bool.not_eq_true] at hlong
      rw [program_put h sha1 hlong.1 hlong.2]
      exact Prog.answers_sendAll ((putRecvLoop_answers _ _ _ _).bind_ret _) _ _
  | get k =>
    cases hlong : tooLong k with
    | true =>
      rw [program_tooLong hlong]
      exact fun inputs _ _ => ⟨_,Prog.run_ret _ inputs⟩
    | false =>
      rw [program_get h sha1 hlong]
      have hloop := getRecvLoop_answers (by simpa using hR) (tally_initial h.positive.ne')
      exact Prog.answers_sendAll (hloop.bind_ret _) _ _

variable {sha1 : Bytes → Digest} {clients : ℕ → Client} {calls : ℕ → Operation} {servers : SockAddr → Htable}
  {es : List (Event SockAddr Datagram Outcome)} {w : SharedWorld SockAddr Htable Datagram Outcome} {i : ℕ}
  {a : SockAddr} {d : Datagram}

/-- What a call receives is the answer of a server to its request. -/
theorem accepts_of_received (h : (clients i).Ready) (hrun : SharedRun (sharedDht sha1 clients calls) servers es w)
    (hreach : ∀ a, ReachableTable (servers a)) (hd : .received i a d ∈ es) : (calls i).Accepts d := by
  cases hcall : calls i with
  | put k v => trivial
  | get k => exact isReply_of_received h hrun hreach hcall hd

/-- In every run of any number of clients, whatever is lost, duplicated or reordered, a put or
get has taken at most `2 * N` actions of its own, and if it has not returned, it can do so
within `2 * N` actions in all without anything else happening. -/
theorem call_returns (sha1 : Bytes → Digest) (clients : ℕ → Client) (calls : ℕ → Operation)
    (servers : SockAddr → Htable) (es : List (Event SockAddr Datagram Outcome))
    (w : SharedWorld SockAddr Htable Datagram Outcome) (i : ℕ) (h : (clients i).Ready)
    (hR : (clients i).args.R ≤ intMax ∨ (clients i).args.N < 128) (hreach : ∀ a, ReachableTable (servers a))
    (hrun : SharedRun (sharedDht sha1 clients calls) servers es w) :
    (es.filterMap (Event.action? i)).length ≤ 2 * (clients i).args.N ∧ ((∀ out, .returned i out ∉ es) →
      ∃ own out w', SharedRun (sharedDht sha1 clients calls) servers (es ++ own ++ [.returned i out]) w' ∧
        (∀ e ∈ own, e.action? i ≠ none) ∧
        (es.filterMap (Event.action? i)).length + own.length ≤ 2 * (clients i).args.N) := by
  have hbounded := hrun.bounded (Operation.sends h sha1 (calls i)) (Operation.answers h hR sha1 (calls i))
    fun a d hd => accepts_of_received h hrun hreach hd
  rwa [List.length_map,h.length_servers,← Nat.two_mul] at hbounded

/-- The get has sent its request to one of its two servers. -/
theorem call_returns_started :
    ∃ (a b : SockAddr) (w : SharedWorld SockAddr Htable Datagram Outcome),
      SharedRun (sharedDht (fun _ => .zero) (fun _ => localClient 2 2 1) putThenGet) initialTables
        ((overlappingPut a b).take 7) w ∧
      ((((overlappingPut a b).take 7).filterMap (Event.action? 1)).length ≤ 2 * 2 ∧
        ((∀ out, .returned 1 out ∉ (overlappingPut a b).take 7) →
          ∃ own out w', SharedRun (sharedDht (fun _ => .zero) (fun _ => localClient 2 2 1) putThenGet) initialTables
            ((overlappingPut a b).take 7 ++ own ++ [.returned 1 out]) w' ∧ (∀ e ∈ own, e.action? 1 ≠ none) ∧
            (((overlappingPut a b).take 7).filterMap (Event.action? 1)).length + own.length ≤ 2 * 2)) := by
  obtain ⟨a,b,w,hrun⟩ := exists_run_overlappingPut
  have hshared : SharedRun (sharedDht (fun _ => .zero) (fun _ => localClient 2 2 1) putThenGet) initialTables
      (overlappingPut a b) (w.shared _) := hrun.shared
  obtain ⟨w₁,hrun₁⟩ := hshared.take (List.take_append_drop 7 _).symm
  exact ⟨a,b,w₁,hrun₁,call_returns (fun _ => .zero) (fun _ => localClient 2 2 1) putThenGet initialTables
    ((overlappingPut a b).take 7) w₁ 1 (localClient_ready 2 1 (by decide) (by decide)) (Or.inl (by decide))
    (fun _ => reachableTable_initial) hrun₁⟩

end PpsDht
