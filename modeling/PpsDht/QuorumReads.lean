import PpsDht.ClientPrograms
import PpsDht.ServerRefinement
import PpsDht.VoteTally

/-! # Which value a get returns

The loop stops at a timeout or a not-found reply, else at the first value whose
votes reach the quorum or, if that comes first, the 128 votes that turn the
counter negative. -/
namespace PpsDht
open Mem Net SocketPrograms

variable {R N n : ℕ}

/-- The loop is over without a value. -/
abbrev notReached : Outcome := ⟨.errNetwork,none⟩

theorem getRecvLoop_zero (table : Htable) (outcomes : Outcomes) (inputs : List (Option Datagram)) :
    (getRecvLoop R 0 table outcomes).run inputs = some ((notReached,outcomes),inputs) := by
  cases inputs <;> rfl

theorem getRecvLoop_timedOut (table : Htable) (outcomes : Outcomes) (inputs : List (Option Datagram)) :
    (getRecvLoop R (n + 1) table outcomes).run (none::inputs) = some ((notReached,outcomes),inputs) := by
  cases inputs <;> rfl

/-- The loop from the counted vote on. -/
def afterVote (R n : ℕ) (w : CString) (p : ℕ × Htable) : Net Outcome :=
  if p.1 ≥ R then returnValue w else getRecvLoop R n p.2

theorem getRecvLoop_succ (R n : ℕ) (table : Htable) (outcomes : Outcomes) :
    getRecvLoop R (n + 1) table outcomes = .recv fun d => (match d with
      | none => pure notReached
      | some d =>
        let received := d.take maxMsgSize
        let inMsg := received ++ List.replicate (maxMsgSize - received.length) 0
        if inMsg.head? = some 0 ∧ received.length = 1 then pure notReached
        else do
          let reply ← lift (readString inMsg)
          let p ← incrementAndGet table reply
          afterVote R n reply p : Net Outcome) outcomes := rfl

/-- The array `in_msg` after `memset` and `recv`. -/
def replyArray (d : Datagram) : Bytes :=
  let received := d.take maxMsgSize
  received ++ List.replicate (maxMsgSize - received.length) 0

/-- What the client makes of a reply: a value, or `some none` for the not-found reply; reading
an unterminated array has no result. -/
def readReply (d : Datagram) : Option (Option CString) :=
  if (replyArray d).head? = some 0 ∧ (d.take maxMsgSize).length = 1 then some none
  else (readString (replyArray d)).map some

/-- The receive loop reads every reply in this way. -/
theorem getRecvLoop_readReply {R n : ℕ} (table : Htable) (outcomes : Outcomes) (d : Datagram)
    (inputs : List (Option Datagram)) :
    (getRecvLoop R (n + 1) table outcomes).run (some d::inputs) = (readReply d).bind fun
      | none => some ((notReached,outcomes),inputs)
      | some reply => ((liftM (incrementAndGet table reply) >>= afterVote R n reply : Net Outcome)
          outcomes).run inputs := by
  rw [getRecvLoop_succ,Prog.run,readReply]
  change Prog.run ((if (replyArray d).head? = some 0 ∧ (d.take maxMsgSize).length = 1 then pure notReached
    else liftM (lift (readString (replyArray d))) >>= fun reply =>
      liftM (incrementAndGet table reply) >>= afterVote R n reply : Net Outcome) outcomes) inputs = _
  by_cases hzero : (replyArray d).head? = some 0 ∧ (d.take maxMsgSize).length = 1
  · rw [if_pos hzero,if_pos hzero]
    exact pure_run notReached outcomes inputs
  · rw [if_neg hzero,if_neg hzero]
    cases readString (replyArray d) with
    | none => cases inputs <;> rfl
    | some reply =>
      rw [liftM_apply (a := reply) rfl]
      rfl

private theorem replyArray_value {v : CString} (h : v.length < maxMsgSize) :
    replyArray v.chars = v.chars ++ 0::List.replicate (maxMsgSize - v.length - 1) 0 := by
  have hroom : maxMsgSize - v.length = maxMsgSize - v.length - 1 + 1 := by omega
  rw [replyArray,List.take_of_length_le h.le,CString.length_chars]
  conv_lhs => rw [hroom,List.replicate_succ]

/-- Values and the not-found reply are told apart, the empty value included. -/
theorem readReply_getReply {o : Option CString} (h : ∀ v, o = some v → v.length < maxMsgSize) :
    readReply (getReply o) = some o := by
  cases o with
  | none => rfl
  | some v =>
    have hlen := h v rfl
    have hnotFound : ¬((replyArray v.chars).head? = some 0 ∧ (v.chars.take maxMsgSize).length = 1) := by
      rintro ⟨hhead,hone⟩
      rw [List.take_of_length_le hlen.le] at hone
      obtain ⟨c,hc⟩ := List.length_eq_one_iff.mp hone
      rw [replyArray_value hlen,hc] at hhead
      exact CString.ne_zero_of_mem (hc ▸ List.mem_singleton_self c) (Option.some.inj hhead)
    rw [getReply,readReply,if_neg hnotFound,replyArray_value hlen,readString_append]
    rfl

theorem getRecvLoop_notFound (table : Htable) (outcomes : Outcomes) (inputs : List (Option Datagram)) :
    (getRecvLoop R (n + 1) table outcomes).run (some (getReply none)::inputs) =
      some ((notReached,outcomes),inputs) :=
  getRecvLoop_readReply table outcomes (getReply none) inputs

/-- A value that leaves room for the terminator is read back and counted. -/
theorem getRecvLoop_vote {w : CString} (hw : w.length < maxMsgSize) {table : Htable} {p : ℕ × Htable}
    {outcomes rest : Outcomes} (h : incrementAndGet table w outcomes = some (p,rest))
    (inputs : List (Option Datagram)) :
    (getRecvLoop R (n + 1) table outcomes).run (some w.chars::inputs) =
      (afterVote R n w p rest).run inputs := by
  have hread : readReply (getReply (some w)) = some (some w) :=
    readReply_getReply fun v hv => Option.some.inj hv ▸ hw
  have hloop := getRecvLoop_readReply (R := R) (n := n) table outcomes (getReply (some w)) inputs
  rw [hread] at hloop
  exact hloop.trans (congrArg (Prog.run · inputs) (liftM_apply h _))

theorem returnValue_apply (w : CString) (outcomes : Outcomes) : returnValue w outcomes =
    some (if nextSucceeds outcomes then ⟨.errNone,some w⟩ else ⟨.errNomem,none⟩,outcomes.tail) := by
  rw [returnValue,strdup_bind]
  cases nextSucceeds outcomes <;> rfl

/-- A vote that reaches the quorum ends the loop with its value, unless the copy
for the caller fails. -/
theorem afterVote_run {w : CString} {p : ℕ × Htable} (h : R ≤ p.1) (outcomes : Outcomes)
    (inputs : List (Option Datagram)) : (afterVote R n w p outcomes).run inputs =
      some ((if nextSucceeds outcomes then ⟨.errNone,some w⟩ else ⟨.errNomem,none⟩,outcomes.tail),inputs) := by
  rw [afterVote,if_pos h]
  change (ofMem (returnValue w) outcomes).run inputs = _
  rw [ofMem,returnValue_apply]
  exact Prog.run_ret _ _

private theorem afterVote_reached {w : CString} {p : ℕ × Htable} (h : R ≤ p.1) (outcomes : Outcomes)
    (inputs : List (Option Datagram)) :
    ∃ result rest, (afterVote R n w p outcomes).run inputs = some ((result,rest),inputs) ∧
      (result = ⟨.errNone,some w⟩ ∨ result = ⟨.errNomem,none⟩) ∧
      (outcomes = [] → result = ⟨.errNone,some w⟩ ∧ rest = []) := by
  refine ⟨_,_,afterVote_run h outcomes inputs,?_,fun hnil => by rw [hnil]; exact ⟨rfl,rfl⟩⟩
  split
  · exact Or.inl rfl
  · exact Or.inr rfl

variable {exact : Prop}

/-- What the loop does with one vote: it ends once `votes` reach the quorum or 128. -/
theorem getRecvLoop_step {m : ChainedMap N} {seen : List CString}
    (hR : R ≤ intMax ∨ seen.length + 1 < 128) (h : Tally exact m seen) {w : CString}
    (hw : w.length < maxMsgSize) {outcomes : Outcomes} (he : exact → outcomes = [])
    (inputs : List (Option Datagram)) :
    ∃ votes, votes ≤ seen.count w + 1 ∧ (exact → votes = seen.count w + 1) ∧
      ((min R 128 ≤ votes ∧ ∃ result rest,
          (getRecvLoop R (n + 1) m.table outcomes).run (some w.chars::inputs) = some ((result,rest),inputs) ∧
          (result = ⟨.errNone,some w⟩ ∨ result = ⟨.errNomem,none⟩) ∧
          (exact → result = ⟨.errNone,some w⟩ ∧ rest = [])) ∨
        (votes < min R 128 ∧ ∃ (m' : ChainedMap N) (rest : Outcomes),
          Tally exact m' (w::seen) ∧ (exact → rest = []) ∧
          (getRecvLoop R (n + 1) m.table outcomes).run (some w.chars::inputs) =
            (getRecvLoop R n m'.table rest).run inputs)) := by
  obtain ⟨votes,m',rest,hinc,hrest,h128,hle,hexact,htally⟩ := incrementAndGet_tally h w he
  have hR' : R ≤ intMax ∨ votes < 128 := hR.imp_right fun hlen =>
    (hle.trans (Nat.succ_le_succ List.count_le_length)).trans_lt hlen
  refine ⟨votes,hle,hexact,?_⟩
  rw [getRecvLoop_vote hw hinc]
  rcases Nat.lt_or_ge votes (min R 128) with hlt | hge
  · refine Or.inr ⟨hlt,m',rest,htally (lt_of_lt_of_le hlt (Nat.min_le_right R 128)),hrest,?_⟩
    rw [afterVote,if_neg (mt (le_unsignedOfChar hR' h128).mp (Nat.not_le.mpr hlt))]
  · obtain ⟨result,rest',hrun,hresult,hresult₀⟩ :=
      afterVote_reached (n := n) (p := (_,m'.table)) ((le_unsignedOfChar hR' h128).mpr hge) rest inputs
    exact Or.inl ⟨hge,result,rest',hrun,hresult,fun hx => hresult₀ (hrest hx)⟩

/-- A reply as servers send it, short enough for the client's array. -/
def IsReply (d : Datagram) : Prop :=
  ∃ r : Option CString, d = getReply r ∧ ∀ v, r = some v → v.length < maxMsgSize

/-- A get without error has a value and is only behind votes for values, among them
the quorum or 128 for its own. -/
theorem getRecvLoop_sound {m : ChainedMap N} {seen : List CString}
    (hR : R ≤ intMax ∨ seen.length + n < 128) (h : Tally exact m seen) {outcomes : Outcomes}
    (he : exact → outcomes = []) {inputs : List (Option Datagram)} (hin : ∀ d, some d ∈ inputs → IsReply d)
    {out : Outcome} (hcode : out.code = .errNone) {rest : Outcomes} {unread : List (Option Datagram)}
    (hrun : (getRecvLoop R n m.table outcomes).run inputs = some ((out,rest),unread)) :
    ∃ (v : CString) (vs : List CString), out.value = some v ∧
      inputs = vs.map (fun w => some w.chars) ++ unread ∧ min R 128 ≤ seen.count v + vs.count v := by
  induction n generalizing m seen outcomes inputs with
  | zero =>
    rw [getRecvLoop_zero] at hrun
    cases hrun
    exact absurd hcode nofun
  | succ n ih =>
    cases inputs with
    | nil => exact absurd hrun nofun
    | cons i inputs =>
      cases i with
      | none =>
        rw [getRecvLoop_timedOut] at hrun
        cases hrun
        exact absurd hcode nofun
      | some d =>
        obtain ⟨r,rfl,hlen⟩ := hin d List.mem_cons_self
        have hin' : ∀ d, some d ∈ inputs → IsReply d := fun d hd => hin d (List.mem_cons_of_mem _ hd)
        cases r with
        | none =>
          rw [getRecvLoop_notFound] at hrun
          cases hrun
          exact absurd hcode nofun
        | some w =>
          obtain ⟨votes,hle,-,hcase⟩ := getRecvLoop_step (n := n) (hR.imp_right fun hlt => by omega) h
            (hlen w rfl) he inputs
          rcases hcase with ⟨hge,result,rest',hstep,hresult,-⟩ | ⟨-,m',rest',htally,hrest,hstep⟩
          · cases hstep.symm.trans hrun
            rcases hresult with rfl | rfl
            · exact ⟨w,[w],rfl,rfl,by rw [List.count_singleton_self]; omega⟩
            · exact absurd hcode nofun
          · obtain ⟨v,vs,hv,rfl,hcount⟩ := ih (hR.imp_right fun hlt => by rw [List.length_cons]; omega) htally
              hrest hin' (hstep.symm.trans hrun)
            refine ⟨v,w::vs,hv,rfl,?_⟩
            rw [List.count_cons] at hcount ⊢
            omega

/-- The first value to reach the quorum or 128 votes is returned. -/
theorem getRecvLoop_first (hR : R ≤ intMax) {m : ChainedMap N} {seen : List CString}
    (h : Tally True m seen) {before : List CString} {v : CString}
    (hsize : ∀ w ∈ before, w.length < maxMsgSize) (hv : v.length < maxMsgSize)
    (hbefore : ∀ w, seen.count w + before.count w < min R 128)
    (hreach : min R 128 ≤ seen.count v + before.count v + 1) (hn : before.length < n)
    (inputs : List (Option Datagram)) :
    (getRecvLoop R n m.table []).run (before.map (fun w => some w.chars) ++ some v.chars::inputs) =
      some ((⟨.errNone,some v⟩,[]),inputs) := by
  obtain ⟨n,rfl⟩ := Nat.exists_eq_succ_of_ne_zero (Nat.ne_zero_of_lt hn)
  induction before generalizing m seen n with
  | nil =>
    obtain ⟨votes,-,hexact,hcase⟩ := getRecvLoop_step (n := n) (Or.inl hR) h hv (fun _ => rfl) inputs
    have hvotes := hexact trivial
    rw [List.count_nil] at hreach
    rcases hcase with ⟨-,result,rest,hstep,-,hresult⟩ | ⟨hlt,-⟩
    · obtain ⟨rfl,rfl⟩ := hresult trivial
      exact hstep
    · omega
  | cons w before ih =>
    obtain ⟨votes,-,hexact,hcase⟩ := getRecvLoop_step (n := n) (Or.inl hR) h (hsize w List.mem_cons_self)
      (fun _ => rfl) (before.map (fun w => some w.chars) ++ some v.chars::inputs)
    have hvotes := hexact trivial
    have hw := hbefore w
    rw [List.count_cons_self] at hw
    rcases hcase with ⟨hge,-⟩ | ⟨-,m',rest,htally,hrest,hstep⟩
    · omega
    · obtain rfl := hrest trivial
      rw [List.map_cons,List.cons_append,hstep]
      obtain ⟨n,rfl⟩ := Nat.exists_eq_succ_of_ne_zero
        (Nat.ne_zero_of_lt (Nat.lt_of_succ_lt_succ hn))
      refine ih htally (fun x hx => hsize x (List.mem_cons_of_mem w hx)) (fun x => ?_) ?_ n
        (Nat.lt_of_succ_lt_succ hn)
      · have hx := hbefore x
        rw [List.count_cons] at hx ⊢
        omega
      · rw [List.count_cons] at hreach ⊢
        omega

/-- Whatever allocations fail, a get that returns a value got it from the loop. -/
theorem networkGet_run {sha1 : Bytes → Digest} {client : Client} {key v : CString} {value : Option CString}
    {outcomes rest : Outcomes} {inputs unread : List (Option Datagram)}
    (hrun : (networkGet sha1 client (some key) value outcomes).run inputs =
      some ((⟨.errNone,some v⟩,rest),unread)) :
    ∃ (hN : client.args.N ≠ 0) (n : ℕ) (outcomes' : Outcomes),
      (getRecvLoop client.args.R n (ChainedMap.empty hN).table outcomes').run inputs =
        some ((⟨.errNone,some v⟩,rest),unread) := by
  rw [networkGet] at hrun
  split at hrun
  · cases of_pure_run hrun
  · obtain ⟨code,outcomes₁,-,hrun⟩ := of_liftM_run hrun
    split at hrun
    · cases of_pure_run hrun
    · obtain ⟨table,outcomes₂,htable,hrun⟩ := of_liftM_run hrun
      have hN : client.args.N ≠ 0 := fun hz => by
        rw [hz] at htable
        cases htable
      obtain ⟨table',rest',htable',hcases⟩ := constructHtable_returns hN outcomes₁
      obtain ⟨rfl,rfl⟩ := Prod.mk.inj (Option.some.inj (htable.symm.trans htable'))
      rcases hcases with rfl | rfl
      · rw [if_neg (ChainedMap.buckets_ne_none _),contactNodes] at hrun
        obtain ⟨nodes,outcomes₃,-,hrun⟩ := of_liftM_run hrun
        cases nodes with
        | none => cases of_pure_run hrun
        | some nodes =>
          dsimp only at hrun
          rw [sendtoServers_bind,Prog.run_sendAll] at hrun
          exact ⟨hN,nodes.length,outcomes₃,hrun⟩
      · cases of_pure_run hrun

end PpsDht
