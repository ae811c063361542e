import PpsDht.ClientCat
import PpsDht.ClientTraces
import PpsDht.OptionParsing
import PpsDht.ServedKeys

/-! # What the concatenating client stores

All gets come before the put, and their values are put under the last key. A concatenation that
was cut off is as long as a message, so its put with the key in front is too long to be sent.
Without an error the put has received an answer to something that was sent, unless the
socket was created at the second attempt, behind which nothing is sent. -/
namespace PpsDht
open Mem Net SocketPrograms

section Gets

variable (sha1 : Bytes → Digest) (client : Client)

/-- The gets of the keys, one after the other, return these values. -/
inductive FetchedInTurn :
    List CString → Outcomes → List (Action SockAddr Datagram) → List CString → Outcomes → Prop
  | nil (outcomes : Outcomes) : FetchedInTurn [] outcomes [] [] outcomes
  | cons {key val : CString} {keys vals : List CString} {outcomes rest left : Outcomes}
      {t t' : List (Action SockAddr Datagram)}
      (h : Exec (networkGet sha1 client (some key) none outcomes) t (.ret (⟨.errNone,some val⟩,rest)))
      (h' : FetchedInTurn keys rest t' vals left) : FetchedInTurn (key::keys) outcomes (t ++ t') (val::vals) left

variable {sha1 client}
variable {keys vals argv argv' : List CString} {target : CString} {outcomes rest : Outcomes}
  {t : List (Action SockAddr Datagram)} {newValue newValue' : Bytes} {p : Prog SockAddr Datagram (Printed × Outcomes)}

private theorem FetchedInTurn.sent_key (h : FetchedInTurn sha1 client keys outcomes t vals rest) {a : SockAddr} {d : Datagram}
    (hsent : .sent a d ∈ t) : ∃ key : CString, d = key.chars := by
  induction h with
  | nil => cases hsent
  | cons hget _ ih =>
    rcases List.mem_append.mp hsent with hsent | hsent
    · exact ⟨_,hget.onlySends (networkGet_onlySends _ _ _ _ _) hsent⟩
    · exact ih hsent

private theorem eq_of_fetchedValue {fetched : Outcome} {val : CString} (h : fetchedValue fetched = some val) :
    fetched = ⟨.errNone,some val⟩ := by
  obtain ⟨code,value⟩ := fetched
  rw [fetchedValue] at h
  split at h
  · cases h
  · rename_i hcode
    rw [not_not] at hcode
    exact congrArg₂ Outcome.mk hcode h

def isReceived : Action SockAddr Datagram → Bool
  | .received _ => true
  | _ => false

/-- Each value came with a message. -/
theorem FetchedInTurn.length_le (h : FetchedInTurn sha1 client keys outcomes t vals rest) :
    vals.length = keys.length ∧ vals.length ≤ t.countP isReceived := by
  induction h with
  | nil => exact ⟨rfl,le_rfl⟩
  | cons hget _ ih =>
    obtain ⟨m,hm⟩ := exists_received (networkGet_received hget.run)
    have hone := List.countP_pos_iff.mpr ⟨_,hm,(rfl : isReceived (.received m) = true)⟩
    rw [List.length_cons,List.length_cons,List.countP_append]
    omega

private theorem catLoop_onlySends (sha1 : Bytes → Digest) (client : Client) (argv : List CString) (newValue : Bytes)
    (outcomes : Outcomes) :
    (catLoop sha1 client argv newValue outcomes).OnlySends fun d => ∃ key : CString, d = key.chars := by
  induction argv generalizing newValue outcomes with
  | nil => trivial
  | cons key argv ih =>
    cases argv with
    | nil => trivial
    | cons target argv =>
      rw [catLoop]
      refine ((networkGet_onlySends sha1 client key none outcomes).mono fun d hd => ⟨key,hd⟩).bind fun r => ?_
      dsimp only
      cases fetchedValue r.1 with
      | none => trivial
      | some val => exact liftM_onlySends fun newValue rest _ => ih _ _

/-- The loop ends with the cleared array, or all but at most one argument have been fetched. -/
theorem catLoop_ret (h : Exec (catLoop sha1 client argv newValue outcomes) t (.ret ((newValue',argv'),rest))) :
    newValue' = clearedValue ∨ ∃ keys vals, argv = keys ++ argv' ∧ argv'.length ≤ 1 ∧
      FetchedInTurn sha1 client keys outcomes t vals rest ∧ vals.foldlM appendValue newValue = some newValue' := by
  induction argv generalizing newValue outcomes t with
  | nil =>
    obtain ⟨rfl,hret⟩ := h.of_ret
    cases hret
    exact .inr ⟨[],[],rfl,Nat.zero_le 1,.nil _,rfl⟩
  | cons key argv ih =>
    cases argv with
    | nil =>
      obtain ⟨rfl,hret⟩ := h.of_ret
      cases hret
      exact .inr ⟨[],[],rfl,le_rfl,.nil _,rfl⟩
    | cons target argv =>
      rw [catLoop] at h
      obtain ⟨⟨fetched,rest₁⟩,t₁,t₂,rfl,hget,h⟩ := h.of_bind_ret
      dsimp only at h
      cases hval : fetchedValue fetched with
      | none =>
        rw [hval] at h
        obtain ⟨rfl,hret⟩ := h.of_ret
        cases hret
        exact .inl rfl
      | some val =>
        rw [hval] at h
        dsimp only at h
        obtain ⟨-,hfault⟩ | ⟨newValue₁,rest₂,hlift,hloop⟩ := exec_liftM h
        · cases hfault
        obtain ⟨happend,rfl⟩ := of_lift_eq_some hlift
        obtain rfl := eq_of_fetchedValue hval
        obtain hcleared | ⟨keys,vals,hargv,hlen,hfetched,hfold⟩ := ih hloop
        · exact .inl hcleared
        · refine .inr ⟨key::keys,val::vals,congrArg (key::·) hargv,hlen,.cons hget hfetched,?_⟩
          rw [List.foldlM_cons,happend]
          exact hfold

/-- The loop goes through when all gets return a value. -/
theorem FetchedInTurn.catLoop (h : FetchedInTurn sha1 client keys outcomes t vals rest)
    (hfold : vals.foldlM appendValue newValue = some newValue') :
    Exec (catLoop sha1 client (keys ++ [target]) newValue outcomes) t (.ret ((newValue',[target]),rest)) := by
  induction h generalizing newValue with
  | nil =>
    cases hfold
    exact .nil _
  | @cons key val keys vals outcomes rest left t t' hget _ ih =>
    obtain ⟨newValue₁,happend,hfold⟩ := Option.bind_eq_some_iff.mp (List.foldlM_cons.symm.trans hfold)
    obtain ⟨next,argv,hargv⟩ := List.exists_cons_of_ne_nil (List.append_ne_nil_of_right_ne_nil keys (List.cons_ne_nil target []))
    have hloop := ih hfold
    rw [hargv] at hloop
    rw [List.cons_append,hargv,catLoop]
    refine (hget.bind_ret _).trans ?_
    change Exec (((liftM (lift (appendValue newValue val)) : Net Bytes) >>= catLoop sha1 client (next::argv)) rest) t' _
    rw [liftM_apply (lift_apply happend _)]
    exact hloop

private theorem putValue_onlySends (sha1 : Bytes → Digest) (client : Client) (target value : CString) (outcomes : Outcomes) :
    (putValue sha1 client target value outcomes).OnlySends (· = target.chars ++ 0::value.chars) := by
  rw [putValue]
  refine (networkPut_onlySends sha1 client target value outcomes).bind fun r => ?_
  dsimp only
  split <;> trivial

/-- `OK` is printed when the put has received something, or when its socket was created at
the second attempt. -/
theorem putValue_ok {value : CString} (hW : 1 ≤ client.args.W)
    (h : Exec (putValue sha1 client target value outcomes) t (.ret (.ok,rest))) :
    (∃ m, .received m ∈ t) ∨ tooLong target = false ∧ SocketRetried outcomes := by
  rw [putValue] at h
  obtain ⟨⟨code,rest₁⟩,t₁,t₂,rfl,hput,hret⟩ := h.of_bind_ret
  dsimp only at hret
  split at hret
  · rename_i hcode
    subst hcode
    refine (networkPut_received hW hput.run).imp_left fun hcount => ?_
    obtain ⟨m,hm⟩ := exists_received hcount
    exact ⟨m,List.mem_append_left _ hm⟩
  · obtain ⟨-,hfail⟩ := hret.of_ret
    cases hfail

private theorem putValue_retried {value : CString} (h : SocketRetried outcomes) (htarget : tooLong target = false)
    (hvalue : tooLong value = false) :
    putValue sha1 client target value outcomes = .ret (.ok,outcomes.tail.tail) := by
  rw [putValue]
  change (networkPut sha1 client (some target) (some value) outcomes >>= _) = _
  rw [networkPut_retried sha1 client h htarget hvalue]
  rfl

/-- What `main` does behind the loop with some characters in the array. -/
theorem CatBuffer.storeValue_put {chars : Bytes} (h : CatBuffer newValue chars) (hchars : chars ≠ [])
    (htarget : target ≠ .empty) (sha1 : Bytes → Digest) (client : Client) (argv : List CString)
    (outcomes : Outcomes) : ∃ value : CString, value.chars = chars.take maxMsgSize ∧
      storeValue sha1 client newValue (target::argv) outcomes = putValue sha1 client target value outcomes := by
  obtain ⟨newValue',value,hcopy,hread,hvalue⟩ := h.read
  refine ⟨value,hvalue,?_⟩
  rw [storeValue,liftM_apply (lift_apply hcopy _),liftM_apply (lift_apply hread _),if_pos ((length_ne_zero_iff hvalue).mpr hchars)]
  dsimp only
  rw [if_pos (CString.length_eq_zero.not.mpr htarget)]

/-- Behind the loop nothing is sent and nothing stored without characters and a key. -/
theorem CatBuffer.storeValue_cases {chars : Bytes} (h : CatBuffer newValue chars)
    (hexec : Exec (storeValue sha1 client newValue argv outcomes) t p) :
    t = [] ∧ (∀ rest, p ≠ .ret (.ok,rest)) ∨
      ∃ target argv', argv = target::argv' ∧ chars ≠ [] ∧ target ≠ .empty := by
  obtain ⟨newValue',value,hcopy,hread,hvalue⟩ := h.read
  rw [storeValue,liftM_apply (lift_apply hcopy _),liftM_apply (lift_apply hread _)] at hexec
  split at hexec
  · rename_i hlen
    cases argv with
    | nil =>
      obtain ⟨rfl,rfl⟩ := hexec.of_fault
      exact .inl ⟨rfl,nofun⟩
    | cons target argv' =>
      dsimp only at hexec
      split at hexec
      · rename_i htarget
        exact .inr ⟨target,argv',rfl,(length_ne_zero_iff hvalue).mp hlen,CString.length_eq_zero.not.mp htarget⟩
      · obtain ⟨rfl,rfl⟩ := hexec.of_ret
        exact .inl ⟨rfl,nofun⟩
  · obtain ⟨rfl,rfl⟩ := hexec.of_ret
    exact .inl ⟨rfl,nofun⟩

/-- The loop and what follows it come to the put of the values, or send keys and print no `OK`. -/
theorem catLoop_storeValue_cases
    (h : Exec ((catLoop sha1 client argv clearedValue >>= fun r => storeValue sha1 client r.1 r.2) outcomes) t p) :
    (∀ rest, p ≠ .ret (.ok,rest)) ∧ (∀ a d, .sent a d ∈ t → ∃ key : CString, d = key.chars) ∨
      ∃ t₁ t₂ keys target vals rest, ∃ value : CString, t = t₁ ++ t₂ ∧ argv = keys ++ [target] ∧
        FetchedInTurn sha1 client keys outcomes t₁ vals rest ∧ vals.flatMap CString.chars ≠ [] ∧ target ≠ .empty ∧
        value.chars = (vals.flatMap CString.chars).take maxMsgSize ∧
        Exec (putValue sha1 client target value rest) t₂ p := by
  obtain ⟨p',hloop,hne,rfl⟩ | ⟨⟨⟨newValue,argv'⟩,rest⟩,t₁,t₂,rfl,hloop,hstore⟩ := h.of_bind
  · refine .inl ⟨fun rest hret => ?_,fun a d hsent => hloop.onlySends (catLoop_onlySends _ _ _ _ _) hsent⟩
    obtain ⟨r,rfl⟩ := Prog.eq_ret_of_bind hret
    exact hne r rfl
  have hkeys : ∀ a d, .sent a d ∈ t₁ ++ [] → ∃ key : CString, d = key.chars := fun a d hsent =>
    hloop.onlySends (catLoop_onlySends _ _ _ _ _) (List.append_nil t₁ ▸ hsent)
  obtain rfl | ⟨keys,vals,hargv,hlen,hfetched,hfold⟩ := catLoop_ret hloop
  · -- after an error the cleared array holds nothing to put
    obtain ⟨rfl,hp⟩ | ⟨_,_,_,hnil,_⟩ := catBuffer_cleared.storeValue_cases hstore
    · exact .inl ⟨hp,hkeys⟩
    · exact absurd rfl hnil
  · obtain ⟨newValue',hfold',hbuffer⟩ := appendValues vals
    obtain rfl := Option.some.inj (hfold.symm.trans hfold')
    obtain ⟨rfl,hp⟩ | ⟨target,argv'',rfl,hchars,htarget⟩ := hbuffer.storeValue_cases hstore
    · exact .inl ⟨hp,hkeys⟩
    · obtain rfl : argv'' = [] := List.length_eq_zero_iff.mp (Nat.le_zero.mp (Nat.le_of_succ_le_succ hlen))
      obtain ⟨value,hvalue,hput⟩ := hbuffer.storeValue_put hchars htarget sha1 client [] rest
      have hexec : Exec (storeValue sha1 client newValue [target] rest) t₂ p := hstore
      rw [hput] at hexec
      exact .inr ⟨t₁,t₂,keys,target,vals,rest,value,rfl,hargv,hfetched,hchars,htarget,hvalue,hexec⟩

end Gets

section Runs

variable (sha1 : Bytes → Digest) (inetPton : CString → Option UInt32) (qsort : List Node → List Node)
  (sscanfD : CString → Option Int32)

/-- By the end of the trace all gets have returned a value, and the values, not all empty, are
about to be put under the last key, not empty either. -/
def ReachesPut (argv : List CString) (servers : Option Bytes) (outcomes : Outcomes)
    (t : List (Action SockAddr Datagram)) (client : Client) (target : CString) (chars : Bytes)
    (putOutcomes : Outcomes) : Prop :=
  ∃ init quorums rest keys vals,
    clientInit sha1 inetPton qsort sscanfD (catArgs argv) servers outcomes = some (.ok init,rest) ∧
    init.args = some quorums ∧ client = ⟨init.nodes,quorums⟩ ∧ init.remArgv = keys ++ [target] ∧
    FetchedInTurn sha1 client keys rest t vals putOutcomes ∧ chars = vals.flatMap CString.chars ∧
    chars ≠ [] ∧ target ≠ .empty

/-- Puts come after all gets, with all values under the last key. Longer datagrams than a message
are not sent. -/
def PutsConcatenation (argv : List CString) (servers : Option Bytes) (outcomes : Outcomes)
    (t : List (Action SockAddr Datagram)) : Prop :=
  ∀ a d k v, .sent a d ∈ t → d.length ≤ maxMsgSize → Denotes d (.put k v) →
    ∃ t₁ t₂ client putOutcomes, t = t₁ ++ t₂ ∧ .sent a d ∈ t₂ ∧
      ReachesPut sha1 inetPton qsort sscanfD argv servers outcomes t₁ client k v.chars putOutcomes

/-- Only this is put, and it has been sent when `OK` is printed. -/
structure CatStores (argv : List CString) (servers : Option Bytes) (outcomes : Outcomes)
    (t : List (Action SockAddr Datagram)) (p : Prog SockAddr Datagram (Printed × Outcomes)) : Prop where
  puts : PutsConcatenation sha1 inetPton qsort sscanfD argv servers outcomes t
  stores : ∀ rest, p = .ret (.ok,rest) →
    ∃ t₁ t₂ client target chars putOutcomes a, t = t₁ ++ t₂ ∧
      ReachesPut sha1 inetPton qsort sscanfD argv servers outcomes t₁ client target chars putOutcomes ∧
      .sent a (target.chars ++ 0::chars) ∈ t₂ ∧ (target.chars ++ 0::chars).length ≤ maxMsgSize

/-- Every message that arrives behind the gets answers a put that was sent. -/
def AcksAnswer (argv : List CString) (servers : Option Bytes) (outcomes : Outcomes)
    (t : List (Action SockAddr Datagram)) : Prop :=
  ∀ t₁ t₂ client target chars putOutcomes, t = t₁ ++ t₂ →
    ReachesPut sha1 inetPton qsort sscanfD argv servers outcomes t₁ client target chars putOutcomes →
    ∀ m, .received m ∈ t₂ → ∃ a d, .sent a d ∈ t₂ ∧ d.length ≤ maxMsgSize

variable {sha1 inetPton qsort sscanfD}
variable {argv : List CString} {servers : Option Bytes} {outcomes putOutcomes : Outcomes}
  {t : List (Action SockAddr Datagram)} {p : Prog SockAddr Datagram (Printed × Outcomes)} {client : Client}
  {target : CString} {chars : Bytes}

private theorem ReachesPut.one_le_W
    (h : ReachesPut sha1 inetPton qsort sscanfD argv servers outcomes t client target chars putOutcomes) :
    1 ≤ client.args.W := by
  obtain ⟨init,quorums,rest,keys,vals,hinit,hargs,rfl,-⟩ := h
  exact (clientInit_quorums hinit hargs).2.1

/-- What precedes the put are gets. -/
theorem ReachesPut.sent_key
    (h : ReachesPut sha1 inetPton qsort sscanfD argv servers outcomes t client target chars putOutcomes)
    {a : SockAddr} {d : Datagram} (hsent : .sent a d ∈ t) : ∃ key : CString, d = key.chars := by
  obtain ⟨_,_,_,_,_,-,-,-,-,hfetched,-⟩ := h
  exact hfetched.sent_key hsent

/-- The message of a put holds a zero. -/
theorem ReachesPut.not_sent
    (h : ReachesPut sha1 inetPton qsort sscanfD argv servers outcomes t client target chars putOutcomes)
    (a : SockAddr) (key : CString) (value : Bytes) : .sent a (key.chars ++ 0::value) ∉ t := by
  intro hsent
  obtain ⟨key',hkey⟩ := h.sent_key hsent
  exact key'.nulFree (hkey ▸ List.mem_append_right _ List.mem_cons_self)

theorem ReachesPut.received
    (h : ReachesPut sha1 inetPton qsort sscanfD argv servers outcomes t client target chars putOutcomes) :
    ∃ m, .received m ∈ t := by
  obtain ⟨_,_,_,_,vals,-,-,-,-,hfetched,rfl,hchars,-⟩ := h
  have hvals : vals ≠ [] := fun hvals => hchars (by rw [hvals,List.flatMap_nil])
  have hlen := List.length_pos_iff.mpr hvals
  obtain ⟨action,haction,hreceived⟩ := List.countP_pos_iff.mp (hlen.trans_le hfetched.length_le.2)
  cases action with
  | received m => exact ⟨m,haction⟩
  | _ => cases hreceived

/-- The program gets to its put with the values, up to the size of a message. -/
theorem ReachesPut.exec
    (h : ReachesPut sha1 inetPton qsort sscanfD argv servers outcomes t client target chars putOutcomes) :
    ∃ value : CString, value.chars = chars.take maxMsgSize ∧
      Exec (clientCat sha1 inetPton qsort sscanfD argv servers outcomes) t
        (putValue sha1 client target value putOutcomes) := by
  obtain ⟨init,quorums,rest,keys,vals,hinit,hargs,rfl,hargv,hfetched,rfl,hchars,htarget⟩ := h
  obtain ⟨newValue,hfold,hbuffer⟩ := appendValues vals
  obtain ⟨value,hvalue,hput⟩ := hbuffer.storeValue_put hchars htarget sha1 ⟨init.nodes,quorums⟩ [] putOutcomes
  refine ⟨value,hvalue,?_⟩
  rw [clientCat,liftM_apply hinit]
  dsimp only
  rw [hargs]
  dsimp only
  rw [hargv,← hput]
  exact (hfetched.catLoop hfold).bind_ret _

/-- With a socket at the second attempt `OK` is printed at once. -/
theorem ReachesPut.retried
    (h : ReachesPut sha1 inetPton qsort sscanfD argv servers outcomes t client target chars putOutcomes)
    (htarget : tooLong target = false) (hretried : SocketRetried putOutcomes) :
    Exec (clientCat sha1 inetPton qsort sscanfD argv servers outcomes) t (.ret (.ok,putOutcomes.tail.tail)) := by
  obtain ⟨value,hvalue,hexec⟩ := h.exec
  have hlen : tooLong value = false := by
    rw [tooLong,decide_eq_false_iff_not,not_lt,← value.length_chars,hvalue]
    exact List.length_take_le _ _
  rw [← putValue_retried hretried htarget hlen]
  exact hexec

/-- A run that has not come to its put has sent keys only and has not printed `OK`. -/
theorem clientCat_cases (h : Exec (clientCat sha1 inetPton qsort sscanfD argv servers outcomes) t p) :
    (∀ rest, p ≠ .ret (.ok,rest)) ∧ (∀ a d, .sent a d ∈ t → ∃ key : CString, d = key.chars) ∨
      ∃ t₁ t₂ client target chars putOutcomes, ∃ value : CString, t = t₁ ++ t₂ ∧
        ReachesPut sha1 inetPton qsort sscanfD argv servers outcomes t₁ client target chars putOutcomes ∧
        value.chars = chars.take maxMsgSize ∧ Exec (putValue sha1 client target value putOutcomes) t₂ p := by
  rw [clientCat] at h
  obtain ⟨rfl,rfl⟩ | ⟨result,rest,hinit,h⟩ := exec_liftM h
  · exact .inl ⟨nofun,nofun⟩
  cases result with
  | error code =>
    obtain ⟨rfl,rfl⟩ := h.of_ret
    exact .inl ⟨nofun,nofun⟩
  | ok init =>
    dsimp only at h
    cases hargs : init.args with
    | none =>
      rw [hargs] at h
      obtain ⟨rfl,rfl⟩ := h.of_fault
      exact .inl ⟨nofun,nofun⟩
    | some quorums =>
      rw [hargs] at h
      dsimp only at h
      obtain hfail | ⟨t₁,t₂,keys,target,vals,putOutcomes,value,rfl,hargv,hfetched,hchars,htarget,hvalue,hput⟩ :=
        catLoop_storeValue_cases h
      · exact .inl hfail
      · exact .inr ⟨t₁,t₂,_,target,_,putOutcomes,value,rfl,
          ⟨init,quorums,rest,keys,vals,hinit,hargs,rfl,hargv,hfetched,rfl,hchars,htarget⟩,hvalue,hput⟩

/-- A put that can be sent has not been cut off. -/
theorem eq_of_sendable {value : CString} (hvalue : value.chars = chars.take maxMsgSize)
    (hlen : (target.chars ++ 0::value.chars).length ≤ maxMsgSize) : value.chars = chars := by
  have hcut : value.length = min maxMsgSize chars.length := by
    rw [← value.length_chars,hvalue,List.length_take]
  rw [CString.length_separated] at hlen
  exact hvalue.trans (List.take_of_length_le (by omega))

private theorem not_denotes_key {key k v : CString} (hlen : key.chars.length ≤ maxMsgSize) :
    ¬Denotes key.chars (.put k v) :=
  fun h => nomatch @Operation.eq_put (.get key) k v hlen h

/-- Whatever fails, a put carries all values. -/
theorem clientCat_puts (h : Exec (clientCat sha1 inetPton qsort sscanfD argv servers outcomes) t p) :
    PutsConcatenation sha1 inetPton qsort sscanfD argv servers outcomes t := by
  intro a d k v hsent hlen hdenotes
  obtain ⟨-,hkeys⟩ | ⟨t₁,t₂,client,target,chars,putOutcomes,value,rfl,hreach,hvalue,hput⟩ := clientCat_cases h
  · obtain ⟨key,rfl⟩ := hkeys a d hsent
    exact absurd hdenotes (not_denotes_key hlen)
  · rcases List.mem_append.mp hsent with hsent | hsent
    · obtain ⟨key,rfl⟩ := hreach.sent_key hsent
      exact absurd hdenotes (not_denotes_key hlen)
    · obtain rfl := hput.onlySends (putValue_onlySends _ _ _ _ _) hsent
      obtain ⟨rfl,rfl⟩ := Operation.put.inj (@Operation.eq_put (.put target value) k v hlen hdenotes)
      obtain rfl := eq_of_sendable hvalue hlen
      exact ⟨t₁,t₂,client,putOutcomes,rfl,hsent,hreach⟩

end Runs

/-- The array is never left and every put carries the concatenation. `OK` without such a put is
printed exactly when the socket of the put is created at the second attempt. -/
theorem clientCat_stores_iff (sha1 : Bytes → Digest) (inetPton : CString → Option UInt32)
    (qsort : List Node → List Node) (sscanfD : CString → Option Int32) (argv : List CString)
    (servers : Option Bytes) (outcomes : Outcomes) (t : List (Action SockAddr Datagram))
    (p : Prog SockAddr Datagram (Printed × Outcomes))
    (h : Exec (clientCat sha1 inetPton qsort sscanfD argv servers outcomes) t p)
    (hacks : AcksAnswer sha1 inetPton qsort sscanfD argv servers outcomes t) :
    (∀ vals : List CString, ∃ newValue, vals.foldlM appendValue clearedValue = some newValue ∧
      newValue.length = maxMsgSize + 1) ∧
    PutsConcatenation sha1 inetPton qsort sscanfD argv servers outcomes t ∧
    (CatStores sha1 inetPton qsort sscanfD argv servers outcomes t p ↔
      ∀ t₁ t₂ client target chars putOutcomes, t = t₁ ++ t₂ →
        ReachesPut sha1 inetPton qsort sscanfD argv servers outcomes t₁ client target chars putOutcomes →
        tooLong target = false → ¬SocketRetried putOutcomes) := by
  refine ⟨fun vals => ?_,clientCat_puts h,
    fun hstores t₁ t₂ client target chars putOutcomes ht hreach hshort hretried => ?_,
    fun hsocket => ⟨clientCat_puts h,fun rest hp => ?_⟩⟩
  · obtain ⟨newValue,hfold,hbuffer⟩ := appendValues vals
    exact ⟨newValue,hfold,hbuffer.length_eq⟩
  · subst ht
    obtain ⟨rfl,rfl⟩ := ((hreach.retried hshort hretried).split h).of_ret
    obtain ⟨t₁',t₂',-,target',chars',-,a,ht,-,hsent,-⟩ := hstores.stores _ rfl
    refine hreach.not_sent a target' chars' ?_
    rw [← List.append_nil t₁,ht]
    exact List.mem_append_right _ hsent
  · subst hp
    obtain ⟨hfail,-⟩ | ⟨t₁,t₂,client,target,chars,putOutcomes,value,rfl,hreach,hvalue,hput⟩ := clientCat_cases h
    · exact absurd rfl (hfail rest)
    · obtain ⟨m,hm⟩ | ⟨hshort,hretried⟩ := putValue_ok hreach.one_le_W hput
      · obtain ⟨a,d,hsent,hlen⟩ := hacks t₁ t₂ client target chars putOutcomes rfl hreach m hm
        obtain rfl := hput.onlySends (putValue_onlySends _ _ _ _ _) hsent
        obtain rfl := eq_of_sendable hvalue hlen
        exact ⟨t₁,t₂,client,target,_,putOutcomes,a,rfl,hreach,hsent,hlen⟩
      · exact absurd hretried (hsocket t₁ t₂ client target chars putOutcomes rfl hreach hshort)

/-- `sscanf` on the numeral 1. -/
def scanOne (str : CString) : Option Int32 := if str.chars = [49] then some 1 else none

/-- The arguments `-n 1 k v` behind a name. -/
def catLetters : List CString := [.letterV,optN,⟨[49],by decide⟩,.letterK,.letterV]

/-- A list of one server and the client that has read it. -/
def oneLine : Bytes := loopbackLine 49 ++ [10]

def oneClient : Client := ⟨insertionSortBySha (listedNodes textDigest loopback (some oneLine)),⟨1,1,1⟩⟩

/-- The get of the key `k` returns the value `v`. -/
def gotLetter : List (Action SockAddr Datagram) :=
  [.sent ⟨0x7f000001,1234⟩ CString.letterK.chars,.received CString.letterV.chars]

section Letters

variable {outcomes putOutcomes rest : Outcomes} {t : List (Action SockAddr Datagram)} {client : Client}
  {target : CString} {chars : Bytes}

private theorem reachesPut_letters
    (hinit : clientInit textDigest loopback insertionSortBySha scanOne (catArgs catLetters) (some oneLine) outcomes =
      some (.ok ⟨.letterV,oneClient.nodes,some oneClient.args,[.letterK,.letterV]⟩,rest))
    (hget : Exec (networkGet textDigest oneClient (some .letterK) none rest) gotLetter
      (.ret (⟨.errNone,some .letterV⟩,putOutcomes))) :
    ReachesPut textDigest loopback insertionSortBySha scanOne catLetters (some oneLine) outcomes gotLetter oneClient
      .letterV CString.letterV.chars putOutcomes :=
  ⟨_,_,_,[.letterK],[.letterV],hinit,rfl,rfl,rfl,.cons hget (.nil _),rfl,by decide,by decide⟩

/-- The put begins right behind the value. -/
theorem append_of_gotLetter
    (hreach : ReachesPut textDigest loopback insertionSortBySha scanOne catLetters (some oneLine) outcomes t client
      target chars putOutcomes) {t₂ put : List (Action SockAddr Datagram)} (h : gotLetter ++ put = t ++ t₂) :
    ∃ t', t = gotLetter ++ t' ∧ put = t' ++ t₂ := by
  obtain ⟨m,hm⟩ := hreach.received
  match t, h, hm with
  | [_], h, hm =>
    cases h
    exact absurd (List.mem_singleton.mp hm) nofun
  | _::_::t', h, _ =>
    cases h
    exact ⟨t',rfl,rfl⟩

end Letters

/-- The arguments `-n 1 k v k` behind a name. -/
def catKeys : List CString := [.letterV,optN,decimal 1,.letterK,.letterV,.letterK]

/-- The get of the key `v` returns the value `k`. -/
def gotLetters : List (Action SockAddr Datagram) :=
  gotLetter ++ [.sent ⟨0x7f000001,1234⟩ CString.letterV.chars,.received CString.letterK.chars]

private theorem reachesPut_keys : ReachesPut textDigest loopback insertionSortBySha scanOne catKeys (some oneLine) [] gotLetters
    oneClient .letterK [118,107] [] := by
  have hfirst : Exec (networkGet textDigest oneClient (some .letterK) none []) gotLetter
      (.ret (⟨.errNone,some .letterV⟩,[])) := .sent (.received (.nil _))
  have hsecond : Exec (networkGet textDigest oneClient (some .letterV) none [])
      [.sent ⟨0x7f000001,1234⟩ CString.letterV.chars,.received CString.letterK.chars]
      (.ret (⟨.errNone,some .letterK⟩,[])) := .sent (.received (.nil _))
  exact ⟨⟨.letterV,oneClient.nodes,some oneClient.args,[.letterK,.letterV,.letterK]⟩,_,[],[.letterK,.letterV],
    [.letterV,.letterK],rfl,rfl,rfl,rfl,.cons hfirst (.cons hsecond (.nil _)),rfl,by decide,by decide⟩

/-- The put begins right behind the second value. -/
theorem append_of_gotLetters {t t₂ put : List (Action SockAddr Datagram)} {client : Client} {target : CString}
    {chars : Bytes} {putOutcomes : Outcomes} (hreach : ReachesPut textDigest loopback insertionSortBySha scanOne catKeys
      (some oneLine) [] t client target chars putOutcomes) (h : gotLetters ++ put = t ++ t₂) :
    ∃ t', t = gotLetters ++ t' ∧ put = t' ++ t₂ := by
  obtain ⟨init,quorums,rest,keys,vals,hinit,-,-,hargv,hfetched,-⟩ := hreach
  obtain ⟨hinit,-⟩ := Prod.mk.inj (Option.some.inj hinit)
  have hkeys := congrArg List.length (hargv.symm.trans (congrArg Initialised.remArgv (Except.ok.inj hinit.symm)))
  have hlen : 2 ≤ t.countP isReceived := by
    obtain ⟨hvals,hle⟩ := hfetched.length_le
    rw [List.length_append,List.length_singleton] at hkeys
    exact (Nat.le_of_eq (by rw [hvals]; exact (Nat.succ.inj hkeys).symm)).trans hle
  match t, h, hlen with
  | [_], h, hlen => cases h; exact absurd hlen (by decide)
  | [_,_], h, hlen => cases h; exact absurd hlen (by decide)
  | [_,_,_], h, hlen => cases h; exact absurd hlen (by decide)
  | _::_::_::_::t', h, _ =>
    cases h
    exact ⟨t',rfl,rfl⟩

/-- A whole run that stores the values of two keys under a third argument. -/
theorem clientCat_stores_letters :
    (∀ vals : List CString, ∃ newValue, vals.foldlM appendValue clearedValue = some newValue ∧
      newValue.length = maxMsgSize + 1) ∧
    PutsConcatenation textDigest loopback insertionSortBySha scanOne catKeys (some oneLine) []
      (gotLetters ++ [.sent ⟨0x7f000001,1234⟩ [107,0,118,107],.received []]) ∧
    (CatStores textDigest loopback insertionSortBySha scanOne catKeys (some oneLine) []
        (gotLetters ++ [.sent ⟨0x7f000001,1234⟩ [107,0,118,107],.received []]) (.ret (.ok,[])) ↔
      ∀ t₁ t₂ client target chars putOutcomes,
        gotLetters ++ [.sent ⟨0x7f000001,1234⟩ [107,0,118,107],.received []] = t₁ ++ t₂ →
        ReachesPut textDigest loopback insertionSortBySha scanOne catKeys (some oneLine) [] t₁ client target chars
          putOutcomes →
        tooLong target = false → ¬SocketRetried putOutcomes) := by
  obtain ⟨value,hvalue,hexec⟩ := reachesPut_keys.exec
  obtain rfl : value = ⟨[118,107],by decide⟩ := CString.ext hvalue
  refine clientCat_stores_iff textDigest loopback insertionSortBySha scanOne catKeys (some oneLine) [] _ _
    (hexec.trans (.sent (.received (.nil _)))) fun t₁ t₂ client target chars putOutcomes ht hput m hm => ?_
  obtain ⟨t',rfl,ht₂⟩ := append_of_gotLetters hput ht
  cases t' with
  | nil =>
    obtain rfl : _ = t₂ := ht₂
    exact ⟨⟨0x7f000001,1234⟩,[107,0,118,107],List.mem_cons_self,by decide⟩
  | cons action t' =>
    obtain ⟨rfl,-⟩ := List.cons.inj ht₂
    exact absurd (List.mem_append_right _ List.mem_cons_self)
      (hput.not_sent ⟨0x7f000001,1234⟩ .letterK [118,107])

/-- The socket of the put is created at the second attempt: `OK` is printed and nothing stored. -/
theorem clientCat_unstored :
    ¬∀ (sha1 : Bytes → Digest) (inetPton : CString → Option UInt32) (qsort : List Node → List Node)
      (sscanfD : CString → Option Int32) (argv : List CString) (servers : Option Bytes) (outcomes : Outcomes)
      (t : List (Action SockAddr Datagram)) (p : Prog SockAddr Datagram (Printed × Outcomes)),
      Exec (clientCat sha1 inetPton qsort sscanfD argv servers outcomes) t p →
      AcksAnswer sha1 inetPton qsort sscanfD argv servers outcomes t →
      CatStores sha1 inetPton qsort sscanfD argv servers outcomes t p := by
  intro h
  have hreach := @reachesPut_letters (List.replicate 21 true ++ [false]) [false] (List.replicate 11 true ++ [false])
    rfl (.sent (.received (.nil _)))
  have hstores := h _ _ _ _ _ _ _ _ _ (hreach.retried (by decide) ⟨rfl,rfl⟩)
    fun t₁ t₂ client target chars putOutcomes ht hput m hm => by
      obtain ⟨t',rfl,ht₂⟩ := append_of_gotLetter hput ((List.append_nil _).trans ht)
      rw [(List.append_eq_nil_iff.mp ht₂.symm).2] at hm
      cases hm
  obtain ⟨t₁,t₂,-,target,chars,-,a,ht,-,hsent,-⟩ := hstores.stores _ rfl
  exact hreach.not_sent a target chars (ht ▸ List.mem_append_right _ hsent)

end PpsDht
