import PpsDht.DumpCompletion
import PpsDht.QuorumReads
import PpsDht.ServerStates

/-! # Answers under allocation failures

The put branch acknowledges without looking at the error code, the get branch takes the
null pointer of a failed copy for an unbound key, and the dump branch reads whatever list
it was given. Each answer is true only if the allocations that it needs succeed. The
client's array has no byte to spare for a terminator and needs none, because a value came
to the server in one datagram together with its key and a separator. -/
namespace PpsDht
open Mem SocketPrograms

section Honesty

/-- What a client may take from the answer, the table being `table'` afterwards. -/
def HonestAnswer (extra : UInt8) (table table' : Htable) (sent : List Datagram) : Request → Prop
  | .check => True
  | .dump => sent = [] ∨ ∃ pairs, Stores table pairs ∧
      Succeeds (dumpNode extra sent) (.printed ⟨pairs.length,pairs.length,pairs.map .ofPair⟩ [])
  | .get key => sent = [[0]] → Succeeds (getHtableValue table key) none
  | .put key value => sent = [[]] → Succeeds (getHtableValue table' key) (some value)

/-- The allocations that the branch needs, or another reason for its answer to be true. -/
def HonestWhen (extra : UInt8) (table : Htable) (pairs : List Pair) (outcomes : Outcomes) : Request → Prop
  | .check => True
  | .dump => nextSucceeds (afterContent pairs.length outcomes) = false ∨
      allSucceed (3 * pairs.length + 1) outcomes ∧ Dumpable extra pairs
  | .get key => pairs.lookup key = none ∨ nextSucceeds outcomes
  | .put key value => table.buckets.isSome ∧
      (pairs.lookup key = some value ∨ allSucceed (addAllocations (pairs.lookup key)) outcomes)

/-- The handler finishes and its answer is honest. -/
def ServesHonestly (extra : UInt8) (table : Htable) (d : Datagram) (r : Request) (outcomes : Outcomes) : Prop :=
  ∃ table' sent rest, serve table d outcomes = some ((table',sent),rest) ∧ HonestAnswer extra table table' sent r

section DumpLoop

private theorem appendPair_unallocating (msg : Bytes) (key value : CString) : Unallocating (appendPair msg key value) := by
  have hstring : ∀ (msg : Bytes) (s : CString), Unallocating (appendString msg s) := fun msg s => by
    rw [appendString]
    split
    · exact .undefined
    · exact .pure _
  exact (hstring msg key).bind fun filled => hstring filled value

private theorem dumpPairs_unallocating (list : List KvPair) (msg : Bytes) : Unallocating (dumpPairs list msg) := by
  induction list generalizing msg with
  | nil => exact .pure _
  | cons kv list ih =>
    refine (Unallocating.lift _).bind fun key => (Unallocating.lift _).bind fun value => ?_
    exact (appendPair_unallocating _ key value).bind fun filled => (ih filled).bind fun sent => .pure _

/-- The loop does not get past a null pointer. -/
theorem dumpPairs_incomplete {list : List KvPair} (h : ∃ kv ∈ list, kv.Incomplete) (msg : Bytes) :
    Faults (dumpPairs list msg) := by
  induction list generalizing msg with
  | nil => simp at h
  | cons kv list ih =>
    obtain ⟨_ | key,_ | value⟩ := kv
    · rfl
    · rfl
    · rfl
    · have hrest : ∃ kv ∈ list, kv.Incomplete := by simpa [KvPair.Incomplete] using h
      rw [dumpPairs]
      refine (lift_succeeds rfl).bind_faults ((lift_succeeds rfl).bind_faults ?_)
      rcases (appendPair_unallocating _ key value).apply [] with ⟨hfault,-⟩ | ⟨filled,hfilled,-⟩
      · exact hfault.bind _
      · exact hfilled.bind_faults ((ih hrest filled).bind _)

end DumpLoop

variable {extra : UInt8} {table : Htable} {pairs : List Pair} {d : Datagram}

private theorem ServerState.content_apply (h : ServerState table) (hstores : Stores table pairs) (outcomes : Outcomes) :
    ∃ list, getHtableContent table outcomes = some (list,afterContent pairs.length outcomes) ∧
      (allSucceed (3 * pairs.length + 1) outcomes → list = some (pairs.map .ofPair)) ∧
      (¬allSucceed (3 * pairs.length + 1) outcomes →
        ∀ kvs, list = some kvs → ∃ kv ∈ kvs, kv.Incomplete) := by
  rcases h.cases with rfl | ⟨m,rfl,-⟩
  · obtain rfl := hstores.eq stores_missing
    refine ⟨if nextSucceeds outcomes then some [] else none,?_,by simp,by simp⟩
    rw [getHtableContent,malloc_bind,afterContent]
    cases nextSucceeds outcomes <;> rfl
  · obtain rfl := hstores.eq m.stores
    exact getHtableContent_apply m outcomes

/-- The datagrams of a complete list tell its pairs exactly when it is dumpable. -/
theorem sendPairs_honest_iff :
    (∃ sent, Succeeds (sendPairs (pairs.map .ofPair)) sent ∧ (sent = [] ∨
      Succeeds (dumpNode extra sent) (.printed ⟨pairs.length,pairs.length,pairs.map .ofPair⟩ []))) ↔
      Dumpable extra pairs := by
  constructor
  · rintro ⟨sent,hsend,hsent⟩
    have hfit : ∀ p ∈ pairs, cost p ≤ maxMsgSize := by
      intro p hp
      by_contra hbig
      exact (dumpPairs_faults hp (Nat.lt_of_not_le hbig) _).not_succeeds sent hsend
    obtain rfl := hsend.unique (sendPairs_succeeds hfit)
    rcases hsent with hnil | hread
    · rw [dumpDatagrams_eq] at hnil
      exact absurd hnil (List.cons_ne_nil _ _)
    · exact (completes_iff hfit).mp ⟨_,hread,rfl,rfl⟩
  · exact fun h => ⟨_,sendPairs_succeeds h.fit,Or.inr h.dumpNode⟩

/-- A dump sends what it listed if it gets its buffer, and can only send a complete list. -/
theorem ServerState.dump_apply (h : ServerState table) (hstores : Stores table pairs) (outcomes : Outcomes) :
    ∃ list, dump table outcomes = (if nextSucceeds (afterContent pairs.length outcomes)
        then (lift list >>= sendPairs) else pure []) (afterContent pairs.length outcomes).tail ∧
      (allSucceed (3 * pairs.length + 1) outcomes → list = some (pairs.map .ofPair)) ∧
      ∀ sent, Succeeds (lift list >>= sendPairs) sent → allSucceed (3 * pairs.length + 1) outcomes := by
  obtain ⟨list,hlist,hall,hbad⟩ := h.content_apply hstores outcomes
  refine ⟨list,?_,hall,fun sent hsend => ?_⟩
  · rw [dump,bind_apply hlist,malloc_bind]
  · by_contra hfail
    cases list with
    | none => exact Faults.undefined.not_succeeds sent hsend
    | some kvs => exact (dumpPairs_incomplete (hbad hfail kvs rfl) _).not_succeeds sent hsend

private theorem ServerState.serves_dump_iff (h : ServerState table) (hstores : Stores table pairs)
    (hd : dispatch d = some .dump) (outcomes : Outcomes) :
    ServesHonestly extra table d .dump outcomes ↔ HonestWhen extra table pairs outcomes .dump := by
  obtain ⟨list,hdump,hall,hsent⟩ := h.dump_apply hstores outcomes
  have hun : Unallocating (lift list >>= sendPairs) :=
    (Unallocating.lift list).bind fun kvs => dumpPairs_unallocating kvs _
  rw [ServesHonestly,HonestWhen,serve_dump hd,hdump]
  cases nextSucceeds (afterContent pairs.length outcomes) with
  | false => exact iff_of_true ⟨table,[],_,rfl,Or.inl rfl⟩ (Or.inl rfl)
  | true =>
    simp only [if_true,Bool.true_eq_false,false_or]
    constructor
    · rintro ⟨table',sent,rest,hserve,hhonest⟩
      obtain ⟨result,hresult,heq⟩ := Option.map_eq_some_iff.mp hserve
      cases heq
      obtain ⟨hsend,-⟩ := hun.apply_eq_some.mp hresult
      have hsuccess := hsent result.1 hsend
      rw [hall hsuccess] at hsend
      refine ⟨hsuccess,sendPairs_honest_iff.mp ⟨result.1,hsend,hhonest.imp_right ?_⟩⟩
      rintro ⟨pairs',hstores',hread⟩
      rwa [hstores.eq hstores']
    · rintro ⟨hsuccess,hdumpable⟩
      obtain ⟨sent,hsend,hhonest⟩ := sendPairs_honest_iff.mpr hdumpable
      rw [hall hsuccess] at hun ⊢
      have hresult : (lift (some (pairs.map .ofPair)) >>= sendPairs)
          (afterContent pairs.length outcomes).tail = some (sent,_) := hun.apply_eq_some.mpr ⟨hsend,rfl⟩
      exact ⟨table,sent,_,congrArg (Option.map _) hresult,hhonest.imp_right fun hread => ⟨pairs,hstores,hread⟩⟩

private theorem getReply_eq_zero {o : Option CString} : [getReply o] = [[0]] ↔ o = none := by
  cases o with
  | none => simp [getReply]
  | some v =>
    simp only [getReply,List.singleton_inj,reduceCtorEq,iff_false]
    intro hzero
    exact v.nulFree (hzero ▸ List.mem_singleton_self 0)

private theorem ServerState.serves_get_iff (h : ServerState table) (hstores : Stores table pairs) {key : CString}
    (hd : dispatch d = some (.get key)) (outcomes : Outcomes) :
    ServesHonestly extra table d (.get key) outcomes ↔ HonestWhen extra table pairs outcomes (.get key) := by
  have hget : ∃ rest, getHtableValue table key outcomes =
      some (if nextSucceeds outcomes then pairs.lookup key else none,rest) := by
    rcases h.cases with rfl | ⟨m,rfl,-⟩
    · obtain rfl := hstores.eq stores_missing
      exact ⟨outcomes,by simp; rfl⟩
    · obtain rfl := hstores.eq m.stores
      exact getHtableValue_apply m key outcomes
  obtain ⟨rest,hrest⟩ := hget
  rw [ServesHonestly,HonestWhen,serve_get hd,hrest]
  constructor
  · rintro ⟨table',sent,rest',hserve,hhonest⟩
    cases hserve
    by_contra hneither
    obtain ⟨hbound,hfail⟩ := not_or.mp hneither
    rw [if_neg hfail] at hhonest
    exact hbound ((hstores.get key).unique (hhonest rfl))
  · intro hwhen
    refine ⟨table,_,rest,rfl,fun hsent => ?_⟩
    have hnone : pairs.lookup key = none := by
      rcases hwhen with hnone | hok
      · exact hnone
      · rw [if_pos hok] at hsent
        exact getReply_eq_zero.mp hsent
    exact hnone ▸ hstores.get key

private theorem ServerState.serves_put_iff (h : ServerState table) (hstores : Stores table pairs) {key value : CString}
    (hd : dispatch d = some (.put key value)) (outcomes : Outcomes) :
    ServesHonestly extra table d (.put key value) outcomes ↔
      HonestWhen extra table pairs outcomes (.put key value) := by
  rw [ServesHonestly,HonestWhen,serve_put hd]
  rcases h.cases with rfl | ⟨m,rfl,-⟩
  · refine iff_of_false ?_ (fun hwhen => absurd hwhen.1 nofun)
    rintro ⟨table',sent,rest,hserve,hhonest⟩
    cases hserve
    exact absurd (hhonest rfl) nofun
  · obtain rfl := hstores.eq m.stores
    obtain ⟨rest,hrest⟩ := addHtableValue_apply m key value outcomes
    rw [hrest]
    constructor
    · rintro ⟨table',sent,rest',hserve,hhonest⟩
      cases hserve
      refine ⟨rfl,or_iff_not_imp_right.mpr fun hfail => ?_⟩
      have hget : Succeeds _ (some value) := hhonest rfl
      rw [if_neg (show ¬allSucceed (addAllocations (m.lookup key)) outcomes from hfail)] at hget
      exact (hstores.get key).unique hget
    · rintro ⟨-,hwhen⟩
      refine ⟨_,_,rest,rfl,fun _ => ?_⟩
      split
      · have hget := getHtableValue_succeeds (m.add key value) key
        rwa [m.lookup_add_self] at hget
      · rename_i hfail
        exact hwhen.resolve_right hfail ▸ hstores.get key

/-- In every state and whatever allocations fail, a request is answered honestly exactly
when the allocations that its answer rests on succeed. -/
theorem serve_honest_iff (h : ServerState table) (hd : d.length ≤ maxMsgSize) {r : Request} (hr : Denotes d r)
    (outcomes : Outcomes) (extra : UInt8) :
    ∃ pairs, Stores table pairs ∧
      (ServesHonestly extra table d r outcomes ↔ HonestWhen extra table pairs outcomes r) := by
  obtain ⟨pairs,hstores,-⟩ := h.exists_stores
  have hdispatch := dispatch_of_denotes hr hd
  refine ⟨pairs,hstores,?_⟩
  cases r with
  | check => exact iff_of_true ⟨table,_,_,serve_check hdispatch outcomes,trivial⟩ trivial
  | dump => exact h.serves_dump_iff hstores hdispatch outcomes
  | get key => exact h.serves_get_iff hstores hdispatch outcomes
  | put key value => exact h.serves_put_iff hstores hdispatch outcomes

theorem serve_honest_iff_letters :
    ∃ pairs, Stores ServerMap.initial.table pairs ∧
      (ServesHonestly 0 ServerMap.initial.table [107,0,118] (.put .letterK .letterV) [true,false] ↔
        HonestWhen 0 ServerMap.initial.table pairs [true,false] (.put .letterK .letterV)) :=
  serve_honest_iff serverState_initial (by decide) (.put .letterK .letterV (by decide)) [true,false] 0

/-- A put for which there is no memory is acknowledged all the same. -/
theorem put_acknowledged_unbound :
    ¬∀ (table : Htable) (d : Datagram) (r : Request) (outcomes : Outcomes) (extra : UInt8),
      ServerState table → d.length ≤ maxMsgSize → Denotes d r → ServesHonestly extra table d r outcomes := by
  intro h
  have hput := h _ [107,0,118] (.put .letterK .letterV) [false] 0 serverState_initial (by decide)
    (.put .letterK .letterV (by decide))
  have hdispatch : dispatch [107,0,118] = some (.put .letterK .letterV) :=
    dispatch_of_denotes (.put .letterK .letterV (by decide)) (by decide)
  have hwhen := ((serverState_initial.serves_put_iff ServerMap.initial.stores hdispatch _).mp hput).2
  rw [show ServerMap.initial.pairs = [] from ChainedMap.pairs_empty _] at hwhen
  exact absurd hwhen (by decide)

end Honesty

end PpsDht
