import PpsDht.FailingTables
import PpsDht.ServerRefinement

/-! # Server states, whatever allocations fail

The server goes on when memory runs out. Each state it can be in holds pairs that
fit into a request; the bucket array itself may be missing. -/
namespace PpsDht
open Mem

section Cycles

variable {table : Htable} {d : Datagram}

theorem serve_check (h : dispatch d = some .check) (outcomes : Outcomes) :
    serve table d outcomes = some ((table,[[]]),outcomes) := by
  rw [serve,lift_bind h]
  rfl

theorem serve_dump (h : dispatch d = some .dump) (outcomes : Outcomes) :
    serve table d outcomes = (dump table outcomes).map fun result => ((table,result.1),result.2) := by
  rw [serve,lift_bind h]
  change (dump table outcomes).bind _ = _
  cases dump table outcomes <;> rfl

theorem serve_get {k : CString} (h : dispatch d = some (.get k)) (outcomes : Outcomes) :
    serve table d outcomes =
      (getHtableValue table k outcomes).map fun result => ((table,[getReply result.1]),result.2) := by
  rw [serve,lift_bind h]
  change (getHtableValue table k outcomes).bind _ = _
  cases getHtableValue table k outcomes with
  | none => rfl
  | some result => rcases result with ⟨_ | v,rest⟩ <;> rfl

theorem serve_put {k v : CString} (h : dispatch d = some (.put k v)) (outcomes : Outcomes) :
    serve table d outcomes =
      (addHtableValue table k v outcomes).map fun result => ((result.1.2,[[]]),result.2) := by
  rw [serve,lift_bind h]
  change (addHtableValue table k v outcomes).bind _ = _
  cases addHtableValue table k v outcomes <;> rfl

/-- Only a put changes the table. -/
theorem serve_table {outcomes rest : Outcomes} {table' : Htable} {sent : List Datagram}
    (h : serve table d outcomes = some ((table',sent),rest)) :
    table' = table ∨ ∃ k v code, dispatch d = some (.put k v) ∧
      addHtableValue table k v outcomes = some ((code,table'),rest) := by
  cases hd : dispatch d with
  | none =>
    rw [serve,hd] at h
    exact absurd h nofun
  | some r =>
    cases r with
    | check =>
      rw [serve_check hd] at h
      cases h
      exact Or.inl rfl
    | dump =>
      rw [serve_dump hd,Option.map_eq_some_iff] at h
      obtain ⟨result,-,heq⟩ := h
      cases heq
      exact Or.inl rfl
    | get k =>
      rw [serve_get hd,Option.map_eq_some_iff] at h
      obtain ⟨result,-,heq⟩ := h
      cases heq
      exact Or.inl rfl
    | put k v =>
      rw [serve_put hd,Option.map_eq_some_iff] at h
      obtain ⟨⟨⟨code,table''⟩,rest'⟩,hadd,heq⟩ := h
      cases heq
      exact Or.inr ⟨k,v,code,rfl,hadd⟩

end Cycles

inductive ServerState : Htable → Prop
  | initial {table : Htable} {outcomes rest : Outcomes}
      (h : constructHtable htableSize outcomes = some (table,rest)) : ServerState table
  | step {table table' : Htable} {d : Datagram} {sent : List Datagram} {outcomes rest : Outcomes}
      (h : ServerState table) (hd : d.length ≤ maxMsgSize)
      (hserve : serve table d outcomes = some ((table',sent),rest)) : ServerState table'

private theorem eq_of_construct {table : Htable} {outcomes rest : Outcomes}
    (h : constructHtable htableSize outcomes = some (table,rest)) :
    table = ServerMap.initial.table ∨ table = ⟨none,0⟩ :=
  (constructHtable_returns ServerMap.initial.size_ne_zero).result h

theorem ServerState.cases {table : Htable} (h : ServerState table) :
    table = ⟨none,0⟩ ∨ ∃ m : ServerMap, table = m.table ∧ RequestSized m := by
  induction h with
  | initial h =>
    rcases eq_of_construct h with rfl | rfl
    · exact Or.inr ⟨_,rfl,RequestSized.initial⟩
    · exact Or.inl rfl
  | @step _ _ _ _ outcomes _ _ hd hserve ih =>
    rcases serve_table hserve with rfl | ⟨k,v,code,hdis,hadd⟩
    · exact ih
    · rcases ih with rfl | ⟨m,rfl,hm⟩
      · cases hadd
        exact Or.inl rfl
      · have hput : Denotes _ (.put k v) := (dispatch_iff hd _).mp hdis
        have hsized := hm.apply hput hd
        rcases (addHtableValue_returns m k v).result hadd with hcase | hcase
        · exact Or.inr ⟨m.add k v,(Prod.mk.inj hcase).2,hsized⟩
        · exact Or.inr ⟨m,(Prod.mk.inj hcase).2,hm⟩

theorem serverState_initial : ServerState ServerMap.initial.table :=
  .initial (constructHtable_succeeds (by decide))

/-- The state after one put. -/
theorem serverState_put {d : Datagram} {k v : CString} (h : Denotes d (.put k v)) (hd : d.length ≤ maxMsgSize) :
    ServerState (ServerMap.initial.add k v).table := by
  have hserve := serve_succeeds (m := .initial) (dispatch_of_denotes h hd) nofun
  exact serverState_initial.step hd hserve

/-- The pairs that a table lists are those it binds. -/
structure Stores (table : Htable) (pairs : List Pair) : Prop where
  content : Succeeds (getHtableContent table) (some (pairs.map .ofPair))
  get : ∀ k, Succeeds (getHtableValue table k) (pairs.lookup k)
  unique : (pairs.map Prod.fst).Nodup

theorem ChainedMap.stores {size : ℕ} (m : ChainedMap size) : Stores m.table m.pairs :=
  ⟨getHtableContent_succeeds m,getHtableValue_succeeds m,m.nodup_pairs⟩

theorem stores_missing : Stores ⟨none,0⟩ [] := ⟨rfl,fun _ => rfl,List.nodup_nil⟩

theorem Stores.eq {table : Htable} {pairs pairs' : List Pair} (h : Stores table pairs)
    (h' : Stores table pairs') : pairs = pairs' := by
  have hmap := Option.some.inj (h.content.unique h'.content)
  refine List.map_injective_iff.mpr (fun p q hpq => ?_) hmap
  obtain ⟨hk,hv⟩ := KvPair.mk.inj hpq
  exact Prod.ext (Option.some.inj hk) (Option.some.inj hv)

theorem ServerState.exists_stores {table : Htable} (h : ServerState table) :
    ∃ pairs, Stores table pairs ∧ ∀ p ∈ pairs, p.1.length + 1 + p.2.length ≤ maxMsgSize := by
  rcases h.cases with rfl | ⟨m,rfl,hm⟩
  · exact ⟨[],stores_missing,by simp⟩
  · exact ⟨m.pairs,m.stores,hm⟩

/-- A read key is bound to the value or seems unbound. -/
theorem ServerState.get_cases {table : Htable} (h : ServerState table) {pairs : List Pair}
    (hstores : Stores table pairs) {k : CString} {outcomes rest : Outcomes} {o : Option CString}
    (hget : getHtableValue table k outcomes = some (o,rest)) : o = none ∨ o = pairs.lookup k := by
  rcases h.cases with rfl | ⟨m,rfl,-⟩
  · cases hget
    exact Or.inl rfl
  · rw [hstores.eq m.stores]
    exact (getHtableValue_returns m k).result hget

end PpsDht
