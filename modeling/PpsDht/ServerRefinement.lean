import Mathlib.Data.Finmap
import PpsDht.DumpDatagrams
import PpsDht.ServerLoop

/-! # The server refines a finite map

The reference server holds a finite map and answers by the meaning of each
datagram. The chained table of the program simulates it over whole runs. A stored pair
came in one datagram together with its separator, which bounds its length in every
reachable table. -/
namespace PpsDht
open Mem AssociationLists

abbrev ServerMap := ChainedMap htableSize

def ServerMap.initial : ServerMap := .empty (by decide)

/-- What a request does to the table. -/
def Request.apply : Request → ServerMap → ServerMap
  | .put k v, m => m.add k v
  | _, m => m

/-- The reply to a get, from the binding of the key. -/
def getReply : Option CString → Datagram
  | none => [0]
  | some v => v.chars

def Request.answer : Request → ServerMap → List Datagram
  | .check, _ => [[]]
  | .dump, m => dumpDatagrams m.pairs
  | .get k, m => [getReply (m.lookup k)]
  | .put _ _, _ => [[]]

/-- Every pair fits into the buffer of a dump, both terminators included. -/
def DumpFits (m : ServerMap) : Prop := ∀ p ∈ m.pairs, cost p ≤ maxMsgSize

/-- One cycle does what the datagram denotes, and nothing else. -/
theorem serve_succeeds {m : ServerMap} {d : Datagram} {r : Request} (hd : dispatch d = some r)
    (hfit : r = .dump → DumpFits m) : Succeeds (serve m.table d) ((r.apply m).table,r.answer m) := by
  apply (lift_succeeds hd).bind
  cases r with
  | check => exact .pure _
  | dump => exact (dump_succeeds (hfit rfl)).bind (.pure _)
  | get k =>
    apply (getHtableValue_succeeds m k).bind
    simp only [Request.answer]
    cases m.lookup k <;> exact .pure _
  | put k v => exact (addHtableValue_succeeds m k v).bind (.pure _)

theorem serve_faults {m : ServerMap} {d : Datagram} (hd : dispatch d = some .dump)
    (hfit : ¬DumpFits m) : Faults (serve m.table d) :=
  (lift_succeeds hd).bind_faults ((dump_faults hfit).bind _)

abbrev Store := Finmap fun _ : CString => CString

/-- The list holds each binding of the store once, in any order. -/
def Lists (pairs : List Pair) (store : Store) : Prop :=
  (pairs.map Prod.fst).Nodup ∧ ∀ k v, (k,v) ∈ pairs ↔ store.lookup k = some v

/-- One cycle of the reference server. Only the order of a dump is left open. -/
inductive Reference : Store → Datagram → Store → List Datagram → Prop
  | check {store : Store} {d : Datagram} (h : Denotes d .check) : Reference store d store [[]]
  | dump {store : Store} {d : Datagram} (pairs : List Pair) (h : Denotes d .dump)
      (hl : Lists pairs store) : Reference store d store (dumpDatagrams pairs)
  | get {store : Store} {d : Datagram} {k : CString} (h : Denotes d (.get k)) :
      Reference store d store [getReply (store.lookup k)]
  | put {store : Store} {d : Datagram} {k v : CString} (h : Denotes d (.put k v)) :
      Reference store d (store.insert k v) [[]]

inductive ReferenceRun : Store → List Datagram → Store → List (List Datagram) → Prop
  | nil (store : Store) : ReferenceRun store [] store []
  | cons {store store' store'' : Store} {d : Datagram} {ds : List Datagram} {sent : List Datagram}
      {rest : List (List Datagram)} (hd : Reference store d store' sent)
      (hds : ReferenceRun store' ds store'' rest) : ReferenceRun store (d::ds) store'' (sent::rest)

/-- The table and the store bind the same keys to the same values. -/
def Simulates (m : ServerMap) (store : Store) : Prop := ∀ k, m.lookup k = store.lookup k

private theorem Simulates.lists {m : ServerMap} {store : Store} (h : Simulates m store) :
    Lists m.pairs store :=
  ⟨m.nodup_pairs,fun k v => by rw [← h k,m.lookup_eq_some_iff_mem]⟩

theorem Simulates.initial : Simulates .initial ∅ := fun k => by
  rw [ServerMap.initial,ChainedMap.lookup_empty,Finmap.lookup_empty]

theorem Simulates.add {m : ServerMap} {store : Store} (h : Simulates m store) (k v : CString) :
    Simulates (m.add k v) (store.insert k v) := fun k' => by
  rw [ChainedMap.lookup_add]
  split
  · rename_i hk
    rw [hk,Finmap.lookup_insert]
  · rename_i hk
    rw [Finmap.lookup_insert_of_ne _ hk,h k']

private theorem Simulates.dumpFits {m : ServerMap} {store : Store} (h : Simulates m store) :
    DumpFits m ↔ ∀ k v, store.lookup k = some v → cost (k,v) ≤ maxMsgSize := by
  rw [DumpFits,Prod.forall]
  exact forall₂_congr fun k v => by rw [h.lists.2 k v]

/-- The store after a request. -/
def Request.update : Request → Store → Store
  | .put k v, store => store.insert k v
  | _, store => store

/-- The reference server follows each cycle of the program. -/
theorem Simulates.step {m : ServerMap} {store : Store} (h : Simulates m store) {d : Datagram}
    {r : Request} (hr : Denotes d r) :
    Reference store d (r.update store) (r.answer m) ∧ Simulates (r.apply m) (r.update store) := by
  cases r with
  | check => exact ⟨.check hr,h⟩
  | dump => exact ⟨.dump m.pairs hr h.lists,h⟩
  | get k =>
    refine ⟨?_,h⟩
    rw [Request.answer,h k]
    exact .get hr
  | put k v => exact ⟨.put hr,h.add k v⟩

theorem Reference.update {store store' : Store} {d : Datagram} {sent : List Datagram}
    (h : Reference store d store' sent) {r : Request} (hd : dispatch d = some r)
    (hlen : d.length ≤ maxMsgSize) : store' = r.update store := by
  cases h with
  | check h | dump _ h | get h | put h =>
    rw [dispatch_of_denotes h hlen] at hd
    obtain rfl := Option.some.inj hd
    rfl

/-- Whenever the run comes to a dump request, each pair then bound fits into the
buffer of a dump. -/
def DumpsFit (store : Store) (ds : List Datagram) : Prop :=
  ∀ (before after : List Datagram) (store' : Store) (sent : List (List Datagram)),
    ds = before ++ [0]::after → ReferenceRun store before store' sent →
      ∀ k v, store'.lookup k = some v → k.length + 1 + (v.length + 1) ≤ maxMsgSize

private theorem dumpsFit_nil (store : Store) : DumpsFit store [] := by
  intro before after store' sent hds
  exact absurd hds.symm (by simp)

private theorem dumpsFit_cons {store : Store} {d : Datagram} {ds : List Datagram} {r : Request}
    (hd : dispatch d = some r) (hlen : d.length ≤ maxMsgSize) {sent : List Datagram}
    (href : Reference store d (r.update store) sent) :
    DumpsFit store (d::ds) ↔
      (r = .dump → ∀ k v, store.lookup k = some v → cost (k,v) ≤ maxMsgSize) ∧
      DumpsFit (r.update store) ds := by
  constructor
  · refine fun h => ⟨fun hr k v hk => ?_,fun before after store' sent hds hrun => ?_⟩
    · rw [hr,dispatch_iff hlen] at hd
      cases hd
      exact h [] ds store [] rfl (.nil store) k v hk
    · exact h (d::before) after store' _ (congrArg (d::·) hds) (.cons href hrun)
  · rintro ⟨hdump,hrest⟩ before after store' sent hds hrun
    cases hrun with
    | nil =>
      obtain ⟨rfl,rfl⟩ := List.cons.inj hds
      exact hdump (Option.some.inj (hd.symm.trans (dispatch_of_denotes .dump hlen)))
    | cons hfirst hrun =>
      obtain ⟨rfl,rfl⟩ := List.cons.inj hds
      rw [hfirst.update hd hlen] at hrun
      exact hrest _ after store' _ rfl hrun

/-- A run succeeds as long as its dumps fit, and then the reference server follows it. -/
theorem serveAll_refines {ds : List Datagram} (hds : ∀ d ∈ ds, d.length ≤ maxMsgSize)
    {m : ServerMap} {store : Store} (h : Simulates m store) (hfit : DumpsFit store ds) :
    ∃ (m' : ServerMap) (sent : List (List Datagram)) (store' : Store),
      Succeeds (serveAll m.table ds) (m'.table,sent) ∧ ReferenceRun store ds store' sent ∧
      Simulates m' store' := by
  induction ds generalizing m store with
  | nil => exact ⟨m,[],store,.pure _,.nil store,h⟩
  | cons d ds ih =>
    have hd := hds d List.mem_cons_self
    obtain ⟨r,hr⟩ := exists_denotes d
    have hdis := dispatch_of_denotes hr hd
    obtain ⟨href,hsim⟩ := h.step hr
    obtain ⟨hdump,hrest⟩ := (dumpsFit_cons hdis hd href).mp hfit
    obtain ⟨m₂,rest,store₂,hrun,hrun',hsim₂⟩ := ih (fun d h => hds d (List.mem_cons_of_mem _ h)) hsim hrest
    refine ⟨m₂,r.answer m::rest,store₂,?_,.cons href hrun',hsim₂⟩
    exact (serve_succeeds hdis fun hr => h.dumpFits.mpr (hdump hr)).bind (hrun.bind (.pure _))

/-- A dump that does not fit ends the run in undefined behaviour. -/
theorem dumpsFit_of_serveAll {ds : List Datagram} (hds : ∀ d ∈ ds, d.length ≤ maxMsgSize)
    {m : ServerMap} {store : Store} (h : Simulates m store)
    {result : Htable × List (List Datagram)} (hrun : Succeeds (serveAll m.table ds) result) :
    DumpsFit store ds := by
  induction ds generalizing m store result with
  | nil => exact dumpsFit_nil store
  | cons d ds ih =>
    have hd := hds d List.mem_cons_self
    obtain ⟨r,hr⟩ := exists_denotes d
    have hdis := dispatch_of_denotes hr hd
    obtain ⟨href,hsim⟩ := h.step hr
    have hdump : r = .dump → DumpFits m := by
      rintro rfl
      by_contra hfit
      exact ((serve_faults hdis hfit).bind _).not_succeeds _ hrun
    refine (dumpsFit_cons hdis hd href).mpr ⟨fun hr => h.dumpFits.mp (hdump hr),?_⟩
    rw [serveAll,Succeeds,(serve_succeeds hdis hdump).bind_apply] at hrun
    obtain ⟨rest,hrest,-⟩ := Succeeds.of_bind_pure (m := serveAll (r.apply m).table ds) hrun
    exact ih (fun d h => hds d (List.mem_cons_of_mem _ h)) hsim hrest

/-- The program runs through `ds` and answers as a reference server that starts empty;
it ends with a table that binds exactly what the reference store binds. -/
def FollowsReference (ds : List Datagram) : Prop :=
  ∃ (table : Htable) (sent : List (List Datagram)) (store : Store),
    Succeeds (launchServer ds) (table,sent) ∧ ReferenceRun ∅ ds store sent ∧
    ∀ k, Succeeds (getHtableValue table k) (store.lookup k)

private theorem FollowsReference.dumpsFit {ds : List Datagram} (h : FollowsReference ds)
    (hds : ∀ d ∈ ds, d.length ≤ maxMsgSize) : DumpsFit ∅ ds := by
  obtain ⟨table,sent,store,hrun,-,-⟩ := h
  rw [launchServer,Succeeds,(constructHtable_succeeds (by decide)).bind_apply] at hrun
  exact dumpsFit_of_serveAll hds Simulates.initial hrun

/-- Every datagram has one meaning, and over a sequence of datagrams the program
follows the reference server exactly when no dump comes to a pair that overflows
the dump's buffer. -/
theorem launchServer_refines (ds : List Datagram) (hds : ∀ d ∈ ds, d.length ≤ maxMsgSize) :
    (∀ d ∈ ds, ∃! r, Denotes d r) ∧ (FollowsReference ds ↔ DumpsFit ∅ ds) := by
  refine ⟨fun d hd => ?_,fun h => h.dumpsFit hds,fun hfit => ?_⟩
  · obtain ⟨r,hr⟩ := exists_denotes d
    refine ⟨r,hr,fun r' hr' => ?_⟩
    have h := dispatch_of_denotes hr (hds d hd)
    rw [dispatch_of_denotes hr' (hds d hd)] at h
    exact Option.some.inj h
  · obtain ⟨m,sent,store,hrun,href,hsim⟩ := serveAll_refines hds Simulates.initial hfit
    refine ⟨m.table,sent,store,?_,href,fun k => ?_⟩
    · exact (constructHtable_succeeds (by decide)).bind hrun
    · rw [← hsim k]
      exact getHtableValue_succeeds m k

theorem launchServer_refines_put_get :
    (∀ d ∈ [[107,0,118],[107],[]], ∃! r, Denotes d r) ∧
      (FollowsReference [[107,0,118],[107],[]] ↔ DumpsFit ∅ [[107,0,118],[107],[]]) :=
  launchServer_refines [[107,0,118],[107],[]] (by decide)

/-- A key of one byte with a value of `n` bytes. -/
def letterPair (n : ℕ) : Pair := (.letterK,.replicate n 118 (by decide))

@[simp] theorem letterPair_key (n : ℕ) : (letterPair n).1.length = 1 := rfl

@[simp] theorem letterPair_value (n : ℕ) : (letterPair n).2.length = n :=
  CString.length_replicate n 118 (by decide)

theorem letterPair_denotes (n : ℕ) (h : n ≠ 0) :
    Denotes ((letterPair n).1.chars ++ 0::(letterPair n).2.chars) (.put (letterPair n).1 (letterPair n).2) :=
  .put (letterPair n).1 (letterPair n).2 fun he =>
    h ((letterPair_value n).symm.trans (congrArg CString.length he))

/-- A pair that just fits into a request, stored and then dumped, is copied one byte
past the buffer. -/
theorem launchServer_atLimit :
    ¬∀ ds : List Datagram, (∀ d ∈ ds, d.length ≤ maxMsgSize) →
      (∀ d ∈ ds, ∃! r, Denotes d r) ∧ FollowsReference ds := by
  intro h
  have hds : ∀ d ∈ [(letterPair 65505).1.chars ++ 0::(letterPair 65505).2.chars,[0]],
      d.length ≤ maxMsgSize := by
    refine List.forall_mem_cons.mpr ⟨?_,by decide⟩
    rw [CString.length_separated,letterPair_key,letterPair_value]
    decide
  have hfit := (h _ hds).2.dumpsFit hds [_] [] _ _ rfl
    (.cons (.put (letterPair_denotes 65505 (by decide))) (.nil _)) _ _ (Finmap.lookup_insert ∅)
  rw [letterPair_key,letterPair_value] at hfit
  exact absurd hfit (by decide)

inductive ReachableTable : Htable → Prop
  | initial {table : Htable} (h : Succeeds (constructHtable htableSize) table) : ReachableTable table
  | step {table table' : Htable} {d : Datagram} {sent : List Datagram} (h : ReachableTable table)
      (hd : d.length ≤ maxMsgSize) (hserve : Succeeds (serve table d) (table',sent)) :
      ReachableTable table'

theorem reachableTable_initial : ReachableTable ServerMap.initial.table :=
  .initial (constructHtable_succeeds (by decide))

theorem ReachableTable.put {m : ServerMap} (h : ReachableTable m.table) {k v : CString} (hv : v ≠ .empty)
    (hlen : (k.chars ++ 0::v.chars).length ≤ maxMsgSize) : ReachableTable (m.add k v).table := by
  have hserve := @serve_succeeds m _ _ (dispatch_of_denotes (.put k v hv) hlen) nofun
  exact h.step hlen hserve

/-- Each pair fits into one request. -/
def RequestSized (m : ServerMap) : Prop := ∀ p ∈ m.pairs, p.1.length + 1 + p.2.length ≤ maxMsgSize

private theorem Denotes.length_put {d : Datagram} {k v : CString} (h : Denotes d (.put k v)) :
    k.length + 1 + v.length ≤ d.length := by
  cases h with
  | putEmpty => simp
  | put => rw [CString.length_separated]
  | putRest =>
    simp only [List.length_append,List.length_cons,CString.length_chars]
    omega

/-- A cycle that comes to an end has done what its datagram denotes. -/
theorem serve_cases {m : ServerMap} {d : Datagram} (hd : d.length ≤ maxMsgSize) {table : Htable}
    {sent : List Datagram} (h : Succeeds (serve m.table d) (table,sent)) :
    ∃ r, Denotes d r ∧ table = (r.apply m).table ∧ sent = r.answer m := by
  obtain ⟨r,hr⟩ := exists_denotes d
  have hdis := dispatch_of_denotes hr hd
  have hfit : r = .dump → DumpFits m := by
    rintro rfl
    by_contra hfit
    exact (serve_faults hdis hfit).not_succeeds _ h
  obtain ⟨htable,hsent⟩ := Prod.mk.inj (h.unique (serve_succeeds hdis hfit))
  exact ⟨r,hr,htable,hsent⟩

theorem RequestSized.initial : RequestSized .initial := fun p hp => by
  rw [ServerMap.initial,ChainedMap.pairs_empty] at hp
  exact absurd hp List.not_mem_nil

theorem RequestSized.apply {m : ServerMap} (h : RequestSized m) {d : Datagram} {r : Request}
    (hr : Denotes d r) (hd : d.length ≤ maxMsgSize) : RequestSized (r.apply m) := by
  cases r with
  | check | dump | get => exact h
  | put k v =>
    intro p hp
    rcases ChainedMap.mem_pairs_add hp with rfl | hp
    · exact hr.length_put.trans hd
    · exact h p hp

theorem ReachableTable.exists_map {table : Htable} (h : ReachableTable table) :
    ∃ m : ServerMap, table = m.table ∧ RequestSized m := by
  induction h with
  | initial h => exact ⟨.initial,h.unique (constructHtable_succeeds (by decide)),.initial⟩
  | step _ hd hserve ih =>
    obtain ⟨m,rfl,hm⟩ := ih
    obtain ⟨r,hr,rfl,-⟩ := serve_cases hd hserve
    exact ⟨r.apply m,rfl,hm.apply hr hd⟩

end PpsDht
