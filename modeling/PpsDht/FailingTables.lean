import PpsDht.HashtableMap

/-! # The table when memory runs out

The table functions followed along a pattern of failures: how many allocations
each of them needs, what it returns otherwise and which outcomes are left. Every call keeps
the shape of the table, chains of complete cells ended by the only empty one, adds its pair
or changes nothing, and never follows a null pointer. -/
namespace PpsDht
open Mem AssociationLists

variable {size : ℕ}

/-- Overwriting takes one allocation, a new key three. -/
def addAllocations (old : Option CString) : ℕ := if old.isSome then 1 else 3

private theorem addBucket_apply (key value : CString) (outcomes : Outcomes) :
    ∃ rest, addBucket .nil key value outcomes =
      some (if allSucceed 3 outcomes then (.errNone,.ofPairs [(key,value)]) else (.errNomem,.nil),rest) := by
  rw [Bucket.nil,addBucket,malloc_bind]
  cases h₁ : nextSucceeds outcomes with
  | false => exact ⟨_,by simp [h₁]; rfl⟩
  | true =>
    simp only [if_true]
    rw [strdup_bind,strdup_bind]
    cases h₂ : nextSucceeds outcomes.tail <;> cases h₃ : nextSucceeds outcomes.tail.tail <;>
      exact ⟨_,by simp [h₁,h₂,h₃]; rfl⟩

private theorem addToChain_apply (key value : CString) (chain : List Pair) (outcomes : Outcomes) :
    ∃ rest, addToChain key value (.ofPairs chain) outcomes =
      some (if allSucceed (addAllocations (chain.lookup key)) outcomes
        then (.errNone,.ofPairs (upsert key value chain)) else (.errNomem,.ofPairs chain),rest) := by
  induction chain with
  | nil => exact addBucket_apply key value outcomes
  | cons p chain ih =>
    rw [lookup_cons]
    by_cases h : p.1 = key
    · simp only [Bucket.ofPairs,addToChain,upsert,h,if_true]
      rw [strdup_bind]
      cases h₁ : nextSucceeds outcomes <;> exact ⟨_,by simp [addAllocations,h₁]; rfl⟩
    · simp only [Bucket.ofPairs,addToChain,upsert,h,if_false]
      obtain ⟨rest,hrest⟩ := ih
      rw [bind_apply hrest]
      split <;> exact ⟨_,rfl⟩

/-- Adding a pair needs all its allocations and otherwise leaves the table as it was. -/
theorem addHtableValue_apply (m : ChainedMap size) (key value : CString) (outcomes : Outcomes) :
    ∃ rest, addHtableValue m.table key value outcomes =
      some (if allSucceed (addAllocations (m.lookup key)) outcomes
        then (.errNone,(m.add key value).table) else (.errNomem,m.table),rest) := by
  obtain ⟨chain,hc⟩ := m.exists_chain key
  obtain ⟨rest,hrest⟩ := addToChain_apply key value chain outcomes
  refine ⟨rest,?_⟩
  rw [addHtableValue]
  simp only [ChainedMap.table]
  rw [lift_bind (m.bucket_eq hc),bind_apply hrest,m.lookup_eq hc]
  split
  · rw [m.set_bucket hc]
    rfl
  · rw [m.set_bucket_self hc]
    rfl

/-- Whatever allocations fail, the pair is added or the table is as before. -/
theorem addHtableValue_returns (m : ChainedMap size) (key value : CString) :
    Returns (addHtableValue m.table key value) fun r =>
      r = (.errNone,(m.add key value).table) ∨ r = (.errNomem,m.table) := fun outcomes => by
  obtain ⟨rest,hrest⟩ := addHtableValue_apply m key value outcomes
  refine ⟨_,rest,hrest,?_⟩
  split
  · exact Or.inl rfl
  · exact Or.inr rfl

private theorem getFromChain_apply (key : CString) (chain : List Pair) (outcomes : Outcomes) :
    ∃ rest, getFromChain key (.ofPairs chain) outcomes =
      some (if nextSucceeds outcomes then chain.lookup key else none,rest) := by
  induction chain with
  | nil => exact ⟨outcomes,by simp [Bucket.ofPairs,Bucket.nil,getFromChain]; rfl⟩
  | cons p chain ih =>
    rw [lookup_cons]
    by_cases h : p.1 = key
    · simp only [Bucket.ofPairs,getFromChain,h,if_true]
      exact ⟨_,strdup_apply p.2 outcomes⟩
    · simp only [Bucket.ofPairs,getFromChain,h,if_false]
      exact ih

/-- Reading a bound key needs one allocation; without it the key seems unbound. -/
theorem getHtableValue_apply (m : ChainedMap size) (key : CString) (outcomes : Outcomes) :
    ∃ rest, getHtableValue m.table key outcomes =
      some (if nextSucceeds outcomes then m.lookup key else none,rest) := by
  obtain ⟨chain,hc⟩ := m.exists_chain key
  obtain ⟨rest,hrest⟩ := getFromChain_apply key chain outcomes
  refine ⟨rest,?_⟩
  rw [getHtableValue]
  simp only [ChainedMap.table]
  rw [lift_bind (m.bucket_eq hc),hrest,m.lookup_eq hc]

theorem getHtableValue_returns (m : ChainedMap size) (key : CString) :
    Returns (getHtableValue m.table key) fun o => o = none ∨ o = m.lookup key := fun outcomes => by
  obtain ⟨rest,hrest⟩ := getHtableValue_apply m key outcomes
  refine ⟨_,rest,hrest,?_⟩
  split
  · exact Or.inr rfl
  · exact Or.inl rfl

/-- The listing of one pair after the other, without regard to buckets. -/
def listPairs (listed : List KvPair) : List Pair → Mem (Option (List KvPair))
  | [] => pure (some listed)
  | p::pairs => do
    if ← malloc then
      let pair ← copyPair (.ofPair p)
      listPairs (listed ++ [pair]) pairs
    else pure none

private theorem contentOfChain_eq (chain : List Pair) (listed : List KvPair) :
    contentOfChain listed (.ofPairs chain) = listPairs listed chain := by
  induction chain generalizing listed with
  | nil => rfl
  | cons p chain ih => simp only [Bucket.ofPairs,contentOfChain,listPairs,ih,KvPair.ofPair]

private theorem listPairs_append (pairs more : List Pair) (listed : List KvPair) :
    listPairs listed (pairs ++ more) = (listPairs listed pairs >>= fun
      | none => pure none
      | some listed => listPairs listed more) := by
  induction pairs generalizing listed with
  | nil => rfl
  | cons p pairs ih =>
    simp only [List.cons_append,listPairs,bind_assoc]
    refine congrArg (malloc >>= ·) (funext fun ok => ?_)
    cases ok with
    | false => rfl
    | true => simp only [if_true,bind_assoc,ih]

private theorem contentOfBuckets_eq (chains : List (List Pair)) (listed : List KvPair) :
    contentOfBuckets listed (chains.map .ofPairs) = listPairs listed chains.flatten := by
  induction chains generalizing listed with
  | nil => rfl
  | cons chain chains ih =>
    rw [List.map_cons,contentOfBuckets,List.flatten_cons,listPairs_append,contentOfChain_eq]
    refine congrArg (listPairs listed chain >>= ·) (funext fun o => ?_)
    cases o with
    | none => rfl
    | some listed => exact ih listed

private theorem getHtableContent_eq (m : ChainedMap size) :
    getHtableContent m.table = (malloc >>= fun ok => if ok then listPairs [] m.pairs else pure none) := by
  have hlen : (m.chains.map Bucket.ofPairs).length = size := by simp [m.length_chains]
  rw [getHtableContent]
  simp only [ChainedMap.table,Option.getD_some,hlen,lt_irrefl,if_false,List.take_of_length_le hlen.le,
    contentOfBuckets_eq,ChainedMap.pairs]

/-- A copy that failed leaves a null pointer in the list. -/
def KvPair.Incomplete (kv : KvPair) : Prop := kv.key = none ∨ kv.value = none

/-- The outcomes left when the listing of `n` pairs is over. -/
def afterListing : ℕ → Outcomes → Outcomes
  | 0, outcomes => outcomes
  | n+1, outcomes => if nextSucceeds outcomes then afterListing n outcomes.tail.tail.tail else outcomes.tail

theorem copyPair_bind {β : Type} (p : Pair) (f : KvPair → Mem β) (outcomes : Outcomes) :
    (copyPair (.ofPair p) >>= f) outcomes =
      f ⟨if nextSucceeds outcomes then some p.1 else none,
        if nextSucceeds outcomes.tail then some p.2 else none⟩ outcomes.tail.tail := by
  rw [copyPair,bind_assoc,KvPair.ofPair,strdup_bind,bind_assoc,strdup_bind]
  rfl

private theorem allSucceed_three (n : ℕ) (outcomes : Outcomes) : allSucceed (3 * (n + 1)) outcomes =
    (nextSucceeds outcomes && (nextSucceeds outcomes.tail && (nextSucceeds outcomes.tail.tail &&
      allSucceed (3 * n) outcomes.tail.tail.tail))) := rfl

/-- The listing takes three allocations for each pair. When one fails the list is null or
holds a null pointer. -/
theorem listPairs_apply (pairs : List Pair) (listed : List KvPair) (outcomes : Outcomes) :
    ∃ list, listPairs listed pairs outcomes = some (list,afterListing pairs.length outcomes) ∧
      (allSucceed (3 * pairs.length) outcomes → list = some (listed ++ pairs.map .ofPair)) ∧
      (¬allSucceed (3 * pairs.length) outcomes → ∀ kvs, list = some kvs → ∃ kv ∈ kvs, kv.Incomplete) ∧
      ∀ kvs, list = some kvs → listed ⊆ kvs := by
  induction pairs generalizing listed outcomes with
  | nil => exact ⟨some listed,rfl,by simp,by simp,by simp⟩
  | cons p pairs ih =>
    rw [listPairs,malloc_bind,List.length_cons,afterListing,allSucceed_three]
    cases h₁ : nextSucceeds outcomes with
    | false => exact ⟨none,rfl,by simp,by simp,by simp⟩
    | true =>
      simp only [if_true,Bool.true_and]
      rw [copyPair_bind]
      obtain ⟨list,hlist,hall,hbad,hsub⟩ := ih
        (listed ++ [⟨if nextSucceeds outcomes.tail then some p.1 else none,
          if nextSucceeds outcomes.tail.tail then some p.2 else none⟩]) outcomes.tail.tail.tail
      refine ⟨list,hlist,fun h => ?_,fun h kvs hkvs => ?_,fun kvs hkvs => ?_⟩
      · simp only [Bool.and_eq_true] at h
        simpa [h,KvPair.ofPair] using hall h.2.2
      · have hmem := hsub kvs hkvs (List.mem_append_right listed (List.mem_singleton_self _))
        by_cases h₂ : nextSucceeds outcomes.tail
        · by_cases h₃ : nextSucceeds outcomes.tail.tail
          · exact hbad (fun hrest => h (by simp [h₂,h₃,hrest])) kvs hkvs
          · exact ⟨_,hmem,Or.inr (by simp [h₃])⟩
        · exact ⟨_,hmem,Or.inl (by simp [h₂])⟩
      · exact fun kv hkv => hsub kvs hkvs (List.mem_append_left _ hkv)

/-- The outcomes left when a table of `n` pairs has been listed. -/
def afterContent (n : ℕ) (outcomes : Outcomes) : Outcomes :=
  if nextSucceeds outcomes then afterListing n outcomes.tail else outcomes.tail

/-- The listing of a table: one allocation for the list and three for each pair. -/
theorem getHtableContent_apply (m : ChainedMap size) (outcomes : Outcomes) :
    ∃ list, getHtableContent m.table outcomes = some (list,afterContent m.pairs.length outcomes) ∧
      (allSucceed (3 * m.pairs.length + 1) outcomes → list = some (m.pairs.map .ofPair)) ∧
      (¬allSucceed (3 * m.pairs.length + 1) outcomes →
        ∀ kvs, list = some kvs → ∃ kv ∈ kvs, kv.Incomplete) := by
  rw [getHtableContent_eq,malloc_bind,allSucceed_succ,afterContent]
  cases h : nextSucceeds outcomes with
  | false => exact ⟨none,rfl,by simp,by simp⟩
  | true =>
    obtain ⟨list,hlist,hall,hbad,-⟩ := listPairs_apply m.pairs [] outcomes.tail
    exact ⟨list,hlist,by simpa using hall,by simpa using hbad⟩

/-- The cells of a chain and, last, the empty one. -/
inductive ChainOf : List Pair → Bucket → Prop
  | nil : ChainOf [] (.cell none none .null)
  | cons {chain : List Pair} {tail : Bucket} {key value : CString} (h : ChainOf chain tail) :
      ChainOf ((key,value)::chain) (.cell (some key) (some value) tail)

structure WellFormedTable (size : ℕ) (table : Htable) (chains : List (List Pair)) : Prop where
  size_eq : table.size = size
  length_chains : chains.length = size
  buckets : ∃ buckets, table.buckets = some buckets ∧ List.Forall₂ ChainOf chains buckets
  homed : ∀ i chain, chains[i]? = some chain → ∀ p ∈ chain, hashFunction p.1 size = i
  unique : (chains.flatten.map Prod.fst).Nodup

/-- The tables that calls of `addHtableValue` make of one, whatever allocations fail. -/
inductive Filled (start : Htable) : Htable → Prop
  | start : Filled start start
  | add {table table' : Htable} {key value : CString} {outcomes rest : Outcomes} {code : ErrorCode}
      (h : Filled start table) (hadd : addHtableValue table key value outcomes = some ((code,table'),rest)) :
      Filled start table'

private theorem chainOf_ofPairs (chain : List Pair) : ChainOf chain (.ofPairs chain) := by
  induction chain with
  | nil => exact .nil
  | cons p chain ih => exact .cons ih

private theorem ChainedMap.wellFormed (m : ChainedMap size) : WellFormedTable size m.table m.chains where
  size_eq := rfl
  length_chains := m.length_chains
  buckets :=
    ⟨_,rfl,List.forall₂_map_right_iff.mpr (List.forall₂_same.mpr fun chain _ => chainOf_ofPairs chain)⟩
  homed := m.homed
  unique := m.nodup_pairs

theorem Filled.exists_map (hsize : size ≠ 0) {table : Htable}
    (h : Filled (ChainedMap.empty hsize).table table) : ∃ m : ChainedMap size, table = m.table := by
  induction h with
  | start => exact ⟨_,rfl⟩
  | @add _ _ key value outcomes _ _ _ hadd ih =>
    obtain ⟨m,rfl⟩ := ih
    rcases (addHtableValue_returns m key value).result hadd with hcase | hcase
    · exact ⟨_,(Prod.mk.inj hcase).2⟩
    · exact ⟨_,(Prod.mk.inj hcase).2⟩

/-- Without a bucket array every call is refused. -/
theorem Filled.of_none {table : Htable} (h : Filled ⟨none,0⟩ table) : table = ⟨none,0⟩ := by
  induction h with
  | start => rfl
  | add _ hadd ih =>
    subst ih
    exact (Prod.mk.inj (Prod.mk.inj (Option.some.inj hadd)).1).2.symm

/-- Every call is refused and leaves the table alone. -/
def Refuses (table : Htable) : Prop := ∀ key value outcomes,
  addHtableValue table key value outcomes = some ((.errBadParameter,table),outcomes)

/-- The table lays out the pairs of `chains`, and every call works on them as on a finite map,
whatever allocations fail. -/
structure BehavesAsMap (size : ℕ) (table : Htable) (chains : List (List Pair)) : Prop where
  wellFormed : WellFormedTable size table chains
  get : ∀ key, Succeeds (getHtableValue table key) (chains.flatten.lookup key)
  content : ∀ outcomes, getHtableContent table outcomes ≠ none
  add : ∀ key value outcomes, ∃ code table' chains' rest,
    addHtableValue table key value outcomes = some ((code,table'),rest) ∧
    WellFormedTable size table' chains' ∧
    (code = .errNone ∧ (∀ key', chains'.flatten.lookup key' =
        if key' = key then some value else chains.flatten.lookup key') ∨
      code = .errNomem ∧ ∀ key', chains'.flatten.lookup key' = chains.flatten.lookup key')

private theorem ChainedMap.behavesAsMap (m : ChainedMap size) : BehavesAsMap size m.table m.chains where
  wellFormed := m.wellFormed
  get := getHtableValue_succeeds m
  content outcomes hnone := by
    obtain ⟨list,hlist,-⟩ := getHtableContent_apply m outcomes
    exact absurd (hnone.symm.trans hlist) nofun
  add key value outcomes := by
    obtain ⟨⟨code,table'⟩,rest,hadd,hcase⟩ := addHtableValue_returns m key value outcomes
    rcases hcase with hcase | hcase
    · obtain ⟨rfl,rfl⟩ := Prod.mk.inj hcase
      exact ⟨_,_,_,rest,hadd,(m.add key value).wellFormed,Or.inl ⟨rfl,m.lookup_add key value⟩⟩
    · obtain ⟨rfl,rfl⟩ := Prod.mk.inj hcase
      exact ⟨_,_,_,rest,hadd,m.wellFormed,Or.inr ⟨rfl,fun _ => rfl⟩⟩

/-- After any calls, some of whose allocations failed, the table behaves as a finite map, unless
its bucket array could not be allocated; then every call is refused. -/
theorem addHtableValue_finiteMap (size : ℕ) (hsize : size ≠ 0) (start table : Htable) (outcomes rest : Outcomes)
    (hstart : constructHtable size outcomes = some (start,rest)) (h : Filled start table) :
    (start = ⟨none,0⟩ ∧ table = start ∧ Refuses table) ∨ ∃ chains, BehavesAsMap size table chains := by
  rcases (constructHtable_returns hsize).result hstart with rfl | rfl
  · obtain ⟨m,rfl⟩ := h.exists_map hsize
    exact Or.inr ⟨m.chains,m.behavesAsMap⟩
  · obtain rfl := h.of_none
    exact Or.inl ⟨rfl,rfl,fun key value outcomes => rfl⟩

/-- One bucket, filled after a call whose second copy failed. -/
theorem addHtableValue_finiteMap_letters :
    let start : Htable := ⟨some [.cell none none .null],1⟩
    let table : Htable := ⟨some [.cell (some .letterK) (some .letterV) (.cell none none .null)],1⟩
    (start = ⟨none,0⟩ ∧ table = start ∧ Refuses table) ∨ ∃ chains, BehavesAsMap 1 table chains := by
  intro start table
  have hfailed : addHtableValue start .letterK .letterV [true,true,false] = some ((.errNomem,start),[]) := by
    decide
  have hadded : addHtableValue start .letterK .letterV [] = some ((.errNone,table),[]) := by decide
  exact addHtableValue_finiteMap 1 (by decide) start table [] [] rfl (.add (.add .start hfailed) hadded)

end PpsDht
