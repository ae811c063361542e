import Mathlib.Data.List.Flatten
import Mathlib.Data.List.Nodup
import PpsDht.AssociationLists
import PpsDht.Hashtable

/-! # The chained hash table is a finite map

`ChainedMap` holds the pairs of each chain together with the placement of the
keys; `ChainedMap.table` is its layout in cells. Every table the program builds
without running out of memory has this form. -/
namespace PpsDht
open Mem AssociationLists

abbrev Pair := CString × CString

def Bucket.ofPairs : List Pair → Bucket
  | [] => .nil
  | p::chain => .cell (some p.1) (some p.2) (ofPairs chain)

def KvPair.ofPair (p : Pair) : KvPair := ⟨some p.1,some p.2⟩

theorem KvPair.ofPair_injective : Function.Injective KvPair.ofPair := fun _ _ h =>
  Prod.ext (Option.some.inj (congrArg KvPair.key h)) (Option.some.inj (congrArg KvPair.value h))

/-- The hash stays inside the table. -/
theorem hashFunction_lt (key : CString) {size : ℕ} (h : size ≠ 0) : hashFunction key size < size := by
  rw [hashFunction,if_neg h]
  exact Nat.mod_lt _ (Nat.pos_of_ne_zero h)

theorem addToChain_succeeds (key value : CString) (chain : List Pair) :
    Succeeds (addToChain key value (.ofPairs chain)) (.errNone,.ofPairs (upsert key value chain)) := by
  induction chain with
  | nil =>
    apply malloc_succeeds.bind
    apply (strdup_succeeds (some key)).bind
    apply (strdup_succeeds (some value)).bind
    simp [upsert,Bucket.ofPairs,Succeeds.pure]
  | cons p chain ih =>
    by_cases h : p.1 = key
    · simp only [Bucket.ofPairs,addToChain,upsert,h,if_true]
      exact (strdup_succeeds (some value)).bind (.pure _)
    · simp only [Bucket.ofPairs,addToChain,upsert,h,if_false]
      exact ih.bind (.pure _)

theorem getFromChain_succeeds (key : CString) (chain : List Pair) :
    Succeeds (getFromChain key (.ofPairs chain)) (chain.lookup key) := by
  induction chain with
  | nil => exact .pure none
  | cons p chain ih =>
    rw [lookup_cons]
    by_cases h : p.1 = key
    · simp only [Bucket.ofPairs,getFromChain,h,if_true]
      exact strdup_succeeds (some p.2)
    · simp only [Bucket.ofPairs,getFromChain,h,if_false]
      exact ih

theorem copyPair_succeeds (kv : KvPair) : Succeeds (copyPair kv) kv :=
  (strdup_succeeds kv.key).bind ((strdup_succeeds kv.value).bind (.pure kv))

theorem contentOfChain_succeeds (chain : List Pair) (pairs : List KvPair) :
    Succeeds (contentOfChain pairs (.ofPairs chain)) (some (pairs ++ chain.map .ofPair)) := by
  induction chain generalizing pairs with
  | nil => simp [contentOfChain,Bucket.ofPairs,Bucket.nil,Succeeds.pure]
  | cons p chain ih =>
    apply malloc_succeeds.bind
    apply (copyPair_succeeds _).bind
    have h := ih (pairs ++ [.ofPair p])
    rw [List.append_assoc] at h
    exact h

theorem contentOfBuckets_succeeds (chains : List (List Pair)) (pairs : List KvPair) :
    Succeeds (contentOfBuckets pairs (chains.map .ofPairs))
      (some (pairs ++ chains.flatten.map .ofPair)) := by
  induction chains generalizing pairs with
  | nil => simp [contentOfBuckets,Succeeds.pure]
  | cons chain chains ih =>
    apply (contentOfChain_succeeds chain pairs).bind
    have h := ih (pairs ++ chain.map .ofPair)
    rw [List.append_assoc,← List.map_append] at h
    exact h

/-- The pairs of every chain of a table of `size` buckets, each key in the chain
its hash selects and none twice. -/
structure ChainedMap (size : ℕ) where
  chains : List (List Pair)
  size_ne_zero : size ≠ 0
  length_chains : chains.length = size
  homed : ∀ i chain, chains[i]? = some chain → ∀ p ∈ chain, hashFunction p.1 size = i
  nodup : ∀ chain ∈ chains, (chain.map Prod.fst).Nodup

namespace ChainedMap

variable {size : ℕ}

def table (m : ChainedMap size) : Htable := ⟨some (m.chains.map .ofPairs),size⟩

/-- All pairs, in the order of the buckets and of the cells of each. -/
def pairs (m : ChainedMap size) : List Pair := m.chains.flatten

def lookup (m : ChainedMap size) (key : CString) : Option CString := m.pairs.lookup key

theorem buckets_ne_none (m : ChainedMap size) : m.table.buckets ≠ none := Option.some_ne_none _

def empty (h : size ≠ 0) : ChainedMap size where
  chains := List.replicate size []
  size_ne_zero := h
  length_chains := List.length_replicate
  homed i chain hc p hp := by
    rw [List.getElem?_replicate] at hc
    split at hc
    · rw [← Option.some.inj hc] at hp
      exact absurd hp List.not_mem_nil
    · exact absurd hc nofun
  nodup chain hc := by
    rw [List.eq_of_mem_replicate hc]
    exact List.nodup_nil

def add (m : ChainedMap size) (key value : CString) : ChainedMap size where
  chains := m.chains.modify (hashFunction key size) (upsert key value)
  size_ne_zero := m.size_ne_zero
  length_chains := by rw [List.length_modify,m.length_chains]
  homed i chain hc p hp := by
    rw [List.getElem?_modify] at hc
    obtain ⟨old,ho,rfl⟩ := Option.map_eq_some_iff.mp hc
    by_cases hi : hashFunction key size = i
    · rw [if_pos hi] at hp
      rcases mem_upsert hp with rfl | hp
      · exact hi
      · exact m.homed i old ho p hp
    · rw [if_neg hi] at hp
      exact m.homed i old ho p hp
  nodup chain hc := by
    obtain ⟨i,hi⟩ := List.mem_iff_getElem?.mp hc
    rw [List.getElem?_modify] at hi
    obtain ⟨old,ho,rfl⟩ := Option.map_eq_some_iff.mp hi
    have hold := m.nodup old (List.mem_of_getElem? ho)
    split
    · exact nodup_upsert key value hold
    · exact hold

theorem exists_chain (m : ChainedMap size) (key : CString) :
    ∃ chain, m.chains[hashFunction key size]? = some chain := by
  have h : hashFunction key size < m.chains.length :=
    (hashFunction_lt key m.size_ne_zero).trans_eq m.length_chains.symm
  exact ⟨_,List.getElem?_eq_getElem h⟩

/-- Keys are distinct across the whole table, since chains do not share hashes. -/
theorem nodup_pairs (m : ChainedMap size) : (m.pairs.map Prod.fst).Nodup := by
  rw [pairs,List.map_flatten]
  refine List.nodup_flatten.mpr ⟨fun keys hk => ?_,?_⟩
  · obtain ⟨chain,hc,rfl⟩ := List.mem_map.mp hk
    exact m.nodup chain hc
  · refine List.pairwise_iff_getElem.mpr fun i j hi hj hij => ?_
    simp only [List.getElem_map]
    rw [List.disjoint_left]
    intro key hki hkj
    obtain ⟨p,hp,rfl⟩ := List.mem_map.mp hki
    obtain ⟨q,hq,hqp⟩ := List.mem_map.mp hkj
    have h₁ := m.homed i _ (List.getElem?_eq_getElem _) p hp
    have h₂ := m.homed j _ (List.getElem?_eq_getElem _) q hq
    rw [hqp] at h₂
    omega

/-- A key can only be found in its own chain. -/
theorem lookup_eq (m : ChainedMap size) {key : CString} {chain : List Pair}
    (h : m.chains[hashFunction key size]? = some chain) : m.lookup key = chain.lookup key := by
  have hmem : ∀ value, (key,value) ∈ m.pairs ↔ (key,value) ∈ chain := by
    intro value
    rw [pairs,List.mem_flatten]
    constructor
    · rintro ⟨other,ho,hv⟩
      obtain ⟨i,hi⟩ := List.mem_iff_getElem?.mp ho
      have hkey := m.homed i other hi _ hv
      rw [← hkey,h] at hi
      rwa [Option.some.inj hi]
    · exact fun hv => ⟨chain,List.mem_of_getElem? h,hv⟩
  ext value
  rw [lookup,lookup_eq_some_iff m.nodup_pairs,hmem,
    lookup_eq_some_iff (m.nodup chain (List.mem_of_getElem? h))]

theorem lookup_eq_some_iff_mem (m : ChainedMap size) {key value : CString} :
    m.lookup key = some value ↔ (key,value) ∈ m.pairs := lookup_eq_some_iff m.nodup_pairs

@[simp] theorem pairs_empty (h : size ≠ 0) : (empty h).pairs = [] := by
  simp [pairs,empty]

@[simp] theorem lookup_empty (h : size ≠ 0) (key : CString) : (empty h).lookup key = none := by
  simp [lookup]

@[simp] theorem lookup_add (m : ChainedMap size) (key value key' : CString) :
    (m.add key value).lookup key' = if key' = key then some value else m.lookup key' := by
  obtain ⟨chain,hc⟩ := m.exists_chain key'
  by_cases h : hashFunction key size = hashFunction key' size
  · have ha : (m.add key value).chains[hashFunction key' size]? = some (upsert key value chain) := by
      simp [add,hc,h]
    rw [lookup_eq _ ha,lookup_upsert,lookup_eq _ hc]
  · have ha : (m.add key value).chains[hashFunction key' size]? = some chain := by
      simp [add,hc,h]
    have hne : key' ≠ key := fun he => h (he ▸ rfl)
    rw [lookup_eq _ ha,lookup_eq _ hc,if_neg hne]

theorem lookup_add_self (m : ChainedMap size) (key value : CString) :
    (m.add key value).lookup key = some value := by
  rw [lookup_add,if_pos rfl]

theorem mem_pairs_add_self (m : ChainedMap size) (key value : CString) :
    (key,value) ∈ (m.add key value).pairs := by
  rw [← lookup_eq_some_iff_mem,lookup_add,if_pos rfl]

/-- Every stored pair was there before or is the one just added. -/
theorem mem_pairs_add {m : ChainedMap size} {key value : CString} {p : Pair}
    (h : p ∈ (m.add key value).pairs) : p = (key,value) ∨ p ∈ m.pairs := by
  obtain ⟨chain,hc,hp⟩ := List.mem_flatten.mp h
  obtain ⟨i,hi⟩ := List.mem_iff_getElem?.mp hc
  rw [add,List.getElem?_modify] at hi
  obtain ⟨old,ho,rfl⟩ := Option.map_eq_some_iff.mp hi
  have hold : ∀ p ∈ old, p ∈ m.pairs := fun p hp =>
    List.mem_flatten.mpr ⟨old,List.mem_of_getElem? ho,hp⟩
  split at hp
  · exact (mem_upsert hp).imp_right (hold p)
  · exact Or.inr (hold p hp)

theorem pairs_add_empty (h : size ≠ 0) (key value : CString) :
    ((empty h).add key value).pairs = [(key,value)] := by
  have hall : ∀ p ∈ ((empty h).add key value).pairs, p = (key,value) := fun p hp =>
    (mem_pairs_add hp).resolve_right (by simp)
  have hrep := List.eq_replicate_of_mem hall
  have hle : ((empty h).add key value).pairs.length ≤ 1 := by
    have hnodup := (((empty h).add key value).nodup_pairs).of_map
    rw [hrep] at hnodup
    exact List.nodup_replicate.mp hnodup
  have hpos := List.length_pos_of_mem (mem_pairs_add_self (empty h) key value)
  rw [hrep,Nat.le_antisymm hle hpos]
  rfl

end ChainedMap

variable {size : ℕ}

theorem constructHtable_succeeds (h : size ≠ 0) :
    Succeeds (constructHtable size) (ChainedMap.empty h).table := by
  rw [constructHtable,if_neg h]
  apply malloc_succeeds.bind
  simp [ChainedMap.table,ChainedMap.empty,Bucket.ofPairs,Succeeds.pure]

theorem constructHtable_returns (h : size ≠ 0) : Returns (constructHtable size) fun table =>
    table = (ChainedMap.empty h).table ∨ table = ⟨none,0⟩ := by
  rw [constructHtable,if_neg h]
  apply malloc_returns.bind
  intro ok _
  cases ok with
  | false => exact .pure (Or.inr rfl)
  | true =>
    apply Returns.pure
    left
    simp [ChainedMap.table,ChainedMap.empty,Bucket.ofPairs]

theorem ChainedMap.bucket_eq (m : ChainedMap size) {key : CString} {chain : List Pair}
    (h : m.chains[hashFunction key size]? = some chain) :
    (m.chains.map Bucket.ofPairs)[hashFunction key size]? = some (.ofPairs chain) := by
  simp [h]

theorem ChainedMap.set_bucket (m : ChainedMap size) {key : CString} {chain : List Pair}
    (h : m.chains[hashFunction key size]? = some chain) (value : CString) :
    (m.chains.map Bucket.ofPairs).set (hashFunction key size) (.ofPairs (upsert key value chain)) =
      (m.add key value).chains.map .ofPairs := by
  simp only [ChainedMap.add,List.modify_eq_set,h,List.map_set,Option.getD_some]

theorem ChainedMap.set_bucket_self (m : ChainedMap size) {key : CString} {chain : List Pair}
    (h : m.chains[hashFunction key size]? = some chain) :
    (m.chains.map Bucket.ofPairs).set (hashFunction key size) (.ofPairs chain) =
      m.chains.map .ofPairs := by
  obtain ⟨hi,hget⟩ := List.getElem?_eq_some_iff.mp (m.bucket_eq h)
  rw [← hget,List.set_getElem_self]

/-- Adding a pair succeeds and changes the binding of that key only. -/
theorem addHtableValue_succeeds (m : ChainedMap size) (key value : CString) :
    Succeeds (addHtableValue m.table key value) (.errNone,(m.add key value).table) := by
  obtain ⟨chain,hc⟩ := m.exists_chain key
  apply (lift_succeeds (m.bucket_eq hc)).bind
  apply (addToChain_succeeds key value chain).bind
  simp only [ChainedMap.table,m.set_bucket hc]
  exact .pure _

theorem getHtableValue_succeeds (m : ChainedMap size) (key : CString) :
    Succeeds (getHtableValue m.table key) (m.lookup key) := by
  obtain ⟨chain,hc⟩ := m.exists_chain key
  rw [m.lookup_eq hc]
  exact (lift_succeeds (m.bucket_eq hc)).bind (getFromChain_succeeds key chain)

theorem getHtableContent_succeeds (m : ChainedMap size) :
    Succeeds (getHtableContent m.table) (some (m.pairs.map .ofPair)) := by
  apply malloc_succeeds.bind
  have hlen : (m.chains.map Bucket.ofPairs).length = size := by simp [m.length_chains]
  simp only [ChainedMap.table,Option.getD_some,hlen,lt_irrefl,if_true,if_false]
  rw [List.take_of_length_le hlen.le]
  exact contentOfBuckets_succeeds m.chains []

end PpsDht
