import PpsDht.HashtableMap

/-! # The order of a table's content

The pairs are listed bucket by bucket and inside of a bucket in the order in which
their keys were first added. Each key comes with the value that it was given last. -/
namespace PpsDht
open Mem AssociationLists

/-- One call of `addHtableValue` for each pair. -/
def addAll (table : Htable) : List Pair → Mem Htable
  | [] => pure table
  | p::adds => do
    let (_,table) ← addHtableValue table p.1 p.2
    addAll table adds

/-- The number of calls before the first one that adds the key. -/
def firstAdd (adds : List Pair) (key : CString) : ℕ := (adds.map Prod.fst).idxOf key

private theorem firstAdd_lt {adds : List Pair} {key : CString} (h : key ∈ adds.map Prod.fst) :
    firstAdd adds key < adds.length := by
  rw [firstAdd,← List.length_map Prod.fst]
  exact List.idxOf_lt_length_of_mem h

private theorem firstAdd_append {adds : List Pair} {key : CString} (h : key ∈ adds.map Prod.fst) (p : Pair) :
    firstAdd (adds ++ [p]) key = firstAdd adds key := by
  rw [firstAdd,List.map_append,List.idxOf_append_of_mem h,firstAdd]

private theorem firstAdd_concat {adds : List Pair} {p : Pair} (h : p.1 ∉ adds.map Prod.fst) :
    firstAdd (adds ++ [p]) p.1 = adds.length := by
  rw [firstAdd,List.map_append,List.idxOf_append_of_notMem h,List.map_singleton,List.idxOf_cons_self,
    List.length_map,Nat.add_zero]

variable {size : ℕ}

/-- The map holds what the calls have added, its chains in the order of the first additions. -/
structure Added (adds : List Pair) (m : ChainedMap size) : Prop where
  lookup : ∀ key, m.lookup key = adds.reverse.lookup key
  ordered : ∀ chain ∈ m.chains, (chain.map Prod.fst).Pairwise fun k k' => firstAdd adds k < firstAdd adds k'

private theorem added_empty (h : size ≠ 0) : Added [] (ChainedMap.empty h) where
  lookup key := by simp
  ordered chain hc := by
    rw [List.eq_of_mem_replicate hc]
    exact .nil

/-- A key is in its chain exactly if it was added before. -/
theorem Added.mem_keys {adds : List Pair} {m : ChainedMap size} (h : Added adds m) {key : CString}
    {chain : List Pair} (hc : m.chains[hashFunction key size]? = some chain) :
    key ∈ chain.map Prod.fst ↔ key ∈ adds.map Prod.fst := by
  rw [← lookup_isSome_iff,← m.lookup_eq hc,h.lookup,lookup_isSome_iff,List.map_reverse,List.mem_reverse]

theorem Added.step {adds : List Pair} {m : ChainedMap size} (h : Added adds m) (p : Pair) :
    Added (adds ++ [p]) (m.add p.1 p.2) where
  lookup key := by
    rw [m.lookup_add,List.reverse_concat,lookup_cons,h.lookup]
    simp only [eq_comm]
  ordered chain hc := by
    obtain ⟨i,hi⟩ := List.mem_iff_getElem?.mp hc
    rw [ChainedMap.add,List.getElem?_modify] at hi
    obtain ⟨old,ho,rfl⟩ := Option.map_eq_some_iff.mp hi
    have hadded : ∀ k ∈ old.map Prod.fst, k ∈ adds.map Prod.fst := by
      intro k hk
      obtain ⟨q,hq,rfl⟩ := List.mem_map.mp hk
      obtain rfl := m.homed i old ho q hq
      exact (h.mem_keys ho).mp hk
    have hold : (old.map Prod.fst).Pairwise fun k k' => firstAdd (adds ++ [p]) k < firstAdd (adds ++ [p]) k' :=
      (h.ordered old (List.mem_of_getElem? ho)).imp_of_mem fun hk hk' hlt => by
        rwa [firstAdd_append (hadded _ hk),firstAdd_append (hadded _ hk')]
    split
    · rename_i hhome
      subst hhome
      rw [keys_upsert]
      split
      · exact hold
      · rename_i hnew
        have hfirst := firstAdd_concat (mt (h.mem_keys ho).mpr hnew)
        refine List.pairwise_append.mpr ⟨hold,List.pairwise_singleton _ _,fun k hk k' hk' => ?_⟩
        rw [List.mem_singleton.mp hk',hfirst,firstAdd_append (hadded k hk)]
        exact firstAdd_lt (hadded k hk)
    · exact hold

/-- All calls, those before them already carried out. -/
theorem Added.run {done : List Pair} {m : ChainedMap size} (h : Added done m) (adds : List Pair) :
    ∃ m' : ChainedMap size, Succeeds (addAll m.table adds) m'.table ∧ Added (done ++ adds) m' := by
  induction adds generalizing done m with
  | nil => exact ⟨m,.pure _,by rwa [List.append_nil]⟩
  | cons p adds ih =>
    obtain ⟨m',hrun,hadded⟩ := ih (h.step p)
    rw [List.append_assoc,List.singleton_append] at hadded
    exact ⟨m',(addHtableValue_succeeds m p.1 p.2).bind hrun,hadded⟩

/-- The listing goes through the buckets in turn. -/
theorem Added.pairwise {adds : List Pair} {m : ChainedMap size} (h : Added adds m) :
    m.pairs.Pairwise fun p q => hashFunction p.1 size < hashFunction q.1 size ∨
      hashFunction p.1 size = hashFunction q.1 size ∧ firstAdd adds p.1 < firstAdd adds q.1 := by
  rw [ChainedMap.pairs,List.pairwise_flatten]
  constructor
  · intro chain hc
    obtain ⟨i,hi⟩ := List.mem_iff_getElem?.mp hc
    refine (List.pairwise_map.mp (h.ordered chain hc)).imp_of_mem fun hp hq hlt => Or.inr ⟨?_,hlt⟩
    exact (m.homed i chain hi _ hp).trans (m.homed i chain hi _ hq).symm
  · refine List.pairwise_iff_getElem.mpr fun i j hi hj hij p hp q hq => Or.inl ?_
    rwa [m.homed i _ (List.getElem?_eq_getElem hi) p hp,m.homed j _ (List.getElem?_eq_getElem hj) q hq]

/-- A table lists each key that was added once, with the value of its last addition, by bucket and
then by the place of its first addition. -/
theorem getHtableContent_ordered (size : ℕ) (hsize : size ≠ 0) (adds : List Pair) :
    ∃ (table : Htable) (pairs : List Pair),
      Succeeds (constructHtable size >>= fun table => addAll table adds) table ∧
      Succeeds (getHtableContent table) (some (pairs.map .ofPair)) ∧
      pairs.length = (adds.map Prod.fst).dedup.length ∧ (pairs.map Prod.fst).Nodup ∧
      (∀ key value, (key,value) ∈ pairs ↔ adds.reverse.lookup key = some value) ∧
      pairs.Pairwise fun p q => hashFunction p.1 size < hashFunction q.1 size ∨
        hashFunction p.1 size = hashFunction q.1 size ∧ firstAdd adds p.1 < firstAdd adds q.1 := by
  obtain ⟨m,hrun,hadded⟩ := (added_empty hsize).run adds
  rw [List.nil_append] at hadded
  have hmem : ∀ key value, (key,value) ∈ m.pairs ↔ adds.reverse.lookup key = some value := fun key value => by
    rw [← m.lookup_eq_some_iff_mem,hadded.lookup]
  have hkeys : (m.pairs.map Prod.fst).Perm (adds.map Prod.fst).dedup := by
    refine (List.perm_ext_iff_of_nodup m.nodup_pairs (List.nodup_dedup _)).mpr fun key => ?_
    rw [List.mem_dedup,← lookup_isSome_iff,← List.mem_reverse,← List.map_reverse,← lookup_isSome_iff,
      ← hadded.lookup]
    rfl
  refine ⟨m.table,m.pairs,(constructHtable_succeeds hsize).bind hrun,getHtableContent_succeeds m,?_,
    m.nodup_pairs,hmem,hadded.pairwise⟩
  rw [← hkeys.length_eq,List.length_map]

/-- One bucket, the first key overwritten after the second was added. -/
theorem getHtableContent_ordered_letters :
    let adds : List Pair := [(.letterK,.letterK),(.letterV,.letterV),(.letterK,.letterV)]
    ∃ (table : Htable) (pairs : List Pair),
      Succeeds (constructHtable 1 >>= fun table => addAll table adds) table ∧
      Succeeds (getHtableContent table) (some (pairs.map .ofPair)) ∧
      pairs.length = (adds.map Prod.fst).dedup.length ∧ (pairs.map Prod.fst).Nodup ∧
      (∀ key value, (key,value) ∈ pairs ↔ adds.reverse.lookup key = some value) ∧
      pairs.Pairwise fun p q => hashFunction p.1 1 < hashFunction q.1 1 ∨
        hashFunction p.1 1 = hashFunction q.1 1 ∧ firstAdd adds p.1 < firstAdd adds q.1 :=
  getHtableContent_ordered 1 (by decide) _

end PpsDht
