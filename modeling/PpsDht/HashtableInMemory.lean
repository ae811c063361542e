import PpsDht.HashtableBlocks
import PpsDht.HashtableMap

/-! # The table in memory is the table

Each function of the hash table does to the blocks of a table what its model does to the
table, makes the same allocations, and leaves no other block behind. -/
namespace PpsDht.OnHeap
open Mem Heaps HProp

variable {A : Allocator} {a : Addr} {cells : List BucketCell} {i n : ℕ} {c : BucketCell} {key value : CString}

/-- What an addition to a chain leaves at its first bucket. -/
def addedAt (a : Addr) (cells : List BucketCell) (i : ℕ) (code : ErrorCode) (r : ErrorCode × Bucket) : HProp Block :=
  given (code = r.1) (⨆ c, block a (.buckets (cells.set i c)) * fieldsOf c r.2)

private theorem le_addedAt {P : HProp Block} {code : ErrorCode} {b : Bucket} (c : BucketCell)
    (h : P ≤ block a (.buckets (cells.set i c)) * fieldsOf c b) : P ≤ addedAt a cells i code (code,b) :=
  le_given rfl (le_iSup_of_le c h)

/-- An emptied bucket. -/
theorem le_addedAt_empty (code : ErrorCode) :
    block a (.buckets (cells.set i zeroCell)) ≤ addedAt a cells i code (code,.cell none none .null) :=
  le_addedAt zeroCell (by rw [fieldsOf_empty,mul_one])

theorem undoBucket_implements (hi : i < cells.length) (c : BucketCell) (t : Addr) (k v : Option CString) : Implements
    (block a (.buckets (cells.set i c)) * (stringAt c.key k * (stringAt c.value v * block t (.buckets [zeroCell]))))
    (undoBucket ⟨a,i⟩ (some t)) (pure (.errNomem,.cell none none .null)) (addedAt a cells i) := by
  have hset : ∀ c : BucketCell, (cells.set i c)[i]? = some c := fun c => List.getElem?_set_self hi
  have hperm : block a (.buckets (cells.set i c)) *
      (stringAt c.key k * (stringAt c.value v * block t (.buckets [zeroCell]))) = block t (.buckets [zeroCell]) *
        (block a (.buckets (cells.set i c)) * (stringAt c.key k * (stringAt c.value v * 1))) := by
    rw [mul_one]
    ac_rfl
  rw [undoBucket,hperm]
  refine .free_bind (modifyBucket_bind (hset c) ?_)
  rw [List.set_set]
  refine kvPairFree_bind (hset _) ?_
  rw [List.set_set]
  refine modifyBucket_bind (hset _) (.pure ?_)
  rw [List.set_set,mul_one]
  exact le_addedAt_empty _

theorem addBucket_implements (hc : cells[i]? = some zeroCell) : Implements (block a (.buckets cells))
    (addBucket A ⟨a,i⟩ key value) (PpsDht.addBucket (.cell none none .null) key value) (addedAt a cells i) := by
  have hi := (List.getElem?_eq_some_iff.mp hc).1
  have hset : ∀ c : BucketCell, (cells.set i c)[i]? = some c := fun c => List.getElem?_set_self hi
  simp only [addBucket,PpsDht.addBucket]
  refine .alloc_bind (fun t => ?_) ?_
  · rw [mul_comm]
    refine modifyBucket_bind hc ?_
    rw [if_neg (Option.some_ne_none _),if_pos rfl]
    refine newString_bind (fun p => ?_) ?_
    · rw [mul_left_comm]
      refine modifyBucket_bind (hset _) ?_
      rw [List.set_set]
      refine newString_bind (fun p' => ?_) ?_
      · rw [mul_left_comm]
        refine modifyBucket_bind (hset _) ?_
        rw [List.set_set,if_neg (by simp),if_neg (by simp)]
        refine .pure (le_addedAt ⟨some p,some p',some t⟩ ?_)
        rw [mul_left_comm (block p' _)]
        exact mul_le_mul_right (mul_le_mul_right (mul_le_mul_right (block_le_nil t) _) _) _
      · refine modifyBucket_bind (hset _) ?_
        rw [List.set_set,if_pos (by simp),if_pos (by simp)]
        exact (undoBucket_implements hi ⟨some p,none,some t⟩ t (some key) none).mono
          (by rw [stringAt,one_mul]; exact le_rfl) fun _ _ => le_rfl
    · refine modifyBucket_bind (hset _) ?_
      rw [List.set_set]
      refine newString_bind (fun p' => ?_) ?_
      · rw [mul_left_comm]
        refine modifyBucket_bind (hset _) ?_
        rw [List.set_set,if_pos (by simp),if_pos (by simp)]
        exact (undoBucket_implements hi ⟨none,some p',some t⟩ t none (some value)).mono
          (by rw [stringAt,one_mul]; exact le_rfl) fun _ _ => le_rfl
      · refine modifyBucket_bind (hset _) ?_
        rw [List.set_set,if_pos (by simp),if_pos (by simp)]
        exact (undoBucket_implements hi ⟨none,none,some t⟩ t none none).mono
          (by simp only [stringAt,one_mul]; exact le_rfl) fun _ _ => le_rfl
  · rw [← mul_one (block a _)]
    refine modifyBucket_bind hc ?_
    rw [if_pos rfl,if_neg Bool.false_ne_true]
    refine .pure ?_
    rw [mul_one]
    exact le_addedAt_empty _

private theorem set_of_getElem? (hc : cells[i]? = some c) : cells.set i c = cells := by
  obtain ⟨hi,rfl⟩ := List.getElem?_eq_some_iff.mp hc
  exact List.set_getElem_self hi

/-- The tail of a bucket is replaced by what an addition makes of it. -/
theorem addedAt_tail {a' : Addr} {c' : BucketCell} (htail : c.tail = some a') (hc : cells[i]? = some c) (k : CString)
    (v : Option CString) (code : ErrorCode) (r : ErrorCode × Bucket) :
    addedAt a' [c'] 0 code r * (block a (.buckets cells) * (stringAt c.key (some k) * stringAt c.value v)) ≤
      addedAt a cells i code (r.1,.cell (some k) v r.2) := by
  rw [addedAt,given_mul,Quantale.iSup_mul_distrib]
  rintro h ⟨rfl,hh⟩
  refine le_addedAt c ?_ h hh
  refine iSup_le fun c'' => ?_
  calc block a' (.buckets ([c'].set 0 c'')) * fieldsOf c'' r.2 *
        (block a (.buckets cells) * (stringAt c.key (some k) * stringAt c.value v))
      ≤ chainAt r.2 (some a') * (block a (.buckets cells) * (stringAt c.key (some k) * stringAt c.value v)) :=
        mul_le_mul_left (fields_le_chainAt a' c'' r.2) _
    _ = block a (.buckets (cells.set i c)) * fieldsOf c (.cell (some k) v r.2) := by
        rw [set_of_getElem? hc,fieldsOf,htail]
        ac_rfl

theorem overwriteValue_implements (hc : cells[i]? = some c) {k : CString} {v : Option CString} {tail : Bucket} : Implements
    (stringAt c.key (some k) * (block a (.buckets cells) * (stringAt c.value v * chainAt tail c.tail)))
    (overwriteValue A ⟨a,i⟩ c value) (addToChain k value (.cell (some k) v tail)) (addedAt a cells i) := by
  have hi := (List.getElem?_eq_some_iff.mp hc).1
  rw [overwriteValue,addToChain,if_pos rfl]
  refine newString_bind (fun p => ?_) ?_
  · rw [← mul_assoc,mul_left_comm]
    refine modifyBucket_bind hc ?_
    rw [if_neg (Option.some_ne_none _)]
    have hperm : block a (.buckets (cells.set i { c with value := some p })) * (block p (.string value) *
        stringAt c.key (some k) * (stringAt c.value v * chainAt tail c.tail)) = stringAt c.value v *
          (block a (.buckets (cells.set i { c with value := some p })) * (stringAt c.key (some k) *
            (block p (.string value) * chainAt tail c.tail))) := by ac_rfl
    rw [hperm]
    exact freeString_bind (.pure (le_addedAt { c with value := some p } le_rfl))
  · rw [mul_left_comm]
    refine modifyBucket_bind hc ?_
    rw [if_pos rfl]
    refine modifyBucket_bind (List.getElem?_set_self hi) (.pure (le_addedAt c ?_))
    rw [List.set_set]
    exact le_rfl

theorem addLoop_implements (bucket : Bucket) {a : Addr} {cells : List BucketCell} {i n : ℕ} {c : BucketCell}
    (hc : cells[i]? = some c) (hn : cellCount bucket ≤ n) :
    Implements (block a (.buckets cells) * fieldsOf c bucket) (addLoop A key value n (some ⟨a,i⟩))
      (addToChain key value bucket) (addedAt a cells i) := by
  induction bucket generalizing a cells i n c with
  | null =>
    rw [fieldsOf,Quantale.mul_bot]
    exact .bot
  | cell headKey headValue tail ih =>
    obtain ⟨n,rfl⟩ := Nat.exists_eq_succ_of_ne_zero ((cellCount_pos headKey headValue tail).trans_le hn).ne'
    rw [addLoop]
    cases headKey with
    | none =>
      rw [fieldsOf,mul_given]
      refine .given ?_
      rintro ⟨rfl,rfl,rfl⟩
      refine readBucket_bind hc ?_
      have hzero : zeroCell.key = none := rfl
      rw [if_pos hzero,mul_one]
      exact addBucket_implements hc
    | some k =>
      rw [fieldsOf]
      refine readBucket_bind hc ?_
      by_cases hkey : c.key = none
      · rw [null_string hkey]
        exact .bot
      · rw [if_neg hkey,mul_left_comm]
        refine loadString_bind ?_
        by_cases heq : k = key
        · rw [if_pos heq,← heq]
          exact overwriteValue_implements hc
        · rw [if_neg heq,addToChain,if_neg heq]
          have hperm : stringAt c.key (some k) * (block a (.buckets cells) * (stringAt c.value headValue *
              chainAt tail c.tail)) = chainAt tail c.tail * (block a (.buckets cells) * (stringAt c.key (some k) *
                stringAt c.value headValue)) := by ac_rfl
          rw [hperm,← bind_pure (addLoop _ _ _ _ _)]
          refine firstOf_implements (fun p => addLoop A key value n p >>= pure) (fun htail _ => ?_) fun a' c' htail => ?_
          · have hnull : addLoop A key value n none = fault := by cases n <;> rfl
            rw [htail,hnull]
            exact .fault
          · exact (ih rfl (Nat.succ_le_succ_iff.mp hn)).call fun code r =>
              .pure (addedAt_tail htail hc k headValue code r)

theorem addHtableValue_implements (t : Htable) (table : PpsDht.Htable) (key value : CString) :
    Implements (tableAt t table) (addHtableValue A t key value) (PpsDht.addHtableValue table key value)
      fun code r => given (code = r.1) (tableAt t r.2) := by
  obtain ⟨buckets,size⟩ := table
  cases buckets with
  | none =>
    refine .given fun ⟨hnull,hsize⟩ => ?_
    rw [addHtableValue,hnull]
    exact .pure (le_given rfl (le_given ⟨hnull,hsize⟩ le_rfl))
  | some buckets =>
    refine .iSup fun a => .iSup fun cells => .given ?_
    rintro ⟨hbuckets,hsize,hne,hlength,hcells⟩
    rw [addHtableValue,hbuckets,hsize,PpsDht.addHtableValue]
    have hidx := hashFunction_lt key hne
    generalize hashFunction key size = idx at hidx ⊢
    obtain ⟨c,hc⟩ : ∃ c, cells[idx]? = some c := ⟨_,List.getElem?_eq_getElem (hidx.trans_eq hcells.symm)⟩
    obtain ⟨b,hb⟩ : ∃ b, buckets[idx]? = some b := ⟨_,List.getElem?_eq_getElem (hidx.trans_eq hlength.symm)⟩
    obtain ⟨rest,hsplit,hset⟩ := partsOf_split hc hb
    rw [← mul_one (_ * _)]
    refine liveBlocks_bucket hb (hcells.trans hlength.symm) fun live hlive => ?_
    rw [mul_one,hsplit,← mul_assoc,← bind_pure (addLoop _ _ _ _ _)]
    refine .lift_bind hb ((addLoop_implements b hc hlive).call fun code r => .pure ?_)
    rw [addedAt,given_mul,Quantale.iSup_mul_distrib]
    rintro h ⟨hcode,hh⟩
    refine le_given hcode (iSup_le fun c' => ?_) h hh
    rw [mul_assoc,← hset]
    exact le_tableAt ⟨hbuckets,hsize,hne,by rwa [List.length_set],by rwa [List.length_set]⟩

theorem getLoop_implements (bucket : Bucket) {a : Addr} {cells : List BucketCell} {i n : ℕ} {c : BucketCell}
    (hc : cells[i]? = some c) (hn : cellCount bucket ≤ n) :
    Implements (block a (.buckets cells) * fieldsOf c bucket) (getLoop A key n (some ⟨a,i⟩))
      (getFromChain key bucket) fun p o => stringAt p o * (block a (.buckets cells) * fieldsOf c bucket) := by
  induction bucket generalizing a cells i n c with
  | null =>
    rw [fieldsOf,Quantale.mul_bot]
    exact .bot
  | cell headKey headValue tail ih =>
    obtain ⟨n,rfl⟩ := Nat.exists_eq_succ_of_ne_zero ((cellCount_pos headKey headValue tail).trans_le hn).ne'
    rw [getLoop]
    cases headKey with
    | none =>
      rw [fieldsOf,mul_given]
      refine .given fun hc' => ?_
      refine readBucket_bind hc ?_
      rw [if_pos (hc'.1 ▸ rfl),given_of_true hc']
      exact .pure (by rw [stringAt_none,one_mul])
    | some k =>
      rw [fieldsOf]
      refine readBucket_bind hc ?_
      by_cases hkey : c.key = none
      · rw [null_string hkey]
        exact .bot
      · rw [if_neg hkey,mul_left_comm]
        refine loadString_bind ?_
        by_cases heq : k = key
        · have hperm : stringAt c.key (some k) * (block a (.buckets cells) * (stringAt c.value headValue *
              chainAt tail c.tail)) = stringAt c.value headValue * (block a (.buckets cells) *
                (stringAt c.key (some k) * chainAt tail c.tail)) := by ac_rfl
          rw [if_pos heq,getFromChain,if_pos heq,hperm,← bind_pure (strdup A _),← bind_pure (Mem.strdup _)]
          exact strdup_bind fun p o _ => .pure (le_of_eq (by ac_rfl))
        · rw [if_neg heq,getFromChain,if_neg heq]
          have hperm : stringAt c.key (some k) * (block a (.buckets cells) * (stringAt c.value headValue *
              chainAt tail c.tail)) = chainAt tail c.tail * (block a (.buckets cells) * (stringAt c.key (some k) *
                stringAt c.value headValue)) := by ac_rfl
          rw [hperm]
          refine firstOf_implements (getLoop A key n) (fun htail hp => ?_) fun a' c' hp => ?_
          · have hnull : getLoop A key n none = pure none := by cases n <;> rfl
            rw [htail,hnull]
            refine .pure (le_of_eq ?_)
            rw [hp,chainAt,given_of_true rfl,stringAt_none,one_mul,one_mul]
          · refine ((ih rfl (Nat.succ_le_succ_iff.mp hn)).frame _).mono le_rfl fun p o => ?_
            rw [hp,← mul_assoc _ (chainAt _ _)]
            exact mul_le_mul_left (mul_le_mul_right (fields_le_chainAt a' c' tail) _) _

theorem getHtableValue_implements (t : Htable) (table : PpsDht.Htable) (key : CString) :
    Implements (tableAt t table) (getHtableValue A t key) (PpsDht.getHtableValue table key)
      fun p o => stringAt p o * tableAt t table := by
  obtain ⟨buckets,size⟩ := table
  cases buckets with
  | none =>
    refine .given fun hnull => ?_
    rw [getHtableValue,hnull.1]
    refine .pure (le_of_eq ?_)
    rw [tableAt,given_of_true hnull,stringAt_none,one_mul]
  | some buckets =>
    refine .iSup fun a => .iSup fun cells => .given fun htable => ?_
    have hle := le_tableAt htable
    obtain ⟨hbuckets,hsize,hne,hlength,hcells⟩ := htable
    rw [getHtableValue,hbuckets,hsize,PpsDht.getHtableValue]
    have hidx := hashFunction_lt key hne
    generalize hashFunction key size = idx at hidx ⊢
    obtain ⟨c,hc⟩ : ∃ c, cells[idx]? = some c := ⟨_,List.getElem?_eq_getElem (hidx.trans_eq hcells.symm)⟩
    obtain ⟨b,hb⟩ : ∃ b, buckets[idx]? = some b := ⟨_,List.getElem?_eq_getElem (hidx.trans_eq hlength.symm)⟩
    obtain ⟨rest,hsplit,-⟩ := partsOf_split hc hb
    rw [hsplit,← mul_assoc] at hle
    rw [← mul_one (_ * _)]
    refine liveBlocks_bucket hb (hcells.trans hlength.symm) fun live hlive => .lift_bind hb ?_
    rw [mul_one,hsplit,← mul_assoc]
    refine ((getLoop_implements b hc hlive).frame rest).mono le_rfl fun p o => ?_
    rw [mul_assoc]
    exact mul_le_mul_right hle _

theorem constructHtable_implements (size : ℕ) :
    Implements 1 (constructHtable A size) (PpsDht.constructHtable size) tableAt := by
  rw [constructHtable,PpsDht.constructHtable]
  by_cases hsize : size = 0
  · rw [if_pos hsize,if_pos hsize]
    exact .fault
  · rw [if_neg hsize,if_neg hsize]
    refine .alloc_bind (fun a => ?_) ?_
    · rw [if_neg (Option.some_ne_none _),if_pos rfl,mul_one]
      refine .pure (le_iSup_of_le a (le_iSup_of_le (List.replicate size zeroCell) (le_given ?_ ?_)))
      · exact ⟨rfl,rfl,hsize,List.length_replicate,List.length_replicate⟩
      · rw [partsOf_empty,mul_one]
    · rw [if_pos rfl,if_neg Bool.false_ne_true]
      exact .pure (le_given ⟨rfl,rfl,rfl⟩ le_rfl)

/-- One bucket of the loop of `freeBucket`. -/
theorem freeTail_cell (c : BucketCell) (k v : Option CString) {tail : Bucket}
    (htail : Implements (chainAt tail c.tail) (freeTail n (firstOf c.tail)) (pure ()) fun _ _ => 1) : Implements
    (block a (.buckets [c]) * (stringAt c.key k * (stringAt c.value v * chainAt tail c.tail)))
    (freeTail (n + 1) (some ⟨a,0⟩)) (pure ()) fun _ _ => 1 := by
  rw [freeTail]
  exact kvPairFree_bind rfl (readBucket_bind (c := ⟨none,none,c.tail⟩) rfl (.free_bind htail))

theorem freeTail_implements (b : Bucket) {p : Ptr} (hn : cellCount b ≤ n) :
    Implements (chainAt b p) (freeTail n (firstOf p)) (pure ()) fun _ _ => 1 := by
  induction b generalizing p n with
  | null =>
    refine .given fun hp => ?_
    have hnull : freeTail n none = pure () := by cases n <;> rfl
    rw [hp,firstOf,Option.map_none,hnull]
    exact .pure le_rfl
  | cell key value tail ih =>
    obtain ⟨n,rfl⟩ := Nat.exists_eq_succ_of_ne_zero ((cellCount_pos key value tail).trans_le hn).ne'
    rw [← mul_one (chainAt _ _)]
    refine firstOf_implements (freeTail (n + 1)) nofun fun a c _ => ?_
    rw [mul_one]
    cases key with
    | none =>
      rw [fieldsOf,mul_given]
      refine .given ?_
      rintro ⟨rfl,rfl,rfl⟩
      have hcell := freeTail_cell (a := a) zeroCell none none (ih (p := none) (Nat.zero_le n))
      simpa only [zeroCell,stringAt_none,chainAt,given_of_true,one_mul] using hcell
    | some key => exact freeTail_cell c (some key) value (ih (Nat.succ_le_succ_iff.mp hn))

/-- A bucket of an array keeps its place. -/
theorem freeBucket_implements (b : Bucket) (hc : cells[i]? = some c) :
    Implements (block a (.buckets cells) * fieldsOf c b) (freeBucket ⟨a,i⟩) (pure ())
      fun _ _ => ⨆ c, block a (.buckets (cells.set i c)) := by
  cases b with
  | null =>
    rw [fieldsOf,Quantale.mul_bot]
    exact .bot
  | cell key value tail =>
    have hi := (List.getElem?_eq_some_iff.mp hc).1
    have hc' : (cells.set i ⟨none,none,c.tail⟩)[i]? = some ⟨none,none,c.tail⟩ := List.getElem?_set_self hi
    refine Implements.mono ?_ (mul_le_mul_right (fieldsOf_le c key value tail) _) fun _ _ => le_rfl
    rw [freeBucket]
    refine kvPairFree_bind hc (readBucket_bind hc' ?_)
    rw [mul_comm]
    refine .liveBlocks_bind (chainAt_occupies tail c.tail) fun live hlive => ?_
    refine ((freeTail_implements tail ((cellCount_le_chainBlocks tail).trans hlive)).frame _).mono le_rfl fun _ _ => ?_
    rw [one_mul]
    exact le_iSup_of_le _ le_rfl

theorem deleteHtableAndContent_implements (t : Htable) (table : PpsDht.Htable) :
    Implements (tableAt t table) (deleteHtableAndContent t) (pure ()) fun t _ => given (t = ⟨none,0⟩) 1 := by
  obtain ⟨buckets,size⟩ := table
  cases buckets with
  | none =>
    refine .given fun hnull => ?_
    rw [deleteHtableAndContent,hnull.1]
    exact .pure (le_given rfl le_rfl)
  | some buckets =>
    refine .iSup fun a => .iSup fun cells => .given ?_
    rintro ⟨hbuckets,hsize,hne,hlength,hcells⟩
    rw [deleteHtableAndContent,hbuckets,hsize]
    rw [← mul_one (_ * _)]
    refine (loop_implements (K := bucketArrays) (fun cells i c b hc => freeBucket_implements b hc) (by rw [hcells,Nat.zero_add])
      hlength).silent fun _ => ?_
    rw [Quantale.iSup_mul_distrib]
    exact .iSup fun cells => .free_bind (.pure (le_given rfl le_rfl))

end PpsDht.OnHeap
