import PpsDht.HashtableInMemory

/-! # The list of the pairs in memory

What a list of pairs looks like in memory. Listing a table leaves its blocks as they are and
gives a list whose array has grown one pair at a time, or frees what it had when the array
could not grow; freeing a list leaves nothing of it. -/
namespace PpsDht.OnHeap
open Mem Heaps HProp

/-- The copies that a pair owns. -/
def pairFields : Option PairCell → KvPair → HProp Block
  | none, _ => ⊥
  | some c, kv => stringAt c.key kv.key * stringAt c.value kv.value

abbrev kvArrayAt : Ptr → List KvPair → HProp Block := arrayAt kvLists pairFields

abbrev kvListAt (list : Addr) (pairs : List KvPair) : HProp Block := listAt kvLists pairFields list pairs

/-- What a listing leaves of its list. -/
def listedAt (list : Addr) : Option (List KvPair) → HProp Block
  | none => 1
  | some pairs => kvListAt list pairs

/-- The result of a listing. -/
def contentAt : Ptr → Option (List KvPair) → HProp Block
  | none, none => 1
  | some list, some pairs => kvListAt list pairs
  | _, _ => ⊥

variable {α α' : Type} {F : HProp Block} {f : Mem α'} {R : α → α' → HProp Block} {A : Allocator} {a q list : Addr}
  {pairs : List KvPair} {p : Ptr} {i n : ℕ}

private theorem readList_bind {k : Ptr × ℕ → Code α} (h : Implements (block list (.kvList p n) * F) (k (p,n)) f R) :
    Implements (block list (.kvList p n) * F) (kvLists.head.read list >>= k) f R :=
  Kind.read_bind (K := kvLists.head) (c := (p,n)) h

private theorem writeList_bind {p' : Ptr} {n' : ℕ} {k : Unit → Code α}
    (h : Implements (block list (.kvList p' n') * F) (k ()) f R) :
    Implements (block list (.kvList p n) * F) (kvLists.head.write list (p',n') >>= k) f R :=
  Kind.write_bind (K := kvLists.head) (c := (p,n)) h

private theorem readPair_bind {cells : List (Option PairCell)} {c : PairCell} (hc : cells[i]? = some (some c))
    {k : PairCell → Code α} (h : Implements (block q (.pairs cells) * F) (k c) f R) :
    Implements (block q (.pairs cells) * F) (readPair (.element q i) >>= k) f R := by
  rw [readPair,bind_assoc]
  exact Kind.readAt_bind (K := kvLists.array) hc h

theorem freePair_implements {cells : List (Option PairCell)} {c : Option PairCell} (hc : cells[i]? = some c)
    (kv : KvPair) : Implements (block q (.pairs cells) * pairFields c kv) (kvPairFree (.element q i)) (pure ())
      fun _ _ => ⨆ c, block q (.pairs (cells.set i c)) := by
  have hi := (List.getElem?_eq_some_iff.mp hc).1
  cases c with
  | none =>
    rw [pairFields,Quantale.mul_bot]
    exact .bot
  | some c =>
    rw [kvPairFree,pairFields,← mul_one (stringAt c.value _)]
    refine readPair_bind hc ?_
    rw [mul_left_comm]
    refine freeString_bind (Kind.writeAt_bind (K := kvLists.array) hi (readPair_bind (List.getElem?_set_self hi) ?_))
    rw [mul_left_comm,← bind_pure (writePair _ _)]
    refine freeString_bind (Kind.writeAt_bind (K := kvLists.array) (by rwa [List.length_set]) (.pure ?_))
    rw [List.set_set,mul_one]
    exact le_iSup_of_le _ le_rfl

private theorem freePairs_bind {k : Unit → Code α}
    (h : ∀ p, Implements (block list (.kvList p pairs.length) * F) (k ()) f R) :
    Implements (kvListAt list pairs * F) (freePairs list >>= k) f R := by
  rw [kvListAt,listAt,Quantale.iSup_mul_distrib]
  refine .iSup fun p => ?_
  rw [mul_assoc,freePairs,bind_assoc]
  refine readList_bind ?_
  cases p with
  | none =>
    rw [arrayAt,given_mul,mul_given,one_mul]
    exact .given fun _ => h none
  | some q =>
    rw [mul_left_comm]
    simp only [bind_assoc]
    refine loop_array_bind (fun cells i c kv hc => freePair_implements hc kv) fun cells => ?_
    exact .free_bind (writeList_bind (h none))

theorem kvListFree_bind {k : Unit → Code α} (h : Implements F (k ()) f R) :
    Implements (kvListAt list pairs * F) (kvListFree (some list) >>= k) f R := by
  simp only [kvListFree,bind_assoc]
  refine freePairs_bind fun p => readList_bind ?_
  exact writeList_bind (.free_bind h)

/-- The copies have what the pair has, or null where there was no memory. -/
theorem copyPair_bind {c : PairCell} {kv : KvPair} {k : PairCell → Code α} {g : KvPair → Mem α'} (h : ∀ c' kv',
      Implements (pairFields (some c') kv' * (pairFields (some c) kv * F)) (k c') (g kv') R) :
    Implements (pairFields (some c) kv * F) (copyPair A c >>= k) (PpsDht.copyPair kv >>= g) R := by
  rw [copyPair,PpsDht.copyPair,pairFields,mul_assoc]
  simp only [bind_assoc]
  refine strdup_bind fun p o _ => ?_
  have hperm : stringAt p o * (stringAt c.key kv.key * (stringAt c.value kv.value * F)) =
      stringAt c.value kv.value * (stringAt p o * (stringAt c.key kv.key * F)) := by ac_rfl
  rw [hperm]
  refine strdup_bind fun p' o' _ => ?_
  have hpair := h ⟨p,p'⟩ ⟨o,o'⟩
  simp only [pairFields] at hpair
  refine hpair.mono (le_of_eq ?_) fun _ _ => le_rfl
  ac_rfl

/-- The copies of a pair go to the last cell of the array. -/
theorem appendCopy_bind {copies : List (Option PairCell)} (hcopies : copies.length = pairs.length) {c : PairCell}
    {kv : KvPair} {k : Unit → Code α} {g : KvPair → Mem α'} (h : ∀ kv',
      Implements (kvArrayAt (some q) (pairs ++ [kv']) * (pairFields (some c) kv * F)) (k ()) (g kv') R) :
    Implements (block q (.pairs (copies ++ [none])) * (partsOf pairFields copies pairs *
        (pairFields (some c) kv * F)))
      (copyPair A c >>= fun pair => writePair (.element q pairs.length) pair >>= k) (PpsDht.copyPair kv >>= g) R := by
  rw [mul_left_comm (partsOf pairFields copies pairs),mul_left_comm (block q _)]
  refine copyPair_bind fun c' kv' => ?_
  have hperm : pairFields (some c') kv' * (pairFields (some c) kv * (block q (.pairs (copies ++ [none])) *
      (partsOf pairFields copies pairs * F))) = block q (.pairs (copies ++ [none])) *
        (partsOf pairFields copies pairs * pairFields (some c') kv' * (pairFields (some c) kv * F)) := by ac_rfl
  rw [hperm]
  exact writeLast_bind (L := kvLists) hcopies (h kv')

/-- The tail goes back behind its bucket. -/
theorem listed_tail {cells : List BucketCell} {c c' : BucketCell} {a' : Addr} {key : CString} {value : Option CString}
    {tail : Bucket} (hp : c.tail = some a') : block a' (.buckets [c']) * fieldsOf c' tail *
      (block a (.buckets cells) * pairFields (some ⟨c.key,c.value⟩) ⟨some key,value⟩) ≤
        block a (.buckets cells) * fieldsOf c (.cell (some key) value tail) := by
  refine (mul_le_mul_left (fields_le_chainAt a' c' tail) _).trans (le_of_eq ?_)
  rw [fieldsOf,pairFields,hp]
  ac_rfl

private theorem addListed_bind {cells : List BucketCell} {c : BucketCell} (hc : cells[i]? = some c)
    {copies : List (Option PairCell)} (hcopies : copies.length = pairs.length) {key : CString}
    {value : Option CString} {tail : Bucket} {k : BucketCell → Code α} {g : KvPair → Mem α'} (h : ∀ kv', Implements
      (kvListAt list (pairs ++ [kv']) * (chainAt tail c.tail * (block a (.buckets cells) *
        pairFields (some ⟨c.key,c.value⟩) ⟨some key,value⟩))) (k c) (g kv') R) :
    Implements (block q (.pairs (copies ++ [none])) * (partsOf pairFields copies pairs *
        (block list (.kvList (some q) pairs.length) * (block a (.buckets cells) *
          fieldsOf c (.cell (some key) value tail)))))
      (addListed A list ⟨a,i⟩ c q pairs.length >>= k) (PpsDht.copyPair ⟨some key,value⟩ >>= g) R := by
  simp only [addListed,bind_assoc,pure_bind]
  have hfields : block q (.pairs (copies ++ [none])) * (partsOf pairFields copies pairs *
      (block list (.kvList (some q) pairs.length) * (block a (.buckets cells) *
        fieldsOf c (.cell (some key) value tail)))) = block q (.pairs (copies ++ [none])) *
          (partsOf pairFields copies pairs * (pairFields (some ⟨c.key,c.value⟩) ⟨some key,value⟩ *
            (block list (.kvList (some q) pairs.length) * (block a (.buckets cells) * chainAt tail c.tail)))) := by
    simp only [fieldsOf,pairFields]
    ac_rfl
  rw [hfields]
  refine appendCopy_bind hcopies fun kv' => ?_
  rw [mul_left_comm (block list _) (block a _),mul_left_comm _ (block a _),mul_left_comm _ (block a _)]
  refine readBucket_bind hc ?_
  rw [mul_left_comm _ (block list _),mul_left_comm _ (block list _),mul_left_comm _ (block list _)]
  refine writeList_bind ?_
  have hlist : block list (.kvList (some q) (pairs.length + 1)) * kvArrayAt (some q) (pairs ++ [kv']) ≤
      kvListAt list (pairs ++ [kv']) := le_listAt_append (L := kvLists) list (some q) pairs kv'
  refine (h kv').mono (le_trans (le_of_eq ?_) (mul_le_mul_left hlist _)) fun _ _ => le_rfl
  ac_rfl

theorem contentOfChain_implements (b : Bucket) {pairs : List KvPair} {cells : List BucketCell} {c : BucketCell}
    (hc : cells[i]? = some c) (hn : cellCount b ≤ n) :
    Implements (kvListAt list pairs * (block a (.buckets cells) * fieldsOf c b))
      (contentOfChain A list n (some ⟨a,i⟩)) (PpsDht.contentOfChain pairs b) fun ok listed =>
        given (ok = listed.isSome) (listedAt list listed * (block a (.buckets cells) * fieldsOf c b)) := by
  induction b generalizing pairs a cells i n c with
  | null =>
    rw [fieldsOf,Quantale.mul_bot,Quantale.mul_bot]
    exact .bot
  | cell key value tail ih =>
    obtain ⟨n,rfl⟩ := Nat.exists_eq_succ_of_ne_zero ((cellCount_pos key value tail).trans_le hn).ne'
    rw [contentOfChain,mul_left_comm]
    refine readBucket_bind hc ?_
    cases key with
    | none =>
      have hempty : block a (.buckets cells) * (kvListAt list pairs * fieldsOf c (.cell none value tail)) = given
          (c = zeroCell ∧ value = none ∧ tail = .null) (block a (.buckets cells) * (kvListAt list pairs * 1)) := by
        rw [fieldsOf,mul_given,mul_given]
      rw [hempty]
      refine .given fun hzero => ?_
      rw [if_pos (hzero.1 ▸ rfl),fieldsOf,given_of_true hzero,mul_left_comm]
      exact .pure (le_given rfl le_rfl)
    | some key =>
      by_cases hkey : c.key = none
      · rw [fieldsOf,← mul_assoc,null_string hkey]
        exact .bot
      · rw [if_neg hkey,mul_left_comm,kvListAt,listAt,Quantale.iSup_mul_distrib]
        refine .iSup fun p => ?_
        rw [mul_assoc]
        refine readList_bind ?_
        dsimp only
        rw [mul_left_comm]
        refine realloc_bind (L := kvLists) (fun q copies hcopies => ?_) ?_
        · rw [kvLists_array,kvLists_blank,if_pos rfl,mul_left_comm (partsOf pairFields copies pairs),
            mul_left_comm (block q _)]
          refine writeList_bind ?_
          rw [← mul_left_comm (block q _),← mul_left_comm (partsOf pairFields copies pairs)]
          refine addListed_bind hc hcopies fun kv' => ?_
          rw [mul_left_comm]
          refine firstOf_implements (contentOfChain A list n) (fun htail _ => ?_) fun a' c' hp => ?_
          · have hnull : contentOfChain A list n none = fault := by cases n <;> rfl
            rw [htail,hnull]
            exact .fault
          · rw [← mul_left_comm,← mul_assoc]
            refine ((ih rfl (Nat.succ_le_succ_iff.mp hn)).frame _).mono le_rfl fun ok listed => ?_
            rw [given_mul,mul_assoc]
            exact fun h hh => ⟨hh.1,mul_le_mul_right (listed_tail hp) _ h hh.2⟩
        · rw [mul_left_comm]
          refine writeList_bind (writeList_bind ?_)
          rw [← mul_assoc,if_neg Bool.false_ne_true]
          refine Implements.mono ?_ (mul_le_mul_left (le_listAt (L := kvLists) list p pairs) _) fun _ _ => le_rfl
          exact kvListFree_bind (.pure (le_given rfl (one_mul _).ge))

theorem contentOfBuckets_implements {cells : List BucketCell} {buckets : List Bucket} {pairs : List KvPair}
    (hcells : cells.length = buckets.length) (hi : i + n = buckets.length) :
    Implements (kvListAt list pairs * (block a (.buckets cells) * partsOf fieldsOf cells buckets))
      (contentOfBuckets A list a n i) (PpsDht.contentOfBuckets pairs (buckets.drop i)) fun ok listed =>
        given (ok = listed.isSome) (listedAt list listed * (block a (.buckets cells) *
          partsOf fieldsOf cells buckets)) := by
  induction n generalizing i pairs with
  | zero =>
    rw [List.drop_eq_nil_of_le (by omega)]
    exact .pure (le_given rfl le_rfl)
  | succ n ih =>
    have hlt : i < buckets.length := by omega
    have hb : buckets[i]? = some buckets[i] := List.getElem?_eq_getElem hlt
    obtain ⟨c,hc⟩ : ∃ c, cells[i]? = some c := ⟨_,List.getElem?_eq_getElem (hlt.trans_eq hcells.symm)⟩
    obtain ⟨rest,hsplit,-⟩ := partsOf_split hc hb
    rw [contentOfBuckets,List.drop_eq_getElem_cons hlt,PpsDht.contentOfBuckets,mul_comm]
    refine liveBlocks_bucket hb hcells fun live hlive => ?_
    rw [mul_comm]
    have hchain : kvListAt list pairs * (block a (.buckets cells) * partsOf fieldsOf cells buckets) =
        kvListAt list pairs * (block a (.buckets cells) * fieldsOf c buckets[i]) * rest := by
      rw [hsplit]
      ac_rfl
    have hback : ∀ listed, listedAt list listed * (block a (.buckets cells) * fieldsOf c buckets[i]) * rest =
        listedAt list listed * (block a (.buckets cells) * partsOf fieldsOf cells buckets) := fun listed => by
      rw [hsplit]
      ac_rfl
    rw [hchain]
    refine (contentOfChain_implements _ hc hlive).call fun ok listed => ?_
    rw [given_mul,hback]
    refine .given ?_
    rintro rfl
    cases listed with
    | none => exact .pure (le_given rfl le_rfl)
    | some pairs => exact ih (by omega)

theorem getHtableContent_implements (t : Htable) (table : PpsDht.Htable) :
    Implements (tableAt t table) (getHtableContent A t) (PpsDht.getHtableContent table)
      fun p listed => contentAt p listed * tableAt t table := by
  rw [getHtableContent,PpsDht.getHtableContent]
  refine .alloc_bind (fun list => ?_) ?_
  · have hnil : block list (.kvList none 0) ≤ kvListAt list [] := le_listAt_nil (L := kvLists) list
    refine Implements.mono ?_ (mul_le_mul_left hnil _) fun _ _ => le_rfl
    rw [if_pos rfl]
    obtain ⟨buckets,size⟩ := table
    cases buckets with
    | none =>
      simp only [tableAt,mul_given]
      refine .given fun hnull => ?_
      obtain ⟨hbuckets,hsize,rfl⟩ := hnull
      rw [hbuckets,if_pos hsize]
      exact .pure (le_given ⟨rfl,hsize,rfl⟩ le_rfl)
    | some buckets =>
      have hpre : kvListAt list [] * tableAt t ⟨some buckets,size⟩ = ⨆ a, ⨆ cells : List BucketCell, given
          (t.buckets = some a ∧ t.size = size ∧ size ≠ 0 ∧ buckets.length = size ∧ cells.length = size)
          (kvListAt list [] * (block a (.buckets cells) * partsOf fieldsOf cells buckets)) := by
        simp only [tableAt,Quantale.mul_iSup_distrib,mul_given]
      rw [hpre]
      refine .iSup fun a => .iSup fun cells => .given fun htable => ?_
      have hle := le_tableAt htable
      obtain ⟨hbuckets,hsize,-,hlength,hcells⟩ := htable
      have htake : buckets.take size = buckets.drop 0 := List.take_of_length_le hlength.le
      dsimp only [Option.getD_some]
      rw [hbuckets,hsize,if_neg hlength.ge.not_gt,htake,← bind_pure (PpsDht.contentOfBuckets _ _)]
      refine (contentOfBuckets_implements (hcells.trans hlength.symm) (by rw [hlength,Nat.zero_add])).bind
        fun ok listed => .given ?_
      rintro rfl
      cases listed with
      | none => exact .pure (mul_le_mul_right hle _)
      | some pairs => exact .pure (mul_le_mul_right hle _)
  · rw [if_neg Bool.false_ne_true]
    exact .pure (one_mul _).ge

end PpsDht.OnHeap
