import PpsDht.LinkedHashtable

/-! # The blocks of a table

What the strings, chains, tables and lists of pairs look like in memory, and what the
accesses to them do. -/
namespace PpsDht.OnHeap
open Mem Heaps HProp

/-- A string, or null. -/
def stringAt : Ptr → Option CString → HProp Block
  | none, none => 1
  | some a, some s => block a (.string s)
  | _, _ => ⊥

@[simp] theorem stringAt_none : stringAt none none = 1 := rfl

/-- A chain from a tail on. Its last bucket is zeroed. -/
def chainAt : Bucket → Ptr → HProp Block
  | .null, p => given (p = none) 1
  | .cell none value tail, p => ⨆ a, given (p = some a ∧ value = none ∧ tail = .null) (block a (.buckets [zeroCell]))
  | .cell (some key) value tail, p => ⨆ a, ⨆ c : BucketCell, given (p = some a)
    (block a (.buckets [c]) * (stringAt c.key (some key) * (stringAt c.value value * chainAt tail c.tail)))

/-- All that hangs on a bucket. -/
def fieldsOf (c : BucketCell) : Bucket → HProp Block
  | .null => ⊥
  | .cell none value tail => given (c = zeroCell ∧ value = none ∧ tail = .null) 1
  | .cell (some key) value tail => stringAt c.key (some key) * (stringAt c.value value * chainAt tail c.tail)

private theorem chainAt_cell (key value : Option CString) (tail : Bucket) (p : Ptr) : chainAt (.cell key value tail) p =
    ⨆ a, ⨆ c, given (p = some a) (block a (.buckets [c]) * fieldsOf c (.cell key value tail)) := by
  cases key with
  | some key => rfl
  | none =>
    simp only [chainAt,fieldsOf,mul_given,mul_one]
    refine le_antisymm (iSup_le fun a => ?_) (iSup_le fun a => iSup_le fun c => ?_)
    · rintro h ⟨⟨hp,hrest⟩,hblock⟩
      exact iSup_iff.mpr ⟨a,iSup_iff.mpr ⟨zeroCell,hp,⟨rfl,hrest⟩,hblock⟩⟩
    · rintro h ⟨hp,⟨rfl,hrest⟩,hblock⟩
      exact iSup_iff.mpr ⟨a,⟨hp,hrest⟩,hblock⟩

theorem fieldsOf_empty : fieldsOf zeroCell (.cell none none .null) = 1 := given_of_true ⟨rfl,rfl,rfl⟩

theorem fieldsOf_le (c : BucketCell) (key value : Option CString) (tail : Bucket) :
    fieldsOf c (.cell key value tail) ≤ stringAt c.key key * (stringAt c.value value * chainAt tail c.tail) := by
  cases key with
  | some key => exact le_rfl
  | none =>
    rintro h ⟨⟨rfl,rfl,rfl⟩,hh⟩
    simpa only [zeroCell,stringAt_none,chainAt,given_of_true,one_mul] using hh

/-- A bucket of its own with what hangs on it is a chain. -/
theorem fields_le_chainAt (a : Addr) (c : BucketCell) (b : Bucket) :
    block a (.buckets [c]) * fieldsOf c b ≤ chainAt b (some a) := by
  cases b with
  | null =>
    rw [fieldsOf,Quantale.mul_bot]
    exact bot_le
  | cell key value tail =>
    rw [chainAt_cell]
    exact le_iSup_of_le a (le_iSup_of_le c (le_given rfl le_rfl))

theorem block_le_nil (a : Addr) : block a (.buckets [zeroCell]) ≤ chainAt .nil (some a) := by
  have hle := fields_le_chainAt a zeroCell .nil
  rwa [Bucket.nil,fieldsOf_empty,mul_one] at hle

/-- The address of a string is not null. -/
theorem null_string {p : Ptr} (h : p = none) (s : CString) (P Q : HProp Block) :
    P * (stringAt p (some s) * Q) = ⊥ := by
  have hbot : stringAt none (some s) = ⊥ := rfl
  rw [h,hbot,Quantale.bot_mul,Quantale.mul_bot]

/-- How many buckets a chain has up to its end. -/
def cellCount : Bucket → ℕ
  | .null => 0
  | .cell none _ _ => 1
  | .cell (some _) _ tail => cellCount tail + 1

/-- Null takes no block. -/
def stringBlocks (s : Option CString) : ℕ := if s = none then 0 else 1

def chainBlocks : Bucket → ℕ
  | .null => 0
  | .cell none _ _ => 1
  | .cell (some _) value tail => 1 + (1 + (stringBlocks value + chainBlocks tail))

def fieldBlocks (b : Bucket) : ℕ := chainBlocks b - 1

private theorem stringAt_occupies (p : Ptr) (s : Option CString) : Occupies (stringAt p s) (stringBlocks s) := by
  cases p with
  | none =>
    cases s with
    | none => exact .one
    | some s => exact .bot
  | some a =>
    cases s with
    | none => exact .bot
    | some s => exact .block a _

theorem chainAt_occupies (b : Bucket) (p : Ptr) : Occupies (chainAt b p) (chainBlocks b) := by
  induction b generalizing p with
  | null => exact .given fun _ => .one
  | cell key value tail ih =>
    cases key with
    | none => exact .iSup fun a => .given fun _ => .block a _
    | some key =>
      exact .iSup fun a => .iSup fun c => .given fun _ => (Occupies.block a _).mul
        ((stringAt_occupies _ _).mul ((stringAt_occupies _ _).mul (ih _)))

private theorem fieldsOf_occupies (c : BucketCell) (b : Bucket) : Occupies (fieldsOf c b) (fieldBlocks b) := by
  cases b with
  | null => exact .bot
  | cell key value tail =>
    cases key with
    | none => exact .given fun _ => .one
    | some key =>
      rw [fieldBlocks,chainBlocks,Nat.add_sub_cancel_left]
      exact (stringAt_occupies _ _).mul ((stringAt_occupies _ _).mul (chainAt_occupies _ _))

theorem cellCount_le_chainBlocks (b : Bucket) : cellCount b ≤ chainBlocks b := by
  induction b with
  | null => exact le_rfl
  | cell key value tail ih =>
    cases key with
    | none => exact le_rfl
    | some key =>
      rw [cellCount,chainBlocks]
      omega

theorem cellCount_pos (key value : Option CString) (tail : Bucket) : 0 < cellCount (.cell key value tail) := by
  cases key
  · exact Nat.one_pos
  · exact Nat.succ_pos _

theorem partsOf_empty (n : ℕ) : partsOf fieldsOf (List.replicate n zeroCell) (List.replicate n .nil) = 1 := by
  rw [partsOf,List.zipWith_replicate,Nat.min_self,Bucket.nil,fieldsOf_empty,List.prod_replicate,one_pow]

/-- As many blocks are live as a bucket of the array has buckets in its chain, or more. -/
theorem liveBlocks_bucket {cells : List BucketCell} {buckets : List Bucket} {i : ℕ} {b : Bucket} {a : Addr}
    {α α' : Type} {F : HProp Block} {k : ℕ → Code α} {f : Mem α'} {R : α → α' → HProp Block}
    (hb : buckets[i]? = some b) (hcells : cells.length = buckets.length) (h : ∀ live, cellCount b ≤ live →
      Implements (block a (.buckets cells) * partsOf fieldsOf cells buckets * F) (k live) f R) :
    Implements (block a (.buckets cells) * partsOf fieldsOf cells buckets * F) (liveBlocks >>= k) f R := by
  refine .liveBlocks_bind ((Occupies.block a _).mul (partsOf_occupies fieldsOf_occupies hcells)) fun live hlive => h live ?_
  have hmem : fieldBlocks b ≤ (buckets.map fieldBlocks).sum :=
    List.le_sum_of_mem (List.mem_map_of_mem (List.mem_of_getElem? hb))
  have hchain := cellCount_le_chainBlocks b
  rw [fieldBlocks] at hmem
  omega

/-- A table, whose array is missing or has its size and is not empty. -/
def tableAt (t : Htable) (table : PpsDht.Htable) : HProp Block :=
  match table.buckets with
  | none => given (t.buckets = none ∧ t.size = 0 ∧ table.size = 0) 1
  | some buckets => ⨆ a, ⨆ cells : List BucketCell, given (t.buckets = some a ∧ t.size = table.size ∧
      table.size ≠ 0 ∧ buckets.length = table.size ∧ cells.length = table.size) (block a (.buckets cells) * partsOf fieldsOf cells buckets)

theorem le_tableAt {t : Htable} {buckets : List Bucket} {size : ℕ} {a : Addr} {cells : List BucketCell}
    (h : t.buckets = some a ∧ t.size = size ∧ size ≠ 0 ∧ buckets.length = size ∧ cells.length = size) :
    block a (.buckets cells) * partsOf fieldsOf cells buckets ≤ tableAt t ⟨some buckets,size⟩ :=
  le_iSup_of_le a (le_iSup_of_le cells (le_given h le_rfl))

/-- The array and all that hangs on it. -/
def tableBlocks (table : PpsDht.Htable) : ℕ :=
  match table.buckets with
  | none => 0
  | some buckets => 1 + (buckets.map fieldBlocks).sum

theorem tableAt_occupies (t : Htable) (table : PpsDht.Htable) : Occupies (tableAt t table) (tableBlocks table) := by
  obtain ⟨buckets,size⟩ := table
  cases buckets with
  | none => exact .given fun _ => .one
  | some buckets => exact .iSup fun a => .iSup fun cells => .given fun h =>
      (Occupies.block a _).mul (partsOf_occupies fieldsOf_occupies (h.2.2.2.2.trans h.2.2.2.1.symm))

variable {α α' : Type} {F : HProp Block} {f : Mem α'} {R : α → α' → HProp Block} {a : Addr} {A : Allocator}

/-- What is done with the bucket that a tail points to. -/
theorem firstOf_implements {b : Bucket} {p : Ptr} (m : Option BucketPtr → Code α)
    (hnull : b = .null → p = none → Implements F (m none) f R)
    (hcell : ∀ a c, p = some a → Implements (block a (.buckets [c]) * fieldsOf c b * F) (m (some ⟨a,0⟩)) f R) :
    Implements (chainAt b p * F) (m (firstOf p)) f R := by
  cases b with
  | null =>
    rw [chainAt,given_mul,one_mul]
    refine .given fun hp => ?_
    rw [hp]
    exact hnull rfl hp
  | cell key value tail =>
    simp only [chainAt_cell,Quantale.iSup_mul_distrib,given_mul]
    refine .iSup fun a => .iSup fun c => .given fun hp => ?_
    rw [hp]
    exact hcell a c hp

section Strings
variable {p : Ptr} {s : CString} {o : Option CString}

theorem loadString_bind {k : CString → Code α} (h : Implements (stringAt p (some s) * F) (k s) f R) :
    Implements (stringAt p (some s) * F) (loadString p >>= k) f R := by
  cases p with
  | none => exact .bot_mul
  | some a => exact Kind.read_bind (K := strings) h

/-- A string that may be null, which is not to be read then. -/
theorem loadString_lift_bind {k : CString → Code α} {g : CString → Mem α'}
    (h : ∀ s, o = some s → Implements (stringAt p o * F) (k s) (g s) R) :
    Implements (stringAt p o * F) (loadString p >>= k) (lift o >>= g) R := by
  cases o with
  | some s => exact loadString_bind (h s rfl)
  | none =>
    cases p with
    | none => exact .fault
    | some a => exact .bot_mul

theorem freeString_bind {k : Unit → Code α} (h : Implements F (k ()) f R) :
    Implements (stringAt p o * F) (free p >>= k) f R := by
  cases p with
  | none =>
    cases o with
    | none =>
      rw [stringAt,one_mul]
      exact h
    | some s =>
      exact .bot_mul
  | some a =>
    cases o with
    | none =>
      exact .bot_mul
    | some s => exact .free_bind h

theorem newString_bind {k : Ptr → Code α} {g : Option CString → Mem α'}
    (hsome : ∀ a, Implements (block a (.string s) * F) (k (some a)) (g (some s)) R)
    (hnone : Implements F (k none) (g none) R) : Implements F (newString A s >>= k) (Mem.strdup (some s) >>= g) R := by
  rw [Mem.strdup,bind_assoc]
  exact .alloc_bind hsome hnone

theorem strdup_bind {k : Ptr → Code α} {g : Option CString → Mem α'}
    (h : ∀ p' o', o' = o ∨ o' = none → Implements (stringAt p' o' * (stringAt p o * F)) (k p') (g o') R) :
    Implements (stringAt p o * F) (strdup A p >>= k) (Mem.strdup o >>= g) R := by
  cases p with
  | none =>
    cases o with
    | some s => exact .bot_mul
    | none =>
      have hnull := h none none (Or.inl rfl)
      rwa [stringAt,one_mul] at hnull
  | some a =>
    cases o with
    | none => exact .bot_mul
    | some s =>
      rw [strdup,bind_assoc]
      refine loadString_bind (newString_bind (fun a => h (some a) (some s) (Or.inl rfl)) ?_)
      have hnull := h none none (Or.inr rfl)
      rwa [stringAt,one_mul] at hnull

end Strings

section Buckets
variable {cells : List BucketCell} {i : ℕ} {c : BucketCell}

theorem readBucket_bind (hc : cells[i]? = some c) {k : BucketCell → Code α}
    (h : Implements (block a (.buckets cells) * F) (k c) f R) :
    Implements (block a (.buckets cells) * F) (readBucket ⟨a,i⟩ >>= k) f R := Kind.readAt_bind (K := bucketArrays) hc h

theorem modifyBucket_bind (hc : cells[i]? = some c) {g : BucketCell → BucketCell} {k : Unit → Code α}
    (h : Implements (block a (.buckets (cells.set i (g c))) * F) (k ()) f R) :
    Implements (block a (.buckets cells) * F) (modifyBucket ⟨a,i⟩ g >>= k) f R := by
  rw [modifyBucket,bind_assoc]
  exact readBucket_bind hc (Kind.writeAt_bind (K := bucketArrays) (List.getElem?_eq_some_iff.mp hc).1 h)

theorem kvPairFree_bind (hc : cells[i]? = some c) {key value : Option CString} {k : Unit → Code α}
    (h : Implements (block a (.buckets (cells.set i ⟨none,none,c.tail⟩)) * F) (k ()) f R) :
    Implements (block a (.buckets cells) * (stringAt c.key key * (stringAt c.value value * F)))
      (kvPairFree (.head ⟨a,i⟩) >>= k) f R := by
  have hi := (List.getElem?_eq_some_iff.mp hc).1
  simp only [kvPairFree,readPair,writePair,bind_assoc,pure_bind]
  refine readBucket_bind hc ?_
  rw [mul_left_comm]
  refine freeString_bind (modifyBucket_bind hc ?_)
  have hc' : (cells.set i ⟨none,c.value,c.tail⟩)[i]? = some ⟨none,c.value,c.tail⟩ := List.getElem?_set_self hi
  refine readBucket_bind hc' ?_
  rw [mul_left_comm]
  refine freeString_bind (modifyBucket_bind hc' ?_)
  rwa [List.set_set]

end Buckets

end PpsDht.OnHeap
