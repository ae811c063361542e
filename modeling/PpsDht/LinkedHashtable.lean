import PpsDht.Blocks
import PpsDht.Hashtable

/-! # The hash table in memory

The code of the hash table with its pointers. Strings of the caller are not on the heap. An
access to a block that is not live, to one of another kind or behind its end is undefined,
and so is a chain with more buckets than there are blocks, which has no end. -/
namespace PpsDht.OnHeap
open Mem Heaps

/-- A `bucket_t*` that is not null. -/
structure BucketPtr where
  block : Addr
  index : ℕ

/-- A `kv_pair_t*`: into a bucket or into an array of pairs. -/
inductive PairPtr where
  | head (bucket : BucketPtr)
  | element (block : Addr) (index : ℕ)

structure Htable where
  buckets : Ptr
  size : ℕ

def zeroCell : BucketCell := ⟨none,none,none⟩

/-- The bucket that a tail points to. -/
def firstOf (tail : Ptr) : Option BucketPtr := tail.map fun a => ⟨a,0⟩

section Access

def loadString : Ptr → Code CString
  | none => fault
  | some a => strings.read a

def readBucket (p : BucketPtr) : Code BucketCell := bucketArrays.readAt p.block p.index

/-- An assignment to fields of a bucket. -/
def modifyBucket (p : BucketPtr) (g : BucketCell → BucketCell) : Code Unit := do
  let b ← readBucket p
  bucketArrays.writeAt p.block p.index (g b)

def readPair : PairPtr → Code PairCell
  | .head p => do
    let c ← readBucket p
    pure ⟨c.key,c.value⟩
  | .element a i => do
    match ← kvLists.array.readAt a i with
    | none => fault
    | some c => pure c

def writePair : PairPtr → PairCell → Code Unit
  | .head p, c => modifyBucket p fun b => { b with key := c.key, value := c.value }
  | .element a i, c => kvLists.array.writeAt a i (some c)

end Access

section Code

variable (A : Allocator)

/-- `strdup` of a string of the caller. -/
def newString (s : CString) : Code Ptr := alloc A (.string s)

def strdup : Ptr → Code Ptr
  | none => pure none
  | some a => do
    let s ← loadString (some a)
    newString A s

def kvPairFree (kv : PairPtr) : Code Unit := do
  let c ← readPair kv
  free c.key
  writePair kv { c with key := none }
  let c ← readPair kv
  free c.value
  writePair kv { c with value := none }

/-- The part of `addBucket` behind a copy that failed. -/
def undoBucket (bucket : BucketPtr) (tail : Ptr) : Code ErrorCode := do
  free tail
  modifyBucket bucket fun b => { b with tail := none }
  kvPairFree (.head bucket)
  writePair (.head bucket) ⟨none,none⟩
  pure .errNomem

def addBucket (bucket : BucketPtr) (key value : CString) : Code ErrorCode := do
  let tail ← alloc A (.buckets [zeroCell])
  modifyBucket bucket fun b => { b with tail := tail }
  if tail = none then pure .errNomem
  else do
    let newKey ← newString A key
    modifyBucket bucket fun b => { b with key := newKey }
    let newValue ← newString A value
    modifyBucket bucket fun b => { b with value := newValue }
    if newKey = none ∨ newValue = none then undoBucket bucket tail
    else pure .errNone

/-- The part of `addHtableValue` at the bucket with the key, which was read before. -/
def overwriteValue (bucket : BucketPtr) (b : BucketCell) (value : CString) : Code ErrorCode := do
  let newValue ← newString A value
  modifyBucket bucket fun b => { b with value := newValue }
  if newValue = none then do
    modifyBucket bucket fun c => { c with value := b.value }
    pure .errNomem
  else do
    free b.value
    pure .errNone

/-- The loop of `addHtableValue`. -/
def addLoop (key value : CString) : ℕ → Option BucketPtr → Code ErrorCode
  | _, none => fault
  | 0, some _ => fault
  | n+1, some bucket => do
    let b ← readBucket bucket
    if b.key = none then addBucket A bucket key value
    else do
      let headKey ← loadString b.key
      if headKey = key then overwriteValue A bucket b value
      else addLoop key value n (firstOf b.tail)

def addHtableValue (table : Htable) (key value : CString) : Code ErrorCode :=
  match table.buckets with
  | none => pure .errBadParameter
  | some a => do
    let live ← liveBlocks
    addLoop A key value live (some ⟨a,hashFunction key table.size⟩)

/-- The loop of `getHtableValue`. -/
def getLoop (key : CString) : ℕ → Option BucketPtr → Code Ptr
  | _, none => pure none
  | 0, some _ => fault
  | n+1, some bucket => do
    let b ← readBucket bucket
    if b.key = none then pure none
    else do
      let headKey ← loadString b.key
      if headKey = key then strdup A b.value else getLoop key n (firstOf b.tail)

def getHtableValue (table : Htable) (key : CString) : Code Ptr :=
  match table.buckets with
  | none => pure none
  | some a => do
    let live ← liveBlocks
    getLoop A key live (some ⟨a,hashFunction key table.size⟩)

def constructHtable (size : ℕ) : Code Htable :=
  if size = 0 then fault else do
    let buckets ← alloc A (.buckets (List.replicate size zeroCell))
    if buckets = none then pure ⟨none,0⟩ else pure ⟨buckets,size⟩

/-- The loop of `freeBucket` over the later buckets of a chain. -/
def freeTail : ℕ → Option BucketPtr → Code Unit
  | _, none => pure ()
  | 0, some _ => fault
  | n+1, some bucket => do
    kvPairFree (.head bucket)
    let b ← readBucket bucket
    free (some bucket.block)
    freeTail n (firstOf b.tail)

def freeBucket (bucket : BucketPtr) : Code Unit := do
  kvPairFree (.head bucket)
  let b ← readBucket bucket
  let live ← liveBlocks
  freeTail live (firstOf b.tail)

def deleteHtableAndContent (table : Htable) : Code Htable :=
  match table.buckets with
  | none => pure ⟨none,0⟩
  | some a => do
    loop (fun i => freeBucket ⟨a,i⟩) table.size 0
    free (some a)
    pure ⟨none,0⟩

def copyPair (kv : PairCell) : Code PairCell := do
  let key ← strdup A kv.key
  let value ← strdup A kv.value
  pure ⟨key,value⟩

/-- The part of `kvListFree` that frees the pairs. -/
def freePairs (list : Addr) : Code Unit := do
  let (pairs,size) ← kvLists.head.read list
  match pairs with
  | none => pure ()
  | some a => do
    loop (fun i => kvPairFree (.element a i)) size 0
    free (some a)
    kvLists.head.write list (none,size)

def kvListFree : Ptr → Code Unit
  | none => pure ()
  | some list => do
    freePairs list
    let (pairs,_) ← kvLists.head.read list
    kvLists.head.write list (pairs,0)
    free (some list)

/-- The part of `getHtableContent` that copies a pair to the end of the array. The bucket is read
once more for its tail. -/
def addListed (list : Addr) (bucket : BucketPtr) (b : BucketCell) (pairs : Addr) (size : ℕ) : Code BucketCell := do
  let pair ← copyPair A ⟨b.key,b.value⟩
  writePair (.element pairs size) pair
  let b ← readBucket bucket
  kvLists.head.write list (some pairs,size + 1)
  pure b

/-- The inner loop of `getHtableContent`; `false` when it has given up the list. -/
def contentOfChain (list : Addr) : ℕ → Option BucketPtr → Code Bool
  | _, none => fault
  | 0, some _ => fault
  | n+1, some bucket => do
    let b ← readBucket bucket
    if b.key = none then pure true
    else do
      let (oldPairs,size) ← kvLists.head.read list
      let pairs ← kvLists.realloc A oldPairs (size + 1)
      kvLists.head.write list (pairs,size)
      match pairs with
      | none => do
        kvLists.head.write list (oldPairs,size)
        kvListFree (some list)
        pure false
      | some a => do
        let b ← addListed A list bucket b a size
        contentOfChain list n (firstOf b.tail)

/-- The outer loop with `n` buckets to go. -/
def contentOfBuckets (list a : Addr) : ℕ → ℕ → Code Bool
  | 0, _ => pure true
  | n+1, i => do
    let live ← liveBlocks
    if ← contentOfChain A list live (some ⟨a,i⟩) then contentOfBuckets list a n (i + 1) else pure false

def getHtableContent (table : Htable) : Code Ptr := do
  match ← alloc A (.kvList none 0) with
  | none => pure none
  | some list =>
    match table.buckets with
    | none => if table.size = 0 then pure (some list) else fault
    | some a => do
      if ← contentOfBuckets A list a table.size 0 then pure (some list) else pure none

end Code

end PpsDht.OnHeap
