import Mathlib.Data.UInt
import PpsDht.AllocatingPrograms
import PpsDht.CStrings

/-! # The chained hash table

A bucket is a cell whose tail is a pointer to the next one. A chain ends with a
cell without key; following a null pointer is undefined. Keys and values given
to the table are never null in this program, stored ones may be. -/
namespace PpsDht
open Mem

inductive Bucket where
  | null
  | cell (key value : Option CString) (tail : Bucket)
  deriving DecidableEq

structure Htable where
  buckets : Option (List Bucket)
  size : ℕ
  deriving DecidableEq

structure KvPair where
  key : Option CString
  value : Option CString
  deriving DecidableEq

namespace Bucket

/-- A zeroed bucket, the end of a chain. -/
def nil : Bucket := cell none none null

end Bucket

def hashStep (hash : UInt64) (c : UInt8) : UInt64 :=
  let hash := hash + c.toUInt64
  let hash := hash + (hash <<< 10)
  hash ^^^ (hash >>> 6)

def hashFunction (key : CString) (size : ℕ) : ℕ :=
  if size = 0 then sizeMax else
    let hash := key.chars.foldl hashStep 0
    let hash := hash + (hash <<< 3)
    let hash := hash ^^^ (hash >>> 11)
    let hash := hash + (hash <<< 15)
    hash.toNat % size

/-- Fills the end cell of a chain and hangs a fresh end cell on it. -/
def addBucket (bucket : Bucket) (key value : CString) : Mem (ErrorCode × Bucket) :=
  match bucket with
  | .null => undefined
  | .cell headKey headValue _ => do
    if ← malloc then
      let newKey ← strdup (some key)
      let newValue ← strdup (some value)
      if newKey = none ∨ newValue = none then
        -- the new tail and whichever copy succeeded are freed and set to null
        pure (.errNomem,.cell none none .null)
      else pure (.errNone,.cell newKey newValue .nil)
    else pure (.errNomem,.cell headKey headValue .null)

/-- The loop of `addHtableValue` along one chain. -/
def addToChain (key value : CString) : Bucket → Mem (ErrorCode × Bucket)
  | .null => undefined
  | .cell none headValue tail => addBucket (.cell none headValue tail) key value
  | .cell (some headKey) headValue tail =>
    if headKey = key then do
      match ← strdup (some value) with
      | none => pure (.errNomem,.cell (some headKey) headValue tail)
      | some newValue => pure (.errNone,.cell (some headKey) (some newValue) tail)
    else do
      let (err,tail') ← addToChain key value tail
      pure (err,.cell (some headKey) headValue tail')

def addHtableValue (table : Htable) (key value : CString) : Mem (ErrorCode × Htable) :=
  match table.buckets with
  | none => pure (.errBadParameter,table)
  | some buckets => do
    let idx := hashFunction key table.size
    let bucket ← lift buckets[idx]?
    let (err,bucket') ← addToChain key value bucket
    pure (err,{ table with buckets := some (buckets.set idx bucket') })

/-- The loop of `getHtableValue`, which does stop at a null pointer. -/
def getFromChain (key : CString) : Bucket → Mem (Option CString)
  | .null => pure none
  | .cell none _ _ => pure none
  | .cell (some headKey) headValue tail =>
    if headKey = key then strdup headValue else getFromChain key tail

def getHtableValue (table : Htable) (key : CString) : Mem (Option CString) :=
  match table.buckets with
  | none => pure none
  | some buckets => do
    let bucket ← lift buckets[hashFunction key table.size]?
    getFromChain key bucket

/-- A size of zero trips the assertion. -/
def constructHtable (size : ℕ) : Mem Htable :=
  if size = 0 then undefined else do
    if ← malloc then pure ⟨some (List.replicate size .nil),size⟩ else pure ⟨none,0⟩

def copyPair (kv : KvPair) : Mem KvPair := do
  let key ← strdup kv.key
  let value ← strdup kv.value
  pure ⟨key,value⟩

/-- One chain appended to the pairs listed so far; `none` is the null list
returned when the array of pairs cannot grow. -/
def contentOfChain (pairs : List KvPair) : Bucket → Mem (Option (List KvPair))
  | .null => undefined
  | .cell none _ _ => pure (some pairs)
  | .cell (some key) value tail => do
    if ← malloc then
      let pair ← copyPair ⟨some key,value⟩
      contentOfChain (pairs ++ [pair]) tail
    else pure none

def contentOfBuckets (pairs : List KvPair) : List Bucket → Mem (Option (List KvPair))
  | [] => pure (some pairs)
  | bucket::buckets => do
    match ← contentOfChain pairs bucket with
    | none => pure none
    | some pairs => contentOfBuckets pairs buckets

def getHtableContent (table : Htable) : Mem (Option (List KvPair)) := do
  if ← malloc then
    let buckets := table.buckets.getD []
    -- the loop indexes every bucket below `size`
    if buckets.length < table.size then undefined
    else contentOfBuckets [] (buckets.take table.size)
  else pure none

end PpsDht
