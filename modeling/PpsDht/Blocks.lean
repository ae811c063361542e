import PpsDht.HeapLists
import PpsDht.Nodes

/-! # The blocks of the program

What is allocated on the heap: strings, arrays of buckets (a later bucket of a chain is an
array of one), arrays of pairs and of nodes, the lists of either, digests, addresses and
buffers. An open socket counts as a block as well. What is not written yet is `none`. -/
namespace PpsDht.OnHeap
open Heaps

/-- Null or the address of a block. -/
abbrev Ptr := Option Addr

structure BucketCell where
  key : Ptr
  value : Ptr
  tail : Ptr

structure PairCell where
  key : Ptr
  value : Ptr

structure NodeCell where
  sha : Ptr
  address : Ptr

inductive Block where
  | string (s : CString)
  | buckets (cells : List BucketCell)
  | pairs (cells : List (Option PairCell))
  | kvList (pairs : Ptr) (size : ℕ)
  | buffer (bytes : Bytes)
  | digest (sha : Option Digest)
  | address (a : Option SockAddr)
  | nodes (cells : List (Option NodeCell))
  | nodeList (nodes : Ptr) (size : ℕ)
  | socket

abbrev Code (α : Type) := HeapProg Block α

def strings : Kind Block CString where
  block := .string
  content
    | .string s => some s
    | _ => none
  content_block _ := rfl

def bucketArrays : Kind Block (List BucketCell) where
  block := .buckets
  content
    | .buckets cells => some cells
    | _ => none
  content_block _ := rfl

def buffers : Kind Block Bytes where
  block := .buffer
  content
    | .buffer bytes => some bytes
    | _ => none
  content_block _ := rfl

def digests : Kind Block (Option Digest) where
  block := .digest
  content
    | .digest sha => some sha
    | _ => none
  content_block _ := rfl

def addresses : Kind Block (Option SockAddr) where
  block := .address
  content
    | .address a => some a
    | _ => none
  content_block _ := rfl

def kvLists : ListKind Block (Option PairCell) where
  head :=
    { block := fun l => .kvList l.1 l.2
      content := fun
        | .kvList pairs size => some (pairs,size)
        | _ => none
      content_block := fun _ => rfl }
  array :=
    { block := .pairs
      content := fun
        | .pairs cells => some cells
        | _ => none
      content_block := fun _ => rfl }
  blank := none

@[simp] theorem kvLists_array (cells : List (Option PairCell)) : kvLists.array.block cells = .pairs cells := rfl

@[simp] theorem kvLists_blank : kvLists.blank = none := rfl

def nodeLists : ListKind Block (Option NodeCell) where
  head :=
    { block := fun l => .nodeList l.1 l.2
      content := fun
        | .nodeList nodes size => some (nodes,size)
        | _ => none
      content_block := fun _ => rfl }
  array :=
    { block := .nodes
      content := fun
        | .nodes cells => some cells
        | _ => none
      content_block := fun _ => rfl }
  blank := none

@[simp] theorem nodeLists_array (cells : List (Option NodeCell)) : nodeLists.array.block cells = .nodes cells := rfl

@[simp] theorem nodeLists_blank : nodeLists.blank = none := rfl

/-- `strcpy`, `strncpy` or `memset` into a buffer. -/
def writeBytes (a : Addr) (offset : ℕ) (data : Bytes) : Code Unit := do
  let bytes ← buffers.read a
  match copyAt bytes offset data with
  | none => fault
  | some bytes => store a (.buffer bytes)

end PpsDht.OnHeap
