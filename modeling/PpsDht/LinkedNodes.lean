import PpsDht.Blocks
import PpsDht.Nodes
import PpsDht.ServerLists

/-! # Nodes and lists of nodes in memory

The code of the nodes, their lists and the walk around the ring with its pointers. A node is
copied with its pointers, so that two copies own one digest and one address. -/
namespace PpsDht.OnHeap
open Mem Heaps

/-- `PPS_DEFAULT_IP`, the text 127.0.0.1. -/
def ppsDefaultIp : CString := ⟨[49,50,55,46,48,46,48,46,49],by decide⟩

def ppsDefaultPort : UInt16 := 1234

/-- A field of a node, a digest or an address, that must have been written before. -/
def loadField {γ : Type} (K : Kind Block (Option γ)) : Ptr → Code γ
  | none => fault
  | some a => do
    match ← K.read a with
    | none => fault
    | some c => pure c

def storeField {γ : Type} (K : Kind Block (Option γ)) : Ptr → γ → Code Unit
  | none, _ => fault
  | some a, c => K.write a (some c)

def nodeEnd (node : NodeCell) : Code Unit := do
  free node.sha
  free node.address

section Code
variable (A : Allocator) (sha1 : Bytes → Digest) (inetPton : CString → Option UInt32)

/-- The code and the node afterwards, whose pointers may not have been written before. -/
def nodeInit (node : Option NodeCell) (ip : CString) (port : UInt16) (nodeId : ℕ) :
    Code (ErrorCode × Option NodeCell) :=
  let input := nodeText ip port nodeId
  if maxLineSize < input.length + 1 then fault else do
    match ← alloc A (.digest (some .zero)) with
    | none => pure (.errNomem,node)
    | some sha => do
      digests.write sha (some (sha1 input.chars))
      match ← alloc A (.address none) with
      | none => do
        nodeEnd ⟨some sha,none⟩
        pure (.errNomem,some ⟨some sha,none⟩)
      | some address =>
        match getServerAddr inetPton ip port with
        | .error code => do
          nodeEnd ⟨some sha,some address⟩
          pure (code,some ⟨some sha,some address⟩)
        | .ok a => do
          addresses.write address (some a)
          pure (.errNone,some ⟨some sha,some address⟩)

def nodeListNew : Code Ptr := alloc A (.nodeList none 0)

/-- The part of `nodeListAdd` that copies address and digest to the new node at the end of the array. -/
def copyFields (list nodes : Addr) (size : ℕ) (node new : NodeCell) : Code ErrorCode := do
  let address ← loadField addresses node.address
  storeField addresses new.address address
  free new.sha
  match ← alloc A (.digest none) with
  | none => do
    nodeEnd new
    pure .errNomem
  | some temp => do
    let sha ← loadField digests node.sha
    storeField digests (some temp) sha
    nodeLists.array.writeAt nodes size (some { new with sha := some temp })
    nodeLists.head.write list (some nodes,size + 1)
    pure .errNone

/-- The part of `nodeListAdd` that writes the new node at the end of the array. -/
def copyNode (list nodes : Addr) (size : ℕ) (node : NodeCell) : Code ErrorCode := do
  let old ← nodeLists.array.readAt nodes size
  let (_,new) ← nodeInit A sha1 inetPton old ppsDefaultIp ppsDefaultPort 0
  nodeLists.array.writeAt nodes size new
  match new with
  | none => fault
  | some new => copyFields A list nodes size node new

def nodeListAdd (list : Addr) (node : NodeCell) : Code ErrorCode := do
  let (oldNodes,size) ← nodeLists.head.read list
  if size + 1 > sizeMax / sizeofNode then pure .errNomem
  else do
    let nodes ← nodeLists.realloc A oldNodes (size + 1)
    nodeLists.head.write list (nodes,size)
    match nodes with
    | none => do
      nodeLists.head.write list (oldNodes,size)
      pure .errNomem
    | some nodes => copyNode A sha1 inetPton list nodes size node

def endNode (nodes : Addr) (i : ℕ) : Code Unit := do
  match ← nodeLists.array.readAt nodes i with
  | none => fault
  | some node => nodeEnd node

/-- The part of `nodeListFree` that frees the nodes. -/
def freeNodes (nodes : Ptr) (size : ℕ) : Code Unit :=
  match nodes with
  | none => pure ()
  | some a => do
    loop (endNode a) size 0
    free (some a)

def nodeListFree : Ptr → Code Unit
  | none => pure ()
  | some list => do
    let (nodes,size) ← nodeLists.head.read list
    freeNodes nodes size
    free (some list)

/-- The node at a place of a list, with its pointers. -/
def nodeAt (list : Addr) (i : ℕ) : Code NodeCell := do
  match ← nodeLists.readItem list i with
  | none => fault
  | some node => pure node

def nodeCmpServerAddr (first second : NodeCell) : Code ℤ := do
  let a ← loadField addresses first.address
  let b ← loadField addresses second.address
  let diffIp := memcmp a.sinAddr.toNat b.sinAddr.toNat
  pure (if diffIp ≠ 0 then diffIp else memcmp a.sinPort.toNat b.sinPort.toNat)

/-- The loop of `alreadyPresentInList` with `n` nodes to go. -/
def presentLoop (list : Addr) (node : NodeCell) : ℕ → ℕ → Code Bool
  | 0, _ => pure false
  | n+1, i => do
    let other ← nodeAt list i
    if (← nodeCmpServerAddr other node) = 0 then pure true else presentLoop list node n (i + 1)

def alreadyPresentInList (list : Addr) (node : NodeCell) : Code Bool := do
  let (_,size) ← nodeLists.head.read list
  presentLoop list node size 0

/-- The loop of `indexOfFirstNode` with `n` nodes to go. -/
def indexLoop (ring : Addr) (sha : Digest) : ℕ → ℕ → Code ℕ
  | 0, _ => pure 0
  | n+1, i => do
    let node ← nodeAt ring i
    let nodeSha ← loadField digests node.sha
    if strncmp nodeSha.bytes sha.bytes shaDigestLength ≥ 0 then pure i else indexLoop ring sha n (i + 1)

def indexOfFirstNode (ring : Addr) (sha : Digest) : Code ℕ := do
  let (_,size) ← nodeLists.head.read ring
  indexLoop ring sha size 0

/-- One turn of the walk: the next index. -/
def walkStep (ring list : Addr) (index : ℕ) : Code ℕ := do
  let node ← nodeAt ring index
  if ← alreadyPresentInList list node then pure () else do
    let _ ← nodeListAdd A sha1 inetPton list node
    pure ()
  let (_,size) ← nodeLists.head.read ring
  pure ((index + 1) % size)

/-- The walk for at most `fuel` turns. -/
def walk (wantedListSize : ℕ) (ring list : Addr) : ℕ → ℕ → Code Unit
  | 0, _ => do
    let (_,size) ← nodeLists.head.read list
    if size < wantedListSize then fault else pure ()
  | fuel+1, index => do
    let (_,size) ← nodeLists.head.read list
    if size < wantedListSize then do
      let index ← walkStep A sha1 inetPton ring list index
      walk wantedListSize ring list fuel index
    else pure ()

def ringGetNodesForKey (ring : Addr) (wantedListSize : ℕ) (key : CString) : Code Ptr := do
  let index ← indexOfFirstNode ring (sha1 key.chars)
  match ← nodeListNew A with
  | none => pure none
  | some list => do
    let outcomes ← (get : Mem Outcomes)
    let (_,size) ← nodeLists.head.read ring
    walk A sha1 inetPton wantedListSize ring list (size * (outcomes.length + 1)) index
    pure (some list)

end Code

end PpsDht.OnHeap
