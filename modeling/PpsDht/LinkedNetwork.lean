import PpsDht.HeapNetworks
import PpsDht.LinkedHashtable
import PpsDht.LinkedNodes

/-! # The client library in memory

The code of `networkGet` and `networkPut` with its pointers. An open socket is a block, closing
it frees the block; a null pointer stands for the socket -1. -/
namespace PpsDht.OnHeap
open Mem Heaps HeapNet

/-- The address of a node of a list. -/
def addressOf (list : Addr) (i : ℕ) : Code SockAddr := do
  let node ← nodeAt list i
  loadField addresses node.address

/-- The loop that sends a message to `n` nodes from number `i` on. -/
def sendtoServers (msg : Code Datagram) (list : Addr) : ℕ → ℕ → HeapNet Block Unit
  | 0, _ => pure ()
  | n+1, i => do
    let address ← addressOf list i
    let d ← msg
    sendto address d
    sendtoServers msg list n (i + 1)

def close (socket : Addr) : Code Unit := free (some socket)

section Code
variable (A : Allocator) (sha1 : Bytes → Digest) (inetPton : CString → Option UInt32)

private theorem zero_notMem_one : (0 : UInt8) ∉ [1] := by decide

/-- Setting the timeout of a new socket does not fail here. -/
def createSocket : Code Ptr := alloc A .socket

def incrementAndGet (table : Htable) (key : CString) : Code ℕ := do
  match ← getHtableValue A table key with
  | some value => do
    let s ← strings.read value
    let first := s.stored.headD 0 + 1
    match readString (first::s.stored.tail) with
    | none => fault
    | some s => do
      strings.write value s
      let _ ← addHtableValue A table key s
      free (some value)
      pure (unsignedOfChar first)
  | none => do
    let _ ← addHtableValue A table key ⟨[1],zero_notMem_one⟩
    free none
    pure 1

/-- The end of `networkGet` when too few servers agree. -/
def giveUp (table : Htable) (nodes socket : Addr) : Code (ErrorCode × Ptr) := do
  nodeListFree (some nodes)
  let _ ← deleteHtableAndContent table
  close socket
  pure (.errNetwork,none)

/-- The end of `networkGet` with a value. The socket stays open when there is no memory for it. -/
def returnValue (table : Htable) (nodes socket : Addr) (reply : CString) : Code (ErrorCode × Ptr) := do
  let _ ← deleteHtableAndContent table
  nodeListFree (some nodes)
  match ← newString A reply with
  | none => pure (.errNomem,none)
  | some value => do
    close socket
    pure (.errNone,some value)

/-- The receive loop of `networkGet` with `n` turns to go. -/
def getRecvLoop (R : ℕ) (table : Htable) (nodes socket : Addr) : ℕ → HeapNet Block (ErrorCode × Ptr)
  | 0 => giveUp table nodes socket
  | n+1 => do
    match ← Net.recvfromServer with
    | none => giveUp table nodes socket
    | some d =>
      let received := d.take maxMsgSize
      let inMsg := received ++ List.replicate (maxMsgSize - received.length) 0
      if inMsg.head? = some 0 ∧ received.length = 1 then giveUp table nodes socket
      else
        match readString inMsg with
        | none => ofHeap fault
        | some reply => do
          let count ← incrementAndGet A table reply
          if count ≥ R then returnValue A table nodes socket reply
          else getRecvLoop R table nodes socket n

/-- The part of `networkGet` that has a socket and a table. -/
def contactNodes (ring : Addr) (args : Args) (key : CString) (table : Htable) (socket : Addr) :
    HeapNet Block (ErrorCode × Ptr) := do
  match ← ringGetNodesForKey A sha1 inetPton ring args.N key with
  | none => do
    let _ ← deleteHtableAndContent table
    close socket
    pure (.errNomem,none)
  | some nodes => do
    let (_,size) ← nodeLists.head.read nodes
    sendtoServers (pure key.chars) nodes size 0
    getRecvLoop A args.R table nodes socket size

/-- The error code and what the result pointer points to, which was `value` before. -/
def networkGet (ring : Addr) (args : Args) (key : Option CString) (value : Ptr) : HeapNet Block (ErrorCode × Ptr) :=
  match key with
  | none => pure (.errBadParameter,value)
  | some key =>
    if tooLong key then pure (.errBadParameter,value) else do
      (free value : Code Unit)
      match ← createSocket A with
      | none => pure (.errNetwork,none)
      | some socket => do
        let table ← constructHtable A args.N
        if table.buckets = none then do
          close socket
          pure (.errNomem,none)
        else contactNodes A sha1 inetPton ring args key table socket

def createCatPacket (key val : CString) : Code Ptr := do
  match ← alloc A (.buffer (List.replicate (key.length + 1 + val.length) 0)) with
  | none => pure none
  | some packet => do
    writeBytes packet 0 key.stored
    writeBytes packet (key.length + 1) val.chars
    pure (some packet)

/-- The macro evaluates the call once more for the code it returns. This socket is not closed. -/
def createAgain : Code ErrorCode := do
  let socket ← createSocket A
  pure (if socket = none then .errNetwork else .errNone)

/-- The part of `networkPut` that has a socket. -/
def sendPacket (ring : Addr) (args : Args) (key value : CString) (socket : Addr) : HeapNet Block ErrorCode := do
  match ← createCatPacket A key value with
  | none => do
    close socket
    pure .errNomem
  | some msg => do
    match ← ringGetNodesForKey A sha1 inetPton ring args.N key with
    | none => do
      (free (some msg) : Code Unit)
      close socket
      pure .errNomem
    | some nodes => do
      let (_,size) ← nodeLists.head.read nodes
      sendtoServers (buffers.read msg) nodes size 0
      let nodesContacted ← putRecvLoop args.W size 0
      (free (some msg) : Code Unit)
      nodeListFree (some nodes)
      close socket
      if nodesContacted < args.W then pure .errNetwork else pure .errNone

def networkPut (ring : Addr) (args : Args) : Option CString → Option CString → HeapNet Block ErrorCode
  | some key, some value =>
    if tooLong key ∨ tooLong value then pure .errBadParameter else do
      match ← createSocket A with
      | none => createAgain A
      | some socket => sendPacket A sha1 inetPton ring args key value socket
  | _, _ => pure .errBadParameter

end Code

end PpsDht.OnHeap
