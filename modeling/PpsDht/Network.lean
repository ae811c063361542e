import PpsDht.Hashtable
import PpsDht.Nodes
import PpsDht.SocketPrograms

/-! # The client library

`networkPut` and `networkGet` contact the servers of a key over a socket of their
own. Creating a socket consumes an outcome as an allocation does. The size that a
send returns is only looked at for a debug message. -/
namespace PpsDht
open Mem SocketPrograms

abbrev Net := StateT Outcomes (Prog SockAddr Datagram)

namespace Net

def ofMem {α : Type} (m : Mem α) : Net α := fun outcomes =>
  match m outcomes with
  | none => .fault
  | some result => .ret result

instance : MonadLift Mem Net := ⟨ofMem⟩

/-- The message to each node of the list. -/
def sendtoServers (nodes : List Node) (msg : Datagram) : Net Unit := fun outcomes =>
  .sendAll (nodes.map Node.address) msg (.ret ((),outcomes))

def recvfromServer : Net (Option Datagram) := fun outcomes => .recv fun d => .ret (d,outcomes)

end Net

open Net

structure Args where
  N : ℕ
  R : ℕ
  W : ℕ

structure Client where
  nodes : List Node
  args : Args

structure Outcome where
  code : ErrorCode
  value : Option CString
  deriving DecidableEq

/-- `M_EXIT_IF_TOO_LONG` with the size of a message. -/
def tooLong (s : CString) : Bool := s.length > maxMsgSize

def createSocket : Mem ErrorCode := do
  if ← malloc then pure .errNone else pure .errNetwork

/-- A signed character converted to `unsigned int`. -/
def unsignedOfChar (c : UInt8) : ℕ := if c.toNat < 2^7 then c.toNat else 2^32 - 2^8 + c.toNat

def incrementAndGet (table : Htable) (key : CString) : Mem (ℕ × Htable) := do
  match ← getHtableValue table key with
  | some value => do
    -- the first byte of the copy is incremented, be it the terminator or not
    let first := value.stored.headD 0 + 1
    let value ← lift (readString (first::value.stored.tail))
    let (_,table) ← addHtableValue table key value
    pure (unsignedOfChar first,table)
  | none => do
    let (_,table) ← addHtableValue table key ⟨[1],by decide⟩
    pure (1,table)

/-- The end of `networkGet` with a value. -/
def returnValue (reply : CString) : Mem Outcome := do
  match ← strdup (some reply) with
  | none => pure ⟨.errNomem,none⟩
  | some value => pure ⟨.errNone,some value⟩

/-- The receive loop of `networkGet` with `n` turns to go; it returns as well when
nothing or the one-byte zero arrives. -/
def getRecvLoop (R : ℕ) : ℕ → Htable → Net Outcome
  | 0, _ => pure ⟨.errNetwork,none⟩
  | n+1, table => do
    match ← recvfromServer with
    | none => pure ⟨.errNetwork,none⟩
    | some d =>
      let received := d.take maxMsgSize
      let inMsg := received ++ List.replicate (maxMsgSize - received.length) 0
      if inMsg.head? = some 0 ∧ received.length = 1 then pure ⟨.errNetwork,none⟩
      else do
        let reply ← lift (readString inMsg)
        let (count,table) ← incrementAndGet table reply
        if count ≥ R then returnValue reply else getRecvLoop R n table

/-- The part of `networkGet` that has a socket and a table. -/
def contactNodes (sha1 : Bytes → Digest) (client : Client) (key : CString) (table : Htable) : Net Outcome := do
  match ← ringGetNodesForKey sha1 client.nodes client.args.N key with
  | none => pure ⟨.errNomem,none⟩
  | some nodes => do
    sendtoServers nodes key.chars
    getRecvLoop client.args.R nodes.length table

/-- `value` is what the result pointer points to. -/
def networkGet (sha1 : Bytes → Digest) (client : Client) (key value : Option CString) : Net Outcome :=
  match key with
  | none => pure ⟨.errBadParameter,value⟩
  | some key =>
    if tooLong key then pure ⟨.errBadParameter,value⟩ else do
      if (← createSocket) ≠ .errNone then pure ⟨.errNetwork,none⟩ else do
        let table ← constructHtable client.args.N
        if table.buckets = none then pure ⟨.errNomem,none⟩ else contactNodes sha1 client key table

def createCatPacket (key val : CString) : Mem (Option Bytes) := do
  if ← malloc then
    let packet := List.replicate (key.length + 1 + val.length) 0
    let packet ← lift (copyAt packet 0 key.stored)
    let packet ← lift (copyAt packet (key.length + 1) val.chars)
    pure (some packet)
  else pure none

/-- The receive loop of `networkPut`: whatever arrives counts, its content is not read. -/
def putRecvLoop (W : ℕ) : ℕ → ℕ → Net ℕ
  | 0, nodesContacted => pure nodesContacted
  | n+1, nodesContacted => do
    match ← recvfromServer with
    | none => pure nodesContacted
    | some _ =>
      if nodesContacted + 1 ≥ W then pure (nodesContacted + 1)
      else putRecvLoop W n (nodesContacted + 1)

/-- The part of `networkPut` that has a socket. -/
def sendPacket (sha1 : Bytes → Digest) (client : Client) (key value : CString) : Net ErrorCode := do
  match ← createCatPacket key value with
  | none => pure .errNomem
  | some msg => do
    match ← ringGetNodesForKey sha1 client.nodes client.args.N key with
    | none => pure .errNomem
    | some nodes => do
      sendtoServers nodes msg
      let nodesContacted ← putRecvLoop client.args.W nodes.length 0
      if nodesContacted < client.args.W then pure .errNetwork else pure .errNone

def networkPut (sha1 : Bytes → Digest) (client : Client) : Option CString → Option CString → Net ErrorCode
  | some key, some value =>
    if tooLong key ∨ tooLong value then pure .errBadParameter else do
      if (← createSocket) ≠ .errNone then
        -- the macro evaluates the call once more for the code it returns
        createSocket
      else sendPacket sha1 client key value
  | _, _ => pure .errBadParameter

end PpsDht
