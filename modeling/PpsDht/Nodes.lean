import Mathlib.Data.Fintype.Prod
import Mathlib.Data.UInt
import PpsDht.AllocatingPrograms
import PpsDht.CStrings

/-! # Nodes, their lists and the ring

A node is a server address and a digest. Numbers of an address are kept in
network order, so comparing the bytes of two of them compares the numbers. The ring
is a list of nodes sorted by digest, several for each server. The walk starts at the
successor of the key and collects servers until enough are found; `SHA1` is a parameter. -/
namespace PpsDht
open Mem

def shaDigestLength : ℕ := 20

structure Digest where
  bytes : Bytes
  length_bytes : bytes.length = shaDigestLength
  deriving DecidableEq

@[ext] structure SockAddr where
  sinAddr : UInt32
  sinPort : UInt16
  deriving DecidableEq

structure Node where
  address : SockAddr
  sha : Digest
  deriving DecidableEq

def Digest.zero : Digest := ⟨List.replicate shaDigestLength 0,List.length_replicate⟩

/-- `sizeof(node_t)`, two pointers. -/
def sizeofNode : ℕ := 16

/-- `memcmp` of numbers in network order; only the sign is specified. -/
def memcmp (a b : ℕ) : ℤ := (a : ℤ) - b

def nodeCmpSha (first second : Node) : ℤ :=
  strncmp first.sha.bytes second.sha.bytes shaDigestLength

def nodeCmpServerAddr (first second : Node) : ℤ :=
  let diffIp := memcmp first.address.sinAddr.toNat second.address.sinAddr.toNat
  if diffIp ≠ 0 then diffIp else memcmp first.address.sinPort.toNat second.address.sinPort.toNat

def nodeListNew : Mem (Option (List Node)) := do
  if ← malloc then pure (some []) else pure none

/-- The part of `nodeListAdd` that copies address and digest. When there is no memory the digest
is freed a second time. -/
def copyFields (list : List Node) (node : Node) : Mem (ErrorCode × List Node) := do
  if ← malloc then pure (.errNone,list ++ [node]) else undefined

/-- The part of `nodeListAdd` that writes the new node. A failure of `node_init` is not looked
at, so that the copies go through a null or indeterminate pointer. -/
def copyNode (list : List Node) (node : Node) : Mem (ErrorCode × List Node) := do
  let sha ← malloc
  let address ← malloc
  if sha ∧ address then copyFields list node else undefined

/-- The list grows by a copy of the node. -/
def nodeListAdd (list : List Node) (node : Node) : Mem (ErrorCode × List Node) := do
  if list.length + 1 > sizeMax / sizeofNode then pure (.errNomem,list)
  else if ← malloc then copyNode list node
  else pure (.errNomem,list)

private theorem memcmp_eq_zero {a b : ℕ} : memcmp a b = 0 ↔ a = b := by
  rw [memcmp]
  omega

theorem nodeCmpServerAddr_eq_zero {first second : Node} :
    nodeCmpServerAddr first second = 0 ↔ first.address = second.address := by
  rw [nodeCmpServerAddr,SockAddr.ext_iff,← UInt32.toNat_inj,← UInt16.toNat_inj]
  by_cases hip : memcmp first.address.sinAddr.toNat second.address.sinAddr.toNat = 0
  · simp [memcmp_eq_zero,memcmp_eq_zero.mp hip]
  · simp [memcmp_eq_zero,mt memcmp_eq_zero.mpr hip]

/-- The copy needs three allocations. -/
theorem copyNode_apply (list : List Node) (node : Node) (outcomes : Outcomes) : copyNode list node outcomes =
    if allSucceed 3 outcomes then some ((.errNone,list ++ [node]),outcomes.drop 3) else none := by
  have hdrop : outcomes.drop 3 = outcomes.tail.tail.tail := by simp only [← List.drop_one,List.drop_drop]
  simp only [copyNode,malloc_bind,allSucceed,Bool.and_true,hdrop]
  by_cases hcopies : nextSucceeds outcomes ∧ nextSucceeds outcomes.tail
  · rw [if_pos hcopies,copyFields,malloc_bind,hcopies.1,hcopies.2,Bool.true_and,Bool.true_and]
    cases nextSucceeds outcomes.tail.tail <;> rfl
  · rw [if_neg hcopies,if_neg]
    · rfl
    · simp only [Bool.and_eq_true]
      exact fun hall => hcopies ⟨hall.1,hall.2.1⟩

/-- There are too few addresses to overflow the size of a list of distinct servers. -/
theorem length_le_of_nodup {addresses : List SockAddr} (h : addresses.Nodup) :
    addresses.length ≤ 2^48 := by
  have hinj : Function.Injective fun a : SockAddr => (a.sinAddr.toFin,a.sinPort.toFin) := by
    intro a b hab
    obtain ⟨hip,hport⟩ := Prod.mk.inj hab
    exact SockAddr.ext (UInt32.toFin_inj.mp hip) (UInt16.toFin_inj.mp hport)
  have hcard := (h.map hinj).length_le_card
  rw [List.length_map,Fintype.card_prod,Fintype.card_fin,Fintype.card_fin] at hcard
  exact hcard

theorem nodeListAdd_room {list : List Node} {node : Node} (h : list.length + 1 ≤ sizeMax / sizeofNode) :
    Succeeds (nodeListAdd list node) (.errNone,list ++ [node]) := by
  rw [nodeListAdd,if_neg (Nat.not_lt.mpr h)]
  exact malloc_succeeds.bind (malloc_succeeds.bind (malloc_succeeds.bind (malloc_succeeds.bind (.pure _))))

theorem nodeListAdd_succeeds {list : List Node} {node : Node}
    (h : ((list ++ [node]).map Node.address).Nodup) :
    Succeeds (nodeListAdd list node) (.errNone,list ++ [node]) := by
  have hlen := length_le_of_nodup h
  rw [List.length_map,List.length_append,List.length_singleton] at hlen
  refine nodeListAdd_room (hlen.trans ?_)
  rw [sizeMax,sizeofNode]
  omega

/-- Whatever allocations fail, an addition with a result adds the node or nothing. -/
theorem nodeListAdd_cases {list list' : List Node} {node : Node} {code : ErrorCode} {outcomes rest : Outcomes}
    (h : nodeListAdd list node outcomes = some ((code,list'),rest)) :
    code = .errNone ∧ list' = list ++ [node] ∨ code = .errNomem ∧ list' = list := by
  rw [nodeListAdd] at h
  split at h
  · cases h
    exact Or.inr ⟨rfl,rfl⟩
  · rw [malloc_bind] at h
    split at h
    · rw [copyNode_apply] at h
      split at h
      · cases h
        exact Or.inl ⟨rfl,rfl⟩
      · cases h
    · cases h
      exact Or.inr ⟨rfl,rfl⟩

def indexOfFirstNode (ring : List Node) (sha : Digest) : ℕ :=
  (ring.findIdx? fun node => strncmp node.sha.bytes sha.bytes shaDigestLength ≥ 0).getD 0

def alreadyPresentInList (list : List Node) (node : Node) : Bool :=
  list.any fun other => nodeCmpServerAddr other node = 0

structure Walk where
  ring : List Node
  list : List Node
  index : ℕ

/-- One turn of the loop; the error code of the addition is not looked at. -/
def walkStep (w : Walk) : Mem Walk := do
  let node ← lift w.ring[w.index]?
  let list ← if alreadyPresentInList w.list node then pure w.list else do
    let (_,list) ← nodeListAdd w.list node
    pure list
  pure { w with list := list, index := (w.index + 1) % w.ring.length }

/-- The loop for at most `fuel` turns; beyond them it has no result. -/
def walk (wantedListSize : ℕ) : ℕ → Walk → Mem Walk
  | 0, w => if w.list.length < wantedListSize then undefined else pure w
  | fuel+1, w =>
    if w.list.length < wantedListSize then do
      let w ← walkStep w
      walk wantedListSize fuel w
    else pure w

/-- A turn of the ring in which no allocation fails finds every server, so a loop
that outlasts one turn for each outcome and one more never ends. -/
def ringGetNodesForKey (sha1 : Bytes → Digest) (ring : List Node) (wantedListSize : ℕ) (key : CString) :
    Mem (Option (List Node)) := do
  let index := indexOfFirstNode ring (sha1 key.chars)
  match ← nodeListNew with
  | none => pure none
  | some list => do
    let outcomes ← get
    let w ← walk wantedListSize (ring.length * (outcomes.length + 1)) ⟨ring,list,index⟩
    pure (some w.list)

end PpsDht
