import Mathlib.Algebra.Order.BigOperators.Group.List
import PpsDht.Nodes
import PpsDht.Scanning

/-! # From the list of servers to the ring

Each entry of the file gives an address and a number of nodes, whose digests come
from the entry and their number. Reading stops without a word at the first entry
that does not scan. `SHA1`, `inet_pton` and `qsort` are parameters. -/
namespace PpsDht
open Mem Scanning

def ipLength : ℕ := 15

def maxLineSize : ℕ := 100

structure ServerEntry where
  ip : CString
  port : UInt16
  nodeId : ℕ
  deriving DecidableEq

/-- `fscanf` with `"%15s %hu %lu"`. -/
def readEntry (servers : Bytes) : Option (ServerEntry × Bytes) := do
  let (ip,servers) ← scanWord ipLength servers
  let (port,servers) ← scanUnsigned servers
  let (nodeId,servers) ← scanUnsigned servers
  some (⟨upToNul ip,UInt16.ofNat port,nodeId⟩,servers)

/-- The reading loop. Each turn consumes a part of the file. -/
def readEntriesWithin : ℕ → Bytes → List ServerEntry
  | 0, _ => []
  | fuel+1, servers => match readEntry servers with
    | none => []
    | some (entry,servers) => entry::readEntriesWithin fuel servers

def readEntries (servers : Bytes) : List ServerEntry := readEntriesWithin servers.length servers

/-- `%hu` and `%zu` of `sprintf`. -/
def decimal (n : ℕ) : CString where
  chars := (Nat.toDigits 10 n).map fun c => UInt8.ofNat c.toNat
  nulFree h := by
    obtain ⟨c,hc,hzero⟩ := List.mem_map.mp h
    have hdigit := Char.isDigit_iff_toNat.mp (Nat.isDigit_of_mem_toDigits (by decide) (by decide) hc)
    have hmod := congrArg UInt8.toNat hzero
    rw [UInt8.toNat_ofNat',UInt8.toNat_zero] at hmod
    change 48 ≤ c.toNat ∧ c.toNat ≤ 57 at hdigit
    omega

/-- The text that is hashed for a node. -/
def nodeText (ip : CString) (port : UInt16) (nodeId : ℕ) : CString where
  chars := ip.chars ++ 32::((decimal port.toNat).chars ++ 32::(decimal nodeId).chars)
  nulFree := by simp [ip.nulFree,(decimal port.toNat).nulFree,(decimal nodeId).nulFree]

/-- The pointers of a `node_t`: cleared, freed, or to an address and a digest. -/
inductive NodePointers where
  | null
  | dangling
  | live (node : Node)

/-- Freeing what was freed before is undefined. -/
def nodeEnd : NodePointers → Mem NodePointers
  | .null => pure .null
  | .dangling => undefined
  | .live _ => pure .dangling

section Parameters

variable (sha1 : Bytes → Digest) (inetPton : CString → Option UInt32)

def getServerAddr (ip : CString) (port : UInt16) : Except ErrorCode SockAddr :=
  match inetPton ip with
  | none => .error .errNetwork
  | some sinAddr => .ok ⟨sinAddr,port⟩

/-- After a failure behind the first allocation the pointers are freed and not cleared. -/
def nodeInit (node : NodePointers) (ip : CString) (port : UInt16) (nodeId : ℕ) : Mem (ErrorCode × NodePointers) :=
  let input := nodeText ip port nodeId
  if maxLineSize < input.length + 1 then undefined else do
    if ← malloc then
      if ← malloc then
        match getServerAddr inetPton ip port with
        | .error code => pure (code,.dangling)
        | .ok address => pure (.errNone,.live ⟨address,sha1 input.chars⟩)
      else pure (.errNomem,.dangling)
    else pure (.errNomem,node)

/-- The loop over the nodes of an entry, `n` of them still to come and `i` the next.
`node` is the variable declared outside of the loop. -/
def addNodes (entry : ServerEntry) : ℕ → ℕ → List Node → NodePointers → Mem (Option (List Node))
  | 0, _, list, _ => pure (some list)
  | n+1, i, list, node => do
    match ← nodeInit sha1 inetPton node entry.ip entry.port i with
    | (.errNone,.live new) => do
      let (code,list) ← nodeListAdd list new
      let node ← nodeEnd (.live new)
      if code = .errNone then addNodes entry n (i + 1) list node else pure none
    | (_,node) => do
      -- what a failing `node_init` has freed is freed once more
      let _ ← nodeEnd node
      pure none

def addEntries : List ServerEntry → List Node → Mem (Option (List Node))
  | [], list => pure (some list)
  | entry::entries, list => do
    match ← addNodes sha1 inetPton entry entry.nodeId 1 list .null with
    | none => pure none
    | some list => addEntries entries list

/-- Without a file there are no nodes. -/
def getNodes (servers : Option Bytes) : Mem (Option (List Node)) := do
  match ← nodeListNew with
  | none => pure none
  | some list =>
    match servers with
    | none => pure (some list)
    | some servers => addEntries sha1 inetPton (readEntries servers) list

/-- The ring is that of the caller, never null here. -/
def ringInit (qsort : List Node → List Node) (servers : Option Bytes) : Mem (Except ErrorCode (List Node)) := do
  match ← getNodes sha1 inetPton servers with
  | none => pure (.error .errNomem)
  | some list => pure (.ok (qsort list))

def ServerEntry.node (entry : ServerEntry) (sinAddr : UInt32) (i : ℕ) : Node :=
  ⟨⟨sinAddr,entry.port⟩,sha1 (nodeText entry.ip entry.port i).chars⟩

/-- The nodes with `n` numbers from `i` on, none if the address is not understood. -/
def ServerEntry.nodesFrom (entry : ServerEntry) (i n : ℕ) : List Node :=
  match inetPton entry.ip with
  | none => []
  | some sinAddr => (List.range' i n).map (entry.node sha1 sinAddr)

def ServerEntry.nodes (entry : ServerEntry) : List Node := entry.nodesFrom sha1 inetPton 1 entry.nodeId

end Parameters

theorem readEntry_shorter {servers rest : Bytes} {entry : ServerEntry}
    (h : readEntry servers = some (entry,rest)) : rest.length < servers.length := by
  obtain ⟨⟨ip,servers₁⟩,hword,h⟩ := Option.bind_eq_some_iff.mp h
  obtain ⟨⟨port,servers₂⟩,hport,h⟩ := Option.bind_eq_some_iff.mp h
  obtain ⟨⟨nodeId,servers₃⟩,hid,h⟩ := Option.bind_eq_some_iff.mp h
  obtain ⟨-,rfl⟩ := Prod.mk.inj (Option.some.inj h)
  have h₁ := (scanWord_shorter hword).1
  have h₂ := (scanUnsigned_shorter hport).1
  have h₃ := (scanUnsigned_shorter hid).1
  omega

@[simp] theorem readEntriesWithin_nil (fuel : ℕ) : readEntriesWithin fuel [] = [] := by
  cases fuel <;> rfl

/-- The number of turns does not matter if it is large enough. -/
theorem readEntriesWithin_eq {fuel fuel' : ℕ} {servers : Bytes} (h : servers.length ≤ fuel)
    (h' : servers.length ≤ fuel') : readEntriesWithin fuel servers = readEntriesWithin fuel' servers := by
  induction fuel generalizing fuel' servers with
  | zero =>
    obtain rfl := List.length_eq_zero_iff.mp (Nat.le_zero.mp h)
    simp
  | succ fuel ih =>
    cases fuel' with
    | zero =>
      obtain rfl := List.length_eq_zero_iff.mp (Nat.le_zero.mp h')
      simp
    | succ fuel' =>
      simp only [readEntriesWithin]
      cases hread : readEntry servers with
      | none => rfl
      | some result =>
        have hlt := readEntry_shorter hread
        exact congrArg (result.1::·) (ih (by omega) (by omega))

theorem readEntries_cons {servers rest : Bytes} {entry : ServerEntry}
    (h : readEntry servers = some (entry,rest)) : readEntries servers = entry::readEntries rest := by
  have hlt := readEntry_shorter h
  obtain ⟨n,hn⟩ := Nat.exists_eq_succ_of_ne_zero (Nat.ne_zero_of_lt hlt)
  rw [readEntries,hn,readEntriesWithin,h]
  exact congrArg (entry::·) (readEntriesWithin_eq (by omega) le_rfl)

theorem readEntries_of_none {servers : Bytes} (h : readEntry servers = none) : readEntries servers = [] := by
  rw [readEntries]
  cases servers with
  | nil => rfl
  | cons c servers => rw [List.length_cons,readEntriesWithin,h]

@[simp] theorem readEntries_nil : readEntries [] = [] := rfl

private theorem length_decimal_le {n k : ℕ} (hk : 0 < k) (h : n < 10^k) : (decimal n).length ≤ k := by
  rw [CString.length,decimal,List.length_map]
  exact (Nat.length_toDigits_le_iff (by decide) hk).mpr h

/-- The text fits into its array. -/
theorem length_nodeText_lt {ip : CString} (port : UInt16) {nodeId : ℕ} (hip : ip.length ≤ ipLength)
    (hid : nodeId < 2^64) : (nodeText ip port nodeId).length < maxLineSize := by
  have hport := length_decimal_le (k := 5) (by decide) (port.toNat_lt.trans (by decide))
  have hdigits := length_decimal_le (k := 20) (by decide) (hid.trans (by decide))
  simp only [CString.length,nodeText,List.length_append,List.length_cons] at hip hport hdigits ⊢
  rw [ipLength] at hip
  rw [maxLineSize]
  omega

section Runs

variable {sha1 : Bytes → Digest} {inetPton : CString → Option UInt32} {entry : ServerEntry}

private theorem nodeInit_live {node : NodePointers} {new : Node} {ip : CString} {port : UInt16} {i : ℕ}
    {outcomes rest : Outcomes}
    (h : nodeInit sha1 inetPton node ip port i outcomes = some ((.errNone,.live new),rest)) :
    ∃ sinAddr, inetPton ip = some sinAddr ∧ new = ⟨⟨sinAddr,port⟩,sha1 (nodeText ip port i).chars⟩ := by
  simp only [nodeInit] at h
  split at h
  · exact absurd h nofun
  · rw [malloc_bind] at h
    split at h
    · rw [malloc_bind] at h
      split at h
      · cases hip : inetPton ip with
        | none =>
          simp only [getServerAddr,hip] at h
          exact absurd h nofun
        | some sinAddr =>
          simp only [getServerAddr,hip] at h
          cases h
          exact ⟨sinAddr,rfl,rfl⟩
      · exact absurd h nofun
    · exact absurd h nofun

private theorem ServerEntry.nodesFrom_succ {sinAddr : UInt32} (h : inetPton entry.ip = some sinAddr) (i n : ℕ) :
    entry.nodesFrom sha1 inetPton i (n + 1) =
      entry.node sha1 sinAddr i::entry.nodesFrom sha1 inetPton (i + 1) n := by
  simp only [nodesFrom,h,List.range'_succ,List.map_cons]

@[simp] theorem ServerEntry.nodesFrom_zero (i : ℕ) : entry.nodesFrom sha1 inetPton i 0 = [] := by
  rw [nodesFrom]
  split <;> rfl

/-- Whatever allocations fail, a run that returns a list has added the nodes. -/
theorem addNodes_eq {n i : ℕ} {list list' : List Node} {node : NodePointers} {outcomes rest : Outcomes}
    (h : addNodes sha1 inetPton entry n i list node outcomes = some (some list',rest)) :
    list' = list ++ entry.nodesFrom sha1 inetPton i n := by
  induction n generalizing i list node outcomes with
  | zero =>
    cases h
    rw [ServerEntry.nodesFrom_zero,List.append_nil]
  | succ n ih =>
    rw [addNodes] at h
    obtain ⟨⟨code,pointers⟩,rest₁,hinit,h⟩ := of_bind_eq_some h
    cases code with
    | errNone =>
      cases pointers with
      | live new =>
        obtain ⟨sinAddr,hip,rfl⟩ := nodeInit_live hinit
        obtain ⟨⟨code,list₁⟩,rest₂,hadd,h⟩ := of_bind_eq_some h
        obtain ⟨node₁,rest₃,-,h⟩ := of_bind_eq_some h
        rcases nodeListAdd_cases hadd with ⟨rfl,rfl⟩ | ⟨rfl,-⟩
        · rw [ih h,ServerEntry.nodesFrom_succ hip,List.append_assoc]
          rfl
        · cases h
      | _ =>
        obtain ⟨node₁,rest₂,-,h⟩ := of_bind_eq_some h
        cases h
    | _ =>
      obtain ⟨node₁,rest₂,-,h⟩ := of_bind_eq_some h
      cases h

private theorem addEntries_eq {entries : List ServerEntry} {list list' : List Node} {outcomes rest : Outcomes}
    (h : addEntries sha1 inetPton entries list outcomes = some (some list',rest)) :
    list' = list ++ entries.flatMap (ServerEntry.nodes sha1 inetPton) := by
  induction entries generalizing list outcomes with
  | nil =>
    cases h
    simp
  | cons entry entries ih =>
    rw [addEntries] at h
    obtain ⟨added,rest₁,hadd,h⟩ := of_bind_eq_some h
    cases added with
    | none => exact absurd h nofun
    | some list₁ =>
      rw [ih h,addNodes_eq hadd,List.flatMap_cons,List.append_assoc]
      rfl

/-- Entries whose nodes can all be added to a list: known addresses and room for the texts and the nodes. -/
structure Addable (inetPton : CString → Option UInt32) (entry : ServerEntry) : Prop where
  ip : entry.ip.length ≤ ipLength
  nodeId : entry.nodeId < 2^64
  known : (inetPton entry.ip).isSome

theorem nodeInit_succeeds (sha1 : Bytes → Digest) (h : Addable inetPton entry) (node : NodePointers)
    {i : ℕ} (hi : i ≤ entry.nodeId) :
    ∃ sinAddr, inetPton entry.ip = some sinAddr ∧ Succeeds
      (nodeInit sha1 inetPton node entry.ip entry.port i) (.errNone,.live (entry.node sha1 sinAddr i)) := by
  obtain ⟨sinAddr,hip⟩ := Option.isSome_iff_exists.mp h.known
  have hfits : ¬maxLineSize < (nodeText entry.ip entry.port i).length + 1 :=
    Nat.not_lt.mpr (length_nodeText_lt entry.port h.ip (hi.trans_lt h.nodeId))
  refine ⟨sinAddr,hip,?_⟩
  simp only [nodeInit,hfits,if_false,getServerAddr,hip]
  exact malloc_succeeds.bind (malloc_succeeds.bind (.pure _))

theorem addNodes_succeeds (sha1 : Bytes → Digest) (h : Addable inetPton entry) {n i : ℕ}
    (hi : i + n ≤ entry.nodeId + 1) (list : List Node)
    (hroom : list.length + n ≤ sizeMax / sizeofNode) (node : NodePointers) :
    Succeeds (addNodes sha1 inetPton entry n i list node)
      (some (list ++ entry.nodesFrom sha1 inetPton i n)) := by
  induction n generalizing i list node with
  | zero =>
    rw [ServerEntry.nodesFrom_zero,List.append_nil]
    exact .pure _
  | succ n ih =>
    obtain ⟨sinAddr,hip,hinit⟩ := nodeInit_succeeds sha1 h node (show i ≤ entry.nodeId by omega)
    have hlen : (list ++ [entry.node sha1 sinAddr i]).length = list.length + 1 := List.length_append
    have hrest := ih (i := i + 1) (by omega) (list ++ [entry.node sha1 sinAddr i]) (by omega) .dangling
    rw [List.append_assoc,List.singleton_append,← ServerEntry.nodesFrom_succ hip] at hrest
    exact hinit.bind ((nodeListAdd_room (by omega)).bind ((Succeeds.pure _).bind hrest))

theorem addEntries_succeeds (sha1 : Bytes → Digest) {entries : List ServerEntry}
    (h : ∀ entry ∈ entries, Addable inetPton entry) (list : List Node)
    (hroom : list.length + (entries.map ServerEntry.nodeId).sum ≤ sizeMax / sizeofNode) :
    Succeeds (addEntries sha1 inetPton entries list)
      (some (list ++ entries.flatMap (ServerEntry.nodes sha1 inetPton))) := by
  induction entries generalizing list with
  | nil =>
    rw [List.flatMap_nil,List.append_nil]
    exact .pure _
  | cons entry entries ih =>
    have hentry := h entry List.mem_cons_self
    rw [List.map_cons,List.sum_cons] at hroom
    have hadd := addNodes_succeeds sha1 hentry (i := 1) (n := entry.nodeId) (by omega) list (by omega) .null
    have hlen : (entry.nodesFrom sha1 inetPton 1 entry.nodeId).length = entry.nodeId := by
      obtain ⟨sinAddr,hip⟩ := Option.isSome_iff_exists.mp hentry.known
      simp [ServerEntry.nodesFrom,hip]
    have hrest := ih (fun e he => h e (List.mem_cons_of_mem _ he))
      (list ++ entry.nodesFrom sha1 inetPton 1 entry.nodeId) (by rw [List.length_append,hlen]; omega)
    rw [List.append_assoc] at hrest
    exact hadd.bind hrest

/-- The servers that are to have a node. -/
def listedServers (inetPton : CString → Option UInt32) (entries : List ServerEntry) : List SockAddr :=
  ((entries.filter fun entry => 0 < entry.nodeId).filterMap fun entry =>
    (inetPton entry.ip).map fun sinAddr => ⟨sinAddr,entry.port⟩).dedup

private theorem mem_map_address_nodes {s : SockAddr} : s ∈ (entry.nodes sha1 inetPton).map Node.address ↔
    0 < entry.nodeId ∧ (inetPton entry.ip).map (fun sinAddr => (⟨sinAddr,entry.port⟩ : SockAddr)) = some s := by
  rw [ServerEntry.nodes,ServerEntry.nodesFrom]
  cases inetPton entry.ip with
  | none => simp
  | some sinAddr =>
    have hmap : ((List.range' 1 entry.nodeId).map (entry.node sha1 sinAddr)).map Node.address =
        List.replicate entry.nodeId ⟨sinAddr,entry.port⟩ := by
      simp [ServerEntry.node,Function.comp_def,List.map_const']
    rw [hmap,List.mem_replicate,Option.map_some,Option.some.injEq,Nat.pos_iff_ne_zero,eq_comm (a := s)]

/-- All nodes that the list of servers describes. -/
def listedNodes (sha1 : Bytes → Digest) (inetPton : CString → Option UInt32)
    (servers : Option Bytes) : List Node :=
  (readEntries (servers.getD [])).flatMap (ServerEntry.nodes sha1 inetPton)

/-- The nodes of some entries belong to the servers listed. -/
theorem length_listedServers (sha1 : Bytes → Digest) (inetPton : CString → Option UInt32)
    (entries : List ServerEntry) :
    ((entries.flatMap (ServerEntry.nodes sha1 inetPton)).map Node.address).dedup.length =
      (listedServers inetPton entries).length := by
  refine List.Perm.length_eq ((List.perm_ext_iff_of_nodup (List.nodup_dedup _) (List.nodup_dedup _)).mpr fun s => ?_)
  rw [List.mem_dedup,List.mem_dedup,List.map_flatMap,List.mem_flatMap,List.mem_filterMap]
  simp only [mem_map_address_nodes,List.mem_filter,decide_eq_true_eq,and_assoc]

private theorem getNodes_eq {servers : Option Bytes} {list : List Node} {outcomes rest : Outcomes}
    (h : getNodes sha1 inetPton servers outcomes = some (some list,rest)) :
    list = listedNodes sha1 inetPton servers := by
  obtain ⟨new,rest₁,hnew,h⟩ := of_bind_eq_some h
  rw [nodeListNew,malloc_bind] at hnew
  split at hnew
  · cases hnew
    cases servers with
    | none =>
      cases h
      rfl
    | some servers => exact addEntries_eq h
  · cases hnew
    exact absurd h nofun

/-- A ring holds the listed nodes as `qsort` arranges them. -/
theorem ringInit_eq {qsort : List Node → List Node} {servers : Option Bytes} {ring : List Node}
    {outcomes rest : Outcomes} (h : ringInit sha1 inetPton qsort servers outcomes = some (.ok ring,rest)) :
    ring = qsort (listedNodes sha1 inetPton servers) := by
  obtain ⟨list,rest₁,hnodes,h⟩ := of_bind_eq_some h
  cases list with
  | none => exact absurd h nofun
  | some list =>
    cases h
    rw [getNodes_eq hnodes]

theorem ringInit_succeeds (qsort : List Node → List Node) {servers : Bytes}
    (h : ∀ entry ∈ readEntries servers, Addable inetPton entry)
    (hroom : ((readEntries servers).map ServerEntry.nodeId).sum ≤ sizeMax / sizeofNode) :
    Succeeds (ringInit sha1 inetPton qsort (some servers))
      (.ok (qsort (listedNodes sha1 inetPton (some servers)))) := by
  have hnew : Succeeds nodeListNew (some []) := malloc_succeeds.bind (.pure _)
  have hadd := addEntries_succeeds sha1 h [] (by simpa using hroom)
  exact Succeeds.bind (hnew.bind hadd) (.pure _)

end Runs

end PpsDht
