import PpsDht.ContentInMemory
import PpsDht.FailingTables
import PpsDht.ServerRefinement

/-! # The server in memory

The main loop over the blocks that it allocates. Whatever allocations fail, it is undefined
where its model is, answers the same, leaves all other blocks as they are, and has no more
live than those of the table, which `deleteHtableAndContent` frees. -/
namespace PpsDht.OnHeap
open Mem Heaps HProp

section Code
variable (A : Allocator)

/-- The datagram that is sent of the first `n` bytes of a buffer. -/
def sendBytes (a : Addr) (n : ℕ) : Code Datagram := do
  let bytes ← buffers.read a
  if n ≤ bytes.length then pure (bytes.take n) else fault

/-- An element of the array of a list. -/
def readListed (list : Addr) (i : ℕ) : Code PairCell := do
  match ← kvLists.readItem list i with
  | none => fault
  | some c => pure c

/-- The buffer is sent without its last byte and zeroed. -/
def flush (msg : Addr) (currentSize : ℕ) : Code Datagram := do
  let full ← sendBytes msg (currentSize - 1)
  writeBytes msg 0 (List.replicate maxMsgSize 0)
  pure full

/-- The loop of the dump branch with `n` pairs to go. -/
def sendLoop (list msg : Addr) : ℕ → ℕ → ℕ → Code (List Datagram)
  | 0, _, currentSize => do
    let last ← sendBytes msg (currentSize - 1)
    pure [last]
  | n+1, i, currentSize => do
    let pair ← readListed list i
    let key ← loadString pair.key
    let value ← loadString pair.value
    let (sent,currentSize) ←
      if currentSize + (key.length + 1) + (value.length + 1) > maxMsgSize then do
        let full ← flush msg currentSize
        pure ([full],0)
      else pure ([],currentSize)
    writeBytes msg currentSize key.stored
    writeBytes msg (currentSize + (key.length + 1)) value.stored
    let rest ← sendLoop list msg n (i + 1) (currentSize + (key.length + 1) + (value.length + 1))
    pure (sent ++ rest)

/-- The part of a dump that has a list and a buffer. -/
def sendContent (list msg : Addr) : Code (List Datagram) := do
  let (_,size) ← kvLists.head.read list
  writeBytes msg 0 (htonl (size % 2^32))
  let sent ← sendLoop list msg size 0 4
  free (some msg)
  kvListFree (some list)
  pure sent

def dump (table : Htable) : Code (List Datagram) := do
  let list ← getHtableContent A table
  match ← alloc A (.buffer (List.replicate maxMsgSize 0)) with
  | none => do
    kvListFree list
    pure []
  | some msg =>
    match list with
    | none => fault
    | some list => sendContent list msg

/-- The branch of a get. -/
def get (table : Htable) (key : CString) : Code (List Datagram) := do
  match ← getHtableValue A table key with
  | none => pure [[0]]
  | some val => do
    let s ← loadString (some val)
    free (some val)
    pure [s.chars]

/-- One turn of the loop: the datagrams sent back. -/
def serve (table : Htable) (d : Datagram) : Code (List Datagram) := do
  match dispatch d with
  | none => fault
  | some .check => pure [[]]
  | some .dump => dump A table
  | some (.get key) => get A table key
  | some (.put key val) => do
    let _ ← addHtableValue A table key val
    pure [[]]

def serveAll (table : Htable) : List Datagram → Code (List (List Datagram))
  | [] => pure []
  | d::ds => do
    let sent ← serve A table d
    let rest ← serveAll table ds
    pure (sent::rest)

def launchServer (ds : List Datagram) : Code (Htable × List (List Datagram)) := do
  let table ← constructHtable A htableSize
  let sent ← serveAll A table ds
  pure (table,sent)

end Code

/-- A buffer that is filled from its front and zero behind. -/
def padded (filled : Bytes) : Bytes := filled ++ List.replicate (maxMsgSize - filled.length) 0

private theorem length_padded {filled : Bytes} (h : filled.length ≤ maxMsgSize) : (padded filled).length = maxMsgSize := by
  rw [padded,List.length_append,List.length_replicate,Nat.add_sub_cancel' h]

def bufferAt (msg : Addr) (filled : Bytes) : HProp Block :=
  given (filled.length ≤ maxMsgSize) (block msg (.buffer (padded filled)))

private theorem bufferAt_nil (msg : Addr) : bufferAt msg [] = block msg (.buffer (List.replicate maxMsgSize 0)) :=
  given_of_true (Nat.zero_le _)

variable {α α' : Type} {F : HProp Block} {f : Mem α'} {R : α → α' → HProp Block} {A : Allocator} {msg list : Addr}
  {filled data : Bytes} {n i : ℕ}

private theorem copyAt_padded (hfit : filled.length + data.length ≤ maxMsgSize) :
    copyAt (padded filled) filled.length data = some (padded (filled ++ data)) := by
  have hfilled := (Nat.le_add_right _ _).trans hfit
  rw [copyAt,length_padded hfilled,if_pos hfit,padded,List.take_left,List.drop_length_add_append,List.drop_replicate,
    padded,List.length_append,Nat.sub_add_eq]

private theorem writeBytes_bind (hfit : filled.length + data.length ≤ maxMsgSize) {k : Unit → Code α}
    (h : Implements (bufferAt msg (filled ++ data) * F) (k ()) f R) :
    Implements (bufferAt msg filled * F) (writeBytes msg filled.length data >>= k) f R := by
  rw [bufferAt,given_mul]
  refine .given fun _ => ?_
  rw [writeBytes,bind_assoc]
  refine Kind.read_bind (K := buffers) ?_
  rw [copyAt_padded hfit]
  refine .store_bind ?_
  rw [bufferAt,given_of_true (by rwa [List.length_append])] at h
  exact h

private theorem writeBytes_fault (hfit : ¬filled.length + data.length ≤ maxMsgSize) (k : Unit → Code α) :
    Implements (bufferAt msg filled * F) (writeBytes msg filled.length data >>= k) (undefined : Mem α') R := by
  rw [bufferAt,given_mul]
  refine .given fun hfilled => ?_
  rw [writeBytes,bind_assoc]
  refine Kind.read_bind (K := buffers) ?_
  rw [copyAt,length_padded hfilled,if_neg hfit]
  exact .fault

private theorem sendBytes_bind {k : Datagram → Code α} (h : Implements (bufferAt msg filled * F) (k filled.dropLast) f R) :
    Implements (bufferAt msg filled * F) (sendBytes msg (filled.length - 1) >>= k) f R := by
  rw [bufferAt,given_mul] at *
  refine .given fun hfilled => ?_
  rw [given_of_true hfilled] at h
  rw [sendBytes,bind_assoc]
  refine Kind.read_bind (K := buffers) ?_
  have hsent : (padded filled).take (filled.length - 1) = filled.dropLast := by
    rw [padded,List.take_append_of_le_length (Nat.sub_le _ 1),← List.dropLast_eq_take]
  rw [length_padded hfilled,if_pos ((Nat.sub_le _ 1).trans hfilled),hsent]
  exact h

private theorem flush_bind {k : Datagram → Code α} (h : Implements (bufferAt msg [] * F) (k filled.dropLast) f R) :
    Implements (bufferAt msg filled * F) (flush msg filled.length >>= k) f R := by
  rw [flush,bind_assoc]
  refine sendBytes_bind ?_
  rw [bind_assoc,bufferAt,given_mul]
  refine .given fun hfilled => ?_
  rw [writeBytes,bind_assoc]
  refine Kind.read_bind (K := buffers) ?_
  rw [copyAt,length_padded hfilled,List.length_replicate,Nat.zero_add,if_pos le_rfl,List.take_zero,List.nil_append,
    List.drop_eq_nil_of_le (length_padded hfilled).le,List.append_nil]
  refine .store_bind ?_
  rwa [bufferAt_nil] at h

private theorem appendString_bind {s : CString} {k : Unit → Code α} {g : Bytes → Mem α'}
    (h : Implements (bufferAt msg (filled ++ s.stored) * F) (k ()) (g (filled ++ s.stored)) R) : Implements
    (bufferAt msg filled * F) (writeBytes msg filled.length s.stored >>= k) (appendString filled s >>= g) R := by
  rw [appendString]
  by_cases hfit : filled.length + s.stored.length ≤ maxMsgSize
  · rw [CString.length_stored] at hfit
    rw [if_neg hfit.not_gt]
    exact writeBytes_bind (by rwa [CString.length_stored]) h
  · have hfault := hfit
    rw [CString.length_stored] at hfault
    rw [if_pos (not_le.mp hfault)]
    exact writeBytes_fault hfit k

/-- The pair behind the filled part, and the pairs behind it. -/
theorem appendPair_bind {key value : CString} {k : Code α} {g : Bytes → Mem α'}
    (h : ∀ filled', filled'.length = filled.length + (key.length + 1) + (value.length + 1) →
      Implements (bufferAt msg filled' * F) k (g filled') R) : Implements (bufferAt msg filled * F)
    (writeBytes msg filled.length key.stored >>= fun _ =>
      writeBytes msg (filled.length + (key.length + 1)) value.stored >>= fun _ => k)
    (appendPair filled key value >>= g) R := by
  rw [appendPair,bind_assoc]
  refine appendString_bind ?_
  have hlength : filled.length + (key.length + 1) = (filled ++ key.stored).length := by
    rw [List.length_append,CString.length_stored]
  rw [hlength]
  refine appendString_bind (h _ ?_)
  rw [List.length_append,CString.length_stored,hlength]

private theorem readListed_bind {pairs : List KvPair} {kv : KvPair} (hkv : pairs[i]? = some kv) {k : PairCell → Code α}
    (h : ∀ c rest, pairFields (some c) kv * rest ≤ kvListAt list pairs →
      Implements (pairFields (some c) kv * (rest * F)) (k c) f R) :
    Implements (kvListAt list pairs * F) (readListed list i >>= k) f R := by
  rw [readListed,bind_assoc]
  refine readItem_bind (L := kvLists) hkv fun c rest hrest => ?_
  cases c with
  | none => exact .bot_mul
  | some c => exact h c rest hrest

/-- What a dump has on the heap beside the table. -/
def dumpAt (msg list : Addr) (pairs : List KvPair) : HProp Block := (⨆ filled, bufferAt msg filled) * kvListAt list pairs

theorem sendLoop_implements {pairs : List KvPair} (hi : i + n = pairs.length) :
    Implements (bufferAt msg filled * kvListAt list pairs) (sendLoop list msg n i filled.length)
      (dumpPairs (pairs.drop i) filled) fun sent sent' => given (sent = sent') (dumpAt msg list pairs) := by
  induction n generalizing i filled with
  | zero =>
    rw [List.drop_eq_nil_of_le (by omega),sendLoop]
    exact sendBytes_bind (.pure (le_given rfl (mul_le_mul_left (le_iSup _ filled) _)))
  | succ n ih =>
    have hlt : i < pairs.length := by omega
    have hrest : ∀ filled', Implements (bufferAt msg filled' * kvListAt list pairs)
        (sendLoop list msg n (i + 1) filled'.length) (dumpPairs (pairs.drop (i + 1)) filled')
          fun sent sent' => given (sent = sent') (dumpAt msg list pairs) := fun filled' => ih (by omega)
    rw [sendLoop,List.drop_eq_getElem_cons hlt,dumpPairs,mul_comm]
    refine readListed_bind (List.getElem?_eq_getElem hlt) fun c rest hle => ?_
    rw [pairFields,mul_assoc]
    refine loadString_lift_bind fun key hkey => ?_
    rw [mul_left_comm]
    refine loadString_lift_bind fun value hvalue => ?_
    have hback : stringAt c.value pairs[i].value * (stringAt c.key pairs[i].key * (rest * bufferAt msg filled)) ≤
        bufferAt msg filled * kvListAt list pairs := by
      refine (le_of_eq ?_).trans (mul_le_mul_right hle _)
      rw [pairFields]
      ac_rfl
    refine Implements.mono ?_ hback fun _ _ => le_rfl
    by_cases hfull : filled.length + (key.length + 1) + (value.length + 1) > maxMsgSize
    · simp only [if_pos hfull]
      refine flush_bind (appendPair_bind fun filled' hfilled' => ?_)
      rw [List.length_nil] at hfilled'
      rw [← hfilled']
      refine (hrest filled').bind fun sent sent' => .given ?_
      rintro rfl
      exact .pure (le_given rfl le_rfl)
    · simp only [if_neg hfull]
      refine appendPair_bind fun filled' hfilled' => ?_
      rw [← hfilled']
      refine (hrest filled').bind fun sent sent' => .given ?_
      rintro rfl
      exact .pure (le_given rfl le_rfl)

theorem sendContent_implements (t : Htable) (table : PpsDht.Htable) {pairs : List KvPair} : Implements
    (bufferAt msg [] * (kvListAt list pairs * tableAt t table)) (sendContent list msg) (sendPairs pairs)
    fun sent sent' => given (sent = sent') (tableAt t table) := by
  rw [sendContent,mul_left_comm]
  refine readHead_bind (L := kvLists) fun p => ?_
  rw [mul_left_comm,sendPairs,← bind_pure (dumpPairs _ _)]
  have hmax : 4 ≤ maxMsgSize := by decide
  have hfit : ∀ n, ([] : Bytes).length + (htonl n).length ≤ maxMsgSize := fun _ => hmax
  refine writeBytes_bind (hfit _) ?_
  rw [← mul_assoc]
  refine (sendLoop_implements (Nat.zero_add _)).call fun sent sent' => ?_
  rw [given_mul]
  refine .given ?_
  rintro rfl
  rw [dumpAt,Quantale.iSup_mul_distrib,Quantale.iSup_mul_distrib]
  refine .iSup fun filled => ?_
  rw [bufferAt,given_mul,given_mul,mul_assoc]
  exact .given fun _ => .free_bind (kvListFree_bind (.pure (le_given rfl le_rfl)))

private theorem kvListFree_content_bind {p : Ptr} {listed : Option (List KvPair)} {k : Unit → Code α}
    (h : Implements F (k ()) f R) : Implements (contentAt p listed * F) (kvListFree p >>= k) f R := by
  cases p with
  | none =>
    cases listed with
    | none =>
      rw [contentAt,one_mul]
      exact h
    | some pairs => exact .bot_mul
  | some list =>
    cases listed with
    | none => exact .bot_mul
    | some pairs => exact kvListFree_bind h

theorem dump_implements (t : Htable) (table : PpsDht.Htable) : Implements (tableAt t table) (dump A t)
    (PpsDht.dump table) fun sent sent' => given (sent = sent') (tableAt t table) := by
  rw [dump,PpsDht.dump]
  refine (getHtableContent_implements t table).bind fun p listed => .alloc_bind (fun msg => ?_) ?_
  · cases p with
    | none =>
      cases listed with
      | none => exact .fault
      | some pairs => exact .mul_bot_mul
    | some list =>
      cases listed with
      | none => exact .mul_bot_mul
      | some pairs =>
        rw [if_pos rfl,← bufferAt_nil]
        exact .lift_bind rfl (sendContent_implements t table)
  · rw [if_neg Bool.false_ne_true]
    exact kvListFree_content_bind (.pure (le_given rfl le_rfl))

theorem get_implements (t : Htable) (table : PpsDht.Htable) (key : CString) : Implements (tableAt t table)
    (get A t key) (PpsDht.getHtableValue table key) fun sent o =>
      given (sent = [o.elim [0] CString.chars]) (tableAt t table) := by
  rw [get,← bind_pure (PpsDht.getHtableValue table key)]
  refine (getHtableValue_implements t table key).bind fun p o => ?_
  cases p with
  | none =>
    cases o with
    | none => exact .pure (le_given rfl (one_mul _).le)
    | some s => exact .bot_mul
  | some a =>
    cases o with
    | none => exact .bot_mul
    | some s => exact loadString_bind (.free_bind (.pure (le_given rfl le_rfl)))

theorem serve_implements (t : Htable) (table : PpsDht.Htable) (d : Datagram) : Implements (tableAt t table)
    (serve A t d) (PpsDht.serve table d) fun sent r => given (sent = r.2) (tableAt t r.1) := by
  rw [serve,PpsDht.serve]
  cases hd : dispatch d with
  | none => exact .fault
  | some r =>
    refine .lift_bind rfl ?_
    cases r with
    | check => exact .pure (le_given rfl le_rfl)
    | dump =>
      rw [← bind_pure (dump A t)]
      refine (dump_implements t table).bind fun sent sent' => .given ?_
      rintro rfl
      exact .pure (le_given rfl le_rfl)
    | get key =>
      dsimp only
      rw [← bind_pure (get A t key)]
      refine (get_implements t table key).bind fun sent o => .given ?_
      rintro rfl
      cases o <;> exact .pure (le_given rfl le_rfl)
    | put key val =>
      refine (addHtableValue_implements t table key val).bind fun code r => .given fun _ => ?_
      exact .pure (le_given rfl le_rfl)

theorem serveAll_implements (t : Htable) (table : PpsDht.Htable) (ds : List Datagram) : Implements (tableAt t table)
    (serveAll A t ds) (PpsDht.serveAll table ds) fun sent r => given (sent = r.2) (tableAt t r.1) := by
  induction ds generalizing table with
  | nil => exact .pure (le_given rfl le_rfl)
  | cons d ds ih =>
    refine (serve_implements t table d).bind fun sent r => .given ?_
    rintro rfl
    refine (ih r.1).bind fun rest r' => .given ?_
    rintro rfl
    exact .pure (le_given rfl le_rfl)

theorem launchServer_implements (ds : List Datagram) : Implements 1 (launchServer A ds) (PpsDht.launchServer ds)
    fun r r' => given (r.2 = r'.2) (tableAt r.1 r'.1) := by
  refine (constructHtable_implements htableSize).bind fun t table => ?_
  rw [← bind_pure (PpsDht.serveAll table ds)]
  refine (serveAll_implements t table ds).bind fun sent r => .given ?_
  rintro rfl
  exact .pure (le_given rfl le_rfl)

private theorem chainBlocks_ofPairs (chain : List Pair) : chainBlocks (.ofPairs chain) = 1 + 3 * chain.length := by
  induction chain with
  | nil => rfl
  | cons p chain ih =>
    have hcons : chainBlocks (.ofPairs (p::chain)) = 1 + (1 + (1 + chainBlocks (.ofPairs chain))) := rfl
    rw [hcons,ih,List.length_cons]
    omega

/-- A bucket, a key and a value for each pair. -/
theorem tableBlocks_table {size : ℕ} (m : ChainedMap size) : tableBlocks m.table = 1 + 3 * m.pairs.length := by
  have hfields : fieldBlocks ∘ .ofPairs = fun chain : List Pair => 3 * chain.length := funext fun chain => by
    rw [Function.comp_apply,fieldBlocks,chainBlocks_ofPairs,Nat.add_sub_cancel_left]
  have hblocks : tableBlocks m.table = 1 + ((m.chains.map .ofPairs).map fieldBlocks).sum := rfl
  rw [hblocks,List.map_map,hfields,List.sum_map_mul_left,ChainedMap.pairs,List.length_flatten]

private theorem serve_filled {start table table' : PpsDht.Htable} {d : Datagram} {outcomes rest : Outcomes}
    {sent : List Datagram} (h : Filled start table) (hs : PpsDht.serve table d outcomes = some ((table',sent),rest)) :
    Filled start table' := by
  obtain ⟨r,rest,-,hs⟩ := of_bind_eq_some hs
  cases r with
  | check =>
    cases hs
    exact h
  | dump =>
    obtain ⟨sent,rest,-,hs⟩ := of_bind_eq_some hs
    cases hs
    exact h
  | get key =>
    obtain ⟨o,rest,-,hs⟩ := of_bind_eq_some hs
    cases o <;>
    · cases hs
      exact h
  | put key val =>
    obtain ⟨⟨code,table⟩,rest,hadd,hs⟩ := of_bind_eq_some hs
    cases hs
    exact h.add hadd

private theorem serveAll_filled {start table table' : PpsDht.Htable} {ds : List Datagram} {outcomes rest : Outcomes}
    {sent : List (List Datagram)} (h : Filled start table)
    (hs : PpsDht.serveAll table ds outcomes = some ((table',sent),rest)) : Filled start table' := by
  induction ds generalizing table outcomes sent with
  | nil =>
    cases hs
    exact h
  | cons d ds ih =>
    obtain ⟨⟨table,sent⟩,rest,hd,hs⟩ := of_bind_eq_some hs
    obtain ⟨⟨table',sent'⟩,rest',hds,hs⟩ := of_bind_eq_some hs
    cases hs
    exact ih (serve_filled h hd) hds

/-- The table of a server is that of a map, or missing. -/
theorem launchServer_filled {ds : List Datagram} {table : PpsDht.Htable} {outcomes rest : Outcomes}
    {sent : List (List Datagram)} (hs : PpsDht.launchServer ds outcomes = some ((table,sent),rest)) :
    (∃ m : ServerMap, table = m.table) ∨ table = ⟨none,0⟩ := by
  obtain ⟨start,rest,hstart,hs⟩ := of_bind_eq_some hs
  have hsize : htableSize ≠ 0 := by decide
  rcases (constructHtable_returns hsize).result hstart with rfl | rfl
  · exact Or.inl ((serveAll_filled .start hs).exists_map hsize)
  · exact Or.inr (serveAll_filled .start hs).of_none

/-- Memory safety of the server: over any datagrams and allocation failures it goes wrong only where
its model does, answers the same, leaves all other blocks as they are and loses none of its own. -/
theorem launchServer_in_memory (A : Allocator) (ds : List Datagram) (start : Heap Block) (outcomes : Outcomes) :
    (PpsDht.launchServer ds outcomes = none → launchServer A ds start outcomes = none) ∧
    ∀ table sent rest, PpsDht.launchServer ds outcomes = some ((table,sent),rest) → ∃ t h,
      launchServer A ds start outcomes = some (((t,sent),h ∪ start),rest) ∧ h.Disjoint start ∧
      ((∃ m : ServerMap, table = m.table ∧ h.keys.card = 1 + 3 * m.pairs.length) ∨ table = ⟨none,0⟩ ∧ h = ∅) ∧
      deleteHtableAndContent t (h ∪ start) rest = some ((⟨none,0⟩,start),rest) := by
  have himplements := launchServer_implements (A := A) ds
  have hempty : (∅ : Heap Block).Disjoint start := Finmap.disjoint_empty start
  constructor
  · intro hnone
    have hfault := himplements.faults rfl hempty hnone
    rwa [Finmap.empty_union] at hfault
  · intro table sent rest hsome
    obtain ⟨⟨t,sent'⟩,h,hrun,hdisjoint,hsent,htable⟩ := himplements.returns rfl hempty hsome
    obtain rfl : sent' = sent := hsent
    rw [Finmap.empty_union] at hrun
    refine ⟨t,h,hrun,hdisjoint,?_,?_⟩
    · rcases launchServer_filled hsome with ⟨m,rfl⟩ | rfl
      · exact Or.inl ⟨m,rfl,(tableAt_occupies t m.table h htable).trans (tableBlocks_table m)⟩
      · exact Or.inr ⟨rfl,htable.2⟩
    · have hreturn : (pure () : Mem Unit) rest = some ((),rest) := rfl
      obtain ⟨t',h',hdelete,-,ht',hh'⟩ :=
        (deleteHtableAndContent_implements t table).returns htable hdisjoint hreturn
      obtain rfl : t' = ⟨none,0⟩ := ht'
      obtain rfl : h' = ∅ := hh'
      rwa [Finmap.empty_union] at hdelete

end PpsDht.OnHeap
