import PpsDht.DumpCompletion
import PpsDht.ServerStates

/-! # What a dump writes and sends

The indices written with `strcpy` and the lengths given to `sendto`, in order. The
buffer is flushed when the next pair would not fit behind what it holds, which does
not help a pair that is too long for the empty buffer. -/
namespace PpsDht
open Mem

inductive BufferAccess where
  | strcpy (index size : ℕ)
  | sendto (length : ℤ)
  deriving DecidableEq

/-- The accesses of the loop from a `current_size` on. A copy is not cut off at the end of the
buffer here, and a length may be negative. -/
def dumpAccesses : List Pair → ℕ → List BufferAccess
  | [], currentSize => [.sendto (currentSize - 1)]
  | pair::pairs, currentSize =>
    let keyLen := pair.1.length + 1
    let valueLen := pair.2.length + 1
    if currentSize + keyLen + valueLen > maxMsgSize then
      .sendto (currentSize - 1)::.strcpy 0 keyLen::.strcpy keyLen valueLen::
        dumpAccesses pairs (keyLen + valueLen)
    else .strcpy currentSize keyLen::.strcpy (currentSize + keyLen) valueLen::
        dumpAccesses pairs (currentSize + keyLen + valueLen)

/-- Written indices are below the size of the buffer, lengths neither negative nor above it. -/
def BufferAccess.InBuffer : BufferAccess → Prop
  | .strcpy index size => index + size ≤ maxMsgSize
  | .sendto length => 0 ≤ length ∧ length ≤ maxMsgSize

def BufferAccess.sent? : BufferAccess → Option ℤ
  | .strcpy _ _ => none
  | .sendto length => some length

/-- A loop that starts with something in its buffer stays inside exactly if each pair fits alone. -/
theorem dumpAccesses_inBuffer_iff {pairs : List Pair} {currentSize : ℕ} (hpos : 0 < currentSize)
    (hmax : currentSize ≤ maxMsgSize) :
    (∀ a ∈ dumpAccesses pairs currentSize, a.InBuffer) ↔ ∀ p ∈ pairs, cost p ≤ maxMsgSize := by
  induction pairs generalizing currentSize with
  | nil =>
    simp only [dumpAccesses,List.forall_mem_singleton,BufferAccess.InBuffer,List.not_mem_nil,false_imp_iff,
      implies_true,iff_true]
    omega
  | cons pair pairs ih =>
    rw [dumpAccesses,List.forall_mem_cons,cost]
    split
    · simp only [List.forall_mem_cons,BufferAccess.InBuffer]
      constructor
      · rintro ⟨-,-,hfit,hrest⟩
        exact ⟨by omega,(ih (by omega) (by omega)).mp hrest⟩
      · rintro ⟨hfit,hrest⟩
        exact ⟨by omega,by omega,by omega,(ih (by omega) (by omega)).mpr hrest⟩
    · simp only [List.forall_mem_cons,BufferAccess.InBuffer]
      constructor
      · rintro ⟨-,hfit,hrest⟩
        exact ⟨by omega,(ih (by omega) (by omega)).mp hrest⟩
      · rintro ⟨-,hrest⟩
        exact ⟨by omega,by omega,(ih (by omega) (by omega)).mpr hrest⟩

/-- The datagrams have the lengths given to `sendto`. -/
theorem emit_lengths (pairs : List Pair) {msg : Bytes} (h : msg ≠ []) :
    (emit pairs msg).map (fun d => (d.length : ℤ)) =
      (dumpAccesses pairs msg.length).filterMap BufferAccess.sent? := by
  have hlast : ∀ bytes : Bytes, bytes ≠ [] →
      (bytes.dropLast.length : ℤ) = bytes.length - 1 := fun bytes hne => by
    have := List.length_pos_iff.mpr hne
    rw [List.length_dropLast]
    omega
  induction pairs generalizing msg with
  | nil =>
    rw [emit,List.map_singleton,hlast msg h]
    rfl
  | cons pair pairs ih =>
    have hne : encodePair pair ≠ [] := by simp [encodePair,CString.stored]
    have hlen : (encodePair pair).length = pair.1.length + 1 + (pair.2.length + 1) := length_encodePair pair
    rw [emit,dumpAccesses,cost]
    simp only [gt_iff_lt,Nat.add_assoc]
    split
    · rw [List.map_cons,ih hne,hlast msg h,hlen,Nat.add_assoc]
      rfl
    · rw [ih (List.append_ne_nil_of_left_ne_nil h _),List.length_append,hlen,Nat.add_assoc]
      rfl

/-- The model's loop sends its datagrams exactly when all accesses stay inside the buffer. -/
theorem sendPairs_accesses (pairs : List Pair) :
    (∃ sent, Succeeds (sendPairs (pairs.map .ofPair)) sent ∧
        sent.map (fun d => (d.length : ℤ)) = (dumpAccesses pairs 4).filterMap BufferAccess.sent?) ↔
      ∀ a ∈ dumpAccesses pairs 4, a.InBuffer := by
  rw [dumpAccesses_inBuffer_iff (by decide) (by decide)]
  constructor
  · rintro ⟨sent,hsent,-⟩
    by_contra hfit
    obtain ⟨p,hp,hbig⟩ : ∃ p ∈ pairs, maxMsgSize < cost p := by simpa using hfit
    exact (dumpPairs_faults hp hbig _).not_succeeds sent hsent
  · exact fun hfit => ⟨_,sendPairs_succeeds hfit,emit_lengths pairs (List.cons_ne_nil _ _)⟩

/-- In every state, and in whatever order its pairs are listed, a dump stays inside its buffer
exactly when each pair fits alone with both terminators. -/
theorem dump_inBuffer_iff (table : Htable) (h : ServerState table) :
    ∃ stored, Stores table stored ∧ ∀ pairs, pairs.Perm stored →
      ((∀ a ∈ dumpAccesses pairs 4, a.InBuffer) ↔
        ∀ p ∈ stored, p.1.length + 1 + (p.2.length + 1) ≤ maxMsgSize) := by
  obtain ⟨stored,hstores,-⟩ := h.exists_stores
  refine ⟨stored,hstores,fun pairs hperm => ?_⟩
  rw [dumpAccesses_inBuffer_iff (by decide) (by decide)]
  exact forall_congr' fun p => by rw [hperm.mem_iff]; rfl

theorem dump_inBuffer_iff_letters :
    ∃ stored, Stores (ServerMap.initial.add .letterK .letterV).table stored ∧ ∀ pairs, pairs.Perm stored →
      ((∀ a ∈ dumpAccesses pairs 4, a.InBuffer) ↔
        ∀ p ∈ stored, p.1.length + 1 + (p.2.length + 1) ≤ maxMsgSize) :=
  dump_inBuffer_iff _ (serverState_put (.put .letterK .letterV (by decide)) (by decide))

/-- A pair that just fills a request is copied one byte past the buffer. -/
theorem dump_overruns :
    ¬∀ table, ServerState table → ∀ stored, Stores table stored → ∀ pairs, pairs.Perm stored →
      ∀ a ∈ dumpAccesses pairs 4, a.InBuffer := by
  intro h
  have hlen : ((letterPair 65505).1.chars ++ 0::(letterPair 65505).2.chars).length ≤ maxMsgSize := by
    rw [CString.length_separated,letterPair_key,letterPair_value]
    decide
  have hstate := serverState_put (letterPair_denotes 65505 (by decide)) hlen
  have hstores := (ServerMap.initial.add (letterPair 65505).1 (letterPair 65505).2).stores
  have hall := h _ hstate _ hstores _ (.refl _)
  rw [dumpAccesses_inBuffer_iff (by decide) (by decide)] at hall
  have hfit : cost (letterPair 65505) ≤ maxMsgSize := hall _ (ChainedMap.mem_pairs_add_self ServerMap.initial _ _)
  rw [cost,letterPair_key,letterPair_value] at hfit
  exact absurd hfit (by decide)

end PpsDht
