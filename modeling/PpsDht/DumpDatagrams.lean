import PpsDht.HashtableMap
import PpsDht.ServerLoop

/-! # The datagrams of a dump

With allocations succeeding the dump branch is a function of the listed pairs. -/
namespace PpsDht
open Mem

def encodePair (p : Pair) : Bytes := p.1.stored ++ p.2.stored

/-- Bytes of a pair inside the buffer, both terminators included. -/
def cost (p : Pair) : ℕ := p.1.length + 1 + (p.2.length + 1)

@[simp] theorem length_encodePair (p : Pair) : (encodePair p).length = cost p := by
  simp [encodePair,cost]

/-- `dumpPairs` on complete pairs. -/
def emit : List Pair → Bytes → List Datagram
  | [], msg => [msg.dropLast]
  | p::pairs, msg =>
    if maxMsgSize < msg.length + cost p then msg.dropLast::emit pairs (encodePair p)
    else emit pairs (msg ++ encodePair p)

/-- The datagrams sent for a list of pairs, the first one with the header. -/
def dumpDatagrams (pairs : List Pair) : List Datagram :=
  emit pairs (htonl (pairs.length % 2^32))

theorem appendPair_succeeds {msg : Bytes} {p : Pair} (h : msg.length + cost p ≤ maxMsgSize) :
    Succeeds (appendPair msg p.1 p.2) (msg ++ encodePair p) := by
  rw [cost] at h
  have hkey : Succeeds (appendString msg p.1) (msg ++ p.1.stored) := by
    rw [appendString,if_neg (by omega)]
    exact .pure _
  apply hkey.bind
  rw [appendString,if_neg (by simp only [List.length_append,CString.length_stored]; omega),
    encodePair,← List.append_assoc]
  exact .pure _

theorem appendPair_faults {msg : Bytes} {p : Pair} (h : maxMsgSize < msg.length + cost p) :
    Faults (appendPair msg p.1 p.2) := by
  rw [cost] at h
  by_cases hkey : maxMsgSize < msg.length + (p.1.length + 1)
  · have hk : Faults (appendString msg p.1) := by
      rw [appendString,if_pos hkey]
      exact .undefined
    exact hk.bind _
  · have hk : Succeeds (appendString msg p.1) (msg ++ p.1.stored) := by
      rw [appendString,if_neg hkey]
      exact .pure _
    apply hk.bind_faults
    rw [appendString,if_pos (by simp only [List.length_append,CString.length_stored]; omega)]
    exact .undefined

/-- One turn of the loop on a complete pair. -/
private theorem dumpPairs_cons (p : Pair) (pairs : List KvPair) (msg : Bytes) :
    dumpPairs (.ofPair p::pairs) msg [] =
      if maxMsgSize < msg.length + cost p then
        (appendPair [] p.1 p.2 >>= fun filled => do
          let sent ← dumpPairs pairs filled
          pure (msg.dropLast::sent)) []
      else (appendPair msg p.1 p.2 >>= fun filled => dumpPairs pairs filled) [] := by
  rw [dumpPairs,(lift_succeeds (show (KvPair.ofPair p).key = some p.1 from rfl)).bind_apply,
    (lift_succeeds (show (KvPair.ofPair p).value = some p.2 from rfl)).bind_apply]
  simp only [cost,gt_iff_lt,← Nat.add_assoc]
  by_cases h : maxMsgSize < msg.length + p.1.length + 1 + p.2.length + 1
  · simp only [h,if_true]
  · simp only [h,if_false,bind_pure]

theorem dumpPairs_succeeds {pairs : List Pair} (hfit : ∀ p ∈ pairs, cost p ≤ maxMsgSize) (msg : Bytes) :
    Succeeds (dumpPairs (pairs.map .ofPair) msg) (emit pairs msg) := by
  induction pairs generalizing msg with
  | nil => exact .pure _
  | cons p pairs ih =>
    have hp := hfit p List.mem_cons_self
    have ih := ih fun q hq => hfit q (List.mem_cons_of_mem p hq)
    rw [Succeeds,List.map_cons,dumpPairs_cons,emit]
    by_cases h : maxMsgSize < msg.length + cost p
    · rw [if_pos h,if_pos h]
      apply (appendPair_succeeds (by simpa using hp)).bind
      exact (ih _).bind (.pure _)
    · rw [if_neg h,if_neg h]
      exact (appendPair_succeeds (Nat.le_of_not_lt h)).bind (ih _)

/-- A pair longer than the buffer is copied past its end, wherever it stands. -/
theorem dumpPairs_faults {pairs : List Pair} {p : Pair} (hp : p ∈ pairs) (hbig : maxMsgSize < cost p)
    (msg : Bytes) : Faults (dumpPairs (pairs.map .ofPair) msg) := by
  induction pairs generalizing msg with
  | nil => exact absurd hp List.not_mem_nil
  | cons q pairs ih =>
    rw [Faults,List.map_cons,dumpPairs_cons]
    rcases List.mem_cons.mp hp with rfl | hp
    · rw [if_pos (by omega)]
      exact (appendPair_faults (by simpa using hbig)).bind _
    · have ih := ih hp
      by_cases hfull : maxMsgSize < msg.length + cost q
      · rw [if_pos hfull]
        by_cases hq : maxMsgSize < cost q
        · exact (appendPair_faults (by simpa using hq)).bind _
        · exact (appendPair_succeeds (by simpa using hq)).bind_faults ((ih _).bind _)
      · rw [if_neg hfull]
        exact (appendPair_succeeds (Nat.le_of_not_lt hfull)).bind_faults (ih _)

theorem sendPairs_succeeds {pairs : List Pair} (hfit : ∀ p ∈ pairs, cost p ≤ maxMsgSize) :
    Succeeds (sendPairs (pairs.map .ofPair)) (dumpDatagrams pairs) := by
  rw [sendPairs,List.length_map]
  exact dumpPairs_succeeds hfit _

theorem dump_succeeds {size : ℕ} {m : ChainedMap size} (hfit : ∀ p ∈ m.pairs, cost p ≤ maxMsgSize) :
    Succeeds (dump m.table) (dumpDatagrams m.pairs) := by
  apply (getHtableContent_succeeds m).bind
  apply malloc_succeeds.bind
  apply (lift_succeeds rfl).bind
  exact sendPairs_succeeds hfit

theorem dump_faults {size : ℕ} {m : ChainedMap size} (hfit : ¬∀ p ∈ m.pairs, cost p ≤ maxMsgSize) :
    Faults (dump m.table) := by
  obtain ⟨p,hp,hbig⟩ : ∃ p ∈ m.pairs, maxMsgSize < cost p := by simpa using hfit
  apply (getHtableContent_succeeds m).bind_faults
  apply malloc_succeeds.bind_faults
  apply (lift_succeeds rfl).bind_faults
  exact dumpPairs_faults hp hbig _

end PpsDht
