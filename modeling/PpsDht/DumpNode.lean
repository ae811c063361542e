import Mathlib.Tactic.Linarith
import PpsDht.DumpDatagrams
import PpsDht.GreedyPacking
import PpsDht.ServerLoop

/-! # The receiver of a dump

Each datagram is received into an array one byte longer than any message. The
array is cleared up to that last byte, which keeps its initial content. Pairs are
then read one after the other up to an empty key. The encoder packs the pairs greedily
and sends each full buffer without its last zero, which the cleared array supplies again.
A block of pairs is read back exactly when no key is empty and the bytes it fills leave a
zero behind them. -/
namespace PpsDht
open Mem GreedyPacking

structure DumpState where
  nbrPairs : ℕ
  count : ℤ
  pairs : List KvPair
  deriving DecidableEq

/-- What becomes of the receive loop: it stops with some datagrams unread, or
`recv` fails, or an array cannot grow. -/
inductive DumpOutcome where
  | printed (s : DumpState) (unread : List Datagram)
  | failed
  | exited

def ntohl : Bytes → ℕ
  | [a,b,c,d] => a.toNat * 2^24 + b.toNat * 2^16 + c.toNat * 2^8 + d.toNat
  | _ => 0

/-- The array `ans` after `memset` and `recv`. -/
def answerArray (extra : UInt8) (d : Datagram) : Bytes :=
  let received := d.take maxMsgSize
  received ++ List.replicate (maxMsgSize - received.length) 0 ++ [extra]

/-- The two arrays grow by a copy of the key and of the value. -/
def copyFound (key value : CString) (s : DumpState) : Mem (Option DumpState) := do
  if ← malloc then
    let newKey ← strdup (some key)
    if ← malloc then
      let newValue ← strdup (some value)
      pure (some { s with count := s.count + 1, pairs := s.pairs ++ [⟨newKey,newValue⟩] })
    else pure none
  else pure none

/-- The scanning loop, on the part of the array from `current_idx` on. -/
def scanPairs (rest : Bytes) (s : DumpState) : Mem (Option DumpState) :=
  match _ : readString rest with
  | none => undefined
  | some key =>
    if key.length + 1 > 1 then
      let rest' := rest.drop (key.length + 1)
      match readString rest' with
      | none => undefined
      | some value => do
        match ← copyFound key value s with
        | none => pure none
        | some s => scanPairs (rest'.drop (value.length + 1)) s
    else pure (some s)
termination_by rest.length
decreasing_by
  have := length_lt_of_readString ‹readString rest = some key›
  simp only [List.length_drop]
  omega

/-- The loop over datagrams, those still to come given in order. -/
def receiveDump (extra : UInt8) : List Datagram → DumpState → Mem DumpOutcome
  | [], s => if s.count < s.nbrPairs then pure .failed else pure (.printed s [])
  | d::ds, s =>
    if s.count < s.nbrPairs then do
      let ans := answerArray extra d
      let first := s.count = -1
      let s := if first then { s with nbrPairs := ntohl (ans.take 4), count := s.count + 1 } else s
      let currentIdx := if first then 4 else 0
      match ← scanPairs (ans.drop currentIdx) s with
      | none => pure .exited
      | some s => receiveDump extra ds s
    else pure (.printed s (d::ds))

def dumpNode (extra : UInt8) (ds : List Datagram) : Mem DumpOutcome :=
  receiveDump extra ds ⟨0,-1,[]⟩

def encodePairs (block : List Pair) : Bytes := block.flatMap encodePair

@[simp] theorem encodePairs_nil : encodePairs [] = [] := rfl

@[simp] theorem encodePairs_cons (p : Pair) (block : List Pair) :
    encodePairs (p::block) = encodePair p ++ encodePairs block := by
  simp [encodePairs]

@[simp] theorem length_encodePairs (block : List Pair) :
    (encodePairs block).length = total cost block := by
  induction block with
  | nil => rfl
  | cons p block ih => simp [ih]

/-- The datagrams are the blocks of the packing, the header in front of the first. -/
theorem emit_eq (pairs : List Pair) (msg : Bytes) :
    emit pairs msg = (msg ++ encodePairs (pack maxMsgSize cost msg.length pairs).1).dropLast::
      (pack maxMsgSize cost msg.length pairs).2.map fun block => (encodePairs block).dropLast := by
  induction pairs generalizing msg with
  | nil => simp [emit,pack]
  | cons p pairs ih =>
    rw [emit,pack]
    split
    · simp [ih]
    · simp [ih,List.append_assoc]

/-- What follows `fill` bytes in the receiver's array. -/
def padding (extra : UInt8) (fill : ℕ) : Bytes :=
  List.replicate (maxMsgSize - fill) 0 ++ [extra]

/-- The zero that was not sent is one of the cleared bytes of the array. -/
theorem answerArray_dropLast (extra : UInt8) {msg : Bytes} (hz : ∃ front, msg = front ++ [0])
    (h : msg.length ≤ maxMsgSize) : answerArray extra msg.dropLast = msg ++ padding extra msg.length := by
  obtain ⟨front,rfl⟩ := hz
  rw [List.length_append,List.length_singleton] at h
  have hn : maxMsgSize - front.length = maxMsgSize - (front.length + 1) + 1 := by omega
  simp only [List.dropLast_concat,answerArray,List.take_of_length_le (show front.length ≤ maxMsgSize by omega),
    padding,List.length_append,List.length_singleton,hn,List.replicate_succ,List.append_assoc,
    List.cons_append,List.nil_append]

theorem encodePairs_ends {block : List Pair} (h : block ≠ []) (header : Bytes) :
    ∃ front, header ++ encodePairs block = front ++ [0] := by
  obtain ⟨front,p,rfl⟩ := List.eq_nil_or_concat block |>.resolve_left h
  refine ⟨header ++ encodePairs front ++ (p.1.stored ++ p.2.chars),?_⟩
  simp [encodePairs,encodePair,CString.stored]

def DumpState.extend (s : DumpState) (block : List Pair) : DumpState :=
  ⟨s.nbrPairs,s.count + block.length,s.pairs ++ block.map .ofPair⟩

@[simp] theorem DumpState.extend_nil (s : DumpState) : s.extend [] = s := by
  simp [extend]

theorem DumpState.extend_append (s : DumpState) (block more : List Pair) :
    (s.extend block).extend more = s.extend (block ++ more) := by
  simp [extend,add_assoc]

theorem scanPairs_stop (rest : Bytes) (s : DumpState) : scanPairs (0::rest) s = pure (some s) := by
  rw [scanPairs]
  split
  · rename_i h
    cases h.symm.trans (readString_zero rest)
  · rename_i key h
    obtain rfl := Option.some.inj (h.symm.trans (readString_zero rest))
    rfl

private theorem scanPairs_unterminated {rest : Bytes} (h : 0 ∉ rest) (s : DumpState) :
    scanPairs rest s = undefined := by
  have hr := readString_eq_none.mpr h
  rw [scanPairs]
  split
  · rfl
  · rename_i key hk
    cases hk.symm.trans hr

theorem key_length_gt {key : CString} (h : key ≠ .empty) : key.length + 1 > 1 := by
  have := mt CString.length_eq_zero.mp h
  omega

theorem drop_stored (s : CString) (rest : Bytes) :
    (s.stored ++ rest).drop (s.length + 1) = rest := by
  rw [← s.length_stored]
  exact List.drop_left

theorem copyFound_succeeds (p : Pair) (s : DumpState) :
    Succeeds (copyFound p.1 p.2 s) (some (s.extend [p])) := by
  apply malloc_succeeds.bind
  apply (strdup_succeeds _).bind
  apply malloc_succeeds.bind
  exact (strdup_succeeds _).bind (.pure _)

theorem scanPairs_encoded {p : Pair} (hk : p.1 ≠ .empty) (rest : Bytes) (s : DumpState) :
    scanPairs (encodePair p ++ rest) s =
      (copyFound p.1 p.2 s >>= fun
        | none => pure none
        | some s => scanPairs rest s) := by
  have hr := readString_stored p.1 (p.2.stored ++ rest)
  rw [encodePair,List.append_assoc,scanPairs]
  split
  · rename_i h
    cases h.symm.trans hr
  · rename_i key h
    obtain rfl := Option.some.inj (h.symm.trans hr)
    have hvalue := readString_stored p.2 rest
    rw [if_pos (key_length_gt hk)]
    dsimp only
    rw [drop_stored]
    split
    · rename_i h
      cases h.symm.trans hvalue
    · rename_i value h
      obtain rfl := Option.some.inj (h.symm.trans hvalue)
      refine congrArg (copyFound p.1 p.2 s >>= ·) (funext fun o => ?_)
      cases o with
      | none => rfl
      | some s => exact congrArg (scanPairs · s) (drop_stored p.2 rest)

/-- A pair with a key is copied and the scan goes on behind it. -/
theorem scanPairs_pair {p : Pair} (hk : p.1 ≠ .empty) (rest : Bytes) (s : DumpState) :
    scanPairs (encodePair p ++ rest) s [] = scanPairs rest (s.extend [p]) [] := by
  rw [scanPairs_encoded hk,(copyFound_succeeds p s).bind_apply]

private theorem scanPairs_pairs {block : List Pair} (hk : ∀ p ∈ block, p.1 ≠ .empty) (rest : Bytes)
    (s : DumpState) : scanPairs (encodePairs block ++ rest) s [] = scanPairs rest (s.extend block) [] := by
  induction block generalizing s with
  | nil => simp
  | cons p block ih =>
    rw [encodePairs_cons,List.append_assoc,scanPairs_pair (hk p List.mem_cons_self),
      ih (fun q hq => hk q (List.mem_cons_of_mem p hq)),DumpState.extend_append]
    rfl

/-- The block comes back whole: no key stops the scan early and a zero follows. -/
structure Readable (extra : UInt8) (fill : ℕ) (block : List Pair) : Prop where
  keys : ∀ p ∈ block, p.1 ≠ .empty
  fits : fill ≤ maxMsgSize
  ends : fill = maxMsgSize → extra = 0

theorem padding_head {extra : UInt8} {fill : ℕ} (h : fill ≤ maxMsgSize)
    (he : fill = maxMsgSize → extra = 0) : ∃ rest, padding extra fill = 0::rest := by
  rcases Nat.lt_or_eq_of_le h with hlt | heq
  · obtain ⟨n,hn⟩ := Nat.exists_eq_add_of_lt hlt
    refine ⟨List.replicate n 0 ++ [extra],?_⟩
    rw [padding,show maxMsgSize - fill = n + 1 by omega,List.replicate_succ,List.cons_append]
  · refine ⟨[],?_⟩
    rw [padding,heq,Nat.sub_self,he heq]
    rfl

theorem Readable.scan {extra : UInt8} {fill : ℕ} {block : List Pair} (h : Readable extra fill block)
    (s : DumpState) :
    Succeeds (scanPairs (encodePairs block ++ padding extra fill) s) (some (s.extend block)) := by
  obtain ⟨rest,hr⟩ := padding_head h.fits h.ends
  rw [Succeeds,scanPairs_pairs h.keys,hr,scanPairs_stop]
  rfl

/-- An empty key ends the scan with the pairs in front of it. -/
theorem scanPairs_empty_key {block : List Pair} (h : ¬∀ p ∈ block, p.1 ≠ .empty) (rest : Bytes)
    (s : DumpState) : ∃ front : List Pair, front.length < block.length ∧
      Succeeds (scanPairs (encodePairs block ++ rest) s) (some (s.extend front)) := by
  induction block generalizing s with
  | nil => exact absurd (fun p hp => absurd hp List.not_mem_nil) h
  | cons p block ih =>
    by_cases hp : p.1 = .empty
    · refine ⟨[],Nat.succ_pos _,?_⟩
      have hz : encodePairs (p::block) ++ rest = 0::(p.2.stored ++ encodePairs block ++ rest) := by
        simp [encodePair,CString.stored,hp]
      rw [Succeeds,hz,scanPairs_stop,DumpState.extend_nil]
      rfl
    · have hblock : ¬∀ q ∈ block, q.1 ≠ .empty := fun hall =>
        h (List.forall_mem_cons.mpr ⟨hp,hall⟩)
      obtain ⟨front,hlen,hscan⟩ := ih hblock (s.extend [p])
      refine ⟨p::front,Nat.succ_lt_succ hlen,?_⟩
      rw [DumpState.extend_append] at hscan
      rw [Succeeds,encodePairs_cons,List.append_assoc,scanPairs_pair hp]
      exact hscan

/-- What a scan that goes through says about the block. -/
structure Scanned (extra : UInt8) (fill : ℕ) (block : List Pair) (s s' : DumpState) : Prop where
  nbrPairs : s'.nbrPairs = s.nbrPairs
  count_ge : s.count ≤ s'.count
  count_le : s'.count ≤ s.count + block.length
  readable : s'.count = s.count + block.length → Readable extra fill block

theorem scanned_of_scan {extra : UInt8} {fill : ℕ} {block : List Pair} (hfill : fill ≤ maxMsgSize)
    {s : DumpState} {found : Option DumpState} {as : Outcomes}
    (h : scanPairs (encodePairs block ++ padding extra fill) s [] = some (found,as)) :
    as = [] ∧ ∃ s', found = some s' ∧ Scanned extra fill block s s' := by
  by_cases hk : ∀ p ∈ block, p.1 ≠ .empty
  · by_cases he : fill = maxMsgSize → extra = 0
    · have hread : Readable extra fill block := ⟨hk,hfill,he⟩
      obtain ⟨rfl,rfl⟩ := Prod.mk.inj (Option.some.inj (h.symm.trans (hread.scan s)))
      exact ⟨rfl,_,rfl,rfl,by simp [DumpState.extend],le_rfl,fun _ => hread⟩
    · obtain ⟨hfull,hextra⟩ := Classical.not_imp.mp he
      have hz : 0 ∉ padding extra fill := by
        rw [padding,hfull,Nat.sub_self]
        simpa [eq_comm] using hextra
      rw [scanPairs_pairs hk,scanPairs_unterminated hz] at h
      exact absurd h nofun
  · obtain ⟨front,hlen,hscan⟩ := scanPairs_empty_key hk (padding extra fill) s
    obtain ⟨rfl,rfl⟩ := Prod.mk.inj (Option.some.inj (h.symm.trans hscan))
    refine ⟨rfl,_,rfl,rfl,by simp [DumpState.extend],?_,fun hc => ?_⟩
    · simp only [DumpState.extend]
      omega
    · simp only [DumpState.extend] at hc
      omega

end PpsDht
