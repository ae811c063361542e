import PpsDht.DumpCompletion

/-! # Which bytes the receiver of a dump reads

`memset` and `recv` write the array up to its last byte. The strings are read with `strlen`
and then copied with `strdup`, from the same bytes. A block that fills its buffer leaves
the cursor on the last byte of the array when its pairs have been read. -/
namespace PpsDht
open Mem GreedyPacking

/-- `size` bytes of `ans` from `index` on. -/
structure ArrayRead where
  index : ℕ
  size : ℕ
  deriving DecidableEq

/-- All of these bytes have been written since the start of the turn. -/
def ArrayRead.Written (read : ArrayRead) : Prop := read.index + read.size ≤ maxMsgSize

theorem ArrayRead.written_mk (index size : ℕ) : (ArrayRead.mk index size).Written ↔ index + size ≤ maxMsgSize := Iff.rfl

/-- What `strlen` reads from an index on, where `rest` is left of the array: up to the
terminator, and without one past the end. -/
def strlenRead (index : ℕ) (rest : Bytes) : ArrayRead :=
  ⟨index,match readString rest with | some s => s.length + 1 | none => rest.length + 1⟩

/-- The reads that follow a part of the loop, none when the program has ended there. -/
def readsAfter (reads : DumpState → Outcomes → List ArrayRead) : Option (Option DumpState × Outcomes) → List ArrayRead
  | some (some s,outcomes) => reads s outcomes
  | _ => []

/-- The reads of the scanning loop from `current_idx` on, as `scanPairs` goes through the array. -/
def scanReads (currentIdx : ℕ) (rest : Bytes) (s : DumpState) (outcomes : Outcomes) : List ArrayRead :=
  match _ : readString rest with
  | none => [strlenRead currentIdx rest]
  | some key =>
    if key.length + 1 > 1 then
      let rest' := rest.drop (key.length + 1)
      let valueIdx := currentIdx + (key.length + 1)
      match readString rest' with
      | none => [strlenRead currentIdx rest,strlenRead valueIdx rest']
      | some value =>
        strlenRead currentIdx rest::strlenRead valueIdx rest'::
          readsAfter (scanReads (valueIdx + (value.length + 1)) (rest'.drop (value.length + 1)))
            (copyFound key value s outcomes)
    else [strlenRead currentIdx rest]
termination_by rest.length
decreasing_by
  have := length_lt_of_readString ‹readString rest = some key›
  simp only [List.length_drop]
  omega

/-- The reads of all turns of the receive loop. -/
def receiveReads (extra : UInt8) : List Datagram → DumpState → Outcomes → List ArrayRead
  | [], _, _ => []
  | d::ds, s, outcomes =>
    if s.count < s.nbrPairs then
      let ans := answerArray extra d
      let first := s.count = -1
      let s := if first then { s with nbrPairs := ntohl (ans.take 4), count := s.count + 1 } else s
      let currentIdx := if first then 4 else 0
      scanReads currentIdx (ans.drop currentIdx) s outcomes ++
        readsAfter (receiveReads extra ds) (scanPairs (ans.drop currentIdx) s outcomes)
    else []

def dumpReads (extra : UInt8) (ds : List Datagram) (outcomes : Outcomes) : List ArrayRead :=
  receiveReads extra ds ⟨0,-1,[]⟩ outcomes

/-- Filled buffers in front of which the first has the header, each sent without its last zero. -/
structure DumpSequence where
  nbrPairs : ℕ
  first : List Pair
  blocks : List (List Pair)
  nbrPairs_lt : nbrPairs < 2^32
  first_fits : 4 + total cost first ≤ maxMsgSize
  blocks_ne : ∀ b ∈ blocks, b ≠ []
  blocks_fit : ∀ b ∈ blocks, total cost b ≤ maxMsgSize

namespace DumpSequence

def datagrams (q : DumpSequence) : List Datagram :=
  (htonl q.nbrPairs ++ encodePairs q.first).dropLast::q.blocks.map fun b => (encodePairs b).dropLast

/-- The pairs of a block in front of an empty key. -/
def leading (block : List Pair) : List Pair := block.takeWhile (·.1 ≠ .empty)

/-- The scan of a block ends before the last byte of the array: its buffer was not full, or an
empty key stands in it. -/
def EndsEarly (fill : ℕ) (block : List Pair) : Prop := fill < maxMsgSize ∨ ∃ p ∈ block, p.1 = .empty

/-- Each block that comes before all pairs have been counted ends early. -/
def BlocksEndEarly (nbrPairs : ℕ) : ℤ → List (List Pair) → Prop
  | _, [] => True
  | count, b::blocks => count < nbrPairs →
      EndsEarly (total cost b) b ∧ BlocksEndEarly nbrPairs (count + (leading b).length) blocks

def ReceivedEndEarly (q : DumpSequence) : Prop :=
  EndsEarly (4 + total cost q.first) q.first ∧
    BlocksEndEarly (announced q.nbrPairs q.first) (leading q.first).length q.blocks

end DumpSequence

/-- What a server sends for pairs that fit its buffer is such a sequence. -/
theorem dumpDatagrams_sequence {pairs : List Pair} (hfit : ∀ p ∈ pairs, cost p ≤ maxMsgSize) :
    ∃ q : DumpSequence, q.datagrams = dumpDatagrams pairs := by
  have hblocks := pack_blocks maxMsgSize cost 4 pairs
  refine ⟨⟨pairs.length % 2^32,(pack maxMsgSize cost 4 pairs).1,(pack maxMsgSize cost 4 pairs).2,
    Nat.mod_lt _ (by decide),?_,fun b hb => (hblocks b hb).1,fun b hb => ?_⟩,(dumpDatagrams_eq pairs).symm⟩
  · rcases pack_open maxMsgSize cost 4 pairs with hnil | hlim
    · rw [hnil]
      decide
    · exact hlim
  · exact (hblocks b hb).2.resolve_right fun ⟨p,hmem,_,hbig⟩ => absurd (hfit p hmem) (Nat.not_le.mpr hbig)

private theorem strlenRead_stored (i : ℕ) (str : CString) (rest : Bytes) :
    strlenRead i (str.stored ++ rest) = ⟨i,str.length + 1⟩ := by
  rw [strlenRead,readString_stored]

/-- The scan always looks at the string under the cursor. -/
theorem strlenRead_mem (i : ℕ) (rest : Bytes) (s : DumpState) (outcomes : Outcomes) :
    strlenRead i rest ∈ scanReads i rest s outcomes := by
  rw [scanReads]
  split
  · exact List.mem_singleton_self _
  · split
    · dsimp only
      split <;> exact List.mem_cons_self
    · exact List.mem_singleton_self _

theorem scanReads_stop (i : ℕ) (rest : Bytes) (s : DumpState) (outcomes : Outcomes) :
    scanReads i (0::rest) s outcomes = [⟨i,1⟩] := by
  have hread : strlenRead i (0::rest) = ⟨i,1⟩ := strlenRead_stored i .empty rest
  rw [scanReads]
  split
  · rename_i h
    cases h.symm.trans (readString_zero rest)
  · rename_i key h
    obtain rfl := Option.some.inj (h.symm.trans (readString_zero rest))
    rw [if_neg (by decide),hread]

theorem scanReads_pair {p : Pair} (hk : p.1 ≠ .empty) (i : ℕ) (rest : Bytes) (s : DumpState) (outcomes : Outcomes) :
    scanReads i (encodePair p ++ rest) s outcomes =
      ⟨i,p.1.length + 1⟩::⟨i + (p.1.length + 1),p.2.length + 1⟩::
        readsAfter (scanReads (i + cost p) rest) (copyFound p.1 p.2 s outcomes) := by
  have hr := readString_stored p.1 (p.2.stored ++ rest)
  rw [encodePair,List.append_assoc,scanReads]
  split
  · rename_i h
    cases h.symm.trans hr
  · rename_i key h
    obtain rfl := Option.some.inj (h.symm.trans hr)
    have hvalue := readString_stored p.2 rest
    rw [if_pos (key_length_gt hk),strlenRead_stored]
    dsimp only
    rw [drop_stored,strlenRead_stored]
    split
    · rename_i h
      cases h.symm.trans hvalue
    · rename_i value h
      obtain rfl := Option.some.inj (h.symm.trans hvalue)
      rw [drop_stored,cost,Nat.add_assoc]

/-- A copied pair counts, whether or not its strings could be allocated. -/
theorem copyFound_returns (key value : CString) (s : DumpState) :
    Returns (copyFound key value s) fun found =>
      ∀ s', found = some s' → s'.nbrPairs = s.nbrPairs ∧ s'.count = s.count + 1 := by
  apply malloc_returns.bind
  intro ok _
  cases ok with
  | false => exact .pure nofun
  | true =>
    apply (strdup_returns key).bind
    intro newKey _
    apply malloc_returns.bind
    intro ok _
    cases ok with
    | false => exact .pure nofun
    | true =>
      apply (strdup_returns value).bind
      intro newValue _
      refine .pure fun s' h => ?_
      obtain rfl := Option.some.inj h
      exact ⟨rfl,rfl⟩

namespace DumpSequence

theorem EndsEarly.tail {fill : ℕ} {p : Pair} {block : List Pair} (h : EndsEarly fill (p::block)) (hk : p.1 ≠ .empty) :
    EndsEarly fill block := by
  refine h.imp_right fun ⟨q,hq,hempty⟩ => ?_
  rcases List.mem_cons.mp hq with rfl | hq
  · exact absurd hempty hk
  · exact ⟨q,hq,hempty⟩

/-- A zero follows the last pair. -/
theorem EndsEarly.padding {fill : ℕ} (h : EndsEarly fill []) (extra : UInt8) :
    ∃ rest, PpsDht.padding extra fill = 0::rest := by
  have hlt : fill < maxMsgSize := h.resolve_right fun ⟨p,hp,_⟩ => List.not_mem_nil hp
  exact padding_head hlt.le fun hfull => absurd hfull hlt.ne

theorem leading_empty {p : Pair} (hk : p.1 = .empty) (block : List Pair) : leading (p::block) = [] :=
  List.takeWhile_cons_of_neg (by simpa using hk)

theorem leading_cons {p : Pair} (hk : p.1 ≠ .empty) (block : List Pair) : leading (p::block) = p::leading block :=
  List.takeWhile_cons_of_pos (by simpa using hk)

theorem encoded_empty {p : Pair} (hk : p.1 = .empty) (block : List Pair) (rest : Bytes) :
    ∃ rest', encodePairs (p::block) ++ rest = 0::rest' :=
  ⟨p.2.stored ++ encodePairs block ++ rest,by simp [encodePair,CString.stored,hk]⟩

end DumpSequence

end PpsDht
