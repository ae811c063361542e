import PpsDht.DumpReads

/-! # When the receiver reads only what was written

For one block the reads stay below the last byte of the array exactly if the scan ends early,
and then what is collected does not depend on that byte. From there along the datagrams, as
long as the announced pairs are not all counted. -/
namespace PpsDht
open Mem GreedyPacking DumpSequence

/-- A block that ends early is read below the last byte, whatever allocations fail. -/
theorem scanReads_written {extra : UInt8} {i fill : ℕ} {block : List Pair} (hfill : i + total cost block = fill)
    (hmax : fill ≤ maxMsgSize) (h : EndsEarly fill block) (s : DumpState) (outcomes : Outcomes) :
    ∀ read ∈ scanReads i (encodePairs block ++ padding extra fill) s outcomes, read.Written := by
  induction block generalizing i s outcomes with
  | nil =>
    have hlt : fill < maxMsgSize := h.resolve_right fun ⟨p,hp,_⟩ => List.not_mem_nil hp
    obtain ⟨rest,hrest⟩ := h.padding extra
    rw [total_nil,Nat.add_zero] at hfill
    rw [encodePairs_nil,List.nil_append,hrest,scanReads_stop,List.forall_mem_singleton,ArrayRead.written_mk]
    omega
  | cons p block ih =>
    rw [total_cons,cost] at hfill
    by_cases hk : p.1 = .empty
    · obtain ⟨rest,hrest⟩ := encoded_empty hk block (padding extra fill)
      rw [hrest,scanReads_stop,List.forall_mem_singleton,ArrayRead.written_mk]
      omega
    · rw [encodePairs_cons,List.append_assoc,scanReads_pair hk,List.forall_mem_cons,List.forall_mem_cons]
      refine ⟨?_,?_,?_⟩
      · rw [ArrayRead.written_mk]
        omega
      · rw [ArrayRead.written_mk]
        omega
      · rw [readsAfter.eq_def]
        split
        · exact ih (by rw [cost]; omega) (h.tail hk) _ _
        · exact fun _ hr => absurd hr List.not_mem_nil

/-- A full block without an empty key has the last byte read. -/
theorem scanReads_unwritten (extra : UInt8) {i : ℕ} {block : List Pair} (hfill : i + total cost block = maxMsgSize)
    (hkeys : ∀ p ∈ block, p.1 ≠ .empty) (s : DumpState) :
    ∃ read ∈ scanReads i (encodePairs block ++ padding extra maxMsgSize) s [], ¬read.Written := by
  induction block generalizing i s with
  | nil =>
    refine ⟨_,strlenRead_mem i _ s [],?_⟩
    rw [total_nil,Nat.add_zero] at hfill
    rw [strlenRead,ArrayRead.written_mk,hfill]
    split <;> omega
  | cons p block ih =>
    have hk := hkeys p List.mem_cons_self
    rw [total_cons] at hfill
    obtain ⟨read,hread,hbad⟩ := @ih (i + cost p) (by omega) (fun q hq => hkeys q (List.mem_cons_of_mem p hq))
      (s.extend [p])
    refine ⟨read,?_,hbad⟩
    rw [encodePairs_cons,List.append_assoc,scanReads_pair hk,show copyFound p.1 p.2 s [] = _ from copyFound_succeeds p s]
    exact List.mem_cons_of_mem _ (List.mem_cons_of_mem _ hread)

/-- The reads of a block are all written exactly if it ends early. -/
theorem scanReads_written_iff (extra : UInt8) {i fill : ℕ} {block : List Pair} (hfill : i + total cost block = fill)
    (hmax : fill ≤ maxMsgSize) (s : DumpState) :
    (∀ read ∈ scanReads i (encodePairs block ++ padding extra fill) s [], read.Written) ↔ EndsEarly fill block := by
  refine ⟨fun h => ?_,fun h => scanReads_written hfill hmax h s []⟩
  by_contra hlate
  obtain ⟨hfull,hkeys⟩ := not_or.mp hlate
  obtain rfl : fill = maxMsgSize := le_antisymm hmax (Nat.le_of_not_lt hfull)
  obtain ⟨read,hread,hbad⟩ := scanReads_unwritten extra hfill (fun p hp he => hkeys ⟨p,hp,he⟩) s
  exact hbad (h read hread)

/-- The scan of a block that ends early takes up the pairs in front of an empty key. -/
theorem scanPairs_leading {extra : UInt8} {fill : ℕ} {block : List Pair} (h : EndsEarly fill block) (s : DumpState) :
    Succeeds (scanPairs (encodePairs block ++ padding extra fill) s) (some (s.extend (leading block))) := by
  induction block generalizing s with
  | nil =>
    obtain ⟨rest,hrest⟩ := h.padding extra
    rw [encodePairs_nil,List.nil_append,hrest,scanPairs_stop,leading,List.takeWhile_nil,DumpState.extend_nil]
    exact .pure _
  | cons p block ih =>
    by_cases hk : p.1 = .empty
    · obtain ⟨rest,hrest⟩ := encoded_empty hk block (padding extra fill)
      rw [hrest,scanPairs_stop,leading_empty hk,DumpState.extend_nil]
      exact .pure _
    · have hrest := ih (h.tail hk) (s.extend [p])
      rw [DumpState.extend_append] at hrest
      rw [Succeeds,encodePairs_cons,List.append_assoc,scanPairs_pair hk,leading_cons hk]
      exact hrest

/-- Whatever allocations fail, they are counted unless the program ends. -/
theorem scanPairs_returns {extra : UInt8} {fill : ℕ} {block : List Pair} (h : EndsEarly fill block) (s : DumpState) :
    Returns (scanPairs (encodePairs block ++ padding extra fill) s) fun found =>
      ∀ s', found = some s' → s'.nbrPairs = s.nbrPairs ∧ s'.count = s.count + (leading block).length := by
  induction block generalizing s with
  | nil =>
    obtain ⟨rest,hrest⟩ := h.padding extra
    rw [encodePairs_nil,List.nil_append,hrest,scanPairs_stop]
    refine .pure fun s' hs => ?_
    obtain rfl := Option.some.inj hs
    exact ⟨rfl,by simp [leading]⟩
  | cons p block ih =>
    by_cases hk : p.1 = .empty
    · obtain ⟨rest,hrest⟩ := encoded_empty hk block (padding extra fill)
      rw [hrest,scanPairs_stop,leading_empty hk]
      refine .pure fun s' hs => ?_
      obtain rfl := Option.some.inj hs
      exact ⟨rfl,by simp⟩
    · rw [encodePairs_cons,List.append_assoc,scanPairs_encoded hk,leading_cons hk,List.length_cons]
      apply (copyFound_returns p.1 p.2 s).bind
      intro found hfound
      cases found with
      | none => exact .pure nofun
      | some s₁ =>
        obtain ⟨hnbr,hcount⟩ := hfound s₁ rfl
        intro outcomes
        obtain ⟨found,rest,hscan,hresult⟩ := ih (h.tail hk) s₁ outcomes
        refine ⟨found,rest,hscan,fun s' hs => ?_⟩
        obtain ⟨hnbr',hcount'⟩ := hresult s' hs
        exact ⟨hnbr'.trans hnbr,by omega⟩

/-- What is collected from a block that ends early does not depend on the last byte. -/
theorem scanPairs_extra {fill : ℕ} {block : List Pair} (h : EndsEarly fill block) (extra extra' : UInt8) (s : DumpState) :
    scanPairs (encodePairs block ++ padding extra fill) s = scanPairs (encodePairs block ++ padding extra' fill) s := by
  induction block generalizing s with
  | nil =>
    obtain ⟨rest,hrest⟩ := h.padding extra
    obtain ⟨rest',hrest'⟩ := h.padding extra'
    rw [encodePairs_nil,List.nil_append,List.nil_append,hrest,hrest',scanPairs_stop,scanPairs_stop]
  | cons p block ih =>
    by_cases hk : p.1 = .empty
    · obtain ⟨rest,hrest⟩ := encoded_empty hk block (padding extra fill)
      obtain ⟨rest',hrest'⟩ := encoded_empty hk block (padding extra' fill)
      rw [hrest,hrest',scanPairs_stop,scanPairs_stop]
    · rw [encodePairs_cons,List.append_assoc,List.append_assoc,scanPairs_encoded hk,scanPairs_encoded hk]
      refine congrArg (copyFound p.1 p.2 s >>= ·) (funext fun found => ?_)
      cases found with
      | none => rfl
      | some s => exact ih (h.tail hk) s

section Turns

variable {extra : UInt8} {b : List Pair} {blocks : List (List Pair)} {s : DumpState}

private theorem receiveReads_next (hne : b ≠ []) (hfit : total cost b ≤ maxMsgSize) (ds : List Datagram) (h₀ : 0 ≤ s.count)
    (h : s.count < s.nbrPairs) (outcomes : Outcomes) :
    receiveReads extra ((encodePairs b).dropLast::ds) s outcomes =
      scanReads 0 (encodePairs b ++ padding extra (total cost b)) s outcomes ++
        readsAfter (receiveReads extra ds) (scanPairs (encodePairs b ++ padding extra (total cost b)) s outcomes) := by
  have hf : s.count ≠ -1 := by omega
  rw [receiveReads,if_pos h]
  dsimp only
  rw [if_neg hf,if_neg hf,List.drop_zero,answerArray_block extra hne hfit]

private theorem receiveReads_done (ds : List Datagram) (h : ¬s.count < s.nbrPairs) (outcomes : Outcomes) :
    receiveReads extra ds s outcomes = [] := by
  cases ds with
  | nil => rfl
  | cons d ds => rw [receiveReads,if_neg h]

/-- As long as the blocks end early all reads are written. -/
theorem receiveReads_written (hne : ∀ b ∈ blocks, b ≠ []) (hfit : ∀ b ∈ blocks, total cost b ≤ maxMsgSize)
    (h₀ : 0 ≤ s.count) (h : BlocksEndEarly s.nbrPairs s.count blocks) (outcomes : Outcomes) :
    ∀ read ∈ receiveReads extra (blocks.map fun b => (encodePairs b).dropLast) s outcomes, read.Written := by
  induction blocks generalizing s outcomes with
  | nil => exact fun _ hr => absurd hr List.not_mem_nil
  | cons b blocks ih =>
    by_cases hlt : s.count < s.nbrPairs
    · obtain ⟨hearly,hrest⟩ := h hlt
      have hb := hfit b List.mem_cons_self
      intro read hread
      rw [List.map_cons,receiveReads_next (hne b List.mem_cons_self) hb _ h₀ hlt] at hread
      rcases List.mem_append.mp hread with hread | hread
      · exact scanReads_written (Nat.zero_add _) hb hearly s outcomes read hread
      · obtain ⟨found,rest,hscan,hresult⟩ := @scanPairs_returns extra _ _ hearly s outcomes
        rw [hscan] at hread
        cases found with
        | none => exact absurd hread List.not_mem_nil
        | some s' =>
          obtain ⟨hnbr,hcount⟩ := hresult s' rfl
          exact ih (fun c hc => hne c (List.mem_cons_of_mem b hc)) (fun c hc => hfit c (List.mem_cons_of_mem b hc))
            (by omega) (by rwa [hnbr,hcount]) rest read hread
    · rw [receiveReads_done _ hlt]
      exact fun _ hr => absurd hr List.not_mem_nil

/-- With the allocations succeeding they have to. -/
theorem endEarly_of_written (hne : ∀ b ∈ blocks, b ≠ []) (hfit : ∀ b ∈ blocks, total cost b ≤ maxMsgSize)
    (h₀ : 0 ≤ s.count)
    (h : ∀ read ∈ receiveReads extra (blocks.map fun b => (encodePairs b).dropLast) s [], read.Written) :
    BlocksEndEarly s.nbrPairs s.count blocks := by
  induction blocks generalizing s with
  | nil => trivial
  | cons b blocks ih =>
    intro hlt
    have hb := hfit b List.mem_cons_self
    rw [List.map_cons,receiveReads_next (hne b List.mem_cons_self) hb _ h₀ hlt] at h
    have hearly := (scanReads_written_iff extra (Nat.zero_add _) hb s).mp fun read hread =>
      h read (List.mem_append_left _ hread)
    refine ⟨hearly,?_⟩
    have hrest := ih (s := s.extend (leading b)) (fun c hc => hne c (List.mem_cons_of_mem b hc))
      (fun c hc => hfit c (List.mem_cons_of_mem b hc)) (by simp only [DumpState.extend]; omega) fun read hread => by
        refine h read (List.mem_append_right _ ?_)
        rw [show scanPairs _ s [] = _ from scanPairs_leading hearly s]
        exact hread
    exact hrest

/-- What is received does not depend on the last byte. -/
theorem receiveDump_extra (hne : ∀ b ∈ blocks, b ≠ []) (hfit : ∀ b ∈ blocks, total cost b ≤ maxMsgSize)
    (h₀ : 0 ≤ s.count) (h : BlocksEndEarly s.nbrPairs s.count blocks) (extra extra' : UInt8) (outcomes : Outcomes) :
    receiveDump extra (blocks.map fun b => (encodePairs b).dropLast) s outcomes =
      receiveDump extra' (blocks.map fun b => (encodePairs b).dropLast) s outcomes := by
  induction blocks generalizing s outcomes with
  | nil => rfl
  | cons b blocks ih =>
    by_cases hlt : s.count < s.nbrPairs
    · obtain ⟨hearly,hrest⟩ := h hlt
      have hb := hfit b List.mem_cons_self
      have hneb := hne b List.mem_cons_self
      obtain ⟨found,rest,hscan,hresult⟩ := @scanPairs_returns extra _ _ hearly s outcomes
      have hscan' := hscan
      rw [scanPairs_extra hearly extra extra'] at hscan'
      rw [List.map_cons,receiveDump_next extra _ _ h₀ hlt,receiveDump_next extra' _ _ h₀ hlt,
        answerArray_block extra hneb hb,answerArray_block extra' hneb hb,bind_apply hscan,bind_apply hscan']
      cases found with
      | none => rfl
      | some s' =>
        obtain ⟨hnbr,hcount⟩ := hresult s' rfl
        exact ih (fun c hc => hne c (List.mem_cons_of_mem b hc)) (fun c hc => hfit c (List.mem_cons_of_mem b hc))
          (by omega) (by rwa [hnbr,hcount]) rest
    · rw [List.map_cons,receiveDump,receiveDump,if_neg hlt,if_neg hlt]

end Turns

namespace DumpSequence

/-- The array as it is scanned in the first turn. -/
theorem dumpReads_datagrams (q : DumpSequence) (extra : UInt8) (outcomes : Outcomes) :
    let scanned := encodePairs q.first ++ padding extra (4 + total cost q.first)
    let start : DumpState := ⟨announced q.nbrPairs q.first,0,[]⟩
    dumpReads extra q.datagrams outcomes = scanReads 4 scanned start outcomes ++
      readsAfter (receiveReads extra (q.blocks.map fun b => (encodePairs b).dropLast))
        (scanPairs scanned start outcomes) := by
  obtain ⟨header,hlen,hannounced,harray⟩ := answerArray_first extra q.nbrPairs_lt (Or.inr q.first_fits)
  have hfirst : dumpReads extra q.datagrams outcomes =
      scanReads 4 ((answerArray extra (htonl q.nbrPairs ++ encodePairs q.first).dropLast).drop 4)
          ⟨ntohl ((answerArray extra (htonl q.nbrPairs ++ encodePairs q.first).dropLast).take 4),0,[]⟩ outcomes ++
        readsAfter (receiveReads extra (q.blocks.map fun b => (encodePairs b).dropLast))
          (scanPairs ((answerArray extra (htonl q.nbrPairs ++ encodePairs q.first).dropLast).drop 4)
            ⟨ntohl ((answerArray extra (htonl q.nbrPairs ++ encodePairs q.first).dropLast).take 4),0,[]⟩ outcomes) := rfl
  rw [hfirst,harray,← hannounced,← hlen,List.take_left,List.drop_left]

private theorem dumpNode_datagrams (q : DumpSequence) {extra : UInt8} {outcomes rest : Outcomes} {found : Option DumpState}
    (hscan : scanPairs (encodePairs q.first ++ padding extra (4 + total cost q.first))
      ⟨announced q.nbrPairs q.first,0,[]⟩ outcomes = some (found,rest)) :
    dumpNode extra q.datagrams outcomes = found.elim (pure .exited)
      (receiveDump extra (q.blocks.map fun b => (encodePairs b).dropLast)) rest := by
  obtain ⟨header,hlen,hannounced,harray⟩ := answerArray_first extra q.nbrPairs_lt (Or.inr q.first_fits)
  rw [datagrams,dumpNode_first,harray,List.take_left' hlen,List.drop_left' hlen,hannounced,bind_apply hscan]
  cases found <;> rfl

private theorem reads_written {q : DumpSequence} (h : q.ReceivedEndEarly) (extra : UInt8) (outcomes : Outcomes) :
    ∀ read ∈ dumpReads extra q.datagrams outcomes, read.Written := by
  obtain ⟨hearly,hrest⟩ := h
  intro read hread
  rw [dumpReads_datagrams] at hread
  rcases List.mem_append.mp hread with hread | hread
  · exact scanReads_written rfl q.first_fits hearly _ outcomes read hread
  · obtain ⟨found,rest,hscan,hresult⟩ := @scanPairs_returns extra _ _ hearly
      ⟨announced q.nbrPairs q.first,0,[]⟩ outcomes
    rw [hscan] at hread
    cases found with
    | none => exact absurd hread List.not_mem_nil
    | some s =>
      obtain ⟨hnbr,hcount⟩ := hresult s rfl
      rw [Int.zero_add] at hcount
      exact receiveReads_written q.blocks_ne q.blocks_fit (by omega) (by rwa [hnbr,hcount]) rest read hread

private theorem dumpNode_extra {q : DumpSequence} (h : q.ReceivedEndEarly) (extra extra' : UInt8) :
    dumpNode extra q.datagrams = dumpNode extra' q.datagrams := by
  obtain ⟨hearly,hrest⟩ := h
  funext outcomes
  obtain ⟨found,rest,hscan,hresult⟩ := @scanPairs_returns extra _ _ hearly ⟨announced q.nbrPairs q.first,0,[]⟩ outcomes
  have hscan' := hscan
  rw [scanPairs_extra hearly extra extra'] at hscan'
  rw [q.dumpNode_datagrams hscan,q.dumpNode_datagrams hscan']
  cases found with
  | none => rfl
  | some s =>
    obtain ⟨hnbr,hcount⟩ := hresult s rfl
    rw [Int.zero_add] at hcount
    exact receiveDump_extra q.blocks_ne q.blocks_fit (by omega) (by rwa [hnbr,hcount]) extra extra' rest

private theorem receivedEndEarly {q : DumpSequence} {extra : UInt8}
    (h : ∀ read ∈ dumpReads extra q.datagrams [], read.Written) : q.ReceivedEndEarly := by
  rw [dumpReads_datagrams] at h
  have hearly := (scanReads_written_iff extra rfl q.first_fits _).mp fun read hread =>
    h read (List.mem_append_left _ hread)
  refine ⟨hearly,?_⟩
  have hscan := @scanPairs_leading extra _ _ hearly ⟨announced q.nbrPairs q.first,0,[]⟩
  have hrest := @endEarly_of_written extra q.blocks (DumpState.extend ⟨announced q.nbrPairs q.first,0,[]⟩ (leading q.first))
    q.blocks_ne q.blocks_fit (by simp only [DumpState.extend]; omega) fun read hread => by
      refine h read (List.mem_append_right _ ?_)
      rw [show scanPairs _ _ [] = _ from hscan]
      exact hread
  rwa [DumpState.extend,Int.zero_add] at hrest

/-- All that the receiver reads has been written, and what it collects does not depend on the
initial content of its array, exactly if each block that it takes in leaves the last two bytes
of the array free or has an empty key. -/
theorem reads_written_iff (q : DumpSequence) :
    ((∀ extra outcomes, ∀ read ∈ dumpReads extra q.datagrams outcomes, read.Written) ∧
        ∀ extra extra', dumpNode extra q.datagrams = dumpNode extra' q.datagrams) ↔ q.ReceivedEndEarly :=
  ⟨fun h => receivedEndEarly (h.1 0 []),fun h => ⟨reads_written h,dumpNode_extra h⟩⟩

end DumpSequence

/-- A pair of 65503 bytes with both terminators, which just fits beside the header. -/
def fillsBuffer : Pair := letterPair 65500

private theorem fillsBuffer_cost : cost fillsBuffer = 65503 := by
  rw [cost,fillsBuffer,letterPair_key,letterPair_value]

/-- Its dump is one datagram of the greatest length. The receiver goes on to the last byte of
its array, and whether it comes to an end depends on what the stack holds there. -/
theorem fillsBuffer_reads :
    Succeeds (sendPairs ([fillsBuffer].map .ofPair)) (dumpDatagrams [fillsBuffer]) ∧
      (∀ d ∈ dumpDatagrams [fillsBuffer], d.length ≤ maxMsgSize - 1) ∧
      (∃ read ∈ dumpReads 1 (dumpDatagrams [fillsBuffer]) [], ¬read.Written) ∧
      dumpNode 0 (dumpDatagrams [fillsBuffer]) ≠ dumpNode 1 (dumpDatagrams [fillsBuffer]) := by
  have hfit : ∀ p ∈ [fillsBuffer], cost p ≤ maxMsgSize := by
    rw [List.forall_mem_singleton,fillsBuffer_cost]
    decide
  have hpack : pack maxMsgSize cost 4 [fillsBuffer] = ([fillsBuffer],[]) := by
    rw [pack,fillsBuffer_cost,if_neg (by decide)]
    rfl
  have htotal : 4 + total cost [fillsBuffer] = maxMsgSize := by
    rw [total_cons,total_nil,fillsBuffer_cost]
    rfl
  have hkeys : ∀ p ∈ [fillsBuffer], p.1 ≠ .empty := by
    rw [List.forall_mem_singleton]
    exact (by decide : CString.letterK ≠ .empty)
  let q : DumpSequence := ⟨1,[fillsBuffer],[],by decide,htotal.le,by simp,by simp⟩
  have hq : dumpDatagrams [fillsBuffer] = q.datagrams := by
    rw [dumpDatagrams_eq,hpack]
    rfl
  refine ⟨sendPairs_succeeds hfit,?_,?_,fun heq => ?_⟩
  · have hheader : (htonl q.nbrPairs).length = 4 := rfl
    have hlen : (htonl q.nbrPairs ++ encodePairs q.first).length = maxMsgSize := by
      rw [List.length_append,length_encodePairs,hheader,htotal]
    rw [hq,DumpSequence.datagrams,List.map_nil,List.forall_mem_singleton,List.length_dropLast,hlen]
  · obtain ⟨read,hread,hbad⟩ := @scanReads_unwritten 1 4 [fillsBuffer] htotal hkeys ⟨announced 1 [fillsBuffer],0,[]⟩
    refine ⟨read,?_,hbad⟩
    rw [hq,q.dumpReads_datagrams]
    refine List.mem_append_left _ ?_
    change read ∈ scanReads 4 (encodePairs [fillsBuffer] ++ padding 1 (4 + total cost [fillsBuffer])) _ []
    rwa [htotal]
  · have hfills : maxMsgSize ∈ fills maxMsgSize cost 4 [fillsBuffer] := by
      simp only [fills,hpack,htotal]
      exact List.mem_cons_self
    have hcomplete : Completes 0 1 (dumpDatagrams [fillsBuffer]) := (completes_iff hfit).mpr
      ⟨by decide,hkeys,hfit,fun p hp => Or.inl (by rw [← Option.some.inj hp,fillsBuffer_cost]; decide),Or.inl rfl⟩
    have hother : Completes 1 1 (dumpDatagrams [fillsBuffer]) := by
      rw [Completes,← heq]
      exact hcomplete
    rcases ((completes_iff hfit).mp hother).ends with h | h
    · exact absurd h (by decide)
    · exact h hfills

end PpsDht
