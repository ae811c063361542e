import PpsDht.DumpNode
import PpsDht.ServerRefinement

/-! # When a dump runs to completion

The header announces the number of pairs, but a first buffer that holds nothing
else is sent without the last header byte. Together with the conditions for
reading each block this decides exactly which tables can be dumped. -/
namespace PpsDht
open Mem GreedyPacking

theorem answerArray_block (extra : UInt8) {block : List Pair} (hne : block ≠ [])
    (h : total cost block ≤ maxMsgSize) :
    answerArray extra (encodePairs block).dropLast = encodePairs block ++ padding extra (total cost block) := by
  have hz := encodePairs_ends hne []
  rw [List.nil_append] at hz
  rw [answerArray_dropLast extra hz (by simpa using h),length_encodePairs]

private theorem Readable.scan_datagram {extra : UInt8} {block : List Pair} (hne : block ≠ [])
    (h : Readable extra (total cost block) block) (s : DumpState) :
    Succeeds (scanPairs (answerArray extra (encodePairs block).dropLast) s) (some (s.extend block)) := by
  rw [answerArray_block extra hne h.fits]
  exact h.scan s

theorem receiveDump_next (extra : UInt8) (d : Datagram) (ds : List Datagram) {s : DumpState}
    (h₀ : 0 ≤ s.count) (h : s.count < s.nbrPairs) :
    receiveDump extra (d::ds) s = (scanPairs (answerArray extra d) s >>= fun
      | none => pure .exited
      | some s => receiveDump extra ds s) := by
  have hf : s.count ≠ -1 := by omega
  rw [receiveDump,if_pos h]
  dsimp only
  rw [if_neg hf,if_neg hf]
  rfl

theorem dumpNode_first (extra : UInt8) (d : Datagram) (ds : List Datagram) :
    dumpNode extra (d::ds) =
      (scanPairs ((answerArray extra d).drop 4) ⟨ntohl ((answerArray extra d).take 4),0,[]⟩ >>= fun
        | none => pure .exited
        | some s => receiveDump extra ds s) := rfl

/-- Readable blocks are received one after the other, the last one ending the loop. -/
theorem receiveDump_blocks {extra : UInt8} {blocks : List (List Pair)} (hne : ∀ b ∈ blocks, b ≠ [])
    (hr : ∀ b ∈ blocks, Readable extra (total cost b) b) {s : DumpState} (h₀ : 0 ≤ s.count)
    (hc : s.count + blocks.flatten.length = s.nbrPairs) :
    Succeeds (receiveDump extra (blocks.map fun b => (encodePairs b).dropLast) s)
      (.printed (s.extend blocks.flatten) []) := by
  induction blocks generalizing s with
  | nil =>
    have hn : ¬s.count < s.nbrPairs := by simpa using hc.ge
    rw [List.map_nil,receiveDump,if_neg hn,List.flatten_nil,DumpState.extend_nil]
    exact .pure _
  | cons b blocks ih =>
    have hb := hne b List.mem_cons_self
    have hpos := List.length_pos_iff.mpr hb
    rw [List.flatten_cons,List.length_append] at hc
    rw [List.map_cons,receiveDump_next extra _ _ h₀ (by omega)]
    apply ((hr b List.mem_cons_self).scan_datagram hb s).bind
    have hrest := ih (fun c hc => hne c (List.mem_cons_of_mem b hc))
      (fun c hc => hr c (List.mem_cons_of_mem b hc)) (s := s.extend b)
      (by simp only [DumpState.extend]; omega) (by simp only [DumpState.extend]; omega)
    rwa [DumpState.extend_append] at hrest

/-- A loop that stops with nothing unread counted no pair too many, and all of
them only from readable blocks. -/
theorem readable_of_received {extra : UInt8} {blocks : List (List Pair)} (hne : ∀ b ∈ blocks, b ≠ [])
    (hb : ∀ b ∈ blocks, total cost b ≤ maxMsgSize) {s s' : DumpState} {as : Outcomes} (h₀ : 0 ≤ s.count)
    (h : receiveDump extra (blocks.map fun b => (encodePairs b).dropLast) s [] =
      some (.printed s' [],as)) :
    s'.nbrPairs = s.nbrPairs ∧ s'.count ≤ s.count + blocks.flatten.length ∧
      (s'.count = s.count + blocks.flatten.length → ∀ b ∈ blocks, Readable extra (total cost b) b) := by
  induction blocks generalizing s with
  | nil =>
    rw [List.map_nil,receiveDump] at h
    split at h
    · exact absurd (congrArg Prod.fst (Option.some.inj h)) nofun
    · obtain ⟨rfl,-⟩ := DumpOutcome.printed.inj (congrArg Prod.fst (Option.some.inj h))
      exact ⟨rfl,by simp,fun _ b hb => absurd hb List.not_mem_nil⟩
  | cons b blocks ih =>
    by_cases hlt : s.count < s.nbrPairs
    · have hfit := hb b List.mem_cons_self
      rw [List.map_cons,receiveDump_next extra _ _ h₀ hlt,
        answerArray_block extra (hne b List.mem_cons_self) hfit] at h
      cases hscan : scanPairs (encodePairs b ++ padding extra (total cost b)) s [] with
      | none =>
        rw [show (scanPairs _ s >>= _) [] = (scanPairs _ s []).bind _ from rfl,hscan] at h
        exact absurd h nofun
      | some result =>
        obtain ⟨found,bs⟩ := result
        obtain ⟨rfl,s₁,rfl,hs⟩ := scanned_of_scan hfit hscan
        rw [Succeeds.bind_apply hscan] at h
        have hcount := hs.count_ge
        have hle := hs.count_le
        obtain ⟨hn,hlen,hread⟩ := ih (fun c hc => hne c (List.mem_cons_of_mem b hc))
          (fun c hc => hb c (List.mem_cons_of_mem b hc)) (h₀.trans hcount) h
        rw [List.flatten_cons,List.length_append]
        refine ⟨hn.trans hs.nbrPairs,by omega,fun heq => ?_⟩
        exact List.forall_mem_cons.mpr ⟨hs.readable (by omega),hread (by omega)⟩
    · rw [List.map_cons,receiveDump,if_neg hlt] at h
      exact absurd (DumpOutcome.printed.inj (congrArg Prod.fst (Option.some.inj h))).2 nofun

/-- The number of pairs the receiver reads from the first datagram. -/
def announced (n : ℕ) (block : List Pair) : ℕ := if block = [] then n - n % 256 else n

private theorem ntohl_htonl {n : ℕ} (h : n < 2^32) : ntohl (htonl n) = n := by
  simp only [htonl,ntohl,UInt8.toNat_ofNat']
  omega

private theorem ntohl_cut {n : ℕ} (h : n < 2^32) : ntohl ((htonl n).dropLast ++ [0]) = n - n % 256 := by
  simp only [htonl,List.dropLast_cons_cons,List.dropLast_singleton,List.cons_append,List.nil_append,ntohl,
    UInt8.toNat_ofNat',UInt8.toNat_zero]
  omega

/-- The array after the first datagram: four header bytes, of which the last is
lost when no pair follows, then the block. -/
theorem answerArray_first (extra : UInt8) {n : ℕ} (hn : n < 2^32) {block : List Pair}
    (h : block = [] ∨ 4 + total cost block ≤ maxMsgSize) :
    ∃ header : Bytes, header.length = 4 ∧ ntohl header = announced n block ∧
      answerArray extra (htonl n ++ encodePairs block).dropLast =
        header ++ (encodePairs block ++ padding extra (4 + total cost block)) := by
  by_cases hb : block = []
  · subst hb
    refine ⟨(htonl n).dropLast ++ [0],rfl,ntohl_cut hn,?_⟩
    have hfour : ((htonl n).dropLast ++ [0]).length ≤ maxMsgSize := show 4 ≤ maxMsgSize by decide
    have harray := answerArray_dropLast extra ⟨_,rfl⟩ hfour
    rw [List.dropLast_concat] at harray
    rw [encodePairs_nil,List.append_nil,harray]
    rfl
  · have hlim := h.resolve_left hb
    have hlen : (htonl n ++ encodePairs block).length = 4 + total cost block := by
      rw [List.length_append,length_encodePairs]
      rfl
    refine ⟨htonl n,rfl,?_,?_⟩
    · rw [ntohl_htonl hn,announced,if_neg hb]
    · rw [answerArray_dropLast extra (encodePairs_ends hb (htonl n)) (hlen.trans_le hlim),hlen,
        List.append_assoc]

/-- The tables whose dump reaches the receiver completely. -/
structure Dumpable (extra : UInt8) (pairs : List Pair) : Prop where
  few : pairs.length < 2^32
  keys : ∀ p ∈ pairs, p.1 ≠ .empty
  fit : ∀ p ∈ pairs, cost p ≤ maxMsgSize
  header : ∀ p, pairs.head? = some p → 4 + cost p ≤ maxMsgSize ∨ 256 ∣ pairs.length
  ends : extra = 0 ∨ maxMsgSize ∉ fills maxMsgSize cost 4 pairs

/-- The loop ends with the last datagram, having announced and counted `n` pairs. -/
def Completes (extra : UInt8) (n : ℕ) (datagrams : List Datagram) : Prop :=
  ∃ s : DumpState, Succeeds (dumpNode extra datagrams) (.printed s []) ∧
    s.nbrPairs = n ∧ s.count = n

theorem dumpDatagrams_eq (pairs : List Pair) :
    dumpDatagrams pairs =
      (htonl (pairs.length % 2^32) ++ encodePairs (pack maxMsgSize cost 4 pairs).1).dropLast::
        (pack maxMsgSize cost 4 pairs).2.map fun block => (encodePairs block).dropLast :=
  emit_eq pairs (htonl (pairs.length % 2^32))

/-- The first block is empty exactly when the first pair does not fit beside the header. -/
theorem pack_first_nil {pairs : List Pair} :
    (pack maxMsgSize cost 4 pairs).1 = [] ↔ ∀ p, pairs.head? = some p → maxMsgSize < 4 + cost p := by
  cases pairs with
  | nil => simp [pack]
  | cons p pairs =>
    rw [pack]
    split <;> simp_all

theorem Dumpable.announced {extra : UInt8} {pairs : List Pair} (h : Dumpable extra pairs) :
    announced (pairs.length % 2^32) (pack maxMsgSize cost 4 pairs).1 = pairs.length := by
  rw [PpsDht.announced,Nat.mod_eq_of_lt h.few]
  split
  · rename_i hnil
    cases pairs with
    | nil => rfl
    | cons p pairs =>
      have hbig := pack_first_nil.mp hnil p rfl
      have hdvd := (h.header p rfl).resolve_left (by omega)
      omega
  · rfl

private theorem Dumpable.readable_first {extra : UInt8} {pairs : List Pair} (h : Dumpable extra pairs) :
    Readable extra (4 + total cost (pack maxMsgSize cost 4 pairs).1) (pack maxMsgSize cost 4 pairs).1 where
  keys p hp := h.keys p (by
    rw [← pack_flatten maxMsgSize cost 4 pairs]
    exact List.mem_append_left _ hp)
  fits := by
    rcases pack_open maxMsgSize cost 4 pairs with hnil | hlim
    · rw [hnil]
      decide
    · exact hlim
  ends hfull := h.ends.resolve_right fun hn => by
    have hm : 4 + total cost (pack maxMsgSize cost 4 pairs).1 ∈ fills maxMsgSize cost 4 pairs :=
      List.mem_cons_self
    exact hn (by rwa [hfull] at hm)

theorem Dumpable.readable {extra : UInt8} {pairs : List Pair} (h : Dumpable extra pairs)
    {block : List Pair} (hb : block ∈ (pack maxMsgSize cost 4 pairs).2) :
    Readable extra (total cost block) block where
  keys p hp := h.keys p (by
    rw [← pack_flatten maxMsgSize cost 4 pairs]
    exact List.mem_append_right _ (List.mem_flatten_of_mem hb hp))
  fits := by
    rcases (pack_blocks maxMsgSize cost 4 pairs block hb).2 with hlim | ⟨p,hp,-,hbig⟩
    · exact hlim
    · exact absurd (h.fit p hp) (by omega)
  ends hfull := h.ends.resolve_right fun hn => by
    have hm : total cost block ∈ fills maxMsgSize cost 4 pairs :=
      List.mem_cons_of_mem _ (List.mem_map_of_mem hb)
    exact hn (by rwa [hfull] at hm)

/-- The receiver scans the first block with the announced count, then the others. -/
theorem dumpNode_dump (extra : UInt8) (pairs : List Pair) :
    dumpNode extra (dumpDatagrams pairs) =
      (scanPairs (encodePairs (pack maxMsgSize cost 4 pairs).1 ++
          padding extra (4 + total cost (pack maxMsgSize cost 4 pairs).1))
        ⟨announced (pairs.length % 2^32) (pack maxMsgSize cost 4 pairs).1,0,[]⟩ >>= fun
        | none => pure .exited
        | some s => receiveDump extra
            ((pack maxMsgSize cost 4 pairs).2.map fun block => (encodePairs block).dropLast) s) := by
  obtain ⟨header,hlen,hannounced,harray⟩ := answerArray_first extra (Nat.mod_lt pairs.length (by decide))
    (pack_open maxMsgSize cost 4 pairs)
  rw [dumpDatagrams_eq,dumpNode_first,harray,← hannounced,← hlen,List.take_left,List.drop_left]

/-- A dumpable list of pairs arrives whole: the loop stops with the last datagram
and holds exactly these pairs in this order. -/
theorem Dumpable.dumpNode {extra : UInt8} {pairs : List Pair} (h : Dumpable extra pairs) :
    Succeeds (dumpNode extra (dumpDatagrams pairs))
      (.printed ⟨pairs.length,pairs.length,pairs.map .ofPair⟩ []) := by
  have hflat := pack_flatten maxMsgSize cost 4 pairs
  have hcount := congrArg List.length hflat
  rw [List.length_append] at hcount
  rw [dumpNode_dump,h.announced]
  apply (h.readable_first.scan _).bind
  have hrest := receiveDump_blocks (fun b hb => (pack_blocks maxMsgSize cost 4 pairs b hb).1)
    (fun b hb => h.readable hb)
    (s := DumpState.extend ⟨pairs.length,0,[]⟩ (pack maxMsgSize cost 4 pairs).1)
    (by simp only [DumpState.extend]; omega) (by simp only [DumpState.extend]; omega)
  rw [DumpState.extend_append,hflat] at hrest
  simpa [DumpState.extend] using hrest

/-- The blocks decide whether the list is dumpable. -/
theorem dumpable_of_readable {extra : UInt8} {pairs : List Pair}
    (ha : announced (pairs.length % 2^32) (pack maxMsgSize cost 4 pairs).1 = pairs.length)
    (h₁ : Readable extra (4 + total cost (pack maxMsgSize cost 4 pairs).1) (pack maxMsgSize cost 4 pairs).1)
    (h₂ : ∀ b ∈ (pack maxMsgSize cost 4 pairs).2, Readable extra (total cost b) b) :
    Dumpable extra pairs := by
  have hmem : ∀ p ∈ pairs, p ∈ (pack maxMsgSize cost 4 pairs).1 ∨
      ∃ b ∈ (pack maxMsgSize cost 4 pairs).2, p ∈ b := fun p hp => by
    rw [← pack_flatten maxMsgSize cost 4 pairs,List.mem_append,List.mem_flatten] at hp
    exact hp
  have hmod := Nat.mod_lt pairs.length (show 0 < 2^32 by decide)
  have hfew : pairs.length < 2^32 := by
    rw [announced] at ha
    split at ha <;> omega
  refine ⟨hfew,fun p hp => ?_,fun p hp => ?_,fun p hp => ?_,?_⟩
  · rcases hmem p hp with h | ⟨b,hb,h⟩
    · exact h₁.keys p h
    · exact (h₂ b hb).keys p h
  · rcases hmem p hp with h | ⟨b,hb,h⟩
    · have := cost_le_total cost h
      have := h₁.fits
      omega
    · exact (cost_le_total cost h).trans (h₂ b hb).fits
  · by_cases hbig : maxMsgSize < 4 + cost p
    · right
      have hnil : (pack maxMsgSize cost 4 pairs).1 = [] :=
        pack_first_nil.mpr fun q hq => Option.some.inj (hp.symm.trans hq) ▸ hbig
      rw [announced,if_pos hnil,Nat.mod_eq_of_lt hfew] at ha
      omega
    · exact Or.inl (Nat.le_of_not_lt hbig)
  · by_cases he : maxMsgSize ∈ fills maxMsgSize cost 4 pairs
    · left
      rcases List.mem_cons.mp he with heq | hb
      · exact h₁.ends heq.symm
      · obtain ⟨b,hb,heq⟩ := List.mem_map.mp hb
        exact (h₂ b hb).ends heq
    · exact Or.inr he

/-- A dump of pairs that fit its buffer completes only if nothing else is in the way. -/
theorem completes_iff {extra : UInt8} {pairs : List Pair} (hp : ∀ p ∈ pairs, cost p ≤ maxMsgSize) :
    Completes extra pairs.length (dumpDatagrams pairs) ↔ Dumpable extra pairs := by
  constructor
  · rintro ⟨s,hs,hn,hc⟩
    have hflat := congrArg List.length (pack_flatten maxMsgSize cost 4 pairs)
    rw [List.length_append] at hflat
    have hopen : 4 + total cost (pack maxMsgSize cost 4 pairs).1 ≤ maxMsgSize := by
      rcases pack_open maxMsgSize cost 4 pairs with hnil | hlim
      · rw [hnil]
        decide
      · exact hlim
    have hblocks := pack_blocks maxMsgSize cost 4 pairs
    have hlimit : ∀ b ∈ (pack maxMsgSize cost 4 pairs).2, total cost b ≤ maxMsgSize := fun b hb =>
      (hblocks b hb).2.resolve_right fun ⟨p,hmem,_,hbig⟩ => absurd (hp p hmem) (Nat.not_le.mpr hbig)
    rw [dumpNode_dump] at hs
    cases hscan : scanPairs (encodePairs (pack maxMsgSize cost 4 pairs).1 ++
        padding extra (4 + total cost (pack maxMsgSize cost 4 pairs).1))
        ⟨announced (pairs.length % 2^32) (pack maxMsgSize cost 4 pairs).1,0,[]⟩ [] with
    | none =>
      rw [Succeeds,show (scanPairs _ _ >>= _) [] = (scanPairs _ _ []).bind _ from rfl,hscan] at hs
      cases hs
    | some result =>
      obtain ⟨found,as⟩ := result
      obtain ⟨rfl,s₁,rfl,hfirst⟩ := scanned_of_scan hopen hscan
      rw [Succeeds,Succeeds.bind_apply hscan] at hs
      have hge : 0 ≤ s₁.count := hfirst.count_ge
      have hle : s₁.count ≤ 0 + (pack maxMsgSize cost 4 pairs).1.length := hfirst.count_le
      obtain ⟨hn',hlen,hread⟩ := readable_of_received (fun b hb => (hblocks b hb).1) hlimit hge hs
      exact dumpable_of_readable (hfirst.nbrPairs.symm.trans (hn'.symm.trans hn))
        (hfirst.readable (show s₁.count = 0 + _ by omega)) (hread (by omega))
  · exact fun h => ⟨_,h.dumpNode,rfl,rfl⟩

/-- What the server sends for a list of pairs, delivered in order, is collected
as the same list, the loop ending with the last datagram. -/
theorem dumpNode_sendPairs (pairs : List Pair) (hfew : pairs.length < 2^32)
    (hkeys : ∀ p ∈ pairs, p.1 ≠ .empty)
    (hfirst : ∀ p, pairs.head? = some p → 4 + (p.1.length + 1 + (p.2.length + 1)) ≤ maxMsgSize)
    (hfit : ∀ p ∈ pairs, p.1.length + 1 + (p.2.length + 1) ≤ maxMsgSize) :
    ∃ datagrams, Succeeds (sendPairs (pairs.map .ofPair)) datagrams ∧
      Succeeds (dumpNode 0 datagrams) (.printed ⟨pairs.length,pairs.length,pairs.map .ofPair⟩ []) :=
  have h : Dumpable 0 pairs := ⟨hfew,hkeys,hfit,fun p hp => Or.inl (hfirst p hp),Or.inl rfl⟩
  ⟨dumpDatagrams pairs,sendPairs_succeeds hfit,h.dumpNode⟩

/-- Two pairs, one of them with an empty value. -/
theorem dumpNode_sendPairs_two :
    let pairs : List Pair := [(.letterK,.letterV),(.letterV,.empty)]
    ∃ datagrams, Succeeds (sendPairs (pairs.map .ofPair)) datagrams ∧
      Succeeds (dumpNode 0 datagrams) (.printed ⟨2,2,pairs.map .ofPair⟩ []) :=
  dumpNode_sendPairs [(.letterK,.letterV),(.letterV,.empty)]
    (by decide) (by decide) (fun p hp => by rw [← Option.some.inj hp]; decide) (by decide)

/-- From a reachable table the dump is sent and received to completion exactly
when its pairs are dumpable. -/
theorem reachable_dump_completes {table : Htable} (h : ReachableTable table) (extra : UInt8) :
    ∃ pairs : List Pair, Succeeds (getHtableContent table) (some (pairs.map .ofPair)) ∧
      ((∃ datagrams, Succeeds (dump table) datagrams ∧ Completes extra pairs.length datagrams) ↔
        Dumpable extra pairs) := by
  obtain ⟨m,rfl,-⟩ := h.exists_map
  refine ⟨m.pairs,getHtableContent_succeeds m,?_,fun hd => ?_⟩
  · rintro ⟨datagrams,hdump,hc⟩
    have hfit : DumpFits m := by
      by_contra hfit
      exact (dump_faults hfit).not_succeeds _ hdump
    rw [hdump.unique (dump_succeeds hfit)] at hc
    exact (completes_iff hfit).mp hc
  · exact ⟨_,dump_succeeds hd.fit,(completes_iff hd.fit).mpr hd⟩

/-- Two pairs, each key being the value of the other. -/
def twoLetters : ServerMap := (ServerMap.initial.add .letterK .letterV).add .letterV .letterK

private theorem twoLetters_pairs : twoLetters.pairs = [(.letterK,.letterV),(.letterV,.letterK)] ∨
    twoLetters.pairs = [(.letterV,.letterK),(.letterK,.letterV)] := by
  have hmem : ∀ p, p ∈ twoLetters.pairs ↔ p ∈ [(CString.letterK,CString.letterV),(.letterV,.letterK)] := by
    rintro ⟨key,value⟩
    rw [← ChainedMap.lookup_eq_some_iff_mem,twoLetters,ChainedMap.lookup_add,ChainedMap.lookup_add,ServerMap.initial,
      ChainedMap.lookup_empty,List.mem_cons,List.mem_singleton,Prod.mk.injEq,Prod.mk.injEq,eq_comm (a := value),
      eq_comm (a := value)]
    have hne : CString.letterK ≠ .letterV := by decide
    by_cases hv : key = .letterV
    · simp [hv,hne.symm]
    · by_cases hk : key = .letterK <;> simp [hv,hk,hne]
  have hnodup := twoLetters.nodup_pairs.of_map
  obtain ⟨p,q,hpairs⟩ := List.length_eq_two.mp ((List.perm_ext_iff_of_nodup hnodup (by decide)).mpr hmem).length_eq
  have hp := (hmem p).mp (by simp [hpairs])
  have hq := (hmem q).mp (by simp [hpairs])
  rw [hpairs,List.nodup_cons,List.mem_singleton] at hnodup
  simp only [List.mem_cons,List.not_mem_nil,or_false] at hp hq
  rw [hpairs]
  rcases hp with rfl | rfl <;> rcases hq with rfl | rfl
  · exact absurd rfl hnodup.1
  · exact Or.inl rfl
  · exact Or.inr rfl
  · exact absurd rfl hnodup.1

private theorem twoLetters_reachable : ReachableTable twoLetters.table :=
  (reachableTable_initial.put (k := .letterK) (v := .letterV) (by decide) (by decide)).put (by decide) (by decide)

/-- A dump of two pairs is sent and received to completion. -/
theorem reachable_dump_completes_two :
    ∃ pairs : List Pair, Succeeds (getHtableContent twoLetters.table) (some (pairs.map .ofPair)) ∧
      pairs.length = 2 ∧ ∃ datagrams, Succeeds (dump twoLetters.table) datagrams ∧ Completes 1 2 datagrams := by
  obtain ⟨pairs,hcontent,hiff⟩ := reachable_dump_completes twoLetters_reachable 1
  have hmap := Option.some.inj (hcontent.unique (getHtableContent_succeeds twoLetters))
  have hpairs : pairs = [(.letterK,.letterV),(.letterV,.letterK)] ∨ pairs = [(.letterV,.letterK),(.letterK,.letterV)] := by
    rw [List.map_injective_iff.mpr KvPair.ofPair_injective hmap]
    exact twoLetters_pairs
  have hlen : pairs.length = 2 := by rcases hpairs with rfl | rfl <;> rfl
  rw [hlen] at hiff
  refine ⟨pairs,hcontent,hlen,hiff.mpr ?_⟩
  rcases hpairs with rfl | rfl <;>
    exact ⟨by decide,by decide,by decide,fun p hp => Or.inl (by rw [← Option.some.inj hp]; decide),Or.inr (by decide)⟩

/-- A pair of 65504 bytes with both terminators, one too many beside the header. -/
def besideHeader : Pair := letterPair 65501

private theorem besideHeader_cost : cost besideHeader = 65504 := by
  rw [cost,besideHeader,letterPair_key,letterPair_value]

private theorem besideHeader_reachable :
    ReachableTable (ServerMap.initial.add besideHeader.1 besideHeader.2).table := by
  refine reachableTable_initial.put (fun hempty => ?_) ?_
  · exact absurd ((letterPair_value 65501).symm.trans (congrArg CString.length hempty)) (by decide)
  · rw [CString.length_separated,besideHeader,letterPair_key,letterPair_value]
    decide

/-- Its dump announces no pair, so the receiver leaves before the pair arrives. -/
theorem besideHeader_incomplete :
    ¬∀ (table : Htable) (extra : UInt8), ReachableTable table →
      ∃ pairs : List Pair, Succeeds (getHtableContent table) (some (pairs.map .ofPair)) ∧
        ∃ datagrams, Succeeds (dump table) datagrams ∧ Completes extra pairs.length datagrams := by
  intro h
  obtain ⟨pairs,hcontent,datagrams,hdump,hc⟩ := h _ 0 besideHeader_reachable
  have hpairs : (ServerMap.initial.add besideHeader.1 besideHeader.2).pairs = [besideHeader] :=
    ChainedMap.pairs_add_empty (by decide) besideHeader.1 besideHeader.2
  have hfit : ∀ p ∈ (ServerMap.initial.add besideHeader.1 besideHeader.2).pairs, cost p ≤ maxMsgSize := by
    rw [hpairs,List.forall_mem_singleton,besideHeader_cost]
    decide
  have hlen : pairs.length = (ServerMap.initial.add besideHeader.1 besideHeader.2).pairs.length := by
    have heq := Option.some.inj (hcontent.unique (getHtableContent_succeeds _))
    simpa using congrArg List.length heq
  rw [hdump.unique (dump_succeeds hfit),hlen,completes_iff hfit,hpairs] at hc
  have hheader := hc.header besideHeader List.head?_cons
  rw [besideHeader_cost,List.length_singleton] at hheader
  exact absurd hheader (by decide)

end PpsDht
