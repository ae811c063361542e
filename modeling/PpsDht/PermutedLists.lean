import PpsDht.ServerLists
import PpsDht.SortedRings

/-! # Lists of servers in another order

The lines of the file may come in any order and `qsort` may arrange nodes of equal
digests as it likes. As long as these belong to one server, all clients select the
same servers for a key. -/
namespace PpsDht
open Mem Scanning FirstOccurrences SortedLists

/-- White space inside of a line. -/
def IsBlank (bytes : Bytes) : Prop := ∀ c ∈ bytes, isSpace c ∧ c ≠ 10

def IsNumeral (bytes : Bytes) : Prop := bytes ≠ [] ∧ ∀ c ∈ bytes, isDigit c

/-- A line and the entry that it stands for: an address that `inet_pton` understands, a port
and a number of nodes, both in range. -/
inductive WellFormedLine (inetPton : CString → Option UInt32) : Bytes → ServerEntry → Prop
  | mk {lead between between' trail port count : Bytes} {ip : CString} (hlead : IsBlank lead)
      (hip : ip ≠ .empty) (hword : ∀ c ∈ ip.chars, ¬isSpace c) (hlen : ip.length ≤ ipLength)
      (hknown : (inetPton ip).isSome) (hbetween : IsBlank between) (hne : between ≠ [])
      (hport : IsNumeral port) (hport' : digitsValue port < 2^16) (hbetween' : IsBlank between')
      (hne' : between' ≠ []) (hcount : IsNumeral count) (hcount' : digitsValue count < 2^64)
      (htrail : IsBlank trail) :
      WellFormedLine inetPton (lead ++ (ip.chars ++ (between ++ (port ++ (between' ++ (count ++ trail))))))
        ⟨ip,UInt16.ofNat (digitsValue port),digitsValue count⟩

/-- The lines of a file; the last one may lack its line feed. -/
inductive FileOf : List Bytes → Bytes → Prop
  | nil : FileOf [] []
  | last (line : Bytes) : FileOf [line] line
  | cons {lines : List Bytes} {file : Bytes} (line : Bytes) (h : FileOf lines file) :
      FileOf (line::lines) (line ++ 10::file)

section Reading

variable {inetPton : CString → Option UInt32}

theorem IsBlank.head {bytes : Bytes} (h : IsBlank bytes) {rest : Bytes}
    (hrest : ∀ c, rest.head? = some c → isSpace c) (c : UInt8) (hc : (bytes ++ rest).head? = some c) :
    isSpace c := by
  cases bytes with
  | nil => exact hrest c hc
  | cons b bytes =>
    obtain rfl := Option.some.inj hc
    exact (h b List.mem_cons_self).1

private theorem not_isDigit_of_isSpace {c : UInt8} (h : isSpace c) : ¬isDigit c := by
  simp only [isDigit,isSpace,Bool.and_eq_true,Bool.or_eq_true,decide_eq_true_eq,UInt8.le_iff_toNat_le,
    UInt8.toNat_ofNat,← UInt8.toNat_inj] at h ⊢
  omega

/-- A well-formed line is read as one entry, whatever follows on the next lines. -/
theorem WellFormedLine.read {line : Bytes} {entry : ServerEntry} (h : WellFormedLine inetPton line entry) :
    Addable inetPton entry ∧ ∃ trail, IsBlank trail ∧ ∀ rest : Bytes,
      (∀ c, rest.head? = some c → isSpace c) → readEntry (line ++ rest) = some (entry,trail ++ rest) := by
  cases h with
  | @mk lead between between' trail port count ip hlead hip hword hlen hknown hbetween hne hport hport'
      hbetween' hne' hcount hcount' htrail =>
    refine ⟨⟨hlen,hcount',hknown⟩,trail,htrail,fun rest hrest => ?_⟩
    have hspace : ∀ {gap : Bytes}, IsBlank gap → gap ≠ [] → ∀ {more : Bytes} (c : UInt8),
        (gap ++ more).head? = some c → isSpace c := by
      intro gap hgap hgapne more c hc
      rw [List.head?_append_of_ne_nil _ hgapne] at hc
      exact (hgap c (List.mem_of_mem_head? hc)).1
    have hscan₁ := scanWord_text (between ++ (port ++ (between' ++ (count ++ (trail ++ rest)))))
      (fun c hc => (hlead c hc).1) hword (fun hnil => hip (CString.chars_eq_nil.mp hnil)) hlen
      (hspace hbetween hne)
    have hscan₂ := scanUnsigned_text (between' ++ (count ++ (trail ++ rest)))
      (fun c hc => (hbetween c hc).1) hport.2 hport.1 (hport'.trans (by decide))
      (fun c hc => not_isDigit_of_isSpace (hspace hbetween' hne' c hc))
    have hscan₃ := scanUnsigned_text (trail ++ rest) (fun c hc => (hbetween' c hc).1) hcount.2
      hcount.1 hcount' (fun c hc => not_isDigit_of_isSpace (htrail.head hrest c hc))
    have hip' : upToNul ip.chars = ip := by
      ext1
      exact List.takeWhile_eq_self_iff.mpr fun c hc => by simpa using CString.ne_zero_of_mem hc
    simp only [readEntry,List.append_assoc,hscan₁,hscan₂,hscan₃,hip',Option.bind_eq_bind,Option.bind_some]

private theorem readEntries_blank {blanks : Bytes} (h : ∀ c ∈ blanks, isSpace c) (rest : Bytes) :
    readEntries (blanks ++ rest) = readEntries rest := by
  have hread : readEntry (blanks ++ rest) = readEntry rest := by
    simp only [readEntry,scanWord,skipSpace_append h]
  cases hr : readEntry rest with
  | none => rw [readEntries_of_none (hread.trans hr),readEntries_of_none hr]
  | some result => rw [readEntries_cons (hread.trans hr),readEntries_cons hr]

/-- A file of well-formed lines is read line by line to its end. -/
theorem readEntries_file {lines : List Bytes} {file : Bytes} {entries : List ServerEntry} (h : FileOf lines file)
    (hlines : List.Forall₂ (WellFormedLine inetPton) lines entries) : readEntries file = entries := by
  induction h generalizing entries with
  | nil =>
    cases hlines
    rfl
  | last line =>
    cases hlines with
    | cons hline hmore =>
      cases hmore
      obtain ⟨-,trail,htrail,hread⟩ := hline.read
      have hone := hread [] (by simp)
      have hrest := readEntries_blank (fun c hc => (htrail c hc).1) []
      rw [List.append_nil] at hone
      rw [readEntries_cons hone,hrest,readEntries_nil]
  | @cons lines file line _ ih =>
    cases hlines with
    | cons hline hmore =>
      obtain ⟨-,trail,htrail,hread⟩ := hline.read
      have hfeed : ∀ c, (10::file).head? = some c → isSpace c := fun c hc => by
        obtain rfl := Option.some.inj hc
        rfl
      have hrest : readEntries (trail ++ 10::file) = readEntries file := by
        rw [readEntries_blank (fun c hc => (htrail c hc).1),← List.singleton_append]
        exact readEntries_blank (List.forall_mem_singleton.mpr rfl) file
      rw [readEntries_cons (hread (10::file) hfeed),hrest,ih hmore]

private theorem addable_of_lines {lines : List Bytes} {entries : List ServerEntry}
    (h : List.Forall₂ (WellFormedLine inetPton) lines entries) : ∀ entry ∈ entries, Addable inetPton entry := by
  induction h with
  | nil => simp
  | cons hline _ ih => exact List.forall_mem_cons.mpr ⟨hline.read.1,ih⟩

end Reading

section Agreement

variable {ring ring' : List Node}

/-- Two sorted arrangements show the same servers in the same order, from any key on. -/
theorem map_address_clockwise (hperm : ring.Perm ring') (h : SortedBySha ring) (h' : SortedBySha ring')
    (hties : ∀ a ∈ ring, ∀ b ∈ ring, nodeCmpSha a b = 0 → a.address = b.address) (sha : Digest) :
    (clockwise ring sha).map Node.address = (clockwise ring' sha).map Node.address := by
  have hpairs : ring.map (fun node => (node.rank,node.address)) = ring'.map fun node => (node.rank,node.address) :=
    map_eq_of_ties _ hperm (sortedBySha_iff.mp h) (sortedBySha_iff.mp h') fun a ha b hb hab =>
      Prod.ext hab (hties a ha b hb (nodeCmpSha_eq_zero.mpr hab))
  have hfilter : ∀ p : List ℕ → Bool, (ring.filter fun node => p node.rank).map Node.address =
      (ring'.filter fun node => p node.rank).map Node.address := fun p => by
    have hkept := congrArg (fun pairs => (pairs.filter fun q => p q.1).map Prod.snd) hpairs
    simpa only [List.filter_map,List.map_map,Function.comp_def] using hkept
  have htest : atOrAfter sha = fun node => decide (visible sha.bytes ≤ node.rank) :=
    funext fun node => Bool.eq_iff_iff.mpr (by rw [atOrAfter_iff,decide_eq_true_iff])
  rw [clockwise,clockwise,List.map_append,List.map_append,htest]
  exact congrArg₂ (· ++ ·) (hfilter fun rank => visible sha.bytes ≤ rank)
    (hfilter fun rank => !decide (visible sha.bytes ≤ rank))

/-- So the walk selects the same servers. -/
theorem serversFrom_agree (hperm : ring.Perm ring') (h : SortedBySha ring) (h' : SortedBySha ring')
    (hties : ∀ a ∈ ring, ∀ b ∈ ring, nodeCmpSha a b = 0 → a.address = b.address) (sha : Digest) (n : ℕ) :
    (serversFrom ring (indexOfFirstNode ring sha) n).map Node.address =
      (serversFrom ring' (indexOfFirstNode ring' sha) n).map Node.address := by
  simp only [serversFrom,List.map_take,map_distinctBy,rotate_indexOfFirstNode h,rotate_indexOfFirstNode h',
    map_address_clockwise hperm h h' hties sha]

end Agreement

/-- `ring_init` returns this ring in some run, whatever allocations fail in it. -/
def Builds (sha1 : Bytes → Digest) (inetPton : CString → Option UInt32) (qsort : List Node → List Node)
    (file : Bytes) (ring : List Node) : Prop :=
  ∃ outcomes rest, ringInit sha1 inetPton qsort (some file) outcomes = some (.ok ring,rest)

/-- Clients whose files list the same lines in another order select the same servers for
each key, as many as asked for. Their rings are built if there is memory for them. -/
theorem ringInit_permuted (sha1 : Bytes → Digest) (inetPton : CString → Option UInt32)
    (qsort qsort' : List Node → List Node) (hsort : SortsBySha qsort) (hsort' : SortsBySha qsort')
    (lines lines' : List Bytes) (entries : List ServerEntry) (file file' : Bytes) (hperm : lines.Perm lines')
    (hlines : List.Forall₂ (WellFormedLine inetPton) lines entries)
    (hfile : FileOf lines file) (hfile' : FileOf lines' file')
    (hties : ∀ a ∈ entries.flatMap (ServerEntry.nodes sha1 inetPton),
      ∀ b ∈ entries.flatMap (ServerEntry.nodes sha1 inetPton), nodeCmpSha a b = 0 → a.address = b.address) :
    (∀ ring ring', Builds sha1 inetPton qsort file ring → Builds sha1 inetPton qsort' file' ring' →
      ∀ (key : CString) (n : ℕ), n ≤ (listedServers inetPton entries).length →
        ∃ nodes nodes', Succeeds (ringGetNodesForKey sha1 ring n key) (some nodes) ∧
          Succeeds (ringGetNodesForKey sha1 ring' n key) (some nodes') ∧ nodes.length = n ∧
          nodes.map Node.address = nodes'.map Node.address) ∧
    ((entries.map ServerEntry.nodeId).sum ≤ sizeMax / sizeofNode →
      (∃ ring, Builds sha1 inetPton qsort file ring) ∧ ∃ ring', Builds sha1 inetPton qsort' file' ring') := by
  obtain ⟨entries',hlines',hentries⟩ := List.perm_comp_forall₂ hperm.symm hlines
  replace hentries := hentries.symm
  have hread := readEntries_file hfile hlines
  have hread' := readEntries_file hfile' hlines'
  have hnodes := hentries.flatMap_right (ServerEntry.nodes sha1 inetPton)
  refine ⟨?_,fun hroom => ⟨⟨_,[],[],ringInit_succeeds qsort (hread ▸ addable_of_lines hlines) (hread ▸ hroom)⟩,
    ⟨_,[],[],ringInit_succeeds qsort' (hread' ▸ addable_of_lines hlines') ?_⟩⟩⟩
  · rintro ring ring' ⟨_,_,hring⟩ ⟨_,_,hring'⟩ key n hn
    obtain rfl := ringInit_eq hring
    obtain rfl := ringInit_eq hring'
    simp only [listedNodes,Option.getD_some,hread,hread']
    obtain ⟨hp,hs⟩ := hsort (entries.flatMap (ServerEntry.nodes sha1 inetPton))
    obtain ⟨hp',hs'⟩ := hsort' (entries'.flatMap (ServerEntry.nodes sha1 inetPton))
    have hrings := hp.trans (hnodes.trans hp'.symm)
    have hcount := ((hp.map Node.address).dedup).length_eq.trans (length_listedServers sha1 inetPton entries)
    have hcount' := ((hrings.map Node.address).dedup).length_eq
    refine ⟨_,_,ringGetNodesForKey_serversFrom sha1 key (hn.trans hcount.ge),
      ringGetNodesForKey_serversFrom sha1 key ((hn.trans hcount.ge).trans hcount'.le),
      length_serversFrom (hn.trans hcount.ge),serversFrom_agree hrings hs hs' (fun a ha b hb => ?_) _ n⟩
    exact hties a (hp.mem_iff.mp ha) b (hp.mem_iff.mp hb)
  · rwa [hread',← (hentries.map ServerEntry.nodeId).sum_eq]

/-- `inet_pton` on the addresses 127.0.0.0 to 127.0.0.9. -/
def loopback (ip : CString) : Option UInt32 :=
  if ip.chars.take 8 = [49,50,55,46,48,46,48,46] then
    match ip.chars.drop 8 with
    | [c] => if isDigit c then some (0x7f000000 + UInt32.ofNat (c.toNat - 48)) else none
    | _ => none
  else none

/-- A digest that keeps the beginning of the text. -/
def textDigest (text : Bytes) : Digest where
  bytes := (text ++ List.replicate shaDigestLength 0).take shaDigestLength
  length_bytes := by simp

/-- `127.0.0.x 1234 1`, the digit `x` being given by its code. -/
def loopbackLine (c : UInt8) : Bytes := [49,50,55,46,48,46,48,46,c,32,49,50,51,52,32,49]

def loopbackEntry (c : UInt8) : ServerEntry := ⟨upToNul [49,50,55,46,48,46,48,46,c],1234,1⟩

theorem loopbackLine_wellFormed (c : UInt8) (h : c = 49 ∨ c = 50) :
    WellFormedLine loopback (loopbackLine c) (loopbackEntry c) := by
  have hzero : 0 ∉ [49,50,55,46,48,46,48,46,c] := by rcases h with rfl | rfl <;> decide
  have hword : ∀ d ∈ [49,50,55,46,48,46,48,46,c], ¬isSpace d := by rcases h with rfl | rfl <;> simp [isSpace]
  have hblank : IsBlank [32] := by simp [IsBlank,isSpace]
  have hentry : loopbackEntry c = ⟨⟨_,hzero⟩,UInt16.ofNat (digitsValue [49,50,51,52]),digitsValue [49]⟩ := by
    rcases h with rfl | rfl <;> rfl
  rw [hentry]
  refine @WellFormedLine.mk loopback [] [32] [32] [] [49,50,51,52] [49] ⟨_,hzero⟩ (by simp [IsBlank]) ?_ hword
    (by simp [CString.length,ipLength]) ?_ hblank (by decide) (by simp [IsNumeral,isDigit]) (by decide) hblank
    (by decide) (by simp [IsNumeral,isDigit]) (by decide) (by simp [IsBlank])
  · exact fun hempty => absurd (congrArg CString.chars hempty) (List.cons_ne_nil _ _)
  · rcases h with rfl | rfl <;> rfl

theorem ringInit_permuted_loopback :
    let file := loopbackLine 49 ++ 10::loopbackLine 50
    let file' := loopbackLine 50 ++ 10::(loopbackLine 49 ++ [10])
    let entries := [loopbackEntry 49,loopbackEntry 50]
    (∀ ring ring', Builds textDigest loopback insertionSortBySha file ring →
      Builds textDigest loopback insertionSortBySha file' ring' →
      ∀ (key : CString) (n : ℕ), n ≤ (listedServers loopback entries).length →
        ∃ nodes nodes', Succeeds (ringGetNodesForKey textDigest ring n key) (some nodes) ∧
          Succeeds (ringGetNodesForKey textDigest ring' n key) (some nodes') ∧ nodes.length = n ∧
          nodes.map Node.address = nodes'.map Node.address) ∧
    ((entries.map ServerEntry.nodeId).sum ≤ sizeMax / sizeofNode →
      (∃ ring, Builds textDigest loopback insertionSortBySha file ring) ∧
        ∃ ring', Builds textDigest loopback insertionSortBySha file' ring') :=
  ringInit_permuted textDigest loopback insertionSortBySha insertionSortBySha insertionSortBySha_sorts
    insertionSortBySha_sorts [loopbackLine 49,loopbackLine 50] [loopbackLine 50,loopbackLine 49]
    [loopbackEntry 49,loopbackEntry 50] _ _ (.swap _ _ [])
    (.cons (loopbackLine_wellFormed 49 (Or.inl rfl)) (.cons (loopbackLine_wellFormed 50 (Or.inr rfl)) .nil))
    (.cons _ (.last _)) (.cons _ (.cons _ .nil)) (by decide)

end PpsDht
