import PpsDht.PermutedLists

/-! # The successor of a key

Digests are numbers of twenty bytes, and a key belongs to the node with the first digest
from its own on. The comparison of the ring ends at a zero byte, so it finds that
node only where the bytes behind do not matter. -/
namespace PpsDht
open SortedLists

/-- The bytes of a digest, compared in lexicographic order as unsigned strings. -/
def Digest.number (d : Digest) : List ℕ := d.bytes.map UInt8.toNat

private theorem Digest.number_inj {d d' : Digest} : d.number = d'.number ↔ d = d' := by
  constructor
  · intro h
    obtain ⟨bytes,hlen⟩ := d
    obtain ⟨bytes',hlen'⟩ := d'
    obtain rfl := List.map_injective_iff.mpr (fun a b hab => UInt8.toNat_inj.mp hab) h
    rfl
  · exact congrArg _

/-- Where the visible parts differ they decide the order. -/
theorem map_lt_of_visible_lt {as bs : Bytes} (hlen : as.length = bs.length) (h : visible as < visible bs) :
    as.map UInt8.toNat < bs.map UInt8.toNat := by
  induction as generalizing bs with
  | nil =>
    obtain rfl := List.length_eq_zero_iff.mp hlen.symm
    exact absurd h (lt_irrefl _)
  | cons a as ih =>
    obtain ⟨b,bs,rfl⟩ := List.exists_cons_of_length_eq_add_one hlen.symm
    rw [visible_cons,visible_cons] at h
    rw [List.map_cons,List.map_cons,List.cons_lt_cons_iff]
    by_cases hab : a = b
    · subst hab
      right
      split at h
      · exact absurd h (lt_irrefl _)
      · rw [List.cons_lt_cons_iff] at h
        exact ⟨rfl,ih (Nat.succ.inj hlen) ((h.resolve_left (lt_irrefl _)).2)⟩
    · left
      have hnat : a.toNat ≠ b.toNat := fun heq => hab (UInt8.toNat_inj.mp heq)
      by_cases hb : b = 0
      · rw [if_pos hb] at h
        exact absurd h (List.not_lt_nil _)
      · by_cases ha : a = 0
        · subst ha
          exact Nat.pos_of_ne_zero (Ne.symm hnat)
        · rw [if_neg ha,if_neg hb,List.cons_lt_cons_iff] at h
          exact h.resolve_right fun heq => hnat heq.1

private theorem Digest.number_lt {a b : Digest} (h : visible a.bytes < visible b.bytes) : a.number < b.number :=
  map_lt_of_visible_lt (a.length_bytes.trans b.length_bytes.symm) h

private theorem Digest.visible_le {a b : Digest} (h : a.number ≤ b.number) : visible a.bytes ≤ visible b.bytes :=
  not_lt.mp fun hlt => absurd (number_lt hlt) (not_lt.mpr h)

/-- The node that a key belongs to: it has the first digest from the key's on, or the
first of all if there is none. -/
structure IsSuccessor (nodes : List Node) (sha : Digest) (node : Node) : Prop where
  mem : node ∈ nodes
  atOrAfter : (∃ m ∈ nodes, sha.number ≤ m.sha.number) → sha.number ≤ node.sha.number
  least : ∀ m ∈ nodes, sha.number ≤ m.sha.number → node.sha.number ≤ m.sha.number
  wrap : (∀ m ∈ nodes, m.sha.number < sha.number) → ∀ m ∈ nodes, node.sha.number ≤ m.sha.number

/-- The nodes that may come first when the ring is read from the key on. -/
def foremost (nodes : List Node) (sha : Digest) : List Node :=
  let candidates := if nodes.any (atOrAfter sha) then nodes.filter (atOrAfter sha) else nodes
  candidates.filter fun node => candidates.all fun m => nodeCmpSha node m ≤ 0

/-- The foremost nodes have one digest, which does not come before the key's unnoticed
unless all nodes do. -/
structure StartDecided (nodes : List Node) (sha : Digest) : Prop where
  nonempty : nodes ≠ []
  equal : ∀ a ∈ foremost nodes sha, ∀ b ∈ foremost nodes sha, a.sha = b.sha
  ties : ∀ a ∈ foremost nodes sha, strncmp a.sha.bytes sha.bytes shaDigestLength = 0 →
    sha.number ≤ a.sha.number ∨ ∀ m ∈ nodes, strncmp m.sha.bytes sha.bytes shaDigestLength = 0

variable {nodes ring : List Node} {sha : Digest} {node : Node}

private theorem IsSuccessor.sha_unique {other : Node} (h : IsSuccessor nodes sha node) (h' : IsSuccessor nodes sha other) :
    node.sha = other.sha := by
  rw [← Digest.number_inj]
  by_cases hexists : ∃ m ∈ nodes, sha.number ≤ m.sha.number
  · exact le_antisymm (h.least other h'.mem (h'.atOrAfter hexists)) (h'.least node h.mem (h.atOrAfter hexists))
  · have hall : ∀ m ∈ nodes, m.sha.number < sha.number := by simpa using hexists
    exact le_antisymm (h.wrap hall other h'.mem) (h'.wrap hall node h.mem)

/-- Either some nodes are at or after the key, the foremost ones least among them, or none
are and these are least of all. -/
theorem mem_foremost : node ∈ foremost nodes sha ↔ node ∈ nodes ∧
    ((visible sha.bytes ≤ node.rank ∧ ∀ m ∈ nodes, visible sha.bytes ≤ m.rank → node.rank ≤ m.rank) ∨
      (∀ m ∈ nodes, m.rank < visible sha.bytes) ∧ ∀ m ∈ nodes, node.rank ≤ m.rank) := by
  have htest : ∀ m, atOrAfter sha m = true ↔ visible sha.bytes ≤ m.rank := fun m => atOrAfter_iff
  rw [foremost]
  by_cases hany : nodes.any (atOrAfter sha)
  · obtain ⟨n,hn,hafter⟩ := List.any_eq_true.mp hany
    have hnot : ¬∀ m ∈ nodes, m.rank < visible sha.bytes := fun hall =>
      absurd (hall n hn) (not_lt.mpr ((htest n).mp hafter))
    simp only [hany,if_true,List.mem_filter,List.all_eq_true,decide_eq_true_eq,nodeCmpSha_nonpos,htest,
      and_imp,hnot,false_and,or_false,and_assoc]
  · have hall : ∀ m ∈ nodes, m.rank < visible sha.bytes := by simpa [htest] using hany
    simp only [hany,List.mem_filter,List.all_eq_true,decide_eq_true_eq,nodeCmpSha_nonpos]
    refine and_congr_right fun hmem => ?_
    rw [or_iff_right fun hor => absurd (hall node hmem) (not_lt.mpr hor.1)]
    exact (and_iff_right hall).symm

/-- Read from the start of the walk, a ring shows first the node that the search returns. -/
theorem getElem?_indexOfFirstNode (hne : ring ≠ []) (h : SortedBySha ring) :
    ring[indexOfFirstNode ring sha]? = (clockwise ring sha).head? := by
  rw [← rotate_indexOfFirstNode h,List.head?_rotate (indexOfFirstNode_lt hne sha)]

/-- The search returns a foremost node. -/
theorem start_mem_foremost (sha : Digest) (hne : ring ≠ []) (h : SortedBySha ring) :
    ∃ node ∈ foremost ring sha, ring[indexOfFirstNode ring sha]? = some node := by
  have hsorted := sortedBySha_iff.mp h
  rw [getElem?_indexOfFirstNode hne h,clockwise]
  cases hafter : ring.filter (atOrAfter sha) with
  | nil =>
    have hall : ∀ m ∈ ring, m.rank < visible sha.bytes := fun m hm => by
      rw [← not_le,← atOrAfter_iff]
      exact List.filter_eq_nil_iff.mp hafter m hm
    have hself : (ring.filter fun node => !atOrAfter sha node) = ring :=
      List.filter_eq_self.mpr fun m hm => by simpa using List.filter_eq_nil_iff.mp hafter m hm
    obtain ⟨node,rest,rfl⟩ := List.exists_cons_of_ne_nil hne
    rw [hself]
    refine ⟨node,mem_foremost.mpr ⟨List.mem_cons_self,Or.inr ⟨hall,?_⟩⟩,rfl⟩
    exact List.forall_mem_cons.mpr ⟨le_rfl,(List.pairwise_cons.mp hsorted).1⟩
  | cons node rest =>
    have hkept := hsorted.sublist (List.filter_sublist (p := atOrAfter sha))
    have hmem : node ∈ ring.filter (atOrAfter sha) := hafter ▸ List.mem_cons_self
    obtain ⟨hring,hnode⟩ := List.mem_filter.mp hmem
    refine ⟨node,mem_foremost.mpr ⟨hring,Or.inl ⟨atOrAfter_iff.mp hnode,fun m hm hvisible => ?_⟩⟩,rfl⟩
    have hm' : m ∈ ring.filter (atOrAfter sha) := List.mem_filter.mpr ⟨hm,atOrAfter_iff.mpr hvisible⟩
    rw [hafter] at hkept hm'
    rcases List.mem_cons.mp hm' with rfl | hrest
    · exact le_rfl
    · exact (List.pairwise_cons.mp hkept).1 m hrest

/-- Each foremost node is the start in some arrangement of the nodes. -/
theorem exists_ring_start (h : node ∈ foremost nodes sha) :
    ∃ ring : List Node, ring.Perm nodes ∧ SortedBySha ring ∧ ring[indexOfFirstNode ring sha]? = some node := by
  obtain ⟨hmem,hcases⟩ := mem_foremost.mp h
  obtain ⟨front,back,hperm,hsorted,hfront⟩ := exists_sortedBy_leading Node.rank hmem
  have hring := sortedBySha_iff.mpr hsorted
  refine ⟨front ++ node::back,hperm,hring,?_⟩
  rw [getElem?_indexOfFirstNode (by simp) hring,clockwise]
  have hbefore : ∀ m ∈ front, m ∈ nodes := fun m hm => hperm.mem_iff.mp (List.mem_append_left _ hm)
  rcases hcases with ⟨hvisible,hleast⟩ | ⟨hall,hleast⟩
  · have hnone : front.filter (atOrAfter sha) = [] := List.filter_eq_nil_iff.mpr fun m hm hafter =>
      absurd (hfront m hm) (not_lt.mpr (hleast m (hbefore m hm) (atOrAfter_iff.mp hafter)))
    rw [List.filter_append,hnone,List.nil_append,List.filter_cons_of_pos (atOrAfter_iff.mpr hvisible)]
    rfl
  · have hnil : front = [] := List.eq_nil_iff_forall_not_mem.mpr fun m hm =>
      absurd (hfront m hm) (not_lt.mpr (hleast m (hbefore m hm)))
    have hnone : (front ++ node::back).filter (atOrAfter sha) = [] := List.filter_eq_nil_iff.mpr fun m hm hafter =>
      absurd (hall m (hperm.mem_iff.mp hm)) (not_lt.mpr (atOrAfter_iff.mp hafter))
    rw [hnone,List.nil_append,hnil,List.nil_append,List.filter_cons_of_pos]
    · rfl
    · rw [Bool.not_eq_true',Bool.eq_false_iff]
      exact fun hafter => absurd (hall node hmem) (not_lt.mpr (atOrAfter_iff.mp hafter))

/-- The foremost nodes are least among those whose visible parts compare so. -/
theorem StartDecided.number_le (h : StartDecided nodes sha) (hnode : node ∈ foremost nodes sha) {m : Node}
    (hm : m ∈ nodes) (hrank : node.rank ≤ m.rank) : node.sha.number ≤ m.sha.number := by
  rcases lt_or_eq_of_le hrank with hlt | heq
  · exact (Digest.number_lt hlt).le
  · have hforemost : m ∈ foremost nodes sha := by
      have hcases := (mem_foremost.mp hnode).2
      rw [heq] at hcases
      exact mem_foremost.mpr ⟨hm,hcases⟩
    rw [h.equal node hnode m hforemost]

/-- Where the bytes behind the zeros do not matter, a foremost node is the successor. -/
theorem StartDecided.isSuccessor (h : StartDecided nodes sha) (hnode : node ∈ foremost nodes sha) :
    IsSuccessor nodes sha node := by
  obtain ⟨hmem,⟨hvisible,hleast⟩ | ⟨hall,hleast⟩⟩ := mem_foremost.mp hnode
  · have hleast' : ∀ m ∈ nodes, sha.number ≤ m.sha.number → node.sha.number ≤ m.sha.number := fun m hm hafter =>
      h.number_le hnode hm (hleast m hm (Digest.visible_le hafter))
    by_cases hafter : sha.number ≤ node.sha.number
    · exact ⟨hmem,fun _ => hafter,hleast',fun hwrap => absurd (hwrap node hmem) (not_lt.mpr hafter)⟩
    · have hties : visible node.sha.bytes = visible sha.bytes :=
        le_antisymm (not_lt.mp fun hlt => hafter (Digest.number_lt hlt).le) hvisible
      have htied := (h.ties node hnode (strncmp_sha_eq_zero.mpr hties)).resolve_left hafter
      have hnumber : ∀ m ∈ nodes, node.sha.number ≤ m.sha.number := fun m hm =>
        h.number_le hnode hm (hleast m hm (strncmp_sha_eq_zero.mp (htied m hm)).ge)
      have hsame : ∀ m ∈ nodes, node.sha = m.sha := fun m hm => by
        have hrank := (strncmp_sha_eq_zero.mp (htied m hm)).trans hties.symm
        refine h.equal node hnode m (mem_foremost.mpr ⟨hm,Or.inl ⟨?_,fun m' hm' hv => ?_⟩⟩)
        · exact hvisible.trans hrank.ge
        · exact hrank.le.trans (hleast m' hm' hv)
      refine ⟨hmem,fun ⟨m,hm,hle⟩ => ?_,fun m hm _ => hnumber m hm,fun _ => hnumber⟩
      rwa [hsame m hm]
  · have hbefore : ∀ m ∈ nodes, m.sha.number < sha.number := fun m hm => Digest.number_lt (hall m hm)
    refine ⟨hmem,fun ⟨m,hm,hle⟩ => absurd (hbefore m hm) (not_lt.mpr hle),
      fun m hm hle => absurd (hbefore m hm) (not_lt.mpr hle),fun _ m hm => h.number_le hnode hm (hleast m hm)⟩

private theorem StartDecided.of_isSuccessor (hne : nodes ≠ [])
    (h : ∀ node ∈ foremost nodes sha, IsSuccessor nodes sha node) : StartDecided nodes sha := by
  refine ⟨hne,fun a ha b hb => (h a ha).sha_unique (h b hb),fun a ha hzero => ?_⟩
  by_contra hneither
  obtain ⟨hbefore,hother⟩ := not_or.mp hneither
  have hbefore' := not_le.mp hbefore
  -- no node has a digest from the key's on, since `a` would not be its successor
  have hwrap : ∀ m ∈ nodes, m.sha.number < sha.number := fun m hm =>
    not_le.mp fun hle => hbefore ((h a ha).atOrAfter ⟨m,hm,hle⟩)
  refine hother fun m hm => strncmp_sha_eq_zero.mpr (le_antisymm ?_ ?_)
  · exact not_lt.mp fun hlt => absurd (Digest.number_lt hlt) (not_lt.mpr (hwrap m hm).le)
  · rw [← strncmp_sha_eq_zero.mp hzero]
    exact Digest.visible_le ((h a ha).wrap hwrap m hm)

private theorem IsSuccessor.perm (h : IsSuccessor ring sha node) (hperm : ring.Perm nodes) : IsSuccessor nodes sha node := by
  obtain ⟨hmem,hafter,hleast,hwrap⟩ := h
  simp only [hperm.mem_iff] at hmem hafter hleast hwrap
  exact ⟨hmem,hafter,hleast,hwrap⟩

private theorem mem_foremost_perm (hperm : ring.Perm nodes) : node ∈ foremost ring sha ↔ node ∈ foremost nodes sha := by
  simp only [mem_foremost,hperm.mem_iff]

/-- A sorting function may arrange given nodes in any sorted order. -/
theorem exists_sortsBySha (hperm : ring.Perm nodes) (h : SortedBySha ring) :
    ∃ qsort, SortsBySha qsort ∧ qsort nodes = ring := by
  refine ⟨fun list => if list = nodes then ring else insertionSortBySha list,fun list => ?_,if_pos rfl⟩
  dsimp only
  split
  · rename_i heq
    exact ⟨heq ▸ hperm,h⟩
  · exact insertionSortBySha_sorts list

/-- Whatever sorted order the ring is in, the search returns the successor of the key exactly
when the visible parts of the digests decide which node that is. -/
theorem indexOfFirstNode_successor_iff (sha1 : Bytes → Digest) (nodes : List Node) (key : CString) :
    (∀ qsort, SortsBySha qsort → ∃ node,
      (qsort nodes)[indexOfFirstNode (qsort nodes) (sha1 key.chars)]? = some node ∧
        IsSuccessor (qsort nodes) (sha1 key.chars) node) ↔ StartDecided nodes (sha1 key.chars) := by
  constructor
  · intro h
    have hne : nodes ≠ [] := by
      rintro rfl
      obtain ⟨node,hnode,-⟩ := h insertionSortBySha insertionSortBySha_sorts
      cases hnode
    refine StartDecided.of_isSuccessor hne fun node hnode => ?_
    obtain ⟨ring,hperm,hsorted,hstart⟩ := exists_ring_start hnode
    obtain ⟨qsort,hsorts,rfl⟩ := exists_sortsBySha hperm hsorted
    obtain ⟨node',hstart',hsuccessor⟩ := h qsort hsorts
    obtain rfl := Option.some.inj (hstart.symm.trans hstart')
    exact hsuccessor.perm hperm
  · intro h qsort hsorts
    obtain ⟨hperm,hsorted⟩ := hsorts nodes
    have hne : qsort nodes ≠ [] := fun hnil => h.nonempty (List.Perm.nil_eq (hnil ▸ hperm)).symm
    obtain ⟨node,hforemost,hstart⟩ := start_mem_foremost (sha1 key.chars) hne hsorted
    have hsuccessor := h.isSuccessor ((mem_foremost_perm hperm).mp hforemost)
    exact ⟨node,hstart,hsuccessor.perm hperm.symm⟩

/-- A digest of zeros except for its second byte. -/
def secondByte (c : UInt8) : Digest := ⟨[0,c] ++ List.replicate 18 0,rfl⟩

/-- The digest of the key `k` lies between those of the nodes of 127.0.0.1 and of other servers. -/
def zeroFirst (text : Bytes) : Digest :=
  if text = CString.letterK.chars then secondByte 4
  else if text.take 9 = [49,50,55,46,48,46,48,46,49] then secondByte 3
  else secondByte 5

/-- Behind a first byte of zero the node with the digest before the key's is taken, although
another node has a digest after it. -/
theorem indexOfFirstNode_misses_successor :
    ¬∀ (sha1 : Bytes → Digest) (inetPton : CString → Option UInt32) (file : Bytes) (key : CString)
      (qsort : List Node → List Node), listedNodes sha1 inetPton (some file) ≠ [] → SortsBySha qsort → ∃ node,
        let ring := qsort (listedNodes sha1 inetPton (some file))
        ring[indexOfFirstNode ring (sha1 key.chars)]? = some node ∧ IsSuccessor ring (sha1 key.chars) node := by
  intro h
  obtain ⟨node,hstart,hsuccessor⟩ := h zeroFirst loopback (loopbackLine 49 ++ 10::loopbackLine 50) .letterK
    insertionSortBySha (by decide) insertionSortBySha_sorts
  have hfirst : node = ⟨⟨0x7f000001,1234⟩,secondByte 3⟩ := Option.some.inj (hstart.symm.trans (by decide))
  have hafter := hsuccessor.atOrAfter ⟨⟨⟨0x7f000002,1234⟩,secondByte 5⟩,by decide,by decide⟩
  rw [hfirst] at hafter
  exact absurd hafter (by decide)

end PpsDht
