import Mathlib.Data.List.Lex
import PpsDht.RingWalk
import PpsDht.SortedLists

/-! # Rings sorted by digest

`strncmp` stops at a zero byte, so it compares the digests up to their first zero.
On a ring sorted by this comparison the search for the first node of a key splits
the nodes at the key. The nodes of a new server do not change the order in which the
walk meets the others, so the servers of a key stay or make room for the new one. -/
namespace PpsDht
open SortedLists Mem FirstOccurrences

/-- The part of an array that `strncmp` compares. -/
def visible (bytes : Bytes) : List ℕ := (upToNul bytes).chars.map UInt8.toNat

@[simp] theorem visible_cons (c : UInt8) (bytes : Bytes) :
    visible (c::bytes) = if c = 0 then [] else c.toNat::visible bytes := by
  by_cases h : c = 0 <;> simp [visible,upToNul,h]

/-- The sign of `strncmp` on arrays of the same length is the order of their visible parts. -/
theorem strncmp_sign {as bs : Bytes} {n : ℕ} (hlen : as.length = bs.length) (hn : as.length ≤ n) :
    (strncmp as bs n < 0 ↔ visible as < visible bs) ∧ (0 < strncmp as bs n ↔ visible bs < visible as) := by
  induction as generalizing bs n with
  | nil =>
    obtain rfl := List.length_eq_zero_iff.mp hlen.symm
    simp [strncmp]
  | cons a as ih =>
    obtain ⟨b,bs,rfl⟩ := List.exists_cons_of_length_eq_add_one hlen.symm
    obtain ⟨n,rfl⟩ := Nat.exists_eq_succ_of_ne_zero (Nat.ne_zero_of_lt hn)
    have hrest := ih (Nat.succ.inj hlen) (Nat.le_of_succ_le_succ hn)
    by_cases hab : a = b
    · by_cases ha : a = 0
      · simp [strncmp,← hab,ha]
      · simp [strncmp,← hab,ha,hrest]
    · have hnat : a.toNat ≠ b.toNat := fun h => hab (UInt8.toNat_inj.mp h)
      by_cases ha : a = 0
      · by_cases hb : b = 0
        · exact absurd (ha.trans hb.symm) hab
        · have hpos : b.toNat ≠ 0 := fun h => hb (UInt8.toNat_inj.mp h)
          simp [strncmp,ha,hb,Ne.symm hb]
          omega
      · by_cases hb : b = 0
        · have hpos : a.toNat ≠ 0 := fun h => ha (UInt8.toNat_inj.mp h)
          simp [strncmp,ha,hb]
          omega
        · simp [strncmp,ha,hb,hab,List.cons_lt_cons_iff,hnat,Ne.symm hnat]

/-- What the comparison of nodes sees of a node. -/
def Node.rank (node : Node) : List ℕ := visible node.sha.bytes

private theorem strncmp_sha_nonpos {a b : Digest} :
    strncmp a.bytes b.bytes shaDigestLength ≤ 0 ↔ visible a.bytes ≤ visible b.bytes := by
  rw [← not_lt,(strncmp_sign (a.length_bytes.trans b.length_bytes.symm) a.length_bytes.le).2,not_lt]

private theorem strncmp_sha_nonneg {a b : Digest} :
    0 ≤ strncmp a.bytes b.bytes shaDigestLength ↔ visible b.bytes ≤ visible a.bytes := by
  rw [← not_lt,(strncmp_sign (a.length_bytes.trans b.length_bytes.symm) a.length_bytes.le).1,not_lt]

theorem nodeCmpSha_nonpos {a b : Node} : nodeCmpSha a b ≤ 0 ↔ a.rank ≤ b.rank := strncmp_sha_nonpos

theorem strncmp_sha_eq_zero {a b : Digest} :
    strncmp a.bytes b.bytes shaDigestLength = 0 ↔ visible a.bytes = visible b.bytes := by
  rw [le_antisymm_iff,strncmp_sha_nonpos,strncmp_sha_nonneg,le_antisymm_iff]

theorem nodeCmpSha_eq_zero {a b : Node} : nodeCmpSha a b = 0 ↔ a.rank = b.rank := strncmp_sha_eq_zero

/-- As `qsort` leaves it: no node is greater than a later one. -/
def SortedBySha (ring : List Node) : Prop := ring.Pairwise fun a b => nodeCmpSha a b ≤ 0

theorem sortedBySha_iff {ring : List Node} : SortedBySha ring ↔ SortedBy Node.rank ring := by
  simp only [SortedBySha,SortedBy,nodeCmpSha_nonpos]

/-- What the standard promises of `qsort` with `node_cmp_sha`; equal nodes may change places. -/
def SortsBySha (qsort : List Node → List Node) : Prop :=
  ∀ nodes, (qsort nodes).Perm nodes ∧ SortedBySha (qsort nodes)

def insertionSortBySha (nodes : List Node) : List Node := nodes.insertionSort fun a b => nodeCmpSha a b ≤ 0

theorem insertionSortBySha_sorts : SortsBySha insertionSortBySha := by
  have htotal : Std.Total fun a b : Node => nodeCmpSha a b ≤ 0 :=
    ⟨fun a b => by simpa only [nodeCmpSha_nonpos] using le_total a.rank b.rank⟩
  have htrans : IsTrans Node fun a b => nodeCmpSha a b ≤ 0 :=
    ⟨fun a b c => by simpa only [nodeCmpSha_nonpos] using le_trans⟩
  exact fun nodes => ⟨List.perm_insertionSort _ nodes,List.pairwise_insertionSort _ nodes⟩

/-- The test of the search for the first node of a key. -/
def atOrAfter (sha : Digest) (node : Node) : Bool := strncmp node.sha.bytes sha.bytes shaDigestLength ≥ 0

theorem atOrAfter_iff {sha : Digest} {node : Node} : atOrAfter sha node ↔ visible sha.bytes ≤ node.rank := by
  rw [atOrAfter,decide_eq_true_iff,ge_iff_le,strncmp_sha_nonneg]
  rfl

/-- The ring read from the start of the walk. -/
def clockwise (ring : List Node) (sha : Digest) : List Node :=
  ring.filter (atOrAfter sha) ++ ring.filter fun node => !atOrAfter sha node

theorem rotate_indexOfFirstNode {ring : List Node} (h : SortedBySha ring) (sha : Digest) :
    ring.rotate (indexOfFirstNode ring sha) = clockwise ring sha :=
  (sortedBySha_iff.mp h).rotate_lowerBound (visible sha.bytes) fun _ => atOrAfter_iff

/-- The ring with nodes of the server `s`, which had none, inserted between its own. -/
inductive Inserted (s : SockAddr) : List Node → List Node → Prop
  | nil : Inserted s [] []
  | old {ring ring' : List Node} {node : Node} (h : Inserted s ring ring') (hnode : node.address ≠ s) :
      Inserted s (node::ring) (node::ring')
  | new {ring ring' : List Node} {node : Node} (h : Inserted s ring ring') (hnode : node.address = s) :
      Inserted s ring (node::ring')

variable {s : SockAddr} {ring ring' : List Node}

theorem Inserted.filter (h : Inserted s ring ring') : ring'.filter (fun node => node.address ≠ s) = ring := by
  induction h with
  | nil => rfl
  | old _ hnode ih => rw [List.filter_cons_of_pos (by simpa using hnode),ih]
  | new _ hnode ih => rw [List.filter_cons_of_neg (by simpa using hnode),ih]

theorem Inserted.sublist (h : Inserted s ring ring') : ring.Sublist ring' := by
  rw [← h.filter]
  exact List.filter_sublist

/-- Where the walk starts does not move, up to nodes of the new server. -/
theorem Inserted.clockwise (h : Inserted s ring ring') (sha : Digest) :
    (PpsDht.clockwise ring' sha).filter (fun node => node.address ≠ s) = PpsDht.clockwise ring sha := by
  rw [PpsDht.clockwise,List.filter_append,List.filter_comm,List.filter_comm (fun node => decide _),h.filter,
    PpsDht.clockwise]

/-- All servers in the order of the walk. -/
theorem Inserted.servers (h : Inserted s ring ring') (hsorted : SortedBySha ring') (sha : Digest) :
    ((distinctBy Node.address [] (ring'.rotate (indexOfFirstNode ring' sha))).map Node.address).filter (· ≠ s) =
      (distinctBy Node.address [] (ring.rotate (indexOfFirstNode ring sha))).map Node.address := by
  have hold : SortedBySha ring := List.Pairwise.sublist h.sublist hsorted
  rw [rotate_indexOfFirstNode hsorted,rotate_indexOfFirstNode hold,← h.clockwise sha,List.filter_map]
  exact congrArg (List.map Node.address) (filter_distinctBy Node.address s (fun _ _ => Iff.rfl) _)

theorem Inserted.length_le (h : Inserted s ring ring') :
    (ring.map Node.address).dedup.length ≤ (ring'.map Node.address).dedup.length := by
  refine List.Subperm.length_le (List.subperm_of_subset (List.nodup_dedup _) fun a ha => ?_)
  rw [List.mem_dedup] at ha ⊢
  exact (h.sublist.map Node.address).subset ha

/-- With nodes of a new server in the ring the servers of a key are as before, or the new
server is among them once and the others are the first of those before. -/
theorem ringGetNodesForKey_inserted (sha1 : Bytes → Digest) (ring ring' : List Node) (s : SockAddr) (n : ℕ)
    (key : CString) (h : Inserted s ring ring') (hsorted : SortedBySha ring')
    (hn : n ≤ (ring.map Node.address).dedup.length) :
    ∃ old new : List Node, Succeeds (ringGetNodesForKey sha1 ring n key) (some old) ∧
      Succeeds (ringGetNodesForKey sha1 ring' n key) (some new) ∧
      (new.map Node.address = old.map Node.address ∨
        (new.map Node.address).count s = 1 ∧
          (new.map Node.address).filter (· ≠ s) = (old.map Node.address).take (n - 1)) := by
  refine ⟨_,_,ringGetNodesForKey_serversFrom sha1 key hn,
    ringGetNodesForKey_serversFrom sha1 key (hn.trans h.length_le),?_⟩
  have hservers := h.servers hsorted (sha1 key.chars)
  have hnodup := nodup_map_distinctBy Node.address []
    (ring'.rotate (indexOfFirstNode ring' (sha1 key.chars)))
  have hcases := take_filter_ne hnodup s n
  rw [hservers] at hcases
  simp only [serversFrom,List.map_take]
  refine hcases.imp_right ?_
  rintro ⟨hcount,htake⟩
  refine ⟨hcount,htake.trans ?_⟩
  rw [List.take_take,Nat.min_eq_left (Nat.sub_le n 1)]

/-- The server on the first port joins two others and serves the key from then on. -/
theorem ringGetNodesForKey_inserted_first :
    ∃ old new : List Node,
      Succeeds (ringGetNodesForKey (fun _ => .zero) (localRing 3).tail 2 .letterK) (some old) ∧
      Succeeds (ringGetNodesForKey (fun _ => .zero) (localRing 3) 2 .letterK) (some new) ∧
      (new.map Node.address = old.map Node.address ∨
        (new.map Node.address).count ⟨0x7f000001,0⟩ = 1 ∧
          (new.map Node.address).filter (· ≠ ⟨0x7f000001,0⟩) = (old.map Node.address).take (2 - 1)) := by
  have hinserted : Inserted ⟨0x7f000001,0⟩ (localRing 3).tail (localRing 3) :=
    .new (.old (.old .nil (by decide)) (by decide)) rfl
  exact ringGetNodesForKey_inserted (fun _ => .zero) (localRing 3).tail (localRing 3) ⟨0x7f000001,0⟩ 2
    .letterK hinserted (by unfold SortedBySha; decide) (by decide)

end PpsDht
