import Mathlib.Data.List.Rotate
import PpsDht.FirstOccurrences
import PpsDht.Nodes

/-! # The walk finds the first distinct servers

After some turns the list holds the first node of each server met so far, and the
index stands right behind the nodes met. One turn of the ring meets them all. -/
namespace PpsDht
open Mem FirstOccurrences

theorem alreadyPresentInList_iff (list : List Node) (node : Node) :
    alreadyPresentInList list node = true ↔ node.address ∈ list.map Node.address := by
  simp [alreadyPresentInList,nodeCmpServerAddr_eq_zero]

theorem indexOfFirstNode_lt {ring : List Node} (h : ring ≠ []) (sha : Digest) :
    indexOfFirstNode ring sha < ring.length := by
  rw [indexOfFirstNode]
  cases hi : ring.findIdx? fun node => strncmp node.sha.bytes sha.bytes shaDigestLength ≥ 0 with
  | none => exact List.length_pos_iff.mpr h
  | some i => exact (List.findIdx?_eq_some_iff_findIdx_eq.mp hi).1

/-- The nodes met split the ring, read from the start of the walk. -/
structure WalkInvariant (ring : List Node) (start : ℕ) (before after : List Node) (w : Walk) : Prop where
  ring_eq : w.ring = ring
  split : ring.rotate start = before ++ after
  index_eq : w.index = (start + before.length) % ring.length
  list_eq : w.list = distinctBy Node.address [] before

private theorem walkInvariant_initial {ring : List Node} {start : ℕ} (h : start < ring.length) :
    WalkInvariant ring start [] (ring.rotate start) ⟨ring,[],start⟩ :=
  ⟨rfl,rfl,(Nat.mod_eq_of_lt h).symm,rfl⟩

theorem WalkInvariant.node {ring : List Node} {start : ℕ} {before after : List Node} {node : Node}
    {w : Walk} (h : WalkInvariant ring start before (node::after) w) : w.ring[w.index]? = some node := by
  have hlen := congrArg List.length h.split
  rw [List.length_rotate,List.length_append,List.length_cons] at hlen
  have hget : (ring.rotate start)[before.length]? = some node := by
    rw [h.split,List.getElem?_append_right le_rfl,Nat.sub_self,List.getElem?_cons_zero]
  rw [List.getElem?_rotate (by omega)] at hget
  rw [h.ring_eq,h.index_eq,Nat.add_comm start,hget]

/-- One turn meets the next node and keeps it if its server is new. -/
theorem walkInvariant_step {ring : List Node} {start : ℕ} {before after : List Node} {node : Node}
    {w : Walk} (h : WalkInvariant ring start before (node::after) w) :
    ∃ w', Succeeds (walkStep w) w' ∧ WalkInvariant ring start (before ++ [node]) after w' := by
  have hlist := distinctBy_concat Node.address before node
  have hmem := alreadyPresentInList_iff w.list node
  rw [h.list_eq] at hmem
  refine ⟨⟨ring,distinctBy Node.address [] (before ++ [node]),(w.index + 1) % ring.length⟩,?_,?_⟩
  · apply (lift_succeeds h.node).bind
    rw [h.ring_eq]
    by_cases hp : node.address ∈ (distinctBy Node.address [] before).map Node.address
    · rw [if_pos hp] at hlist
      rw [h.list_eq,if_pos (hmem.mpr hp),hlist]
      exact .pure _
    · rw [if_neg hp] at hlist
      rw [h.list_eq,if_neg (mt hmem.mp hp),hlist]
      have hnodup := nodup_map_distinctBy Node.address [] (before ++ [node])
      rw [hlist] at hnodup
      exact (nodeListAdd_succeeds hnodup).bind (.pure _)
  · refine ⟨rfl,?_,?_,rfl⟩
    · rw [h.split,List.append_assoc,List.singleton_append]
    · rw [h.index_eq,Nat.mod_add_mod,List.length_append,List.length_singleton,Nat.add_assoc]

private theorem walk_done {n fuel : ℕ} {w : Walk} (h : n ≤ w.list.length) :
    Succeeds (walk n fuel w) w := by
  have hn : ¬w.list.length < n := Nat.not_lt.mpr h
  cases fuel <;> rw [walk,if_neg hn] <;> exact .pure w

/-- The loop ends before the nodes run out, if they hold enough servers. -/
theorem walk_succeeds {ring : List Node} {start n fuel : ℕ} {before after : List Node} {w : Walk}
    (h : WalkInvariant ring start before after w) (hfuel : after.length ≤ fuel) (hle : w.list.length ≤ n)
    (hn : n ≤ (distinctBy Node.address [] (before ++ after)).length) :
    ∃ w', Succeeds (walk n fuel w) w' ∧ w'.ring = ring ∧
      w'.list = (distinctBy Node.address [] (before ++ after)).take n := by
  induction after generalizing before fuel w with
  | nil =>
    rw [List.append_nil] at hn ⊢
    rw [← h.list_eq] at hn ⊢
    exact ⟨w,walk_done hn,h.ring_eq,(List.take_of_length_le hle).symm⟩
  | cons node after ih =>
    rcases Nat.lt_or_eq_of_le hle with hlt | heq
    · obtain ⟨fuel,rfl⟩ := Nat.exists_eq_succ_of_ne_zero (Nat.ne_zero_of_lt hfuel)
      obtain ⟨w₁,hstep,h₁⟩ := walkInvariant_step h
      have hle₁ : w₁.list.length ≤ n := by
        rw [h₁.list_eq,distinctBy_concat,← h.list_eq]
        split
        · exact hle
        · rwa [List.length_append,List.length_singleton]
      rw [List.append_cons] at hn ⊢
      obtain ⟨w₂,hwalk,hring,hlist⟩ := ih h₁ (Nat.le_of_succ_le_succ hfuel) hle₁ hn
      refine ⟨w₂,?_,hring,hlist⟩
      rw [walk,if_pos hlt]
      exact hstep.bind hwalk
    · refine ⟨w,walk_done heq.ge,h.ring_eq,?_⟩
      rw [distinctBy_append,← h.list_eq,← heq,List.take_left]

/-- One turn of the ring is enough. -/
theorem walk_turn {ring : List Node} {start n fuel : ℕ} (hstart : start < ring.length)
    (hfuel : ring.length ≤ fuel) (hn : n ≤ (ring.map Node.address).dedup.length) :
    ∃ w, Succeeds (walk n fuel ⟨ring,[],start⟩) w ∧ w.ring = ring ∧
      w.list = (distinctBy Node.address [] (ring.rotate start)).take n := by
  have hcount : (distinctBy Node.address [] (ring.rotate start)).length =
      (ring.map Node.address).dedup.length := by
    rw [length_distinctBy]
    exact (((ring.rotate_perm start).map Node.address).dedup).length_eq
  have hlen := (List.length_rotate ring start).trans_le hfuel
  have hwalk := walk_succeeds (walkInvariant_initial hstart) hlen (Nat.zero_le n) (hn.trans hcount.ge)
  exact hwalk

/-- The servers of a key, as the walk finds them. -/
def serversFrom (ring : List Node) (start n : ℕ) : List Node :=
  (distinctBy Node.address [] (ring.rotate start)).take n

theorem ringGetNodesForKey_succeeds {sha1 : Bytes → Digest} {ring : List Node} {n : ℕ} {key : CString}
    (hring : ring ≠ []) (hn : n ≤ (ring.map Node.address).dedup.length) :
    Succeeds (ringGetNodesForKey sha1 ring n key)
      (some (serversFrom ring (indexOfFirstNode ring (sha1 key.chars)) n)) := by
  have hstart := indexOfFirstNode_lt hring (sha1 key.chars)
  obtain ⟨w,hwalk,-,hlist⟩ := walk_turn hstart (Nat.le_mul_of_pos_right ring.length (Nat.succ_pos 0)) hn
  have hnew : Succeeds nodeListNew (some []) := malloc_succeeds.bind (.pure _)
  have hget : Succeeds (get : Mem Outcomes) [] := rfl
  rw [serversFrom,← hlist]
  exact hnew.bind (hget.bind (hwalk.bind (.pure _)))

/-- The empty ring serves as well, when no server is asked for. -/
theorem ringGetNodesForKey_serversFrom (sha1 : Bytes → Digest) {ring : List Node} {n : ℕ} (key : CString)
    (hn : n ≤ (ring.map Node.address).dedup.length) :
    Succeeds (ringGetNodesForKey sha1 ring n key)
      (some (serversFrom ring (indexOfFirstNode ring (sha1 key.chars)) n)) := by
  cases ring with
  | nil =>
    obtain rfl := Nat.le_zero.mp hn
    rfl
  | cons node ring => exact ringGetNodesForKey_succeeds (List.cons_ne_nil node ring) hn

/-- Whatever allocations fail, a turn takes the node from the ring. -/
theorem walkStep_subset {w w' : Walk} {outcomes rest : Outcomes} (h : walkStep w outcomes = some (w',rest)) :
    w'.ring = w.ring ∧ (w.list ⊆ w.ring → w'.list ⊆ w.ring) := by
  obtain ⟨node,rest₁,hnode,h⟩ := of_bind_eq_some h
  have hmem : node ∈ w.ring := by
    cases hget : w.ring[w.index]? with
    | none =>
      rw [hget] at hnode
      cases hnode
    | some other =>
      rw [hget] at hnode
      cases hnode
      exact List.mem_of_getElem? hget
  dsimp only at h
  split at h
  · cases h
    exact ⟨rfl,id⟩
  · obtain ⟨⟨code,list⟩,rest₂,hadd,h⟩ := of_bind_eq_some h
    cases h
    refine ⟨rfl,fun hsub => ?_⟩
    rcases nodeListAdd_cases hadd with ⟨-,rfl⟩ | ⟨-,rfl⟩
    · exact List.append_subset.mpr ⟨hsub,List.cons_subset.mpr ⟨hmem,List.nil_subset _⟩⟩
    · exact hsub

private theorem walk_subset {n fuel : ℕ} {w w' : Walk} {outcomes rest : Outcomes}
    (h : walk n fuel w outcomes = some (w',rest)) (hsub : w.list ⊆ w.ring) : w'.list ⊆ w.ring := by
  induction fuel generalizing w outcomes with
  | zero =>
    rw [walk] at h
    split at h
    · cases h
    · cases h
      exact hsub
  | succ fuel ih =>
    rw [walk] at h
    split at h
    · obtain ⟨w₁,rest₁,hstep,h⟩ := of_bind_eq_some h
      obtain ⟨hring,hsub₁⟩ := walkStep_subset hstep
      have hrest := ih h (hring ▸ hsub₁ hsub)
      rwa [hring] at hrest
    · cases h
      exact hsub

/-- The servers of a key are on the ring. -/
theorem ringGetNodesForKey_subset {sha1 : Bytes → Digest} {ring nodes : List Node} {n : ℕ} {key : CString}
    {outcomes rest : Outcomes} (h : ringGetNodesForKey sha1 ring n key outcomes = some (some nodes,rest)) :
    nodes ⊆ ring := by
  obtain ⟨list,rest₁,hnew,h⟩ := of_bind_eq_some h
  rw [nodeListNew,malloc_bind] at hnew
  split at hnew
  · cases hnew
    obtain ⟨outcomes',rest₂,hget,h⟩ := of_bind_eq_some h
    obtain ⟨w,rest₃,hwalk,h⟩ := of_bind_eq_some h
    cases h
    exact walk_subset hwalk (List.nil_subset _)
  · cases hnew
    cases h

private theorem walkStep_nodup {w w' : Walk} {outcomes rest : Outcomes} (h : walkStep w outcomes = some (w',rest))
    (hnodup : (w.list.map Node.address).Nodup) : (w'.list.map Node.address).Nodup := by
  obtain ⟨node,rest₁,-,h⟩ := of_bind_eq_some h
  dsimp only at h
  split at h
  · cases h
    exact hnodup
  · rename_i hnew
    obtain ⟨⟨code,list⟩,rest₂,hadd,h⟩ := of_bind_eq_some h
    cases h
    rcases nodeListAdd_cases hadd with ⟨-,rfl⟩ | ⟨-,rfl⟩
    · rw [List.map_append]
      refine List.nodup_append'.mpr ⟨hnodup,List.nodup_singleton _,fun a ha hmem => hnew ?_⟩
      exact (alreadyPresentInList_iff w.list node).mpr (List.mem_singleton.mp hmem ▸ ha)
    · exact hnodup

private theorem walk_nodup {n fuel : ℕ} {w w' : Walk} {outcomes rest : Outcomes}
    (h : walk n fuel w outcomes = some (w',rest)) (hnodup : (w.list.map Node.address).Nodup) :
    n ≤ w'.list.length ∧ (w'.list.map Node.address).Nodup := by
  induction fuel generalizing w outcomes with
  | zero =>
    rw [walk] at h
    split at h
    · cases h
    · rename_i hn
      cases h
      exact ⟨Nat.not_lt.mp hn,hnodup⟩
  | succ fuel ih =>
    rw [walk] at h
    split at h
    · obtain ⟨w₁,rest₁,hstep,h⟩ := of_bind_eq_some h
      exact ih h (walkStep_nodup hstep hnodup)
    · rename_i hn
      cases h
      exact ⟨Nat.not_lt.mp hn,hnodup⟩

/-- A selection that comes to an end, whatever allocations fail, has found enough servers. -/
theorem ringGetNodesForKey_enough {sha1 : Bytes → Digest} {ring nodes : List Node} {n : ℕ} {key : CString}
    {outcomes rest : Outcomes} (h : ringGetNodesForKey sha1 ring n key outcomes = some (some nodes,rest)) :
    n ≤ (ring.map Node.address).dedup.length := by
  have hsub := ringGetNodesForKey_subset h
  obtain ⟨list,rest₁,hnew,h⟩ := of_bind_eq_some h
  rw [nodeListNew,malloc_bind] at hnew
  split at hnew
  · cases hnew
    obtain ⟨outcomes',rest₂,hget,h⟩ := of_bind_eq_some h
    obtain ⟨w,rest₃,hwalk,h⟩ := of_bind_eq_some h
    cases h
    obtain ⟨hn,hnodup⟩ := walk_nodup hwalk List.nodup_nil
    have hle := (hnodup.subperm fun a ha => List.mem_dedup.mpr (List.map_subset _ hsub ha)).length_le
    rw [List.length_map] at hle
    exact hn.trans hle
  · cases hnew
    cases h

@[simp] theorem length_serversFrom {ring : List Node} {start n : ℕ}
    (hn : n ≤ (ring.map Node.address).dedup.length) : (serversFrom ring start n).length = n := by
  rw [serversFrom,List.length_take,length_distinctBy]
  have hperm := (((ring.rotate_perm start).map Node.address).dedup).length_eq
  omega

theorem nodup_serversFrom (ring : List Node) (start n : ℕ) :
    ((serversFrom ring start n).map Node.address).Nodup := by
  rw [serversFrom,List.map_take]
  exact (nodup_map_distinctBy Node.address [] (ring.rotate start)).sublist (List.take_sublist _ _)

/-- The node at position `j` is the first of its server from `start` on, and `j`
servers come before it. -/
theorem serversFrom_first {ring : List Node} {start n j : ℕ} {node : Node}
    (h : (serversFrom ring start n)[j]? = some node) :
    ∃ before after : List Node, ring.rotate start = before ++ node::after ∧
      node.address ∉ before.map Node.address ∧ (before.map Node.address).dedup.length = j := by
  rw [serversFrom,List.getElem?_take] at h
  split at h
  · obtain ⟨before,after,hsplit,-,hnew,hj⟩ := distinctBy_getElem? Node.address h
    rw [length_distinctBy] at hj
    exact ⟨before,after,hsplit,hnew,hj⟩
  · cases h

/-- The selection ends within one turn, leaves the ring alone and returns the
first `n` distinct servers clockwise from the successor of the key, each by the
first of its nodes. -/
theorem ringGetNodesForKey_selects (sha1 : Bytes → Digest) (ring : List Node) (n : ℕ) (key : CString)
    (hring : ring ≠ []) (hn : n ≤ (ring.map Node.address).dedup.length) :
    let start := indexOfFirstNode ring (sha1 key.chars)
    ∃ nodes : List Node, Succeeds (ringGetNodesForKey sha1 ring n key) (some nodes) ∧
      (∃ w, Succeeds (walk n ring.length ⟨ring,[],start⟩) w ∧ w.ring = ring ∧ w.list = nodes) ∧
      nodes.length = n ∧ (nodes.map Node.address).Nodup ∧
      ∀ j node, nodes[j]? = some node → ∃ before after : List Node,
        ring.rotate start = before ++ node::after ∧ node.address ∉ before.map Node.address ∧
        (before.map Node.address).dedup.length = j := by
  intro start
  have hwalk := walk_turn (indexOfFirstNode_lt hring (sha1 key.chars)) le_rfl hn
  refine ⟨serversFrom ring start n,ringGetNodesForKey_succeeds hring hn,hwalk,length_serversFrom hn,
    nodup_serversFrom ring start n,fun j node hj => ?_⟩
  exact serversFrom_first hj

/-- Servers on the first `n` ports of the local address, one node each. -/
def localRing (n : ℕ) : List Node :=
  (List.range n).map fun port => ⟨⟨0x7f000001,UInt16.ofNat port⟩,.zero⟩

theorem localRing_distinct {n : ℕ} (h : n ≤ 2^16) : ((localRing n).map Node.address).dedup.length = n := by
  have hnodup : ((localRing n).map Node.address).Nodup := by
    rw [localRing,List.map_map]
    refine List.Nodup.map_on (fun i hi j hj hij => ?_) List.nodup_range
    have hport := congrArg UInt16.toNat (SockAddr.mk.inj hij).2
    rw [List.mem_range] at hi hj
    simp only [UInt16.toNat_ofNat'] at hport
    omega
  rw [hnodup.dedup,List.length_map,localRing,List.length_map,List.length_range]

private theorem localRing_ne_nil {n : ℕ} (h : n ≠ 0) : localRing n ≠ [] := by
  simpa [localRing] using h

theorem ringGetNodesForKey_selects_two :
    ∃ nodes, Succeeds (ringGetNodesForKey (fun _ => .zero) (localRing 3) 2 .letterK) (some nodes) ∧
      nodes.length = 2 ∧ (nodes.map Node.address).Nodup := by
  obtain ⟨nodes,h,-,hlen,hnodup,-⟩ := ringGetNodesForKey_selects (fun _ => .zero)
    (localRing 3) 2 .letterK (localRing_ne_nil (by decide)) (by rw [localRing_distinct] <;> decide)
  exact ⟨nodes,h,hlen,hnodup⟩

end PpsDht
