import PpsDht.CircularPicks
import PpsDht.SortedRings

/-! # Choosing servers while allocations fail

A failure to enlarge the list goes unnoticed: the walk leaves the node behind and offers the
next one of a server not chosen yet. Up to undefined behaviour the servers chosen are
therefore those picked around the ring with a skip for each failure. -/
namespace PpsDht
open Mem CircularPicks FirstOccurrences

/-- The failures in front of each of `n` additions, `failures` of them met already for the next
one. There are none when an allocation behind the first one of an addition fails, which is
undefined. -/
def additions (n failures : ℕ) (outcomes : Outcomes) : Option (List ℕ) :=
  match n with
  | 0 => some []
  | n+1 =>
    if h : nextSucceeds outcomes then
      if allSucceed 3 outcomes.tail then (additions n 0 (outcomes.drop 4)).map (failures::·) else none
    else additions (n + 1) (failures + 1) outcomes.tail
termination_by outcomes.length + n
decreasing_by
  · simp only [List.length_drop]
    omega
  · cases outcomes with
    | nil => exact absurd rfl h
    | cons ok outcomes => simp

private theorem length_additions {n failures : ℕ} {outcomes : Outcomes} {skips : List ℕ}
    (h : additions n failures outcomes = some skips) : skips.length = n := by
  induction n, failures, outcomes using additions.induct generalizing skips with
  | case1 failures outcomes =>
    rw [additions] at h
    exact (Option.some.inj h) ▸ rfl
  | case2 failures outcomes n hfirst hall ih =>
    rw [additions,dif_pos hfirst,if_pos hall] at h
    obtain ⟨more,hmore,rfl⟩ := Option.map_eq_some_iff.mp h
    rw [List.length_cons,ih hmore]
  | case3 failures outcomes n hfirst hall =>
    rw [additions,dif_pos hfirst,if_neg hall] at h
    cases h
  | case4 failures outcomes n hfirst ih =>
    rw [additions,dif_neg hfirst] at h
    exact ih h

/-- An addition to a list of other servers under any outcomes. -/
theorem nodeListAdd_apply {list : List Node} {node : Node} (h : ((list ++ [node]).map Node.address).Nodup)
    (outcomes : Outcomes) :
    nodeListAdd list node outcomes =
      if nextSucceeds outcomes then
        if allSucceed 3 outcomes.tail then some ((.errNone,list ++ [node]),outcomes.drop 4) else none
      else some ((.errNomem,list),outcomes.tail) := by
  have hlen := length_le_of_nodup h
  rw [List.length_map,List.length_append,List.length_singleton] at hlen
  have hroom : ¬list.length + 1 > sizeMax / sizeofNode := by
    rw [sizeMax,sizeofNode]
    omega
  rw [nodeListAdd,if_neg hroom,malloc_bind]
  cases nextSucceeds outcomes with
  | false => rfl
  | true =>
    rw [if_pos rfl,if_pos rfl,copyNode_apply,← List.drop_one,List.drop_drop]

/-- A turn at a node: nothing for a server that was chosen, else an addition, whose failure
leaves the list as it was. -/
theorem walkStep_apply {w : Walk} {node : Node} (hnode : w.ring[w.index]? = some node)
    (hnodup : (w.list.map Node.address).Nodup) (outcomes : Outcomes) :
    walkStep w outcomes =
      let index := (w.index + 1) % w.ring.length
      if node.address ∈ w.list.map Node.address then some (⟨w.ring,w.list,index⟩,outcomes)
      else if nextSucceeds outcomes then
        if allSucceed 3 outcomes.tail then some (⟨w.ring,w.list ++ [node],index⟩,outcomes.drop 4) else none
      else some (⟨w.ring,w.list,index⟩,outcomes.tail) := by
  rw [walkStep,lift_bind hnode]
  by_cases hpresent : node.address ∈ w.list.map Node.address
  · rw [if_pos ((alreadyPresentInList_iff w.list node).mpr hpresent)]
    simp only [hpresent,if_true]
    rfl
  · have hnew : ((w.list ++ [node]).map Node.address).Nodup := by
      rw [List.map_append,List.map_singleton,List.nodup_append_comm,List.singleton_append,List.nodup_cons]
      exact ⟨hpresent,hnodup⟩
    have hadd := nodeListAdd_apply hnew outcomes
    rw [if_neg (mt (alreadyPresentInList_iff w.list node).mp hpresent)]
    simp only [hpresent,if_false]
    by_cases hfirst : nextSucceeds outcomes
    · rw [if_pos hfirst] at hadd ⊢
      by_cases hall : allSucceed 3 outcomes.tail
      · rw [if_pos hall] at hadd ⊢
        exact bind_apply hadd _
      · rw [if_neg hall] at hadd ⊢
        change (nodeListAdd w.list node outcomes).bind _ = none
        rw [hadd]
        rfl
    · rw [if_neg hfirst] at hadd ⊢
      exact bind_apply hadd _

private theorem walk_succ {n fuel : ℕ} {w : Walk} (h : w.list.length < n) (outcomes : Outcomes) :
    walk n (fuel + 1) w outcomes = (walkStep w outcomes).bind fun r => walk n fuel r.1 r.2 := by
  rw [walk,if_pos h]
  rfl

/-- The servers in front of the walk, from its index on around the ring, less those chosen. -/
def Walk.circle (w : Walk) : List SockAddr := ahead (w.ring.map Node.address) (w.list.map Node.address) w.index

/-- A walk that has met some failures since its last addition. The nodes ahead on its current
lap hold enough servers. -/
structure OnLap (n : ℕ) (circle : List SockAddr) (failures : ℕ) (onward : List Node) (w : Walk) : Prop where
  index_lt : w.ring ≠ [] → w.index < w.ring.length
  nodup : (w.list.map Node.address).Nodup
  circle_eq : w.circle = circle.rotate failures
  lap : onward <+: w.ring.rotate w.index
  enough : n ≤ ((w.list ++ onward).map Node.address).toFinset.card

namespace OnLap

variable {n failures index : ℕ} {circle : List SockAddr} {ring list onward : List Node} {node : Node}

/-- At the end of the lap there are enough. -/
theorem complete {w : Walk} (h : OnLap n circle failures [] w) : n ≤ w.list.length := by
  have hcard := List.toFinset_card_le ((w.list ++ []).map Node.address)
  rw [List.length_map,List.append_nil] at hcard
  have henough := h.enough
  rw [List.append_nil] at henough
  exact henough.trans hcard

theorem next (h : OnLap n circle failures (node::onward) ⟨ring,list,index⟩) :
    ring[index]? = some node ∧ itemAt (ring.map Node.address) index = some node.address ∧
      onward <+: ring.rotate ((index + 1) % ring.length) ∧
      (ring ≠ [] → (index + 1) % ring.length < ring.length) := by
  obtain ⟨behind,hlap⟩ := h.lap
  have hrotate : ring.rotate index = node::(onward ++ behind) := hlap.symm
  have hne : ring ≠ [] := by
    rintro rfl
    cases hrotate
  have hnode : ring[index]? = some node := by
    rw [← List.head?_rotate (h.index_lt hne),hrotate]
    rfl
  refine ⟨hnode,?_,⟨behind ++ [node],?_⟩,fun _ => Nat.mod_lt _ (List.length_pos_iff.mpr hne)⟩
  · rw [itemAt,List.length_map,Nat.mod_eq_of_lt (h.index_lt hne),List.getElem?_map,hnode,Option.map_some]
  · rw [List.rotate_mod,← List.rotate_rotate,hrotate,List.rotate_cons_succ,List.rotate_zero,List.append_assoc]

/-- The circle at the next index. -/
theorem circle_next (list : List Node) (index : ℕ) : Walk.circle ⟨ring,list,(index + 1) % ring.length⟩ =
    ahead (ring.map Node.address) (list.map Node.address) (index + 1) := by
  rw [Walk.circle,← ahead_mod _ _ (index + 1),List.length_map]

/-- Past a node of a server that was chosen. -/
theorem past (h : OnLap n circle failures (node::onward) ⟨ring,list,index⟩)
    (hpresent : node.address ∈ list.map Node.address) :
    OnLap n circle failures onward ⟨ring,list,(index + 1) % ring.length⟩ := by
  obtain ⟨-,hitem,honward,hindex⟩ := h.next
  refine ⟨hindex,h.nodup,?_,honward,?_⟩
  · rw [circle_next,ahead_chosen hitem hpresent]
    exact h.circle_eq
  · refine h.enough.trans (Finset.card_le_card fun a ha => ?_)
    simp only [List.map_append,List.map_cons,List.mem_toFinset,List.mem_append,List.mem_cons] at ha ⊢
    rcases ha with ha | rfl | ha
    · exact Or.inl ha
    · exact Or.inl hpresent
    · exact Or.inr ha

theorem head (h : OnLap n circle failures (node::onward) ⟨ring,list,index⟩)
    (hnew : node.address ∉ list.map Node.address) : (circle.rotate failures).head? = some node.address := by
  rw [← h.circle_eq]
  exact head?_ahead h.next.2.1 hnew

/-- Behind an addition its server has left the circle. -/
theorem added (h : OnLap n circle failures (node::onward) ⟨ring,list,index⟩)
    (hnew : node.address ∉ list.map Node.address) :
    OnLap n (remaining circle failures node.address) 0 onward ⟨ring,list ++ [node],(index + 1) % ring.length⟩ := by
  obtain ⟨-,hitem,honward,hindex⟩ := h.next
  refine ⟨hindex,?_,?_,honward,?_⟩
  · rw [List.map_append,List.map_singleton,List.nodup_append_comm,List.singleton_append,List.nodup_cons]
    exact ⟨hnew,h.nodup⟩
  · rw [circle_next,List.map_append,List.map_singleton,ahead_picked hitem,List.rotate_zero,remaining,← h.circle_eq,
      Walk.circle]
  · have henough := h.enough
    rwa [List.append_cons] at henough

/-- Behind a failure a new lap begins. -/
theorem skipped (hn : n ≤ (ring.map Node.address).toFinset.card)
    (h : OnLap n circle failures (node::onward) ⟨ring,list,index⟩) (hnew : node.address ∉ list.map Node.address) :
    OnLap n circle (failures + 1) (ring.rotate ((index + 1) % ring.length))
      ⟨ring,list,(index + 1) % ring.length⟩ := by
  obtain ⟨-,hitem,-,hindex⟩ := h.next
  refine ⟨hindex,h.nodup,?_,List.prefix_rfl,hn.trans (Finset.card_le_card fun a ha => ?_)⟩
  · rw [circle_next,ahead_skipped hitem hnew,← List.rotate_rotate,← h.circle_eq,Walk.circle]
  · simp only [List.map_append,List.mem_toFinset,List.mem_append,List.mem_map,List.mem_rotate] at ha ⊢
    exact Or.inr ha

end OnLap

private theorem walk_enough {n m fuel failures : ℕ} {w : Walk} (hsize : w.list.length + m = n) (hm : m = 0)
    (circle : List SockAddr) (outcomes : Outcomes) :
    (walk n fuel w outcomes).map (fun r => r.1.list.map Node.address) =
      (additions m failures outcomes).map fun skips => w.list.map Node.address ++ picks circle skips := by
  obtain rfl := hm
  have hn : ¬w.list.length < n := by omega
  have hrun : walk n fuel w outcomes = some (w,outcomes) := by
    cases fuel <;> rw [walk,if_neg hn] <;> rfl
  rw [hrun,additions]
  simp [picks]

/-- The walk picks around the circle, with a skip for each failure. -/
theorem walk_additions {ring : List Node} {n : ℕ} (hn : n ≤ (ring.map Node.address).toFinset.card)
    {fuel m failures index : ℕ} {list onward : List Node} {circle : List SockAddr} {outcomes : Outcomes}
    (hsize : list.length + m = n) (h : OnLap n circle failures onward ⟨ring,list,index⟩)
    (hfuel : ring.length * outcomes.length + onward.length ≤ fuel) :
    (walk n fuel ⟨ring,list,index⟩ outcomes).map (fun r => r.1.list.map Node.address) =
      (additions m failures outcomes).map fun skips => list.map Node.address ++ picks circle skips := by
  induction fuel generalizing m failures index list onward circle outcomes with
  | zero =>
    obtain rfl : onward = [] := List.length_eq_zero_iff.mp (by omega)
    have hlen : n ≤ list.length := h.complete
    exact walk_enough hsize (by omega) circle outcomes
  | succ fuel ih =>
    cases m with
    | zero => exact walk_enough hsize rfl circle outcomes
    | succ m =>
      cases onward with
      | nil =>
        have hlen : n ≤ list.length := h.complete
        omega
      | cons node onward =>
        rw [List.length_cons] at hfuel
        rw [walk_succ (show list.length < n by omega),walkStep_apply h.next.1 h.nodup]
        by_cases hpresent : node.address ∈ list.map Node.address
        · simp only [hpresent,if_true,Option.bind_some]
          exact ih hsize (h.past hpresent) (by omega)
        · rw [additions]
          simp only [hpresent,if_false]
          by_cases hfirst : nextSucceeds outcomes
          · by_cases hall : allSucceed 3 outcomes.tail
            · have hshorter : (outcomes.drop 4).length ≤ outcomes.length := by
                rw [List.length_drop]
                omega
              have hmul := Nat.mul_le_mul_left ring.length hshorter
              have hwalk := @ih m 0 _ (list ++ [node]) onward _ (outcomes.drop 4)
                (by rw [List.length_append,List.length_singleton]; omega) (h.added hpresent) (by omega)
              simp only [hfirst,hall,if_true,dif_pos,Option.bind_some,hwalk,Option.map_map]
              refine congrArg (Option.map · _) (funext fun skips => ?_)
              rw [Function.comp_apply,picks_cons (h.head hpresent),List.map_append,List.map_singleton,
                List.append_assoc,List.singleton_append]
            · simp only [hfirst,hall,if_true,dif_pos,if_false,Bool.false_eq_true,Option.bind_none,Option.map_none]
          · cases outcomes with
            | nil => exact absurd rfl hfirst
            | cons ok outcomes =>
              rw [List.length_cons,Nat.mul_succ] at hfuel
              have hwalk := @ih (m + 1) (failures + 1) _ list _ circle outcomes hsize (h.skipped hn hpresent)
                (by rw [List.length_rotate]; omega)
              simpa [hfirst] using hwalk

/-- A choice under any outcomes: nothing without a list, else the servers picked. -/
theorem ringGetNodesForKey_apply (sha1 : Bytes → Digest) {ring : List Node} {n : ℕ} (key : CString)
    (hn : n ≤ (ring.map Node.address).dedup.length) (outcomes : Outcomes) :
    (ringGetNodesForKey sha1 ring n key outcomes).map (fun r => r.1.map (·.map Node.address)) =
      if nextSucceeds outcomes then
        (additions n 0 outcomes.tail).map fun skips =>
          some (picks ((ring.rotate (indexOfFirstNode ring (sha1 key.chars))).map Node.address) skips)
      else some none := by
  rw [ringGetNodesForKey]
  generalize hstart : indexOfFirstNode ring (sha1 key.chars) = start
  have hlt : ring ≠ [] → start < ring.length := fun hne => hstart ▸ indexOfFirstNode_lt hne _
  have hcard : n ≤ (ring.map Node.address).toFinset.card := by rwa [List.card_toFinset]
  have hcircle : Walk.circle ⟨ring,[],start⟩ = (ring.rotate start).map Node.address := by
    rw [Walk.circle,List.map_nil,ahead_nil,List.map_rotate]
  have hlap : OnLap n (Walk.circle ⟨ring,[],start⟩) 0 (ring.rotate start) ⟨ring,[],start⟩ := by
    refine ⟨hlt,List.nodup_nil,(List.rotate_zero _).symm,List.prefix_rfl,hcard.trans (Finset.card_le_card fun a ha => ?_)⟩
    simpa only [List.nil_append,List.mem_toFinset,List.mem_map,List.mem_rotate] using ha
  cases hfirst : nextSucceeds outcomes with
  | false =>
    have hnew : nodeListNew outcomes = some (none,outcomes.tail) := by
      rw [nodeListNew,malloc_bind,hfirst]
      rfl
    rw [bind_apply hnew]
    rfl
  | true =>
    have hnew : nodeListNew outcomes = some (some [],outcomes.tail) := by
      rw [nodeListNew,malloc_bind,hfirst]
      rfl
    have hwalk := @walk_additions ring n hcard (ring.length * (outcomes.tail.length + 1)) n 0 start [] _ _ outcomes.tail
      (Nat.zero_add n) hlap (by rw [List.length_rotate,Nat.mul_succ])
    rw [hcircle] at hwalk
    simp only [List.map_nil,List.nil_append] at hwalk
    rw [bind_apply hnew,if_pos rfl]
    have hresult : ∀ o : Option (Walk × Outcomes), (o.bind fun r => some (some r.1.list,r.2)).map
        (fun r => r.1.map (·.map Node.address)) = (o.map fun r => r.1.list.map Node.address).map some := by
      rintro (_ | _) <;> rfl
    refine (hresult (walk n _ ⟨ring,[],start⟩ outcomes.tail)).trans ?_
    rw [hwalk,Option.map_map]
    rfl

/-- Under any outcomes the choice is nothing or the servers of a run without failures exactly if
the list cannot be made, or no addition is undefined and the failures in front of each are as
many as the nodes of servers not chosen yet that lie before some further node, around the ring,
of the server due. -/
theorem ringGetNodesForKey_failures_iff (sha1 : Bytes → Digest) {ring : List Node} {n : ℕ} (key : CString)
    (hn : n ≤ (ring.map Node.address).dedup.length) (outcomes : Outcomes) :
    let circle := (ring.rotate (indexOfFirstNode ring (sha1 key.chars))).map Node.address
    ∃ wanted, Succeeds (ringGetNodesForKey sha1 ring n key) (some wanted) ∧
      ((∃ found rest, ringGetNodesForKey sha1 ring n key outcomes = some (found,rest) ∧
          ∀ nodes, found = some nodes → nodes.map Node.address = wanted.map Node.address) ↔
        nextSucceeds outcomes = false ∨ ∃ skips, additions n 0 outcomes.tail = some skips ∧
          SkipsTo circle 0 [] skips) := by
  intro circle
  have hwanted := ringGetNodesForKey_serversFrom sha1 key hn
  have hrun := ringGetNodesForKey_apply sha1 key hn outcomes
  have hdistinct : n ≤ (distinctBy id [] circle).length := by
    rwa [length_distinctBy,List.map_id,((List.rotate_perm _ _).map _).dedup.length_eq]
  have hpicks : ∀ skips, additions n 0 outcomes.tail = some skips →
      (picks circle skips = (serversFrom ring (indexOfFirstNode ring (sha1 key.chars)) n).map Node.address ↔
        SkipsTo circle 0 [] skips) := fun skips hskips => by
    have hlen := length_additions hskips
    have hiff := @picks_eq_iff _ _ circle [] 0 skips (hlen.trans_le hdistinct)
    rwa [ahead_nil,List.rotate_zero,hlen,← map_distinctBy,← List.map_take] at hiff
  refine ⟨_,hwanted,?_⟩
  cases hfirst : nextSucceeds outcomes with
  | false =>
    rw [hfirst,if_neg Bool.false_ne_true] at hrun
    obtain ⟨⟨found,rest⟩,hresult,hnone⟩ := Option.map_eq_some_iff.mp hrun
    refine iff_of_true ⟨found,rest,hresult,fun nodes hnodes => ?_⟩ (Or.inl rfl)
    rw [hnodes] at hnone
    cases hnone
  | true =>
    rw [hfirst,if_pos rfl] at hrun
    simp only [Bool.true_eq_false,false_or]
    constructor
    · rintro ⟨found,rest,hresult,hsame⟩
      rw [hresult] at hrun
      obtain ⟨skips,hskips,hpicked⟩ := Option.map_eq_some_iff.mp hrun.symm
      obtain ⟨nodes,rfl,hnodes⟩ := Option.map_eq_some_iff.mp hpicked.symm
      exact ⟨skips,hskips,(hpicks skips hskips).mp (hnodes.symm.trans (hsame nodes rfl))⟩
    · rintro ⟨skips,hskips,hpassed⟩
      rw [hskips] at hrun
      obtain ⟨⟨found,rest⟩,hresult,hpicked⟩ := Option.map_eq_some_iff.mp hrun
      refine ⟨found,rest,hresult,fun nodes hnodes => ?_⟩
      rw [hnodes] at hpicked
      exact (Option.some.inj hpicked).trans ((hpicks skips hskips).mpr hpassed)

/-- Three failures at three servers lead around the ring. -/
theorem ringGetNodesForKey_failures_around :
    ∃ wanted, Succeeds (ringGetNodesForKey (fun _ => .zero) (localRing 3) 2 .letterK) (some wanted) ∧
      ∃ found rest, ringGetNodesForKey (fun _ => .zero) (localRing 3) 2 .letterK [true,false,false,false] =
          some (found,rest) ∧ ∀ nodes, found = some nodes → nodes.map Node.address = wanted.map Node.address := by
  obtain ⟨wanted,hwanted,hiff⟩ := ringGetNodesForKey_failures_iff (fun _ => .zero) .letterK
    (show 2 ≤ ((localRing 3).map Node.address).dedup.length by rw [localRing_distinct] <;> decide)
    [true,false,false,false]
  -- the first server is met again at the fourth place, and the second one behind it
  have hsecond : SkipsTo ((localRing 3).map Node.address) 4 [⟨0x7f000001,0⟩] [0] :=
    @SkipsTo.turn _ _ _ 4 4 0 _ _ ⟨0x7f000001,1⟩ (Nat.le_refl 4) rfl rfl rfl (.done _ _)
  have hskips : SkipsTo ((localRing 3).map Node.address) 0 [] [3,0] :=
    @SkipsTo.turn _ _ _ 0 3 3 _ _ ⟨0x7f000001,0⟩ (Nat.zero_le 3) rfl rfl rfl hsecond
  have hadditions : additions 2 0 [false,false,false] = some [3,0] := by simp [additions,nextSucceeds]
  exact ⟨wanted,hwanted,hiff.mpr (Or.inr ⟨[3,0],hadditions,hskips⟩)⟩

/-- One failure at the first server: the list of two holds the second and the third. -/
theorem ringGetNodesForKey_substitutes :
    SortedBySha (localRing 3) ∧ 2 ≤ ((localRing 3).map Node.address).dedup.length ∧
      Succeeds (ringGetNodesForKey (fun _ => .zero) (localRing 3) 2 .letterK)
        (some [⟨⟨0x7f000001,0⟩,.zero⟩,⟨⟨0x7f000001,1⟩,.zero⟩]) ∧
      ringGetNodesForKey (fun _ => .zero) (localRing 3) 2 .letterK [true,false] =
        some (some [⟨⟨0x7f000001,1⟩,.zero⟩,⟨⟨0x7f000001,2⟩,.zero⟩],[]) := by
  refine ⟨?_,?_,rfl,rfl⟩
  · rw [SortedBySha]
    decide
  · rw [localRing_distinct] <;> decide

end PpsDht
