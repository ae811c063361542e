import PpsDht.LinkedNodes

/-! # Lists of nodes in memory

What the nodes of a list own, and what the additions to a list and the walk around the ring do
to memory: the list of the chosen nodes is built as in the model, the ring is only read. -/
namespace PpsDht.OnHeap
open Mem Heaps HProp

def fieldAt {γ : Type} (K : Kind Block (Option γ)) : Ptr → γ → HProp Block
  | none, _ => ⊥
  | some a, c => block a (K.block (some c))

/-- What a node owns. -/
def nodeFields : Option NodeCell → Node → HProp Block
  | none, _ => ⊥
  | some c, node => fieldAt digests c.sha node.sha * fieldAt addresses c.address node.address

abbrev nodeListAt (list : Addr) (nodes : List Node) : HProp Block := listAt nodeLists nodeFields list nodes

/-- A list of nodes with its pointers. -/
abbrev NodesIn (S : HProp Block) (list : Addr) (nodes : List Node) : Prop := ListIn nodeLists nodeFields list S nodes

variable {α α' : Type} {F S : HProp Block} {f : Mem α'} {R : α → α' → HProp Block} {A : Allocator} {a q list : Addr}
  {sha1 : Bytes → Digest} {inetPton : CString → Option UInt32} {nodes : List Node} {node : Node} {c : NodeCell}
  {p : Ptr} {i n : ℕ}

section Accesses

variable {γ : Type} {K : Kind Block (Option γ)} {v : γ}

theorem loadField_bind {k : γ → Code α}
    (h : Implements (fieldAt K p v * F) (k v) f R) : Implements (fieldAt K p v * F) (loadField K p >>= k) f R := by
  cases p with
  | none => exact .bot_mul
  | some a =>
    rw [loadField,bind_assoc]
    exact Kind.read_bind h

/-- A field is copied to a block of its kind. -/
theorem copyField_bind {old : Option γ} {k : Unit → Code α}
    (h : Implements (fieldAt K p v * (block a (K.block (some v)) * F)) (k ()) f R) :
    Implements (fieldAt K p v * (block a (K.block old) * F))
      (loadField K p >>= fun v => storeField K (some a) v >>= k) f R := by
  refine loadField_bind ?_
  rw [mul_left_comm] at h ⊢
  exact Kind.write_bind h

private theorem nodeEnd_bind {k : Unit → Code α} (h : Implements F (k ()) f R) :
    Implements (nodeFields (some c) node * F) (nodeEnd c >>= k) f R := by
  rw [nodeEnd,bind_assoc,nodeFields,mul_assoc]
  obtain ⟨sha,address⟩ := c
  cases sha with
  | none => exact .bot_mul
  | some s =>
    refine .free_bind ?_
    cases address with
    | none => exact .bot_mul
    | some a => exact .free_bind h

theorem nodeAt_bind (hS : NodesIn S list nodes) (hnode : nodes[i]? = some node) {k : NodeCell → Code α}
    (h : ∀ c rest, nodeFields (some c) node * rest = S →
      Implements (nodeFields (some c) node * (rest * F)) (k c) f R) :
    Implements (S * F) (nodeAt list i >>= k) f R := by
  rw [nodeAt,bind_assoc]
  refine hS.readItem_bind hnode fun c rest hrest => ?_
  cases c with
  | none => exact .bot_mul
  | some c => exact h c rest hrest

/-- Behind the end of a list no node is to be read. -/
theorem nodeAt_fault (hS : NodesIn S list nodes) (hnode : nodes[i]? = none) (k : NodeCell → Code α) :
    Implements (S * F) (nodeAt list i >>= k) (undefined : Mem α') R := by
  rw [nodeAt,bind_assoc]
  exact hS.readItem_fault hnode _

end Accesses

/-- A node is initialised, or one of its allocations fails. -/
theorem nodeInit_bind {old : Option NodeCell} {ip : CString} {port : UInt16} {nodeId : ℕ} {sinAddr : UInt32}
    (hip : inetPton ip = some sinAddr) (hline : (nodeText ip port nodeId).length < maxLineSize)
    {k : ErrorCode × Option NodeCell → Code α} {g : Bool → Bool → Mem α'}
    (hok : ∀ s a, Implements (block s (.digest (some (sha1 (nodeText ip port nodeId).chars))) *
      (block a (.address (some ⟨sinAddr,port⟩)) * F)) (k (.errNone,some ⟨some s,some a⟩)) (g true true) R)
    (hsha : Implements F (k (.errNomem,old)) (malloc >>= g false) R)
    (haddress : ∀ s, Implements F (k (.errNomem,some ⟨some s,none⟩)) (g true false) R) :
    Implements F (nodeInit A sha1 inetPton old ip port nodeId >>= k) (malloc >>= fun sha => malloc >>= g sha) R := by
  rw [nodeInit,if_neg (Nat.not_lt.mpr hline),bind_assoc]
  refine .alloc_bind (fun s => ?_) hsha
  rw [bind_assoc]
  refine Kind.write_bind (K := digests) ?_
  rw [bind_assoc]
  refine .alloc_bind (fun a => ?_) ?_
  · simp only [getServerAddr,hip,bind_assoc]
    refine Kind.write_bind (K := addresses) ?_
    rw [mul_left_comm]
    exact hok s a
  · simp only [nodeEnd,bind_assoc]
    exact .free_bind (haddress s)

/-- The new node has the fields of the other one and is the last of the list. -/
theorem copyFields_implements {cells : List (Option NodeCell)} (hcells : cells.length = nodes.length) {s t : Addr}
    {sha : Option Digest} {address : Option SockAddr} : Implements
    (block q (.nodes (cells ++ [some ⟨some s,some t⟩])) * (block s (.digest sha) * (block t (.address address) *
      (partsOf nodeFields cells nodes * (block list (.nodeList p nodes.length) * nodeFields (some c) node)))))
    (copyFields A list q nodes.length c ⟨some s,some t⟩) (PpsDht.copyFields nodes node)
    fun code r => given (code = r.1) (nodeListAt list r.2 * nodeFields (some c) node) := by
  have hfields : block q (.nodes (cells ++ [some ⟨some s,some t⟩])) * (block s (.digest sha) *
      (block t (.address address) * (partsOf nodeFields cells nodes * (block list (.nodeList p nodes.length) *
        nodeFields (some c) node)))) = fieldAt addresses c.address node.address * (block t (.address address) *
          (block s (.digest sha) * (fieldAt digests c.sha node.sha *
            (block q (.nodes (cells ++ [some ⟨some s,some t⟩])) * (partsOf nodeFields cells nodes *
              block list (.nodeList p nodes.length)))))) := by
    rw [nodeFields]
    ac_rfl
  rw [copyFields,PpsDht.copyFields,hfields]
  refine copyField_bind (K := addresses) ?_
  rw [mul_left_comm (block t _),mul_left_comm (fieldAt addresses _ _)]
  -- without memory for the new digest the old one is freed a second time
  refine .free_alloc_bind (bind_assoc ..) (if_neg Bool.false_ne_true) fun u => ?_
  rw [if_pos rfl]
  have hdigest : ∀ F, block u (.digest none) * (fieldAt addresses c.address node.address *
      (block t (addresses.block (some node.address)) * (fieldAt digests c.sha node.sha * F))) =
        fieldAt digests c.sha node.sha * (block u (.digest none) * (fieldAt addresses c.address node.address *
          (block t (addresses.block (some node.address)) * F))) := fun F => by ac_rfl
  rw [hdigest]
  refine copyField_bind (K := digests) ?_
  have hstore : fieldAt digests c.sha node.sha * (block u (digests.block (some node.sha)) *
      (fieldAt addresses c.address node.address * (block t (addresses.block (some node.address)) *
        (block q (.nodes (cells ++ [some ⟨some s,some t⟩])) * (partsOf nodeFields cells nodes *
          block list (.nodeList p nodes.length)))))) = block q (.nodes (cells ++ [some ⟨some s,some t⟩])) *
            (partsOf nodeFields cells nodes * nodeFields (some ⟨some u,some t⟩) node *
              (block list (.nodeList p nodes.length) * nodeFields (some c) node)) := by
    simp only [nodeFields,fieldAt]
    ac_rfl
  rw [hstore]
  refine writeLast_bind (L := nodeLists) hcells ?_
  rw [mul_left_comm]
  refine Kind.write_bind (K := nodeLists.head) (c := (p,nodes.length)) (.pure (le_given rfl ?_))
  rw [← mul_assoc]
  exact mul_le_mul_left (le_listAt_append list (some q) nodes node) _

/-- The copy of a node is the last of the list. -/
theorem copyNode_implements {sinAddr : UInt32} (hip : inetPton ppsDefaultIp = some sinAddr)
    {cells : List (Option NodeCell)} (hcells : cells.length = nodes.length) : Implements
    (block q (.nodes (cells ++ [none])) * (partsOf nodeFields cells nodes * (block list (.nodeList p nodes.length) *
      nodeFields (some c) node)))
    (copyNode A sha1 inetPton list q nodes.length c) (PpsDht.copyNode nodes node)
    fun code r => given (code = r.1) (nodeListAt list r.2 * nodeFields (some c) node) := by
  have hlast : (cells ++ [none])[nodes.length]? = some none := by
    rw [← hcells,List.getElem?_concat_length]
  have hwrite : nodes.length < (cells ++ [none]).length := by
    rw [List.length_append,hcells]
    exact Nat.lt_succ_self _
  have hline : (nodeText ppsDefaultIp ppsDefaultPort 0).length < maxLineSize :=
    length_nodeText_lt _ (by decide) (by decide)
  rw [copyNode,PpsDht.copyNode]
  refine Kind.readAt_bind (K := nodeLists.array) hlast (nodeInit_bind hip hline (fun s t => ?_) ?_ fun s => ?_)
  · rw [nodeLists_array,mul_left_comm (block t _),mul_left_comm (block s _),if_pos ⟨rfl,rfl⟩]
    refine Kind.writeAt_bind (K := nodeLists.array) hwrite ?_
    rw [set_last hcells]
    exact copyFields_implements hcells
  · -- the pointers of the new cell have never been written
    dsimp only
    refine Kind.writeAt_bind (K := nodeLists.array) hwrite ?_
    simp only [Bool.false_eq_true,false_and,if_false,malloc_undefined]
    exact .fault
  · -- the address is copied through a null pointer
    dsimp only
    refine Kind.writeAt_bind (K := nodeLists.array) hwrite ?_
    simp only [Bool.false_eq_true,and_false,if_false]
    have hread : ∀ F, F * (partsOf nodeFields cells nodes * (block list (.nodeList p nodes.length) *
        nodeFields (some c) node)) = fieldAt addresses c.address node.address * (F * (partsOf nodeFields cells nodes *
          (block list (.nodeList p nodes.length) * fieldAt digests c.sha node.sha))) := fun F => by
      rw [nodeFields]
      ac_rfl
    rw [hread]
    exact loadField_bind .fault

/-- A node is added to a list, the node and its copy share no block. -/
theorem nodeListAdd_implements {sinAddr : UInt32} (hip : inetPton ppsDefaultIp = some sinAddr) :
    Implements (nodeListAt list nodes * nodeFields (some c) node) (nodeListAdd A sha1 inetPton list c)
      (PpsDht.nodeListAdd nodes node)
      fun code r => given (code = r.1) (nodeListAt list r.2 * nodeFields (some c) node) := by
  rw [nodeListAdd,PpsDht.nodeListAdd,nodeListAt,listAt,Quantale.iSup_mul_distrib]
  refine .iSup fun p => ?_
  rw [mul_assoc]
  refine Kind.read_bind (K := nodeLists.head) (c := (p,nodes.length)) ?_
  dsimp only
  by_cases hsize : nodes.length + 1 > sizeMax / sizeofNode
  · rw [if_pos hsize,if_pos hsize,← mul_assoc]
    exact .pure (le_given rfl (mul_le_mul_left (le_listAt list p nodes) _))
  · rw [if_neg hsize,if_neg hsize,mul_left_comm]
    refine realloc_bind (L := nodeLists) (fun q cells hcells => ?_) ?_
    · have hhead : block q (nodeLists.array.block (cells ++ [nodeLists.blank])) * (partsOf nodeFields cells nodes *
          (block list (nodeLists.head.block (p,nodes.length)) * nodeFields (some c) node)) =
            block list (nodeLists.head.block (p,nodes.length)) * (block q (.nodes (cells ++ [none])) *
              (partsOf nodeFields cells nodes * nodeFields (some c) node)) := by
        rw [nodeLists_array,nodeLists_blank]
        ac_rfl
      rw [if_pos rfl,hhead]
      refine Kind.write_bind (K := nodeLists.head) (c := (p,nodes.length)) ?_
      rw [mul_left_comm,mul_left_comm _ (partsOf nodeFields cells nodes)]
      exact copyNode_implements hip hcells
    · rw [if_neg Bool.false_ne_true,mul_left_comm]
      refine Kind.write_bind (K := nodeLists.head) (c := (p,nodes.length)) ?_
      refine Kind.write_bind (K := nodeLists.head) (c := (none,nodes.length)) (.pure (le_given rfl ?_))
      rw [← mul_assoc]
      exact mul_le_mul_left (le_listAt list p nodes) _

section Freeing

theorem endNode_implements {cells : List (Option NodeCell)} {o : Option NodeCell} (ho : cells[i]? = some o)
    (node : Node) : Implements (block q (nodeLists.array.block cells) * nodeFields o node) (endNode q i) (pure ())
      fun _ _ => ⨆ o, block q (nodeLists.array.block (cells.set i o)) := by
  cases o with
  | none =>
    rw [nodeFields,Quantale.mul_bot]
    exact .bot
  | some c =>
    rw [endNode]
    refine Kind.readAt_bind (K := nodeLists.array) ho ?_
    dsimp only
    rw [mul_comm,← bind_pure (nodeEnd c)]
    refine nodeEnd_bind (.pure (le_iSup_of_le (some c) ?_))
    obtain ⟨hi,hget⟩ := List.getElem?_eq_some_iff.mp ho
    rw [← hget,List.set_getElem_self]

/-- Of a list that is freed nothing is left. -/
theorem nodeListFree_bind {k : Unit → Code α} (h : Implements F (k ()) f R) :
    Implements (nodeListAt list nodes * F) (nodeListFree (some list) >>= k) f R := by
  rw [nodeListFree,bind_assoc,nodeListAt,listAt,Quantale.iSup_mul_distrib]
  refine .iSup fun p => ?_
  rw [mul_assoc]
  refine Kind.read_bind (K := nodeLists.head) (c := (p,nodes.length)) ?_
  simp only [freeNodes,bind_assoc]
  cases p with
  | none =>
    rw [arrayAt,given_mul,mul_given,one_mul]
    exact .given fun _ => .free_bind h
  | some q =>
    rw [mul_left_comm]
    simp only [bind_assoc]
    refine loop_array_bind (fun cells i o node ho => endNode_implements ho node) fun cells => ?_
    exact .free_bind (.free_bind h)

end Freeing

section Searches
variable {S : HProp Block}

private theorem nodeCmpServerAddr_bind {first second : NodeCell} {a b : Node} {k : ℤ → Code α} (h : Implements
      (nodeFields (some first) a * (nodeFields (some second) b * F)) (k (PpsDht.nodeCmpServerAddr a b)) f R) :
    Implements (nodeFields (some first) a * (nodeFields (some second) b * F))
      (nodeCmpServerAddr first second >>= k) f R := by
  simp only [nodeCmpServerAddr,bind_assoc,pure_bind,nodeFields] at h ⊢
  have hfirst : fieldAt digests first.sha a.sha * fieldAt addresses first.address a.address *
      (fieldAt digests second.sha b.sha * fieldAt addresses second.address b.address * F) =
        fieldAt addresses first.address a.address * (fieldAt addresses second.address b.address *
          (fieldAt digests first.sha a.sha * (fieldAt digests second.sha b.sha * F))) := by
    ac_rfl
  rw [hfirst] at h ⊢
  refine loadField_bind ?_
  rw [mul_left_comm] at h ⊢
  exact loadField_bind h

private theorem presentLoop_bind (hS : NodesIn S list nodes) {k : Bool → Code α} (hn : i + n = nodes.length) (h : Implements
      (S * (nodeFields (some c) node * F)) (k (PpsDht.alreadyPresentInList (nodes.drop i) node)) f R) :
    Implements (S * (nodeFields (some c) node * F)) (presentLoop list c n i >>= k) f R := by
  induction n generalizing i with
  | zero =>
    rw [List.drop_eq_nil_of_le (Nat.add_zero i ▸ hn.ge)] at h
    exact h
  | succ n ih =>
    have hi : i < nodes.length := by omega
    rw [presentLoop,bind_assoc]
    refine nodeAt_bind hS (List.getElem?_eq_getElem hi) fun c' rest hrest => ?_
    have hperm : nodeFields (some c') nodes[i] * (rest * (nodeFields (some c) node * F)) =
        nodeFields (some c') nodes[i] * (nodeFields (some c) node * (rest * F)) := by ac_rfl
    rw [hperm,bind_assoc]
    refine nodeCmpServerAddr_bind ?_
    rw [← hperm,← mul_assoc,hrest]
    rw [List.drop_eq_getElem_cons hi,PpsDht.alreadyPresentInList,List.any_cons] at h
    by_cases hsame : PpsDht.nodeCmpServerAddr nodes[i] node = 0
    · rw [decide_eq_true hsame,Bool.true_or] at h
      rw [if_pos hsame]
      exact h
    · rw [decide_eq_false hsame,Bool.false_or] at h
      rw [if_neg hsame]
      exact ih (by omega) h

private theorem alreadyPresentInList_bind {k : Bool → Code α} (h : Implements
      (nodeListAt list nodes * (nodeFields (some c) node * F)) (k (PpsDht.alreadyPresentInList nodes node)) f R) :
    Implements (nodeListAt list nodes * (nodeFields (some c) node * F)) (alreadyPresentInList list c >>= k) f R := by
  refine listAt_bind fun S hS hle => ?_
  rw [alreadyPresentInList,bind_assoc]
  refine hS.readHead_bind fun p => presentLoop_bind hS (Nat.zero_add _) ?_
  exact h.mono (mul_le_mul_left hle _) fun _ _ => le_rfl

private theorem indexLoop_bind (hS : NodesIn S list nodes) {sha : Digest} {k : ℕ → Code α} (hn : i + n = nodes.length)
    (h : Implements (S * F) (k (((nodes.drop i).findIdx? fun node =>
      strncmp node.sha.bytes sha.bytes shaDigestLength ≥ 0).elim 0 (i + ·))) f R) :
    Implements (S * F) (indexLoop list sha n i >>= k) f R := by
  induction n generalizing i with
  | zero =>
    rw [List.drop_eq_nil_of_le (Nat.add_zero i ▸ hn.ge)] at h
    exact h
  | succ n ih =>
    have hi : i < nodes.length := by omega
    rw [indexLoop,bind_assoc]
    refine nodeAt_bind hS (List.getElem?_eq_getElem hi) fun c rest hrest => ?_
    rw [bind_assoc,nodeFields,mul_assoc]
    refine loadField_bind ?_
    rw [← mul_assoc,← nodeFields,← mul_assoc,hrest]
    rw [List.drop_eq_getElem_cons hi,List.findIdx?_cons] at h
    by_cases hfound : strncmp nodes[i].sha.bytes sha.bytes shaDigestLength ≥ 0
    · rw [if_pos (decide_eq_true hfound)] at h
      rw [if_pos hfound]
      exact h
    · rw [if_neg (by rwa [decide_eq_true_iff])] at h
      rw [if_neg hfound]
      refine ih (by omega) ?_
      cases hfind : (nodes.drop (i + 1)).findIdx? fun node =>
          strncmp node.sha.bytes sha.bytes shaDigestLength ≥ 0 with
      | none =>
        rw [hfind] at h
        exact h
      | some j =>
        rw [hfind,Option.map_some,Option.elim_some,← add_assoc,add_right_comm] at h
        exact h

private theorem indexOfFirstNode_bind (hS : NodesIn S list nodes) {sha : Digest} {k : ℕ → Code α}
    (h : Implements (S * F) (k (PpsDht.indexOfFirstNode nodes sha)) f R) :
    Implements (S * F) (indexOfFirstNode list sha >>= k) f R := by
  rw [indexOfFirstNode,bind_assoc]
  refine hS.readHead_bind fun p => indexLoop_bind hS (Nat.zero_add _) ?_
  rw [List.drop_zero]
  rw [PpsDht.indexOfFirstNode] at h
  cases hfind : nodes.findIdx? fun node => strncmp node.sha.bytes sha.bytes shaDigestLength ≥ 0 with
  | none =>
    rw [hfind] at h
    exact h
  | some j =>
    rw [hfind] at h
    rw [Option.elim_some,Nat.zero_add]
    exact h

theorem walkStep_implements {sinAddr : UInt32} (hip : inetPton ppsDefaultIp = some sinAddr) {ring : Addr}
    {chosen : List Node} {index : ℕ} (hS : NodesIn S ring nodes) : Implements (nodeListAt list chosen * S)
      (walkStep A sha1 inetPton ring list index) (PpsDht.walkStep ⟨nodes,chosen,index⟩)
      fun next w => given (w = ⟨nodes,w.list,next⟩) (nodeListAt list w.list * S) := by
  rw [walkStep,PpsDht.walkStep,mul_comm]
  dsimp only
  cases hnode : nodes[index]? with
  | none => exact nodeAt_fault hS hnode _
  | some node =>
    refine nodeAt_bind hS hnode fun c rest hrest => .lift_bind rfl ?_
    have hperm : nodeFields (some c) node * (rest * nodeListAt list chosen) =
        nodeListAt list chosen * (nodeFields (some c) node * rest) := by ac_rfl
    rw [hperm]
    refine alreadyPresentInList_bind ?_
    have hnext : ∀ chosen', Implements (nodeListAt list chosen' * S)
        (nodeLists.head.read ring >>= fun r => pure ((index + 1) % r.2))
        (pure ⟨nodes,chosen',(index + 1) % nodes.length⟩)
        fun next (w : Walk) => given (w = ⟨nodes,w.list,next⟩) (nodeListAt list w.list * S) := fun chosen' => by
      rw [mul_comm]
      refine hS.readHead_bind fun p => .pure (le_given rfl ?_)
      rw [mul_comm]
    by_cases hpresent : PpsDht.alreadyPresentInList chosen node
    · rw [if_pos hpresent,if_pos hpresent,hrest]
      exact hnext chosen
    · rw [if_neg hpresent,if_neg hpresent,← mul_assoc]
      refine (nodeListAdd_implements hip).call fun code r => ?_
      rw [given_mul,mul_assoc,hrest]
      exact .given fun _ => hnext r.2

theorem walk_implements {sinAddr : UInt32} (hip : inetPton ppsDefaultIp = some sinAddr) {ring : Addr}
    {wantedListSize fuel : ℕ} {chosen : List Node} {index : ℕ} (hS : NodesIn S ring nodes) :
    Implements (nodeListAt list chosen * S) (walk A sha1 inetPton wantedListSize ring list fuel index)
      (PpsDht.walk wantedListSize fuel ⟨nodes,chosen,index⟩) fun _ w => nodeListAt list w.list * S := by
  induction fuel generalizing chosen index with
  | zero =>
    rw [walk,PpsDht.walk]
    refine readHead_bind fun p => ?_
    dsimp only
    split
    · exact .fault
    · exact .pure le_rfl
  | succ fuel ih =>
    rw [walk,PpsDht.walk]
    refine readHead_bind fun p => ?_
    dsimp only
    split
    · refine (walkStep_implements hip hS).bind fun next w => .given fun hw => ?_
      rw [hw]
      exact ih
    · exact .pure le_rfl

end Searches

/-- The chosen nodes, or no list. -/
def chosenAt : Ptr → Option (List Node) → HProp Block
  | none, none => 1
  | some list, some nodes => nodeListAt list nodes
  | _, _ => ⊥

/-- The nodes of a key are copied to a list of their own, the ring is only read. -/
theorem ringGetNodesForKey_implements {S : HProp Block} {sinAddr : UInt32}
    (hip : inetPton ppsDefaultIp = some sinAddr) {ring : Addr} {wantedListSize : ℕ} {key : CString}
    (hS : NodesIn S ring nodes) : Implements S (ringGetNodesForKey A sha1 inetPton ring wantedListSize key)
      (PpsDht.ringGetNodesForKey sha1 nodes wantedListSize key) fun p chosen => chosenAt p chosen * S := by
  rw [ringGetNodesForKey,PpsDht.ringGetNodesForKey,← mul_one S]
  refine indexOfFirstNode_bind hS ?_
  rw [mul_one,nodeListNew,PpsDht.nodeListNew,bind_assoc]
  refine .alloc_bind (fun list => ?_) ?_
  · rw [if_pos rfl,pure_bind]
    refine .get_bind fun outcomes => ?_
    rw [mul_comm]
    refine hS.readHead_bind fun p => ?_
    rw [mul_comm]
    have hempty : block list (.nodeList none 0) ≤ nodeListAt list [] := le_listAt_nil (L := nodeLists) list
    refine Implements.mono ?_ (mul_le_mul_left hempty S) fun _ _ => le_rfl
    exact (walk_implements hip hS).bind fun _ w => .pure le_rfl
  · rw [if_neg Bool.false_ne_true,pure_bind]
    refine .pure ?_
    rw [chosenAt,one_mul]

end PpsDht.OnHeap
