import PpsDht.DhtNetwork
import PpsDht.NetworkInMemory
import PpsDht.PermutedLists

/-! # Sequences of calls in memory

A client makes its calls one after the other over one ring, and frees each value that it gets. -/
namespace PpsDht
open Mem Net

section Model
variable (sha1 : Bytes → Digest) (client : Client)

def Operation.call : Operation → Net Outcome
  | put k v => do
    let code ← networkPut sha1 client (some k) (some v)
    pure ⟨code,none⟩
  | get k => networkGet sha1 client (some k) none

/-- The calls in turn. With each result stands whether the allocation before it succeeded, which is
that of the socket. -/
def callAll : List Operation → Net (List (Bool × Outcome))
  | [] => pure []
  | op::ops => do
    let outcomes ← (MonadStateOf.get : Net Outcomes)
    let o ← op.call sha1 client
    let rest ← callAll ops
    pure ((nextSucceeds outcomes,o)::rest)

end Model

/-- The calls that may leave their socket open: a put that is not rejected and whose first socket
could not be created, and a get without the memory for its value. -/
def Operation.losesSocket : Operation → Bool × Outcome → Bool
  | put .., r => ¬(r.1 ∨ r.2.code = .errBadParameter)
  | get _, r => r.2.code = .errNomem

namespace OnHeap
open Heaps HProp

/-- The result of a get with its value, which is freed. -/
def takeOutcome (r : ErrorCode × Ptr) : Code Outcome :=
  match r.2 with
  | none => pure ⟨r.1,none⟩
  | some a => do
    let s ← strings.read a
    free (some a)
    pure ⟨r.1,some s⟩

section Code
variable (A : Allocator) (sha1 : Bytes → Digest) (inetPton : CString → Option UInt32) (ring : Addr) (args : Args)

def call : Operation → HeapNet Block Outcome
  | .put k v => do
    let code ← networkPut A sha1 inetPton ring args (some k) (some v)
    pure ⟨code,none⟩
  | .get k => do
    let r ← networkGet A sha1 inetPton ring args (some k) none
    takeOutcome r

def callAll : List Operation → HeapNet Block (List Outcome)
  | [] => pure []
  | op::ops => do
    let o ← call A sha1 inetPton ring args op
    let rest ← callAll ops
    pure (o::rest)

end Code

variable {S : HProp Block} {A : Allocator} {sha1 : Bytes → Digest} {inetPton : CString → Option UInt32}
  {nodes : List Node}

theorem takeOutcome_implements (r : ErrorCode × Ptr) (o : Outcome) : Implements (gotAt r o * S) (takeOutcome r)
    (pure o) fun o' o => given (o' = o) ((if o.code = .errNomem then perhapsOpen else 1) * S) := by
  obtain ⟨code,p⟩ := r
  obtain ⟨code',v⟩ := o
  rw [gotAt,given_mul,mul_assoc]
  refine .given ?_
  rintro rfl
  cases p with
  | none =>
    cases v with
    | none =>
      rw [stringAt_none,one_mul]
      exact .pure (le_given rfl le_rfl)
    | some s => exact .bot_mul
  | some a =>
    cases v with
    | none => exact .bot_mul
    | some s => exact Kind.read_bind (K := strings) (.free_bind (.pure (le_given rfl le_rfl)))

theorem call_follows {sinAddr : UInt32} (hip : inetPton ppsDefaultIp = some sinAddr) {ring : Addr}
    (hS : NodesIn S ring nodes) (args : Args) (op : Operation) (outcomes : Outcomes) :
    Follows S (fun heap _ => call A sha1 inetPton ring args op heap outcomes)
      (fun _ => op.call sha1 ⟨nodes,args⟩ outcomes) fun o o' => given (o = o')
        ((if op.losesSocket (nextSucceeds outcomes,o') then perhapsOpen else 1) * S) := by
  cases op with
  | put k v =>
    refine .bind_fixed (networkPut_follows hip hS args (some k) (some v) outcomes) fun code code' => .given ?_
    rintro rfl
    refine .pure (le_given rfl ?_)
    simp only [Operation.losesSocket,decide_eq_true_eq,ite_not]
    exact le_rfl
  | get k =>
    have hget : Follows S (networkGet A sha1 inetPton ring args (some k) none)
        (PpsDht.networkGet sha1 ⟨nodes,args⟩ (some k) none) fun r o => gotAt r o * S := by
      have hnull : S = stringAt none none * S := by rw [stringAt_none,one_mul]
      exact (networkGet_follows hip hS args (some k) none none).mono hnull.le fun _ _ => le_rfl
    refine (hget.silent_end takeOutcome_implements).fixed outcomes |>.mono le_rfl fun o o' => ?_
    simp only [Operation.losesSocket,decide_eq_true_eq]
    exact le_rfl

/-- The number of calls that may leave their socket open. -/
def lostSockets (ops : List Operation) (results : List (Bool × Outcome)) : ℕ :=
  (List.zipWith Operation.losesSocket ops results).count true

theorem callAll_in_memory {sinAddr : UInt32} (hip : inetPton ppsDefaultIp = some sinAddr) {ring : Addr}
    (hS : NodesIn S ring nodes) (args : Args) (ops : List Operation) :
    Follows S (callAll A sha1 inetPton ring args ops) (PpsDht.callAll sha1 ⟨nodes,args⟩ ops) fun os results =>
      given (os = results.map Prod.snd) (perhapsOpen ^ lostSockets ops results * S) := by
  induction ops with
  | nil =>
    refine .pure (le_given rfl ?_)
    rw [lostSockets,List.zipWith_nil_left,List.count_nil,pow_zero,one_mul]
  | cons op ops ih =>
    rw [callAll,PpsDht.callAll]
    refine .get_bind fun outcomes => ?_
    refine .bind_fixed (call_follows hip hS args op outcomes) fun o o' => .given ?_
    rintro rfl
    rw [mul_comm]
    refine (ih.frame _).bind fun os results => ?_
    rw [given_mul]
    refine .given ?_
    rintro rfl
    refine .pure (le_given rfl ?_)
    rw [mul_assoc,mul_comm S,← mul_assoc]
    refine mul_le_mul_left ?_ S
    simp only [lostSockets,List.zipWith_cons_cons,List.count_cons]
    cases op.losesSocket (nextSucceeds outcomes,o) with
    | false => exact (mul_one _).le
    | true => exact (pow_succ _ _).ge

/-- A ring of one node in memory. -/
def oneNodeRing : HProp Block :=
  block 0 (.nodeList (some 1) 1) * (block 1 (.nodes [some ⟨some 2,some 3⟩]) *
    (block 2 (.digest (some .zero)) * block 3 (.address (some ⟨0x7f000001,1234⟩))))

private theorem nodesIn_oneNodeRing : NodesIn oneNodeRing 0 [⟨⟨0x7f000001,1234⟩,.zero⟩] := by
  have hparts : oneNodeRing = block 0 (nodeLists.head.block (some 1,1)) * (block 1 (nodeLists.array.block
      [some ⟨some 2,some 3⟩]) * partsOf nodeFields [some ⟨some 2,some 3⟩] [⟨⟨0x7f000001,1234⟩,.zero⟩]) := by
    rw [partsOf_cons,partsOf_nil,mul_one]
    rfl
  have hcells : [some (⟨some 2,some 3⟩ : NodeCell)].length =
      [(⟨⟨0x7f000001,1234⟩,.zero⟩ : Node)].length := rfl
  rw [hparts]
  exact .array 1 hcells

private theorem exists_oneNodeRing : ∃ heap, oneNodeRing heap := by
  refine ⟨_,mul_intro ?_ rfl (mul_intro ?_ rfl (mul_intro ?_ rfl rfl))⟩ <;>
    simp [disjoint_singleton]

theorem callAll_in_memory_one : (∃ heap, oneNodeRing heap) ∧
    Follows oneNodeRing (callAll default (fun _ => .zero) loopback 0 ⟨1,1,1⟩ [.put .letterK .letterV,.get .letterK])
      (PpsDht.callAll (fun _ => .zero) ⟨[⟨⟨0x7f000001,1234⟩,.zero⟩],⟨1,1,1⟩⟩ [.put .letterK .letterV,.get .letterK])
      fun os results => given (os = results.map Prod.snd) (perhapsOpen ^ lostSockets
        [.put .letterK .letterV,.get .letterK] results * oneNodeRing) := by
  have hip : loopback ppsDefaultIp = some 0x7f000001 := by decide
  exact ⟨exists_oneNodeRing,callAll_in_memory hip nodesIn_oneNodeRing _ _⟩

end OnHeap

end PpsDht
