import PpsDht.ClientSubstr

/-! # The client that concatenates values

The values of all arguments but the last are appended in a cleared array, each up to the room
that is left, and put under the last one. When a get fails the array is cleared again. It
always holds the beginning of the appended values, and no append leaves it. -/
namespace PpsDht
open Mem Net

section Code

/-- `strncat`: at most `n` characters and a terminator, from the end of the string in the array on. -/
def strncat (dest : Bytes) (src : CString) (n : ℕ) : Option Bytes := do
  let s ← readString dest
  copyAt dest s.length (src.chars.take n ++ [0])

/-- `new_value` after `memset`. -/
def clearedValue : Bytes := List.replicate (maxMsgSize + 1) 0

/-- The client takes any number of arguments and all options. -/
def catArgs (argv : List CString) : ClientInitArgs :=
  ⟨sizeMax,totalServers ||| getNeeded ||| putNeeded,argv.length,argv⟩

/-- The value that was fetched, behind those before. -/
def appendValue (newValue : Bytes) (val : CString) : Option Bytes := do
  let s ← readString newValue
  let maxSize := maxMsgSize - s.length
  strncat newValue val maxSize

/-- What `val` points to unless there is an error. -/
def fetchedValue (fetched : Outcome) : Option CString :=
  if fetched.code ≠ .errNone then none else fetched.value

section Parameters

variable (sha1 : Bytes → Digest) (inetPton : CString → Option UInt32) (qsort : List Node → List Node)
  (sscanfD : CString → Option Int32)

/-- The loop over the arguments, up to the last one: the array and the arguments left. -/
def catLoop (client : Client) : List CString → Bytes → Net (Bytes × List CString)
  | key::target::argv, newValue => do
    let fetched ← networkGet sha1 client (some key) none
    match fetchedValue fetched with
    | none => pure (clearedValue,key::target::argv)
    | some val => do
      let newValue ← (lift (appendValue newValue val) : Mem Bytes)
      catLoop client (target::argv) newValue
  | argv, newValue => pure (newValue,argv)

/-- The put and what is printed then. -/
def putValue (client : Client) (target value : CString) : Net Printed := do
  if (← networkPut sha1 client (some target) (some value)) = .errNone then pure .ok else pure (.fail 0)

/-- The part of `main` behind the loop. -/
def storeValue (client : Client) (newValue : Bytes) (argv : List CString) : Net Printed := do
  let newValue ← (lift (copyAt newValue maxMsgSize [0]) : Mem Bytes)
  let value ← (lift (readString newValue) : Mem CString)
  if value.length ≠ 0 then
    match argv with
    | [] => (undefined : Mem Printed)
    | target::_ => if target.length ≠ 0 then putValue sha1 client target value else pure (.fail 0)
  else pure (.fail 0)

def clientCat (argv : List CString) (servers : Option Bytes) : Net Printed := do
  match ← (clientInit sha1 inetPton qsort sscanfD (catArgs argv) servers : Mem _) with
  | .error _ => pure (.fail 1)
  | .ok client =>
    match client.args with
    -- never taken, since options are supported
    | none => (undefined : Mem Printed)
    | some quorums => do
      let client' : Client := ⟨client.nodes,quorums⟩
      let (newValue,argv) ← catLoop sha1 client' client.remArgv clearedValue
      storeValue sha1 client' newValue argv

end Parameters

end Code

/-- An array with the beginning of some characters, terminated inside. -/
structure CatBuffer (newValue chars : Bytes) : Prop where
  length_eq : newValue.length = maxMsgSize + 1
  holds : ∃ (s : CString) (rest : Bytes), newValue = s.chars ++ 0::rest ∧ s.chars = chars.take maxMsgSize

theorem catBuffer_cleared : CatBuffer clearedValue [] :=
  ⟨List.length_replicate,.empty,List.replicate maxMsgSize 0,List.replicate_succ,rfl⟩

/-- The appended characters fit into the array, and nothing is lost but what exceeds a message. -/
theorem CatBuffer.append {newValue chars : Bytes} (h : CatBuffer newValue chars) (val : CString) :
    ∃ newValue', appendValue newValue val = some newValue' ∧ CatBuffer newValue' (chars ++ val.chars) := by
  obtain ⟨hlen,s,rest,rfl,hs⟩ := h
  have hsplit : s.length + (rest.length + 1) = maxMsgSize + 1 := by
    rw [← hlen,List.length_append,List.length_cons,CString.length_chars]
  have hroom : s.length = min maxMsgSize chars.length := by
    rw [← s.length_chars,hs,List.length_take]
  have hcut : val.chars.take (maxMsgSize - s.length) = val.chars.take (maxMsgSize - chars.length) := by
    rw [hroom]
    refine congrArg (val.chars.take ·) ?_
    omega
  let whole : CString := ⟨s.chars ++ val.chars.take (maxMsgSize - s.length),fun hz =>
    (List.mem_append.mp hz).elim s.nulFree fun hz => val.nulFree (List.mem_of_mem_take hz)⟩
  have hadded : (val.chars.take (maxMsgSize - s.length) ++ [0]).length ≤ rest.length + 1 := by
    rw [List.length_append,List.length_take,List.length_singleton]
    omega
  have hfit : s.length + (val.chars.take (maxMsgSize - s.length) ++ [0]).length ≤ (s.chars ++ 0::rest).length := by
    rw [@List.length_append _ s.chars,List.length_cons,CString.length_chars]
    omega
  have hcopy : copyAt (s.chars ++ 0::rest) s.length (val.chars.take (maxMsgSize - s.length) ++ [0]) =
      some (whole.chars ++
        0::(s.chars ++ 0::rest).drop (s.length + (val.chars.take (maxMsgSize - s.length) ++ [0]).length)) := by
    rw [copyAt,if_pos hfit,show (s.chars ++ 0::rest).take s.length = s.chars from List.take_left]
    simp [whole]
  refine ⟨_,?_,(length_copyAt hcopy).trans hlen,whole,_,rfl,?_⟩
  · rw [appendValue,readString_append,Option.bind_eq_bind,Option.bind_some,strncat,readString_append,
      Option.bind_eq_bind,Option.bind_some,hcopy]
  · rw [List.take_append,← hcut,← hs]

/-- However many values are appended, the array is never left. -/
theorem appendValues (vals : List CString) :
    ∃ newValue, vals.foldlM appendValue clearedValue = some newValue ∧
      CatBuffer newValue (vals.flatMap CString.chars) := by
  induction vals using List.reverseRecOn with
  | nil => exact ⟨_,rfl,catBuffer_cleared⟩
  | append_singleton vals val ih =>
    obtain ⟨newValue,hfold,hbuffer⟩ := ih
    obtain ⟨newValue',happend,hbuffer'⟩ := hbuffer.append val
    refine ⟨newValue',?_,?_⟩
    · rw [List.foldlM_append,hfold,Option.bind_eq_bind,Option.bind_some,List.foldlM_cons,happend]
      rfl
    · rw [List.flatMap_append,List.flatMap_singleton]
      exact hbuffer'

/-- The last byte ends the array once more, which keeps the string in it. -/
theorem CatBuffer.read {newValue chars : Bytes} (h : CatBuffer newValue chars) :
    ∃ (newValue' : Bytes) (s : CString), copyAt newValue maxMsgSize [0] = some newValue' ∧
      readString newValue' = some s ∧ s.chars = chars.take maxMsgSize := by
  obtain ⟨hlen,s,rest,rfl,hs⟩ := h
  have hroom : s.length ≤ maxMsgSize := by
    rw [← s.length_chars,hs]
    exact List.length_take_le _ _
  refine ⟨_,s,if_pos hlen.ge,readString_eq_some.mpr ?_,hs⟩
  rw [List.take_append,CString.length_chars,List.take_of_length_le hroom,
    List.drop_of_length_le (show _ ≤ maxMsgSize + ([0] : Bytes).length from hlen.le)]
  cases maxMsgSize - s.length with
  | zero => exact ⟨[],by simp⟩
  | succ n => exact ⟨rest.take n ++ [0],by simp⟩

theorem length_ne_zero_iff {value : CString} {chars : Bytes} (h : value.chars = chars.take maxMsgSize) :
    value.length ≠ 0 ↔ chars ≠ [] := by
  rw [Ne,CString.length_eq_zero,← CString.chars_eq_nil,h,List.take_eq_nil_iff]
  exact not_congr (or_iff_right (by decide))

end PpsDht
