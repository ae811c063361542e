import PpsDht.Hashtable

/-! # The server's main loop

One cycle receives a datagram into a zeroed buffer, tells the request from the
position of the first zero, and answers. Four kinds of request share one
untagged byte format. `Denotes` classifies byte strings by shape, without buffers or
lengths, and the dispatcher finds the one meaning of each. -/
namespace PpsDht
open Mem

inductive Request where
  | check
  | dump
  | get (key : CString)
  | put (key value : CString)
  deriving DecidableEq

/-- `memset` and `recvfrom`: the buffer and the number of bytes received. -/
def receive (d : Datagram) : Bytes × ℕ :=
  let received := d.take maxMsgSize
  (received ++ List.replicate (maxMsgSize + 1 - received.length) 0,received.length)

/-- Extraction of key and value and choice of the branch. A value is kept as
the place where it starts and the length `val_len`. -/
def parse (inMsg : Bytes) (inMsgLen : ℕ) : Option Request := do
  let key ← readString inMsg
  let val ← match memchr 0 inMsg inMsgLen with
    | none => some none
    | some place =>
      if key.length + 1 = inMsgLen then some (some (place,1))
      else (readString (inMsg.drop (place + 1))).map fun s => some (place + 1,s.length)
  if inMsgLen = 0 then some .check
  else if inMsgLen = 1 ∧ inMsg.head? = some 0 then some .dump
  else match val with
    | none => some (.get key)
    | some (place,valLen) =>
      if valLen = 0 then some (.get key)
      else (readString (inMsg.drop place)).map (.put key)

def dispatch (d : Datagram) : Option Request :=
  let (inMsg,inMsgLen) := receive d
  parse inMsg inMsgLen

/-- `htonl` of a 32-bit number, laid out in memory. -/
def htonl (n : ℕ) : Bytes :=
  [UInt8.ofNat (n / 2^24),UInt8.ofNat (n / 2^16),UInt8.ofNat (n / 2^8),UInt8.ofNat n]

/-- `strcpy` behind the filled part of the dump's buffer, undefined past its end. -/
def appendString (msg : Bytes) (s : CString) : Mem Bytes :=
  if maxMsgSize < msg.length + (s.length + 1) then undefined else pure (msg ++ s.stored)

def appendPair (msg : Bytes) (key value : CString) : Mem Bytes := do
  let filled ← appendString msg key
  appendString filled value

/-- The loop of the dump branch; `msg` is the part of the buffer filled so far,
so its length is `current_size`. Each datagram leaves out the last byte. -/
def dumpPairs : List KvPair → Bytes → Mem (List Datagram)
  | [], msg => pure [msg.dropLast]
  | pair::pairs, msg => do
    let key ← lift pair.key
    let value ← lift pair.value
    let full := msg.length + (key.length + 1) + (value.length + 1) > maxMsgSize
    let filled ← appendPair (if full then [] else msg) key value
    let sent ← dumpPairs pairs filled
    pure (if full then msg.dropLast::sent else sent)

/-- The datagrams for a list of pairs, their number in front. -/
def sendPairs (pairs : List KvPair) : Mem (List Datagram) :=
  dumpPairs pairs (htonl (pairs.length % 2^32))

def dump (table : Htable) : Mem (List Datagram) := do
  let list ← getHtableContent table
  if ← malloc then
    -- a null list is read for its size
    let pairs ← lift list
    sendPairs pairs
  else pure []

/-- One turn of the loop: the table afterwards and the datagrams sent back. -/
def serve (table : Htable) (d : Datagram) : Mem (Htable × List Datagram) := do
  match ← lift (dispatch d) with
  | .check => pure (table,[[]])
  | .dump => do
    let sent ← dump table
    pure (table,sent)
  | .get key => do
    match ← getHtableValue table key with
    | none => pure (table,[[0]])
    | some val => pure (table,[val.chars])
  | .put key val => do
    -- the error code is not looked at
    let (_,table) ← addHtableValue table key val
    pure (table,[[]])

/-- The loop on a sequence of datagrams. -/
def serveAll (table : Htable) : List Datagram → Mem (Htable × List (List Datagram))
  | [] => pure (table,[])
  | d::ds => do
    let (table,sent) ← serve table d
    let (table,rest) ← serveAll table ds
    pure (table,sent::rest)

def launchServer (ds : List Datagram) : Mem (Htable × List (List Datagram)) := do
  let table ← constructHtable htableSize
  serveAll table ds

inductive Denotes : Datagram → Request → Prop
  | check : Denotes [] .check
  | dump : Denotes [0] .dump
  | putEmpty (k : CString) (hk : k ≠ .empty) : Denotes (k.chars ++ [0]) (.put k .empty)
  | put (k v : CString) (hv : v ≠ .empty) : Denotes (k.chars ++ 0::v.chars) (.put k v)
  | putRest (k v : CString) (rest : Bytes) (hv : v ≠ .empty) :
      Denotes (k.chars ++ 0::(v.chars ++ 0::rest)) (.put k v)
  | get (k : CString) (hk : k ≠ .empty) : Denotes k.chars (.get k)
  | getRest (k : CString) (rest : Bytes) : Denotes (k.chars ++ 0::0::rest) (.get k)

theorem exists_denotes (d : Datagram) : ∃ r, Denotes d r := by
  by_cases hd : 0 ∈ d
  · obtain ⟨k,body,rfl⟩ := exists_of_zero_mem hd
    by_cases hb : 0 ∈ body
    · obtain ⟨v,rest,rfl⟩ := exists_of_zero_mem hb
      by_cases hv : v = .empty
      · subst hv
        exact ⟨_,.getRest k rest⟩
      · exact ⟨_,.putRest k v rest hv⟩
    · by_cases hv : body = []
      · subst hv
        by_cases hk : k = .empty
        · subst hk
          exact ⟨_,.dump⟩
        · exact ⟨_,.putEmpty k hk⟩
      · exact ⟨_,.put k ⟨body,hb⟩ fun h => hv (congrArg CString.chars h)⟩
  · by_cases hk : d = []
    · subst hk
      exact ⟨_,.check⟩
    · exact ⟨_,.get ⟨d,hd⟩ fun h => hk (congrArg CString.chars h)⟩

/-- The buffer always ends with at least one zero that was not received. -/
theorem receive_eq {d : Datagram} (h : d.length ≤ maxMsgSize) :
    receive d = (d ++ 0::List.replicate (maxMsgSize - d.length) 0,d.length) := by
  have hn : maxMsgSize + 1 - d.length = maxMsgSize - d.length + 1 := by omega
  simp only [receive,List.take_of_length_le h,hn,List.replicate_succ]

private theorem chars_head_ne_zero (k : CString) (rest : Bytes) (h : k ≠ .empty) :
    (k.chars ++ rest).head? ≠ some 0 := by
  obtain ⟨chars,hz⟩ := k
  cases chars with
  | nil => exact absurd rfl h
  | cons c chars =>
    intro hc
    rw [List.cons_append,List.head?_cons,Option.some.injEq] at hc
    exact hz (hc ▸ List.mem_cons_self)

theorem dispatch_chars (k : CString) (h : k.length ≤ maxMsgSize) :
    dispatch k.chars = some (if k = .empty then .check else .get k) := by
  have hmem := memchr_none k.nulFree (0::List.replicate (maxMsgSize - k.chars.length) 0)
  simp only [dispatch,receive_eq (show k.chars.length ≤ _ from h),parse,readString_append,hmem]
  by_cases hk : k = .empty
  · subst hk
    rfl
  · have hl : k.length ≠ 0 := fun he => hk (CString.length_eq_zero.mp he)
    simp only [Option.bind_eq_bind,Option.bind_some,CString.length_chars,hl,hk,
      chars_head_ne_zero k _ hk,and_false,if_false]

theorem dispatch_terminated (k : CString) (h : k.length + 1 ≤ maxMsgSize) :
    dispatch (k.chars ++ [0]) = some (if k = .empty then .dump else .put k .empty) := by
  have hlen : (k.chars ++ [0]).length = k.length + 1 := by simp
  have hmem := memchr_append k (0::List.replicate (maxMsgSize - (k.length + 1)) 0) (Nat.lt_succ_self _)
  simp only [dispatch,receive_eq (hlen.trans_le h),hlen,parse,List.append_assoc,List.singleton_append,
    readString_append,hmem]
  by_cases hk : k = .empty
  · subst hk
    rfl
  · have hl : k.length ≠ 0 := fun he => hk (CString.length_eq_zero.mp he)
    have hdrop : ∀ rest : Bytes, (k.chars ++ rest).drop k.length = rest := fun rest => List.drop_left
    simp [hk,hl,hdrop]

/-- Two bytes or more after the key: the string behind the zero decides. -/
theorem dispatch_body (k v : CString) (body rest : Bytes) (hb : body ≠ [])
    (hv : body ++ 0::List.replicate (maxMsgSize - (k.length + 1 + body.length)) 0 = v.chars ++ 0::rest)
    (h : k.length + 1 + body.length ≤ maxMsgSize) :
    dispatch (k.chars ++ 0::body) = some (if v = .empty then .get k else .put k v) := by
  have hpos : 0 < body.length := List.length_pos_iff.mpr hb
  have hlen : (k.chars ++ 0::body).length = k.length + 1 + body.length := by
    simp only [List.length_append,List.length_cons,CString.length_chars]
    omega
  have hmem := memchr_append k (body ++ 0::List.replicate (maxMsgSize - (k.length + 1 + body.length)) 0)
    (show k.length < k.length + 1 + body.length by omega)
  have hdrop : ∀ more : Bytes, (k.chars ++ 0::more).drop (k.length + 1) = more := fun more => by
    rw [← List.drop_drop,show (k.chars ++ 0::more).drop k.length = 0::more from List.drop_left]
    rfl
  have h₁ : ¬(k.length + 1 = k.length + 1 + body.length) := by omega
  have h₂ : ¬(k.length + 1 + body.length = 0) := by omega
  have h₃ : ¬(k.length + 1 + body.length = 1) := by omega
  simp only [dispatch,receive_eq (hlen.trans_le h),hlen,parse,List.append_assoc,List.cons_append,
    readString_append,hmem,hdrop]
  simp only [Option.bind_eq_bind,Option.bind_some,h₁,h₂,h₃,false_and,if_false,hdrop,hv,
    readString_append,Option.map_some,CString.length_eq_zero]
  split <;> rfl

theorem dispatch_of_denotes {d : Datagram} {r : Request} (h : Denotes d r)
    (hd : d.length ≤ maxMsgSize) : dispatch d = some r := by
  cases h with
  | check => exact dispatch_chars .empty (Nat.zero_le _)
  | dump => exact dispatch_terminated .empty hd
  | putEmpty k hk =>
    rw [dispatch_terminated k (by simpa using hd),if_neg hk]
  | put k v hv =>
    rw [dispatch_body k v v.chars _ (fun h => hv (CString.chars_eq_nil.mp h)) rfl ?_,if_neg hv]
    simpa [Nat.add_assoc,Nat.add_comm 1] using hd
  | putRest k v rest hv =>
    rw [dispatch_body k v (v.chars ++ 0::rest) _ (by simp)
      (by rw [List.append_assoc,List.cons_append]) ?_,if_neg hv]
    simpa [Nat.add_assoc,Nat.add_comm 1] using hd
  | get k hk =>
    rw [dispatch_chars k hd,if_neg hk]
  | getRest k rest =>
    rw [dispatch_body k .empty (0::rest) _ (by simp) (List.nil_append _).symm ?_,if_pos rfl]
    simpa [Nat.add_assoc,Nat.add_comm 1] using hd

/-- The dispatcher computes the meaning of every datagram. -/
theorem dispatch_iff {d : Datagram} (hd : d.length ≤ maxMsgSize) (r : Request) :
    dispatch d = some r ↔ Denotes d r := by
  constructor
  · intro h
    obtain ⟨r',hr⟩ := exists_denotes d
    rw [dispatch_of_denotes hr hd] at h
    exact Option.some.inj h ▸ hr
  · exact fun h => dispatch_of_denotes h hd

end PpsDht
