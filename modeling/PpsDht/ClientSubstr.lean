import PpsDht.ClientPrograms
import PpsDht.ClientStartup

/-! # The client that stores a substring

The requested range is checked with unsigned arithmetic of 64 bits, a negative position
counting from the end of the value. A position before the beginning becomes a large number,
and adding the length can wrap it around into the value again. The part is copied into an
array on the stack whose content is not initialised and gets no terminator. -/
namespace PpsDht
open Mem Net

section Code

/-- `strncpy`: at most `n` characters up to the terminator, then zeros. Undefined past the end
of one of the arrays. -/
def strncpy (dest src : Bytes) (n : ℕ) : Option Bytes :=
  if n ≤ src.length ∨ 0 ∈ src then
    let chars := (src.take n).takeWhile (· ≠ 0)
    copyAt dest 0 (chars ++ List.replicate (n - chars.length) 0)
  else none

/-- What the stack holds where `new_value` comes to lie. -/
structure StackArray where
  bytes : Bytes
  length_bytes : bytes.length = maxMsgSize

def substrPosition (valLen : UInt64) (positionS : Int64) : UInt64 :=
  if positionS < 0 then valLen + positionS.toUInt64 else positionS.toUInt64

/-- The check in front of the copy. -/
def reachesCopy (valLen : UInt64) (positionS : Int64) (length : UInt64) : Bool :=
  ¬substrPosition valLen positionS + length > valLen

/-- The array after the copy; `val` ends with its terminator. -/
def copySubstring (val : CString) (position length : UInt64) (newValue : StackArray) : Option Bytes :=
  if position.toNat ≤ val.length then strncpy newValue.bytes (val.stored.drop position.toNat) length.toNat
  else none

inductive Printed where
  | ok
  | fail (exitCode : ℕ)
  deriving DecidableEq

section Parameters

variable (sha1 : Bytes → Digest) (inetPton : CString → Option UInt32) (qsort : List Node → List Node)
  (sscanfD : CString → Option Int32) (sscanfLd : CString → Option Int64)

/-- `network_put` with a value that lies in an array, read after the key has been checked. -/
def networkPutArray (client : Client) (key : CString) (value : Bytes) : Net ErrorCode :=
  if tooLong key then pure .errBadParameter else do
    let value ← (lift (readString value) : Mem CString)
    networkPut sha1 client (some key) (some value)

/-- The part of `main` behind the get. -/
def storeSubstring (client : Client) (val : CString) (positionS : Int64) (lengthTest : Int32) (target : CString)
    (newValue : StackArray) : Net Printed := do
  let length := lengthTest.toInt64.toUInt64
  let valLen := UInt64.ofNat val.length
  if reachesCopy valLen positionS length then
    let newValue ← (lift (copySubstring val (substrPosition valLen positionS) length newValue) : Mem Bytes)
    if (← networkPutArray sha1 client target newValue) = .errNone then pure .ok else pure (.fail 0)
  else pure (.fail 0)

def clientSubstr (argv : List CString) (servers : Option Bytes) (newValue : StackArray) : Net Printed := do
  let args : ClientInitArgs := ⟨4,totalServers ||| getNeeded ||| putNeeded,argv.length,argv⟩
  match ← (clientInit sha1 inetPton qsort sscanfD args servers : Mem _) with
  | .error _ => pure (.fail 1)
  | .ok client =>
    match client.args, client.remArgv with
    | some quorums, [key,position,length,target] =>
      match sscanfLd position, sscanfD length with
      | some positionS, some lengthTest =>
        if lengthTest < 0 then pure (.fail 1)
        else do
          let client : Client := ⟨client.nodes,quorums⟩
          let fetched ← networkGet sha1 client (some key) none
          match fetched.code, fetched.value with
          | .errNone, some val => storeSubstring sha1 client val positionS lengthTest target newValue
          | _, _ => pure (.fail 1)
      | _, _ => pure (.fail 1)
    -- never taken, since options are supported and four arguments are left
    | _, _ => (undefined : Mem Printed)

end Parameters

end Code

/-- The position from the beginning of the value. -/
def requestedPosition (valLen : ℕ) (position : ℤ) : ℤ := if 0 ≤ position then position else valLen + position

/-- The requested characters all belong to the value. -/
def RequestInRange (valLen : ℕ) (position length : ℤ) : Prop :=
  0 ≤ requestedPosition valLen position ∧ requestedPosition valLen position + length ≤ valLen

/-- The check lets exactly the requests in range through, and the copy reads the value only. -/
def RangeChecked (valLen : ℕ) (positionS : Int64) (lengthTest : Int32) : Prop :=
  let length := lengthTest.toInt64.toUInt64
  (reachesCopy (UInt64.ofNat valLen) positionS length ↔ RequestInRange valLen positionS.toInt lengthTest.toInt) ∧
    (reachesCopy (UInt64.ofNat valLen) positionS length →
      (substrPosition (UInt64.ofNat valLen) positionS).toNat + length.toNat ≤ valLen)

private theorem valLen_lt {valLen : ℕ} (h : valLen ≤ maxMsgSize) : valLen < 2^63 :=
  h.trans_lt (by decide)

/-- A signed number converted to unsigned. -/
theorem toNat_toUInt64 (p : Int64) : (p.toUInt64.toNat : ℤ) = if p.toInt < 0 then p.toInt + 2^64 else p.toInt := by
  have h : p.toInt = if 2 * p.toUInt64.toNat < 2^64 then (p.toUInt64.toNat : ℤ) else p.toUInt64.toNat - 2^64 :=
    BitVec.toInt_eq_toNat_cond p.toBitVec
  have hlt := p.toUInt64.toNat_lt
  split at h <;> split <;> omega

private theorem toInt_nonneg {l : Int32} (h : 0 ≤ l) : 0 ≤ l.toInt := by
  simpa using Int32.le_iff_toInt_le.mp h

private theorem toNat_length {l : Int32} (h : 0 ≤ l.toInt) :
    (l.toInt64.toUInt64.toNat : ℤ) = l.toInt ∧ l.toInt < 2^31 := by
  have hl := l.toInt_lt
  rw [toNat_toUInt64,Int32.toInt_toInt64,if_neg (not_lt.mpr h)]
  exact ⟨rfl,hl⟩

/-- The copied range begins where it was asked for, modulo `2^64`. -/
theorem substrPosition_eq {valLen : ℕ} (hlen : valLen < 2^63) (p : Int64) :
    ((substrPosition (UInt64.ofNat valLen) p).toNat : ℤ) =
      if requestedPosition valLen p.toInt < 0 then requestedPosition valLen p.toInt + 2^64
      else requestedPosition valLen p.toInt := by
  have hp := toNat_toUInt64 p
  have hlow := p.le_toInt
  have hhigh := p.toInt_lt
  have hval : (UInt64.ofNat valLen).toNat = valLen := by
    rw [UInt64.toNat_ofNat']
    omega
  rw [substrPosition,requestedPosition]
  by_cases hneg : p < 0
  · have hneg' : p.toInt < 0 := by simpa using Int64.lt_iff_toInt_lt.mp hneg
    rw [if_pos hneg,if_neg (not_le.mpr hneg'),UInt64.toNat_add,hval]
    rw [if_pos hneg'] at hp
    split <;> omega
  · have hneg' : ¬p.toInt < 0 := by simpa using mt Int64.lt_iff_toInt_lt.mpr hneg
    rw [if_neg hneg,if_pos (not_lt.mp hneg')]
    rw [if_neg hneg'] at hp
    split <;> omega

private theorem reachesCopy_iff {valLen : ℕ} (hlen : valLen < 2^63) (p : Int64) (length : UInt64) :
    reachesCopy (UInt64.ofNat valLen) p length ↔
      ((substrPosition (UInt64.ofNat valLen) p).toNat + length.toNat) % 2^64 ≤ valLen := by
  have hval : (UInt64.ofNat valLen).toNat = valLen := by
    rw [UInt64.toNat_ofNat']
    omega
  rw [reachesCopy,decide_eq_true_iff,gt_iff_lt,UInt64.not_lt,UInt64.le_iff_toNat_le,UInt64.toNat_add,hval]

/-- The position and the length of a request in range are those of the copy, which is reached. -/
theorem RequestInRange.reachesCopy {valLen : ℕ} (hval : valLen ≤ maxMsgSize) {p : Int64} {l : Int32} (hl : 0 ≤ l)
    (h : RequestInRange valLen p.toInt l.toInt) :
    reachesCopy (UInt64.ofNat valLen) p l.toInt64.toUInt64 ∧
      (substrPosition (UInt64.ofNat valLen) p).toNat = (requestedPosition valLen p.toInt).toNat ∧
      l.toInt64.toUInt64.toNat = l.toInt.toNat := by
  have hlen := valLen_lt hval
  have hlength := (toNat_length (toInt_nonneg hl)).1
  have hp := substrPosition_eq hlen p
  obtain ⟨hfirst,hlast⟩ := h
  rw [if_neg (not_lt.mpr hfirst)] at hp
  rw [reachesCopy_iff hlen]
  omega

/-- The check is right except for positions before the beginning whose range reaches at least
to the beginning and not past the end. -/
theorem rangeChecked_iff (valLen : ℕ) (positionS : Int64) (lengthTest : Int32) (hval : valLen ≤ maxMsgSize)
    (hlength : 0 ≤ lengthTest) :
    RangeChecked valLen positionS lengthTest ↔
      -(valLen : ℤ) ≤ positionS.toInt ∨ lengthTest.toInt < -(valLen + positionS.toInt) ∨
        -positionS.toInt < lengthTest.toInt := by
  have hlen := valLen_lt hval
  obtain ⟨hl,hl31⟩ := toNat_length (toInt_nonneg hlength)
  have hp := substrPosition_eq hlen positionS
  have hlow := positionS.le_toInt
  have hhigh := positionS.toInt_lt
  simp only [RangeChecked,reachesCopy_iff hlen,RequestInRange]
  generalize (substrPosition (UInt64.ofNat valLen) positionS).toNat = position at hp ⊢
  generalize lengthTest.toInt64.toUInt64.toNat = length at hl ⊢
  rw [requestedPosition] at hp ⊢
  by_cases hsign : 0 ≤ positionS.toInt
  · rw [if_pos hsign,if_neg (not_lt.mpr hsign)] at hp
    rw [if_pos hsign]
    omega
  · rw [if_neg hsign] at hp ⊢
    split at hp <;> omega

theorem rangeChecked_iff_last : RangeChecked 3 (-1) 1 ↔
    -((3 : ℕ) : ℤ) ≤ (-1 : Int64).toInt ∨ (1 : Int32).toInt < -((3 : ℕ) + (-1 : Int64).toInt) ∨
      -(-1 : Int64).toInt < (1 : Int32).toInt :=
  rangeChecked_iff 3 (-1) 1 (by decide) (by decide)

/-- Two characters from the position one before the beginning of three. -/
theorem reachesCopy_wraps :
    ¬∀ (valLen : ℕ) (positionS : Int64) (lengthTest : Int32), valLen ≤ maxMsgSize → 0 ≤ lengthTest →
      RangeChecked valLen positionS lengthTest := by
  intro h
  have hcopy := (h 3 (-4) 2 (by decide) (by decide)).1.mp (by decide)
  exact absurd hcopy.1 (by decide)

/-- `length` characters from `position` on. -/
def CString.slice (s : CString) (position length : ℕ) : CString where
  chars := (s.chars.drop position).take length
  nulFree h := s.nulFree (List.mem_of_mem_drop (List.mem_of_mem_take h))

/-- The value that `network_put` finds in the array after the copy. -/
def handedValue (val : CString) (positionS : Int64) (lengthTest : Int32) (newValue : StackArray) : Option CString :=
  (copySubstring val (substrPosition (UInt64.ofNat val.length) positionS) lengthTest.toInt64.toUInt64 newValue).bind
    readString

@[simp] theorem CString.length_slice {s : CString} {position length : ℕ} (h : position + length ≤ s.length) :
    (s.slice position length).length = length := by
  simp only [CString.length,slice,List.length_take,List.length_drop] at h ⊢
  omega

/-- Characters in front of the terminator are copied as they are. -/
theorem strncpy_slice (dest : Bytes) {s : CString} {position length : ℕ} (h : position + length ≤ s.length) :
    strncpy dest (s.stored.drop position) length = copyAt dest 0 (s.slice position length).chars := by
  have hroom : length ≤ (s.stored.drop position).length := by
    rw [List.length_drop,CString.length_stored]
    omega
  have hchars : ((s.stored.drop position).take length).takeWhile (· ≠ 0) = (s.slice position length).chars := by
    have hpart : (s.stored.drop position).take length = (s.slice position length).chars := by
      rw [CString.stored,List.drop_append_of_le_length (by rw [CString.length_chars]; omega),
        List.take_append_of_le_length (by rw [List.length_drop,CString.length_chars]; omega)]
      rfl
    rw [hpart]
    exact List.takeWhile_eq_self_iff.mpr fun c hc => by simpa using CString.ne_zero_of_mem hc
  simp only [strncpy,hroom,true_or,if_true,hchars,CString.length_chars,CString.length_slice h,Nat.sub_self,
    List.replicate_zero,List.append_nil]

/-- A request in range is copied character by character. -/
theorem copySubstring_inRange {val : CString} {positionS : Int64} {lengthTest : Int32} {newValue : StackArray}
    (hval : val.length ≤ maxMsgSize) (hlength : 0 ≤ lengthTest)
    (h : RequestInRange val.length positionS.toInt lengthTest.toInt) :
    copySubstring val (substrPosition (UInt64.ofNat val.length) positionS) lengthTest.toInt64.toUInt64 newValue =
      copyAt newValue.bytes 0
        (val.slice (requestedPosition val.length positionS.toInt).toNat lengthTest.toInt.toNat).chars := by
  have hlength' := toInt_nonneg hlength
  obtain ⟨-,hposition,hl⟩ := h.reachesCopy hval hlength
  obtain ⟨hfirst,hlast⟩ := h
  rw [copySubstring,hposition,hl,if_pos (by omega),strncpy_slice _ (by omega)]

/-- What `main` does with a request in range and a key that `network_put` accepts. -/
theorem storeSubstring_inRange (sha1 : Bytes → Digest) (client : Client) {val : CString} {positionS : Int64}
    {lengthTest : Int32} {target value : CString} {newValue : StackArray} (outcomes : Outcomes)
    (hval : val.length ≤ maxMsgSize) (hlength : 0 ≤ lengthTest)
    (h : RequestInRange val.length positionS.toInt lengthTest.toInt) (htarget : tooLong target = false)
    (hvalue : handedValue val positionS lengthTest newValue = some value) :
    storeSubstring sha1 client val positionS lengthTest target newValue outcomes =
      (networkPut sha1 client (some target) (some value) >>= fun code =>
        pure (if code = .errNone then .ok else .fail 0)) outcomes := by
  obtain ⟨array,harray,hread⟩ := Option.bind_eq_some_iff.mp hvalue
  have hput : networkPutArray sha1 client target array outcomes =
      networkPut sha1 client (some target) (some value) outcomes := by
    rw [networkPutArray,htarget,if_neg Bool.false_ne_true]
    exact liftM_apply (Mem.lift_apply hread outcomes) _
  rw [storeSubstring]
  simp only [(h.reachesCopy hval hlength).1,if_true]
  rw [liftM_apply (Mem.lift_apply harray outcomes)]
  change (networkPutArray sha1 client target array outcomes >>= _) = _
  rw [hput]
  refine congrArg (networkPut sha1 client (some target) (some value) outcomes >>= ·) (funext fun (code,rest) => ?_)
  exact congrFun (apply_ite (pure : Printed → Net Printed) (code = .errNone) .ok (.fail 0)).symm rest

/-- Behind copied characters the string ends exactly at a zero that was there before. -/
theorem readString_copyAt_iff (s : CString) (dest : Bytes) :
    (copyAt dest 0 s.chars).bind readString = some s ↔ dest[s.length]? = some 0 := by
  rw [copyAt,Nat.zero_add,List.take_zero,List.nil_append,CString.length_chars]
  split
  · rw [Option.bind_some,readString_eq_some,← List.head?_drop]
    simp only [List.append_cancel_left_eq]
    constructor
    · rintro ⟨rest,hrest⟩
      rw [hrest,List.head?_cons]
    · exact fun hhead => ⟨_,(List.cons_head?_tail hhead).symm⟩
  · rename_i hlong
    rw [List.getElem?_eq_none (by omega)]
    simp

/-- The substring is stored exactly when the array holds a zero behind it. -/
theorem handedValue_iff (val : CString) (positionS : Int64) (lengthTest : Int32) (newValue : StackArray)
    (hval : val.length ≤ maxMsgSize) (hlength : 0 ≤ lengthTest)
    (h : RequestInRange val.length positionS.toInt lengthTest.toInt) :
    handedValue val positionS lengthTest newValue =
        some (val.slice (requestedPosition val.length positionS.toInt).toNat lengthTest.toInt.toNat) ↔
      newValue.bytes[lengthTest.toInt.toNat]? = some 0 := by
  have hlength' := toInt_nonneg hlength
  obtain ⟨hfirst,hlast⟩ := h
  have hslice : (val.slice (requestedPosition val.length positionS.toInt).toNat lengthTest.toInt.toNat).length =
      lengthTest.toInt.toNat := CString.length_slice (by omega)
  rw [handedValue,copySubstring_inRange hval hlength ⟨hfirst,hlast⟩,readString_copyAt_iff,hslice]

/-- An array filled with one byte. -/
def StackArray.filled (c : UInt8) : StackArray := ⟨List.replicate maxMsgSize c,List.length_replicate⟩

private theorem letterV_inRange : RequestInRange CString.letterV.length (0 : Int64).toInt (1 : Int32).toInt :=
  ⟨show (0 : ℤ) ≤ requestedPosition 1 0 by decide,show requestedPosition 1 0 + 1 ≤ 1 by decide⟩

theorem handedValue_iff_letter :
    handedValue .letterV 0 1 (.filled 0) = some (CString.letterV.slice
        (requestedPosition CString.letterV.length (0 : Int64).toInt).toNat (1 : Int32).toInt.toNat) ↔
      (StackArray.filled 0).bytes[(1 : Int32).toInt.toNat]? = some 0 :=
  handedValue_iff .letterV 0 1 (.filled 0) (by decide) (by decide) letterV_inRange

/-- On an array filled with a letter no zero follows the copied character. -/
theorem handedValue_unterminated :
    ¬∀ (val : CString) (positionS : Int64) (lengthTest : Int32) (newValue : StackArray),
      val.length ≤ maxMsgSize → 0 ≤ lengthTest →
      RequestInRange val.length positionS.toInt lengthTest.toInt →
      handedValue val positionS lengthTest newValue =
        some (val.slice (requestedPosition val.length positionS.toInt).toNat lengthTest.toInt.toNat) := by
  intro h
  have hvalue := h .letterV 0 1 (.filled 120) (by decide) (by decide) letterV_inRange
  rw [handedValue,copySubstring_inRange (by decide) (by decide) letterV_inRange,readString_copyAt_iff] at hvalue
  have hbyte := List.eq_of_mem_replicate (List.mem_of_getElem? hvalue)
  exact absurd hbyte (by decide)

end PpsDht
