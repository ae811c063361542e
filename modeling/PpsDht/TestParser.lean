import Mathlib.Data.Int.Init
import PpsDht.CStrings
import PpsDht.Scanning

/-! # The benchmark and the reader of its results

For each number of write confirmations `W` a series of puts is timed, until `W` exceeds the
number of nodes or three series in a row had no success. Each outcome and the two readings
of the clock around it are taken as they come. The reader goes through the file of results
with conversions and with loops that skip the rest of a line. A skipping loop that meets the
end of the file never ends, which is `none` here, as is a status that does not fit its array. -/
namespace PpsDht
open Scanning

/-- `struct timespec`. -/
structure Timespec where
  tvSec : Int64
  tvNsec : Int64
  deriving DecidableEq

/-- A difference of type `long`. Out of range is undefined. -/
def long (z : ℤ) : Option ℤ := if -2^63 ≤ z ∧ z < 2^63 then some z else none

/-- `while (nsec < 0) nsec += 1000000000`. -/
def addSeconds (nsec : ℤ) : ℤ := if nsec < 0 then addSeconds (nsec + 10^9) else nsec
  termination_by (-nsec).toNat
  decreasing_by omega

/-- `print_time`, with `"%ld%09ld\n"`. -/
def printTime (timeStart timeEnd : Timespec) : Option Bytes := do
  let nsec ← long (timeEnd.tvNsec.toInt - timeStart.tvNsec.toInt)
  let sec ← long (timeEnd.tvSec.toInt - timeStart.tvSec.toInt)
  some (signedDigits sec ++ (zeroPadded 9 (addSeconds nsec).toNat ++ [10]))

/-- The characters of a literal. -/
def text (chars : List Char) : Bytes := chars.map charByte

def success : Bytes := text ['S','U','C','C','E','S','S']

def failure : Bytes := text ['F','A','I','L','U','R','E']

def aborting : Bytes :=
  text ['N','e','t','w','o','r','k',' ','c','a','n','n','o','t',' ','h','a','n','d','l','e',' ','a',' ','W',' ',
    't','h','i','s',' ','l','a','r','g','e',',',' ','a','b','o','r','t','i','n','g','.','\n']

/-- One call of `network_put` between two readings of the clock. -/
structure TimedPut where
  err : ErrorCode
  timeStart : Timespec
  timeEnd : Timespec
  deriving DecidableEq

namespace TimedPut

def status (put : TimedPut) : Bytes := if put.err = .errNone then success else failure

/-- The line about a put. -/
def line (put : TimedPut) : Option Bytes := do
  let time ← printTime put.timeStart put.timeEnd
  some (put.status ++ 32::time)

end TimedPut

/-- The puts of one `W` from `suc` successes on. -/
def performTests : List TimedPut → ℕ → Option (ℕ × Bytes)
  | [], suc => some (suc,[])
  | put::puts, suc => do
    let line ← put.line
    let (suc,lines) ← performTests puts (if put.err = .errNone then suc + 1 else suc)
    some (suc,line ++ lines)

/-- What was done for one `W`. -/
structure TestBlock where
  puts : List TimedPut
  suc : ℕ

/-- `"W %zu\n"`, the lines, and `"ratio %zu %zu\n\n"`. -/
def blockText (w suc tests : ℕ) (lines : Bytes) : Bytes :=
  text ['W',' '] ++ (digitsOf w ++ 10::(lines ++
    (text ['r','a','t','i','o',' '] ++ (digitsOf suc ++ 32::(digitsOf tests ++ [10,10])))))

/-- The loop over `W`, with `remaining` turns up to `N`. The blocks are those that were written. -/
def performBlocks (tests : ℕ) (puts : ℕ → ℕ → TimedPut) : ℕ → ℕ → ℕ → Option (List TestBlock × Bytes)
  | 0, _, _ => some ([],[])
  | remaining+1, w, zerosInARow => do
    let tested := (List.range tests).map (puts w)
    let (suc,lines) ← performTests tested 0
    let zerosInARow := if suc = 0 then zerosInARow + 1 else 0
    if zerosInARow = 3 then some ([⟨tested,suc⟩],blockText w suc tests lines ++ aborting)
    else do
      let (blocks,results) ← performBlocks tests puts remaining (w + 1) zerosInARow
      some (⟨tested,suc⟩::blocks,blockText w suc tests lines ++ results)

/-- `main` behind the initialisation, with the outcome of put `i` for `W` in `puts`: the blocks
and the file with them. -/
def testServers (n tests : ℕ) (puts : ℕ → ℕ → TimedPut) : Option (List TestBlock × Bytes) := do
  let (blocks,results) ← performBlocks tests puts n 1 0
  some (blocks,text ['N',' '] ++ (digitsOf n ++ (text [' ','t','e','s','t','s',' '] ++ (digitsOf tests ++ 10::10::results))))

/-- `%lf`: what it reads, or nothing, and the rest of the input. Of its texts only the
decimal integers between white space are specified, as the numbers nearest to them. -/
structure DoubleScanner (δ : Type) where
  scan : Bytes → Option δ × Bytes
  zero : δ
  nearest : Bool × ℕ → δ
  scan_numeral : ∀ {blanks digits : Bytes} (negative : Bool) (rest : Bytes), (∀ c ∈ blanks, isSpace c) →
    (∀ c ∈ digits, isDigit c) → digits ≠ [] → (∀ c, rest.head? = some c → isSpace c) →
    scan (blanks ++ (minusSign negative ++ (digits ++ rest))) = (some (nearest (negative,digitsValue digits)),rest)

/-- `while (getc(results) != '\n');`. -/
def skipLine : Bytes → Option Bytes
  | [] => none
  | c::results => if c = 10 then some results else skipLine results

/-- `%s` without a width. -/
def scanToken (input : Bytes) : Option (Bytes × Bytes) := scanWord input.length input

/-- What a conversion of a number leaves when there is none. -/
def afterMismatch (input : Bytes) : Bytes := skipSign (skipSpace input)

/-- `"%*c%zu%*s%zu"`. The variables start with zero and each conversion needs the one before. -/
def scanHeader (results : Bytes) : (ℕ × ℕ) × Bytes :=
  match scanUnsigned results.tail with
  | none => ((0,0),afterMismatch results.tail)
  | some (n,results) => match scanToken results with
    | none => ((n,0),[])
    | some (_,results) => match scanUnsigned results with
      | none => ((n,0),afterMismatch results)
      | some (tests,results) => ((n,tests),results)

/-- `"%*s%*zu%*zu"`. -/
def skipRatio (results : Bytes) : Bytes :=
  match scanToken results with
  | none => []
  | some (_,results) => match scanUnsigned results with
    | none => afterMismatch results
    | some (_,results) => match scanUnsigned results with
      | none => afterMismatch results
      | some (_,results) => results

/-- `"%s"` into `status`, an array of eight characters that starts without a value and keeps
the one it has at the end of the file. -/
def readStatus (status : Option CString) (results : Bytes) : Option (CString × Bytes) :=
  match scanToken results with
  | some (word,results) => if word.length < 8 then some (upToNul word,results) else none
  | none => status.map fun status => (status,[])

/-- The variables of one turn, the arrays up to their indices. -/
structure ParserState (δ : Type) where
  status : Option CString
  sTimes : List δ
  fTimes : List δ
  results : Bytes

/-- The times of one `W` in front of the statistics. -/
structure ParsedBlock (δ : Type) where
  sTimes : List δ
  fTimes : List δ
  deriving DecidableEq

structure Parsed (δ : Type) where
  n : ℕ
  tests : ℕ
  blocks : List (ParsedBlock δ)
  deriving DecidableEq

section Scanner

variable {δ : Type} (scanner : DoubleScanner δ)

def readTest (s : ParserState δ) : Option (ParserState δ) := do
  let (status,results) ← readStatus s.status s.results
  -- an element that is not read keeps the zero that its array was cleared to
  let (time,afterTime) := scanner.scan results
  if status.chars = success then some ⟨some status,s.sTimes ++ [time.getD scanner.zero],s.fTimes,afterTime⟩
  else if status.chars = failure then some ⟨some status,s.sTimes,s.fTimes ++ [time.getD scanner.zero],afterTime⟩
  else some ⟨some status,s.sTimes,s.fTimes,results⟩

def readTests : ℕ → ParserState δ → Option (ParserState δ)
  | 0, s => some s
  | tests+1, s => do
    let s ← readTest scanner s
    readTests tests s

/-- One turn of the loop over `W`. -/
def readBlock (tests : ℕ) (results : Bytes) : Option (ParsedBlock δ × Bytes) := do
  let results ← skipLine results
  let s ← readTests scanner tests ⟨none,[],[],results⟩
  let results ← skipLine (skipRatio s.results)
  let results ← skipLine results
  some (⟨s.sTimes,s.fTimes⟩,results)

/-- The loop over `W`, with `remaining` turns up to `N`. -/
def readBlocks (tests : ℕ) : ℕ → ℕ → Bytes → Option (List (ParsedBlock δ))
  | 0, _, _ => some []
  | remaining+1, zerosInARow, results =>
    if zerosInARow < 3 then do
      let (block,results) ← readBlock scanner tests results
      let blocks ← readBlocks tests remaining (if block.sTimes.length = 0 then zerosInARow + 1 else 0) results
      some (block::blocks)
    else some []

/-- `main` up to the statistics. -/
def testParser (results : Bytes) : Option (Parsed δ) := do
  let ((n,tests),results) := scanHeader results
  let results ← skipLine results
  let results ← skipLine results
  let blocks ← readBlocks scanner tests n 0 results
  some ⟨n,tests,blocks⟩

end Scanner

theorem skipLine_append {line : Bytes} (h : 10 ∉ line) (results : Bytes) :
    skipLine (line ++ 10::results) = some results := by
  induction line with
  | nil => rfl
  | cons c line ih =>
    rw [List.mem_cons,not_or] at h
    rw [List.cons_append,skipLine,if_neg (Ne.symm h.1),ih h.2]

theorem scanToken_text {blanks word : Bytes} (rest : Bytes) (hblanks : ∀ c ∈ blanks, isSpace c)
    (hword : ∀ c ∈ word, ¬isSpace c) (hne : word ≠ []) (hrest : ∀ c, rest.head? = some c → isSpace c) :
    scanToken (blanks ++ (word ++ rest)) = some (word,rest) :=
  scanWord_text rest hblanks hword hne (by simp only [List.length_append]; omega) hrest

end PpsDht
