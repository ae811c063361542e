import PpsDht.ElapsedTimes
import PpsDht.TestParser

/-! # The results, written and read back

The reader stands behind white space when it turns to a line and stops in front of the
next. Line by line, and then series by series, it takes up what was written, and it counts
the series without success as the writer did. -/
namespace PpsDht
open Scanning

/-- The number in the line about a put. -/
def TimedPut.time (put : TimedPut) : Bool × ℕ :=
  (((printTime put.timeStart put.timeEnd).bind scanNumeral).map Prod.fst).getD (false,0)

def TimedPut.succeeded (put : TimedPut) : Bool := put.err = .errNone

/-- The times of the puts with an outcome, in the order of the puts. -/
def timesOf {δ : Type} (scanner : DoubleScanner δ) (succeeded : Bool) (puts : List TimedPut) : List δ :=
  (puts.filter (·.succeeded = succeeded)).map fun put => scanner.nearest put.time

/-- What there is to read from the text of a series. -/
def TestBlock.parsed {δ : Type} (scanner : DoubleScanner δ) (block : TestBlock) : ParsedBlock δ :=
  ⟨timesOf scanner true block.puts,timesOf scanner false block.puts⟩

private theorem of_head? {p : UInt8 → Prop} {c : UInt8} (h : p c) (rest : Bytes) (d : UInt8) (hd : (c::rest).head? = some d) :
    p d := Option.some.inj hd ▸ h

private theorem isSpace_newline : isSpace 10 := by decide

private theorem isSpace_blank : isSpace 32 := by decide

private theorem not_isSpace_of_all {word : Bytes} (h : (word.all fun c => !isSpace c) = true) : ∀ c ∈ word, ¬isSpace c :=
  fun c hc => by simpa using List.all_eq_true.mp h c hc

/-- The status in front of a blank is read whole. -/
theorem readStatus_status {blanks : Bytes} (hblanks : ∀ c ∈ blanks, isSpace c) (put : TimedPut)
    (status : Option CString) (rest : Bytes) :
    ∃ read : CString, readStatus status (blanks ++ (put.status ++ 32::rest)) = some (read,32::rest) ∧
      read.chars = put.status := by
  have hword : (∀ c ∈ put.status, ¬isSpace c) ∧ put.status ≠ [] ∧ put.status.length < 8 ∧ 0 ∉ put.status := by
    rw [TimedPut.status]
    split
    · exact ⟨not_isSpace_of_all rfl,by decide,by decide,by decide⟩
    · exact ⟨not_isSpace_of_all rfl,by decide,by decide,by decide⟩
  obtain ⟨hspace,hne,hlen,hnul⟩ := hword
  refine ⟨upToNul put.status,?_,?_⟩
  · rw [readStatus,scanToken_text _ hblanks hspace hne (of_head? isSpace_blank rest)]
    simp only [hlen,if_true]
  · exact List.takeWhile_eq_self_iff.mpr fun c hc => decide_eq_true fun h => hnul (h ▸ hc)

/-- What `print_time` writes is read as its number, up to the end of the line. -/
theorem scan_printTime {δ : Type} (scanner : DoubleScanner δ) {put : TimedPut} {time : Bytes}
    (h : printTime put.timeStart put.timeEnd = some time) (rest : Bytes) :
    scanner.scan (32::(time ++ rest)) = (some (scanner.nearest put.time),10::rest) := by
  obtain ⟨negative,digits,rfl,hne,hdigits⟩ := printTime_numeral h
  have hnumeral := @scanNumeral_text [] _ negative [10] (by simp) hdigits hne (of_head? (by decide) [])
  rw [List.nil_append] at hnumeral
  have htime : put.time = (negative,digitsValue digits) := by
    rw [TimedPut.time,h,Option.bind_some,hnumeral]
    rfl
  have hscan := @DoubleScanner.scan_numeral _ scanner [32] _ negative (10::rest) (by simp [isSpace]) hdigits hne
    (of_head? isSpace_newline rest)
  rw [htime,← hscan]
  simp only [List.append_assoc,List.cons_append,List.nil_append]

section Reading

variable {δ : Type} (scanner : DoubleScanner δ)

private theorem timesOf_cons (succeeded : Bool) (put : TimedPut) (puts : List TimedPut) :
    timesOf scanner succeeded (put::puts) =
      (if put.succeeded = succeeded then [scanner.nearest put.time] else []) ++ timesOf scanner succeeded puts := by
  simp only [timesOf,List.filter_cons,decide_eq_true_eq]
  split <;> rfl

/-- One line: its time goes to the end of the list for its outcome. -/
theorem readTest_line {put : TimedPut} {line blanks : Bytes} (hline : put.line = some line)
    (hblanks : ∀ c ∈ blanks, isSpace c) (status : Option CString) (sTimes fTimes : List δ) (rest : Bytes) :
    ∃ read : CString, readTest scanner ⟨status,sTimes,fTimes,blanks ++ (line ++ rest)⟩ =
      some ⟨some read,sTimes ++ timesOf scanner true [put],fTimes ++ timesOf scanner false [put],10::rest⟩ := by
  obtain ⟨time,htime,hline⟩ := Option.bind_eq_some_iff.mp hline
  obtain rfl := Option.some.inj hline
  rw [List.append_assoc,List.cons_append]
  obtain ⟨read,hread,hchars⟩ := readStatus_status hblanks put status (time ++ rest)
  refine ⟨read,?_⟩
  simp only [readTest,hread,Option.bind_eq_bind,Option.bind_some,scan_printTime scanner htime,hchars,
    Option.getD_some,timesOf_cons,TimedPut.succeeded]
  by_cases hcode : put.err = .errNone
  · simp [TimedPut.status,hcode,timesOf]
  · have hother : failure ≠ success := by decide
    simp [TimedPut.status,hcode,timesOf,hother]

/-- The lines of a series, one after the other. -/
theorem readTests_lines {puts : List TimedPut} {suc suc' : ℕ} {lines blanks : Bytes}
    (h : performTests puts suc = some (suc',lines)) (hblanks : ∀ c ∈ blanks, isSpace c) (status : Option CString)
    (sTimes fTimes : List δ) (rest : Bytes) :
    ∃ status' blanks', (∀ c ∈ blanks', isSpace c) ∧
      readTests scanner puts.length ⟨status,sTimes,fTimes,blanks ++ (lines ++ rest)⟩ =
        some ⟨status',sTimes ++ timesOf scanner true puts,fTimes ++ timesOf scanner false puts,blanks' ++ rest⟩ := by
  induction puts generalizing suc lines blanks status sTimes fTimes with
  | nil =>
    obtain ⟨-,rfl⟩ := Prod.mk.inj (Option.some.inj h)
    exact ⟨status,blanks,hblanks,by simp [readTests,timesOf]⟩
  | cons put puts ih =>
    obtain ⟨line,hline,h⟩ := Option.bind_eq_some_iff.mp h
    obtain ⟨⟨suc₁,lines₁⟩,htests,h⟩ := Option.bind_eq_some_iff.mp h
    obtain ⟨rfl,rfl⟩ := Prod.mk.inj (Option.some.inj h)
    obtain ⟨read,hread⟩ := readTest_line scanner hline hblanks status sTimes fTimes (lines₁ ++ rest)
    obtain ⟨status',blanks',hblanks',hreads⟩ := ih htests (show ∀ c ∈ [10], isSpace c by simp [isSpace])
      (some read) (sTimes ++ timesOf scanner true [put]) (fTimes ++ timesOf scanner false [put])
    refine ⟨status',blanks',hblanks',?_⟩
    rw [List.length_cons,readTests,List.append_assoc,hread]
    simp only [Option.bind_eq_bind,Option.bind_some]
    refine hreads.trans ?_
    simp only [timesOf_cons scanner _ put puts,timesOf_cons scanner _ put [],List.append_assoc]
    simp [timesOf]

/-- The line behind a series, up to its end. -/
theorem skipRatio_text {blanks : Bytes} (hblanks : ∀ c ∈ blanks, isSpace c) {suc tests : ℕ} (hsuc : suc < 2^64)
    (htests : tests < 2^64) (rest : Bytes) :
    skipRatio (blanks ++ (text ['r','a','t','i','o',' '] ++ (digitsOf suc ++ 32::(digitsOf tests ++ 10::rest)))) =
      10::rest := by
  have hword : text ['r','a','t','i','o',' '] = text ['r','a','t','i','o'] ++ [32] := rfl
  have htoken := @scanToken_text blanks (text ['r','a','t','i','o']) (32::(digitsOf suc ++ 32::(digitsOf tests ++ 10::rest)))
    hblanks (not_isSpace_of_all rfl) (by decide) (of_head? isSpace_blank _)
  have hfirst := @scanUnsigned_text [32] (digitsOf suc) (32::(digitsOf tests ++ 10::rest)) (by simp [isSpace])
    (fun _ => isDigit_of_mem_digitsOf) (digitsOf_ne_nil suc) (by rwa [digitsValue_digitsOf]) (of_head? (by decide) _)
  have hsecond := @scanUnsigned_text [32] (digitsOf tests) (10::rest) (by simp [isSpace])
    (fun _ => isDigit_of_mem_digitsOf) (digitsOf_ne_nil tests) (by rwa [digitsValue_digitsOf]) (of_head? (by decide) _)
  simp only [List.cons_append,List.nil_append] at hfirst hsecond
  simp only [hword,List.append_assoc,List.cons_append,List.nil_append,skipRatio,htoken,hfirst,hsecond]

private theorem not_newline_of_digit {n : ℕ} : (10 : UInt8) ∉ digitsOf n :=
  fun h => absurd (isDigit_of_mem_digitsOf h) (by decide)

/-- A series that was written is read, up to the next one. -/
theorem readBlock_blockText {puts : List TimedPut} {suc : ℕ} {lines : Bytes} (h : performTests puts 0 = some (suc,lines))
    (hsuc : suc < 2^64) (htests : puts.length < 2^64) (w : ℕ) (rest : Bytes) :
    readBlock scanner puts.length (blockText w suc puts.length lines ++ rest) =
      some ((TestBlock.mk puts suc).parsed scanner,rest) := by
  have hfirst : skipLine (blockText w suc puts.length lines ++ rest) = some (lines ++
      (text ['r','a','t','i','o',' '] ++ (digitsOf suc ++ 32::(digitsOf puts.length ++ 10::10::rest)))) := by
    have hline : (10 : UInt8) ∉ text ['W',' '] ++ digitsOf w :=
      fun h => (List.mem_append.mp h).elim (by decide) not_newline_of_digit
    rw [blockText]
    simpa using skipLine_append hline (lines ++
      (text ['r','a','t','i','o',' '] ++ (digitsOf suc ++ 32::(digitsOf puts.length ++ 10::10::rest))))
  obtain ⟨status,blanks,hblanks,hreads⟩ := readTests_lines scanner h (show ∀ c ∈ [], isSpace c by simp) none [] []
    (text ['r','a','t','i','o',' '] ++ (digitsOf suc ++ 32::(digitsOf puts.length ++ 10::10::rest)))
  rw [List.nil_append] at hreads
  rw [readBlock,hfirst]
  simp only [Option.bind_eq_bind,Option.bind_some,hreads,skipRatio_text hblanks hsuc htests,skipLine,if_true,
    List.nil_append,TestBlock.parsed]

end Reading

/-- The successes that are counted are those whose times are taken. -/
theorem performTests_count {puts : List TimedPut} {suc suc' : ℕ} {lines : Bytes}
    (h : performTests puts suc = some (suc',lines)) : suc' = suc + (puts.filter (·.succeeded)).length := by
  induction puts generalizing suc suc' lines with
  | nil => exact (Prod.mk.inj (Option.some.inj h)).1.symm
  | cons put puts ih =>
    obtain ⟨line,-,h⟩ := Option.bind_eq_some_iff.mp h
    obtain ⟨⟨suc₁,lines₁⟩,htests,h⟩ := Option.bind_eq_some_iff.mp h
    obtain ⟨rfl,-⟩ := Prod.mk.inj (Option.some.inj h)
    rw [ih htests,List.filter_cons]
    by_cases hcode : put.err = .errNone
    · simp only [hcode,TimedPut.succeeded,decide_true,if_true,List.length_cons]
      omega
    · simp only [hcode,TimedPut.succeeded,decide_false,Bool.false_eq_true,if_false]

private theorem length_timesOf {δ : Type} (scanner : DoubleScanner δ) (puts : List TimedPut) :
    (timesOf scanner true puts).length + (timesOf scanner false puts).length = puts.length := by
  have hsplit := List.length_eq_length_filter_add (l := puts) (·.succeeded)
  simp only [timesOf,List.length_map,hsplit,Bool.decide_eq_true,Bool.decide_eq_false]

private theorem length_successes {δ : Type} (scanner : DoubleScanner δ) {puts : List TimedPut} {suc : ℕ} {lines : Bytes}
    (h : performTests puts 0 = some (suc,lines)) : (timesOf scanner true puts).length = suc := by
  simp only [performTests_count h,timesOf,List.length_map,Bool.decide_eq_true,Nat.zero_add]

/-- The three kinds of turn of the loop over `W`. -/
theorem performBlocks_succ {tests remaining w zerosInARow : ℕ} {puts : ℕ → ℕ → TimedPut} {blocks : List TestBlock}
    {results : Bytes} (h : performBlocks tests puts (remaining + 1) w zerosInARow = some (blocks,results)) :
    ∃ suc lines, performTests ((List.range tests).map (puts w)) 0 = some (suc,lines) ∧
      ∃ zerosInARow', zerosInARow' = (if suc = 0 then zerosInARow + 1 else 0) ∧
        (zerosInARow' = 3 ∧ blocks = [⟨(List.range tests).map (puts w),suc⟩] ∧
            results = blockText w suc tests lines ++ aborting ∨
          zerosInARow' ≠ 3 ∧ ∃ blocks' results', performBlocks tests puts remaining (w + 1) zerosInARow' =
              some (blocks',results') ∧
            blocks = ⟨(List.range tests).map (puts w),suc⟩::blocks' ∧
            results = blockText w suc tests lines ++ results') := by
  obtain ⟨⟨suc,lines⟩,htests,h⟩ := Option.bind_eq_some_iff.mp h
  refine ⟨suc,lines,htests,_,rfl,?_⟩
  dsimp only at h
  generalize (if suc = 0 then zerosInARow + 1 else 0) = zeros at h ⊢
  split at h
  · rename_i hthree
    obtain ⟨rfl,rfl⟩ := Prod.mk.inj (Option.some.inj h)
    exact .inl ⟨hthree,rfl,rfl⟩
  · rename_i hthree
    obtain ⟨⟨blocks',results'⟩,hblocks,h⟩ := Option.bind_eq_some_iff.mp h
    obtain ⟨rfl,rfl⟩ := Prod.mk.inj (Option.some.inj h)
    exact .inr ⟨hthree,blocks',results',hblocks,rfl,rfl⟩

/-- Block `i` is about the puts for its `W`, and holds the number of those that succeeded. -/
theorem performBlocks_blocks {tests remaining w zerosInARow : ℕ} {puts : ℕ → ℕ → TimedPut} {blocks : List TestBlock}
    {results : Bytes} (h : performBlocks tests puts remaining w zerosInARow = some (blocks,results)) {i : ℕ}
    {block : TestBlock} (hi : blocks[i]? = some block) :
    block.puts = (List.range tests).map (puts (w + i)) ∧ block.suc = (block.puts.filter (·.succeeded)).length := by
  induction remaining generalizing w zerosInARow blocks results i with
  | zero =>
    obtain ⟨rfl,-⟩ := Prod.mk.inj (Option.some.inj h)
    cases hi
  | succ remaining ih =>
    obtain ⟨suc,lines,htests,zeros,-,hturn⟩ := performBlocks_succ h
    have hcount := performTests_count htests
    rw [Nat.zero_add] at hcount
    obtain ⟨-,rfl,-⟩ | ⟨-,blocks',results',hblocks,rfl,-⟩ := hturn
    · cases i with
      | zero =>
        obtain rfl := Option.some.inj hi
        exact ⟨rfl,hcount⟩
      | succ i => cases hi
    · cases i with
      | zero =>
        obtain rfl := Option.some.inj hi
        exact ⟨rfl,hcount⟩
      | succ i =>
        rw [List.getElem?_cons_succ] at hi
        rw [← Nat.add_assoc,Nat.add_right_comm]
        exact ih hblocks hi

section Reading

variable {δ : Type} (scanner : DoubleScanner δ)

private theorem readBlocks_stopped (tests remaining : ℕ) (results : Bytes) :
    readBlocks scanner tests remaining 3 results = some [] := by
  cases remaining <;> rfl

/-- The reader's loop over `W` goes through the same turns as the writer's. -/
theorem readBlocks_performBlocks {tests remaining w zerosInARow : ℕ} {puts : ℕ → ℕ → TimedPut}
    {blocks : List TestBlock} {results : Bytes} (htests : tests < 2^64) (hzeros : zerosInARow < 3)
    (h : performBlocks tests puts remaining w zerosInARow = some (blocks,results)) :
    readBlocks scanner tests remaining zerosInARow results = some (blocks.map (·.parsed scanner)) := by
  induction remaining generalizing w zerosInARow blocks results with
  | zero =>
    obtain ⟨rfl,-⟩ := Prod.mk.inj (Option.some.inj h)
    rfl
  | succ remaining ih =>
    obtain ⟨suc,lines,hperform,zeros,hzeros',hturn⟩ := performBlocks_succ h
    have hlength : ((List.range tests).map (puts w)).length = tests := by rw [List.length_map,List.length_range]
    have hsuc : suc < 2^64 := by
      have hcount := length_successes scanner hperform
      have htotal := length_timesOf scanner ((List.range tests).map (puts w))
      omega
    have hturnRead : ∀ rest, readBlocks scanner tests (remaining + 1) zerosInARow (blockText w suc tests lines ++ rest) =
        (readBlocks scanner tests remaining zeros rest).map
          ((TestBlock.mk ((List.range tests).map (puts w)) suc).parsed scanner::·) := fun rest => by
      have hblock := readBlock_blockText scanner hperform hsuc (hlength.trans_lt htests) w rest
      rw [hlength] at hblock
      rw [readBlocks,if_pos hzeros,hblock]
      simp only [Option.bind_eq_bind,Option.bind_some,TestBlock.parsed,length_successes scanner hperform,← hzeros']
      cases readBlocks scanner tests remaining zeros rest <;> rfl
    obtain ⟨rfl,rfl,rfl⟩ | ⟨hthree,blocks',results',hblocks,rfl,rfl⟩ := hturn
    · rw [hturnRead,readBlocks_stopped]
      rfl
    · have hbelow : zeros < 3 := by
        rw [hzeros'] at hthree ⊢
        split at hthree <;> split <;> omega
      rw [hturnRead,ih hbelow hblocks]
      rfl

private theorem scanHeader_text {n tests : ℕ} (hn : n < 2^64) (htests : tests < 2^64) (rest : Bytes) :
    scanHeader (text ['N',' '] ++ (digitsOf n ++ (text [' ','t','e','s','t','s',' '] ++ (digitsOf tests ++ 10::rest)))) =
      ((n,tests),10::rest) := by
  have hopening : text ['N',' '] = [78,32] := rfl
  have hword : text [' ','t','e','s','t','s',' '] = 32::(text ['t','e','s','t','s'] ++ [32]) := rfl
  have hfirst := @scanUnsigned_text [32] (digitsOf n) (32::(text ['t','e','s','t','s'] ++ 32::(digitsOf tests ++ 10::rest)))
    (by simp [isSpace]) (fun _ => isDigit_of_mem_digitsOf) (digitsOf_ne_nil n) (by rwa [digitsValue_digitsOf])
    (of_head? (by decide) _)
  have htoken := @scanToken_text [32] (text ['t','e','s','t','s']) (32::(digitsOf tests ++ 10::rest))
    (by simp [isSpace]) (not_isSpace_of_all rfl) (by decide) (of_head? isSpace_blank _)
  have hsecond := @scanUnsigned_text [32] (digitsOf tests) (10::rest) (by simp [isSpace])
    (fun _ => isDigit_of_mem_digitsOf) (digitsOf_ne_nil tests) (by rwa [digitsValue_digitsOf]) (of_head? (by decide) _)
  simp only [List.cons_append,List.nil_append] at hfirst htoken hsecond
  simp only [hopening,hword,List.append_assoc,List.cons_append,List.nil_append,scanHeader,List.tail_cons,hfirst,htoken,
    hsecond,digitsValue_digitsOf]

/-- The reader takes from the file what was written: the sizes, as many blocks, and for each
the times of its successes and of its failures, in their order and with their numbers. -/
theorem testParser_testServers {n tests : ℕ} (hn : n < sizeMax) (htests : tests ≤ sizeMax) {puts : ℕ → ℕ → TimedPut}
    {blocks : List TestBlock} {file : Bytes} (h : testServers n tests puts = some (blocks,file)) :
    testParser scanner file = some ⟨n,tests,blocks.map (·.parsed scanner)⟩ ∧
      ∀ i block, blocks[i]? = some block → block.puts = (List.range tests).map (puts (i + 1)) ∧
        (block.parsed scanner).sTimes.length = block.suc ∧
        (block.parsed scanner).fTimes.length = tests - block.suc := by
  rw [sizeMax] at hn htests
  obtain ⟨⟨blocks',results⟩,hblocks,h⟩ := Option.bind_eq_some_iff.mp h
  obtain ⟨rfl,rfl⟩ := Prod.mk.inj (Option.some.inj h)
  constructor
  · rw [testParser,scanHeader_text (by omega) (by omega)]
    simp only [skipLine,if_true,Option.bind_eq_bind,Option.bind_some,
      readBlocks_performBlocks scanner (by omega) (by decide) hblocks]
  · intro i block hi
    obtain ⟨hputs,hsuc⟩ := performBlocks_blocks hblocks hi
    have htotal := length_timesOf scanner block.puts
    have hsuccesses : (timesOf scanner true block.puts).length = block.suc := by
      rw [hsuc,timesOf,List.length_map]
      simp only [Bool.decide_eq_true]
    have hlength : block.puts.length = tests := by rw [hputs,List.length_map,List.length_range]
    refine ⟨by rw [hputs,Nat.add_comm],hsuccesses,?_⟩
    change (timesOf scanner false block.puts).length = tests - block.suc
    omega

end Reading

/-- Numbers that are kept as they are. -/
def numeralScanner : DoubleScanner (Bool × ℕ) where
  scan input := match scanNumeral input with
    | some (numeral,rest) => (some numeral,rest)
    | none => (none,afterMismatch input)
  zero := (false,0)
  nearest := id
  scan_numeral negative rest hblanks hdigits hne hrest := by
    rw [scanNumeral_text negative rest hblanks hdigits hne fun c hc hdigit => (of_isDigit hdigit).1 (hrest c hc)]
    rfl

/-- A put that took less than a second. -/
theorem TimedPut.time_short {put : TimedPut} {nsec : ℕ} (hstart : put.timeStart = ⟨0,0⟩)
    (hsec : put.timeEnd.tvSec.toInt = 0) (hnsec : put.timeEnd.tvNsec.toInt = nsec) (h : nsec < 10^9) :
    ∃ time, printTime put.timeStart put.timeEnd = some time ∧ put.time = (false,nsec) := by
  have hzero : (Timespec.mk 0 0).tvSec.toInt = 0 ∧ (Timespec.mk 0 0).tvNsec.toInt = 0 := ⟨by decide,by decide⟩
  obtain ⟨digits,htime,hne,hdigits,hvalue,-⟩ := @printTime_digits put.timeStart put.timeEnd 0 nsec
    (by rw [hstart,hnsec,hzero.2,sub_zero]) (by omega) (by rw [hstart,hsec,hzero.1]; rfl) (by decide)
  rw [addSeconds_of_nonneg (by omega)] at hvalue
  have hscan := @scanNumeral_text [] digits false [10] (by simp) hdigits hne (by simp [isDigit])
  refine ⟨_,htime,?_⟩
  rw [TimedPut.time,htime,Option.bind_some]
  simpa [minusSign,hvalue] using congrArg (fun r => (r.map Prod.fst).getD (false,0)) hscan

/-- The very first put succeeds after five nanoseconds, the others fail after seven. -/
def failingPuts (w i : ℕ) : TimedPut :=
  if w = 1 ∧ i = 0 then ⟨.errNone,⟨0,0⟩,⟨0,5⟩⟩ else ⟨.errNetwork,⟨0,0⟩,⟨0,7⟩⟩

/-- Of six series of two puts the fourth is the last, the third in a row without success. -/
theorem testParser_testServers_stopped : ∃ blocks file, testServers 6 2 failingPuts = some (blocks,file) ∧
    testParser numeralScanner file = some ⟨6,2,[⟨[(false,5)],[(false,7)]⟩,⟨[],[(false,7),(false,7)]⟩,
      ⟨[],[(false,7),(false,7)]⟩,⟨[],[(false,7),(false,7)]⟩]⟩ := by
  obtain ⟨time,htime,hvalue⟩ := @TimedPut.time_short ⟨.errNone,⟨0,0⟩,⟨0,5⟩⟩ 5 rfl (by decide) (by decide) (by decide)
  obtain ⟨time',htime',hvalue'⟩ :=
    @TimedPut.time_short ⟨.errNetwork,⟨0,0⟩,⟨0,7⟩⟩ 7 rfl (by decide) (by decide) (by decide)
  have hline : TimedPut.line ⟨.errNone,⟨0,0⟩,⟨0,5⟩⟩ = some (success ++ 32::time) := by
    rw [TimedPut.line,htime]
    rfl
  have hline' : TimedPut.line ⟨.errNetwork,⟨0,0⟩,⟨0,7⟩⟩ = some (failure ++ 32::time') := by
    rw [TimedPut.line,htime']
    rfl
  obtain ⟨file,hrun⟩ : ∃ file, testServers 6 2 failingPuts =
      some ([⟨[⟨.errNone,⟨0,0⟩,⟨0,5⟩⟩,⟨.errNetwork,⟨0,0⟩,⟨0,7⟩⟩],1⟩,
        ⟨[⟨.errNetwork,⟨0,0⟩,⟨0,7⟩⟩,⟨.errNetwork,⟨0,0⟩,⟨0,7⟩⟩],0⟩,
        ⟨[⟨.errNetwork,⟨0,0⟩,⟨0,7⟩⟩,⟨.errNetwork,⟨0,0⟩,⟨0,7⟩⟩],0⟩,
        ⟨[⟨.errNetwork,⟨0,0⟩,⟨0,7⟩⟩,⟨.errNetwork,⟨0,0⟩,⟨0,7⟩⟩],0⟩],file) := by
    have hfirst : (List.range 2).map (failingPuts 1) = [⟨.errNone,⟨0,0⟩,⟨0,5⟩⟩,⟨.errNetwork,⟨0,0⟩,⟨0,7⟩⟩] := rfl
    have hlater : ∀ w, (List.range 2).map (failingPuts (w + 2)) =
        [⟨.errNetwork,⟨0,0⟩,⟨0,7⟩⟩,⟨.errNetwork,⟨0,0⟩,⟨0,7⟩⟩] := fun _ => rfl
    simp only [testServers,performBlocks,hfirst,hlater 0,hlater 1,hlater 2,performTests,hline,hline',reduceCtorEq,
      Option.bind_eq_bind,Option.bind_some,if_true,if_false,Nat.reduceAdd,Nat.reduceEqDiff,one_ne_zero,OfNat.zero_ne_ofNat]
    exact ⟨_,rfl⟩
  refine ⟨_,file,hrun,?_⟩
  rw [(testParser_testServers numeralScanner (by decide) (by decide) hrun).1]
  simp [TestBlock.parsed,timesOf,TimedPut.succeeded,hvalue,hvalue',numeralScanner]

end PpsDht
