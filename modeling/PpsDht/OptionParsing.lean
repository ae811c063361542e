import PpsDht.AssociationLists
import PpsDht.ClientStartup

/-! # What the options mean

The result depends on the numbers given to the options alone, and not on the order of
the options. A number that was not given is chosen to go with the others. -/
namespace PpsDht
open Mem AssociationLists

deriving instance DecidableEq for Opt

/-- The supported options in front, each with the argument behind it, and the arguments left. -/
def leadingOptions (supportedArgs : ℕ) : List CString → List (Opt × Option CString) × List CString
  | [] => ([],[])
  | [arg] => match supportedOpt supportedArgs arg with
    | none => ([],[arg])
    | some opt => ([(opt,none)],[])
  | arg::str::rest => match supportedOpt supportedArgs arg with
    | none => ([],arg::str::rest)
    | some opt =>
      ((opt,some str)::(leadingOptions supportedArgs rest).1,(leadingOptions supportedArgs rest).2)

def skipEnd (argv : List CString) : List CString := if argv.head? = some optEnd then argv.tail else argv

section Numbers

variable (sscanfD : CString → Option Int32)

/-- The number of an option, if it is there and positive. -/
def optionNumber (p : Opt × Option CString) : Option ℕ := p.2.bind (parseNumber sscanfD)

private theorem parseNumber_eq_some {str : CString} {n : ℕ} :
    parseNumber sscanfD str = some n ↔ ∃ num, sscanfD str = some num ∧ 0 < num ∧ num.toInt = n := by
  rw [parseNumber]
  cases sscanfD str with
  | none => simp
  | some num =>
    have hpos : 0 < num ↔ 0 < num.toInt := by rw [Int32.lt_iff_toInt_lt,Int32.toInt_zero]
    by_cases h : num ≤ 0
    · have hnot : ¬0 < num := Int32.not_lt.mpr h
      simp [h,hnot]
    · have hnum : 0 < num := Int32.not_le.mp h
      have := hpos.mp hnum
      simp only [h,if_false,Option.some.injEq,exists_eq_left',hnum,true_and]
      omega

private theorem parseNumber_pos {str : CString} {n : ℕ} (h : parseNumber sscanfD str = some n) : 0 < n := by
  obtain ⟨num,-,hpos,hn⟩ := (parseNumber_eq_some sscanfD).mp h
  rw [Int32.lt_iff_toInt_lt,Int32.toInt_zero] at hpos
  omega

/-- The number that was given to an option. -/
def explicit (run : List (Opt × Option CString)) (opt : Opt) : Option ℕ :=
  (run.lookup opt).bind fun str => optionNumber sscanfD (opt,str)

private theorem explicit_cons (p : Opt × Option CString) (run : List (Opt × Option CString)) (opt : Opt) :
    explicit sscanfD (p::run) opt = if p.1 = opt then optionNumber sscanfD p else explicit sscanfD run opt := by
  rw [explicit,lookup_cons]
  by_cases h : p.1 = opt
  · rw [if_pos h,if_pos h]
    rfl
  · rw [if_neg h,if_neg h,explicit]

private theorem explicit_pos {run : List (Opt × Option CString)} {opt : Opt} {n : ℕ}
    (h : explicit sscanfD run opt = some n) : 0 < n := by
  obtain ⟨str,-,hnumber⟩ := Option.bind_eq_some_iff.mp h
  obtain ⟨str,-,hparse⟩ := Option.bind_eq_some_iff.mp hnumber
  exact parseNumber_pos sscanfD hparse

/-- A larger quorum than the number of servers, both given. -/
def Conflict (given : Opt → Option ℕ) : Prop :=
  ∃ n, given .n = some n ∧ ((∃ r, given .r = some r ∧ n < r) ∨ ∃ w, given .w = some w ∧ n < w)

/-- What makes `parse_opt_args` return null. -/
def Rejected (run : List (Opt × Option CString)) : Prop :=
  ¬(run.map Prod.fst).Nodup ∨ (∃ p ∈ run, optionNumber sscanfD p = none) ∨ Conflict (explicit sscanfD run)

end Numbers

/-- The numbers given, and for the others those that go with them. -/
def quorums (given : Opt → Option ℕ) : Args :=
  let N := (given .n).getD (max baseN (max ((given .r).getD 0) ((given .w).getD 0)))
  ⟨N,(given .r).getD (min baseR N),(given .w).getD (min baseW N)⟩

section States

def OptState.value (s : OptState) : Opt → ℕ
  | .n => s.args.N
  | .r => s.args.R
  | .w => s.args.W

@[simp] theorem OptState.value_set (s : OptState) (num : ℕ) (opt opt' : Opt) :
    (s.set num opt).value opt' = if opt = opt' then num else s.value opt' := by
  cases opt <;> cases opt' <;> rfl

@[simp] theorem OptState.modified_set (s : OptState) (num : ℕ) (opt opt' : Opt) :
    (s.set num opt).modified opt' = (decide (opt = opt') || s.modified opt') := by
  cases opt <;> cases opt' <;> rfl

private theorem OptState.modified_initial (opt : Opt) : OptState.initial.modified opt = false := by
  cases opt <;> rfl

/-- The incoherences between the numbers are handled as the numbers that were given demand. -/
theorem OptState.handleIncoherences_eq {s : OptState} {given : Opt → Option ℕ}
    (hmod : ∀ opt, s.modified opt = (given opt).isSome)
    (hval : ∀ opt, s.value opt = (given opt).getD (OptState.initial.value opt)) :
    (Conflict given → s.handleIncoherences = none) ∧
      (¬Conflict given → s.handleIncoherences = some (quorums given)) := by
  obtain ⟨⟨N,R,W⟩,nMod,rMod,wMod⟩ := s
  obtain rfl : nMod = _ := hmod .n
  obtain rfl : rMod = _ := hmod .r
  obtain rfl : wMod = _ := hmod .w
  obtain rfl : N = _ := hval .n
  obtain rfl : R = _ := hval .r
  obtain rfl : W = _ := hval .w
  simp only [Conflict,handleIncoherences,quorums,value,initial,baseN,baseR,baseW]
  cases given .n <;> cases given .r <;> cases given .w <;> simp <;> omega

/-- Numbers are set one after the other. -/
def OptState.setAll (sscanfD : CString → Option Int32) (s : OptState) (run : List (Opt × Option CString)) : OptState :=
  run.foldl (fun s p => s.set ((optionNumber sscanfD p).getD 0) p.1) s

variable (sscanfD : CString → Option Int32)

/-- Each option in a run holds its number afterwards, the others what they held before. -/
theorem OptState.setAll_spec {run : List (Opt × Option CString)} (hnodup : (run.map Prod.fst).Nodup)
    (hnumbers : ∀ p ∈ run, (optionNumber sscanfD p).isSome) (s : OptState) (opt : Opt) :
    (s.setAll sscanfD run).value opt = (explicit sscanfD run opt).getD (s.value opt) ∧
      (s.setAll sscanfD run).modified opt = ((explicit sscanfD run opt).isSome || s.modified opt) := by
  induction run generalizing s with
  | nil => exact ⟨rfl,rfl⟩
  | cons p run ih =>
    obtain ⟨hp,hnodup⟩ := List.nodup_cons.mp hnodup
    obtain ⟨hnumber,hnumbers⟩ := List.forall_mem_cons.mp hnumbers
    obtain ⟨num,hnum⟩ := Option.isSome_iff_exists.mp hnumber
    obtain ⟨hvalue,hmodified⟩ := ih hnodup hnumbers (s.set ((optionNumber sscanfD p).getD 0) p.1)
    change (OptState.setAll sscanfD _ run).value opt = _ ∧ (OptState.setAll sscanfD _ run).modified opt = _
    rw [hvalue,hmodified,explicit_cons,OptState.value_set,OptState.modified_set]
    by_cases h : p.1 = opt
    · have hnone : explicit sscanfD run opt = none := by
        rw [explicit,Option.bind_eq_none_iff]
        intro str hstr
        exact absurd (lookup_isSome_iff.mp (Option.isSome_of_eq_some hstr)) (h ▸ hp)
      simp [h,hnone,hnum]
    · simp [h]

/-- A run of options that can be set, one after the other. -/
def OptState.Accepts (s : OptState) (run : List (Opt × Option CString)) : Prop :=
  (run.map Prod.fst).Nodup ∧ ∀ p ∈ run, (optionNumber sscanfD p).isSome ∧ s.modified p.1 = false

private theorem OptState.accepts_cons {s : OptState} {p : Opt × Option CString} {run : List (Opt × Option CString)} {num : ℕ}
    (hnum : optionNumber sscanfD p = some num) :
    s.Accepts sscanfD (p::run) ↔ s.modified p.1 = false ∧ (s.set num p.1).Accepts sscanfD run := by
  simp only [Accepts,List.map_cons,List.nodup_cons,List.forall_mem_cons,hnum,Option.isSome_some,true_and,
    OptState.modified_set,Bool.or_eq_false_iff,decide_eq_false_iff_not,List.mem_map,not_exists,not_and]
  constructor
  · rintro ⟨⟨hp,hnodup⟩,hs,hrun⟩
    exact ⟨hs,hnodup,fun q hq => ⟨(hrun q hq).1,fun he => hp q hq he.symm,(hrun q hq).2⟩⟩
  · rintro ⟨hs,hnodup,hrun⟩
    exact ⟨⟨fun q hq he => (hrun q hq).2.1 he.symm,hnodup⟩,hs,fun q hq => ⟨(hrun q hq).1,(hrun q hq).2.2⟩⟩

private theorem OptState.accepts_nil (s : OptState) : s.Accepts sscanfD [] := ⟨List.nodup_nil,nofun⟩

/-- An option without a number that can be read is not accepted. -/
theorem OptState.not_accepts {s : OptState} {p : Opt × Option CString} {run : List (Opt × Option CString)}
    (hnum : optionNumber sscanfD p = none) : ¬s.Accepts sscanfD (p::run) := fun h => by
  have hsome := (h.2 p List.mem_cons_self).1
  rw [hnum] at hsome
  exact absurd hsome nofun

/-- The loop sets the numbers of the leading options, if it accepts them all. -/
theorem parseOptions_leading (supportedArgs : ℕ) (argv : List CString) (s : OptState) :
    (s.Accepts sscanfD (leadingOptions supportedArgs argv).1 →
      parseOptions sscanfD supportedArgs argv s =
        some (s.setAll sscanfD (leadingOptions supportedArgs argv).1,skipEnd (leadingOptions supportedArgs argv).2)) ∧
    (¬s.Accepts sscanfD (leadingOptions supportedArgs argv).1 →
      parseOptions sscanfD supportedArgs argv s = none) := by
  induction argv using leadingOptions.induct supportedArgs generalizing s with
  | case1 => exact ⟨fun _ => rfl,fun h => absurd (s.accepts_nil sscanfD) h⟩
  | case2 arg hopt =>
    simp only [leadingOptions,parseOptions,hopt]
    refine ⟨fun _ => ?_,fun h => absurd (s.accepts_nil sscanfD) h⟩
    simp only [skipEnd,List.head?_cons,Option.some.injEq,List.tail_cons]
    rfl
  | case3 arg opt hopt =>
    simp only [leadingOptions,parseOptions,hopt]
    exact ⟨fun h => absurd h (OptState.not_accepts sscanfD rfl),fun _ => trivial⟩
  | case4 arg str rest hopt =>
    rw [leadingOptions,parseOptions,hopt]
    refine ⟨fun _ => ?_,fun h => absurd (s.accepts_nil sscanfD) h⟩
    simp only [skipEnd,List.head?_cons,Option.some.injEq,List.tail_cons]
    rfl
  | case5 arg str rest opt hopt ih =>
    rw [leadingOptions,parseOptions,hopt]
    dsimp only
    cases hnum : parseNumber sscanfD str with
    | none => exact ⟨fun h => absurd h (OptState.not_accepts sscanfD hnum),fun _ => rfl⟩
    | some num =>
      rw [OptState.accepts_cons sscanfD (show optionNumber sscanfD (opt,some str) = some num from hnum)]
      dsimp only
      cases hmodified : s.modified opt with
      | true => exact ⟨fun h => absurd h.1 nofun,fun _ => rfl⟩
      | false =>
        obtain ⟨hset,hnot⟩ := ih (s.set num opt)
        refine ⟨fun h => (hset h.2).trans ?_,fun h => hnot fun hrest => h ⟨rfl,hrest⟩⟩
        simp only [OptState.setAll,List.foldl_cons,optionNumber,Option.bind_some,hnum,Option.getD_some]

end States

section Results

variable (sscanfD : CString → Option Int32) (supportedArgs : ℕ)

/-- The options and the arguments left, once there is memory. -/
def parseResult (argv : List CString) : Option (Args × List CString) :=
  (parseOptions sscanfD supportedArgs argv .initial).bind fun p =>
    p.1.handleIncoherences.map fun args => (args,p.2)

theorem parseOptArgs_eq (h : supportedArgs ≠ 0) (argv : List CString) :
    parseOptArgs sscanfD supportedArgs argv =
      (malloc >>= fun ok => pure (if ok then parseResult sscanfD supportedArgs argv else none)) := by
  rw [parseOptArgs]
  refine congrArg (malloc >>= ·) (funext fun ok => ?_)
  cases ok with
  | false => rfl
  | true =>
    simp only [if_true,if_neg h,parseResult]
    cases parseOptions sscanfD supportedArgs argv .initial <;> rfl

/-- The result in terms of the leading options. -/
theorem parseResult_cases (argv : List CString) :
    (Rejected sscanfD (leadingOptions supportedArgs argv).1 → parseResult sscanfD supportedArgs argv = none) ∧
    (¬Rejected sscanfD (leadingOptions supportedArgs argv).1 → parseResult sscanfD supportedArgs argv =
      some (quorums (explicit sscanfD (leadingOptions supportedArgs argv).1),
        skipEnd (leadingOptions supportedArgs argv).2)) := by
  obtain ⟨haccepted,hnot⟩ := parseOptions_leading sscanfD supportedArgs argv .initial
  generalize (leadingOptions supportedArgs argv).1 = run at haccepted hnot ⊢
  by_cases h : OptState.initial.Accepts sscanfD run
  · have hnumbers : ∀ p ∈ run, (optionNumber sscanfD p).isSome := fun p hp => (h.2 p hp).1
    have hspec := OptState.setAll_spec sscanfD h.1 hnumbers .initial
    obtain ⟨hconflict,hcoherent⟩ := OptState.handleIncoherences_eq
      (fun opt => (hspec opt).2.trans (by rw [OptState.modified_initial,Bool.or_false])) fun opt => (hspec opt).1
    have hrejected : Rejected sscanfD run ↔ Conflict (explicit sscanfD run) := by
      refine ⟨fun hr => ?_,fun hc => Or.inr (Or.inr hc)⟩
      rcases hr with hdouble | ⟨p,hp,hnone⟩ | hc
      · exact absurd h.1 hdouble
      · exact absurd (hnumbers p hp) (by simp [hnone])
      · exact hc
    rw [hrejected,parseResult,haccepted h,Option.bind_some]
    exact ⟨fun hc => by rw [hconflict hc]; rfl,fun hc => by rw [hcoherent hc]; rfl⟩
  · rw [parseResult,hnot h]
    refine ⟨fun _ => rfl,fun hr => absurd ?_ h⟩
    rw [Rejected,not_or,not_or,not_not,not_exists] at hr
    refine ⟨hr.1,fun p hp => ⟨?_,OptState.modified_initial p.1⟩⟩
    exact Option.isSome_iff_ne_none.mpr fun hnone => hr.2.1 p ⟨hp,hnone⟩

private theorem quorums_coherent {given : Opt → Option ℕ} (hpos : ∀ opt n, given opt = some n → 0 < n)
    (h : ¬Conflict given) : 1 ≤ (quorums given).W ∧ (quorums given).W ≤ (quorums given).N ∧
      1 ≤ (quorums given).R ∧ (quorums given).R ≤ (quorums given).N := by
  have hn := hpos .n
  have hr := hpos .r
  have hw := hpos .w
  simp only [Conflict,quorums,baseN,baseR,baseW] at h ⊢
  generalize given .n = n at hn h ⊢
  generalize given .r = r at hr h ⊢
  generalize given .w = w at hw h ⊢
  cases n <;> cases r <;> cases w <;> simp at hn hr hw h ⊢ <;> omega

/-- A client that parsed its options has coherent quorums, whatever allocations failed. -/
theorem parseOptArgs_coherent (hmask : supportedArgs ≠ 0) {argv : List CString} {args : Args} {left : List CString}
    {outcomes rest : Outcomes} (h : parseOptArgs sscanfD supportedArgs argv outcomes = some (some (args,left),rest)) :
    1 ≤ args.W ∧ args.W ≤ args.N ∧ 1 ≤ args.R ∧ args.R ≤ args.N := by
  rw [parseOptArgs_eq sscanfD supportedArgs hmask,malloc_bind] at h
  have hresult : parseResult sscanfD supportedArgs argv = some (args,left) := by
    cases hnext : nextSucceeds outcomes with
    | false =>
      rw [hnext] at h
      cases h
    | true =>
      rw [hnext] at h
      exact congrArg Prod.fst (Option.some.inj h)
  obtain ⟨hrejected,haccepted⟩ := parseResult_cases sscanfD supportedArgs argv
  by_cases hrun : Rejected sscanfD (leadingOptions supportedArgs argv).1
  · rw [hrejected hrun] at hresult
    cases hresult
  · rw [haccepted hrun] at hresult
    cases hresult
    exact quorums_coherent (fun opt n => explicit_pos sscanfD) fun hc => hrun (Or.inr (Or.inr hc))

end Results

end PpsDht
