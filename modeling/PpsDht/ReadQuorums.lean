import PpsDht.FirstOccurrences
import PpsDht.QuorumReads

/-! # Quorums among the replies of a get

Two things keep a get from deciding by the votes alone: it gives up at the first
not-found reply, and from 128 votes on the counter is no longer the number of
votes. Up to these it reports a value only with a quorum, and finds one in every
order of the replies. -/
namespace PpsDht
open Mem Net SocketPrograms FirstOccurrences

def arrivals (replies : List (Option CString)) : List (Option Datagram) :=
  replies.map fun r => some (getReply r)

private theorem some_chars_injective : Function.Injective fun w : CString => some w.chars := fun _ _ h =>
  CString.ext (Option.some.inj h)

theorem getReply_eq_chars {r : Option CString} {w : CString} : getReply r = w.chars ↔ r = some w := by
  cases r with
  | none =>
    refine ⟨fun h => ?_,nofun⟩
    exact absurd (h ▸ List.mem_singleton_self 0 : (0 : UInt8) ∈ w.chars) w.nulFree
  | some v => exact ⟨fun h => congrArg some (CString.ext h),fun h => by rw [Option.some.inj h]; rfl⟩

/-- The values in front of the first not-found reply. -/
theorem exists_found (replies : List (Option CString)) :
    ∃ (vs : List CString) (rest : List (Option CString)),
      replies = vs.map some ++ rest ∧ replies.takeWhile Option.isSome = vs.map some := by
  induction replies with
  | nil => exact ⟨[],[],rfl,rfl⟩
  | cons r replies ih =>
    cases r with
    | none => exact ⟨[],none::replies,rfl,rfl⟩
    | some v =>
      obtain ⟨vs,rest,hsplit,hfound⟩ := ih
      exact ⟨v::vs,rest,congrArg (some v::·) hsplit,congrArg (some v::·) hfound⟩

private theorem exists_map_some {replies : List (Option CString)} (h : none ∉ replies) :
    ∃ vs : List CString, replies = vs.map some := by
  obtain ⟨vs,rest,hsplit,hfound⟩ := exists_found replies
  refine ⟨vs,hfound ▸ (List.takeWhile_eq_self_iff.mpr fun r hr => ?_).symm⟩
  cases r with
  | none => exact absurd hr h
  | some v => rfl

private theorem arrivals_map_some (vs : List CString) : arrivals (vs.map some) = vs.map fun w => some w.chars := by
  rw [arrivals,List.map_map]
  rfl

private theorem isReply_of_mem {replies : List (Option CString)}
    (hsize : ∀ v, some v ∈ replies → v.length < maxMsgSize) {d : Datagram}
    (hd : some d ∈ arrivals replies) : IsReply d := by
  obtain ⟨r,hr,he⟩ := List.mem_map.mp hd
  exact ⟨r,(Option.some.inj he).symm,fun v hv => hsize v (hv ▸ hr)⟩

/-- Values that were received first come before any not-found reply. -/
theorem prefix_found {vs : List CString} {replies : List (Option CString)}
    {unread : List (Option Datagram)}
    (h : arrivals replies ++ [none] = vs.map (fun w => some w.chars) ++ unread) :
    vs.map some <+: replies.takeWhile Option.isSome := by
  induction vs generalizing replies with
  | nil => exact List.nil_prefix
  | cons w vs ih =>
    cases replies with
    | nil => exact absurd (List.cons.inj h).1 nofun
    | cons r replies =>
      obtain ⟨hr,htail⟩ := List.cons.inj h
      obtain rfl := getReply_eq_chars.mp (Option.some.inj hr)
      rw [List.takeWhile_cons_of_pos rfl,List.map_cons,List.prefix_cons_inj]
      exact ih htail

/-- Whatever allocations fail, a value is reported only when `R` of the replies
received so far are equal to it; no reply comes after the given ones. -/
def ReportsQuorums (get : Net Outcome) (R : ℕ) (replies : List (Option CString)) : Prop :=
  ∀ (outcomes rest : Outcomes) (v : CString) (received unread : List (Option Datagram)),
    arrivals replies ++ [none] = received ++ unread →
    (get outcomes).run (received ++ unread) = some ((⟨.errNone,some v⟩,rest),unread) →
    R ≤ received.count (some v.chars)

variable {sha1 : Bytes → Digest} {client : Client} {key : CString} {replies : List (Option CString)}

/-- The first value with 128 votes is reported even if more are needed. -/
theorem not_reportsQuorums (h : client.Ready) (hR : client.args.R ≤ intMax) (hkey : tooLong key = false)
    (hlen : replies.length ≤ client.args.N) (hsize : ∀ v, some v ∈ replies → v.length < maxMsgSize)
    (hbig : 128 < client.args.R) {v : CString}
    (hv : 128 ≤ (replies.takeWhile Option.isSome).count (some v)) :
    ¬ReportsQuorums (networkGet sha1 client (some key) none) client.args.R replies := by
  intro hreports
  obtain ⟨vs,rest,rfl,hfound⟩ := exists_found replies
  rw [hfound,List.count_map_of_injective _ _ (Option.some_injective _)] at hv
  obtain ⟨before,w,after,rfl,hbefore,hreach⟩ := exists_first_count (by decide) ⟨v,hv⟩
  have hmin : min client.args.R 128 = 128 := Nat.min_eq_right hbig.le
  have hmem : ∀ x ∈ before ++ w::after, x.length < maxMsgSize := fun x hx =>
    hsize x (List.mem_append_left _ (List.mem_map_of_mem hx))
  have hturns : before.length < client.args.N := by
    simp only [List.length_append,List.length_map,List.length_cons] at hlen
    omega
  have hrun := getRecvLoop_first hR (tally_initial h.positive.ne')
    (fun x hx => hmem x (List.mem_append_left _ hx)) (hmem w (by simp)) (by simpa [hmin] using hbefore)
    (by simpa [hmin] using hreach) hturns (arrivals (after.map some ++ rest) ++ [none])
  have hquorum := hreports [] [] w (before.map (fun w => some w.chars) ++ [some w.chars])
    (arrivals (after.map some ++ rest) ++ [none])
    (by simp [arrivals,getReply,Function.comp_def]) (by
      rw [networkGet_eq h sha1 hkey,Prog.run_sendAll,List.append_assoc]
      exact hrun)
  have hw := hbefore w
  rw [List.count_append,List.count_singleton_self,
    List.count_map_of_injective _ _ some_chars_injective] at hquorum
  omega

/-- Over a sequence of replies a get reports quorums only, exactly when 128 votes
are as many as it needs or no value has so many before the first not-found reply. -/
theorem networkGet_reportsQuorums_iff (sha1 : Bytes → Digest) (client : Client) (key : CString)
    (replies : List (Option CString)) (h : client.Ready) (hR : client.args.R ≤ intMax)
    (hkey : tooLong key = false) (hlen : replies.length ≤ client.args.N)
    (hsize : ∀ v, some v ∈ replies → v.length < maxMsgSize) :
    ReportsQuorums (networkGet sha1 client (some key) none) client.args.R replies ↔
      client.args.R ≤ 128 ∨ ∀ v, (replies.takeWhile Option.isSome).count (some v) < 128 := by
  constructor
  · intro hreports
    by_contra hcond
    rw [not_or,not_forall] at hcond
    obtain ⟨hbig,v,hv⟩ := hcond
    exact not_reportsQuorums h hR hkey hlen hsize (Nat.lt_of_not_le hbig) (Nat.le_of_not_lt hv) hreports
  · intro hcond outcomes rest v received unread hsplit hrun
    obtain ⟨hN,n,outcomes',hloop⟩ := networkGet_run hrun
    have hin : ∀ d, some d ∈ received ++ unread → IsReply d := fun d hd => by
      rw [← hsplit] at hd
      exact isReply_of_mem hsize (by simpa using hd)
    have htally : Tally False (.empty hN) [] := tally_initial hN
    obtain ⟨v',vs,hv',hvs,hcount⟩ := getRecvLoop_sound (Or.inl hR) htally nofun hin rfl hloop
    obtain rfl := Option.some.inj hv'
    obtain rfl := List.append_cancel_right hvs
    rw [List.count_map_of_injective _ _ some_chars_injective]
    rw [List.count_nil,Nat.zero_add] at hcount
    rcases hcond with hsmall | hfew
    · omega
    · have hle := (prefix_found hsplit).sublist.count_le (some v)
      rw [List.count_map_of_injective _ _ (Option.some_injective _)] at hle
      have hv := hfew v
      omega

/-- Two of three replies agree. -/
theorem networkGet_reportsQuorums_two :
    ReportsQuorums (networkGet (fun _ => .zero) (localClient 3 2 2) (some .letterK) none) 2
      [some .letterV,some .letterK,some .letterV] :=
  (networkGet_reportsQuorums_iff (fun _ => .zero) (localClient 3 2 2) .letterK
    [some .letterV,some .letterK,some .letterV] (localClient_ready 2 2 (by decide) (by decide)) (by decide) (by decide)
    (by decide) (fun v hv => by
      rcases (by simpa using hv : v = .letterV ∨ v = .letterK ∨ v = .letterV) with rfl | rfl | rfl <;> decide)).mpr
    (Or.inl (by decide))

/-- With 129 replies needed, 128 equal ones are enough. -/
theorem networkGet_reports_128 :
    ¬∀ (sha1 : Bytes → Digest) (client : Client) (key : CString) (replies : List (Option CString)),
      client.Ready → 1 ≤ client.args.R → client.args.R ≤ client.args.N → client.args.R ≤ intMax →
      tooLong key = false → replies.length ≤ client.args.N →
      (∀ v, some v ∈ replies → v.length < maxMsgSize) →
      ReportsQuorums (networkGet sha1 client (some key) none) client.args.R replies := by
  intro h
  have hready := localClient_ready 129 1 (show 0 < 129 by decide) (by decide)
  have hlen : (List.replicate 128 (some CString.empty)).length ≤ 129 := by
    rw [List.length_replicate]
    decide
  have hsize : ∀ v, some v ∈ List.replicate 128 (some CString.empty) → v.length < maxMsgSize := fun v hv => by
    obtain rfl := Option.some.inj (List.eq_of_mem_replicate hv)
    decide
  have hvotes : 128 ≤ ((List.replicate 128 (some CString.empty)).takeWhile Option.isSome).count
      (some .empty) := by
    rw [List.takeWhile_replicate,Option.isSome_some,if_pos rfl,List.count_replicate_self]
  exact not_reportsQuorums hready (by decide) (by decide) hlen hsize (by decide) hvotes
    (h (fun _ => .zero) (localClient 129 129 1) .empty _ hready (by decide) (by decide)
      (by decide) (by decide) hlen hsize)

/-- In this order of arrival, the last reply in front, the get returns `v`. -/
def Finds (get : Net Outcome) (v : CString) (order : List (Option CString)) : Prop :=
  ∃ unread, (get []).run (arrivals order) = some ((⟨.errNone,some v⟩,[]),unread)

private theorem not_finds_notFound (h : client.Ready) (hkey : tooLong key = false) (v : CString)
    (order : List (Option CString)) : ¬Finds (networkGet sha1 client (some key) none) v (none::order) := by
  rintro ⟨unread,hrun⟩
  obtain ⟨n,hn⟩ := Nat.exists_eq_add_one_of_ne_zero h.positive.ne'
  have hloop := getRecvLoop_notFound (R := client.args.R) (n := n)
    (ChainedMap.empty h.positive.ne').table [] (arrivals order)
  rw [← hn] at hloop
  rw [networkGet_eq h sha1 hkey,Prog.run_sendAll] at hrun
  cases hloop.symm.trans hrun

/-- The first value to reach the quorum or 128 votes is found. -/
theorem finds_first (h : client.Ready) (hR : client.args.R ≤ intMax) (hkey : tooLong key = false)
    {before : List CString} {v : CString} {after : List (Option CString)}
    (hsize : ∀ w, some w ∈ before.map some ++ some v::after → w.length < maxMsgSize)
    (hbefore : ∀ w, before.count w < min client.args.R 128)
    (hreach : min client.args.R 128 ≤ before.count v + 1) (hturns : before.length < client.args.N) :
    Finds (networkGet sha1 client (some key) none) v (before.map some ++ some v::after) := by
  refine ⟨arrivals after,?_⟩
  rw [networkGet_eq h sha1 hkey,Prog.run_sendAll,arrivals,List.map_append,List.map_cons,← arrivals,
    arrivals_map_some]
  refine getRecvLoop_first hR (tally_initial h.positive.ne') (fun w hw => ?_) (hsize v (by simp)) ?_ ?_ hturns _
  · exact hsize w (List.mem_append_left _ (List.mem_map_of_mem hw))
  · simpa using hbefore
  · simpa using hreach

private theorem count_add_count_le {α : Type} [DecidableEq α] {a b : α} (h : a ≠ b) (as : List α) :
    as.count a + as.count b ≤ as.length := by
  have hlen := List.length_eq_countP_add_countP (· == a) (l := as)
  have hb : as.count b ≤ as.countP fun c => !(c == a) := by
    refine List.countP_mono_left fun c _ hc => ?_
    rw [eq_of_beq hc]
    simpa using Ne.symm h
  rw [List.count]
  simp only [Bool.not_eq_true,Bool.decide_eq_false] at hlen
  omega

theorem Finds.unique {get : Net Outcome} {v w : CString} {order : List (Option CString)}
    (hv : Finds get v order) (hw : Finds get w order) : v = w := by
  obtain ⟨unread,hv⟩ := hv
  obtain ⟨unread',hw⟩ := hw
  cases hv.symm.trans hw
  rfl

/-- When more than 128 votes are needed, any value with 128 is found in some order. -/
theorem exists_order_finds (h : client.Ready) (hR : client.args.R ≤ intMax) (hbig : 128 < client.args.R)
    (hRN : client.args.R ≤ client.args.N) (hkey : tooLong key = false)
    (hsize : ∀ w, some w ∈ replies → w.length < maxMsgSize) {w : CString}
    (hw : 128 ≤ replies.count (some w)) :
    ∃ order, order.Perm replies ∧ Finds (networkGet sha1 client (some key) none) w order := by
  obtain ⟨rest,hperm⟩ := (List.replicate_sublist_iff.mpr hw).exists_perm_append
  have horder : List.replicate 128 (some w) ++ rest = (List.replicate 127 w).map some ++ some w::rest := by
    rw [List.map_replicate,List.append_cons,← List.replicate_succ']
  rw [horder] at hperm
  refine ⟨_,hperm.symm,finds_first h hR hkey (fun x hx => hsize x (hperm.mem_iff.mpr hx)) (fun x => ?_) ?_ ?_⟩
  · have hx := List.count_le_length (a := x) (l := List.replicate 127 w)
    rw [List.length_replicate] at hx
    omega
  · rw [List.count_replicate_self]
    omega
  · rw [List.length_replicate]
    omega

/-- A majority value is found when all replies are values and none other has 128. -/
theorem finds_majority (h : client.Ready) (hR : client.args.R ≤ intMax)
    (hmajority : client.args.N < 2 * client.args.R) (hkey : tooLong key = false) {vs : List CString}
    (hlen : vs.length = client.args.N) {v : CString} (hv : client.args.R ≤ vs.count v)
    (hsize : ∀ w, some w ∈ vs.map some → w.length < maxMsgSize)
    (hcond : client.args.R ≤ 128 ∨ ∀ w, w ≠ v → vs.count w < 128) :
    Finds (networkGet sha1 client (some key) none) v (vs.map some) := by
  have hpos : 0 < min client.args.R 128 := by
    have := h.positive
    omega
  obtain ⟨before,w,after,rfl,hbefore,hreach⟩ := exists_first_count hpos
    ⟨v,(Nat.min_le_left client.args.R 128).trans hv⟩
  obtain rfl : w = v := by
    by_contra hne
    have hsum := count_add_count_le hne (before ++ w::after)
    rw [List.count_append,List.count_cons_self] at hsum
    rcases Nat.lt_or_ge 128 client.args.R with hbig | hsmall
    · have hfew := hcond.resolve_left (Nat.not_le.mpr hbig) w hne
      rw [List.count_append,List.count_cons_self] at hfew
      omega
    · omega
  rw [List.map_append,List.map_cons] at hsize ⊢
  refine finds_first h hR hkey hsize hbefore hreach ?_
  rw [List.length_append,List.length_cons] at hlen
  omega

/-- Of `N` replies with a majority quorum for `v` the get finds `v` in every order
exactly when none is a not-found reply and the quorum is at most 128 or no other
value has 128 votes. -/
theorem networkGet_finds_iff (sha1 : Bytes → Digest) (client : Client) (key v : CString)
    (replies : List (Option CString)) (h : client.Ready) (hR : client.args.R ≤ intMax)
    (hmajority : client.args.N < 2 * client.args.R) (hkey : tooLong key = false)
    (hlen : replies.length = client.args.N) (hv : client.args.R ≤ replies.count (some v))
    (hsize : ∀ w, some w ∈ replies → w.length < maxMsgSize) :
    (∀ order, order.Perm replies → Finds (networkGet sha1 client (some key) none) v order) ↔
      none ∉ replies ∧ (client.args.R ≤ 128 ∨ ∀ w, w ≠ v → replies.count (some w) < 128) := by
  constructor
  · intro hall
    refine ⟨fun hnone => not_finds_notFound h hkey v _ (hall _ (List.perm_cons_erase hnone).symm),?_⟩
    by_contra hcond
    simp only [not_or,not_forall,Nat.not_lt] at hcond
    obtain ⟨hbig,w,hne,hw⟩ := hcond
    have hRN : client.args.R ≤ client.args.N := hlen ▸ hv.trans List.count_le_length
    obtain ⟨order,hperm,hfinds⟩ := exists_order_finds h hR (Nat.lt_of_not_le hbig) hRN hkey hsize hw
    exact hne (hfinds.unique (hall order hperm))
  · rintro ⟨hnone,hcond⟩ order hperm
    obtain ⟨vs,rfl⟩ := exists_map_some fun hmem => hnone (hperm.mem_iff.mp hmem)
    have hcount : ∀ w, vs.count w = replies.count (some w) := fun w => by
      rw [← hperm.count_eq,List.count_map_of_injective _ _ (Option.some_injective _)]
    have hlength := hperm.length_eq
    rw [List.length_map] at hlength
    simp only [← hcount] at hv hcond
    exact finds_majority h hR hmajority hkey (hlength.trans hlen) hv
      (fun w hw => hsize w (hperm.mem_iff.mp hw)) hcond

theorem networkGet_finds_three :
    (∀ order : List (Option CString), order.Perm [some .letterV,some .letterV,some .letterK] →
        Finds (networkGet (fun _ => .zero) (localClient 3 2 2) (some .letterK) none) .letterV order) ↔
      none ∉ [some CString.letterV,some .letterV,some .letterK] ∧
        (2 ≤ 128 ∨ ∀ w, w ≠ .letterV →
          [some CString.letterV,some .letterV,some .letterK].count (some w) < 128) :=
  networkGet_finds_iff (fun _ => .zero) (localClient 3 2 2) .letterK .letterV
    [some .letterV,some .letterV,some .letterK] (localClient_ready 2 2 (by decide) (by decide)) (by decide)
    (by decide) (by decide) rfl (by decide) (fun w hw => by
      rcases List.mem_cons.mp hw with hw | hw
      · rw [Option.some.inj hw]
        decide
      · rcases List.mem_cons.mp hw with hw | hw
        · rw [Option.some.inj hw]
          decide
        · rw [Option.some.inj (List.mem_singleton.mp hw)]
          decide)

/-- A server without the key that answers first hides the two that agree. -/
theorem networkGet_misses_majority :
    ¬∀ (sha1 : Bytes → Digest) (client : Client) (key v : CString) (replies : List (Option CString)),
      client.Ready → 1 ≤ client.args.R → client.args.R ≤ client.args.N → client.args.R ≤ intMax →
      client.args.N < 2 * client.args.R → tooLong key = false → replies.length = client.args.N →
      client.args.R ≤ replies.count (some v) → (∀ w, some w ∈ replies → w.length < maxMsgSize) →
      ∀ order, order.Perm replies → Finds (networkGet sha1 client (some key) none) v order := by
  intro h
  have hready := localClient_ready 2 2 (show 0 < 3 by decide) (by decide)
  have hfinds := h (fun _ => .zero) (localClient 3 2 2) .letterK .letterV
    [none,some .letterV,some .letterV] hready (by decide) (by decide) (by decide) (by decide) (by decide)
    rfl (by decide) (fun w hw => by
      obtain rfl : w = .letterV := by simpa using hw
      decide) _ (List.Perm.refl _)
  exact not_finds_notFound hready (by decide) .letterV _ hfinds

end PpsDht
