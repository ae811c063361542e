import PpsDht.FreshGets
import PpsDht.Linearizations

/-! # One server for each key

With `N = 1` each key has one server, the same for all clients. Puts and gets of any
number of clients are then linearizable: each takes effect when the server executes it. -/
namespace PpsDht
open Mem Net SocketPrograms DatagramNetworks Linearizations

/-- The table as a whole, to be put to and read from in one step. -/
def keyValueStore : Object (CString → Option CString) Operation Outcome where
  step s
    | .put k v => (Function.update s k (some v),⟨.errNone,none⟩)
    | .get k => (s,(s k).elim ⟨.errNetwork,none⟩ fun v => ⟨.errNone,some v⟩)

/-- The call that a server executes in this event. -/
def servedCall? : Event SockAddr Datagram Outcome → Option ℕ
  | .served i _ _ _ => some i
  | _ => none

/-- The calls that returned without an error. The others count as pending, since their
datagrams may still arrive. -/
def callHistory (calls : ℕ → Operation) (es : List (Event SockAddr Datagram Outcome)) : History ℕ Operation Outcome where
  op := calls
  completed i out := .returned i out ∈ es ∧ out.code = .errNone
  precedes i j := ∃ out, out.code = .errNone ∧ Precedes es i out j

/-- What the servers of the keys hold after these events. -/
def storedAfter (home : CString → SockAddr) (start : CString → Option CString)
    (es : List (Event SockAddr Datagram Outcome)) : CString → Option CString :=
  fun k => (lastPut? k (home k) es).or (start k)

private theorem lastPut_concat (k : CString) (a : SockAddr) (es : List (Event SockAddr Datagram Outcome))
    (e : Event SockAddr Datagram Outcome) : lastPut? k a (es ++ [e]) = (putAt? k a e).or (lastPut? k a es) := by
  rw [lastPut?,filterMap_concat,List.getLast?_append]
  cases putAt? k a e <;> rfl

/-- The keys have one server each, for all clients, and both quorums are met by it. -/
structure SingleReplica (sha1 : Bytes → Digest) (clients : ℕ → Client) (calls : ℕ → Operation)
    (home : CString → SockAddr) : Prop where
  ready : ∀ i, (clients i).Ready
  servers : ∀ i, (clients i).servers sha1 (calls i).key = [home (calls i).key]
  writes : ∀ i, 1 ≤ (clients i).args.W
  reads : ∀ i, 1 ≤ (clients i).args.R
  key_ne : ∀ i, (calls i).key ≠ .empty

variable {sha1 : Bytes → Digest} {clients : ℕ → Client} {calls : ℕ → Operation} {servers : SockAddr → Htable}
  {es : List (Event SockAddr Datagram Outcome)} {w : SharedWorld SockAddr Htable Datagram Outcome} {i j : ℕ}
  {a : SockAddr} {d : Datagram} {rs : List Datagram} {home : CString → SockAddr} {out : Outcome}

private theorem servedCall?_eq_some {e : Event SockAddr Datagram Outcome} :
    servedCall? e = some i ↔ ∃ a d rs, e = .served i a d rs := by
  cases e <;> simp [servedCall?,eq_comm]

private theorem mem_servedCalls : i ∈ es.filterMap servedCall? ↔ ∃ a d rs, .served i a d rs ∈ es := by
  rw [List.mem_filterMap]
  constructor
  · rintro ⟨e,he,hi⟩
    obtain ⟨a,d,rs,rfl⟩ := servedCall?_eq_some.mp hi
    exact ⟨a,d,rs,he⟩
  · rintro ⟨a,d,rs,he⟩
    exact ⟨_,he,rfl⟩

/-- A call is executed as often as servers execute messages of it. -/
theorem count_servedCalls (es : List (Event SockAddr Datagram Outcome)) (i : ℕ) :
    (es.filterMap servedCall?).count i = (es.filterMap (Event.servedBy? i)).length := by
  induction es using List.reverseRecOn with
  | nil => rfl
  | append_singleton es e ih =>
    rw [filterMap_concat,filterMap_concat,List.count_append,List.length_append,ih]
    cases e with
    | served j a d rs => by_cases hj : j = i <;> simp [servedCall?,Event.servedBy?,hj]
    | _ => rfl

/-- With one server for its key a call is executed once at most. -/
theorem SingleReplica.nodup_servedCalls (h : SingleReplica sha1 clients calls home)
    (hrun : SharedRun (sharedDht sha1 clients calls) servers es w) (hdup : ∀ p, .duplicated p ∉ es) :
    (es.filterMap servedCall?).Nodup := by
  refine List.nodup_iff_count_le_one.mpr fun i => ?_
  have hsent := hrun.nodup_sentTo ((clients i).nodup_servers sha1 _) (Operation.sends (h.ready i) sha1 (calls i))
  have hhome : es.filterMap (Event.servedBy? i) ⊆ [home (calls i).key] := fun a ha => by
    obtain ⟨e,he,hi⟩ := List.mem_filterMap.mp ha
    cases e with
    | served j b d rs =>
      rw [Event.servedBy?,Option.ite_none_right_eq_some] at hi
      obtain ⟨rfl,hb⟩ := hi
      obtain rfl := Option.some.inj hb
      have hmem := (mem_servers_of_served (h.ready j) hrun he).1
      rwa [h.servers j] at hmem
    | _ => cases hi
  rw [count_servedCalls]
  exact ((hrun.nodup_served hsent hdup).subperm hhome).length_le

private theorem SingleReplica.eq_home (h : SingleReplica sha1 clients calls home)
    (hrun : SharedRun (sharedDht sha1 clients calls) servers es w) (hserved : .served i a d rs ∈ es) :
    a = home (calls i).key := by
  have hmem := (mem_servers_of_served (h.ready i) hrun hserved).1
  rw [h.servers i] at hmem
  exact List.mem_singleton.mp hmem

private theorem SingleReplica.served_unique (h : SingleReplica sha1 clients calls home)
    (hrun : SharedRun (sharedDht sha1 clients calls) servers es w) (hdup : ∀ p, .duplicated p ∉ es)
    (hserved : .served i a d rs ∈ es) {a' : SockAddr} {d' : Datagram} {rs' : List Datagram}
    (hserved' : .served i a' d' rs' ∈ es) :
    (.served i a d rs : Event SockAddr Datagram Outcome) = .served i a' d' rs' := by
  obtain ⟨before,after,rfl⟩ := List.append_of_mem hserved
  have hnodup := h.nodup_servedCalls hrun hdup
  rw [List.filterMap_append,List.filterMap_cons_some (show servedCall? (.served i a d rs) = some i from rfl)] at hnodup
  obtain ⟨-,hafter,hbefore⟩ := List.nodup_append'.mp hnodup
  rcases List.mem_append.mp hserved' with hmem | hmem
  · exact absurd List.mem_cons_self (hbefore (mem_servedCalls.mpr ⟨a',d',rs',hmem⟩))
  · rcases List.mem_cons.mp hmem with heq | hmem
    · exact heq.symm
    · exact absurd (mem_servedCalls.mpr ⟨a',d',rs',hmem⟩) (List.nodup_cons.mp hafter).1

private theorem Operation.value_of_put {client : Client} {k v : CString} {inputs unread : List (Option Datagram)}
    (hrun : ((Operation.put k v).program sha1 client).run inputs = some (out,unread)) : out.value = none := by
  rw [program,Prog.run_bind] at hrun
  obtain ⟨⟨⟨code,rest⟩,unread'⟩,-,hout⟩ := Option.bind_eq_some_iff.mp hrun
  rw [Prog.run_ret] at hout
  cases hout
  rfl

/-- A call without an error has received something, the value in case of a get. -/
theorem SingleReplica.exists_received (h : SingleReplica sha1 clients calls home)
    (hrun : SharedRun (sharedDht sha1 clients calls) servers es w) (hreach : ∀ a, ReachableTable (servers a))
    (hdup : ∀ p, .duplicated p ∉ es) (hret : .returned i out ∈ es) (hcode : out.code = .errNone) :
    ∃ a d, .received i a d ∈ es ∧ ((∃ k v, calls i = .put k v ∧ out = ⟨.errNone,none⟩) ∨
      ∃ k v, calls i = .get k ∧ out = ⟨.errNone,some v⟩ ∧ d = v.chars) := by
  have hone : (clients i).args.N = 1 := by
    rw [← (h.ready i).length_servers sha1 (calls i).key,h.servers i,List.length_singleton]
  have hkey := h.key_ne i
  obtain ⟨code,value⟩ := out
  obtain rfl : code = .errNone := hcode
  cases hcall : calls i with
  | put k v =>
    rw [hcall] at hkey
    obtain ⟨S,-,-,hlen,hacked⟩ := exists_acked (h.ready i) hrun hreach hcall hkey hdup hret rfl
    obtain ⟨a,ha⟩ := List.exists_mem_of_length_pos ((h.writes i).trans hlen)
    obtain ⟨d,hd⟩ := hacked a ha
    have hres := hrun.returned hret
    change ((calls i).program sha1 (clients i)).run _ = _ at hres
    rw [hcall] at hres
    obtain rfl : value = none := Operation.value_of_put hres
    exact ⟨a,d,hd,Or.inl ⟨k,v,rfl,rfl⟩⟩
  | get k =>
    rw [hcall] at hkey
    obtain ⟨v,hv,S,-,-,hlen,hvoted⟩ := exists_voters (h.ready i) (by omega) hrun hreach hcall hdup hret rfl
    obtain ⟨a,ha⟩ := List.exists_mem_of_length_pos ((h.reads i).trans hlen)
    obtain rfl : value = some v := hv
    exact ⟨a,v.chars,hvoted a ha,Or.inr ⟨k,v,rfl,rfl,rfl⟩⟩

/-- What the servers hold changes as the store does when a server executes a call, and at no
other time. -/
theorem SingleReplica.storedAfter_step (h : SingleReplica sha1 clients calls home)
    (hrun : SharedRun (sharedDht sha1 clients calls) servers es w) (hreach : ∀ a, ReachableTable (servers a))
    (hforeign : ∀ a d k v, .foreign a d ∈ es → dispatch d ≠ some (.put k v)) (start : CString → Option CString)
    {before after : List (Event SockAddr Datagram Outcome)} {e : Event SockAddr Datagram Outcome}
    (hes : es = before ++ e::after) :
    storedAfter home start (before ++ [e]) = (servedCall? e).elim (storedAfter home start before) fun i =>
      (keyValueStore.step (storedAfter home start before) (calls i)).1 := by
  have he : e ∈ es := hes ▸ List.mem_append_right _ List.mem_cons_self
  have hsame : (∀ k, putAt? k (home k) e = none) →
      storedAfter home start (before ++ [e]) = storedAfter home start before := fun hnone => by
    funext k
    rw [storedAfter,lastPut_concat,hnone k]
    rfl
  cases e with
  | served i a d rs =>
    obtain ⟨-,hmsg⟩ := mem_servers_of_served (h.ready i) hrun he
    have hhome := h.eq_home hrun he
    have hkey := h.key_ne i
    change _ = (keyValueStore.step (storedAfter home start before) (calls i)).1
    cases hcall : calls i with
    | put k v =>
      rw [hcall] at hhome hkey
      obtain rfl : a = home k := hhome
      have hput := (put_of_served (h.ready i) hrun hreach hcall (Or.inl hkey) he).2
      obtain ⟨d',hhandled,hdis⟩ := putAt?_eq_some.mp hput
      obtain ⟨-,rfl⟩ := Prod.mk.inj (Option.some.inj hhandled)
      funext k'
      change _ = Function.update (storedAfter home start before) k (some v) k'
      rw [storedAfter,lastPut_concat]
      by_cases hk : k' = k
      · subst hk
        rw [hput,Option.some_or,Option.some_or,Function.update_self]
      · have hnone : putAt? k' (home k') (.served i (home k) d rs) = none :=
          Option.eq_none_iff_forall_ne_some.mpr fun u hu => by
            obtain ⟨d',hhandled',hdis'⟩ := putAt?_eq_some.mp hu
            obtain ⟨-,rfl⟩ := Prod.mk.inj (Option.some.inj hhandled')
            exact hk (Request.put.inj (Option.some.inj (hdis'.symm.trans hdis))).1
        rw [hnone,Option.none_or,Function.update_of_ne hk]
        rfl
    | get k =>
      rw [hcall] at hmsg
      subst hmsg
      refine hsame fun k' => Option.eq_none_iff_forall_ne_some.mpr fun v hv => ?_
      obtain ⟨d',hhandled,hdis⟩ := putAt?_eq_some.mp hv
      obtain ⟨-,rfl⟩ := Prod.mk.inj (Option.some.inj hhandled)
      have hlen := (answer_of_split hrun hreach hes).1
      exact absurd (Operation.eq_put hlen ((dispatch_iff hlen _).mp hdis)) nofun
  | foreign a d =>
    refine hsame fun k => Option.eq_none_iff_forall_ne_some.mpr fun v hv => ?_
    obtain ⟨d',hhandled,hdis⟩ := putAt?_eq_some.mp hv
    obtain ⟨-,rfl⟩ := Prod.mk.inj (Option.some.inj hhandled)
    exact hforeign _ _ _ _ he hdis
  | _ => exact hsame fun _ => rfl

/-- The response of the store at the moment of execution is the result of the call. -/
theorem SingleReplica.response (h : SingleReplica sha1 clients calls home)
    (hrun : SharedRun (sharedDht sha1 clients calls) servers es w) (hreach : ∀ a, ReachableTable (servers a))
    (hdup : ∀ p, .duplicated p ∉ es) {start : CString → Option CString}
    (hstart : ∀ k, Succeeds (getHtableValue (servers (home k)) k) (start k))
    {before after : List (Event SockAddr Datagram Outcome)} (hes : es = before ++ .served i a d rs::after)
    (hret : .returned i out ∈ es) (hcode : out.code = .errNone) :
    (keyValueStore.step (storedAfter home start before) (calls i)).2 = out := by
  obtain ⟨b,d',hd',hcase⟩ := h.exists_received hrun hreach hdup hret hcode
  have hserved : .served i a d rs ∈ es := hes ▸ List.mem_append_right _ List.mem_cons_self
  have hhome := h.eq_home hrun hserved
  have hkey := h.key_ne i
  rcases hcase with ⟨k,v,hcall,rfl⟩ | ⟨k,v,hcall,rfl,rfl⟩
  · rw [hcall]
    rfl
  · rw [hcall] at hhome hkey ⊢
    obtain rfl : a = home k := hhome
    obtain ⟨q,rs',hserved',hmem⟩ := (hrun.netInvariant i).received i b _ hd'
    obtain ⟨-,-,-,rfl⟩ := Event.served.inj (h.served_unique hrun hdup hserved hserved')
    obtain ⟨m,m₀,hm₀,rfl,hlookup⟩ := answer_of_get (h.ready i) hrun hreach hcall hkey hes
    have hvalue := getReply_eq_chars.mp (List.mem_singleton.mp hmem).symm
    have hinitial := hstart k
    rw [hm₀] at hinitial
    have hstored : storedAfter home start before k = some v := by
      rw [storedAfter,hinitial.unique (getHtableValue_succeeds m₀ k),← hlookup,hvalue]
    change (storedAfter home start before k).elim _ _ = _
    rw [hstored]
    rfl

/-- With one server for each key, nothing duplicated and no foreign puts, the puts and gets of
any number of clients are linearizable: in the order in which the servers execute them, the
calls without an error return what one table accessed by one call at a time returns, and a
call that is over before another starts comes first. -/
theorem calls_linearizable (sha1 : Bytes → Digest) (clients : ℕ → Client) (calls : ℕ → Operation)
    (servers : SockAddr → Htable) (es : List (Event SockAddr Datagram Outcome))
    (w : SharedWorld SockAddr Htable Datagram Outcome) (home : CString → SockAddr) (start : CString → Option CString)
    (h : SingleReplica sha1 clients calls home) (hreach : ∀ a, ReachableTable (servers a))
    (hrun : SharedRun (sharedDht sha1 clients calls) servers es w)
    (hstart : ∀ k, Succeeds (getHtableValue (servers (home k)) k) (start k)) (hdup : ∀ p, .duplicated p ∉ es)
    (hforeign : ∀ a d k v, .foreign a d ∈ es → dispatch d ≠ some (.put k v)) :
    Linearizes keyValueStore start (callHistory calls es) (es.filterMap servedCall?) := by
  have hserved : ∀ i out, .returned i out ∈ es → out.code = .errNone →
      ∃ a d, .received i a d ∈ es := fun i out hret hcode => by
    obtain ⟨a,d,hd,-⟩ := h.exists_received hrun hreach hdup hret hcode
    exact ⟨a,d,hd⟩
  refine linearizes_of_points (storedAfter home start) rfl
    (fun before e after hes => h.storedAfter_step hrun hreach hforeign start hes) (h.nodup_servedCalls hrun hdup) ?_ ?_ ?_
  · rintro i out ⟨hret,hcode⟩
    obtain ⟨a,d,hd⟩ := hserved i out hret hcode
    obtain ⟨q,rs,hexec,-⟩ := (hrun.netInvariant i).received i a d hd
    exact mem_servedCalls.mpr ⟨a,q,rs,hexec⟩
  · rintro before e after i out hes hi ⟨hret,hcode⟩
    obtain ⟨a,d,rs,rfl⟩ := servedCall?_eq_some.mp hi
    exact h.response hrun hreach hdup hstart hes hret hcode
  · rintro i j ⟨out,hcode,hprecedes⟩ -
    obtain ⟨a,d,hd⟩ := hserved i out hprecedes.returned hcode
    obtain ⟨before,after,hes,hnone⟩ := hprecedes
    obtain ⟨q,rs,hexec⟩ := served_before hrun hes hd
    obtain ⟨w₁,hrun₁⟩ := hrun.take hes
    refine ⟨before,_,hes,mem_servedCalls.mpr ⟨a,q,rs,hexec⟩,fun hj => ?_⟩
    obtain ⟨b,d',rs',hserved'⟩ := mem_servedCalls.mp hj
    exact hrun₁.not_served hnone hserved'

/-- The put and the get overlap, and the get is executed last but returns first. -/
def overlappingCalls (a : SockAddr) : List (Event SockAddr Datagram Outcome) :=
  [.sent 1 a [107],.sent 0 a [107,0,118],.served 0 a [107,0,118] [[]],.served 1 a [107] [[118]],
    .received 1 a [118],.returned 1 ⟨.errNone,some .letterV⟩,.received 0 a [],.returned 0 ⟨.errNone,none⟩]

abbrev singleDht : System SockAddr Htable Datagram Outcome :=
  sharedDht (fun _ => .zero) (fun _ => localClient 1 1 1) putThenGet

private theorem exists_run_overlappingCalls :
    ∃ (a : SockAddr) (w : SharedWorld SockAddr Htable Datagram Outcome),
      (localClient 1 1 1).servers (fun _ => .zero) .letterK = [a] ∧
      SharedRun singleDht initialTables (overlappingCalls a) w := by
  have hready := localClient_ready 1 1 (show 0 < 1 by decide) (by decide)
  obtain ⟨a,ha⟩ := List.length_eq_one_iff.mp (hready.length_servers (fun _ => .zero) .letterK)
  have hput : singleDht.calls 0 = _ := Operation.program_put hready (fun _ => .zero) (by decide) (by decide)
  have hget : singleDht.calls 1 = _ := Operation.program_get hready (fun _ => .zero) (by decide)
  rw [ha] at hput hget
  have hstart : SharedRun singleDht initialTables [] ⟨initialTables,0,singleDht.calls⟩ := .start
  have hsent : SharedRun singleDht initialTables _ ⟨_,⟨1,a,false,[107]⟩ ::ₘ 0,_⟩ :=
    hstart.send hget (show [107].length ≤ maxMsgSize by decide)
  have hsent' : SharedRun singleDht initialTables _ ⟨_,⟨0,a,false,[107,0,118]⟩ ::ₘ ⟨1,a,false,[107]⟩ ::ₘ 0,_⟩ :=
    hsent.send (i := 0) hput (show [107,0,118].length ≤ maxMsgSize by decide)
  have hserved : SharedRun singleDht initialTables _ ⟨_,⟨0,a,true,[]⟩ ::ₘ ⟨1,a,false,[107]⟩ ::ₘ 0,_⟩ :=
    hsent'.serve rfl (handle_put .initial .letterK .letterV (Or.inl (by decide)) (by decide))
  rw [Multiset.cons_swap] at hserved
  have hanswered : SharedRun singleDht initialTables _ ⟨_,⟨1,a,true,[118]⟩ ::ₘ ⟨0,a,true,[]⟩ ::ₘ 0,_⟩ :=
    hserved.serve (Function.update_self _ _ _)
      (handle_get (ChainedMap.lookup_add_self _ _ _) (by decide) (by decide))
  have hvotes := run_get_equal (R := 1) (n := 1) (v := .letterV) hready.positive.ne' (by decide) (by decide)
    (by decide) (by decide)
  obtain ⟨progs,hothers,hfound⟩ := hanswered.receive_all rfl [(a,[118])] (⟨0,a,true,[]⟩ ::ₘ 0) rfl
    ((getRecvLoop_sends 1 1 _ []).bind_ret _) hvotes
  obtain ⟨progs',-,hdone⟩ := hfound.receive_all (hothers 0 (by decide)) [(a,[])] 0 rfl
    ((putRecvLoop_sends 1 1 0 []).bind_ret _) rfl
  exact ⟨a,_,ha,hdone⟩

/-- The get that returns first is linearized after the put. -/
theorem calls_linearizable_overlapping :
    ∃ (a : SockAddr) (w : SharedWorld SockAddr Htable Datagram Outcome),
      SharedRun singleDht initialTables (overlappingCalls a) w ∧
      Linearizes keyValueStore (fun _ => none) (callHistory putThenGet (overlappingCalls a)) [0,1] := by
  obtain ⟨a,w,ha,hrun⟩ := exists_run_overlappingCalls
  have hkey : ∀ i, (putThenGet i).key = .letterK := fun i => by cases i <;> rfl
  have hsingle : SingleReplica (fun _ => .zero) (fun _ => localClient 1 1 1) putThenGet fun _ => a :=
    ⟨fun _ => localClient_ready 1 1 (by decide) (by decide),fun i => (hkey i).symm ▸ ha,fun _ => Nat.le_refl 1,
      fun _ => Nat.le_refl 1,fun i => (hkey i).symm ▸ (by decide)⟩
  have hempty : ∀ k, Succeeds (getHtableValue (initialTables a) k) none := fun k => by
    have hget := getHtableValue_succeeds ServerMap.initial k
    rwa [ServerMap.initial,ChainedMap.lookup_empty] at hget
  exact ⟨a,w,hrun,calls_linearizable (fun _ => .zero) (fun _ => localClient 1 1 1) putThenGet initialTables
    (overlappingCalls a) w (fun _ => a) (fun _ => none) hsingle (fun _ => reachableTable_initial) hrun hempty
    (by simp [overlappingCalls]) (by simp [overlappingCalls])⟩

end PpsDht
