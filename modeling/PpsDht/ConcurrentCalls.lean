import PpsDht.ClientTraces
import PpsDht.ConcurrentServers
import PpsDht.ReadQuorums

/-! # Puts and gets of many clients

Each call is made by a client with a ring and quorums of its own, at any time. What an
acknowledged put and a successful get have received, and what the servers answered. -/
namespace PpsDht
open Mem Net SocketPrograms DatagramNetworks

/-- The servers with many clients, one for each call. -/
def sharedDht (sha1 : Bytes → Digest) (clients : ℕ → Client) (calls : ℕ → Operation) :
    System SockAddr Htable Datagram Outcome :=
  serverNetwork fun i => (calls i).program sha1 (clients i)

section Results
variable {sha1 : Bytes → Digest} {client : Client} {k v : CString} {inputs unread : List (Option Datagram)}
  {out : Outcome}

private theorem ringGetNodesForKey_few (h : client.args.N > (client.nodes.map Node.address).dedup.length)
    (sha1 : Bytes → Digest) (k : CString) : ringGetNodesForKey sha1 client.nodes client.args.N k [] = none ∨
      ∃ rest, ringGetNodesForKey sha1 client.nodes client.args.N k [] = some (none,rest) := by
  cases hfound : ringGetNodesForKey sha1 client.nodes client.args.N k [] with
  | none => exact Or.inl rfl
  | some found =>
    obtain ⟨nodes,rest⟩ := found
    cases nodes with
    | none => exact Or.inr ⟨rest,rfl⟩
    | some nodes => exact absurd (ringGetNodesForKey_enough hfound) (Nat.not_le.mpr h)

/-- A client whose ring holds too few servers contacts none: the selection never ends, unless
the call is rejected before. -/
theorem Operation.ready_or_silent (hN : 0 < client.args.N) (sha1 : Bytes → Digest) (op : Operation) :
    client.Ready ∨ op.program sha1 client = .fault ∨
      ∃ out, out.code ≠ .errNone ∧ op.program sha1 client = .ret out := by
  rcases Nat.lt_or_ge (client.nodes.map Node.address).dedup.length client.args.N with hfew | henough
  · refine Or.inr ?_
    cases op with
    | put k v =>
      by_cases hlong : tooLong k ∨ tooLong v
      · exact Or.inr ⟨⟨.errBadParameter,none⟩,by decide,program_tooLong hlong⟩
      · rw [program,networkPut,if_neg hlong,liftM_bind createSocket_succeeds,if_neg (by decide),sendPacket,
          liftM_bind (createCatPacket_succeeds k v)]
        dsimp only
        rcases ringGetNodesForKey_few hfew sha1 k with hfound | ⟨rest,hfound⟩
        · rw [liftM_fault hfound]
          exact Or.inl rfl
        · rw [liftM_apply hfound]
          exact Or.inr ⟨⟨.errNomem,none⟩,by decide,rfl⟩
    | get k =>
      cases hlong : tooLong k with
      | true => exact Or.inr ⟨⟨.errBadParameter,none⟩,by decide,program_tooLong hlong⟩
      | false =>
        rw [program,networkGet]
        simp only [hlong]
        rw [if_neg (by decide),liftM_bind createSocket_succeeds,if_neg (by decide),
          liftM_bind (constructHtable_succeeds hN.ne'),if_neg (ChainedMap.buckets_ne_none _),contactNodes]
        rcases ringGetNodesForKey_few hfew sha1 k with hfound | ⟨rest,hfound⟩
        · rw [liftM_fault hfound]
          exact Or.inl rfl
        · rw [liftM_apply hfound]
          exact Or.inr ⟨⟨.errNomem,none⟩,by decide,rfl⟩
  · exact Or.inl ⟨hN,henough⟩

/-- A put without error has received as many messages as it needs. -/
theorem Operation.run_put (hrun : ((Operation.put k v).program sha1 client).run inputs = some (out,unread))
    (hcode : out.code = .errNone) : client.args.W ≤ inputs.countP Option.isSome := by
  rw [program,Prog.run_bind] at hrun
  obtain ⟨⟨⟨code,rest⟩,unread'⟩,hput,hout⟩ := Option.bind_eq_some_iff.mp hrun
  rw [Prog.run_ret] at hout
  cases hout
  obtain rfl : code = .errNone := hcode
  rcases networkPut_run hput with ⟨n,contacted,outcomes,hquorum,hloop⟩ | ⟨-,hsocket,-⟩
  · have hcount := putRecvLoop_run hloop
    omega
  · cases hsocket

/-- A get without error has a value that it has received `R` or 128 times. -/
theorem Operation.run_get (h : client.Ready) (hR : client.args.R ≤ intMax ∨ client.args.N < 128)
    (hin : ∀ d, some d ∈ inputs → IsReply d)
    (hrun : ((Operation.get k).program sha1 client).run inputs = some (out,unread))
    (hcode : out.code = .errNone) :
    ∃ v, out.value = some v ∧ min client.args.R 128 ≤ inputs.countP fun input => input.any (isValue v) := by
  cases hlong : tooLong k with
  | true =>
    rw [program_tooLong hlong,Prog.run_ret] at hrun
    cases hrun
    exact absurd hcode nofun
  | false =>
    rw [program_get h sha1 hlong,Prog.run_sendAll,Prog.run_bind] at hrun
    obtain ⟨⟨⟨result,rest⟩,unread'⟩,hloop,hout⟩ := Option.bind_eq_some_iff.mp hrun
    rw [Prog.run_ret] at hout
    cases hout
    have htally : Tally True (.empty h.positive.ne') [] := tally_initial h.positive.ne'
    obtain ⟨v,vs,hv,rfl,hcount⟩ := getRecvLoop_sound (by simpa using hR) htally (fun _ => rfl) hin hcode hloop
    refine ⟨v,hv,?_⟩
    rw [List.count_nil,Nat.zero_add] at hcount
    rw [List.countP_append,List.countP_map]
    refine (hcount.trans (List.countP_mono_left fun u _ hu => ?_)).trans (Nat.le_add_right _ _)
    rw [eq_of_beq hu]
    exact decide_eq_true rfl

end Results

variable {sha1 : Bytes → Digest} {clients : ℕ → Client} {calls : ℕ → Operation} {servers : SockAddr → Htable}
  {es : List (Event SockAddr Datagram Outcome)} {w : SharedWorld SockAddr Htable Datagram Outcome} {i : ℕ}
  {a : SockAddr} {d : Datagram} {rs : List Datagram} {k v : CString} {out : Outcome}

/-- The value that server `a` is told to bind to `k` in this event. -/
def putAt? (k : CString) (a : SockAddr) (e : Event SockAddr Datagram Outcome) : Option CString :=
  (e.handledAt? a).bind (boundBy? k)

theorem putAt?_eq_some {e : Event SockAddr Datagram Outcome} :
    putAt? k a e = some v ↔ ∃ d, e.handled? = some (a,d) ∧ dispatch d = some (.put k v) := by
  simp only [putAt?,Option.bind_eq_some_iff,Event.handledAt?_eq_some,boundBy?_eq_some]

/-- The last value that server `a` was told to bind to `k`. -/
def lastPut? (k : CString) (a : SockAddr) (es : List (Event SockAddr Datagram Outcome)) : Option CString :=
  (es.filterMap (putAt? k a)).getLast?

theorem exists_put_of_lastPut (h : lastPut? k a es = some v) :
    ∃ before e after d, es = before ++ e::after ∧ e.handled? = some (a,d) ∧ dispatch d = some (.put k v) ∧
      ∀ e ∈ after, putAt? k a e = none := by
  obtain ⟨before,e,after,hes,he,hafter⟩ := exists_last_of_filterMap h
  obtain ⟨d,hd,hdis⟩ := putAt?_eq_some.mp he
  exact ⟨before,e,after,d,hes,hd,hdis,hafter⟩

theorem lastPut_ne_none {e : Event SockAddr Datagram Outcome} (he : e ∈ es) (hput : putAt? k a e = some v) :
    lastPut? k a es ≠ none :=
  List.getLast?_eq_none_iff.not.mpr (List.ne_nil_of_mem (List.mem_filterMap.mpr ⟨e,he,hput⟩))

/-- A call that sends something has a ring with enough servers. -/
theorem ready_of_served (hN : 0 < (clients i).args.N) (hrun : SharedRun (sharedDht sha1 clients calls) servers es w)
    (hserved : .served i a d rs ∈ es) : (clients i).Ready := by
  have hsent := (hrun.netInvariant i).served i a d rs hserved
  have hmem : (Action.sent a d : Action SockAddr Datagram) ∈ es.filterMap (Event.action? i) :=
    List.mem_filterMap.mpr ⟨_,hsent,if_pos rfl⟩
  obtain ⟨q,hexec⟩ := hrun.exec i
  rcases Operation.ready_or_silent hN sha1 (calls i) with h | hfault | ⟨out,-,hret⟩
  · exact h
  · change Exec ((calls i).program sha1 (clients i)) _ q at hexec
    rw [hfault] at hexec
    exact absurd (hexec.of_fault.1 ▸ hmem) List.not_mem_nil
  · change Exec ((calls i).program sha1 (clients i)) _ q at hexec
    rw [hret] at hexec
    exact absurd (hexec.of_ret.1 ▸ hmem) List.not_mem_nil

theorem ready_of_returned (hN : 0 < (clients i).args.N) (hrun : SharedRun (sharedDht sha1 clients calls) servers es w)
    (hret : .returned i out ∈ es) (hcode : out.code = .errNone) : (clients i).Ready := by
  have hres := hrun.returned hret
  change ((calls i).program sha1 (clients i)).run _ = _ at hres
  rcases Operation.ready_or_silent hN sha1 (calls i) with h | hfault | ⟨out',hcode',hret'⟩
  · exact h
  · rw [hfault] at hres
    generalize (es.filterMap (Event.action? i)).filterMap Action.input? = inputs at hres
    cases inputs <;> cases hres
  · rw [hret',Prog.run_ret] at hres
    obtain ⟨rfl,-⟩ := Prod.mk.inj (Option.some.inj hres)
    exact absurd hcode hcode'

theorem mem_servers_of_served (h : (clients i).Ready) (hrun : SharedRun (sharedDht sha1 clients calls) servers es w)
    (hserved : .served i a d rs ∈ es) :
    a ∈ (clients i).servers sha1 (calls i).key ∧ d = (calls i).message :=
  hrun.mem_of_served (Operation.sends h sha1 (calls i)) hserved

private theorem mem_servers_of_received (h : (clients i).Ready) (hrun : SharedRun (sharedDht sha1 clients calls) servers es w)
    (hkey : (calls i).key = k) (Q : Datagram → Bool) :
    es.filterMap (Event.receivedFrom? i Q) ⊆ (clients i).servers sha1 k :=
  fun a ha => by
    obtain ⟨d,hd,-⟩ := exists_received_of_mem ha
    obtain ⟨m,rs,hserved,-⟩ := (hrun.netInvariant i).received i a d hd
    exact hkey ▸ (mem_servers_of_served h hrun hserved).1

/-- A served call is answered by what its message means for the table at that time. -/
theorem answer_of_split (hrun : SharedRun (sharedDht sha1 clients calls) servers es w)
    (hreach : ∀ a, ReachableTable (servers a)) {before after : List (Event SockAddr Datagram Outcome)}
    (hes : es = before ++ .served i a d rs::after) :
    d.length ≤ maxMsgSize ∧ ∃ (m m₀ : ServerMap) (r : Request), servers a = m₀.table ∧ RequestSized m ∧ Denotes d r ∧
      rs = r.answer m ∧ ∀ k, m.lookup k = (lastPut? k a before).or (m₀.lookup k) := by
  obtain ⟨w₁,w₂,hbefore,hstep⟩ := hrun.split hes
  obtain ⟨table,hlen,hserve⟩ := hstep.handle_of_served
  obtain ⟨m₀,hm₀,-⟩ := (hreach a).exists_map
  obtain ⟨m,hm,hsized⟩ := (reachableTable_of_sharedRun hbefore hreach a).exists_map
  rw [hm] at hserve
  obtain ⟨r,hr,-,hrs⟩ := serve_cases hlen hserve
  refine ⟨hlen,m,m₀,r,hm₀,hsized,hr,hrs,fun k => ?_⟩
  rw [lookup_of_sharedRun hbefore hm₀ hm k,List.filterMap_filterMap]
  rfl

theorem length_of_served (hrun : SharedRun (sharedDht sha1 clients calls) servers es w)
    (hreach : ∀ a, ReachableTable (servers a)) (hserved : .served i a d rs ∈ es) : d.length ≤ maxMsgSize := by
  obtain ⟨before,after,hes⟩ := List.append_of_mem hserved
  exact (answer_of_split hrun hreach hes).1

/-- A served get of a key is answered by its value, or by a zero. -/
theorem answer_of_get (h : (clients i).Ready) (hrun : SharedRun (sharedDht sha1 clients calls) servers es w)
    (hreach : ∀ a, ReachableTable (servers a)) (hcall : calls i = .get k) (hk : k ≠ .empty)
    {before after : List (Event SockAddr Datagram Outcome)} (hes : es = before ++ .served i a d rs::after) :
    ∃ (m m₀ : ServerMap), servers a = m₀.table ∧ rs = [getReply (m.lookup k)] ∧
      m.lookup k = (lastPut? k a before).or (m₀.lookup k) := by
  have hserved : .served i a d rs ∈ es := hes ▸ List.mem_append_right _ List.mem_cons_self
  obtain ⟨-,hmsg⟩ := mem_servers_of_served h hrun hserved
  obtain ⟨hlen,m,m₀,r,hm₀,-,hr,rfl,hlookup⟩ := answer_of_split hrun hreach hes
  rw [hcall] at hmsg
  subst hmsg
  have hdis := dispatch_of_denotes hr hlen
  rw [Operation.message,dispatch_chars k hlen,if_neg hk] at hdis
  obtain rfl := Option.some.inj hdis
  exact ⟨m,m₀,hm₀,rfl,hlookup k⟩

/-- A served get is answered once; the empty key is taken for a check. -/
theorem reply_of_get (h : (clients i).Ready) (hrun : SharedRun (sharedDht sha1 clients calls) servers es w)
    (hreach : ∀ a, ReachableTable (servers a)) (hcall : calls i = .get k) (hserved : .served i a d rs ∈ es) :
    ∃ d, rs = [d] ∧ IsReply d := by
  obtain ⟨before,after,hes⟩ := List.append_of_mem hserved
  obtain ⟨-,hmsg⟩ := mem_servers_of_served h hrun hserved
  obtain ⟨hlen,m,m₀,r,-,hsized,hr,rfl,-⟩ := answer_of_split hrun hreach hes
  rw [hcall] at hmsg
  subst hmsg
  have hdis := dispatch_of_denotes hr hlen
  rw [Operation.message,dispatch_chars k hlen] at hdis
  split at hdis
  · obtain rfl := Option.some.inj hdis
    refine ⟨[],rfl,some .empty,rfl,fun v hv => ?_⟩
    obtain rfl := Option.some.inj hv
    decide
  · obtain rfl := Option.some.inj hdis
    refine ⟨getReply (m.lookup k),rfl,m.lookup k,rfl,fun v hv => ?_⟩
    have hsize := hsized _ (m.lookup_eq_some_iff_mem.mp hv)
    dsimp only at hsize
    omega

theorem isReply_of_received (h : (clients i).Ready) (hrun : SharedRun (sharedDht sha1 clients calls) servers es w)
    (hreach : ∀ a, ReachableTable (servers a)) (hcall : calls i = .get k) (hd : .received i a d ∈ es) :
    IsReply d := by
  obtain ⟨m,rs,hserved,hmem⟩ := (hrun.netInvariant i).received i a d hd
  obtain ⟨d',rfl,hreply⟩ := reply_of_get h hrun hreach hcall hserved
  exact List.mem_singleton.mp hmem ▸ hreply

theorem one_answer_of_get (h : (clients i).Ready) (hrun : SharedRun (sharedDht sha1 clients calls) servers es w)
    (hreach : ∀ a, ReachableTable (servers a)) (hcall : calls i = .get k) (Q : Datagram → Bool)
    (a : SockAddr) (d : Datagram) (rs : List Datagram) (hserved : .served i a d rs ∈ es) : rs.countP Q ≤ 1 := by
  obtain ⟨d',rfl,-⟩ := reply_of_get h hrun hreach hcall hserved
  exact List.countP_le_length

/-- A served put is executed and acknowledged once. -/
theorem put_of_served (h : (clients i).Ready) (hrun : SharedRun (sharedDht sha1 clients calls) servers es w)
    (hreach : ∀ a, ReachableTable (servers a)) (hcall : calls i = .put k v) (hne : k ≠ .empty ∨ v ≠ .empty)
    (hserved : .served i a d rs ∈ es) : rs = [[]] ∧ putAt? k a (.served i a d rs) = some v := by
  obtain ⟨before,after,hes⟩ := List.append_of_mem hserved
  obtain ⟨-,hmsg⟩ := mem_servers_of_served h hrun hserved
  obtain ⟨hlen,m,m₀,r,-,-,hr,rfl,-⟩ := answer_of_split hrun hreach hes
  rw [hcall] at hmsg
  subst hmsg
  have hdis := dispatch_of_denotes (Operation.denotes_put hne) hlen
  rw [dispatch_of_denotes hr hlen] at hdis
  obtain rfl := Option.some.inj hdis
  exact ⟨rfl,putAt?_eq_some.mpr ⟨_,rfl,dispatch_of_denotes hr hlen⟩⟩

theorem one_answer_of_put (h : (clients i).Ready) (hrun : SharedRun (sharedDht sha1 clients calls) servers es w)
    (hreach : ∀ a, ReachableTable (servers a)) (hcall : calls i = .put k v) (hne : k ≠ .empty ∨ v ≠ .empty)
    (Q : Datagram → Bool) (a : SockAddr) (d : Datagram) (rs : List Datagram) (hserved : .served i a d rs ∈ es) :
    rs.countP Q ≤ 1 := by
  rw [(put_of_served h hrun hreach hcall hne hserved).1]
  exact List.countP_le_length

theorem received_of_put (hrun : SharedRun (sharedDht sha1 clients calls) servers es w) (hcall : calls i = .put k v)
    (hret : .returned i out ∈ es) (hcode : out.code = .errNone) :
    (clients i).args.W ≤ (es.filterMap (Event.receivedFrom? i fun _ => true)).length := by
  have hres := hrun.returned hret
  change ((calls i).program sha1 (clients i)).run _ = _ at hres
  rw [hcall] at hres
  have hany : (fun input : Option Datagram => input.any fun _ => true) = Option.isSome := by
    funext input
    cases input <;> rfl
  rw [length_receivedFrom,hany]
  exact Operation.run_put hres hcode

theorem received_of_get (h : (clients i).Ready) (hrun : SharedRun (sharedDht sha1 clients calls) servers es w)
    (hreach : ∀ a, ReachableTable (servers a)) (hR : (clients i).args.R ≤ intMax ∨ (clients i).args.N < 128)
    (hcall : calls i = .get k) (hret : .returned i out ∈ es) (hcode : out.code = .errNone) :
    ∃ v, out.value = some v ∧
      min (clients i).args.R 128 ≤ (es.filterMap (Event.receivedFrom? i (isValue v))).length := by
  have hres := hrun.returned hret
  change ((calls i).program sha1 (clients i)).run _ = _ at hres
  rw [hcall] at hres
  simp only [length_receivedFrom]
  refine Operation.run_get h hR (fun d hd => ?_) hres hcode
  obtain ⟨a,ha⟩ := mem_inputs hd
  exact isReply_of_received h hrun hreach hcall ha

/-- The servers whose acknowledgements a put without error has received. -/
theorem exists_acked (h : (clients i).Ready) (hrun : SharedRun (sharedDht sha1 clients calls) servers es w)
    (hreach : ∀ a, ReachableTable (servers a)) (hcall : calls i = .put k v) (hk : k ≠ .empty)
    (hdup : ∀ p, .duplicated p ∉ es) (hret : .returned i out ∈ es) (hcode : out.code = .errNone) :
    ∃ S : List SockAddr, S.Nodup ∧ S ⊆ (clients i).servers sha1 k ∧ (clients i).args.W ≤ S.length ∧
      ∀ a ∈ S, ∃ d, .received i a d ∈ es := by
  have hsent := hrun.nodup_sentTo ((clients i).nodup_servers sha1 _) (Operation.sends h sha1 (calls i))
  refine ⟨es.filterMap (Event.receivedFrom? i fun _ => true),
    hrun.nodup_received hsent (one_answer_of_put h hrun hreach hcall (Or.inl hk) _) hdup,
    mem_servers_of_received h hrun (congrArg Operation.key hcall) _,received_of_put hrun hcall hret hcode,fun a ha => ?_⟩
  obtain ⟨d,hd,-⟩ := exists_received_of_mem ha
  exact ⟨d,hd⟩

/-- The servers that have sent a get without error its value. -/
theorem exists_voters (h : (clients i).Ready) (hN : (clients i).args.N ≤ 127)
    (hrun : SharedRun (sharedDht sha1 clients calls) servers es w) (hreach : ∀ a, ReachableTable (servers a))
    (hcall : calls i = .get k) (hdup : ∀ p, .duplicated p ∉ es) (hret : .returned i out ∈ es)
    (hcode : out.code = .errNone) :
    ∃ v, out.value = some v ∧ ∃ S : List SockAddr, S.Nodup ∧ S ⊆ (clients i).servers sha1 k ∧
      (clients i).args.R ≤ S.length ∧ ∀ a ∈ S, .received i a v.chars ∈ es := by
  have hsent := hrun.nodup_sentTo ((clients i).nodup_servers sha1 _) (Operation.sends h sha1 (calls i))
  obtain ⟨v,hv,hcount⟩ := received_of_get h hrun hreach (Or.inr (Nat.lt_succ_of_le hN)) hcall hret hcode
  have hnodup := hrun.nodup_received hsent (one_answer_of_get h hrun hreach hcall (isValue v)) hdup
  have hsub : es.filterMap (Event.receivedFrom? i (isValue v)) ⊆ (clients i).servers sha1 k :=
    mem_servers_of_received h hrun (congrArg Operation.key hcall) _
  have hle := (hnodup.subperm hsub).length_le
  rw [h.length_servers sha1 k] at hle
  refine ⟨v,hv,_,hnodup,hsub,by omega,fun a ha => ?_⟩
  obtain ⟨d,hd,hQ⟩ := exists_received_of_mem ha
  exact of_decide_eq_true hQ ▸ hd

end PpsDht
