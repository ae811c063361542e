import PpsDht.DatagramCounting
import PpsDht.DhtNetwork

/-! # The servers among many clients

Whatever programs the clients run, a server is its main loop on the datagrams that
reach it, in the order in which it takes them. A key is bound by the last put among
them. -/
namespace PpsDht
open Mem SocketPrograms DatagramNetworks

variable {ρ : Type}

/-- The servers, with any programs as their clients. -/
def serverNetwork (calls : ℕ → Prog SockAddr Datagram ρ) : System SockAddr Htable Datagram ρ where
  calls := calls
  handle table d table' replies := d.length ≤ maxMsgSize ∧ Succeeds (serve table d) (table',replies)
  sendable d := d.length ≤ maxMsgSize

/-- The value that the datagram binds to `k`. -/
def boundBy? (k : CString) (d : Datagram) : Option CString :=
  match dispatch d with
  | some (.put k' v) => if k' = k then some v else none
  | _ => none

theorem boundBy?_eq_some {k v : CString} {d : Datagram} :
    boundBy? k d = some v ↔ dispatch d = some (.put k v) := by
  rw [boundBy?]
  split
  · rename_i k' v' hdis
    rw [hdis,Option.ite_none_right_eq_some]
    constructor
    · rintro ⟨rfl,hv⟩
      rw [Option.some.inj hv]
    · intro h
      obtain ⟨rfl,rfl⟩ := Request.put.inj (Option.some.inj h)
      exact ⟨rfl,rfl⟩
  · rename_i hnot
    exact ⟨nofun,fun h => absurd h (hnot k v)⟩

private theorem lookup_apply {m : ServerMap} {d : Datagram} {r : Request} (hr : Denotes d r)
    (hd : d.length ≤ maxMsgSize) (k : CString) : (r.apply m).lookup k = (boundBy? k d).or (m.lookup k) := by
  rw [boundBy?,dispatch_of_denotes hr hd]
  cases r with
  | check | dump | get => rfl
  | put k' v =>
    rw [Request.apply,ChainedMap.lookup_add]
    by_cases hk : k = k'
    · simp [hk]
    · simp [hk,Ne.symm hk]

/-- A run of the main loop is one turn, which its datagram denotes, and a run on the rest. -/
theorem serveAll_cons {m : ServerMap} {d : Datagram} (hd : d.length ≤ maxMsgSize) {ds : List Datagram}
    {table : Htable} {sent : List (List Datagram)} (h : Succeeds (serveAll m.table (d::ds)) (table,sent)) :
    ∃ r rest, Denotes d r ∧ Succeeds (serve m.table d) ((r.apply m).table,r.answer m) ∧
      sent = r.answer m::rest ∧ Succeeds (serveAll (r.apply m).table ds) (table,rest) := by
  obtain ⟨r,hr⟩ := exists_denotes d
  have hdis := dispatch_of_denotes hr hd
  have hdump : r = .dump → DumpFits m := by
    rintro rfl
    by_contra hfit
    exact ((serve_faults hdis hfit).bind _).not_succeeds _ h
  have hserve := serve_succeeds hdis hdump
  rw [serveAll,Succeeds,hserve.bind_apply] at h
  obtain ⟨⟨table',rest⟩,hrest,heq⟩ := Succeeds.of_bind_pure (m := serveAll (r.apply m).table ds) h
  obtain ⟨rfl,rfl⟩ := Prod.mk.inj heq
  exact ⟨r,rest,hr,hserve,rfl,hrest⟩

/-- The main loop leaves each key bound by the last put for it, if there was any. -/
theorem serveAll_lookup {m : ServerMap} {ds : List Datagram} (hds : ∀ d ∈ ds, d.length ≤ maxMsgSize)
    {table : Htable} {sent : List (List Datagram)} (h : Succeeds (serveAll m.table ds) (table,sent)) :
    ∃ m' : ServerMap, table = m'.table ∧
      ∀ k, m'.lookup k = (ds.filterMap (boundBy? k)).getLast?.or (m.lookup k) := by
  induction ds generalizing m sent with
  | nil => exact ⟨m,(Prod.mk.inj (h.unique (.pure _))).1,fun _ => rfl⟩
  | cons d ds ih =>
    have hd := hds d List.mem_cons_self
    obtain ⟨r,rest,hr,-,-,hall⟩ := serveAll_cons hd h
    obtain ⟨m',rfl,hlookup⟩ := ih (fun d hd => hds d (List.mem_cons_of_mem _ hd)) hall
    refine ⟨m',rfl,fun k => ?_⟩
    rw [hlookup k,lookup_apply hr hd,List.filterMap_cons]
    cases boundBy? k d with
    | none => rfl
    | some v =>
      dsimp only
      rw [List.getLast?_cons,Option.some_or]
      cases (ds.filterMap (boundBy? k)).getLast? <;> rfl

private theorem serveAll_concat {m : ServerMap} {table table' : Htable} {ds : List Datagram}
    (hds : ∀ d ∈ ds, d.length ≤ maxMsgSize) {sent : List (List Datagram)}
    (h : Succeeds (serveAll m.table ds) (table,sent)) {d : Datagram} {rs : List Datagram}
    (hserve : Succeeds (serve table d) (table',rs)) :
    Succeeds (serveAll m.table (ds ++ [d])) (table',sent ++ [rs]) := by
  induction ds generalizing m sent with
  | nil =>
    obtain ⟨rfl,rfl⟩ := Prod.mk.inj (h.unique (.pure _))
    exact hserve.bind (.bind (.pure _) (.pure _))
  | cons d' ds ih =>
    obtain ⟨r,rest,-,hfirst,rfl,hall⟩ := serveAll_cons (hds d' List.mem_cons_self) h
    exact hfirst.bind ((ih (fun d hd => hds d (List.mem_cons_of_mem _ hd)) hall).bind (.pure _))

variable {calls : ℕ → Prog SockAddr Datagram ρ} {servers : SockAddr → Htable}
  {es : List (Event SockAddr Datagram ρ)} {w : SharedWorld SockAddr Htable Datagram ρ}

private theorem handledAt?_eq_none {a b : SockAddr} {d : Datagram} {e : Event SockAddr Datagram ρ}
    (h : e.handled? = some (b,d)) (hb : b ≠ a) : e.handledAt? a = none :=
  Option.eq_none_iff_forall_ne_some.mpr fun _ hd =>
    hb (Prod.mk.inj (Option.some.inj (h.symm.trans (Event.handledAt?_eq_some.mp hd)))).1

/-- Each server has run its main loop on the datagrams that it took. -/
theorem exists_serveAll (hrun : SharedRun (serverNetwork calls) servers es w) {a : SockAddr} {m₀ : ServerMap}
    (hm₀ : servers a = m₀.table) :
    (∀ d ∈ es.filterMap (Event.handledAt? a), d.length ≤ maxMsgSize) ∧
      ∃ sent, Succeeds (serveAll (servers a) (es.filterMap (Event.handledAt? a))) (w.servers a,sent) := by
  induction hrun with
  | start => exact ⟨nofun,[],.pure _⟩
  | step _ hs ih =>
    obtain ⟨hds,sent,hall⟩ := ih
    rw [filterMap_concat]
    rcases hs.handles with ⟨hnone,hservers⟩ | ⟨b,d,table,rs,hsome,⟨hlen,hserve⟩,hservers⟩
    · rw [Event.handledAt?,hnone,hservers,Option.filter_none,Option.map_none,Option.toList_none,List.append_nil]
      exact ⟨hds,sent,hall⟩
    · rw [hservers]
      by_cases hb : b = a
      · subst hb
        rw [Event.handledAt?_eq_some.mpr hsome,Function.update_self]
        rw [hm₀] at hall ⊢
        refine ⟨fun d' hd' => ?_,_,serveAll_concat hds hall hserve⟩
        rcases List.mem_append.mp hd' with hd' | hd'
        · exact hds d' hd'
        · exact List.mem_singleton.mp hd' ▸ hlen
      · rw [handledAt?_eq_none hsome hb,Function.update_of_ne (Ne.symm hb),Option.toList_none,List.append_nil]
        exact ⟨hds,sent,hall⟩

theorem lookup_of_sharedRun (hrun : SharedRun (serverNetwork calls) servers es w) {a : SockAddr} {m₀ m : ServerMap}
    (hm₀ : servers a = m₀.table) (hm : w.servers a = m.table) (k : CString) : m.lookup k =
      ((es.filterMap (Event.handledAt? a)).filterMap (boundBy? k)).getLast?.or (m₀.lookup k) := by
  obtain ⟨hds,sent,hall⟩ := exists_serveAll hrun hm₀
  rw [hm₀] at hall
  obtain ⟨m',hm',hlookup⟩ := serveAll_lookup hds hall
  have hget := getHtableValue_succeeds m k
  rw [← hm,hm'] at hget
  rw [hget.unique (getHtableValue_succeeds m' k),hlookup k]

theorem reachableTable_of_sharedRun (hrun : SharedRun (serverNetwork calls) servers es w)
    (hreach : ∀ a, ReachableTable (servers a)) (a : SockAddr) : ReachableTable (w.servers a) :=
  hrun.servers_rule hreach (fun _ _ _ _ h hhandle => .step h hhandle.1 hhandle.2) a

end PpsDht
