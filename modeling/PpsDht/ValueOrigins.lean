import PpsDht.FreshGets
import PpsDht.ServerStates

/-! # Where the values of gets come from

Allocations fail on clients and servers, packets are lost, duplicated and reordered, and any
number of clients call at the same time. Still a value that a get returns was put under its
key. -/
namespace PpsDht
open Mem Net SocketPrograms DatagramNetworks

/-- The call of the library on a client where these allocations fail. -/
def Operation.programWith (sha1 : Bytes → Digest) (client : Client) (outcomes : Outcomes) :
    Operation → Prog SockAddr Datagram Outcome
  | put k v => networkPut sha1 client (some k) (some v) outcomes >>= fun r => .ret ⟨r.1,none⟩
  | get k => networkGet sha1 client (some k) none outcomes >>= fun r => .ret r.1

/-- Clients and servers on which any allocation may fail. -/
def failingDht (sha1 : Bytes → Digest) (clients : ℕ → Client) (calls : ℕ → Operation) (outcomes : ℕ → Outcomes) :
    System SockAddr Htable Datagram Outcome where
  calls i := (calls i).programWith sha1 (clients i) (outcomes i)
  handle table d table' replies := d.length ≤ maxMsgSize ∧
    ∃ outcomes rest, serve table d outcomes = some ((table',replies),rest)
  sendable d := d.length ≤ maxMsgSize

private theorem Operation.programWith_onlySends (sha1 : Bytes → Digest) (client : Client) (outcomes : Outcomes)
    (op : Operation) : (op.programWith sha1 client outcomes).OnlySends (· = op.message) := by
  cases op with
  | put k v => exact (networkPut_onlySends sha1 client k v outcomes).bind fun _ => trivial
  | get k => exact (networkGet_onlySends sha1 client k none outcomes).bind fun _ => trivial

/-- A value out of the receive loop is what one of the replies reads. -/
theorem getRecvLoop_value {R n : ℕ} {table : Htable} {outcomes rest : Outcomes}
    {inputs unread : List (Option Datagram)} {v : CString}
    (hrun : (getRecvLoop R n table outcomes).run inputs = some ((⟨.errNone,some v⟩,rest),unread)) :
    ∃ d, some d ∈ inputs ∧ readReply d = some (some v) := by
  induction n generalizing table outcomes inputs with
  | zero =>
    rw [getRecvLoop_zero] at hrun
    cases hrun
  | succ n ih =>
    cases inputs with
    | nil => exact absurd hrun nofun
    | cons input inputs =>
      cases input with
      | none =>
        rw [getRecvLoop_timedOut] at hrun
        cases hrun
      | some d =>
        rw [getRecvLoop_readReply] at hrun
        obtain ⟨reply,hreply,hrest⟩ := Option.bind_eq_some_iff.mp hrun
        cases reply with
        | none => cases hrest
        | some u =>
          obtain ⟨p,rest₁,-,hvote⟩ := of_liftM_run hrest
          by_cases hreached : R ≤ p.1
          · rw [afterVote_run hreached] at hvote
            split at hvote
            · cases hvote
              exact ⟨d,List.mem_cons_self,hreply⟩
            · cases hvote
          · rw [afterVote,if_neg hreached] at hvote
            obtain ⟨d',hd',hread⟩ := ih hvote
            exact ⟨d',List.mem_cons_of_mem _ hd',hread⟩

variable {sha1 : Bytes → Digest} {clients : ℕ → Client} {calls : ℕ → Operation} {outcomes : ℕ → Outcomes}
  {servers : SockAddr → Htable} {es : List (Event SockAddr Datagram Outcome)}
  {w w' : SharedWorld SockAddr Htable Datagram Outcome} {e : Event SockAddr Datagram Outcome}
  {a : SockAddr} {d : Datagram} {k v : CString} {p : Pair} {i : ℕ}

/-- The server had the pair from the start or was told to store it. -/
def Originates (servers : SockAddr → Htable) (es : List (Event SockAddr Datagram Outcome)) (a : SockAddr)
    (p : Pair) : Prop :=
  (∃ pairs, Stores (servers a) pairs ∧ p ∈ pairs) ∨ ∃ e ∈ es, putAt? p.1 a e = some p.2

theorem Originates.mono (h : Originates servers es a p) (es' : List (Event SockAddr Datagram Outcome)) :
    Originates servers (es ++ es') a p :=
  h.imp_right fun ⟨e,he,hput⟩ => ⟨e,List.mem_append_left _ he,hput⟩

/-- A turn of the main loop adds the pair of its put at most. -/
theorem serve_pairs {table table' : Htable} (h : ServerState table) {os rest : Outcomes} {sent : List Datagram}
    (hserve : serve table d os = some ((table',sent),rest)) {pairs' : List Pair} (hpairs' : Stores table' pairs')
    (hp : p ∈ pairs') : dispatch d = some (.put p.1 p.2) ∨ ∃ pairs, Stores table pairs ∧ p ∈ pairs := by
  rcases serve_table hserve with rfl | ⟨k,v,code,hdis,hadd⟩
  · exact Or.inr ⟨pairs',hpairs',hp⟩
  · rcases h.cases with rfl | ⟨m,rfl,-⟩
    · cases hadd
      rw [hpairs'.eq stores_missing] at hp
      exact absurd hp List.not_mem_nil
    · rcases (addHtableValue_returns m k v).result hadd with hcase | hcase
      · rw [(Prod.mk.inj hcase).2] at hpairs'
        rw [hpairs'.eq (m.add k v).stores] at hp
        rcases ChainedMap.mem_pairs_add hp with rfl | hp
        · exact Or.inl hdis
        · exact Or.inr ⟨m.pairs,m.stores,hp⟩
      · rw [(Prod.mk.inj hcase).2] at hpairs'
        exact Or.inr ⟨pairs',hpairs',hp⟩

private theorem serverState_of_run (hrun : SharedRun (failingDht sha1 clients calls outcomes) servers es w)
    (hstates : ∀ a, ServerState (servers a)) (a : SockAddr) : ServerState (w.servers a) :=
  hrun.servers_rule hstates (fun _ _ _ _ h ⟨hlen,_,_,hserve⟩ => .step h hlen hserve) a

/-- At any time the pairs of each server have an origin. -/
theorem originates_of_run (hrun : SharedRun (failingDht sha1 clients calls outcomes) servers es w)
    (hstates : ∀ a, ServerState (servers a)) {pairs : List Pair} (hpairs : Stores (w.servers a) pairs)
    (hp : p ∈ pairs) : Originates servers es a p := by
  induction hrun generalizing pairs with
  | start => exact Or.inl ⟨pairs,hpairs,hp⟩
  | step hrun hs ih =>
    rcases hs.handles with ⟨-,hservers⟩ | ⟨b,d,table,rs,hsome,⟨-,os,rest,hserve⟩,hservers⟩
    · rw [hservers] at hpairs
      exact (ih hpairs hp).mono _
    · rw [hservers] at hpairs
      by_cases hb : a = b
      · subst hb
        rw [Function.update_self] at hpairs
        rcases serve_pairs (serverState_of_run hrun hstates a) hserve hpairs hp with hdis | ⟨pairs',hpairs',hp'⟩
        · exact Or.inr ⟨_,List.mem_append_right _ (List.mem_singleton_self _),putAt?_eq_some.mpr ⟨d,hsome,hdis⟩⟩
        · exact (ih hpairs' hp').mono _
      · rw [Function.update_of_ne hb] at hpairs
        exact (ih hpairs hp).mono _

/-- A message that a call sent, and so any server served, is that of its operation. -/
theorem message_of_served (hrun : SharedRun (failingDht sha1 clients calls outcomes) servers es w)
    {rs : List Datagram} (hserved : .served i a d rs ∈ es) : .sent i a d ∈ es ∧ d = (calls i).message := by
  have hsent := (hrun.netInvariant i).served i a d rs hserved
  obtain ⟨q,hexec⟩ := hrun.exec i
  exact ⟨hsent,hexec.onlySends (Operation.programWith_onlySends sha1 (clients i) (outcomes i) (calls i))
    (List.mem_filterMap.mpr ⟨_,hsent,if_pos rfl⟩)⟩

/-- The datagram was put by a call or came from outside. -/
theorem exists_put (hrun : SharedRun (failingDht sha1 clients calls outcomes) servers es w) (he : e ∈ es)
    (hput : putAt? k a e = some v) :
    (∃ l d, calls l = .put k v ∧ .sent l a d ∈ es) ∨ ∃ d, .foreign a d ∈ es ∧ dispatch d = some (.put k v) := by
  obtain ⟨d,hhandled,hdis⟩ := putAt?_eq_some.mp hput
  cases e with
  | served l b d' rs =>
    obtain ⟨rfl,rfl⟩ := Prod.mk.inj (Option.some.inj hhandled)
    obtain ⟨hsent,hmsg⟩ := message_of_served hrun he
    obtain ⟨before,after,hes⟩ := List.append_of_mem he
    obtain ⟨w₁,w₂,-,hstep⟩ := hrun.split hes
    obtain ⟨table,hlen,-⟩ := hstep.handle_of_served
    rw [hmsg] at hlen hdis
    exact Or.inl ⟨l,d',Operation.eq_put hlen ((dispatch_iff hlen _).mp hdis),hsent⟩
  | foreign b d' =>
    obtain ⟨rfl,rfl⟩ := Prod.mk.inj (Option.some.inj hhandled)
    exact Or.inr ⟨d',he,hdis⟩
  | _ => cases hhandled

/-- A reply from which a get reads a value is that of a server that stores it. -/
theorem stored_of_reply (hrun : SharedRun (failingDht sha1 clients calls outcomes) servers es w)
    (hstates : ∀ a, ServerState (servers a)) (hget : calls i = .get k) (hk : k ≠ .empty)
    (hd : .received i a d ∈ es) (hread : readReply d = some (some v)) : Originates servers es a (k,v) := by
  obtain ⟨q,rs,hserved,hmem⟩ := (hrun.netInvariant i).received i a d hd
  obtain ⟨-,hq⟩ := message_of_served hrun hserved
  rw [hget] at hq
  subst hq
  obtain ⟨before,after,hes⟩ := List.append_of_mem hserved
  obtain ⟨w₁,w₂,hbefore,hstep⟩ := hrun.split hes
  obtain ⟨table,hlen,os,rest,hserve⟩ := hstep.handle_of_served
  have hdis : dispatch (Operation.get k).message = some (.get k) := by
    rw [Operation.message,dispatch_chars k hlen,if_neg hk]
  have hstate := serverState_of_run hbefore hstates a
  obtain ⟨pairs,hpairs,hsized⟩ := hstate.exists_stores
  rw [serve_get hdis,Option.map_eq_some_iff] at hserve
  obtain ⟨⟨o,rest'⟩,hlookup,heq⟩ := hserve
  obtain ⟨⟨-,rfl⟩,-⟩ := heq
  rw [List.mem_singleton.mp hmem] at hread
  rcases hstate.get_cases hpairs hlookup with rfl | rfl
  · cases hread
  · have hsize : ∀ u, pairs.lookup k = some u → u.length < maxMsgSize := fun u hu => by
      have hpair := hsized (k,u) ((AssociationLists.lookup_eq_some_iff hpairs.unique).mp hu)
      dsimp only at hpair
      omega
    rw [readReply_getReply hsize] at hread
    have hpair := (AssociationLists.lookup_eq_some_iff hpairs.unique).mp (Option.some.inj hread)
    exact hes ▸ (originates_of_run hbefore hstates hpairs hpair).mono _

/-- In every run of any number of clients, with packets lost, duplicated and reordered and
allocations failing anywhere, a value that a get of a key returns was stored by a server at
the start, or a call or a foreign message had put it under this key before. -/
theorem get_valid (sha1 : Bytes → Digest) (clients : ℕ → Client) (calls : ℕ → Operation)
    (outcomes : ℕ → Outcomes) (servers : SockAddr → Htable) (es : List (Event SockAddr Datagram Outcome))
    (w : SharedWorld SockAddr Htable Datagram Outcome) (j : ℕ) (k v : CString)
    (hstates : ∀ a, ServerState (servers a))
    (hrun : SharedRun (failingDht sha1 clients calls outcomes) servers
      (es ++ [.returned j ⟨.errNone,some v⟩]) w)
    (hget : calls j = .get k) (hk : k ≠ .empty) :
    (∃ a pairs, Stores (servers a) pairs ∧ (k,v) ∈ pairs) ∨
      (∃ l a d, calls l = .put k v ∧ .sent l a d ∈ es) ∨
      ∃ a d, .foreign a d ∈ es ∧ dispatch d = some (.put k v) := by
  have hres := hrun.returned (List.mem_append_right _ (List.mem_singleton_self _))
  obtain ⟨w₁,hrun₁⟩ := hrun.take rfl
  rw [List.filterMap_append] at hres
  change ((calls j).programWith sha1 (clients j) (outcomes j)).run ((_ ++ []).filterMap _) = _ at hres
  rw [List.append_nil,hget,Operation.programWith,Prog.run_bind] at hres
  obtain ⟨⟨⟨result,rest⟩,unread⟩,hloop,hout⟩ := Option.bind_eq_some_iff.mp hres
  rw [Prog.run_ret] at hout
  obtain ⟨rfl,rfl⟩ := hout
  obtain ⟨hN,n,os,hvalue⟩ := networkGet_run hloop
  obtain ⟨d,hd,hread⟩ := getRecvLoop_value hvalue
  obtain ⟨a,ha⟩ := mem_inputs hd
  rcases stored_of_reply hrun₁ hstates hget hk ha hread with ⟨pairs,hpairs,hp⟩ | ⟨e,he,hput⟩
  · exact Or.inl ⟨a,pairs,hpairs,hp⟩
  · rcases exists_put hrun₁ he hput with ⟨l,d,hcall,hsent⟩ | ⟨d,hforeign,hdis⟩
    · exact Or.inr (Or.inl ⟨l,a,d,hcall,hsent⟩)
    · exact Or.inr (Or.inr ⟨a,d,hforeign,hdis⟩)

/-- Runs where no allocation fails are such runs. -/
theorem SharedRun.failing (hrun : SharedRun (sharedDht sha1 clients calls) servers es w) :
    SharedRun (failingDht sha1 clients calls fun _ => []) servers es w :=
  hrun.mono (funext fun i => by cases hop : calls i <;> simp only [sharedDht,serverNetwork,failingDht,hop] <;> rfl)
    (fun _ => Iff.rfl) fun _ _ _ _ ⟨hlen,hserve⟩ => ⟨hlen,[],[],hserve⟩

theorem get_valid_overlapping :
    ∃ (a b : SockAddr) (w : SharedWorld SockAddr Htable Datagram Outcome),
      SharedRun (failingDht (fun _ => .zero) (fun _ => localClient 2 2 1) putThenGet fun _ => []) initialTables
        (overlappingPut a b) w ∧
      ((∃ x pairs, Stores (initialTables x) pairs ∧ (CString.letterK,CString.letterV) ∈ pairs) ∨
        (∃ l x d, putThenGet l = .put .letterK .letterV ∧ .sent l x d ∈ (overlappingPut a b).take 12) ∨
        ∃ x d, .foreign x d ∈ (overlappingPut a b).take 12 ∧ dispatch d = some (.put .letterK .letterV)) := by
  obtain ⟨a,b,w,hrun⟩ := exists_run_overlappingPut
  have hshared : SharedRun (sharedDht (fun _ => .zero) (fun _ => localClient 2 2 1) putThenGet) initialTables
      (overlappingPut a b) (w.shared _) := hrun.shared
  have hfailing := SharedRun.failing hshared
  exact ⟨a,b,_,hfailing,get_valid (fun _ => .zero) (fun _ => localClient 2 2 1) putThenGet (fun _ => [])
    initialTables ((overlappingPut a b).take 12) _ 1 .letterK .letterV (fun _ => serverState_initial) hfailing rfl
    (by decide)⟩

end PpsDht
