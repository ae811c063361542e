import PpsDht.ClientProcesses
import PpsDht.FreshGets

/-! # What the clients print

Processes with lists of servers of their own put and get the same key. When their lists
have the same lines and their quorums are large enough, a get that is started after a put
has printed its success prints no older value. -/
namespace PpsDht
open Mem Net SocketPrograms DatagramNetworks

/-- Clients whose rings hold the same nodes contact as many servers as one of them does. -/
theorem length_union_servers {client client' : Client} (sha1 : Bytes → Digest)
    (hperm : client.nodes.Perm client'.nodes) (h : SortedBySha client.nodes) (h' : SortedBySha client'.nodes)
    (hties : ∀ a ∈ client.nodes, ∀ b ∈ client.nodes, nodeCmpSha a b = 0 → a.address = b.address) (k : CString) :
    (client.servers sha1 k ∪ client'.servers sha1 k).length ≤ max client.args.N client'.args.N := by
  let all := (serversFrom client.nodes (indexOfFirstNode client.nodes (sha1 k.chars))
    (max client.args.N client'.args.N)).map Node.address
  have hsub : ∀ n ≤ max client.args.N client'.args.N, ∀ a ∈ (serversFrom client.nodes
      (indexOfFirstNode client.nodes (sha1 k.chars)) n).map Node.address, a ∈ all := fun n hn a ha =>
    List.map_subset _ (List.take_subset_take_left _ hn) ha
  have hunion : client.servers sha1 k ∪ client'.servers sha1 k ⊆ all := fun a ha => by
    rcases List.mem_union_iff.mp ha with ha | ha
    · exact hsub _ (Nat.le_max_left _ _) a ha
    · rw [Client.servers,← serversFrom_agree hperm h h' hties] at ha
      exact hsub _ (Nat.le_max_right _ _) a ha
  have hnodup : (client.servers sha1 k ∪ client'.servers sha1 k).Nodup :=
    (client'.nodup_servers sha1 k).union _
  refine (List.subperm_of_subset hnodup hunion).length_le.trans ?_
  rw [List.length_map]
  exact List.length_take_le _ _

variable {sha1 : Bytes → Digest} {inetPton : CString → Option UInt32} {sscanfD : CString → Option Int32}
  {processes : ℕ → Process} {servers : SockAddr → Htable} {es : List (Event SockAddr Datagram Output)}
  {w : SharedWorld SockAddr Htable Datagram Output}

/-- What the processes do on the network, the calls of their clients do. -/
theorem calls_of_processes
    (hrun : SharedRun (serverNetwork fun i => (processes i).program sha1 inetPton sscanfD) servers es w) :
    ∃ es₀ w₀, SharedRun (sharedDht sha1 (fun i => (processes i).client sha1 inetPton sscanfD)
      fun i => (processes i).operation sha1 inetPton sscanfD) servers es₀ w₀ ∧
      es = es₀.map (Event.mapResult fun i => (processes i).output sha1 inetPton sscanfD) := by
  have hfollows : ∀ i, Follows ((processes i).output sha1 inetPton sscanfD)
      ((serverNetwork fun i => (processes i).program sha1 inetPton sscanfD).calls i)
      ((sharedDht sha1 (fun i => (processes i).client sha1 inetPton sscanfD)
        fun i => (processes i).operation sha1 inetPton sscanfD).calls i) := fun i => (processes i).follows
  obtain ⟨es₀,w₀,hrun₀,hes,-⟩ := hrun.mirrored hfollows (fun _ => Iff.rfl) fun _ _ _ _ h => h
  exact ⟨es₀,w₀,hrun₀,hes⟩

/-- Only a process that makes the call puts a pair. -/
theorem Process.call_of_put {p : Process} {k v : CString} (h : p.operation sha1 inetPton sscanfD = .put k v) :
    p.call? sha1 inetPton sscanfD = some (p.client sha1 inetPton sscanfD,.put k v) := by
  rw [operation] at h
  rw [Process.client]
  cases hcall : p.call? sha1 inetPton sscanfD with
  | none =>
    rw [hcall] at h
    cases h
  | some call =>
    obtain ⟨client,op⟩ := call
    rw [hcall] at h
    obtain rfl : op = .put k v := h
    rfl

/-- A process that puts prints its success exactly if the call succeeds. -/
theorem Process.printed_ok {p : Process} {client : Client} {k v : CString} {out : Outcome}
    (h : p.call? sha1 inetPton sscanfD = some (client,.put k v)) :
    p.output sha1 inetPton sscanfD out = .inl .ok ↔ out.code = .errNone := by
  rw [(Process.of_call h).2.2,((Process.command_of_call h).resolve_right (by rintro ⟨-,k,⟨⟩⟩)).1]
  change (.inl (if out.code = .errNone then .ok else .fail 0) : Output) = .inl .ok ↔ _
  split
  · rename_i hcode
    exact iff_of_true rfl hcode
  · rename_i hcode
    exact iff_of_false (by decide) hcode

private theorem Process.printed_get {p : Process} {client : Client} {k : CString}
    (h : p.call? sha1 inetPton sscanfD = some (client,.get k)) (out : Outcome) :
    p.output sha1 inetPton sscanfD out = .inr (printedValue out) := by
  rw [(Process.of_call h).2.2,((Process.command_of_call h).resolve_left (by rintro ⟨-,k,v,⟨⟩⟩)).1]
  rfl

/-- What was settled before a process that prints its results was so before the call. -/
theorem SettledBefore.of_map {ρ τ : Type} {f : ℕ → ρ → τ} {as : List SockAddr}
    {es : List (Event SockAddr Datagram ρ)} {l i : ℕ} (h : SettledBefore as (es.map (Event.mapResult f)) l i) :
    SettledBefore as es l i := by
  obtain ⟨before,after,hes,hnone,hall⟩ := h
  obtain ⟨before,after,rfl,rfl,rfl⟩ := List.map_eq_append_iff.mp hes
  rw [filterMap_action?_mapResult] at hnone
  refine ⟨before,after,rfl,hnone,fun a ha => ?_⟩
  obtain ⟨d,rs,hserved⟩ := hall a ha
  obtain ⟨e,he,hserved⟩ := List.mem_map.mp hserved
  cases e with
  | served l' a' d' rs' =>
    obtain ⟨rfl,rfl,rfl,rfl⟩ := Event.served.inj hserved
    exact ⟨_,_,he⟩
  | _ => cases hserved

/-- A started client has the nodes of the lines of its list, sorted. -/
theorem Process.nodes_of_lines {p : Process} {client : Client} {op : Operation} {lines : List Bytes}
    {entries : List ServerEntry} {file : Bytes} (hsort : SortsBySha p.qsort)
    (hcall : p.call? sha1 inetPton sscanfD = some (client,op)) (hservers : p.servers = some file)
    (hfile : FileOf lines file) (hlines : List.Forall₂ (WellFormedLine inetPton) lines entries) :
    client.nodes.Perm (entries.flatMap (ServerEntry.nodes sha1 inetPton)) ∧ SortedBySha client.nodes := by
  have hnodes := (Process.call?_spec hcall).1
  rw [hservers] at hnodes
  obtain ⟨hperm,hsorted⟩ := hsort (listedNodes sha1 inetPton (some file))
  rw [← hnodes] at hperm hsorted
  rw [listedNodes,Option.getD_some,readEntries_file hfile hlines] at hperm
  exact ⟨hperm,hsorted⟩

/-- Two processes whose lists have the same lines meet at a server, if their quorums are large enough. -/
theorem quorums_meet {p p' : Process} {client client' : Client} {op op' : Operation} {lines lines' : List Bytes}
    {entries : List ServerEntry} {file file' : Bytes} (hsort : SortsBySha p.qsort) (hsort' : SortsBySha p'.qsort)
    (hcall : p.call? sha1 inetPton sscanfD = some (client,op))
    (hcall' : p'.call? sha1 inetPton sscanfD = some (client',op'))
    (hservers : p.servers = some file) (hservers' : p'.servers = some file')
    (hfile : FileOf lines file) (hfile' : FileOf lines' file') (hperm : lines.Perm lines')
    (hlines : List.Forall₂ (WellFormedLine inetPton) lines entries)
    (hties : ∀ a ∈ entries.flatMap (ServerEntry.nodes sha1 inetPton),
      ∀ b ∈ entries.flatMap (ServerEntry.nodes sha1 inetPton), nodeCmpSha a b = 0 → a.address = b.address)
    {quorum : ℕ} (hmeet : max client.args.N client'.args.N < quorum) (k : CString) :
    (client.servers sha1 k ∪ client'.servers sha1 k).length < quorum := by
  obtain ⟨entries',hlines',hentries⟩ := List.perm_comp_forall₂ hperm.symm hlines
  obtain ⟨hnodes,hsorted⟩ := Process.nodes_of_lines hsort hcall hservers hfile hlines
  obtain ⟨hnodes',hsorted'⟩ := Process.nodes_of_lines hsort' hcall' hservers' hfile' hlines'
  have hrings := hnodes.trans ((hentries.symm.flatMap_right _).trans hnodes'.symm)
  refine (length_union_servers sha1 hrings hsorted hsorted' (fun a ha b hb => ?_) k).trans_lt hmeet
  exact hties a (hnodes.mem_iff.mp ha) b (hnodes.mem_iff.mp hb)

/-- Any number of processes put and get at the same time, each with its own list of servers;
packets may be lost and reordered but are not duplicated. A process that gets a key after
another one has printed that it is put, with the same lines in its list and quorums that
add up to more than the servers either of them contacts, fails or prints the value of a put
that had sent a request by then and had not been executed and acknowledged by all its
servers before this one started. -/
theorem clientGet_fresh (sha1 : Bytes → Digest) (inetPton : CString → Option UInt32)
    (sscanfD : CString → Option Int32) (processes : ℕ → Process) (servers : SockAddr → Htable)
    (es : List (Event SockAddr Datagram Output)) (w : SharedWorld SockAddr Htable Datagram Output) (i j : ℕ)
    (writer reader : Client) (k v : CString) (printed : PrintedValue) (lines lines' : List Bytes)
    (entries : List ServerEntry) (file file' : Bytes) (seen after : List (Event SockAddr Datagram Output))
    (hsort : SortsBySha (processes i).qsort) (hsort' : SortsBySha (processes j).qsort)
    (hreach : ∀ a, ReachableTable (servers a))
    (hrun : SharedRun (serverNetwork fun i => (processes i).program sha1 inetPton sscanfD) servers es w)
    (hput : (processes i).call? sha1 inetPton sscanfD = some (writer,.put k v))
    (hget : (processes j).call? sha1 inetPton sscanfD = some (reader,.get k)) (hk : k ≠ .empty)
    (hservers : (processes i).servers = some file) (hservers' : (processes j).servers = some file')
    (hfile : FileOf lines file) (hfile' : FileOf lines' file') (hperm : lines.Perm lines')
    (hlines : List.Forall₂ (WellFormedLine inetPton) lines entries)
    (hties : ∀ a ∈ entries.flatMap (ServerEntry.nodes sha1 inetPton),
      ∀ b ∈ entries.flatMap (ServerEntry.nodes sha1 inetPton), nodeCmpSha a b = 0 → a.address = b.address)
    (hvotes : reader.args.N ≤ 127) (hmeet : max writer.args.N reader.args.N < writer.args.W + reader.args.R)
    (hdup : ∀ p, .duplicated p ∉ es) (hprecedes : Precedes es i (.inl .ok) j)
    (hreturned : es = seen ++ .returned j (.inr printed)::after) :
    printed = .fail 0 ∨ ∃ v', printed = .ok v' ∧
      ((∃ a d, .foreign a d ∈ seen ∧ dispatch d = some (.put k v')) ∨
        ∃ l client, (processes l).call? sha1 inetPton sscanfD = some (client,.put k v') ∧
          (∃ a d, .sent l a d ∈ seen) ∧ ¬SettledBefore (client.servers sha1 k) es l i) := by
  obtain ⟨es₀,w₀,hrun₀,rfl⟩ := calls_of_processes hrun
  obtain ⟨hclient,hop,-⟩ := Process.of_call hput
  obtain ⟨hclient',hop',-⟩ := Process.of_call hget
  -- what was printed was the result of a call
  obtain ⟨acked,hacked,hprecedes₀⟩ := hprecedes.of_map
  obtain ⟨seen₀,after₀,out,rfl,rfl,-,hprinted⟩ := map_eq_append_returned hreturned
  rw [Process.printed_get hget] at hprinted
  obtain rfl := Sum.inr.inj hprinted
  by_cases hout : out.code = .errNone
  · have hmeet₀ := quorums_meet hsort hsort' hput hget hservers hservers' hfile hfile' hperm hlines hties hmeet k
    rw [← hclient,← hclient'] at hmeet₀
    obtain ⟨v',hv',hor⟩ := value_after_put (fun i => (processes i).client_positive) (hclient' ▸ hvotes) hmeet₀ hreach
      hrun₀ hop hop' hk (fun p hp => hdup p (List.mem_map_of_mem hp)) ((Process.printed_ok hput).mp hacked)
      hprecedes₀ rfl hout
    refine Or.inr ⟨v',?_,?_⟩
    · rw [printedValue,fetchedValue,if_neg (not_not.mpr hout),hv']
    · rcases hor with ⟨a,d,hd,hdis⟩ | ⟨l,hl,⟨a,d,hsent⟩,hnot⟩
      · exact Or.inl ⟨a,d,List.mem_map_of_mem hd,hdis⟩
      · exact Or.inr ⟨l,_,Process.call_of_put hl,⟨a,d,List.mem_map_of_mem hsent⟩,mt SettledBefore.of_map hnot⟩
  · refine Or.inl ?_
    rw [printedValue,fetchedValue,if_pos hout]

/-- `sscanf` on the numerals 1 and 2. -/
def scanDigit (str : CString) : Option Int32 :=
  match str.chars with
  | [49] => some 1
  | [50] => some 2
  | _ => none

/-- The list of two servers. -/
def twoLines : Bytes := loopbackLine 49 ++ 10::(loopbackLine 50 ++ [10])

/-- The same list with its lines in another order. -/
def twoLines' : Bytes := loopbackLine 50 ++ 10::(loopbackLine 49 ++ [10])

/-- Two processes put, each satisfied with one of two servers, and the others get from both. -/
def printingProcesses : ℕ → Process
  | 0 => ⟨.put,[.letterV,optN,decimal 2,optW,decimal 1,.letterK,.letterK],some twoLines,insertionSortBySha⟩
  | 1 => ⟨.put,[.letterV,optN,decimal 2,optW,decimal 1,.letterK,.letterV],some twoLines',insertionSortBySha⟩
  | _ => ⟨.get,[.letterV,optN,decimal 2,optR,decimal 2,.letterK],some twoLines,insertionSortBySha⟩

/-- The client of a process, which acknowledges a put at `W` servers. -/
def printingClient (W : ℕ) : Client :=
  ⟨insertionSortBySha (listedNodes textDigest loopback (some twoLines)),⟨2,2,W⟩⟩

def firstAddress : SockAddr := ⟨0x7f000001,1234⟩

def secondAddress : SockAddr := ⟨0x7f000002,1234⟩

abbrev printingNetwork : System SockAddr Htable Datagram Output :=
  serverNetwork fun i => (printingProcesses i).program textDigest loopback scanDigit

/-- A put of two servers that returns after the first acknowledgement. -/
def putEvents (i : ℕ) (v : CString) : List (Event SockAddr Datagram Output) :=
  let msg := 107::0::v.chars
  [.sent i firstAddress msg,.sent i secondAddress msg,.served i secondAddress msg [[]],
    .served i firstAddress msg [[]],.received i firstAddress [],.returned i (.inl .ok)]

/-- A get that finds the letter at two servers. -/
def getEvents (i : ℕ) : List (Event SockAddr Datagram Output) :=
  [.sent i firstAddress [107],.sent i secondAddress [107],.served i secondAddress [107] [[118]],
    .served i firstAddress [107] [[118]],.received i firstAddress [118],.received i secondAddress [118],
    .returned i (.inr (.ok .letterV))]

/-- The first put is executed by both servers before the second one starts. -/
def printedRun : List (Event SockAddr Datagram Output) :=
  putEvents 0 .letterK ++ putEvents 1 .letterV ++ getEvents 2

private theorem call_first : (printingProcesses 0).call? textDigest loopback scanDigit =
    some (printingClient 1,.put .letterK .letterK) := rfl

private theorem call_second : (printingProcesses 1).call? textDigest loopback scanDigit =
    some (printingClient 1,.put .letterK .letterV) := rfl

private theorem call_third : (printingProcesses 2).call? textDigest loopback scanDigit =
    some (printingClient 2,.get .letterK) := rfl

private theorem printingClient_ready (W : ℕ) : (printingClient W).Ready := ⟨Nat.zero_lt_two,by
  change 2 ≤ ((insertionSortBySha (listedNodes textDigest loopback (some twoLines))).map Node.address).dedup.length
  decide⟩

private theorem printingClient_servers (W : ℕ) :
    (printingClient W).servers textDigest .letterK = [firstAddress,secondAddress] := rfl

/-- A whole put in the world that it starts in. -/
theorem run_putEvents {es : List (Event SockAddr Datagram Output)} {tables : SockAddr → Htable}
    {net : Multiset (Packet SockAddr Datagram)} {progs : ℕ → Prog SockAddr Datagram Output} {i : ℕ} {v : CString}
    {m n : ServerMap} (h : SharedRun printingNetwork initialTables es ⟨tables,net,progs⟩)
    (hcall : (printingProcesses i).call? textDigest loopback scanDigit = some (printingClient 1,.put .letterK v))
    (hprog : progs i = printingNetwork.calls i) (hv : v.length ≤ maxMsgSize - 2)
    (hfirst : tables firstAddress = m.table) (hsecond : tables secondAddress = n.table) :
    ∃ progs', (∀ j, j ≠ i → progs' j = progs j) ∧
      SharedRun printingNetwork initialTables (es ++ putEvents i v)
        ⟨Function.update (Function.update tables secondAddress (n.add .letterK v).table) firstAddress
          (m.add .letterK v).table,⟨i,secondAddress,true,[]⟩ ::ₘ net,progs'⟩ := by
  have hready := printingClient_ready 1
  have hput : printingNetwork.calls i = _ := Process.program_of_call hcall
  have hcommand := ((Process.command_of_call hcall).resolve_right (by rintro ⟨-,k,⟨⟩⟩)).1
  have hlen : (CString.letterK.chars ++ 0::v.chars).length ≤ maxMsgSize := by
    simp only [CString.letterK,List.length_append,List.length_cons,List.length_nil] at hv ⊢
    change v.chars.length ≤ _ at hv
    simp only [maxMsgSize,maxMsgElemSize] at hv ⊢
    omega
  rw [Operation.program_put hready _ (by decide) (by simp [tooLong]; omega),Prog.sendAll_bind,printingClient_servers,
    hcommand] at hput
  have hserve : ∀ m : ServerMap, printingNetwork.handle m.table (CString.letterK.chars ++ 0::v.chars)
      (m.add .letterK v).table [[]] := fun m =>
    @handle_put textDigest (printingClient 1) putThenGet m .letterK v (Or.inl (by decide)) hlen
  have hsent := (h.send (i := i) (hprog.trans hput) hlen).send (i := i) (Function.update_self _ _ _) hlen
  have hserved := hsent.serve hsecond (hserve n)
  rw [Multiset.cons_swap] at hserved
  have hboth := hserved.serve ((Function.update_of_ne (by decide) _ _).trans hfirst) (hserve m)
  obtain ⟨progs',hothers,hdone⟩ := hboth.receive_all (Function.update_self _ _ _) [(firstAddress,[])]
    (⟨i,secondAddress,true,[]⟩ ::ₘ net) rfl (((putRecvLoop_sends 1 2 0 []).bind_ret _).bind_ret _) rfl
  rw [List.append_assoc,List.append_assoc,List.append_assoc,List.append_assoc,List.append_assoc] at hdone
  exact ⟨progs',fun j hj => (hothers j hj).trans
    ((Function.update_of_ne hj _ _).trans (Function.update_of_ne hj _ _)),hdone⟩

/-- A whole get that finds the letter at both servers. -/
theorem run_getEvents {es : List (Event SockAddr Datagram Output)} {tables : SockAddr → Htable}
    {net : Multiset (Packet SockAddr Datagram)} {progs : ℕ → Prog SockAddr Datagram Output} {i : ℕ}
    {m n : ServerMap} (h : SharedRun printingNetwork initialTables es ⟨tables,net,progs⟩)
    (hcall : (printingProcesses i).call? textDigest loopback scanDigit = some (printingClient 2,.get .letterK))
    (hprog : progs i = printingNetwork.calls i) (hfirst : tables firstAddress = m.table)
    (hsecond : tables secondAddress = n.table) (hvalue : m.lookup .letterK = some .letterV)
    (hvalue' : n.lookup .letterK = some .letterV) :
    ∃ w, SharedRun printingNetwork initialTables (es ++ getEvents i) w := by
  have hready := printingClient_ready 2
  have hget : printingNetwork.calls i = _ := Process.program_of_call hcall
  have hcommand := ((Process.command_of_call hcall).resolve_left (by rintro ⟨-,k,v,⟨⟩⟩)).1
  have hlen : CString.letterK.chars.length ≤ maxMsgSize := by decide
  rw [Operation.program_get hready _ (by decide),Prog.sendAll_bind,printingClient_servers,hcommand] at hget
  have hserve : ∀ m : ServerMap, m.lookup .letterK = some .letterV →
      printingNetwork.handle m.table CString.letterK.chars m.table [[118]] := fun m hm =>
    @handle_get textDigest (printingClient 2) putsThenGet _ _ _ hm (by decide) hlen
  have hasked := (h.send (i := i) (hprog.trans hget) hlen).send (i := i) (Function.update_self _ _ _) hlen
  have hserved := hasked.serve hsecond (hserve n hvalue')
  rw [Multiset.cons_swap] at hserved
  have hboth := hserved.serve ((Function.update_of_ne (by decide) _ _).trans hfirst) (hserve m hvalue)
  have hnet : ∀ p q : Packet SockAddr Datagram, p ::ₘ q ::ₘ net = Multiset.ofList [p,q] + net := fun p q => by
    rw [← Multiset.cons_coe,Multiset.cons_add,Multiset.coe_singleton,Multiset.singleton_add]
  have hvotes := run_get_equal (R := 2) (n := 2) (v := .letterV) hready.positive.ne' (by decide) (by decide)
    (by decide) (by decide)
  have hprinted := (Prog.run_bind _ (fun out => (.ret (Command.get.printed out) : Prog SockAddr Datagram Output)) _).trans
    (congrArg (Option.bind · fun q => (.ret (Command.get.printed q.1) : Prog SockAddr Datagram Output).run q.2) hvotes)
  obtain ⟨_,-,hfound⟩ := hboth.receive_all (Function.update_self _ _ _) [(firstAddress,[118]),(secondAddress,[118])]
    net (hnet _ _) (((getRecvLoop_sends 2 2 _ []).bind_ret _).bind_ret _) hprinted
  rw [List.append_assoc,List.append_assoc,List.append_assoc,List.append_assoc,List.append_assoc] at hfound
  exact ⟨_,hfound⟩

private theorem exists_printedRun : ∃ w : SharedWorld SockAddr Htable Datagram Output,
    SharedRun printingNetwork initialTables printedRun w := by
  have hne : secondAddress ≠ firstAddress := by decide
  have hstart : SharedRun printingNetwork initialTables [] ⟨initialTables,0,printingNetwork.calls⟩ := .start
  obtain ⟨progs,hothers,hfirst⟩ := run_putEvents (m := .initial) (n := .initial) hstart call_first rfl (by decide)
    rfl rfl
  obtain ⟨progs',hothers',hsecond⟩ := run_putEvents (m := ServerMap.initial.add .letterK .letterK)
    (n := ServerMap.initial.add .letterK .letterK) hfirst call_second (hothers 1 (by decide)) (by decide)
    (Function.update_self _ _ _) ((Function.update_of_ne hne _ _).trans (Function.update_self _ _ _))
  exact run_getEvents hsecond call_third ((hothers' 2 (by decide)).trans (hothers 2 (by decide)))
    (Function.update_self _ _ _) ((Function.update_of_ne hne _ _).trans (Function.update_self _ _ _))
    (ChainedMap.lookup_add_self _ _ _) (ChainedMap.lookup_add_self _ _ _)

/-- The value of the first put, which is settled, is not among those that can be printed. -/
theorem clientGet_fresh_settled :
    ∃ w : SharedWorld SockAddr Htable Datagram Output, SharedRun printingNetwork initialTables printedRun w ∧
      SettledBefore ((printingClient 1).servers textDigest .letterK) printedRun 0 1 ∧
      (PrintedValue.ok .letterV = .fail 0 ∨ ∃ v', PrintedValue.ok .letterV = .ok v' ∧
        ((∃ a d, .foreign a d ∈ printedRun.take 18 ∧ dispatch d = some (.put .letterK v')) ∨
          ∃ l client, (printingProcesses l).call? textDigest loopback scanDigit = some (client,.put .letterK v') ∧
            (∃ a d, .sent l a d ∈ printedRun.take 18) ∧
            ¬SettledBefore (client.servers textDigest .letterK) printedRun l 1)) := by
  obtain ⟨w,hrun⟩ := exists_printedRun
  have hsettled : SettledBefore ((printingClient 1).servers textDigest .letterK) printedRun 0 1 := by
    refine ⟨printedRun.take 6,printedRun.drop 6,rfl,rfl,?_⟩
    rw [printingClient_servers,List.forall_mem_cons,List.forall_mem_singleton]
    exact ⟨⟨[107,0,107],[[]],by simp [printedRun,putEvents,CString.letterK]⟩,
      ⟨[107,0,107],[[]],by simp [printedRun,putEvents,CString.letterK]⟩⟩
  have hprecedes : Precedes printedRun 1 (.inl .ok) 2 := ⟨printedRun.take 11,printedRun.drop 12,rfl,rfl⟩
  have hlines : List.Forall₂ (WellFormedLine loopback) [loopbackLine 50,loopbackLine 49]
      [loopbackEntry 50,loopbackEntry 49] :=
    .cons (loopbackLine_wellFormed 50 (Or.inr rfl)) (.cons (loopbackLine_wellFormed 49 (Or.inl rfl)) .nil)
  exact ⟨w,hrun,hsettled,clientGet_fresh textDigest loopback scanDigit printingProcesses initialTables printedRun w 1 2
    _ _ .letterK .letterV (.ok .letterV) [loopbackLine 50,loopbackLine 49] [loopbackLine 49,loopbackLine 50]
    [loopbackEntry 50,loopbackEntry 49] _ _ (printedRun.take 18) [] insertionSortBySha_sorts insertionSortBySha_sorts
    (fun _ => reachableTable_initial) hrun call_second call_third (by decide) rfl rfl (.cons _ (.cons _ .nil))
    (.cons _ (.cons _ .nil)) (.swap _ _ []) hlines (by decide) (by decide) (by decide)
    (by simp [printedRun,putEvents,getEvents]) hprecedes rfl⟩

end PpsDht
