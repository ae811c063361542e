import PpsDht.ClientCat
import PpsDht.ConcurrentCalls
import PpsDht.MappedResults
import PpsDht.OptionParsing
import PpsDht.ServedKeys

/-! # The clients that put and get

Each process reads its options and its list of servers, makes one call of the library
and prints the result. Up to what is printed it is a call of a client. -/
namespace PpsDht
open Mem Net SocketPrograms DatagramNetworks

/-- What `pps-client-get` prints. -/
inductive PrintedValue where
  | ok (val : CString)
  | fail (exitCode : ℕ)
  deriving DecidableEq

/-- A null value is a failure as an error is. -/
def printedValue (fetched : Outcome) : PrintedValue :=
  match fetchedValue fetched with
  | none => .fail 0
  | some val => .ok val

inductive Command where
  | put
  | get

/-- What `client_init` is called with. -/
def Command.initArgs (argv : List CString) : Command → ClientInitArgs
  | put => ⟨2,totalServers ||| putNeeded,argv.length,argv⟩
  | get => ⟨1,totalServers ||| getNeeded,argv.length,argv⟩

section Mains

variable (sha1 : Bytes → Digest) (inetPton : CString → Option UInt32) (qsort : List Node → List Node)
  (sscanfD : CString → Option Int32)

def clientPut (argv : List CString) (servers : Option Bytes) : Net Printed := do
  match ← (clientInit sha1 inetPton qsort sscanfD (Command.put.initArgs argv) servers : Mem _) with
  | .error _ => pure (.fail 1)
  | .ok client =>
    match client.args, client.remArgv with
    | some quorums, [key,value] => putValue sha1 ⟨client.nodes,quorums⟩ key value
    -- never taken, since options are supported and two arguments are left
    | _, _ => (undefined : Mem Printed)

/-- The get and what is printed then. -/
def printValue (client : Client) (key : CString) : Net PrintedValue := do
  let fetched ← networkGet sha1 client (some key) none
  pure (printedValue fetched)

def clientGet (argv : List CString) (servers : Option Bytes) : Net PrintedValue := do
  match ← (clientInit sha1 inetPton qsort sscanfD (Command.get.initArgs argv) servers : Mem _) with
  | .error _ => pure (.fail 1)
  | .ok client =>
    match client.args, client.remArgv with
    | some quorums, [key] => printValue sha1 ⟨client.nodes,quorums⟩ key
    | _, _ => (undefined : Mem PrintedValue)

end Mains

abbrev Output := Printed ⊕ PrintedValue

/-- A client that is started: its arguments, the list of servers that it finds and the
`qsort` that it is linked with. -/
structure Process where
  command : Command
  argv : List CString
  servers : Option Bytes
  qsort : List Node → List Node

def Command.operation? : Command → List CString → Option Operation
  | put, [key,value] => some (.put key value)
  | get, [key] => some (.get key)
  | _, _ => none

def Command.printed (out : Outcome) : Command → Output
  | put => .inl (if out.code = .errNone then .ok else .fail 0)
  | get => .inr (printedValue out)

/-- What is printed when the client does not start. -/
def Command.unstarted : Command → Output
  | put => .inl (.fail 1)
  | get => .inr (.fail 1)

/-- A call that returns at once. -/
def rejectedCall : Operation := .get ⟨List.replicate (maxMsgSize + 1) 1,by simp⟩

section Processes

variable (sha1 : Bytes → Digest) (inetPton : CString → Option UInt32) (sscanfD : CString → Option Int32)

def Process.program (p : Process) : Prog SockAddr Datagram Output :=
  match p.command with
  | .put => clientPut sha1 inetPton p.qsort sscanfD p.argv p.servers [] >>= fun r => .ret (.inl r.1)
  | .get => clientGet sha1 inetPton p.qsort sscanfD p.argv p.servers [] >>= fun r => .ret (.inr r.1)

/-- The client and the call that the process makes, if it starts. -/
def Process.call? (p : Process) : Option (Client × Operation) :=
  match clientInit sha1 inetPton p.qsort sscanfD (p.command.initArgs p.argv) p.servers [] with
  | some (.ok client,_) => client.args.bind fun quorums =>
    (p.command.operation? client.remArgv).map fun op => (⟨client.nodes,quorums⟩,op)
  | _ => none

def Process.client (p : Process) : Client :=
  ((p.call? sha1 inetPton sscanfD).map Prod.fst).getD (localClient 1 1 1)

def Process.operation (p : Process) : Operation :=
  ((p.call? sha1 inetPton sscanfD).map Prod.snd).getD rejectedCall

def Process.output (p : Process) (out : Outcome) : Output :=
  if (p.call? sha1 inetPton sscanfD).isSome then p.command.printed out else p.command.unstarted

end Processes

section Consumption

variable {sha1 : Bytes → Digest} {inetPton : CString → Option UInt32} {sscanfD : CString → Option Int32}

theorem nodeListNew_consumes : Consumes nodeListNew :=
  Consumes.malloc.bind fun ok => by cases ok <;> exact .pure _

theorem nodeListAdd_consumes (list : List Node) (node : Node) : Consumes (nodeListAdd list node) := by
  rw [nodeListAdd]
  split
  · exact .pure _
  · refine Consumes.malloc.bind fun ok => ?_
    cases ok with
    | false => exact .pure _
    | true =>
      refine Consumes.malloc.bind fun sha => Consumes.malloc.bind fun address => ?_
      split
      · exact Consumes.malloc.bind fun ok => by
          cases ok
          · exact .undefined
          · exact .pure _
      · exact .undefined

theorem nodeInit_consumes (node : NodePointers) (ip : CString) (port : UInt16) (i : ℕ) :
    Consumes (nodeInit sha1 inetPton node ip port i) := by
  simp only [nodeInit]
  split
  · exact .undefined
  · refine Consumes.malloc.bind fun ok => ?_
    split
    · refine Consumes.malloc.bind fun ok => ?_
      split
      · split <;> exact .pure _
      · exact .pure _
    · exact .pure _

theorem nodeEnd_consumes (node : NodePointers) : Consumes (nodeEnd node) := by
  cases node with
  | null | live => exact .pure _
  | dangling => exact .undefined

theorem addNodes_consumes (entry : ServerEntry) (n i : ℕ) (list : List Node) (node : NodePointers) :
    Consumes (addNodes sha1 inetPton entry n i list node) := by
  induction n generalizing i list node with
  | zero => exact .pure _
  | succ n ih =>
    rw [addNodes]
    refine (nodeInit_consumes _ _ _ _).bind fun r => ?_
    split
    · refine (nodeListAdd_consumes _ _).bind fun added => (nodeEnd_consumes _).bind fun node => ?_
      split
      · exact ih _ _ _
      · exact .pure _
    · exact (nodeEnd_consumes _).bind fun _ => .pure _

theorem addEntries_consumes (entries : List ServerEntry) (list : List Node) :
    Consumes (addEntries sha1 inetPton entries list) := by
  induction entries generalizing list with
  | nil => exact .pure _
  | cons entry entries ih =>
    rw [addEntries]
    refine (addNodes_consumes _ _ _ _ _).bind fun added => ?_
    cases added with
    | none => exact .pure _
    | some list => exact ih list

theorem ringInit_consumes (qsort : List Node → List Node) (servers : Option Bytes) :
    Consumes (ringInit sha1 inetPton qsort servers) := by
  have hnodes : Consumes (getNodes sha1 inetPton servers) := nodeListNew_consumes.bind fun new => by
    cases new with
    | none => exact .pure _
    | some list =>
      cases servers with
      | none => exact .pure _
      | some servers => exact addEntries_consumes _ _
  exact hnodes.bind fun list => by cases list <;> exact .pure _

theorem parseOptArgs_consumes (argsKind : ℕ) (argv : List CString) :
    Consumes (parseOptArgs sscanfD argsKind argv) := by
  refine Consumes.malloc.bind fun ok => ?_
  split
  · split
    · exact .pure _
    · split <;> exact .pure _
  · exact .pure _

theorem clientInit_consumes (qsort : List Node → List Node) (args : ClientInitArgs) (servers : Option Bytes) :
    Consumes (clientInit sha1 inetPton qsort sscanfD args servers) := by
  have hargs : ∀ (argsKind : ℕ) (file : Bytes) (argv : List CString),
      Consumes (clientArgs sscanfD argsKind file argv) := fun argsKind file argv => by
    rw [clientArgs]
    split
    · exact .pure _
    · refine (parseOptArgs_consumes _ _).bind fun parsed => ?_
      split
      · exact .pure _
      · split <;> exact .pure _
  rw [clientInit]
  split
  · exact .undefined
  · split
    · exact .pure _
    · split
      · exact .pure _
      · refine (hargs _ _ _).bind fun parsed => ?_
        split
        · exact .pure _
        · split
          · exact .pure _
          · refine nodeListNew_consumes.bind fun new => ?_
            split
            · exact .pure _
            · exact Consumes.malloc.bind fun opened =>
                (ringInit_consumes _ _).bind fun ring => by cases ring <;> exact .pure _

end Consumption

section Calls

variable {sha1 : Bytes → Digest} {inetPton : CString → Option UInt32} {sscanfD : CString → Option Int32}

/-- The ring of a started client is the sorted list of its servers, and its quorums are coherent. -/
theorem Process.call?_spec {p : Process} {client : Client} {op : Operation}
    (h : p.call? sha1 inetPton sscanfD = some (client,op)) :
    client.nodes = p.qsort (listedNodes sha1 inetPton p.servers) ∧ 1 ≤ client.args.W ∧
      client.args.W ≤ client.args.N ∧ 1 ≤ client.args.R ∧ client.args.R ≤ client.args.N := by
  rw [call?] at h
  split at h
  · rename_i started rest hstarted
    obtain ⟨quorums,hquorums,h⟩ := Option.bind_eq_some_iff.mp h
    obtain ⟨op',-,h⟩ := Option.map_eq_some_iff.mp h
    obtain ⟨rfl,rfl⟩ := Prod.mk.inj h
    exact clientInit_quorums hstarted hquorums
  · cases h

theorem Process.client_positive (p : Process) : 0 < (p.client sha1 inetPton sscanfD).args.N := by
  rw [client]
  cases hcall : p.call? sha1 inetPton sscanfD with
  | none => exact Nat.zero_lt_one
  | some c =>
    obtain ⟨-,hW,hWN,-⟩ := Process.call?_spec hcall
    exact hW.trans hWN

private theorem rejectedCall_program (client : Client) :
    rejectedCall.program sha1 client = .ret ⟨.errBadParameter,none⟩ := by
  have hlong : maxMsgSize < rejectedCall.key.length := (Nat.lt_succ_self _).trans_eq List.length_replicate.symm
  exact Operation.program_tooLong (decide_eq_true hlong)

private theorem putValue_bind (client : Client) (key value : CString) :
    (putValue sha1 client key value [] >>= fun r => .ret (.inl r.1)) =
      ((Operation.put key value).program sha1 client >>= fun out => .ret (Command.put.printed out) :
        Prog SockAddr Datagram Output) := by
  change ((networkPut sha1 client (some key) (some value) [] >>= _) >>= _) = _
  rw [Operation.program,Prog.bind_bind,Prog.bind_bind]
  refine congrArg (networkPut sha1 client (some key) (some value) [] >>= ·) (funext fun r => ?_)
  obtain ⟨code,rest⟩ := r
  change ((if code = .errNone then pure .ok else pure (.fail 0) : Net Printed) rest >>= _) =
    (.ret (.inl (if code = .errNone then .ok else .fail 0)) : Prog SockAddr Datagram Output)
  split <;> rfl

private theorem printValue_bind (client : Client) (key : CString) :
    (printValue sha1 client key [] >>= fun r => .ret (.inr r.1)) =
      ((Operation.get key).program sha1 client >>= fun out => .ret (Command.get.printed out) :
        Prog SockAddr Datagram Output) := by
  change ((networkGet sha1 client (some key) none [] >>= _) >>= _) = _
  rw [Operation.program,Prog.bind_bind,Prog.bind_bind]
  exact congrArg (networkGet sha1 client (some key) none [] >>= ·) (funext fun r => rfl)

private theorem bind_inl {p q : Prog SockAddr Datagram (Printed × Outcomes)} (h : p = q) :
    (p >>= fun r => .ret (.inl r.1) : Prog SockAddr Datagram Output) = q >>= fun r => .ret (.inl r.1) := by
  rw [h]

private theorem bind_inr {p q : Prog SockAddr Datagram (PrintedValue × Outcomes)} (h : p = q) :
    (p >>= fun r => .ret (.inr r.1) : Prog SockAddr Datagram Output) = q >>= fun r => .ret (.inr r.1) := by
  rw [h]

/-- A process that makes a call prints its result. -/
theorem Process.program_of_call {p : Process} {client : Client} {op : Operation}
    (h : p.call? sha1 inetPton sscanfD = some (client,op)) : p.program sha1 inetPton sscanfD =
      op.program sha1 client >>= fun out => .ret (p.command.printed out) := by
  obtain ⟨command,argv,servers,qsort⟩ := p
  rw [call?] at h
  split at h
  · rename_i started rest hinit
    obtain rfl : rest = [] := List.suffix_nil.mp (clientInit_consumes _ _ _ _ _ _ hinit)
    obtain ⟨name,nodes,args,remArgv⟩ := started
    obtain ⟨quorums,hquorums,h⟩ := Option.bind_eq_some_iff.mp h
    obtain ⟨op',hop,h⟩ := Option.map_eq_some_iff.mp h
    obtain ⟨rfl,rfl⟩ := Prod.mk.inj h
    obtain rfl : args = some quorums := hquorums
    unfold Command.operation? at hop
    split at hop
    · rename_i hc hargv
      obtain rfl : command = .put := hc
      obtain rfl := hargv
      cases hop
      exact (bind_inl (liftM_apply hinit _)).trans (putValue_bind _ _ _)
    · rename_i hc hargv
      obtain rfl : command = .get := hc
      obtain rfl := hargv
      cases hop
      exact (bind_inr (liftM_apply hinit _)).trans (printValue_bind _ _)
    · cases hop
  · cases h

/-- A process that makes no call fails at the start or has none to make. -/
theorem Process.program_of_none {p : Process} (h : p.call? sha1 inetPton sscanfD = none) :
    p.program sha1 inetPton sscanfD = .ret p.command.unstarted ∨ p.program sha1 inetPton sscanfD = .fault := by
  obtain ⟨command,argv,servers,qsort⟩ := p
  cases hinit : clientInit sha1 inetPton qsort sscanfD (command.initArgs argv) servers [] with
  | none =>
    cases command with
    | put => exact Or.inr (bind_inl (liftM_fault hinit _))
    | get => exact Or.inr (bind_inr (liftM_fault hinit _))
  | some started =>
    obtain ⟨started,rest⟩ := started
    cases started with
    | error code =>
      cases command with
      | put => exact Or.inl (bind_inl (liftM_apply hinit _))
      | get => exact Or.inl (bind_inr (liftM_apply hinit _))
    | ok client =>
      obtain ⟨name,nodes,args,remArgv⟩ := client
      rw [call?,hinit] at h
      cases args with
      | none =>
        cases command with
        | put => exact Or.inr (bind_inl (liftM_apply hinit _))
        | get => exact Or.inr (bind_inr (liftM_apply hinit _))
      | some quorums =>
        cases command with
        | put =>
          rcases remArgv with _ | ⟨key,_ | ⟨value,_ | ⟨more,rest⟩⟩⟩
          case cons.cons.nil => cases h
          all_goals exact Or.inr (bind_inl (liftM_apply hinit _))
        | get =>
          rcases remArgv with _ | ⟨key,_ | ⟨more,rest⟩⟩
          case cons.nil => cases h
          all_goals exact Or.inr (bind_inr (liftM_apply hinit _))

/-- A process that makes a call is the client with this call. -/
theorem Process.of_call {p : Process} {client : Client} {op : Operation}
    (h : p.call? sha1 inetPton sscanfD = some (client,op)) : p.client sha1 inetPton sscanfD = client ∧
      p.operation sha1 inetPton sscanfD = op ∧ p.output sha1 inetPton sscanfD = p.command.printed := by
  refine ⟨by rw [Process.client,h]; rfl,by rw [operation,h]; rfl,funext fun out => ?_⟩
  rw [output,h]
  rfl

private theorem Command.operation?_cases {c : Command} {argv : List CString} {op : Operation}
    (h : c.operation? argv = some op) : (c = .put ∧ ∃ k v, op = .put k v) ∨ (c = .get ∧ ∃ k, op = .get k) := by
  unfold operation? at h
  split at h
  · cases h
    exact Or.inl ⟨rfl,_,_,rfl⟩
  · cases h
    exact Or.inr ⟨rfl,_,rfl⟩
  · cases h

theorem Process.command_of_call {p : Process} {client : Client} {op : Operation}
    (h : p.call? sha1 inetPton sscanfD = some (client,op)) :
    (p.command = .put ∧ ∃ k v, op = .put k v) ∨ (p.command = .get ∧ ∃ k, op = .get k) := by
  rw [call?] at h
  split at h
  · obtain ⟨quorums,-,h⟩ := Option.bind_eq_some_iff.mp h
    obtain ⟨op',hop,h⟩ := Option.map_eq_some_iff.mp h
    obtain ⟨-,rfl⟩ := Prod.mk.inj h
    exact Command.operation?_cases hop
  · cases h

/-- A process is the call of a client with the result printed. -/
theorem Process.follows (p : Process) : Follows (p.output sha1 inetPton sscanfD) (p.program sha1 inetPton sscanfD)
    ((p.operation sha1 inetPton sscanfD).program sha1 (p.client sha1 inetPton sscanfD)) := by
  cases hcall : p.call? sha1 inetPton sscanfD with
  | some call =>
    obtain ⟨hclient,hop,houtput⟩ := Process.of_call hcall
    rw [hclient,hop,houtput]
    exact Or.inl (Process.program_of_call hcall)
  | none =>
    refine (Process.program_of_none hcall).imp_left fun hprogram => ?_
    rw [hprogram,operation,hcall]
    change _ = (rejectedCall.program sha1 _ >>= _)
    rw [rejectedCall_program,Prog.pure_bind,output,hcall]
    rfl

end Calls

end PpsDht
