import PpsDht.Network
import PpsDht.ServerLists

/-! # Starting a client

Options in front of the required arguments set the number of servers and the quorums.
The lines of the list of servers are counted before it is opened again and read.
`sscanf` with `"%d"` is a parameter. -/
namespace PpsDht
open Mem

def baseN : ℕ := 3

def baseW : ℕ := 2

def baseR : ℕ := 2

def totalServers : ℕ := 1

def getNeeded : ℕ := 2

def putNeeded : ℕ := 4

/-- The arguments `-n`, `-r`, `-w` and `--`. -/
def optN : CString := ⟨[45,110],by decide⟩

def optR : CString := ⟨[45,114],by decide⟩

def optW : CString := ⟨[45,119],by decide⟩

def optEnd : CString := ⟨[45,45],by decide⟩

inductive Opt where
  | n
  | r
  | w

/-- The option that an argument stands for, if it is supported. -/
def supportedOpt (supportedArgs : ℕ) (arg : CString) : Option Opt :=
  if arg = optN ∧ supportedArgs &&& totalServers ≠ 0 then some .n
  else if arg = optR ∧ supportedArgs &&& getNeeded ≠ 0 then some .r
  else if arg = optW ∧ supportedArgs &&& putNeeded ≠ 0 then some .w
  else none

/-- The numbers so far and which of them were given. -/
structure OptState where
  args : Args
  nMod : Bool
  rMod : Bool
  wMod : Bool

def OptState.initial : OptState := ⟨⟨baseN,baseR,baseW⟩,false,false,false⟩

def OptState.modified (s : OptState) : Opt → Bool
  | .n => s.nMod
  | .r => s.rMod
  | .w => s.wMod

def OptState.set (s : OptState) (num : ℕ) : Opt → OptState
  | .n => { s with args := { s.args with N := num }, nMod := true }
  | .r => { s with args := { s.args with R := num }, rMod := true }
  | .w => { s with args := { s.args with W := num }, wMod := true }

/-- The last part of `parse_opt_args`. -/
def OptState.handleIncoherences (s : OptState) : Option Args :=
  if s.nMod then
    if s.wMod ∧ s.args.W > s.args.N then none
    else if s.rMod ∧ s.args.R > s.args.N then none
    else some { s.args with W := min s.args.N s.args.W, R := min s.args.N s.args.R }
  else if s.wMod ∧ s.rMod then some { s.args with N := max s.args.N (max s.args.R s.args.W) }
  else if s.wMod then some { s.args with N := max s.args.N s.args.W }
  else if s.rMod then some { s.args with N := max s.args.N s.args.R }
  else some s.args

section Parameters

variable (sscanfD : CString → Option Int32)

/-- `go_fwd_and_parse_number` when there is an argument to go to. -/
def parseNumber (str : CString) : Option ℕ :=
  match sscanfD str with
  | none => none
  | some num => if num ≤ 0 then none else some num.toInt.toNat

/-- The loop over the options, with the arguments behind them. -/
def parseOptions (supportedArgs : ℕ) : List CString → OptState → Option (OptState × List CString)
  | [], s => some (s,[])
  | [arg], s => match supportedOpt supportedArgs arg with
    | none => some (s,if arg = optEnd then [] else [arg])
    | some _ => none
  | arg::str::rest, s => match supportedOpt supportedArgs arg with
    | none => some (s,if arg = optEnd then str::rest else arg::str::rest)
    | some opt => match parseNumber sscanfD str with
      | none => none
      | some num => if s.modified opt then none else parseOptions supportedArgs rest (s.set num opt)

/-- The options and the arguments left, or null. -/
def parseOptArgs (supportedArgs : ℕ) (remArgv : List CString) : Mem (Option (Args × List CString)) := do
  if ← malloc then
    if supportedArgs = 0 then pure (some (OptState.initial.args,remArgv))
    else match parseOptions sscanfD supportedArgs remArgv .initial with
      | none => pure none
      | some (s,rest) => pure (s.handleIncoherences.map fun args => (args,rest))
  else pure none

end Parameters

structure ClientInitArgs where
  argsReq : ℕ
  argsKind : ℕ
  argc : ℕ
  remArgv : List CString

/-- The client and the arguments left. It has no quorums when it supports no options. -/
structure Initialised where
  name : CString
  nodes : List Node
  args : Option Args
  remArgv : List CString

/-- The count of line feeds. A signed character of -1 is taken for the end of the file. -/
def nbServers (servers : Bytes) : ℕ := (servers.takeWhile (· ≠ 255)).count 10

section Parameters

variable (sha1 : Bytes → Digest) (inetPton : CString → Option UInt32) (qsort : List Node → List Node)
  (sscanfD : CString → Option Int32)

/-- The options of the client, or null; enough lines for its servers are required. -/
def clientArgs (argsKind : ℕ) (servers : Bytes) (remArgv : List CString) :
    Mem (Option (Option Args × List CString)) := do
  if argsKind = 0 then pure (some (none,remArgv))
  else match ← parseOptArgs sscanfD argsKind remArgv with
    | none => pure none
    | some (args,rest) => if nbServers servers < args.N then pure none else pure (some (some args,rest))

def clientInit (args : ClientInitArgs) (servers : Option Bytes) : Mem (Except ErrorCode Initialised) :=
  match args.remArgv with
  | [] => undefined
  | name::remArgv =>
    -- `argc - 1` wraps around
    if args.argsReq ≠ sizeMax ∧ (args.argc + sizeMax) % (sizeMax + 1) < args.argsReq then
      pure (.error .errBadParameter)
    else match servers with
      | none => pure (.error .errIo)
      | some servers => do
        match ← clientArgs sscanfD args.argsKind servers remArgv with
        | none => pure (.error .errBadParameter)
        | some (parsed,rest) =>
          if rest.length ≠ args.argsReq ∧ args.argsReq ≠ sizeMax then pure (.error .errBadParameter)
          else match ← nodeListNew with
            | none => pure (.error .errNetwork)
            | some _ => do
              -- `get_nodes` opens the file once more, which may fail like an allocation
              let opened ← malloc
              match ← ringInit sha1 inetPton qsort (if opened then some servers else none) with
              | .error _ => pure (.error .errNetwork)
              | .ok nodes => pure (.ok ⟨name,nodes,parsed,rest⟩)

end Parameters

end PpsDht
