import Mathlib.Data.Set.Card
import PpsDht.OptionParsing
import PpsDht.PermutedLists

/-! # Which clients can serve their keys

Lines are counted by their line feeds and servers are read by a scan that stops
silently, so enough lines do not mean enough servers. What counts are the different
addresses that the file lists with at least one node, if it can be opened again. -/
namespace PpsDht
open Mem Scanning

/-- The text begins with an entry: a word for the address, cut at 15 characters, and two
numerals for the port and the number of nodes, cut to their types. -/
inductive EntryText (rest : Bytes) : ServerEntry → Bytes → Prop
  | mk {text text₁ text₂ word : Bytes} {negative negative' : Bool} {port count : ℕ}
      (hword : WordText ipLength word text₁ text) (hport : NumeralText negative port text₂ text₁)
      (hcount : NumeralText negative' count rest text₂) :
      EntryText rest ⟨upToNul word,UInt16.ofNat (toUnsigned negative port),toUnsigned negative' count⟩ text

/-- An entry of the text, in front of which there are only other entries, gives the server a node. -/
inductive ListsServer (inetPton : CString → Option UInt32) (server : SockAddr) : Bytes → Prop
  | here {text rest : Bytes} {entry : ServerEntry} (h : EntryText rest entry text) (hnodes : 0 < entry.nodeId)
      (hip : inetPton entry.ip = some server.sinAddr) (hport : entry.port = server.sinPort) : ListsServer inetPton server text
  | later {text rest : Bytes} {entry : ServerEntry} (h : EntryText rest entry text)
      (hrest : ListsServer inetPton server rest) : ListsServer inetPton server text

private theorem readEntry_eq_some_iff {text rest : Bytes} {entry : ServerEntry} :
    readEntry text = some (entry,rest) ↔ EntryText rest entry text := by
  constructor
  · intro h
    obtain ⟨⟨word,text₁⟩,hword,h⟩ := Option.bind_eq_some_iff.mp h
    obtain ⟨⟨port,text₂⟩,hport,h⟩ := Option.bind_eq_some_iff.mp h
    obtain ⟨⟨count,text₃⟩,hcount,h⟩ := Option.bind_eq_some_iff.mp h
    obtain ⟨rfl,rfl⟩ := Prod.mk.inj (Option.some.inj h)
    obtain ⟨⟨⟨negative,m⟩,_⟩,hfirst,hvalue⟩ := Option.map_eq_some_iff.mp hport
    obtain ⟨rfl,rfl⟩ := Prod.mk.inj hvalue
    obtain ⟨⟨⟨negative',m'⟩,_⟩,hsecond,hvalue⟩ := Option.map_eq_some_iff.mp hcount
    obtain ⟨rfl,rfl⟩ := Prod.mk.inj hvalue
    exact ⟨scanWord_eq_some_iff.mp hword,scanNumeral_eq_some_iff.mp hfirst,scanNumeral_eq_some_iff.mp hsecond⟩
  · rintro ⟨hword,hport,hcount⟩
    simp only [readEntry,scanUnsigned,hword.scan,hport.scan,hcount.scan,Option.bind_eq_bind,Option.bind_some,
      Option.map_some]

/-- The reading loop meets exactly the servers that the text lists. -/
theorem mem_listedServers_iff {inetPton : CString → Option UInt32} {server : SockAddr} {text : Bytes} :
    server ∈ listedServers inetPton (readEntries text) ↔ ListsServer inetPton server text := by
  have hmem : ∀ entries, server ∈ listedServers inetPton entries ↔ ∃ entry ∈ entries, 0 < entry.nodeId ∧
      inetPton entry.ip = some server.sinAddr ∧ entry.port = server.sinPort := fun entries => by
    rw [listedServers,List.mem_dedup,List.mem_filterMap]
    simp only [List.mem_filter,decide_eq_true_eq,Option.map_eq_some_iff,SockAddr.ext_iff,and_assoc]
    refine exists_congr fun entry => and_congr_right fun _ => and_congr_right fun _ => ?_
    constructor
    · rintro ⟨sinAddr,hip,rfl,hport⟩
      exact ⟨hip,hport⟩
    · exact fun ⟨hip,hport⟩ => ⟨_,hip,rfl,hport⟩
  rw [hmem]
  constructor
  · rintro ⟨entry,hentry,hnodes,hip,hport⟩
    induction hlen : text.length using Nat.strong_induction_on generalizing text with
    | _ n ih =>
      cases hread : readEntry text with
      | none =>
        rw [readEntries_of_none hread] at hentry
        exact absurd hentry List.not_mem_nil
      | some result =>
        have hfirst := readEntry_eq_some_iff.mp hread
        rw [readEntries_cons hread,List.mem_cons] at hentry
        rcases hentry with rfl | hentry
        · exact .here hfirst hnodes hip hport
        · exact .later hfirst (ih _ (hlen ▸ readEntry_shorter hread) hentry rfl)
  · intro h
    induction h with
    | here h hnodes hip hport =>
      rw [readEntries_cons (readEntry_eq_some_iff.mpr h)]
      exact ⟨_,List.mem_cons_self,hnodes,hip,hport⟩
    | later h _ ih =>
      obtain ⟨entry,hentry,hspec⟩ := ih
      rw [readEntries_cons (readEntry_eq_some_iff.mpr h)]
      exact ⟨entry,List.mem_cons_of_mem _ hentry,hspec⟩

private theorem ncard_listsServer (inetPton : CString → Option UInt32) (text : Bytes) :
    {server | ListsServer inetPton server text}.ncard = (listedServers inetPton (readEntries text)).length := by
  have hset : {server | ListsServer inetPton server text} = ↑(listedServers inetPton (readEntries text)).toFinset :=
    Set.ext fun server => by rw [List.coe_toFinset,Set.mem_ofPred_eq,Set.mem_ofPred_eq,mem_listedServers_iff]
  rw [hset,Set.ncard_coe_finset]
  exact List.toFinset_card_of_nodup (List.nodup_dedup _)

/-- The selection for the key ends, inside the ring, with `n` distinct servers. -/
def ServesKey (sha1 : Bytes → Digest) (ring : List Node) (n : ℕ) (key : CString) : Prop :=
  ∃ nodes, Succeeds (ringGetNodesForKey sha1 ring n key) (some nodes) ∧ nodes.length = n ∧
    (nodes.map Node.address).Nodup

/-- A ring serves a key exactly if it holds enough servers. -/
theorem servesKey_iff (sha1 : Bytes → Digest) (ring : List Node) (n : ℕ) (key : CString) :
    ServesKey sha1 ring n key ↔ n ≤ (ring.map Node.address).dedup.length := by
  constructor
  · rintro ⟨nodes,hnodes,rfl,hnodup⟩
    rw [← List.length_map (f := Node.address)]
    refine List.Subperm.length_le (List.subperm_of_subset hnodup fun s hs => ?_)
    rw [List.mem_dedup]
    exact List.map_subset _ (ringGetNodesForKey_subset hnodes) hs
  · exact fun hn => ⟨_,ringGetNodesForKey_serversFrom sha1 key hn,length_serversFrom hn,nodup_serversFrom _ _ _⟩

section Startup

variable {sha1 : Bytes → Digest} {inetPton : CString → Option UInt32} {qsort : List Node → List Node}
  {sscanfD : CString → Option Int32} {args : ClientInitArgs} {file : Bytes} {client : Initialised}
  {outcomes rest : Outcomes}

/-- A client that started has the parsed options and the ring of the listed nodes, which is
empty if the file was not opened again. -/
theorem clientInit_cases {servers : Option Bytes} (h : clientInit sha1 inetPton qsort sscanfD args servers outcomes =
    some (.ok client,rest)) :
    ∃ (file : Bytes) (remArgv : List CString) (rest₁ : Outcomes), servers = some file ∧
      clientArgs sscanfD args.argsKind file remArgv outcomes = some (some (client.args,client.remArgv),rest₁) ∧
      client.nodes = qsort (listedNodes sha1 inetPton (if nextSucceeds rest₁.tail then servers else none)) := by
  rw [clientInit] at h
  cases hargv : args.remArgv with
  | nil =>
    rw [hargv] at h
    cases h
  | cons name remArgv =>
    rw [hargv] at h
    dsimp only at h
    split at h
    · cases h
    · cases servers with
      | none => cases h
      | some file =>
        obtain ⟨parsed,rest₁,hparsed,h⟩ := of_bind_eq_some h
        cases parsed with
        | none => cases h
        | some parsed =>
          dsimp only at h
          split at h
          · cases h
          · rw [nodeListNew,bind_assoc,malloc_bind] at h
            split at h
            · rw [pure_bind] at h
              dsimp only at h
              rw [malloc_bind] at h
              obtain ⟨ring,rest₃,hring,h⟩ := of_bind_eq_some h
              cases ring with
              | error code => cases h
              | ok nodes =>
                cases h
                exact ⟨file,remArgv,rest₁,rfl,hparsed,ringInit_eq hring⟩
            · cases h

/-- Parsed options take one allocation and are coherent. -/
theorem clientArgs_spec {argsKind : ℕ} {argv left : List CString} {quorums : Args}
    (h : clientArgs sscanfD argsKind file argv outcomes = some (some (some quorums,left),rest)) :
    rest = outcomes.tail ∧ 1 ≤ quorums.W ∧ quorums.W ≤ quorums.N ∧ 1 ≤ quorums.R ∧ quorums.R ≤ quorums.N := by
  rw [clientArgs] at h
  split at h
  · cases h
  · rename_i hkind
    obtain ⟨parsed,rest₁,hparsed,h⟩ := of_bind_eq_some h
    cases parsed with
    | none => cases h
    | some parsed =>
      dsimp only at h
      split at h
      · cases h
      · cases h
        refine ⟨?_,parseOptArgs_coherent sscanfD _ hkind hparsed⟩
        rw [parseOptArgs_eq sscanfD _ hkind,malloc_bind] at hparsed
        split at hparsed <;> exact (Prod.mk.inj (Option.some.inj hparsed)).2.symm

/-- `get_nodes` opens the list of servers again, behind the allocations of the options and of the ring. -/
def Reopens (outcomes : Outcomes) : Prop := nextSucceeds outcomes.tail.tail

instance (outcomes : Outcomes) : Decidable (Reopens outcomes) := inferInstanceAs (Decidable (_ = true))

theorem clientInit_quorums {servers : Option Bytes} {quorums : Args} (h : clientInit sha1 inetPton qsort sscanfD args
    servers outcomes = some (.ok client,rest)) (hquorums : client.args = some quorums) :
    client.nodes = qsort (listedNodes sha1 inetPton (if Reopens outcomes then servers else none)) ∧
      1 ≤ quorums.W ∧ quorums.W ≤ quorums.N ∧ 1 ≤ quorums.R ∧ quorums.R ≤ quorums.N := by
  obtain ⟨file,remArgv,rest₁,-,hargs,hnodes⟩ := clientInit_cases h
  rw [hquorums] at hargs
  obtain ⟨rfl,hcoherent⟩ := clientArgs_spec hargs
  exact ⟨hnodes,hcoherent⟩

end Startup

/-- A client that started serves every key exactly if the list of servers was opened again
and its text lists enough different servers. -/
theorem clientInit_serves_iff (sha1 : Bytes → Digest) (inetPton : CString → Option UInt32)
    (qsort : List Node → List Node) (hsort : SortsBySha qsort) (sscanfD : CString → Option Int32)
    (args : ClientInitArgs) (file : Bytes) (client : Initialised) (outcomes rest : Outcomes)
    (h : clientInit sha1 inetPton qsort sscanfD args (some file) outcomes = some (.ok client,rest)) :
    ∀ quorums, client.args = some quorums → ((∀ key, ServesKey sha1 client.nodes quorums.N key) ↔
      Reopens outcomes ∧ quorums.N ≤ {server | ListsServer inetPton server file}.ncard) := by
  intro quorums hquorums
  obtain ⟨hnodes,hW,hWN,-⟩ := clientInit_quorums h hquorums
  have hcount : (client.nodes.map Node.address).dedup.length =
      if Reopens outcomes then {server | ListsServer inetPton server file}.ncard else 0 := by
    rw [hnodes,((hsort _).1.map Node.address).dedup.length_eq,listedNodes,length_listedServers]
    split
    · exact (ncard_listsServer inetPton file).symm
    · rfl
  simp only [servesKey_iff,hcount]
  split
  · rename_i hopen
    exact ⟨fun hall => ⟨hopen,hall .empty⟩,fun hn _ => hn.2⟩
  · rename_i hopen
    exact iff_of_false (fun hall => absurd (hall .empty) (by omega)) fun hn => hopen hn.1

/-- `sscanf` on the numeral 2. -/
def scanTwo (str : CString) : Option Int32 := if str.chars = [50] then some 2 else none

/-- What `pps-client-get` starts with when its arguments are `-n 2 k`. -/
def twoServers : ClientInitArgs :=
  ⟨1,totalServers ||| getNeeded,4,[.letterV,optN,⟨[50],by decide⟩,.letterK]⟩

/-- The client that asks for two servers of a list. -/
def twoClient (file : Bytes) : Initialised :=
  ⟨.letterV,insertionSortBySha (listedNodes textDigest loopback (some file)),some ⟨2,2,2⟩,[.letterK]⟩

theorem clientInit_serves_iff_two :
    let file := loopbackLine 49 ++ 10::(loopbackLine 50 ++ [10])
    Reopens [] ∧ ∀ key, ServesKey textDigest (twoClient file).nodes 2 key := by
  have hlisted : 2 ≤ {server | ListsServer loopback server (loopbackLine 49 ++ 10::(loopbackLine 50 ++ [10]))}.ncard := by
    rw [ncard_listsServer]
    decide
  exact ⟨rfl,(clientInit_serves_iff textDigest loopback insertionSortBySha insertionSortBySha_sorts scanTwo twoServers
    (loopbackLine 49 ++ 10::(loopbackLine 50 ++ [10])) (twoClient _) [] [] rfl ⟨2,2,2⟩ rfl).mpr ⟨rfl,hlisted⟩⟩

/-- A blank line counts as a second server: the client starts with the one server that there is,
and no key finds two. -/
theorem blankLine_counted :
    let file := loopbackLine 49 ++ [10,10]
    SortsBySha insertionSortBySha ∧
      clientInit textDigest loopback insertionSortBySha scanTwo twoServers (some file) [] =
        some (.ok (twoClient file),[]) ∧
      (twoClient file).args = some ⟨2,2,2⟩ ∧
      (twoClient file).nodes.map Node.address = [⟨0x7f000001,1234⟩] ∧
      ¬ServesKey textDigest (twoClient file).nodes 2 .letterK := by
  refine ⟨insertionSortBySha_sorts,rfl,rfl,rfl,?_⟩
  rw [servesKey_iff]
  decide

end PpsDht
