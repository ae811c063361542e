import PpsDht.ConcurrentNetworks

/-! # Programs that turn a result into another

When each program of one system is that of another with its result rewritten, or never
acts, every run of the first is one of the second up to the results. -/
namespace PpsDht.SocketPrograms

variable {α μ ρ τ : Type} {p : Prog α μ ρ} {g : ρ → τ}

private theorem Prog.of_bind_eq_ret {b : τ} (h : (p >>= fun r => .ret (g r)) = .ret b) : ∃ r, p = .ret r ∧ g r = b := by
  cases p with
  | ret r => exact ⟨r,rfl,Prog.ret.inj h⟩
  | fault | send | recv => cases h

private theorem Prog.of_bind_eq_send {a : α} {m : μ} {next : Prog α μ τ} (h : (p >>= fun r => .ret (g r)) = .send a m next) :
    ∃ rest, p = .send a m rest ∧ next = rest >>= fun r => .ret (g r) := by
  cases p with
  | send a' m' rest =>
    obtain ⟨rfl,rfl,rfl⟩ := Prog.send.inj h
    exact ⟨rest,rfl,rfl⟩
  | ret | fault | recv => cases h

private theorem Prog.of_bind_eq_recv {next : Option μ → Prog α μ τ} (h : (p >>= fun r => .ret (g r)) = .recv next) :
    ∃ rest, p = .recv rest ∧ next = fun input => rest input >>= fun r => .ret (g r) := by
  cases p with
  | recv rest =>
    obtain rfl := Prog.recv.inj h
    exact ⟨rest,rfl,rfl⟩
  | ret | fault | send => cases h

end PpsDht.SocketPrograms

namespace PpsDht.DatagramNetworks
open SocketPrograms

variable {α σ μ ρ τ : Type}

def Event.mapResult (f : ℕ → ρ → τ) : Event α μ ρ → Event α μ τ
  | sent i a m => sent i a m
  | refused i a m => refused i a m
  | received i a m => received i a m
  | timedOut i => timedOut i
  | served i a m replies => served i a m replies
  | foreign a m => foreign a m
  | lost p => lost p
  | duplicated p => duplicated p
  | returned i r => returned i (f i r)

private theorem Event.action?_mapResult (f : ℕ → ρ → τ) (i : ℕ) (e : Event α μ ρ) :
    (e.mapResult f).action? i = e.action? i := by
  cases e <;> rfl

theorem filterMap_action?_mapResult (f : ℕ → ρ → τ) (i : ℕ) (es : List (Event α μ ρ)) :
    (es.map (Event.mapResult f)).filterMap (Event.action? i) = es.filterMap (Event.action? i) := by
  rw [List.filterMap_map]
  exact List.filterMap_congr fun e _ => Event.action?_mapResult f i e

theorem map_eq_append_returned {f : ℕ → ρ → τ} {es : List (Event α μ ρ)} {i : ℕ} {r : τ}
    {before after : List (Event α μ τ)} (h : es.map (Event.mapResult f) = before ++ .returned i r::after) :
    ∃ before₀ after₀ r₀, es = before₀ ++ .returned i r₀::after₀ ∧ before = before₀.map (Event.mapResult f) ∧
      after = after₀.map (Event.mapResult f) ∧ f i r₀ = r := by
  obtain ⟨before₀,rest,rfl,rfl,hrest⟩ := List.map_eq_append_iff.mp h
  obtain ⟨e,after₀,rfl,he,rfl⟩ := List.map_eq_cons_iff.mp hrest
  cases e with
  | returned i' r' =>
    obtain ⟨rfl,rfl⟩ := Event.returned.inj he
    exact ⟨before₀,after₀,r',rfl,rfl,rfl,rfl⟩
  | _ => cases he

theorem Precedes.of_map {f : ℕ → ρ → τ} {es : List (Event α μ ρ)} {i j : ℕ} {r : τ}
    (h : Precedes (es.map (Event.mapResult f)) i r j) : ∃ r', f i r' = r ∧ Precedes es i r' j := by
  obtain ⟨before,after,hes,hnone⟩ := h
  obtain ⟨before,after,r',rfl,rfl,-,rfl⟩ := map_eq_append_returned hes
  rw [filterMap_action?_mapResult] at hnone
  exact ⟨r',rfl,before,after,rfl,hnone⟩

/-- The program with its result rewritten, or one that does nothing. -/
def Follows (g : ρ → τ) (q : Prog α μ τ) (p : Prog α μ ρ) : Prop :=
  q = (p >>= fun r => .ret (g r)) ∨ q = .fault

theorem Follows.update {f : ℕ → ρ → τ} {progs : ℕ → Prog α μ ρ} {progs' : ℕ → Prog α μ τ}
    (h : ∀ i, Follows (f i) (progs' i) (progs i)) {i : ℕ} {q : Prog α μ τ} {p : Prog α μ ρ}
    (hi : Follows (f i) q p) (j : ℕ) :
    Follows (f j) (Function.update progs' i q j) (Function.update progs i p j) := by
  by_cases hj : j = i
  · subst hj
    rwa [Function.update_self,Function.update_self]
  · rw [Function.update_of_ne hj,Function.update_of_ne hj]
    exact h j

variable [DecidableEq α] {sys : System α σ μ ρ} {sys' : System α σ μ τ} {f : ℕ → ρ → τ}

/-- A step of a rewritten program is one of the program itself. -/
theorem Follows.step {v v₁ : World α σ μ τ} {e' : Event α μ τ} {p : Prog α μ ρ} (h : Follows (f v.call) v.prog p)
    (hsendable : ∀ m, sys'.sendable m ↔ sys.sendable m)
    (hhandle : ∀ s m s' replies, sys'.handle s m s' replies → sys.handle s m s' replies)
    (hs : Step sys' v e' v₁) (hcall : v₁.call = v.call) :
    ∃ e q, Step sys ⟨v.servers,v.net,v.call,p⟩ e ⟨v₁.servers,v₁.net,v.call,q⟩ ∧ e' = e.mapResult f ∧
      Follows (f v.call) v₁.prog q := by
  have hacts : v.prog ≠ .fault → v.prog = p >>= fun r => .ret (f v.call r) := h.resolve_right
  cases hs with
  | send hprog hm =>
    obtain ⟨rest,rfl,hnext⟩ := Prog.of_bind_eq_send ((hacts (by rw [hprog]; nofun)).symm.trans hprog)
    exact ⟨_,rest,.send rfl ((hsendable _).mp hm),rfl,Or.inl hnext⟩
  | refuse hprog hm =>
    obtain ⟨rest,rfl,hnext⟩ := Prog.of_bind_eq_send ((hacts (by rw [hprog]; nofun)).symm.trans hprog)
    exact ⟨_,rest,.refuse rfl (mt (hsendable _).mpr hm),rfl,Or.inl hnext⟩
  | receive hprog hnet =>
    obtain ⟨rest,rfl,hnext⟩ := Prog.of_bind_eq_recv ((hacts (by rw [hprog]; nofun)).symm.trans hprog)
    exact ⟨_,_,.receive rfl hnet,rfl,Or.inl (congrFun hnext _)⟩
  | timeOut hprog =>
    obtain ⟨rest,rfl,hnext⟩ := Prog.of_bind_eq_recv ((hacts (by rw [hprog]; nofun)).symm.trans hprog)
    exact ⟨_,_,.timeOut rfl,rfl,Or.inl (congrFun hnext _)⟩
  | serve hnet hserve => exact ⟨_,p,.serve hnet (hhandle _ _ _ _ hserve),rfl,h⟩
  | foreign hserve => exact ⟨_,p,.foreign (hhandle _ _ _ _ hserve),rfl,h⟩
  | lose hnet => exact ⟨_,p,.lose hnet,rfl,h⟩
  | duplicate hp => exact ⟨_,p,.duplicate hp,rfl,h⟩
  | finish => exact absurd hcall (Nat.succ_ne_self _)

/-- The two worlds differ in the programs only. -/
structure Mirrors (f : ℕ → ρ → τ) (w' : SharedWorld α σ μ τ) (w : SharedWorld α σ μ ρ) : Prop where
  servers : w'.servers = w.servers
  net : w'.net = w.net
  progs : ∀ i, Follows (f i) (w'.progs i) (w.progs i)

theorem Mirrors.step {w : SharedWorld α σ μ ρ} {w' w₁' : SharedWorld α σ μ τ} {e' : Event α μ τ}
    (h : Mirrors f w' w) (hsendable : ∀ m, sys'.sendable m ↔ sys.sendable m)
    (hhandle : ∀ s m s' replies, sys'.handle s m s' replies → sys.handle s m s' replies)
    (hs : SharedStep sys' w' e' w₁') : ∃ e w₁, SharedStep sys w e w₁ ∧ e' = e.mapResult f ∧ Mirrors f w₁' w₁ := by
  cases hs with
  | finish hprog =>
    rename_i i r
    have hi := (h.progs i).resolve_right (by rw [hprog]; nofun)
    obtain ⟨r',hr',hg⟩ := Prog.of_bind_eq_ret (hi.symm.trans hprog)
    refine ⟨_,_,.finish hr',?_,⟨h.servers,h.net,Follows.update h.progs (Or.inr rfl)⟩⟩
    rw [Event.mapResult,hg]
  | act hs =>
    rename_i i servers net prog
    obtain ⟨e,q,hstep,he,hq⟩ := Follows.step (h.progs i) hsendable hhandle hs rfl
    have hfocus : (⟨(w'.focus i).servers,(w'.focus i).net,(w'.focus i).call,w.progs i⟩ : World α σ μ ρ) = w.focus i := by
      rw [SharedWorld.focus,SharedWorld.focus,h.servers,h.net]
    rw [hfocus] at hstep
    exact ⟨e,_,.act hstep,he,⟨rfl,rfl,Follows.update h.progs hq⟩⟩

/-- Every run of programs that rewrite results is a run of the programs themselves. -/
theorem SharedRun.mirrored {servers : α → σ} {es' : List (Event α μ τ)} {w' : SharedWorld α σ μ τ}
    (hrun : SharedRun sys' servers es' w') (hcalls : ∀ i, Follows (f i) (sys'.calls i) (sys.calls i))
    (hsendable : ∀ m, sys'.sendable m ↔ sys.sendable m)
    (hhandle : ∀ s m s' replies, sys'.handle s m s' replies → sys.handle s m s' replies) :
    ∃ es w, SharedRun sys servers es w ∧ es' = es.map (Event.mapResult f) ∧ Mirrors f w' w := by
  induction hrun with
  | start => exact ⟨[],_,.start,rfl,⟨rfl,rfl,hcalls⟩⟩
  | step _ hs ih =>
    obtain ⟨es,w,hrun,rfl,hmirrors⟩ := ih
    obtain ⟨e,w₁,hstep,rfl,hmirrors'⟩ := hmirrors.step hsendable hhandle hs
    exact ⟨es ++ [e],w₁,hrun.step hstep,by rw [List.map_append,List.map_singleton],hmirrors'⟩

end PpsDht.DatagramNetworks
