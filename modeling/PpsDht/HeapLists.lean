import PpsDht.HeapPrograms

/-! # Arrays and lists on a heap

Blocks of one kind among others; arrays whose cells own the blocks of an item each; lists,
which keep an array and its size and grow by one item at a time. -/
namespace PpsDht.Heaps
open Mem HProp

/-- Blocks of one kind. -/
structure Kind (β γ : Type) where
  block : γ → β
  content : β → Option γ
  content_block : ∀ c, content (block c) = some c

/-- A list keeps an array and its size. New cells of the array are blank. -/
structure ListKind (β ε : Type) where
  head : Kind β (Option Addr × ℕ)
  array : Kind β (List ε)
  blank : ε

section Operations
variable {β γ ε : Type}

/-- A block of another kind is not to be read. -/
def Kind.read (K : Kind β γ) (a : Addr) : HeapProg β γ := do
  match K.content (← load a) with
  | none => fault
  | some c => pure c

def Kind.write (K : Kind β γ) (a : Addr) (c : γ) : HeapProg β Unit := do
  let _ ← K.read a
  store a (K.block c)

def Kind.readAt (K : Kind β (List ε)) (a : Addr) (i : ℕ) : HeapProg β ε := do
  let cells ← K.read a
  match cells[i]? with
  | none => fault
  | some c => pure c

def Kind.writeAt (K : Kind β (List ε)) (a : Addr) (i : ℕ) (c : ε) : HeapProg β Unit := do
  let cells ← K.read a
  if i < cells.length then store a (K.block (cells.set i c)) else fault

def ListKind.readItem (L : ListKind β ε) (list : Addr) (i : ℕ) : HeapProg β ε := do
  match (← L.head.read list).1 with
  | none => fault
  | some a => L.array.readAt a i

/-- `realloc` of an array to `n` cells: a null pointer when there is no memory. -/
def ListKind.realloc (L : ListKind β ε) (A : Allocator) (array : Option Addr) (n : ℕ) : HeapProg β (Option Addr) :=
  match array with
  | none => alloc A (L.array.block (List.replicate n L.blank))
  | some a => do
    let cells ← L.array.read a
    let new ← alloc A (L.array.block (cells.take n ++ List.replicate (n - cells.length) L.blank))
    if new = none then pure none
    else do
      free (some a)
      pure new

/-- A loop of `n` turns from `i` on. -/
def loop (turn : ℕ → HeapProg β Unit) : ℕ → ℕ → HeapProg β Unit
  | 0, _ => pure ()
  | n+1, i => do
    turn i
    loop turn n (i + 1)

end Operations

variable {α α' β γ δ ε : Type} {F : HProp β} {f : Mem α'} {R : α → α' → HProp β} {A : Allocator} {a q list : Addr}
  {p : Option Addr} {i n : ℕ}

namespace Kind

theorem read_bind {K : Kind β γ} {c : γ} {k : γ → HeapProg β α}
    (h : Implements (HProp.block a (K.block c) * F) (k c) f R) :
    Implements (HProp.block a (K.block c) * F) (K.read a >>= k) f R := by
  rw [read,bind_assoc]
  refine .load_bind ?_
  rw [K.content_block]
  exact h

theorem write_bind {K : Kind β γ} {c c' : γ} {k : Unit → HeapProg β α}
    (h : Implements (HProp.block a (K.block c') * F) (k ()) f R) :
    Implements (HProp.block a (K.block c) * F) (K.write a c' >>= k) f R := by
  rw [write,bind_assoc]
  exact read_bind (.store_bind h)

variable {K : Kind β (List ε)} {cells : List ε} {c : ε}

theorem readAt_bind (hc : cells[i]? = some c) {k : ε → HeapProg β α}
    (h : Implements (HProp.block a (K.block cells) * F) (k c) f R) :
    Implements (HProp.block a (K.block cells) * F) (K.readAt a i >>= k) f R := by
  rw [readAt,bind_assoc]
  refine read_bind ?_
  rw [hc]
  exact h

theorem writeAt_bind (hi : i < cells.length) {k : Unit → HeapProg β α}
    (h : Implements (HProp.block a (K.block (cells.set i c)) * F) (k ()) f R) :
    Implements (HProp.block a (K.block cells) * F) (K.writeAt a i c >>= k) f R := by
  rw [writeAt,bind_assoc]
  refine read_bind ?_
  rw [if_pos hi]
  exact .store_bind h

end Kind

/-- The blocks that the cells own. -/
def partsOf (own : ε → δ → HProp β) (cells : List ε) (items : List δ) : HProp β := (List.zipWith own cells items).prod

section Parts
variable {own : ε → δ → HProp β}

@[simp] theorem partsOf_nil (cells : List ε) : partsOf own cells [] = 1 := by
  rw [partsOf,List.zipWith_nil_right,List.prod_nil]

@[simp] theorem partsOf_cons (c : ε) (cells : List ε) (d : δ) (items : List δ) :
    partsOf own (c::cells) (d::items) = own c d * partsOf own cells items := List.prod_cons

private theorem partsOf_append {cells : List ε} {items : List δ} (h : cells.length = items.length) (c : ε) (d : δ) :
    partsOf own (cells ++ [c]) (items ++ [d]) = partsOf own cells items * own c d := by
  rw [partsOf,List.zipWith_append h,List.prod_append]
  exact congrArg _ (mul_one _)

/-- One item of several, which may change while the others stay. -/
theorem partsOf_split {cells : List ε} {items : List δ} {c : ε} {d : δ} (hc : cells[i]? = some c)
    (hd : items[i]? = some d) : ∃ rest, partsOf own cells items = own c d * rest ∧
      ∀ c' d', partsOf own (cells.set i c') (items.set i d') = own c' d' * rest := by
  induction cells generalizing items i with
  | nil => cases hc
  | cons c₀ cells ih =>
    cases items with
    | nil => cases hd
    | cons d₀ items =>
      cases i with
      | zero =>
        obtain rfl : c₀ = c := Option.some.inj hc
        obtain rfl : d₀ = d := Option.some.inj hd
        exact ⟨_,partsOf_cons ..,fun _ _ => partsOf_cons ..⟩
      | succ i =>
        obtain ⟨rest,hsplit,hset⟩ := ih hc hd
        refine ⟨own c₀ d₀ * rest,?_,fun c' d' => ?_⟩
        · rw [partsOf_cons,hsplit,mul_left_comm]
        · rw [List.set_cons_succ,List.set_cons_succ,partsOf_cons,hset,mul_left_comm]

theorem partsOf_occupies {size : δ → ℕ} (h : ∀ c d, Occupies (own c d) (size d)) {cells : List ε} {items : List δ}
    (hlength : cells.length = items.length) : Occupies (partsOf own cells items) (items.map size).sum := by
  induction cells generalizing items with
  | nil =>
    obtain rfl := List.length_eq_zero_iff.mp hlength.symm
    exact .one
  | cons c cells ih =>
    cases items with
    | nil => cases hlength
    | cons d items =>
      rw [partsOf_cons]
      exact (h c d).mul (ih (Nat.succ.inj hlength))

/-- A loop that takes what each cell of an array owns. -/
theorem loop_implements {K : Kind β (List ε)} {turn : ℕ → HeapProg β Unit}
    (hturn : ∀ cells i c d, cells[i]? = some c → Implements (HProp.block q (K.block cells) * own c d) (turn i)
      (pure ()) fun _ _ => ⨆ c, HProp.block q (K.block (cells.set i c)))
    {cells : List ε} {items : List δ} (hcells : i + n = cells.length) (hitems : items.length = n) :
    Implements (HProp.block q (K.block cells) * partsOf own (cells.drop i) items) (loop turn n i) (pure ())
      fun _ _ => ⨆ cells, HProp.block q (K.block cells) := by
  induction n generalizing i cells items with
  | zero =>
    obtain rfl := List.length_eq_zero_iff.mp hitems
    rw [partsOf_nil,mul_one]
    exact .pure (le_iSup_of_le cells le_rfl)
  | succ n ih =>
    obtain ⟨d,items,rfl⟩ := List.exists_cons_of_length_eq_add_one hitems
    have hi : i < cells.length := by omega
    rw [loop,List.drop_eq_getElem_cons hi,partsOf_cons,← mul_assoc]
    refine (hturn cells i _ d (List.getElem?_eq_getElem hi)).silent fun _ => ?_
    rw [Quantale.iSup_mul_distrib]
    refine .iSup fun c => ?_
    have hdrop : (cells.set i c).drop (i + 1) = cells.drop (i + 1) := List.drop_set_of_lt (Nat.lt_add_one i)
    rw [← hdrop]
    exact ih (by rw [List.length_set]; omega) (Nat.succ.inj hitems)

end Parts

/-- The array of a list, which is missing before the first item. -/
def arrayAt (L : ListKind β ε) (own : ε → δ → HProp β) : Option Addr → List δ → HProp β
  | none, items => given (items = []) 1
  | some q, items => ⨆ cells : List ε, given (cells.length = items.length)
    (block q (L.array.block cells) * partsOf own cells items)

def listAt (L : ListKind β ε) (own : ε → δ → HProp β) (list : Addr) (items : List δ) : HProp β :=
  ⨆ p, block list (L.head.block (p,items.length)) * arrayAt L own p items

section Lists
variable {L : ListKind β ε} {own : ε → δ → HProp β} {items : List δ}

private theorem le_arrayAt {cells : List ε} (h : cells.length = items.length) :
    HProp.block q (L.array.block cells) * partsOf own cells items ≤ arrayAt L own (some q) items :=
  le_iSup_of_le cells (le_given h le_rfl)

theorem le_listAt (list : Addr) (p : Option Addr) (items : List δ) :
    HProp.block list (L.head.block (p,items.length)) * arrayAt L own p items ≤ listAt L own list items :=
  le_iSup_of_le p le_rfl

theorem le_listAt_append (list : Addr) (p : Option Addr) (items : List δ) (d : δ) : HProp.block list (L.head.block
    (p,items.length + 1)) * arrayAt L own p (items ++ [d]) ≤ listAt L own list (items ++ [d]) := by
  have hle : HProp.block list _ * arrayAt L own p (items ++ [d]) ≤ _ := le_listAt list p (items ++ [d])
  rwa [List.length_append] at hle

theorem le_listAt_nil (list : Addr) : HProp.block list (L.head.block (none,0)) ≤ listAt L own list [] := by
  have hle : HProp.block list (L.head.block (none,0)) * arrayAt L own none [] ≤ listAt L own list [] :=
    le_listAt list none []
  rwa [arrayAt,given_of_true rfl,mul_one] at hle

/-- One way for a list to lie in memory, with its pointers. -/
inductive ListIn (L : ListKind β ε) (own : ε → δ → HProp β) (list : Addr) : HProp β → List δ → Prop
  | nil : ListIn L own list (HProp.block list (L.head.block (none,0))) []
  | array {cells : List ε} {items : List δ} (q : Addr) (h : cells.length = items.length) :
      ListIn L own list (HProp.block list (L.head.block (some q,items.length)) *
        (HProp.block q (L.array.block cells) * partsOf own cells items)) items

private theorem listAt_cases {h : Heap β} (hlist : listAt L own list items h) :
    items = [] ∧ HProp.block list (L.head.block (none,0)) h ∨ ∃ q cells, cells.length = items.length ∧
      (HProp.block list (L.head.block (some q,items.length)) *
        (HProp.block q (L.array.block cells) * partsOf own cells items)) h := by
  obtain ⟨p,hp⟩ := iSup_iff.mp hlist
  cases p with
  | none =>
    rw [arrayAt,mul_given,mul_one] at hp
    obtain ⟨rfl,hp⟩ := hp
    exact Or.inl ⟨rfl,hp⟩
  | some q =>
    rw [arrayAt,Quantale.mul_iSup_distrib] at hp
    obtain ⟨cells,hp⟩ := iSup_iff.mp hp
    rw [mul_given] at hp
    exact Or.inr ⟨q,cells,hp⟩

/-- A list lies in memory in one of the ways. -/
theorem listAt_le_iSup (list : Addr) (items : List δ) : listAt L own list items ≤
    ⨆ S : { S : HProp β // ListIn L own list S items ∧ S ≤ listAt L own list items }, S.1 := by
  intro h hlist
  rcases listAt_cases hlist with ⟨rfl,hh⟩ | ⟨q,cells,hcells,hh⟩
  · exact iSup_iff.mpr ⟨⟨_,.nil,le_listAt_nil list⟩,hh⟩
  · refine iSup_iff.mpr ⟨⟨_,.array q hcells,?_⟩,hh⟩
    exact (mul_le_mul_right (le_arrayAt hcells) _).trans (le_listAt list (some q) items)

theorem listAt_bind {m : HeapProg β α} (h : ∀ S, ListIn L own list S items → S ≤ listAt L own list items →
    Implements (S * F) m f R) : Implements (listAt L own list items * F) m f R := by
  refine Implements.mono ?_ (mul_le_mul_left (listAt_le_iSup list items) F) fun _ _ => le_rfl
  rw [Quantale.iSup_mul_distrib]
  exact .iSup fun S => h S.1 S.2.1 S.2.2

variable {S : HProp β}

/-- The size of a list is the number of its items. -/
theorem ListIn.readHead_bind (hS : ListIn L own list S items) {k : Option Addr × ℕ → HeapProg β α}
    (h : ∀ p, Implements (S * F) (k (p,items.length)) f R) :
    Implements (S * F) (L.head.read list >>= k) f R := by
  cases hS with
  | nil => exact Kind.read_bind (h none)
  | array q hcells =>
    rw [mul_assoc]
    refine Kind.read_bind ?_
    rw [← mul_assoc]
    exact h (some q)

/-- A cell of a list can be read, what it owns is a part of the list. -/
theorem ListIn.readItem_bind (hS : ListIn L own list S items) {d : δ} (hd : items[i]? = some d)
    {k : ε → HeapProg β α} (h : ∀ c rest, own c d * rest = S → Implements (own c d * (rest * F)) (k c) f R) :
    Implements (S * F) (L.readItem list i >>= k) f R := by
  cases hS with
  | nil => cases hd
  | @array cells _ q hcells =>
    have hi := (List.getElem?_eq_some_iff.mp hd).1
    obtain ⟨c,hc⟩ : ∃ c, cells[i]? = some c := ⟨_,List.getElem?_eq_getElem (hi.trans_eq hcells.symm)⟩
    obtain ⟨rest,hsplit,-⟩ : ∃ rest, partsOf own cells items = own c d * rest ∧ _ := partsOf_split hc hd
    have hlist : own c d * (HProp.block list (L.head.block (some q,items.length)) *
        (HProp.block q (L.array.block cells) * rest)) = HProp.block list (L.head.block (some q,items.length)) *
          (HProp.block q (L.array.block cells) * partsOf own cells items) := by
      rw [hsplit]
      ac_rfl
    have hback : HProp.block q (L.array.block cells) * (HProp.block list (L.head.block (some q,items.length)) *
        (own c d * rest * F)) = own c d * (HProp.block list (L.head.block (some q,items.length)) *
          (HProp.block q (L.array.block cells) * rest) * F) := by ac_rfl
    rw [ListKind.readItem,bind_assoc,mul_assoc]
    refine Kind.read_bind ?_
    dsimp only
    rw [mul_assoc,mul_left_comm]
    refine Kind.readAt_bind hc ?_
    rw [hsplit,hback]
    exact h c _ hlist

/-- Behind its end a list is not to be read. -/
theorem ListIn.readItem_fault (hS : ListIn L own list S items) (hd : items[i]? = none) (k : ε → HeapProg β α) :
    Implements (S * F) (L.readItem list i >>= k) (undefined : Mem α') R := by
  rw [ListKind.readItem,bind_assoc]
  cases hS with
  | nil => exact Kind.read_bind .fault
  | @array cells _ q hcells =>
    have hc : cells[i]? = none := by
      rw [List.getElem?_eq_none_iff] at hd ⊢
      exact hcells.trans_le hd
    rw [mul_assoc]
    refine Kind.read_bind ?_
    dsimp only
    rw [mul_assoc,mul_left_comm,Kind.readAt,bind_assoc]
    refine Kind.read_bind ?_
    rw [hc]
    exact .fault

theorem readHead_bind {k : Option Addr × ℕ → HeapProg β α}
    (h : ∀ p, Implements (listAt L own list items * F) (k (p,items.length)) f R) :
    Implements (listAt L own list items * F) (L.head.read list >>= k) f R :=
  listAt_bind fun _ hS hle => hS.readHead_bind fun p => (h p).mono (mul_le_mul_left hle F) fun _ _ => le_rfl

theorem readItem_bind {d : δ} (hd : items[i]? = some d) {k : ε → HeapProg β α} (h : ∀ c rest,
      own c d * rest ≤ listAt L own list items → Implements (own c d * (rest * F)) (k c) f R) :
    Implements (listAt L own list items * F) (L.readItem list i >>= k) f R :=
  listAt_bind fun _ hS hle => hS.readItem_bind hd fun c rest hrest => h c rest (hrest.trans_le hle)

/-- The array with one more cell, or the old one. -/
theorem realloc_bind {k : Option Addr → HeapProg β α} {g : Bool → Mem α'}
    (hsome : ∀ q cells, cells.length = items.length → Implements
      (HProp.block q (L.array.block (cells ++ [L.blank])) * (partsOf own cells items * F)) (k (some q)) (g true) R)
    (hnone : Implements (arrayAt L own p items * F) (k none) (g false) R) :
    Implements (arrayAt L own p items * F) (L.realloc A p (items.length + 1) >>= k) (malloc >>= g) R := by
  cases p with
  | none =>
    rw [arrayAt,given_mul] at *
    refine .given fun hitems => ?_
    rw [given_of_true hitems] at hnone
    subst hitems
    exact .alloc_bind (fun q => hsome q [] rfl) hnone
  | some q =>
    rw [arrayAt,Quantale.iSup_mul_distrib]
    refine .iSup fun cells => ?_
    rw [given_mul]
    refine .given fun hcells => ?_
    rw [ListKind.realloc,bind_assoc,mul_assoc]
    refine Kind.read_bind ?_
    have htake : cells.take (items.length + 1) ++ List.replicate (items.length + 1 - cells.length) L.blank =
        cells ++ [L.blank] := by
      rw [hcells,Nat.add_sub_cancel_left,List.take_of_length_le (by omega)]
      rfl
    rw [htake,bind_assoc]
    refine .alloc_bind (fun q' => ?_) ?_
    · rw [if_neg (Option.some_ne_none _),mul_left_comm,bind_assoc]
      exact .free_bind (hsome q' cells hcells)
    · rw [if_pos rfl,← mul_assoc]
      exact hnone.mono (mul_le_mul_left (le_arrayAt hcells) _) fun _ _ => le_rfl

theorem set_last {cells : List ε} (hcells : cells.length = items.length) (c₀ c : ε) :
    (cells ++ [c₀]).set items.length c = cells ++ [c] := by
  rw [← hcells,List.set_append_right _ _ le_rfl,Nat.sub_self]
  rfl

/-- The last cell is written. -/
theorem writeLast_bind {cells : List ε} (hcells : cells.length = items.length) {c₀ c : ε} {d : δ}
    {k : Unit → HeapProg β α} (h : Implements (arrayAt L own (some q) (items ++ [d]) * F) (k ()) f R) : Implements
    (HProp.block q (L.array.block (cells ++ [c₀])) * (partsOf own cells items * own c d * F))
    (L.array.writeAt q items.length c >>= k) f R := by
  refine Kind.writeAt_bind (by rw [List.length_append,hcells]; exact Nat.lt_succ_self _) ?_
  rw [set_last hcells,← partsOf_append hcells,← mul_assoc]
  refine h.mono (mul_le_mul_left (le_arrayAt ?_) _) fun _ _ => le_rfl
  rw [List.length_append,List.length_append,hcells]
  rfl

/-- A loop that frees what each cell owns, over the array of a list. -/
theorem loop_array_bind {turn : ℕ → HeapProg β Unit}
    (hturn : ∀ cells i c d, cells[i]? = some c → Implements (HProp.block q (L.array.block cells) * own c d) (turn i)
      (pure ()) fun _ _ => ⨆ c, HProp.block q (L.array.block (cells.set i c))) {k : Unit → HeapProg β α}
    (h : ∀ cells, Implements (HProp.block q (L.array.block cells) * F) (k ()) f R) :
    Implements (arrayAt L own (some q) items * F) (loop turn items.length 0 >>= k) f R := by
  rw [arrayAt,Quantale.iSup_mul_distrib]
  refine .iSup fun cells => ?_
  rw [given_mul]
  refine .given fun hcells => ?_
  refine (loop_implements hturn (by rw [hcells,Nat.zero_add]) rfl).silent fun _ => ?_
  rw [Quantale.iSup_mul_distrib]
  exact .iSup h

end Lists

end PpsDht.Heaps
