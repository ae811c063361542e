import Mathlib.Data.List.Induction
import Mathlib.Data.List.Nodup
import Mathlib.Tactic.Common

/-! # Linearization points

Calls overlap in a trace of events. When each call takes effect in one event of the trace,
between its start and its return, the calls in the order of these events are a sequential
run of the object with the same responses. -/
namespace PpsDht.Linearizations

variable {ε ι σ ω β : Type}

/-- A sequential object: an operation changes its state and has a response. -/
structure Object (σ ω β : Type) where
  step : σ → ω → σ × β

def Object.after (obj : Object σ ω β) (s : σ) (ops : List ω) : σ :=
  ops.foldl (fun s op => (obj.step s op).1) s

private theorem Object.after_concat (obj : Object σ ω β) (s : σ) (ops : List ω) (op : ω) :
    obj.after s (ops ++ [op]) = (obj.step (obj.after s ops) op).1 := by
  rw [after,List.foldl_append]
  rfl

/-- Which calls have completed, with what responses, and which were over when another started.
Calls without a response may have taken effect or not. -/
structure History (ι ω β : Type) where
  op : ι → ω
  completed : ι → β → Prop
  precedes : ι → ι → Prop

/-- In this order the calls are a sequential run with the same responses, and a call that was
over when another started comes first. -/
structure Linearizes (obj : Object σ ω β) (start : σ) (h : History ι ω β) (order : List ι) : Prop where
  nodup : order.Nodup
  complete : ∀ i b, h.completed i b → i ∈ order
  realTime : ∀ i j, h.precedes i j → i ∈ order → j ∈ order → [i,j].Sublist order
  legal : ∀ before i after b, order = before ++ i::after → h.completed i b →
    (obj.step (obj.after start (before.map h.op)) (h.op i)).2 = b

variable {obj : Object σ ω β} {start : σ} {h : History ι ω β} {es : List ε} {point : ε → Option ι}

/-- A list cut at an element that a partial map keeps is the image of a list cut there. -/
theorem exists_of_filterMap_eq {before after : List ι} {i : ι} (hes : es.filterMap point = before ++ i::after) :
    ∃ es₁ e es₂, es = es₁ ++ e::es₂ ∧ es₁.filterMap point = before ∧ point e = some i := by
  obtain ⟨es₁,rest,rfl,hbefore,hrest⟩ := List.filterMap_eq_append_iff.mp hes
  obtain ⟨skipped,e,es₂,rfl,hskipped,he,-⟩ := List.filterMap_eq_cons_iff.mp hrest
  refine ⟨es₁ ++ skipped,e,es₂,(List.append_assoc _ _ _).symm,?_,he⟩
  rw [List.filterMap_append,hbefore,List.filterMap_eq_nil_iff.mpr hskipped,List.append_nil]

/-- A state that changes as the object does at the points, and nowhere else, is that of the
sequential run. -/
theorem after_points {abs : List ε → σ} (hstart : abs [] = start)
    (hstep : ∀ before e after, es = before ++ e::after →
      abs (before ++ [e]) = (point e).elim (abs before) fun i => (obj.step (abs before) (h.op i)).1)
    {before after : List ε} (hes : es = before ++ after) :
    abs before = obj.after start ((before.filterMap point).map h.op) := by
  induction before using List.reverseRecOn generalizing after with
  | nil => exact hstart
  | append_singleton before e ih =>
    rw [List.append_assoc] at hes
    rw [hstep before e after hes,ih hes,List.filterMap_append]
    cases he : point e with
    | none => simp [he]
    | some i => simp [he,Object.after_concat]

/-- Calls that take effect at their points, with the response that the state there gives, are
linearized in the order of the points. -/
theorem linearizes_of_points (abs : List ε → σ) (hstart : abs [] = start)
    (hstep : ∀ before e after, es = before ++ e::after →
      abs (before ++ [e]) = (point e).elim (abs before) fun i => (obj.step (abs before) (h.op i)).1)
    (hnodup : (es.filterMap point).Nodup) (hcomplete : ∀ i b, h.completed i b → i ∈ es.filterMap point)
    (hresponse : ∀ before e after i b, es = before ++ e::after → point e = some i → h.completed i b →
      (obj.step (abs before) (h.op i)).2 = b)
    (hprecedes : ∀ i j, h.precedes i j → i ∈ es.filterMap point →
      ∃ before after, es = before ++ after ∧ i ∈ before.filterMap point ∧ j ∉ before.filterMap point) :
    Linearizes obj start h (es.filterMap point) where
  nodup := hnodup
  complete := hcomplete
  realTime i j hij hi hj := by
    obtain ⟨before,after,rfl,hbefore,hnot⟩ := hprecedes i j hij hi
    rw [List.filterMap_append] at hj ⊢
    have hafter := (List.mem_append.mp hj).resolve_left hnot
    exact (List.singleton_sublist.mpr hbefore).append (List.singleton_sublist.mpr hafter)
  legal before i after b hes hb := by
    obtain ⟨es₁,e,es₂,hcut,rfl,he⟩ := exists_of_filterMap_eq hes
    rw [← after_points hstart hstep hcut]
    exact hresponse es₁ e es₂ i b hcut he hb

end PpsDht.Linearizations
