import LinearAssignment.CostMatrix
import LinearAssignment.Matching
import LinearAssignment.Proofs.CostOrder
import LinearAssignment.Run

/-! Costs that can be read as exact ones. Comparisons do not depend on the reading, and neither does
an operation whose exact result the arithmetic can represent, so a run in which all results can be
represented is the exact run. -/
namespace LinearAssignment

variable {α β : Type} {bound : ℚ} {bids n m : ℕ}

def Exact.Meets (P : ℚ → Prop) (x : Exact bound bids) : Prop := ∃ a : ℚ, x = .number a ∧ P a

/-- Costs compare as what they are read as, and operations give the exact result if it has
property `P`. Numbers with this property are no larger than the largest one. -/
structure Cost.IsReading [Cost α] (read : α → Exact bound bids) (P : ℚ → Prop) : Prop where
  zero : read 0 = 0
  infinity : read Cost.infinity = Cost.infinity
  levels : Cost.levels α = bids
  isNaN : ∀ x, Cost.isNaN (read x) = Cost.isNaN x
  lt_iff : ∀ x y, read x < read y ↔ x < y
  beq_eq : ∀ x y, (read x == read y) = (x == y)
  add : ∀ {x y}, (read x + read y).Meets P → read (x + y) = read x + read y
  sub : ∀ {x y}, (read x - read y).Meets P → read (x - y) = read x - read y
  not_largest_lt : ∀ {x}, (read x).Meets P → ¬ Cost.largest < x ∧ ¬ Cost.largest < read x

namespace Run

def map {event event' result result' error : Type} (g : event → event') (k : result → result')
    (r : Run event error result) : Run event' error result' :=
  ⟨r.events.map g, r.outcome.map k⟩

variable {event event' result result' other other' error : Type} {g : event → event'}
  {k : other → other'}

theorem exists_of_outcome_map {r : Run event error other} {y : other'}
    (h : (r.map g k).outcome = .ok y) : ∃ x, r.outcome = .ok x ∧ k x = y := by
  obtain ⟨events, outcome⟩ := r
  cases outcome with
  | error e => simp [map, Except.map] at h
  | ok x => exact ⟨x, rfl, Except.ok.inj h⟩

theorem map_emit_bind (e : event) (next : Run event error other) :
    (emit e >>= fun _ => next).map g k = emit (g e) >>= fun _ => next.map g k := rfl

/-- A step commutes with a reading if what follows it does. -/
theorem map_bind {f : result → result'} {r : Run event error result}
    {next : result → Run event error other} {next' : result' → Run event' error other'}
    (h : ∀ x, r.outcome = .ok x → next' (f x) = (next x).map g k) :
    (r >>= next).map g k = r.map g f >>= next' := by
  obtain ⟨events, outcome⟩ := r
  cases outcome with
  | error e => rfl
  | ok x =>
    change Run.mk ((events ++ (next x).events).map g) ((next x).outcome.map k) =
      ⟨events.map g ++ (next' (f x)).events, (next' (f x)).outcome⟩
    rw [h x rfl, List.map_append]
    rfl

theorem map_ofExcept_bind {f : result → result'} {r : Except error result}
    {next : result → Run event error other} {next' : result' → Run event' error other'}
    (h : ∀ x, r = .ok x → next' (f x) = (next x).map g k) :
    (ofExcept r >>= next).map g k = ofExcept (r.map f) >>= next' :=
  map_bind h

end Run

def DualMatching.map (g : α → β) (s : DualMatching α n m) : DualMatching β n m :=
  ⟨s.toMatching, s.rowPotential.map g, s.columnPotential.map g⟩

theorem map_setIfInBounds (g : α → β) (xs : Vector α m) (k : Fin m) (x : α) :
    (xs.setIfInBounds k x).map g = (xs.map g).setIfInBounds k (g x) := by
  apply ext_fin
  intro j
  simp only [getElem_map_fin, getElem_set_fin]
  split <;> rfl

theorem getElem_mapEntries_row (g : α → β) (cost : CostMatrix α n m) (i : Fin n) :
    (cost.mapEntries g)[i] = cost[i].map g :=
  getElem_map_fin _ _ _

namespace Cost.IsReading

variable {ι : Type} [Cost α] {read : α → Exact bound bids} {P : ℚ → Prop}

theorem displaces (h : IsReading read P) (x y : α) :
    Cost.displaces (read x) (read y) = Cost.displaces x y := by
  simp [Cost.displaces, h.isNaN, h.lt_iff]

theorem atMost (h : IsReading read P) (x y : α) :
    Cost.atMost (read x) (read y) = Cost.atMost x y := by
  simp [Cost.atMost, h.lt_iff, h.beq_eq]

theorem firstMinimum? (h : IsReading read P) (value : ι → α) (l : List ι) :
    Cost.firstMinimum? (fun i => read (value i)) l = Cost.firstMinimum? value l := by
  cases l with
  | nil => rfl
  | cons i l => simp only [Cost.firstMinimum?, h.displaces]

theorem firstMinimum?_of_map (h : IsReading read P) {xs : Vector (Exact bound bids) m}
    {ys : Vector α m} (hxs : xs = ys.map read) (l : List (Fin m)) :
    Cost.firstMinimum? (fun j : Fin m => xs[j]) l =
      Cost.firstMinimum? (fun j : Fin m => ys[j]) l := by
  rw [hxs]
  simp only [getElem_map_fin, h.firstMinimum?]

end Cost.IsReading

end LinearAssignment
