import LinearAssignment.Proofs.Rectangular.Completion

/-! The stages of a run at which the rectangular solver calculates, in the order in which it comes
to them, and the results of all additions and subtractions that it carries out there. -/
namespace LinearAssignment

namespace Rectangular

/-- A stage of a run, with what the solver knows when it comes to it. -/
inductive Stage (α : Type) (n m : ℕ) where
  /-- A row, to which the shortest way has length `minimum`, offers ways to the columns. -/
  | visit (p : Progress α n m) (s : PathSearch α n m) (minimum : α) (i : Fin n)
  /-- The potentials change after a search. -/
  | advance (p : Progress α n m) (s : PathSearch α n m) (root : Fin n) (length : α)

namespace Stage

variable {α : Type} [Cost α] {n m : ℕ}

def results (cost : CostMatrix α n m) : Stage α n m → List α
  | visit p s minimum i =>
    s.unscanned.columns.flatMap fun j =>
      [minimum + cost[i][j], minimum + cost[i][j] - p.rowPotential[i],
        PathSearch.way cost p.rowPotential p.columnPotential minimum i j]
  | advance p s root length =>
    let rows := (List.finRange n).filter fun i => i ≠ root ∧ s.scannedRows[i] = true
    let columns := (List.finRange m).filter fun j => s.scannedColumns[j]
    [p.rowPotential[root] + length] ++
      (rows.flatMap fun i => (p.columnOf[i]).toList.flatMap fun j =>
        [length - s.distance[j], p.rowPotential[i] + (length - s.distance[j])]) ++
      columns.flatMap fun j =>
        [length - s.distance[j], p.columnPotential[j] - (length - s.distance[j])]

variable {cost : CostMatrix α n m} {P : α → Prop} {p : Progress α n m} {s : PathSearch α n m}
  {i root : Fin n} {minimum length : α}

theorem forall_results_visit : (∀ x ∈ (visit p s minimum i).results cost, P x) ↔
    ∀ j, s.unscanned.Lists j → P (minimum + cost[i][j]) ∧
      P (minimum + cost[i][j] - p.rowPotential[i]) ∧
      P (PathSearch.way cost p.rowPotential p.columnPotential minimum i j) := by
  simp [results, -List.mem_flatMap, List.forall_mem_flatMap, Unscanned.mem_columns]

theorem forall_results_advance : (∀ x ∈ (advance p s root length).results cost, P x) ↔
    P (p.rowPotential[root] + length) ∧
      (∀ (i : Fin n) (j : Fin m), i ≠ root → s.scannedRows[i] = true → p.columnOf[i] = some j →
        P (length - s.distance[j]) ∧ P (p.rowPotential[i] + (length - s.distance[j]))) ∧
      ∀ j : Fin m, s.scannedColumns[j] = true →
        P (length - s.distance[j]) ∧ P (p.columnPotential[j] - (length - s.distance[j])) := by
  simp only [results, List.forall_mem_append, List.forall_mem_singleton, List.forall_mem_flatMap,
    List.forall_mem_cons, List.mem_filter, List.mem_finRange, Option.mem_toList,
    decide_eq_true_eq, true_and, and_imp, and_assoc]
  refine and_congr_right fun _ => and_congr_left fun _ => ?_
  exact forall_congr' fun i => ⟨fun h j hi hs hj => h hi hs j hj, fun h hi hs j hj => h j hi hs hj⟩

end Stage

end Rectangular

variable {α : Type} [Cost α] {n m : ℕ}

def PathSearch.stages (cost : CostMatrix α n m) (p : Rectangular.Progress α n m) (root : Fin n)
    (minimum : α) (i : Fin n) (s : PathSearch α n m) : List (Rectangular.Stage α n m) :=
  .visit p s minimum i ::
    match _h : s.round cost p.rowPotential p.columnPotential p.toMatching minimum i with
    | .error _ => []
    | .ok (.unreachable _) => []
    | .ok (.reached t sink) => [.advance p t root sink.length]
    | .ok (.passed t lowest i') => stages cost p root lowest i' t
  termination_by s.unscanned.count
  decreasing_by exact count_lt_of_round _h

namespace PathSearch

variable {cost : CostMatrix α n m} {p : Rectangular.Progress α n m} {root i i' : Fin n}
  {minimum lowest : α} {s t : PathSearch α n m}

theorem stages_of_error {e : SearchError}
    (h : s.round cost p.rowPotential p.columnPotential p.toMatching minimum i = .error e) :
    s.stages cost p root minimum i = [.visit p s minimum i] := by
  rw [stages, h]

theorem stages_of_unreachable
    (h : s.round cost p.rowPotential p.columnPotential p.toMatching minimum i =
      .ok (.unreachable t)) : s.stages cost p root minimum i = [.visit p s minimum i] := by
  rw [stages, h]

theorem stages_of_reached {sink : Sink α m}
    (h : s.round cost p.rowPotential p.columnPotential p.toMatching minimum i =
      .ok (.reached t sink)) :
    s.stages cost p root minimum i = [.visit p s minimum i, .advance p t root sink.length] := by
  rw [stages, h]

theorem stages_of_passed
    (h : s.round cost p.rowPotential p.columnPotential p.toMatching minimum i =
      .ok (.passed t lowest i')) :
    s.stages cost p root minimum i = .visit p s minimum i :: t.stages cost p root lowest i' := by
  rw [stages, h]

end PathSearch

namespace Rectangular

namespace Progress

def searchStages (cost : CostMatrix α n m) (p : Progress α n m) (i : Fin n) :
    List (Stage α n m) :=
  (PathSearch.start p.reachedBy).stages cost p i 0 i

def matchStages (cost : CostMatrix α n m) : List (Fin n) → Progress α n m → List (Stage α n m)
  | [], _ => []
  | i :: rest, p =>
    p.searchStages cost i ++
      match p.search cost i with
      | .ok (s, some sink) => matchStages cost rest (p.advance s i sink)
      | _ => []

end Progress

def stages (cost : CostMatrix α n m) : List (Stage α n m) :=
  Progress.matchStages cost (List.finRange n) .initial

end Rectangular

end LinearAssignment
