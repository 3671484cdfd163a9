import LinearAssignment.CostMatrix
import LinearAssignment.Matching

/-!
Shortest path search with potentials on both sides, from a row to a free column.

In each round the current row offers a way to every column that has not been scanned, then
the nearest of these columns is scanned. A free column ends the search; any other column
passes it on to the row that holds it.
-/
namespace LinearAssignment

/-- The columns that have not been scanned are the first `count` of `order`. A column leaves
by giving its place to the last of them, so the entries from `count` on are of no account. -/
structure Unscanned (m : Nat) where
  order : Vector (Fin m) m
  count : Nat
  count_le : count ≤ m

namespace Unscanned

variable {m : Nat}

/-- All columns in descending order, so that of equally near columns the one that was listed
last is the leftmost. -/
def all : Unscanned m := ⟨Vector.ofFn Fin.rev, m, Nat.le_refl m⟩

def positions (s : Unscanned m) : List (Fin m) := (List.finRange m).take s.count

def columns (s : Unscanned m) : List (Fin m) := s.positions.map fun k => s.order[k]

def remove (s : Unscanned m) (k : Fin m) : Unscanned m where
  order :=
    let last : Fin m := ⟨s.count - 1, by have := s.count_le; have := k.isLt; omega⟩
    s.order.setIfInBounds k s.order[last]
  count := s.count - 1
  count_le := Nat.le_trans (Nat.sub_le _ _) s.count_le

end Unscanned

structure PathSearch (α : Type) (n m : Nat) where
  reachedBy : Vector (Option (Fin n)) m
  distance : Vector α m
  scannedRows : Vector Bool n
  scannedColumns : Vector Bool m
  unscanned : Unscanned m

structure Sink (α : Type) (m : Nat) where
  column : Fin m
  length : α

inductive PathSearch.Round (α : Type) (n m : Nat) where
  /-- Every column that is left is out of reach. -/
  | unreachable (s : PathSearch α n m)
  /-- A free column has been scanned. -/
  | reached (s : PathSearch α n m) (sink : Sink α m)
  /-- The search goes on from the row that holds the scanned column. -/
  | passed (s : PathSearch α n m) (minimum : α) (i : Fin n)

namespace PathSearch

variable {α : Type} [Cost α] {n m : Nat}

/-- Nothing has been scanned. The rows through which columns were reached in earlier searches
stay until they are overwritten. -/
def start (reachedBy : Vector (Option (Fin n)) m) : PathSearch α n m where
  reachedBy := reachedBy
  distance := Vector.replicate m Cost.infinity
  scannedRows := Vector.replicate n false
  scannedColumns := Vector.replicate m false
  unscanned := .all

def way (cost : CostMatrix α n m) (u : Vector α n) (v : Vector α m) (minimum : α) (i : Fin n)
    (j : Fin m) : α :=
  minimum + cost[i][j] - u[i] - v[j]

def reach (length : Fin m → α) (i : Fin n) (s : PathSearch α n m) (j : Fin m) :
    PathSearch α n m :=
  { s with distance := s.distance.setIfInBounds j (length j),
           reachedBy := s.reachedBy.setIfInBounds j (some i) }

def visit (cost : CostMatrix α n m) (u : Vector α n) (v : Vector α m) (minimum : α) (i : Fin n)
    (s : PathSearch α n m) : PathSearch α n m :=
  let length := way cost u v minimum i
  let nearer := s.unscanned.columns.filter fun j => length j < s.distance[j]
  nearer.foldl (reach length i) { s with scannedRows := s.scannedRows.setIfInBounds i true }

/-- The position of the column to be scanned next: of the nearest ones the free column that
was listed last, or else the one that was listed first. -/
def nearest (s : PathSearch α n m) (isFree : Fin m → Bool) : Except SearchError (Fin m) :=
  let value := fun k : Fin m => s.distance[s.unscanned.order[k]]
  match Cost.firstMinimum? value s.unscanned.positions with
  | none => .error .nothingToMinimize
  | some k =>
    let ties := s.unscanned.positions.filter fun k' => value k' == value k
    match ((ties.filter fun k' => isFree s.unscanned.order[k']).getLast?).or ties.head? with
    | none => .error .minimumNotAttained
    | some k' => .ok k'

def scan (s : PathSearch α n m) (k : Fin m) : PathSearch α n m :=
  { s with scannedColumns := s.scannedColumns.setIfInBounds s.unscanned.order[k] true,
           unscanned := s.unscanned.remove k }

omit [Cost α] in
theorem unscanned_foldl_reach (length : Fin m → α) (i : Fin n) (js : List (Fin m))
    (s : PathSearch α n m) : (js.foldl (reach length i) s).unscanned = s.unscanned := by
  induction js generalizing s with
  | nil => rfl
  | cons j js ih => rw [List.foldl_cons, ih]; rfl

theorem unscanned_visit (cost : CostMatrix α n m) (u : Vector α n) (v : Vector α m)
    (minimum : α) (i : Fin n) (s : PathSearch α n m) :
    (s.visit cost u v minimum i).unscanned = s.unscanned := by
  unfold visit
  exact unscanned_foldl_reach _ _ _ _

theorem count_pos_of_nearest {s : PathSearch α n m} {isFree : Fin m → Bool} {k : Fin m}
    (h : s.nearest isFree = .ok k) : 0 < s.unscanned.count := by
  rcases Nat.eq_zero_or_pos s.unscanned.count with hc | hc
  · simp [nearest, Unscanned.positions, hc, Cost.firstMinimum?] at h
  · exact hc

def round (cost : CostMatrix α n m) (u : Vector α n) (v : Vector α m) (held : Matching n m)
    (minimum : α) (i : Fin n) (s : PathSearch α n m) : Except SearchError (Round α n m) :=
  let s := s.visit cost u v minimum i
  match s.nearest held.isFree with
  | .error e => .error e
  | .ok k =>
    let j := s.unscanned.order[k]
    let lowest := s.distance[j]
    if lowest == Cost.infinity then .ok (.unreachable s)
    else
      match held.rowOf[j] with
      | none => .ok (.reached (s.scan k) ⟨j, lowest⟩)
      | some i' => .ok (.passed (s.scan k) lowest i')

/-- A round that passes the search on leaves one column less to be scanned. -/
theorem count_lt_of_round {cost : CostMatrix α n m} {u : Vector α n} {v : Vector α m}
    {held : Matching n m} {minimum lowest : α} {i i' : Fin n} {s s' : PathSearch α n m}
    (h : s.round cost u v held minimum i = .ok (.passed s' lowest i')) :
    s'.unscanned.count < s.unscanned.count := by
  unfold round at h
  dsimp only at h
  split at h
  · exact absurd h (by simp)
  · rename_i k hk
    have hc := count_pos_of_nearest hk
    rw [unscanned_visit] at hc
    split at h
    · exact absurd h (by simp)
    · split at h
      · exact absurd h (by simp)
      · simp only [Except.ok.injEq, Round.passed.injEq] at h
        rw [← h.1]
        simp only [scan, Unscanned.remove, unscanned_visit]
        omega

/-- Goes on from row `i`, to which the shortest way has length `minimum`, until a free column
is scanned or no column is in reach. Each column is scanned at most once. -/
def run (cost : CostMatrix α n m) (u : Vector α n) (v : Vector α m) (held : Matching n m)
    (minimum : α) (i : Fin n) (s : PathSearch α n m) :
    Except SearchError (PathSearch α n m × Option (Sink α m)) :=
  match _h : s.round cost u v held minimum i with
  | .error e => .error e
  | .ok (.unreachable s') => .ok (s', none)
  | .ok (.reached s' sink) => .ok (s', some sink)
  | .ok (.passed s' lowest i') => run cost u v held lowest i' s'
  termination_by s.unscanned.count
  decreasing_by exact count_lt_of_round _h

end PathSearch

end LinearAssignment
