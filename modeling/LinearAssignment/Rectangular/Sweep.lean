import LinearAssignment.Rectangular.PathSearch

/-!
Shortest path search that looks at the columns one at a time.

In each round the columns that have not been scanned are swept once in their order. Each of them is
offered the way through the current row and then contends for the lead, before the next column is
looked at.
-/
namespace LinearAssignment

/-- The nearest of the columns looked at so far: its distance and its position. -/
structure Leader (α ι : Type) where
  lowest : α
  position : Option ι

namespace Leader

variable {α ι : Type} [Cost α]

/-- Nobody leads, and only what is below infinity or free can take the lead. -/
def nobody : Leader α ι := ⟨Cost.infinity, none⟩

/-- A column takes the lead if it is nearer than the leader, or if it is as near and free. -/
def challenge (leader : Leader α ι) (k : ι) (distance : α) (isFree : Bool) : Leader α ι :=
  if distance < leader.lowest || (distance == leader.lowest && isFree) then ⟨distance, some k⟩
  else leader

end Leader

namespace PathSearch

variable {α : Type} [Cost α] {n m : Nat}

def offer (cost : CostMatrix α n m) (u : Vector α n) (v : Vector α m) (minimum : α) (i : Fin n)
    (s : PathSearch α n m) (j : Fin m) : PathSearch α n m :=
  let length := minimum + cost[i][j] - u[i] - v[j]
  if length < s.distance[j] then
    { s with distance := s.distance.setIfInBounds j length,
             reachedBy := s.reachedBy.setIfInBounds j (some i) }
  else s

def look (cost : CostMatrix α n m) (u : Vector α n) (v : Vector α m) (held : Matching n m)
    (minimum : α) (i : Fin n) (state : PathSearch α n m × Leader α (Fin m)) (k : Fin m) :
    PathSearch α n m × Leader α (Fin m) :=
  let j := state.1.unscanned.order[k]
  let s := state.1.offer cost u v minimum i j
  (s, state.2.challenge k s.distance[j] (held.isFree j))

def sweep (cost : CostMatrix α n m) (u : Vector α n) (v : Vector α m) (held : Matching n m)
    (minimum : α) (i : Fin n) (s : PathSearch α n m) : PathSearch α n m × Leader α (Fin m) :=
  ((List.finRange m).take s.unscanned.count).foldl (look cost u v held minimum i)
    ({ s with scannedRows := s.scannedRows.setIfInBounds i true }, .nobody)

/-- Marks the column at a position as scanned. The last of the listed columns takes its place, and
the list gets shorter by one. -/
def settle (s : PathSearch α n m) (k : Fin m) : PathSearch α n m :=
  let order := s.unscanned.order
  let count := s.unscanned.count - 1
  let last : Fin m := ⟨count, by have := s.unscanned.count_le; have := k.isLt; omega⟩
  { s with scannedColumns := s.scannedColumns.setIfInBounds order[k] true,
           unscanned := ⟨order.setIfInBounds k order[last], count,
             Nat.le_trans (Nat.sub_le _ _) s.unscanned.count_le⟩ }

def sweepRound (cost : CostMatrix α n m) (u : Vector α n) (v : Vector α m) (held : Matching n m)
    (minimum : α) (i : Fin n) (s : PathSearch α n m) : Except SearchError (Round α n m) :=
  let (s, leader) := s.sweep cost u v held minimum i
  if leader.lowest == Cost.infinity then .ok (.unreachable s)
  else
    match leader.position with
    | none => .error .minimumNotAttained
    | some k =>
      let j := s.unscanned.order[k]
      match held.rowOf[j] with
      | none => .ok (.reached (s.settle k) ⟨j, leader.lowest⟩)
      | some i' => .ok (.passed (s.settle k) leader.lowest i')

section unscanned

variable (cost : CostMatrix α n m) (u : Vector α n) (v : Vector α m) (held : Matching n m)
  (minimum : α) (i : Fin n)

theorem unscanned_offer (s : PathSearch α n m) (j : Fin m) :
    (s.offer cost u v minimum i j).unscanned = s.unscanned := by
  unfold offer
  dsimp only
  split <;> rfl

theorem unscanned_foldl_look (ks : List (Fin m)) (state : PathSearch α n m × Leader α (Fin m)) :
    (ks.foldl (look cost u v held minimum i) state).1.unscanned = state.1.unscanned := by
  induction ks generalizing state with
  | nil => rfl
  | cons k ks ih =>
    rw [List.foldl_cons, ih]
    exact unscanned_offer cost u v minimum i _ _

theorem unscanned_sweep (s : PathSearch α n m) :
    (s.sweep cost u v held minimum i).1.unscanned = s.unscanned :=
  unscanned_foldl_look cost u v held minimum i _ _

end unscanned

theorem count_pos_of_sweep {cost : CostMatrix α n m} {u : Vector α n} {v : Vector α m}
    {held : Matching n m} {minimum : α} {i : Fin n} {s : PathSearch α n m} {k : Fin m}
    (h : (s.sweep cost u v held minimum i).2.position = some k) : 0 < s.unscanned.count := by
  rcases Nat.eq_zero_or_pos s.unscanned.count with hc | hc
  · simp [sweep, hc, Leader.nobody] at h
  · exact hc

theorem count_lt_of_sweepRound {cost : CostMatrix α n m} {u : Vector α n} {v : Vector α m}
    {held : Matching n m} {minimum lowest : α} {i i' : Fin n} {s s' : PathSearch α n m}
    (h : s.sweepRound cost u v held minimum i = .ok (.passed s' lowest i')) :
    s'.unscanned.count < s.unscanned.count := by
  unfold sweepRound at h
  dsimp only at h
  split at h
  · exact absurd h (by simp)
  · split at h
    · exact absurd h (by simp)
    · rename_i k hk
      have hc := count_pos_of_sweep hk
      split at h
      · exact absurd h (by simp)
      · simp only [Except.ok.injEq, Round.passed.injEq] at h
        rw [← h.1]
        simp only [settle, unscanned_sweep]
        omega

def sweepRun (cost : CostMatrix α n m) (u : Vector α n) (v : Vector α m) (held : Matching n m)
    (minimum : α) (i : Fin n) (s : PathSearch α n m) :
    Except SearchError (PathSearch α n m × Option (Sink α m)) :=
  match _h : s.sweepRound cost u v held minimum i with
  | .error e => .error e
  | .ok (.unreachable s') => .ok (s', none)
  | .ok (.reached s' sink) => .ok (s', some sink)
  | .ok (.passed s' lowest i') => sweepRun cost u v held lowest i' s'
  termination_by s.unscanned.count
  decreasing_by exact count_lt_of_sweepRound _h

end PathSearch

end LinearAssignment
