import LinearAssignment.Proofs.Dense.Solver
import LinearAssignment.Proofs.Rectangular.Events

/-! The events of both solvers follow their runs, whatever the arithmetic is. In the dense one a bid
hands the place of the bidder among the rows without column to the row that it displaces, so the
lists of these rows are exact and never get longer; the first bid of all displaces nobody. -/
namespace LinearAssignment

section dense

variable {α : Type} [Cost α] {n m : ℕ} {cost : CostMatrix α n m}

namespace Bidding

variable {b b' : Bidding α n m}

def free (b : Bidding α n m) : List (Fin n) := b.queue ++ b.waiting

theorem Step.length_free_le (h : Step cost b b') : b'.free.length ≤ b.free.length := by
  cases h <;> simp only [free, List.length_append, List.length_cons] <;> omega

/-- The bids of a phase, whether or not it is cut short. -/
theorem exists_steps (steps : ℕ) (s : PricedMatching α n m) (queue waiting : List (Fin n))
    {t : PricedMatching α n m} {free : List (Fin n)}
    (h : s.bidAll cost steps queue waiting = .ok (t, free)) :
    ∃ b, Relation.ReflTransGen (Step cost) ⟨s, queue, waiting⟩ b ∧ b.state = t ∧
      b.free.Perm free := by
  induction steps generalizing s queue waiting with
  | zero =>
    -- The phase is cut short, and the rows of the queue wait as well.
    refine ⟨⟨s, queue, waiting⟩, .refl, ?_⟩
    have hlist : s.bidAll cost 0 queue waiting = .ok (s, waiting.reverse ++ queue) := by
      cases queue with
      | nil => simp [PricedMatching.bidAll]
      | cons i queue => rfl
    obtain ⟨rfl, rfl⟩ := Prod.mk.inj (Except.ok.inj (hlist.symm.trans h))
    exact ⟨rfl, List.perm_append_comm.trans ((List.reverse_perm waiting).symm.append_right queue)⟩
  | succ steps ih =>
    cases queue with
    | nil =>
      obtain ⟨rfl, rfl⟩ := Prod.mk.inj (Except.ok.inj h)
      exact ⟨⟨s, [], waiting⟩, .refl, rfl, (List.reverse_perm waiting).symm⟩
    | cons i queue =>
      obtain ⟨⟨s', displaced⟩, hbid, hrest⟩ := exists_of_bind_eq_ok h
      cases displaced with
      | nobody =>
        obtain ⟨b, hsteps, hb⟩ := ih s' queue waiting hrest
        exact ⟨b, .head (.nobody hbid) hsteps, hb⟩
      | outbid r =>
        obtain ⟨b, hsteps, hb⟩ := ih s' (r :: queue) waiting hrest
        exact ⟨b, .head (.outbid hbid) hsteps, hb⟩
      | deferred r =>
        obtain ⟨b, hsteps, hb⟩ := ih s' queue (r :: waiting) hrest
        exact ⟨b, .head (.deferred hbid) hsteps, hb⟩

theorem length_free_le_of_steps (h : Relation.ReflTransGen (Step cost) b b') :
    b'.free.length ≤ b.free.length := by
  induction h with
  | refl => exact le_rfl
  | tail _ last ih => exact last.length_free_le.trans ih

theorem isSorted_of_steps (h : Relation.ReflTransGen (Step cost) b b') (hb : b.IsSorted)
    (hnm : n ≤ m) : b'.IsSorted := by
  induction h with
  | refl => exact hb
  | tail _ last ih => exact last.isSorted ih hnm

end Bidding

namespace PricedMatching

variable {s t : PricedMatching α n m} {free rows : List (Fin n)}

/-- A phase returns the rows that are without column, and no more of them than it was given. -/
theorem misses_of_reduceRows (h : s.reduceRows cost rows = .ok (t, free)) (hs : s.Consistent)
    (hrows : s.Misses rows) (hnm : n ≤ m) :
    t.Consistent ∧ t.Misses free ∧ free.length ≤ rows.length := by
  obtain ⟨b, hsteps, rfl, hfree⟩ := Bidding.exists_steps _ s rows [] h
  have hb := Bidding.isSorted_of_steps hsteps (Bidding.isSorted_start hs hrows) hnm
  have hle := Bidding.length_free_le_of_steps hsteps
  refine ⟨hb.consistent, hb.misses.perm hfree, ?_⟩
  rw [← hfree.length_eq]
  simpa [Bidding.free] using hle

/-- The first phase matches a row, because the first bid displaces nobody. -/
theorem length_lt_of_reduceRows (h : initial.reduceRows cost (List.finRange n) = .ok (t, free))
    (hnm : n ≤ m) (hn : 0 < n) : free.length < n := by
  have hlength := List.length_finRange (n := n)
  cases hrows : List.finRange n with
  | nil =>
    rw [hrows, List.length_nil] at hlength
    omega
  | cons i queue =>
    rw [hrows, List.length_cons] at hlength
    rw [hrows, reduceRows] at h
    obtain ⟨⟨s, displaced⟩, hbid, hrest⟩ := exists_of_bind_eq_ok h
    obtain ⟨b, j, htakes⟩ := takes_of_bid hnm (Matching.not_isMatched_empty _) hbid
    have hnobody := htakes.displaced
    rw [initial, Matching.rowOf_empty] at hnobody
    cases displaced with
    | outbid r => cases hnobody
    | deferred r => cases hnobody
    | nobody =>
      obtain ⟨b, hsteps, -, hfree⟩ := Bidding.exists_steps _ s queue [] hrest
      have hle := Bidding.length_free_le_of_steps hsteps
      rw [hfree.length_eq, Bidding.free, List.append_nil] at hle
      change free.length ≤ queue.length at hle
      omega

end PricedMatching

namespace Dense

theorem events_augmentAll (count step : ℕ) (rows : List (Fin n)) (p : PricedMatching α n m)
    {q : PricedMatching α n m} (h : (augmentAll cost count step rows p).outcome = .ok q) :
    (augmentAll cost count step rows p).events =
      (rows.zipIdx step).map fun (i, k) => .augment i k count := by
  induction rows generalizing step p with
  | nil => rfl
  | cons i rest ih =>
    unfold augmentAll at h ⊢
    rw [Run.outcome_emit_bind] at h
    obtain ⟨t, ht, hrest⟩ := Run.exists_of_outcome_bind h
    rw [Run.events_emit_bind, Run.events_bind ht, ih (step + 1) t hrest, List.zipIdx_cons]
    rfl

/-- The numbers of the rows without column after each of the two phases of row reduction, in the
order in which they are listed. -/
inductive Leaves (cost : CostMatrix α n m) : List ℕ → List ℕ → Prop
  | intro {s p free rows}
      (first : PricedMatching.initial.reduceRows cost (List.finRange n) = .ok (s, free))
      (first_misses : s.Misses free) (second : s.reduceRows cost free = .ok (p, rows))
      (second_misses : p.Misses rows) : Leaves cost (free.map Fin.val) (rows.map Fin.val)

def LeavesNormal : NormalForm α n m → List ℕ → List ℕ → Prop
  | .upright _ cost => Leaves cost
  | .transposed _ cost => Leaves cost

/-- The events of a run on a normal form that ends at a total cost: two phases of row reduction,
with the number of rows that each leaves without column, and an augmentation for each row that the
second one leaves. -/
inductive IsTrace (N : NormalForm α n m) (total : α) : List (Event α) → Prop
  | trivial (none : min n m = 0) : IsTrace N total [.done total]
  | full {free rows : List ℕ} (leaves : LeavesNormal N free rows)
      (first_lt : free.length < min n m) (length_le : rows.length ≤ free.length)
      (nodup : rows.Nodup) (lt : ∀ i ∈ rows, i < min n m) :
      IsTrace N total ([.rowReduction 1 free.length, .rowReduction 2 rows.length] ++
        (rows.zipIdx 1).map (fun (i, step) => .augment i step rows.length) ++ [.done total])

theorem exists_leaves_of_solveWide (hnm : n ≤ m) (hn : 0 < n) {s : DualMatching α n m}
    (h : (solveWide cost).outcome = .ok s) :
    ∃ free rows, Leaves cost free rows ∧ free.length < n ∧ rows.length ≤ free.length ∧
      rows.Nodup ∧ (∀ i ∈ rows, i < n) ∧
      (solveWide cost).events = [.rowReduction 1 free.length, .rowReduction 2 rows.length] ++
        (rows.zipIdx 1).map (fun (i, step) => .augment i step rows.length) := by
  obtain ⟨q, hq, -⟩ := Run.exists_of_outcome_bind h
  have hevents : (solveWide cost).events = (complete cost).events ++ [] := Run.events_bind hq _
  rw [hevents, List.append_nil]
  unfold complete at hq ⊢
  obtain ⟨⟨t, free⟩, hfirst, hq⟩ := Run.exists_of_outcome_bind hq
  rw [Run.outcome_emit_bind] at hq
  obtain ⟨⟨p, rows⟩, hsecond, hq⟩ := Run.exists_of_outcome_bind hq
  rw [Run.outcome_emit_bind] at hq
  obtain ⟨ht, hfree, -⟩ := PricedMatching.misses_of_reduceRows hfirst Matching.consistent_empty
    Matching.misses_empty hnm
  obtain ⟨-, hrows, hle⟩ := PricedMatching.misses_of_reduceRows hsecond ht hfree hnm
  refine ⟨_, _, .intro hfirst hfree hsecond hrows, ?_, ?_, hrows.nodup.map Fin.val_injective,
    by simp, ?_⟩
  · rw [List.length_map]
    exact PricedMatching.length_lt_of_reduceRows hfirst hnm hn
  · rwa [List.length_map, List.length_map]
  · rw [Run.events_bind hfirst, Run.events_emit_bind, Run.events_bind hsecond,
      Run.events_emit_bind, events_augmentAll _ _ _ _ hq, List.zipIdx_map, List.map_map,
      List.length_map, List.length_map]
    rfl

theorem isTrace_solveNormal {N : NormalForm α n m} (hpos : 0 < min n m) {s : DualMatching α n m}
    (h : (solveNormal N).outcome = .ok s) (total : α) :
    IsTrace N total ((solveNormal N).events ++ [.done total]) := by
  cases N with
  | upright wide cost =>
    rw [min_eq_left wide] at hpos
    obtain ⟨free, rows, hleaves, hlt, hle, hnodup, hrange, hevents⟩ :=
      exists_leaves_of_solveWide wide hpos h
    rw [solveNormal, hevents]
    exact .full hleaves (by rwa [min_eq_left wide]) hle hnodup (by rwa [min_eq_left wide])
  | transposed tall cost =>
    rw [min_eq_right tall.le] at hpos
    obtain ⟨t, ht, -⟩ := Run.exists_of_outcome_bind h
    have hsame : (solveNormal (.transposed tall cost)).events = (solveWide cost).events ++ [] :=
      Run.events_bind ht _
    obtain ⟨free, rows, hleaves, hlt, hle, hnodup, hrange, hevents⟩ :=
      exists_leaves_of_solveWide tall.le hpos ht
    rw [hsame, List.append_nil, hevents]
    exact .full hleaves (by rwa [min_eq_right tall.le]) hle hnodup (by rwa [min_eq_right tall.le])

theorem isTrace_solve {maximize : Bool} {s : Solution α n m}
    (h : (solve cost maximize).outcome = .ok s) :
    IsTrace (cost.normalize maximize) s.total (solve cost maximize).events := by
  by_cases hmin : min n m = 0
  · rw [solve, if_pos hmin] at h ⊢
    obtain rfl := Except.ok.inj h
    exact .trivial hmin
  · rw [solve, if_neg hmin] at h ⊢
    obtain ⟨t, ht, hs⟩ := Run.exists_of_outcome_bind h
    rw [Run.outcome_emit_bind, Run.outcome_pure] at hs
    obtain rfl := Except.ok.inj hs
    rw [Run.events_bind ht, Run.events_emit_bind]
    exact isTrace_solveNormal (Nat.pos_of_ne_zero hmin) ht _

end Dense

end dense

section solve

variable {α : Type} [Cost α] [Cost.LawfulInfinity α] {n m : ℕ}

/-- Whenever a solve returns, its events are those of its run. -/
theorem solve_events (cost : CostMatrix α n m) (maximize : Bool) :
    (∀ s, (Dense.solve cost maximize).outcome = .ok s →
        Dense.IsTrace (cost.normalize maximize) s.total (Dense.solve cost maximize).events) ∧
      ∀ verdict, (Rectangular.solve cost maximize).outcome = .ok verdict →
        Rectangular.IsTrace (min n m) Rectangular.Solution.longSide verdict
          (Rectangular.solve cost maximize).events :=
  ⟨fun _ h => Dense.isTrace_solve h, fun _ h => Rectangular.isTrace_solve h⟩

end solve

/-- The events of a matrix with two rows that compete for a column. -/
theorem solve_events_contested :
    (∃ s, (Dense.solve (.contested 100 10) false).outcome = .ok s ∧
        Dense.IsTrace ((CostMatrix.contested 100 10).normalize false) s.total
          (Dense.solve (.contested 100 10) false).events) ∧
      ∃ s, (Rectangular.solve (.contested 100 10) false).outcome = .ok (.solved s) ∧
        Rectangular.IsTrace 2 Rectangular.Solution.longSide (.solved s)
          (Rectangular.solve (.contested 100 10) false).events := by
  obtain ⟨hdense, hrectangular⟩ := solve_events (.contested 100 10) false
  obtain ⟨⟨s, -, -, hs, -⟩, -⟩ := @Dense.solve_outcome _ _ _ _ (.contested 100 10) false
    CostMatrix.hasInvalidEntry_contested ⟨_, CostMatrix.isAssignment_contested⟩
    CostMatrix.abs_le_of_contested
  obtain ⟨s', -, -, -, hs', -⟩ := Rectangular.exists_solution (.contested 100 10) false
    CostMatrix.hasInvalidEntry_contested ⟨_, CostMatrix.isAssignment_contested⟩
  exact ⟨⟨s, hs, hdense s hs⟩, s', hs', hrectangular _ hs'⟩

end LinearAssignment
