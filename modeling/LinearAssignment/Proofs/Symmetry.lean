import LinearAssignment.Dense.Solver
import LinearAssignment.Proofs.Binary.Negation
import LinearAssignment.Proofs.Rectangular.Verdict

/-! The symmetries of a problem, which both solvers respect to the last bit. To maximise is to
minimise the negated matrix, and a matrix that is not square has the same normal form as its
transpose, so in both cases the two runs go through the same search. -/
namespace LinearAssignment

inductive Alike {ε α β : Type} (R : α → β → Prop) : Except ε α → Except ε β → Prop
  | error (e : ε) : Alike R (.error e) (.error e)
  | ok {a : α} {b : β} (h : R a b) : Alike R (.ok a) (.ok b)

namespace Alike

variable {event event' ε α α' β β' : Type} {R : α → β → Prop} {S : α' → β' → Prop}

theorem of_ok {R : α → α → Prop} {x : Except ε α} (h : ∀ a, x = .ok a → R a a) : Alike R x x := by
  cases x with
  | error e => exact .error e
  | ok a => exact .ok (h a rfl)

theorem symm {x : Except ε α} {y : Except ε β} (h : Alike R x y) :
    Alike (fun b a => R a b) y x := by
  cases h with
  | error e => exact .error e
  | ok h => exact .ok h

theorem imp {T : α → β → Prop} {x : Except ε α} {y : Except ε β} (h : Alike R x y)
    (hRT : ∀ a b, R a b → T a b) : Alike T x y := by
  cases h with
  | error e => exact .error e
  | ok h => exact .ok (hRT _ _ h)

theorem bind {r : Run event ε α} {r' : Run event' ε β} {next : α → Run event ε α'}
    {next' : β → Run event' ε β'} (h : Alike R r.outcome r'.outcome)
    (hnext : ∀ a b, R a b → Alike S (next a).outcome (next' b).outcome) :
    Alike S (r >>= next).outcome (r' >>= next').outcome := by
  generalize hx : r.outcome = x at h
  generalize hy : r'.outcome = y at h
  cases h with
  | error e =>
    rw [Run.outcome_bind_error hx, Run.outcome_bind_error hy]
    exact .error e
  | ok h =>
    rw [Run.outcome_bind hx, Run.outcome_bind hy]
    exact hnext _ _ h

theorem map_right (r : Run event ε α) (g : α → β) :
    Alike (fun a b => b = g a) r.outcome (r >>= fun a => pure (g a)).outcome := by
  cases hr : r.outcome with
  | error e =>
    rw [Run.outcome_bind_error hr]
    exact .error e
  | ok a =>
    rw [Run.outcome_bind hr]
    exact .ok rfl

theorem exists_of_ok {x : Except ε α} {y : Except ε β} {a : α} (h : Alike R x y) (hx : x = .ok a) :
    ∃ b, y = .ok b ∧ R a b := by
  subst hx
  cases h with
  | ok h => exact ⟨_, rfl, h⟩

end Alike

section normalForm

variable {α : Type} [Cost α] {n m : ℕ}

theorem CostMatrix.normalize_neg (cost : CostMatrix α n m) :
    (cost.mapEntries (- ·)).normalize false = cost.normalize true := by
  rcases Nat.lt_or_ge m n with hlt | hle
  · rw [normalize_of_lt _ _ hlt, normalize_of_lt _ _ hlt]
    rfl
  · rw [normalize_of_le _ _ hle, normalize_of_le _ _ hle]
    rfl

/-- Normal forms of a matrix and its transpose: the matrix that is minimised is the same one. -/
inductive NormalForm.Mirrors : NormalForm α n m → NormalForm α m n → Prop
  | upright (hlt : n < m) (cost : CostMatrix α n m) :
      Mirrors (.upright hlt.le cost) (.transposed hlt cost)
  | transposed (hlt : m < n) (cost : CostMatrix α m n) :
      Mirrors (.transposed hlt cost) (.upright hlt.le cost)

theorem CostMatrix.mirrors_normalize (hne : n ≠ m) (cost : CostMatrix α n m) (maximize : Bool) :
    (cost.normalize maximize).Mirrors (cost.transpose.normalize maximize) := by
  rcases Nat.lt_or_gt_of_ne hne with hlt | hlt
  · rw [normalize_of_le _ _ hlt.le, normalize_of_lt _ _ hlt, transpose_objective,
      transpose_transpose]
    exact .upright hlt _
  · rw [normalize_of_lt _ _ hlt, normalize_of_le _ _ hlt.le, transpose_objective]
    exact .transposed hlt _

end normalForm

namespace Dense

section solve

variable {α : Type} [Cost α] {n m n' m' : ℕ}

theorem alike_solveNormal {N : NormalForm α n m} {N' : NormalForm α m n} (h : N.Mirrors N') :
    Alike (fun s t => t = s.transpose) (solveNormal N).outcome (solveNormal N').outcome := by
  cases h with
  | upright hlt cost => exact .map_right _ _
  | transposed hlt cost =>
    refine (Alike.map_right (solveWide cost) DualMatching.transpose).symm.imp ?_
    rintro _ t rfl
    rfl

/-- Solutions whose matchings are related, with their total costs. -/
theorem alike_solve {cost : CostMatrix α n m} {cost' : CostMatrix α n' m'}
    {maximize maximize' : Bool} {R : DualMatching α n m → DualMatching α n' m' → Prop}
    (hmin : min n m = 0 ↔ min n' m' = 0) (htrivial : R .trivial .trivial)
    (hnormal : Alike R (solveNormal (cost.normalize maximize)).outcome
      (solveNormal (cost'.normalize maximize')).outcome) :
    Alike (fun s t => R s.toDualMatching t.toDualMatching ∧ s.total = cost.total s.columnOf ∧
        t.total = cost'.total t.columnOf)
      (solve cost maximize).outcome (solve cost' maximize').outcome := by
  unfold solve
  by_cases hzero : min n m = 0
  · rw [if_pos hzero, if_pos (hmin.mp hzero)]
    exact .ok ⟨htrivial, rfl, rfl⟩
  · rw [if_neg hzero, if_neg (hmin.not.mp hzero)]
    exact hnormal.bind fun s t h => .ok ⟨h, rfl, rfl⟩

end solve

/-- Solutions that differ in the sign of the total only. A total of zero may keep its sign. -/
structure Solution.Negates {f : Format} {n m : ℕ} (s t : Solution (Binary f) n m) : Prop where
  same : t.toDualMatching = s.toDualMatching
  total : s.total = -t.total ∨ (s.total == 0) = true ∧ (t.total == 0) = true

theorem alike_solve_neg {f : Format} {n m : ℕ} (cost : CostMatrix (Binary f) n m) :
    Alike Solution.Negates (solve cost true).outcome
      (solve (cost.mapEntries (- ·)) false).outcome := by
  have h : Alike _ (solve cost true).outcome (solve (cost.mapEntries (- ·)) false).outcome :=
    alike_solve (R := fun s t => t = s) Iff.rfl rfl
      (cost.normalize_neg ▸ .of_ok fun _ _ => rfl)
  refine h.imp fun s t ⟨hsame, hs, ht⟩ => ⟨hsame, ?_⟩
  have hcolumns : t.columnOf = s.columnOf := congrArg (fun d => d.columnOf) hsame
  rw [hs, ht, hcolumns]
  exact (CostMatrix.total_mapEntries Binary.isAdditive_opposes Binary.opposes_neg cost
    s.columnOf).eq_neg_or_zero

theorem alike_solve_transpose {α : Type} [Cost α] {n m : ℕ} (hne : n ≠ m)
    (cost : CostMatrix α n m) (maximize : Bool) :
    Alike (fun s t => t.toDualMatching = s.toDualMatching.transpose)
      (solve cost maximize).outcome (solve cost.transpose maximize).outcome :=
  (alike_solve (R := fun s t => t = s.transpose) (by rw [min_comm]) rfl
    (alike_solveNormal (cost.mirrors_normalize hne maximize))).imp fun _ _ h => h.1

end Dense

namespace Rectangular

section pairs

variable {α : Type} {n m : ℕ}

theorem Solution.Lists.sorted_rows {s : Solution α n m} {ps : List (Fin n × Fin m)}
    (h : s.Lists ps) : (s.pairs.map Prod.fst).Pairwise (· < ·) := by
  rw [h.pairs_eq, List.map_map]
  have hsorted := List.pairwise_map.mp h.sorted
  exact List.pairwise_map.mpr hsorted

/-- Solutions of a matrix and of its transpose: the potentials are exchanged and so are the rows
and columns of the pairs, in ascending order of the rows again. -/
structure Solution.Mirrors (s : Solution α n m) (t : Solution α m n) : Prop where
  pairs : t.pairs.Perm (s.pairs.map Prod.swap)
  sorted : (s.pairs.map Prod.fst).Pairwise (· < ·)
  sorted_mirror : (t.pairs.map Prod.fst).Pairwise (· < ·)
  row : t.rowPotential = s.columnPotential
  column : t.columnPotential = s.rowPotential

theorem Solution.Mirrors.symm {s : Solution α n m} {t : Solution α m n} (h : s.Mirrors t) :
    t.Mirrors s where
  pairs := by
    have hperm := h.pairs.symm.map Prod.swap
    rwa [List.map_map, Prod.swap_swap_eq, List.map_id] at hperm
  sorted := h.sorted_mirror
  sorted_mirror := h.sorted
  row := h.column.symm
  column := h.row.symm

theorem mirrors_ofUpright {s : DualMatching α n m} (h : s.IsComplete) :
    (Solution.ofUpright s).Mirrors (.ofTransposed s) where
  pairs := List.mergeSort_perm _ _
  sorted := by
    obtain ⟨ps, hps, -⟩ := lists_ofUpright h
    exact hps.sorted_rows
  sorted_mirror := by
    obtain ⟨ps, hps, -⟩ := lists_ofTransposed h
    exact hps.sorted_rows
  row := rfl
  column := rfl

inductive Verdict.Mirrors : Verdict (Solution α n m) → Verdict (Solution α m n) → Prop
  | solved {s : Solution α n m} {t : Solution α m n} (h : s.Mirrors t) :
      Mirrors (.solved s) (.solved t)
  | infeasible : Mirrors .infeasible .infeasible
  | invalid : Mirrors .invalid .invalid

theorem mirrors_map {verdict : Verdict (DualMatching α n m)}
    (h : ∀ s, verdict = .solved s → s.IsComplete) :
    (verdict.map Solution.ofUpright).Mirrors (verdict.map Solution.ofTransposed) := by
  cases verdict with
  | solved s => exact .solved (mirrors_ofUpright (h s rfl))
  | infeasible => exact .infeasible
  | invalid => exact .invalid

theorem Verdict.Mirrors.symm {v : Verdict (Solution α n m)} {w : Verdict (Solution α m n)}
    (h : v.Mirrors w) : w.Mirrors v := by
  cases h with
  | solved h => exact .solved h.symm
  | infeasible => exact .infeasible
  | invalid => exact .invalid

end pairs

variable {f : Format} {n m : ℕ}

theorem isComplete_of_solveChecked {cost : CostMatrix (Binary f) n m} (hnm : n ≤ m)
    {verdict : Verdict (DualMatching (Binary f) n m)}
    (h : (solveChecked cost).outcome = .ok verdict) {s : DualMatching (Binary f) n m}
    (hs : verdict = .solved s) : s.IsComplete := by
  subst hs
  rcases hvalid : cost.hasInvalidEntry with _ | _
  · obtain ⟨r, hr, hsome, -⟩ := exists_complete_or_none hnm hvalid
    rw [solveChecked_outcome hvalid hr] at h
    cases r with
    | none => nomatch h
    | some s' =>
      injection h with h
      injection h with h
      exact h ▸ hsome s' rfl
  · rw [solveChecked_outcome_of_invalid hvalid] at h
    nomatch h

/-- One search answers for an upright matrix and for its transpose. -/
theorem alike_upright_transposed (hlt : n < m) (cost : CostMatrix (Binary f) n m) :
    Alike Verdict.Mirrors (solveNormal (.upright hlt.le cost)).outcome
      (solveNormal (.transposed hlt cost)).outcome := by
  refine Alike.bind (R := fun v w => w = v ∧ ∀ s, v = .solved s → s.IsComplete)
    (.of_ok fun v hv => ⟨rfl, fun s => isComplete_of_solveChecked hlt.le hv⟩) ?_
  rintro v _ ⟨rfl, hv⟩
  exact .ok (mirrors_map hv)

theorem alike_solveNormal {N : NormalForm (Binary f) n m} {N' : NormalForm (Binary f) m n}
    (h : N.Mirrors N') :
    Alike Verdict.Mirrors (solveNormal N).outcome (solveNormal N').outcome := by
  cases h with
  | upright hlt cost => exact alike_upright_transposed hlt cost
  | transposed hlt cost => exact (alike_upright_transposed hlt cost).symm.imp fun _ _ h => h.symm

theorem alike_solve_transpose (hne : n ≠ m) (cost : CostMatrix (Binary f) n m) (maximize : Bool) :
    Alike Verdict.Mirrors (solve cost maximize).outcome
      (solve cost.transpose maximize).outcome := by
  by_cases hmin : min n m = 0
  · rw [solve, solve, if_pos hmin, if_pos (min_comm n m ▸ hmin)]
    exact .ok (.solved ⟨.nil, .nil, .nil, rfl, rfl⟩)
  · rw [solve_outcome_eq _ _ hmin, solve_outcome_eq _ _ (min_comm n m ▸ hmin)]
    exact alike_solveNormal (cost.mirrors_normalize hne maximize)

/-- To maximise is to minimise the negated matrix, in every step of the run. -/
theorem solve_neg (cost : CostMatrix (Binary f) n m) :
    solve (cost.mapEntries (- ·)) false = solve cost true := by
  unfold solve
  rw [cost.normalize_neg]

end Rectangular

/-- Both solvers give the same answer for a matrix to be maximised as for its negation to be
minimised, and mirrored answers for a matrix that is not square and its transpose. -/
theorem solve_symmetric {f : Format} {n m : ℕ} (cost : CostMatrix (Binary f) n m) :
    (Alike Dense.Solution.Negates (Dense.solve cost true).outcome
        (Dense.solve (cost.mapEntries (- ·)) false).outcome ∧
      (Rectangular.solve cost true).outcome =
        (Rectangular.solve (cost.mapEntries (- ·)) false).outcome) ∧
    (n ≠ m → ∀ maximize,
      Alike (fun s t => t.toDualMatching = s.toDualMatching.transpose)
          (Dense.solve cost maximize).outcome (Dense.solve cost.transpose maximize).outcome ∧
        Alike Rectangular.Verdict.Mirrors (Rectangular.solve cost maximize).outcome
          (Rectangular.solve cost.transpose maximize).outcome) := by
  refine ⟨⟨Dense.alike_solve_neg cost, ?_⟩, fun hne maximize => ⟨?_, ?_⟩⟩
  · rw [Rectangular.solve_neg]
  · exact Dense.alike_solve_transpose hne cost maximize
  · exact Rectangular.alike_solve_transpose hne cost maximize

def rivals : CostMatrix (Binary .single) 2 3 := .ofFn fun i j => .ofInt ((i.val + 1) * j.val : ℕ)

/-- The solutions of a matrix with two rows that compete for a column, and of its transpose. -/
theorem solve_symmetric_rivals :
    (∃ s t, (Dense.solve rivals false).outcome = .ok s ∧
        (Dense.solve rivals.transpose false).outcome = .ok t ∧
        t.toDualMatching = s.toDualMatching.transpose) ∧
      ∃ v w, (Rectangular.solve rivals false).outcome = .ok v ∧
        (Rectangular.solve rivals.transpose false).outcome = .ok w ∧ v.Mirrors w := by
  obtain ⟨hdense, hrectangular⟩ := (solve_symmetric rivals).2 (by decide) false
  constructor
  · have hsolved : (Dense.solve rivals false).outcome.toBool = true := by decide +kernel
    cases hs : (Dense.solve rivals false).outcome with
    | error e =>
      rw [hs] at hsolved
      nomatch hsolved
    | ok s =>
      obtain ⟨t, ht, hmirror⟩ := hdense.exists_of_ok hs
      exact ⟨s, t, rfl, ht, hmirror⟩
  · obtain ⟨v, hv, -⟩ := Rectangular.exists_concludes rivals false
    obtain ⟨w, hw, hmirror⟩ := hrectangular.exists_of_ok hv
    exact ⟨v, w, hv, hw, hmirror⟩

end LinearAssignment
