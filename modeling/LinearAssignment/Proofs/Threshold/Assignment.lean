import LinearAssignment.Proofs.Dense.Solver
import LinearAssignment.Proofs.Rectangular.Solver
import LinearAssignment.Proofs.Threshold.Limit
import LinearAssignment.Threshold.Assignment
import Mathlib.Data.List.Sigma

/-! What assignment below a threshold returns in exact arithmetic. With a finite threshold the
matches gain as much as any matching can by which its pairs are below the threshold; without one
they are as many as can be, at the least total cost. -/
namespace LinearAssignment

variable {bound : ℚ} {bids n m : ℕ} {cost : CostMatrix (Exact bound bids) n m} {limit : ℚ}
  {S : Finset (Fin n × Fin m)}

namespace CostMatrix

/-- A matching of which the excess over a limit is least. -/
structure IsLeast (cost : CostMatrix (Exact bound bids) n m) (limit : ℚ)
    (S : Finset (Fin n × Fin m)) : Prop extends cost.IsMatching S where
  least : ∀ Q, cost.IsMatching Q → cost.excess limit S ≤ cost.excess limit Q

/-- A matching of as many pairs as there can be, of the least total cost that is possible for
their number. -/
structure IsLargest (cost : CostMatrix (Exact bound bids) n m)
    (S : Finset (Fin n × Fin m)) : Prop extends cost.IsMatching S where
  most : ∀ Q, cost.IsMatching Q → Q.card ≤ S.card
  cheapest : ∀ Q, cost.IsMatching Q → Q.card = S.card → cost.worth S ≤ cost.worth Q

/-- An entry that is not below the threshold adds to the excess of a matching. -/
theorem IsLeast.of_gate (h : (cost.gate (.number limit)).IsLeast limit S) :
    cost.IsLeast limit S ∧ ∀ q ∈ S, cost[q.1][q.2] < .number limit := by
  obtain ⟨hmatching, hbelow⟩ := isMatching_gate.mp h.toIsMatching
  refine ⟨⟨hmatching, fun Q hQ => ?_⟩, hbelow⟩
  let R := Q.filter fun q => cost[q.1][q.2] < .number limit
  have hR : (cost.gate (.number limit)).IsMatching R := by
    refine isMatching_gate.mpr ⟨hQ.mono (Finset.filter_subset _ _), fun q hq => ?_⟩
    exact (Finset.mem_filter.mp hq).2
  have hdropped : ∀ q ∈ Q, q ∉ R → 0 ≤ cost[q.1][q.2].value - limit := by
    intro q hq hqR
    obtain ⟨x, hx⟩ := Exact.isFinite_iff.mp (hQ.finite q hq)
    rw [hx]
    refine sub_nonneg.mpr (not_lt.mp fun hlt => hqR (Finset.mem_filter.mpr ⟨hq, ?_⟩))
    rw [hx]
    exact Exact.number_lt.mpr hlt
  calc cost.excess limit S = (cost.gate (.number limit)).excess limit S := by
        rw [excess_eq, excess_eq, worth_gate h.toIsMatching]
    _ ≤ (cost.gate (.number limit)).excess limit R := h.least R hR
    _ = cost.excess limit R := by rw [excess_eq, excess_eq, worth_gate hR]
    _ ≤ cost.excess limit Q :=
        Finset.sum_le_sum_of_subset_of_nonneg (Finset.filter_subset _ _) hdropped

theorem isMatching_gate_infinite {Q : Finset (Fin n × Fin m)} :
    (cost.gate (.infinite false)).IsMatching Q ↔ cost.IsMatching Q := by
  rw [isMatching_gate, and_iff_left_iff_imp]
  intro hQ q hq
  obtain ⟨x, hx⟩ := Exact.isFinite_iff.mp (hQ.finite q hq)
  rw [hx]
  rfl

theorem IsLargest.of_gate (h : (cost.gate (.infinite false)).IsLargest S) : cost.IsLargest S where
  toIsMatching := isMatching_gate_infinite.mp h.toIsMatching
  most Q hQ := h.most Q (isMatching_gate_infinite.mpr hQ)
  cheapest Q hQ hcard := by
    have hQ' := isMatching_gate_infinite.mpr hQ
    rw [← worth_gate h.toIsMatching, ← worth_gate hQ']
    exact h.cheapest Q hQ' hcard

/-- Over a dominating limit the least excess belongs to a matching of most pairs. -/
theorem IsLeast.isLargest {μ : ℚ} (h : cost.IsLeast limit S)
    (hμ : ∀ (i : Fin n) (j : Fin m) (q : ℚ), cost[i][j] = .number q → |q| ≤ μ)
    (hlimit : 2 * (min n m : ℕ) * μ < limit) : cost.IsLargest S where
  toIsMatching := h.toIsMatching
  most Q hQ := card_le_of_excess_le h.toIsMatching hQ hμ hlimit (h.least Q hQ)
  cheapest Q hQ hcard := by
    have hle := h.least Q hQ
    rw [excess_eq, excess_eq, hcard] at hle
    exact (sub_le_sub_iff_right _).mp hle

structure IsCheapest (cost : CostMatrix (Exact bound bids) n m)
    (S : Finset (Fin n × Fin m)) : Prop extends cost.IsAssignment S where
  least : ∀ Q, cost.IsAssignment Q → cost.worth S ≤ cost.worth Q

theorem IsCertified.isCheapest {u : Fin n → ℚ} {v : Fin m → ℚ} (h : cost.IsCertified S u v)
    (hS : cost.IsAssignment S) : cost.IsCheapest S where
  toIsAssignment := hS
  least _ hQ := h.worth_le hS hQ

/-- A cheapest matching of the whole smaller side has most pairs. -/
theorem IsCheapest.isLargest (h : cost.IsCheapest S) : cost.IsLargest S where
  toIsMatching := h.toIsMatching
  most _ hQ := h.card ▸ hQ.card_le
  cheapest Q hQ hcard := h.least Q ⟨hQ, hcard.trans h.card⟩

/-- What a cheapest assignment of the extension has inside the matrix. -/
theorem IsCheapest.isLeast_inner {P : Finset (Fin (n + m) × Fin (n + m))}
    (hP : (cost.extended limit).IsCheapest P) (h : cost.IsGated limit) :
    cost.IsLeast limit (cost.inner P) where
  toIsMatching := isMatching_inner hP.toIsMatching
  least _ hQ := excess_inner_le h hP.toIsAssignment hP.least hQ

theorem exists_isAssignment_extended (h : cost.IsGated limit) :
    ∃ P, (cost.extended limit).IsAssignment P :=
  ⟨_, isAssignment_completion h isMatching_empty⟩

end CostMatrix

namespace Dense

section rows

variable {k l : ℕ}

def rowPairs (rows : ℕ) (columnOf : Vector (Option (Fin l)) k) : List (ℤ × ℤ) :=
  (columnOf.toList.take rows).zipIdx.filterMap fun (j, i) => j.map fun j => ((i : ℤ), (j.val : ℤ))

theorem mem_rowPairs {rows : ℕ} {columnOf : Vector (Option (Fin l)) k} {a : Fin k} {b : Fin l} :
    CostMatrix.numbers (a, b) ∈ rowPairs rows columnOf ↔
      a.val < rows ∧ columnOf[a] = some b := by
  have hget : columnOf.toList[a.val]? = some columnOf[a] := by
    rw [List.getElem?_eq_getElem (by simp), Vector.getElem_toList]
    rfl
  simp only [CostMatrix.numbers, rowPairs, List.mem_filterMap, Prod.exists,
    List.mem_zipIdx_iff_getElem?, Option.map_eq_some_iff, Prod.mk.injEq, Int.natCast_inj]
  constructor
  · rintro ⟨_, i, hi, b', rfl, rfl, hb⟩
    rw [List.getElem?_take] at hi
    split at hi
    next ha =>
      rw [hget, Option.some.injEq] at hi
      exact ⟨ha, by rw [hi, Fin.ext hb]⟩
    next => simp at hi
  · rintro ⟨ha, hb⟩
    refine ⟨some b, a, ?_, b, rfl, rfl, rfl⟩
    rw [List.getElem?_take_of_lt ha, hget, hb]

theorem nodup_rowPairs (rows : ℕ) (columnOf : Vector (Option (Fin l)) k) :
    (rowPairs rows columnOf).Nodup := by
  have hzip : (columnOf.toList.take rows).zipIdx.Nodup :=
    List.Nodup.of_map Prod.snd (List.nodup_zipIdx_map_snd _)
  refine hzip.filterMap ?_
  rintro ⟨j, i⟩ ⟨j', i'⟩ p hp hp'
  simp only [Option.mem_def, Option.map_eq_some_iff] at hp hp'
  obtain ⟨b, rfl, rfl⟩ := hp
  obtain ⟨b', rfl, he⟩ := hp'
  simp only [Prod.mk.injEq, Int.natCast_inj] at he
  rw [he.1, Fin.ext he.2]

end rows

section run

variable {τ α : Type} [Cost α] [Threshold τ α] {cost : CostMatrix α n m} {t : τ}

/-- The matches that the assignment returns if all loops of the solver go on until they end by
themselves. -/
inductive Assigns (cost : CostMatrix α n m) (t : τ) : PartialMatching → Prop
  | intro {s} (run : Returns ((cost.gate (Threshold.toCost t)).extendAt t) false s) :
      Assigns cost t ((cost.gate (Threshold.toCost t)).split (rowPairs n s.columnOf))

theorem outcome_assign {s : Solution α (n + m) (n + m)}
    (h : (solve ((cost.gate (Threshold.toCost t)).extendAt t) false).outcome = .ok s) :
    (assign cost t).outcome =
      .ok ((cost.gate (Threshold.toCost t)).split (rowPairs n s.columnOf)) :=
  Run.outcome_bind (Run.outcome_mapError h _) _

end run

variable {t : Exact bound bids}

/-- The pairs of a solution of the extended problem are matches of least excess. -/
theorem lists_split_rowPairs {s : DualMatching (Exact bound bids) (n + m) (n + m)}
    {u v : Fin (n + m) → ℚ} (hgated : cost.IsGated limit)
    (h : s.IsOptimal (cost.extended limit) u v) :
    (cost.split (rowPairs n s.columnOf)).Lists (cost.inner s.pairs) ∧
      cost.IsLeast limit (cost.inner s.pairs) := by
  refine ⟨?_, (h.certified.isCheapest h.isAssignment).isLeast_inner hgated⟩
  refine CostMatrix.lists_split (nodup_rowPairs n s.columnOf) fun q => ?_
  have hplace : CostMatrix.place q ∈ s.pairs ↔ CostMatrix.numbers q ∈ rowPairs n s.columnOf := by
    rw [← CostMatrix.numbers_place, CostMatrix.place, Matching.mem_pairs, mem_rowPairs]
    exact (and_iff_right q.1.isLt).symm
  rw [CostMatrix.mem_inner, hplace]

/-- The matches have the least excess over the limit at which the problem is extended. -/
theorem assign_outcome (hlimit : (cost.gate t).extendAt t = (cost.gate t).extended limit)
    (hgated : (cost.gate t).IsGated limit)
    (hsmall : ∀ (a b : Fin (n + m)) (q : ℚ), ((cost.gate t).extendAt t)[a][b] = .number q →
      2 * (n + m : ℕ) * |q| < bound) :
    (∃ r S, (assign cost t).outcome = .ok r ∧ r.Lists S ∧ (cost.gate t).IsLeast limit S) ∧
      ∃ r S, Assigns cost t r ∧ r.Lists S ∧ (cost.gate t).IsLeast limit S := by
  have hsmall' : IsSmall ((cost.gate t).extended limit) := by
    simpa only [IsSmall, min_self, ← hlimit] using hsmall
  obtain ⟨⟨s, u, v, hs, hoptimal, -⟩, s', u', v', hs', hoptimal', -⟩ :=
    @solve_outcome _ _ _ _ ((cost.gate t).extended limit) false
      (CostMatrix.hasInvalidEntry_extended hgated)
      (CostMatrix.exists_isAssignment_extended hgated) hsmall'
  rw [← hlimit] at hs hs'
  exact ⟨⟨_, _, outcome_assign hs, lists_split_rowPairs hgated hoptimal⟩,
    _, _, .intro hs', lists_split_rowPairs hgated hoptimal'⟩

/-- Below a finite threshold the matches have the least excess over it, and each is below it. -/
theorem assign_isLeast (cost : CostMatrix (Exact bound bids) n m) (limit : ℚ)
    (hsmall : ∀ (a b : Fin (n + m)) (q : ℚ),
      ((cost.gate (.number limit)).extendAt (.number limit : Exact bound bids))[a][b] = .number q →
        2 * (n + m : ℕ) * |q| < bound) :
    (∃ r S, (assign cost (.number limit : Exact bound bids)).outcome = .ok r ∧ r.Lists S ∧
        cost.IsLeast limit S ∧ ∀ p ∈ S, cost[p.1][p.2] < .number limit) ∧
      ∃ r S, Assigns cost (.number limit : Exact bound bids) r ∧ r.Lists S ∧
        cost.IsLeast limit S ∧ ∀ p ∈ S, cost[p.1][p.2] < .number limit := by
  obtain ⟨⟨r, S, hr, hlists, hleast⟩, r', S', hr', hlists', hleast'⟩ :=
    assign_outcome (CostMatrix.extendAt_number _ limit) (CostMatrix.isGated_gate cost limit) hsmall
  exact ⟨⟨r, S, hr, hlists, hleast.of_gate⟩, r', S', hr', hlists', hleast'.of_gate⟩

/-- Without a threshold the matches are as many as there can be. -/
theorem assign_isLargest (cost : CostMatrix (Exact bound bids) n m)
    (hsmall : ∀ (a b : Fin (n + m)) (q : ℚ),
      ((cost.gate (.infinite false)).extendAt (.infinite false : Exact bound bids))[a][b] =
        .number q → 2 * (n + m : ℕ) * |q| < bound) :
    (∃ r S, (assign cost (.infinite false : Exact bound bids)).outcome = .ok r ∧ r.Lists S ∧
        cost.IsLargest S) ∧
      ∃ r S, Assigns cost (.infinite false : Exact bound bids) r ∧ r.Lists S ∧
        cost.IsLargest S := by
  obtain ⟨limit, μ, hextend, hgated, hlimit, hμ⟩ :=
    CostMatrix.exists_extendAt_infinite (cost.gate (.infinite false))
  obtain ⟨⟨r, S, hr, hlists, hleast⟩, r', S', hr', hlists', hleast'⟩ :=
    assign_outcome hextend hgated hsmall
  exact ⟨⟨r, S, hr, hlists, (hleast.isLargest hμ hlimit).of_gate⟩,
    r', S', hr', hlists', (hleast'.isLargest hμ hlimit).of_gate⟩

end Dense

namespace Rectangular

variable {α : Type} [Cost α] {k l : ℕ}

def matches? (cost : CostMatrix α n m)
    (run : Run (Event α) SearchError (Verdict (Solution α k l))) :
    Run (Event α) Failure PartialMatching := do
  let verdict ← run.mapError .search
  return cost.split ((← .ofExcept verdict.unwrap).pairs.map fun p => ((p.1 : ℤ), (p.2 : ℤ)))

theorem outcome_matches? {cost : CostMatrix α n m}
    {run : Run (Event α) SearchError (Verdict (Solution α k l))} {s : Solution α k l}
    (h : run.outcome = .ok (.solved s)) :
    (matches? cost run).outcome =
      .ok (cost.split (s.pairs.map fun p => ((p.1 : ℤ), (p.2 : ℤ)))) := by
  exact Run.outcome_bind (Run.outcome_mapError h _) _

variable {t : Exact bound bids}

omit [Cost α] in
theorem nodup_numbers {s : Solution α k l} {ps : List (Fin k × Fin l)} (h : s.Lists ps) :
    (s.pairs.map fun p => ((p.1 : ℤ), (p.2 : ℤ))) = ps.map CostMatrix.numbers ∧
      (ps.map CostMatrix.numbers).Nodup := by
  refine ⟨?_, h.nodup.map CostMatrix.numbers_injective⟩
  rw [h.pairs_eq, List.map_map]
  rfl

theorem extended_outcome (hgated : cost.IsGated limit) :
    ∃ r S, (matches? cost (solve (cost.extended limit) false)).outcome = .ok r ∧ r.Lists S ∧
      cost.IsLeast limit S := by
  obtain ⟨s, ps, u, v, hs, hoptimal⟩ := exists_solution (cost.extended limit) false
    (CostMatrix.hasInvalidEntry_extended hgated) (CostMatrix.exists_isAssignment_extended hgated)
  have hcheapest : (cost.extended limit).IsCheapest ps.toFinset :=
    hoptimal.certified.isCheapest hoptimal.isAssignment
  obtain ⟨hpairs, hnodup⟩ := nodup_numbers hoptimal.lists
  refine ⟨_, _, outcome_matches? hs, ?_, hcheapest.isLeast_inner hgated⟩
  rw [hpairs]
  refine CostMatrix.lists_split hnodup fun q => ?_
  have hplace : CostMatrix.numbers q ∈ ps.map CostMatrix.numbers ↔
      CostMatrix.place q ∈ ps.toFinset := by
    rw [List.mem_toFinset, ← CostMatrix.numbers_place]
    exact List.mem_map_of_injective CostMatrix.numbers_injective
  rw [CostMatrix.mem_inner, hplace]

theorem assign_of_finite (cost : CostMatrix (Exact bound bids) n m) (limit : ℚ) :
    assign cost (.number limit : Exact bound bids) =
      matches? (cost.gate (.number limit))
        (solve ((cost.gate (.number limit)).extended limit) false) := rfl

theorem assign_outcome_of_infinite (cost : CostMatrix (Exact bound bids) n m) :
    ∃ r S, (assign cost (.infinite false : Exact bound bids)).outcome = .ok r ∧ r.Lists S ∧
      (cost.gate (.infinite false)).IsLargest S := by
  rcases solve_cases (cost.gate (.infinite false)) false with
    ⟨-, -, hflawed⟩ | ⟨-, ⟨hs, -⟩ | ⟨s, ps, u, v, hs, hoptimal⟩⟩
  · exact absurd (CostMatrix.hasInvalidEntry_gate cost _ ▸ hflawed) Bool.false_ne_true
  · obtain ⟨limit, μ, hextend, hgated, hlimit, hμ⟩ :=
      CostMatrix.exists_extendAt_infinite (cost.gate (.infinite false))
    obtain ⟨r, S, hr, hlists, hleast⟩ := extended_outcome hgated
    refine ⟨r, S, ?_, hlists, hleast.isLargest hμ hlimit⟩
    rw [← hextend] at hr
    exact (Run.outcome_bind (Run.outcome_mapError hs _) _).trans hr
  · have hcheapest : (cost.gate (.infinite false)).IsCheapest ps.toFinset :=
      hoptimal.certified.isCheapest hoptimal.isAssignment
    obtain ⟨hpairs, hnodup⟩ := nodup_numbers hoptimal.lists
    refine ⟨_, _, Run.outcome_bind (Run.outcome_mapError hs _) _, ?_, hcheapest.isLargest⟩
    change ((cost.gate (.infinite false)).split
      (s.pairs.map fun p => ((p.1 : ℤ), (p.2 : ℤ)))).Lists ps.toFinset
    rw [hpairs]
    refine CostMatrix.lists_split hnodup fun q => ?_
    rw [List.mem_toFinset, List.mem_map_of_injective CostMatrix.numbers_injective]
    exact (and_iff_left_of_imp fun hq =>
      hcheapest.finite q (List.mem_toFinset.mpr hq)).symm

/-- Below a finite threshold the matches have the least excess over it, and each is below it. -/
theorem assign_isLeast (cost : CostMatrix (Exact bound bids) n m) (limit : ℚ) :
    ∃ r S, (assign cost (.number limit : Exact bound bids)).outcome = .ok r ∧ r.Lists S ∧
      cost.IsLeast limit S ∧ ∀ p ∈ S, cost[p.1][p.2] < .number limit := by
  obtain ⟨r, S, hr, hlists, hleast⟩ := extended_outcome (CostMatrix.isGated_gate cost limit)
  exact ⟨r, S, assign_of_finite cost limit ▸ hr, hlists, hleast.of_gate⟩

/-- Without a threshold the matches are as many as there can be. -/
theorem assign_isLargest (cost : CostMatrix (Exact bound bids) n m) :
    ∃ r S, (assign cost (.infinite false : Exact bound bids)).outcome = .ok r ∧ r.Lists S ∧
      cost.IsLargest S := by
  obtain ⟨r, S, hr, hlists, hlargest⟩ := assign_outcome_of_infinite cost
  exact ⟨r, S, hr, hlists, hlargest.of_gate⟩

end Rectangular

section thresholds

open CostMatrix

/-- Two pairings that do not meet; the other entries have no place in a problem. -/
def scattered (bound : ℚ) (bids : ℕ) : CostMatrix (Exact bound bids) 2 2 :=
  #v[#v[.number 1, .nan], #v[.infinite true, .number 5]]

theorem isMatching_scattered : (scattered bound bids).IsMatching {(0, 0), (1, 1)} := by
  refine ⟨?_, ?_, ?_⟩ <;>
    simp [Set.InjOn, scattered, getElem_fin (Fin.isLt _), Exact.isFinite_iff]

theorem small_of_abs_value {M : CostMatrix (Exact 1000 bids) (2 + 2) (2 + 2)}
    (h : ∀ a b : Fin (2 + 2), |M[a][b].value| ≤ 36) (a b : Fin (2 + 2)) (q : ℚ)
    (hq : M[a][b] = .number q) : 2 * (2 + 2 : ℕ) * |q| < 1000 := by
  have habs := h a b
  rw [hq] at habs
  change |q| ≤ 36 at habs
  norm_num
  linarith

theorem abs_extendAt_scattered_number (a b : Fin (2 + 2)) :
    |(((scattered 1000 10).gate (.number 4)).extendAt (.number 4 : Exact 1000 10))[a][b].value| ≤
      36 := by
  decide +kernel +revert

theorem abs_extendAt_scattered_infinite (a b : Fin (2 + 2)) :
    |(((scattered 1000 10).gate (.infinite false)).extendAt
      (.infinite false : Exact 1000 10))[a][b].value| ≤ 36 := by
  decide +kernel +revert

/-- Below a finite threshold both solvers return a matching of pairs below it that gains the most:
no matching costs less beyond the threshold. The dense one also does so if its row reduction goes on
until it ends by itself. -/
theorem assign_gains_most (cost : CostMatrix (Exact bound bids) n m) (limit : ℚ) :
    ((∀ (a b : Fin (n + m)) (q : ℚ),
          ((cost.gate (.number limit)).extendAt (.number limit : Exact bound bids))[a][b] =
            .number q → 2 * (n + m : ℕ) * |q| < bound) →
        (∃ r S, (Dense.assign cost (.number limit : Exact bound bids)).outcome = .ok r ∧
          r.Lists S ∧ cost.IsLeast limit S ∧ ∀ p ∈ S, cost[p.1][p.2] < .number limit) ∧
        ∃ r S, Dense.Assigns cost (.number limit : Exact bound bids) r ∧
          r.Lists S ∧ cost.IsLeast limit S ∧ ∀ p ∈ S, cost[p.1][p.2] < .number limit) ∧
      ∃ r S, (Rectangular.assign cost (.number limit : Exact bound bids)).outcome = .ok r ∧
        r.Lists S ∧ cost.IsLeast limit S ∧ ∀ p ∈ S, cost[p.1][p.2] < .number limit :=
  ⟨Dense.assign_isLeast cost limit, Rectangular.assign_isLeast cost limit⟩

/-- Below the threshold of four the pair at one gains three. -/
theorem assign_scattered_gains_most :
    (∃ r S, Dense.Assigns (scattered 1000 10) (.number 4 : Exact 1000 10) r ∧
        r.Lists S ∧ (scattered 1000 10).excess 4 S ≤ -3) ∧
      ∃ r S, (Rectangular.assign (scattered 1000 10) (.number 4 : Exact 1000 10)).outcome = .ok r ∧
        r.Lists S ∧ (scattered 1000 10).excess 4 S ≤ -3 := by
  have hmatching : (scattered 1000 10).IsMatching {(0, 0)} :=
    isMatching_scattered.mono (by simp)
  have hexcess : (scattered 1000 10).excess 4 {(0, 0)} = -3 := by
    rw [excess, Finset.sum_singleton]
    change (1 : ℚ) - 4 = -3
    norm_num
  obtain ⟨hdense, r, S, hr, hlists, hleast, -⟩ := assign_gains_most (scattered 1000 10) 4
  obtain ⟨-, r', S', hr', hlists', hleast', -⟩ :=
    hdense (small_of_abs_value abs_extendAt_scattered_number)
  exact ⟨⟨r', S', hr', hlists', hexcess ▸ hleast'.least _ hmatching⟩,
    r, S, hr, hlists, hexcess ▸ hleast.least _ hmatching⟩

/-- Without a threshold both solvers return a matching of as many pairs as there can be, at the
least total cost for so many. -/
theorem assign_matches_most (cost : CostMatrix (Exact bound bids) n m) :
    ((∀ (a b : Fin (n + m)) (q : ℚ),
          ((cost.gate (.infinite false)).extendAt (.infinite false : Exact bound bids))[a][b] =
            .number q → 2 * (n + m : ℕ) * |q| < bound) →
        (∃ r S, (Dense.assign cost (.infinite false : Exact bound bids)).outcome = .ok r ∧
          r.Lists S ∧ cost.IsLargest S) ∧
        ∃ r S, Dense.Assigns cost (.infinite false : Exact bound bids) r ∧
          r.Lists S ∧ cost.IsLargest S) ∧
      ∃ r S, (Rectangular.assign cost (.infinite false : Exact bound bids)).outcome = .ok r ∧
        r.Lists S ∧ cost.IsLargest S :=
  ⟨Dense.assign_isLargest cost, Rectangular.assign_isLargest cost⟩

/-- Without a threshold both pairs are matched. -/
theorem assign_scattered_matches_most :
    (∃ r, ∃ S : Finset (Fin 2 × Fin 2),
        Dense.Assigns (scattered 1000 10) (.infinite false : Exact 1000 10) r ∧
        r.Lists S ∧ 2 ≤ S.card) ∧
      ∃ r, ∃ S : Finset (Fin 2 × Fin 2),
        (Rectangular.assign (scattered 1000 10) (.infinite false : Exact 1000 10)).outcome = .ok r ∧
        r.Lists S ∧ 2 ≤ S.card := by
  obtain ⟨hdense, r, S, hr, hlists, hlargest⟩ := assign_matches_most (scattered 1000 10)
  obtain ⟨-, r', S', hr', hlists', hlargest'⟩ :=
    hdense (small_of_abs_value abs_extendAt_scattered_infinite)
  exact ⟨⟨r', S', hr', hlists', hlargest'.most _ isMatching_scattered⟩,
    r, S, hr, hlists, hlargest.most _ isMatching_scattered⟩

end thresholds

end LinearAssignment
