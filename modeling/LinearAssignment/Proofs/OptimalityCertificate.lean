import LinearAssignment.Proofs.Dense.Solver
import LinearAssignment.Proofs.Rectangular.Solver

/-! Both solvers certify what they return. The dense solver keeps prices of columns only and
recovers the potentials of the rows in the end, the rectangular one keeps both sides; the
potentials that they return meet the same conditions. -/
namespace LinearAssignment

variable {bound : ℚ} {bids n m : ℕ}

/-- The potentials of either solver certify the assignment that comes with them, those of the dense
one also if its row reduction goes on until it ends by itself. -/
theorem potentials_certify (cost : CostMatrix (Exact bound bids) n m) (maximize : Bool)
    (hvalid : (cost.objective maximize).hasInvalidEntry = false)
    (hsome : ∃ P, (cost.objective maximize).IsAssignment P) :
    ((∀ (i : Fin n) (j : Fin m) (q : ℚ), cost[i][j] = .number q →
          2 * (min n m : ℕ) * |q| < bound) →
        (∃ s u v, (Dense.solve cost maximize).outcome = .ok s ∧
          (cost.objective maximize).IsAssignment s.pairs ∧
          (∀ i : Fin n, s.rowPotential[i] = .number (u i)) ∧
          (∀ j : Fin m, s.columnPotential[j] = .number (v j)) ∧
          (cost.objective maximize).IsCertified s.pairs u v) ∧
        ∃ s u v, Dense.Returns cost maximize s ∧ s.IsOptimal (cost.objective maximize) u v) ∧
      ∃ s, ∃ ps : List (Fin n × Fin m), ∃ u v,
        (Rectangular.solve cost maximize).outcome = .ok (.solved s) ∧
        s.pairs = ps.map (fun p => (p.1.val, p.2.val)) ∧
        (cost.objective maximize).IsAssignment ps.toFinset ∧
        (∀ i : Fin n, s.rowPotential[i] = .number (u i)) ∧
        (∀ j : Fin m, s.columnPotential[j] = .number (v j)) ∧
        (cost.objective maximize).IsCertified ps.toFinset u v := by
  constructor
  · intro hsmall
    obtain ⟨⟨s, u, v, hs, hoptimal, -⟩, s', u', v', hs', hoptimal', -⟩ :=
      Dense.solve_outcome hvalid hsome hsmall
    exact ⟨⟨s, u, v, hs, hoptimal.isAssignment, hoptimal.row, hoptimal.column,
      hoptimal.certified⟩, s', u', v', hs', hoptimal'⟩
  · obtain ⟨s, ps, u, v, hs, hoptimal⟩ := Rectangular.exists_solution cost maximize hvalid hsome
    exact ⟨s, ps, u, v, hs, hoptimal.lists.pairs_eq, hoptimal.isAssignment, hoptimal.row,
      hoptimal.column, hoptimal.certified⟩

/-- The potentials of a matrix with a forbidden pairing. -/
theorem potentials_certify_contested :
    (∃ s u v, Dense.Returns (.contested 100 10) false s ∧
        (∀ i : Fin 2, s.rowPotential[i] = .number (u i)) ∧
        (∀ j : Fin 3, s.columnPotential[j] = .number (v j)) ∧
        (CostMatrix.contested 100 10).IsCertified s.pairs u v) ∧
      ∃ s, ∃ ps : List (Fin 2 × Fin 3), ∃ u v,
        (Rectangular.solve (.contested 100 10) false).outcome = .ok (.solved s) ∧
        s.pairs = ps.map (fun p => (p.1.val, p.2.val)) ∧
        (∀ i : Fin 2, s.rowPotential[i] = .number (u i)) ∧
        (∀ j : Fin 3, s.columnPotential[j] = .number (v j)) ∧
        (CostMatrix.contested 100 10).IsCertified ps.toFinset u v := by
  obtain ⟨hdense, s, ps, u, v, hs, hpairs, -, hrow, hcolumn, hcertified⟩ :=
    potentials_certify (.contested 100 10) false CostMatrix.hasInvalidEntry_contested
      ⟨_, CostMatrix.isAssignment_contested⟩
  obtain ⟨-, s', u', v', hs', hoptimal⟩ := hdense CostMatrix.abs_le_of_contested
  exact ⟨⟨s', u', v', hs', hoptimal.row, hoptimal.column, hoptimal.certified⟩,
    s, ps, u, v, hs, hpairs, hrow, hcolumn, hcertified⟩

end LinearAssignment
