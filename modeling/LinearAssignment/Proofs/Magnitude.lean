import LinearAssignment.Proofs.ExactCost
import LinearAssignment.Proofs.Potential

/-! How large the numbers of a run can become. As long as some column is free, the entries of the
matrix bound the potentials that support a matching, whatever its dimensions are. -/
namespace LinearAssignment

variable {bound : ℚ} {bids n m : ℕ} {q : Fin n → Fin m → ℚ} {C : ℚ}

def Exact.Within (B : ℚ) (x : Exact bound bids) : Prop := ∃ a : ℚ, x = .number a ∧ |a| ≤ B

theorem Exact.Within.mono {B B' : ℚ} {x : Exact bound bids} (h : x.Within B) (hB : B ≤ B') :
    x.Within B' :=
  h.imp fun _ ha => ⟨ha.1, ha.2.trans hB⟩

theorem Exact.within_number {B a : ℚ} (hlow : -B ≤ a) (hhigh : a ≤ B) :
    (number a : Exact bound bids).Within B :=
  ⟨a, rfl, abs_le.mpr ⟨hlow, hhigh⟩⟩

theorem exists_coe_of_le {d : WithTop ℚ} {low high : ℚ} (hlow : (low : WithTop ℚ) ≤ d)
    (hhigh : d ≤ (high : WithTop ℚ)) : ∃ x : ℚ, d = x ∧ low ≤ x ∧ x ≤ high := by
  obtain ⟨x, rfl⟩ := WithTop.ne_top_iff_exists.mp (ne_top_of_le_ne_top WithTop.coe_ne_top hhigh)
  exact ⟨x, rfl, WithTop.coe_le_coe.mp hlow, WithTop.coe_le_coe.mp hhigh⟩

/-- A matrix of numbers of magnitude at most `C` that is not tall; the largest number is beyond
`8 * C`. -/
structure CostMatrix.IsBounded (cost : CostMatrix (Exact bound bids) n m)
    (q : Fin n → Fin m → ℚ) (C : ℚ) : Prop where
  entry : ∀ (i : Fin n) (j : Fin m), cost[i][j] = .number (q i j)
  nonneg : 0 ≤ C
  magnitude : ∀ i j, |q i j| ≤ C
  lt_bound : 8 * C < bound
  le : n ≤ m

namespace CostMatrix.IsBounded

variable {cost : CostMatrix (Exact bound bids) n m}

theorem low (h : cost.IsBounded q C) (i : Fin n) (j : Fin m) : -C ≤ q i j :=
  (abs_le.mp (h.magnitude i j)).1

theorem high (h : cost.IsBounded q C) (i : Fin n) (j : Fin m) : q i j ≤ C :=
  (abs_le.mp (h.magnitude i j)).2

end CostMatrix.IsBounded

namespace Matching

variable {s : Matching n m} {u : Fin n → ℚ} {v : Fin m → ℚ}

/-- The potentials of matched rows have magnitude at most `C`, those of columns are not positive and
not below `-2 * C`. -/
structure IsWithin (s : Matching n m) (C : ℚ) (u : Fin n → ℚ) (v : Fin m → ℚ) : Prop where
  row_low : ∀ {i}, s.IsMatched i → -C ≤ u i
  row_high : ∀ {i}, s.IsMatched i → u i ≤ C
  low : ∀ j, -(2 * C) ≤ v j
  nonpos : ∀ j, v j ≤ 0

/-- A matched row would pay its entry for a free column, and its own one costs nothing or less. -/
theorem IsSupported.isWithin (h : s.IsSupported (fun i j => (q i j : WithTop ℚ)) u v)
    (hv : s.FreeAtZero v) (hC : 0 ≤ C) (hq : ∀ i j, |q i j| ≤ C) {j₀ : Fin m}
    (hj₀ : s.rowOf[j₀] = none) :
    s.IsWithin C u v := by
  have hhigh : ∀ {i}, s.IsMatched i → u i ≤ C := by
    intro i hi
    have hle := WithTop.coe_le_coe.mp (h.below hi j₀)
    rw [hv.free j₀ hj₀, add_zero] at hle
    exact hle.trans (abs_le.mp (hq i j₀)).2
  have htight : ∀ {i j}, s.rowOf[j] = some i → q i j = u i + v j := fun hj =>
    WithTop.coe_inj.mp (h.tight hj)
  refine ⟨?_, hhigh, ?_, hv.nonpos⟩
  · rintro i ⟨j, hj⟩
    linarith [htight hj, hv.nonpos j, (abs_le.mp (hq i j)).1]
  · intro j
    cases hj : s.rowOf[j] with
    | none =>
      rw [hv.free j hj]
      linarith
    | some i => linarith [htight hj, hhigh ⟨j, hj⟩, (abs_le.mp (hq i j)).1]

end Matching

end LinearAssignment
