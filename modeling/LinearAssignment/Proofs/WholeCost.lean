import LinearAssignment.Proofs.Dense.Magnitude
import LinearAssignment.Proofs.Dense.Reading
import LinearAssignment.Proofs.Rectangular.Magnitude
import LinearAssignment.Proofs.Rectangular.Reading
import Mathlib.Data.Rat.Floor

/-! Integer costs. They are closed under the operations of the solvers, so they form an arithmetic
of their own that reads as exact, and all numbers of a run on integers are integers. -/
namespace LinearAssignment

namespace Exact

structure Whole (bound : ℚ) (bids : ℕ) where
  val : Exact bound bids
  whole : ∃ z : ℤ, val.value = z

variable {bound : ℚ} {bids : ℕ} {x y : Exact bound bids}

theorem exists_value_add (hx : ∃ a : ℤ, x.value = a) (hy : ∃ b : ℤ, y.value = b) :
    ∃ c : ℤ, (add x y).value = c := by
  obtain ⟨a, ha⟩ := hx
  obtain ⟨b, hb⟩ := hy
  unfold add
  split
  · exact ⟨a + b, by rw [Int.cast_add, ← ha, ← hb]; rfl⟩
  · split <;> exact ⟨0, rfl⟩
  · exact ⟨0, rfl⟩
  · exact ⟨0, rfl⟩
  · exact ⟨0, rfl⟩

theorem exists_value_neg (hx : ∃ a : ℤ, x.value = a) : ∃ b : ℤ, (neg x).value = b := by
  obtain ⟨a, ha⟩ := hx
  exact ⟨-a, by rw [Int.cast_neg, ← ha]; exact value_neg x⟩

instance : Cost (Whole bound bids) where
  zero := ⟨number 0, 0, rfl⟩
  neg x := ⟨neg x.val, exists_value_neg x.whole⟩
  add x y := ⟨add x.val y.val, exists_value_add x.whole y.whole⟩
  sub x y := ⟨add x.val (neg y.val), exists_value_add x.whole (exists_value_neg y.whole)⟩
  lt x y := x.val < y.val
  beq x y := x.val == y.val
  infinity := ⟨infinite false, 0, rfl⟩
  largest := ⟨number ⌈bound⌉, ⌈bound⌉, rfl⟩
  isNaN x := x.val.isNaN
  levels := bids
  decidableLT x y := inferInstanceAs (Decidable (x.val < y.val))

theorem isReading_whole (bids : ℕ) {B : ℚ} (hB : B ≤ bound) :
    Cost.IsReading (Whole.val : Whole bound bids → Exact bound bids) fun q => |q| ≤ B where
  zero := rfl
  infinity := rfl
  levels := rfl
  isNaN _ := rfl
  lt_iff _ _ := Iff.rfl
  beq_eq _ _ := rfl
  add _ := rfl
  sub _ := rfl
  not_largest_lt {x} hx := by
    obtain ⟨q, hq, hqB⟩ := hx
    have hle : q ≤ bound := ((le_abs_self q).trans hqB).trans hB
    constructor
    · change ¬ (number (⌈bound⌉ : ℚ) : Exact bound bids) < x.val
      rw [hq, number_lt]
      exact (hle.trans (Int.le_ceil bound)).not_gt
    · rw [hq]
      exact fun hlt => absurd (number_lt.mp hlt) hle.not_gt

def IsWhole (B : ℚ) (x : Exact bound bids) : Prop := ∃ z : ℤ, x = .number z ∧ |(z : ℚ)| ≤ B

theorem Whole.isWhole {B : ℚ} (x : Whole bound bids) (hx : x.val.Within B) : x.val.IsWhole B := by
  obtain ⟨z, hz⟩ := x.whole
  obtain ⟨q, hq, hqB⟩ := hx
  rw [hq] at hz
  exact ⟨z, hq.trans (congrArg number hz), hz ▸ hqB⟩

end Exact

variable {bound : ℚ} {bids n m : ℕ} {cost : CostMatrix (Exact bound bids) n m}
  {z : Fin n → Fin m → ℤ} {C : ℚ}

def CostMatrix.ofWhole (bound : ℚ) (bids : ℕ) (z : Fin n → Fin m → ℤ) :
    CostMatrix (Exact.Whole bound bids) n m :=
  .ofFn fun i j => ⟨.number (z i j), z i j, rfl⟩

theorem CostMatrix.mapEntries_ofWhole
    (hcost : ∀ (i : Fin n) (j : Fin m), cost[i][j] = .number (z i j)) :
    (CostMatrix.ofWhole bound bids z).mapEntries Exact.Whole.val = cost := by
  apply ext_entries
  intro i j
  rw [getElem_mapEntries, hcost, ofWhole, getElem_ofFn]

namespace Dense

theorem stages_whole (hcost : cost.IsBounded (fun i j => (z i j : ℚ)) C) :
    ∀ st ∈ stages cost, ∀ x ∈ st.results cost, x.IsWhole (8 * C) := by
  have hwithin := stages_within hcost
  have hread := Exact.isReading_whole bids hcost.lt_bound.le
  rw [← CostMatrix.mapEntries_ofWhole hcost.entry] at hwithin ⊢
  have hstages := (complete_map hread hwithin).1
  rw [hstages, List.forall_mem_map] at hwithin ⊢
  intro st hst
  have hresults := Stage.results_map hread st (hwithin st hst)
  have hst := hwithin st hst
  rw [hresults, List.forall_mem_map] at hst ⊢
  exact fun x hx => x.isWhole (hst x hx)

end Dense

namespace Rectangular

theorem stages_whole (hcost : cost.IsBounded (fun i j => (z i j : ℚ)) C) :
    ∀ st ∈ stages cost, ∀ x ∈ st.results cost, x.IsWhole (8 * C) := by
  have hwithin := stages_within hcost
  have hread := Exact.isReading_whole bids hcost.lt_bound.le
  rw [← CostMatrix.mapEntries_ofWhole hcost.entry] at hwithin ⊢
  have hstages := (solveWide_map hread hwithin).1
  rw [hstages, List.forall_mem_map] at hwithin ⊢
  intro st hst
  have hresults := Stage.results_map hread st (hwithin st hst)
  have hst := hwithin st hst
  rw [hresults, List.forall_mem_map] at hst ⊢
  exact fun x hx => x.isWhole (hst x hx)

end Rectangular

end LinearAssignment
