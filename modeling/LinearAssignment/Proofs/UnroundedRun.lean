import LinearAssignment.Proofs.Binary.Reading
import LinearAssignment.Proofs.WholeCost

/-! Integer matrices are solved without rounding if eight times their largest entry is an integer of
no more bits than the significand has, whatever their dimensions are. -/
namespace LinearAssignment

variable {f : Format} {bound : ℚ} {n m : ℕ} {cost : CostMatrix (Binary f) n m}
  {z : Fin n → Fin m → ℤ} {C : ℕ}

theorem isReading_of_lt (hf : f.IsAmple) (hC : 8 * C ≤ 2 ^ (f.fractionBits + 1))
    (hbound : 8 * C < bound) :
    Cost.IsReading (Binary.exact : Binary f → Exact bound (Cost.levels (Binary f)))
      fun q => ∃ a : ℤ, q = a ∧ |a| ≤ (8 * C : ℕ) := by
  apply Binary.isReading_exact hf hC
  push_cast
  exact hbound.le

theorem Exact.IsWhole.meets {bids : ℕ} {x : Exact bound bids} (h : x.IsWhole (8 * C)) :
    x.Meets fun q => ∃ a : ℤ, q = a ∧ |a| ≤ (8 * C : ℕ) := by
  obtain ⟨a, ha, hle⟩ := h
  exact ⟨a, ha, a, rfl, by exact_mod_cast hle⟩

namespace CostMatrix

def exact (bound : ℚ) (cost : CostMatrix (Binary f) n m) :
    CostMatrix (Exact bound (Cost.levels (Binary f))) n m :=
  cost.mapEntries Binary.exact

theorem isBounded_of_whole {bids : ℕ} {cost : CostMatrix (Exact bound bids) n m} (hnm : n ≤ m)
    (hz : ∀ i j, |z i j| ≤ C) (hbound : 8 * C < bound)
    (hcost : ∀ (i : Fin n) (j : Fin m), cost[i][j] = .number (z i j)) :
    cost.IsBounded (fun i j => (z i j : ℚ)) C where
  entry := hcost
  nonneg := Nat.cast_nonneg C
  magnitude i j := by exact_mod_cast hz i j
  lt_bound := hbound
  le := hnm

end CostMatrix

namespace Dense

/-- The run of the dense solver is the exact one. It succeeds, comes to the same stages and
calculates the exact results there, and what it reports, its matching and its potentials are
exact. -/
structure IsUnrounded (bound : ℚ) (cost : CostMatrix (Binary f) n m) : Prop where
  stages : stages (cost.exact bound) = (stages cost).map (Stage.map Binary.exact)
  results : ∀ st ∈ Dense.stages cost,
    (st.map Binary.exact).results (cost.exact bound) = (st.results cost).map Binary.exact
  run : solveWide (cost.exact bound) =
    (solveWide cost).map (Event.map Binary.exact) (DualMatching.map Binary.exact)
  outcome : ∃ s, (solveWide cost).outcome = .ok s

theorem isUnrounded (hf : f.IsAmple) (hC : 8 * C ≤ 2 ^ (f.fractionBits + 1))
    (h : (cost.exact bound).IsBounded (fun i j => (z i j : ℚ)) C) : IsUnrounded bound cost := by
  have hread := isReading_of_lt hf hC h.lt_bound
  have hmeets : ∀ st ∈ Dense.stages (cost.exact bound),
      ∀ x ∈ st.results (cost.exact bound), x.Meets _ :=
    fun st hst x hx => (stages_whole h st hst x hx).meets
  have hstages : Dense.stages (cost.exact bound) = _ := (complete_map hread hmeets).1
  have hrun : solveWide (cost.exact bound) = _ := solveWide_map hread hmeets
  obtain ⟨t, ht⟩ := exists_solveWide h
  rw [hrun] at ht
  obtain ⟨s, hs, -⟩ := Run.exists_of_outcome_map ht
  refine ⟨hstages, fun st hst => ?_, hrun, s, hs⟩
  apply Stage.results_map hread st
  apply hmeets
  rw [hstages]
  exact List.mem_map_of_mem hst

end Dense

namespace Rectangular

/-- The run of the rectangular solver is the exact one. It finds a solution, comes to the same
stages and calculates the exact results there, and what it reports, its matching and its potentials
are exact. -/
structure IsUnrounded (bound : ℚ) (cost : CostMatrix (Binary f) n m) : Prop where
  stages : stages (cost.exact bound) = (stages cost).map (Stage.map Binary.exact)
  results : ∀ st ∈ Rectangular.stages cost,
    (st.map Binary.exact).results (cost.exact bound) = (st.results cost).map Binary.exact
  run : solveWide (cost.exact bound) =
    (solveWide cost).map (Event.map Binary.exact) (Option.map (DualMatching.map Binary.exact))
  outcome : ∃ s, (solveWide cost).outcome = .ok (some s)

theorem isUnrounded (hf : f.IsAmple) (hC : 8 * C ≤ 2 ^ (f.fractionBits + 1))
    (h : (cost.exact bound).IsBounded (fun i j => (z i j : ℚ)) C) : IsUnrounded bound cost := by
  have hread := isReading_of_lt hf hC h.lt_bound
  have hmeets : ∀ st ∈ Rectangular.stages (cost.exact bound),
      ∀ x ∈ st.results (cost.exact bound), x.Meets _ :=
    fun st hst x hx => (stages_whole h st hst x hx).meets
  obtain ⟨hstages, hrun⟩ := solveWide_map hread hmeets
  obtain ⟨t, ht⟩ := exists_solveWide h
  rw [CostMatrix.exact, hrun] at ht
  obtain ⟨s, hs, hst⟩ := Run.exists_of_outcome_map ht
  obtain ⟨s, rfl, -⟩ := Option.map_eq_some_iff.mp hst
  refine ⟨hstages, fun st hst => ?_, hrun, s, hs⟩
  apply Stage.results_map hread st
  apply hmeets
  rw [CostMatrix.exact, hstages]
  exact List.mem_map_of_mem hst

end Rectangular

/-- In the exact runs on an integer matrix all results are integers, of magnitude at most eight
times that of the entries. If the significand holds these integers, the runs on floating-point
numbers are the exact runs. That the results listed at the stages are exact is all that this takes:
costs of any kind that can be read as exact ones, and for which those results can be read, make the
exact runs. -/
theorem solveWide_unrounded (hnm : n ≤ m) (z : Fin n → Fin m → ℤ) (C : ℕ)
    (hz : ∀ i j, |z i j| ≤ C) (bound : ℚ) (hbound : 8 * C < bound) :
    (∀ (bids : ℕ) (cost : CostMatrix (Exact bound bids) n m),
      (∀ (i : Fin n) (j : Fin m), cost[i][j] = .number (z i j)) →
        (∀ st ∈ Dense.stages cost, ∀ x ∈ st.results cost, x.IsWhole (8 * C)) ∧
        ∀ st ∈ Rectangular.stages cost, ∀ x ∈ st.results cost, x.IsWhole (8 * C)) ∧
      (∀ p : Precision, 8 * C ≤ 2 ^ (p.format.fractionBits + 1) →
        ∀ cost : CostMatrix p.Number n m,
          (∀ (i : Fin n) (j : Fin m), (cost.exact bound)[i][j] = .number (z i j)) →
            Dense.IsUnrounded bound cost ∧ Rectangular.IsUnrounded bound cost) ∧
      ∀ (α : Type) [Cost α] (bids : ℕ) (read : α → Exact bound bids) (P : ℚ → Prop),
        Cost.IsReading read P → ∀ cost : CostMatrix α n m,
          ((∀ st ∈ Dense.stages (cost.mapEntries read),
              ∀ x ∈ st.results (cost.mapEntries read), x.Meets P) →
            Dense.stages (cost.mapEntries read) =
              (Dense.stages cost).map (Dense.Stage.map read) ∧
            Dense.solveWide (cost.mapEntries read) =
              (Dense.solveWide cost).map (Dense.Event.map read) (DualMatching.map read)) ∧
          ((∀ st ∈ Rectangular.stages (cost.mapEntries read),
              ∀ x ∈ st.results (cost.mapEntries read), x.Meets P) →
            Rectangular.stages (cost.mapEntries read) =
              (Rectangular.stages cost).map (Rectangular.Stage.map read) ∧
            Rectangular.solveWide (cost.mapEntries read) =
              (Rectangular.solveWide cost).map (Rectangular.Event.map read)
                (Option.map (DualMatching.map read))) := by
  refine ⟨?_, ?_, fun α _ bids read P hread cost => ⟨fun hresults => ?_, fun hresults => ?_⟩⟩
  · intro bids cost hcost
    have hbounded := CostMatrix.isBounded_of_whole hnm hz hbound hcost
    exact ⟨Dense.stages_whole hbounded, Rectangular.stages_whole hbounded⟩
  · intro p hC cost hcost
    have hbounded := CostMatrix.isBounded_of_whole hnm hz hbound hcost
    exact ⟨Dense.isUnrounded p.isAmple_format hC hbounded,
      Rectangular.isUnrounded p.isAmple_format hC hbounded⟩
  · exact ⟨(Dense.complete_map hread hresults).1, Dense.solveWide_map hread hresults⟩
  · exact Rectangular.solveWide_map hread hresults

/-- Entries so large that eight times their magnitude just fits the significand of a double. -/
def brim (i : Fin 2) (j : Fin 3) : ℤ := if i.val = j.val then 2 ^ 50 else -2 ^ 50

theorem natAbs_brim (i : Fin 2) (j : Fin 3) : (brim i j).natAbs = 2 ^ 50 := by
  unfold brim
  split <;> rfl

def CostMatrix.brim : CostMatrix Precision.double.Number 2 3 :=
  .ofFn fun i j => .ofInt (LinearAssignment.brim i j)

theorem CostMatrix.exact_brim (bound : ℚ) (i : Fin 2) (j : Fin 3) :
    (CostMatrix.brim.exact bound)[i][j] = .number (LinearAssignment.brim i j) := by
  rw [exact, getElem_mapEntries, brim, getElem_ofFn]
  apply Binary.exact_ofInt Precision.double.isAmple_format
  rw [natAbs_brim]
  decide

theorem solveWide_brim_unrounded :
    (∀ st ∈ Dense.stages (CostMatrix.brim.exact (2 ^ 54)),
      ∀ x ∈ st.results (CostMatrix.brim.exact (2 ^ 54)), x.IsWhole (2 ^ 53)) ∧
    Dense.IsUnrounded (2 ^ 54) CostMatrix.brim ∧
    Rectangular.IsUnrounded (2 ^ 54) CostMatrix.brim := by
  have hz : ∀ i j, |brim i j| ≤ (2 ^ 50 : ℕ) := fun i j => by
    rw [Int.abs_eq_natAbs, natAbs_brim]
  have hbound : (8 : ℚ) * (2 ^ 50 : ℕ) < 2 ^ 54 := by norm_num
  have hwhole : (8 : ℚ) * (2 ^ 50 : ℕ) = 2 ^ 53 := by norm_num
  obtain ⟨hexact, hrounded, -⟩ :=
    solveWide_unrounded (by decide) brim (2 ^ 50) hz (2 ^ 54) hbound
  refine ⟨hwhole ▸ (hexact _ _ (CostMatrix.exact_brim (2 ^ 54))).1, ?_⟩
  exact hrounded .double (by decide) CostMatrix.brim (CostMatrix.exact_brim (2 ^ 54))

end LinearAssignment
