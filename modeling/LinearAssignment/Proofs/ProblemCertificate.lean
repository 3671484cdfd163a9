import LinearAssignment.Problem.Certificate
import LinearAssignment.Proofs.Binary.Rounding
import LinearAssignment.Proofs.CertificateTolerance

/-! The check of a certificate for the matrix of a problem. Potentials of the precision of the
problem are not converted, so the check is the one that any costs have, with the tolerance rounded
to the precision. -/
namespace LinearAssignment

namespace Binary

variable {f : Format}

theorem convert_self (x : Binary f) : x.convert f = x := by
  cases x with
  | nan => rfl
  | number s a ha =>
    rcases ha.1.lt_or_eq with hlt | rfl
    · have hpos : 0 < f.one := Nat.two_pow_pos _
      have hround : f.round (a * f.one) f.one = a :=
        (f.round_congr hpos Nat.one_pos (mul_one _)).trans (Format.round_eq_self ha)
      simp only [convert_of_lt hlt, ofQuotient, hround]
    · exact convert_ceiling

end Binary

variable {p : Precision} {n m k : ℕ}

/-- As many potentials as are needed, and of the precision that is needed, stay as they are. -/
theorem Potentials.toVector?_toList (u : Vector p.Number k) :
    (⟨p, u.toList⟩ : Potentials).toVector? p k = some u := by
  obtain ⟨⟨values⟩, rfl⟩ := u
  rcases values with - | ⟨x, - | ⟨y, rest⟩⟩ <;> simp [toVector?, Binary.convert_self]

namespace CostMatrix

variable {α : Type}

theorem mapM_entry? (cost : CostMatrix α n m) (pairs : List (Fin n × Fin m)) :
    (pairs.map fun p => (p.1.val, p.2.val)).mapM (fun (i, j) => cost.entry? i j) =
      some (pairs.map fun p => cost[p.1][p.2]) := by
  induction pairs with
  | nil => rfl
  | cons p rest ih =>
    have hentry : cost.entry? p.1 p.2 = some cost[p.1][p.2] := dif_pos ⟨p.1.isLt, p.2.isLt⟩
    simp only [List.map_cons, List.mapM_cons, hentry, ih]
    rfl

theorem matched?_toList (cost : CostMatrix α n m) (s : Matching n m) :
    cost.matched? (s.columnOf.toList.map (·.map Fin.val)) = some (cost.matched s.columnOf) := by
  have hindexed : (s.columnOf.toList.map (·.map Fin.val)).zipIdx =
      (List.finRange n).map fun i => (s.columnOf[i].map Fin.val, i.val) := by
    apply List.ext_getElem
    · simp
    · intro i hi hi'
      simp [getElem_fin]
  have hpairs : s.pairList.map (fun p => (p.1.val, p.2.val)) = (List.finRange n).filterMap fun i =>
      (s.columnOf[i].map Fin.val).map fun j => (i.val, j) := by
    simp only [Matching.pairList, List.map_filterMap, Option.map_map, Function.comp_def]
  rw [matched?, hindexed, List.filterMap_map, Matching.matched_eq_map, ← mapM_entry?, hpairs]
  rfl

theorem mapEntries_convert_self (cost : CostMatrix p.Number n m) :
    (cost.mapEntries fun x => x.convert p.format) = cost := by
  simp only [mapEntries, Binary.convert_self, Vector.map_id_fun', id_eq]

end CostMatrix

theorem Problem.total_eq (problem : Problem) (s : Matching problem.rows problem.columns) :
    problem.total (s.columnOf.toList.map (·.map Fin.val)) =
      .ok (problem.cost.total s.columnOf) := by
  simp only [total, CostMatrix.matched?_toList, CostMatrix.total]

/-- The check of a problem for potentials of its own precision. -/
theorem Problem.isDualFeasible_eq (problem : Problem) (s : Matching problem.rows problem.columns)
    (u : Vector problem.precision.Number problem.rows)
    (v : Vector problem.precision.Number problem.columns) (relative : Binary .double) :
    problem.isDualFeasible (s.columnOf.toList.map (·.map Fin.val)) ⟨problem.precision, u.toList⟩
        ⟨problem.precision, v.toList⟩ relative =
      .ok (problem.cost.isDualFeasible s.columnOf u v fun x =>
        (problem.tolerance x relative).convert problem.precision.format) := by
  have hboth : ∀ b t : Bool, (if b = true then .ok t else .ok false : Except Failure Bool) =
      .ok (b && t) := by
    decide
  obtain ⟨p, n, m, cost⟩ := problem
  unfold isDualFeasible CostMatrix.isDualFeasible
  cases cost.magnitude? with
  | none => rfl
  | some x =>
    -- The precision is given, so that joining it with itself computes.
    cases p <;>
    · simp only [Precision.join, Potentials.toVector?_toList, CostMatrix.mapEntries_convert_self,
        CostMatrix.matched?_toList]
      exact hboth _ _

end LinearAssignment
