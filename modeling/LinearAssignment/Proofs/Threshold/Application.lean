import LinearAssignment.Proofs.Dense.Constant
import LinearAssignment.Proofs.ProblemCertificate
import LinearAssignment.Proofs.Threshold.Overflow

/-! Assigners and their solvers agree. An assigner compares the elements of a tensor with the
threshold in their own type and its solver compares what is left once more, but at a threshold with
a fraction both comparisons are the same. An empty tensor, which the assigner answers itself, has no
matches in the solver either, which extends it by nothing but dummies. -/
namespace LinearAssignment

namespace CostMatrix

variable {α : Type} [Cost α] {n m : ℕ}

theorem gateEntry_gateEntry (hinfinity : ¬ Cost.isFinite (Cost.infinity : α) = true) (t x : α) :
    gateEntry t (gateEntry t x) = gateEntry t x := by
  by_cases h : Cost.isFinite x = true ∧ x < t
  · rw [gateEntry_of_below h.1 h.2, gateEntry_of_below h.1 h.2]
  · have hfinite := (isFinite_gateEntry_of hinfinity).not.mpr h
    rw [gateEntry, if_neg (by simp [hfinite]), gateEntry, if_neg (by simpa using h)]

theorem gate_gate (hinfinity : ¬ Cost.isFinite (Cost.infinity : α) = true)
    (cost : CostMatrix α n m) (t : α) : (cost.gate t).gate t = cost.gate t :=
  ext_entries fun i j => by
    rw [getElem_gate, getElem_gate, gateEntry_gateEntry hinfinity]

end CostMatrix

variable {p : Precision} {n m : ℕ}

theorem Problem.exists_ofEntries?_map {entries : List p.Number} (h : entries.length = n * m) :
    ∃ cost, ofEntries? p n m entries = some ⟨p, n, m, cost⟩ ∧
      ∀ g : p.Number → p.Number,
        ofEntries? p n m (entries.map g) = some ⟨p, n, m, cost.mapEntries g⟩ := by
  refine ⟨_, dif_pos h, fun g => ?_⟩
  rw [ofEntries?, dif_pos ((List.length_map g).trans h)]
  congr 2
  refine CostMatrix.ext_entries fun i j => ?_
  rw [CostMatrix.getElem_mapEntries, CostMatrix.ofEntries, CostMatrix.ofEntries,
    CostMatrix.getElem_ofFn, CostMatrix.getElem_ofFn]
  simp [Vector.get]

namespace Solver

theorem assignMatrix_gate (solver : Solver) (cost : CostMatrix p.Number n m) (t : Binary .double) :
    solver.assignMatrix ⟨p, n, m, cost.gate (t.convert p.format)⟩ t =
      solver.assignMatrix ⟨p, n, m, cost⟩ t := by
  have hgate : (cost.gate (t.convert p.format)).gate (Threshold.toCost t) =
      cost.gate (Threshold.toCost t) := CostMatrix.gate_gate Binary.not_isFinite_infinity cost _
  cases solver with
  | dense =>
    simp only [assignMatrix, Dense.assign, hgate]
  | rectangular => simp only [assignMatrix, Rectangular.assign, hgate]
  | unspecified => rfl

/-- A solver gates the entries that it gets, so it does not matter whether they have been gated. -/
theorem assignEntries_map_gateEntry (solver : Solver) {entries : List p.Number}
    (hlength : entries.length = n * m) (t : Binary .double) :
    solver.assignEntries p [n, m] (entries.map (CostMatrix.gateEntry (t.convert p.format)))
        (.real t) =
      solver.assignEntries p [n, m] entries (.real t) := by
  obtain ⟨cost, hcost, hmap⟩ := Problem.exists_ofEntries?_map hlength
  have hgate := solver.assignMatrix_gate cost t
  rw [CostMatrix.gate] at hgate
  simp only [assignEntries, Scalar.checkedDouble, bind, Except.bind, hcost, hmap, hgate]

end Solver

/-- The types whose elements are compared in the precision in which an assignment is found: numbers
of a precision, words and truth values. -/
def TensorType.isPlain : TensorType → Bool
  | single | double | signed _ | unsigned _ | boolean => true
  | half | brain | complex _ => false

namespace TensorType

theorem roundTo_eq (p : Precision) (x : Binary .double) :
    roundTo p.format x = x.convert p.format := by
  cases p with
  | single => exact Binary.convert_self (x.convert .single)
  | double => rfl

theorem gated_number (p : Precision) (x : Binary .double) (y : p.Number) :
    (if y.isFinite && decide (y < roundTo p.format x) then y.convert p.format else .infinity) =
      CostMatrix.gateEntry (x.convert p.format) (y.convert p.format) := by
  rw [roundTo_eq, Binary.convert_self, Binary.isFinite_eq]
  rfl

variable {t : TensorType}

theorem isBelow_real (h : t.isPlain = true) (x : Binary .double) :
    t.isBelow (.real x) = .ok (t.isBelowNumber (.real x)) := by
  cases t <;> first | rfl | exact nomatch h

/-- The comparison of an element with a threshold is that of a cost. -/
theorem gated_element (h : t.isPlain = true) (x : Binary .double) (y : t.Value) :
    (if (t.toBinary y).isFinite && t.isBelowNumber (.real x) y then t.toNumber y else .infinity) =
      CostMatrix.gateEntry (x.convert t.precision.format) (t.toNumber y) := by
  cases t with
  | single => exact gated_number .single x y
  | double => exact gated_number .double x y
  | signed bits => exact gated_number .single x (.ofInt y)
  | unsigned bits => exact gated_number .single x (.ofInt y)
  | boolean => exact gated_number .single x (.ofInt (Bool.toInt y))
  | half | brain | complex => exact nomatch h

end TensorType

/-- What an assigner leaves of a tensor is what the gate of its solver would leave. -/
theorem Tensor.gated_real {T : Tensor} (h : T.type.isPlain = true) (x : Binary .double) :
    T.gated (.real x) =
      .ok (T.numbers.map (CostMatrix.gateEntry (x.convert T.type.precision.format))) := by
  rw [numbers, List.map_map]
  unfold gated
  simp only [TensorType.isBelow_real h, bind, Except.bind, TensorType.gated_element h]
  rfl

section empty

variable {cost : CostMatrix p.Number n m} {t : Binary .double}

namespace CostMatrix

/-- The extension of a matrix without entries has dummies only, which are never both. -/
theorem extendAt_of_empty (h : min n m = 0) :
    cost.extendAt t = .constant (n + m) (n + m) (Threshold.halfCost (cost.limit t)) := by
  refine ext_entries fun a b => ?_
  rw [getElem_constant, extendAt, extend, getElem_ofFn]
  split_ifs
  · omega
  · rfl
  · rfl
  · omega

theorem isRoomy_of_empty (h : min n m = 0)
    (ht : t.isFinite = true → Cost.isFinite (t.convert p.format) = true) : cost.IsRoomy t := by
  by_cases hfinite : t.isFinite = true
  · exact isRoomy_of_isFinite hfinite (ht hfinite)
  · have hroom : 2 ^ (0 + 0 + 1) * p.format.one < p.format.ceiling := by cases p <;> decide +kernel
    refine isRoomy_of_magnitude (a := 0) (b := 0) p.embeds (Bool.eq_false_iff.mpr hfinite)
      (fun i j => ?_) ?_ hroom
    · have hi := i.isLt
      have hj := j.isLt
      omega
    · rw [h]
      exact le_rfl

theorem split_of_empty (h : min n m = 0) (pairs : List (ℤ × ℤ)) :
    cost.split pairs = .ofMatches n m [] := by
  have hnone : pairs.filterMap cost.match? = [] :=
    List.filterMap_eq_nil_iff.mpr fun a _ => Option.eq_none_iff_forall_ne_some.mpr fun b hb => by
      obtain ⟨⟨i, j⟩, -⟩ := match?_eq_some.mp hb
      have hi := i.isLt
      have hj := j.isLt
      omega
  rw [split, hnone]

end CostMatrix

/-- The dense solver solves the dummies. -/
theorem Dense.exists_assign_of_empty (h : min n m = 0)
    (hroomy : (cost.gate (Threshold.toCost t)).IsRoomy t) :
    ∃ r, (Dense.assign cost t).outcome = .ok r := by
  obtain ⟨s, hs⟩ : ∃ s, (Dense.solve ((cost.gate (Threshold.toCost t)).extendAt t) false).outcome =
      .ok s := by
    rw [CostMatrix.extendAt_of_empty h]
    by_cases hne : n + m = 0
    · exact ⟨_, Dense.solve_outcome_of_trivial (by omega)⟩
    · obtain ⟨s, hs, -⟩ :=
        Dense.exists_solve_constant p.isAmple_format (hroomy.half hne) false
      exact ⟨s, hs⟩
  exact ⟨_, Run.outcome_bind (Run.outcome_mapError hs _) _⟩

theorem Solver.assignMatrix_of_empty {solver : Solver} (hsolver : solver ≠ .unspecified)
    (h : min n m = 0)
    (ht : t.isFinite = true → Cost.isFinite (t.convert p.format) = true) :
    (solver.assignMatrix ⟨p, n, m, cost⟩ t).outcome = .ok (.ofMatches n m []) := by
  have hroomy : (cost.gate (Threshold.toCost t)).IsRoomy t := CostMatrix.isRoomy_of_empty h ht
  cases solver with
  | dense =>
    obtain ⟨r, hr⟩ := Dense.exists_assign_of_empty h hroomy
    obtain ⟨-, pairs, rfl⟩ := Dense.isPartition_of_assign hr
    exact hr.trans (congrArg _ (CostMatrix.split_of_empty h pairs))
  | rectangular =>
    obtain ⟨r, hr⟩ := Rectangular.exists_assign_of_isRoomy fun _ => hroomy
    obtain ⟨-, pairs, rfl⟩ := Rectangular.isPartition_of_assign hr
    exact hr.trans (congrArg _ (CostMatrix.split_of_empty h pairs))
  | unspecified => exact absurd rfl hsolver

end empty

section apply

variable {assigner : Assigner} {T : Tensor}

theorem Assigner.apply_of_empty (hshape : T.shape = [n, m]) (h : min n m = 0) :
    assigner.apply T = .ok (.immediate (.ofMatches n m [])) := by
  have hzero : [n, m].contains 0 = true := by
    simp
    omega
  unfold apply
  simp only [hshape, hzero]
  rfl

theorem Assigner.apply_of_gated (hshape : T.shape = [n, m]) (h : min n m ≠ 0)
    (hsolver : assigner.solver ≠ .unspecified) {entries : List T.type.precision.Number}
    (hgated : T.gated assigner.threshold = .ok entries) :
    assigner.apply T = (assigner.solver.assignEntries T.type.precision [n, m] entries
      assigner.threshold).map .called := by
  have hzero : [n, m].contains 0 = false := by
    simp
    omega
  unfold apply
  simp only [hshape, hzero, hgated, bind, Except.bind, if_neg hsolver]
  rfl

end apply

/-- An assigner has the outcome of its solver: the same matches in the same order, the same rows and
columns without a match, or the same failure. -/
theorem apply_agrees_with_solver (solver : Solver) (hsolver : solver ≠ .unspecified) (T : Tensor)
    (htype : T.type.isPlain = true) (n m : ℕ) (hshape : T.shape = [n, m])
    (hlength : T.elements.length = n * m) (x : Binary .double)
    (hx : x.isFinite = true → Cost.isFinite (x.convert T.type.precision.format) = true) :
    ((Assigner.mk solver (.real x)).apply T).bind Application.outcome =
      (solver.assign T (.real x)).bind Run.outcome := by
  by_cases hempty : min n m = 0
  · have hdouble : (Scalar.real x).checkedDouble = .ok x := rfl
    obtain ⟨cost, -, hrun⟩ := solver.exists_assign hshape hlength hdouble
    rw [Assigner.apply_of_empty hshape hempty, hrun]
    exact (Solver.assignMatrix_of_empty hsolver hempty hx).symm
  · have hnumbers : T.numbers.length = n * m := (List.length_map _).trans hlength
    rw [Assigner.apply_of_gated hshape hempty hsolver (Tensor.gated_real htype x),
      solver.assignEntries_map_gateEntry hnumbers, Solver.assign, hshape]
    cases solver.assignEntries T.type.precision [n, m] T.numbers (.real x) <;> rfl

/-- Two rows of integers below, at and above four. -/
def Tensor.graded : Tensor := ⟨.signed 64, [2, 2], ([4, 3, 5, 6] : List ℤ)⟩

/-- At a threshold that is none, an empty tensor leaves its columns unmatched; at one of four, only
the entry below it is matched. -/
theorem apply_graded_agrees_with_solver :
    (Solver.dense.assign ⟨.boolean, [0, 3], []⟩ (.real .nan)).bind Run.outcome =
      .ok ⟨[], [], [0, 1, 2]⟩ ∧
    ∀ solver ∈ [Solver.dense, Solver.rectangular],
      ((Assigner.mk solver (.real (.ofInt 4))).apply .graded).bind Application.outcome =
        .ok ⟨[(0, 1)], [1], [0]⟩ ∧
      (solver.assign .graded (.real (.ofInt 4))).bind Run.outcome = .ok ⟨[(0, 1)], [1], [0]⟩ := by
  refine ⟨(apply_agrees_with_solver .dense (by decide) ⟨.boolean, [0, 3], []⟩ rfl 0 3 rfl rfl .nan
    (by decide)).symm, fun solver hsolver => ?_⟩
  have hne : solver ≠ .unspecified := by
    rintro rfl
    simp at hsolver
  have hagrees := apply_agrees_with_solver solver hne .graded rfl 2 2 rfl rfl (.ofInt 4)
    (by decide +kernel)
  have hassign : (solver.assign .graded (.real (.ofInt 4))).bind Run.outcome =
      .ok ⟨[(0, 1)], [1], [0]⟩ := by
    simp only [List.mem_cons, List.not_mem_nil, or_false] at hsolver
    rcases hsolver with rfl | rfl <;> exact eq_ok_of_toOption (by decide +kernel)
  exact ⟨hagrees.trans hassign, hassign⟩

end LinearAssignment
