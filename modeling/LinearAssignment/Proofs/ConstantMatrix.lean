import LinearAssignment.Proofs.Delivery
import LinearAssignment.Proofs.Dense.Constant
import LinearAssignment.Proofs.Rectangular.Constant

/-! Tables that hold one element everywhere. Whatever the element is, the answer of either solver
pairs rows and columns in order, as many of them as the smaller side has. -/
namespace LinearAssignment

def Table.constant (type : ElementType) (n m : ℕ) (e : Element) : Table :=
  ⟨type, [n, m], List.replicate (n * m) e⟩

/-- The indices of one side of which the first `count` are matched with their own numbers. -/
def indicesInOrder (size count : ℕ) : List ℤ :=
  (List.range size).map fun i => if i < count then (i : ℤ) else -1

variable {n m : ℕ} {p : Precision} {c : p.Number} {type : ElementType} {precision : Option String}

theorem Problem.ofEntries?_replicate (c : p.Number) :
    Problem.ofEntries? p n m (List.replicate (n * m) c) = some ⟨p, n, m, .constant n m c⟩ := by
  rw [ofEntries?, dif_pos List.length_replicate]
  congr 2
  refine CostMatrix.ext_entries fun i j => ?_
  rw [CostMatrix.getElem_constant, CostMatrix.ofEntries, CostMatrix.getElem_ofFn]
  simp [Vector.get]

theorem Table.toProblem_constant (e : Element)
    (htarget : (Table.constant type n m e).targetPrecision precision = .ok p)
    (hconvert : e.convert type.kind p.format = .ok c) :
    (Table.constant type n m e).toProblem none precision = .ok ⟨p, n, m, .constant n m c⟩ := by
  have hentries : (Table.constant type n m e).convert p = .ok (List.replicate (n * m) c) := by
    change (List.replicate (n * m) e).mapM (fun e => e.convert type.kind p.format) = _
    generalize n * m = size
    induction size with
    | zero => rfl
    | succ size ih =>
      rw [List.replicate_succ, List.mapM_cons, hconvert, ih]
      rfl
  simp only [toProblem, htarget, hentries, bind, Except.bind]
  simp only [Table.constant, Problem.ofEntries?_replicate]

theorem indices_ofFn {size other count : ℕ} (hcount : count ≤ other) :
    (Vector.ofFn fun i : Fin size => if h : i.val < count ∧ i.val < other then
      some (⟨i, h.2⟩ : Fin other) else none).toList.map indexOrMinusOne =
        indicesInOrder size count := by
  rw [Vector.toList_ofFn, List.ofFn_eq_map, List.map_map, indicesInOrder,
    ← List.map_coe_finRange_eq_range, List.map_map]
  refine List.map_congr_left fun i _ => ?_
  by_cases hi : i.val < count
  · simp [hi, hi.trans_le hcount, indexOrMinusOne]
  · simp [hi, indexOrMinusOne]

/-- On a matrix filled with one finite number every comparison is a tie, and both solvers match the
first rows with the first columns in order. -/
theorem respond_constant_in_order (e : Element)
    (htarget : (Table.constant type n m e).targetPrecision precision = .ok p)
    (hconvert : e.convert type.kind p.format = .ok c) (hfinite : Cost.isFinite c = true)
    (maximize : Bool) (slots : Slots) :
    let request : Request :=
      { cost := .table (.constant type n m e), precision := precision, maximize := maximize }
    (∃ answer, (Dense.respond request slots).outcome = .ok ⟨p, answer⟩ ∧
      answer.columnOfRow = indicesInOrder n (min n m) ∧
      answer.rowOfColumn = indicesInOrder m (min n m)) ∧
    ∃ answer, (Rectangular.respond request slots).outcome = .ok ⟨p, .solved answer⟩ ∧
      answer.rows = (List.range (min n m)).map Int.ofNat ∧
      answer.columns = (List.range (min n m)).map Int.ofNat := by
  intro request
  have hproblem : request.cost.toProblem request.shape request.precision =
      .ok ⟨p, n, m, .constant n m c⟩ := Table.toProblem_constant e htarget hconvert
  constructor
  · obtain ⟨s, hs, hdiagonal⟩ := Dense.exists_solve_constant p.isAmple_format hfinite maximize
    have hprepare : request.prepare slots Dense.outputSizes = .ok (_, none) :=
      Request.prepare_without_outputs slots hproblem
    refine ⟨_, congrArg Response.outcome (Dense.respond_eq hprepare hs), ?_, ?_⟩
    · change s.columnOf.toList.map indexOrMinusOne = _
      rw [hdiagonal]
      exact indices_ofFn (min_le_right n m)
    · change s.rowOf.toList.map indexOrMinusOne = _
      rw [hdiagonal]
      exact indices_ofFn (min_le_left n m)
  · obtain ⟨s, hs, hpairs⟩ := Rectangular.exists_solve_constant hfinite maximize
    have hprepare : request.prepare slots Rectangular.outputSizes = .ok (_, none) :=
      Request.prepare_without_outputs slots hproblem
    refine ⟨_, congrArg Response.outcome (Rectangular.respond_eq hprepare hs), ?_, ?_⟩
    · change s.pairs.map (fun p => (p.1 : ℤ)) = _
      rw [hpairs, List.map_map]
      rfl
    · change s.pairs.map (fun p => (p.2 : ℤ)) = _
      rw [hpairs, List.map_map]
      rfl

/-- Three rows and two columns of half precision numbers, which are to be maximised. -/
theorem respond_constant_tall_in_order :
    let request : Request :=
      { cost := .table (.constant ⟨.half, false⟩ 3 2 (.real (.ofInt (-7)))), maximize := true }
    (∃ answer, (Dense.respond request []).outcome = .ok ⟨.single, answer⟩ ∧
      answer.columnOfRow = [0, 1, -1] ∧ answer.rowOfColumn = [0, 1]) ∧
    ∃ answer, (Rectangular.respond request []).outcome = .ok ⟨.single, .solved answer⟩ ∧
      answer.rows = [0, 1] ∧ answer.columns = [0, 1] :=
  respond_constant_in_order (.real (.ofInt (-7))) rfl rfl (by decide +kernel) true []

end LinearAssignment
