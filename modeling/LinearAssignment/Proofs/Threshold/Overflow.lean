import LinearAssignment.Proofs.Binary.Finite
import LinearAssignment.Proofs.Binary.Operations
import LinearAssignment.Proofs.Threshold.Tensor

/-! When an extension has room for its limit. The limit is a double, while the extension has the
precision of the matrix, so a limit beyond that precision makes entries of the extension infinite,
and with them the extended problem may have no solution. Where the limit has room the extension is
finite and the rectangular solver always finds a matching. -/
namespace LinearAssignment

namespace Binary

variable {f : Format}

theorem exact_zero : ((0 : Binary f).exact : Extended) = .number 0 := by
  have hzero : ((0 : Binary f).exact : Extended) = .number _ := exact_of_lt (Nat.two_pow_pos _)
  simpa [signed] using hzero

theorem exact_abs {x : Binary f} {q : ℚ} (hx : (x.exact : Extended) = .number q) :
    ((Cost.abs x).exact : Extended) = .number |q| := by
  have hlt : x < 0 ↔ q < 0 := by
    have hexact : (x.exact : Extended) < (0 : Binary f).exact ↔ x < 0 := exact_lt_iff x 0
    rw [hx, exact_zero, Exact.number_lt] at hexact
    exact hexact.symm
  unfold Cost.abs
  split
  next hneg =>
    rw [abs_of_neg (hlt.mp hneg)]
    have hneg' : ((-x).exact : Extended) = -x.exact := exact_neg x
    rw [hx] at hneg'
    exact hneg'
  next hneg => rw [hx, abs_of_nonneg (not_lt.mp fun hq => hneg (hlt.mpr hq))]

/-- A limit that dominates costs is less than twice the number of pairs times the magnitude, if
both are rounded up to powers of two. -/
theorem exists_dominating {k a b : ℕ} {μ : Binary .double} {q : ℚ}
    (hμ : (μ.exact : Extended) = .number q) (hq : |q| + 1 ≤ 2 ^ a) (hk : k + 1 ≤ 2 ^ b)
    (hroom : 2 ^ (a + b + 1) * Format.double.one < Format.double.ceiling) :
    ∃ r, ((dominating k μ).exact : Extended) = .number r ∧ |r| ≤ 2 ^ (a + b + 1) := by
  have hlower : ∀ e ≤ a + b + 1, 2 ^ e * Format.double.one < Format.double.ceiling := fun e he =>
    (Nat.mul_le_mul_right _ (Nat.pow_le_pow_right (by decide) he)).trans_lt hroom
  have hint : ∀ (z : ℤ) (e : ℕ), e ≤ a + b + 1 → |z| ≤ 2 ^ e →
      ∃ r, ((ofInt z : Binary .double).exact : Extended) = .number r ∧ |r| ≤ 2 ^ e := by
    intro z e he hz
    refine Rounds.exists_le_two_pow ⟨rfl, quanta_ofInt z⟩ ?_ (hlower e he)
    exact_mod_cast hz
  obtain ⟨c, hc, hcle⟩ := hint 2 1 (by omega) (by decide)
  obtain ⟨d, hd, hdle⟩ := hint (k + 1) b (by omega) (by
    rw [abs_of_nonneg (by omega)]
    exact_mod_cast hk)
  obtain ⟨u, hu, hule⟩ := hint 1 0 (by omega) (by decide)
  obtain ⟨v, hv, hvle⟩ : ∃ v, ((ofInt 2 * ofInt (k + 1) : Binary .double).exact : Extended) =
      .number v ∧ |v| ≤ 2 ^ (1 + b) := by
    refine (rounds_mul hc hd).exists_le_two_pow ?_ (hlower _ (by omega))
    rw [abs_mul, pow_add]
    exact mul_le_mul hcle hdle (abs_nonneg d) (by positivity)
  obtain ⟨w, hw, hwle⟩ : ∃ w, ((μ + ofInt 1 : Binary .double).exact : Extended) =
      .number w ∧ |w| ≤ 2 ^ a := by
    refine (rounds_add hμ hu).exists_le_two_pow ?_ (hlower _ (by omega))
    rw [pow_zero] at hule
    exact (abs_add_le q u).trans ((add_le_add_right hule _).trans hq)
  refine (rounds_mul hv hw).exists_le_two_pow ?_ hroom
  rw [abs_mul, add_assoc, add_comm, add_comm b 1, pow_add _ _ a]
  exact mul_le_mul hvle hwle (abs_nonneg w) (by positivity)

end Binary

namespace CostMatrix

section entries

variable {α : Type} [Cost α] {n m : ℕ} {cost : CostMatrix α n m}

theorem isFinite_clipEntry {limit x : α} : Cost.isFinite (clipEntry limit x) = true ↔
    Cost.isFinite limit = true ∨ Cost.isFinite x = true ∧ x < limit := by
  by_cases h : Cost.isFinite x = true ∧ x < limit
  · rw [clipEntry, if_pos (by simpa using h)]
    exact iff_of_true h.1 (.inr h)
  · rw [clipEntry, if_neg (by simpa using h)]
    exact (or_iff_left h).symm

end entries

variable {f : Format} {n m : ℕ}

theorem isInvalid_gateEntry (y x : Binary f) : Cost.isInvalid (gateEntry y x) = false := by
  unfold gateEntry
  split
  next h => exact Binary.isInvalid_of_isFinite (Bool.and_eq_true_iff.mp h).1
  next =>
    have hpos : 0 < f.ceiling := Nat.two_pow_pos _
    have hne : Binary.signed false f.ceiling ≠ Binary.signed true f.ceiling := by
      simp [Binary.signed]
      omega
    exact decide_eq_false hne

/-- Whether the format of a matrix has room for the extension at a threshold: for half of the limit,
and for the limit itself unless no entry is clipped. -/
structure IsRoomy (cost : CostMatrix (Binary f) n m) (t : Binary .double) : Prop where
  half : n + m ≠ 0 → Cost.isFinite (Threshold.halfCost (cost.limit t) : Binary f) = true
  limit : Cost.isFinite (Threshold.toCost (cost.limit t) : Binary f) = true ∨
    ∀ (i : Fin n) (j : Fin m), Cost.isFinite cost[i][j] = true ∧
      cost[i][j] < Threshold.toCost (cost.limit t)

variable {cost : CostMatrix (Binary f) n m} {t : Binary .double}

/-- There is room exactly if the extension is finite. -/
theorem isFinite_extendAt_iff :
    (∀ a b : Fin (n + m), Cost.isFinite (cost.extendAt t)[a][b] = true) ↔ cost.IsRoomy t := by
  simp only [extendAt, extend, getElem_ofFn]
  constructor
  · intro h
    refine ⟨fun hne => ?_, ?_⟩
    · rcases Nat.eq_zero_or_pos n with rfl | hn
      · have hentry := h ⟨0, by omega⟩ ⟨0, by omega⟩
        rwa [dif_neg (by simp), if_pos (by simp; omega)] at hentry
      · have hentry := h ⟨0, by omega⟩ ⟨m, by omega⟩
        rwa [dif_pos hn, dif_neg (by simp)] at hentry
    · rw [or_iff_not_imp_left]
      intro hlimit i j
      have hentry := h (i.castAdd m) (j.castLE (Nat.le_add_left m n))
      have hi : (i.castAdd m).val < n := i.isLt
      have hj : (j.castLE (Nat.le_add_left m n)).val < m := j.isLt
      rw [dif_pos hi, dif_pos hj] at hentry
      exact (isFinite_clipEntry.mp hentry).resolve_left hlimit
  · intro h a b
    have hne : n + m ≠ 0 := (Nat.zero_le a.val).trans_lt a.isLt |>.ne'
    split_ifs
    · exact isFinite_clipEntry.mpr (h.limit.imp_right fun hall => hall _ _)
    · exact h.half hne
    · exact h.half hne
    · exact Binary.isFinite_zero

/-- A limit that is finite in the format of the matrix leaves room. -/
theorem isRoomy_of_isFinite_limit
    (h : Cost.isFinite (Threshold.toCost (cost.limit t) : Binary f) = true) : cost.IsRoomy t := by
  refine ⟨fun _ => ?_, .inl h⟩
  obtain ⟨q, hq, -⟩ : ∃ q, ((cost.limit t).exact : Extended) = .number q ∧ _ :=
    Binary.exists_of_isFinite_convert h
  have hhalf : |q / 2| ≤ |q| := by
    rw [abs_div, Nat.abs_ofNat]
    exact half_le_self (abs_nonneg q)
  obtain ⟨r, hr, hle⟩ := (Binary.rounds_halve hq).exists_abs_le hq hhalf
  exact (Binary.rounds_convert hr).isFinite_of_abs_le (Binary.rounds_convert hq) hle h

/-- At a finite threshold there is room if the format has room for the threshold. -/
theorem isRoomy_of_isFinite (ht : t.isFinite = true)
    (h : Cost.isFinite (t.convert f) = true) : cost.IsRoomy t := by
  have hlimit : cost.limit t = t := if_pos ht
  refine isRoomy_of_isFinite_limit ?_
  rw [hlimit]
  exact h

/-- Without a threshold there is room if twice the number of pairs times the magnitude of the
entries, both rounded up to powers of two, are below the ceiling. -/
theorem isRoomy_of_magnitude (hf : f.Embeds .double) (ht : t.isFinite = false) {a b : ℕ}
    (ha : ∀ (i : Fin n) (j : Fin m) (q : ℚ), (cost[i][j].exact : Extended) = .number q →
      |q| + 1 ≤ 2 ^ a)
    (hb : min n m + 1 ≤ 2 ^ b) (hroom : 2 ^ (a + b + 1) * f.one < f.ceiling) :
    cost.IsRoomy t := by
  have hlimit : cost.limit t =
      Binary.dominating (min n m) ((cost.magnitude?.getD 0).convert .double) :=
    if_neg fun hfinite => Bool.noConfusion (ht.symm.trans hfinite)
  obtain ⟨μ, hμ, hle⟩ : ∃ μ, ((cost.magnitude?.getD 0).exact : Extended) = .number μ ∧
      |μ| + 1 ≤ 2 ^ a := by
    cases hmagnitude : cost.magnitude? with
    | none =>
      refine ⟨0, Binary.exact_zero, ?_⟩
      rw [abs_zero, zero_add]
      exact one_le_pow₀ one_le_two
    | some x =>
      obtain ⟨i, j, hfinite, rfl⟩ := exists_of_magnitude? hmagnitude
      obtain ⟨q, hq⟩ := Binary.isFinite_iff_exact.mp hfinite
      refine ⟨|q|, Binary.exact_abs hq, ?_⟩
      rw [abs_abs]
      exact ha i j q hq
  have hdouble : 2 ^ (a + b + 1) * Format.double.one < Format.double.ceiling := by
    rw [hf.one_eq, ← mul_assoc]
    exact hf.lt_ceiling hroom
  obtain ⟨r, hr, hrle⟩ := Binary.exists_dominating (Binary.exact_convert hf hμ) hle hb hdouble
  rw [← hlimit] at hr
  obtain ⟨r', hr', -⟩ : ∃ r', (((cost.limit t).convert f).exact : Extended) = .number r' ∧ _ :=
    (Binary.rounds_convert hr).exists_le_two_pow hrle hroom
  exact isRoomy_of_isFinite_limit (Binary.isFinite_iff_exact.mpr ⟨r', hr'⟩)

end CostMatrix

namespace Rectangular

variable {f : Format} {n m : ℕ} {cost : CostMatrix (Binary f) n m} {t : Binary .double}

/-- The solver always finds a matching if there is room wherever it solves the extension. -/
theorem exists_assign_of_isRoomy
    (h : t.isFinite = true ∨
        (solve (cost.gate (Threshold.toCost t)) false).outcome = .ok .infeasible →
      (cost.gate (Threshold.toCost t)).IsRoomy t) : ∃ r, (assign cost t).outcome = .ok r := by
  rcases assign_outcome cost t with ⟨he, hextended⟩ | ⟨he, hfeasible⟩
  · obtain ⟨verdict, hverdict, hconcludes⟩ :=
      exists_concludes ((cost.gate (Threshold.toCost t)).extendAt t) false
    obtain ⟨s, rfl⟩ :=
      hconcludes.exists_solution (CostMatrix.isFinite_extendAt_iff.mpr (h hextended))
    exact ⟨_, he.trans (outcome_matches? hverdict)⟩
  · obtain ⟨verdict, hverdict, hconcludes⟩ :=
      exists_concludes (cost.gate (Threshold.toCost t)) false
    cases hconcludes with
    | invalid entry =>
      obtain ⟨i, j, hij⟩ := CostMatrix.hasInvalidEntry_iff.mp entry
      change Cost.isInvalid (cost.gate (Threshold.toCost t))[i][j] = true at hij
      rw [CostMatrix.getElem_gate, CostMatrix.isInvalid_gateEntry] at hij
      exact absurd hij (by decide)
    | infeasible => exact absurd hverdict hfeasible
    | solved => exact ⟨_, he.trans (outcome_matches? hverdict)⟩

end Rectangular

theorem Solver.exists_assign (solver : Solver) {T : Tensor} {n m : ℕ} (hshape : T.shape = [n, m])
    (hlength : T.elements.length = n * m) {threshold : Scalar} {t : Binary .double}
    (ht : threshold.checkedDouble = .ok t) :
    ∃ cost : CostMatrix T.type.precision.Number n m,
      (∀ (i : Fin n) (j : Fin m), T.numbers[i.val * m + j.val]? = some cost[i][j]) ∧
      solver.assign T threshold = .ok (solver.assignMatrix ⟨T.type.precision, n, m, cost⟩ t) := by
  have hnumbers : T.numbers.length = n * m := (List.length_map _).trans hlength
  have hsize : T.numbers.toArray.size = n * m := hnumbers
  refine ⟨.ofEntries n m ⟨T.numbers.toArray, hsize⟩, CostMatrix.getElem?_ofEntries hsize, ?_⟩
  unfold assign assignEntries
  rw [hshape, ht]
  dsimp only [bind, Except.bind]
  rw [Problem.ofEntries?, dif_pos hnumbers]
  rfl

/-- The extension of a matrix is finite exactly where there is room. There is room at a finite
threshold that is one in the precision of the matrix, so at every finite one in double precision,
and at the others as long as twice the number of pairs times the magnitude of the entries stays
below the ceiling. The rectangular solver finds a matching unless it has to solve an extension for
which there is no room. -/
theorem assign_succeeds_where_roomy (p : Precision) (n m : ℕ) (cost : CostMatrix p.Number n m)
    (t : Binary .double) :
    ((∀ a b : Fin (n + m), Cost.isFinite (cost.extendAt t)[a][b] = true) ↔ cost.IsRoomy t) ∧
    (t.isFinite = true → p = .double ∨ Cost.isFinite (t.convert p.format) = true →
      cost.IsRoomy t) ∧
    (∀ a b : ℕ, t.isFinite = false →
      (∀ (i : Fin n) (j : Fin m) (q : ℚ), (cost[i][j].exact : Extended) = .number q →
        |q| + 1 ≤ 2 ^ a) →
      min n m + 1 ≤ 2 ^ b → 2 ^ (a + b + 1) * p.format.one < p.format.ceiling →
      cost.IsRoomy t) ∧
    ∀ (T : Tensor) (threshold : Scalar) (k l : ℕ) (t' : Binary .double), T.shape = [k, l] →
      T.elements.length = k * l → threshold.checkedDouble = .ok t' →
      ∃ (entries : CostMatrix T.type.precision.Number k l)
        (run : Run TraceRecord Failure PartialMatching),
        (∀ (i : Fin k) (j : Fin l), T.numbers[i.val * l + j.val]? = some entries[i][j]) ∧
        Solver.rectangular.assign T threshold = .ok run ∧
        ((t'.isFinite = true ∨
              (Rectangular.solve (entries.gate (Threshold.toCost t')) false).outcome =
                .ok .infeasible →
            (entries.gate (Threshold.toCost t')).IsRoomy t') →
          ∃ r, run.outcome = .ok r) := by
  refine ⟨CostMatrix.isFinite_extendAt_iff, fun ht hp => ?_, fun a b ht ha hb hroom => ?_, ?_⟩
  · refine CostMatrix.isRoomy_of_isFinite ht ?_
    rcases hp with rfl | hp
    · obtain ⟨q, hq⟩ : ∃ q, (t.exact : Extended) = .number q := Binary.exists_of_isFinite ht
      exact Binary.isFinite_iff_exact.mpr ⟨q, Binary.exact_convert (.refl _) hq⟩
    · exact hp
  · exact CostMatrix.isRoomy_of_magnitude p.embeds ht ha hb hroom
  · intro T threshold k l t' hshape hlength ht
    obtain ⟨entries, hentries, hrun⟩ := Solver.rectangular.exists_assign hshape hlength ht
    exact ⟨entries, _, hentries, hrun, Rectangular.exists_assign_of_isRoomy⟩

def Tensor.forbidden : Tensor := ⟨.single, [1, 1], [.infinity]⟩

/-- There is room for a small threshold, and for a cost of five without any. -/
theorem assign_forbidden_succeeds :
    (∃ run r, Solver.rectangular.assign .forbidden (.whole 4) = .ok run ∧ run.outcome = .ok r) ∧
    (.ofFn fun _ _ => .ofInt 5 : CostMatrix Precision.single.Number 1 1).IsRoomy .infinity := by
  obtain ⟨-, -, hroom, hassign⟩ :=
    assign_succeeds_where_roomy .single 1 1 (.ofFn fun _ _ => .ofInt 5) .infinity
  have hfour : (Scalar.whole 4).checkedDouble = .ok (.ofInt 4) := by decide +kernel
  obtain ⟨entries, run, -, hrun, hr⟩ := hassign .forbidden (.whole 4) 1 1 _ rfl rfl hfour
  have hgated : (entries.gate (Threshold.toCost (.ofInt 4 : Binary .double))).IsRoomy (.ofInt 4) :=
    (assign_succeeds_where_roomy .single 1 1 _ _).2.1 (by decide +kernel) (.inr (by decide +kernel))
  constructor
  · obtain ⟨r, hr⟩ := hr fun _ => hgated
    exact ⟨run, r, hrun, hr⟩
  · refine hroom 3 1 (by decide +kernel) (fun i j q hq => ?_) (by decide) (by decide +kernel)
    rw [CostMatrix.getElem_ofFn, Binary.exact_ofInt Precision.single.isAmple_format (by decide),
      Exact.number.injEq] at hq
    rw [← hq]
    norm_num

/-- Where the threshold is a number in double precision only, the extension is infinite and the
solver finds no matching. -/
theorem assign_forbidden_fails :
    (∃ run, Solver.rectangular.assign .forbidden (.real (.ofInt (10 ^ 300))) = .ok run ∧
      run.outcome = .error .infeasible) ∧
    ∃ a b : Fin (1 + 1), Cost.isFinite ((.ofFn fun _ _ => Cost.infinity :
      CostMatrix (Binary .single) 1 1).extendAt (.ofInt (10 ^ 300) : Binary .double))[a][b] =
        false := by
  have hanswer : (Solver.rectangular.assign .forbidden (.real (.ofInt (10 ^ 300)))).toOption.map
      Run.outcome = some (.error .infeasible) := by
    decide +kernel
  obtain ⟨run, hrun, houtcome⟩ := Option.map_eq_some_iff.mp hanswer
  exact ⟨⟨run, eq_ok_of_toOption hrun, houtcome⟩, 0, 0, by decide +kernel⟩

end LinearAssignment
