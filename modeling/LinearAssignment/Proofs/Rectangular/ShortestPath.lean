import LinearAssignment.Proofs.Assignment
import LinearAssignment.Proofs.Rectangular.Distance
import Mathlib.Order.Bounds.Basic

/-! The search from a row finds the shortest alternating paths. Reduced costs of matched rows are
not negative, so a path that leaves the scanned columns never gets shorter than the first column
at which it leaves them; the rows through which the columns were reached lead back along a path
of the length that is recorded. -/
namespace LinearAssignment

variable {bound : ℚ} {bids n m : ℕ}

/-- An alternating path over finite entries from the root to a column, with the columns that it
passes, the latest first. The length is the sum of the reduced costs of its unmatched edges. -/
inductive AlternatingPath (cost : CostMatrix (Exact bound bids) n m) (u : Fin n → ℚ)
    (v : Fin m → ℚ) (rowOf : Vector (Option (Fin n)) m) (root : Fin n) :
    List (Fin m) → Fin m → ℚ → Prop
  | first {j : Fin m} {q : ℚ} (entry : cost[root][j] = .number q) :
      AlternatingPath cost u v rowOf root [] j (q - u root - v j)
  | step {passed : List (Fin m)} {k j : Fin m} {r : Fin n} {x q : ℚ}
      (before : AlternatingPath cost u v rowOf root passed k x) (holder : rowOf[k] = some r)
      (fresh : j ∉ k :: passed) (entry : cost[r][j] = .number q) :
      AlternatingPath cost u v rowOf root (k :: passed) j (x + (q - u r - v j))

/-- The columns passed on the way back from a column to the root, from each column to the row
through which it was reached and on to the column that this row holds. -/
inductive LeadsThrough (reachedBy rowOf : Vector (Option (Fin n)) m) (root : Fin n) :
    List (Fin m) → Fin m → Prop
  | first {j : Fin m} (reached : reachedBy[j] = some root) :
      LeadsThrough reachedBy rowOf root [] j
  | step {passed : List (Fin m)} {k j : Fin m} {r : Fin n}
      (before : LeadsThrough reachedBy rowOf root passed k) (holder : rowOf[k] = some r)
      (reached : reachedBy[j] = some r) : LeadsThrough reachedBy rowOf root (k :: passed) j

def pathLengths (cost : CostMatrix (Exact bound bids) n m) (u : Fin n → ℚ) (v : Fin m → ℚ)
    (rowOf : Vector (Option (Fin n)) m) (root : Fin n) (j : Fin m) : Set ℚ :=
  {x | ∃ passed, AlternatingPath cost u v rowOf root passed j x}

/-- Rows that hold different columns know their columns, whatever else is recorded of them. -/
theorem Matching.exists_consistent {rowOf : Vector (Option (Fin n)) m}
    (h : ∀ (j k : Fin m) (i : Fin n), rowOf[j] = some i → rowOf[k] = some i → j = k) :
    ∃ s : Matching n m, s.rowOf = rowOf ∧ s.Consistent := by
  refine ⟨⟨Vector.ofFn fun i => (List.finRange m).find? fun j => rowOf[j] = some i, rowOf⟩, rfl,
    fun i j hj => ?_⟩
  change rowOf[j] = some i at hj
  rw [getElem_ofFn_fin]
  cases hk : (List.finRange m).find? fun j => rowOf[j] = some i with
  | none => simpa [hj] using List.find?_eq_none.mp hk j (List.mem_finRange j)
  | some k =>
    have hk' := List.find?_some hk
    rw [decide_eq_true_iff] at hk'
    rw [h j k i hj hk']

namespace PathSearch

section scanOrder

variable {α : Type} [Cost α]

def newlyScanned (s t : PathSearch α n m) : List (Fin m) :=
  (List.finRange m).filter fun j => t.scannedColumns[j] && !s.scannedColumns[j]

def scanOrder (cost : CostMatrix α n m) (u : Vector α n) (v : Vector α m) (held : Matching n m)
    (minimum : α) (i : Fin n) (s : PathSearch α n m) : List (Fin m) :=
  match _h : s.round cost u v held minimum i with
  | .error _ => []
  | .ok (.unreachable t) => s.newlyScanned t
  | .ok (.reached t _) => s.newlyScanned t
  | .ok (.passed t lowest i') => s.newlyScanned t ++ scanOrder cost u v held lowest i' t
  termination_by s.unscanned.count
  decreasing_by exact count_lt_of_round _h

variable {cost : CostMatrix α n m} {u : Vector α n} {v : Vector α m} {held held' : Matching n m}
  {root : Fin n} {pending : Option (Fin n)} {trail : List (Fin m)} {s t : PathSearch α n m}

theorem newlyScanned_of_isScan (hs : IsScan held root pending trail s)
    (ht : IsScan held root none trail t) : s.newlyScanned t = [] := by
  refine List.filter_eq_nil_iff.mpr fun j _ => ?_
  rw [Bool.and_eq_true, Bool.not_eq_true', ht.column, Bool.eq_false_iff, ne_eq, hs.column]
  exact fun h => h.2 h.1

theorem newlyScanned_scan (hs : IsScan held root pending trail s)
    (ht : IsScan held root none trail t) {j k : Fin m} (hj : j = t.unscanned.order[k])
    (hfresh : j ∉ trail) : s.newlyScanned (t.scan k) = [j] := by
  have hmem : ∀ l, l ∈ s.newlyScanned (t.scan k) ↔ l ∈ [j] := by
    intro l
    simp only [newlyScanned, List.mem_filter, List.mem_finRange, true_and, Bool.and_eq_true,
      Bool.not_eq_true', List.mem_singleton, Bool.eq_false_iff, ne_eq, hs.column,
      ht.column_scan hj]
    constructor
    · rintro ⟨hl, hnot⟩
      exact hl.resolve_right hnot
    · rintro rfl
      exact ⟨.inl rfl, hfresh⟩
  exact List.perm_singleton.mp
    ((List.perm_ext_iff_of_nodup ((List.nodup_finRange m).filter _) (by simp)).mpr hmem)

/-- A search reads of the matching which row holds a column, and nothing else. -/
theorem run_eq_of_rowOf (h : held'.rowOf = held.rowOf) (minimum : α) (i : Fin n)
    (s : PathSearch α n m) :
    s.run cost u v held' minimum i = s.run cost u v held minimum i ∧
      s.scanOrder cost u v held' minimum i = s.scanOrder cost u v held minimum i := by
  have hround : ∀ minimum i (s : PathSearch α n m),
      s.round cost u v held' minimum i = s.round cost u v held minimum i := by
    obtain ⟨columnOf, rowOf⟩ := held
    obtain ⟨columnOf', rowOf'⟩ := held'
    subst h
    exact fun _ _ _ => rfl
  induction hcount : s.unscanned.count using Nat.strong_induction_on
    generalizing s minimum i with
  | _ count ih =>
    have hr' := hround minimum i s
    rcases hr : s.round cost u v held minimum i with e | t | ⟨t, sink⟩ | ⟨t, lowest, i'⟩
    case ok.passed =>
      obtain ⟨hrun, horder⟩ := ih _ (hcount ▸ count_lt_of_round hr) lowest i' t rfl
      refine ⟨?_, ?_⟩
      · rw [run, hr', hr, run, hr]
        exact hrun
      · rw [scanOrder, hr', hr, scanOrder, hr]
        exact congrArg _ horder
    all_goals
      exact ⟨by rw [run, hr', hr, run, hr], by rw [scanOrder, hr', hr, scanOrder, hr]⟩

end scanOrder

section exact

variable {cost : CostMatrix (Exact bound bids) n m} {row : Vector (Exact bound bids) n}
  {column : Vector (Exact bound bids) m} {c : Fin n → Fin m → WithTop ℚ} {u : Fin n → ℚ}
  {v : Fin m → ℚ} {held : Matching n m} {root i : Fin n} {trail : List (Fin m)}
  {d : Fin m → WithTop ℚ} {s t : PathSearch (Exact bound bids) n m} {x : ℚ}

/-- Columns are scanned in the order of their distances. -/
theorem scanOrder_sorted (hr : Reads cost row column c u v) (hs : held.Consistent)
    (hroot : ¬ held.IsMatched root)
    (hbelow : ∀ {i : Fin n}, held.IsMatched i → ∀ j, ((u i + v j : ℚ) : WithTop ℚ) ≤ c i j)
    {j₀ : Fin m} (hfree : held.rowOf[j₀] = none) (hscan : IsScan held root (some i) trail s)
    (h : IsMeasured held c u v root (some i) trail d s) (hi : IsCurrent held root trail d i x)
    {found : Option (Sink (Exact bound bids) m)}
    (hrun : s.run cost row column held (.ofTop x) i = .ok (t, found)) :
    ∃ (d' : Fin m → WithTop ℚ) (order : List (Fin m)),
      order = (s.scanOrder cost row column held (.ofTop x) i).reverse ++ trail ∧
      (∀ j : Fin m, t.distance[j] = .ofTop (d' j)) ∧ order.Nodup ∧
      (∀ j : Fin m, t.scannedColumns[j] = true ↔ j ∈ order) ∧
      order.Pairwise fun a b => d' b ≤ d' a := by
  -- Induction on the number of columns that have not been scanned; a round scans one column, at its
  -- final distance.
  induction hcount : s.unscanned.count using Nat.strong_induction_on
    generalizing s trail d i x with
  | _ count ih =>
    obtain ⟨s', d', hscan', h', -, hround⟩ :=
      exists_round hr hs hroot hbelow hfree hscan h hi
    rcases hround with ⟨hround, -⟩ | ⟨k, j, y, hj, hfresh, hmin, -, -, hround⟩
    · rw [run, hround] at hrun
      obtain ⟨rfl, -⟩ := Prod.mk.inj (Except.ok.inj hrun)
      refine ⟨d', trail, ?_, h'.distance, hscan'.isTrail.nodup, hscan'.column, h'.sorted⟩
      rw [scanOrder, hround]
      simp only [newlyScanned_of_isScan hscan hscan', List.reverse_nil, List.nil_append]
    · have hnew := newlyScanned_scan hscan hscan' hj hfresh
      rcases hround with ⟨-, hround⟩ | ⟨i', -, hround, hscan'', h'', hi'⟩
      · rw [run, hround] at hrun
        obtain ⟨rfl, -⟩ := Prod.mk.inj (Except.ok.inj hrun)
        refine ⟨d', j :: trail, ?_, h'.distance,
          List.nodup_cons.mpr ⟨hfresh, hscan'.isTrail.nodup⟩, fun l => ?_,
          List.pairwise_cons.mpr ⟨fun l hl => h'.beyond l hl j hfresh, h'.sorted⟩⟩
        · rw [scanOrder, hround]
          simp only [hnew, List.reverse_singleton, List.singleton_append]
        · rw [hscan'.column_scan hj, List.mem_cons]
      · rw [run, hround] at hrun
        obtain ⟨d'', order, horder, hends⟩ :=
          ih _ (hcount ▸ count_lt_of_round hround) hscan'' h'' hi' hrun rfl
        have hnext : s.scanOrder cost row column held (.ofTop x) i =
            j :: (s'.scan k).scanOrder cost row column held (.ofTop (y : WithTop ℚ)) i' := by
          rw [scanOrder, hround]
          simp only [hnew, List.singleton_append]
        refine ⟨d'', order, ?_, hends⟩
        simp only [horder, hnext, List.reverse_cons, List.append_assoc, List.singleton_append]

namespace IsMeasured

/-- No path is shorter than what the search has recorded of the columns on the trail, or than
any bound on the columns off it. -/
theorem le_length (h : IsMeasured held c u v root none trail d s)
    (hr : Reads cost row column c u v)
    (hbelow : ∀ {i : Fin n}, held.IsMatched i → ∀ j, ((u i + v j : ℚ) : WithTop ℚ) ≤ c i j)
    {δ : WithTop ℚ} (hin : ∀ k ∈ trail, d k ≤ δ) (hout : ∀ j ∉ trail, δ ≤ d j)
    {passed : List (Fin m)} {j : Fin m}
    (hpath : AlternatingPath cost u v held.rowOf root passed j x) :
    (j ∈ trail → d j ≤ (x : WithTop ℚ)) ∧ (j ∉ trail → δ ≤ (x : WithTop ℚ)) := by
  have hentry : ∀ {r : Fin n} {j : Fin m} {q : ℚ}, cost[r][j] = .number q → c r j = q :=
    fun hq => Exact.ofTop_eq_number.mp ((hr.cost _ _).symm.trans hq)
  induction hpath with
  | @first j q entry =>
    have hle := h.upper (.inl ⟨rfl, rfl⟩) (by simp) j
    rw [hentry entry, ← WithTop.coe_add] at hle
    have he : q + (0 - u root - v j) = q - u root - v j := by ring
    rw [he] at hle
    exact ⟨fun _ => hle, fun hj => (hout j hj).trans hle⟩
  | @step passed k j r x q before holder fresh entry ih =>
    by_cases hk : k ∈ trail
    · obtain ⟨y, hy⟩ := WithTop.ne_top_iff_exists.mp (h.finite k hk)
      have hyx : y ≤ x := WithTop.coe_le_coe.mp (hy ▸ ih.1 hk)
      have hle := h.upper (.inr ⟨k, hk, holder, hy.symm⟩) (by simp) j
      rw [hentry entry, ← WithTop.coe_add] at hle
      have hway : d j ≤ ((x + (q - u r - v j) : ℚ) : WithTop ℚ) :=
        hle.trans (WithTop.coe_le_coe.mpr (by linarith))
      exact ⟨fun _ => hway, fun hj => (hout j hj).trans hway⟩
    · -- once the path has left the scanned columns, no step makes it shorter
      have hreduced := hbelow ⟨k, holder⟩ j
      rw [hentry entry, WithTop.coe_le_coe] at hreduced
      have hway : δ ≤ ((x + (q - u r - v j) : ℚ) : WithTop ℚ) :=
        (ih.2 hk).trans (WithTop.coe_le_coe.mpr (by linarith))
      exact ⟨fun hj => (hin j hj).trans hway, fun _ => hway⟩

/-- The rows through which the columns were reached lead back along a path of the length that the
search has recorded. -/
theorem exists_path (h : IsMeasured held c u v root none trail d s)
    (hr : Reads cost row column c u v) (hs : held.Consistent) (hroot : ¬ held.IsMatched root)
    {before : List (Fin m)} (hsub : before ⊆ trail)
    (htrail : held.Trail (fun j => s.reachedBy[j]) root before) {j : Fin m} (hj : j ∉ before)
    (hreach : held.ReachedFrom (fun j => s.reachedBy[j]) root before j) (hx : d j = x) :
    ∃ passed, passed ⊆ before ∧ LeadsThrough s.reachedBy held.rowOf root passed j ∧
      AlternatingPath cost u v held.rowOf root passed j x := by
  -- Induction on the part of the trail before the column.
  induction hlength : before.length using Nat.strong_induction_on generalizing before j x with
  | _ length ih =>
    obtain ⟨r, hrj, hon⟩ := hreach
    obtain ⟨r', y, hrow, hreached, hd⟩ := h.attained j (hx ▸ WithTop.coe_ne_top)
    obtain rfl := Option.some.inj (hreached.symm.trans hrj)
    rw [hx, coe_eq_way_iff] at hd
    have hentry : cost[r'][j] = .number (x - y + u r' + v j) := by
      rw [hr.cost, hd, Exact.ofTop_coe]
    rcases hon with rfl | ⟨k, hk, hrk⟩
    · obtain rfl := Matching.RowAt.unique hs hroot hrow (.inl ⟨rfl, rfl⟩)
      have hfirst : AlternatingPath cost u v held.rowOf r' [] j _ := .first hentry
      have he : x - 0 + u r' + v j - u r' - v j = x := by ring
      exact ⟨[], List.nil_subset _, .first hrj, he ▸ hfirst⟩
    · obtain ⟨z, hz⟩ := WithTop.ne_top_iff_exists.mp (h.finite k (hsub hk))
      obtain rfl := Matching.RowAt.unique hs hroot hrow (.inr ⟨k, hsub hk, hrk, hz.symm⟩)
      obtain ⟨earlier, hlt, hsub', hk', htrail', hreach'⟩ := htrail.exists_before hk
      obtain ⟨passed, hpassed, hback, hpath⟩ := ih _ (hlength ▸ hlt)
        (fun _ hl => hsub (hsub' hl)) htrail' hk' hreach' hz.symm rfl
      have hpassed' : k :: passed ⊆ before :=
        List.cons_subset.mpr ⟨hk, fun _ hl => hsub' (hpassed hl)⟩
      have hstep := AlternatingPath.step hpath hrk (fun hmem => hj (hpassed' hmem)) hentry
      have he : y + (x - y + u r' + v j - u r' - v j) = x := by ring
      exact ⟨k :: passed, hpassed', .step hback hrk hrj, he ▸ hstep⟩

/-- A distance that is recorded is the least length of a path, as long as no column off the trail
is nearer. -/
theorem isLeast_pathLengths (h : IsMeasured held c u v root none trail d s)
    (hr : Reads cost row column c u v) (hs : held.Consistent) (hroot : ¬ held.IsMatched root)
    (hbelow : ∀ {i : Fin n}, held.IsMatched i → ∀ j, ((u i + v j : ℚ) : WithTop ℚ) ≤ c i j)
    {δ : WithTop ℚ} (hin : ∀ k ∈ trail, d k ≤ δ) (hout : ∀ j ∉ trail, δ ≤ d j)
    {before : List (Fin m)} (hsub : before ⊆ trail)
    (htrail : held.Trail (fun j => s.reachedBy[j]) root before) {j : Fin m} (hj : j ∉ before)
    (hreach : held.ReachedFrom (fun j => s.reachedBy[j]) root before j) (hx : d j = x)
    (hδ : d j ≤ δ) : IsLeast (pathLengths cost u v held.rowOf root j) x := by
  obtain ⟨passed, -, -, hpath⟩ := h.exists_path hr hs hroot hsub htrail hj hreach hx
  refine ⟨⟨passed, hpath⟩, fun y ⟨_, hy⟩ => ?_⟩
  have hle := h.le_length hr hbelow hin hout hy
  rw [← WithTop.coe_le_coe, ← hx]
  by_cases hmem : j ∈ trail
  · exact hle.1 hmem
  · exact hδ.trans (hle.2 hmem)

theorem scanned (h : IsMeasured held c u v root none trail d s)
    (hr : Reads cost row column c u v) (hs : held.Consistent) (hroot : ¬ held.IsMatched root)
    (hbelow : ∀ {i : Fin n}, held.IsMatched i → ∀ j, ((u i + v j : ℚ) : WithTop ℚ) ≤ c i j)
    (hscan : IsScan held root none trail s) {δ : WithTop ℚ} (hin : ∀ k ∈ trail, d k ≤ δ)
    (hout : ∀ j ∉ trail, δ ≤ d j) {j : Fin m} (hj : j ∈ trail) :
    ∃ x, s.distance[j] = .number x ∧ IsLeast (pathLengths cost u v held.rowOf root j) x := by
  obtain ⟨x, hx⟩ := WithTop.ne_top_iff_exists.mp (h.finite j hj)
  obtain ⟨before, -, hsub, hj', htrail, hreach⟩ := hscan.isTrail.exists_before hj
  refine ⟨x, ?_, h.isLeast_pathLengths hr hs hroot hbelow hin hout hsub htrail hj' hreach
    hx.symm (hin j hj)⟩
  rw [h.distance, ← hx, Exact.ofTop_coe]

end IsMeasured

structure IsShortestEnd (cost : CostMatrix (Exact bound bids) n m) (u : Fin n → ℚ)
    (v : Fin m → ℚ) (rowOf : Vector (Option (Fin n)) m) (root : Fin n)
    (s : PathSearch (Exact bound bids) n m) (sink : Sink (Exact bound bids) m) (length : ℚ) :
    Prop where
  length_eq : sink.length = .number length
  free : rowOf[sink.column] = none
  isLeast : IsLeast {x | ∃ j : Fin m, rowOf[j] = none ∧ x ∈ pathLengths cost u v rowOf root j}
    length
  exists_path : ∃ passed, LeadsThrough s.reachedBy rowOf root passed sink.column ∧
    AlternatingPath cost u v rowOf root passed sink.column length
  unscanned : ∀ j : Fin m, s.scannedColumns[j] = false →
    ¬ s.distance[j] < sink.length ∧ ∀ x ∈ pathLengths cost u v rowOf root j, length ≤ x

/-- What a search from a row has to find out: whether a free column is in reach, the shortest
path to one, and the distances of the columns that it scans. -/
structure FindsShortest (cost : CostMatrix (Exact bound bids) n m) (u : Fin n → ℚ)
    (v : Fin m → ℚ) (rowOf : Vector (Option (Fin n)) m) (root : Fin n)
    (s : PathSearch (Exact bound bids) n m) (found : Option (Sink (Exact bound bids) m)) :
    Prop where
  none_iff : found = none ↔
    ∀ j : Fin m, rowOf[j] = none → pathLengths cost u v rowOf root j = ∅
  isShortestEnd : ∀ sink, found = some sink →
    ∃ length, IsShortestEnd cost u v rowOf root s sink length
  scanned : ∀ j : Fin m, s.scannedColumns[j] = true →
    ∃ x, s.distance[j] = .number x ∧ IsLeast (pathLengths cost u v rowOf root j) x

/-- The nearest of the columns off the trail, if it is free, ends a shortest path. -/
theorem IsMeasured.isShortestEnd (h : IsMeasured held c u v root none trail d s)
    (hr : Reads cost row column c u v) (hs : held.Consistent) (hroot : ¬ held.IsMatched root)
    (hbelow : ∀ {i : Fin n}, held.IsMatched i → ∀ j, ((u i + v j : ℚ) : WithTop ℚ) ≤ c i j)
    {j k : Fin m} (hends : EndsAt held root trail j (s.scan k)) (hfresh : j ∉ trail)
    (hleast : ∀ l ∉ trail, d j ≤ d l) (hx : d j = x) :
    IsShortestEnd cost u v held.rowOf root (s.scan k) ⟨j, .ofTop (d j)⟩ x := by
  have hin : ∀ k ∈ trail, d k ≤ d j := fun k hk => h.beyond k hk j hfresh
  have hle : ∀ {passed : List (Fin m)} {l : Fin m} {y : ℚ}, l ∉ trail →
      AlternatingPath cost u v held.rowOf root passed l y → x ≤ y := by
    intro passed l y hl hy
    have hδ := (h.le_length hr hbelow hin hleast hy).2 hl
    rwa [hx, WithTop.coe_le_coe] at hδ
  obtain ⟨passed, -, hback, hpath⟩ := h.exists_path hr hs hroot (List.Subset.refl trail)
    hends.isTrail hfresh hends.reached hx
  constructor
  case length_eq => rw [hx, Exact.ofTop_coe]
  case free => exact hends.free
  case isLeast =>
    refine ⟨⟨j, hends.free, passed, hpath⟩, ?_⟩
    rintro y ⟨l, hl, _, hy⟩
    exact hle (hends.isTrail.not_mem_of_free hl) hy
  case exists_path => exact ⟨passed, hback, hpath⟩
  case unscanned =>
    intro l hl
    rw [Bool.eq_false_iff, ne_eq, hends.column, not_or] at hl
    refine ⟨?_, fun y ⟨_, hy⟩ => hle hl.2 hy⟩
    change ¬ s.distance[l] < _
    rw [h.distance, Exact.ofTop_lt]
    exact not_lt.mpr (hleast l hl.2)

theorem Ends.findsShortest {found : Option (Sink (Exact bound bids) m)}
    (h : Ends held c u v root (t, found)) (hr : Reads cost row column c u v)
    (hs : held.Consistent) (hroot : ¬ held.IsMatched root)
    (hbelow : ∀ {i : Fin n}, held.IsMatched i → ∀ j, ((u i + v j : ℚ) : WithTop ℚ) ≤ c i j) :
    FindsShortest cost u v held.rowOf root t found := by
  cases h with
  | @blocked trail d s scan measured far =>
    have hin : ∀ k ∈ trail, d k ≤ ⊤ := fun _ _ => le_top
    have hout : ∀ j ∉ trail, ⊤ ≤ d j := fun j hj => (far j hj).ge
    constructor
    case none_iff =>
      refine iff_of_true rfl fun j hj => Set.eq_empty_of_forall_notMem ?_
      rintro x ⟨_, hx⟩
      have hle := (measured.le_length hr hbelow hin hout hx).2
        (scan.isTrail.not_mem_of_free hj)
      exact WithTop.coe_ne_top (top_le_iff.mp hle)
    case scanned =>
      intro j hj
      exact measured.scanned hr hs hroot hbelow scan hin hout ((scan.column j).mp hj)
    case isShortestEnd => exact fun _ h => nomatch h
  | @arrived trail d s k sink scan measured position fresh free least finite =>
    obtain ⟨length, hlength⟩ := WithTop.ne_top_iff_exists.mp finite
    have hin : ∀ k ∈ trail, d k ≤ d sink := fun k hk => measured.beyond k hk sink fresh
    have hreachable : (s.distance[sink] == Cost.infinity) = false := by
      rw [measured.distance, Exact.infinity_eq, Exact.ofTop_beq, decide_eq_false_iff_not]
      exact finite
    have hends : EndsAt held root trail sink (s.scan k) := scan.endsAt position hreachable free
    have hend : IsShortestEnd cost u v held.rowOf root (s.scan k) ⟨sink, .ofTop (d sink)⟩ length :=
      measured.isShortestEnd hr hs hroot hbelow hends fresh least hlength.symm
    constructor
    case none_iff =>
      obtain ⟨passed, -, hpath⟩ := hend.exists_path
      refine iff_of_false (by simp) fun hno => ?_
      exact Set.eq_empty_iff_forall_notMem.mp (hno sink free) length ⟨passed, hpath⟩
    case isShortestEnd =>
      intro _ h
      obtain rfl := Option.some.inj h
      exact ⟨length, hend⟩
    case scanned =>
      intro j hj
      rcases (hends.column j).mp hj with rfl | hj
      · refine ⟨length, ?_, measured.isLeast_pathLengths hr hs hroot hbelow hin least
          (List.Subset.refl trail) hends.isTrail fresh hends.reached hlength.symm le_rfl⟩
        change s.distance[j] = _
        rw [measured.distance, ← hlength, Exact.ofTop_coe]
      · exact measured.scanned hr hs hroot hbelow scan hin least hj

/-- Columns in the order in which a search scans them: each once, and none before a nearer one. -/
structure IsScanOrder (s : PathSearch (Exact bound bids) n m) (order : List (Fin m)) : Prop where
  nodup : order.Nodup
  mem_iff : ∀ j, j ∈ order ↔ s.scannedColumns[j] = true
  sorted : order.Pairwise fun a b => Cost.atMost s.distance[a] s.distance[b] = true

/-- The search is Dijkstra's algorithm. From an unmatched row, whose reduced costs may have any
sign, it finds a shortest alternating path to a free column, or there is none; the columns are
scanned in the order of their distances. -/
theorem exists_run_findsShortest (hvalid : cost.hasInvalidEntry = false)
    (hrow : ∀ i : Fin n, row[i] = .number (u i))
    (hcolumn : ∀ j : Fin m, column[j] = .number (v j))
    (hheld : ∀ (j k : Fin m) (i : Fin n), held.rowOf[j] = some i → held.rowOf[k] = some i → j = k)
    (hreduced : ∀ (k : Fin m) (i : Fin n), held.rowOf[k] = some i →
      ∀ (j : Fin m) (q : ℚ), cost[i][j] = .number q → 0 ≤ q - u i - v j)
    (hroot : ∀ k : Fin m, held.rowOf[k] ≠ some root) (hfree : ∃ j : Fin m, held.rowOf[j] = none)
    (reachedBy : Vector (Option (Fin n)) m) :
    ∃ s found, (start reachedBy).run cost row column held 0 root = .ok (s, found) ∧
      FindsShortest cost u v held.rowOf root s found ∧
      IsScanOrder s ((start reachedBy).scanOrder cost row column held 0 root) := by
  obtain ⟨held', hrowOf, hs⟩ := Matching.exists_consistent hheld
  have hr : Reads cost row column (fun i j => cost[i][j].toTop) u v :=
    ⟨CostMatrix.ofTop_toTop_of_valid hvalid, hrow, hcolumn⟩
  have hroot' : ¬ held'.IsMatched root := by
    rintro ⟨k, hk⟩
    exact hroot k (hrowOf ▸ hk)
  have hbelow : ∀ {i : Fin n}, held'.IsMatched i →
      ∀ j, ((u i + v j : ℚ) : WithTop ℚ) ≤ cost[i][j].toTop := by
    rintro i ⟨k, hk⟩ j
    cases hq : cost[i][j] with
    | number q =>
      have h := hreduced k i (hrowOf ▸ hk) j q hq
      exact WithTop.coe_le_coe.mpr (by linarith)
    | nan => exact le_top
    | infinite negative => exact le_top
  obtain ⟨j₀, hj₀⟩ := hfree
  rw [← hrowOf] at hj₀
  obtain ⟨⟨s, found⟩, hrun, hends⟩ := run_ends hr hs hroot' hbelow hj₀
    (isScan_start held' root reachedBy) (isMeasured_start reachedBy) (.inl ⟨rfl, rfl, rfl⟩)
  obtain ⟨d, order, rfl, hd, hnodup, hmem, hsorted⟩ := scanOrder_sorted hr hs hroot' hbelow hj₀
    (isScan_start held' root reachedBy) (isMeasured_start reachedBy) (.inl ⟨rfl, rfl, rfl⟩) hrun
  obtain ⟨hrun', horder⟩ := @run_eq_of_rowOf _ _ _ _ cost row column _ _ hrowOf 0 root
    (start reachedBy)
  refine ⟨s, found, hrun'.symm.trans hrun, hrowOf ▸ hends.findsShortest hr hs hroot' hbelow, ?_⟩
  rw [← horder]
  simp only [List.append_nil, List.nodup_reverse, List.mem_reverse, List.pairwise_reverse]
    at hnodup hmem hsorted
  exact ⟨hnodup, fun j => (hmem j).symm, hsorted.imp fun hle =>
    ((Cost.isKeyed_ofTop hd).atMost_iff _ _).mpr hle⟩

/-- The first row holds the column that is cheapest for both. The second row gets past it only
to the first column, at a reduced cost of four, and does better to take that column at once. -/
theorem exists_run_contested :
    let cost := CostMatrix.contested 100 10
    let held : Matching 2 3 := ⟨#v[some 1, none], #v[none, some 0, none]⟩
    let row : Vector (Exact 100 10) 2 := #v[.number 1, .number 0]
    let column : Vector (Exact 100 10) 3 := Vector.replicate 3 (.number 0)
    ∃ s found, (start (Vector.replicate 3 none)).run cost row column held 0 1 = .ok (s, found) ∧
      FindsShortest cost (fun i => if i = 0 then 1 else 0) (fun _ => 0) held.rowOf 1 s found ∧
      IsScanOrder s ((start (Vector.replicate 3 none)).scanOrder cost row column held 0 1) := by
  intro cost held row column
  refine exists_run_findsShortest CostMatrix.hasInvalidEntry_contested (by decide) (by decide)
    (by decide) ?_ (by decide) (by decide) (Vector.replicate 3 none)
  have hheld : ∀ (k : Fin 3) (i : Fin 2), held.rowOf[k] = some i → i = 0 := by decide
  have hentry : ∀ j : Fin 3, cost[(0 : Fin 2)][j] = .infinite false ∨
      cost[(0 : Fin 2)][j] = .number 1 ∨ cost[(0 : Fin 2)][j] = .number 4 := by decide
  intro k i hi j q hq
  obtain rfl := hheld k i hi
  rcases hentry j with h | h | h
  · exact nomatch h.symm.trans hq
  · rw [← Exact.number.inj (h.symm.trans hq)]
    norm_num
  · rw [← Exact.number.inj (h.symm.trans hq)]
    norm_num

end exact

end PathSearch

end LinearAssignment
