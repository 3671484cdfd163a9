import LinearAssignment.Proofs.Binary.Finite
import LinearAssignment.Proofs.Diagonal
import LinearAssignment.Proofs.Rectangular.Scan
import LinearAssignment.Proofs.Rectangular.Solver

/-! The rectangular solver on a matrix that is the same everywhere. Every search ends with its first
round, in which all columns are equally near: the columns are listed from the last to the first, so
the free one that was listed last is the first free one. -/
namespace LinearAssignment

variable {f : Format} {n m k : ℕ} {c w : Binary f}

namespace Unscanned

theorem positions_all : (all : Unscanned m).positions = List.finRange m :=
  List.take_of_length_le (by simp [all])

theorem order_all (k : Fin m) : (all : Unscanned m).order[k] = k.rev := getElem_ofFn_fin _ _

/-- The columns are listed in descending order, so the last free position is that of the first free
column. -/
theorem getLast?_filter_isFree {isFree : Fin m → Bool} {j : Fin m}
    (hj : (List.finRange m).find? isFree = some j) :
    ((List.finRange m).filter fun k => isFree k.rev).getLast? = some j.rev := by
  have hrev : (fun k : Fin m => isFree k.rev) ∘ Fin.rev = isFree :=
    funext fun k => congrArg isFree k.rev_rev
  rw [List.getLast?_eq_head?_reverse, ← List.filter_reverse, List.head?_filter,
    List.finRange_reverse, List.find?_map, hrev, hj, Option.map_some]

end Unscanned

/-- A path of one column is flipped by pairing it with the root. -/
theorem Matching.augment_of_root {s : Matching n m} (reachedBy : Fin m → Option (Fin n))
    {root : Fin n} {sink : Fin m} (h : reachedBy sink = some root) :
    s.augment reachedBy root sink = s.pair root sink := by
  cases n with
  | zero => exact root.elim0
  | succ n => simp [augment, flip, h]

namespace PathSearch

section ties

variable {s : PathSearch (Binary f) n m}

/-- Of columns that are all equally near the first free one is taken. -/
theorem nearest_of_ties (hw : Cost.isFinite w = true) (hall : s.unscanned = .all)
    (hdistance : ∀ j : Fin m, s.distance[j] = w) {isFree : Fin m → Bool} {j : Fin m}
    (hj : (List.finRange m).find? isFree = some j) : s.nearest isFree = .ok j.rev := by
  have hne : List.finRange m ≠ [] := List.ne_nil_of_mem (List.mem_finRange j)
  obtain ⟨k, hk⟩ := Cost.exists_firstMinimum? (fun k : Fin m => s.distance[k.rev]) hne
  have hties : ((List.finRange m).filter fun k' : Fin m =>
      s.distance[k'.rev] == s.distance[k.rev]) = List.finRange m :=
    List.filter_eq_self.mpr fun k' _ => by
      rw [hdistance, hdistance]
      exact Binary.beq_self_of_isFinite hw
  unfold nearest
  simp only [hall, Unscanned.positions_all, Unscanned.order_all, hk, hties,
    Unscanned.getLast?_filter_isFree hj, Option.some_or]

end ties

section run

variable {u : Vector (Binary f) n} {v : Vector (Binary f) m}
  (reachedBy : Vector (Option (Fin n)) m)

/-- A search has come to the column of the index of its row: every column is as far as the others,
and no other row has been visited. -/
structure IsLevel (w : Binary f) (i : Fin n) (s : PathSearch (Binary f) n m) : Prop where
  distance : ∀ j : Fin m, s.distance[j] = w
  reachedBy : ∀ j : Fin m, s.reachedBy[j] = some i
  scannedRows : ∀ r : Fin n, r ≠ i → s.scannedRows[r] = false

theorem isLevel_visit {i : Fin n} (hw : Cost.isFinite w = true)
    (hway : ∀ j, way (.constant n m c) u v 0 i j = w) :
    ((start reachedBy).visit (.constant n m c) u v 0 i).IsLevel w i := by
  have hnearer : ∀ j : Fin m, (start reachedBy : PathSearch (Binary f) n m).unscanned.Lists j ∧
      way (.constant n m c) u v 0 i j < (start reachedBy).distance[j] := fun j => by
    refine ⟨Unscanned.lists_all j, ?_⟩
    rw [hway, start, getElem_replicate_fin]
    exact Binary.lt_infinity_of_isFinite hw
  refine ⟨fun j => ?_, fun j => ?_, fun r hr => ?_⟩
  · rw [distance_visit, if_pos (hnearer j), hway]
  · rw [reachedBy_visit, if_pos (hnearer j)]
  · rw [scannedRows_visit, if_neg hr, start, getElem_replicate_fin]

theorem exists_round_constant {held : Matching n m} {i : Fin n} {j : Fin m}
    (hw : Cost.isFinite w = true) (hway : ∀ j, way (.constant n m c) u v 0 i j = w)
    (hj : (List.finRange m).find? held.isFree = some j) :
    ∃ s, (start reachedBy).round (.constant n m c) u v held 0 i = .ok (.reached s ⟨j, w⟩) ∧
      s.IsLevel w i := by
  have hlevel := isLevel_visit reachedBy hw hway
  have hunscanned := unscanned_visit (.constant n m c) u v 0 i (start reachedBy)
  have hnearest := nearest_of_ties hw hunscanned hlevel.distance hj
  obtain ⟨r, hr⟩ := exists_round_of_nearest 0 i hnearest
  obtain ⟨t, k, l, rfl, hk, hl, h⟩ := round_cases hr
  obtain rfl := Except.ok.inj (hk.symm.trans hnearest)
  have hlj : l = j := by
    rw [hl, hunscanned]
    exact (Unscanned.order_all _).trans (Fin.rev_rev j)
  rw [hlj, hlevel.distance] at h
  have hfree : held.rowOf[j] = none := Matching.isFree_iff.mp (List.find?_some hj)
  have hfinite := Binary.infinity_beq_of_lt (Binary.lt_infinity_of_isFinite hw)
  rcases h with ⟨hinfinite, -⟩ | ⟨-, ⟨-, rfl⟩ | ⟨i', hheld, -⟩⟩
  · rw [hfinite] at hinfinite
    exact absurd hinfinite Bool.false_ne_true
  · exact ⟨_, hr, hlevel.distance, hlevel.reachedBy, hlevel.scannedRows⟩
  · rw [hfree] at hheld
    exact nomatch hheld

end run

end PathSearch

namespace Rectangular.Progress

/-- The rows before `k` have the columns of their own indices, and no search from a later row finds
a potential other than zero. -/
structure IsInOrder (k : ℕ) (p : Progress (Binary f) n m) : Prop where
  toMatching : p.toMatching = .diagonal n m k
  rowPotential : ∀ i : Fin n, k ≤ i.val → p.rowPotential[i] = 0
  columnPotential : ∀ j : Fin m, p.columnPotential[j] = 0

theorem isInOrder_initial : (initial : Progress (Binary f) n m).IsInOrder 0 where
  toMatching := Matching.diagonal_zero.symm
  rowPotential _ _ := getElem_replicate_fin _ _
  columnPotential _ := getElem_replicate_fin _ _

variable {p : Progress (Binary f) n m}

theorem IsInOrder.advance (hp : p.IsInOrder k) (hn : k < n) (hm : k < m)
    {s : PathSearch (Binary f) n m} (hw : Cost.isFinite w = true) (hs : s.IsLevel w ⟨k, hn⟩) :
    (p.advance s ⟨k, hn⟩ ⟨⟨k, hm⟩, w⟩).IsInOrder (k + 1) where
  toMatching := by
    have hpair : (p.advance s ⟨k, hn⟩ ⟨⟨k, hm⟩, w⟩).toMatching =
        p.toMatching.pair ⟨k, hn⟩ ⟨k, hm⟩ :=
      Matching.augment_of_root (fun j => s.reachedBy[j]) (hs.reachedBy _)
    rw [hpair, hp.toMatching, Matching.pair_diagonal]
  rowPotential i hi := by
    have hroot : i ≠ ⟨k, hn⟩ := fun he => by
      rw [he] at hi
      exact absurd hi (Nat.not_succ_le_self k)
    rw [Progress.advance, getElem_ofFn_fin, raisedRow, if_neg hroot, hs.scannedRows i hroot,
      hp.rowPotential i (by omega)]
    rfl
  columnPotential j := by
    rw [Progress.advance, getElem_ofFn_fin, loweredColumn, hs.distance,
      Binary.sub_self_of_isFinite hw, hp.columnPotential,
      Binary.sub_self_of_isFinite Binary.isFinite_zero, ite_self]

theorem exists_search_constant (hc : Cost.isFinite c = true) (hp : p.IsInOrder k) (hn : k < n)
    (hm : k < m) :
    ∃ s sink, p.search (.constant n m c) ⟨k, hn⟩ = .ok (s, some sink) ∧
      (p.advance s ⟨k, hn⟩ sink).IsInOrder (k + 1) := by
  have hw : Cost.isFinite (0 + c - 0 - 0) = true :=
    Binary.isFinite_sub_zero (Binary.isFinite_sub_zero (Binary.isFinite_zero_add hc))
  have hway : ∀ j, PathSearch.way (.constant n m c) p.rowPotential p.columnPotential 0 ⟨k, hn⟩ j =
      0 + c - 0 - 0 := fun j => by
    rw [PathSearch.way, CostMatrix.getElem_constant, hp.rowPotential _ le_rfl,
      hp.columnPotential]
  have hj : (List.finRange m).find? p.isFree = some ⟨k, hm⟩ := by
    rw [hp.toMatching]
    exact Matching.find?_isFree_diagonal hn.le hm
  obtain ⟨s, hround, hlevel⟩ := PathSearch.exists_round_constant p.reachedBy hw hway hj
  refine ⟨s, ⟨⟨k, hm⟩, 0 + c - 0 - 0⟩, ?_, hp.advance hn hm hw hlevel⟩
  rw [search, PathSearch.run, hround]

theorem exists_matchRows_constant (hc : Cost.isFinite c = true) (hnm : n ≤ m)
    (hp : p.IsInOrder k) (hk : k ≤ n) :
    ∃ s, (matchRows (.constant n m c) ((List.finRange n).drop k) p).outcome = .ok (some s) ∧
      s.toMatching = .diagonal n m n := by
  induction hleft : n - k generalizing k p with
  | zero =>
    obtain rfl : k = n := by omega
    rw [List.drop_eq_nil_of_le (by simp)]
    exact ⟨p.toDualMatching, rfl, hp.toMatching⟩
  | succ left ih =>
    have hkn : k < n := by omega
    obtain ⟨s, sink, hs, hadvance⟩ := exists_search_constant hc hp hkn (hkn.trans_le hnm)
    rw [drop_finRange hkn, matchRows, Run.outcome_ofExcept_bind hs]
    exact ih hadvance hkn (by omega)

end Rectangular.Progress

namespace Rectangular

theorem solveChecked_constant (hc : Cost.isFinite c = true) (hnm : n ≤ m) :
    ∃ s, (solveChecked (.constant n m c)).outcome = .ok (.solved s) ∧
      s.toMatching = .diagonal n m n := by
  obtain ⟨s, hs, hdiagonal⟩ :=
    Progress.exists_matchRows_constant hc hnm Progress.isInOrder_initial (Nat.zero_le n)
  have hvalid := CostMatrix.hasInvalidEntry_constant (n := n) (m := m)
    (Binary.isInvalid_of_isFinite hc)
  exact ⟨s, solveChecked_outcome hvalid hs, hdiagonal⟩

theorem columns_diagonal {s : DualMatching (Binary f) n m} (hnm : n ≤ m)
    (hs : s.toMatching = .diagonal n m n) : s.columns = List.range n := by
  have hcolumn : ∀ i : Fin n, s.columnOf[i] = some (i.castLE hnm) := fun i => by
    rw [hs, Matching.columnOf_diagonal, dif_pos ⟨i.isLt, i.isLt.trans_le hnm⟩]
    rfl
  rw [columns_eq_ofFn hcolumn, List.ofFn_eq_map]
  exact List.map_coe_finRange_eq_range

/-- Pairs of equal indices are the same either way round, and they are sorted. -/
theorem restorePairs_range (transposed : Bool) (k : ℕ) :
    NormalForm.restorePairs transposed (List.range k) = (List.range k).map fun i => (i, i) := by
  have hpairs : ((List.range k).zipIdx.map fun q => (q.2, q.1)) =
      (List.range k).map fun i => (i, i) :=
    List.ext_getElem (by simp) (by simp)
  cases transposed with
  | false => exact hpairs
  | true =>
    change ((((List.range k).zipIdx.map fun q => (q.2, q.1)).map Prod.swap).mergeSort
      fun p q => p.1 ≤ q.1) = _
    rw [hpairs, List.map_map]
    refine List.mergeSort_of_pairwise (List.pairwise_map.mpr ?_)
    exact List.pairwise_lt_range.imp fun hlt => by simpa using hlt.le

/-- Rows and columns are paired in order, whichever of them are more. -/
theorem exists_solve_constant (hc : Cost.isFinite c = true) (maximize : Bool) :
    ∃ s, (solve (.constant n m c) maximize).outcome = .ok (.solved s) ∧
      s.pairs = (List.range (min n m)).map fun i => (i, i) := by
  by_cases hmin : min n m = 0
  · refine ⟨⟨[], Vector.replicate n 0, Vector.replicate m 0⟩, ?_, ?_⟩
    · rw [solve, if_pos hmin, Run.outcome_pure]
    · rw [hmin]
      rfl
  · have hsigned := Binary.isFinite_ite_neg hc maximize
    rw [solve_outcome_eq _ _ hmin]
    rcases Nat.lt_or_ge m n with hlt | hle
    · obtain ⟨s, hs, hdiagonal⟩ := solveChecked_constant hsigned hlt.le
      rw [CostMatrix.normalize_of_lt _ _ hlt, CostMatrix.objective_constant,
        CostMatrix.transpose_constant]
      refine ⟨.ofTransposed s, Run.outcome_bind hs _, ?_⟩
      rw [Solution.ofTransposed, columns_diagonal hlt.le hdiagonal, restorePairs_range,
        min_eq_right hlt.le]
    · obtain ⟨s, hs, hdiagonal⟩ := solveChecked_constant hsigned hle
      rw [CostMatrix.normalize_of_le _ _ hle, CostMatrix.objective_constant]
      refine ⟨.ofUpright s, Run.outcome_bind hs _, ?_⟩
      rw [Solution.ofUpright, columns_diagonal hle hdiagonal, restorePairs_range,
        min_eq_left hle]

end Rectangular

end LinearAssignment
