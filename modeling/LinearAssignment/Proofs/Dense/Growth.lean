import LinearAssignment.Binary.Basic
import LinearAssignment.Proofs.Dense.Augmentation
import LinearAssignment.Proofs.Dense.Course
import LinearAssignment.Proofs.Walk

/-! A matching grows by exactly one row and one column, in any arithmetic. A search collects columns
at the minimum distance until one of them is free, and before that scans only columns that rows
hold, so that only prices of held columns change and the walk back from the free column pairs the
root and nothing else that was unpaired. -/
namespace LinearAssignment

/-- The columns in any order of a search are all columns, each of them once. -/
theorem ColumnOrder.Distinct.toList_perm {m : ℕ} {order : ColumnOrder m} (h : order.Distinct) :
    order.toList.Perm (List.finRange m) := by
  have horder : order = Vector.ofFn fun k : Fin m => order[k] :=
    ext_fin fun k => (getElem_ofFn_fin (fun k : Fin m => order[k]) k).symm
  rw [horder, Vector.toList_ofFn]
  refine (List.perm_ext_iff_of_nodup (List.nodup_ofFn.mpr h) (List.nodup_finRange m)).mpr ?_
  intro j
  exact iff_of_true (List.mem_ofFn.mpr (h.exists_position j)) (List.mem_finRange j)

variable {α : Type} [Cost α] {n m : ℕ} {cost : CostMatrix α n m} {p : PricedMatching α n m}
  {root : Fin n}

namespace ColumnSearch

variable {s r : ColumnSearch α n m} {sink : Fin m} {visited : List (ColumnSearch α n m)}
  {scanned : List (Fin m)}

theorem Course.scanned_held (h : Course cost p s visited scanned r sink) :
    ∀ j ∈ scanned, ∃ i, p.rowOf[j] = some i := by
  induction h with
  | collected => simp
  | reached _ _ _ holder => exact List.forall_mem_singleton.mpr ⟨_, holder⟩
  | passed _ _ _ holder _ _ _ ih => exact List.forall_mem_cons.mpr ⟨⟨_, holder⟩, ih⟩

omit [Cost α] in
theorem IsScan.settled_held {held : Matching n m} {filled : ℕ} (h : IsScan held root filled r) :
    ∀ j ∈ r.order.slice 0 r.settled, ∃ i, held.rowOf[j] = some i := by
  intro j hj
  obtain ⟨a, -, ha, rfl⟩ := ColumnOrder.mem_slice.mp hj
  exact h.isTrail.held (ColumnOrder.mem_trail.mpr ⟨a, ha.trans_le h.settled_le, rfl⟩)

theorem IsScan.newPrices_of_free {filled : ℕ} (h : IsScan p.toMatching root filled r) {j : Fin m}
    (hj : p.rowOf[j] = none) : (r.newPrices p.price)[j] = p.price[j] := by
  rw [newPrices, getElem_foldl_concede h.nodup_settled, if_neg]
  intro hsettled
  obtain ⟨i, hi⟩ := h.settled_held j hsettled
  exact Option.some_ne_none i (hi.symm.trans hj)

end ColumnSearch

namespace PricedMatching

/-- A matching with one row and one column more, at the same prices of the free columns. -/
structure GrowsBy (p : PricedMatching α n m) (i : Fin n) (sink : Fin m)
    (t : PricedMatching α n m) : Prop where
  consistent : t.Consistent
  isMatched : ∀ r, t.IsMatched r ↔ r = i ∨ p.IsMatched r
  free : p.rowOf[sink] = none
  isFree : ∀ j : Fin m, t.rowOf[j] = none ↔ j ≠ sink ∧ p.rowOf[j] = none
  price : ∀ j : Fin m, p.rowOf[j] = none → t.price[j] = p.price[j]

/-- Whatever the entries and the prices are, as long as some column is free, a row that holds no
column is matched by a search in which all columns stay listed and only held columns are scanned or
settled, and by a walk back to the row; the matching grows by the row and the column found. -/
theorem augmentRow_grows (cost : CostMatrix α n m) {i : Fin n} (hp : p.Consistent)
    (hfree : ∃ j : Fin m, p.rowOf[j] = none) (hi : ¬ p.IsMatched i) :
    ∃ (visited : List (ColumnSearch α n m)) (scanned : List (Fin m)) (s : ColumnSearch α n m)
        (sink : Fin m) (es : List (Fin m × Fin n)) (t : PricedMatching α n m),
      (ColumnSearch.start cost[i] p.price i).Course cost p visited scanned s sink ∧
      (∀ q ∈ visited, q.order.toList.Perm (List.finRange m)) ∧
      (∀ j ∈ scanned, ∃ r, p.rowOf[j] = some r) ∧
      (∀ j ∈ s.order.slice 0 s.settled, ∃ r, p.rowOf[j] = some r) ∧
      Matching.Walk (fun j => some s.reachedBy[j]) i p.toMatching sink es t.toMatching ∧
      p.augmentRow cost i = .ok t ∧ p.GrowsBy i sink t := by
  obtain ⟨j, hj⟩ := hfree
  obtain ⟨visited, scanned, s, sink, filled, hcourse, hsink, hscan, hdistinct⟩ :=
    ColumnSearch.exists_course (s := .start cost[i] p.price i) cost hj
      (ColumnSearch.isScan_start cost[i] p.price)
  have hreached : p.toMatching.ReachedFrom (fun j => some s.reachedBy[j]) i
      (s.order.trail s.low) sink := ⟨_, rfl, hscan.reached sink⟩
  have hflip := Matching.flipped_augment hp hi hscan.isTrail hsink hreached
  obtain ⟨es, hwalk, -⟩ := Matching.exists_walk hp hi hscan.isTrail hsink hreached
  exact ⟨visited, scanned, s, sink, es,
    ⟨p.toMatching.augment (fun j => some s.reachedBy[j]) i sink, s.newPrices p.price⟩, hcourse,
    fun q hq => (hdistinct q hq).toList_perm, hcourse.scanned_held, hscan.settled_held, hwalk,
    augmentRow_of_run hcourse.run_eq, hflip.consistent,
    Matching.isMatched_of_flipped hflip hsink, hsink, hflip.isFree,
    fun j hj => hscan.newPrices_of_free hj⟩

/-- One of two columns is held at a price that is NaN. The row that is free has the same column on
record, which it has lost. -/
def outbidAtNaN : PricedMatching (Binary .double) 2 2 :=
  ⟨⟨.replicate 2 (some (.last 1)), #v[none, some (.last 1)]⟩, #v[0, .nan]⟩

/-- The row is matched even if no cost is a number. -/
theorem augmentRow_outbidAtNaN_grows :
    outbidAtNaN.Consistent ∧ (∃ j : Fin 2, outbidAtNaN.rowOf[j] = none) ∧
      ¬ outbidAtNaN.IsMatched 0 ∧
      ∃ sink t, outbidAtNaN.augmentRow (.ofFn fun _ _ => .nan) 0 = .ok t ∧
        outbidAtNaN.GrowsBy 0 sink t := by
  have hconsistent : outbidAtNaN.Consistent := by
    unfold Matching.Consistent
    decide
  have hfree : ∃ j : Fin 2, outbidAtNaN.rowOf[j] = none := ⟨0, rfl⟩
  have hmissed : ¬ outbidAtNaN.IsMatched 0 := by
    unfold Matching.IsMatched
    decide
  obtain ⟨-, -, -, sink, -, t, -, -, -, -, -, ht, hgrows⟩ :=
    augmentRow_grows (.ofFn fun _ _ => .nan) hconsistent hfree hmissed
  exact ⟨hconsistent, hfree, hmissed, sink, t, ht, hgrows⟩

end PricedMatching

end LinearAssignment
