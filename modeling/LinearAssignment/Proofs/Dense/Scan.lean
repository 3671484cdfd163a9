import LinearAssignment.Dense.Augmentation
import LinearAssignment.Proofs.Dense.Relaxation

/-! What a search over columns scans, in any arithmetic. The columns before `low` form a trail, all
columns before the end of the frontier are held once its free columns have been looked for, and
every column is reached from a row on the trail. -/
namespace LinearAssignment

variable {α : Type} {n m : ℕ}

namespace ColumnOrder

variable {order order' : ColumnOrder m} {low up : ℕ} {j : Fin m}

theorem mem_slice : j ∈ order.slice low up ↔
    ∃ a : Fin m, low ≤ a.val ∧ a.val < up ∧ order[a] = j := by
  simp only [slice, List.mem_drop_iff_getElem, List.getElem_take, Vector.getElem_toList,
    List.length_take, Vector.length_toList]
  constructor
  · rintro ⟨a, ha, rfl⟩
    exact ⟨⟨low + a, by omega⟩, by simp, by simp; omega, rfl⟩
  · rintro ⟨a, ha, ha', rfl⟩
    have hlow : low + (a.val - low) = a.val := by omega
    exact ⟨a.val - low, by omega, by simp only [hlow]; rfl⟩

def trail (order : ColumnOrder m) (low : ℕ) : List (Fin m) := (order.slice 0 low).reverse

theorem mem_trail : j ∈ order.trail low ↔ ∃ a : Fin m, a.val < low ∧ order[a] = j := by
  rw [trail, List.mem_reverse, mem_slice]
  exact exists_congr fun a => ⟨fun h => h.2, fun h => ⟨Nat.zero_le _, h⟩⟩

theorem trail_zero : order.trail 0 = [] := by simp [trail, slice]

theorem trail_succ (h : low < m) :
    order.trail (low + 1) = order[(⟨low, h⟩ : Fin m)] :: order.trail low := by
  have hlen : low < order.toList.length := by simpa using h
  simp only [trail, slice, List.drop_zero]
  rw [List.take_succ_eq_append_getElem hlen, List.reverse_append]
  simp only [List.reverse_singleton, List.singleton_append, Vector.getElem_toList]
  rfl

theorem trail_congr (h : ∀ a : Fin m, a.val < low → order'[a] = order[a]) :
    order'.trail low = order.trail low := by
  have htake : order'.toList.take low = order.toList.take low := by
    apply List.ext_getElem (by simp)
    intro k hk hk'
    simp only [List.length_take, Vector.length_toList] at hk
    simp only [List.getElem_take, Vector.getElem_toList]
    exact h ⟨k, by omega⟩ (by simp; omega)
  simp only [trail, slice, htake]

theorem Distinct.not_mem_trail (hd : order.Distinct) {a : Fin m} (ha : low ≤ a.val) :
    order[a] ∉ order.trail low := by
  rw [mem_trail]
  rintro ⟨b, hb, he⟩
  have hba : b = a := hd he
  omega

theorem Distinct.exists_position_of_not_mem_trail (hd : order.Distinct)
    (hj : j ∉ order.trail low) : ∃ a : Fin m, low ≤ a.val ∧ order[a] = j := by
  obtain ⟨a, rfl⟩ := hd.exists_position j
  refine ⟨a, ?_, rfl⟩
  by_contra hlt
  exact hj (mem_trail.mpr ⟨a, by omega, rfl⟩)

end ColumnOrder

namespace ColumnSearch

variable {held : Matching n m} {root : Fin n} {filled : ℕ} {s : ColumnSearch α n m}

/-- The columns before `low` are a trail, and rows hold all columns before position `filled`. -/
structure IsScan (held : Matching n m) (root : Fin n) (filled : ℕ) (s : ColumnSearch α n m) :
    Prop where
  settled_le : s.settled ≤ s.low
  low_le : s.low ≤ s.up
  up_le : s.up ≤ m
  distinct : s.order.Distinct
  isTrail : held.Trail (fun j => some s.reachedBy[j]) root (s.order.trail s.low)
  reached : ∀ j : Fin m, held.OnTrail root (s.order.trail s.low) s.reachedBy[j]
  occupied : ∀ a : Fin m, a.val < filled → ∃ i, held.rowOf[s.order[a]] = some i

theorem isScan_start [Cost α] (row price : Vector α m) :
    IsScan held root 0 (start row price root : ColumnSearch α n m) where
  settled_le := le_rfl
  low_le := le_rfl
  up_le := Nat.zero_le m
  distinct := ColumnOrder.distinct_initial
  isTrail := by
    change Matching.Trail held _ root (ColumnOrder.initial.trail 0)
    rw [ColumnOrder.trail_zero]
    exact .nil
  reached j := by simp [start, Matching.OnTrail]
  occupied a ha := absurd ha (Nat.not_lt_zero _)

theorem IsScan.filled_lt (h : IsScan held root filled s) {j : Fin m} (hj : held.rowOf[j] = none) :
    filled < m := by
  obtain ⟨a, rfl⟩ := h.distinct.exists_position j
  by_contra hle
  obtain ⟨i, hi⟩ := h.occupied a (by omega)
  rw [hj] at hi
  exact absurd hi (by simp)

variable [Cost α] {cost : CostMatrix α n m} {p : PricedMatching α n m} {t : ColumnSearch α n m}
  {j : Fin m} {i : Fin n}

theorem advance_cases (ht : s.advance = .ok t) : (s.up ≠ s.low ∧ t = s) ∨ (s.up = s.low ∧
    ∃ f, Frontier.collect s.distance s.order s.low = .ok f ∧
      t = { s with order := f.order, up := f.up, minimum := f.distance, settled := s.low }) := by
  unfold advance at ht
  split at ht
  next hup =>
    cases hf : Frontier.collect s.distance s.order s.low with
    | error e =>
      rw [hf] at ht
      exact absurd ht (by simp [bind, Except.bind])
    | ok f =>
      rw [hf] at ht
      exact .inr ⟨hup, f, rfl, (Except.ok.inj ht).symm⟩
  next hup => exact .inl ⟨hup, (Except.ok.inj ht).symm⟩

theorem exists_advance (h : s.low < m) : ∃ t, s.advance = .ok t := by
  unfold advance
  split
  · unfold Frontier.collect
    rw [dif_pos h]
    exact ⟨_, rfl⟩
  · exact ⟨s, rfl⟩

/-- After the frontier has been collected, it has not yet been looked for free columns. -/
theorem IsScan.advance (h : IsScan held root s.up s) (ht : s.advance = .ok t) :
    t.low = s.low ∧ t.low < t.up ∧
      IsScan held root (if t.settled = t.low then t.low else t.up) t := by
  rcases advance_cases ht with ⟨hne, rfl⟩ | ⟨hup, f, hf, rfl⟩
  · have hlow := h.low_le
    have hlt : t.low < t.up := by omega
    refine ⟨rfl, hlt, { h with occupied := fun a ha => h.occupied a ?_ }⟩
    split at ha <;> omega
  · have hfront := Frontier.isFrontier_collect h.distinct hf
    have htrail : f.order.trail s.low = s.order.trail s.low :=
      ColumnOrder.trail_congr hfront.before
    refine ⟨rfl, hfront.low_lt, le_rfl, hfront.low_lt.le, hfront.up_le, hfront.distinct, ?_, ?_,
      fun a ha => ?_⟩
    · exact htrail ▸ h.isTrail
    · exact htrail ▸ h.reached
    · rw [if_pos rfl] at ha
      obtain ⟨i, hi⟩ := h.occupied a (ha.trans_eq hup.symm)
      refine ⟨i, ?_⟩
      simp only [hfront.before a ha]
      exact hi

omit [Cost α] in
theorem freeColumn?_spec (hj : t.freeColumn? p.isFree = some j) :
    p.rowOf[j] = none ∧ ∃ a : Fin m, t.low ≤ a.val ∧ a.val < t.up ∧ t.order[a] = j := by
  unfold freeColumn? at hj
  split at hj
  · exact ⟨Matching.isFree_iff.mp (List.find?_some hj),
      ColumnOrder.mem_slice.mp (List.mem_of_find?_eq_some hj)⟩
  · exact absurd hj (by simp)

omit [Cost α] in
theorem IsScan.fill (h : IsScan p.toMatching root (if t.settled = t.low then t.low else t.up) t)
    (hnone : t.freeColumn? p.isFree = none) : IsScan p.toMatching root t.up t := by
  refine { h with occupied := fun a ha => ?_ }
  unfold freeColumn? at hnone
  split at hnone
  next hlow =>
    by_cases hal : a.val < t.low
    · exact h.occupied a (by rwa [if_pos hlow])
    · rw [List.find?_eq_none] at hnone
      have hheld := hnone t.order[a] (ColumnOrder.mem_slice.mpr ⟨a, by omega, ha, rfl⟩)
      rw [Matching.isFree_iff] at hheld
      exact Option.ne_none_iff_exists'.mp hheld
  next hlow => exact h.occupied a (by rwa [if_neg hlow])

def scan (cost : CostMatrix α n m) (p : PricedMatching α n m) (s : ColumnSearch α n m) (i : Fin n)
    (j : Fin m) : ColumnSearch α n m × Option (Fin m) :=
  let base := cost[i][j] - p.price[j] - s.minimum
  let r := s.toLabels.relax cost[i] p.price p.isFree i base s.minimum
  ({ s with toLabels := r.1, low := s.low + 1 }, r.2)

theorem round_cases (cost : CostMatrix α n m) (p : PricedMatching α n m)
    (ht : s.advance = .ok t) (hlow : t.low = s.low) {a : Fin m} (ha : a.val = s.low) :
    (∃ j, t.freeColumn? p.isFree = some j ∧ s.round cost p = .ok (.found t j)) ∨
      (t.freeColumn? p.isFree = none ∧
        ((p.rowOf[t.order[a]] = none ∧ s.round cost p = .ok (.found t t.order[a])) ∨
          ∃ i, p.rowOf[t.order[a]] = some i ∧
            s.round cost p = .ok (match (t.scan cost p i t.order[a]).2 with
              | some j => .found (t.scan cost p i t.order[a]).1 j
              | none => .passed (t.scan cost p i t.order[a]).1))) := by
  have hm : s.low < m := ha ▸ a.isLt
  obtain rfl : (⟨s.low, hm⟩ : Fin m) = a := Fin.ext ha.symm
  unfold round scan
  simp only [ht, bind, Except.bind, dif_pos hm, hlow]
  cases t.freeColumn? p.isFree with
  | some j => exact .inl ⟨j, rfl, rfl⟩
  | none =>
    refine .inr ⟨rfl, ?_⟩
    simp only
    split
    next hnone => exact .inl ⟨hnone, rfl⟩
    next i hi =>
      refine .inr ⟨i, hi, ?_⟩
      split <;> simp_all [pure, Except.pure]

theorem isRelaxed_scan (cost : CostMatrix α n m) (h : IsScan p.toMatching root filled t)
    (i : Fin n) (j : Fin m) :
    Labels.IsRelaxed t.toLabels cost[i] p.price p.isFree i
      (cost[i][j] - p.price[j] - t.minimum) t.minimum (t.scan cost p i j).1.toLabels
      (t.scan cost p i j).2 :=
  Labels.isRelaxed_relax h.distinct h.up_le

omit [Cost α] in
theorem exists_position {a k : Fin m} (ha : a.val = t.low) (hup : t.low < t.up)
    (hk : k ∈ t.order[a] :: t.order.trail t.low) : ∃ b : Fin m, b.val < t.up ∧ t.order[b] = k := by
  rcases List.mem_cons.mp hk with rfl | hk
  · exact ⟨a, by omega, rfl⟩
  · obtain ⟨b, hb, rfl⟩ := ColumnOrder.mem_trail.mp hk
    exact ⟨b, by omega, rfl⟩

/-- The columns of the trail after a scan are those before it and the scanned one. -/
theorem trail_scan (cost : CostMatrix α n m) (h : IsScan p.toMatching root filled t) {a : Fin m}
    (ha : a.val = t.low) (hup : t.low < t.up) (i : Fin n) :
    (t.scan cost p i t.order[a]).1.order.trail (t.scan cost p i t.order[a]).1.low =
      t.order[a] :: t.order.trail t.low := by
  have hr := isRelaxed_scan cost h i t.order[a]
  have hlow : t.low < m := ha ▸ a.isLt
  obtain rfl : (⟨t.low, hlow⟩ : Fin m) = a := Fin.ext ha.symm
  rw [← ColumnOrder.trail_succ]
  exact ColumnOrder.trail_congr fun b hb => hr.before b (by
    change b.val < t.low + 1 at hb
    omega)

/-- A scan takes the first column of the frontier, and the row that holds it, onto the trail. -/
theorem IsScan.scan (h : IsScan p.toMatching root t.up t) {a : Fin m} (ha : a.val = t.low)
    (hup : t.low < t.up) (hi : p.rowOf[t.order[a]] = some i) :
    IsScan p.toMatching root (t.scan cost p i t.order[a]).1.up (t.scan cost p i t.order[a]).1 := by
  have hr := isRelaxed_scan cost h i t.order[a]
  have hreached : ∀ b : Fin m, b.val < t.up →
      (t.scan cost p i t.order[a]).1.reachedBy[t.order[b]] = t.reachedBy[t.order[b]] :=
    hr.reachedBy
  have htrail := trail_scan cost h ha hup i
  refine ⟨Nat.le_succ_of_le h.settled_le, Nat.lt_of_lt_of_le hup hr.le_up, hr.up_le,
    hr.distinct, ?isTrail, ?reached, ?occupied⟩
  case isTrail =>
    rw [htrail]
    refine .cons i (h.isTrail.congr fun k hk => ?_) (h.distinct.not_mem_trail ha.ge) hi ?_
    · obtain ⟨b, hb, rfl⟩ := ColumnOrder.mem_trail.mp hk
      rw [hreached b (by omega)]
    · exact ⟨_, congrArg some (hreached a (by omega)), h.reached _⟩
  case reached =>
    intro j
    rw [htrail, Matching.onTrail_cons]
    rcases hr.either j with he | he
    · refine .inl ?_
      rw [he]
      exact h.reached j
    · refine .inr ?_
      rw [he]
      exact hi
  case occupied =>
    intro b hb
    by_cases hbu : b.val < t.up
    · obtain ⟨r, hb⟩ := h.occupied b hbu
      refine ⟨r, ?_⟩
      rw [← hb]
      exact congrArg (fun k : Fin m => p.rowOf[k]) (hr.before b hbu)
    · have hjoined := (hr.joined b (by omega) hb).1
      rw [← Bool.not_eq_true, Matching.isFree_iff] at hjoined
      exact Option.ne_none_iff_exists'.mp hjoined

/-- A search that leaves from a row without column always goes on: it finds a free column or scans
one that a row holds. -/
theorem exists_round (cost : CostMatrix α n m) (h : IsScan p.toMatching root s.up s)
    {j₀ : Fin m} (hfree : p.rowOf[j₀] = none) :
    ∃ (t : ColumnSearch α n m) (a : Fin m), s.advance = .ok t ∧ a.val = t.low ∧ t.low = s.low ∧
      t.low < t.up ∧
      ((∃ sink filled, s.round cost p = .ok (.found t sink) ∧ p.rowOf[sink] = none ∧
          IsScan p.toMatching root filled t ∧
          ∃ b : Fin m, t.low ≤ b.val ∧ b.val < t.up ∧ t.order[b] = sink) ∨
        ∃ i, p.rowOf[t.order[a]] = some i ∧ IsScan p.toMatching root t.up t ∧
          IsScan p.toMatching root (t.scan cost p i t.order[a]).1.up
            (t.scan cost p i t.order[a]).1 ∧
          s.round cost p = .ok (match (t.scan cost p i t.order[a]).2 with
            | some j => .found (t.scan cost p i t.order[a]).1 j
            | none => .passed (t.scan cost p i t.order[a]).1)) := by
  have hlowm : s.low < m := h.low_le.trans_lt (h.filled_lt hfree)
  obtain ⟨t, ht⟩ := exists_advance hlowm
  obtain ⟨hlow, hup, ht'⟩ := h.advance ht
  refine ⟨t, ⟨s.low, hlowm⟩, ht, hlow.symm, hlow, hup, ?_⟩
  rcases round_cases cost p ht hlow (a := ⟨s.low, hlowm⟩) rfl with
    ⟨j, hj, hround⟩ | ⟨hnone, ⟨hj, hround⟩ | ⟨i, hi, hround⟩⟩
  · obtain ⟨hfreej, hpos⟩ := freeColumn?_spec hj
    exact .inl ⟨j, _, hround, hfreej, ht', hpos⟩
  · exact .inl ⟨_, _, hround, hj, ht', ⟨s.low, hlowm⟩, hlow.le, hlow.ge.trans_lt hup, rfl⟩
  · have hfill := ht'.fill hnone
    exact .inr ⟨i, hi, hfill, hfill.scan hlow.symm hup hi, hround⟩

end ColumnSearch

theorem PricedMatching.augmentRow_of_run {α : Type} [Cost α] {n m : ℕ} {cost : CostMatrix α n m}
    {p : PricedMatching α n m} {i : Fin n} {s : ColumnSearch α n m} {sink : Fin m}
    (h : (ColumnSearch.start cost[i] p.price i).run cost p = .ok (s, sink)) :
    p.augmentRow cost i =
      .ok ⟨p.toMatching.augment (fun j => some s.reachedBy[j]) i sink, s.newPrices p.price⟩ := by
  simp only [augmentRow, h, bind, Except.bind, pure, Except.pure]

end LinearAssignment
