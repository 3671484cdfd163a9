import LinearAssignment.Proofs.Alternation
import LinearAssignment.Proofs.CostOrder
import LinearAssignment.Rectangular.PathSearch

/-! What a search from a row scans, in any arithmetic. The columns scanned so far form a trail,
the columns listed as unscanned are all the others, and the rows visited are the root and the
holders of the columns of the trail. -/
namespace LinearAssignment

variable {α : Type} {n m : ℕ}

namespace Unscanned

def Lists (s : Unscanned m) (j : Fin m) : Prop := ∃ k : Fin m, k.val < s.count ∧ s.order[k] = j

instance (s : Unscanned m) (j : Fin m) : Decidable (s.Lists j) :=
  inferInstanceAs (Decidable (∃ k : Fin m, k.val < s.count ∧ s.order[k] = j))

def Distinct (s : Unscanned m) : Prop :=
  ∀ k k' : Fin m, k.val < s.count → k'.val < s.count → s.order[k] = s.order[k'] → k = k'

theorem mem_positions {s : Unscanned m} {k : Fin m} : k ∈ s.positions ↔ k.val < s.count := by
  simp only [positions, List.mem_take_iff_getElem, List.getElem_finRange, List.length_finRange]
  constructor
  · rintro ⟨i, hi, rfl⟩
    simp only [Fin.val_cast]
    omega
  · intro hk
    exact ⟨k, by omega, by simp⟩

theorem mem_columns {s : Unscanned m} {j : Fin m} : j ∈ s.columns ↔ s.Lists j := by
  simp only [columns, List.mem_map, mem_positions, Lists]

theorem lists_all (j : Fin m) : (all : Unscanned m).Lists j :=
  ⟨j.rev, j.rev.isLt, by
    simp only [all, getElem_ofFn_fin, Fin.rev_rev]⟩

theorem distinct_all : (all : Unscanned m).Distinct := by
  intro k k' _ _ h
  simpa [all] using h

theorem order_remove (s : Unscanned m) {k k' : Fin m} (hk' : k'.val < s.count - 1) :
    ∃ l : Fin m, l.val < s.count ∧ (s.remove k).order[k'] = s.order[l] ∧
      (k' = k ∧ l.val = s.count - 1 ∨ k' ≠ k ∧ l = k') := by
  have hle := s.count_le
  by_cases he : k' = k
  · refine ⟨⟨s.count - 1, by omega⟩, by simp; omega, ?_, .inl ⟨he, rfl⟩⟩
    simp only [remove, getElem_set_fin, if_pos he]
  · exact ⟨k', by omega, by simp only [remove, getElem_set_fin, if_neg he], .inr ⟨he, rfl⟩⟩

theorem Distinct.remove {s : Unscanned m} (h : s.Distinct) (k : Fin m) :
    (s.remove k).Distinct := by
  intro a b ha hb hab
  obtain ⟨la, hla, hea, hca⟩ := s.order_remove (k := k) ha
  obtain ⟨lb, hlb, heb, hcb⟩ := s.order_remove (k := k) hb
  have hl : la = lb := h la lb hla hlb (hea.symm.trans (hab.trans heb))
  change a.val < s.count - 1 at ha
  change b.val < s.count - 1 at hb
  rcases hca with ⟨rfl, hca⟩ | ⟨hna, rfl⟩ <;> rcases hcb with ⟨rfl, hcb⟩ | ⟨hnb, rfl⟩
  · rfl
  · omega
  · omega
  · exact hl

theorem lists_remove {s : Unscanned m} (h : s.Distinct) {k : Fin m} (hk : k.val < s.count)
    (j : Fin m) : (s.remove k).Lists j ↔ s.Lists j ∧ j ≠ s.order[k] := by
  constructor
  · rintro ⟨a, ha, rfl⟩
    obtain ⟨l, hl, he, hc⟩ := s.order_remove (k := k) ha
    change a.val < s.count - 1 at ha
    refine ⟨⟨l, hl, he.symm⟩, fun hj => ?_⟩
    have hlk : l = k := h l k hl hk (he.symm.trans hj)
    rcases hc with ⟨rfl, hc⟩ | ⟨hne, rfl⟩
    · omega
    · exact hne hlk
  · rintro ⟨⟨a, ha, rfl⟩, hne⟩
    have hak : a ≠ k := fun he => hne (he ▸ rfl)
    by_cases hlast : a.val = s.count - 1
    · have hk' : k.val < s.count - 1 := by
        have : a.val ≠ k.val := fun hv => hak (Fin.ext hv)
        omega
      obtain ⟨l, hl, he, hc⟩ := s.order_remove (k := k) hk'
      rcases hc with ⟨_, hc⟩ | ⟨hne, _⟩
      · exact ⟨k, hk', he.trans (congrArg (s.order[·]) (Fin.ext (hc.trans hlast.symm)))⟩
      · exact absurd rfl hne
    · have ha' : a.val < s.count - 1 := by omega
      obtain ⟨l, hl, he, hc⟩ := s.order_remove (k := k) ha'
      rcases hc with ⟨he', _⟩ | ⟨_, rfl⟩
      · exact absurd he' hak
      · exact ⟨l, ha', he⟩

theorem Distinct.nodup_columns {s : Unscanned m} (h : s.Distinct) : s.columns.Nodup := by
  have hpositions : s.positions.Nodup := (List.nodup_finRange m).sublist (List.take_sublist _ _)
  refine hpositions.map_on fun k hk k' hk' he => ?_
  exact h k k' (mem_positions.mp hk) (mem_positions.mp hk') he

end Unscanned

namespace PathSearch

section reach

variable (length : Fin m → α) (i : Fin n) (js : List (Fin m)) (s : PathSearch α n m) (j : Fin m)

theorem distance_foldl_reach :
    (js.foldl (reach length i) s).distance[j] = if j ∈ js then length j else s.distance[j] := by
  induction js generalizing s with
  | nil => simp
  | cons k js ih =>
    rw [List.foldl_cons, ih]
    simp only [reach, getElem_set_fin, List.mem_cons]
    by_cases hj : j ∈ js
    · rw [if_pos hj, if_pos (.inr hj)]
    · by_cases hk : j = k
      · rw [if_neg hj, if_pos hk, if_pos (.inl hk), hk]
      · rw [if_neg hj, if_neg hk, if_neg (by simp [hj, hk])]

theorem reachedBy_foldl_reach :
    (js.foldl (reach length i) s).reachedBy[j] = if j ∈ js then some i else s.reachedBy[j] := by
  induction js generalizing s with
  | nil => simp
  | cons k js ih =>
    rw [List.foldl_cons, ih]
    simp only [reach, getElem_set_fin, List.mem_cons]
    by_cases hj : j ∈ js
    · rw [if_pos hj, if_pos (.inr hj)]
    · by_cases hk : j = k
      · rw [if_neg hj, if_pos hk, if_pos (.inl hk)]
      · rw [if_neg hj, if_neg hk, if_neg (by simp [hj, hk])]

theorem scanned_foldl_reach :
    (js.foldl (reach length i) s).scannedRows = s.scannedRows ∧
      (js.foldl (reach length i) s).scannedColumns = s.scannedColumns := by
  induction js generalizing s with
  | nil => exact ⟨rfl, rfl⟩
  | cons k js ih =>
    rw [List.foldl_cons]
    exact ih (s.reach length i k)

end reach

theorem scannedColumns_scan (s : PathSearch α n m) (k j : Fin m) :
    (s.scan k).scannedColumns[j] =
      if j = s.unscanned.order[k] then true else s.scannedColumns[j] :=
  getElem_set_fin _ _ _ _

variable [Cost α] {cost : CostMatrix α n m} {u : Vector α n} {v : Vector α m}
  {held : Matching n m} {minimum : α} {i root : Fin n} {s s' : PathSearch α n m}
  {trail : List (Fin m)} {pending : Option (Fin n)}

theorem distance_visit (j : Fin m) :
    (s.visit cost u v minimum i).distance[j] =
      if s.unscanned.Lists j ∧ way cost u v minimum i j < s.distance[j] then
        way cost u v minimum i j else s.distance[j] := by
  unfold visit
  rw [distance_foldl_reach]
  simp only [List.mem_filter, Unscanned.mem_columns, decide_eq_true_eq]

/-- Whatever the entries, no distance is NaN: only what is below a distance takes its place. -/
theorem isNaN_distance_visit [Cost.Ordered α] (cost : CostMatrix α n m) (u : Vector α n)
    (v : Vector α m) (minimum : α) (i : Fin n)
    (h : ∀ j : Fin m, Cost.isNaN s.distance[j] = false) (j : Fin m) :
    Cost.isNaN (s.visit cost u v minimum i).distance[j] = false := by
  rw [distance_visit]
  split
  next hnear => exact (Cost.Ordered.isNaN_of_atMost (Cost.atMost_of_lt hnear.2)).1
  next => exact h j

theorem reachedBy_visit (j : Fin m) :
    (s.visit cost u v minimum i).reachedBy[j] =
      if s.unscanned.Lists j ∧ way cost u v minimum i j < s.distance[j] then
        some i else s.reachedBy[j] := by
  unfold visit
  rw [reachedBy_foldl_reach]
  simp only [List.mem_filter, Unscanned.mem_columns, decide_eq_true_eq]

theorem scannedRows_visit (r : Fin n) :
    (s.visit cost u v minimum i).scannedRows[r] = if r = i then true else s.scannedRows[r] := by
  unfold visit
  rw [(scanned_foldl_reach _ _ _ _).1, getElem_set_fin]

theorem scannedColumns_visit :
    (s.visit cost u v minimum i).scannedColumns = s.scannedColumns :=
  (scanned_foldl_reach _ _ _ _).2

theorem count_of_nearest {isFree : Fin m → Bool} {k : Fin m} (h : s.nearest isFree = .ok k) :
    k.val < s.unscanned.count := by
  unfold nearest at h
  simp only at h
  split at h
  · simp at h
  · split at h
    · simp at h
    · next hk =>
      obtain rfl := Except.ok.inj h
      apply Unscanned.mem_positions.mp
      rcases Option.or_eq_some_iff.mp hk with hk | ⟨_, hk⟩
      · exact (List.mem_filter.mp (List.mem_filter.mp (List.mem_of_getLast? hk)).1).1
      · exact (List.mem_filter.mp (List.mem_of_head? hk)).1

section keyed

variable {κ : Type} [LinearOrder κ] {key : Fin m → κ} {isFree : Fin m → Bool} {j k : Fin m}

theorem nearest_le (h : Cost.IsKeyed (fun j : Fin m => s.distance[j]) key)
    (hk : s.nearest isFree = .ok k) (hj : s.unscanned.Lists j) :
    key s.unscanned.order[k] ≤ key j := by
  have hkeyed := h.comp fun k : Fin m => s.unscanned.order[k]
  obtain ⟨l, hl, rfl⟩ := hj
  unfold nearest at hk
  simp only at hk
  split at hk
  · simp at hk
  · next k₀ hk₀ =>
    have hmin := (hkeyed.firstMinimum? hk₀).2 l (Unscanned.mem_positions.mpr hl)
    split at hk
    · simp at hk
    · next hties =>
      obtain rfl := Except.ok.inj hk
      refine le_of_eq_of_le ((hkeyed.beq_iff _ _).mp ?_) hmin
      rcases Option.or_eq_some_iff.mp hties with hties | ⟨_, hties⟩
      · exact (List.mem_filter.mp (List.mem_filter.mp (List.mem_of_getLast? hties)).1).2
      · exact (List.mem_filter.mp (List.mem_of_head? hties)).2

theorem exists_nearest (h : Cost.IsKeyed (fun j : Fin m => s.distance[j]) key)
    (isFree : Fin m → Bool) (hj : s.unscanned.Lists j) : ∃ k, s.nearest isFree = .ok k := by
  have hkeyed := h.comp fun k : Fin m => s.unscanned.order[k]
  obtain ⟨l, hl, -⟩ := hj
  have hl := Unscanned.mem_positions.mpr hl
  obtain ⟨k₀, hk₀⟩ := Cost.exists_firstMinimum?
    (fun k : Fin m => s.distance[s.unscanned.order[k]]) (List.ne_nil_of_mem hl)
  have hmem := (hkeyed.firstMinimum? hk₀).1
  unfold nearest
  simp only [hk₀]
  split
  · next hnone =>
    obtain ⟨-, hnone⟩ := Option.or_eq_none_iff.mp hnone
    rw [List.head?_eq_none_iff, List.filter_eq_nil_iff] at hnone
    exact absurd ((hkeyed.beq_iff k₀ k₀).mpr rfl) (hnone k₀ hmem)
  · next k _ => exact ⟨k, rfl⟩

end keyed

theorem exists_round_of_nearest (minimum : α) (i : Fin n) {k : Fin m}
    (hk : (s.visit cost u v minimum i).nearest held.isFree = .ok k) :
    ∃ r, s.round cost u v held minimum i = .ok r := by
  unfold round
  simp only [hk]
  split
  · exact ⟨_, rfl⟩
  · split <;> exact ⟨_, rfl⟩

/-- All that a round can do after it has visited row `i`, which leaves it in state `t`. -/
theorem round_cases {r : Round α n m} (h : s.round cost u v held minimum i = .ok r) :
    ∃ (t : PathSearch α n m) (k : Fin m) (j : Fin m), t = s.visit cost u v minimum i ∧
      t.nearest held.isFree = .ok k ∧ j = t.unscanned.order[k] ∧
      (((t.distance[j] == Cost.infinity) = true ∧ r = .unreachable t) ∨
        (t.distance[j] == Cost.infinity) = false ∧
          ((held.rowOf[j] = none ∧ r = .reached (t.scan k) ⟨j, t.distance[j]⟩) ∨
            ∃ i', held.rowOf[j] = some i' ∧ r = .passed (t.scan k) t.distance[j] i')) := by
  unfold round at h
  simp only at h
  split at h
  · simp at h
  · next k hk =>
    refine ⟨_, k, _, rfl, hk, rfl, ?_⟩
    split at h
    · next hinf => exact .inl ⟨hinf, (Except.ok.inj h).symm⟩
    · next hinf =>
      refine .inr ⟨Bool.eq_false_iff.mpr hinf, ?_⟩
      split at h
      · next hfree => exact .inl ⟨hfree, (Except.ok.inj h).symm⟩
      · next i' hheld => exact .inr ⟨i', hheld, (Except.ok.inj h).symm⟩

/-- A search from the root whose trail is `trail`. Every row on the trail has been visited,
except for one that is pending. -/
structure IsScan (held : Matching n m) (root : Fin n) (pending : Option (Fin n))
    (trail : List (Fin m)) (s : PathSearch α n m) : Prop where
  distinct : s.unscanned.Distinct
  lists_iff : ∀ j, s.unscanned.Lists j ↔ j ∉ trail
  column : ∀ j : Fin m, s.scannedColumns[j] = true ↔ j ∈ trail
  row : ∀ r : Fin n, s.scannedRows[r] = true ∨ pending = some r ↔ held.OnTrail root trail r
  isTrail : held.Trail (fun j => s.reachedBy[j]) root trail
  reached : ∀ j : Fin m, s.distance[j] = Cost.infinity ∨
    held.ReachedFrom (fun j => s.reachedBy[j]) root trail j

theorem isScan_start (held : Matching n m) (root : Fin n)
    (reachedBy : Vector (Option (Fin n)) m) :
    IsScan held root (some root) [] (start reachedBy : PathSearch α n m) where
  distinct := Unscanned.distinct_all
  lists_iff j := iff_of_true (Unscanned.lists_all j) (by simp)
  column j := by simp [start]
  row r := by simp [start, Matching.OnTrail, eq_comm]
  isTrail := .nil
  reached j := .inl (by simp [start])

namespace IsScan

theorem visit (h : IsScan held root (some i) trail s) :
    IsScan held root none trail (s.visit cost u v minimum i) where
  distinct := by rw [unscanned_visit]; exact h.distinct
  lists_iff := by rw [unscanned_visit]; exact h.lists_iff
  column := by rw [scannedColumns_visit]; exact h.column
  row r := by
    rw [scannedRows_visit, ← h.row r]
    by_cases hr : r = i
    · simp [hr]
    · simp [hr, Ne.symm hr]
  isTrail := h.isTrail.congr fun k hk => by
    rw [reachedBy_visit, if_neg fun hl => (h.lists_iff k).mp hl.1 hk]
  reached j := by
    have hi : held.OnTrail root trail i := (h.row i).mp (.inr rfl)
    rw [distance_visit]
    split
    next hw => exact .inr ⟨i, (reachedBy_visit j).trans (if_pos hw), hi⟩
    next hw =>
      exact (h.reached j).imp_right fun ⟨r, hr, ho⟩ =>
        ⟨r, (reachedBy_visit j).trans ((if_neg hw).trans hr), ho⟩

theorem reachedFrom [Cost.LawfulInfinity α] (h : IsScan held root none trail s) {j : Fin m}
    (hj : (s.distance[j] == Cost.infinity) = false) :
    held.ReachedFrom (fun j => s.reachedBy[j]) root trail j :=
  (h.reached j).resolve_left (Cost.ne_infinity hj)

theorem nearest_not_mem (h : IsScan held root none trail s) {isFree : Fin m → Bool} {k : Fin m}
    (hk : s.nearest isFree = .ok k) : s.unscanned.order[k] ∉ trail :=
  (h.lists_iff _).mp ⟨k, count_of_nearest hk, rfl⟩

theorem column_scan (h : IsScan held root none trail s) {j k : Fin m}
    (hj : j = s.unscanned.order[k]) (l : Fin m) :
    (s.scan k).scannedColumns[l] = true ↔ l = j ∨ l ∈ trail := by
  rw [scannedColumns_scan, ← hj, ← h.column l]
  by_cases hl : l = j <;> simp [hl]

theorem lists_scan (h : IsScan held root none trail s) {isFree : Fin m → Bool} {j k : Fin m}
    (hk : s.nearest isFree = .ok k) (hj : j = s.unscanned.order[k]) (l : Fin m) :
    (s.scan k).unscanned.Lists l ↔ l ∉ j :: trail := by
  rw [List.mem_cons, not_or, and_comm, ← h.lists_iff l, hj]
  exact Unscanned.lists_remove h.distinct (count_of_nearest hk) l

/-- Scanning a column that is held passes the search on to its row. -/
theorem scan [Cost.LawfulInfinity α] (h : IsScan held root none trail s) {isFree : Fin m → Bool}
    {j k : Fin m} {i : Fin n} (hk : s.nearest isFree = .ok k) (hj : j = s.unscanned.order[k])
    (hd : (s.distance[j] == Cost.infinity) = false) (hi : held.rowOf[j] = some i) :
    IsScan held root (some i) (j :: trail) (s.scan k) where
  distinct := h.distinct.remove k
  lists_iff := h.lists_scan hk hj
  column l := by rw [List.mem_cons, h.column_scan hj]
  row r := by
    rw [Matching.onTrail_cons, ← h.row r, hi]
    simp [PathSearch.scan]
  isTrail := .cons i h.isTrail (hj ▸ h.nearest_not_mem hk) hi (h.reachedFrom hd)
  reached l := (h.reached l).imp_right fun hl => hl.cons j

end IsScan

/-- A search that has ended in a free column, which is scanned but not on the trail. -/
structure EndsAt (held : Matching n m) (root : Fin n) (trail : List (Fin m)) (sink : Fin m)
    (s : PathSearch α n m) : Prop where
  free : held.rowOf[sink] = none
  column : ∀ j : Fin m, s.scannedColumns[j] = true ↔ j = sink ∨ j ∈ trail
  row : ∀ r : Fin n, s.scannedRows[r] = true ↔ held.OnTrail root trail r
  isTrail : held.Trail (fun j => s.reachedBy[j]) root trail
  reached : held.ReachedFrom (fun j => s.reachedBy[j]) root trail sink

theorem IsScan.endsAt [Cost.LawfulInfinity α] (h : IsScan held root none trail s)
    {j k : Fin m} (hj : j = s.unscanned.order[k])
    (hd : (s.distance[j] == Cost.infinity) = false) (hfree : held.rowOf[j] = none) :
    EndsAt held root trail j (s.scan k) where
  free := hfree
  column := h.column_scan hj
  row r := by
    rw [← h.row r]
    simp [PathSearch.scan]
  isTrail := h.isTrail
  reached := h.reachedFrom hd

end PathSearch

end LinearAssignment
