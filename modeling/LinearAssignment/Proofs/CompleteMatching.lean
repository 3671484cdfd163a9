import LinearAssignment.Certificate
import LinearAssignment.Proofs.Assignment
import LinearAssignment.Proofs.Potential
import Mathlib.Data.Fintype.Prod
import Mathlib.Data.List.FinRange

/-! Matchings of all rows. If potentials support one of them, its pairs are an assignment and
the potentials certify it. -/
namespace LinearAssignment.Matching

variable {n m : ℕ} {s : Matching n m}

def pairs (s : Matching n m) : Finset (Fin n × Fin m) :=
  Finset.univ.filter fun p => s.columnOf[p.1] = some p.2

theorem mem_pairs {i : Fin n} {j : Fin m} : (i, j) ∈ s.pairs ↔ s.columnOf[i] = some j := by
  simp [pairs]

theorem injOn_fst_pairs : Set.InjOn Prod.fst (s.pairs : Set (Fin n × Fin m)) := by
  rintro ⟨i, j⟩ hp ⟨i', j'⟩ hq (rfl : i = i')
  have hj := (mem_pairs.mp hp).symm.trans (mem_pairs.mp hq)
  rw [Option.some.inj hj]

section total

def pairList (s : Matching n m) : List (Fin n × Fin m) :=
  (List.finRange n).filterMap fun i => s.columnOf[i].map fun j => (i, j)

theorem mem_pairList {p : Fin n × Fin m} : p ∈ s.pairList ↔ s.columnOf[p.1] = some p.2 := by
  simp only [pairList, List.mem_filterMap, List.mem_finRange, true_and, Option.map_eq_some_iff]
  constructor
  · rintro ⟨i, j, hj, rfl⟩
    exact hj
  · intro hp
    exact ⟨p.1, p.2, hp, rfl⟩

theorem toFinset_pairList : s.pairList.toFinset = s.pairs := by
  ext p
  rw [List.mem_toFinset, mem_pairList, ← mem_pairs]

theorem nodup_pairList : s.pairList.Nodup := by
  refine (List.nodup_finRange n).filterMap fun i i' p hp hp' => ?_
  simp only [Option.mem_def, Option.map_eq_some_iff] at hp hp'
  obtain ⟨j, -, rfl⟩ := hp
  obtain ⟨j', -, he⟩ := hp'
  exact (congrArg Prod.fst he).symm

theorem matched_eq_map {α : Type} (cost : CostMatrix α n m) (s : Matching n m) :
    cost.matched s.columnOf = s.pairList.map fun p => cost[p.1][p.2] := by
  simp only [CostMatrix.matched, pairList, List.map_filterMap, Option.map_map, Function.comp_def]

theorem total_eq {bound : ℚ} {bids : ℕ} {cost : CostMatrix (Exact bound bids) n m}
    (h : ∀ p ∈ s.pairs, Cost.isFinite cost[p.1][p.2] = true) :
    cost.total s.columnOf = .number (cost.worth s.pairs) := by
  have hfinite : ∀ x ∈ cost.matched s.columnOf, Cost.isFinite x = true := by
    rw [matched_eq_map]
    intro x hx
    obtain ⟨p, hp, rfl⟩ := List.mem_map.mp hx
    exact h p (toFinset_pairList ▸ List.mem_toFinset.mpr hp)
  rw [CostMatrix.total, Exact.sum_eq hfinite, matched_eq_map, List.map_map, CostMatrix.worth,
    ← toFinset_pairList, List.sum_toFinset _ nodup_pairList]
  rfl

end total

structure IsComplete (s : Matching n m) : Prop where
  consistent : s.Consistent
  isMatched : ∀ i, s.IsMatched i

namespace IsComplete

theorem columnOf_iff (h : s.IsComplete) {i : Fin n} {j : Fin m} :
    s.columnOf[i] = some j ↔ s.rowOf[j] = some i := by
  refine ⟨fun hi => ?_, fun hj => h.consistent hj⟩
  obtain ⟨k, hk⟩ := h.isMatched i
  rwa [← Option.some.inj ((h.consistent hk).symm.trans hi)]

theorem injOn_snd_pairs (h : s.IsComplete) :
    Set.InjOn Prod.snd (s.pairs : Set (Fin n × Fin m)) := by
  rintro ⟨i, j⟩ hp ⟨i', j'⟩ hq (rfl : j = j')
  have hi := h.columnOf_iff.mp (mem_pairs.mp hp)
  have hi' := h.columnOf_iff.mp (mem_pairs.mp hq)
  rw [Option.some.inj (hi.symm.trans hi')]

theorem exists_columns (h : s.IsComplete) :
    ∃ f : Fin n → Fin m, Function.Injective f ∧ ∀ i : Fin n, s.columnOf[i] = some (f i) := by
  choose f hf using h.isMatched
  refine ⟨f, fun i i' he => ?_, fun i => h.consistent (hf i)⟩
  exact Option.some.inj ((hf i).symm.trans (he ▸ hf i'))

theorem rowOf_eq_none_iff (h : s.IsComplete) {f : Fin n → Fin m}
    (hf : ∀ i : Fin n, s.columnOf[i] = some (f i)) (j : Fin m) :
    s.rowOf[j] = none ↔ ∀ i, f i ≠ j := by
  constructor
  · rintro hj i rfl
    rw [h.columnOf_iff.mp (hf i)] at hj
    exact absurd hj (by simp)
  · intro hne
    refine Option.eq_none_iff_forall_ne_some.mpr fun i hi => hne i ?_
    exact Option.some.inj ((hf i).symm.trans (h.consistent hi))

theorem card_free (h : s.IsComplete) :
    (Finset.univ.filter fun j : Fin m => s.rowOf[j] = none).card = m - n := by
  obtain ⟨f, hinj, hf⟩ := h.exists_columns
  have hfree : (Finset.univ.filter fun j : Fin m => s.rowOf[j] = none) =
      (Finset.univ.image f)ᶜ := by
    ext j
    simp [h.rowOf_eq_none_iff hf]
  rw [hfree, Finset.card_compl, Finset.card_image_of_injective _ hinj, Finset.card_univ,
    Fintype.card_fin, Fintype.card_fin]

theorem pairs_transpose {α : Type} {s : DualMatching α n m} (h : s.IsComplete) :
    s.transpose.pairs = s.pairs.image Prod.swap := by
  ext ⟨j, i⟩
  rw [mem_pairs]
  change s.rowOf[j] = some i ↔ _
  rw [← h.columnOf_iff, ← mem_pairs]
  constructor
  · exact fun hp => Finset.mem_image.mpr ⟨(i, j), hp, rfl⟩
  · intro himage
    obtain ⟨⟨i', j'⟩, hp, he⟩ := Finset.mem_image.mp himage
    obtain ⟨rfl, rfl⟩ := Prod.mk.inj he
    exact hp

theorem card_pairs (h : s.IsComplete) : s.pairs.card = n := by
  obtain ⟨f, _, hf⟩ := h.exists_columns
  have himage : s.pairs = Finset.univ.image fun i => (i, f i) := by
    ext ⟨i, j⟩
    rw [mem_pairs, hf, Option.some.injEq]
    simp
  rw [himage, Finset.card_image_of_injective _ fun i i' he => congrArg Prod.fst he,
    Finset.card_univ, Fintype.card_fin]

variable {bound : ℚ} {bids : ℕ} {cost : CostMatrix (Exact bound bids) n m}
  {c : Fin n → Fin m → WithTop ℚ} {u : Fin n → ℚ} {v : Fin m → ℚ}

theorem isAssignment (h : s.IsComplete) (hnm : n ≤ m)
    (hc : ∀ (i : Fin n) (j : Fin m), cost[i][j] = .ofTop (c i j)) (hu : s.IsSupported c u v) :
    cost.IsAssignment s.pairs where
  rows := injOn_fst_pairs
  columns := h.injOn_snd_pairs
  finite := by
    rintro ⟨i, j⟩ hp
    have hi := h.columnOf_iff.mp (mem_pairs.mp hp)
    change Cost.isFinite cost[i][j] = true
    rw [hc, Exact.isFinite_ofTop, hu.tight hi]
    exact WithTop.coe_ne_top
  card := by rw [h.card_pairs, min_eq_left hnm]

theorem isCertified (h : s.IsComplete) (hnm : n ≤ m)
    (hc : ∀ (i : Fin n) (j : Fin m), cost[i][j] = .ofTop (c i j)) (hu : s.IsSupported c u v)
    (hv : s.FreeAtZero v) : cost.IsCertified s.pairs u v where
  tight := by
    rintro ⟨i, j⟩ hp
    change cost[i][j] = _
    rw [hc, hu.tight (h.columnOf_iff.mp (mem_pairs.mp hp))]
    rfl
  below i j q hq := by
    rw [hc, Exact.ofTop_eq_number] at hq
    have hle := hu.below (h.isMatched i) j
    rw [hq] at hle
    exact WithTop.coe_le_coe.mp hle
  column_nonpos _ := hv.nonpos
  column_free _ j hj := by
    refine hv.free j (Option.eq_none_iff_forall_ne_some.mpr fun i hi => ?_)
    exact hj i (mem_pairs.mpr (h.consistent hi))
  row_nonpos hmn := absurd hmn (by omega)
  row_free hmn := absurd hmn (by omega)

end IsComplete

end LinearAssignment.Matching
