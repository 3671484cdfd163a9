import LinearAssignment.Cost
import LinearAssignment.Proofs.Threshold.Limit

/-! The balance of the extension in exact arithmetic. Whichever rows and columns, real ones or
dummies, an assignment of the extension puts together, its total is half of the limit for each row
and column of the matrix and the excess of the matches that are split off from it. Every matching
of the matrix is split off from some assignment. -/
namespace LinearAssignment.CostMatrix

/-- Pairs that put every row of a square matrix to a column of its own, in any order. -/
structure IsOneToOne {l : ℕ} (ps : List (Fin l × Fin l)) : Prop where
  rows : (ps.map Prod.fst).Nodup
  columns : (ps.map Prod.snd).Nodup
  length_eq : ps.length = l

variable {bound : ℚ} {bids n m : ℕ} {cost : CostMatrix (Exact bound bids) n m} {limit : ℚ}
  {ps : List (Fin (n + m) × Fin (n + m))} {Q : Finset (Fin n × Fin m)}

namespace IsOneToOne

theorem isAssignment (hps : IsOneToOne ps) (h : cost.IsGated limit) :
    (cost.extended limit).IsAssignment ps.toFinset where
  rows p hp q hq he :=
    List.inj_on_of_nodup_map hps.rows (List.mem_toFinset.mp hp) (List.mem_toFinset.mp hq) he
  columns p hp q hq he :=
    List.inj_on_of_nodup_map hps.columns (List.mem_toFinset.mp hp) (List.mem_toFinset.mp hq) he
  finite p _ := isFinite_extended h p.1 p.2
  card := by rw [List.toFinset_card_of_nodup (.of_map _ hps.rows), hps.length_eq, min_self]

theorem sum_eq (hps : IsOneToOne ps) (h : cost.IsGated limit) :
    Cost.sum (ps.map fun p => (cost.extended limit)[p.1][p.2]) =
      .number ((cost.extended limit).worth ps.toFinset) := by
  have hfinite : ∀ x ∈ ps.map fun p => (cost.extended limit)[p.1][p.2],
      Cost.isFinite x = true := by
    intro x hx
    obtain ⟨p, -, rfl⟩ := List.mem_map.mp hx
    exact isFinite_extended h p.1 p.2
  rw [Exact.sum_eq hfinite, worth, List.sum_toFinset _ (.of_map _ hps.rows), List.map_map]
  rfl

/-- The matches that are split off from an assignment of the extension are its pairs inside the
matrix. -/
theorem lists_split_inner (hps : IsOneToOne ps) :
    (cost.split (ps.map numbers)).Lists (cost.inner ps.toFinset) := by
  refine lists_split ((List.Nodup.of_map _ hps.rows).map numbers_injective) fun q => ?_
  rw [mem_inner, List.mem_toFinset, ← numbers_place q, List.mem_map_of_injective numbers_injective]

end IsOneToOne

theorem IsAssignment.isOneToOne_toList {P : Finset (Fin (n + m) × Fin (n + m))}
    (hP : (cost.extended limit).IsAssignment P) : IsOneToOne P.toList where
  rows := P.nodup_toList.map_on fun p hp q hq he =>
    hP.rows (Finset.mem_toList.mp hp) (Finset.mem_toList.mp hq) he
  columns := P.nodup_toList.map_on fun p hp q hq he =>
    hP.columns (Finset.mem_toList.mp hp) (Finset.mem_toList.mp hq) he
  length_eq := by rw [Finset.length_toList, hP.card, min_self]

/-- At a limit of either sign, the total of every assignment of the extension is half of the limit
for each row and column and the excess of the matches that are split off; and every matching of the
matrix is split off from some assignment. -/
theorem total_extendAt (h : cost.IsGated limit) :
    (∀ ps : List (Fin (n + m) × Fin (n + m)), IsOneToOne ps →
      ∃ S : Finset (Fin n × Fin m), (cost.split (ps.map numbers)).Lists S ∧
        Cost.sum (ps.map fun p =>
            (cost.extendAt (.number limit : Exact bound bids))[p.1][p.2]) =
          .number ((n + m : ℕ) * (limit / 2) + ∑ q ∈ S, (cost[q.1][q.2].value - limit))) ∧
    ∀ Q : Finset (Fin n × Fin m), cost.IsMatching Q →
      ∃ ps : List (Fin (n + m) × Fin (n + m)), IsOneToOne ps ∧
        (cost.split (ps.map numbers)).Lists Q := by
  constructor
  · intro ps hps
    refine ⟨cost.inner ps.toFinset, hps.lists_split_inner, ?_⟩
    rw [extendAt_number, hps.sum_eq h, worth_extended h (hps.isAssignment h)]
    rfl
  · intro Q hQ
    have hone := (isAssignment_completion h hQ).isOneToOne_toList
    have hlists : (cost.split (_ : List _)).Lists _ := hone.lists_split_inner
    rw [Finset.toList_toFinset, inner_completion hQ] at hlists
    exact ⟨_, hone, hlists⟩

def gain : CostMatrix (Exact 1 1) 1 2 :=
  .ofFn fun _ j => if j = .last 1 then Cost.infinity else .number (-3)

/-- At a limit below zero, the forbidden pair leaves half of it for each row and column, and the
gain is split off from some assignment. -/
theorem total_extendAt_gain : gain.IsGated (-1) ∧
    (∃ S : Finset (Fin 1 × Fin 2),
      (gain.split ([((0 : Fin 3), (1 : Fin 3)), (1, 0), (2, 2)].map numbers)).Lists S ∧
        Cost.sum ([((0 : Fin 3), (1 : Fin 3)), (1, 0), (2, 2)].map fun p =>
            (gain.extendAt (.number (-1) : Exact 1 1))[p.1][p.2]) =
          .number ((1 + 2 : ℕ) * (-1 / 2) + ∑ q ∈ S, (gain[q.1][q.2].value - -1))) ∧
    ∃ ps : List (Fin 3 × Fin 3), IsOneToOne ps ∧
      (gain.split (ps.map numbers)).Lists ({(0, 0)} : Finset (Fin 1 × Fin 2)) := by
  have hgated : gain.IsGated (-1) := by
    intro i j h
    rw [gain, getElem_ofFn] at h ⊢
    split_ifs at h ⊢
    · simp [Exact.isFinite_iff, Exact.infinity_eq, Exact.ofTop_top] at h
    · norm_num [Exact.value]
  have hgain : gain.IsMatching {(0, 0)} := by
    refine ⟨by simp, by simp, fun q hq => ?_⟩
    obtain rfl := Finset.mem_singleton.mp hq
    decide +kernel
  obtain ⟨htotal, hsplit⟩ := total_extendAt hgated
  exact ⟨hgated, htotal _ ⟨by decide, by decide, rfl⟩, hsplit _ hgain⟩

end LinearAssignment.CostMatrix
