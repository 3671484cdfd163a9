import LinearAssignment.Exact
import LinearAssignment.Proofs.Assignment
import Mathlib.Algebra.BigOperators.Fin
import Mathlib.Tactic.Push

/-! The extension of a matrix in exact arithmetic. Its assignments stand for the matchings of the
matrix itself, complete or not: an assignment costs as much more than leaving everything unmatched
as the pairs that it has inside the matrix cost beyond the limit. -/
namespace LinearAssignment.CostMatrix
open scoped BigOperators

variable {bound : ℚ} {bids n m : ℕ} {cost : CostMatrix (Exact bound bids) n m} {limit : ℚ}
  {P : Finset (Fin (n + m) × Fin (n + m))} {Q : Finset (Fin n × Fin m)}

/-- What the pairs cost beyond a limit for each of them. -/
def excess (cost : CostMatrix (Exact bound bids) n m) (limit : ℚ) (Q : Finset (Fin n × Fin m)) :
    ℚ :=
  ∑ q ∈ Q, (cost[q.1][q.2].value - limit)

theorem excess_eq (cost : CostMatrix (Exact bound bids) n m) (limit : ℚ)
    (Q : Finset (Fin n × Fin m)) : cost.excess limit Q = cost.worth Q - Q.card * limit := by
  rw [excess, Finset.sum_sub_distrib, Finset.sum_const, nsmul_eq_mul, worth]

def IsGated (cost : CostMatrix (Exact bound bids) n m) (limit : ℚ) : Prop :=
  ∀ (i : Fin n) (j : Fin m), Cost.isFinite cost[i][j] = true → cost[i][j].value < limit

def extended (cost : CostMatrix (Exact bound bids) n m) (limit : ℚ) :
    CostMatrix (Exact bound bids) (n + m) (n + m) :=
  cost.extend (.number limit) (.number (limit / 2))

section entries

def place (q : Fin n × Fin m) : Fin (n + m) × Fin (n + m) :=
  (q.1.castAdd m, q.2.castLE (Nat.le_add_left m n))

theorem place_injective : Function.Injective (place : Fin n × Fin m → _) := by
  rintro ⟨i, j⟩ ⟨i', j'⟩ h
  simp only [place, Prod.mk.injEq, Fin.ext_iff, Fin.val_castAdd, Fin.val_castLE] at h
  exact Prod.ext (Fin.ext h.1) (Fin.ext h.2)

/-- A row or column of the matrix itself brings in half of the limit, a dummy nothing. -/
def share (limit : ℚ) (k : ℕ) {l : ℕ} (a : Fin l) : ℚ := if a.val < k then limit / 2 else 0

def beyond (cost : CostMatrix (Exact bound bids) n m) (limit : ℚ)
    (p : Fin (n + m) × Fin (n + m)) : ℚ :=
  if h : p.1.val < n ∧ p.2.val < m then
    if Cost.isFinite cost[(⟨p.1, h.1⟩ : Fin n)][(⟨p.2, h.2⟩ : Fin m)] then
      cost[(⟨p.1, h.1⟩ : Fin n)][(⟨p.2, h.2⟩ : Fin m)].value - limit
    else 0
  else 0

theorem beyond_place (q : Fin n × Fin m) : cost.beyond limit (place q) =
    if Cost.isFinite cost[q.1][q.2] then cost[q.1][q.2].value - limit else 0 := by
  rw [beyond, dif_pos ⟨q.1.isLt, q.2.isLt⟩]
  rfl

theorem clipEntry_eq {x : Exact bound bids}
    (h : Cost.isFinite x = true → x.value < limit) :
    clipEntry (.number limit) x =
      .number (limit + if Cost.isFinite x then x.value - limit else 0) := by
  unfold clipEntry
  by_cases hx : Cost.isFinite x = true
  · obtain ⟨q, rfl⟩ := Exact.isFinite_iff.mp hx
    have hlt : (Exact.number q : Exact bound bids) < .number limit := Exact.number_lt.mpr (h hx)
    simp only [hx, hlt, decide_true, Bool.and_self, if_true, Exact.value, add_sub_cancel]
  · simp only [hx, Bool.false_and, if_false, add_zero, Bool.false_eq_true]

theorem getElem_extended (h : cost.IsGated limit) (a b : Fin (n + m)) :
    (cost.extended limit)[a][b] =
      .number (share limit n a + share limit m b + cost.beyond limit (a, b)) := by
  rw [extended, extend, getElem_ofFn]
  unfold share beyond
  by_cases ha : a.val < n <;> by_cases hb : b.val < m
  · rw [dif_pos ha, dif_pos hb, if_pos ha, if_pos hb, dif_pos ⟨ha, hb⟩, add_halves]
    exact clipEntry_eq (h _ _)
  · rw [dif_pos ha, dif_neg hb, if_pos ha, if_neg hb, dif_neg fun h => hb h.2, add_zero, add_zero]
  · rw [dif_neg ha, if_pos hb, if_neg ha, if_pos hb, dif_neg fun h => ha h.1, zero_add, add_zero]
  · rw [dif_neg ha, if_neg hb, if_neg ha, if_neg hb, dif_neg fun h => ha h.1, zero_add, add_zero]
    rfl

theorem isFinite_extended (h : cost.IsGated limit) (a b : Fin (n + m)) :
    Cost.isFinite (cost.extended limit)[a][b] = true := by
  rw [getElem_extended h]
  exact Exact.isFinite_iff.mpr ⟨_, rfl⟩

theorem hasInvalidEntry_extended (h : cost.IsGated limit) :
    (cost.extended limit).hasInvalidEntry = false := by
  rw [Bool.eq_false_iff, ne_eq, hasInvalidEntry_iff]
  rintro ⟨a, b, hab⟩
  rw [getElem_extended h, Exact.isInvalid_iff] at hab
  simp at hab

end entries

section inner

/-- The pairs that an assignment of the extension has inside the matrix, where they are not
forbidden. -/
def inner (cost : CostMatrix (Exact bound bids) n m) (P : Finset (Fin (n + m) × Fin (n + m))) :
    Finset (Fin n × Fin m) :=
  Finset.univ.filter fun q => place q ∈ P ∧ Cost.isFinite cost[q.1][q.2] = true

theorem mem_inner {q : Fin n × Fin m} :
    q ∈ cost.inner P ↔ place q ∈ P ∧ Cost.isFinite cost[q.1][q.2] = true := by
  simp [inner]

theorem isMatching_inner {ext : CostMatrix (Exact bound bids) (n + m) (n + m)}
    (h : ext.IsMatching P) : cost.IsMatching (cost.inner P) where
  rows q hq q' hq' he := by
    refine place_injective (h.rows (mem_inner.mp hq).1 (mem_inner.mp hq').1 ?_)
    exact congrArg (Fin.castAdd m) he
  columns q hq q' hq' he := by
    refine place_injective (h.columns (mem_inner.mp hq).1 (mem_inner.mp hq').1 ?_)
    exact congrArg (Fin.castLE (Nat.le_add_left m n)) he
  finite q hq := (mem_inner.mp hq).2

theorem sum_beyond (cost : CostMatrix (Exact bound bids) n m) (limit : ℚ)
    (P : Finset (Fin (n + m) × Fin (n + m))) :
    ∑ p ∈ P, cost.beyond limit p = cost.excess limit (cost.inner P) := by
  have hsub : (cost.inner P).image place ⊆ P := by
    intro p hp
    obtain ⟨q, hq, rfl⟩ := Finset.mem_image.mp hp
    exact (mem_inner.mp hq).1
  have hzero : ∀ p ∈ P, p ∉ (cost.inner P).image place → cost.beyond limit p = 0 := by
    intro p hp hout
    unfold beyond
    split
    next hlt =>
      refine if_neg fun hfinite => hout ?_
      let q : Fin n × Fin m := (⟨p.1, hlt.1⟩, ⟨p.2, hlt.2⟩)
      have hplace : place q = p := rfl
      have hq : q ∈ cost.inner P := mem_inner.mpr ⟨hplace.symm ▸ hp, hfinite⟩
      exact Finset.mem_image.mpr ⟨q, hq, hplace⟩
    next => rfl
  calc ∑ p ∈ P, cost.beyond limit p
      = ∑ p ∈ (cost.inner P).image place, cost.beyond limit p :=
        (Finset.sum_subset hsub hzero).symm
    _ = ∑ q ∈ cost.inner P, cost.beyond limit (place q) :=
        Finset.sum_image fun q _ q' _ he => place_injective he
    _ = cost.excess limit (cost.inner P) := Finset.sum_congr rfl fun q hq => by
        rw [beyond_place, if_pos (mem_inner.mp hq).2]

theorem sum_share (limit : ℚ) (k l : ℕ) :
    ∑ a : Fin (k + l), share limit k a = k * (limit / 2) := by
  simp [Fin.sum_univ_add, share]

theorem sum_share_column (limit : ℚ) (n m : ℕ) :
    ∑ b : Fin (n + m), share limit m b = m * (limit / 2) := by
  rw [← sum_share limit m n]
  exact Fintype.sum_equiv (finCongr (Nat.add_comm n m)) _ _ fun b => rfl

/-- The total of an assignment of the extension: half of the limit for each row and column, and the
excess of its pairs inside the matrix. -/
theorem worth_extended (h : cost.IsGated limit) (hP : (cost.extended limit).IsAssignment P) :
    (cost.extended limit).worth P =
      (n + m : ℕ) * (limit / 2) + cost.excess limit (cost.inner P) := by
  have hcard : P.card = Fintype.card (Fin (n + m)) := by
    rw [hP.card, min_self, Fintype.card_fin]
  calc (cost.extended limit).worth P
      = ∑ p ∈ P, (share limit n p.1 + share limit m p.2 + cost.beyond limit p) :=
        Finset.sum_congr rfl fun p _ => by rw [getElem_extended h]; rfl
    _ = ∑ a : Fin (n + m), share limit n a + ∑ b : Fin (n + m), share limit m b +
          cost.excess limit (cost.inner P) := by
        rw [Finset.sum_add_distrib, Finset.sum_add_distrib, sum_beyond,
          sum_side_of_card hP.rows hcard, sum_side_of_card hP.columns hcard]
    _ = (n + m : ℕ) * (limit / 2) + cost.excess limit (cost.inner P) := by
        rw [sum_share, sum_share_column]
        push_cast
        ring

end inner

section completion

/-- How a matching is completed in the extension: an unmatched row takes its dummy column, an
unmatched column its dummy row, and the dummies of a pair take each other. -/
inductive Completes (Q : Finset (Fin n × Fin m)) (a b : ℕ) : Prop where
  | pair {q : Fin n × Fin m} (matched : q ∈ Q) (row : a = q.1) (column : b = q.2)
  | row {i : Fin n} (unmatched : ∀ q ∈ Q, q.1 ≠ i) (row : a = i) (dummy : b = m + i)
  | column {j : Fin m} (unmatched : ∀ q ∈ Q, q.2 ≠ j) (dummy : a = n + j) (column : b = j)
  | dummies {q : Fin n × Fin m} (matched : q ∈ Q) (row : a = n + q.2) (column : b = m + q.1)

namespace Completes

variable {a b c : ℕ}

theorem swap (h : Completes Q a b) : Completes (Q.image Prod.swap) b a := by
  cases h with
  | pair hq ha hb => exact .pair (Finset.mem_image_of_mem _ hq) hb ha
  | dummies hq ha hb => exact .dummies (Finset.mem_image_of_mem _ hq) hb ha
  | row hi ha hb =>
    refine .column (fun r hr => ?_) hb ha
    obtain ⟨q, hq, rfl⟩ := Finset.mem_image.mp hr
    exact hi q hq
  | column hj ha hb =>
    refine .row (fun r hr => ?_) hb ha
    obtain ⟨q, hq, rfl⟩ := Finset.mem_image.mp hr
    exact hj q hq

theorem column_unique (hrows : Set.InjOn Prod.fst (Q : Set (Fin n × Fin m)))
    (hcolumns : Set.InjOn Prod.snd (Q : Set (Fin n × Fin m))) (hb : Completes Q a b)
    (hc : Completes Q a c) : b = c := by
  rcases hb with ⟨hq, ha, hb⟩ | ⟨hi, ha, hb⟩ | ⟨hj, ha, hb⟩ | ⟨hq, ha, hb⟩ <;>
    rcases hc with ⟨hr, ha', hc⟩ | ⟨hi', ha', hc⟩ | ⟨hj', ha', hc⟩ | ⟨hr, ha', hc⟩
  all_goals try omega
  · rw [hb, hc, hrows hq hr (Fin.ext (ha.symm.trans ha'))]
  · exact absurd (Fin.ext (ha.symm.trans ha')) (hi' _ hq)
  · exact absurd (Fin.ext (ha'.symm.trans ha)) (hi _ hr)
  · exact absurd (Fin.ext (by omega)) (hj _ hr)
  · exact absurd (Fin.ext (by omega)) (hj' _ hq)
  · rw [hb, hc, hcolumns hq hr (Fin.ext (by omega))]

theorem exists_column (Q : Finset (Fin n × Fin m)) (a : Fin (n + m)) :
    ∃ b : Fin (n + m), Completes Q a b := by
  have ha := a.isLt
  by_cases han : a.val < n
  · by_cases hq : ∃ q ∈ Q, q.1 = ⟨a, han⟩
    · obtain ⟨q, hq, he⟩ := hq
      exact ⟨⟨q.2, by omega⟩, .pair hq (congrArg Fin.val he).symm rfl⟩
    · push Not at hq
      exact ⟨⟨m + a, by omega⟩, .row hq rfl rfl⟩
  · have ham : a.val - n < m := by omega
    have hna : a.val = n + (a.val - n) := by omega
    by_cases hq : ∃ q ∈ Q, q.2 = ⟨a - n, ham⟩
    · obtain ⟨q, hq, he⟩ := hq
      exact ⟨⟨m + q.1, by omega⟩, .dummies hq (by rw [he]; exact hna) rfl⟩
    · push Not at hq
      exact ⟨⟨a - n, by omega⟩, .column hq hna rfl⟩

end Completes

open Classical in
noncomputable def completion (Q : Finset (Fin n × Fin m)) :
    Finset (Fin (n + m) × Fin (n + m)) :=
  Finset.univ.filter fun p => Completes Q p.1 p.2

theorem mem_completion {p : Fin (n + m) × Fin (n + m)} :
    p ∈ completion Q ↔ Completes Q p.1 p.2 := by
  simp [completion]

theorem isAssignment_completion (h : cost.IsGated limit) (hQ : cost.IsMatching Q) :
    (cost.extended limit).IsAssignment (completion Q) := by
  have hrows : Set.InjOn Prod.fst (completion Q : Set (Fin (n + m) × Fin (n + m))) := by
    rintro ⟨a, b⟩ hp ⟨a', b'⟩ hp' (rfl : a = a')
    have hb : Completes Q a b := mem_completion.mp hp
    have hb' : Completes Q a b' := mem_completion.mp hp'
    rw [Fin.ext (hb.column_unique hQ.rows hQ.columns hb')]
  have hcolumns : Set.InjOn Prod.snd (completion Q : Set (Fin (n + m) × Fin (n + m))) := by
    rintro ⟨a, b⟩ hp ⟨a', b'⟩ hp' (rfl : b = b')
    have ha : Completes Q a b := mem_completion.mp hp
    have ha' : Completes Q a' b := mem_completion.mp hp'
    have hswap := hQ.transpose
    rw [Fin.ext (ha.swap.column_unique hswap.rows hswap.columns ha'.swap)]
  refine ⟨⟨hrows, hcolumns, fun p _ => isFinite_extended h p.1 p.2⟩, ?_⟩
  have himage : (completion Q).image Prod.fst = (Finset.univ : Finset (Fin (n + m))) := by
    refine Finset.eq_univ_of_forall fun a => ?_
    obtain ⟨b, hb⟩ := Completes.exists_column Q a
    exact Finset.mem_image.mpr ⟨(a, b), mem_completion.mpr hb, rfl⟩
  rw [← Finset.card_image_of_injOn hrows, himage, Finset.card_univ, Fintype.card_fin, min_self]

theorem inner_completion (hQ : cost.IsMatching Q) : cost.inner (completion Q) = Q := by
  ext q
  rw [mem_inner, mem_completion]
  constructor
  · rintro ⟨hq, -⟩
    have hrow : (place q).1.val = q.1 := rfl
    have hcolumn : (place q).2.val = q.2 := rfl
    cases hq with
    | @pair r hr ha hb =>
      obtain rfl : q = r := Prod.ext (Fin.ext (by omega)) (Fin.ext (by omega))
      exact hr
    | row => omega
    | column => omega
    | dummies => omega
  · exact fun hq => ⟨.pair hq rfl rfl, hQ.finite q hq⟩

end completion

/-- The matching inside an optimal assignment of the extension has the least excess. -/
theorem excess_inner_le (h : cost.IsGated limit) (hP : (cost.extended limit).IsAssignment P)
    (hbest : ∀ P', (cost.extended limit).IsAssignment P' →
      (cost.extended limit).worth P ≤ (cost.extended limit).worth P')
    (hQ : cost.IsMatching Q) : cost.excess limit (cost.inner P) ≤ cost.excess limit Q := by
  have hassignment := isAssignment_completion h hQ
  have hle := hbest _ hassignment
  rw [worth_extended h hP, worth_extended h hassignment, inner_completion hQ] at hle
  exact le_of_add_le_add_left hle

end LinearAssignment.CostMatrix
