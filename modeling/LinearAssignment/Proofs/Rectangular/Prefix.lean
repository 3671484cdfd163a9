import LinearAssignment.Proofs.CompleteMatching
import LinearAssignment.Proofs.Rectangular.Completion
import Mathlib.Algebra.BigOperators.Ring.Finset

/-! Every row prefix is matched at least cost. The potentials of the rows that are still to be
matched stay at zero and those of the columns that are still free as well, so the sum of all
potentials is the total of the matching, and a search raises it by the length of its path. -/
namespace LinearAssignment
open scoped BigOperators

namespace Matching

variable {n m : ℕ} {s : Matching n m} {u : Fin n → ℚ} {v : Fin m → ℚ}
  {reachedBy : Fin m → Option (Fin n)} {root : Fin n} {trail : List (Fin m)} {d : Fin m → ℚ}
  {length : ℚ}

/-- The root rises by the length of the path, and a row on the trail by as much as its column
falls. -/
theorem raisedRow_eq_add (hs : s.Consistent) (hroot : ¬ s.IsMatched root) (i : Fin n) :
    s.raisedRow u root trail d length i = u i + ((if i = root then length else 0) +
      ∑ k ∈ trail.toFinset, if s.rowOf[k] = some i then length - d k else 0) := by
  by_cases hon : s.OnTrail root trail i
  · rcases hon with rfl | ⟨k, hk, hi⟩
    · have hzero : ∀ k ∈ trail.toFinset,
          (if s.rowOf[k] = some i then length - d k else 0) = 0 := fun k _ =>
        if_neg fun hk => hroot ⟨k, hk⟩
      rw [raisedRow, if_pos rfl, if_pos rfl, Finset.sum_eq_zero hzero, add_zero]
    · have hne : i ≠ root := fun he => hroot ⟨k, he ▸ hi⟩
      have hone : ∑ k' ∈ trail.toFinset, (if s.rowOf[k'] = some i then length - d k' else 0) =
          length - d k := by
        rw [Finset.sum_eq_single_of_mem k (List.mem_toFinset.mpr hk), if_pos hi]
        intro k' _ hk'
        exact if_neg fun hi' => hk' (hs.eq_of_rowOf hi' hi)
      rw [raisedRow_of_rowAt hs hroot (.inr ⟨k, hk, hi, rfl⟩), hone, if_neg hne, zero_add]
  · have hzero : ∀ k ∈ trail.toFinset,
        (if s.rowOf[k] = some i then length - d k else 0) = 0 := fun k hk =>
      if_neg fun hi => hon (.inr ⟨k, List.mem_toFinset.mp hk, hi⟩)
    rw [raisedRow_of_not_onTrail hon, if_neg fun he => hon (.inl he), Finset.sum_eq_zero hzero,
      add_zero, add_zero]

/-- A search raises the sum of all potentials by the length of its path. -/
theorem sum_raisedRow_add_sum_loweredColumn (hs : s.Consistent) (hroot : ¬ s.IsMatched root)
    (htrail : s.Trail reachedBy root trail) :
    ∑ i, s.raisedRow u root trail d length i + ∑ j, loweredColumn v trail d length j =
      ∑ i, u i + ∑ j, v j + length := by
  have hshared : ∑ i, ∑ k ∈ trail.toFinset, (if s.rowOf[k] = some i then length - d k else 0) =
      ∑ k ∈ trail.toFinset, (length - d k) := by
    rw [Finset.sum_comm]
    apply Finset.sum_congr rfl
    intro k hk
    obtain ⟨i, hi⟩ := htrail.held (List.mem_toFinset.mp hk)
    simp [hi]
  have hcolumn : ∀ j, loweredColumn v trail d length j =
      v j - if j ∈ trail.toFinset then length - d j else 0 := by
    intro j
    by_cases hj : j ∈ trail <;> simp [loweredColumn, hj]
  simp only [raisedRow_eq_add hs hroot, hcolumn, Finset.sum_add_distrib, Finset.sum_sub_distrib,
    Finset.sum_ite_eq', Finset.sum_ite_mem, Finset.univ_inter, Finset.mem_univ, if_true, hshared]
  ring

end Matching

namespace CostMatrix

variable {n m : ℕ} {R : Finset (Fin n)} {P Q : Finset (Fin n × Fin m)}

structure Covers {α : Type} [Cost α] (cost : CostMatrix α n m) (R : Finset (Fin n))
    (P : Finset (Fin n × Fin m)) : Prop extends cost.IsMatching P where
  image : P.image Prod.fst = R

theorem Covers.exists_column {α : Type} [Cost α] {cost : CostMatrix α n m}
    (h : cost.Covers R P) {i : Fin n} (hi : i ∈ R) : ∃ j, (i, j) ∈ P := by
  rw [← h.image] at hi
  obtain ⟨⟨i', j⟩, hp, rfl⟩ := Finset.mem_image.mp hi
  exact ⟨j, hp⟩

theorem Covers.exists_columns {α : Type} [Cost α] {cost : CostMatrix α n m} (h : cost.Covers R P)
    (hR : R.Nonempty) :
    ∃ f : Fin n → Fin m, Set.InjOn f R ∧ ∀ i ∈ R, (i, f i) ∈ P := by
  obtain ⟨i₀, hi₀⟩ := hR
  have hcolumn : ∀ i, ∃ j, i ∈ R → (i, j) ∈ P := by
    intro i
    by_cases hi : i ∈ R
    · obtain ⟨j, hj⟩ := h.exists_column hi
      exact ⟨j, fun _ => hj⟩
    · obtain ⟨j, -⟩ := h.exists_column hi₀
      exact ⟨j, fun hi' => absurd hi' hi⟩
  choose f hf using hcolumn
  refine ⟨f, fun i hi i' hi' he => ?_, hf⟩
  exact congrArg Prod.fst (h.columns (hf i hi) (hf i' hi') he)

variable {bound : ℚ} {bids : ℕ} {cost : CostMatrix (Exact bound bids) n m} {u : Fin n → ℚ}
  {v : Fin m → ℚ}

structure CoversCheapest (cost : CostMatrix (Exact bound bids) n m) (R : Finset (Fin n))
    (P : Finset (Fin n × Fin m)) : Prop extends cost.Covers R P where
  le : ∀ Q, cost.Covers R Q → cost.worth P ≤ cost.worth Q

/-- The potentials of the rows, and those of all columns if none is positive, are worth no more than
any way to match the rows. -/
theorem Covers.sum_le_worth (h : cost.Covers R Q) (hv : ∀ j, v j ≤ 0)
    (hbelow : ∀ i ∈ R, ∀ (j : Fin m) (q : ℚ), cost[i][j] = .number q → u i + v j ≤ q) :
    ∑ i ∈ R, u i + ∑ j, v j ≤ cost.worth Q := by
  have hrow : ∑ i ∈ R, u i = ∑ p ∈ Q, u p.1 := by rw [← h.image, Finset.sum_image h.rows]
  have hcolumn : ∑ j, v j ≤ ∑ p ∈ Q, v p.2 := by
    rw [← Finset.sum_image h.columns]
    exact Finset.sum_le_sum_of_subset_of_nonpos' (Finset.subset_univ _) fun j _ _ => hv j
  calc ∑ i ∈ R, u i + ∑ j, v j ≤ ∑ p ∈ Q, (u p.1 + v p.2) := by
        rw [Finset.sum_add_distrib, hrow]
        exact add_le_add_right hcolumn _
    _ ≤ cost.worth Q := by
        apply Finset.sum_le_sum
        intro p hp
        obtain ⟨q, hq⟩ := Exact.isFinite_iff.mp (h.finite p hp)
        have hi : p.1 ∈ R := h.image ▸ Finset.mem_image_of_mem Prod.fst hp
        simp only [hq, Exact.value]
        exact hbelow p.1 hi p.2 q hq

end CostMatrix

namespace Rectangular

variable {bound : ℚ} {bids n m : ℕ} {cost : CostMatrix (Exact bound bids) n m}
  {c : Fin n → Fin m → WithTop ℚ} {u : Fin n → ℚ} {v : Fin m → ℚ}

def Event.length? {α : Type} : Event α → Option α
  | .augment _ _ length => some length
  | _ => none

namespace Progress

variable {p q : Progress (Exact bound bids) n m} {R : Finset (Fin n)} {total : ℚ} {i : Fin n}

/-- The rows of a set are matched and all others are as they were in the beginning. -/
structure IsPrefix (cost : CostMatrix (Exact bound bids) n m) (c : Fin n → Fin m → WithTop ℚ)
    (u : Fin n → ℚ) (v : Fin m → ℚ) (p : Progress (Exact bound bids) n m) (R : Finset (Fin n))
    (total : ℚ) : Prop extends IsSound cost c u v p.toDualMatching where
  isMatched : ∀ r, p.IsMatched r ↔ r ∈ R
  untouched : ∀ r ∉ R, u r = 0
  sum_eq : ∑ i, u i + ∑ j, v j = total

theorem isPrefix_initial (hc : ∀ (i : Fin n) (j : Fin m), cost[i][j] = .ofTop (c i j)) :
    IsPrefix cost c (fun _ => 0) (fun _ => 0) initial ∅ 0 where
  toIsSound := isSound_initial hc
  isMatched r := iff_of_false (Matching.not_isMatched_empty r) (Finset.notMem_empty r)
  untouched _ _ := rfl
  sum_eq := by simp

def pairsOf (p : Progress (Exact bound bids) n m) (R : Finset (Fin n)) :
    Finset (Fin n × Fin m) :=
  p.pairs.filter fun e => e.1 ∈ R

namespace IsPrefix

theorem not_isMatched (h : IsPrefix cost c u v p R total) (hi : i ∉ R) : ¬ p.IsMatched i :=
  mt (h.isMatched i).mp hi

theorem mem_pairsOf (h : IsPrefix cost c u v p R total) {e : Fin n × Fin m} :
    e ∈ p.pairsOf R ↔ p.rowOf[e.2] = some e.1 := by
  obtain ⟨i, j⟩ := e
  rw [pairsOf, Finset.mem_filter, Matching.mem_pairs, ← h.isMatched]
  constructor
  · rintro ⟨hij, k, hk⟩
    rwa [← Option.some.inj ((h.consistent hk).symm.trans hij)]
  · intro hj
    exact ⟨h.consistent hj, j, hj⟩

theorem covers_pairsOf (h : IsPrefix cost c u v p R total) : cost.Covers R (p.pairsOf R) where
  rows := Matching.injOn_fst_pairs.mono (Finset.coe_subset.mpr (Finset.filter_subset _ _))
  columns := by
    rintro ⟨i, j⟩ he ⟨i', j'⟩ he' (rfl : j = j')
    have hi := h.mem_pairsOf.mp he
    have hi' := h.mem_pairsOf.mp he'
    exact Prod.ext (Option.some.inj (hi.symm.trans hi')) rfl
  finite e he := by
    rw [h.reads.cost, Exact.isFinite_ofTop, h.supported.tight (h.mem_pairsOf.mp he)]
    exact WithTop.coe_ne_top
  image := by
    ext i
    rw [← h.isMatched, Finset.mem_image]
    constructor
    · rintro ⟨e, he, rfl⟩
      exact ⟨e.2, h.mem_pairsOf.mp he⟩
    · rintro ⟨j, hj⟩
      exact ⟨(i, j), h.mem_pairsOf.mpr hj, rfl⟩

/-- Only matched rows and held columns have potentials other than zero, so all of them together are
what the matched pairs cost. -/
theorem worth_pairsOf (h : IsPrefix cost c u v p R total) : cost.worth (p.pairsOf R) = total := by
  have hcovers := h.covers_pairsOf
  have hvalue : ∀ e ∈ p.pairsOf R, cost[e.1][e.2].value = u e.1 + v e.2 := by
    intro e he
    rw [h.reads.cost, h.supported.tight (h.mem_pairsOf.mp he)]
    rfl
  have hrow : ∑ e ∈ p.pairsOf R, u e.1 = ∑ i, u i := by
    rw [← Finset.sum_image hcovers.rows, hcovers.image]
    exact Finset.sum_subset (Finset.subset_univ R) fun i _ hi => h.untouched i hi
  have hcolumn : ∑ e ∈ p.pairsOf R, v e.2 = ∑ j, v j := by
    rw [← Finset.sum_image hcovers.columns]
    refine Finset.sum_subset (Finset.subset_univ _) fun j _ hj => h.freeAtZero.free j ?_
    refine Option.eq_none_iff_forall_ne_some.mpr fun i hi => hj ?_
    exact Finset.mem_image_of_mem Prod.snd (h.mem_pairsOf (e := (i, j)).mpr hi)
  rw [CostMatrix.worth, Finset.sum_congr rfl hvalue, Finset.sum_add_distrib, hrow, hcolumn,
    h.sum_eq]

theorem coversCheapest (h : IsPrefix cost c u v p R total) :
    cost.CoversCheapest R (p.pairsOf R) where
  toCovers := h.covers_pairsOf
  le Q hQ := by
    rw [h.worth_pairsOf, ← h.sum_eq, ← Finset.sum_subset (Finset.subset_univ R)
      fun i _ hi => h.untouched i hi]
    apply hQ.sum_le_worth h.freeAtZero.nonpos
    intro i hi j q hq
    have hle := h.supported.below ((h.isMatched i).mpr hi) j
    rw [h.reads.cost, Exact.ofTop_eq_number] at hq
    rw [hq] at hle
    exact WithTop.coe_le_coe.mp hle

/-- The step of the run: a search that arrives adds its row, at the length of its path. -/
theorem exists_advance (h : IsPrefix cost c u v p R total) (hi : i ∉ R) (hnm : n ≤ m)
    {s : PathSearch (Exact bound bids) n m} {sink : Sink (Exact bound bids) m}
    (hsearch : p.search cost i = .ok (s, some sink)) :
    ∃ u' v' length, sink.length = .number length ∧
      IsPrefix cost c u' v' (p.advance s i sink) (insert i R) (total + length) := by
  have hfree := h.not_isMatched hi
  obtain ⟨r, hr, hends⟩ := search_ends h.toIsSound hfree hnm
  cases hsearch.symm.trans hr
  obtain ⟨trail, d, length, hlength, htrail, hsound, hmatched⟩ :=
    Progress.exists_advance h.toIsSound hfree hends
  refine ⟨_, _, length, hlength, hsound, fun r => ?_, fun r hr => ?_, ?_⟩
  · rw [hmatched, h.isMatched, Finset.mem_insert]
  · obtain ⟨hne, hr⟩ := not_or.mp (mt Finset.mem_insert.mpr hr)
    rw [Matching.raisedRow_of_not_onTrail, h.untouched r hr]
    rintro (he | ⟨k, -, hk⟩)
    · exact hne he
    · exact hr ((h.isMatched r).mp ⟨k, hk⟩)
  · rw [Matching.sum_raisedRow_add_sum_loweredColumn h.consistent hfree htrail, h.sum_eq]

/-- A search that is blocked proves that its row cannot be matched along with the others. -/
theorem not_covers (h : IsPrefix cost c u v p R total) (hi : i ∉ R) (hnm : n ≤ m)
    {s : PathSearch (Exact bound bids) n m} (hsearch : p.search cost i = .ok (s, none)) :
    ¬ ∃ Q, cost.Covers (insert i R) Q := by
  have hfree := h.not_isMatched hi
  obtain ⟨r, hr, hends⟩ := search_ends h.toIsSound hfree hnm
  cases hsearch.symm.trans hr
  rintro ⟨Q, hQ⟩
  obtain ⟨f, hinj, hf⟩ := hQ.exists_columns (Finset.insert_nonempty i R)
  have hrows : ∀ r, r = i ∨ p.IsMatched r → r ∈ insert i R := fun r hr => by
    rwa [Finset.mem_insert, ← h.isMatched]
  obtain ⟨r, hr, htop⟩ := exists_top_of_blocked h.consistent hfree hends (hinj.mono hrows)
  have hfinite := hQ.finite _ (hf r (hrows r hr))
  rw [h.reads.cost, Exact.isFinite_ofTop] at hfinite
  exact hfinite htop

end IsPrefix

theorem notMem_insert {rows : List (Fin n)} (hi : i ∉ rows) (h : ∀ r ∈ i :: rows, r ∉ R) :
    ∀ r ∈ rows, r ∉ insert i R := by
  intro r hr hmem
  rcases Finset.mem_insert.mp hmem with rfl | hmem
  · exact hi hr
  · exact h r (List.mem_cons_of_mem i hr) hmem

inductive Steps (cost : CostMatrix (Exact bound bids) n m) :
    List (Fin n) → Progress (Exact bound bids) n m → List (Event (Exact bound bids)) →
      Progress (Exact bound bids) n m → Prop
  | nil {p : Progress (Exact bound bids) n m} : Steps cost [] p [] p
  | cons {i : Fin n} {p q : Progress (Exact bound bids) n m} {rows s sink events}
      (search : p.search cost i = .ok (s, some sink))
      (rest : Steps cost rows (p.advance s i sink) events q) :
      Steps cost (i :: rows) p (.augment i sink.column sink.length :: events) q

namespace Steps

variable {rows : List (Fin n)} {events : List (Event (Exact bound bids))}

theorem length_eq (h : Steps cost rows p events q) : events.length = rows.length := by
  induction h with
  | nil => rfl
  | cons _ _ ih => simp [ih]

theorem take (h : Steps cost rows p events q) (k : ℕ) :
    ∃ q', Steps cost (rows.take k) p (events.take k) q' := by
  induction h generalizing k with
  | nil => exact ⟨_, by simpa using .nil⟩
  | cons search _ ih =>
    cases k with
    | zero => exact ⟨_, .nil⟩
    | succ k =>
      obtain ⟨q', hq'⟩ := ih k
      exact ⟨q', .cons search hq'⟩

theorem matchRows_append (h : Steps cost rows p events q) (rest : List (Fin n)) :
    matchRows cost (rows ++ rest) p =
      ⟨events ++ (matchRows cost rest q).events, (matchRows cost rest q).outcome⟩ := by
  induction h with
  | nil => rfl
  | cons search _ ih =>
    rw [List.cons_append, matchRows, search, Run.ofExcept_bind]
    dsimp only
    rw [Run.emit_bind, ih]
    rfl

theorem isPrefix (h : Steps cost rows p events q) (hp : IsPrefix cost c u v p R total)
    (hfresh : ∀ i ∈ rows, i ∉ R) (hnodup : rows.Nodup) (hnm : n ≤ m) :
    ∃ (u' : Fin n → ℚ) (v' : Fin m → ℚ) (lengths : List ℚ),
      events.map Event.length? = lengths.map (some ∘ Exact.number) ∧
      IsPrefix cost c u' v' q (R ∪ rows.toFinset) (total + lengths.sum) := by
  -- Induction on the rows: the run keeps what a step keeps, and the lengths of the paths add up.
  induction h generalizing u v R total with
  | nil => exact ⟨u, v, [], rfl, by simpa using hp⟩
  | @cons i p q rows s sink events search _ ih =>
    obtain ⟨hi, hnodup⟩ := List.nodup_cons.mp hnodup
    obtain ⟨u', v', length, hlength, hp'⟩ :=
      hp.exists_advance (hfresh i List.mem_cons_self) hnm search
    obtain ⟨u'', v'', lengths, hlengths, hq⟩ := ih hp' (notMem_insert hi hfresh) hnodup
    refine ⟨u'', v'', length :: lengths, ?_, ?_⟩
    · simp [Event.length?, hlength, hlengths]
    · rw [List.toFinset_cons, List.sum_cons, ← add_assoc, Finset.union_insert,
        ← Finset.insert_union]
      exact hq

end Steps

/-- The run matches rows until all are matched or one is blocked. -/
theorem exists_steps (rows : List (Fin n)) (hp : IsPrefix cost c u v p R total)
    (hfresh : ∀ i ∈ rows, i ∉ R) (hnodup : rows.Nodup) (hnm : n ≤ m) :
    ∃ done rest events q, rows = done ++ rest ∧ Steps cost done p events q ∧
      (rest = [] ∨ ∃ i rest' s, rest = i :: rest' ∧ q.search cost i = .ok (s, none)) := by
  induction rows generalizing p u v R total with
  | nil => exact ⟨[], [], [], p, rfl, .nil, .inl rfl⟩
  | cons i rows ih =>
    obtain ⟨hi, hnodup⟩ := List.nodup_cons.mp hnodup
    have hiR := hfresh i List.mem_cons_self
    obtain ⟨⟨s, found⟩, hsearch, -⟩ := search_ends hp.toIsSound (hp.not_isMatched hiR) hnm
    cases found with
    | none => exact ⟨[], i :: rows, [], p, rfl, .nil, .inr ⟨i, rows, s, rfl, hsearch⟩⟩
    | some sink =>
      obtain ⟨u', v', length, -, hp'⟩ := hp.exists_advance hiR hnm hsearch
      obtain ⟨done, rest, events, q, rfl, hsteps, hrest⟩ :=
        ih hp' (notMem_insert hi hfresh) hnodup
      exact ⟨i :: done, rest, _, q, rfl, .cons hsearch hsteps, hrest⟩

end Progress

def rowsBelow (n k : ℕ) : Finset (Fin n) := Finset.univ.filter fun i => i.val < k

theorem toFinset_take_finRange (n k : ℕ) :
    ((List.finRange n).take k).toFinset = rowsBelow n k := by
  ext i
  simp only [List.mem_toFinset, List.mem_take_iff_getElem, List.getElem_finRange, rowsBelow,
    Finset.mem_filter, Finset.mem_univ, true_and, List.length_finRange]
  constructor
  · rintro ⟨j, hj, rfl⟩
    simp
    omega
  · intro hi
    exact ⟨i, lt_min hi i.isLt, rfl⟩

theorem insert_rowsBelow (i : Fin n) : insert i (rowsBelow n i) = rowsBelow n (i + 1) := by
  ext r
  simp only [rowsBelow, Finset.mem_insert, Finset.mem_filter, Finset.mem_univ, true_and,
    Fin.ext_iff]
  omega

theorem val_eq_length_of_finRange_eq {i : Fin n} {before after : List (Fin n)}
    (h : List.finRange n = before ++ i :: after) : i.val = before.length := by
  have hget : (List.finRange n)[before.length]? = some i := by simp [h]
  obtain ⟨hlt, hget⟩ := List.getElem?_eq_some_iff.mp hget
  simp [← hget]

theorem Progress.Steps.isPrefix_take {k : ℕ} {events : List (Event (Exact bound bids))}
    {q : Progress (Exact bound bids) n m}
    (h : Steps cost ((List.finRange n).take k) .initial events q)
    (hc : ∀ (i : Fin n) (j : Fin m), cost[i][j] = .ofTop (c i j)) (hnm : n ≤ m) :
    ∃ (u : Fin n → ℚ) (v : Fin m → ℚ) (lengths : List ℚ),
      events.map Event.length? = lengths.map (some ∘ Exact.number) ∧
      IsPrefix cost c u v q (rowsBelow n k) lengths.sum := by
  have hnodup := (List.nodup_finRange n).sublist (List.take_sublist k _)
  simpa only [Finset.empty_union, toFinset_take_finRange, zero_add] using
    h.isPrefix (isPrefix_initial hc) (by simp) hnodup hnm

/-- The run matches the rows before some row and ends there, either because it was the last one or
because the search for it finds no free column. -/
theorem exists_steps_solveWide (hc : ∀ (i : Fin n) (j : Fin m), cost[i][j] = .ofTop (c i j))
    (hnm : n ≤ m) :
    ∃ K ≤ n, ∃ (events : List (Event (Exact bound bids))) (q : Progress (Exact bound bids) n m),
      Progress.Steps cost ((List.finRange n).take K) .initial events q ∧ events.length = K ∧
      ((K = n ∧ solveWide cost = ⟨events, .ok (some q.toDualMatching)⟩) ∨
        ∃ (i : Fin n) (s : PathSearch (Exact bound bids) n m), i.val = K ∧
          q.search cost i = .ok (s, none) ∧
          solveWide cost = ⟨events ++ [.infeasible i], .ok none⟩) := by
  obtain ⟨done, rest, events, q, hrows, hsteps, hrest⟩ := Progress.exists_steps
    (List.finRange n) (Progress.isPrefix_initial hc) (by simp) (List.nodup_finRange n) hnm
  have hlength : n = done.length + rest.length := by
    simpa using congrArg List.length hrows
  have hdone : (List.finRange n).take done.length = done := by
    rw [hrows, List.take_left]
  have hrun : solveWide cost = ⟨events ++ (Progress.matchRows cost rest q).events,
      (Progress.matchRows cost rest q).outcome⟩ := by
    rw [solveWide, hrows, hsteps.matchRows_append]
  refine ⟨done.length, by omega, events, q, hdone.symm ▸ hsteps, hsteps.length_eq, ?_⟩
  rcases hrest with rfl | ⟨i, rest, s, rfl, hsearch⟩
  · refine .inl ⟨hlength.symm, ?_⟩
    rw [hrun, Progress.matchRows]
    exact congrArg (Run.mk · _) (List.append_nil events)
  · refine .inr ⟨i, s, val_eq_length_of_finRange_eq hrows, hsearch, ?_⟩
    rw [hrun, Progress.matchRows, hsearch]
    rfl

/-- After every search that arrives the rows so far are matched at least cost, which is the sum of
the lengths that have been reported. The run goes on like this to the last row, or up to a row that
cannot be matched along with those before it. -/
theorem solveWide_prefixes (cost : CostMatrix (Exact bound bids) n m) (hnm : n ≤ m)
    (hvalid : cost.hasInvalidEntry = false) :
    ∃ K ≤ n,
      (∀ k ≤ K, ∃ (q : Progress (Exact bound bids) n m) (lengths : List ℚ),
        Progress.Steps cost ((List.finRange n).take k) .initial
          ((solveWide cost).events.take k) q ∧
        cost.CoversCheapest (rowsBelow n k) (q.pairsOf (rowsBelow n k)) ∧
        ((solveWide cost).events.take k).map Event.length? = lengths.map (some ∘ Exact.number) ∧
        cost.worth (q.pairsOf (rowsBelow n k)) = lengths.sum) ∧
      ((K = n ∧ ∃ q, Progress.Steps cost (List.finRange n) .initial (solveWide cost).events q ∧
          (solveWide cost).outcome = .ok (some q.toDualMatching)) ∨
        K < n ∧ (solveWide cost).events.drop K = [.infeasible K] ∧
          (solveWide cost).outcome = .ok none ∧ ¬ ∃ Q, cost.Covers (rowsBelow n (K + 1)) Q) := by
  have hc := CostMatrix.ofTop_toTop_of_valid hvalid
  obtain ⟨K, hK, events, q, hsteps, hlength, hend⟩ := exists_steps_solveWide hc hnm
  have htake : ∀ k ≤ K, (solveWide cost).events.take k = events.take k := by
    intro k hk
    rcases hend with ⟨-, hrun⟩ | ⟨i, s, -, -, hrun⟩
    · rw [hrun]
    · rw [hrun, List.take_append_of_le_length (hlength.symm ▸ hk)]
  refine ⟨K, hK, fun k hk => ?_, ?_⟩
  · obtain ⟨q', hq'⟩ := hsteps.take k
    rw [List.take_take, min_eq_left hk, ← htake k hk] at hq'
    obtain ⟨u, v, lengths, hlengths, hp⟩ := hq'.isPrefix_take hc hnm
    exact ⟨q', lengths, hq', hp.coversCheapest, hlengths, hp.worth_pairsOf⟩
  · rcases hend with ⟨hall, hrun⟩ | ⟨i, s, rfl, hsearch, hrun⟩
    · rw [List.take_of_length_le (by simp [hall])] at hsteps
      rw [hrun]
      exact .inl ⟨hall, q, hsteps, rfl⟩
    · obtain ⟨u, v, lengths, -, hp⟩ := hsteps.isPrefix_take hc hnm
      have hnone := hp.not_covers (by simp [rowsBelow]) hnm hsearch
      rw [insert_rowsBelow] at hnone
      rw [hrun]
      exact .inr ⟨i.isLt, List.drop_left' hlength, rfl, hnone⟩

/-- Both rows of `contested` are matched. -/
theorem solveWide_contested_prefixes :
    ∃ (q : Progress (Exact 100 10) 2 3) (lengths : List ℚ),
      (CostMatrix.contested 100 10).CoversCheapest (rowsBelow 2 2) (q.pairsOf (rowsBelow 2 2)) ∧
      ((solveWide (.contested 100 10)).events.take 2).map Event.length? =
        lengths.map (some ∘ Exact.number) ∧
      (CostMatrix.contested 100 10).worth (q.pairsOf (rowsBelow 2 2)) = lengths.sum := by
  obtain ⟨K, -, hprefix, ⟨rfl, -⟩ | ⟨-, -, hnone, -⟩⟩ :=
    solveWide_prefixes (.contested 100 10) (by decide) CostMatrix.hasInvalidEntry_contested
  · obtain ⟨q, lengths, -, hcheapest, hlengths, hworth⟩ := hprefix 2 le_rfl
    exact ⟨q, lengths, hcheapest, hlengths, hworth⟩
  · have hsome : (solveWide (CostMatrix.contested 100 10)).outcome.toOption.map Option.isSome =
        some true := by
      decide +kernel
    rw [hnone] at hsome
    exact absurd hsome (by decide)

end Rectangular

end LinearAssignment
