import LinearAssignment.Proofs.Binary.Finite
import LinearAssignment.Proofs.Dense.Solver
import LinearAssignment.Proofs.Diagonal

/-! The dense solver on a matrix that is the same everywhere. All reduced costs tie, so the first
column is the best one, no price falls, and every row but the first takes the first free column
instead. -/
namespace LinearAssignment

variable {f : Format} {n m : ℕ} {c x : Binary f}

theorem Cost.IsKeyed.firstMinimum?_cons {α ι κ : Type} [Cost α] [LinearOrder κ] {value : ι → α}
    {key : ι → κ} (h : Cost.IsKeyed value key) {i : ι} {rest : List ι}
    (hle : ∀ j ∈ rest, key i ≤ key j) : Cost.firstMinimum? value (i :: rest) = some i := by
  induction rest with
  | nil => rfl
  | cons j rest ih =>
    have hstay : Cost.better value i j = i := if_neg fun hd =>
      ((h.displaces_iff j i).mp hd).not_ge (hle j List.mem_cons_self)
    rw [Cost.firstMinimum?_cons, List.foldl_cons, hstay, ← Cost.firstMinimum?_cons]
    exact ih fun k hk => hle k (List.mem_cons_of_mem j hk)

namespace Bid

variable {row price : Vector (Binary f) m}

/-- Of reduced costs that are all the same, the first column has the least. -/
theorem firstMinimum?_of_ties (hx : Cost.isFinite x = true) (hm : 0 < m)
    (hrow : ∀ j : Fin m, (reduced row price)[j] = x) :
    Cost.firstMinimum? (fun j : Fin m => (reduced row price)[j]) (List.finRange m) =
      some ⟨0, hm⟩ := by
  have hnan : ∀ j : Fin m, Cost.isNaN (reduced row price)[j] = false := fun j => by
    rw [hrow]
    exact Binary.isNaN_of_isFinite hx
  obtain ⟨m, rfl⟩ := Nat.exists_eq_succ_of_ne_zero hm.ne'
  rw [List.finRange_succ]
  exact (Binary.isKeyed hnan).firstMinimum?_cons fun j _ => by simp only [hrow, le_refl]

theorem exists_second_of_ties (hx : Cost.isFinite x = true) (hm : 1 < m)
    (hrow : ∀ j : Fin m, (reduced row price)[j] = x) (best : Fin m) :
    ∃ k, k ≠ best ∧ Cost.firstMinimum? (fun j : Fin m => (others row price best)[j])
      (List.finRange m) = some k := by
  have hothers : ∀ j, j ≠ best → (others row price best)[j] = x := fun j hj => by
    rw [getElem_others, if_neg hj, hrow]
  have htop : (others row price best)[best] = Cost.infinity := by
    rw [getElem_others, if_pos rfl]
  have hnan : ∀ j : Fin m, Cost.isNaN (others row price best)[j] = false := fun j => by
    by_cases hj : j = best
    · rw [hj, htop]
      rfl
    · rw [hothers j hj]
      exact Binary.isNaN_of_isFinite hx
  have hkey := Binary.isKeyed hnan
  have hne : List.finRange m ≠ [] := List.ne_nil_of_mem (List.mem_finRange best)
  obtain ⟨k, hk⟩ := Cost.exists_firstMinimum? (fun j : Fin m => (others row price best)[j]) hne
  refine ⟨k, ?_, hk⟩
  rintro rfl
  have : Nontrivial (Fin m) := Fin.nontrivial_iff_two_le.mpr hm
  obtain ⟨l, hl⟩ := exists_ne k
  have hlt : (others row price k)[l] < (others row price k)[k] := by
    rw [hothers l hl, htop]
    exact Binary.lt_infinity_of_isFinite hx
  exact ((hkey.lt_iff l k).mp hlt).not_ge ((hkey.firstMinimum? hk).2 l (List.mem_finRange l))

/-- The runner-up is the first free column, unless that one is the best. -/
theorem ofRow_of_ties (hf : f.IsAmple) (hx : Cost.isFinite x = true) (hm : 0 < m)
    (hrow : ∀ j : Fin m, (reduced row price)[j] = x) (isFree : Fin m → Bool) :
    ∃ runnerUp, ofRow row price isFree = .ok ⟨x, x, ⟨0, hm⟩, runnerUp⟩ ∧
      ∀ j : Fin m, j.val ≠ 0 → (List.finRange m).find? isFree = some j → runnerUp = some j := by
  have hbest := firstMinimum?_of_ties hx hm hrow
  by_cases hone : m = 1
  · refine ⟨none, ?_, fun j hj => absurd j.isLt (by omega)⟩
    rw [ofRow_of_single hbest hone, hrow]
  · obtain ⟨k, hk, hsecond⟩ := exists_second_of_ties hx (by omega) hrow ⟨0, hm⟩
    have hothers : ∀ j : Fin m, j.val ≠ 0 → (others row price ⟨0, hm⟩)[j] = x := fun j hj => by
      rw [getElem_others, if_neg fun he => hj (congrArg Fin.val he), hrow]
    have hsecond' : (others row price ⟨0, hm⟩)[k] = x :=
      hothers k fun he => hk (Fin.ext he)
    -- All columns but the first one tie for the second place.
    have hties : ties row price ⟨0, hm⟩ k = (List.finRange m).filter fun j => j.val ≠ 0 := by
      refine List.filter_congr fun j _ => ?_
      by_cases hj : j.val = 0
      · simp [Fin.ext_iff, hj]
      · simp [Fin.ext_iff, hj, hothers j hj, hsecond', Binary.beq_self_of_isFinite hx]
    have hother : (⟨1, by omega⟩ : Fin m) ∈ ties row price ⟨0, hm⟩ k := by
      simp [hties]
    obtain ⟨r, hr⟩ := exists_runnerUp isFree (List.ne_nil_of_mem hother)
    refine ⟨some r, ?_, fun j hj hfind => ?_⟩
    · rw [ofRow_of_runnerUp hbest hone hsecond hr, hrow, hsecond',
        if_neg (Binary.not_largest_lt_of_isFinite hf hx)]
    · have hfree : (ties row price ⟨0, hm⟩ k).find? isFree = some j := by
        obtain ⟨hjfree, before, behind, hsplit, hbefore⟩ := List.find?_eq_some_iff_append.mp hfind
        rw [hties, List.find?_filter, List.find?_eq_some_iff_append]
        refine ⟨by simp [hj, hjfree], before, behind, hsplit, fun i hi => ?_⟩
        have hheld : isFree i = false := by simpa using hbefore i hi
        simp [hheld]
      rw [hfree] at hr
      exact hr.symm

end Bid

namespace PricedMatching

section unchanged

variable {α : Type} [Cost α] {cost : CostMatrix α n m} {s : PricedMatching α n m} {i : Fin n}
  {b : Bid α m}

theorem bid_of_free (hb : Bid.ofRow cost[i] s.price s.isFree = .ok b)
    (hprice : ¬ s.lowered b < s.price[b.best]) (hfree : s.rowOf[b.best] = none) :
    s.bid cost i = .ok (⟨s.toMatching.pair i b.best, s.price⟩, .nobody) := by
  unfold lowered at hprice
  unfold bid
  simp only [hb, bind, Except.bind, if_neg hprice, hfree]
  rfl

theorem bid_of_held (hb : Bid.ofRow cost[i] s.price s.isFree = .ok b)
    (hprice : ¬ s.lowered b < s.price[b.best]) {r : Fin n} (hheld : s.rowOf[b.best] = some r)
    {j : Fin m} (hj : b.runnerUp = some j) (hfree : s.rowOf[j] = none) :
    s.bid cost i = .ok (⟨s.toMatching.pair i j, s.price⟩, .nobody) := by
  unfold lowered at hprice
  unfold bid
  simp only [hb, bind, Except.bind, if_neg hprice, hheld, hj, Option.getD_some, hfree]
  rfl

end unchanged

variable {k : ℕ}

def inOrder (n m k : ℕ) : PricedMatching (Binary f) n m :=
  ⟨.diagonal n m k, Vector.replicate m 0⟩

theorem price_inOrder (j : Fin m) : (inOrder n m k : PricedMatching (Binary f) n m).price[j] = 0 :=
  getElem_replicate_fin _ _

/-- The next row takes the column of its own index: the first row finds its best column free, and
any other one goes for the first free column. -/
theorem bid_inOrder (hf : f.IsAmple) (hc : Cost.isFinite c = true) (hn : k < n) (hm : k < m) :
    (inOrder n m k).bid (.constant n m c) ⟨k, hn⟩ = .ok (inOrder n m (k + 1), .nobody) := by
  have hfinite : Cost.isFinite (c - 0) = true := Binary.isFinite_sub_zero hc
  have hrow : ∀ j : Fin m, (Bid.reduced (CostMatrix.constant n m c)[(⟨k, hn⟩ : Fin n)]
      (inOrder n m k).price)[j] = c - 0 := fun j => by
    rw [Bid.reduced, getElem_zipWith_fin, CostMatrix.getElem_constant, price_inOrder]
  obtain ⟨runnerUp, hb, hrunnerUp⟩ :=
    Bid.ofRow_of_ties hf hfinite (Nat.zero_lt_of_lt hm) hrow (inOrder n m k).isFree
  have hprice : ∀ j : Fin m, ¬ (inOrder n m k).lowered ⟨c - 0, c - 0, j, runnerUp⟩ <
      (inOrder n m k).price[j] := fun j => by
    rw [lowered, price_inOrder, Binary.sub_self_of_isFinite hfinite,
      Binary.sub_self_of_isFinite Binary.isFinite_zero]
    exact Binary.not_lt_self _
  have hnext : (inOrder n m k : PricedMatching (Binary f) n m).rowOf[(⟨k, hm⟩ : Fin m)] = none :=
    Matching.isFree_iff.mp ((Matching.isFree_diagonal hn.le _).mpr le_rfl)
  have hpair : (inOrder n m (k + 1) : PricedMatching (Binary f) n m) =
      ⟨(Matching.diagonal n m k).pair ⟨k, hn⟩ ⟨k, hm⟩, Vector.replicate m 0⟩ := by
    rw [Matching.pair_diagonal, inOrder]
  rw [hpair]
  rcases Nat.eq_zero_or_pos k with hk | hk
  · have hbest : (⟨k, hm⟩ : Fin m) = ⟨0, Nat.zero_lt_of_lt hm⟩ := Fin.ext hk
    rw [hbest] at hnext ⊢
    exact bid_of_free hb (hprice _) hnext
  · have hheld : (Matching.diagonal n m k).rowOf[(⟨0, Nat.zero_lt_of_lt hm⟩ : Fin m)] =
        some ⟨0, Nat.zero_lt_of_lt hn⟩ :=
      (Matching.rowOf_diagonal _).trans (dif_pos ⟨hk, Nat.zero_lt_of_lt hn⟩)
    have hj := hrunnerUp ⟨k, hm⟩ hk.ne' (Matching.find?_isFree_diagonal hn.le hm)
    exact bid_of_held hb (hprice _) hheld hj hnext

theorem bidAll_inOrder (hf : f.IsAmple) (hc : Cost.isFinite c = true) (hnm : n ≤ m) {steps : ℕ}
    (hk : k ≤ n) (hsteps : n - k ≤ steps) :
    bidAll (.constant n m c) steps (inOrder n m k) ((List.finRange n).drop k) [] =
      .ok (inOrder n m n, []) := by
  induction hleft : n - k generalizing k steps with
  | zero =>
    obtain rfl : k = n := by omega
    rw [List.drop_eq_nil_of_le (by simp)]
    simp [bidAll]
  | succ left ih =>
    have hkn : k < n := by omega
    obtain ⟨steps, rfl⟩ := Nat.exists_eq_succ_of_ne_zero (by omega : steps ≠ 0)
    rw [drop_finRange hkn, bidAll]
    simp only [bid_inOrder hf hc hkn (hkn.trans_le hnm), bind, Except.bind]
    exact ih (by omega) (by omega) (by omega)

theorem reduceRows_inOrder (hf : f.IsAmple) (hc : Cost.isFinite c = true) (hnm : n ≤ m) :
    initial.reduceRows (.constant n m c) (List.finRange n) = .ok (inOrder n m n, []) := by
  have hinitial : initial = (inOrder n m 0 : PricedMatching (Binary f) n m) := by
    rw [inOrder, Matching.diagonal_zero]
    rfl
  have hsteps : n - 0 ≤ Cost.levels (Binary f) * m + (List.finRange n).length := by
    rw [List.length_finRange]
    exact Nat.le_add_left _ _
  rw [hinitial, reduceRows]
  exact bidAll_inOrder hf hc hnm (Nat.zero_le n) hsteps

theorem reduceRows_nil {α : Type} [Cost α] (cost : CostMatrix α n m) (s : PricedMatching α n m) :
    s.reduceRows cost [] = .ok (s, []) := by
  simp [reduceRows, bidAll]

end PricedMatching

namespace Dense

theorem solveWide_constant (hf : f.IsAmple) (hc : Cost.isFinite c = true) (hnm : n ≤ m) :
    ∃ s, (solveWide (.constant n m c)).outcome = .ok s ∧ s.toMatching = .diagonal n m n := by
  have hcomplete : (complete (.constant n m c)).outcome = .ok (PricedMatching.inOrder n m n) :=
    outcome_complete (PricedMatching.reduceRows_inOrder hf hc hnm)
      (PricedMatching.reduceRows_nil _ _)
  exact ⟨_, Run.outcome_bind hcomplete _, rfl⟩

/-- Rows and columns are paired in order, whichever of them are more. -/
theorem exists_solve_constant (hf : f.IsAmple) (hc : Cost.isFinite c = true) (maximize : Bool) :
    ∃ s, (solve (.constant n m c) maximize).outcome = .ok s ∧
      s.toMatching = .diagonal n m (min n m) := by
  by_cases hmin : min n m = 0
  · refine ⟨_, solve_outcome_of_trivial hmin, ?_⟩
    rw [hmin, Matching.diagonal_zero]
    rfl
  · have hsigned := Binary.isFinite_ite_neg hc maximize
    suffices hs : ∃ s, (solveNormal ((CostMatrix.constant n m c).normalize maximize)).outcome =
        .ok s ∧ s.toMatching = .diagonal n m (min n m) by
      obtain ⟨s, hs, hdiagonal⟩ := hs
      exact ⟨_, solve_outcome_of_normal hmin hs, hdiagonal⟩
    rcases Nat.lt_or_ge m n with hlt | hle
    · obtain ⟨s, hs, hdiagonal⟩ := solveWide_constant hf hsigned hlt.le
      rw [CostMatrix.normalize_of_lt _ _ hlt, CostMatrix.objective_constant,
        CostMatrix.transpose_constant]
      refine ⟨s.transpose, Run.outcome_bind hs _, ?_⟩
      rw [DualMatching.transpose, hdiagonal, min_eq_right hlt.le]
      rfl
    · obtain ⟨s, hs, hdiagonal⟩ := solveWide_constant hf hsigned hle
      rw [CostMatrix.normalize_of_le _ _ hle, CostMatrix.objective_constant]
      exact ⟨s, hs, by rw [hdiagonal, min_eq_left hle]⟩

end Dense

end LinearAssignment
