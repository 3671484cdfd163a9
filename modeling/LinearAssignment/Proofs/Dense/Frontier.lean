import LinearAssignment.Dense.Frontier
import LinearAssignment.Proofs.Alternation
import LinearAssignment.Proofs.CostOrder
import Mathlib.Data.List.FinRange

/-! How the frontier of a search grows. Collecting it and relaxing it both exchange columns at
positions from the end of the frontier on, so the columns before it stay where they are and no
column is lost. -/
namespace LinearAssignment

variable {α κ : Type} {n m : ℕ}

namespace ColumnOrder

variable {order : ColumnOrder m}

def Distinct (order : ColumnOrder m) : Prop := Function.Injective fun k : Fin m => order[k]

theorem distinct_initial : (initial : ColumnOrder m).Distinct := by
  intro a b h
  simpa [initial] using h

theorem Distinct.exists_position (h : order.Distinct) (j : Fin m) : ∃ k : Fin m, order[k] = j :=
  Finite.surjective_of_injective h j

theorem join_eq_swap (order : ColumnOrder m) (l k : Fin m) :
    order.join l k = order.swap l k l.isLt k.isLt := by
  apply Vector.toArray_inj.mp
  simp [join, Array.swapIfInBounds]

theorem getElem_join (order : ColumnOrder m) (l k a : Fin m) :
    (order.join l k)[a] =
      if a = l then order[k] else if a = k then order[l] else order[a] := by
  rw [join_eq_swap, getElem_fin a.isLt, Vector.getElem_swap]
  simp only [Fin.val_inj]
  rfl

theorem getElem_join_end (order : ColumnOrder m) (l k : Fin m) :
    (order.join l k)[l] = order[k] := by
  rw [getElem_join, if_pos rfl]

theorem getElem_join_of_ne (order : ColumnOrder m) {l k a : Fin m} (hl : a ≠ l) (hk : a ≠ k) :
    (order.join l k)[a] = order[a] := by
  rw [getElem_join, if_neg hl, if_neg hk]

/-- The exchange of two positions is a permutation of all of them. -/
theorem Distinct.join (h : order.Distinct) (l k : Fin m) : (order.join l k).Distinct := by
  have hswap : ∀ a : Fin m, (order.join l k)[a] = order[Equiv.swap l k a] := by
    intro a
    rw [getElem_join, Equiv.swap_apply_def]
    split
    · rfl
    · split <;> rfl
  intro a b hab
  simp only [hswap] at hab
  exact (Equiv.swap l k).injective (h hab)

/-- Two orders that agree before a position hold the same columns from there on. -/
theorem Distinct.exists_position_of_agree {order' : ColumnOrder m} (h : order.Distinct)
    (h' : order'.Distinct) {low : ℕ}
    (hagree : ∀ a : Fin m, a.val < low → order'[a] = order[a]) {b : Fin m} (hb : low ≤ b.val) :
    ∃ k : Fin m, low ≤ k.val ∧ order[k] = order'[b] := by
  obtain ⟨k, hk⟩ := h.exists_position order'[b]
  refine ⟨k, ?_, hk⟩
  by_contra hlt
  have hkb : k = b := h' ((hagree k (by omega)).trans hk)
  omega

theorem mem_positionsFrom {start : ℕ} {k : Fin m} : k ∈ positionsFrom start ↔ start ≤ k.val := by
  simp only [positionsFrom, List.mem_drop_iff_getElem, List.getElem_finRange,
    List.length_finRange]
  constructor
  · rintro ⟨i, hi, rfl⟩
    simp
  · intro hk
    exact ⟨k.val - start, by omega, by ext; simp only [Fin.val_cast]; omega⟩

theorem positionsFrom_sorted (start : ℕ) : (positionsFrom start : List (Fin m)).Pairwise (· < ·) :=
  (List.pairwise_lt_finRange m).drop

theorem positionsFrom_cons {k : ℕ} (hk : k < m) :
    positionsFrom k = (⟨k, hk⟩ : Fin m) :: positionsFrom (k + 1) := by
  unfold positionsFrom
  rw [List.drop_eq_getElem_cons (by simpa using hk)]
  simp

theorem positionsFrom_end : (positionsFrom m : List (Fin m)) = [] := by
  simp [positionsFrom]

end ColumnOrder

namespace Frontier

variable [Cost α] {value : Fin m → α} {order : ColumnOrder m} {f : Frontier α m} {low k : ℕ}

/-- A frontier from `low` on that was collected from the positions of `order` before `k`: no
column is lost, and those before `low` and from `k` on are where they were. -/
structure IsFrontier (order : ColumnOrder m) (low k : ℕ) (f : Frontier α m) : Prop where
  distinct : f.order.Distinct
  before : ∀ a : Fin m, a.val < low → f.order[a] = order[a]
  after : ∀ a : Fin m, k ≤ a.val → f.order[a] = order[a]
  low_lt : low < f.up
  up_le : f.up ≤ k

omit [Cost α] in
theorem IsFrontier.mono (h : IsFrontier order low k f) {k' : ℕ} (hk : k ≤ k') :
    IsFrontier order low k' f :=
  ⟨h.distinct, h.before, fun a ha => h.after a (hk.trans ha), h.low_lt, h.up_le.trans hk⟩

/-- A column joins the frontier at its end or, if it is nearer than all of it, at its start. -/
theorem extend_cases (value : Fin m → α) (h : IsFrontier order low k f) {p : Fin m}
    (hp : k ≤ p.val) :
    ∃ l : Fin m, low ≤ l.val ∧ l.val ≤ p.val ∧ (f.extend value low p).up = l.val + 1 ∧
      (f.extend value low p).order = f.order.join l p ∧
      ((value p < f.distance ∧ l.val = low ∧ (f.extend value low p).distance = value p) ∨
        (¬ value p < f.distance ∧ l.val = f.up ∧
          (f.extend value low p).distance = f.distance)) := by
  have hup : f.up ≤ p.val := h.up_le.trans hp
  have hlow : low ≤ p.val := h.low_lt.le.trans hup
  simp only [extend]
  split
  next hlt =>
    exact ⟨⟨low, hlow.trans_lt p.isLt⟩, le_rfl, hlow, rfl, rfl, .inl ⟨hlt, rfl, rfl⟩⟩
  next hlt =>
    exact ⟨⟨f.up, hup.trans_lt p.isLt⟩, h.low_lt.le, hup, rfl, rfl, .inr ⟨hlt, rfl, rfl⟩⟩

theorem isFrontier_extend (h : IsFrontier order low k f) {p : Fin m} (hp : k ≤ p.val) :
    IsFrontier order low (p.val + 1) (f.extend value low p) := by
  obtain ⟨l, hl, hlp, hup, horder, -⟩ := extend_cases value h hp
  refine ⟨?_, fun a ha => ?_, fun a ha => ?_, by omega, by omega⟩
  · rw [horder]
    exact h.distinct.join l p
  · rw [horder, ColumnOrder.getElem_join_of_ne _ (by omega) (by omega), h.before a ha]
  · rw [horder, ColumnOrder.getElem_join_of_ne _ (by omega) (by omega), h.after a (by omega)]

theorem isFrontier_foldl {ks : List (Fin m)} (h : IsFrontier order low k f)
    (hsorted : ks.Pairwise (· < ·)) (hks : ∀ p ∈ ks, k ≤ p.val) (hkm : k ≤ m) :
    IsFrontier order low m (ks.foldl (extend value low) f) := by
  induction ks generalizing f k with
  | nil => exact h.mono hkm
  | cons p ks ih =>
    obtain ⟨hlt, hsorted⟩ := List.pairwise_cons.mp hsorted
    exact ih (isFrontier_extend h (hks p List.mem_cons_self)) hsorted (fun q hq => hlt q hq) p.isLt

theorem records_sublist (value : Fin m → α) (seen : α) (ks : List (Fin m)) :
    (records value seen ks).Sublist ks := by
  induction ks generalizing seen with
  | nil => exact List.Sublist.refl _
  | cons p ks ih =>
    simp only [records]
    split
    · exact (ih _).cons_cons p
    · exact (ih _).cons p

/-- One step of the collection, position by position: a column that is farther than the frontier
stays where it is. -/
def sweep (value : Fin m → α) (low : ℕ) (f : Frontier α m) (p : Fin m) : Frontier α m :=
  if Cost.atMost (value p) f.distance then f.extend value low p else f

/-- Without NaN the records are exactly the columns that a sweep takes in. -/
theorem foldl_records (hvalue : ∀ p, Cost.isNaN (value p) = false) (ks : List (Fin m))
    (f : Frontier α m) (hf : Cost.isNaN f.distance = false) :
    (records value f.distance ks).foldl (extend value low) f = ks.foldl (sweep value low) f := by
  induction ks generalizing f with
  | nil => rfl
  | cons p ks ih =>
    have hseen : Cost.displaces (value p) f.distance = decide (value p < f.distance) := by
      simp [Cost.displaces, hvalue, hf]
    simp only [records, hseen, decide_eq_true_eq, List.foldl_cons, sweep]
    split
    next =>
      rw [List.foldl_cons]
      refine ih (f.extend value low p) ?_
      simp only [extend]
      split
      · exact hvalue p
      · exact hf
    next hmost =>
      have hlt : ¬ value p < f.distance := fun hlt => hmost (by simp [Cost.atMost, hlt])
      rw [if_neg hlt]
      exact ih f hf

def single (distance : Vector α m) (order : ColumnOrder m) (hlow : low < m) : Frontier α m :=
  ⟨low + 1, distance[order[(⟨low, hlow⟩ : Fin m)]], order⟩

omit [Cost α] in
theorem isFrontier_single (distance : Vector α m) (hd : order.Distinct) (hlow : low < m) :
    IsFrontier order low (low + 1) (single distance order hlow) :=
  ⟨hd, fun _ _ => rfl, fun _ _ => rfl, Nat.lt_succ_self low, le_rfl⟩

theorem collect_eq (distance : Vector α m) (order : ColumnOrder m) (hlow : low < m) :
    collect distance order low = .ok
      ((records (fun a : Fin m => distance[order[a]]) (single distance order hlow).distance
        (ColumnOrder.positionsFrom (low + 1))).foldl
          (extend (fun a : Fin m => distance[order[a]]) low) (single distance order hlow)) := by
  unfold collect
  rw [dif_pos hlow]
  rfl

theorem low_lt_of_collect {distance : Vector α m} (h : collect distance order low = .ok f) :
    low < m := by
  unfold collect at h
  split at h
  next hlow => exact hlow
  next => exact absurd h (by simp)

theorem isFrontier_collect {distance : Vector α m} (hd : order.Distinct)
    (h : collect distance order low = .ok f) : IsFrontier order low m f := by
  have hlow := low_lt_of_collect h
  rw [collect_eq _ _ hlow] at h
  obtain rfl := Except.ok.inj h
  refine isFrontier_foldl (isFrontier_single distance hd hlow) ?_ (fun p hp => ?_) hlow
  · exact (ColumnOrder.positionsFrom_sorted _).sublist (records_sublist _ _ _)
  · exact ColumnOrder.mem_positionsFrom.mp ((records_sublist _ _ _).subset hp)

section nearest

variable [LinearOrder κ] {distance : Vector α m} {key : Fin m → κ} {j : Fin m}

/-- The columns of the frontier are at the distance of column `j`, and the other columns before
position `k` are farther. -/
structure IsNearest (distance : Vector α m) (key : Fin m → κ) (low k : ℕ) (f : Frontier α m)
    (j : Fin m) : Prop where
  distance_eq : f.distance = distance[j]
  level : ∀ a : Fin m, low ≤ a.val → a.val < f.up → key f.order[a] = key j
  beyond : ∀ a : Fin m, f.up ≤ a.val → a.val < k → key j < key f.order[a]

omit [Cost α] in
theorem IsNearest.le_of_low_le (hn : IsNearest distance key low m f j) {a : Fin m}
    (ha : low ≤ a.val) : key j ≤ key f.order[a] := by
  by_cases hup : a.val < f.up
  · exact (hn.level a ha hup).ge
  · exact (hn.beyond a (by omega) a.isLt).le

/-- The column that is taken in is nearer than the frontier, or as near. -/
theorem IsNearest.extend (h : IsFrontier order low k f) (hn : IsNearest distance key low k f j)
    (hkey : Cost.IsKeyed (fun j : Fin m => distance[j]) key) {p : Fin m} (hp : p.val = k)
    (hmost : Cost.atMost distance[order[p]] f.distance = true) :
    ∃ j', IsNearest distance key low (k + 1)
      (f.extend (fun a : Fin m => distance[order[a]]) low p) j' := by
  obtain ⟨l, hl, hlp, hup, horder, hcases⟩ :=
    extend_cases (fun a : Fin m => distance[order[a]]) h hp.ge
  have hlow := h.low_lt
  have hend := h.up_le
  rw [hn.distance_eq, hkey.atMost_iff] at hmost
  have hlast : (f.order.join l p)[l] = order[p] := by
    rw [ColumnOrder.getElem_join_end, h.after p hp.ge]
  rcases hcases with ⟨hlt, hlow', hdist⟩ | ⟨hlt, hend', hdist⟩
  · -- The frontier starts anew; what it held is farther now.
    rw [hn.distance_eq, hkey.lt_iff] at hlt
    refine ⟨order[p], hdist, fun a ha ha' => ?_, fun a ha ha' => ?_⟩
    · obtain rfl : a = l := by omega
      rw [horder, hlast]
    · rw [horder, ColumnOrder.getElem_join, if_neg (by omega)]
      split
      next => exact hlt.trans_eq (hn.level l hl (by omega)).symm
      next hap =>
        by_cases hau : a.val < f.up
        · exact hlt.trans_eq (hn.level a (by omega) hau).symm
        · exact hlt.trans (hn.beyond a (by omega) (by omega))
  · rw [hn.distance_eq, hkey.lt_iff, not_lt] at hlt
    refine ⟨j, hdist.trans hn.distance_eq, fun a ha ha' => ?_, fun a ha ha' => ?_⟩
    · by_cases hal : a = l
      · rw [horder, hal, hlast]
        exact le_antisymm hmost hlt
      · rw [horder, ColumnOrder.getElem_join_of_ne _ hal (by omega)]
        exact hn.level a ha (by omega)
    · rw [horder, ColumnOrder.getElem_join, if_neg (by omega)]
      split
      next => exact hn.beyond l (by omega) (by omega)
      next => exact hn.beyond a (by omega) (by omega)

theorem IsNearest.sweep (h : IsFrontier order low k f) (hn : IsNearest distance key low k f j)
    (hkey : Cost.IsKeyed (fun j : Fin m => distance[j]) key) {p : Fin m} (hp : p.val = k) :
    ∃ j', IsNearest distance key low (k + 1)
      (f.sweep (fun a : Fin m => distance[order[a]]) low p) j' := by
  unfold Frontier.sweep
  split
  next hmost => exact hn.extend h hkey hp hmost
  next hmost =>
    rw [hn.distance_eq, hkey.atMost_iff, not_le] at hmost
    refine ⟨j, hn.distance_eq, hn.level, fun a ha ha' => ?_⟩
    by_cases hap : a = p
    · rw [h.after a (by omega), hap]
      exact hmost
    · exact hn.beyond a ha (by omega)

theorem isFrontier_sweep {value : Fin m → α} (h : IsFrontier order low k f) {p : Fin m}
    (hp : p.val = k) : IsFrontier order low (k + 1) (f.sweep value low p) := by
  unfold Frontier.sweep
  split
  · exact hp ▸ isFrontier_extend h hp.ge
  · exact h.mono (Nat.le_succ k)

theorem IsNearest.foldl_sweep (hkey : Cost.IsKeyed (fun j : Fin m => distance[j]) key)
    (h : IsFrontier order low k f) (hn : IsNearest distance key low k f j) (hk : k ≤ m) :
    ∃ j', IsNearest distance key low m ((ColumnOrder.positionsFrom k).foldl
      (Frontier.sweep (fun a : Fin m => distance[order[a]]) low) f) j' := by
  -- Induction on the number of positions that are left.
  induction hleft : m - k generalizing k f j with
  | zero =>
    obtain rfl : k = m := by omega
    rw [ColumnOrder.positionsFrom_end]
    exact ⟨j, hn⟩
  | succ left ih =>
    have hkm : k < m := by omega
    obtain ⟨j', hn'⟩ := hn.sweep h hkey (p := ⟨k, hkm⟩) rfl
    rw [ColumnOrder.positionsFrom_cons hkm]
    exact ih (isFrontier_sweep h rfl) hn' hkm (by omega)

/-- The frontier holds columns that are nearest among those from `low` on. -/
theorem exists_isNearest (hkey : Cost.IsKeyed (fun j : Fin m => distance[j]) key)
    (hd : order.Distinct) (h : collect distance order low = .ok f) :
    ∃ j, IsNearest distance key low m f j := by
  have hlow := low_lt_of_collect h
  have hn : IsNearest distance key low (low + 1) (single distance order hlow)
      order[(⟨low, hlow⟩ : Fin m)] := by
    refine ⟨rfl, fun a ha ha' => ?_, fun a ha ha' => ?_⟩
    · change a.val < low + 1 at ha'
      obtain rfl : a = ⟨low, hlow⟩ := Fin.ext (by dsimp; omega)
      rfl
    · change low + 1 ≤ a.val at ha
      omega
  rw [collect_eq _ _ hlow, foldl_records (fun p => hkey.isNaN order[p]) _ _ (hkey.isNaN _)] at h
  obtain rfl := Except.ok.inj h
  exact hn.foldl_sweep hkey (isFrontier_single distance hd hlow) hlow

end nearest

end Frontier

end LinearAssignment
