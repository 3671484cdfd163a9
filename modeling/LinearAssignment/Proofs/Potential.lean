import LinearAssignment.Proofs.Alternation
import Mathlib.Algebra.Order.Monoid.WithTop
import Mathlib.Algebra.Order.Ring.Rat
import Mathlib.Algebra.Order.WithTop.Untop0
import Mathlib.Tactic.Linarith
import Mathlib.Tactic.Ring

/-! Potentials that support a matching, and how a shortest path search changes them. Both
solvers search in the same way, so what a search has to find out about distances is stated once,
and from it that the new potentials support the matching after the path has been flipped. -/
namespace LinearAssignment

theorem coe_le_add_coe_iff {a b : ℚ} {y : WithTop ℚ} :
    (a : WithTop ℚ) ≤ y + (b : WithTop ℚ) ↔ ((a - b : ℚ) : WithTop ℚ) ≤ y := by
  cases y with
  | top => simp
  | coe q =>
    rw [← WithTop.coe_add, WithTop.coe_le_coe, WithTop.coe_le_coe, sub_le_iff_le_add]

theorem coe_eq_add_coe_iff {a b : ℚ} {y : WithTop ℚ} :
    (a : WithTop ℚ) = y + (b : WithTop ℚ) ↔ y = ((a - b : ℚ) : WithTop ℚ) := by
  cases y with
  | top => exact iff_of_false (by simp) WithTop.top_ne_coe
  | coe q => rw [← WithTop.coe_add, WithTop.coe_inj, WithTop.coe_inj, eq_sub_iff_add_eq, eq_comm]

/-- A way from distance `x` in terms of the reduced cost of its last step. -/
theorem coe_le_way_iff {a x p q : ℚ} {y : WithTop ℚ} :
    (a : WithTop ℚ) ≤ y + ((x - p - q : ℚ) : WithTop ℚ) ↔
      ((a - x + p + q : ℚ) : WithTop ℚ) ≤ y := by
  have he : a - (x - p - q) = a - x + p + q := by ring
  rw [coe_le_add_coe_iff, he]

theorem coe_eq_way_iff {a x p q : ℚ} {y : WithTop ℚ} :
    (a : WithTop ℚ) = y + ((x - p - q : ℚ) : WithTop ℚ) ↔
      y = ((a - x + p + q : ℚ) : WithTop ℚ) := by
  have he : a - (x - p - q) = a - x + p + q := by ring
  rw [coe_eq_add_coe_iff, he]

/-- A way on from distance `x` does not lead back if its last step has no negative reduced cost. -/
theorem coe_le_way {x p q : ℚ} {y : WithTop ℚ} (h : ((p + q : ℚ) : WithTop ℚ) ≤ y) :
    (x : WithTop ℚ) ≤ y + ((x - p - q : ℚ) : WithTop ℚ) := by
  rw [coe_le_way_iff, sub_self, zero_add]
  exact h

namespace Matching

variable {n m : ℕ} {c : Fin n → Fin m → WithTop ℚ} {s : Matching n m}

/-- Complementary slackness: what a matched row pays for its column is the least that it would
pay for any column. -/
structure IsSupported (s : Matching n m) (c : Fin n → Fin m → WithTop ℚ) (u : Fin n → ℚ)
    (v : Fin m → ℚ) : Prop where
  below : ∀ {i : Fin n}, s.IsMatched i → ∀ j, ((u i + v j : ℚ) : WithTop ℚ) ≤ c i j
  tight : ∀ {i : Fin n} {j : Fin m}, s.rowOf[j] = some i → c i j = ((u i + v j : ℚ) : WithTop ℚ)

structure FreeAtZero (s : Matching n m) (v : Fin m → ℚ) : Prop where
  nonpos : ∀ j, v j ≤ 0
  free : ∀ j : Fin m, s.rowOf[j] = none → v j = 0

theorem isSupported_empty (u : Fin n → ℚ) (v : Fin m → ℚ) :
    (empty : Matching n m).IsSupported c u v where
  below hi := absurd hi (not_isMatched_empty _)
  tight {_ j} hj := absurd ⟨j, hj⟩ (not_isMatched_empty _)

section pair

variable {u : Fin n → ℚ} {v v' : Fin m → ℚ} {i : Fin n} {j : Fin m}

theorem IsSupported.pair (h : s.IsSupported c u v) (hs : s.Consistent) (hi : ¬ s.IsMatched i)
    (hle : ∀ k, v' k ≤ v k) (hkeep : ∀ k, k ≠ j → v' k = v k) {y : ℚ}
    (hbelow : ∀ k, ((y + v' k : ℚ) : WithTop ℚ) ≤ c i k)
    (htight : c i j = ((y + v' j : ℚ) : WithTop ℚ)) :
    (s.pair i j).IsSupported c (Function.update u i y) v' := by
  have hne : ∀ {r}, s.IsMatched r → r ≠ i := fun hr he => hi (he ▸ hr)
  constructor
  · intro r hr k
    rcases (isMatched_pair hs j r).mp hr with rfl | ⟨hr, -⟩
    · rw [Function.update_self]
      exact hbelow k
    · rw [Function.update_of_ne (hne hr)]
      refine le_trans (WithTop.coe_le_coe.mpr ?_) (h.below hr k)
      linarith [hle k]
  · intro r k hr
    rw [rowOf_pair] at hr
    split at hr
    next hk =>
      obtain rfl := Option.some.inj hr
      rw [Function.update_self, hk, htight]
    next hk => rw [Function.update_of_ne (hne ⟨k, hr⟩), hkeep k hk, h.tight hr]

theorem FreeAtZero.pair (h : s.FreeAtZero v) (hle : ∀ k, v' k ≤ v k)
    (hkeep : ∀ k, k ≠ j → v' k = v k) : (s.pair i j).FreeAtZero v' where
  nonpos k := (hle k).trans (h.nonpos k)
  free k hk := by
    rw [rowOf_pair] at hk
    split at hk
    · exact absurd hk (by simp)
    · next hkj => rw [hkeep k hkj, h.free k hk]

end pair

/-- A row is at distance zero if it is the root, and else at the distance of the column of the
trail that it holds. -/
def RowAt (s : Matching n m) (root : Fin n) (trail : List (Fin m)) (d : Fin m → WithTop ℚ)
    (i : Fin n) (x : ℚ) : Prop :=
  (i = root ∧ x = 0) ∨ ∃ k ∈ trail, s.rowOf[k] = some i ∧ d k = x

section rowAt

variable {root i : Fin n} {trail : List (Fin m)} {d d' : Fin m → WithTop ℚ} {x y : ℚ}

theorem RowAt.congr (h : s.RowAt root trail d i x) (hd : ∀ k ∈ trail, d' k = d k) :
    s.RowAt root trail d' i x :=
  h.imp_right fun ⟨k, hk, hi, hx⟩ => ⟨k, hk, hi, (hd k hk).trans hx⟩

theorem RowAt.unique (hs : s.Consistent) (hroot : ¬ s.IsMatched root)
    (hx : s.RowAt root trail d i x) (hy : s.RowAt root trail d i y) : x = y := by
  rcases hx with ⟨rfl, rfl⟩ | ⟨k, _, hk, hx⟩ <;> rcases hy with ⟨he, rfl⟩ | ⟨l, _, hl, hy⟩
  · rfl
  · exact absurd ⟨l, hl⟩ hroot
  · exact absurd ⟨k, he ▸ hk⟩ hroot
  · rw [hs.eq_of_rowOf hk hl, hy] at hx
    exact (WithTop.coe_inj.mp hx).symm

theorem rowAt_cons {j : Fin m} : s.RowAt root (j :: trail) d i x ↔
    s.RowAt root trail d i x ∨ s.rowOf[j] = some i ∧ d j = x := by
  constructor
  · rintro (h | ⟨k, hk, hi, hx⟩)
    · exact .inl (.inl h)
    · rcases List.mem_cons.mp hk with rfl | hk
      · exact .inr ⟨hi, hx⟩
      · exact .inl (.inr ⟨k, hk, hi, hx⟩)
  · rintro (h | ⟨hi, hx⟩)
    · exact h.imp_right fun ⟨k, hk, hi, hx⟩ => ⟨k, List.mem_cons_of_mem _ hk, hi, hx⟩
    · exact .inr ⟨j, List.mem_cons_self, hi, hx⟩

theorem OnTrail.exists_rowAt (h : s.OnTrail root trail i) (hd : ∀ k ∈ trail, d k ≠ ⊤) :
    ∃ x, s.RowAt root trail d i x := by
  rcases h with rfl | ⟨k, hk, hi⟩
  · exact ⟨0, .inl ⟨rfl, rfl⟩⟩
  · obtain ⟨x, hx⟩ := WithTop.ne_top_iff_exists.mp (hd k hk)
    exact ⟨x, .inr ⟨k, hk, hi, hx.symm⟩⟩

def shortened (c : Fin n → Fin m → WithTop ℚ) (u : Fin n → ℚ) (v : Fin m → ℚ) (i : Fin n) (x : ℚ)
    (d : Fin m → WithTop ℚ) (k : Fin m) : WithTop ℚ :=
  min (d k) (c i k + ((x - u i - v k : ℚ) : WithTop ℚ))

end rowAt

/-- What a search has found out when it ends in the column `sink` at distance `length`: the
distances of the columns of its trail are exact, and no way to any other column is shorter. -/
structure IsLabelling (s : Matching n m) (c : Fin n → Fin m → WithTop ℚ) (u : Fin n → ℚ)
    (v : Fin m → ℚ) (reachedBy : Fin m → Option (Fin n)) (root : Fin n) (trail : List (Fin m))
    (d : Fin m → ℚ) (sink : Fin m) (length : ℚ) : Prop where
  le_length : ∀ k ∈ trail, d k ≤ length
  inside : ∀ {i x}, s.RowAt root trail (fun k => d k) i x → ∀ k ∈ trail,
    ((d k - x + u i + v k : ℚ) : WithTop ℚ) ≤ c i k
  outside : ∀ {i x}, s.RowAt root trail (fun k => d k) i x → ∀ j ∉ trail,
    ((length - x + u i + v j : ℚ) : WithTop ℚ) ≤ c i j
  edge : ∀ {i}, ∀ k ∈ trail, reachedBy k = some i → ∃ x, s.RowAt root trail (fun k => d k) i x ∧
    c i k = ((d k - x + u i + v k : ℚ) : WithTop ℚ)
  last : ∀ {i}, reachedBy sink = some i → ∃ x, s.RowAt root trail (fun k => d k) i x ∧
    c i sink = ((length - x + u i + v sink : ℚ) : WithTop ℚ)

/-- A labelling from distances that are known to be finite on the trail only. -/
theorem isLabelling_of_distances {u : Fin n → ℚ} {v : Fin m → ℚ}
    {reachedBy : Fin m → Option (Fin n)} {root : Fin n} {trail : List (Fin m)}
    {d : Fin m → WithTop ℚ} {sink : Fin m} {length : ℚ}
    (hle : ∀ k ∈ trail, d k ≤ (length : WithTop ℚ))
    (hinside : ∀ {r x}, s.RowAt root trail d r x → ∀ k ∈ trail,
      d k ≤ c r k + ((x - u r - v k : ℚ) : WithTop ℚ))
    (houtside : ∀ {r x}, s.RowAt root trail d r x → ∀ j ∉ trail,
      (length : WithTop ℚ) ≤ c r j + ((x - u r - v j : ℚ) : WithTop ℚ))
    (hedge : ∀ {r}, ∀ k ∈ trail, reachedBy k = some r → ∃ x, s.RowAt root trail d r x ∧
      d k = c r k + ((x - u r - v k : ℚ) : WithTop ℚ))
    (hlast : ∀ {r}, reachedBy sink = some r → ∃ x, s.RowAt root trail d r x ∧
      (length : WithTop ℚ) = c r sink + ((x - u r - v sink : ℚ) : WithTop ℚ)) :
    s.IsLabelling c u v reachedBy root trail (fun k => (d k).untop₀) sink length := by
  have hcoe : ∀ k ∈ trail, ((d k).untop₀ : WithTop ℚ) = d k := fun k hk =>
    WithTop.coe_untop₀_of_ne_top (ne_top_of_le_ne_top WithTop.coe_ne_top (hle k hk))
  have hrow : ∀ {r y}, s.RowAt root trail (fun k => ((d k).untop₀ : WithTop ℚ)) r y →
      s.RowAt root trail d r y := fun hr => hr.congr fun k hk => (hcoe k hk).symm
  refine ⟨fun k hk => ?_, fun hr k hk => ?_, fun hr j hj => ?_, fun k hk hr => ?_, fun hr => ?_⟩
  · rw [← WithTop.coe_le_coe, hcoe k hk]
    exact hle k hk
  · exact coe_le_way_iff.mp ((hcoe k hk).trans_le (hinside (hrow hr) k hk))
  · exact coe_le_way_iff.mp (houtside (hrow hr) j hj)
  · obtain ⟨x, hx, hd⟩ := hedge k hk hr
    exact ⟨x, hx.congr hcoe, coe_eq_way_iff.mp ((hcoe k hk).trans hd)⟩
  · obtain ⟨x, hx, hd⟩ := hlast hr
    exact ⟨x, hx.congr hcoe, coe_eq_way_iff.mp hd⟩

def raisedRow (s : Matching n m) (u : Fin n → ℚ) (root : Fin n) (trail : List (Fin m))
    (d : Fin m → ℚ) (length : ℚ) (i : Fin n) : ℚ :=
  if i = root then u i + length
  else
    match s.columnOf[i] with
    | some k => if k ∈ trail ∧ s.rowOf[k] = some i then u i + (length - d k) else u i
    | none => u i

def loweredColumn (v : Fin m → ℚ) (trail : List (Fin m)) (d : Fin m → ℚ) (length : ℚ)
    (j : Fin m) : ℚ :=
  if j ∈ trail then v j - (length - d j) else v j

section search

variable {u : Fin n → ℚ} {v : Fin m → ℚ} {reachedBy : Fin m → Option (Fin n)} {root : Fin n}
  {trail : List (Fin m)} {d : Fin m → ℚ} {sink : Fin m} {length : ℚ}

theorem raisedRow_of_rowAt (hs : s.Consistent) (hroot : ¬ s.IsMatched root) {i : Fin n} {x : ℚ}
    (h : s.RowAt root trail (fun k => d k) i x) :
    s.raisedRow u root trail d length i = u i + (length - x) := by
  unfold raisedRow
  rcases h with ⟨rfl, rfl⟩ | ⟨k, hk, hi, hx⟩
  · rw [if_pos rfl, sub_zero]
  · have hne : i ≠ root := fun he => hroot ⟨k, he ▸ hi⟩
    rw [if_neg hne, hs hi]
    simp only [if_pos (And.intro hk hi), WithTop.coe_inj.mp hx]

theorem raisedRow_of_not_onTrail {i : Fin n} (h : ¬ s.OnTrail root trail i) :
    s.raisedRow u root trail d length i = u i := by
  unfold raisedRow
  rw [if_neg fun he => h (.inl he)]
  split
  next k _ => exact if_neg fun hk => h (.inr ⟨k, hk.1, hk.2⟩)
  next => rfl

theorem raisedRow_of_not_mem (hs : s.Consistent) {i : Fin n} {k : Fin m}
    (hroot : i ≠ root) (hi : s.rowOf[k] = some i) (hk : k ∉ trail) :
    s.raisedRow u root trail d length i = u i := by
  apply raisedRow_of_not_onTrail
  rintro (he | ⟨l, hl, hli⟩)
  · exact hroot he
  · exact hk (hs.eq_of_rowOf hli hi ▸ hl)

theorem IsLabelling.loweredColumn_le (h : s.IsLabelling c u v reachedBy root trail d sink length)
    (j : Fin m) : loweredColumn v trail d length j ≤ v j := by
  unfold loweredColumn
  split
  next hj => linarith [h.le_length j hj]
  next => exact le_rfl

/-- No reduced cost of a row on the trail becomes negative. -/
theorem IsLabelling.below (h : s.IsLabelling c u v reachedBy root trail d sink length)
    (hs : s.Consistent) (hroot : ¬ s.IsMatched root) {i : Fin n} {x : ℚ}
    (hi : s.RowAt root trail (fun k => d k) i x) (j : Fin m) :
    ((s.raisedRow u root trail d length i + loweredColumn v trail d length j : ℚ) : WithTop ℚ)
      ≤ c i j := by
  rw [raisedRow_of_rowAt hs hroot hi]
  unfold loweredColumn
  split
  next hj =>
    refine le_of_eq_of_le ?_ (h.inside hi j hj)
    congr 1
    ring
  next hj =>
    refine le_of_eq_of_le ?_ (h.outside hi j hj)
    congr 1
    ring

/-- The steps by which the search reached its columns come to zero reduced cost. -/
theorem IsLabelling.tight (h : s.IsLabelling c u v reachedBy root trail d sink length)
    (hs : s.Consistent) (hroot : ¬ s.IsMatched root) (hsink : sink ∉ trail) {i : Fin n}
    {k : Fin m} (hk : k = sink ∨ k ∈ trail) (hi : reachedBy k = some i) :
    c i k =
      ((s.raisedRow u root trail d length i + loweredColumn v trail d length k : ℚ) :
        WithTop ℚ) := by
  rcases hk with rfl | hk
  · obtain ⟨x, hx, hc⟩ := h.last hi
    rw [raisedRow_of_rowAt hs hroot hx, hc, loweredColumn, if_neg hsink]
    congr 1
    ring
  · obtain ⟨x, hx, hc⟩ := h.edge k hk hi
    rw [raisedRow_of_rowAt hs hroot hx, hc, loweredColumn, if_pos hk]
    congr 1
    ring

/-- Ways of zero reduced cost remain so along the path, and others do not become negative. -/
theorem IsSupported.flipped {t : Matching n m} (hu : s.IsSupported c u v) (hs : s.Consistent)
    (hroot : ¬ s.IsMatched root) (htrail : s.Trail reachedBy root trail)
    (hsink : s.rowOf[sink] = none)
    (h : s.IsLabelling c u v reachedBy root trail d sink length)
    (ht : Flipped s t reachedBy root trail sink) :
    t.IsSupported c (s.raisedRow u root trail d length) (loweredColumn v trail d length) := by
  constructor
  · intro i hi j
    rcases (isMatched_of_flipped ht hsink i).mp hi with rfl | ⟨k, hk⟩
    · exact h.below hs hroot (.inl ⟨rfl, rfl⟩) j
    · by_cases hkt : k ∈ trail
      · exact h.below hs hroot (.inr ⟨k, hkt, hk, rfl⟩) j
      · have hne : i ≠ root := fun he => hroot ⟨k, he ▸ hk⟩
        rw [raisedRow_of_not_mem hs hne hk hkt]
        refine le_trans ?_ (hu.below ⟨k, hk⟩ j)
        exact WithTop.coe_le_coe.mpr (by linarith [h.loweredColumn_le j])
  · intro i k hk
    rcases ht.origin k i hk with ⟨hne, hold⟩ | ⟨hpath, hreach⟩
    · by_cases hkt : k ∈ trail
      · rw [raisedRow_of_rowAt hs hroot (.inr ⟨k, hkt, hold, rfl⟩), hu.tight hold, loweredColumn,
          if_pos hkt]
        congr 1
        ring
      · have hne : i ≠ root := fun he => hroot ⟨k, he ▸ hold⟩
        rw [raisedRow_of_not_mem hs hne hold hkt, hu.tight hold, loweredColumn, if_neg hkt]
    · exact h.tight hs hroot (htrail.not_mem_of_free hsink) hpath hreach

theorem FreeAtZero.flipped {t : Matching n m} (hv : s.FreeAtZero v)
    (htrail : s.Trail reachedBy root trail)
    (h : s.IsLabelling c u v reachedBy root trail d sink length)
    (ht : Flipped s t reachedBy root trail sink) :
    t.FreeAtZero (loweredColumn v trail d length) where
  nonpos j := (h.loweredColumn_le j).trans (hv.nonpos j)
  free j hj := by
    have hold := ((ht.isFree j).mp hj).2
    rw [loweredColumn, if_neg (htrail.not_mem_of_free hold), hv.free j hold]

end search

end Matching

end LinearAssignment
