import LinearAssignment.Matching
import Mathlib.Data.Fintype.EquivFin
import Mathlib.Data.List.Nodup
import Mathlib.Tactic.Push

/-! Growth of a matching along an alternating path. A search leaves behind the trail of the
columns that it scanned, each reached from the root or from a row that holds a column scanned
before. Flipping the path back from a free column then matches the root and nothing else. -/
namespace LinearAssignment

variable {n m : Nat}

namespace Matching

/-- Each column that a row holds is the column of the row. What a row that holds no column has
for its column is of no account. -/
def Consistent (s : Matching n m) : Prop :=
  ∀ ⦃i : Fin n⦄ ⦃j : Fin m⦄, s.rowOf[j] = some i → s.columnOf[i] = some j

def IsMatched (s : Matching n m) (i : Fin n) : Prop := ∃ j : Fin m, s.rowOf[j] = some i

theorem Consistent.eq_of_rowOf {s : Matching n m} (h : s.Consistent) {i : Fin n} {j k : Fin m}
    (hj : s.rowOf[j] = some i) (hk : s.rowOf[k] = some i) : j = k :=
  Option.some.inj ((h hj).symm.trans (h hk))

theorem rowOf_empty (j : Fin m) : (empty : Matching n m).rowOf[j] = none :=
  getElem_replicate_fin none j

theorem consistent_empty : (empty : Matching n m).Consistent := by
  intro i j h
  rw [rowOf_empty] at h
  exact absurd h (by simp)

theorem not_isMatched_empty (i : Fin n) : ¬ (empty : Matching n m).IsMatched i := by
  rintro ⟨j, hj⟩
  rw [rowOf_empty] at hj
  exact absurd hj (by simp)

theorem isFree_iff {s : Matching n m} {j : Fin m} : s.isFree j = true ↔ s.rowOf[j] = none := by
  simp [isFree]

theorem columnOf_pair (s : Matching n m) (i i' : Fin n) (j : Fin m) :
    (s.pair i j).columnOf[i'] = if i' = i then some j else s.columnOf[i'] :=
  getElem_set_fin _ _ _ _

theorem rowOf_pair (s : Matching n m) (i : Fin n) (j j' : Fin m) :
    (s.pair i j).rowOf[j'] = if j' = j then some i else s.rowOf[j'] :=
  getElem_set_fin _ _ _ _

theorem Consistent.pair {s : Matching n m} (h : s.Consistent) {i : Fin n}
    (hi : ¬ s.IsMatched i) (j : Fin m) : (s.pair i j).Consistent := by
  intro i' j' h'
  rw [rowOf_pair] at h'
  rw [columnOf_pair]
  split at h'
  next hj => simp_all
  next hj =>
    have hne : i' ≠ i := fun he => hi ⟨j', he ▸ h'⟩
    rw [if_neg hne, h h']

theorem isMatched_pair {s : Matching n m} (h : s.Consistent) {i : Fin n}
    (j : Fin m) (r : Fin n) :
    (s.pair i j).IsMatched r ↔ r = i ∨ (s.IsMatched r ∧ s.rowOf[j] ≠ some r) := by
  constructor
  · rintro ⟨k, hk⟩
    rw [rowOf_pair] at hk
    split at hk
    · exact .inl (Option.some.inj hk).symm
    · next hkj => exact .inr ⟨⟨k, hk⟩, fun hj => hkj (h.eq_of_rowOf hk hj)⟩
  · rintro (rfl | ⟨⟨k, hk⟩, hj⟩)
    · exact ⟨j, by rw [rowOf_pair, if_pos rfl]⟩
    · have hkj : k ≠ j := by rintro rfl; exact hj hk
      exact ⟨k, by rw [rowOf_pair, if_neg hkj, hk]⟩

def OnTrail (s : Matching n m) (root : Fin n) (trail : List (Fin m)) (i : Fin n) : Prop :=
  i = root ∨ ∃ k ∈ trail, s.rowOf[k] = some i

def ReachedFrom (s : Matching n m) (reachedBy : Fin m → Option (Fin n)) (root : Fin n)
    (trail : List (Fin m)) (j : Fin m) : Prop :=
  ∃ i, reachedBy j = some i ∧ s.OnTrail root trail i

/-- The columns that a search from the root has scanned, the latest first. -/
inductive Trail (s : Matching n m) (reachedBy : Fin m → Option (Fin n)) (root : Fin n) :
    List (Fin m) → Prop
  | nil : Trail s reachedBy root []
  | cons {j trail} (i : Fin n) (before : Trail s reachedBy root trail) (fresh : j ∉ trail)
      (held : s.rowOf[j] = some i) (reached : s.ReachedFrom reachedBy root trail j) :
      Trail s reachedBy root (j :: trail)

theorem OnTrail.cons {s : Matching n m} {root i : Fin n} {trail : List (Fin m)}
    (h : s.OnTrail root trail i) (j : Fin m) : s.OnTrail root (j :: trail) i :=
  h.imp_right fun ⟨k, hk, hi⟩ => ⟨k, List.mem_cons_of_mem _ hk, hi⟩

theorem onTrail_cons {s : Matching n m} {root i : Fin n} {trail : List (Fin m)} {j : Fin m} :
    s.OnTrail root (j :: trail) i ↔ s.OnTrail root trail i ∨ s.rowOf[j] = some i := by
  constructor
  · rintro (h | ⟨k, hk, hi⟩)
    · exact .inl (.inl h)
    · rcases List.mem_cons.mp hk with rfl | hk
      · exact .inr hi
      · exact .inl (.inr ⟨k, hk, hi⟩)
  · rintro (h | h)
    · exact h.cons j
    · exact .inr ⟨j, List.mem_cons_self, h⟩

theorem ReachedFrom.cons {s : Matching n m} {reachedBy : Fin m → Option (Fin n)} {root : Fin n}
    {trail : List (Fin m)} {k : Fin m} (h : s.ReachedFrom reachedBy root trail k) (j : Fin m) :
    s.ReachedFrom reachedBy root (j :: trail) k :=
  h.imp fun _ hi => ⟨hi.1, hi.2.cons j⟩

namespace Trail

variable {s : Matching n m} {reachedBy : Fin m → Option (Fin n)} {root : Fin n}
  {trail : List (Fin m)}

theorem nodup (h : s.Trail reachedBy root trail) : trail.Nodup := by
  induction h with
  | nil => exact List.nodup_nil
  | cons i _ fresh _ _ ih => exact List.nodup_cons.mpr ⟨fresh, ih⟩

theorem held (h : s.Trail reachedBy root trail) {k : Fin m} (hk : k ∈ trail) :
    ∃ i, s.rowOf[k] = some i := by
  induction h with
  | nil => simp at hk
  | cons i _ _ held _ ih =>
    rcases List.mem_cons.mp hk with rfl | hk
    · exact ⟨i, held⟩
    · exact ih hk

theorem not_mem_of_free (h : s.Trail reachedBy root trail) {j : Fin m} (hj : s.rowOf[j] = none) :
    j ∉ trail := by
  intro hmem
  obtain ⟨i, hi⟩ := h.held hmem
  rw [hj] at hi
  exact absurd hi (by simp)

theorem reachedFrom (h : s.Trail reachedBy root trail) {k : Fin m} (hk : k ∈ trail) :
    s.ReachedFrom reachedBy root trail k := by
  induction h with
  | nil => simp at hk
  | cons i _ _ _ reached ih =>
    rcases List.mem_cons.mp hk with rfl | hk
    · exact reached.cons _
    · exact (ih hk).cons _

/-- What a search records of columns off the trail does not matter. -/
theorem congr {reachedBy' : Fin m → Option (Fin n)} (h : s.Trail reachedBy root trail)
    (he : ∀ k ∈ trail, reachedBy' k = reachedBy k) : s.Trail reachedBy' root trail := by
  induction h with
  | nil => exact .nil
  | @cons j t i _ fresh held reached ih =>
    obtain ⟨r, hr, ho⟩ := reached
    refine .cons i (ih fun k hk => he k (List.mem_cons_of_mem _ hk)) fresh held ⟨r, ?_, ho⟩
    rw [he j List.mem_cons_self, hr]

theorem exists_before (h : s.Trail reachedBy root trail) {k : Fin m} (hk : k ∈ trail) :
    ∃ t : List (Fin m), t.length < trail.length ∧ t ⊆ trail ∧ k ∉ t ∧
      s.Trail reachedBy root t ∧ s.ReachedFrom reachedBy root t k := by
  induction h with
  | nil => simp at hk
  | @cons j t i before fresh _ reached ih =>
    rcases List.mem_cons.mp hk with rfl | hk
    · exact ⟨t, by simp, List.subset_cons_self _ _, fresh, before, reached⟩
    · obtain ⟨t', hlen, hsub, hk', ht', hr⟩ := ih hk
      exact ⟨t', Nat.lt_succ_of_lt hlen, List.Subset.trans hsub (List.subset_cons_self _ _), hk',
        ht', hr⟩

theorem pair (h : s.Trail reachedBy root trail) {j : Fin m} (hj : j ∉ trail) (i : Fin n) :
    (s.pair i j).Trail reachedBy root trail := by
  have hrow : ∀ k ∈ trail, (s.pair i j).rowOf[k] = s.rowOf[k] := fun k hk => by
    rw [rowOf_pair, if_neg fun he : k = j => hj (he ▸ hk)]
  induction h with
  | nil => exact .nil
  | @cons k t r _ fresh held reached ih =>
    obtain ⟨r', hr, ho⟩ := reached
    have hj' : j ∉ t := fun ht => hj (List.mem_cons_of_mem _ ht)
    have hrow' := fun k' (hk' : k' ∈ t) => hrow k' (List.mem_cons_of_mem _ hk')
    refine .cons r (ih hj' hrow') fresh ((hrow k List.mem_cons_self).trans held) ⟨r', hr, ?_⟩
    exact ho.imp_right fun ⟨k', hk', hr'⟩ => ⟨k', hk', (hrow' k' hk').trans hr'⟩

theorem nodup_rows (h : s.Trail reachedBy root trail) (hs : s.Consistent)
    (hroot : ¬ s.IsMatched root) : (some root :: trail.map fun k => s.rowOf[k]).Nodup := by
  have hinj : ∀ a ∈ trail, ∀ b ∈ trail, s.rowOf[a] = s.rowOf[b] → a = b := by
    intro a ha b hb hab
    obtain ⟨i, hi⟩ := h.held ha
    exact hs.eq_of_rowOf hi (hab ▸ hi)
  refine List.nodup_cons.mpr ⟨?_, (List.nodup_map_iff_inj_on h.nodup).mpr hinj⟩
  intro hmem
  obtain ⟨k, _, hk⟩ := List.mem_map.mp hmem
  exact hroot ⟨k, hk⟩

theorem exists_row (h : s.Trail reachedBy root trail) {o : Option (Fin n)}
    (ho : o ∈ some root :: trail.map fun k => s.rowOf[k]) :
    ∃ i, o = some i ∧ s.OnTrail root trail i := by
  rcases List.mem_cons.mp ho with rfl | ho
  · exact ⟨root, rfl, .inl rfl⟩
  · obtain ⟨k, hk, rfl⟩ := List.mem_map.mp ho
    obtain ⟨i, hi⟩ := h.held hk
    exact ⟨i, hi, .inr ⟨k, hk, hi⟩⟩

theorem length_lt (h : s.Trail reachedBy root trail) (hs : s.Consistent)
    (hroot : ¬ s.IsMatched root) : trail.length < n := by
  have hsub : (some root :: trail.map fun k => s.rowOf[k]) ⊆ (List.finRange n).map some := by
    intro o ho
    obtain ⟨i, rfl, -⟩ := h.exists_row ho
    simp
  have hlen := (List.subperm_of_subset (h.nodup_rows hs hroot) hsub).length_le
  simp only [List.length_cons, List.length_map, List.length_finRange] at hlen
  omega

/-- The rows on a trail outnumber its columns, so no assignment pairs them with each other. -/
theorem exists_escape (h : s.Trail reachedBy root trail) (hs : s.Consistent)
    (hroot : ¬ s.IsMatched root) {f : Fin n → Fin m}
    (hf : Set.InjOn f {i | s.OnTrail root trail i}) :
    ∃ i, s.OnTrail root trail i ∧ f i ∉ trail := by
  by_contra hno
  push Not at hno
  have hnodup : ((some root :: trail.map fun k => s.rowOf[k]).map (Option.map f)).Nodup := by
    refine (List.nodup_map_iff_inj_on (h.nodup_rows hs hroot)).mpr ?_
    intro o ho o' ho' he
    obtain ⟨i, rfl, hi⟩ := h.exists_row ho
    obtain ⟨i', rfl, hi'⟩ := h.exists_row ho'
    exact congrArg some (hf hi hi' (Option.some.inj he))
  have hsub : (some root :: trail.map fun k => s.rowOf[k]).map (Option.map f) ⊆
      trail.map some := by
    intro o ho
    obtain ⟨o', ho', rfl⟩ := List.mem_map.mp ho
    obtain ⟨i, rfl, hi⟩ := h.exists_row ho'
    exact List.mem_map_of_mem (hno i hi)
  have hlen := (List.subperm_of_subset hnodup hsub).length_le
  simp only [List.length_cons, List.length_map] at hlen
  omega

end Trail

/-- A matching of the rows of another one and the root, after the path back from `j` has been
flipped. In the other one `j` may still be held by a row that has gone on to another column. -/
structure Flipped (s t : Matching n m) (reachedBy : Fin m → Option (Fin n)) (root : Fin n)
    (trail : List (Fin m)) (j : Fin m) : Prop where
  consistent : t.Consistent
  isMatched : ∀ i, t.IsMatched i ↔ i = root ∨ ∃ k : Fin m, k ≠ j ∧ s.rowOf[k] = some i
  isFree : ∀ k : Fin m, t.rowOf[k] = none ↔ k ≠ j ∧ s.rowOf[k] = none
  origin : ∀ (k : Fin m) (i : Fin n), t.rowOf[k] = some i →
    (k ≠ j ∧ s.rowOf[k] = some i) ∨ ((k = j ∨ k ∈ trail) ∧ reachedBy k = some i)

/-- A matching that misses a row leaves a column free, unless there are fewer columns. -/
theorem Consistent.exists_free {s : Matching n m} (hs : s.Consistent) {root : Fin n}
    (hroot : ¬ s.IsMatched root) (hnm : n ≤ m) : ∃ j : Fin m, s.rowOf[j] = none := by
  by_contra hno
  have hheld : ∀ j : Fin m, ∃ i, s.rowOf[j] = some i := fun j =>
    Option.ne_none_iff_exists'.mp fun hj => hno ⟨j, hj⟩
  choose g hg using hheld
  have hinj : Function.Injective g := fun j k he => hs.eq_of_rowOf (hg j) (he ▸ hg k)
  have hsurj : Function.Surjective g := by
    have hle := Fintype.card_le_of_injective g hinj
    rw [Fintype.card_fin, Fintype.card_fin] at hle
    obtain rfl : n = m := by omega
    exact Finite.surjective_of_injective hinj
  obtain ⟨j, hj⟩ := hsurj root
  exact hroot ⟨j, hj ▸ hg j⟩

section flip

variable {s : Matching n m} {reachedBy : Fin m → Option (Fin n)} {root : Fin n}
  {trail : List (Fin m)} {j : Fin m}

theorem flipped_root
    (hs : ∀ (k : Fin m) (i : Fin n), k ≠ j → s.rowOf[k] = some i → s.columnOf[i] = some k)
    (hroot : ∀ k : Fin m, k ≠ j → s.rowOf[k] ≠ some root) (hj : reachedBy j = some root) :
    Flipped s (s.pair root j) reachedBy root trail j where
  consistent := by
    intro i k h
    rw [rowOf_pair] at h
    rw [columnOf_pair]
    split at h
    next hk => simp_all
    next hk =>
      have hne : i ≠ root := fun he => hroot k hk (he ▸ h)
      rw [if_neg hne, hs k i hk h]
  isMatched i := by
    constructor
    · rintro ⟨k, hk⟩
      rw [rowOf_pair] at hk
      split at hk
      · exact .inl (Option.some.inj hk).symm
      · next hkj => exact .inr ⟨k, hkj, hk⟩
    · rintro (rfl | ⟨k, hkj, hk⟩)
      · exact ⟨j, by rw [rowOf_pair, if_pos rfl]⟩
      · exact ⟨k, by rw [rowOf_pair, if_neg hkj, hk]⟩
  isFree k := by
    rw [rowOf_pair]
    split <;> simp_all
  origin k i h := by
    rw [rowOf_pair] at h
    split at h
    next hk => exact .inr ⟨.inl hk, by rw [hk, hj, Option.some.inj h]⟩
    next hk => exact .inl ⟨hk, h⟩

/-- The row that reached `j` takes it and leaves its own column `k` to the rest of the path. -/
theorem Flipped.step {t : Matching n m} {before : List (Fin m)} {i : Fin n} {k : Fin m}
    (h : Flipped (s.pair i j) t reachedBy root before k) (hsub : before ⊆ trail)
    (hk : k ∈ trail) (hj : j ∉ trail) (hi : s.rowOf[k] = some i) (hij : reachedBy j = some i) :
    Flipped s t reachedBy root trail j := by
  have hkj : k ≠ j := fun he => hj (he ▸ hk)
  constructor
  case consistent => exact h.consistent
  case isMatched =>
    intro r
    rw [h.isMatched r]
    refine or_congr_right ⟨?_, ?_⟩
    · rintro ⟨k', hk', hr⟩
      rw [rowOf_pair] at hr
      split at hr
      · exact ⟨k, hkj, hi.trans hr⟩
      · next hne => exact ⟨k', hne, hr⟩
    · rintro ⟨k', hk', hr⟩
      by_cases he : k' = k
      · exact ⟨j, hkj.symm, by rw [rowOf_pair, if_pos rfl, ← hi, ← he, hr]⟩
      · exact ⟨k', he, by rw [rowOf_pair, if_neg hk', hr]⟩
  case isFree =>
    intro k'
    rw [h.isFree k', rowOf_pair]
    by_cases he : k' = k
    · subst he
      rw [hi]
      simp
    · split <;> simp_all
  case origin =>
    intro k' r hr
    rcases h.origin k' r hr with ⟨hne, hr'⟩ | ⟨hmem, hr'⟩
    · rw [rowOf_pair] at hr'
      split at hr'
      next hk' => exact .inr ⟨.inl hk', by rw [hk', hij, Option.some.inj hr']⟩
      next hk' => exact .inl ⟨hk', hr'⟩
    · refine .inr ⟨.inr ?_, hr'⟩
      rcases hmem with rfl | hmem
      · exact hk
      · exact hsub hmem

/-- From `j` the way leads back to the root over columns of the trail. The column `j` may still be
held by a row that has gone on to another one. -/
structure LeadsBack (s : Matching n m) (reachedBy : Fin m → Option (Fin n)) (root : Fin n)
    (trail : List (Fin m)) (j : Fin m) : Prop where
  columnOf : ∀ (k : Fin m) (i : Fin n), k ≠ j → s.rowOf[k] = some i → s.columnOf[i] = some k
  rowOf_ne : ∀ k : Fin m, k ≠ j → s.rowOf[k] ≠ some root
  isTrail : s.Trail reachedBy root trail
  not_mem : j ∉ trail
  reached : s.ReachedFrom reachedBy root trail j

/-- The row that reached `j` holds a column that was scanned before, unless it is the root. When it
takes `j` instead, the way leads back from that column over the trail up to it. -/
theorem LeadsBack.step {i : Fin n} (h : s.LeadsBack reachedBy root trail j)
    (hij : reachedBy j = some i) (hi : i ≠ root) :
    ∃ (k : Fin m) (before : List (Fin m)), s.rowOf[k] = some i ∧ s.columnOf[i] = some k ∧
      k ∈ trail ∧ before.length < trail.length ∧ before ⊆ trail ∧
      (s.pair i j).LeadsBack reachedBy root before k := by
  obtain ⟨i', hij', ho⟩ := h.reached
  obtain rfl : i' = i := Option.some.inj (hij'.symm.trans hij)
  obtain ⟨k, hk, hki⟩ := ho.resolve_left hi
  have hkj : k ≠ j := fun he => h.not_mem (he ▸ hk)
  have hci := h.columnOf k i' hkj hki
  obtain ⟨before, hlt, hsub, hk', hbefore, hreach⟩ := h.isTrail.exists_before hk
  have hjb : j ∉ before := fun hj => h.not_mem (hsub hj)
  refine ⟨k, before, hki, hci, hk, hlt, hsub, ?_, ?_, hbefore.pair hjb i', hk', ?_⟩
  · intro k' r hk'k hr
    rw [rowOf_pair] at hr
    rw [columnOf_pair]
    split at hr
    next hk'j => simp_all
    next hk'j =>
      have hck := h.columnOf k' r hk'j hr
      have hne : r ≠ i' := fun he => hk'k (by simp_all)
      rw [if_neg hne, hck]
  · intro k' _ hr
    rw [rowOf_pair] at hr
    split at hr
    · exact hi (Option.some.inj hr)
    · next hk'j => exact h.rowOf_ne k' hk'j hr
  · obtain ⟨r, hr, ho⟩ := hreach
    refine ⟨r, hr, ho.imp_right fun ⟨k', hk', hr'⟩ => ⟨k', hk', ?_⟩⟩
    rw [rowOf_pair, if_neg fun he : k' = j => hjb (he ▸ hk'), hr']

theorem flipped_flip (steps : Nat) (s : Matching n m) (trail : List (Fin m)) (j : Fin m)
    (hlen : trail.length < steps) (h : s.LeadsBack reachedBy root trail j) :
    Flipped s (s.flip reachedBy root steps j) reachedBy root trail j := by
  -- Induction on the number of steps, which exceeds the length of the trail that is left: the path
  -- goes back to a column that was scanned before.
  induction steps generalizing s trail j with
  | zero => omega
  | succ steps ih =>
    obtain ⟨i, hij, -⟩ := h.reached
    by_cases hi : i = root
    · subst hi
      simp only [flip, hij, ↓reduceIte]
      exact flipped_root h.columnOf h.rowOf_ne hij
    · obtain ⟨k, before, hki, hci, hk, hlt, hsub, hback⟩ := h.step hij hi
      simp only [flip, hij, if_neg hi, hci]
      exact (ih (s.pair i j) before k (by omega) hback).step hsub hk h.not_mem hki hij

/-- Back from a free column that the search has reached, the way leads over its whole trail. -/
theorem leadsBack (hs : s.Consistent) (hroot : ¬ s.IsMatched root)
    (htrail : s.Trail reachedBy root trail) (hj : s.rowOf[j] = none)
    (hreach : s.ReachedFrom reachedBy root trail j) : s.LeadsBack reachedBy root trail j :=
  ⟨fun _ _ _ h => hs h, fun k _ h => hroot ⟨k, h⟩, htrail, htrail.not_mem_of_free hj, hreach⟩

/-- Augmenting matches the root and the sink and, of what was matched, everything still. -/
theorem flipped_augment (hs : s.Consistent) (hroot : ¬ s.IsMatched root)
    (htrail : s.Trail reachedBy root trail) (hj : s.rowOf[j] = none)
    (hreach : s.ReachedFrom reachedBy root trail j) :
    Flipped s (s.augment reachedBy root j) reachedBy root trail j := by
  exact flipped_flip n s trail j (htrail.length_lt hs hroot) (leadsBack hs hroot htrail hj hreach)

theorem isMatched_of_flipped {t : Matching n m} (h : Flipped s t reachedBy root trail j)
    (hj : s.rowOf[j] = none) (i : Fin n) : t.IsMatched i ↔ i = root ∨ s.IsMatched i := by
  rw [h.isMatched i]
  refine or_congr_right ⟨fun ⟨k, _, hk⟩ => ⟨k, hk⟩, fun ⟨k, hk⟩ => ⟨k, ?_, hk⟩⟩
  rintro rfl
  simp [hj] at hk

end flip

end Matching

end LinearAssignment
