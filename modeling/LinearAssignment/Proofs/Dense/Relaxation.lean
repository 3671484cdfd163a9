import LinearAssignment.Proofs.Dense.Frontier
import Mathlib.Data.List.TakeWhile

/-! What relaxing the columns through a row does, in any arithmetic: the columns up to the end of
the frontier keep their labels, the others take the shorter ways, and only columns that a row holds
join the frontier. -/
namespace LinearAssignment.Labels

variable {α : Type} {n m : ℕ}

section enter

variable {order : ColumnOrder m} {start k : ℕ} {P : Fin m → Prop} {s : Labels α n m}

/-- Columns with property `P` have joined the frontier, from the positions of `order` between
`start` and `k`. -/
structure IsGrown (order : ColumnOrder m) (start k : ℕ) (P : Fin m → Prop)
    (s : Labels α n m) : Prop where
  distinct : s.order.Distinct
  before : ∀ a : Fin m, a.val < start → s.order[a] = order[a]
  after : ∀ a : Fin m, k ≤ a.val → s.order[a] = order[a]
  joined : ∀ a : Fin m, start ≤ a.val → a.val < s.up → P s.order[a]
  start_le : start ≤ s.up
  up_le : s.up ≤ k

theorem isGrown_enter (hs : IsGrown order start k P s) {o : Offer α m}
    (ho : k ≤ o.position.val) (hP : P order[o.position]) :
    IsGrown order start (o.position.val + 1) P (s.enter o) := by
  have hstart := hs.start_le
  have hup := hs.up_le
  obtain ⟨l, hl⟩ : ∃ l : Fin m, l.val = s.up :=
    ⟨⟨s.up, (hup.trans ho).trans_lt o.position.isLt⟩, rfl⟩
  have horder : (s.enter o).order = s.order.join l o.position := by
    rw [hl]
    rfl
  constructor
  case distinct =>
    rw [horder]
    exact hs.distinct.join l o.position
  case before =>
    intro a ha
    rw [horder, ColumnOrder.getElem_join_of_ne _ (by omega) (by omega), hs.before a ha]
  case after =>
    intro a ha
    rw [horder, ColumnOrder.getElem_join_of_ne _ (by omega) (by omega), hs.after a (by omega)]
  case start_le => exact Nat.le_succ_of_le hstart
  case up_le => exact Nat.succ_le_succ (hup.trans ho)
  case joined =>
    intro a ha ha'
    change a.val < s.up + 1 at ha'
    by_cases hal : a = l
    · rw [horder, hal, ColumnOrder.getElem_join_end, hs.after _ ho]
      exact hP
    · rw [horder, ColumnOrder.getElem_join_of_ne _ hal (by omega)]
      exact hs.joined a ha (by omega)

theorem isGrown_foldl {os : List (Offer α m)} (hs : IsGrown order start k P s)
    (hsorted : os.Pairwise (·.position < ·.position))
    (hos : ∀ o ∈ os, k ≤ o.position.val ∧ P order[o.position]) (hkm : k ≤ m) :
    IsGrown order start m P (os.foldl enter s) := by
  induction os generalizing s k with
  | nil => exact ⟨hs.distinct, hs.before, fun a ha => absurd a.isLt (by omega), hs.joined,
      hs.start_le, hs.up_le.trans hkm⟩
  | cons o os ih =>
    obtain ⟨hlt, hsorted⟩ := List.pairwise_cons.mp hsorted
    obtain ⟨ho, hP⟩ := hos o List.mem_cons_self
    refine ih (isGrown_enter hs ho hP) hsorted (fun o' ho' => ⟨hlt o' ho', ?_⟩) o.position.isLt
    exact (hos o' (List.mem_cons_of_mem _ ho')).2

theorem labels_foldl_enter (os : List (Offer α m)) (s : Labels α n m) :
    (os.foldl enter s).distance = s.distance ∧ (os.foldl enter s).reachedBy = s.reachedBy := by
  induction os generalizing s with
  | nil => exact ⟨rfl, rfl⟩
  | cons o os ih => exact ih (s.enter o)

end enter

section label

variable (value : Fin m → α) (i : Fin n) (os : List (Offer α m)) (s : Labels α n m) (j : Fin m)

theorem distance_foldl_label (hos : ∀ o ∈ os, o.value = value o.column) :
    (os.foldl (label i) s).distance[j] =
      if j ∈ os.map Offer.column then value j else s.distance[j] := by
  induction os generalizing s with
  | nil => simp
  | cons o os ih =>
    rw [List.foldl_cons, ih _ fun o' ho' => hos o' (List.mem_cons_of_mem _ ho')]
    simp only [label, getElem_set_fin, List.map_cons, List.mem_cons]
    by_cases hj : j ∈ os.map Offer.column
    · rw [if_pos hj, if_pos (.inr hj)]
    · by_cases ho : j = o.column
      · rw [if_neg hj, if_pos ho, if_pos (.inl ho), hos o List.mem_cons_self, ho]
      · rw [if_neg hj, if_neg ho, if_neg (not_or.mpr ⟨ho, hj⟩)]

theorem reachedBy_foldl_label :
    (os.foldl (label i) s).reachedBy[j] =
      if j ∈ os.map Offer.column then i else s.reachedBy[j] := by
  induction os generalizing s with
  | nil => simp
  | cons o os ih =>
    rw [List.foldl_cons, ih]
    simp only [label, getElem_set_fin, List.map_cons, List.mem_cons]
    by_cases hj : j ∈ os.map Offer.column
    · rw [if_pos hj, if_pos (.inr hj)]
    · by_cases ho : j = o.column
      · rw [if_neg hj, if_pos ho, if_pos (.inl ho)]
      · rw [if_neg hj, if_neg ho, if_neg (not_or.mpr ⟨ho, hj⟩)]

theorem order_foldl_label :
    (os.foldl (label i) s).order = s.order ∧ (os.foldl (label i) s).up = s.up := by
  induction os generalizing s with
  | nil => exact ⟨rfl, rfl⟩
  | cons o os ih => exact ih (s.label i o)

end label

variable [Cost α] {s : Labels α n m} {row price : Vector α m} {isFree : Fin m → Bool} {i : Fin n}
  {h minimum : α}

def way (row price : Vector α m) (h : α) (j : Fin m) : α := row[j] - price[j] - h

theorem mem_offers {o : Offer α m} : o ∈ s.offers row price h ↔ s.up ≤ o.position.val ∧
    o.column = s.order[o.position] ∧ o.value = way row price h o.column ∧
      o.value < s.distance[o.column] := by
  simp only [offers, List.mem_filter, List.mem_map, ColumnOrder.mem_positionsFrom,
    decide_eq_true_eq]
  constructor
  · rintro ⟨⟨k, hk, rfl⟩, hlt⟩
    exact ⟨hk, rfl, rfl, hlt⟩
  · rintro ⟨hk, hcolumn, hvalue, hlt⟩
    refine ⟨⟨o.position, hk, ?_⟩, hlt⟩
    simp only [← hcolumn]
    exact congrArg (Offer.mk o.position o.column) hvalue.symm

theorem offers_sorted : (s.offers row price h).Pairwise (·.position < ·.position) := by
  unfold offers
  refine List.Pairwise.filter _ (List.pairwise_map.mpr ?_)
  exact (ColumnOrder.positionsFrom_sorted _).imp fun hlt => hlt

theorem mem_columns_offers (hs : s.order.Distinct) {a : Fin m} :
    s.order[a] ∈ (s.offers row price h).map Offer.column ↔
      s.up ≤ a.val ∧ way row price h s.order[a] < s.distance[s.order[a]] := by
  rw [List.mem_map]
  constructor
  · rintro ⟨o, ho, he⟩
    obtain ⟨hk, hcolumn, hvalue, hlt⟩ := mem_offers.mp ho
    have hak : o.position = a := hs (hcolumn.symm.trans he)
    simp only [hvalue, he] at hlt
    exact ⟨hak ▸ hk, hlt⟩
  · rintro ⟨hk, hlt⟩
    exact ⟨⟨a, s.order[a], way row price h s.order[a]⟩, mem_offers.mpr ⟨hk, rfl, rfl, hlt⟩, rfl⟩

/-- Whether the search ends with an offer: it reaches a free column at the minimum distance. -/
def ends (isFree : Fin m → Bool) (minimum : α) (o : Offer α m) : Bool :=
  o.value == minimum && isFree o.column

def taken (s : Labels α n m) (row price : Vector α m) (isFree : Fin m → Bool) (h minimum : α) :
    List (Offer α m) :=
  (s.offers row price h).takeWhile fun o => !ends isFree minimum o

def relaxed (s : Labels α n m) (row price : Vector α m) (isFree : Fin m → Bool) (i : Fin n)
    (h minimum : α) : Labels α n m :=
  ((s.taken row price isFree h minimum).filter fun o => o.value == minimum).foldl enter
    ((s.taken row price isFree h minimum).foldl (label i) s)

theorem relax_eq : s.relax row price isFree i h minimum =
    match (s.offers row price h).find? (ends isFree minimum) with
    | none => (s.relaxed row price isFree i h minimum, none)
    | some o => ({ s.relaxed row price isFree i h minimum with
        reachedBy := (s.relaxed row price isFree i h minimum).reachedBy.setIfInBounds o.column i },
      some o.column) := rfl

theorem mem_taken {o : Offer α m} (ho : o ∈ s.taken row price isFree h minimum) :
    o ∈ s.offers row price h ∧ ends isFree minimum o = false :=
  ⟨(List.takeWhile_sublist _).subset ho, by simpa using List.mem_takeWhile_imp ho⟩

theorem taken_of_none (hnone : (s.offers row price h).find? (ends isFree minimum) = none) :
    s.taken row price isFree h minimum = s.offers row price h := by
  rw [List.find?_eq_none] at hnone
  exact List.takeWhile_eq_self_iff.mpr fun o ho => by simpa using hnone o ho

theorem not_mem_columns_taken (hs : s.order.Distinct) {a : Fin m} (ha : a.val < s.up) :
    s.order[a] ∉ (s.taken row price isFree h minimum).map Offer.column := by
  intro hmem
  have hoffer := List.map_subset _ (List.takeWhile_sublist _).subset hmem
  have hup := ((mem_columns_offers hs).mp hoffer).1
  omega

theorem distance_relaxed (j : Fin m) : (s.relaxed row price isFree i h minimum).distance[j] =
    if j ∈ (s.taken row price isFree h minimum).map Offer.column then way row price h j
    else s.distance[j] := by
  unfold relaxed
  rw [(labels_foldl_enter _ _).1]
  exact distance_foldl_label _ _ _ _ _ fun o ho => (mem_offers.mp (mem_taken ho).1).2.2.1

theorem reachedBy_relaxed (j : Fin m) : (s.relaxed row price isFree i h minimum).reachedBy[j] =
    if j ∈ (s.taken row price isFree h minimum).map Offer.column then i
    else s.reachedBy[j] := by
  unfold relaxed
  rw [(labels_foldl_enter _ _).2]
  exact reachedBy_foldl_label _ _ _ _

theorem isGrown_relaxed (row price : Vector α m) (isFree : Fin m → Bool) (i : Fin n)
    (h minimum : α) (hs : s.order.Distinct) (hup : s.up ≤ m) :
    IsGrown s.order s.up m (fun j => isFree j = false ∧
        ((s.relaxed row price isFree i h minimum).distance[j] == minimum) = true)
      (s.relaxed row price isFree i h minimum) := by
  obtain ⟨horder, hend⟩ := order_foldl_label i (s.taken row price isFree h minimum) s
  refine isGrown_foldl (k := s.up) ?_ ?_ (fun o ho => ?_) hup
  · refine ⟨by rwa [horder], fun a _ => by rw [horder], fun a _ => by rw [horder],
      fun a ha ha' => ?_, hend.ge, hend.le⟩
    omega
  · exact (offers_sorted.sublist (List.takeWhile_sublist _)).filter _
  · obtain ⟨ho, hvalue⟩ := List.mem_filter.mp ho
    obtain ⟨hoffer, hends⟩ := mem_taken ho
    obtain ⟨hk, hcolumn, hway, -⟩ := mem_offers.mp hoffer
    simp only [ends, hvalue, Bool.true_and] at hends
    refine ⟨hk, ?_⟩
    rw [← hcolumn, distance_relaxed, if_pos (List.mem_map_of_mem ho), ← hway]
    exact ⟨hends, hvalue⟩

/-- What is left of the labels after they have been relaxed through row `i`, and the free column
that was reached at the minimum distance, if there is one. -/
structure IsRelaxed (s : Labels α n m) (row price : Vector α m) (isFree : Fin m → Bool)
    (i : Fin n) (h minimum : α) (t : Labels α n m) (sink : Option (Fin m)) : Prop where
  distinct : t.order.Distinct
  le_up : s.up ≤ t.up
  up_le : t.up ≤ m
  before : ∀ a : Fin m, a.val < s.up → t.order[a] = s.order[a]
  distance : ∀ a : Fin m, a.val < s.up → t.distance[s.order[a]] = s.distance[s.order[a]]
  reachedBy : ∀ a : Fin m, a.val < s.up → t.reachedBy[s.order[a]] = s.reachedBy[s.order[a]]
  either : ∀ j : Fin m, t.reachedBy[j] = s.reachedBy[j] ∨ t.reachedBy[j] = i
  joined : ∀ a : Fin m, s.up ≤ a.val → a.val < t.up →
    isFree t.order[a] = false ∧ (t.distance[t.order[a]] == minimum) = true
  passed : sink = none → ∀ a : Fin m, s.up ≤ a.val →
    if way row price h s.order[a] < s.distance[s.order[a]] then
      t.distance[s.order[a]] = way row price h s.order[a] ∧ t.reachedBy[s.order[a]] = i
    else
      t.distance[s.order[a]] = s.distance[s.order[a]] ∧
        t.reachedBy[s.order[a]] = s.reachedBy[s.order[a]]
  found : ∀ j, sink = some j →
    isFree j = true ∧ (way row price h j == minimum) = true ∧ t.reachedBy[j] = i

theorem isRelaxed_relax (hs : s.order.Distinct) (hup : s.up ≤ m) :
    IsRelaxed s row price isFree i h minimum (s.relax row price isFree i h minimum).1
      (s.relax row price isFree i h minimum).2 := by
  have hgrown := isGrown_relaxed row price isFree i h minimum hs hup
  have hdistance : ∀ a : Fin m, a.val < s.up →
      (s.relaxed row price isFree i h minimum).distance[s.order[a]] = s.distance[s.order[a]] :=
    fun a ha => by rw [distance_relaxed, if_neg (not_mem_columns_taken hs ha)]
  have hreachedBy : ∀ a : Fin m, a.val < s.up →
      (s.relaxed row price isFree i h minimum).reachedBy[s.order[a]] = s.reachedBy[s.order[a]] :=
    fun a ha => by rw [reachedBy_relaxed, if_neg (not_mem_columns_taken hs ha)]
  have heither : ∀ j : Fin m, (s.relaxed row price isFree i h minimum).reachedBy[j] =
      s.reachedBy[j] ∨ (s.relaxed row price isFree i h minimum).reachedBy[j] = i := by
    intro j
    rw [reachedBy_relaxed]
    split
    · exact .inr rfl
    · exact .inl rfl
  rw [relax_eq]
  split
  next hnone =>
    -- No offer ends the search, so all of them are taken.
    refine ⟨hgrown.distinct, hgrown.start_le, hgrown.up_le, hgrown.before, hdistance, hreachedBy,
      heither, hgrown.joined, ?passed, ?found⟩
    case passed =>
      intro _ a ha
      rw [distance_relaxed, reachedBy_relaxed, taken_of_none hnone]
      simp only [mem_columns_offers hs, ha, true_and]
      split
      · exact ⟨rfl, rfl⟩
      · exact ⟨rfl, rfl⟩
    case found =>
      intro j hj
      exact absurd hj (by simp)
  next o hsome =>
    -- Offer `o` ends the search: its row is recorded, but not its distance.
    have hends := List.find?_some hsome
    obtain ⟨hk, hcolumn, hway, -⟩ := mem_offers.mp (List.mem_of_find?_eq_some hsome)
    simp only [ends, Bool.and_eq_true, hway] at hends
    refine ⟨hgrown.distinct, hgrown.start_le, hgrown.up_le, hgrown.before, hdistance,
      ?reachedBy, ?either, hgrown.joined, ?passed, ?found⟩
    case reachedBy =>
      intro a ha
      have hne : s.order[a] ≠ o.column := by
        intro he
        have hak : a = o.position := hs (he.trans hcolumn)
        omega
      rw [getElem_set_fin, if_neg hne, hreachedBy a ha]
    case either =>
      intro j
      rw [getElem_set_fin]
      split
      · exact .inr rfl
      · exact heither j
    case passed =>
      intro hno
      exact absurd hno (by simp)
    case found =>
      intro j hj
      obtain rfl := Option.some.inj hj
      exact ⟨hends.2, hends.1, by rw [getElem_set_fin, if_pos rfl]⟩

end LinearAssignment.Labels
