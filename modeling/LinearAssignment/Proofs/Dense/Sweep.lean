import LinearAssignment.Dense.Sweep
import LinearAssignment.Proofs.Binary.Order
import LinearAssignment.Proofs.Dense.Scan

/-! Looking at the columns one at a time collects and relaxes what looking at all of them at once
does. Columns are only exchanged between positions that have been come to, so at those that are left
stand the columns that were copied beforehand, and no column that is left has a new distance. -/
namespace LinearAssignment

variable {α κ : Type} {n m : ℕ}

namespace ColumnOrder

def DistinctFrom (order : ColumnOrder m) (start : ℕ) : Prop :=
  ∀ a b : Fin m, start ≤ a.val → start ≤ b.val → order[a] = order[b] → a = b

theorem trade_eq_join (order : ColumnOrder m) (up : ℕ) (k : Fin m) :
    order.trade up k = order.join up k := by
  by_cases h : up < m
  · obtain ⟨l, rfl⟩ : ∃ l : Fin m, l.val = up := ⟨⟨up, h⟩, rfl⟩
    refine ext_fin fun a => ?_
    rw [trade, dif_pos h, getElem_join, getElem_set_fin, getElem_set_fin]
  · apply Vector.toArray_inj.mp
    simp [trade, join, h, Array.swapIfInBounds]

end ColumnOrder

namespace Frontier

variable [Cost α] {distance : Vector α m} {order : ColumnOrder m} {f : Frontier α m} {low k : ℕ}

/-- At a position that has not been come to, a column is compared by the distance that was read
beforehand. -/
theorem look_eq_sweep (distance : Vector α m) (low : ℕ) {p : Fin m} (h : f.order[p] = order[p]) :
    f.look distance low p = f.sweep (fun a : Fin m => distance[order[a]]) low p := by
  simp only [look, sweep, extend, h, ColumnOrder.trade_eq_join]

theorem foldl_look (distance : Vector α m) (h : IsFrontier order low k f) (hk : k ≤ m) :
    (ColumnOrder.positionsFrom k).foldl (look distance low) f =
      (ColumnOrder.positionsFrom k).foldl (sweep (fun a : Fin m => distance[order[a]]) low) f := by
  -- Induction on the number of positions that are left.
  induction hleft : m - k generalizing k f with
  | zero =>
    obtain rfl : k = m := by omega
    rw [ColumnOrder.positionsFrom_end]
    rfl
  | succ left ih =>
    have hkm : k < m := by omega
    have hahead : f.order[(⟨k, hkm⟩ : Fin m)] = order[(⟨k, hkm⟩ : Fin m)] := h.after _ le_rfl
    rw [ColumnOrder.positionsFrom_cons hkm, List.foldl_cons, List.foldl_cons,
      look_eq_sweep distance low hahead]
    exact ih (isFrontier_sweep h rfl) hkm (by omega)

theorem collect_eq_ok_partition (hnumber : ∀ j : Fin m, Cost.isNaN distance[j] = false)
    (hd : order.Distinct) (hlow : low < m) :
    collect distance order low = .ok (partition distance order low hlow) := by
  rw [collect_eq distance order hlow, foldl_records (fun p => hnumber order[p]) _ _ (hnumber _),
    ← foldl_look distance (isFrontier_single distance hd hlow) hlow]
  rfl

omit [Cost α] in
theorem IsFrontier.mem_slice (h : IsFrontier order low m f) (hd : order.Distinct) {j : Fin m} :
    j ∈ f.order.slice low m ↔ j ∈ order.slice low m := by
  simp only [ColumnOrder.mem_slice]
  constructor
  · rintro ⟨a, ha, -, rfl⟩
    obtain ⟨b, hb, he⟩ := hd.exists_position_of_agree h.distinct h.before ha
    exact ⟨b, hb, b.isLt, he⟩
  · rintro ⟨a, ha, -, rfl⟩
    obtain ⟨b, hb, he⟩ :=
      h.distinct.exists_position_of_agree hd (fun a ha => (h.before a ha).symm) ha
    exact ⟨b, hb, b.isLt, he⟩

/-- The frontier holds the columns that no column from `low` on is nearer than. -/
theorem IsNearest.mem_slice [LinearOrder κ] {key : Fin m → κ} {j₀ j : Fin m}
    (hn : IsNearest distance key low m f j₀)
    (hkey : Cost.IsKeyed (fun j : Fin m => distance[j]) key) (h : IsFrontier order low m f) :
    j ∈ f.order.slice low f.up ↔ j ∈ f.order.slice low m ∧
      ∀ k ∈ f.order.slice low m, Cost.atMost distance[j] distance[k] = true := by
  simp only [ColumnOrder.mem_slice]
  constructor
  · rintro ⟨a, ha, hup, rfl⟩
    refine ⟨⟨a, ha, a.isLt, rfl⟩, ?_⟩
    rintro _ ⟨b, hb, -, rfl⟩
    exact (hkey.atMost_iff _ _).mpr ((hn.level a ha hup).trans_le (hn.le_of_low_le hb))
  · rintro ⟨⟨a, ha, -, rfl⟩, hmin⟩
    obtain ⟨l, hl⟩ : ∃ l : Fin m, l.val = low := ⟨⟨low, h.low_lt.trans_le h.up_le⟩, rfl⟩
    have hle := (hkey.atMost_iff _ _).mp (hmin f.order[l] ⟨l, hl.ge, l.isLt, rfl⟩)
    rw [hn.level l hl.ge (hl.trans_lt h.low_lt)] at hle
    have hup : a.val < f.up := by
      by_contra hout
      exact absurd (hn.beyond a (by omega) a.isLt) hle.not_gt
    exact ⟨a, ha, hup, rfl⟩

/-- In any arithmetic, whatever the distances other than NaN, collecting the frontier comes to what
looking at the columns one after the other does: the same end of the frontier, the same distance and
the same order. No column is lost, those before `low` stay where they are, and the frontier holds
exactly the columns from `low` on that are at the least distance. -/
theorem collect_eq_partition [Cost.Ordered α] (distance : Vector α m)
    (hnumber : ∀ j : Fin m, Cost.isNaN distance[j] = false) (order : ColumnOrder m)
    (hd : order.Distinct) (low : ℕ) (hlow : low < m) :
    ∃ f, collect distance order low = .ok f ∧ f = partition distance order low hlow ∧
      f.order.Distinct ∧ (∀ a : Fin m, a.val < low → f.order[a] = order[a]) ∧
      low < f.up ∧ f.up ≤ m ∧
      ∀ j, (j ∈ f.order.slice low f.up ↔ j ∈ order.slice low m ∧
          ∀ k ∈ order.slice low m, Cost.atMost distance[j] distance[k] = true) ∧
        (j ∈ f.order.slice low f.up → (distance[j] == f.distance) = true) := by
  have hcollect := collect_eq_ok_partition hnumber hd hlow
  refine ⟨_, hcollect, rfl, ?_⟩
  have hfront := isFrontier_collect hd hcollect
  obtain ⟨κ, _, key, -, hkey⟩ := Cost.Ordered.exists_isKeyed hnumber
  obtain ⟨j₀, hn⟩ := exists_isNearest hkey hd hcollect
  refine ⟨hfront.distinct, hfront.before, hfront.low_lt, hfront.up_le, fun j => ⟨?_, fun hj => ?_⟩⟩
  · simp only [hn.mem_slice hkey hfront, hfront.mem_slice hd]
  · obtain ⟨a, ha, hup, rfl⟩ := ColumnOrder.mem_slice.mp hj
    rw [hn.distance_eq]
    exact (hkey.beq_iff _ _).mpr (hn.level a ha hup)

def scattered : Vector (Binary .double) 6 :=
  #v[.ofInt 2, .infinity, .ofInt 1, .ofInt 0, .ofInt 2, .ofInt 1]

/-- Six columns, of which the first is settled and the nearest under `scattered`. -/
def shuffled : ColumnOrder 6 := #v[3, 4, 0, 2, 1, 5]

/-- The frontier starts anew with the fourth column and takes in the last one. -/
theorem collect_scattered_eq_partition :
    (∀ j : Fin 6, Cost.isNaN scattered[j] = false) ∧ shuffled.Distinct ∧
      ∃ f, collect scattered shuffled 1 = .ok f ∧
        f = partition scattered shuffled 1 (by decide) ∧
        f.up = 3 ∧ f.order = #v[3, 2, 5, 4, 1, 0] := by
  have hnumber : ∀ j : Fin 6, Cost.isNaN scattered[j] = false := by decide +kernel
  have hd : shuffled.Distinct := by
    unfold ColumnOrder.Distinct
    decide
  obtain ⟨f, hcollect, hf, -⟩ := collect_eq_partition scattered hnumber shuffled hd 1 (by decide)
  refine ⟨hnumber, hd, f, hcollect, hf, ?_⟩
  rw [hf]
  decide +kernel

end Frontier

namespace Labels

variable [Cost α] {s t : Labels α n m} {row price : Vector α m} {isFree : Fin m → Bool} {i : Fin n}
  {h minimum : α} {o : Offer α m} {os : List (Offer α m)} {k : ℕ}

def offerAt (s : Labels α n m) (row price : Vector α m) (h : α) (k : Fin m) : Offer α m :=
  ⟨k, s.order[k], way row price h s.order[k]⟩

def offersAt (s : Labels α n m) (row price : Vector α m) (h : α) (ks : List (Fin m)) :
    List (Offer α m) :=
  (ks.map (s.offerAt row price h)).filter fun o => o.value < s.distance[o.column]

theorem offersAt_cons (s : Labels α n m) (row price : Vector α m) (h : α) (p : Fin m)
    (ks : List (Fin m)) : s.offersAt row price h (p :: ks) =
      if (s.offerAt row price h p).value < s.distance[s.order[p]] then
        s.offerAt row price h p :: s.offersAt row price h ks
      else s.offersAt row price h ks := by
  simp only [offersAt, List.map_cons, List.filter_cons, decide_eq_true_eq]
  rfl

section accept

def accept (isFree : Fin m → Bool) (i : Fin n) (minimum : α) (os : List (Offer α m))
    (s : Labels α n m) : Labels α n m × Option (Fin m) :=
  let taken := os.takeWhile fun o => !ends isFree minimum o
  let t := (taken.filter fun o => o.value == minimum).foldl enter (taken.foldl (label i) s)
  match os.find? (ends isFree minimum) with
  | none => (t, none)
  | some o => ({ t with reachedBy := t.reachedBy.setIfInBounds o.column i }, some o.column)

theorem relax_eq_accept : s.relax row price isFree i h minimum =
    accept isFree i minimum (s.offersAt row price h (ColumnOrder.positionsFrom s.up)) s := rfl

omit [Cost α] in
/-- Labels and places in the order are written apart from each other. -/
theorem enter_foldl_label (os : List (Offer α m)) (s : Labels α n m) (o : Offer α m) :
    (os.foldl (label i) s).enter o = os.foldl (label i) (s.enter o) := by
  induction os generalizing s with
  | nil => rfl
  | cons o' os ih => exact ih (s.label i o')

theorem accept_cons_of_ends (ho : ends isFree minimum o = true) :
    accept isFree i minimum (o :: os) s =
      ({ s with reachedBy := s.reachedBy.setIfInBounds o.column i }, some o.column) := by
  simp [accept, ho]

theorem accept_cons_of_enters (ho : ends isFree minimum o = false)
    (hvalue : (o.value == minimum) = true) :
    accept isFree i minimum (o :: os) s =
      accept isFree i minimum os ((s.label i o).enter o) := by
  simp [accept, ho, hvalue, enter_foldl_label]

theorem accept_cons_of_stays (hvalue : (o.value == minimum) = false) :
    accept isFree i minimum (o :: os) s = accept isFree i minimum os (s.label i o) := by
  simp [accept, ends, hvalue]

end accept

section relaxEach

variable {p : Fin m} {ks : List (Fin m)}

theorem relaxEach_cons_of_not_lt
    (hlt : ¬ (s.offerAt row price h p).value < s.distance[s.order[p]]) :
    relaxEach row price isFree i h minimum (p :: ks) s =
      relaxEach row price isFree i h minimum ks s :=
  if_neg hlt

theorem relaxEach_cons_of_ends (hlt : (s.offerAt row price h p).value < s.distance[s.order[p]])
    (ho : ends isFree minimum (s.offerAt row price h p) = true) :
    relaxEach row price isFree i h minimum (p :: ks) s =
      ({ s with reachedBy := s.reachedBy.setIfInBounds s.order[p] i }, some s.order[p]) :=
  (if_pos hlt).trans (if_pos ho)

theorem relaxEach_cons_of_enters (hlt : (s.offerAt row price h p).value < s.distance[s.order[p]])
    (ho : ends isFree minimum (s.offerAt row price h p) = false)
    (hvalue : ((s.offerAt row price h p).value == minimum) = true) :
    relaxEach row price isFree i h minimum (p :: ks) s =
      relaxEach row price isFree i h minimum ks
        ((s.label i (s.offerAt row price h p)).enter (s.offerAt row price h p)) := by
  refine ((if_pos hlt).trans (if_neg (Bool.eq_false_iff.mp ho))).trans ?_
  simp only [show (row[s.order[p]] - price[s.order[p]] - h == minimum) = true from hvalue,
    ColumnOrder.trade_eq_join]
  rfl

theorem relaxEach_cons_of_stays (hlt : (s.offerAt row price h p).value < s.distance[s.order[p]])
    (hvalue : ((s.offerAt row price h p).value == minimum) = false) :
    relaxEach row price isFree i h minimum (p :: ks) s =
      relaxEach row price isFree i h minimum ks (s.label i (s.offerAt row price h p)) := by
  have ho : ¬ ends isFree minimum (s.offerAt row price h p) = true := by simp [ends, hvalue]
  refine ((if_pos hlt).trans (if_neg ho)).trans ?_
  simp only [show (row[s.order[p]] - price[s.order[p]] - h == minimum) = false from hvalue]
  rfl

end relaxEach

section ahead

/-- The columns from position `k` on, which relaxing has not come to, stand where they stood and are
at the distances at which they were. -/
structure IsAhead (s : Labels α n m) (k : ℕ) (t : Labels α n m) : Prop where
  up_le : t.up ≤ k
  order : ∀ a : Fin m, k ≤ a.val → t.order[a] = s.order[a]
  distance : ∀ a : Fin m, k ≤ a.val → t.distance[s.order[a]] = s.distance[s.order[a]]

omit [Cost α] in
theorem IsAhead.next (ht : IsAhead s k t) : IsAhead s (k + 1) t :=
  ⟨ht.up_le.trans (Nat.le_succ k), fun a ha => ht.order a (by omega),
    fun a ha => ht.distance a (by omega)⟩

omit [Cost α] in
/-- A column that has a new distance is at no later position. -/
theorem IsAhead.label (ht : IsAhead s k t) (hd : s.order.DistinctFrom s.up) (hk : s.up ≤ k)
    (ho : o.position.val = k) (hcolumn : o.column = s.order[o.position]) (i : Fin n) :
    IsAhead s (k + 1) (t.label i o) := by
  refine { ht.next with distance := fun a ha => ?_ }
  have hne : s.order[a] ≠ o.column := by
    intro he
    have hap : a = o.position := hd a _ (by omega) (by omega) (he.trans hcolumn)
    omega
  rw [Labels.label, getElem_set_fin, if_neg hne, ht.distance a (by omega)]

omit [Cost α] in
/-- A column that joins the frontier changes places with one that has been come to. -/
theorem IsAhead.enter (ht : IsAhead s (k + 1) t) (hup : t.up ≤ k) (ho : o.position.val = k) :
    IsAhead s (k + 1) (t.enter o) := by
  refine ⟨Nat.succ_le_succ hup, fun a ha => ?_, ht.distance⟩
  obtain ⟨l, hl⟩ : ∃ l : Fin m, l.val = t.up :=
    ⟨⟨t.up, hup.trans_lt (ho ▸ o.position.isLt)⟩, rfl⟩
  rw [← ht.order a ha, Labels.enter, ← hl, ColumnOrder.getElem_join_of_ne _ (by omega) (by omega)]

theorem relaxEach_positionsFrom (hd : s.order.DistinctFrom s.up) (ht : IsAhead s k t)
    (hk : s.up ≤ k) :
    relaxEach row price isFree i h minimum (ColumnOrder.positionsFrom k) t =
      accept isFree i minimum (s.offersAt row price h (ColumnOrder.positionsFrom k)) t := by
  -- Induction on the number of positions that are left.
  induction hleft : m - k generalizing k t with
  | zero =>
    have hnil : (ColumnOrder.positionsFrom k : List (Fin m)) = [] := by
      rw [ColumnOrder.positionsFrom, List.drop_eq_nil_iff, List.length_finRange]
      omega
    rw [hnil]
    rfl
  | succ left ih =>
    obtain ⟨p, rfl⟩ : ∃ p : Fin m, p.val = k := ⟨⟨k, by omega⟩, rfl⟩
    have hleft' : m - (p.val + 1) = left := by omega
    have hk' : s.up ≤ p.val + 1 := by omega
    have hoffer : t.offerAt row price h p = s.offerAt row price h p := by
      simp only [offerAt, ht.order p le_rfl]
    have hdistance : t.distance[t.order[p]] = s.distance[s.order[p]] := by
      rw [ht.order p le_rfl, ht.distance p le_rfl]
    rw [ColumnOrder.positionsFrom_cons p.isLt, offersAt_cons]
    by_cases hlt : (s.offerAt row price h p).value < s.distance[s.order[p]]
    · have hlt' : (t.offerAt row price h p).value < t.distance[t.order[p]] := by
        rwa [hoffer, hdistance]
      have hlabel := ht.label (o := s.offerAt row price h p) hd hk rfl rfl i
      rw [if_pos hlt]
      cases hvalue : (s.offerAt row price h p).value == minimum with
      | false =>
        rw [relaxEach_cons_of_stays hlt' (hoffer ▸ hvalue), accept_cons_of_stays hvalue, hoffer]
        exact ih hlabel hk' hleft'
      | true =>
        cases hends : ends isFree minimum (s.offerAt row price h p) with
        | false =>
          rw [relaxEach_cons_of_enters hlt' (hoffer ▸ hends) (hoffer ▸ hvalue),
            accept_cons_of_enters hends hvalue, hoffer]
          exact ih (hlabel.enter ht.up_le rfl) hk' hleft'
        | true =>
          rw [relaxEach_cons_of_ends hlt' (hoffer ▸ hends), accept_cons_of_ends hends,
            ht.order p le_rfl]
          rfl
    · rw [relaxEach_cons_of_not_lt (by rwa [hoffer, hdistance]), if_neg hlt]
      exact ih ht.next hk' hleft'

end ahead

/-- Nothing ends the search if no shorter way reaches a free column at the minimum distance. -/
theorem relax_snd_eq_none_iff : (s.relax row price isFree i h minimum).2 = none ↔
    ∀ a : Fin m, s.up ≤ a.val → way row price h s.order[a] < s.distance[s.order[a]] →
      (way row price h s.order[a] == minimum) = true → isFree s.order[a] = false := by
  have hnone : (s.relax row price isFree i h minimum).2 = none ↔
      (s.offers row price h).find? (ends isFree minimum) = none := by
    rw [relax_eq]
    split
    · next hfind => exact iff_of_true rfl hfind
    · next hfind => simp [hfind]
  simp only [hnone, List.find?_eq_none, mem_offers, ends, Bool.and_eq_true, not_and,
    Bool.not_eq_true]
  constructor
  · intro hall a ha hlt
    exact hall ⟨a, s.order[a], way row price h s.order[a]⟩ ⟨ha, rfl, rfl, hlt⟩
  · rintro hall o ⟨hup, hcolumn, hvalue, hlt⟩
    rw [hvalue, hcolumn] at hlt ⊢
    exact hall o.position hup hlt

/-- In any arithmetic, whatever the costs and labels, relaxing comes to what going through the
columns one after the other does, which stops at the first free column at the minimum distance: the
same distances, rows, order and end of the frontier, and the same column at which the search ends.
All that is asked for is that no column is listed twice behind the frontier. -/
theorem relax_eq_relaxEach (cost : CostMatrix α n m) (price : Vector α m) (isFree : Fin m → Bool)
    (s : Labels α n m) (hd : s.order.DistinctFrom s.up) (i : Fin n) (h minimum : α) :
    s.relax cost[i] price isFree i h minimum =
        relaxEach cost[i] price isFree i h minimum (ColumnOrder.positionsFrom s.up) s ∧
      ((s.relax cost[i] price isFree i h minimum).2 = none ↔
        ∀ a : Fin m, s.up ≤ a.val →
          cost[i][s.order[a]] - price[s.order[a]] - h < s.distance[s.order[a]] →
          (cost[i][s.order[a]] - price[s.order[a]] - h == minimum) = true →
          isFree s.order[a] = false) := by
  have hahead : IsAhead s s.up s := ⟨le_rfl, fun _ _ => rfl, fun _ _ => rfl⟩
  refine ⟨?_, relax_snd_eq_none_iff⟩
  rw [relax_eq_accept, relaxEach_positionsFrom hd hahead le_rfl]

/-- Five columns of which the first is listed once more than the others, before the end of the
frontier. -/
def doubled : Labels (Binary .double) 2 5 where
  distance := #v[.infinity, .ofInt 5, .ofInt 5, .ofInt 5, .ofInt 0]
  reachedBy := Vector.replicate 5 (.last 1)
  order := #v[0, 0, 1, 3, 2]
  up := 1

/-- Of the columns behind the frontier one joins it, the next has a price that is NaN, and the third
is free and ends the search before the fourth has been looked at. -/
theorem relax_doubled_eq_relaxEach :
    let cost : CostMatrix (Binary .double) 2 5 := .ofFn fun _ _ => .ofInt 1
    let price : Vector (Binary .double) 5 := #v[0, .nan, 0, 0, 0]
    let r := relaxEach cost[(0 : Fin 2)] price (· == 3) 0 0 (.ofInt 1)
      (ColumnOrder.positionsFrom doubled.up) doubled
    doubled.order.DistinctFrom doubled.up ∧
      doubled.relax cost[(0 : Fin 2)] price (· == 3) 0 0 (.ofInt 1) = r ∧
      r.2 = some 3 ∧ r.1.up = 2 ∧ r.1.reachedBy = #v[0, 1, 1, 0, 1] ∧
      r.1.distance = #v[.ofInt 1, .ofInt 5, .ofInt 5, .ofInt 5, .ofInt 0] := by
  intro cost price r
  have hd : doubled.order.DistinctFrom doubled.up := by
    unfold ColumnOrder.DistinctFrom
    decide
  refine ⟨hd, (relax_eq_relaxEach cost price (· == 3) doubled hd 0 0 (.ofInt 1)).1, ?_⟩
  decide +kernel

end Labels

end LinearAssignment
