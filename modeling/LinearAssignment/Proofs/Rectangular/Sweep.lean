import LinearAssignment.Proofs.Binary.Infinity
import LinearAssignment.Proofs.Rectangular.Scan
import LinearAssignment.Rectangular.Sweep

/-! Looking at the columns one at a time finds what looking at all of them at once does. No column
is listed twice, so an offer to one column changes nothing that later columns are looked at for, and
whoever leads at the end is the free column that was listed last among the nearest ones, or else the
nearest that was listed first. -/
namespace LinearAssignment

section contest

variable {α ι κ : Type} [Cost α] [LinearOrder κ] {value : ι → α} {key : Option ι → κ}
  {isFree : ι → Bool} {l : List ι} {leader : Leader α ι} {k p : ι}

def Leader.distance (value : ι → α) (position : Option ι) : α := position.elim Cost.infinity value

/-- Of the candidates that are as near as `p`, the free one that is listed last, or else the one
that is listed first. -/
def Cost.tieWinner? (value : ι → α) (isFree : ι → Bool) (l : List ι) (p : ι) : Option ι :=
  let ties := l.filter fun k => value k == value p
  (ties.filter isFree).getLast?.or ties.head?

namespace Cost

/-- A candidate that is listed after all others wins if it is free or if it is the only one of its
distance. -/
theorem tieWinner?_append_self (hself : (value k == value k) = true)
    (h : isFree k = true ∨ l.filter (fun a => value a == value k) = []) :
    tieWinner? value isFree (l ++ [k]) k = some k := by
  rcases h with hfree | hnone
  · simp [tieWinner?, List.filter_append, hself, hfree]
  · cases hfree : isFree k <;> simp [tieWinner?, List.filter_append, hself, hfree, hnone]

/-- A candidate that is not as near as the winner, or not free, does not win. -/
theorem tieWinner?_append {q : ι} (hk : (value k == value p) = true → isFree k = false)
    (h : tieWinner? value isFree l p = some q) :
    tieWinner? value isFree (l ++ [k]) p = some q := by
  unfold tieWinner? at h ⊢
  dsimp only at h ⊢
  by_cases htie : (value k == value p) = true
  · have hnew : [k].filter (fun a => value a == value p) = [k] := by simp [htie]
    have hheld : [k].filter isFree = [] := by simp [hk htie]
    rw [List.filter_append, hnew, List.filter_append, hheld, List.append_nil, List.head?_append,
      ← Option.or_assoc, h]
    rfl
  · have hnew : [k].filter (fun a => value a == value p) = [] := by simp [htie]
    rw [List.filter_append, hnew, List.append_nil]
    exact h

end Cost

/-- Who leads after the candidates of a list have contended. -/
structure Leader.Leads (value : ι → α) (key : Option ι → κ) (isFree : ι → Bool) (l : List ι)
    (leader : Leader α ι) : Prop where
  lowest : leader.lowest = distance value leader.position
  least : ∀ k ∈ l, key leader.position ≤ key (some k)
  nobody : leader.position = none → ∀ k ∈ l, isFree k = false
  wins : ∀ p, leader.position = some p → Cost.tieWinner? value isFree l p = some p

namespace Leader

theorem leads_nobody : Leads value key isFree [] (nobody : Leader α ι) where
  lowest := rfl
  least := by simp
  nobody := by simp
  wins := by simp [Leader.nobody]

theorem challenge_cases (leader : Leader α ι) (k : ι) (d : α) (free : Bool) :
    d < leader.lowest ∧ leader.challenge k d free = ⟨d, some k⟩ ∨
      (d == leader.lowest) = true ∧ free = true ∧ leader.challenge k d free = ⟨d, some k⟩ ∨
      ¬ d < leader.lowest ∧ ((d == leader.lowest) = true → free = false) ∧
        leader.challenge k d free = leader := by
  unfold challenge
  by_cases hlt : d < leader.lowest
  · simp [hlt]
  · by_cases hbeq : (d == leader.lowest) = true <;> cases free <;> simp [hlt, hbeq]

theorem Leads.challenge (hkeyed : Cost.IsKeyed (distance value) key)
    (htop : ∀ k, key (some k) ≤ key none) (h : Leads value key isFree l leader) (k : ι) :
    Leads value key isFree (l ++ [k]) (leader.challenge k (value k) (isFree k)) := by
  have hlt : value k < leader.lowest ↔ key (some k) < key leader.position := by
    rw [h.lowest]
    exact hkeyed.lt_iff (some k) leader.position
  have hbeq : (value k == leader.lowest) = true ↔ key (some k) = key leader.position := by
    rw [h.lowest]
    exact hkeyed.beq_iff (some k) leader.position
  have hself : (value k == value k) = true := (hkeyed.beq_iff (some k) (some k)).mpr rfl
  have hleast : key (some k) ≤ key leader.position →
      ∀ a ∈ l ++ [k], key (some k) ≤ key (some a) := by
    intro hle a ha
    rcases List.mem_append.mp ha with ha | ha
    · exact hle.trans (h.least a ha)
    · rw [List.mem_singleton.mp ha]
  rcases leader.challenge_cases k (value k) (isFree k) with
    ⟨hnear, he⟩ | ⟨hnear, hfree, he⟩ | ⟨hfar, hheld, he⟩
  · -- The candidate is nearer than all before it.
    rw [hlt] at hnear
    have hnone : l.filter (fun a => value a == value k) = [] := by
      refine List.filter_eq_nil_iff.mpr fun a ha hab => ?_
      exact (hnear.trans_le (h.least a ha)).ne' ((hkeyed.beq_iff (some a) (some k)).mp hab)
    rw [he]
    refine ⟨rfl, hleast hnear.le, by simp, fun p hp => ?_⟩
    obtain rfl := Option.some.inj hp
    exact Cost.tieWinner?_append_self hself (.inr hnone)
  · -- It is as near as the leader, and free.
    rw [hbeq] at hnear
    rw [he]
    refine ⟨rfl, hleast hnear.le, by simp, fun p hp => ?_⟩
    obtain rfl := Option.some.inj hp
    exact Cost.tieWinner?_append_self hself (.inl hfree)
  · -- The leader keeps the lead.
    rw [hlt, not_lt] at hfar
    rw [he]
    refine ⟨h.lowest, fun a ha => ?_, fun hp a ha => ?_, fun p hp => ?_⟩
    · rcases List.mem_append.mp ha with ha | ha
      · exact h.least a ha
      · rwa [List.mem_singleton.mp ha]
    · rcases List.mem_append.mp ha with ha | ha
      · exact h.nobody hp a ha
      · rw [hp] at hfar hbeq
        rw [List.mem_singleton.mp ha]
        exact hheld (hbeq.mpr (le_antisymm (htop k) hfar))
    · refine Cost.tieWinner?_append (fun htie => hheld ?_) (h.wins p hp)
      rw [h.lowest, hp]
      exact htie

theorem leads_foldl (hkeyed : Cost.IsKeyed (distance value) key)
    (htop : ∀ k, key (some k) ≤ key none) (isFree : ι → Bool) (l : List ι) :
    Leads value key isFree l
      (l.foldl (fun leader k => leader.challenge k (value k) (isFree k)) nobody) := by
  induction l using List.reverseRecOn with
  | nil => exact leads_nobody
  | append_singleton l k ih =>
    rw [List.foldl_append]
    exact ih.challenge hkeyed htop k

end Leader

end contest

namespace PathSearch

def distanceAt {α : Type} {n m : ℕ} (s : PathSearch α n m) (k : Fin m) : α :=
  s.distance[s.unscanned.order[k]]

section sweep

variable {α : Type} [Cost α] {n m : ℕ} {cost : CostMatrix α n m} {u : Vector α n} {v : Vector α m}
  {held : Matching n m} {minimum : α} {i : Fin n} {s : PathSearch α n m}

/-- An offer stores the way of a column that it brings nearer. -/
theorem offer_eq (s : PathSearch α n m) (j : Fin m) : s.offer cost u v minimum i j =
    if way cost u v minimum i j < s.distance[j] then s.reach (way cost u v minimum i) i j
    else s := rfl

theorem distance_offer_of_ne {j k : Fin m} (h : k ≠ j) :
    (s.offer cost u v minimum i j).distance[k] = s.distance[k] := by
  unfold offer
  dsimp only
  split
  · exact (getElem_set_fin _ _ _ _).trans (if_neg h)
  · rfl

theorem distance_foldl_offer_of_not_mem {js : List (Fin m)} {k : Fin m} (h : k ∉ js) :
    (js.foldl (offer cost u v minimum i) s).distance[k] = s.distance[k] := by
  induction js generalizing s with
  | nil => rfl
  | cons j js ih =>
    rw [List.mem_cons, not_or] at h
    rw [List.foldl_cons, ih h.2, distance_offer_of_ne h.1]

/-- Offers to columns of which none is listed twice can be decided beforehand. -/
theorem foldl_offer {js : List (Fin m)} (hjs : js.Nodup) (s : PathSearch α n m) :
    js.foldl (offer cost u v minimum i) s =
      (js.filter fun j => way cost u v minimum i j < s.distance[j]).foldl
        (reach (way cost u v minimum i) i) s := by
  induction js generalizing s with
  | nil => rfl
  | cons j js ih =>
    obtain ⟨hj, hjs⟩ := List.nodup_cons.mp hjs
    have hlater : js.filter (fun k => way cost u v minimum i k <
          (s.offer cost u v minimum i j).distance[k]) =
        js.filter fun k => way cost u v minimum i k < s.distance[k] := by
      refine List.filter_congr fun k hk => ?_
      rw [distance_offer_of_ne (ne_of_mem_of_not_mem hk hj)]
    rw [List.foldl_cons, ih hjs, hlater]
    by_cases hnear : way cost u v minimum i j < s.distance[j]
    · rw [List.filter_cons, if_pos (decide_eq_true hnear), List.foldl_cons, offer_eq, if_pos hnear]
    · rw [List.filter_cons, if_neg (by simpa using hnear), offer_eq, if_neg hnear]

/-- A column contends with the distance that it has in the end. -/
theorem foldl_look {ks : List (Fin m)} (leader : Leader α (Fin m)) {t : PathSearch α n m}
    (hks : (ks.map fun k => s.unscanned.order[k]).Nodup)
    (ht : t = (ks.map fun k => s.unscanned.order[k]).foldl (offer cost u v minimum i) s) :
    ks.foldl (look cost u v held minimum i) (s, leader) =
      (t, ks.foldl (fun leader k => leader.challenge k t.distance[s.unscanned.order[k]]
        (held.isFree s.unscanned.order[k])) leader) := by
  induction ks generalizing s leader with
  | nil => rw [ht]; rfl
  | cons k ks ih =>
    obtain ⟨hk, hks⟩ := List.nodup_cons.mp hks
    have horder : (s.offer cost u v minimum i s.unscanned.order[k]).unscanned = s.unscanned :=
      unscanned_offer cost u v minimum i s _
    have hdistance : t.distance[s.unscanned.order[k]] =
        (s.offer cost u v minimum i s.unscanned.order[k]).distance[s.unscanned.order[k]] := by
      rw [ht, List.map_cons, List.foldl_cons, distance_foldl_offer_of_not_mem hk]
    rw [List.foldl_cons, look, ih _ (by rwa [horder]) (by rw [horder, ht]; rfl), horder,
      List.foldl_cons, hdistance]

/-- A sweep leaves behind what visiting the row does. -/
theorem sweep_eq (held : Matching n m) (h : s.unscanned.Distinct) {t : PathSearch α n m}
    (ht : t = s.visit cost u v minimum i) :
    s.sweep cost u v held minimum i =
      (t, s.unscanned.positions.foldl (fun leader k =>
        leader.challenge k (t.distanceAt k) (held.isFree t.unscanned.order[k]))
        .nobody) := by
  have hunscanned : t.unscanned = s.unscanned := by rw [ht, unscanned_visit]
  unfold distanceAt
  rw [hunscanned]
  refine foldl_look .nobody h.nodup_columns ?_
  rw [ht, visit]
  exact (foldl_offer h.nodup_columns _).symm

end sweep

section round

variable {α κ : Type} [Cost α] [LinearOrder κ] {n m : ℕ} {cost : CostMatrix α n m}
  {u : Vector α n} {v : Vector α m} {held : Matching n m} {minimum : α} {i : Fin n}
  {s t : PathSearch α n m} {key : Option (Fin m) → κ} {leader : Leader α (Fin m)} {j k : Fin m}

/-- The leader at the end of a sweep is the nearest column. -/
theorem nearest_of_leads
    (hkeyed : Cost.IsKeyed (Leader.distance s.distanceAt) key)
    (h : leader.Leads s.distanceAt key (fun k => held.isFree s.unscanned.order[k])
      s.unscanned.positions)
    (hk : leader.position = some k) : s.nearest held.isFree = .ok k := by
  have hwins := h.wins k hk
  have hmem : k ∈ s.unscanned.positions := by
    rcases Option.or_eq_some_iff.mp hwins with hlast | ⟨-, hhead⟩
    · exact (List.mem_filter.mp (List.mem_filter.mp (List.mem_of_getLast? hlast)).1).1
    · exact (List.mem_filter.mp (List.mem_of_head? hhead)).1
  obtain ⟨k₀, hk₀⟩ := Cost.exists_firstMinimum? s.distanceAt (List.ne_nil_of_mem hmem)
  have hsame : key (some k₀) = key (some k) := by
    obtain ⟨hmem₀, hle⟩ := (hkeyed.comp some).firstMinimum? hk₀
    exact le_antisymm (hle k hmem) (hk ▸ h.least k₀ hmem₀)
  have hties : ∀ l, (s.distanceAt l == s.distanceAt k₀) = (s.distanceAt l == s.distanceAt k) := by
    intro l
    have h₀ := hkeyed.beq_iff (some l) (some k₀)
    rw [hsame, ← hkeyed.beq_iff (some l) (some k)] at h₀
    exact Bool.eq_iff_iff.mpr h₀
  unfold Cost.tieWinner? at hwins
  simp only [← hties] at hwins
  unfold distanceAt at hk₀ hwins
  unfold nearest
  simp only [hk₀, hwins]

/-- As long as a free column is listed, a sweep comes to what a round does. -/
theorem exists_round_eq_sweepRound (hdistinct : s.unscanned.Distinct)
    (ht : t = s.visit cost u v minimum i)
    (hkeyed : Cost.IsKeyed (Leader.distance t.distanceAt) key)
    (htop : ∀ k, key (some k) ≤ key none) (hfree : held.rowOf[j] = none)
    (hj : s.unscanned.Lists j) :
    ∃ r, s.round cost u v held minimum i = .ok r ∧
      s.sweepRound cost u v held minimum i = .ok r := by
  have hunscanned : t.unscanned = s.unscanned := by rw [ht, unscanned_visit]
  have hleads := Leader.leads_foldl hkeyed htop (fun k => held.isFree t.unscanned.order[k])
    t.unscanned.positions
  have hsweep := sweep_eq held hdistinct ht
  rw [← hunscanned] at hsweep
  generalize t.unscanned.positions.foldl _ _ = leader at hleads hsweep
  obtain ⟨lowest, position⟩ := leader
  cases position with
  | none =>
    obtain ⟨k, hk, rfl⟩ := hj
    rw [← hunscanned] at hk hfree
    have hheld := hleads.nobody rfl k (Unscanned.mem_positions.mpr hk)
    simp [Matching.isFree, hfree] at hheld
  | some k =>
    obtain rfl : lowest = t.distanceAt k := hleads.lowest
    have hnearest := nearest_of_leads hkeyed hleads rfl
    obtain ⟨r, hr⟩ := exists_round_of_nearest minimum i (ht ▸ hnearest)
    refine ⟨r, hr, ?_⟩
    rw [← hr, sweepRound, hsweep, round, ← ht]
    simp only [hnearest]
    rfl

end round

section run

variable {f : Format} {n m : ℕ} {cost : CostMatrix (Binary f) n m} {u : Vector (Binary f) n}
  {v : Vector (Binary f) m} {held : Matching n m} {i : Fin n} {s : PathSearch (Binary f) n m}
  {j : Fin m}

theorem exists_run_eq_sweepRun (hdistinct : s.unscanned.Distinct)
    (hnumber : ∀ j : Fin m, Cost.isNaN s.distance[j] = false) (hfree : held.rowOf[j] = none)
    (hj : s.unscanned.Lists j) (minimum : Binary f) :
    ∃ r, s.run cost u v held minimum i = .ok r ∧ s.sweepRun cost u v held minimum i = .ok r := by
  -- Induction on the number of columns that have not been scanned.
  induction hcount : s.unscanned.count using Nat.strong_induction_on
    generalizing s minimum i with
  | _ count ih =>
    have hnumber' := isNaN_distance_visit cost u v minimum i hnumber
    have hkeyed : Cost.IsKeyed (Leader.distance (s.visit cost u v minimum i).distanceAt) _ :=
      Binary.isKeyed fun k => by
        cases k with
        | none => rfl
        | some k => exact hnumber' _
    obtain ⟨r, hround, hsweep⟩ := exists_round_eq_sweepRound hdistinct rfl hkeyed
      (fun k => Binary.quanta_le_infinity _) hfree hj
    obtain ⟨t, k, l, rfl, hk, rfl, ⟨-, rfl⟩ | ⟨-, ⟨-, rfl⟩ | ⟨i', hheld, rfl⟩⟩⟩ :=
      round_cases hround
    · exact ⟨_, by rw [run, hround], by rw [sweepRun, hsweep]⟩
    · exact ⟨_, by rw [run, hround], by rw [sweepRun, hsweep]⟩
    · have hlists : ((s.visit cost u v minimum i).scan k).unscanned.Lists j := by
        refine (Unscanned.lists_remove ?_ (count_of_nearest hk) j).mpr ⟨?_, fun he => ?_⟩
        · rwa [unscanned_visit]
        · rwa [unscanned_visit]
        · rw [he, hheld] at hfree
          exact nomatch hfree
      have hdistinct' : ((s.visit cost u v minimum i).scan k).unscanned.Distinct :=
        Unscanned.Distinct.remove (by rwa [unscanned_visit]) k
      obtain ⟨r, hrun, hsweepRun⟩ := ih _ (hcount ▸ count_lt_of_round hround) hdistinct' hnumber'
        hlists _ rfl
      exact ⟨r, by rw [run, hround]; exact hrun, by rw [sweepRun, hsweep]; exact hsweepRun⟩

/-- In floating-point arithmetic, whatever the entries and potentials and whichever rows hold the
columns, a search from a row comes to an end as long as some column is free, and it leaves behind
what the search does that looks at the columns one at a time. -/
theorem run_start_eq_sweepRun (cost : CostMatrix (Binary f) n m) (u : Vector (Binary f) n)
    (v : Vector (Binary f) m) (held : Matching n m) (hfree : ∃ j : Fin m, held.rowOf[j] = none)
    (i : Fin n) (reachedBy : Vector (Option (Fin n)) m) :
    ∃ r, run cost u v held 0 i (start reachedBy) = .ok r ∧
      sweepRun cost u v held 0 i (start reachedBy) = .ok r := by
  obtain ⟨j, hj⟩ := hfree
  refine exists_run_eq_sweepRun Unscanned.distinct_all (fun k => ?_) hj (Unscanned.lists_all j) 0
  rw [start, getElem_replicate_fin]
  rfl

def halfHeld : Matching 2 2 := Matching.empty.pair (.last 1) (.last 1)

/-- A matrix with an entry that is NaN and an infinite one. -/
def halfKnown : CostMatrix (Binary .double) 2 2 :=
  .ofFn fun i j => if i ≠ j then .ofInt 3 else if i = .last 1 then Cost.infinity else .nan

/-- The first row, whose entry for the free column is NaN, searches on through the other row. The
second column is scanned at distance three and the first one at six, and the list of columns keeps
the entries that have been moved to its front. -/
theorem run_start_halfHeld : (∃ j : Fin 2, halfHeld.rowOf[j] = none) ∧
    ∃ t : PathSearch (Binary .double) 2 2,
      run halfKnown (.replicate 2 0) (.replicate 2 0) halfHeld 0 0
        (start (.replicate 2 none)) = .ok (t, some ⟨0, .ofInt 6⟩) ∧
      sweepRun halfKnown (.replicate 2 0) (.replicate 2 0) halfHeld 0 0
        (start (.replicate 2 none)) = .ok (t, some ⟨0, .ofInt 6⟩) ∧
      t.reachedBy = #v[some 1, some 0] ∧ t.distance = #v[.ofInt 6, .ofInt 3] ∧
      t.scannedRows = #v[true, true] ∧ t.scannedColumns = #v[true, true] ∧
      t.unscanned.order = #v[0, 0] ∧ t.unscanned.count = 0 := by
  obtain ⟨⟨t, sink⟩, hrun, hsweep⟩ := run_start_eq_sweepRun halfKnown (.replicate 2 0)
    (.replicate 2 0) halfHeld ⟨0, rfl⟩ 0 (.replicate 2 none)
  have hlabels : ((run halfKnown (.replicate 2 0) (.replicate 2 0) halfHeld 0 0
      (start (.replicate 2 none))).toOption.map fun r =>
        (r.2.map fun s => (s.column, s.length), r.1.reachedBy, r.1.distance)) =
      some (some (0, .ofInt 6), #v[some 1, some 0], #v[.ofInt 6, .ofInt 3]) := by
    decide +kernel
  have hscanned : ((run halfKnown (.replicate 2 0) (.replicate 2 0) halfHeld 0 0
      (start (.replicate 2 none))).toOption.map fun r =>
        (r.1.scannedRows, r.1.scannedColumns, r.1.unscanned.order, r.1.unscanned.count)) =
      some (#v[true, true], #v[true, true], #v[0, 0], 0) := by
    decide +kernel
  simp only [hrun, Except.toOption, Option.map_some, Option.some.injEq, Prod.mk.injEq]
    at hlabels hscanned
  obtain ⟨hsink, hreached, hdistance⟩ := hlabels
  obtain ⟨⟨column, length⟩, rfl, hsink⟩ := Option.map_eq_some_iff.mp hsink
  cases hsink
  exact ⟨⟨0, rfl⟩, t, hrun, hsweep, hreached, hdistance, hscanned⟩

end run

end PathSearch

end LinearAssignment
