import LinearAssignment.Proofs.Binary.Infinity
import LinearAssignment.Proofs.CompleteMatching
import LinearAssignment.Proofs.Rectangular.Stages
import LinearAssignment.Proofs.Walk

/-! The rectangular solver in floating-point arithmetic. Potentials may overflow or become NaN, but
a distance is only ever replaced by a lower one, so none is NaN, and no way over a forbidden pairing
is taken. Columns without row keep the potential zero and so do rows without column: the root of a
search finds the free columns at its own costs. -/
namespace LinearAssignment

section writes

variable {α : Type} [Cost α] {n m : ℕ}

/-- The entries that a stage writes: the columns that it reaches, each with the row through which it
does. -/
def Rectangular.Stage.writes (cost : CostMatrix α n m) :
    Rectangular.Stage α n m → List (Fin m × Fin n)
  | .visit p s minimum i =>
    (s.unscanned.columns.filter fun j =>
      PathSearch.way cost p.rowPotential p.columnPotential minimum i j < s.distance[j]).map
        fun j => (j, i)
  | .advance .. => []

def Rectangular.Progress.writes (cost : CostMatrix α n m) (p : Rectangular.Progress α n m)
    (i : Fin n) : List (Fin m × Fin n) :=
  (p.searchStages cost i).flatMap (Rectangular.Stage.writes cost)

theorem Rectangular.Stage.mem_writes_visit {cost : CostMatrix α n m}
    {p : Rectangular.Progress α n m} {s : PathSearch α n m} {minimum : α} {i r : Fin n}
    {j : Fin m} :
    (j, r) ∈ (visit p s minimum i).writes cost ↔ r = i ∧ s.unscanned.Lists j ∧
      PathSearch.way cost p.rowPotential p.columnPotential minimum i j < s.distance[j] := by
  simp only [writes, List.mem_map, List.mem_filter, Unscanned.mem_columns, decide_eq_true_eq,
    Prod.mk.injEq]
  constructor
  · rintro ⟨k, hk, rfl, rfl⟩
    exact ⟨rfl, hk⟩
  · rintro ⟨rfl, hj⟩
    exact ⟨j, hj, rfl, rfl⟩

end writes

namespace PathSearch

variable {f : Format} {n m : ℕ} {cost : CostMatrix (Binary f) n m} {u : Vector (Binary f) n}
  {v : Vector (Binary f) m} {s : PathSearch (Binary f) n m} {minimum : Binary f} {i : Fin n}
  {j : Fin m} {trail : List (Fin m)} {written : List (Fin m × Fin n)}

/-- A way over a forbidden pairing is shorter than no distance. -/
theorem isFinite_of_way_lt (hvalid : cost.hasInvalidEntry = false) {d : Binary f}
    (h : way cost u v minimum i j < d) : Cost.isFinite cost[i][j] = true := by
  have hentry := CostMatrix.isInvalid_eq_false hvalid i j
  refine (Binary.isFinite_or_isHigh hentry).resolve_right fun hhigh => ?_
  exact (((hhigh.add_left minimum).sub u[i]).sub v[j]).not_lt d h

/-- The distances are numbers, finite ones on the trail. A column at any other distance than
infinity has been reached in this search, by a pairing that is not forbidden. -/
structure IsLabelled (cost : CostMatrix (Binary f) n m) (trail : List (Fin m))
    (written : List (Fin m × Fin n)) (s : PathSearch (Binary f) n m) : Prop where
  isNaN : ∀ j : Fin m, Cost.isNaN s.distance[j] = false
  scanned : ∀ j ∈ trail, (s.distance[j] == Cost.infinity) = false
  label : ∀ j : Fin m, s.distance[j] = Cost.infinity ∨ ∃ i, s.reachedBy[j] = some i ∧
    (j, i) ∈ written ∧ Cost.isFinite cost[i][j] = true

theorem isLabelled_start (reachedBy : Vector (Option (Fin n)) m) :
    IsLabelled cost [] [] (start reachedBy : PathSearch (Binary f) n m) where
  isNaN j := by
    rw [start, getElem_replicate_fin]
    rfl
  scanned := by simp
  label j := .inl (getElem_replicate_fin _ j)

namespace IsLabelled

theorem isKeyed (h : IsLabelled cost trail written s) :
    Cost.IsKeyed (fun j : Fin m => s.distance[j]) fun j => s.distance[j].quanta :=
  Binary.isKeyed h.isNaN

theorem label_of_ne (h : IsLabelled cost trail written s)
    (hj : (s.distance[j] == Cost.infinity) = false) :
    ∃ i, s.reachedBy[j] = some i ∧ (j, i) ∈ written ∧ Cost.isFinite cost[i][j] = true :=
  (h.label j).resolve_left (Cost.ne_infinity hj)

theorem visit (h : IsLabelled cost trail written s) (hvalid : cost.hasInvalidEntry = false)
    (p : Rectangular.Progress (Binary f) n m) (minimum : Binary f) (i : Fin n)
    (htrail : ∀ j ∈ trail, ¬ s.unscanned.Lists j) :
    IsLabelled cost trail
      (written ++ (Rectangular.Stage.visit p s minimum i).writes cost)
      (s.visit cost p.rowPotential p.columnPotential minimum i) where
  isNaN := isNaN_distance_visit cost p.rowPotential p.columnPotential minimum i h.isNaN
  scanned j hj := by
    rw [distance_visit, if_neg fun hw => htrail j hj hw.1]
    exact h.scanned j hj
  label j := by
    rw [distance_visit, reachedBy_visit]
    split
    next hw =>
      have hmem := Rectangular.Stage.mem_writes_visit.mpr ⟨rfl, hw⟩
      exact .inr ⟨i, rfl, List.mem_append_right _ hmem, isFinite_of_way_lt hvalid hw.2⟩
    next =>
      exact (h.label j).imp_right fun ⟨r, hr, hmem, hfinite⟩ =>
        ⟨r, hr, List.mem_append_left _ hmem, hfinite⟩

theorem scan (h : IsLabelled cost trail written s) (k : Fin m)
    (hj : (s.distance[j] == Cost.infinity) = false) :
    IsLabelled cost (j :: trail) written (s.scan k) where
  isNaN := h.isNaN
  scanned := List.forall_mem_cons.mpr ⟨hj, h.scanned⟩
  label := h.label

end IsLabelled

def IsNear (cost : CostMatrix (Binary f) n m) (u : Vector (Binary f) n) (v : Vector (Binary f) m)
    (minimum : Binary f) (i : Fin n) (s : PathSearch (Binary f) n m) (j : Fin m) : Prop :=
  s.distance[j] < Cost.infinity ∨ way cost u v minimum i j < Cost.infinity

theorem IsNear.visit (h : IsNear cost u v minimum i s j) (hj : s.unscanned.Lists j)
    (hs : Cost.isNaN s.distance[j] = false) :
    (s.visit cost u v minimum i).distance[j] < Cost.infinity := by
  rw [distance_visit]
  split
  next hw => exact h.elim (fun hd => Binary.lt_trans hw.2 hd) id
  next hw =>
    refine h.elim id fun hway => ?_
    have hle : ¬ way cost u v minimum i j < s.distance[j] := fun hlt => hw ⟨hj, hlt⟩
    obtain ⟨hnan, hinf⟩ := Binary.isNaN_of_lt hway
    rw [Binary.lt_iff_quanta hnan hs, not_lt] at hle
    rw [Binary.lt_iff_quanta hnan hinf] at hway
    exact (Binary.lt_iff_quanta hs hinf).mpr (hle.trans_lt hway)

/-- How a search ends: every column that is left is out of reach, or a free one has been reached. -/
inductive Halts (cost : CostMatrix (Binary f) n m) (held : Matching n m) (root : Fin n)
    (written : List (Fin m × Fin n)) :
    PathSearch (Binary f) n m × Option (Sink (Binary f) m) → Prop
  | blocked {t} : Halts cost held root written (t, none)
  | arrived {t trail sink} (ends : EndsAt held root trail sink.column t)
      (labelled : IsLabelled cost (sink.column :: trail) written t) :
      Halts cost held root written (t, some sink)

section run

variable {p : Rectangular.Progress (Binary f) n m} {root : Fin n} {j₀ : Fin m}

/-- What a round comes to, as long as some column is free. If that column is near, the search is
not blocked. -/
theorem exists_round_of_free (hvalid : cost.hasInvalidEntry = false) (minimum : Binary f)
    (hfree : p.rowOf[j₀] = none) (hscan : IsScan p.toMatching root (some i) trail s)
    (h : IsLabelled cost trail written s) :
    ∃ (t : PathSearch (Binary f) n m) (r : Round (Binary f) n m),
      s.round cost p.rowPotential p.columnPotential p.toMatching minimum i = .ok r ∧
      (IsNear cost p.rowPotential p.columnPotential minimum i s j₀ →
        t.distance[j₀] < Cost.infinity) ∧
      (r = .unreachable t ∧ ¬ t.distance[j₀] < Cost.infinity ∨
        ∃ k j, IsLabelled cost (j :: trail)
            (written ++ (Rectangular.Stage.visit p s minimum i).writes cost) (t.scan k) ∧
          (r = .reached (t.scan k) ⟨j, t.distance[j]⟩ ∧
              EndsAt p.toMatching root trail j (t.scan k) ∨
            ∃ i', r = .passed (t.scan k) t.distance[j] i' ∧
              IsScan p.toMatching root (some i') (j :: trail) (t.scan k))) := by
  have hlists : ∀ {t : PathSearch (Binary f) n m} {pending},
      IsScan p.toMatching root pending trail t → t.unscanned.Lists j₀ := fun ht =>
    (ht.lists_iff j₀).mpr (ht.isTrail.not_mem_of_free hfree)
  have hscan' : IsScan p.toMatching root none trail
      (s.visit cost p.rowPotential p.columnPotential minimum i) := hscan.visit
  have h' := h.visit hvalid p minimum i fun j hj hl => (hscan.lists_iff j).mp hl hj
  obtain ⟨k₀, hk₀⟩ := exists_nearest h'.isKeyed p.toMatching.isFree (hlists hscan')
  obtain ⟨r, hround⟩ := exists_round_of_nearest minimum i hk₀
  obtain ⟨t, k, j, rfl, hk, hj, hcases⟩ := round_cases hround
  refine ⟨_, r, hround, fun hnear => hnear.visit (hlists hscan) (h.isNaN j₀), ?_⟩
  rcases hcases with ⟨hinf, rfl⟩ | ⟨hne, hcases⟩
  · refine .inl ⟨rfl, fun hlt => ?_⟩
    have hle := nearest_le h'.isKeyed hk (hlists hscan')
    rw [← hj] at hle
    obtain ⟨hnan, hinfinity⟩ := Binary.isNaN_of_lt hlt
    rw [Binary.lt_iff_quanta hnan hinfinity] at hlt
    have hlow := (Binary.lt_iff_quanta (h'.isNaN j) hinfinity).mpr (hle.trans_lt hlt)
    rw [Binary.infinity_beq_of_lt hlow] at hinf
    exact absurd hinf (by simp)
  · refine .inr ⟨k, j, h'.scan k hne, ?_⟩
    rcases hcases with ⟨hfreej, rfl⟩ | ⟨i', hi', rfl⟩
    · exact .inl ⟨rfl, hscan'.endsAt hj hne hfreej⟩
    · exact .inr ⟨i', rfl, hscan'.scan hk hj hne hi'⟩

theorem exists_run (hvalid : cost.hasInvalidEntry = false) (minimum : Binary f)
    (hfree : p.rowOf[j₀] = none) (hscan : IsScan p.toMatching root (some i) trail s)
    (h : IsLabelled cost trail written s) :
    ∃ r, s.run cost p.rowPotential p.columnPotential p.toMatching minimum i = .ok r ∧
      Halts cost p.toMatching root (written ++ (s.stages cost p root minimum i).flatMap
        (Rectangular.Stage.writes cost)) r ∧
      (IsNear cost p.rowPotential p.columnPotential minimum i s j₀ → r.2 ≠ none) := by
  -- Induction on the number of columns that have not been scanned.
  induction hcount : s.unscanned.count using Nat.strong_induction_on
    generalizing s trail written minimum i with
  | _ count ih =>
    obtain ⟨t, r, hround, hnear, hcases⟩ :=
      exists_round_of_free hvalid minimum hfree hscan h
    rcases hcases with ⟨rfl, hfar⟩ | ⟨k, j, hlabelled, ⟨rfl, hends⟩ | ⟨i', rfl, hscan'⟩⟩
    · exact ⟨_, by rw [run, hround], .blocked, fun hn => absurd (hnear hn) hfar⟩
    · refine ⟨_, by rw [run, hround], .arrived hends ?_, fun _ => by simp⟩
      rw [stages_of_reached hround]
      simpa [Rectangular.Stage.writes] using hlabelled
    · obtain ⟨r, hrun, hhalts, hfound⟩ :=
        ih _ (hcount ▸ count_lt_of_round hround) _ hscan' hlabelled rfl
      refine ⟨r, ?_, ?_, fun hn => hfound (.inl (hnear hn))⟩
      · rw [run, hround]
        exact hrun
      · rw [stages_of_passed hround, List.flatMap_cons, ← List.append_assoc]
        exact hhalts

end run

end PathSearch

namespace Rectangular

namespace Progress

section course

variable {α : Type} [Cost α] {n m : ℕ}

/-- The given rows are matched one after the other, until one cannot be matched. The walk that flips
a path follows entries that the search for it has written, and comes to no row twice. -/
inductive Matches (cost : CostMatrix α n m) :
    Progress α n m → List (Fin n) → Option (DualMatching α n m) → Prop
  | nil {p} : Matches cost p [] (some p.toDualMatching)
  | blocked {p i rest s} (search : p.search cost i = .ok (s, none)) :
      Matches cost p (i :: rest) none
  | cons {p i rest s sink es r} (search : p.search cost i = .ok (s, some sink))
      (walk : Matching.Walk (fun j => s.reachedBy[j]) i p.toMatching sink.column es
        (p.advance s i sink).toMatching)
      (written : ∀ e ∈ es, e ∈ p.writes cost i) (rows : (es.map Prod.snd).Nodup)
      (others : Matches cost (p.advance s i sink) rest r) : Matches cost p (i :: rest) r

end course

variable {f : Format} {n m : ℕ} {cost : CostMatrix (Binary f) n m} {p : Progress (Binary f) n m}
  {i : Fin n}

/-- What a search finds when it starts: the matched pairs are not forbidden, and where nothing is
matched, the potentials are zero. -/
structure IsRunning (cost : CostMatrix (Binary f) n m) (p : Progress (Binary f) n m) : Prop where
  consistent : p.Consistent
  finite : ∀ {i : Fin n} {j : Fin m}, p.rowOf[j] = some i → Cost.isFinite cost[i][j] = true
  row : ∀ {i : Fin n}, ¬ p.IsMatched i → p.rowPotential[i] = 0
  column : ∀ {j : Fin m}, p.rowOf[j] = none → p.columnPotential[j] = 0

theorem isRunning_initial : IsRunning cost (initial : Progress (Binary f) n m) where
  consistent := Matching.consistent_empty
  finite {i j} h := by
    have hnone : (initial : Progress (Binary f) n m).rowOf[j] = none := Matching.rowOf_empty j
    rw [hnone] at h
    exact absurd h (by simp)
  row _ := getElem_replicate_fin _ _
  column _ := getElem_replicate_fin _ _

/-- The way from a row without column to a free column is the cost of the pairing. -/
theorem IsRunning.isNear (h : p.IsRunning cost) (hi : ¬ p.IsMatched i) {j : Fin m}
    (hj : p.rowOf[j] = none) (hfinite : Cost.isFinite cost[i][j] = true)
    (s : PathSearch (Binary f) n m) :
    PathSearch.IsNear cost p.rowPotential p.columnPotential 0 i s j := by
  refine .inr (Binary.lt_infinity_of_isFinite ?_)
  rw [PathSearch.way, h.row hi, h.column hj]
  exact Binary.isFinite_sub_zero (Binary.isFinite_sub_zero (Binary.isFinite_zero_add hfinite))

/-- The potentials change only where the search has been, so not where nothing is matched. -/
theorem IsRunning.advance (h : p.IsRunning cost) (hi : ¬ p.IsMatched i)
    {s : PathSearch (Binary f) n m} {sink : Sink (Binary f) m} {trail : List (Fin m)}
    {written : List (Fin m × Fin n)}
    (hends : PathSearch.EndsAt p.toMatching i trail sink.column s)
    (hlabelled : PathSearch.IsLabelled cost (sink.column :: trail) written s) :
    (p.advance s i sink).IsRunning cost ∧
      ∀ r, (p.advance s i sink).IsMatched r ↔ r = i ∨ p.IsMatched r := by
  have hflip := Matching.flipped_augment h.consistent hi hends.isTrail hends.free hends.reached
  have hmatched : ∀ r, (p.advance s i sink).IsMatched r ↔ r = i ∨ p.IsMatched r :=
    Matching.isMatched_of_flipped hflip hends.free
  refine ⟨⟨hflip.consistent, fun {r k} hk => ?_, fun {r} hr => ?_, fun {k} hk => ?_⟩, hmatched⟩
  · rcases hflip.origin k r hk with ⟨-, hk⟩ | ⟨hmem, hk⟩
    · exact h.finite hk
    · obtain ⟨r', hr', -, hfinite⟩ :=
        hlabelled.label_of_ne (hlabelled.scanned k (List.mem_cons.mpr hmem))
      obtain rfl := Option.some.inj (hr'.symm.trans hk)
      exact hfinite
  · rw [hmatched, not_or] at hr
    have hscan : s.scannedRows[r] = false := by
      rw [Bool.eq_false_iff]
      intro hscan
      obtain ⟨k, -, hk⟩ := ((hends.row r).mp hscan).resolve_left hr.1
      exact hr.2 ⟨k, hk⟩
    simp only [Progress.advance, getElem_ofFn_fin, raisedRow, if_neg hr.1, hscan]
    exact h.row hr.2
  · obtain ⟨hne, hfree⟩ := (hflip.isFree k).mp hk
    have hscan : s.scannedColumns[k] = false := by
      rw [Bool.eq_false_iff]
      intro hscan
      exact hends.isTrail.not_mem_of_free hfree (((hends.column k).mp hscan).resolve_left hne)
    simp only [Progress.advance, getElem_ofFn_fin, loweredColumn, hscan]
    exact h.column hfree

/-- A search returns, and it finds a free column if the row may be paired with one. -/
theorem IsRunning.exists_search (h : p.IsRunning cost) (hvalid : cost.hasInvalidEntry = false)
    (hnm : n ≤ m) (hi : ¬ p.IsMatched i) :
    ∃ r, p.search cost i = .ok r ∧
      PathSearch.Halts cost p.toMatching i (p.writes cost i) r ∧
      ((∀ j : Fin m, Cost.isFinite cost[i][j] = true) → r.2 ≠ none) := by
  obtain ⟨j₀, hj₀⟩ := h.consistent.exists_free hi hnm
  obtain ⟨r, hr, hhalts, hfound⟩ := PathSearch.exists_run hvalid 0 hj₀
    (PathSearch.isScan_start p.toMatching i p.reachedBy) (PathSearch.isLabelled_start p.reachedBy)
  exact ⟨r, hr, hhalts, fun hrow => hfound (h.isNear hi hj₀ (hrow j₀) _)⟩

theorem exists_matches (rows : List (Fin n)) (p : Progress (Binary f) n m)
    (h : p.IsRunning cost) (hvalid : cost.hasInvalidEntry = false) (hnm : n ≤ m)
    (hrows : ∀ r, p.IsMatched r ↔ r ∉ rows) (hnodup : rows.Nodup) :
    ∃ r, (matchRows cost rows p).outcome = .ok r ∧ Matches cost p rows r ∧
      (∀ s, r = some s → s.toMatching.IsComplete ∧
        ∀ {i : Fin n} {j : Fin m}, s.rowOf[j] = some i → Cost.isFinite cost[i][j] = true) ∧
      ((∀ (i : Fin n) (j : Fin m), Cost.isFinite cost[i][j] = true) → r ≠ none) := by
  induction rows generalizing p with
  | nil =>
    refine ⟨_, rfl, .nil, ?_, fun _ => by simp⟩
    intro s hs
    obtain rfl := Option.some.inj hs
    exact ⟨⟨h.consistent, fun r => (hrows r).mpr List.not_mem_nil⟩, h.finite⟩
  | cons i rows ih =>
    obtain ⟨hfresh, hnodup⟩ := List.nodup_cons.mp hnodup
    have hi : ¬ p.IsMatched i := fun hm => (hrows i).mp hm List.mem_cons_self
    obtain ⟨⟨s, found⟩, hsearch, hhalts, hfound⟩ := h.exists_search hvalid hnm hi
    unfold matchRows
    rw [Run.outcome_ofExcept_bind hsearch]
    cases hhalts with
    | blocked =>
      exact ⟨none, rfl, .blocked hsearch, by simp, fun hall => absurd rfl (hfound (hall i))⟩
    | @arrived _ trail sink hends hlabelled =>
      obtain ⟨hrunning, hmatched⟩ := h.advance hi hends hlabelled
      obtain ⟨es, hwalk, hnodup', hes⟩ := Matching.exists_walk h.consistent hi hends.isTrail
        hends.free hends.reached
      obtain ⟨r, hr, hmatches, hsome, hnone⟩ := ih (p.advance s i sink) hrunning (fun r => by
        rw [hmatched, hrows, List.mem_cons, not_or]
        by_cases hr : r = i
        · simp [hr, hfresh]
        · simp [hr]) hnodup
      refine ⟨r, hr, .cons hsearch hwalk (fun e he => ?_) hnodup' hmatches, hsome, hnone⟩
      obtain ⟨r', hr', hwritten, -⟩ :=
        hlabelled.label_of_ne (hlabelled.scanned e.1 (List.mem_cons.mpr (hes e he)))
      obtain rfl := Option.some.inj (hr'.symm.trans (hwalk.entry e he))
      exact hwritten

end Progress

variable {f : Format} {n m : ℕ}

/-- The solver returns whatever rounding does. A solution matches every row, by pairings none of
which is forbidden, and there is one if no pairing at all is forbidden. -/
theorem solveWide_sound (cost : CostMatrix (Binary f) n m) (hnm : n ≤ m)
    (hvalid : cost.hasInvalidEntry = false) :
    ∃ r, (solveWide cost).outcome = .ok r ∧
      Progress.Matches cost .initial (List.finRange n) r ∧
      (∀ s, r = some s → ∃ g : Fin n → Fin m, Function.Injective g ∧
        ∀ i : Fin n, s.columnOf[i] = some (g i) ∧ Cost.isFinite cost[i][g i] = true) ∧
      ((∀ (i : Fin n) (j : Fin m), (cost[i][j] == Cost.infinity) = false) → r ≠ none) := by
  obtain ⟨r, hr, hmatches, hsome, hnone⟩ := Progress.exists_matches (List.finRange n) .initial
    Progress.isRunning_initial hvalid hnm
    (fun r => iff_of_false (Matching.not_isMatched_empty r) (by simp)) (List.nodup_finRange n)
  refine ⟨r, hr, hmatches, fun s hs => ?_, fun hall => hnone fun i j => ?_⟩
  · obtain ⟨hcomplete, hfinite⟩ := hsome s hs
    obtain ⟨g, hinjective, hg⟩ := hcomplete.exists_columns
    exact ⟨g, hinjective, fun i => ⟨hg i, hfinite (hcomplete.columnOf_iff.mp (hg i))⟩⟩
  · have hentry := CostMatrix.isInvalid_eq_false hvalid i j
    refine (Binary.isFinite_or_isHigh hentry).resolve_right fun hhigh => ?_
    rcases hhigh with hnan | he
    · rw [Cost.isInvalid, hnan] at hentry
      exact absurd hentry (by simp)
    · have hne := hall i j
      rw [he, Cost.LawfulInfinity.infinity_beq] at hne
      exact absurd hne (by simp)

def steep : CostMatrix (Binary .single) 2 2 :=
  .ofFn fun i j => if i = 0 ∧ j = 0 then .infinity else if j = 0 then -.largest else .largest

theorem solveWide_steep_sound :
    ∃ s, (solveWide steep).outcome = .ok (some s) ∧ ∃ g : Fin 2 → Fin 2, Function.Injective g ∧
      ∀ i : Fin 2, s.columnOf[i] = some (g i) ∧ Cost.isFinite steep[i][g i] = true := by
  obtain ⟨r, hr, -, hsome, -⟩ := solveWide_sound steep (by decide) (by decide +kernel)
  cases r with
  | none =>
    have hfound : (solveWide steep).outcome.toOption.join.isSome = true := by decide +kernel
    rw [hr] at hfound
    exact absurd hfound (by decide)
  | some s => exact ⟨s, hr, hsome s rfl⟩

end Rectangular

end LinearAssignment
