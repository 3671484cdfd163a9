import LinearAssignment.Dense.Solver
import LinearAssignment.Proofs.CompleteMatching
import LinearAssignment.Proofs.Dense.RowReduction
import LinearAssignment.Proofs.Dense.Scan

/-! The course of the dense solver in any arithmetic. A search from a row without column ends in a
free column whatever the distances are, so an augmentation matches one row more; what is kept by
every bid and every augmentation is kept by the whole run. -/
namespace LinearAssignment

variable {α : Type} [Cost α] {n m : ℕ} {cost : CostMatrix α n m} {p : PricedMatching α n m}
  {i root : Fin n}

namespace ColumnSearch

/-- The course of a search from state `s`: the states that it goes through, the columns that it
scans in the order in which it does, and its last state and sink. A free column ends the search when
it has just been collected or when a scan reaches it; otherwise the first column of the frontier is
scanned, which a row holds. -/
inductive Course (cost : CostMatrix α n m) (p : PricedMatching α n m) :
    ColumnSearch α n m → List (ColumnSearch α n m) → List (Fin m) →
      ColumnSearch α n m → Fin m → Prop
  | collected {s t sink} (advance : s.advance = .ok t) (free : t.freeColumn? p.isFree = some sink)
      (round : s.round cost p = .ok (.found t sink)) : Course cost p s [s, t] [] t sink
  | reached {s t q sink i} {a : Fin m} (advance : s.advance = .ok t)
      (held : t.freeColumn? p.isFree = none) (position : a.val = t.low)
      (holder : p.rowOf[t.order[a]] = some i) (scan : t.scan cost p i t.order[a] = (q, some sink))
      (round : s.round cost p = .ok (.found q sink)) :
      Course cost p s [s, t, q] [t.order[a]] q sink
  | passed {s t q r sink i visited scanned} {a : Fin m} (advance : s.advance = .ok t)
      (held : t.freeColumn? p.isFree = none) (position : a.val = t.low)
      (holder : p.rowOf[t.order[a]] = some i) (scan : t.scan cost p i t.order[a] = (q, none))
      (round : s.round cost p = .ok (.passed q)) (rest : Course cost p q visited scanned r sink) :
      Course cost p s (s :: t :: visited) (t.order[a] :: scanned) r sink

variable {s r : ColumnSearch α n m} {sink : Fin m} {visited : List (ColumnSearch α n m)}
  {scanned : List (Fin m)}

theorem Course.run_eq (h : Course cost p s visited scanned r sink) :
    s.run cost p = .ok (r, sink) := by
  induction h with
  | collected _ _ round => rw [run, round]
  | reached _ _ _ _ _ round => rw [run, round]
  | passed _ _ _ _ _ round _ ih =>
    rw [run, round]
    exact ih

/-- As long as some column is free, a search runs a course to a free column, and all columns stay
listed. -/
theorem exists_course (cost : CostMatrix α n m) {j : Fin m} (hfree : p.rowOf[j] = none)
    (h : IsScan p.toMatching root s.up s) :
    ∃ (visited : List (ColumnSearch α n m)) (scanned : List (Fin m)) (r : ColumnSearch α n m)
        (sink : Fin m) (filled : ℕ), Course cost p s visited scanned r sink ∧
      p.rowOf[sink] = none ∧ IsScan p.toMatching root filled r ∧
      ∀ t ∈ visited, t.order.Distinct := by
  -- Induction on the number of columns that have not been scanned.
  induction hleft : m - s.low using Nat.strong_induction_on generalizing s with
  | _ left ih =>
    have hlowm : s.low < m := h.low_le.trans_lt (h.filled_lt hfree)
    obtain ⟨t, ht⟩ := exists_advance hlowm
    obtain ⟨hlow, hup, ht'⟩ := h.advance ht
    let a : Fin m := ⟨s.low, hlowm⟩
    rcases round_cases cost p ht hlow (a := a) rfl with ⟨sink, hsink, hround⟩ | ⟨hnone, hcases⟩
    · refine ⟨_, _, t, sink, _, .collected ht hsink hround, (freeColumn?_spec hsink).1, ht', ?_⟩
      exact List.forall_mem_cons.mpr ⟨h.distinct, List.forall_mem_singleton.mpr ht'.distinct⟩
    · -- The frontier has no free column, so the first of its columns is held.
      have hfill := ht'.fill hnone
      obtain ⟨i, hi⟩ := hfill.occupied a (hlow.ge.trans_lt hup)
      have hround := (hcases.resolve_left fun hdead => by simp [hi] at hdead)
      obtain ⟨i', hi', hround⟩ := hround
      obtain rfl : i' = i := Option.some.inj (hi'.symm.trans hi)
      have hscan : IsScan p.toMatching root _ (t.scan cost p i' t.order[a]).1 :=
        hfill.scan hlow.symm hup hi
      rcases hq : t.scan cost p i' t.order[a] with ⟨q, found⟩
      rw [hq] at hround hscan
      cases found with
      | some sink =>
        have hsink := (isRelaxed_scan cost hfill i' t.order[a]).found sink (by rw [hq])
        refine ⟨_, _, q, sink, _, .reached ht hnone hlow.symm hi hq hround,
          Matching.isFree_iff.mp hsink.1, hscan, ?_⟩
        simp [h.distinct, ht'.distinct, hscan.distinct]
      | none =>
        have hlow' := low_of_round hround
        obtain ⟨visited, scanned, r, sink, filled, hcourse, hsink, hr, hdistinct⟩ :=
          ih _ (by omega) hscan rfl
        refine ⟨_, _, r, sink, filled, .passed ht hnone hlow.symm hi hq hround hcourse, hsink, hr,
          ?_⟩
        simpa [h.distinct, ht'.distinct] using hdistinct

end ColumnSearch

namespace PricedMatching

/-- An augmentation matches a row without column, and with it all rows that were matched before. -/
theorem exists_augmentRow (hp : p.Consistent) (hi : ¬ p.IsMatched i) (hnm : n ≤ m) :
    ∃ t, p.augmentRow cost i = .ok t ∧ t.Consistent ∧
      ∀ r, t.IsMatched r ↔ r = i ∨ p.IsMatched r := by
  obtain ⟨j₀, hj₀⟩ := hp.exists_free hi hnm
  obtain ⟨_, _, s, sink, _, hcourse, hsink, hscan, -⟩ :=
    ColumnSearch.exists_course (s := .start cost[i] p.price i) cost hj₀
      (ColumnSearch.isScan_start cost[i] p.price)
  have hflip := Matching.flipped_augment hp hi hscan.isTrail hsink ⟨_, rfl, hscan.reached sink⟩
  exact ⟨_, augmentRow_of_run hcourse.run_eq, hflip.consistent,
    Matching.isMatched_of_flipped hflip hsink⟩

def bidders (cost : CostMatrix α n m) :
    ℕ → PricedMatching α n m → List (Fin n) → List (PricedMatching α n m × Fin n)
  | _, _, [] => []
  | 0, _, _ :: _ => []
  | steps + 1, s, i :: queue =>
    (s, i) ::
      match s.bid cost i with
      | .error _ => []
      | .ok (t, .nobody) => bidders cost steps t queue
      | .ok (t, .outbid r) => bidders cost steps t (r :: queue)
      | .ok (t, .deferred _) => bidders cost steps t queue

/-- Whatever row bids has no column, and what each bid keeps holds when it does. -/
theorem bidders_keep (Keeps : PricedMatching α n m → Prop)
    (hconsistent : ∀ s, Keeps s → s.Consistent)
    (hbid : ∀ s i, Keeps s → ¬ s.IsMatched i →
      ∃ b j r, s.bid cost i = .ok r ∧ s.Takes i b j r ∧ Keeps r.1)
    (steps : ℕ) (s : PricedMatching α n m) (queue waiting : List (Fin n)) (hs : Keeps s)
    (hmisses : s.Misses (queue ++ waiting)) {x : PricedMatching α n m × Fin n}
    (hx : x ∈ bidders cost steps s queue) : Keeps x.1 ∧ ¬ x.1.IsMatched x.2 := by
  induction steps generalizing s queue waiting with
  | zero => cases queue <;> simp [bidders] at hx
  | succ steps ih =>
    cases queue with
    | nil => simp [bidders] at hx
    | cons i queue =>
      have hi : ¬ s.IsMatched i := (hmisses.mem_iff i).mp List.mem_cons_self
      obtain ⟨b, j, ⟨t, displaced⟩, hr, htakes, ht⟩ := hbid s i hs hi
      have hmisses' := htakes.misses (hconsistent s hs) hmisses
      simp only [bidders, hr] at hx
      rcases List.mem_cons.mp hx with rfl | hx
      · exact ⟨hs, hi⟩
      · cases displaced with
        | nobody => exact ih t queue waiting ht hmisses' hx
        | outbid r => exact ih t (r :: queue) waiting ht hmisses' hx
        | deferred r =>
          have hall : t.Misses (r :: (queue ++ waiting)) := hmisses'
          exact ih t queue (r :: waiting) ht (hall.perm List.perm_middle.symm) hx

end PricedMatching

namespace Dense

theorem augmentAll_outcome (Keeps : PricedMatching α n m → Prop)
    (hstep : ∀ p i, Keeps p → ¬ p.IsMatched i →
      ∃ t, p.augmentRow cost i = .ok t ∧ Keeps t ∧ ∀ r, t.IsMatched r ↔ r = i ∨ p.IsMatched r)
    (count step : ℕ) (free : List (Fin n)) (p : PricedMatching α n m) (h : Keeps p)
    (hfree : p.Misses free) :
    ∃ t, (augmentAll cost count step free p).outcome = .ok t ∧ Keeps t ∧ ∀ r, t.IsMatched r := by
  induction free generalizing p step with
  | nil =>
    refine ⟨p, rfl, h, fun r => ?_⟩
    by_contra hr
    exact absurd ((hfree.mem_iff r).mpr hr) List.not_mem_nil
  | cons i rest ih =>
    have hi : ¬ p.IsMatched i := (hfree.mem_iff i).mp List.mem_cons_self
    obtain ⟨t, ht, hkeeps, hmatched⟩ := hstep p i h hi
    unfold augmentAll
    rw [Run.outcome_emit_bind, Run.outcome_ofExcept_bind ht]
    exact ih (step + 1) t hkeeps (hfree.tail hmatched)

theorem outcome_complete {s p : PricedMatching α n m} {free free' : List (Fin n)}
    (hs : PricedMatching.initial.reduceRows cost (List.finRange n) = .ok (s, free))
    (hp : s.reduceRows cost free = .ok (p, free')) :
    (complete cost).outcome = (augmentAll cost free'.length 1 free' p).outcome := by
  unfold complete
  rw [Run.outcome_ofExcept_bind hs, Run.outcome_emit_bind, Run.outcome_ofExcept_bind hp,
    Run.outcome_emit_bind]

/-- A run ends with all rows matched if its phases and augmentations succeed. -/
theorem complete_keeps (Keeps : PricedMatching α n m → Prop)
    (hinitial : Keeps PricedMatching.initial)
    (hphase : ∀ s free, Keeps s → s.Misses free →
      ∃ t free', s.reduceRows cost free = .ok (t, free') ∧ Keeps t ∧ t.Misses free')
    (hstep : ∀ p i, Keeps p → ¬ p.IsMatched i →
      ∃ t, p.augmentRow cost i = .ok t ∧ Keeps t ∧ ∀ r, t.IsMatched r ↔ r = i ∨ p.IsMatched r) :
    ∃ t, (complete cost).outcome = .ok t ∧ Keeps t ∧ ∀ r, t.IsMatched r := by
  obtain ⟨s, free, hs, hkeeps, hfree⟩ := hphase _ _ hinitial Matching.misses_empty
  obtain ⟨p, free', hp, hkeeps', hfree'⟩ := hphase s free hkeeps hfree
  rw [outcome_complete hs hp]
  exact augmentAll_outcome Keeps hstep free'.length 1 free' p hkeeps' hfree'

end Dense

end LinearAssignment
