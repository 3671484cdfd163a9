import LinearAssignment.Proofs.Dense.Bidding
import LinearAssignment.Proofs.Dense.Stages
import LinearAssignment.Proofs.Walk

/-! The dense solver comes to an end on every matrix of floating-point numbers, NaN and infinities
included: both phases of row reduction are loops that end, a search scans no column twice, and the
walk back from the free column that it finds comes to no row twice. Only a bid can fail. -/
namespace LinearAssignment

section search

variable {α : Type} [Cost α] {n m : ℕ} {cost : CostMatrix α n m} {p : PricedMatching α n m}
  {root : Fin n}

def Dense.Stage.scanned? : Dense.Stage α n m → Option (Fin m)
  | .scan _ _ _ j => some j
  | _ => none

namespace ColumnSearch

def scanned (cost : CostMatrix α n m) (p : PricedMatching α n m) (s : ColumnSearch α n m) :
    List (Fin m) :=
  (s.stages cost p).filterMap Dense.Stage.scanned?

variable {s t : ColumnSearch α n m}

theorem scanStage?_of_collected (ht : s.advance = .ok t) {sink : Fin m}
    (hfree : t.freeColumn? p.isFree = some sink) : s.scanStage? p = none := by
  simp [scanStage?, ht, hfree]

theorem scanStage?_of_held (ht : s.advance = .ok t) (hheld : t.freeColumn? p.isFree = none)
    {a : Fin m} (ha : a.val = s.low) {i : Fin n} (hi : p.rowOf[t.order[a]] = some i) :
    s.scanStage? p = some (.scan p t i t.order[a]) := by
  have hm : s.low < m := ha ▸ a.isLt
  obtain rfl : (⟨s.low, hm⟩ : Fin m) = a := Fin.ext ha.symm
  unfold scanStage?
  simp only [ht, hheld, hm, and_self, ↓reduceDIte, hi, Option.map_some]

theorem scanned_of_found {sink : Fin m} (h : s.round cost p = .ok (.found t sink)) :
    s.scanned cost p = (s.scanStage? p).toList.filterMap Dense.Stage.scanned? := by
  rw [scanned, stages_of_found h, List.filterMap_append]
  simp [Dense.Stage.scanned?]

theorem scanned_of_passed (h : s.round cost p = .ok (.passed t)) :
    s.scanned cost p =
      (s.scanStage? p).toList.filterMap Dense.Stage.scanned? ++ t.scanned cost p := by
  rw [scanned, stages_of_passed h, List.filterMap_append, scanned]

theorem trail_advance (h : IsScan p.toMatching root s.up s) (ht : s.advance = .ok t) :
    t.order.trail t.low = s.order.trail s.low := by
  rcases advance_cases ht with ⟨-, rfl⟩ | ⟨-, f, hf, rfl⟩
  · rfl
  · exact ColumnOrder.trail_congr (Frontier.isFrontier_collect h.distinct hf).before

variable {q : ColumnSearch α n m} {sink : Fin m} {visited : List (ColumnSearch α n m)}
  {js : List (Fin m)}

/-- The columns that a search scans on its course are those that it adds to its trail. -/
theorem Course.scanned_eq (h : Course cost p s visited js q sink)
    (hs : IsScan p.toMatching root s.up s) :
    s.scanned cost p = js ∧ q.order.trail q.low = js.reverse ++ s.order.trail s.low := by
  induction h with
  | collected advance free round =>
    refine ⟨?_, trail_advance hs advance⟩
    rw [scanned_of_found round, scanStage?_of_collected advance free]
    rfl
  | @reached s t q sink i a advance held position holder scan round =>
    obtain ⟨hlow, hup, ht⟩ := hs.advance advance
    constructor
    · rw [scanned_of_found round, scanStage?_of_held advance held (position.trans hlow) holder]
      rfl
    · have hgrown := trail_scan cost (ht.fill held) position hup i
      rw [scan, trail_advance hs advance] at hgrown
      exact hgrown
  | @passed s t q r sink i visited js a advance held position holder scan round rest ih =>
    obtain ⟨hlow, hup, ht⟩ := hs.advance advance
    have hnext : IsScan p.toMatching root _ (t.scan cost p i t.order[a]).1 :=
      (ht.fill held).scan position hup holder
    have hgrown := trail_scan cost (ht.fill held) position hup i
    rw [scan, trail_advance hs advance] at hgrown
    rw [scan] at hnext
    obtain ⟨hscanned, htrail⟩ := ih hnext
    constructor
    · rw [scanned_of_passed round, hscanned,
        scanStage?_of_held advance held (position.trans hlow) holder]
      rfl
    · rw [htrail, hgrown, List.reverse_cons, List.append_assoc]
      rfl

end ColumnSearch

namespace PricedMatching

/-- A row is matched by a search that scans no column twice, and so no more columns than there are,
and by a walk back that comes to no row twice. -/
inductive Augments (cost : CostMatrix α n m) (p : PricedMatching α n m) (i : Fin n) :
    PricedMatching α n m → Prop
  | intro {s sink es t}
      (search : (ColumnSearch.start cost[i] p.price i).run cost p = .ok (s, sink))
      (scanned : ((ColumnSearch.start cost[i] p.price i).scanned cost p).Nodup)
      (length_le : ((ColumnSearch.start cost[i] p.price i).scanned cost p).length ≤ m)
      (walk : Matching.Walk (fun j => some s.reachedBy[j]) i p.toMatching sink es t)
      (rows : (es.map Prod.snd).Nodup) : Augments cost p i ⟨t, s.newPrices p.price⟩

theorem Augments.unique {cost : CostMatrix α n m} {i : Fin n} {t t' : PricedMatching α n m}
    (h : p.Augments cost i t) (h' : p.Augments cost i t') : t = t' := by
  cases h with
  | intro search _ _ walk _ =>
    cases h' with
    | intro search' _ _ walk' _ =>
      obtain ⟨rfl, rfl⟩ := Prod.mk.inj (Except.ok.inj (search.symm.trans search'))
      obtain ⟨-, rfl⟩ := walk.unique walk'
      rfl

/-- A row without column is matched in this way, and with it all rows that were matched before. -/
theorem exists_augments (cost : CostMatrix α n m) {i : Fin n} (hp : p.Consistent)
    (hi : ¬ p.IsMatched i) (hnm : n ≤ m) :
    ∃ t, p.augmentRow cost i = .ok t ∧ p.Augments cost i t ∧ t.Consistent ∧
      ∀ r, t.IsMatched r ↔ r = i ∨ p.IsMatched r := by
  obtain ⟨j₀, hj₀⟩ := hp.exists_free hi hnm
  obtain ⟨_, _, s, sink, _, hcourse, hsink, hscan, -⟩ :=
    ColumnSearch.exists_course (s := .start cost[i] p.price i) cost hj₀
      (ColumnSearch.isScan_start cost[i] p.price)
  have hrun := hcourse.run_eq
  obtain ⟨hscanned, htrail⟩ :=
    hcourse.scanned_eq (ColumnSearch.isScan_start cost[i] p.price)
  have hnodup : ((ColumnSearch.start cost[i] p.price i).scanned cost p).Nodup := by
    have hall := hscan.isTrail.nodup
    rw [htrail, ← hscanned] at hall
    exact List.nodup_reverse.mp (List.nodup_append.mp hall).1
  have hlength := hnodup.length_le_card
  rw [Fintype.card_fin] at hlength
  have hreached : p.toMatching.ReachedFrom (fun j => some s.reachedBy[j]) i
      (s.order.trail s.low) sink := ⟨_, rfl, hscan.reached sink⟩
  obtain ⟨es, hwalk, hrows, -⟩ := Matching.exists_walk hp hi hscan.isTrail hsink hreached
  have hflip := Matching.flipped_augment hp hi hscan.isTrail hsink hreached
  exact ⟨_, augmentRow_of_run hrun, .intro hrun hnodup hlength hwalk hrows, hflip.consistent,
    Matching.isMatched_of_flipped hflip hsink⟩

inductive AugmentsAll (cost : CostMatrix α n m) :
    PricedMatching α n m → List (Fin n) → PricedMatching α n m → Prop
  | nil {s} : AugmentsAll cost s [] s
  | cons {s t q i rest} (first : s.Augments cost i t) (others : AugmentsAll cost t rest q) :
      AugmentsAll cost s (i :: rest) q

theorem AugmentsAll.unique {cost : CostMatrix α n m} {free : List (Fin n)}
    {q q' : PricedMatching α n m} (h : AugmentsAll cost p free q)
    (h' : AugmentsAll cost p free q') : q = q' := by
  induction h with
  | nil =>
    cases h'
    rfl
  | cons first _ ih =>
    cases h' with
    | cons first' others' =>
      obtain rfl := first.unique first'
      exact ih others'

theorem exists_augmentsAll (cost : CostMatrix α n m) (count step : ℕ) (free : List (Fin n))
    (hp : p.Consistent) (hfree : p.Misses free) (hnm : n ≤ m) :
    ∃ q, (Dense.augmentAll cost count step free p).outcome = .ok q ∧
      AugmentsAll cost p free q ∧ q.IsComplete := by
  induction free generalizing p step with
  | nil =>
    refine ⟨p, rfl, .nil, hp, fun r => ?_⟩
    by_contra hr
    exact absurd ((hfree.mem_iff r).mpr hr) List.not_mem_nil
  | cons i rest ih =>
    have hi : ¬ p.IsMatched i := (hfree.mem_iff i).mp List.mem_cons_self
    obtain ⟨t, ht, hfirst, hconsistent, hmatched⟩ := exists_augments cost hp hi hnm
    obtain ⟨q, hq, hrest, hcomplete⟩ := ih (step + 1) hconsistent (hfree.tail hmatched)
    refine ⟨q, ?_, .cons hfirst hrest, hcomplete⟩
    unfold Dense.augmentAll
    rw [Run.outcome_emit_bind, Run.outcome_ofExcept_bind ht]
    exact hq

end PricedMatching

end search

namespace Dense

open Bidding PricedMatching

section course

variable {α : Type} [Cost α] {n m : ℕ}

/-- The course of a run, with all its loops unbounded. It ends when a bid fails, or with a matching
of all rows. -/
inductive Ends (cost : CostMatrix α n m) : Except SearchError (DualMatching α n m) → Prop
  | first {e} (phase : (start .initial (List.finRange n)).Ends cost (.error e)) :
      Ends cost (.error e)
  | second {s free e} (phase : (start .initial (List.finRange n)).Ends cost (.ok (s, free)))
      (phase' : (start s free).Ends cost (.error e)) : Ends cost (.error e)
  | solved {s free p free' q}
      (phase : (start .initial (List.finRange n)).Ends cost (.ok (s, free)))
      (phase' : (start s free).Ends cost (.ok (p, free'))) (rows : AugmentsAll cost p free' q)
      (complete : q.IsComplete) :
      Ends cost (.ok ⟨q.toMatching, Vector.ofFn (rowPotential cost q), q.price⟩)

theorem Ends.unique {cost : CostMatrix α n m} {r r' : Except SearchError (DualMatching α n m)}
    (h : Ends cost r) (h' : Ends cost r') : r = r' := by
  cases h with
  | first phase =>
    cases h' with
    | first phase' => rw [Except.error.inj (phase.unique phase')]
    | second phase' _ => exact nomatch phase.unique phase'
    | solved phase' _ _ _ => exact nomatch phase.unique phase'
  | second phase next =>
    cases h' with
    | first phase' => exact nomatch phase.unique phase'
    | second phase' next' =>
      obtain ⟨rfl, rfl⟩ := Prod.mk.inj (Except.ok.inj (phase.unique phase'))
      rw [Except.error.inj (next.unique next')]
    | solved phase' next' _ _ =>
      obtain ⟨rfl, rfl⟩ := Prod.mk.inj (Except.ok.inj (phase.unique phase'))
      exact nomatch next.unique next'
  | solved phase next rows _ =>
    cases h' with
    | first phase' => exact nomatch phase.unique phase'
    | second phase' next' =>
      obtain ⟨rfl, rfl⟩ := Prod.mk.inj (Except.ok.inj (phase.unique phase'))
      exact nomatch next.unique next'
    | solved phase' next' rows' _ =>
      obtain ⟨rfl, rfl⟩ := Prod.mk.inj (Except.ok.inj (phase.unique phase'))
      obtain ⟨rfl, rfl⟩ := Prod.mk.inj (Except.ok.inj (next.unique next'))
      rw [rows.unique rows']

/-- Two phases that make all their bids leave rows that are all augmented. -/
theorem exists_ends_of_bids {cost : CostMatrix α n m} {s p : PricedMatching α n m}
    {free free' : List (Fin n)} (hnm : n ≤ m)
    (hs : Bids cost .initial (List.finRange n) [] s free) (hp : Bids cost s free [] p free') :
    ∃ q, (augmentAll cost free'.length 1 free' p).outcome = .ok q ∧
      Ends cost (.ok ⟨q.toMatching, Vector.ofFn (rowPotential cost q), q.price⟩) := by
  have hfirst := ends_of_bids hs
  obtain ⟨hconsistent, hfree⟩ :=
    hfirst.misses (isSorted_start Matching.consistent_empty Matching.misses_empty) hnm rfl
  have hsecond := ends_of_bids hp
  obtain ⟨hconsistent', hfree'⟩ := hsecond.misses (isSorted_start hconsistent hfree) hnm rfl
  obtain ⟨q, hq, hrows, hcomplete⟩ :=
    exists_augmentsAll cost free'.length 1 free' hconsistent' hfree' hnm
  exact ⟨q, hq, .solved hfirst hsecond hrows hcomplete⟩

inductive EndsNormal : NormalForm α n m → DualMatching α n m → Prop
  | upright {wide cost s} (run : Ends cost (.ok s)) : EndsNormal (.upright wide cost) s
  | transposed {tall cost s} (run : Ends cost (.ok s)) :
      EndsNormal (.transposed tall cost) s.transpose

/-- What the solver returns if all its loops go on until they end by themselves. -/
inductive Returns (cost : CostMatrix α n m) (maximize : Bool) : Solution α n m → Prop
  | trivial {s} (empty : min n m = 0) (nothing : s = .trivial) :
      Returns cost maximize ⟨s, cost.total s.columnOf⟩
  | solved {s} (nonempty : min n m ≠ 0) (run : EndsNormal (cost.normalize maximize) s) :
      Returns cost maximize ⟨s, cost.total s.columnOf⟩

theorem EndsNormal.unique {N : NormalForm α n m} {s s' : DualMatching α n m}
    (h : EndsNormal N s) (h' : EndsNormal N s') : s = s' := by
  cases h with
  | upright run =>
    cases h' with
    | upright run' => exact Except.ok.inj (run.unique run')
  | transposed run =>
    cases h' with
    | transposed run' => rw [Except.ok.inj (run.unique run')]

theorem Returns.unique {cost : CostMatrix α n m} {maximize : Bool} {s s' : Solution α n m}
    (h : Returns cost maximize s) (h' : Returns cost maximize s') : s = s' := by
  cases h with
  | trivial empty nothing =>
    cases h' with
    | trivial _ nothing' => rw [nothing, nothing']
    | solved nonempty _ => exact absurd empty nonempty
  | solved nonempty run =>
    cases h' with
    | trivial empty _ => exact absurd empty nonempty
    | solved _ run' => rw [run.unique run']

inductive Reached (cost : CostMatrix α n m) : Bidding α n m → Prop
  | first : Reached cost (start .initial (List.finRange n))
  | second {s free} (phase : (start .initial (List.finRange n)).Ends cost (.ok (s, free))) :
      Reached cost (start s free)
  | step {b b'} (before : Reached cost b) (bid : Step cost b b') : Reached cost b'

end course

variable {f : Format} {n m : ℕ} {cost : CostMatrix (Binary f) n m}

theorem Reached.isPriced {b : Bidding (Binary f) n m} (h : Reached cost b) : b.state.IsPriced := by
  induction h with
  | first => exact isPriced_initial
  | second phase => exact phase.isPriced isPriced_initial rfl
  | step _ bid ih => exact bid.falls.isPriced ih

/-- The outcome of a run is what its loops end with. -/
theorem ends_solveWide (cost : CostMatrix (Binary f) n m) (hnm : n ≤ m) :
    Ends cost (solveWide cost).outcome := by
  have hfirst : (start .initial (List.finRange n)).Ends cost _ :=
    ends_reduceRows isPriced_initial (List.finRange n)
  cases hs : PricedMatching.initial.reduceRows cost (List.finRange n) with
  | error e =>
    rw [hs] at hfirst
    have hrun : (complete cost).outcome = .error e :=
      Run.outcome_bind_error (r := .ofExcept _) hs _
    rw [solveWide, Run.outcome_bind_error hrun]
    exact .first hfirst
  | ok r =>
    obtain ⟨s, free⟩ := r
    rw [hs] at hfirst
    obtain ⟨hconsistent, hfree⟩ := hfirst.misses
      (isSorted_start Matching.consistent_empty Matching.misses_empty) hnm rfl
    have hsecond : (start s free).Ends cost _ :=
      ends_reduceRows (hfirst.isPriced isPriced_initial rfl) free
    cases hp : s.reduceRows cost free with
    | error e =>
      rw [hp] at hsecond
      have hrun : (complete cost).outcome = .error e := by
        unfold complete
        rw [Run.outcome_ofExcept_bind hs, Run.outcome_emit_bind]
        exact Run.outcome_bind_error (r := .ofExcept _) hp _
      rw [solveWide, Run.outcome_bind_error hrun]
      exact .second hfirst hsecond
    | ok r =>
      obtain ⟨p, free'⟩ := r
      rw [hp] at hsecond
      obtain ⟨hconsistent', hfree'⟩ :=
        hsecond.misses (isSorted_start hconsistent hfree) hnm rfl
      obtain ⟨q, hq, hrows, hcomplete⟩ := exists_augmentsAll cost free'.length 1 free'
        hconsistent' hfree' hnm
      rw [solveWide, Run.outcome_bind ((outcome_complete hs hp).trans hq)]
      exact .solved hfirst hsecond hrows hcomplete

theorem isComplete_of_solveWide (hnm : n ≤ m) {s : DualMatching (Binary f) n m}
    (h : (solveWide cost).outcome = .ok s) : s.IsComplete := by
  have hends := ends_solveWide cost hnm
  rw [h] at hends
  cases hends with
  | solved _ _ _ complete => exact complete

/-- A run ends on every matrix. Each of its bids lowers one price and changes no other, or it
shortens the queue at unchanged prices, so what is left to the phase always gets less. -/
theorem solveWide_terminates (cost : CostMatrix (Binary f) n m) (hnm : n ≤ m) :
    Ends cost (solveWide cost).outcome ∧
      ∀ b b', Reached cost b → Step cost b b' → Falls b b' ∧ b'.left < b.left :=
  ⟨ends_solveWide cost hnm, fun _ _ hb hstep => ⟨hstep.falls, hstep.falls.left_lt hb.isPriced⟩⟩

/-- Three rows that compete for the first column; two of them are forbidden the last one. -/
def crowded : CostMatrix (Binary .single) 3 3 :=
  let x := Binary.infinity
  #v[#v[0, 0, x], #v[0, 0, x], #v[0, .ofInt 1, .ofInt 1]]

/-- In the first phase the last row drives the first one from its column, and that one drives the
second one from its. In the end one row is left to be augmented. -/
theorem solveWide_crowded_terminates :
    (bidders crowded 10 .initial (List.finRange 3)).map Prod.snd = [0, 1, 2, 0, 1] ∧
      (solveWide crowded).events.length = 3 ∧ (∃ s, Ends crowded (.ok s)) ∧
      ∃ b', Step crowded (start .initial (List.finRange 3)) b' ∧
        b'.left <
          (start (.initial : PricedMatching (Binary .single) 3 3) (List.finRange 3)).left := by
  obtain ⟨hends, hfalls⟩ := solveWide_terminates crowded le_rfl
  have hsolves : (solveWide crowded).outcome.toBool = true := by decide +kernel
  have hbids : (PricedMatching.initial.bid crowded 0).toBool = true := by decide +kernel
  refine ⟨by decide +kernel, by decide +kernel, ?_, ?_⟩
  · cases hrun : (solveWide crowded).outcome with
    | error e => simp [hrun, Except.toBool] at hsolves
    | ok s => exact ⟨s, hrun ▸ hends⟩
  · cases hbid : PricedMatching.initial.bid crowded 0 with
    | error e => simp [hbid, Except.toBool] at hbids
    | ok r =>
      obtain ⟨b', hstep⟩ : ∃ b', Step crowded (start .initial (List.finRange 3)) b' :=
        Step.exists_of_bid hbid
      exact ⟨b', hstep, (hfalls _ _ .first hstep).2⟩

end Dense

end LinearAssignment
