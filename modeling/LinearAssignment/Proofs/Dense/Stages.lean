import LinearAssignment.Proofs.Dense.Augmentation
import LinearAssignment.Proofs.Dense.Course

/-! The stages of a run at which the dense solver calculates, in the order in which it comes to
them, and the results of all additions and subtractions that it carries out there. -/
namespace LinearAssignment

theorem forall_mem_toList {α : Type} {m : ℕ} {P : α → Prop} {xs : Vector α m} :
    (∀ x ∈ xs.toList, P x) ↔ ∀ j : Fin m, P xs[j] := by
  simp only [Vector.mem_toList_iff, Vector.forall_mem_iff_forall_getElem, Fin.forall_iff]
  rfl

/-- The results of the calculation in which the given columns give way one after the other. -/
def ColumnSearch.concessions {α : Type} [Cost α] {n m : ℕ} (s : ColumnSearch α n m) :
    List (Fin m) → Vector α m → List α
  | [], _ => []
  | j :: js, price =>
    (price[j] + s.distance[j]) :: (price[j] + s.distance[j] - s.minimum) ::
      s.concessions js (s.concede price j)

theorem ColumnSearch.forall_concessions {α : Type} [Cost α] {n m : ℕ} {s : ColumnSearch α n m}
    {P : α → Prop} {js : List (Fin m)} (hjs : js.Nodup) (price : Vector α m) :
    (∀ x ∈ s.concessions js price, P x) ↔
      ∀ j ∈ js, P (price[j] + s.distance[j]) ∧ P (price[j] + s.distance[j] - s.minimum) := by
  induction js generalizing price with
  | nil => simp [concessions]
  | cons k js ih =>
    obtain ⟨hk, hjs⟩ := List.nodup_cons.mp hjs
    rw [concessions, List.forall_mem_cons, List.forall_mem_cons, ih hjs, ← and_assoc,
      List.forall_mem_cons]
    refine and_congr_right fun _ => forall₂_congr fun j hj => ?_
    have hjk : j ≠ k := fun he => hk (he ▸ hj)
    rw [concede, getElem_set_fin, if_neg hjk]

namespace Dense

/-- A stage of a run, with what the solver knows when it comes to it. -/
inductive Stage (α : Type) (n m : ℕ) where
  /-- A row bids. -/
  | bid (s : PricedMatching α n m) (i : Fin n)
  /-- A search starts from a row. -/
  | start (p : PricedMatching α n m) (i : Fin n)
  /-- A column is scanned through the row that holds it. -/
  | scan (p : PricedMatching α n m) (s : ColumnSearch α n m) (i : Fin n) (j : Fin m)
  /-- The settled columns give way. -/
  | concede (p : PricedMatching α n m) (s : ColumnSearch α n m)
  /-- The potentials of the rows are read off the prices. -/
  | finish (p : PricedMatching α n m)

namespace Stage

variable {α : Type} [Cost α] {n m : ℕ}

def results (cost : CostMatrix α n m) : Stage α n m → List α
  | bid s i =>
    (Bid.reduced cost[i] s.price).toList ++
      match Bid.ofRow cost[i] s.price s.isFree with
      | .error _ => []
      | .ok b => [b.second - b.least, s.lowered b]
  | start p i => (Bid.reduced cost[i] p.price).toList
  | scan p s i j =>
    let base := cost[i][j] - p.price[j] - s.minimum
    [cost[i][j] - p.price[j], base] ++ (ColumnOrder.positionsFrom s.up).flatMap fun k : Fin m =>
      [cost[i][s.order[k]] - p.price[s.order[k]], Labels.way cost[i] p.price base s.order[k]]
  | concede p s => s.concessions (s.order.slice 0 s.settled) p.price
  | finish p =>
    (List.finRange n).filterMap fun i => p.columnOf[i].map fun j => cost[i][j] - p.price[j]

variable {cost : CostMatrix α n m} {P : α → Prop} {p : PricedMatching α n m}
  {s : ColumnSearch α n m} {i : Fin n} {j : Fin m}

theorem forall_results_bid : (∀ x ∈ (bid p i).results cost, P x) ↔
    (∀ j : Fin m, P (Bid.reduced cost[i] p.price)[j]) ∧
      ∀ b, Bid.ofRow cost[i] p.price p.isFree = .ok b →
        P (b.second - b.least) ∧ P (p.lowered b) := by
  simp only [results, List.forall_mem_append, forall_mem_toList]
  apply and_congr_right
  intro _
  cases Bid.ofRow cost[i] p.price p.isFree <;> simp

theorem forall_results_start : (∀ x ∈ (start p i).results cost, P x) ↔
    ∀ j : Fin m, P (Bid.reduced cost[i] p.price)[j] := by
  rw [results, forall_mem_toList]

theorem forall_results_scan : (∀ x ∈ (scan p s i j).results cost, P x) ↔
    P (cost[i][j] - p.price[j]) ∧ P (cost[i][j] - p.price[j] - s.minimum) ∧
      ∀ k : Fin m, s.up ≤ k.val → P (cost[i][s.order[k]] - p.price[s.order[k]]) ∧
        P (Labels.way cost[i] p.price (cost[i][j] - p.price[j] - s.minimum) s.order[k]) := by
  simp [results, -List.mem_flatMap, List.forall_mem_flatMap, ColumnOrder.mem_positionsFrom]

theorem forall_results_concede (hsettled : (s.order.slice 0 s.settled).Nodup) :
    (∀ x ∈ (concede p s).results cost, P x) ↔
      ∀ j ∈ s.order.slice 0 s.settled, P (p.price[j] + s.distance[j]) ∧
        P (p.price[j] + s.distance[j] - s.minimum) :=
  ColumnSearch.forall_concessions hsettled p.price

theorem forall_results_finish : (∀ x ∈ (finish p).results cost, P x) ↔
    ∀ (i : Fin n) (j : Fin m), p.columnOf[i] = some j → P (cost[i][j] - p.price[j]) := by
  simp [results, -List.mem_filterMap, List.forall_mem_filterMap]

end Stage

end Dense

variable {α : Type} [Cost α] {n m : ℕ}

namespace ColumnSearch

def scanStage? (p : PricedMatching α n m) (s : ColumnSearch α n m) : Option (Dense.Stage α n m) :=
  match s.advance with
  | .error _ => none
  | .ok t =>
    if h : s.low < m ∧ t.freeColumn? p.isFree = none then
      let j := t.order[(⟨s.low, h.1⟩ : Fin m)]
      p.rowOf[j].map fun i => .scan p t i j
    else none

def stages (cost : CostMatrix α n m) (p : PricedMatching α n m) (s : ColumnSearch α n m) :
    List (Dense.Stage α n m) :=
  match _h : s.round cost p with
  | .error _ => (s.scanStage? p).toList
  | .ok (.found t _) => (s.scanStage? p).toList ++ [.concede p t]
  | .ok (.passed t) => (s.scanStage? p).toList ++ stages cost p t
  termination_by m - s.low
  decreasing_by
    have := low_of_round _h
    omega

variable {cost : CostMatrix α n m} {p : PricedMatching α n m} {s t : ColumnSearch α n m}
  {st : Dense.Stage α n m}

theorem scanStage?_eq_some (h : s.scanStage? p = some st) :
    ∃ (t : ColumnSearch α n m) (a : Fin m) (i : Fin n), s.advance = .ok t ∧ a.val = s.low ∧
      t.freeColumn? p.isFree = none ∧ p.rowOf[t.order[a]] = some i ∧
      st = .scan p t i t.order[a] := by
  unfold scanStage? at h
  split at h
  · simp at h
  next t ht =>
    split at h
    next hlow =>
      obtain ⟨i, hi, rfl⟩ := Option.map_eq_some_iff.mp h
      exact ⟨t, _, i, ht, rfl, hlow.2, hi, rfl⟩
    · simp at h

theorem stages_of_error {e : SearchError} (h : s.round cost p = .error e) :
    s.stages cost p = (s.scanStage? p).toList := by
  rw [stages, h]

theorem stages_of_found {sink : Fin m} (h : s.round cost p = .ok (.found t sink)) :
    s.stages cost p = (s.scanStage? p).toList ++ [.concede p t] := by
  rw [stages, h]

theorem stages_of_passed (h : s.round cost p = .ok (.passed t)) :
    s.stages cost p = (s.scanStage? p).toList ++ t.stages cost p := by
  rw [stages, h]

/-- A search that ends comes to the stage at which the columns that it has settled give way. -/
theorem concede_mem_stages {sink : Fin m} (h : s.run cost p = .ok (t, sink)) :
    .concede p t ∈ s.stages cost p := by
  induction hleft : m - s.low using Nat.strong_induction_on generalizing s with
  | _ left ih =>
    rw [run] at h
    split at h
    · simp at h
    next hround =>
      obtain ⟨rfl, -⟩ := Prod.mk.inj (Except.ok.inj h)
      simp [stages_of_found hround]
    next hround =>
      have hlow := low_of_round hround
      rw [stages_of_passed hround]
      exact List.mem_append_right _ (ih _ (by omega) h rfl)

end ColumnSearch

namespace PricedMatching

def reductionStages (cost : CostMatrix α n m) (s : PricedMatching α n m) (free : List (Fin n)) :
    List (Dense.Stage α n m) :=
  (bidders cost (Cost.levels α * m + free.length) s free).map fun x => .bid x.1 x.2

def augmentStages (cost : CostMatrix α n m) (p : PricedMatching α n m) (i : Fin n) :
    List (Dense.Stage α n m) :=
  .start p i :: (ColumnSearch.start cost[i] p.price i).stages cost p

end PricedMatching

namespace PricedMatching

variable {cost : CostMatrix α n m} {p t : PricedMatching α n m} {i : Fin n}

/-- The price of a column after an augmentation is the old one or has been calculated in it. -/
theorem price_of_augmentRow (hp : p.Consistent) (hi : ¬ p.IsMatched i) (hnm : n ≤ m)
    (h : p.augmentRow cost i = .ok t) (j : Fin m) :
    t.price[j] = p.price[j] ∨ ∃ st ∈ p.augmentStages cost i, t.price[j] ∈ st.results cost := by
  obtain ⟨j₀, hj₀⟩ := hp.exists_free hi hnm
  obtain ⟨_, _, s, sink, _, hcourse, -, hscan, -⟩ :=
    ColumnSearch.exists_course (s := .start cost[i] p.price i) cost hj₀
      (ColumnSearch.isScan_start cost[i] p.price)
  have hrun := hcourse.run_eq
  obtain rfl := Except.ok.inj ((augmentRow_of_run hrun).symm.trans h)
  simp only [ColumnSearch.newPrices, ColumnSearch.getElem_foldl_concede hscan.nodup_settled]
  split
  next hj =>
    refine .inr ⟨_, List.mem_cons_of_mem _ (ColumnSearch.concede_mem_stages hrun), ?_⟩
    exact ((Dense.Stage.forall_results_concede hscan.nodup_settled).mp (fun _ hx => hx) j hj).2
  next => exact .inl rfl

end PricedMatching

namespace Dense

def augmentAllStages (cost : CostMatrix α n m) :
    List (Fin n) → PricedMatching α n m → List (Stage α n m)
  | [], p => [.finish p]
  | i :: rest, p =>
    p.augmentStages cost i ++
      match p.augmentRow cost i with
      | .error _ => []
      | .ok t => augmentAllStages cost rest t

def secondPhaseStages (cost : CostMatrix α n m) (s : PricedMatching α n m) (free : List (Fin n)) :
    List (Stage α n m) :=
  s.reductionStages cost free ++
    match s.reduceRows cost free with
    | .error _ => []
    | .ok (p, free) => augmentAllStages cost free p

def stages (cost : CostMatrix α n m) : List (Stage α n m) :=
  PricedMatching.initial.reductionStages cost (List.finRange n) ++
    match PricedMatching.initial.reduceRows cost (List.finRange n) with
    | .error _ => []
    | .ok (p, free) => secondPhaseStages cost p free

end Dense

end LinearAssignment
