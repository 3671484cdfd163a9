import LinearAssignment.Proofs.Dense.Stages
import LinearAssignment.Proofs.Reading

/-! Row reduction in an arithmetic that can be read as exact: if the exact results of all bids can
be represented, the rows bid for the same columns at the same prices in the same order. -/
namespace LinearAssignment

section map

variable {α β γ : Type} {n m : ℕ}

def Bid.map (g : α → β) (b : Bid α m) : Bid β m := ⟨g b.least, g b.second, b.best, b.runnerUp⟩

def PricedMatching.map (g : α → β) (s : PricedMatching α n m) : PricedMatching β n m :=
  ⟨s.toMatching, s.price.map g⟩

end map

variable {α : Type} [Cost α] {bound : ℚ} {bids n m : ℕ} {read : α → Exact bound bids}
  {P : ℚ → Prop}

namespace Bid

variable {row price : Vector α m} {best k : Fin m}

theorem reduced_map (h : Cost.IsReading read P)
    (hresults : ∀ j : Fin m, ((reduced (row.map read) (price.map read))[j]).Meets P) :
    reduced (row.map read) (price.map read) = (reduced row price).map read := by
  apply ext_fin
  intro j
  have hj := hresults j
  simp only [reduced, getElem_zipWith_fin, getElem_map_fin] at hj ⊢
  rw [h.sub hj]

theorem others_map (h : Cost.IsReading read P)
    (hreduced : reduced (row.map read) (price.map read) = (reduced row price).map read)
    (best : Fin m) :
    others (row.map read) (price.map read) best = (others row price best).map read := by
  rw [others, others, hreduced, map_setIfInBounds, h.infinity]

theorem ties_map (h : Cost.IsReading read P)
    (hreduced : reduced (row.map read) (price.map read) = (reduced row price).map read)
    (best k : Fin m) :
    ties (row.map read) (price.map read) best k = ties row price best k := by
  simp only [ties, others_map h hreduced, getElem_map_fin, h.beq_eq]

theorem meets_of_beq {x y : Exact bound bids} (hxy : (x == y) = true) (hx : x.Meets P) :
    y.Meets P := by
  obtain ⟨a, rfl, ha⟩ := hx
  cases y with
  | nan => exact absurd hxy (by simp [BEq.beq, Exact.same])
  | infinite s => exact absurd hxy (by simp [BEq.beq, Exact.same])
  | number b =>
    have hab : a = b := of_decide_eq_true hxy
    exact ⟨b, rfl, hab ▸ ha⟩

omit [Cost α] in
/-- Only a column other than the best one can be in the second place, so what it costs is the result
of a subtraction. -/
theorem others_meets
    (hresults : ∀ j : Fin m, ((reduced (row.map read) (price.map read))[j]).Meets P) {j : Fin m}
    (hj : j ∈ ties (row.map read) (price.map read) best k) :
    ((others (row.map read) (price.map read) best)[k]).Meets P := by
  obtain ⟨hne, hjk⟩ := mem_ties.mp hj
  apply meets_of_beq hjk
  rw [getElem_others, if_neg hne]
  exact hresults j

theorem ofRow_map (h : Cost.IsReading read P) (isFree : Fin m → Bool)
    (hresults : ∀ j : Fin m, ((reduced (row.map read) (price.map read))[j]).Meets P) :
    ofRow (row.map read) (price.map read) isFree = (ofRow row price isFree).map (map read) := by
  have hreduced := reduced_map h hresults
  have hothers := others_map h hreduced
  have hsecond := fun best : Fin m => h.firstMinimum?_of_map (hothers best) (List.finRange m)
  rw [ofRow_eq, ofRow_eq, h.firstMinimum?_of_map hreduced]
  cases Cost.firstMinimum? (fun j : Fin m => (reduced row price)[j]) (List.finRange m) with
  | none => rfl
  | some best =>
    simp only [hsecond, ties_map h hreduced]
    split
    next => simp only [hreduced, getElem_map_fin, Except.map, map]
    next =>
      cases Cost.firstMinimum? (fun j : Fin m => (others row price best)[j])
        (List.finRange m) with
      | none => rfl
      | some k =>
        simp only
        cases hties : ((ties row price best k).find? isFree).or (ties row price best k).head? with
        | none => rfl
        | some j =>
          have hj : j ∈ ties row price best k := by
            rcases Option.or_eq_some_iff.mp hties with hj | ⟨_, hj⟩
            · exact List.mem_of_find?_eq_some hj
            · exact List.mem_of_head? hj
          rw [← ties_map h hreduced] at hj
          have hmeets := others_meets hresults hj
          rw [hothers, getElem_map_fin] at hmeets
          obtain ⟨hlt, hlt'⟩ := h.not_largest_lt hmeets
          simp only [hreduced, hothers, getElem_map_fin, if_neg hlt, if_neg hlt', Except.map, map]

end Bid

namespace PricedMatching

variable {cost : CostMatrix α n m} {s : PricedMatching α n m} {i : Fin n}

theorem lowered_map (h : Cost.IsReading read P) {b : Bid α m}
    (hoffer : ((b.map read).second - (b.map read).least).Meets P)
    (hlowered : ((s.map read).lowered (b.map read)).Meets P) :
    (s.map read).lowered (b.map read) = read (s.lowered b) := by
  simp only [lowered, Bid.map, map, getElem_map_fin] at hoffer hlowered ⊢
  rw [← h.sub hoffer] at hlowered ⊢
  rw [h.sub hlowered]

/-- The row bids for the same column and displaces the same row. -/
theorem bid_map (h : Cost.IsReading read P)
    (hresults : ∀ x ∈ (Dense.Stage.bid (s.map read) i).results (cost.mapEntries read), x.Meets P) :
    (s.map read).bid (cost.mapEntries read) i =
      (s.bid cost i).map fun r => (r.1.map read, r.2) := by
  obtain ⟨hreduced, hbid⟩ := Dense.Stage.forall_results_bid.mp hresults
  rw [getElem_mapEntries_row] at hreduced
  have hofRow : Bid.ofRow (cost.mapEntries read)[i] (s.map read).price (s.map read).isFree =
      (Bid.ofRow cost[i] s.price s.isFree).map (Bid.map read) := by
    rw [getElem_mapEntries_row]
    exact Bid.ofRow_map h s.isFree hreduced
  unfold bid
  rw [hofRow]
  cases hb : Bid.ofRow cost[i] s.price s.isFree with
  | error e => rfl
  | ok b =>
    rw [hb] at hofRow
    obtain ⟨hoffer, hlowered⟩ := hbid _ hofRow
    have hlow := lowered_map h hoffer hlowered
    have hlt : (s.map read).lowered (b.map read) < (s.map read).price[b.best] ↔
        s.lowered b < s.price[b.best] := by
      rw [hlow, map, getElem_map_fin, h.lt_iff]
    simp only [lowered, Bid.map, map, Except.map, bind, Except.bind, getElem_map_fin] at hlow hlt ⊢
    split
    next hless =>
      rw [if_pos (hlt.mp hless), hlow, ← map_setIfInBounds]
      rfl
    next hless =>
      rw [if_neg fun hless' => hless (hlt.mpr hless')]
      cases s.rowOf[b.best] <;> rfl

theorem bidAll_map (h : Cost.IsReading read P) (steps : ℕ) (s : PricedMatching α n m)
    (queue : List (Fin n))
    (hresults : ∀ x ∈ bidders (cost.mapEntries read) steps (s.map read) queue,
      ∀ z ∈ (Dense.Stage.bid x.1 x.2).results (cost.mapEntries read), z.Meets P) :
    bidders (cost.mapEntries read) steps (s.map read) queue =
        (bidders cost steps s queue).map (fun x => (x.1.map read, x.2)) ∧
      ∀ waiting, bidAll (cost.mapEntries read) steps (s.map read) queue waiting =
        (bidAll cost steps s queue waiting).map fun r => (r.1.map read, r.2) := by
  -- Induction on the number of bids that are allowed for: as long as the results of the bids can be
  -- represented, the same rows bid in the same order.
  induction steps generalizing s queue with
  | zero => cases queue <;> exact ⟨rfl, fun _ => by simp [bidAll, Except.map]⟩
  | succ steps ih =>
    cases queue with
    | nil => exact ⟨rfl, fun _ => rfl⟩
    | cons i queue =>
      have hbid := bid_map h (hresults (s.map read, i) (by simp [bidders]))
      simp only [bidders, hbid, bidAll, bind, Except.bind] at hresults ⊢
      cases hb : s.bid cost i with
      | error e => exact ⟨rfl, fun _ => rfl⟩
      | ok r =>
        obtain ⟨t, displaced⟩ := r
        rw [hb] at hresults
        simp only [Except.map, List.map_cons]
        cases displaced with
        | nobody =>
          obtain ⟨hbidders, hall⟩ := ih t queue fun x hx => hresults x (List.mem_cons_of_mem _ hx)
          exact ⟨congrArg _ hbidders, hall⟩
        | outbid r =>
          obtain ⟨hbidders, hall⟩ := ih t (r :: queue) fun x hx =>
            hresults x (List.mem_cons_of_mem _ hx)
          exact ⟨congrArg _ hbidders, hall⟩
        | deferred r =>
          obtain ⟨hbidders, hall⟩ := ih t queue fun x hx => hresults x (List.mem_cons_of_mem _ hx)
          exact ⟨congrArg _ hbidders, fun waiting => hall (r :: waiting)⟩

end PricedMatching

end LinearAssignment
