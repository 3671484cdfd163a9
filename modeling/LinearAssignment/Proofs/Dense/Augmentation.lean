import LinearAssignment.Proofs.Dense.Distance

/-! The prices that a search leaves are those that its labels ask for, so the prices support the
matching in which the free row is matched as well. -/
namespace LinearAssignment

namespace ColumnSearch

section concede

variable {α : Type} [Cost α] {n m : ℕ} {s : ColumnSearch α n m}

theorem getElem_foldl_concede {js : List (Fin m)} (hjs : js.Nodup) (price : Vector α m)
    (j : Fin m) : (js.foldl s.concede price)[j] =
      if j ∈ js then price[j] + s.distance[j] - s.minimum else price[j] := by
  induction js generalizing price with
  | nil => simp
  | cons k js ih =>
    obtain ⟨hk, hjs⟩ := List.nodup_cons.mp hjs
    rw [List.foldl_cons, ih hjs, concede, getElem_set_fin]
    by_cases hj : j ∈ js
    · have hjk : j ≠ k := fun he => hk (he ▸ hj)
      simp only [hj, hjk, List.mem_cons, or_true, if_true, if_false]
    · by_cases hjk : j = k
      · simp only [hjk, hk, List.mem_cons, true_or, if_true, if_false]
      · simp only [hj, hjk, List.mem_cons, or_self, if_false]

omit [Cost α] in
theorem IsScan.nodup_settled {held : Matching n m} {root : Fin n} {filled : ℕ}
    (h : IsScan held root filled s) : (s.order.slice 0 s.settled).Nodup := by
  have hnodup := List.nodup_reverse.mp h.isTrail.nodup
  refine hnodup.sublist ?_
  simp only [ColumnOrder.slice, List.drop_zero]
  exact (List.take_prefix_take_left h.settled_le).sublist

end concede

variable {bound : ℚ} {bids n m : ℕ} {cost : CostMatrix (Exact bound bids) n m}
  {p : PricedMatching (Exact bound bids) n m} {c : Fin n → Fin m → WithTop ℚ} {u : Fin n → ℚ}
  {v : Fin m → ℚ} {root : Fin n} {d : Fin m → ℚ} {μ : ℚ}
  {t : ColumnSearch (Exact bound bids) n m} {sink : Fin m}

/-- Columns of the trail that are not settled are at the minimum, so they would give way by
nothing. -/
theorem IsArrived.newPrices (h : IsArrived p.toMatching c u v root d μ t sink)
    (hprice : ∀ j : Fin m, p.price[j] = .ofTop (v j)) (j : Fin m) :
    (t.newPrices p.price)[j] =
      .ofTop (Matching.loweredColumn v (t.order.trail t.low) d μ j : WithTop ℚ) := by
  obtain ⟨filled, hscan⟩ := h.scan
  rw [ColumnSearch.newPrices, getElem_foldl_concede hscan.nodup_settled, Matching.loweredColumn]
  simp only [ColumnOrder.mem_slice]
  by_cases hj : j ∈ t.order.trail t.low
  · obtain ⟨a, ha, rfl⟩ := ColumnOrder.mem_trail.mp hj
    rw [if_pos hj]
    split
    next hsettled =>
      rw [hprice, h.distance _ hj, h.minimum, Exact.ofTop_coe_add, Exact.ofTop_coe_sub]
      congr 2
      ring
    next hsettled =>
      have hlevel : d t.order[a] = μ := by
        refine h.level a (not_lt.mp fun hlt => hsettled ?_) ha
        exact ⟨a, Nat.zero_le _, hlt, rfl⟩
      rw [hprice, hlevel, sub_self, sub_zero]
  · rw [if_neg hj, if_neg, hprice]
    rintro ⟨a, -, ha, rfl⟩
    exact hj (ColumnOrder.mem_trail.mpr ⟨a, ha.trans_le hscan.settled_le, rfl⟩)

end ColumnSearch

namespace PricedMatching

variable {bound : ℚ} {bids n m : ℕ} {cost : CostMatrix (Exact bound bids) n m}
  {p : PricedMatching (Exact bound bids) n m} {c : Fin n → Fin m → WithTop ℚ} {u : Fin n → ℚ}
  {v : Fin m → ℚ} {i : Fin n} {f : Fin n → Fin m}

/-- The potential of a row without column is of no account. -/
theorem IsSound.update (h : p.IsSound cost c u v) (hi : ¬ p.IsMatched i) (x : ℚ) :
    p.IsSound cost c (Function.update u i x) v where
  cost := h.cost
  price := h.price
  consistent := h.consistent
  supported := by
    have hne : ∀ {r}, p.IsMatched r → Function.update u i x r = u r := fun {r} hr =>
      Function.update_of_ne (fun he : r = i => hi (he ▸ hr)) _ _
    refine ⟨fun hr j => ?_, fun {r j} hj => ?_⟩
    · rw [hne hr]
      exact h.supported.below hr j
    · rw [hne ⟨j, hj⟩]
      exact h.supported.tight hj
  freeAtZero := h.freeAtZero

/-- Augmentation matches a row without column, and with it all rows that were matched before; the
prices stay sound and none of them rises. -/
theorem augmentRow_outcome (hf : Function.Injective f) (hfinite : ∀ r, c r (f r) ≠ ⊤)
    (h : p.IsSound cost c u v) (hi : ¬ p.IsMatched i) :
    ∃ t u' v', p.augmentRow cost i = .ok t ∧ t.IsSound cost c u' v' ∧
      (∀ r, t.IsMatched r ↔ r = i ∨ p.IsMatched r) ∧ ∀ k, v' k ≤ v k := by
  have hnm : n ≤ m := by
    simpa only [Fintype.card_fin] using Fintype.card_le_of_injective f hf
  obtain ⟨j₀, hj₀⟩ := h.consistent.exists_free hi hnm
  have h₀ := h.update hi 0
  obtain ⟨s, sink, d, μ, hrun, harrived⟩ := ColumnSearch.run_arrives hf hfinite h₀ hi hj₀
    (ColumnSearch.isScan_start cost[i] p.price)
    (ColumnSearch.isMeasured_start h₀ (Function.update_self i 0 u))
  obtain ⟨filled, hscan⟩ := harrived.scan
  have hflip := Matching.flipped_augment h.consistent hi hscan.isTrail harrived.free
    ⟨_, rfl, hscan.reached sink⟩
  exact ⟨_, _, _, augmentRow_of_run hrun,
    ⟨h.cost, harrived.newPrices h.price, hflip.consistent,
      h₀.supported.flipped h.consistent hi hscan.isTrail harrived.free harrived.labelling hflip,
      h.freeAtZero.flipped hscan.isTrail harrived.labelling hflip⟩,
    Matching.isMatched_of_flipped hflip harrived.free, harrived.labelling.loweredColumn_le⟩

end PricedMatching

end LinearAssignment
