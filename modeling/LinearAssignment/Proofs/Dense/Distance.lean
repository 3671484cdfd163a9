import LinearAssignment.Proofs.Dense.RowReduction
import LinearAssignment.Proofs.Dense.Scan

/-! The distances that a search over columns finds in exact arithmetic. The rows on the trail are
matched, so their reduced costs are not negative and the frontier only moves away from the root;
the ways from the root itself may have any length. -/
namespace LinearAssignment.ColumnSearch

variable {bound : ℚ} {bids n m : ℕ} {cost : CostMatrix (Exact bound bids) n m}
  {p : PricedMatching (Exact bound bids) n m} {c : Fin n → Fin m → WithTop ℚ} {u : Fin n → ℚ}
  {v : Fin m → ℚ} {held : Matching n m} {root i : Fin n} {filled : ℕ} {d : Fin m → WithTop ℚ}
  {s t : ColumnSearch (Exact bound bids) n m} {μ : ℚ} {a : Fin m}

/-- The distances of a search: each is the length of some way through a row on the trail, none of
these rows offers a shorter one, and the frontier is at the minimum `μ`. -/
structure IsMeasured (held : Matching n m) (c : Fin n → Fin m → WithTop ℚ) (u : Fin n → ℚ)
    (v : Fin m → ℚ) (root : Fin n) (d : Fin m → WithTop ℚ) (μ : ℚ)
    (s : ColumnSearch (Exact bound bids) n m) : Prop where
  distance : ∀ j : Fin m, s.distance[j] = .ofTop (d j)
  minimum : s.minimum = .ofTop (μ : WithTop ℚ)
  upper : ∀ {r x}, held.RowAt root (s.order.trail s.low) d r x →
    ∀ j, d j ≤ c r j + ((x - u r - v j : ℚ) : WithTop ℚ)
  attained : ∀ j : Fin m, d j ≠ ⊤ → ∃ x, held.RowAt root (s.order.trail s.low) d s.reachedBy[j] x ∧
    d j = c s.reachedBy[j] j + ((x - u s.reachedBy[j] - v j : ℚ) : WithTop ℚ)
  le_minimum : ∀ a : Fin m, a.val < s.up → d s.order[a] ≤ μ
  level : ∀ a : Fin m, s.settled ≤ a.val → a.val < s.up → d s.order[a] = μ
  beyond : ∀ a b : Fin m, a.val < s.up → s.up ≤ b.val → d s.order[a] ≤ d s.order[b]

theorem isMeasured_start (h : p.IsSound cost c u v) (hu : u root = 0) :
    IsMeasured held c u v root (fun j => c root j + ((0 - u root - v j : ℚ) : WithTop ℚ)) 0
      (start cost[root] p.price root) where
  distance j := by
    rw [hu, sub_zero, zero_sub]
    exact h.reduced_eq root j
  minimum := Exact.zero_eq
  upper {r x} hrow j := by
    change held.RowAt root (ColumnOrder.initial.trail 0) _ r x at hrow
    rw [ColumnOrder.trail_zero] at hrow
    rcases hrow with ⟨rfl, rfl⟩ | ⟨k, hk, _⟩
    · exact le_rfl
    · simp at hk
  attained j _ := by
    have hroot : (start cost[root] p.price root : ColumnSearch _ n m).reachedBy[j] = root := by
      simp [start]
    rw [hroot]
    exact ⟨0, .inl ⟨rfl, rfl⟩, rfl⟩
  le_minimum a ha := absurd ha (Nat.not_lt_zero _)
  level a _ ha := absurd ha (Nat.not_lt_zero _)
  beyond a b ha := absurd ha (Nat.not_lt_zero _)

namespace IsMeasured

theorem finite (h : IsMeasured held c u v root d μ s) (hscan : IsScan held root filled s) :
    ∀ k ∈ s.order.trail s.low, d k ≠ ⊤ := by
  intro k hk
  obtain ⟨a, ha, rfl⟩ := ColumnOrder.mem_trail.mp hk
  exact ne_top_of_le_ne_top WithTop.coe_ne_top (h.le_minimum a (ha.trans_le hscan.low_le))

/-- If the rows have an assignment, some column off the trail is at a finite distance. -/
theorem exists_finite (h : IsMeasured held c u v root d μ s) (hscan : IsScan held root filled s)
    (hs : held.Consistent) (hroot : ¬ held.IsMatched root) {f : Fin n → Fin m}
    (hf : Function.Injective f) (hfinite : ∀ r, c r (f r) ≠ ⊤) :
    ∃ j, j ∉ s.order.trail s.low ∧ d j ≠ ⊤ := by
  obtain ⟨r, hr, hout⟩ := hscan.isTrail.exists_escape hs hroot hf.injOn
  obtain ⟨x, hx⟩ := hr.exists_rowAt (h.finite hscan)
  refine ⟨f r, hout, ne_top_of_le_ne_top ?_ (h.upper hx (f r))⟩
  exact WithTop.add_ne_top.mpr ⟨hfinite r, WithTop.coe_ne_top⟩

/-- The frontier that is collected when the last one has been scanned is at the minimum of the
distances that are left, which is not below the last one. -/
theorem advance (h : IsMeasured held c u v root d μ s) (hscan : IsScan held root s.up s)
    (hs : held.Consistent) (hroot : ¬ held.IsMatched root) {f : Fin n → Fin m}
    (hf : Function.Injective f) (hfinite : ∀ r, c r (f r) ≠ ⊤) (ht : s.advance = .ok t) :
    ∃ μ', IsMeasured held c u v root d μ' t := by
  rcases advance_cases ht with ⟨-, rfl⟩ | ⟨hup, g, hg, rfl⟩
  · exact ⟨μ, h⟩
  · have hkey : Cost.IsKeyed (fun j : Fin m => s.distance[j]) d := Cost.isKeyed_ofTop h.distance
    have hfront := Frontier.isFrontier_collect hscan.distinct hg
    obtain ⟨j, hnear⟩ := Frontier.exists_isNearest hkey hscan.distinct hg
    have htrail : g.order.trail s.low = s.order.trail s.low :=
      ColumnOrder.trail_congr hfront.before
    have hbefore : ∀ a : Fin m, a.val < s.low → ∀ b : Fin m, s.low ≤ b.val →
        d g.order[a] ≤ d g.order[b] := by
      intro a ha b hb
      obtain ⟨b', hb'low, hb'⟩ :=
        hscan.distinct.exists_position_of_agree hfront.distinct hfront.before hb
      rw [← hb', hfront.before a ha]
      exact h.beyond a b' (by omega) (by omega)
    obtain ⟨l, hl⟩ : ∃ l : Fin m, l.val = s.low :=
      ⟨⟨s.low, Frontier.low_lt_of_collect hg⟩, rfl⟩
    have hlevel : d g.order[l] = d j := hnear.level l hl.ge (hl.trans_lt hfront.low_lt)
    -- The rows of the trail have more finite entries than its columns can take.
    have hj : d j ≠ ⊤ := by
      obtain ⟨k, hk, hkfin⟩ := h.exists_finite hscan hs hroot hf hfinite
      rw [← htrail] at hk
      obtain ⟨b, hb, rfl⟩ := hfront.distinct.exists_position_of_not_mem_trail hk
      exact ne_top_of_le_ne_top hkfin (hnear.le_of_low_le hb)
    obtain ⟨μ', hμ⟩ := WithTop.ne_top_iff_exists.mp hj
    refine ⟨μ', h.distance, ?minimum, htrail ▸ h.upper, htrail ▸ h.attained, ?le_minimum, ?level,
      ?beyond⟩
    case minimum =>
      rw [hμ, ← h.distance]
      exact hnear.distance_eq
    case le_minimum =>
      intro a ha
      rw [hμ]
      by_cases hal : a.val < s.low
      · exact (hbefore a hal l hl.ge).trans_eq hlevel
      · exact (hnear.level a (by omega) ha).le
    case level =>
      intro a ha ha'
      exact (hnear.level a ha ha').trans hμ.symm
    case beyond =>
      intro a b ha hb
      have hlow := hfront.low_lt
      change g.up ≤ b.val at hb
      by_cases hal : a.val < s.low
      · exact hbefore a hal b (by omega)
      · exact (hnear.level a (by omega) ha).trans_le (hnear.le_of_low_le (by omega))

theorem minimum_le (h : IsMeasured held c u v root d μ t) (hscan : IsScan held root filled t)
    (hup : t.low < t.up) {k : Fin m} (hk : k ∉ t.order.trail t.low) : (μ : WithTop ℚ) ≤ d k := by
  obtain ⟨b, hb, rfl⟩ := hscan.distinct.exists_position_of_not_mem_trail hk
  by_cases hbu : b.val < t.up
  · exact (h.level b (hscan.settled_le.trans hb) hbu).ge
  · obtain ⟨l, hl⟩ : ∃ l : Fin m, l.val = t.low := ⟨⟨t.low, hup.trans_le hscan.up_le⟩, rfl⟩
    rw [← h.level l (hscan.settled_le.trans hl.ge) (hl.trans_lt hup)]
    exact h.beyond l b (by omega) (by omega)

section scan

variable {j : Fin m}

/-- The ways through the row that holds the scanned column start at the minimum. -/
theorem way_scan (h : IsMeasured p.toMatching c u v root d μ t) (hp : p.IsSound cost c u v)
    (hi : p.rowOf[j] = some i) (k : Fin m) :
    Labels.way cost[i] p.price (cost[i][j] - p.price[j] - t.minimum) k =
      .ofTop (c i k + ((μ - u i - v k : ℚ) : WithTop ℚ)) := by
  have hway : Labels.way cost[i] p.price (cost[i][j] - p.price[j] - t.minimum) k =
      cost[i][k] - p.price[k] - (cost[i][j] - p.price[j] - t.minimum) := rfl
  rw [hway, hp.cost, hp.cost, hp.price, hp.price, h.minimum, hp.supported.tight hi,
    Exact.ofTop_coe_sub, Exact.ofTop_coe_sub, Exact.ofTop_sub, Exact.ofTop_sub, add_assoc,
    ← WithTop.coe_add]
  congr 3
  ring

theorem minimum_le_way (hp : p.IsSound cost c u v) (hi : p.rowOf[j] = some i) (k : Fin m) :
    (μ : WithTop ℚ) ≤ c i k + ((μ - u i - v k : ℚ) : WithTop ℚ) :=
  coe_le_way (hp.supported.below ⟨j, hi⟩ k)

theorem scan_cases (h : IsMeasured p.toMatching c u v root d μ t) (hp : p.IsSound cost c u v)
    (hscan : IsScan p.toMatching root t.up t) (hi : p.rowOf[j] = some i)
    (hnone : (t.scan cost p i j).2 = none) (k : Fin m) :
    (d k ≤ c i k + ((μ - u i - v k : ℚ) : WithTop ℚ) ∧
        (t.scan cost p i j).1.distance[k] = .ofTop (d k) ∧
        (t.scan cost p i j).1.reachedBy[k] = t.reachedBy[k]) ∨
      (c i k + ((μ - u i - v k : ℚ) : WithTop ℚ) < d k ∧
        (t.scan cost p i j).1.distance[k] =
          .ofTop (c i k + ((μ - u i - v k : ℚ) : WithTop ℚ)) ∧
        (t.scan cost p i j).1.reachedBy[k] = i) := by
  have hr := isRelaxed_scan cost hscan i j
  obtain ⟨b, rfl⟩ := hscan.distinct.exists_position k
  by_cases hb : b.val < t.up
  · refine .inl ⟨?_, (hr.distance b hb).trans (h.distance _), hr.reachedBy b hb⟩
    exact (h.le_minimum b hb).trans (minimum_le_way hp hi _)
  · have hpassed := hr.passed hnone b (by omega)
    rw [h.way_scan hp hi] at hpassed
    split at hpassed
    next hlt =>
      rw [h.distance, Exact.ofTop_lt] at hlt
      exact .inr ⟨hlt, hpassed⟩
    next hlt =>
      rw [h.distance, Exact.ofTop_lt, not_lt] at hlt
      exact .inl ⟨hlt, hpassed.1.trans (h.distance _), hpassed.2⟩

/-- Columns up to the end of the frontier are not nearer by way of the scanned one. -/
theorem shortened_eq (h : IsMeasured p.toMatching c u v root d μ t) (hp : p.IsSound cost c u v)
    (hi : p.rowOf[j] = some i) {b : Fin m} (hb : b.val < t.up) :
    Matching.shortened c u v i μ d t.order[b] = d t.order[b] :=
  min_eq_left ((h.le_minimum b hb).trans (minimum_le_way hp hi _))

theorem distance_scan (h : IsMeasured p.toMatching c u v root d μ t) (hp : p.IsSound cost c u v)
    (hscan : IsScan p.toMatching root t.up t) (hi : p.rowOf[j] = some i)
    (hnone : (t.scan cost p i j).2 = none) (k : Fin m) :
    (t.scan cost p i j).1.distance[k] = .ofTop (Matching.shortened c u v i μ d k) := by
  unfold Matching.shortened
  rcases h.scan_cases hp hscan hi hnone k with ⟨hle, hk, -⟩ | ⟨hlt, hk, -⟩
  · rw [min_eq_left hle, hk]
  · rw [min_eq_right hlt.le, hk]

theorem shortened_joined (h : IsMeasured p.toMatching c u v root d μ t) (hp : p.IsSound cost c u v)
    (hscan : IsScan p.toMatching root t.up t) (hi : p.rowOf[j] = some i)
    (hnone : (t.scan cost p i j).2 = none) {b : Fin m} (hb : t.up ≤ b.val)
    (hb' : b.val < (t.scan cost p i j).1.up) :
    Matching.shortened c u v i μ d (t.scan cost p i j).1.order[b] = μ := by
  have heq := ((isRelaxed_scan cost hscan i j).joined b hb hb').2
  rw [h.distance_scan hp hscan hi hnone, h.minimum, Exact.ofTop_beq, decide_eq_true_iff] at heq
  exact heq

theorem shortened_le_minimum (h : IsMeasured p.toMatching c u v root d μ t)
    (hp : p.IsSound cost c u v) (hscan : IsScan p.toMatching root t.up t)
    (hi : p.rowOf[j] = some i) (hnone : (t.scan cost p i j).2 = none) {b : Fin m}
    (hb : b.val < (t.scan cost p i j).1.up) :
    Matching.shortened c u v i μ d (t.scan cost p i j).1.order[b] ≤ μ := by
  by_cases hbu : b.val < t.up
  · rw [(isRelaxed_scan cost hscan i j).before b hbu, h.shortened_eq hp hi hbu]
    exact h.le_minimum b hbu
  · exact (h.shortened_joined hp hscan hi hnone (by omega) hb).le

/-- After a scan that does not end the search, the ways through the scanned column count too. -/
theorem scan (h : IsMeasured p.toMatching c u v root d μ t) (hp : p.IsSound cost c u v)
    (hscan : IsScan p.toMatching root t.up t) {a : Fin m} (ha : a.val = t.low)
    (hup : t.low < t.up) (hi : p.rowOf[t.order[a]] = some i)
    (hnone : (t.scan cost p i t.order[a]).2 = none) :
    IsMeasured p.toMatching c u v root (Matching.shortened c u v i μ d) μ
      (t.scan cost p i t.order[a]).1 := by
  have hr := isRelaxed_scan cost hscan i t.order[a]
  have hcases := h.scan_cases hp hscan hi hnone
  have htrail := trail_scan cost hscan ha hup i
  have hlevel : d t.order[a] = μ :=
    h.level a (hscan.settled_le.trans ha.ge) (ha.trans_lt hup)
  have hold : ∀ k ∈ t.order[a] :: t.order.trail t.low, Matching.shortened c u v i μ d k = d k := by
    intro k hk
    obtain ⟨b, hb, rfl⟩ := exists_position ha hup hk
    exact h.shortened_eq hp hi hb
  refine ⟨h.distance_scan hp hscan hi hnone, h.minimum, ?upper, ?attained,
    fun b hb => h.shortened_le_minimum hp hscan hi hnone hb, ?level, ?beyond⟩
  case upper =>
    intro r x hrow k
    rw [htrail] at hrow
    rcases Matching.rowAt_cons.mp (hrow.congr fun k hk => (hold k hk).symm) with
      hrow | ⟨hr', hx⟩
    · exact (min_le_left _ _).trans (h.upper hrow k)
    · obtain rfl := Option.some.inj (hi.symm.trans hr')
      obtain rfl := WithTop.coe_inj.mp (hlevel.symm.trans hx)
      exact min_le_right _ _
  case attained =>
    intro k hk
    rw [htrail]
    unfold Matching.shortened at hk ⊢
    rcases hcases k with ⟨hle, -, hreach⟩ | ⟨hlt, -, hreach⟩
    · rw [min_eq_left hle] at hk ⊢
      obtain ⟨x, hx, hd⟩ := h.attained k hk
      rw [hreach]
      exact ⟨x, (Matching.rowAt_cons.mpr (.inl hx)).congr hold, hd⟩
    · rw [hreach, min_eq_right hlt.le]
      exact ⟨μ, (Matching.rowAt_cons.mpr (.inr ⟨hi, hlevel⟩)).congr hold, rfl⟩
  case level =>
    intro b hb hb'
    by_cases hbu : b.val < t.up
    · rw [hr.before b hbu, h.shortened_eq hp hi hbu]
      exact h.level b hb hbu
    · exact h.shortened_joined hp hscan hi hnone (by omega) hb'
  case beyond =>
    intro b b' hb hb'
    obtain ⟨l, hl, he⟩ := hscan.distinct.exists_position_of_agree hr.distinct hr.before
      (hr.le_up.trans hb')
    refine (h.shortened_le_minimum hp hscan hi hnone hb).trans ?_
    rw [← he]
    refine le_min (h.minimum_le hscan hup ?_) (minimum_le_way hp hi _)
    exact hscan.distinct.not_mem_trail (by omega)

end scan

/-- A search that finds a free column in the frontier has labelled the columns of its trail. -/
theorem isLabelling (h : IsMeasured held c u v root d μ t) (hscan : IsScan held root filled t)
    (hup : t.low < t.up) {sink : Fin m} (hsink : d sink = μ) :
    held.IsLabelling c u v (fun j => some t.reachedBy[j]) root (t.order.trail t.low)
      (fun k => (d k).untop₀) sink μ := by
  have hedge : ∀ {r : Fin n}, ∀ j : Fin m, d j ≠ ⊤ → some t.reachedBy[j] = some r →
      ∃ x, held.RowAt root (t.order.trail t.low) d r x ∧
        d j = c r j + ((x - u r - v j : ℚ) : WithTop ℚ) := by
    intro r j hj hr
    obtain rfl := Option.some.inj hr
    exact h.attained j hj
  refine Matching.isLabelling_of_distances (fun k hk => ?_) (fun hr k _ => h.upper hr k)
    (fun hr j hj => (h.minimum_le hscan hup hj).trans (h.upper hr j))
    (fun k hk => hedge k (h.finite hscan k hk)) (fun hr => ?_)
  · obtain ⟨a, ha, rfl⟩ := ColumnOrder.mem_trail.mp hk
    exact h.le_minimum a (ha.trans hup)
  · rw [← hsink]
    exact hedge sink (hsink ▸ WithTop.coe_ne_top) hr

/-- So has one that reaches a free column at the minimum while it scans the column at position `a`:
no way through the row that holds it is shorter than the minimum. -/
theorem isLabelling_scan (h : IsMeasured p.toMatching c u v root d μ t)
    (hp : p.IsSound cost c u v) (hscan : IsScan p.toMatching root t.up t) {a : Fin m}
    (ha : a.val = t.low) (hup : t.low < t.up) (hi : p.rowOf[t.order[a]] = some i) {sink : Fin m}
    (hsink : (t.scan cost p i t.order[a]).2 = some sink) :
    p.IsLabelling c u v (fun j => some (t.scan cost p i t.order[a]).1.reachedBy[j]) root
      (t.order[a] :: t.order.trail t.low) (fun k => (d k).untop₀) sink μ := by
  have hr := isRelaxed_scan cost hscan i t.order[a]
  obtain ⟨-, hway, hreach⟩ := hr.found sink hsink
  have hlevel : d t.order[a] = μ :=
    h.level a (hscan.settled_le.trans ha.ge) (ha.trans_lt hup)
  have hle : ∀ k ∈ t.order[a] :: t.order.trail t.low, d k ≤ μ := by
    intro k hk
    obtain ⟨b, hb, rfl⟩ := exists_position ha hup hk
    exact h.le_minimum b hb
  have hrow : ∀ {r x}, p.RowAt root (t.order[a] :: t.order.trail t.low) d r x →
      p.RowAt root (t.order.trail t.low) d r x ∨ r = i ∧ x = μ := by
    intro r x hr'
    refine (Matching.rowAt_cons.mp hr').imp_right fun ⟨hri, hx⟩ => ⟨?_, ?_⟩
    · exact Option.some.inj (hri.symm.trans hi)
    · exact WithTop.coe_inj.mp (hx.symm.trans hlevel)
  refine Matching.isLabelling_of_distances hle (fun hr' k hk => ?_) (fun hr' j hj => ?_)
    (fun {r} k hk hkr => ?_) (fun {r} hkr => ?_)
  · rcases hrow hr' with hr' | ⟨rfl, rfl⟩
    · exact h.upper hr' k
    · exact (hle k hk).trans (minimum_le_way hp hi k)
  · rcases hrow hr' with hr' | ⟨rfl, rfl⟩
    · have hout : j ∉ t.order.trail t.low := List.not_mem_of_not_mem_cons hj
      exact (h.minimum_le hscan hup hout).trans (h.upper hr' j)
    · exact minimum_le_way hp hi j
  · obtain ⟨b, hb, rfl⟩ := exists_position ha hup hk
    have hsame : (t.scan cost p i t.order[a]).1.reachedBy[t.order[b]] =
        t.reachedBy[t.order[b]] := hr.reachedBy b hb
    obtain rfl := Option.some.inj (hkr.symm.trans (congrArg some hsame))
    obtain ⟨x, hx, hd⟩ := h.attained t.order[b] (ne_top_of_le_ne_top WithTop.coe_ne_top (hle _ hk))
    exact ⟨x, Matching.rowAt_cons.mpr (.inl hx), hd⟩
  · obtain rfl := Option.some.inj ((congrArg some hreach).symm.trans hkr)
    rw [h.way_scan hp hi, h.minimum, Exact.ofTop_beq, decide_eq_true_iff] at hway
    exact ⟨μ, Matching.rowAt_cons.mpr (.inr ⟨hi, hlevel⟩), hway.symm⟩

end IsMeasured

/-- A search that has ended: it has labelled the columns of its trail, and those that were not
settled when it last collected the frontier are at the minimum. -/
structure IsArrived (held : Matching n m) (c : Fin n → Fin m → WithTop ℚ) (u : Fin n → ℚ)
    (v : Fin m → ℚ) (root : Fin n) (d : Fin m → ℚ) (μ : ℚ)
    (t : ColumnSearch (Exact bound bids) n m) (sink : Fin m) : Prop where
  scan : ∃ filled, IsScan held root filled t
  free : held.rowOf[sink] = none
  minimum : t.minimum = .ofTop (μ : WithTop ℚ)
  distance : ∀ k ∈ t.order.trail t.low, t.distance[k] = .ofTop (d k : WithTop ℚ)
  level : ∀ a : Fin m, t.settled ≤ a.val → a.val < t.low → d t.order[a] = μ
  labelling : held.IsLabelling c u v (fun j => some t.reachedBy[j]) root (t.order.trail t.low) d
    sink μ

theorem IsMeasured.isArrived (h : IsMeasured held c u v root d μ t)
    (hscan : IsScan held root filled t) (hup : t.low < t.up) {sink : Fin m}
    (hfree : held.rowOf[sink] = none) {b : Fin m} (hb : t.low ≤ b.val) (hb' : b.val < t.up)
    (hsink : t.order[b] = sink) :
    IsArrived held c u v root (fun k => (d k).untop₀) μ t sink where
  scan := ⟨filled, hscan⟩
  free := hfree
  minimum := h.minimum
  distance k hk := by
    rw [h.distance, WithTop.coe_untop₀_of_ne_top (h.finite hscan k hk)]
  level a ha ha' := by
    rw [h.level a ha (ha'.trans hup), WithTop.untop₀_coe]
  labelling := h.isLabelling hscan hup (hsink ▸ h.level b (hscan.settled_le.trans hb) hb')

theorem IsMeasured.isArrived_scan (h : IsMeasured p.toMatching c u v root d μ t)
    (hp : p.IsSound cost c u v) (hscan : IsScan p.toMatching root t.up t) {a : Fin m}
    (ha : a.val = t.low) (hup : t.low < t.up) (hi : p.rowOf[t.order[a]] = some i) {sink : Fin m}
    (hsink : (t.scan cost p i t.order[a]).2 = some sink) :
    IsArrived p.toMatching c u v root (fun k => (d k).untop₀) μ
      (t.scan cost p i t.order[a]).1 sink := by
  have hr := isRelaxed_scan cost hscan i t.order[a]
  have htrail := trail_scan cost hscan ha hup i
  refine ⟨⟨_, hscan.scan ha hup hi⟩, Matching.isFree_iff.mp (hr.found sink hsink).1, h.minimum,
    fun k hk => ?_, fun b hb hb' => ?_, htrail ▸ h.isLabelling_scan hp hscan ha hup hi hsink⟩
  · rw [htrail] at hk
    obtain ⟨b, hb, rfl⟩ := exists_position ha hup hk
    have hfinite : d t.order[b] ≠ ⊤ :=
      ne_top_of_le_ne_top WithTop.coe_ne_top (h.le_minimum b hb)
    rw [WithTop.coe_untop₀_of_ne_top hfinite, ← h.distance]
    exact hr.distance b hb
  · change b.val < t.low + 1 at hb'
    simp only [hr.before b (by omega)]
    rw [h.level b hb (by omega), WithTop.untop₀_coe]

theorem run_arrives {f : Fin n → Fin m} (hf : Function.Injective f)
    (hfinite : ∀ r, c r (f r) ≠ ⊤) (hp : p.IsSound cost c u v) (hroot : ¬ p.IsMatched root)
    {j₀ : Fin m} (hfree : p.rowOf[j₀] = none) (hscan : IsScan p.toMatching root s.up s)
    (h : IsMeasured p.toMatching c u v root d μ s) :
    ∃ t sink d' μ', s.run cost p = .ok (t, sink) ∧
      IsArrived p.toMatching c u v root d' μ' t sink := by
  -- Induction on the number of columns that have not been scanned: a round either ends the search
  -- or scans one of them.
  induction hleft : m - s.low using Nat.strong_induction_on generalizing s d μ with
  | _ left ih =>
    obtain ⟨t, a, ht, ha, hlow, hup, hround⟩ := exists_round cost hscan hfree
    obtain ⟨μ', h'⟩ := h.advance hscan hp.consistent hroot hf hfinite ht
    rcases hround with ⟨sink, filled, hround, hsink, ht', b, hb, hb', he⟩ |
      ⟨i, hi, ht', hnext, hround⟩
    · refine ⟨t, sink, _, μ', ?_, h'.isArrived ht' hup hsink hb hb' he⟩
      rw [run, hround]
    · cases hfound : (t.scan cost p i t.order[a]).2 with
      | some sink =>
        refine ⟨_, sink, _, μ', ?_, h'.isArrived_scan hp ht' ha hup hi hfound⟩
        rw [hfound] at hround
        rw [run, hround]
      | none =>
        rw [hfound] at hround
        have hlt : m - (t.scan cost p i t.order[a]).1.low < left := by
          have hstep := low_of_round hround
          omega
        obtain ⟨t', sink, d', μ'', hrun, harrived⟩ :=
          ih _ hlt hnext (h'.scan hp ht' ha hup hi hfound) rfl
        refine ⟨t', sink, d', μ'', ?_, harrived⟩
        rw [run, hround]
        exact hrun

end LinearAssignment.ColumnSearch
