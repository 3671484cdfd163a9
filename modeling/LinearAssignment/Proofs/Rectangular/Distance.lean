import LinearAssignment.Proofs.Potential
import LinearAssignment.Proofs.Rectangular.Scan

/-! The distances that a search from a row finds in exact arithmetic. Reduced costs of matched
rows are not negative, so columns are scanned in the order of their distances; those of the root
may have any sign. -/
namespace LinearAssignment

structure Reads {bound : ℚ} {bids n m : ℕ} (cost : CostMatrix (Exact bound bids) n m)
    (row : Vector (Exact bound bids) n) (column : Vector (Exact bound bids) m)
    (c : Fin n → Fin m → WithTop ℚ) (u : Fin n → ℚ) (v : Fin m → ℚ) : Prop where
  cost : ∀ (i : Fin n) (j : Fin m), cost[i][j] = .ofTop (c i j)
  row : ∀ i : Fin n, row[i] = .ofTop (u i)
  column : ∀ j : Fin m, column[j] = .ofTop (v j)

namespace PathSearch

variable {bound : ℚ} {bids n m : ℕ} {cost : CostMatrix (Exact bound bids) n m}
  {row : Vector (Exact bound bids) n} {column : Vector (Exact bound bids) m}
  {c : Fin n → Fin m → WithTop ℚ} {u : Fin n → ℚ} {v : Fin m → ℚ}
  {held : Matching n m} {root i : Fin n} {pending : Option (Fin n)} {trail : List (Fin m)}
  {d : Fin m → WithTop ℚ} {s : PathSearch (Exact bound bids) n m} {x : ℚ}

theorem way_eq (h : Reads cost row column c u v) (x : ℚ) (i : Fin n) (j : Fin m) :
    way cost row column (.ofTop x) i j = .ofTop (c i j + ((x - u i - v j : ℚ) : WithTop ℚ)) := by
  rw [way, h.cost, h.row, h.column, Exact.ofTop_add, Exact.ofTop_sub, Exact.ofTop_sub]
  congr 1
  cases c i j with
  | top => simp
  | coe q =>
    simp only [← WithTop.coe_add, WithTop.coe_inj]
    ring

/-- The distances of a search: each is the length of some way through a row of the trail, and
of the rows that have been visited none offers a shorter one. -/
structure IsMeasured (held : Matching n m) (c : Fin n → Fin m → WithTop ℚ) (u : Fin n → ℚ)
    (v : Fin m → ℚ) (root : Fin n) (pending : Option (Fin n)) (trail : List (Fin m))
    (d : Fin m → WithTop ℚ) (s : PathSearch (Exact bound bids) n m) : Prop where
  distance : ∀ j : Fin m, s.distance[j] = .ofTop (d j)
  upper : ∀ {r x}, held.RowAt root trail d r x → pending ≠ some r →
    ∀ j, d j ≤ c r j + ((x - u r - v j : ℚ) : WithTop ℚ)
  attained : ∀ j : Fin m, d j ≠ ⊤ → ∃ r x, held.RowAt root trail d r x ∧
    s.reachedBy[j] = some r ∧ d j = c r j + ((x - u r - v j : ℚ) : WithTop ℚ)
  finite : ∀ k ∈ trail, d k ≠ ⊤
  sorted : trail.Pairwise fun a b => d b ≤ d a
  beyond : ∀ k ∈ trail, ∀ j ∉ trail, d k ≤ d j

/-- The row that a round visits, at distance `x`: the root, or else the row that holds the
column scanned last. -/
def IsCurrent (held : Matching n m) (root : Fin n) (trail : List (Fin m)) (d : Fin m → WithTop ℚ)
    (i : Fin n) (x : ℚ) : Prop :=
  (trail = [] ∧ i = root ∧ x = 0) ∨
    ∃ k t, trail = k :: t ∧ held.rowOf[k] = some i ∧ d k = x

theorem IsCurrent.rowAt (h : IsCurrent held root trail d i x) : held.RowAt root trail d i x := by
  rcases h with ⟨rfl, rfl, rfl⟩ | ⟨k, t, rfl, hi, hx⟩
  · exact .inl ⟨rfl, rfl⟩
  · exact .inr ⟨k, List.mem_cons_self, hi, hx⟩

theorem isMeasured_start (reachedBy : Vector (Option (Fin n)) m) :
    IsMeasured held c u v root (some root) [] (fun _ => ⊤)
      (start reachedBy : PathSearch (Exact bound bids) n m) where
  distance j := by simp [start, Exact.infinity_eq]
  upper hr hne := by
    rcases hr with ⟨rfl, _⟩ | ⟨k, hk, _⟩
    · exact absurd rfl hne
    · simp at hk
  attained j hj := absurd rfl hj
  finite := by simp
  sorted := .nil
  beyond := by simp

namespace IsMeasured

/-- A matched row that is visited offers no way shorter than its own distance, and the columns
scanned before are not farther than it. -/
theorem le_way (h : IsMeasured held c u v root pending trail d s)
    (hbelow : ∀ {i : Fin n}, held.IsMatched i → ∀ j, ((u i + v j : ℚ) : WithTop ℚ) ≤ c i j)
    (hi : IsCurrent held root trail d i x) {k : Fin m} (hk : k ∈ trail) (j : Fin m) :
    d k ≤ c i j + ((x - u i - v j : ℚ) : WithTop ℚ) := by
  rcases hi with ⟨rfl, _⟩ | ⟨l, t, rfl, hi, hx⟩
  · simp at hk
  · have hkx : d k ≤ (x : WithTop ℚ) := by
      rw [← hx]
      rcases List.mem_cons.mp hk with rfl | hk
      · exact le_rfl
      · exact (List.pairwise_cons.mp h.sorted).1 k hk
    exact hkx.trans (coe_le_way (hbelow ⟨l, hi⟩ j))

theorem visit_cases (h : IsMeasured held c u v root (some i) trail d s)
    (hr : Reads cost row column c u v)
    (hbelow : ∀ {i : Fin n}, held.IsMatched i → ∀ j, ((u i + v j : ℚ) : WithTop ℚ) ≤ c i j)
    (hscan : IsScan held root (some i) trail s) (hi : IsCurrent held root trail d i x)
    (j : Fin m) :
    (d j ≤ c i j + ((x - u i - v j : ℚ) : WithTop ℚ) ∧
        (s.visit cost row column (.ofTop x) i).distance[j] = .ofTop (d j) ∧
        (s.visit cost row column (.ofTop x) i).reachedBy[j] = s.reachedBy[j]) ∨
      (c i j + ((x - u i - v j : ℚ) : WithTop ℚ) < d j ∧
        (s.visit cost row column (.ofTop x) i).distance[j] =
          .ofTop (c i j + ((x - u i - v j : ℚ) : WithTop ℚ)) ∧
        (s.visit cost row column (.ofTop x) i).reachedBy[j] = some i) := by
  have hnearer : (s.unscanned.Lists j ∧
      PathSearch.way cost row column (.ofTop x) i j < s.distance[j]) ↔
        (j ∉ trail ∧ c i j + ((x - u i - v j : ℚ) : WithTop ℚ) < d j) := by
    rw [hscan.lists_iff, way_eq hr, h.distance, Exact.ofTop_lt]
  by_cases hw : j ∉ trail ∧ c i j + ((x - u i - v j : ℚ) : WithTop ℚ) < d j
  · refine .inr ⟨hw.2, ?_, ?_⟩
    · rw [distance_visit, if_pos (hnearer.mpr hw), way_eq hr]
    · exact (reachedBy_visit j).trans (if_pos (hnearer.mpr hw))
  · refine .inl ⟨?_, ?_, ?_⟩
    · by_cases hj : j ∈ trail
      · exact h.le_way hbelow hi hj j
      · exact not_lt.mp fun hlt => hw ⟨hj, hlt⟩
    · rw [distance_visit, if_neg fun hn => hw (hnearer.mp hn), h.distance]
    · exact (reachedBy_visit j).trans (if_neg fun hn => hw (hnearer.mp hn))

theorem visit (h : IsMeasured held c u v root (some i) trail d s)
    (hr : Reads cost row column c u v) (hs : held.Consistent) (hroot : ¬ held.IsMatched root)
    (hbelow : ∀ {i : Fin n}, held.IsMatched i → ∀ j, ((u i + v j : ℚ) : WithTop ℚ) ≤ c i j)
    (hscan : IsScan held root (some i) trail s) (hi : IsCurrent held root trail d i x) :
    IsMeasured held c u v root none trail (Matching.shortened c u v i x d)
      (s.visit cost row column (.ofTop x) i) := by
  have hcases := h.visit_cases hr hbelow hscan hi
  have htrail : ∀ k ∈ trail, Matching.shortened c u v i x d k = d k := fun k hk =>
    min_eq_left (h.le_way hbelow hi hk k)
  constructor
  case distance =>
    intro j
    unfold Matching.shortened
    rcases hcases j with ⟨hle, hj, -⟩ | ⟨hlt, hj, -⟩
    · rw [min_eq_left hle, hj]
    · rw [min_eq_right hlt.le, hj]
  case upper =>
    intro r y hry _ j
    have hback := hry.congr fun k hk => (htrail k hk).symm
    by_cases hri : some i = some r
    · obtain rfl := Option.some.inj hri
      rw [Matching.RowAt.unique hs hroot hback hi.rowAt]
      exact min_le_right _ _
    · exact (min_le_left _ _).trans (h.upper hback hri j)
  case attained =>
    intro j hj
    unfold Matching.shortened at hj ⊢
    rcases hcases j with ⟨hle, -, hreach⟩ | ⟨hlt, -, hreach⟩
    · rw [min_eq_left hle] at hj ⊢
      obtain ⟨r, y, hry, hold, hd⟩ := h.attained j hj
      exact ⟨r, y, hry.congr htrail, hreach.trans hold, hd⟩
    · rw [min_eq_right hlt.le]
      exact ⟨i, x, hi.rowAt.congr htrail, hreach, rfl⟩
  case finite =>
    intro k hk
    rw [htrail k hk]
    exact h.finite k hk
  case sorted =>
    exact h.sorted.imp_of_mem fun ha hb hab => by rwa [htrail _ ha, htrail _ hb]
  case beyond =>
    intro k hk j hj
    rw [htrail k hk]
    exact le_min (h.beyond k hk j hj) (h.le_way hbelow hi hk j)

theorem isKeyed (h : IsMeasured held c u v root pending trail d s) :
    Cost.IsKeyed (fun j : Fin m => s.distance[j]) d :=
  Cost.isKeyed_ofTop h.distance

theorem scan (h : IsMeasured held c u v root none trail d s) {j : Fin m} (k : Fin m)
    (hj : j ∉ trail) (hmin : ∀ l ∉ trail, d j ≤ d l) (hfinite : d j ≠ ⊤)
    (hi : held.rowOf[j] = some i) :
    IsMeasured held c u v root (some i) (j :: trail) d (s.scan k) where
  distance := h.distance
  upper hr hne := by
    rcases Matching.rowAt_cons.mp hr with hr | ⟨hr, _⟩
    · exact h.upper hr (by simp)
    · exact absurd (hi.symm.trans hr) hne
  attained l hl := by
    obtain ⟨r, x, hr, hreach, hd⟩ := h.attained l hl
    exact ⟨r, x, Matching.rowAt_cons.mpr (.inl hr), hreach, hd⟩
  finite l hl := by
    rcases List.mem_cons.mp hl with rfl | hl
    · exact hfinite
    · exact h.finite l hl
  sorted := List.pairwise_cons.mpr ⟨fun l hl => h.beyond l hl j hj, h.sorted⟩
  beyond l hl l' hl' := by
    have hout := List.not_mem_of_not_mem_cons hl'
    rcases List.mem_cons.mp hl with rfl | hl
    · exact hmin l' hout
    · exact h.beyond l hl l' hout

/-- The distances of a search that may end in `sink` are the labels of the columns. -/
theorem isLabelling (h : IsMeasured held c u v root none trail d s) {sink : Fin m} {length : ℚ}
    (hmin : ∀ j ∉ trail, d sink ≤ d j) (hfresh : sink ∉ trail) (hlength : d sink = length) :
    held.IsLabelling c u v (fun j => s.reachedBy[j]) root trail (fun k => (d k).untop₀) sink
      length := by
  have hedge : ∀ {r : Fin n}, ∀ j : Fin m, d j ≠ ⊤ → s.reachedBy[j] = some r →
      ∃ x, held.RowAt root trail d r x ∧ d j = c r j + ((x - u r - v j : ℚ) : WithTop ℚ) := by
    intro r j hj hr
    obtain ⟨r', x, hrow, hreach, hd⟩ := h.attained j hj
    obtain rfl := Option.some.inj (hreach.symm.trans hr)
    exact ⟨x, hrow, hd⟩
  refine Matching.isLabelling_of_distances (fun k hk => ?_) (fun hr k _ => h.upper hr (by simp) k)
    (fun hr j hj => ?_) (fun k hk => hedge k (h.finite k hk)) (fun hr => ?_)
  · rw [← hlength]
    exact h.beyond k hk sink hfresh
  · rw [← hlength]
    exact (hmin j hj).trans (h.upper hr (by simp) j)
  · rw [← hlength]
    exact hedge sink (hlength ▸ WithTop.coe_ne_top) hr

/-- If no column that is left can be reached, the rows on the trail have no finite cost off it. -/
theorem eq_top_of_far (h : IsMeasured held c u v root none trail d s)
    (hfar : ∀ j ∉ trail, d j = ⊤) {r : Fin n} (hr : held.OnTrail root trail r) {j : Fin m}
    (hj : j ∉ trail) : c r j = ⊤ := by
  obtain ⟨y, hy⟩ := hr.exists_rowAt h.finite
  have hle := h.upper hy (by simp) j
  rw [hfar j hj, top_le_iff] at hle
  exact (WithTop.add_eq_top.mp hle).resolve_right WithTop.coe_ne_top

end IsMeasured

/-- How a search ends, after its last visit: no column that is left can be reached, or the
nearest of them is free. -/
inductive Ends (held : Matching n m) (c : Fin n → Fin m → WithTop ℚ) (u : Fin n → ℚ)
    (v : Fin m → ℚ) (root : Fin n) :
    PathSearch (Exact bound bids) n m × Option (Sink (Exact bound bids) m) → Prop
  | blocked {trail : List (Fin m)} {d : Fin m → WithTop ℚ}
      {s : PathSearch (Exact bound bids) n m} (scan : IsScan held root none trail s)
      (measured : IsMeasured held c u v root none trail d s) (far : ∀ j ∉ trail, d j = ⊤) :
      Ends held c u v root (s, none)
  | arrived {trail : List (Fin m)} {d : Fin m → WithTop ℚ}
      {s : PathSearch (Exact bound bids) n m} (k sink : Fin m)
      (scan : IsScan held root none trail s)
      (measured : IsMeasured held c u v root none trail d s)
      (position : sink = s.unscanned.order[k]) (fresh : sink ∉ trail)
      (free : held.rowOf[sink] = none) (least : ∀ j ∉ trail, d sink ≤ d j)
      (finite : d sink ≠ ⊤) :
      Ends held c u v root (s.scan k, some ⟨sink, .ofTop (d sink)⟩)

/-- A round visits the row. Then no column that is left can be reached, or the nearest of them is
scanned; if it is held, the search goes on from its row. -/
theorem exists_round (hr : Reads cost row column c u v) (hs : held.Consistent)
    (hroot : ¬ held.IsMatched root)
    (hbelow : ∀ {i : Fin n}, held.IsMatched i → ∀ j, ((u i + v j : ℚ) : WithTop ℚ) ≤ c i j)
    {j₀ : Fin m} (hfree : held.rowOf[j₀] = none) (hscan : IsScan held root (some i) trail s)
    (h : IsMeasured held c u v root (some i) trail d s) (hi : IsCurrent held root trail d i x) :
    ∃ t d', IsScan held root none trail t ∧ IsMeasured held c u v root none trail d' t ∧
      d' = Matching.shortened c u v i x d ∧
      ((s.round cost row column held (.ofTop x) i = .ok (.unreachable t) ∧
          ∀ j ∉ trail, d' j = ⊤) ∨
        ∃ (k j : Fin m) (y : ℚ), j = t.unscanned.order[k] ∧ j ∉ trail ∧ (∀ l ∉ trail, d' j ≤ d' l) ∧
          d' j = (y : WithTop ℚ) ∧ (t.distance[j] == Cost.infinity) = false ∧
          ((held.rowOf[j] = none ∧
              s.round cost row column held (.ofTop x) i =
                .ok (.reached (t.scan k) ⟨j, .ofTop (y : WithTop ℚ)⟩)) ∨
            ∃ i', held.rowOf[j] = some i' ∧
              s.round cost row column held (.ofTop x) i =
                .ok (.passed (t.scan k) (.ofTop (y : WithTop ℚ)) i') ∧
              IsScan held root (some i') (j :: trail) (t.scan k) ∧
              IsMeasured held c u v root (some i') (j :: trail) d' (t.scan k) ∧
              IsCurrent held root (j :: trail) d' i' y)) := by
  have h' := h.visit hr hs hroot hbelow hscan hi
  have hscan' : IsScan held root none trail (s.visit cost row column (.ofTop x) i) := hscan.visit
  refine ⟨s.visit cost row column (.ofTop x) i, _, hscan', h', rfl, ?_⟩
  generalize Matching.shortened c u v i x d = d' at h'
  obtain ⟨k₀, hk₀⟩ := exists_nearest h'.isKeyed held.isFree
    ((hscan'.lists_iff j₀).mpr (hscan'.isTrail.not_mem_of_free hfree))
  obtain ⟨r, hround⟩ := exists_round_of_nearest _ i hk₀
  obtain ⟨t, k, j, rfl, hk, hj, hcases⟩ := round_cases hround
  have hfresh : j ∉ trail := hj ▸ hscan'.nearest_not_mem hk
  have hmin : ∀ l ∉ trail, d' j ≤ d' l := fun l hl =>
    hj ▸ nearest_le h'.isKeyed hk ((hscan'.lists_iff l).mpr hl)
  have hbeq : ((s.visit cost row column (.ofTop x) i).distance[j] == Cost.infinity) =
      decide (d' j = ⊤) := by
    rw [h'.distance, Exact.infinity_eq, Exact.ofTop_beq]
  rcases hcases with ⟨hinf, rfl⟩ | ⟨hinf, hcases⟩
  · rw [hbeq, decide_eq_true_iff] at hinf
    exact .inl ⟨hround, fun l hl => top_le_iff.mp (hinf ▸ hmin l hl)⟩
  · have hfinite : d' j ≠ ⊤ := by rwa [hbeq, decide_eq_false_iff_not] at hinf
    obtain ⟨y, hy⟩ := WithTop.ne_top_iff_exists.mp hfinite
    have hdistance : (s.visit cost row column (.ofTop x) i).distance[j] =
        .ofTop (y : WithTop ℚ) := (h'.distance j).trans (congrArg _ hy.symm)
    refine .inr ⟨k, j, y, hj, hfresh, hmin, hy.symm, hinf, ?_⟩
    rcases hcases with ⟨hfreej, rfl⟩ | ⟨i', hi', rfl⟩
    · exact .inl ⟨hfreej, hdistance ▸ hround⟩
    · exact .inr ⟨i', hi', hdistance ▸ hround, hscan'.scan hk hj hinf hi',
        h'.scan k hfresh hmin hfinite hi', .inr ⟨j, trail, rfl, hi', hy.symm⟩⟩

theorem run_ends (hr : Reads cost row column c u v) (hs : held.Consistent)
    (hroot : ¬ held.IsMatched root)
    (hbelow : ∀ {i : Fin n}, held.IsMatched i → ∀ j, ((u i + v j : ℚ) : WithTop ℚ) ≤ c i j)
    {j₀ : Fin m} (hfree : held.rowOf[j₀] = none) (hscan : IsScan held root (some i) trail s)
    (h : IsMeasured held c u v root (some i) trail d s) (hi : IsCurrent held root trail d i x) :
    ∃ r, s.run cost row column held (.ofTop x) i = .ok r ∧ Ends held c u v root r := by
  -- Induction on the number of columns that have not been scanned: a round either ends the search
  -- or scans one of them.
  induction hcount : s.unscanned.count using Nat.strong_induction_on
    generalizing s trail d i x with
  | _ count ih =>
    obtain ⟨t, d', hscan', h', -, hround⟩ :=
      exists_round hr hs hroot hbelow hfree hscan h hi
    rcases hround with ⟨hround, hfar⟩ | ⟨k, j, y, hj, hfresh, hmin, hy, -, hround⟩
    · exact ⟨_, by rw [run, hround], .blocked hscan' h' hfar⟩
    · rcases hround with ⟨hfreej, hround⟩ | ⟨i', -, hround, hscan'', h'', hi'⟩
      · refine ⟨_, by rw [run, hround], ?_⟩
        rw [← hy]
        exact .arrived k j hscan' h' hj hfresh hfreej hmin (hy ▸ WithTop.coe_ne_top)
      · obtain ⟨r, hrun, hends⟩ := ih _ (hcount ▸ count_lt_of_round hround) hscan'' h'' hi' rfl
        refine ⟨r, ?_, hends⟩
        rw [run, hround]
        exact hrun

end PathSearch

end LinearAssignment
