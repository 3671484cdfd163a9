import LinearAssignment.Proofs.Dense.BidReading

/-! A search over columns in an arithmetic that can be read as exact: it collects the same columns,
and as long as the results of its scans can be represented it scans them in the same order. -/
namespace LinearAssignment

section map

variable {α β : Type} {n m : ℕ}

def Frontier.map (g : α → β) (f : Frontier α m) : Frontier β m := ⟨f.up, g f.distance, f.order⟩

def Labels.Offer.map (g : α → β) (o : Labels.Offer α m) : Labels.Offer β m :=
  ⟨o.position, o.column, g o.value⟩

def Labels.map (g : α → β) (s : Labels α n m) : Labels β n m :=
  ⟨s.distance.map g, s.reachedBy, s.order, s.up⟩

def ColumnSearch.map (g : α → β) (s : ColumnSearch α n m) : ColumnSearch β n m :=
  ⟨s.toLabels.map g, s.low, s.settled, g s.minimum⟩

def ColumnSearch.Round.map (g : α → β) : ColumnSearch.Round α n m → ColumnSearch.Round β n m
  | .found s j => .found (s.map g) j
  | .passed s => .passed (s.map g)

def Dense.Stage.map (g : α → β) : Dense.Stage α n m → Dense.Stage β n m
  | .bid s i => .bid (s.map g) i
  | .start p i => .start (p.map g) i
  | .scan p s i j => .scan (p.map g) (s.map g) i j
  | .concede p s => .concede (p.map g) (s.map g)
  | .finish p => .finish (p.map g)

end map

variable {α : Type} [Cost α] {bound : ℚ} {bids n m : ℕ} {read : α → Exact bound bids}
  {P : ℚ → Prop}

namespace Frontier

theorem records_map (h : Cost.IsReading read P) (value : Fin m → α) (seen : α) (ks : List (Fin m)) :
    records (fun k => read (value k)) (read seen) ks = records value seen ks := by
  induction ks generalizing seen with
  | nil => rfl
  | cons k ks ih => simp only [records, h.displaces, h.atMost, ← apply_ite read, ih]

theorem extend_map (h : Cost.IsReading read P) (value : Fin m → α) (low : ℕ) (f : Frontier α m)
    (k : Fin m) : extend (fun k => read (value k)) low (f.map read) k =
      (extend value low f k).map read := by
  simp only [extend, map, h.lt_iff, ← apply_ite read]

theorem foldl_extend_map (h : Cost.IsReading read P) (value : Fin m → α) (low : ℕ)
    (f : Frontier α m) (ks : List (Fin m)) :
    ks.foldl (extend (fun k => read (value k)) low) (f.map read) =
      (ks.foldl (extend value low) f).map read :=
  List.foldl_hom (map read) fun f k => extend_map h value low f k

theorem collect_map (h : Cost.IsReading read P) (distance : Vector α m) (order : ColumnOrder m)
    (low : ℕ) : collect (distance.map read) order low =
      (collect distance order low).map (map read) := by
  unfold collect
  split
  next hlow =>
    simp only [getElem_map_fin, records_map h, Except.map, Except.ok.injEq]
    exact foldl_extend_map h (fun k : Fin m => distance[order[k]]) low
      ⟨low + 1, distance[order[(⟨low, hlow⟩ : Fin m)]], order⟩ _
  next => rfl

end Frontier

namespace Labels

variable {s : Labels α n m} {row price : Vector α m} {isFree : Fin m → Bool} {i : Fin n}
  {h minimum : α}

theorem offers_map (hread : Cost.IsReading read P)
    (hway : ∀ k : Fin m, s.up ≤ k.val →
      way (row.map read) (price.map read) (read h) s.order[k] = read (way row price h s.order[k])) :
    (s.map read).offers (row.map read) (price.map read) (read h) =
      (s.offers row price h).map (Offer.map read) := by
  have hmade : (ColumnOrder.positionsFrom s.up).map (fun k : Fin m =>
      (⟨k, s.order[k], way (row.map read) (price.map read) (read h) s.order[k]⟩ :
        Offer (Exact bound bids) m)) =
      ((ColumnOrder.positionsFrom s.up).map fun k : Fin m =>
        (⟨k, s.order[k], way row price h s.order[k]⟩ : Offer α m)).map (Offer.map read) := by
    rw [List.map_map]
    apply List.map_congr_left
    intro k hk
    rw [hway k (ColumnOrder.mem_positionsFrom.mp hk)]
    rfl
  have hlt : ∀ o : Offer α m, decide ((o.map read).value < (s.map read).distance[o.column]) =
      decide (o.value < s.distance[o.column]) := by
    intro o
    simp only [Offer.map, map, getElem_map_fin, hread.lt_iff]
  change ((ColumnOrder.positionsFrom s.up).map fun k : Fin m =>
    (⟨k, s.order[k], way (row.map read) (price.map read) (read h) s.order[k]⟩ :
      Offer (Exact bound bids) m)).filter _ = _
  rw [hmade, List.filter_map]
  exact congrArg _ (List.filter_congr fun o _ => hlt o)

theorem ends_map (hread : Cost.IsReading read P) (o : Offer α m) :
    ends isFree (read minimum) (o.map read) = ends isFree minimum o := by
  simp only [ends, Offer.map, hread.beq_eq]

theorem taken_map (hread : Cost.IsReading read P)
    (hoffers : (s.map read).offers (row.map read) (price.map read) (read h) =
      (s.offers row price h).map (Offer.map read)) :
    (s.map read).taken (row.map read) (price.map read) isFree (read h) (read minimum) =
      (s.taken row price isFree h minimum).map (Offer.map read) := by
  rw [taken, hoffers, List.takeWhile_map]
  simp only [Function.comp_def, ends_map hread]
  rfl

omit [Cost α] in
theorem label_map (i : Fin n) (s : Labels α n m) (o : Offer α m) :
    label i (s.map read) (o.map read) = (label i s o).map read := by
  simp only [label, map, map_setIfInBounds, Offer.map]

theorem relaxed_map (hread : Cost.IsReading read P) (i : Fin n)
    (hoffers : (s.map read).offers (row.map read) (price.map read) (read h) =
      (s.offers row price h).map (Offer.map read)) :
    (s.map read).relaxed (row.map read) (price.map read) isFree i (read h) (read minimum) =
      (s.relaxed row price isFree i h minimum).map read := by
  have hlabel : ∀ os : List (Offer α m), (os.map (Offer.map read)).foldl (label i) (s.map read) =
      (os.foldl (label i) s).map read := by
    intro os
    rw [List.foldl_map]
    exact List.foldl_hom (map read) fun s o => label_map i s o
  have henter : ∀ (os : List (Offer α m)) (s : Labels α n m),
      (os.map (Offer.map read)).foldl enter (s.map read) = (os.foldl enter s).map read := by
    intro os s
    rw [List.foldl_map]
    exact List.foldl_hom (map read) fun _ _ => rfl
  rw [relaxed, taken_map hread hoffers, hlabel, List.filter_map]
  simp only [Function.comp_def, Offer.map, hread.beq_eq]
  exact henter _ _

theorem relax_map (hread : Cost.IsReading read P) (isFree : Fin m → Bool) (i : Fin n)
    (hway : ∀ k : Fin m, s.up ≤ k.val →
      way (row.map read) (price.map read) (read h) s.order[k] = read (way row price h s.order[k])) :
    (s.map read).relax (row.map read) (price.map read) isFree i (read h) (read minimum) =
      ((s.relax row price isFree i h minimum).1.map read,
        (s.relax row price isFree i h minimum).2) := by
  have hoffers := offers_map hread hway
  rw [relax_eq, relax_eq, hoffers, relaxed_map hread i hoffers, List.find?_map]
  simp only [Function.comp_def, ends_map hread]
  cases (s.offers row price h).find? (ends isFree minimum) <;> rfl

end Labels

namespace ColumnSearch

variable {cost : CostMatrix α n m} {p : PricedMatching α n m} {s t : ColumnSearch α n m}
  {i : Fin n} {j : Fin m}

theorem start_map (h : Cost.IsReading read P)
    (hresults : ∀ x ∈ (Dense.Stage.start (p.map read) i).results (cost.mapEntries read),
      x.Meets P) :
    start (cost.mapEntries read)[i] (p.map read).price i = (start cost[i] p.price i).map read := by
  rw [Dense.Stage.forall_results_start, getElem_mapEntries_row] at hresults
  have hreduced : Vector.zipWith (· - ·) (cost[i].map read) (p.map read).price =
      (Vector.zipWith (· - ·) cost[i] p.price).map read := Bid.reduced_map h hresults
  simp only [start, map, Labels.map, getElem_mapEntries_row, hreduced, h.zero]

theorem advance_map (h : Cost.IsReading read P) (s : ColumnSearch α n m) :
    (s.map read).advance = s.advance.map (map read) := by
  unfold advance
  simp only [map, Labels.map, Frontier.collect_map h, bind, Except.bind, pure, Except.pure]
  split
  · cases Frontier.collect s.distance s.order s.low <;> rfl
  · rfl

def relaxation (cost : CostMatrix α n m) (p : PricedMatching α n m) (t : ColumnSearch α n m)
    (i : Fin n) (j : Fin m) : Labels α n m × Option (Fin m) :=
  t.toLabels.relax cost[i] p.price p.isFree i (cost[i][j] - p.price[j] - t.minimum) t.minimum

def roundAfter (s t : ColumnSearch α n m) (r : Labels α n m × Option (Fin m)) : Round α n m :=
  match r.2 with
  | some j => .found { t with toLabels := r.1, low := s.low + 1 } j
  | none => .passed { t with toLabels := r.1, low := s.low + 1 }

theorem scan_map (h : Cost.IsReading read P)
    (hresults : ∀ x ∈ (Dense.Stage.scan (p.map read) (t.map read) i j).results
      (cost.mapEntries read), x.Meets P) :
    read cost[i][j] - read p.price[j] = read (cost[i][j] - p.price[j]) ∧
      read (cost[i][j] - p.price[j]) - read t.minimum =
        read (cost[i][j] - p.price[j] - t.minimum) ∧
      ∀ k : Fin m, t.up ≤ k.val →
        read cost[i][t.order[k]] - read p.price[t.order[k]] =
            read (cost[i][t.order[k]] - p.price[t.order[k]]) ∧
          Labels.way (cost[i].map read) (p.price.map read)
              (read (cost[i][j] - p.price[j] - t.minimum)) t.order[k] =
            read (Labels.way cost[i] p.price (cost[i][j] - p.price[j] - t.minimum) t.order[k]) := by
  obtain ⟨hcost, hbase, hways⟩ := Dense.Stage.forall_results_scan.mp hresults
  simp only [getElem_mapEntries_row, PricedMatching.map, map, Labels.map, Labels.way,
    getElem_map_fin] at hcost hbase hways ⊢
  rw [← h.sub hcost] at hbase hways ⊢
  rw [← h.sub hbase] at hways ⊢
  refine ⟨rfl, rfl, fun k hk => ?_⟩
  obtain ⟨hreduced, hway⟩ := hways k hk
  rw [← h.sub hreduced] at hway ⊢
  exact ⟨rfl, (h.sub hway).symm⟩

theorem relaxation_map (h : Cost.IsReading read P)
    (hresults : ∀ x ∈ (Dense.Stage.scan (p.map read) (t.map read) i j).results
      (cost.mapEntries read), x.Meets P) :
    (t.map read).relaxation (cost.mapEntries read) (p.map read) i j =
      ((t.relaxation cost p i j).1.map read, (t.relaxation cost p i j).2) := by
  obtain ⟨hcost, hbase, hways⟩ := scan_map h hresults
  simp only [relaxation, getElem_mapEntries_row, PricedMatching.map, map, getElem_map_fin, hcost,
    hbase]
  exact Labels.relax_map h _ i fun k hk => (hways k hk).2

theorem scanStage?_map (h : Cost.IsReading read P) (p : PricedMatching α n m)
    (s : ColumnSearch α n m) :
    (s.map read).scanStage? (p.map read) = (s.scanStage? p).map (Dense.Stage.map read) := by
  unfold scanStage?
  rw [advance_map h]
  cases s.advance with
  | error e => rfl
  | ok t =>
    simp only [Except.map]
    change (if h : s.low < m ∧ t.freeColumn? p.isFree = none then _ else none) = _
    split
    · rw [Option.map_map]
      rfl
    · rfl

theorem round_map (h : Cost.IsReading read P)
    (hresults : ∀ st ∈ ((s.map read).scanStage? (p.map read)).toList,
      ∀ z ∈ st.results (cost.mapEntries read), z.Meets P) :
    (s.map read).round (cost.mapEntries read) (p.map read) =
      (s.round cost p).map (Round.map read) := by
  rw [scanStage?_map h] at hresults
  unfold scanStage? at hresults
  unfold round
  rw [advance_map h]
  cases ht : s.advance with
  | error e => rfl
  | ok t =>
    rw [ht] at hresults
    have hfound : (t.map read).freeColumn? (p.map read).isFree = t.freeColumn? p.isFree := rfl
    simp only [Except.map, bind, Except.bind, hfound]
    cases hfree : t.freeColumn? p.isFree with
    | some j => rfl
    | none =>
      simp only [hfree, and_true] at hresults ⊢
      change (if h : s.low < m then _ else _) = _
      split
      next hlow =>
        rw [dif_pos hlow] at hresults
        have hrow : (p.map read).rowOf[(t.map read).order[(⟨(s.map read).low, hlow⟩ : Fin m)]] =
            p.rowOf[t.order[(⟨s.low, hlow⟩ : Fin m)]] := rfl
        rw [hrow]
        cases hi : p.rowOf[t.order[(⟨s.low, hlow⟩ : Fin m)]] with
        | none => rfl
        | some i =>
          have hrelaxed := relaxation_map h (hresults
            (.scan (p.map read) (t.map read) i t.order[(⟨s.low, hlow⟩ : Fin m)])
            (by rw [hi]; simp [Dense.Stage.map]))
          change Except.ok (roundAfter (s.map read) (t.map read) ((t.map read).relaxation
            (cost.mapEntries read) (p.map read) i t.order[(⟨s.low, hlow⟩ : Fin m)])) =
              Except.ok ((roundAfter s t
                (t.relaxation cost p i t.order[(⟨s.low, hlow⟩ : Fin m)])).map read)
          rw [hrelaxed]
          unfold roundAfter
          cases (t.relaxation cost p i t.order[(⟨s.low, hlow⟩ : Fin m)]).2 <;> rfl
      next => rfl

end ColumnSearch

end LinearAssignment
