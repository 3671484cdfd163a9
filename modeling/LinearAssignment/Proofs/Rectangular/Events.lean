import LinearAssignment.Proofs.Rectangular.Solver

/-! What the rectangular solver reports, in any arithmetic. A search ends in a free column, and an
augmentation holds on to every column that was held before, so the columns at which the searches of
a run end are all different and are in the end the columns that are held. -/
namespace LinearAssignment

namespace Rectangular

section trace

variable {α : Type} {n m : ℕ}

/-- The reports of the augmentations of one row after the other, of which the first is `start`, from
the columns at which their paths end and the lengths of these. -/
def augments (start : ℕ) (ends : List (ℕ × α)) : List (Event α) :=
  (ends.zipIdx start).map fun (sink, row) => .augment row sink.1 sink.2

theorem augments_cons (start : ℕ) (e : ℕ × α) (ends : List (ℕ × α)) :
    augments start (e :: ends) = .augment start e.1 e.2 :: augments (start + 1) ends := by
  rw [augments, List.zipIdx_cons, List.map_cons, augments]

def Verdict.report {β : Type} (count : ℕ) : Verdict β → List (Event α)
  | solved _ => [.done count]
  | infeasible => []
  | invalid => []

theorem Verdict.report_map {β γ : Type} (g : β → γ) (count : ℕ) (verdict : Verdict β) :
    ((verdict.map g).report count : List (Event α)) = verdict.report count := by
  cases verdict <;> rfl

/-- The events of a run that reaches a verdict on so many rows: an augmentation for each of them in
order, up to one that cannot be matched. The sinks are different, and they are in the end the
matched indices of the longer side. -/
inductive IsTrace {β : Type} (count : ℕ) (longSide : β → List ℕ) :
    Verdict β → List (Event α) → Prop
  | trivial {s : β} (none : count = 0) : IsTrace count longSide (.solved s) []
  | invalid (some : 0 < count) : IsTrace count longSide .invalid [.invalid]
  | infeasible {ends : List (ℕ × α)} (length_lt : ends.length < count)
      (nodup : (ends.map Prod.fst).Nodup) :
      IsTrace count longSide .infeasible (augments 0 ends ++ [.infeasible ends.length])
  | solved {s : β} {ends : List (ℕ × α)} (some : 0 < count) (length_eq : ends.length = count)
      (nodup : (ends.map Prod.fst).Nodup) (perm : (ends.map Prod.fst).Perm (longSide s)) :
      IsTrace count longSide (.solved s) (augments 0 ends ++ [.done count])

theorem IsTrace.map {β γ : Type} {count : ℕ} {longSide : β → List ℕ} {longSide' : γ → List ℕ}
    {g : β → γ} {verdict : Verdict β} {events : List (Event α)}
    (h : IsTrace count longSide verdict events)
    (hg : ∀ s, (longSide s).Perm (longSide' (g s))) :
    IsTrace count longSide' (verdict.map g) events := by
  cases h with
  | trivial none => exact .trivial none
  | invalid some => exact .invalid some
  | infeasible length_lt nodup => exact .infeasible length_lt nodup
  | solved some length_eq nodup perm => exact .solved some length_eq nodup (perm.trans (hg _))

theorem perm_columns {s : DualMatching α n m} (hs : s.IsComplete) {sinks : List (Fin m)}
    (hnodup : sinks.Nodup) (hsinks : ∀ j, s.rowOf[j] = none ↔ j ∉ sinks) :
    (sinks.map Fin.val).Perm s.columns := by
  obtain ⟨f, hinj, hf⟩ := hs.exists_columns
  have hcolumns : s.columns = (List.ofFn f).map Fin.val := by
    rw [columns_eq_ofFn hf, List.map_ofFn]
    rfl
  rw [hcolumns]
  refine ((List.perm_ext_iff_of_nodup hnodup (List.nodup_ofFn.mpr hinj)).mpr fun j => ?_).map _
  rw [List.mem_ofFn, ← not_iff_not, ← hsinks, hs.rowOf_eq_none_iff hf, not_exists]

/-- The matched indices of the longer side, or the matched columns if no side is longer. -/
def Solution.longSide (s : Solution α n m) : List ℕ :=
  s.pairs.map (if n ≤ m then Prod.snd else Prod.fst)

theorem longSide_ofUpright (hnm : n ≤ m) (s : DualMatching α n m) :
    (Solution.ofUpright s).longSide = s.columns := by
  rw [Solution.longSide, if_pos hnm, Solution.ofUpright, NormalForm.restorePairs,
    if_neg Bool.false_ne_true, List.map_map]
  exact List.zipIdx_map_fst 0 s.columns

theorem longSide_ofTransposed (hmn : m < n) (s : DualMatching α m n) :
    s.columns.Perm (Solution.ofTransposed s : Solution α n m).longSide := by
  rw [Solution.longSide, if_neg (Nat.not_le.mpr hmn), Solution.ofTransposed,
    NormalForm.restorePairs, if_pos rfl]
  refine List.Perm.trans ?_ ((List.mergeSort_perm _ _).map Prod.fst).symm
  rw [List.map_map, List.map_map]
  exact .of_eq (List.zipIdx_map_fst 0 s.columns).symm

structure Reports (start count : ℕ) (p : Matching n m) (r : Option (DualMatching α n m))
    (ends : List (Fin m × α)) (events : List (Event α)) : Prop where
  nodup : (ends.map Prod.fst).Nodup
  fresh : ∀ e ∈ ends, p.rowOf[e.1] = none
  solved : ∀ s, r = some s → ends.length = count ∧ s.IsComplete ∧
    (∀ j : Fin m, s.rowOf[j] = none ↔ p.rowOf[j] = none ∧ j ∉ ends.map Prod.fst) ∧
    events = augments start (ends.map (Prod.map Fin.val id))
  infeasible : r = none → ends.length < count ∧
    events = augments start (ends.map (Prod.map Fin.val id)) ++ [.infeasible (start + ends.length)]

/-- An augmentation adds the column at which its path ends, which it takes. -/
theorem Reports.cons {start count : ℕ} {p p' : Matching n m} {r : Option (DualMatching α n m)}
    {ends : List (Fin m × α)} {events : List (Event α)}
    (h : Reports (start + 1) count p' r ends events) {sink : Fin m} (hsink : p.rowOf[sink] = none)
    (hfree : ∀ k : Fin m, p'.rowOf[k] = none ↔ k ≠ sink ∧ p.rowOf[k] = none) (length : α) :
    Reports start (count + 1) p r ((sink, length) :: ends)
      (.augment start sink length :: events) where
  nodup := by
    refine List.nodup_cons.mpr ⟨fun hmem => ?_, h.nodup⟩
    obtain ⟨e, he, hsame⟩ := List.mem_map.mp hmem
    exact ((hfree e.1).mp (h.fresh e he)).1 hsame
  fresh e he := by
    rcases List.mem_cons.mp he with rfl | he
    · exact hsink
    · exact ((hfree e.1).mp (h.fresh e he)).2
  solved s hs := by
    obtain ⟨hlength, hcomplete, hrowOf, hevents⟩ := h.solved s hs
    refine ⟨by rw [List.length_cons, hlength], hcomplete, fun j => ?_, ?_⟩
    · rw [hrowOf, hfree, List.map_cons, List.mem_cons, not_or]
      tauto
    · rw [List.map_cons, augments_cons, ← hevents]
      rfl
  infeasible hr := by
    obtain ⟨hlength, hevents⟩ := h.infeasible hr
    refine ⟨by rw [List.length_cons]; omega, ?_⟩
    have hlast : start + 1 + ends.length = start + (ends.length + 1) := by omega
    rw [List.map_cons, augments_cons, List.length_cons, List.cons_append, ← hlast, ← hevents]
    rfl

/-- The events of a run over all rows are those of its verdict. -/
theorem Reports.isTrace {r : Option (DualMatching α n m)} {ends : List (Fin m × α)}
    {events : List (Event α)} (h : Reports 0 n .empty r ends events) (hn : 0 < n) :
    IsTrace n (fun s => s.columns) (r.elim .infeasible .solved)
      (events ++ (r.elim .infeasible .solved : Verdict (DualMatching α n m)).report n) := by
  have hsinks : (ends.map (Prod.map Fin.val id)).map Prod.fst =
      (ends.map Prod.fst).map Fin.val := by
    rw [List.map_map, List.map_map]
    rfl
  have hnodup : ((ends.map (Prod.map Fin.val id)).map Prod.fst).Nodup := by
    rw [hsinks]
    exact h.nodup.map Fin.val_injective
  cases r with
  | none =>
    obtain ⟨hlength, hevents⟩ := h.infeasible rfl
    have htrace : IsTrace n (fun s : DualMatching α n m => s.columns) .infeasible _ :=
      .infeasible (by rwa [List.length_map]) hnodup
    rw [List.length_map, ← Nat.zero_add ends.length, ← hevents] at htrace
    change IsTrace n _ _ (events ++ [])
    rw [List.append_nil]
    exact htrace
  | some s =>
    obtain ⟨hlength, hcomplete, hrowOf, hevents⟩ := h.solved s rfl
    have hperm : ((ends.map (Prod.map Fin.val id)).map Prod.fst).Perm s.columns := by
      rw [hsinks]
      refine perm_columns hcomplete h.nodup fun j => ?_
      exact (hrowOf j).trans (and_iff_right (Matching.rowOf_empty j))
    have htrace : IsTrace n (fun s : DualMatching α n m => s.columns) (.solved s) _ :=
      .solved hn (by rwa [List.length_map]) hnodup hperm
    rw [← hevents] at htrace
    exact htrace

end trace

end Rectangular

variable {α : Type} [Cost α] [Cost.LawfulInfinity α] {n m : ℕ} {cost : CostMatrix α n m}

/-- A search that returns a column has ended there. -/
theorem PathSearch.exists_endsAt {u : Vector α n} {v : Vector α m} {held : Matching n m}
    {minimum : α} {root i : Fin n} {s t : PathSearch α n m} {trail : List (Fin m)}
    {sink : Sink α m} (hscan : IsScan held root (some i) trail s)
    (h : s.run cost u v held minimum i = .ok (t, some sink)) :
    ∃ trail, EndsAt held root trail sink.column t := by
  -- Induction on the number of columns that have not been scanned.
  induction hcount : s.unscanned.count using Nat.strong_induction_on
    generalizing s trail minimum i with
  | _ count ih =>
    cases hround : s.round cost u v held minimum i with
    | error e =>
      rw [run, hround] at h
      cases h
    | ok r =>
      obtain ⟨s', k, j, rfl, hk, hj, hcases⟩ := round_cases hround
      have hvisit : IsScan held root none trail (s.visit cost u v minimum i) := hscan.visit
      rcases hcases with ⟨-, rfl⟩ | ⟨hd, ⟨hfree, rfl⟩ | ⟨i', hi', rfl⟩⟩
      · rw [run, hround] at h
        cases h
      · rw [run, hround] at h
        obtain ⟨rfl, hsink⟩ := Prod.mk.inj (Except.ok.inj h)
        obtain rfl := Option.some.inj hsink
        exact ⟨trail, hvisit.endsAt hj hd hfree⟩
      · have hlt := count_lt_of_round hround
        rw [run, hround] at h
        exact ih _ (hcount ▸ hlt) (hvisit.scan hk hj hd hi') h rfl

namespace Rectangular

theorem Progress.exists_reports (rows : List (Fin n)) (start : ℕ) (p : Progress α n m)
    (hp : p.Consistent) (hrows : rows.map Fin.val = List.range' start rows.length)
    (hmatched : ∀ r, p.IsMatched r ↔ r ∉ rows) {r : Option (DualMatching α n m)}
    (h : (matchRows cost rows p).outcome = .ok r) :
    ∃ ends, Reports start rows.length p.toMatching r ends (matchRows cost rows p).events := by
  induction rows generalizing start p with
  | nil =>
    obtain rfl := Except.ok.inj h
    refine ⟨[], by simp, by simp, ?_, by simp⟩
    intro s hs
    obtain rfl := Option.some.inj hs
    exact ⟨rfl, ⟨hp, fun i => (hmatched i).mpr List.not_mem_nil⟩, fun j => by simp, rfl⟩
  | cons i rest ih =>
    have hi : ¬ p.IsMatched i := fun hm => (hmatched i).mp hm List.mem_cons_self
    rw [List.map_cons, List.length_cons, List.range'_succ, List.cons.injEq] at hrows
    obtain ⟨rfl, hrest⟩ := hrows
    unfold matchRows at h ⊢
    obtain ⟨⟨s, found⟩, hsearch, hnext⟩ := Run.exists_of_outcome_bind h
    rw [Run.events_bind hsearch]
    cases found with
    | none =>
      obtain rfl := Except.ok.inj hnext
      exact ⟨[], by simp, by simp, by simp, fun _ => ⟨by simp, rfl⟩⟩
    | some sink =>
      obtain ⟨trail, hends⟩ :=
        PathSearch.exists_endsAt (PathSearch.isScan_start p.toMatching i p.reachedBy) hsearch
      have hflip := Matching.flipped_augment hp hi hends.isTrail hends.free hends.reached
      have hnot : i ∉ rest := by
        intro hmem
        have hval := List.mem_map_of_mem (f := Fin.val) hmem
        rw [hrest, List.mem_range'_1] at hval
        omega
      have hfree : ∀ k : Fin m, (p.advance s i sink).rowOf[k] = none ↔
          k ≠ sink.column ∧ p.rowOf[k] = none := hflip.isFree
      obtain ⟨ends, hreports⟩ := ih (i + 1) (p.advance s i sink) hflip.consistent hrest
        (fun r => by
          refine (Matching.isMatched_of_flipped hflip hends.free r).trans ?_
          rw [hmatched, List.mem_cons, not_or]
          by_cases hr : r = i
          · simp [hr, hnot]
          · simp [hr]) hnext
      exact ⟨_, hreports.cons hends.free hfree sink.length⟩

theorem isTrace_solveChecked (hn : 0 < n) {verdict : Verdict (DualMatching α n m)}
    (h : (solveChecked cost).outcome = .ok verdict) :
    IsTrace n (fun s => s.columns) verdict
      ((solveChecked cost).events ++ verdict.report n) := by
  unfold solveChecked at h ⊢
  split at h
  next hinvalid =>
    rw [if_pos hinvalid]
    obtain rfl := Except.ok.inj h
    exact .invalid hn
  next hvalid =>
    rw [if_neg hvalid]
    obtain ⟨r, hr, hverdict⟩ := Run.exists_of_outcome_bind h
    rw [Run.events_bind hr]
    obtain ⟨ends, hreports⟩ := Progress.exists_reports (List.finRange n) 0 .initial
      Matching.consistent_empty (by simp [List.range_eq_range'])
      (fun r => iff_of_false (Matching.not_isMatched_empty r) (by simp)) hr
    rw [List.length_finRange] at hreports
    have htrace := hreports.isTrace hn
    cases r with
    | none =>
      obtain rfl := Except.ok.inj hverdict
      rw [List.append_assoc]
      exact htrace
    | some s =>
      obtain rfl := Except.ok.inj hverdict
      rw [List.append_assoc]
      exact htrace

theorem isTrace_solveNormal {N : NormalForm α n m} (hpos : 0 < min n m)
    {verdict : Verdict (Solution α n m)} (h : (solveNormal N).outcome = .ok verdict) :
    IsTrace (min n m) Solution.longSide verdict
      ((solveNormal N).events ++ verdict.report (min n m)) := by
  cases N with
  | upright wide cost =>
    rw [min_eq_left wide] at hpos ⊢
    obtain ⟨checked, hchecked, hverdict⟩ := Run.exists_of_outcome_bind h
    obtain rfl := Except.ok.inj hverdict
    have hevents : (solveNormal (.upright wide cost)).events = (solveChecked cost).events ++ [] :=
      Run.events_bind hchecked _
    rw [hevents, List.append_nil, Verdict.report_map]
    exact (isTrace_solveChecked hpos hchecked).map fun s => .of_eq (longSide_ofUpright wide s).symm
  | transposed tall cost =>
    rw [min_eq_right tall.le] at hpos ⊢
    obtain ⟨checked, hchecked, hverdict⟩ := Run.exists_of_outcome_bind h
    obtain rfl := Except.ok.inj hverdict
    have hevents : (solveNormal (.transposed tall cost)).events =
        (solveChecked cost).events ++ [] := Run.events_bind hchecked _
    rw [hevents, List.append_nil, Verdict.report_map]
    exact (isTrace_solveChecked hpos hchecked).map (longSide_ofTransposed tall)

theorem isTrace_solve {maximize : Bool} {verdict : Verdict (Solution α n m)}
    (h : (solve cost maximize).outcome = .ok verdict) :
    IsTrace (min n m) Solution.longSide verdict (solve cost maximize).events := by
  by_cases hmin : min n m = 0
  · rw [solve, if_pos hmin] at h ⊢
    obtain rfl := Except.ok.inj h
    exact .trivial hmin
  · rw [solve, if_neg hmin] at h ⊢
    obtain ⟨verdict', hverdict', hrest⟩ := Run.exists_of_outcome_bind h
    have htrace := isTrace_solveNormal (Nat.pos_of_ne_zero hmin) hverdict'
    rw [Run.events_bind hverdict']
    cases verdict' with
    | solved s =>
      obtain rfl := Except.ok.inj hrest
      exact htrace
    | infeasible =>
      obtain rfl := Except.ok.inj hrest
      exact htrace
    | invalid =>
      obtain rfl := Except.ok.inj hrest
      exact htrace

end Rectangular

end LinearAssignment
