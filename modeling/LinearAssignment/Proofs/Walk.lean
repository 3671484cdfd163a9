import LinearAssignment.Proofs.Alternation

/-! The walk that flips an alternating path, without any bound on its steps. Flipping the path back
from a free column is such a walk: it comes to the root, and to no row twice. -/
namespace LinearAssignment.Matching

variable {n m : ℕ} {reachedBy : Fin m → Option (Fin n)} {root : Fin n}

/-- The walk back from column `j`: the row that reached a column takes it and gives up its former
one, which is the next column, until the root has taken one. The entries that the walk follows are
listed, each a column and the row that reached it. -/
inductive Walk (reachedBy : Fin m → Option (Fin n)) (root : Fin n) :
    Matching n m → Fin m → List (Fin m × Fin n) → Matching n m → Prop
  | last {s j} (entry : reachedBy j = some root) :
      Walk reachedBy root s j [(j, root)] (s.pair root j)
  | step {s t j i k es} (entry : reachedBy j = some i) (inner : i ≠ root)
      (former : s.columnOf[i] = some k) (rest : Walk reachedBy root (s.pair i j) k es t) :
      Walk reachedBy root s j ((j, i) :: es) t

variable {s t : Matching n m} {trail : List (Fin m)} {j : Fin m}

theorem Walk.entry {es : List (Fin m × Fin n)} (h : Walk reachedBy root s j es t) :
    ∀ e ∈ es, reachedBy e.1 = some e.2 := by
  induction h with
  | last entry => exact List.forall_mem_singleton.mpr entry
  | step entry _ _ _ ih => exact List.forall_mem_cons.mpr ⟨entry, ih⟩

theorem Walk.unique {es es' : List (Fin m × Fin n)} {t' : Matching n m}
    (h : Walk reachedBy root s j es t) (h' : Walk reachedBy root s j es' t') :
    es = es' ∧ t = t' := by
  induction h generalizing es' with
  | last entry =>
    cases h' with
    | last _ => exact ⟨rfl, rfl⟩
    | step entry' inner _ _ => exact absurd (Option.some.inj (entry'.symm.trans entry)) inner
  | step entry inner former _ ih =>
    cases h' with
    | last entry' => exact absurd (Option.some.inj (entry.symm.trans entry')) inner
    | step entry' _ former' rest' =>
      obtain rfl := Option.some.inj (entry.symm.trans entry')
      obtain rfl := Option.some.inj (former.symm.trans former')
      obtain ⟨rfl, rfl⟩ := ih rest'
      exact ⟨rfl, rfl⟩

/-- A row on the trail before column `k` is not the row that has held `k` and then taken `j`. -/
theorem LeadsBack.not_onTrail_before {i : Fin n} {k : Fin m} {before : List (Fin m)}
    (h : (s.pair i j).LeadsBack reachedBy root before k) (hi : i ≠ root)
    (hci : s.columnOf[i] = some k) (hkj : k ≠ j)
    (hs : ∀ l : Fin m, l ≠ j → s.rowOf[l] = some i → s.columnOf[i] = some l)
    (hj : j ∉ before) : ¬ (s.pair i j).OnTrail root before i := by
  rintro (he | ⟨l, hl, hli⟩)
  · exact hi he
  · have hlj : l ≠ j := fun he => hj (he ▸ hl)
    rw [rowOf_pair, if_neg hlj] at hli
    obtain rfl := Option.some.inj ((hs l hlj hli).symm.trans hci)
    exact h.not_mem hl

theorem LeadsBack.exists_walk (steps : ℕ) (s : Matching n m) (trail : List (Fin m)) (j : Fin m)
    (hlen : trail.length < steps) (h : s.LeadsBack reachedBy root trail j) :
    ∃ es, Walk reachedBy root s j es (s.flip reachedBy root steps j) ∧ (es.map Prod.snd).Nodup ∧
      ∀ e ∈ es, (e.1 = j ∨ e.1 ∈ trail) ∧ s.OnTrail root trail e.2 := by
  -- Induction on the number of steps, which exceeds the length of the trail that is left. A row
  -- that the walk comes to is on the trail before the column from which it comes.
  induction steps generalizing s trail j with
  | zero => omega
  | succ steps ih =>
    obtain ⟨i, hij, ho⟩ := h.reached
    by_cases hi : i = root
    · subst hi
      simp only [flip, hij, ↓reduceIte]
      exact ⟨_, .last hij, List.nodup_singleton _,
        List.forall_mem_singleton.mpr ⟨.inl rfl, ho⟩⟩
    · obtain ⟨k, before, hki, hci, hk, hlt, hsub, hback⟩ := h.step hij hi
      have hkj : k ≠ j := fun he => h.not_mem (he ▸ hk)
      have hjb : j ∉ before := fun hj => h.not_mem (hsub hj)
      obtain ⟨es, hwalk, hnodup, hes⟩ := ih (s.pair i j) before k (by omega) hback
      simp only [flip, hij, if_neg hi, hci]
      refine ⟨(j, i) :: es, .step hij hi hci hwalk, ?_, ?_⟩
      · -- Row `i` has given up `k`, and the walk goes on over columns scanned before `k`.
        refine List.nodup_cons.mpr ⟨fun hmem => ?_, hnodup⟩
        obtain ⟨e, he, (hei : e.2 = i)⟩ := List.mem_map.mp hmem
        exact hback.not_onTrail_before hi hci hkj (fun l => h.columnOf l i) hjb
          (hei ▸ (hes e he).2)
      · refine List.forall_mem_cons.mpr ⟨⟨.inl rfl, ho⟩, fun e he => ?_⟩
        obtain ⟨hcolumn, hrow⟩ := hes e he
        refine ⟨.inr (hcolumn.elim (fun he => he ▸ hk) fun he => hsub he), ?_⟩
        rcases hrow with he | ⟨l, hl, hle⟩
        · exact .inl he
        · rw [rowOf_pair, if_neg fun he : l = j => hjb (he ▸ hl)] at hle
          exact .inr ⟨l, hsub hl, hle⟩

/-- Augmenting walks from the free column back to the root, over columns that have been scanned, and
comes to each row at most once. -/
theorem exists_walk (hs : s.Consistent) (hroot : ¬ s.IsMatched root)
    (htrail : s.Trail reachedBy root trail) (hj : s.rowOf[j] = none)
    (hreach : s.ReachedFrom reachedBy root trail j) :
    ∃ es, Walk reachedBy root s j es (s.augment reachedBy root j) ∧ (es.map Prod.snd).Nodup ∧
      ∀ e ∈ es, e.1 = j ∨ e.1 ∈ trail := by
  obtain ⟨es, hwalk, hnodup, hes⟩ := LeadsBack.exists_walk n s trail j
    (htrail.length_lt hs hroot) (leadsBack hs hroot htrail hj hreach)
  exact ⟨es, hwalk, hnodup, fun e he => (hes e he).1⟩

end LinearAssignment.Matching
