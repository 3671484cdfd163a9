import LinearAssignment.Proofs.Binary.Order
import LinearAssignment.Proofs.Rectangular.Scan
import Mathlib.Data.Finset.Card
import Mathlib.Logic.Relation

/-! What a search from a row has on record in each of its rounds, in any arithmetic. The columns
listed as unscanned are those that have not been scanned, each of them once; the rows on record are
the root and the holders of the scanned columns; and the row through which a scanned column was
reached was written in this search, by a row that was visited before the column was scanned. -/
namespace LinearAssignment.PathSearch

variable {α : Type} [Cost α] {n m : ℕ}

/-- The row whose turn it is in a search, the length of the shortest way to it, and what the search
knows before the row is visited. -/
structure Turn (α : Type) (n m : ℕ) where
  minimum : α
  row : Fin n
  search : PathSearch α n m

namespace Turn

def first (root : Fin n) (reachedBy : Vector (Option (Fin n)) m) : Turn α n m :=
  ⟨0, root, start reachedBy⟩

section turns

variable (cost : CostMatrix α n m) (u : Vector α n) (v : Vector α m) (held : Matching n m)

def visited (t : Turn α n m) : PathSearch α n m := t.search.visit cost u v t.minimum t.row

def Passes (t t' : Turn α n m) : Prop :=
  t.search.round cost u v held t.minimum t.row = .ok (.passed t'.search t'.minimum t'.row)

abbrev LeadsTo : Turn α n m → Turn α n m → Prop := Relation.ReflTransGen (Passes cost u v held)

/-- Between two turns of a search there is one that records its row for a column: the way through
the row is shorter, and the row is visited while the column has not been scanned. -/
structure IsWriter (origin t : Turn α n m) (j : Fin m) (writer : Turn α n m) : Prop where
  after : LeadsTo cost u v held origin writer
  before : LeadsTo cost u v held writer t
  listed : writer.search.unscanned.Lists j
  shorter : way cost u v writer.minimum writer.row j < writer.search.distance[j]
  visited_row : (writer.visited cost u v).scannedRows[writer.row] = true
  unscanned : (writer.visited cost u v).scannedColumns[j] = false

structure Records (root : Fin n) (origin t : Turn α n m) (s : PathSearch α n m) : Prop where
  nodup : s.unscanned.columns.Nodup
  mem_columns : ∀ j : Fin m, j ∈ s.unscanned.columns ↔ s.scannedColumns[j] = false
  row : ∀ r : Fin n, s.scannedRows[r] = true ↔
    r = root ∨ ∃ j : Fin m, s.scannedColumns[j] = true ∧ held.rowOf[j] = some r
  written : ∀ j : Fin m, s.scannedColumns[j] = true →
    ∃ writer, IsWriter cost u v held origin t j writer ∧ s.reachedBy[j] = some writer.row

end turns

variable {cost : CostMatrix α n m} {u : Vector α n} {v : Vector α m} {held : Matching n m}
  {root i : Fin n} {origin t t' writer : Turn α n m} {s : PathSearch α n m} {trail : List (Fin m)}
  {pending : Option (Fin n)} {j k : Fin m}

theorem IsWriter.mono (h : IsWriter cost u v held origin t j writer)
    (ht : LeadsTo cost u v held t t') : IsWriter cost u v held origin t' j writer :=
  { h with before := h.before.trans ht }

theorem eq_of_getD_eq {ι : Type} {a : ι} {o o' : Option ι} (ho : o ≠ some a) (ho' : o' ≠ some a)
    (h : o.getD a = o'.getD a) : o = o' := by
  cases o <;> cases o' <;> simp_all

/-- A sink makes up for the root, so as many rows as columns have been scanned. -/
theorem Records.card_eq (h : Records cost u v held root origin t s)
    (hheld : ∀ ⦃j k : Fin m⦄ ⦃r : Fin n⦄, held.rowOf[j] = some r → held.rowOf[k] = some r → j = k)
    (hroot : ¬ held.IsMatched root) {sink : Fin m}
    (hsink : ∀ j : Fin m, s.scannedColumns[j] = true ∧ held.rowOf[j] = none ↔ j = sink) :
    (Finset.univ.filter fun r : Fin n => s.scannedRows[r] = true).card =
      (Finset.univ.filter fun j : Fin m => s.scannedColumns[j] = true).card := by
  symm
  refine Finset.card_nbij (fun j => held.rowOf[j].getD root) (fun j hj => ?maps)
    (fun j hj k hk he => ?injective) (fun r hr => ?surjective)
  case maps =>
    have hj : s.scannedColumns[j] = true := (Finset.mem_filter.mp hj).2
    refine Finset.mem_filter.mpr ⟨Finset.mem_univ _, (h.row _).mpr ?_⟩
    dsimp only
    cases hrow : held.rowOf[j] with
    | none => exact .inl rfl
    | some r => exact .inr ⟨j, hj, hrow⟩
  case injective =>
    have hj : s.scannedColumns[j] = true := (Finset.mem_filter.mp hj).2
    have hk : s.scannedColumns[k] = true := (Finset.mem_filter.mp hk).2
    have hne : ∀ l : Fin m, held.rowOf[l] ≠ some root := fun l hl => hroot ⟨l, hl⟩
    have hrows : held.rowOf[j] = held.rowOf[k] := eq_of_getD_eq (hne j) (hne k) he
    cases hrow : held.rowOf[j] with
    | none => exact ((hsink j).mp ⟨hj, hrow⟩).trans ((hsink k).mp ⟨hk, hrows ▸ hrow⟩).symm
    | some r => exact hheld hrow (hrows ▸ hrow)
  case surjective =>
    have hr : s.scannedRows[r] = true := (Finset.mem_filter.mp hr).2
    rcases (h.row r).mp hr with rfl | ⟨j, hj, hrow⟩
    · obtain ⟨hscanned, hfree⟩ := (hsink sink).mpr rfl
      exact ⟨sink, Finset.mem_filter.mpr ⟨Finset.mem_univ _, hscanned⟩, by simp [hfree]⟩
    · exact ⟨j, Finset.mem_filter.mpr ⟨Finset.mem_univ _, hj⟩, by simp [hrow]⟩

/-- A scan of which every distance was found in it: no distance is NaN, those on the trail are not
infinite, and for each that is not infinite some turn has recorded its row. -/
structure IsTraced (cost : CostMatrix α n m) (u : Vector α n) (v : Vector α m)
    (held : Matching n m) (root : Fin n) (origin t : Turn α n m) (pending : Option (Fin n))
    (trail : List (Fin m)) (s : PathSearch α n m) : Prop
    extends IsScan held root pending trail s where
  number : ∀ j : Fin m, Cost.isNaN s.distance[j] = false
  near : ∀ j ∈ trail, s.distance[j] ≠ Cost.infinity
  label : ∀ j : Fin m, s.distance[j] ≠ Cost.infinity →
    ∃ writer, IsWriter cost u v held origin t j writer ∧ s.reachedBy[j] = some writer.row

namespace IsTraced

theorem mono (h : IsTraced cost u v held root origin t pending trail s)
    (ht : LeadsTo cost u v held t t') : IsTraced cost u v held root origin t' pending trail s :=
  { h with
    label := fun j hj => (h.label j hj).imp fun _ hw => ⟨hw.1.mono ht, hw.2⟩ }

theorem row_iff (h : IsTraced cost u v held root origin t none trail s) (r : Fin n) :
    s.scannedRows[r] = true ↔ r = root ∨ ∃ l ∈ trail, held.rowOf[l] = some r := by
  simpa [Matching.OnTrail] using h.row r

/-- What is on record when a row has been visited. -/
theorem records (h : IsTraced cost u v held root origin t none trail s) :
    Records cost u v held root origin t s where
  nodup := h.distinct.nodup_columns
  mem_columns l := by
    rw [Unscanned.mem_columns, h.lists_iff, ← h.column, Bool.not_eq_true]
  row r := by
    simp only [h.column]
    exact h.row_iff r
  written l hl := h.label l (h.near l ((h.column l).mp hl))

/-- As long as no free column has been scanned, every scanned column has passed the search on. -/
theorem held_of_scanned (h : IsTraced cost u v held root origin t none trail s) {l : Fin m}
    (hl : s.scannedColumns[l] = true) : held.rowOf[l] ≠ none := fun hnone =>
  h.isTrail.not_mem_of_free hnone ((h.column l).mp hl)

theorem free_scan_iff (h : IsTraced cost u v held root origin t none trail s)
    (hj : j = s.unscanned.order[k]) (hfree : held.rowOf[j] = none) (l : Fin m) :
    (s.scan k).scannedColumns[l] = true ∧ held.rowOf[l] = none ↔ j = l := by
  rw [h.column_scan hj l]
  constructor
  · rintro ⟨rfl | hl, hnone⟩
    · rfl
    · exact absurd hl (h.isTrail.not_mem_of_free hnone)
  · rintro rfl
    exact ⟨.inl rfl, hfree⟩

variable [Cost.Ordered α]

theorem start (cost : CostMatrix α n m) (u : Vector α n) (v : Vector α m) (held : Matching n m)
    (root : Fin n) (reachedBy : Vector (Option (Fin n)) m) :
    IsTraced cost u v held root (first root reachedBy) (first root reachedBy) (some root) []
      (first root reachedBy).search where
  toIsScan := isScan_start held root reachedBy
  number j := by
    rw [first, PathSearch.start, getElem_replicate_fin]
    exact Cost.Ordered.isNaN_infinity
  near := by simp
  label j hj := absurd (getElem_replicate_fin _ j) hj

theorem visit (h : IsTraced cost u v held root origin t (some t.row) trail t.search)
    (ht : LeadsTo cost u v held origin t) :
    IsTraced cost u v held root origin t none trail (t.visited cost u v) where
  toIsScan := h.toIsScan.visit
  number := isNaN_distance_visit cost u v t.minimum t.row h.number
  near j hj := by
    rw [visited, distance_visit, if_neg fun hw => (h.lists_iff j).mp hw.1 hj]
    exact h.near j hj
  label j hj := by
    by_cases hw : t.search.unscanned.Lists j ∧
        way cost u v t.minimum t.row j < t.search.distance[j]
    · refine ⟨t, ⟨ht, .refl, hw.1, hw.2, ?_, ?_⟩, (reachedBy_visit j).trans (if_pos hw)⟩
      · rw [visited, scannedRows_visit, if_pos rfl]
      · rw [visited, scannedColumns_visit, Bool.eq_false_iff, ne_eq, h.column]
        exact (h.lists_iff j).mp hw.1
    · rw [visited, distance_visit, if_neg hw] at hj
      obtain ⟨writer, hwriter, hreached⟩ := h.label j hj
      exact ⟨writer, hwriter, (reachedBy_visit j).trans ((if_neg hw).trans hreached)⟩

theorem near_cons (h : IsTraced cost u v held root origin t none trail s)
    (hd : (s.distance[j] == Cost.infinity) = false) :
    ∀ l ∈ j :: trail, s.distance[l] ≠ Cost.infinity :=
  have : Cost.LawfulInfinity α := Cost.Ordered.lawfulInfinity
  List.forall_mem_cons.mpr ⟨Cost.ne_infinity hd, h.near⟩

/-- A column that is held leaves the list, and no distance changes. -/
theorem scan (h : IsTraced cost u v held root origin t none trail s)
    (hk : s.nearest held.isFree = .ok k) (hj : j = s.unscanned.order[k])
    (hd : (s.distance[j] == Cost.infinity) = false) (hi : held.rowOf[j] = some i) :
    IsTraced cost u v held root origin t (some i) (j :: trail) (s.scan k) :=
  haveI : Cost.LawfulInfinity α := Cost.Ordered.lawfulInfinity
  { toIsScan := h.toIsScan.scan hk hj hd hi
    number := h.number
    near := h.near_cons hd
    label := h.label }

theorem records_scan (h : IsTraced cost u v held root origin t none trail s)
    (hk : s.nearest held.isFree = .ok k) (hj : j = s.unscanned.order[k])
    (hd : (s.distance[j] == Cost.infinity) = false) (hfree : held.rowOf[j] = none) :
    Records cost u v held root origin t (s.scan k) where
  nodup := (h.distinct.remove k).nodup_columns
  mem_columns l := by
    rw [Unscanned.mem_columns, h.lists_scan hk hj, ← Bool.not_eq_true, h.column_scan hj,
      List.mem_cons]
  row r := by
    simp only [h.column_scan hj]
    refine (h.row_iff r).trans (or_congr_right (exists_congr fun l => and_congr_left fun hl => ?_))
    exact (or_iff_right fun he => by rw [he, hfree] at hl; exact nomatch hl).symm
  written l hl :=
    h.label l (h.near_cons hd l (List.mem_cons.mpr ((h.column_scan hj l).mp hl)))

/-- A round comes to something, since a column that is free is still listed. -/
theorem exists_round (h : IsTraced cost u v held root origin t none trail (t.visited cost u v))
    (hfree : held.rowOf[j] = none) :
    ∃ r, t.search.round cost u v held t.minimum t.row = .ok r := by
  obtain ⟨κ, _, key, -, hkeyed⟩ := Cost.Ordered.exists_isKeyed h.number
  have hlists : (t.visited cost u v).unscanned.Lists j :=
    (h.lists_iff j).mpr (h.isTrail.not_mem_of_free hfree)
  obtain ⟨k, hk⟩ := exists_nearest hkeyed held.isFree hlists
  exact exists_round_of_nearest t.minimum t.row hk

end IsTraced

variable [Cost.Ordered α] {reachedBy : Vector (Option (Fin n)) m}

/-- In every round of a search all distances were found in it. -/
theorem LeadsTo.exists_isTraced (h : LeadsTo cost u v held (first root reachedBy) t) :
    ∃ trail, IsTraced cost u v held root (first root reachedBy) t (some t.row) trail t.search := by
  induction h with
  | refl => exact ⟨[], .start cost u v held root reachedBy⟩
  | tail ht hpasses ih =>
    obtain ⟨trail, htrail⟩ := ih
    obtain ⟨_, k, j, rfl, hk, hj, ⟨-, hr⟩ | ⟨hd, ⟨-, hr⟩ | ⟨i, hi, hr⟩⟩⟩ := round_cases hpasses
    · exact nomatch hr
    · exact nomatch hr
    · obtain ⟨hsearch, -, hrow⟩ := Round.passed.inj hr
      rw [hsearch, hrow]
      exact ⟨j :: trail, ((htrail.visit ht).scan hk hj hd hi).mono (.single hpasses)⟩

theorem IsTraced.exists_run (hfree : held.rowOf[j] = none)
    (h : IsTraced cost u v held root origin t (some t.row) trail t.search)
    (ht : LeadsTo cost u v held origin t) :
    ∃ t' s found, LeadsTo cost u v held origin t' ∧
      t.search.run cost u v held t.minimum t.row = .ok (s, found) ∧
      Records cost u v held root origin t' s ∧
      ∀ l : Fin m, s.scannedColumns[l] = true ∧ held.rowOf[l] = none ↔
        found.map Sink.column = some l := by
  -- Induction on the number of columns that have not been scanned.
  induction hcount : t.search.unscanned.count using Nat.strong_induction_on
    generalizing t trail with
  | _ count ih =>
    have hvisit := h.visit ht
    obtain ⟨r, hr⟩ := hvisit.exists_round hfree
    obtain ⟨_, k, l, rfl, hk, hl, ⟨-, rfl⟩ | ⟨hd, ⟨hsink, rfl⟩ | ⟨i, hi, rfl⟩⟩⟩ := round_cases hr
    · have hrun : t.search.run cost u v held t.minimum t.row = .ok (t.visited cost u v, none) := by
        rw [run, hr]
        rfl
      refine ⟨t, _, none, ht, hrun, hvisit.records, fun l' => iff_of_false ?_ nofun⟩
      exact fun hl' => hvisit.held_of_scanned hl'.1 hl'.2
    · have hrun : t.search.run cost u v held t.minimum t.row =
          .ok ((t.visited cost u v).scan k, some ⟨l, (t.visited cost u v).distance[l]⟩) := by
        rw [run, hr]
        rfl
      refine ⟨t, _, _, ht, hrun, hvisit.records_scan hk hl hd hsink, fun l' => ?_⟩
      rw [hvisit.free_scan_iff hl hsink l', Option.map_some, Option.some.injEq]
    · have hpasses : Passes cost u v held t
          ⟨_, i, (t.visited cost u v).scan k⟩ := hr
      obtain ⟨t', s, found, ht', hrun, hend⟩ := ih _ (hcount ▸ count_lt_of_round hr)
        ((hvisit.scan hk hl hd hi).mono (.single hpasses)) (ht.tail hpasses) rfl
      exact ⟨t', s, found, ht', by rw [run, hr]; exact hrun, hend⟩

end Turn

open Turn in
/-- In any arithmetic and whatever the entries and potentials, let a search start from a row that
holds no column, while the columns that are held have different rows and some column is free. In
every round the unscanned columns are listed once each, the rows on record are the root and the
holders of the scanned columns, and the row through which a scanned column was reached was recorded
in this search by a row that had been visited before. The search comes to an end with such records.
If it finds a sink, that is the only free column that it has scanned, so that there are as many
scanned rows as scanned columns; and if it finds none it has scanned no free column. -/
theorem exists_run_records [Cost.Ordered α] (cost : CostMatrix α n m) (u : Vector α n)
    (v : Vector α m) (held : Matching n m)
    (hheld : ∀ ⦃j k : Fin m⦄ ⦃r : Fin n⦄, held.rowOf[j] = some r → held.rowOf[k] = some r → j = k)
    (hfree : ∃ j : Fin m, held.rowOf[j] = none) (root : Fin n) (hroot : ¬ held.IsMatched root)
    (reachedBy : Vector (Option (Fin n)) m) :
    (∀ t, LeadsTo cost u v held (first root reachedBy) t →
      Records cost u v held root (first root reachedBy) t (t.visited cost u v)) ∧
    ∃ t s found, LeadsTo cost u v held (first root reachedBy) t ∧
      run cost u v held 0 root (start reachedBy) = .ok (s, found) ∧
      Records cost u v held root (first root reachedBy) t s ∧
      (∀ sink, found = some sink →
        (∀ j : Fin m, s.scannedColumns[j] = true ∧ held.rowOf[j] = none ↔ j = sink.column) ∧
        (Finset.univ.filter fun r : Fin n => s.scannedRows[r] = true).card =
          (Finset.univ.filter fun j : Fin m => s.scannedColumns[j] = true).card) ∧
      (found = none → ∀ j : Fin m, s.scannedColumns[j] = true → held.rowOf[j] ≠ none) := by
  refine ⟨fun t ht => ?_, ?_⟩
  · obtain ⟨trail, htrail⟩ := ht.exists_isTraced
    exact (htrail.visit ht).records
  · obtain ⟨j, hj⟩ := hfree
    obtain ⟨t, s, found, ht, hrun, hrecords, hfound⟩ :=
      (IsTraced.start cost u v held root reachedBy).exists_run hj .refl
    refine ⟨t, s, found, ht, hrun, hrecords, ?_, ?_⟩
    · rintro sink rfl
      have hsink : ∀ l : Fin m, s.scannedColumns[l] = true ∧ held.rowOf[l] = none ↔
          l = sink.column := fun l => (hfound l).trans (Option.some_inj.trans eq_comm)
      exact ⟨hsink, hrecords.card_eq hheld hroot hsink⟩
    · rintro rfl l hl hnone
      exact nomatch (hfound l).mp ⟨hl, hnone⟩

def detour : Matching 2 3 := Matching.empty.pair (.last 1) (.last 2)

def detourCost : CostMatrix (Binary .double) 2 3 :=
  #v[#v[.nan, Cost.infinity, .ofInt 1], #v[Cost.infinity, .ofInt 5, .ofInt 2]]

/-- A search from the first row, when an earlier one has left a row for the second column, in which
it ends. -/
theorem exists_run_detour_records :
    (∀ ⦃j k : Fin 3⦄ ⦃r : Fin 2⦄,
      detour.rowOf[j] = some r → detour.rowOf[k] = some r → j = k) ∧
    (∃ j : Fin 3, detour.rowOf[j] = none) ∧ ¬ detour.IsMatched 0 ∧
    ∃ s length, run detourCost (.replicate 2 0) (.replicate 3 0) detour 0 0
        (start #v[none, some 0, none]) = .ok (s, some ⟨1, length⟩) ∧
      (∀ j : Fin 3, s.scannedColumns[j] = true ∧ detour.rowOf[j] = none ↔ j = 1) ∧
      (Finset.univ.filter fun r : Fin 2 => s.scannedRows[r] = true).card =
        (Finset.univ.filter fun j : Fin 3 => s.scannedColumns[j] = true).card := by
  have hheld : ∀ ⦃j k : Fin 3⦄ ⦃r : Fin 2⦄,
      detour.rowOf[j] = some r → detour.rowOf[k] = some r → j = k := by decide
  have hfree : ∃ j : Fin 3, detour.rowOf[j] = none := ⟨1, rfl⟩
  have hroot : ¬ detour.IsMatched 0 := by
    rintro ⟨j, hj⟩
    revert j
    decide
  obtain ⟨-, t, s, found, -, hrun, -, hfound, -⟩ := exists_run_records detourCost
    (.replicate 2 0) (.replicate 3 0) detour hheld hfree 0 hroot #v[none, some 0, none]
  have hcolumn : (run detourCost (.replicate 2 0) (.replicate 3 0) detour 0 0
      (start #v[none, some 0, none])).toOption.bind (·.2.map Sink.column) = some 1 := by
    decide +kernel
  rw [hrun] at hcolumn
  obtain ⟨⟨column, length⟩, rfl, rfl⟩ := Option.map_eq_some_iff.mp hcolumn
  exact ⟨hheld, hfree, hroot, s, length, hrun, hfound _ rfl⟩

end LinearAssignment.PathSearch
