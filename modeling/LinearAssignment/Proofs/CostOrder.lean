import LinearAssignment.Proofs.ExactCost

/-! Costs that compare as the keys of a linear order do. The solvers only ever compare costs, so
what they choose is determined by the keys. -/
namespace LinearAssignment.Cost

variable {α ι κ : Type} [Cost α] [LinearOrder κ] {value : ι → α} {key : ι → κ}

/-- The costs compare as their keys, and none of them is NaN. -/
structure IsKeyed (value : ι → α) (key : ι → κ) : Prop where
  isNaN : ∀ i, Cost.isNaN (value i) = false
  lt_iff : ∀ i j, value i < value j ↔ key i < key j
  beq_iff : ∀ i j, (value i == value j) = true ↔ key i = key j

namespace IsKeyed

theorem comp {ι' : Type} (h : IsKeyed value key) (g : ι' → ι) :
    IsKeyed (fun i => value (g i)) fun i => key (g i) :=
  ⟨fun i => h.isNaN (g i), fun i j => h.lt_iff (g i) (g j), fun i j => h.beq_iff (g i) (g j)⟩

theorem displaces_iff (h : IsKeyed value key) (i j : ι) :
    displaces (value i) (value j) = true ↔ key i < key j := by
  simp [displaces, h.isNaN, h.lt_iff]

theorem atMost_iff (h : IsKeyed value key) (i j : ι) :
    atMost (value i) (value j) = true ↔ key i ≤ key j := by
  simp [atMost, h.lt_iff, h.beq_iff, le_iff_lt_or_eq]

end IsKeyed

theorem isKeyed_ofTop {bound : ℚ} {bids : ℕ} {value : ι → Exact bound bids} {d : ι → WithTop ℚ}
    (h : ∀ i, value i = .ofTop (d i)) : IsKeyed value d where
  isNaN i := by rw [h, Exact.isNaN_ofTop]
  lt_iff i j := by rw [h, h, Exact.ofTop_lt]
  beq_iff i j := by rw [h, h, Exact.ofTop_beq, decide_eq_true_iff]

/-- What the solvers rely on in any arithmetic, whatever it rounds: costs other than NaN compare as
the keys of a linear order, in which infinity is at the top; NaN compares with nothing; and what is
left of a valid entry when a price that is not positive is taken off is not NaN. -/
class Ordered (α : Type) [Cost α] : Prop where
  exists_key : ∃ (κ : Type) (_ : LinearOrder κ) (key : α → κ), (∀ x, key x ≤ key infinity) ∧
    IsKeyed (fun x : { x : α // isNaN x = false } => x.val) fun x => key x.val
  isNaN_infinity : isNaN (infinity : α) = false
  isNaN_of_atMost : ∀ {x y : α}, atMost x y = true → isNaN x = false ∧ isNaN y = false
  isNaN_sub : ∀ {x y : α}, isInvalid x = false → atMost y 0 = true → isNaN (x - y) = false

namespace Ordered

variable [Ordered α] {x y z : α}

theorem exists_isKeyed {value : ι → α} (h : ∀ i, isNaN (value i) = false) :
    ∃ (κ : Type) (_ : LinearOrder κ) (key : α → κ), (∀ x, key x ≤ key infinity) ∧
      IsKeyed value fun i => key (value i) := by
  obtain ⟨κ, order, key, htop, hkeyed⟩ := exists_key (α := α)
  exact ⟨κ, order, key, htop, hkeyed.comp fun i => ⟨value i, h i⟩⟩

theorem atMost_refl (hx : isNaN x = false) : atMost x x = true := by
  obtain ⟨κ, _, key, -, hkeyed⟩ := exists_key (α := α)
  exact (hkeyed.atMost_iff ⟨x, hx⟩ ⟨x, hx⟩).mpr le_rfl

theorem atMost_trans (hxy : atMost x y = true) (hyz : atMost y z = true) :
    atMost x z = true := by
  obtain ⟨κ, _, key, -, hkeyed⟩ := exists_key (α := α)
  obtain ⟨hx, hy⟩ := isNaN_of_atMost hxy
  obtain ⟨-, hz⟩ := isNaN_of_atMost hyz
  have hle := (hkeyed.atMost_iff ⟨x, hx⟩ ⟨y, hy⟩).mp hxy
  have hle' := (hkeyed.atMost_iff ⟨y, hy⟩ ⟨z, hz⟩).mp hyz
  exact (hkeyed.atMost_iff ⟨x, hx⟩ ⟨z, hz⟩).mpr (hle.trans hle')

end Ordered

theorem atMost_of_lt {x y : α} (h : x < y) : atMost x y = true := by
  simp [atMost, h]

def exactKey {bound : ℚ} {bids : ℕ} : Exact bound bids → WithBot (WithTop ℚ)
  | .number q => ((q : WithTop ℚ) : WithBot (WithTop ℚ))
  | .infinite false => ((⊤ : WithTop ℚ) : WithBot (WithTop ℚ))
  | _ => ⊥

instance {bound : ℚ} {bids : ℕ} : Ordered (Exact bound bids) where
  exists_key := by
    refine ⟨_, inferInstance, exactKey, fun x => le_top, fun x => x.2, ?lt, ?beq⟩
    case lt =>
      rintro ⟨x, hx⟩ ⟨y, hy⟩
      change Exact.below x y = true ↔ exactKey x < exactKey y
      rcases x with _ | (_ | _) | q <;> rcases y with _ | (_ | _) | r <;>
        simp_all [Exact.below, exactKey, isNaN, Exact.isNaN, -WithBot.coe_top]
    case beq =>
      rintro ⟨x, hx⟩ ⟨y, hy⟩
      change Exact.same x y = true ↔ exactKey x = exactKey y
      rcases x with _ | (_ | _) | q <;> rcases y with _ | (_ | _) | r <;>
        simp_all [Exact.same, exactKey, isNaN, Exact.isNaN]
  isNaN_infinity := rfl
  isNaN_of_atMost {x y} h := by
    change (decide (Exact.below x y = true) || Exact.same x y) = true at h
    cases x <;> cases y <;> simp_all [Exact.below, Exact.same, isNaN, Exact.isNaN]
  isNaN_sub {x y} hx hy := by
    have hx' := Exact.isInvalid_iff.not.mp (by simpa using hx)
    change (decide (Exact.below y (.number 0) = true) || Exact.same y (.number 0)) = true at hy
    change Exact.isNaN (Exact.add x (Exact.neg y)) = false
    rcases x with _ | (_ | _) | q <;> rcases y with _ | (_ | _) | r <;>
      simp_all [Exact.below, Exact.same, Exact.isNaN, Exact.add, Exact.neg]

class LawfulInfinity (α : Type) [Cost α] : Prop where
  infinity_beq : ((infinity : α) == infinity) = true

instance {bound : ℚ} {bids : ℕ} : LawfulInfinity (Exact bound bids) := ⟨rfl⟩

theorem Ordered.lawfulInfinity [Ordered α] : LawfulInfinity α := by
  obtain ⟨κ, _, key, -, hkeyed⟩ := Ordered.exists_key (α := α)
  exact ⟨(hkeyed.beq_iff ⟨_, Ordered.isNaN_infinity⟩ ⟨_, Ordered.isNaN_infinity⟩).mpr rfl⟩

theorem ne_infinity [LawfulInfinity α] {x : α} (h : (x == infinity) = false) : x ≠ infinity := by
  rintro rfl
  rw [LawfulInfinity.infinity_beq] at h
  exact Bool.false_ne_true h.symm

def better (value : ι → α) (best i : ι) : ι :=
  if displaces (value i) (value best) then i else best

theorem firstMinimum?_cons (i : ι) (rest : List ι) :
    firstMinimum? value (i :: rest) = some (rest.foldl (better value) i) := rfl

theorem exists_firstMinimum? (value : ι → α) {l : List ι} (h : l ≠ []) :
    ∃ i, firstMinimum? value l = some i := by
  cases l with
  | nil => exact absurd rfl h
  | cons i rest => exact ⟨_, firstMinimum?_cons i rest⟩

theorem IsKeyed.foldl_better (h : IsKeyed value key) (l : List ι) (best : ι) :
    l.foldl (better value) best ∈ best :: l ∧
      ∀ i ∈ best :: l, key (l.foldl (better value) best) ≤ key i := by
  induction l generalizing best with
  | nil => simp
  | cons j l ih =>
    obtain ⟨hmem, hle⟩ := ih (better value best j)
    have hbetter : key (better value best j) ≤ key best ∧ key (better value best j) ≤ key j := by
      unfold better
      split
      next hd => exact ⟨((h.displaces_iff _ _).mp hd).le, le_rfl⟩
      next hd => exact ⟨le_rfl, not_lt.mp fun hlt => hd ((h.displaces_iff _ _).mpr hlt)⟩
    have heq : better value best j = best ∨ better value best j = j := by
      unfold better
      split <;> simp
    have hhead := hle _ List.mem_cons_self
    rw [List.foldl_cons]
    refine ⟨?_, fun i hi => ?_⟩
    · rcases List.mem_cons.mp hmem with he | hmem
      · rw [he]
        rcases heq with he | he <;> simp [he]
      · exact List.mem_cons_of_mem _ (List.mem_cons_of_mem _ hmem)
    · rcases List.mem_cons.mp hi with rfl | hi
      · exact hhead.trans hbetter.1
      · rcases List.mem_cons.mp hi with rfl | hi
        · exact hhead.trans hbetter.2
        · exact hle i (List.mem_cons_of_mem _ hi)

theorem IsKeyed.firstMinimum? (h : IsKeyed value key) {l : List ι} {i : ι}
    (hi : firstMinimum? value l = some i) : i ∈ l ∧ ∀ j ∈ l, key i ≤ key j := by
  cases l with
  | nil => simp [Cost.firstMinimum?] at hi
  | cons j rest =>
    rw [firstMinimum?_cons, Option.some.injEq] at hi
    subst hi
    exact h.foldl_better rest j

end LinearAssignment.Cost
