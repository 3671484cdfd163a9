import LinearAssignment.Certificate
import LinearAssignment.Proofs.Assignment
import Mathlib.Data.List.Forall2

/-! Sums of two lists of costs that are related entry by entry. Both are added up in the same order,
so the sums are related as well if each addition keeps the relation. -/
namespace LinearAssignment

namespace Cost

variable {α β : Type} [Cost α] [Cost β] {R : α → β → Prop} {xs : List α} {ys : List β}

structure IsAdditive (R : α → β → Prop) : Prop where
  zero : R 0 0
  negZero : R (-0) (-0)
  add {x x' : α} {y y' : β} : R x y → R x' y' → R (x + x') (y + y')

namespace IsAdditive

theorem foldl (h : IsAdditive R) (hxs : List.Forall₂ R xs ys) {x : α} {y : β} (hx : R x y) :
    R (xs.foldl (· + ·) x) (ys.foldl (· + ·) y) := by
  induction hxs generalizing x y with
  | nil => exact hx
  | cons hhead _ ih => exact ih (h.add hx hhead)

theorem zipWith {xs' : List α} {ys' : List β} (h : IsAdditive R) (hxs : List.Forall₂ R xs ys)
    (hxs' : List.Forall₂ R xs' ys') :
    List.Forall₂ R (List.zipWith (· + ·) xs xs') (List.zipWith (· + ·) ys ys') := by
  induction hxs generalizing xs' ys' with
  | nil => exact .nil
  | cons hhead _ ih =>
    cases hxs' with
    | nil => exact .nil
    | cons hhead' htail' => exact .cons (h.add hhead hhead') (ih htail')

theorem combineEight (h : IsAdditive R) (hxs : List.Forall₂ R xs ys) :
    R (combineEight xs) (combineEight ys) := by
  by_cases hlength : xs.length = 8
  · match hxs, hlength with
    | .cons ha (.cons hb (.cons hc (.cons hd (.cons he (.cons hf (.cons hg (.cons hh .nil))))))),
      _ =>
      exact h.add (h.add (h.add ha hb) (h.add hc hd)) (h.add (h.add he hf) (h.add hg hh))
  · have hlength' : ys.length ≠ 8 := hxs.length_eq ▸ hlength
    have hother : ∀ {γ : Type} [Cost γ] {zs : List γ}, zs.length ≠ 8 →
        Cost.combineEight zs = zs.foldl (· + ·) (-0) := fun hzs => by
      unfold Cost.combineEight
      split
      next => exact absurd rfl hzs
      next => rfl
    rw [hother hlength, hother hlength']
    exact h.foldl hxs h.negZero

theorem sumByEight {sums : List α} {sums' : List β} (h : IsAdditive R)
    (hsums : List.Forall₂ R sums sums') (hxs : List.Forall₂ R xs ys) :
    R (sumByEight sums xs) (sumByEight sums' ys) := by
  induction hk : xs.length using Nat.strong_induction_on generalizing sums sums' xs ys with
  | _ k ih =>
    unfold Cost.sumByEight
    rw [← hxs.length_eq]
    split
    next hlen =>
      exact ih (xs.drop 8).length (by simp; omega)
        (h.zipWith hsums (List.forall₂_take 8 hxs)) (List.forall₂_drop 8 hxs) rfl
    next => exact h.foldl hxs (h.combineEight hsums)

theorem sumFrom (h : IsAdditive R) (hxs : List.Forall₂ R xs ys) : R (sumFrom xs) (sumFrom ys) := by
  induction hk : xs.length using Nat.strong_induction_on generalizing xs ys with
  | _ k ih =>
    unfold Cost.sumFrom
    rw [← hxs.length_eq]
    split
    next => exact h.foldl hxs h.negZero
    next hlen =>
      split
      next => exact h.sumByEight (List.forall₂_take 8 hxs) (List.forall₂_drop 8 hxs)
      next =>
        have hhalf : halfLength xs.length < xs.length ∧ 0 < halfLength xs.length := by
          unfold halfLength
          omega
        exact h.add (ih _ (by simp; omega) (List.forall₂_take _ hxs) rfl)
          (ih _ (by simp; omega) (List.forall₂_drop _ hxs) rfl)

theorem sum (h : IsAdditive R) (hxs : List.Forall₂ R xs ys) : R (sum xs) (sum ys) :=
  h.add h.zero (h.sumFrom hxs)

end IsAdditive

end Cost

namespace CostMatrix

variable {α β : Type} {n m : ℕ}

theorem matched_mapEntries (g : α → β) (cost : CostMatrix α n m)
    (columnOf : Vector (Option (Fin m)) n) :
    (cost.mapEntries g).matched columnOf = (cost.matched columnOf).map g := by
  simp only [matched, List.map_filterMap, getElem_mapEntries, Option.map_map, Function.comp_def]

theorem total_mapEntries [Cost α] [Cost β] {R : α → β → Prop} (h : Cost.IsAdditive R) {g : α → β}
    (hg : ∀ x, R x (g x)) (cost : CostMatrix α n m) (columnOf : Vector (Option (Fin m)) n) :
    R (cost.total columnOf) ((cost.mapEntries g).total columnOf) := by
  rw [total, total, matched_mapEntries]
  exact h.sum (List.forall₂_map_right_iff.mpr (List.forall₂_same.mpr fun x _ => hg x))

end CostMatrix

end LinearAssignment
