import Mathlib.Data.Rat.Floor
import TextGrammar.Scalar

/-!
# Exact numbers

Numbers of double precision are rounded by every sum and product, and what a selection does is
easiest to say of numbers that are not. `Scalar.Exact` asks of numbers no more than selections from
weighted rules need, and rational numbers are exact in this sense.
-/

namespace TextGrammar.Scalar

/-- Numbers that are compared and added up without rounding. -/
class Exact (α : Type) [Scalar α] : Prop where
  lt_irrefl (x : α) : lt x x = false
  /-- Of two numbers one is at most the other. -/
  le_eq (x y : α) : le x y = !lt y x
  /-- A sum is positive only if one of its terms is. -/
  pos_of_add (x y : α) : lt zero (add x y) = true → lt zero x = true ∨ lt zero y = true

/-- Rational numbers. The largest draw is the one of double precision. -/
instance : Scalar ℚ where
  zero := 0
  one := 1
  add x y := x + y
  mul x y := x * y
  le x y := x ≤ y
  lt x y := x < y
  isFinite _ := true
  belowOne := 1 - 1 / 2 ^ 52
  scale x n := ⌊x * n⌋₊

instance : Exact ℚ where
  lt_irrefl x := by simp [lt]
  le_eq x y := by simp only [le, lt, ← not_lt, decide_not]
  pos_of_add x y h := by
    simp only [lt, zero, add, decide_eq_true_eq] at h ⊢
    by_contra! hneg
    linarith

variable {α : Type} [Scalar α] [Exact α]

theorem exists_pos_of_foldl {ws : List α} {x : α} (h : lt zero (ws.foldl add x) = true) :
    lt zero x = true ∨ ∃ w ∈ ws, lt zero w = true := by
  induction ws generalizing x with
  | nil => exact .inl h
  | cons w ws ih =>
    rcases ih h with hadd | ⟨w', hw', hpos⟩
    · rcases Exact.pos_of_add x w hadd with hx | hw
      · exact .inl hx
      · exact .inr ⟨w, List.mem_cons_self, hw⟩
    · exact .inr ⟨w', List.mem_cons_of_mem w hw', hpos⟩

theorem exists_pos_of_sum {ws : List α} (h : le (sum ws) zero = false) :
    ∃ w ∈ ws, lt zero w = true := by
  rw [Exact.le_eq, Bool.not_eq_false'] at h
  rcases exists_pos_of_foldl h with hzero | hw
  · rw [Exact.lt_irrefl] at hzero
    cases hzero
  · exact hw

end TextGrammar.Scalar
