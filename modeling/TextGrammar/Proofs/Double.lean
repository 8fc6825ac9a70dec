import TextGrammar.Proofs.Grammar.Operations

/-!
# Weights in double precision

Sums of doubles are rounded, so they are not exact in the sense of `Scalar.Exact`, and little can be
said of them in general. But a weight is a finite number that is not negative. If it is not positive
either, it is a zero, and zeros add up to zero whatever their signs are.

So weights without a positive one among them have no positive sum, and a valid definition that has
rules has one that can be selected (`Definition.productive_of_fault?`).
-/

namespace TextGrammar

open Float.Model (UnpackedFloat)

namespace Scalar

variable {w : Float} {ws : List Float}

theorem exists_eq_zero {x : UnpackedFloat} (hfinite : x.isFinite = true)
    (hneg : x.lt (.zero .positive) = false) (hpos : (UnpackedFloat.zero .positive).lt x = false) :
    ∃ sign, x = .zero sign := by
  cases x with
  | infinity sign => cases hfinite
  | notANumber => cases hfinite
  | zero sign => exact ⟨sign, rfl⟩
  | finite sign mantissa exponent hmantissa =>
    cases sign with
    | positive => cases hpos
    | negative => cases hneg

theorem lt_eq_unpack (v w : Float) : lt v w = v.toModel.unpack.lt w.toModel.unpack := by
  have hiff : v < w ↔ v.toModel.unpack.lt w.toModel.unpack = true := decide_eq_true_iff
  exact Bool.eq_iff_iff.2 (decide_eq_true_iff.trans hiff)

theorem zero_add_of_not_pos (hweight : Definition.isWeight w = true) (hpos : lt zero w = false) :
    add zero w = zero := by
  obtain ⟨hfinite, hneg⟩ := Bool.and_eq_true_iff.1 hweight
  have hzero : (zero : Float).toModel.unpack = .zero .positive := rfl
  rw [Bool.not_eq_true', lt_eq_unpack, hzero] at hneg
  rw [lt_eq_unpack, hzero] at hpos
  obtain ⟨sign, hsign⟩ : ∃ sign, w.toModel.unpack = .zero sign := exists_eq_zero hfinite hneg hpos
  change Float.ofModel (.pack (.add .binary64 (.zero .positive) w.toModel.unpack)) = 0
  rw [hsign]
  cases sign <;> rfl

/-- Weights of which none is positive add up to zero. -/
theorem sum_eq_zero (hweights : ∀ w ∈ ws, Definition.isWeight w = true)
    (hpos : ∀ w ∈ ws, lt zero w = false) : sum ws = zero := by
  induction ws with
  | nil => rfl
  | cons w ws ih =>
    rw [List.forall_mem_cons] at hweights hpos
    have hfirst : add zero w = zero := zero_add_of_not_pos hweights.1 hpos.1
    rw [sum, List.foldl_cons, hfirst]
    exact ih hweights.2 hpos.2

end Scalar

namespace Definition

theorem productive_of_fault? {d : Definition Float} (hfault : d.fault? = none)
    (hrules : d.rules ≠ []) : d.Productive := by
  refine ⟨hrules, fun weights hweights => ?_⟩
  cases d with
  | single rule => cases hweights
  | many rules => cases hweights
  | weighted rules weights =>
    cases hweights
    -- otherwise the sum would be zero, and this is a fault
    by_contra hnone
    have hpos : ∀ w ∈ weights, Scalar.lt Scalar.zero w = false := by
      intro w hw
      rw [← Bool.not_eq_true]
      exact fun hpositive => hnone ⟨w, hw, hpositive⟩
    have hsum : Scalar.sum weights = Scalar.zero :=
      Scalar.sum_eq_zero (isWeight_of_fault? hfault) hpos
    have hzero : Scalar.le (Scalar.zero : Float) Scalar.zero = true := by decide +kernel
    have hpositive : Scalar.le (Scalar.sum weights) Scalar.zero = false :=
      sum_of_fault? hfault hrules
    rw [hsum, hzero] at hpositive
    cases hpositive

end Definition

end TextGrammar
