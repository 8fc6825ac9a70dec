import Mathlib.Algebra.Order.BigOperators.Group.List
import TextGrammar.Proofs.Exact
import TextGrammar.Store

/-!
# The distribution of selections

Weights and draws are rational numbers here, so nothing is rounded. The weights of a store, laid one
behind the other, cover the stretch from zero to their sum, and a draw, which is never less than zero
and always less than one, is scaled to a point of this stretch. `Store.Hits` says that the point lies
in the part of one of the weights. There is one such weight for every draw, it is not zero, and its
rule is selected (`Store.exists_hits`, `Store.select_of_hits`); what is left over for draws that reach
nothing is never used. Rules of equal weight have parts of equal length, which are those that a draw
without weights tells apart (`Store.floor_of_hits`).
-/

namespace TextGrammar

/-! ### Draws -/

namespace Scalar

/-- A draw lies in the unit interval, and a number that does is its own draw. -/
theorem clampUnit_mem (x : ℚ) :
    0 ≤ clampUnit x ∧ clampUnit x < 1 ∧ (0 ≤ x → x < 1 → clampUnit x = x) := by
  simp only [clampUnit, le, one, zero, belowOne, decide_eq_true_eq]
  split_ifs with hone hzero
  · exact ⟨by norm_num, by norm_num, fun _ h => absurd hone (not_le.2 h)⟩
  · exact ⟨hzero, not_le.1 hone, fun _ _ => rfl⟩
  · exact ⟨le_refl 0, one_pos, fun h => absurd h hzero⟩

theorem sum_eq (xs : List ℚ) : sum xs = xs.sum := List.sum_eq_foldl.symm

end Scalar

theorem Source.next_mem (source : Source ℚ) :
    0 ≤ source.next.1 ∧ source.next.1 < 1 ∧
      (0 ≤ source.stream source.position → source.stream source.position < 1 →
        source.next.1 = source.stream source.position) :=
  Scalar.clampUnit_mem (source.stream source.position)

theorem Source.indexOf_eq_floor {v : ℚ} {n : ℕ} (hlow : 0 ≤ v) (hhigh : v < 1) (hn : n ≠ 0) :
    indexOf v n = ⌊v * n⌋₊ ∧ ⌊v * n⌋₊ < n := by
  have hpos : (0 : ℚ) < n := Nat.cast_pos.2 (Nat.pos_of_ne_zero hn)
  have hbelow : ⌊v * n⌋₊ < n := by
    rw [Nat.floor_lt (mul_nonneg hlow hpos.le)]
    exact mul_lt_of_lt_one_left hpos hhigh
  refine ⟨?_, hbelow⟩
  simp only [indexOf, Scalar.scale]
  omega

namespace Store

/-! ### Weights one behind the other -/

/-- Scaled by the sum of the weights, the value lies in the part of the weight of this index: the
weights before it do not exceed the value, and with it they do. -/
structure Hits (weights : List ℚ) (value : ℚ) (i : ℕ) : Prop where
  below : (weights.take i).sum ≤ value * weights.sum
  above : value * weights.sum < (weights.take (i + 1)).sum

variable {weights : List ℚ} {value target below : ℚ} {i j : ℕ} {rules : List Text}

theorem sum_take_le (hweights : ∀ w ∈ weights, 0 ≤ w) (h : i ≤ j) :
    (weights.take i).sum ≤ (weights.take j).sum := by
  refine (List.take_prefix_take_left h).sublist.sum_le_sum fun w hw => ?_
  exact hweights w (List.mem_of_mem_take hw)

/-- The parts of two weights have no value in common. -/
theorem Hits.eq (hweights : ∀ w ∈ weights, 0 ≤ w) (hi : Hits weights value i)
    (hj : Hits weights value j) : i = j := by
  have hnot : ∀ {i j}, Hits weights value i → Hits weights value j → ¬i < j := by
    intro i j hi hj hlt
    have hle := sum_take_le hweights (Nat.succ_le_of_lt hlt)
    exact absurd (hi.above.trans_le hle) (not_lt.2 hj.below)
  exact Nat.le_antisymm (not_lt.1 (hnot hj hi)) (not_lt.1 (hnot hi hj))

theorem Hits.exists_pos (h : Hits weights value i) : ∃ hi : i < weights.length, 0 < weights[i] := by
  have hlt := h.below.trans_lt h.above
  by_cases hi : i < weights.length
  · rw [List.take_add_one, List.getElem?_eq_getElem hi, List.sum_append] at hlt
    exact ⟨hi, by simpa using hlt⟩
  · -- behind the last weight nothing is added
    rw [List.take_of_length_le (by omega), List.take_of_length_le (by omega)] at hlt
    exact absurd hlt (lt_irrefl _)

/-- A target below the sum of all weights lies in the part of one of them, and there the search
through the weights ends. -/
theorem exists_reach (hlength : rules.length = weights.length) (hbelow : below ≤ target)
    (habove : target < below + weights.sum) :
    ∃ i, below + (weights.take i).sum ≤ target ∧ target < below + (weights.take (i + 1)).sum ∧
      reach target below (rules.zip weights) = rules[i]? := by
  induction weights generalizing rules below with
  | nil =>
    rw [List.sum_nil, add_zero] at habove
    exact absurd habove (not_lt.2 hbelow)
  | cons w weights ih =>
    obtain ⟨rule, rules, rfl⟩ := List.exists_cons_of_length_eq_add_one hlength
    rw [List.zip_cons_cons]
    simp only [reach, Scalar.lt, Scalar.add, decide_eq_true_eq]
    by_cases hreached : target < below + w
    · refine ⟨0, by simpa using hbelow, by simpa using hreached, ?_⟩
      rw [if_pos hreached, List.getElem?_cons_zero]
    · rw [List.sum_cons, ← add_assoc] at habove
      obtain ⟨i, hi, hi', hreach⟩ := ih (by simpa using hlength) (not_lt.1 hreached) habove
      refine ⟨i + 1, ?_, ?_, ?_⟩
      · rwa [List.take_succ_cons, List.sum_cons, ← add_assoc]
      · rwa [List.take_succ_cons, List.sum_cons, ← add_assoc]
      · rw [if_neg hreached, hreach, List.getElem?_cons_succ]

/-- **Every draw hits one of the weights**, and the search ends with its rule. -/
theorem exists_hits (hlength : rules.length = weights.length) (htotal : 0 < weights.sum)
    (hlow : 0 ≤ value) (hhigh : value < 1) :
    ∃ i, Hits weights value i ∧
      reach (Scalar.mul value (Scalar.sum weights)) Scalar.zero (rules.zip weights) = rules[i]? := by
  have hbelow : 0 ≤ value * weights.sum := mul_nonneg hlow htotal.le
  have habove : value * weights.sum < 0 + weights.sum := by
    rw [zero_add]
    exact mul_lt_of_lt_one_left htotal hhigh
  obtain ⟨i, hi, hi', hreach⟩ := exists_reach hlength hbelow habove
  rw [zero_add] at hi hi'
  refine ⟨i, ⟨hi, hi'⟩, ?_⟩
  rw [Scalar.sum_eq]
  exact hreach

/-- Of equal weights a draw hits the one whose index it gives among as many rules. -/
theorem floor_of_hits (hequal : ∀ w ∈ weights, ∀ w' ∈ weights, w = w')
    (h : Hits weights value i) (hvalue : 0 ≤ value) : ⌊value * weights.length⌋₊ = i := by
  obtain ⟨hi, hpos⟩ := h.exists_pos
  have hreplicate : weights = List.replicate weights.length weights[i] :=
    List.eq_replicate_iff.2 ⟨rfl, fun w hw => hequal w hw _ (List.getElem_mem hi)⟩
  have hsum : weights.sum = weights.length * weights[i] := by
    conv_lhs => rw [hreplicate]
    rw [List.sum_replicate, nsmul_eq_mul]
  have htake : ∀ k ≤ weights.length, (weights.take k).sum = k * weights[i] := by
    intro k hk
    conv_lhs => rw [hreplicate]
    rw [List.take_replicate, Nat.min_eq_left hk, List.sum_replicate, nsmul_eq_mul]
  have hbelow := h.below
  have habove := h.above
  rw [hsum, ← mul_assoc] at hbelow habove
  rw [htake i hi.le] at hbelow
  rw [htake (i + 1) hi] at habove
  rw [Nat.floor_eq_iff (mul_nonneg hvalue (Nat.cast_nonneg _))]
  refine ⟨le_of_mul_le_mul_right hbelow hpos, ?_⟩
  have hlt := lt_of_mul_lt_mul_right habove hpos.le
  rwa [Nat.cast_add, Nat.cast_one] at hlt

/-! ### Selections -/

variable {s : Store ℚ}

theorem select_of_weights (hoverrides : s.overrides = []) (hweights : s.weights = some weights)
    (hbase : s.base ≠ []) (source : Source ℚ) :
    s.select source = (pickWeighted s.base weights source.next.1, source.next.2) := by
  have hactive : s.active.isEmpty = false := by
    rw [active, hoverrides]
    simpa using hbase
  simp only [select, hactive, Bool.false_eq_true, if_false, pick, hoverrides, hweights]

theorem select_of_uniform (h : s.overrides ≠ [] ∨ s.weights = none) (hactive : s.active ≠ [])
    (source : Source ℚ) :
    s.select source = (pickUniform s.active source.next.1, source.next.2) := by
  have hpick : s.pick source.next.1 = pickUniform s.active source.next.1 := by
    unfold pick active
    cases hoverrides : s.overrides with
    | cons rules rest => rfl
    | nil =>
      rw [h.resolve_left fun hne => hne hoverrides]
      rfl
  simp only [select, List.isEmpty_eq_false_iff.2 hactive, Bool.false_eq_true, if_false, hpick]

theorem select_of_uniform_eq_floor (h : s.overrides ≠ [] ∨ s.weights = none)
    (hactive : s.active ≠ []) (source : Source ℚ) :
    s.select source =
      (s.active[⌊source.next.1 * s.active.length⌋₊]?, source.next.2) := by
  obtain ⟨hlow, hhigh, -⟩ := source.next_mem
  have hlength : s.active.length ≠ 0 := List.length_eq_zero_iff.not.2 hactive
  rw [select_of_uniform h hactive, pickUniform, (Source.indexOf_eq_floor hlow hhigh hlength).1]

theorem select_of_hits (hoverrides : s.overrides = []) (hweights : s.weights = some weights)
    (hlength : s.base.length = weights.length) (htotal : 0 < weights.sum) (source : Source ℚ) :
    ∃ i, Hits weights source.next.1 i ∧
      ∃ (hrule : i < s.base.length) (hweight : i < weights.length), 0 < weights[i] ∧
        reach (Scalar.mul source.next.1 (Scalar.sum weights)) Scalar.zero (s.base.zip weights) =
          some s.base[i] ∧
        s.select source = (some s.base[i], source.next.2) := by
  obtain ⟨hlow, hhigh, -⟩ := source.next_mem
  obtain ⟨i, hits, hreach⟩ := exists_hits hlength htotal hlow hhigh
  obtain ⟨hweight, hpos⟩ := hits.exists_pos
  have hrule : i < s.base.length := hlength ▸ hweight
  rw [List.getElem?_eq_getElem hrule] at hreach
  have hbase : s.base ≠ [] := List.ne_nil_of_length_pos (Nat.zero_lt_of_lt hrule)
  refine ⟨i, hits, hrule, hweight, hpos, hreach, ?_⟩
  rw [select_of_weights hoverrides hweights hbase, pickWeighted, hreach]

theorem select_unweighted_of_hits (hoverrides : s.overrides = [])
    (hlength : s.base.length = weights.length) (hequal : ∀ w ∈ weights, ∀ w' ∈ weights, w = w')
    {source : Source ℚ} (h : Hits weights source.next.1 i) (hrule : i < s.base.length) :
    { s with weights := none }.select source = (some s.base[i], source.next.2) := by
  let unweighted : Store ℚ := { s with weights := none }
  have hbase : s.base ≠ [] := List.ne_nil_of_length_pos (Nat.zero_lt_of_lt hrule)
  have hactive : unweighted.active = s.base := by
    simp only [unweighted, active, hoverrides, List.headD_nil]
  have hfloor : ⌊source.next.1 * weights.length⌋₊ = i := floor_of_hits hequal h source.next_mem.1
  rw [select_of_uniform_eq_floor (s := unweighted) (.inr rfl) (by rwa [hactive]), hactive, hlength,
    hfloor, List.getElem?_eq_getElem hrule]

/-- **Selections follow the distribution.**  A draw is a number of the unit interval.  Of rules with
weights that are not negative and not all zero the one is selected whose weight the draw hits, of
which there is exactly one; it is not zero, and the search through the weights finds its rule before
it gets to their end. Of rules without weights the one is selected at the draw scaled to their
number and rounded down. Weights that are all the same make no difference. -/
theorem select_distributed (source : Source ℚ) :
    let v := source.next.1
    (0 ≤ v ∧ v < 1 ∧
      (0 ≤ source.stream source.position → source.stream source.position < 1 →
        v = source.stream source.position)) ∧
      (∀ (s : Store ℚ) (weights : List ℚ), s.overrides = [] → s.weights = some weights →
        s.base.length = weights.length → (∀ w ∈ weights, 0 ≤ w) → 0 < weights.sum →
        (∃ i, Hits weights v i ∧ (∀ j, Hits weights v j → j = i) ∧
          ∃ (hrule : i < s.base.length) (hweight : i < weights.length), 0 < weights[i] ∧
            reach (Scalar.mul v (Scalar.sum weights)) Scalar.zero (s.base.zip weights) =
              some s.base[i] ∧
            s.select source = (some s.base[i], source.next.2)) ∧
        ((∀ w ∈ weights, ∀ w' ∈ weights, w = w') →
          s.select source = { s with weights := none }.select source)) ∧
      (∀ n ≠ 0, (source.index n).1 = ⌊v * n⌋₊ ∧ ⌊v * n⌋₊ < n) ∧
      ∀ s : Store ℚ, s.overrides ≠ [] ∨ s.weights = none → s.active ≠ [] →
        ∃ hrule : ⌊v * s.active.length⌋₊ < s.active.length,
          s.select source = (some s.active[⌊v * s.active.length⌋₊], source.next.2) := by
  intro v
  obtain ⟨hlow, hhigh, hsame⟩ : 0 ≤ v ∧ v < 1 ∧ _ := source.next_mem
  refine ⟨⟨hlow, hhigh, hsame⟩, ?_, ?_, ?_⟩
  · intro s weights hoverrides hweights hlength hnonneg htotal
    obtain ⟨i, hits, hrule, hweight, hpos, hreach, hselect⟩ :=
      select_of_hits hoverrides hweights hlength htotal source
    refine ⟨⟨i, hits, fun j hj => hj.eq hnonneg hits, hrule, hweight, hpos, hreach, hselect⟩, ?_⟩
    intro hequal
    rw [hselect, select_unweighted_of_hits hoverrides hlength hequal hits hrule]
  · intro n hn
    exact Source.indexOf_eq_floor hlow hhigh hn
  · intro s h hactive
    have hlength : s.active.length ≠ 0 := List.length_eq_zero_iff.not.2 hactive
    obtain ⟨-, hrule⟩ := Source.indexOf_eq_floor hlow hhigh hlength
    exact ⟨hrule, by rw [select_of_uniform_eq_floor h hactive, List.getElem?_eq_getElem hrule]⟩

/-- The draw is where the part of one weight ends and that of another begins, with a weight of zero
in between; the first and the last weight are zero as well. Pushed rules have no weights. -/
theorem select_distributed_border :
    let s : Store ℚ := { name := ['s'], base := [['a'], ['b'], ['c'], ['d'], ['e']],
                         weights := some [0, 1 / 2, 0, 3 / 2, 0] }
    let source : Source ℚ := .fixed (1 / 4)
    source.next.1 = 1 / 4 ∧ s.select source = (some ['d'], source.next.2) ∧
      Hits [0, 1 / 2, 0, 3 / 2, 0] (1 / 4) 3 ∧
      (s.push [['x'], ['y'], ['z'], ['w']]).select source = (some ['y'], source.next.2) := by
  intro s source
  obtain ⟨⟨-, -, hdraw⟩, hweighted, -, huniform⟩ := select_distributed source
  have hv : source.next.1 = 1 / 4 := hdraw (by norm_num [source, Source.fixed])
    (by norm_num [source, Source.fixed])
  have hnonneg : ∀ w ∈ [0, 1 / 2, 0, 3 / 2, (0 : ℚ)], 0 ≤ w := by decide +kernel
  obtain ⟨⟨i, hits, hunique, hrule, -, -, -, hselect⟩, -⟩ :=
    hweighted s _ rfl rfl rfl hnonneg (by norm_num)
  have hthird : Hits [0, 1 / 2, 0, 3 / 2, 0] (1 / 4) 3 := ⟨by norm_num, by norm_num⟩
  obtain rfl : 3 = i := hunique 3 (by rwa [hv])
  obtain ⟨hpushed, hselected⟩ :=
    huniform (s.push [['x'], ['y'], ['z'], ['w']]) (.inl (List.cons_ne_nil _ _))
      (List.cons_ne_nil _ _)
  have hfloor : ⌊source.next.1 * (4 : ℕ)⌋₊ = 1 := by norm_num [hv]
  refine ⟨hv, hselect, hthird, hselected.trans ?_⟩
  simp only [Store.push, active, List.headD_cons, List.length_cons, List.length_nil, hfloor]
  rfl

end Store

end TextGrammar
