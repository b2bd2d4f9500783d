import Mathlib
import SplitPlot.Proofs.Decomposition.Basis

/-!
# Zero sums along an axis

A function on the cells has *zero sums along an axis* (`ZeroSumAlong`) if its values along that axis
add up to zero, wherever the other axes stand.  It is the opposite of a function that does not look
at the axis (`IgnoresAxis`): the sum over all cells of the product of two such functions is zero
(`ZeroSumAlong.sum_mul_eq_zero`), and every orthogonality between sets of factors is this fact, read
at one axis in which the sets differ.

* `zeroSumAlong_contrastAt`: a combination of contrasts has zero sums along each of its factors.  So
  no constant has a score, nor has any function that does not look at one of them.
* `zeroSumAlong_pureLine`, `ignoresAxis_pureLine`: the part of a function that belongs to some axes
  has zero sums along these and does not look at the others.
* `sum_pureLine_mul_pureLine`: so the parts of different sets of factors are orthogonal, also if
  they are parts of different functions.
* `pureLine_of_zeroSum`: a function with zero sums along every axis belongs to all of them.
-/

namespace SplitPlot

open Finset

/-- A function whose values along an axis add up to zero, wherever the other axes stand. -/
def ZeroSumAlong (shape : List ℕ) (axis : ℕ) (g : List ℕ → ℝ) : Prop :=
  ∀ x, InBounds x shape → ∑ i ∈ range (shape.getD axis 0), g (x.set axis i) = 0

/-! ## One axis at a time -/

theorem InBounds.set_level : ∀ {x shape : List ℕ} {axis i : ℕ}, InBounds x shape →
    i < shape.getD axis 0 → InBounds (x.set axis i) shape
  | [], [], _, _, _, _ => trivial
  | _ :: _, _ :: _, 0, _, h, hi => ⟨hi, h.2⟩
  | _ :: _, _ :: _, _ + 1, _, h, hi => ⟨h.1, InBounds.set_level h.2 hi⟩

section Axes

variable {n axis : ℕ} {shape : List ℕ} {g h : List ℕ → ℝ}

theorem zeroSumAlong_zero : ZeroSumAlong (n :: shape) 0 g ↔
    ∀ x, InBounds x shape → ∑ i ∈ range n, g (i :: x) = 0 := by
  constructor
  · intro hg x hx
    rcases Nat.eq_zero_or_pos n with rfl | hn
    · rfl
    · exact hg (0 :: x) ⟨hn, hx⟩
  · intro hg x hx
    cases x with
    | nil => exact hx.elim
    | cons i x => exact hg x hx.2

theorem zeroSumAlong_succ : ZeroSumAlong (n :: shape) (axis + 1) g ↔
    ∀ i < n, ZeroSumAlong shape axis fun x => g (i :: x) := by
  constructor
  · intro hg i hi x hx
    exact hg (i :: x) ⟨hi, hx⟩
  · intro hg x hx
    cases x with
    | nil => exact hx.elim
    | cons i x => exact hg i hx.1 x hx.2

theorem ZeroSumAlong.const_mul (hg : ZeroSumAlong shape axis g) (a : ℝ) :
    ZeroSumAlong shape axis fun x => a * g x := by
  intro x hx
  rw [← mul_sum, hg x hx, mul_zero]

/-- Only the values on the cells matter. -/
theorem ZeroSumAlong.congr (hg : ZeroSumAlong shape axis g)
    (heq : ∀ x, InBounds x shape → g x = h x) : ZeroSumAlong shape axis h := by
  intro x hx
  rw [← hg x hx]
  exact sum_congr rfl fun i hi => (heq _ (hx.set_level (mem_range.mp hi))).symm

/-- A function that has zero sums along an axis is orthogonal to one that does not look at it. -/
theorem ZeroSumAlong.sum_mul_eq_zero (haxis : axis < shape.length) (hg : ZeroSumAlong shape axis g)
    (hh : IgnoresAxis shape axis h) : ∑ x ∈ positions shape, g x * h x = 0 := by
  induction shape generalizing axis g h with
  | nil => exact absurd haxis (Nat.not_lt_zero axis)
  | cons n shape ih =>
    rw [sum_positions_cons]
    cases axis with
    | zero =>
      -- along the axis the second function is a number, and the first one sums to zero
      rw [sum_comm]
      refine sum_eq_zero fun x hx => ?_
      have hx := mem_positions.mp hx
      have hconst : ∀ i ∈ range n, g (i :: x) * h (i :: x) = g (i :: x) * h (0 :: x) := by
        intro i hi
        have hi := mem_range.mp hi
        rw [← hh (0 :: x) i ⟨Nat.zero_lt_of_lt hi, hx⟩ ⟨hi, hx⟩]
        rfl
      rw [sum_congr rfl hconst, ← sum_mul, zeroSumAlong_zero.mp hg x hx, zero_mul]
    | succ axis =>
      refine sum_eq_zero fun i hi => ?_
      have hi := mem_range.mp hi
      exact ih (Nat.lt_of_succ_lt_succ haxis) (zeroSumAlong_succ.mp hg i hi) (hh.tail hi)

end Axes

/-! ## Combinations of contrasts -/

/-- A combination of contrasts has zero sums along each of its factors. -/
theorem zeroSumAlong_contrastAt : ∀ {axes : List FlaggedAxis},
    (∀ a ∈ axes, 0 < a.1 ∧ a.1 ≤ maxWithinLevels) → ∀ {axis n : ℕ}, axes[axis]? = some (n, true) →
      ∀ {b : List ℕ}, b ∈ combinations axes →
        ZeroSumAlong (axes.map (·.1)) axis (contrastAt axes b)
  | (m, true) :: axes, haxes, 0, _, _, b, hb => by
    obtain ⟨⟨hpos, hle⟩, -⟩ := List.forall_mem_cons.mp haxes
    match b, mem_positions.mp hb with
    | c :: b, ⟨hc, _⟩ =>
      refine zeroSumAlong_zero.mpr fun x _ => ?_
      simp only [contrastAt_cons_true]
      rw [← sum_mul, sum_unitContrast_level hpos hle hc, zero_mul]
  | (m, true) :: axes, haxes, axis + 1, n, haxis, b, hb => by
    obtain ⟨-, haxes⟩ := List.forall_mem_cons.mp haxes
    have htail : axes[axis]? = some (n, true) := haxis
    match b, mem_positions.mp hb with
    | c :: b, ⟨_, hb⟩ =>
      refine zeroSumAlong_succ.mpr fun i _ => ?_
      simp only [contrastAt_cons_true]
      exact (zeroSumAlong_contrastAt haxes htail (mem_positions.mpr hb)).const_mul _
  | (m, false) :: axes, haxes, axis + 1, n, haxis, b, hb => by
    obtain ⟨-, haxes⟩ := List.forall_mem_cons.mp haxes
    have htail : axes[axis]? = some (n, true) := haxis
    exact zeroSumAlong_succ.mpr fun i _ => zeroSumAlong_contrastAt haxes htail hb

section Scores

variable {axes : List FlaggedAxis} {b : List ℕ} {g h : List ℕ → ℝ}

theorem contrastScore_congr (heq : ∀ x ∈ positions (axes.map (·.1)), g x = h x) :
    contrastScore axes g b = contrastScore axes h b :=
  sum_congr rfl fun x hx => by rw [heq x hx]

variable (haxes : ∀ a ∈ axes, 0 < a.1 ∧ a.1 ≤ maxWithinLevels) (hb : b ∈ combinations axes)

include haxes hb

/-- A function that does not look at one of the factors has no score. -/
theorem contrastScore_of_ignores {axis n : ℕ} (haxis : axes[axis]? = some (n, true))
    (hg : IgnoresAxis (axes.map (·.1)) axis g) : contrastScore axes g b = 0 := by
  obtain ⟨hlt, -⟩ := List.getElem?_eq_some_iff.mp haxis
  exact (zeroSumAlong_contrastAt haxes haxis hb).sum_mul_eq_zero (by rwa [List.length_map]) hg

/-- So a combination sums to zero over all cells: the constant has no score on it. -/
theorem sum_contrastAt (hflag : ∃ n, (n, true) ∈ axes) :
    ∑ z ∈ positions (axes.map (·.1)), contrastAt axes b z = 0 := by
  obtain ⟨n, hn⟩ := hflag
  obtain ⟨axis, haxis⟩ := List.mem_iff_getElem?.mp hn
  have hscore : contrastScore axes (fun _ => 1) b = 0 :=
    contrastScore_of_ignores haxes hb haxis fun _ _ _ _ => rfl
  simpa only [contrastScore, mul_one] using hscore

/-- A sum of functions that each ignore one of the factors has no score either. -/
theorem contrastScore_of_sum_ignores {parts : List (ℕ × (List ℕ → ℝ))}
    (h : ∀ p ∈ parts,
      (∃ n, axes[p.1]? = some (n, true)) ∧ IgnoresAxis (axes.map (·.1)) p.1 p.2) :
    contrastScore axes (fun x => (parts.map fun p => p.2 x).sum) b = 0 := by
  refine map_sum_eq_zero (isLinearMap_contrastScore axes b) fun p hp => ?_
  obtain ⟨⟨n, hn⟩, hignores⟩ := h p hp
  exact contrastScore_of_ignores haxes hb hn hignores

end Scores

/-! ## The parts of a function -/

/-- The part of some axes adds up to zero along each of them. -/
theorem sum_pureLine_set : ∀ {axes : List FlaggedAxis} {axis n : ℕ},
    axes[axis]? = some (n, true) → ∀ (g : List ℕ → ℝ) {x : List ℕ}, x.length = axes.length →
      ∑ i ∈ range n, pureLine axes g (x.set axis i) = 0
  | (m, true) :: axes, 0, n, haxis, g, _ :: x, _ => by
    obtain rfl : m = n := congrArg Prod.fst (Option.some.inj haxis)
    obtain rfl | hm := Nat.eq_zero_or_pos m
    · rfl
    -- the deviations from the mean add up to zero, and the rest of the part is linear in them
    have hzero :
        (fun y => ∑ i ∈ range m, 1 * (g (i :: y) - average m fun j => g (j :: y))) = 0 := by
      ext y
      simp only [one_mul]
      rw [sum_sub_distrib, sum_const, card_range, nsmul_eq_mul, mul_average hm]
      exact sub_self _
    have hlinear := map_sum_mul (isLinearMap_pureLine axes x) (range m) (fun _ => 1)
      fun i y => g (i :: y) - average m fun j => g (j :: y)
    rw [hzero, (isLinearMap_pureLine axes x).map_zero] at hlinear
    simp only [one_mul] at hlinear
    exact hlinear.symm
  | (m, true) :: axes, axis + 1, n, haxis, g, i :: x, hx => by
    have htail : axes[axis]? = some (n, true) := haxis
    exact sum_pureLine_set htail _ (Nat.succ.inj hx)
  | (m, false) :: axes, axis + 1, n, haxis, g, _ :: x, hx => by
    have htail : axes[axis]? = some (n, true) := haxis
    exact sum_pureLine_set htail _ (Nat.succ.inj hx)

/-- The part of some axes does not look at another axis. -/
theorem pureLine_set : ∀ {axes : List FlaggedAxis} {axis n : ℕ},
    axes[axis]? = some (n, false) → ∀ (g : List ℕ → ℝ) (x : List ℕ) (i : ℕ),
      pureLine axes g (x.set axis i) = pureLine axes g x
  | _ :: _, _, _, _, _, [], _ => rfl
  | (m, false) :: axes, 0, _, _, g, _ :: x, i => rfl
  | (m, true) :: axes, axis + 1, n, haxis, g, k :: x, i => by
    have htail : axes[axis]? = some (n, false) := haxis
    exact pureLine_set htail _ x i
  | (m, false) :: axes, axis + 1, n, haxis, g, _ :: x, i => by
    have htail : axes[axis]? = some (n, false) := haxis
    exact pureLine_set htail _ x i

section Parts

variable {axes : List FlaggedAxis} {axis n : ℕ} {shape : List ℕ}

/-- The part of some axes has zero sums along each of them, on every table on which the axis has its
full extent. -/
theorem zeroSumAlong_pureLine (haxis : axes[axis]? = some (n, true)) (g : List ℕ → ℝ)
    (hshape : shape[axis]? = some n) (hlength : shape.length = axes.length) :
    ZeroSumAlong shape axis (pureLine axes g) := by
  intro x hx
  rw [List.getD_eq_getElem?_getD, hshape, Option.getD_some]
  exact sum_pureLine_set haxis g (hx.length_eq.trans hlength)

theorem ignoresAxis_pureLine (haxis : axes[axis]? = some (n, false)) (g : List ℕ → ℝ) :
    IgnoresAxis shape axis (pureLine axes g) := fun x i _ _ => pureLine_set haxis g x i

end Parts

section Orthogonal

variable {extent : ℕ → ℕ} {factors : List ℕ}

theorem getElem?_flagged {a f : ℕ} (ha : factors[a]? = some f) (A : Finset ℕ) :
    (flagged extent factors A)[a]? = some (extent f, decide (f ∈ A)) := by
  rw [flagged, List.getElem?_map, ha]
  rfl

/-- Parts are orthogonal if one of them belongs to a factor to which the other does not belong. -/
theorem sum_pureLine_mul_of_notMem {A B : Finset ℕ} {f : ℕ} (hf : f ∈ factors) (hA : f ∈ A)
    (hB : f ∉ B) (g h : List ℕ → ℝ) : ∑ x ∈ positions (factors.map extent),
      pureLine (flagged extent factors A) g x * pureLine (flagged extent factors B) h x = 0 := by
  obtain ⟨a, ha⟩ := List.mem_iff_getElem?.mp hf
  obtain ⟨hlt, -⟩ := List.getElem?_eq_some_iff.mp ha
  have hflagA : (flagged extent factors A)[a]? = some (extent f, true) := by
    rw [getElem?_flagged ha, decide_eq_true hA]
  have hflagB : (flagged extent factors B)[a]? = some (extent f, false) := by
    rw [getElem?_flagged ha, decide_eq_false hB]
  have hshape : (factors.map extent)[a]? = some (extent f) := by
    rw [List.getElem?_map, ha]
    rfl
  have hzero := zeroSumAlong_pureLine hflagA g hshape (by rw [List.length_map, length_flagged])
  exact hzero.sum_mul_eq_zero (by rwa [List.length_map]) (ignoresAxis_pureLine hflagB h)

/-- The parts of different sets of factors are orthogonal. -/
theorem sum_pureLine_mul_pureLine {A B : Finset ℕ} (hA : A ⊆ factors.toFinset)
    (hB : B ⊆ factors.toFinset) (hne : A ≠ B) (g h : List ℕ → ℝ) :
    ∑ x ∈ positions (factors.map extent),
      pureLine (flagged extent factors A) g x * pureLine (flagged extent factors B) h x = 0 := by
  by_cases hsub : A ⊆ B
  · obtain ⟨f, hfB, hfA⟩ := exists_of_ssubset (hsub.ssubset_of_ne hne)
    simp only [mul_comm (pureLine (flagged extent factors A) g _)]
    exact sum_pureLine_mul_of_notMem (List.mem_toFinset.mp (hB hfB)) hfB hfA h g
  · obtain ⟨f, hfA, hfB⟩ := not_subset.mp hsub
    exact sum_pureLine_mul_of_notMem (List.mem_toFinset.mp (hA hfA)) hfA hfB g h

end Orthogonal

/-! ## All axes -/

/-- The axes of a table, all of them flagged. -/
def allFlagged (shape : List ℕ) : List FlaggedAxis := shape.map fun n => (n, true)

section All

@[simp] theorem map_fst_allFlagged (shape : List ℕ) : (allFlagged shape).map (·.1) = shape := by
  rw [allFlagged, List.map_map]
  exact List.map_id'' (fun _ => rfl) shape

theorem keptShape_allFlagged (shape : List ℕ) : keptShape (allFlagged shape) = shape := by
  rw [keptShape, allFlagged, List.map_map]
  exact List.map_id'' (fun _ => rfl) shape

/-- A function with zero sums along every axis belongs to all axes. -/
theorem pureLine_of_zeroSum {shape : List ℕ} {g : List ℕ → ℝ}
    (hg : ∀ axis < shape.length, ZeroSumAlong shape axis g) {x : List ℕ} (hx : InBounds x shape) :
    pureLine (allFlagged shape) g x = g x := by
  induction shape generalizing g x with
  | nil =>
    cases x with
    | nil => rfl
    | cons i x => exact hx.elim
  | cons n shape ih =>
    cases x with
    | nil => exact hx.elim
    | cons i x =>
      obtain ⟨hi, hx⟩ := hx
      have hmean : ∀ y, InBounds y ((allFlagged shape).map (·.1)) →
          g (i :: y) - average n (fun j => g (j :: y)) = g (i :: y) := by
        intro y hy
        rw [map_fst_allFlagged] at hy
        rw [average, zeroSumAlong_zero.mp (hg 0 (Nat.zero_lt_succ _)) y hy, zero_div, sub_zero]
      have htail : ∀ axis < shape.length, ZeroSumAlong shape axis fun y => g (i :: y) := by
        intro axis haxis
        exact zeroSumAlong_succ.mp (hg (axis + 1) (Nat.succ_lt_succ haxis)) i hi
      show pureLine (allFlagged shape) (fun y => g (i :: y) - average n fun j => g (j :: y)) x =
        g (i :: x)
      rw [pureLine_congr hmean ((keptShape_allFlagged shape).symm ▸ hx)]
      exact ih htail hx

end All

end SplitPlot
