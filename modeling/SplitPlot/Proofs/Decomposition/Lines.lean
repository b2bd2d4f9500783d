import Mathlib
import SplitPlot.Proofs.Decomposition.Positions
import SplitPlot.Proofs.Exact

/-!
# Means and pure effects over a box of cells

A function on the positions of a shape is decomposed by the sets of axes.  `lineKeep mean` averages
it over the axes that are not flagged.  `pureLine` is the part that belongs to the flagged axes:
along a flagged axis it takes the mean away, along any other it takes the mean.

* `lineKeep_eq_sum_pureLine`: the mean over the axes outside a set is the sum of the parts of all
  its subsets.  So the part of a set is what its mean shows beyond the parts of its proper subsets,
  which is how an effect is computed.
* `sum_joined_mul_sum_sq_pureLine`: the squares of the parts, each counted as often as it occurs in
  the box, add up to the squares of the function.
* `pureLine_of_sum_ignores`: a sum of functions each of which does not look at one of the flagged
  axes has no part that belongs to all of them.

They go by induction on the axes, and the step is about a single axis: numbers are their mean and
what they are beyond it, and the two are orthogonal (`sum_sq_eq`).  Nothing is needed of several
axes except that both operations are linear.
-/

namespace SplitPlot

open Finset

/-! ## One axis -/

/-- The mean of the first `n` members of a sequence. -/
noncomputable def average (n : ℕ) (a : ℕ → ℝ) : ℝ := (∑ i ∈ range n, a i) / n

theorem mean_map_range (n : ℕ) (a : ℕ → ℝ) : mean ((List.range n).map a) = average n a := by
  rw [mean_eq, sum_map_range, List.length_map, List.length_range, average]

theorem average_eq_sum (n : ℕ) (a : ℕ → ℝ) : average n a = ∑ i ∈ range n, (n : ℝ)⁻¹ * a i := by
  rw [average, div_eq_inv_mul, mul_sum]

theorem mul_average {n : ℕ} (hn : 0 < n) (a : ℕ → ℝ) : n * average n a = ∑ i ∈ range n, a i := by
  rw [average, mul_div_cancel₀ _ (Nat.cast_ne_zero.mpr hn.ne')]

theorem average_const {n : ℕ} (hn : 0 < n) (c : ℝ) : average n (fun _ => c) = c := by
  rw [average, sum_const, card_range, nsmul_eq_mul,
    mul_div_cancel_left₀ _ (Nat.cast_ne_zero.mpr hn.ne')]

/-- The squares of numbers about their mean are their squares less that of the mean, once for
each. -/
theorem sum_sub_sq {ι : Type} {s : Finset ι} {a : ι → ℝ} {c : ℝ} (hc : s.card * c = ∑ i ∈ s, a i) :
    ∑ i ∈ s, (a i - c) ^ 2 = ∑ i ∈ s, a i ^ 2 - s.card * c ^ 2 := by
  have hterm : ∀ i, (a i - c) ^ 2 = a i ^ 2 - 2 * c * a i + c ^ 2 := fun i => by ring
  simp only [hterm, sum_add_distrib, sum_sub_distrib, ← mul_sum, sum_const, nsmul_eq_mul]
  rw [← hc]
  ring

/-- Numbers are orthogonal to what they are beyond their mean. -/
theorem sum_sq_eq {n : ℕ} (hn : 0 < n) (a : ℕ → ℝ) : ∑ i ∈ range n, a i ^ 2 =
    n * average n a ^ 2 + ∑ i ∈ range n, (a i - average n a) ^ 2 := by
  have hmean : (range n).card * average n a = ∑ i ∈ range n, a i := by
    rw [card_range, mul_average hn]
  rw [sum_sub_sq hmean, card_range, add_sub_cancel]

/-! ## Several axes -/

/-- The part of a function that belongs to the flagged axes. -/
noncomputable def pureLine : List FlaggedAxis → (List ℕ → ℝ) → List ℕ → ℝ
  | [], g, index => g index
  | _ :: _, g, [] => g []
  | (n, true) :: axes, g, i :: index =>
    pureLine axes (fun x => g (i :: x) - average n fun j => g (j :: x)) index
  | (n, false) :: axes, g, _ :: index =>
    pureLine axes (fun x => average n fun j => g (j :: x)) index

/-! ### Linearity -/

section Linear

/-- A way of reading a function that respects sums and multiples. -/
theorem map_sum_mul {φ : (List ℕ → ℝ) → ℝ} (hφ : IsLinearMap ℝ φ) (s : Finset ℕ) (c : ℕ → ℝ)
    (g : ℕ → List ℕ → ℝ) :
    φ (fun x => ∑ j ∈ s, c j * g j x) = ∑ j ∈ s, c j * φ (g j) := by
  have hfun : (fun x => ∑ j ∈ s, c j * g j x) = ∑ j ∈ s, c j • g j := by
    ext x
    rw [Finset.sum_apply]
    rfl
  rw [hfun]
  show IsLinearMap.mk' φ hφ _ = _
  rw [map_sum]
  exact sum_congr rfl fun j _ => map_smul (IsLinearMap.mk' φ hφ) (c j) (g j)

/-- What is zero on each part of a sum is zero on the sum. -/
theorem map_sum_eq_zero {φ : (List ℕ → ℝ) → ℝ} (hφ : IsLinearMap ℝ φ)
    {parts : List (ℕ × (List ℕ → ℝ))} (h : ∀ p ∈ parts, φ p.2 = 0) :
    φ (fun x => (parts.map fun p => p.2 x).sum) = 0 := by
  induction parts with
  | nil => exact hφ.map_zero
  | cons p parts ih =>
    obtain ⟨hp, hparts⟩ := List.forall_mem_cons.mp h
    have hsum : (fun x => ((p :: parts).map fun p => p.2 x).sum) =
        p.2 + fun x => (parts.map fun p => p.2 x).sum := by
      ext x
      rw [List.map_cons, List.sum_cons]
      rfl
    rw [hsum, hφ.map_add, hp, ih hparts, add_zero]

theorem map_average {φ : (List ℕ → ℝ) → ℝ} (hφ : IsLinearMap ℝ φ) (n : ℕ)
    (g : ℕ → List ℕ → ℝ) :
    φ (fun x => average n fun j => g j x) = average n fun j => φ (g j) := by
  rw [average_eq_sum, ← map_sum_mul hφ]
  simp only [average_eq_sum]

theorem isLinearMap_cons (i : ℕ) : IsLinearMap ℝ fun (g : List ℕ → ℝ) (x : List ℕ) => g (i :: x) :=
  ⟨fun _ _ => rfl, fun _ _ => rfl⟩

/-- The mean along the first axis respects sums and multiples. -/
theorem isLinearMap_average (n : ℕ) :
    IsLinearMap ℝ fun (g : List ℕ → ℝ) (x : List ℕ) => average n fun j => g (j :: x) where
  map_add g h := by
    ext x
    simp only [average, Pi.add_apply, sum_add_distrib, add_div]
  map_smul c g := by
    ext x
    simp only [average, Pi.smul_apply, smul_eq_mul, ← mul_sum, mul_div_assoc]

theorem isLinearMap_lineKeep : ∀ (axes : List FlaggedAxis) (index : List ℕ),
    IsLinearMap ℝ fun g : List ℕ → ℝ => lineKeep mean axes g index
  | [], _ => ⟨fun _ _ => rfl, fun _ _ => rfl⟩
  | _ :: _, [] => ⟨fun _ _ => rfl, fun _ _ => rfl⟩
  | (_, true) :: axes, i :: index =>
    ((isLinearMap_lineKeep axes index).mk' _).comp ((isLinearMap_cons i).mk' _) |>.isLinear
  | (n, false) :: axes, _ :: index => by
    have h := (((isLinearMap_lineKeep axes index).mk' _).comp
      ((isLinearMap_average n).mk' _)).isLinear
    convert h using 2 with g
    rw [lineKeep, mean_map_range]
    exact (map_average (isLinearMap_lineKeep axes index) n _).symm

theorem isLinearMap_lineDrop : ∀ (axes : List FlaggedAxis) (index : List ℕ),
    IsLinearMap ℝ fun g : List ℕ → ℝ => lineDrop mean axes g index
  | [], _ => ⟨fun _ _ => rfl, fun _ _ => rfl⟩
  | (_, true) :: _, [] => ⟨fun _ _ => rfl, fun _ _ => rfl⟩
  | (_, true) :: axes, i :: index =>
    ((isLinearMap_lineDrop axes index).mk' _).comp ((isLinearMap_cons i).mk' _) |>.isLinear
  | (n, false) :: axes, index => by
    have h := (((isLinearMap_lineDrop axes index).mk' _).comp
      ((isLinearMap_average n).mk' _)).isLinear
    convert h using 2 with g
    rw [lineDrop, mean_map_range]
    exact (map_average (isLinearMap_lineDrop axes index) n _).symm

theorem isLinearMap_pureLine : ∀ (axes : List FlaggedAxis) (index : List ℕ),
    IsLinearMap ℝ fun g : List ℕ → ℝ => pureLine axes g index
  | [], _ => ⟨fun _ _ => rfl, fun _ _ => rfl⟩
  | _ :: _, [] => ⟨fun _ _ => rfl, fun _ _ => rfl⟩
  | (n, true) :: axes, i :: index =>
    (((isLinearMap_pureLine axes index).mk' _).comp
      ((isLinearMap_cons i).mk' _ - (isLinearMap_average n).mk' _)).isLinear
  | (n, false) :: axes, _ :: index =>
    (((isLinearMap_pureLine axes index).mk' _).comp ((isLinearMap_average n).mk' _)).isLinear

end Linear

/-! ### The parts of a function -/

section Parts

variable {extent : ℕ → ℕ}

/-- The mean over the axes outside a set is the sum of the parts of the subsets of the set. -/
theorem lineKeep_eq_sum_pureLine : ∀ {factors : List ℕ}, factors.Nodup → ∀ {S : Finset ℕ},
    S ⊆ factors.toFinset → ∀ (g : List ℕ → ℝ) {index : List ℕ}, factors.length ≤ index.length →
      lineKeep mean (flagged extent factors S) g index =
        ∑ B ∈ S.powerset, pureLine (flagged extent factors B) g index
  | [], _, S, hS, g, index, _ => by
    rw [Finset.subset_empty.mp hS]
    simp [lineKeep, pureLine]
  | f :: factors, hnodup, S, hS, g, i :: index, hlen => by
    obtain ⟨hf, hnodup⟩ := List.nodup_cons.mp hnodup
    have hlen := Nat.le_of_succ_le_succ hlen
    have hkeep : ∀ S ⊆ factors.toFinset, ∀ g, lineKeep mean (flagged extent factors S) g index =
        ∑ B ∈ S.powerset, pureLine (flagged extent factors B) g index := fun S hS g =>
      lineKeep_eq_sum_pureLine hnodup hS g hlen
    by_cases hfS : f ∈ S
    · -- the numbers along the axis are their mean and what they are beyond it
      have hrest : S.erase f ⊆ factors.toFinset := by
        rw [← Finset.subset_insert_iff, ← List.toFinset_cons]
        exact hS
      have hflag : flagged extent factors S = flagged extent factors (S.erase f) :=
        flagged_congr extent fun e he => by
          rw [mem_erase, and_iff_right]
          rintro rfl
          exact hf he
      have hsplit : ∀ axes, pureLine axes (fun x => g (i :: x)) index =
          pureLine axes (fun x => average (extent f) fun j => g (j :: x)) index +
            pureLine axes (fun x => g (i :: x) - average (extent f) fun j => g (j :: x)) index := by
        intro axes
        rw [← (isLinearMap_pureLine axes index).map_add]
        congr 1
        ext x
        exact (add_sub_cancel _ _).symm
      rw [flagged_cons_of_mem extent hfS, lineKeep, hflag, hkeep _ hrest]
      conv_rhs => rw [← Finset.insert_erase hfS]
      rw [sum_powerset_insert_flagged extent hf (Finset.notMem_erase f S)
        fun axes => pureLine axes g (i :: index)]
      exact sum_congr rfl fun B _ => hsplit _
    · have hrest : S ⊆ factors.toFinset := by
        rw [List.toFinset_cons] at hS
        exact (Finset.subset_insert_iff_of_notMem hfS).mp hS
      rw [flagged_cons_of_notMem extent hfS, lineKeep, mean_map_range,
        ← map_average (isLinearMap_lineKeep (flagged extent factors S) index), hkeep _ hrest,
        sum_powerset_flagged_of_notMem extent factors hfS fun axes => pureLine axes g (i :: index)]
      rfl

/-- The squares of the parts of a function add up to its squares. -/
theorem sum_joined_mul_sum_sq_pureLine : ∀ {factors : List ℕ}, factors.Nodup →
    (∀ f ∈ factors, 0 < extent f) → ∀ g : List ℕ → ℝ,
      ∑ A ∈ factors.toFinset.powerset, (joined (flagged extent factors A) : ℝ) *
        ∑ x ∈ positions (keptShape (flagged extent factors A)),
          pureLine (flagged extent factors A) g x ^ 2 =
        ∑ x ∈ positions (factors.map extent), g x ^ 2
  | [], _, _, g => by simp [keptShape, pureLine]
  | f :: factors, hnodup, hpos, g => by
    obtain ⟨hf, hnodup⟩ := List.nodup_cons.mp hnodup
    obtain ⟨hfpos, hpos⟩ := List.forall_mem_cons.mp hpos
    have ih := sum_joined_mul_sum_sq_pureLine hnodup hpos
    have hmean : ∀ axes : List FlaggedAxis, (joined ((extent f, false) :: axes) : ℝ) *
        ∑ x ∈ positions (keptShape ((extent f, false) :: axes)),
          pureLine ((extent f, false) :: axes) g x ^ 2 =
        extent f * (joined axes * ∑ x ∈ positions (keptShape axes),
          pureLine axes (fun x => average (extent f) fun j => g (j :: x)) x ^ 2) := by
      intro axes
      rw [joined_cons_false, keptShape_cons, if_neg Bool.false_ne_true, sum_positions_cons,
        sum_range_one, Nat.cast_mul, mul_assoc]
      rfl
    have hbeyond : ∀ axes : List FlaggedAxis, (joined ((extent f, true) :: axes) : ℝ) *
        ∑ x ∈ positions (keptShape ((extent f, true) :: axes)),
          pureLine ((extent f, true) :: axes) g x ^ 2 =
        ∑ i ∈ range (extent f), (joined axes * ∑ x ∈ positions (keptShape axes), pureLine axes
          (fun x => g (i :: x) - average (extent f) fun j => g (j :: x)) x ^ 2) := by
      intro axes
      rw [joined_cons_true, keptShape_cons, if_pos rfl, sum_positions_cons, mul_sum]
      rfl
    rw [sum_powerset_flagged_cons extent hf fun axes => (joined axes : ℝ) *
      ∑ x ∈ positions (keptShape axes), pureLine axes g x ^ 2]
    simp only [hmean, hbeyond]
    rw [sum_add_distrib, ← mul_sum, ih, sum_comm]
    simp only [ih]
    rw [List.map_cons, sum_positions_cons, sum_comm, sum_comm (s := range (extent f)), mul_sum,
      ← sum_add_distrib]
    exact sum_congr rfl fun x _ => (sum_sq_eq hfpos fun i => g (i :: x)).symm

/-! ### Means over all cells -/

/-- Averages are averaged to the average of all. -/
theorem joined_mul_sum_lineKeep : ∀ {axes : List FlaggedAxis}, (∀ a ∈ axes, 0 < a.1) →
    ∀ g : List ℕ → ℝ, (joined axes : ℝ) * ∑ x ∈ positions (keptShape axes), lineKeep mean axes g x =
      ∑ x ∈ positions (axes.map (·.1)), g x
  | [], _, g => by simp [keptShape, lineKeep]
  | (n, false) :: axes, hpos, g => by
    obtain ⟨hn, hpos⟩ := List.forall_mem_cons.mp hpos
    have ih := joined_mul_sum_lineKeep hpos
    rw [joined_cons_false, keptShape_cons, if_neg Bool.false_ne_true, sum_positions_cons,
      sum_range_one, Nat.cast_mul, List.map_cons, sum_positions_cons, ← mul_average hn, mul_assoc]
    refine congrArg ((n : ℝ) * ·) ?_
    have hline : ∀ x, lineKeep mean ((n, false) :: axes) g (0 :: x) =
        lineKeep mean axes (fun y => average n fun j => g (j :: y)) x := fun x => by
      rw [lineKeep, mean_map_range, ← map_average (isLinearMap_lineKeep axes x)]
    simp only [hline]
    rw [ih]
    simp only [average]
    rw [← sum_div, sum_comm]
  | (n, true) :: axes, hpos, g => by
    obtain ⟨-, hpos⟩ := List.forall_mem_cons.mp hpos
    rw [joined_cons_true, keptShape_cons, if_pos rfl, sum_positions_cons, List.map_cons,
      sum_positions_cons, mul_sum]
    exact sum_congr rfl fun i _ => joined_mul_sum_lineKeep hpos fun x => g (i :: x)

/-- The part of no axis is the mean over all cells. -/
theorem pureLine_empty : ∀ (factors : List ℕ) (g : List ℕ → ℝ) {index : List ℕ},
    index.length = factors.length → pureLine (flagged extent factors ∅) g index =
      (∑ x ∈ positions (factors.map extent), g x) / cellCount (factors.map extent)
  | [], g, index, hlen => by
    rw [List.length_eq_zero_iff.mp hlen]
    simp [pureLine]
  | f :: factors, g, i :: index, hlen => by
    have ih := pureLine_empty factors (fun x => average (extent f) fun j => g (j :: x))
      (Nat.succ.inj hlen)
    rw [flagged_cons_of_notMem extent (Finset.notMem_empty f), pureLine, ih, List.map_cons,
      sum_positions_cons, cellCount_cons, sum_comm]
    simp only [average]
    rw [← sum_div, div_div, Nat.cast_mul]

end Parts

/-! ### Functions that do not look at an axis -/

section Ignored

/-- The axes of a table that was reduced along those that are not flagged. -/
def keptAxes (axes : List FlaggedAxis) : List FlaggedAxis :=
  axes.map fun a => (if a.2 then a.1 else 1, a.2)

theorem map_fst_keptAxes (axes : List FlaggedAxis) : (keptAxes axes).map (·.1) = keptShape axes :=
  List.map_map

theorem keptShape_keptAxes (axes : List FlaggedAxis) :
    keptShape (keptAxes axes) = keptShape axes := by
  rw [keptShape, keptShape, keptAxes, List.map_map]
  refine List.map_congr_left fun a _ => ?_
  obtain ⟨n, _ | _⟩ := a <;> rfl

/-- The part of the flagged axes can be read off the means over the other axes. -/
theorem pureLine_lineKeep : ∀ (axes : List FlaggedAxis) (g : List ℕ → ℝ) (index : List ℕ),
    pureLine (keptAxes axes) (lineKeep mean axes g) index = pureLine axes g index
  | [], _, _ => rfl
  | _ :: _, _, [] => rfl
  | (n, true) :: axes, g, i :: index => by
    have hbeyond : (fun x => lineKeep mean axes (fun y => g (i :: y)) x -
        average n fun j => lineKeep mean axes (fun y => g (j :: y)) x) =
          lineKeep mean axes fun x => g (i :: x) - average n fun j => g (j :: x) := by
      ext x
      rw [← map_average (isLinearMap_lineKeep axes x)]
      exact ((isLinearMap_lineKeep axes x).map_sub _ _).symm
    show pureLine (keptAxes axes) (fun x => lineKeep mean axes (fun y => g (i :: y)) x -
      average n fun j => lineKeep mean axes (fun y => g (j :: y)) x) index = _
    rw [hbeyond, pureLine_lineKeep]
    rfl
  | (n, false) :: axes, g, _ :: index => by
    have hmean : (fun x => average 1 fun _ => mean ((List.range n).map fun j =>
        lineKeep mean axes (fun y => g (j :: y)) x)) =
          lineKeep mean axes fun x => average n fun j => g (j :: x) := by
      ext x
      rw [average_const Nat.one_pos, mean_map_range, map_average (isLinearMap_lineKeep axes x)]
    show pureLine (keptAxes axes) (fun x => average 1 fun _ => mean ((List.range n).map fun j =>
      lineKeep mean axes (fun y => g (j :: y)) x)) index = _
    rw [hmean, pureLine_lineKeep]
    rfl

/-- A part depends on the positions of the table only. -/
theorem pureLine_congr : ∀ {axes : List FlaggedAxis} {g h : List ℕ → ℝ},
    (∀ x, InBounds x (axes.map (·.1)) → g x = h x) → ∀ {index : List ℕ},
      InBounds index (keptShape axes) → pureLine axes g index = pureLine axes h index
  | [], _, _, heq, [], _ => heq [] trivial
  | (n, true) :: axes, g, h, heq, i :: index, hin => by
    show pureLine axes (fun x => g (i :: x) - average n fun j => g (j :: x)) index =
      pureLine axes (fun x => h (i :: x) - average n fun j => h (j :: x)) index
    refine pureLine_congr (fun x hx => ?_) hin.2
    rw [heq (i :: x) ⟨hin.1, hx⟩, average, average,
      sum_congr rfl fun j hj => heq (j :: x) ⟨mem_range.mp hj, hx⟩]
  | (n, false) :: axes, g, h, heq, _ :: index, hin => by
    show pureLine axes (fun x => average n fun j => g (j :: x)) index =
      pureLine axes (fun x => average n fun j => h (j :: x)) index
    refine pureLine_congr (fun x hx => ?_) hin.2
    rw [average, average, sum_congr rfl fun j hj => heq (j :: x) ⟨mem_range.mp hj, hx⟩]

/-- A function on the positions of a shape that does not look at the level along an axis. -/
def IgnoresAxis (shape : List ℕ) (axis : ℕ) (g : List ℕ → ℝ) : Prop :=
  ∀ x i, InBounds x shape → InBounds (x.set axis i) shape → g (x.set axis i) = g x

theorem IgnoresAxis.tail {n axis : ℕ} {shape : List ℕ} {g : List ℕ → ℝ}
    (h : IgnoresAxis (n :: shape) (axis + 1) g) {i : ℕ} (hi : i < n) :
    IgnoresAxis shape axis fun x => g (i :: x) :=
  fun x j hx hset => h (i :: x) j ⟨hi, hx⟩ ⟨hi, hset⟩

/-- A function that does not look at a flagged axis has no part that belongs to the flagged axes. -/
theorem pureLine_of_ignores : ∀ {axes : List FlaggedAxis} {axis n : ℕ} {g : List ℕ → ℝ},
    axes[axis]? = some (n, true) → IgnoresAxis (axes.map (·.1)) axis g → ∀ {index : List ℕ},
      InBounds index (keptShape axes) → pureLine axes g index = 0
  | (m, true) :: axes, 0, _, g, _, hg, i :: index, hin => by
    -- along the ignored axis the function is its own mean
    have hzero : ∀ x, InBounds x (axes.map (·.1)) →
        (g (i :: x) - average m fun j => g (j :: x)) = 0 := fun x hx => by
      have hconst : ∀ j ∈ range m, g (j :: x) = g (i :: x) := fun j hj =>
        hg (i :: x) j ⟨hin.1, hx⟩ ⟨mem_range.mp hj, hx⟩
      rw [average, sum_congr rfl hconst]
      exact sub_eq_zero.mpr (average_const (Nat.zero_lt_of_lt hin.1) _).symm
    show pureLine axes (fun x => g (i :: x) - average m fun j => g (j :: x)) index = 0
    rw [pureLine_congr hzero hin.2]
    exact (isLinearMap_pureLine axes index).map_zero
  | (m, true) :: axes, axis + 1, n, g, haxis, hg, i :: index, hin => by
    have htail : axes[axis]? = some (n, true) := haxis
    refine pureLine_of_ignores htail (fun x j hx hset => ?_) hin.2
    have hrow : ∀ k < m, g (k :: x.set axis j) = g (k :: x) := fun k hk => hg.tail hk x j hx hset
    rw [hrow i hin.1, average, average, sum_congr rfl fun k hk => hrow k (mem_range.mp hk)]
  | (m, false) :: axes, axis + 1, n, g, haxis, hg, _ :: index, hin => by
    have htail : axes[axis]? = some (n, true) := haxis
    refine pureLine_of_ignores htail (fun x j hx hset => ?_) hin.2
    rw [average, average, sum_congr rfl fun k hk => hg.tail (mem_range.mp hk) x j hx hset]

/-- Nor has a sum of such functions. -/
theorem pureLine_of_sum_ignores {axes : List FlaggedAxis} {index : List ℕ}
    (hin : InBounds index (keptShape axes)) {parts : List (ℕ × (List ℕ → ℝ))}
    (h : ∀ p ∈ parts,
      (∃ n, axes[p.1]? = some (n, true)) ∧ IgnoresAxis (axes.map (·.1)) p.1 p.2) :
    pureLine axes (fun x => (parts.map fun p => p.2 x).sum) index = 0 := by
  refine map_sum_eq_zero (isLinearMap_pureLine axes index) fun p hp => ?_
  obtain ⟨⟨n, hn⟩, hignores⟩ := h p hp
  exact pureLine_of_ignores hn hignores hin

end Ignored

end SplitPlot
