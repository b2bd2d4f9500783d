import Mathlib
import SplitPlot.Proofs.Decomposition.Lines

/-!
# Means over the positions that agree

A reduction takes one axis after another, in the order in which the factors are listed.  The value
it arrives at does not depend on that order: the mean over the axes outside a set `S` of factors is
the mean over all positions that have the levels of the given one at the factors of `S`
(`joined_mul_lineKeep`).  A position is read here by factors and not by axes: `levelAt` is the level
that it gives to a factor.

The harmonic mean is the reciprocal of the mean of the reciprocals, over several axes as over one
(`inv_lineKeep_harmonicMean`), so it needs no second computation.

A function that looks at the factors of `S` only is its own mean (`lineKeep_of_agree`), and to add
it up over the positions of a reduced table is to add it up over all positions, up to the number of
positions that are joined (`joined_mul_sum_keptShape`).
-/

namespace SplitPlot

open Finset

/-! ## Levels of a position -/

/-- The level that a position gives to a listed factor. -/
def levelAt (factors x : List ℕ) (f : ℕ) : ℕ := x.getD (factors.idxOf f) 0

@[simp] theorem levelAt_cons_self (f i : ℕ) (factors x : List ℕ) :
    levelAt (f :: factors) (i :: x) f = i := by
  rw [levelAt, List.idxOf_cons_self, List.getD_cons_zero]

theorem levelAt_cons_of_ne {f g : ℕ} (h : f ≠ g) (i : ℕ) (factors x : List ℕ) :
    levelAt (g :: factors) (i :: x) f = levelAt factors x f := by
  rw [levelAt, List.idxOf_cons_ne _ h.symm, List.getD_cons_succ, levelAt]

theorem levelAt_map {factors : List ℕ} (a : ℕ → ℕ) {f : ℕ} (hf : f ∈ factors) :
    levelAt factors (factors.map a) f = a f := by
  have hlt : factors.idxOf f < factors.length := List.idxOf_lt_length_of_mem hf
  rw [levelAt, List.getD_eq_getElem _ _ (by rwa [List.length_map]), List.getElem_map,
    List.getElem_idxOf hlt]

/-- A position is the list of the levels it gives to the factors. -/
theorem map_levelAt {factors x : List ℕ} (hnodup : factors.Nodup)
    (hlen : x.length = factors.length) : factors.map (levelAt factors x) = x := by
  refine List.ext_getElem (by rw [List.length_map, hlen]) fun i hi hi' => ?_
  rw [List.getElem_map, levelAt, hnodup.idxOf_getElem i (hlen ▸ hi'), List.getD_eq_getElem _ _ hi']

variable {extent : ℕ → ℕ} {factors : List ℕ} {S : Finset ℕ}

theorem length_of_mem_positions {x : List ℕ} (hx : x ∈ positions (factors.map extent)) :
    x.length = factors.length := by
  rw [(mem_positions.mp hx).length_eq, List.length_map]

theorem levelAt_lt {x : List ℕ} (hx : x ∈ positions (factors.map extent)) {f : ℕ}
    (hf : f ∈ factors) : levelAt factors x f < extent f := by
  induction factors generalizing x with
  | nil => exact absurd hf List.not_mem_nil
  | cons g factors ih =>
    match x, mem_positions.mp hx with
    | i :: x, ⟨hi, hx⟩ =>
      by_cases h : f = g
      · rw [h, levelAt_cons_self]
        exact hi
      · rw [levelAt_cons_of_ne h]
        exact ih (mem_positions.mpr hx) ((List.mem_cons.mp hf).resolve_left h)

theorem map_mem_positions {a : ℕ → ℕ} (h : ∀ f ∈ factors, a f < extent f) :
    factors.map a ∈ positions (factors.map extent) := mem_positions.mpr (inBounds_map.mpr h)

/-! ## Agreement -/

/-- Two positions have the same levels at the listed factors of a set. -/
def Agree (factors : List ℕ) (S : Finset ℕ) (x y : List ℕ) : Prop :=
  ∀ f ∈ factors, f ∈ S → levelAt factors x f = levelAt factors y f

instance (factors : List ℕ) (S : Finset ℕ) (x y : List ℕ) : Decidable (Agree factors S x y) :=
  inferInstanceAs (Decidable (∀ f ∈ factors, f ∈ S → levelAt factors x f = levelAt factors y f))

theorem Agree.mono {T : Finset ℕ} {x y : List ℕ} (h : Agree factors S x y) (hTS : T ⊆ S) :
    Agree factors T x y := fun f hf hT => h f hf (hTS hT)

theorem agree_cons_iff {f : ℕ} (hf : f ∉ factors) {i j : ℕ} {x y : List ℕ} :
    Agree (f :: factors) S (i :: x) (j :: y) ↔ (f ∈ S → i = j) ∧ Agree factors S x y := by
  have hne : ∀ e ∈ factors, e ≠ f := fun e he h => hf (h ▸ he)
  rw [Agree, List.forall_mem_cons, levelAt_cons_self, levelAt_cons_self]
  refine and_congr_right fun _ => forall₂_congr fun e he => ?_
  rw [levelAt_cons_of_ne (hne e he), levelAt_cons_of_ne (hne e he)]

/-- The positions that agree with a given one. -/
def alike (extent : ℕ → ℕ) (factors : List ℕ) (S : Finset ℕ) (x : List ℕ) : Finset (List ℕ) :=
  (positions (factors.map extent)).filter (Agree factors S x)

theorem mem_alike {x y : List ℕ} : y ∈ alike extent factors S x ↔
    y ∈ positions (factors.map extent) ∧ Agree factors S x y := mem_filter

/-- The level of the first factor is the given one. -/
theorem sum_alike_cons_of_mem {f : ℕ} (hf : f ∉ factors) (hS : f ∈ S) {i : ℕ} (hi : i < extent f)
    (x : List ℕ) (g : List ℕ → ℝ) :
    ∑ y ∈ alike extent (f :: factors) S (i :: x), g y =
      ∑ y ∈ alike extent factors S x, g (i :: y) := by
  rw [alike, sum_filter, List.map_cons, sum_positions_cons, alike, sum_filter,
    sum_eq_single_of_mem i (mem_range.mpr hi)]
  · refine sum_congr rfl fun y _ => if_congr ?_ rfl rfl
    rw [agree_cons_iff hf]
    exact and_iff_right fun _ => rfl
  · intro j _ hj
    refine sum_eq_zero fun y _ => if_neg fun h => ?_
    exact hj (((agree_cons_iff hf).mp h).1 hS).symm

/-- The level of the first factor is any. -/
theorem sum_alike_cons_of_notMem {f : ℕ} (hf : f ∉ factors) (hS : f ∉ S) (i : ℕ) (x : List ℕ)
    (g : List ℕ → ℝ) : ∑ y ∈ alike extent (f :: factors) S (i :: x), g y =
      ∑ j ∈ range (extent f), ∑ y ∈ alike extent factors S x, g (j :: y) := by
  rw [alike, sum_filter, List.map_cons, sum_positions_cons]
  refine sum_congr rfl fun j _ => ?_
  rw [alike, sum_filter]
  refine sum_congr rfl fun y _ => if_congr ?_ rfl rfl
  rw [agree_cons_iff hf]
  exact and_iff_right fun h => absurd h hS

/-! ## Means -/

/-- The mean over the axes outside a set is the mean over the positions that agree on the set. -/
theorem joined_mul_lineKeep (hnodup : factors.Nodup) {x : List ℕ}
    (hx : x ∈ positions (factors.map extent)) (g : List ℕ → ℝ) :
    (joined (flagged extent factors S) : ℝ) * lineKeep mean (flagged extent factors S) g x =
      ∑ y ∈ alike extent factors S x, g y := by
  induction factors generalizing x g with
  | nil =>
    match x, mem_positions.mp hx with
    | [], _ =>
      have hself : alike extent [] S [] = {[]} := filter_true_of_mem fun y _ _ hf => nomatch hf
      rw [hself, sum_singleton, flagged_nil, joined_nil, Nat.cast_one, one_mul, lineKeep]
  | cons f factors ih =>
    obtain ⟨hf, hnodup⟩ := List.nodup_cons.mp hnodup
    cases x with
    | nil => exact (mem_positions.mp hx).elim
    | cons i x =>
      obtain ⟨hi, hx⟩ := mem_positions.mp hx
      have ih := fun g => ih hnodup (mem_positions.mpr hx) g
      by_cases hS : f ∈ S
      · rw [flagged_cons_of_mem extent hS, joined_cons_true, lineKeep, ih,
          sum_alike_cons_of_mem hf hS hi]
      · rw [flagged_cons_of_notMem extent hS, joined_cons_false, lineKeep, mean_map_range,
          Nat.cast_mul, mul_right_comm, mul_average (Nat.zero_lt_of_lt hi), sum_mul,
          sum_alike_cons_of_notMem hf hS]
        refine sum_congr rfl fun j _ => ?_
        rw [mul_comm, ih]

theorem joined_pos_of_mem {x : List ℕ} (hx : x ∈ positions (factors.map extent)) (S : Finset ℕ) :
    (0 : ℝ) < joined (flagged extent factors S) := by
  refine Nat.cast_pos.mpr (joined_pos fun a ha => ?_)
  obtain ⟨f, hf, rfl⟩ := List.mem_map.mp ha
  exact Nat.zero_lt_of_lt (levelAt_lt hx hf)

theorem lineKeep_eq_div (hnodup : factors.Nodup) {x : List ℕ}
    (hx : x ∈ positions (factors.map extent)) (g : List ℕ → ℝ) :
    lineKeep mean (flagged extent factors S) g x =
      (∑ y ∈ alike extent factors S x, g y) / joined (flagged extent factors S) := by
  rw [eq_div_iff (joined_pos_of_mem hx S).ne', mul_comm, joined_mul_lineKeep hnodup hx]

/-- A mean depends on the positions of the table only. -/
theorem lineKeep_congr (hnodup : factors.Nodup) {x : List ℕ}
    (hx : x ∈ positions (factors.map extent)) {g h : List ℕ → ℝ}
    (heq : ∀ y ∈ positions (factors.map extent), g y = h y) :
    lineKeep mean (flagged extent factors S) g x =
      lineKeep mean (flagged extent factors S) h x := by
  rw [lineKeep_eq_div hnodup hx, lineKeep_eq_div hnodup hx,
    sum_congr rfl fun y hy => heq y (mem_alike.mp hy).1]

theorem lineKeep_const (hnodup : factors.Nodup) {x : List ℕ}
    (hx : x ∈ positions (factors.map extent)) (c : ℝ) :
    lineKeep mean (flagged extent factors S) (fun _ => c) x = c := by
  induction factors generalizing x with
  | nil => rfl
  | cons f factors ih =>
    match x, mem_positions.mp hx with
    | i :: x, ⟨hi, hx⟩ =>
      have ih := ih (List.nodup_cons.mp hnodup).2 (mem_positions.mpr hx)
      by_cases hS : f ∈ S
      · rw [flagged_cons_of_mem extent hS, lineKeep, ih]
      · rw [flagged_cons_of_notMem extent hS, lineKeep, mean_map_range, ih,
          average_const (Nat.zero_lt_of_lt hi)]

/-- Positions that agree have the same positions that agree with them. -/
theorem alike_eq_of_agree {x y : List ℕ} (h : Agree factors S x y) :
    alike extent factors S x = alike extent factors S y := by
  refine filter_congr fun z _ => forall₂_congr fun f hf => ?_
  exact forall_congr' fun hS => by rw [h f hf hS]

theorem lineKeep_mean_eq_of_agree (hnodup : factors.Nodup) {x y : List ℕ}
    (hx : x ∈ positions (factors.map extent)) (hy : y ∈ positions (factors.map extent))
    (h : Agree factors S x y) (g : List ℕ → ℝ) :
    lineKeep mean (flagged extent factors S) g x =
      lineKeep mean (flagged extent factors S) g y := by
  rw [lineKeep_eq_div hnodup hx, lineKeep_eq_div hnodup hy, alike_eq_of_agree h]

/-- A function that looks at the factors of a set only is its own mean over the others. -/
theorem lineKeep_of_agree (hnodup : factors.Nodup) {g : List ℕ → ℝ} {x : List ℕ}
    (hx : x ∈ positions (factors.map extent))
    (hg : ∀ y ∈ positions (factors.map extent), Agree factors S x y → g y = g x) :
    lineKeep mean (flagged extent factors S) g x = g x := by
  have hconst : ∑ y ∈ alike extent factors S x, g y = ∑ y ∈ alike extent factors S x, g x :=
    sum_congr rfl fun y hy => hg y (mem_alike.mp hy).1 (mem_alike.mp hy).2
  rw [lineKeep_eq_div hnodup hx, hconst, ← lineKeep_eq_div hnodup hx fun _ => g x,
    lineKeep_const hnodup hx]

/-! ## Harmonic means -/

/-- The harmonic mean is the reciprocal of the mean of the reciprocals. -/
theorem inv_harmonicMean_map_range {n : ℕ} {a : ℕ → ℝ} (ha : ∀ i < n, 0 < a i) :
    (harmonicMean ((List.range n).map a))⁻¹ = average n fun i => (a i)⁻¹ := by
  rw [harmonicMean_eq, inv_div, List.map_map, List.length_map, List.length_range, average,
    ← sum_map_range]
  · rfl
  · intro y hy
    obtain ⟨i, hi, rfl⟩ := List.mem_map.mp hy
    exact (ha i (List.mem_range.mp hi)).ne'

theorem lineKeep_harmonicMean_pos {x : List ℕ} (hx : x ∈ positions (factors.map extent))
    {g : List ℕ → ℝ} (hg : ∀ y ∈ positions (factors.map extent), 0 < g y) :
    0 < lineKeep harmonicMean (flagged extent factors S) g x := by
  induction factors generalizing x g with
  | nil => exact hg x hx
  | cons f factors ih =>
    match x, mem_positions.mp hx with
    | i :: x, ⟨hi, hx⟩ =>
      have ih : ∀ j < extent f, 0 < lineKeep harmonicMean (flagged extent factors S)
          (fun y => g (j :: y)) x := fun j hj =>
        ih (mem_positions.mpr hx) fun y hy => hg _ (mem_positions.mpr ⟨hj, mem_positions.mp hy⟩)
      by_cases hS : f ∈ S
      · rw [flagged_cons_of_mem extent hS]
        exact ih i hi
      · rw [flagged_cons_of_notMem extent hS, lineKeep]
        refine harmonicMean_pos ?_ fun y hy => ?_
        · rw [Ne, List.map_eq_nil_iff, List.range_eq_nil]
          exact (Nat.zero_lt_of_lt hi).ne'
        · obtain ⟨j, hj, rfl⟩ := List.mem_map.mp hy
          exact ih j (List.mem_range.mp hj)

/-- Over several axes too, the harmonic mean is the reciprocal of the mean of the reciprocals. -/
theorem inv_lineKeep_harmonicMean {x : List ℕ} (hx : x ∈ positions (factors.map extent))
    {g : List ℕ → ℝ} (hg : ∀ y ∈ positions (factors.map extent), 0 < g y) :
    (lineKeep harmonicMean (flagged extent factors S) g x)⁻¹ =
      lineKeep mean (flagged extent factors S) (fun y => (g y)⁻¹) x := by
  induction factors generalizing x g with
  | nil => rfl
  | cons f factors ih =>
    match x, mem_positions.mp hx with
    | i :: x, ⟨hi, hx⟩ =>
      have hg : ∀ j < extent f, ∀ y ∈ positions (factors.map extent), 0 < g (j :: y) :=
        fun j hj y hy => hg _ (mem_positions.mpr ⟨hj, mem_positions.mp hy⟩)
      have hx := mem_positions.mpr hx
      by_cases hS : f ∈ S
      · rw [flagged_cons_of_mem extent hS]
        exact ih hx (hg i hi)
      · rw [flagged_cons_of_notMem extent hS, lineKeep, lineKeep, mean_map_range,
          inv_harmonicMean_map_range fun j hj => lineKeep_harmonicMean_pos hx (hg j hj), average,
          average, sum_congr rfl fun j hj => ih hx (hg j (mem_range.mp hj))]

theorem lineKeep_harmonicMean_eq_of_agree (hnodup : factors.Nodup) {x y : List ℕ}
    (hx : x ∈ positions (factors.map extent)) (hy : y ∈ positions (factors.map extent))
    (h : Agree factors S x y) {g : List ℕ → ℝ}
    (hg : ∀ z ∈ positions (factors.map extent), 0 < g z) :
    lineKeep harmonicMean (flagged extent factors S) g x =
      lineKeep harmonicMean (flagged extent factors S) g y := by
  refine inv_injective ?_
  rw [inv_lineKeep_harmonicMean hx hg, inv_lineKeep_harmonicMean hy hg,
    lineKeep_mean_eq_of_agree hnodup hx hy h]

/-! ## Reduced tables -/

/-- A position of a reduced table is one of the table itself. -/
theorem mem_positions_of_keptShape (hpos : ∀ f ∈ factors, 0 < extent f) {x : List ℕ}
    (hx : x ∈ positions (keptShape (flagged extent factors S))) :
    x ∈ positions (factors.map extent) := by
  rw [mem_positions] at hx ⊢
  induction factors generalizing x with
  | nil => exact hx
  | cons f factors ih =>
    obtain ⟨hf, hpos⟩ := List.forall_mem_cons.mp hpos
    match x, hx with
    | i :: x, ⟨hi, hx⟩ =>
      refine ⟨lt_of_lt_of_le hi ?_, ih hpos hx⟩
      show (if decide (f ∈ S) = true then extent f else 1) ≤ extent f
      split
      · exact le_rfl
      · exact hf

/-- A function that looks at the kept axes only is added up over a reduced table. -/
theorem joined_mul_sum_keptShape (hnodup : factors.Nodup) (hpos : ∀ f ∈ factors, 0 < extent f)
    {g : List ℕ → ℝ} (hg : ∀ x ∈ positions (factors.map extent),
      ∀ y ∈ positions (factors.map extent), Agree factors S x y → g y = g x) :
    (joined (flagged extent factors S) : ℝ) *
        ∑ x ∈ positions (keptShape (flagged extent factors S)), g x =
      ∑ x ∈ positions (factors.map extent), g x := by
  have haxes : ∀ a ∈ flagged extent factors S, 0 < a.1 := fun a ha => by
    obtain ⟨f, hf, rfl⟩ := List.mem_map.mp ha
    exact hpos f hf
  rw [← map_fst_flagged extent factors S, ← joined_mul_sum_lineKeep haxes]
  refine congrArg _ (sum_congr rfl fun x hx => ?_)
  have hx := mem_positions_of_keptShape hpos hx
  exact (lineKeep_of_agree hnodup hx (hg x hx)).symm

end SplitPlot
