import Mathlib
import SplitPlot.Proofs.Design.Completion
import SplitPlot.Proofs.PureEffect

/-!
# Sums over positions and over sets of factors

The identities of a decomposition are sums over two kinds of index: the positions of a table and the
sets of factors that are kept.  Both are split off one axis at a time.

* `sum_positions_cons`: a sum over the positions of a shape is a sum over the first level and the
  positions of the other axes.
* `sum_powerset_flagged_cons`: a sum over the sets of factors of a list is a sum over those of the
  tail, in which each term occurs twice, once without and once with the first factor.

## Why flags

A set of factors enters a term only through the flags it puts on the axes (`flagged`).  So what is
split off is a flagged axis and not a factor, and nobody has to say that a term does not depend on
factors that are not listed.
-/

namespace SplitPlot

open Finset

/-! ## Positions -/

/-- The positions of a shape. -/
def positions (shape : List ℕ) : Finset (List ℕ) := (multiIndices shape).toFinset

theorem mem_positions {shape index : List ℕ} : index ∈ positions shape ↔ InBounds index shape := by
  rw [positions, List.mem_toFinset, mem_multiIndices]

theorem mem_positions_pair {m n : ℕ} {x : List ℕ} :
    x ∈ positions [m, n] ↔ ∃ a < m, ∃ b < n, x = [a, b] := by
  rw [mem_positions]
  constructor
  · intro h
    match x, h with
    | [a, b], ⟨ha, hb, _⟩ => exact ⟨a, ha, b, hb, rfl⟩
  · rintro ⟨a, ha, b, hb, rfl⟩
    exact ⟨ha, hb, trivial⟩

variable {M : Type} [AddCommMonoid M]

/-- A sum over the readings of the odometer is a sum over the positions. -/
theorem sum_map_multiIndices (shape : List ℕ) (g : List ℕ → M) :
    ((multiIndices shape).map g).sum = ∑ x ∈ positions shape, g x :=
  (List.sum_toFinset g (nodup_multiIndices shape)).symm

theorem sum_map_range (n : ℕ) (g : ℕ → M) : ((List.range n).map g).sum = ∑ i ∈ range n, g i := by
  rw [← List.sum_toFinset g List.nodup_range, List.toFinset_range]

/-- A sum over the numbers of the positions is a sum over the positions. -/
theorem sum_range_unravel (shape : List ℕ) (g : List ℕ → M) :
    ∑ i ∈ range (cellCount shape), g (unravel shape i) = ∑ x ∈ positions shape, g x := by
  rw [← sum_map_multiIndices, multiIndices_eq, List.map_map, ← sum_map_range]
  rfl

@[simp] theorem positions_nil : positions [] = {[]} := rfl

theorem card_positions (shape : List ℕ) : (positions shape).card = cellCount shape := by
  rw [positions, List.toFinset_card_of_nodup (nodup_multiIndices shape), length_multiIndices]

/-- The first axis is split off. -/
theorem sum_positions_cons (n : ℕ) (shape : List ℕ) (g : List ℕ → M) :
    ∑ x ∈ positions (n :: shape), g x =
      ∑ i ∈ range n, ∑ x ∈ positions shape, g (i :: x) := by
  rw [← sum_product' (range n) (positions shape) fun i x => g (i :: x)]
  refine (sum_bij (fun p _ => p.1 :: p.2) ?_ ?_ ?_ fun _ _ => rfl).symm
  · rintro ⟨i, x⟩ h
    obtain ⟨hi, hx⟩ := mem_product.mp h
    exact mem_positions.mpr ⟨mem_range.mp hi, mem_positions.mp hx⟩
  · rintro ⟨i, x⟩ - ⟨j, y⟩ - h
    obtain ⟨rfl, rfl⟩ := List.cons.inj h
    rfl
  · intro x hx
    obtain _ | ⟨i, x⟩ := x
    · exact (mem_positions.mp hx).elim
    · obtain ⟨hi, hx⟩ := mem_positions.mp hx
      exact ⟨(i, x), mem_product.mpr ⟨mem_range.mpr hi, mem_positions.mpr hx⟩, rfl⟩

/-! ## Flagged axes of listed factors -/

/-- The axes of the listed factors, those of the factors of a set flagged. -/
def flagged (extent : ℕ → ℕ) (factors : List ℕ) (A : Finset ℕ) : List FlaggedAxis :=
  factors.map fun f => (extent f, decide (f ∈ A))

variable (extent : ℕ → ℕ)

@[simp] theorem flagged_nil (A : Finset ℕ) : flagged extent [] A = [] := rfl

theorem flagged_cons_of_mem {f : ℕ} {A : Finset ℕ} (hf : f ∈ A) (factors : List ℕ) :
    flagged extent (f :: factors) A = (extent f, true) :: flagged extent factors A := by
  rw [flagged, List.map_cons, decide_eq_true hf]
  rfl

theorem flagged_cons_of_notMem {f : ℕ} {A : Finset ℕ} (hf : f ∉ A) (factors : List ℕ) :
    flagged extent (f :: factors) A = (extent f, false) :: flagged extent factors A := by
  rw [flagged, List.map_cons, decide_eq_false hf]
  rfl

@[simp] theorem map_fst_flagged (factors : List ℕ) (A : Finset ℕ) :
    (flagged extent factors A).map (·.1) = factors.map extent := List.map_map

@[simp] theorem length_flagged (factors : List ℕ) (A : Finset ℕ) :
    (flagged extent factors A).length = factors.length := List.length_map _

/-- Factors that are not listed put no flag. -/
theorem flagged_congr {factors : List ℕ} {A B : Finset ℕ} (h : ∀ f ∈ factors, f ∈ A ↔ f ∈ B) :
    flagged extent factors A = flagged extent factors B :=
  List.map_congr_left fun f hf => by rw [decide_eq_decide.mpr (h f hf)]

/-- With the factors of a source flagged, these are the axes of the source. -/
theorem flags_eq_flagged {K : Type} (c : Coding K) {factors : List ℕ} (h : ∀ f ∈ factors, f < 16)
    (s : Source) : c.flags factors s = flagged c.levelCount factors s.toFinset := by
  refine List.map_congr_left fun f hf => ?_
  have hflag : s.contains f = decide (f ∈ s.toFinset) := by
    rw [Bool.eq_iff_iff, decide_eq_true_eq, Source.contains_iff]
    exact and_iff_right (h f hf)
  rw [hflag]

/-! ## Sums over sets of factors -/

/-- The first factor is split off: it is in a set or not. -/
theorem sum_powerset_insert_flagged {f : ℕ} {factors : List ℕ} (hf : f ∉ factors) {S : Finset ℕ}
    (hS : f ∉ S) (g : List FlaggedAxis → M) :
    ∑ A ∈ (insert f S).powerset, g (flagged extent (f :: factors) A) =
      ∑ A ∈ S.powerset, (g ((extent f, false) :: flagged extent factors A) +
        g ((extent f, true) :: flagged extent factors A)) := by
  rw [sum_powerset_insert hS, ← sum_add_distrib]
  refine sum_congr rfl fun A hA => ?_
  have hfA : f ∉ A := fun h => hS (mem_powerset.mp hA h)
  have hrest : flagged extent factors (insert f A) = flagged extent factors A :=
    flagged_congr extent fun e he => by
      rw [mem_insert, or_iff_right]
      rintro rfl
      exact hf he
  rw [flagged_cons_of_notMem extent hfA, flagged_cons_of_mem extent (mem_insert_self f A), hrest]

/-- The first factor is in no set. -/
theorem sum_powerset_flagged_of_notMem {f : ℕ} (factors : List ℕ) {S : Finset ℕ} (hS : f ∉ S)
    (g : List FlaggedAxis → M) :
    ∑ A ∈ S.powerset, g (flagged extent (f :: factors) A) =
      ∑ A ∈ S.powerset, g ((extent f, false) :: flagged extent factors A) :=
  sum_congr rfl fun A hA => by
    rw [flagged_cons_of_notMem extent fun h => hS (mem_powerset.mp hA h)]

/-- A sum over the sets of listed factors, the first factor split off. -/
theorem sum_powerset_flagged_cons {f : ℕ} {factors : List ℕ} (hf : f ∉ factors)
    (g : List FlaggedAxis → M) :
    ∑ A ∈ (f :: factors).toFinset.powerset, g (flagged extent (f :: factors) A) =
      ∑ A ∈ factors.toFinset.powerset, (g ((extent f, false) :: flagged extent factors A) +
        g ((extent f, true) :: flagged extent factors A)) := by
  rw [List.toFinset_cons]
  exact sum_powerset_insert_flagged extent hf (fun h => hf (List.mem_toFinset.mp h)) g

/-! ## The number of cells that a reduction joins -/

/-- The number of positions that agree on the axes that are kept. -/
def joined (axes : List FlaggedAxis) : ℕ := ((axes.filter fun a => !a.2).map (·.1)).prod

@[simp] theorem joined_nil : joined [] = 1 := rfl

@[simp] theorem joined_cons_true (n : ℕ) (axes : List FlaggedAxis) :
    joined ((n, true) :: axes) = joined axes := rfl

@[simp] theorem joined_cons_false (n : ℕ) (axes : List FlaggedAxis) :
    joined ((n, false) :: axes) = n * joined axes := by
  rw [joined, joined, List.filter_cons_of_pos rfl, List.map_cons, List.prod_cons]

/-- If no axis is kept, all cells are joined. -/
theorem joined_flagged_empty (extent : ℕ → ℕ) (factors : List ℕ) :
    joined (flagged extent factors ∅) = cellCount (factors.map extent) := by
  induction factors with
  | nil => rfl
  | cons f factors ih =>
    rw [flagged_cons_of_notMem extent (notMem_empty f), joined_cons_false, ih, List.map_cons,
      cellCount_cons]

theorem joined_pos {axes : List FlaggedAxis} (h : ∀ a ∈ axes, 0 < a.1) : 0 < joined axes := by
  rw [joined]
  refine List.prod_pos fun n hn => ?_
  obtain ⟨a, ha, rfl⟩ := List.mem_map.mp hn
  exact h a (List.mem_filter.mp ha).1

theorem joined_mul_cellCount_keptShape (axes : List FlaggedAxis) :
    joined axes * cellCount (keptShape axes) = cellCount (axes.map (·.1)) := by
  induction axes with
  | nil => rfl
  | cons a axes ih =>
    obtain ⟨n, _ | _⟩ := a
    · rw [joined_cons_false, keptShape_cons, List.map_cons, cellCount_cons, cellCount_cons, ← ih]
      simp [Nat.mul_assoc]
    · rw [joined_cons_true, keptShape_cons, List.map_cons, cellCount_cons, cellCount_cons, ← ih]
      simp [Nat.mul_left_comm]

end SplitPlot
