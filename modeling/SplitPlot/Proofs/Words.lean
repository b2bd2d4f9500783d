import Mathlib
import SplitPlot.Machine
import SplitPlot.Proofs.Decomposition.Basis
import SplitPlot.Proofs.Success

/-!
# Sums of squared weights in 64 bits

A sum of squared weights is the same in 64 bits as among all whole numbers, as long as it is less
than `2 ^ 63` (`wordNorm_eq_ok`).  Otherwise some operation on the way to it is at fault
(`exists_wordNorm_eq_error`).  So it is the sum alone that has to fit.

What comes up on the way is no larger.  A weight has one factor for each axis, and where the first
of them have a large product, the cells that share them have a large sum of squares: over the axes
that are left the weights are not all zero (`squaredNorm_pos`).

The tenth power of the sum is at most the power 47 of the number of cells (`squaredNorm_pow_le`),
which leaves room for ten thousand cells (`squaredNorm_lt_of_cellCount_le`).  Twice as many can be
too many.
-/

namespace SplitPlot

/-! ## Operations that give the exact result or overflow -/

/-- The outcome is the whole number itself, in its 64 bits, or the fault of an operation whose
result has more. -/
def IsWordOf (n : ℤ) (r : Except Fault ℤ) : Prop :=
  (r = .ok n ∧ n < 2 ^ 63) ∨ ∃ operation, r = .error (.overflow operation)

theorem word_bounds {n : ℤ} : Int64.minValue.toInt ≤ n ∧ n ≤ Int64.maxValue.toInt ↔
    -(2 ^ 63) ≤ n ∧ n < 2 ^ 63 := by
  rw [Int64.toInt_minValue, Int64.toInt_maxValue, Int.le_sub_one_iff]

theorem inWord_eq_ok (operation : String) {n : ℤ} (h : -(2 ^ 63) ≤ n ∧ n < 2 ^ 63) :
    inWord operation n = .ok n := if_pos (word_bounds.mpr h)

theorem isWordOf_inWord (operation : String) (n : ℤ) : IsWordOf n (inWord operation n) := by
  by_cases h : -(2 ^ 63) ≤ n ∧ n < 2 ^ 63
  · exact .inl ⟨inWord_eq_ok operation h, h.2⟩
  · exact .inr ⟨operation, if_neg (mt word_bounds.mp h)⟩

theorem IsWordOf.bind {m n : ℤ} {r : Except Fault ℤ} {f : ℤ → Except Fault ℤ} (hr : IsWordOf m r)
    (hf : IsWordOf n (f m)) : IsWordOf n (r >>= f) := by
  obtain ⟨rfl, -⟩ | ⟨operation, rfl⟩ := hr
  · exact hf
  · exact .inr ⟨operation, rfl⟩

/-- Steps with exact results have an exact result in the end. -/
theorem isWordOf_foldlM {α : Type} {f : ℤ → α → Except Fault ℤ} {g : ℤ → α → ℤ}
    (h : ∀ n a, IsWordOf (g n a) (f n a)) :
    ∀ (l : List α) {n : ℤ}, n < 2 ^ 63 → IsWordOf (l.foldl g n) (l.foldlM f n)
  | [], _, hn => .inl ⟨rfl, hn⟩
  | a :: l, n, _ => by
    rw [List.foldlM_cons, List.foldl_cons]
    obtain ⟨hok, hlt⟩ | ⟨operation, herror⟩ := h n a
    · rw [hok]
      exact isWordOf_foldlM h l hlt
    · exact .inr ⟨operation, by rw [herror]; rfl⟩

theorem isWordOf_wordWeight (levels combination cell : List ℕ) :
    IsWordOf (contrastWeight levels combination cell) (wordWeight levels combination cell) :=
  isWordOf_foldlM (fun _ _ => isWordOf_inWord _ _) _ (by norm_num)

theorem isWordOf_wordNorm (levels combination : List ℕ) :
    IsWordOf (squaredNorm levels combination) (wordNorm levels combination) := by
  rw [squaredNorm, List.foldl_map]
  refine isWordOf_foldlM (fun sum cell => ?_) _ (by norm_num)
  exact (isWordOf_wordWeight levels combination cell).bind
    ((isWordOf_inWord _ _).bind (isWordOf_inWord _ _))

/-- A sum that has more than 64 bits is at fault. -/
theorem exists_wordNorm_eq_error {levels combination : List ℕ}
    (h : 2 ^ 63 ≤ squaredNorm levels combination) :
    ∃ operation, wordNorm levels combination = .error (.overflow operation) :=
  (isWordOf_wordNorm levels combination).resolve_left fun hok => absurd hok.2 (not_lt.mpr h)

/-! ## Sums that fit -/

theorem inWord_of_nonneg (operation : String) {n : ℤ} (hpos : 0 ≤ n) (h : n < 2 ^ 63) :
    inWord operation n = .ok n := inWord_eq_ok operation ⟨by linarith, h⟩

theorem inWord_of_sq_lt (operation : String) {n : ℤ} (h : n ^ 2 < 2 ^ 63) :
    inWord operation n = .ok n := by
  have habs := abs_lt_of_sq_lt_sq (h.trans (by norm_num : (2 : ℤ) ^ 63 < (2 ^ 32) ^ 2))
    (by norm_num)
  rw [abs_lt] at habs
  exact inWord_eq_ok operation ⟨by linarith, by linarith⟩

theorem sq_levelWeight_le_levelNorm {n c i : ℕ} (hi : i < n) :
    levelWeight n c i ^ 2 ≤ levelNorm n c :=
  Finset.single_le_sum (f := fun i => levelWeight n c i ^ 2) (fun _ _ => sq_nonneg _)
    (Finset.mem_range.mpr hi)

/-- The factors of a weight are multiplied up without a fault.  The part that has been multiplied up
already, squared, times the sum over the axes that are left is at most the whole sum. -/
theorem wordProduct_eq_ok : ∀ {levels combination cell : List ℕ},
    (∀ n ∈ levels, 0 < n ∧ n ≤ maxWithinLevels) → InBounds combination (contrastShape levels) →
    InBounds cell levels → ∀ start : ℤ, start ^ 2 * squaredNorm levels combination < 2 ^ 63 →
      wordProduct start
          (((combination.zip cell).zip levels).map fun e => levelWeight e.2 e.1.1 e.1.2) =
        .ok (start * contrastWeight levels combination cell)
  | [], [], [], _, _, _, start, _ => congrArg Except.ok (mul_one start).symm
  | n :: levels, c :: combination, i :: cell, hlevels, hcombination, hcell, start, h => by
    have hrest := (List.forall_mem_cons.mp hlevels).2
    have hpos := squaredNorm_pos hrest hcombination.2
    have hnext : (start * levelWeight n c i) ^ 2 * squaredNorm levels combination < 2 ^ 63 := by
      refine lt_of_le_of_lt ?_ h
      rw [mul_pow, squaredNorm_cons, mul_assoc]
      exact mul_le_mul_of_nonneg_left
        (mul_le_mul_of_nonneg_right (sq_levelWeight_le_levelNorm hcell.1) hpos.le) (sq_nonneg _)
    have hword : (start * levelWeight n c i) ^ 2 < 2 ^ 63 :=
      (le_mul_of_one_le_right (sq_nonneg _) hpos).trans_lt hnext
    rw [wordProduct, List.zip_cons_cons, List.zip_cons_cons, List.map_cons, List.foldlM_cons,
      inWord_of_sq_lt _ hword, ok_bind, contrastWeight_cons, ← mul_assoc]
    exact wordProduct_eq_ok hrest hcombination.2 hcell.2 _ hnext

section Fits

variable {levels combination : List ℕ} (hlevels : ∀ n ∈ levels, 0 < n ∧ n ≤ maxWithinLevels)
  (hcombination : combination ∈ multiIndices (contrastShape levels))
  (h : squaredNorm levels combination < 2 ^ 63)

include hlevels hcombination h

theorem wordWeight_eq_ok {cell : List ℕ} (hcell : cell ∈ multiIndices levels) :
    wordWeight levels combination cell = .ok (contrastWeight levels combination cell) := by
  have hone : (1 : ℤ) ^ 2 * squaredNorm levels combination < 2 ^ 63 := by rwa [one_pow, one_mul]
  rw [wordWeight, wordProduct_eq_ok hlevels (mem_multiIndices.mp hcombination)
    (mem_multiIndices.mp hcell) 1 hone, one_mul]

/-- The squares are added up without a fault: a sum of some of them is at most the sum of all. -/
theorem wordNorm_eq_ok :
    wordNorm levels combination = .ok (squaredNorm levels combination) := by
  let square := fun cell =>
    contrastWeight levels combination cell * contrastWeight levels combination cell
  have hnorm : squaredNorm levels combination = ((multiIndices levels).map square).sum :=
    List.sum_eq_foldl.symm
  have hsquares : ∀ l : List (List ℕ), 0 ≤ (l.map square).sum := fun l =>
    List.sum_nonneg (List.forall_mem_map.mpr fun _ _ => mul_self_nonneg _)
  have hadded : (multiIndices levels).foldlM (fun sum cell => do
      let weight ← wordWeight levels combination cell
      let squared ← inWord "multiply" (weight * weight)
      inWord "add" (sum + squared)) 0 = .ok ((multiIndices levels).foldl (· + square ·) 0) := by
    -- what has been added up so far, and what is still to come
    refine foldlM_eq_ok (P := fun l sum => 0 ≤ sum ∧ l ⊆ multiIndices levels ∧
      sum + (l.map square).sum = squaredNorm levels combination)
      ⟨le_rfl, List.Subset.refl _, by rw [hnorm, zero_add]⟩ fun cell l sum hsum => ?_
    obtain ⟨hpos, hsub, htotal⟩ := hsum
    obtain ⟨hcell, hsub⟩ := List.cons_subset.mp hsub
    rw [List.map_cons, List.sum_cons, ← add_assoc] at htotal
    have hsquare : 0 ≤ square cell := mul_self_nonneg _
    have hle : sum + square cell < 2 ^ 63 := by linarith [hsquares l]
    rw [wordWeight_eq_ok hlevels hcombination h hcell, ok_bind,
      inWord_of_nonneg _ hsquare (by linarith), ok_bind]
    exact ⟨inWord_of_nonneg _ (by linarith) hle, by linarith, hsub, htotal⟩
  rw [wordNorm, hadded, squaredNorm, List.foldl_map]

end Fits

/-! ## How many cells there is room for -/

theorem levelNorm_pow_le : ∀ n ∈ List.range' 1 maxWithinLevels, ∀ c ∈ List.range (n - 1),
    levelNorm n c ^ 10 ≤ n ^ 47 := by
  decide +kernel

theorem squaredNorm_pow_le : ∀ {levels combination : List ℕ},
    (∀ n ∈ levels, 0 < n ∧ n ≤ maxWithinLevels) → InBounds combination (contrastShape levels) →
      squaredNorm levels combination ^ 10 ≤ (cellCount levels : ℤ) ^ 47
  | [], [], _, _ => by decide
  | n :: levels, c :: combination, hlevels, hcombination => by
    obtain ⟨hn, hlevels⟩ := List.forall_mem_cons.mp hlevels
    have hnorm := levelNorm_pow_le n (mem_table hn.1 hn.2) c (List.mem_range.mpr hcombination.1)
    rw [squaredNorm_cons, mul_pow, cellCount_cons, Nat.cast_mul, mul_pow]
    exact mul_le_mul hnorm (squaredNorm_pow_le hlevels hcombination.2)
      (pow_nonneg (squaredNorm_nonneg _ _) _) (by positivity)

/-- Over ten thousand cells no sum of squared weights has more than 64 bits. -/
theorem squaredNorm_lt_of_cellCount_le {levels combination : List ℕ}
    (hlevels : ∀ n ∈ levels, 0 < n ∧ n ≤ maxWithinLevels)
    (hcombination : combination ∈ multiIndices (contrastShape levels))
    (hcells : cellCount levels ≤ 10 ^ 4) : squaredNorm levels combination < 2 ^ 63 := by
  have hcells : (cellCount levels : ℤ) ≤ 10 ^ 4 := mod_cast hcells
  refine lt_of_pow_lt_pow_left₀ 10 (by norm_num) ?_
  calc squaredNorm levels combination ^ 10
      ≤ (cellCount levels : ℤ) ^ 47 :=
        squaredNorm_pow_le hlevels (mem_multiIndices.mp hcombination)
    _ ≤ (10 ^ 4) ^ 47 := pow_le_pow_left₀ (Int.natCast_nonneg _) hcells 47
    _ < (2 ^ 63) ^ 10 := by norm_num

/-- Four factors with ten levels and one with two have a combination of contrasts whose squared
weights add up to more. -/
example : 2 ^ 63 ≤ squaredNorm [10, 10, 10, 10, 2] [8, 8, 8, 8, 0] := by
  simp only [squaredNorm_cons]
  decide +kernel

end SplitPlot
