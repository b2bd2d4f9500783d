import Mathlib
import SplitPlot.Grid.Lemmas
import SplitPlot.Mat.Determinant
import SplitPlot.Mat.Lemmas
import SplitPlot.Proofs.Partial.Numbers

/-!
# Tables and matrices of numbers that may be undefined

A table or a matrix is taken to other numbers entry by entry (`Grid.map`, `Mat.map`).  If all
entries are defined, so are the results of the operations: reductions of lines that are not empty,
sums and products of matrices, determinants.  Elimination divides by pivots, each of which it has
found not to be zero.
-/

namespace SplitPlot

/-! ## Tables -/

namespace Grid

section Map

variable {K L : Type}

/-- The table with each entry taken to another number. -/
def map (f : K → L) (g : Grid K) : Grid L :=
  ⟨g.shape, g.entries.map f, by rw [Array.size_map, g.size_entries]⟩

@[simp] theorem shape_map (f : K → L) (g : Grid K) : (g.map f).shape = g.shape := rfl

@[simp] theorem extent_map [Scalar K] [Scalar L] (f : K → L) (g : Grid K) (axis : ℕ) :
    (g.map f).extent axis = g.extent axis := rfl

theorem toList_map [Scalar K] [Scalar L] (f : K → L) (g : Grid K) :
    (g.map f).toList = g.toList.map f := by
  simp [toList, map]

theorem map_ofFn (f : K → L) (shape : List ℕ) (e : List ℕ → K) :
    (ofFn shape e).map f = ofFn shape fun index => f (e index) := by
  refine Grid.ext rfl (Array.ext ?_ fun i _ _ => ?_)
  · simp [map, ofFn]
  · simp [map, ofFn]

end Map

section Defined

variable {c : Comparison} (g : Grid ℝ)

@[simp] theorem get_map_of (index : List ℕ) :
    (g.map (Checked.of c)).get index = Checked.of c (g.get index) := by
  rw [get, get, Array.getD_eq_getD_getElem?, Array.getD_eq_getD_getElem?]
  show ((g.entries.map (Checked.of c))[flatIndex index g.shape]?).getD 0 = _
  rw [Array.getElem?_map]
  cases g.entries[flatIndex index g.shape]? <;> rfl

@[simp] theorem getStretched_map_of (index : List ℕ) :
    (g.map (Checked.of c)).getStretched index = Checked.of c (g.getStretched index) :=
  get_map_of g _

@[simp] theorem sum_map_of : (g.map (Checked.of c)).sum = Checked.of c g.sum := by
  rw [sum, sum, toList_map, Checked.total_map_of]

/-! ### Reductions -/

variable {f : List ℝ → ℝ} {f' : List (Checked c) → Checked c} {g}

/-- A line that is not empty is reduced to a number that is defined. -/
theorem reduceKeep_map_of (hf : ∀ l, l ≠ [] → f' (l.map (Checked.of c)) = Checked.of c (f l))
    {axis : ℕ} (haxis : 0 < g.extent axis) : (g.map (Checked.of c)).reduceKeep f' axis =
      (g.reduceKeep f axis).map (Checked.of c) := by
  rw [reduceKeep, reduceKeep, map_ofFn]
  refine congrArg (ofFn _) (funext fun index => ?_)
  rw [extent_map, ← hf, List.map_map]
  · simp only [get_map_of]
    rfl
  · rw [Ne, List.map_eq_nil_iff, List.range_eq_nil]
    exact haxis.ne'

theorem reduceDrop_map_of (hf : ∀ l, l ≠ [] → f' (l.map (Checked.of c)) = Checked.of c (f l))
    {axis : ℕ} (haxis : 0 < g.extent axis) : (g.map (Checked.of c)).reduceDrop f' axis =
      (g.reduceDrop f axis).map (Checked.of c) := by
  rw [reduceDrop, reduceDrop, map_ofFn]
  refine congrArg (ofFn _) (funext fun index => ?_)
  rw [extent_map, ← hf, List.map_map]
  · simp only [get_map_of]
    rfl
  · rw [Ne, List.map_eq_nil_iff, List.range_eq_nil]
    exact haxis.ne'

/-- A reduction leaves the axis with length one, and the others as they are. -/
theorem extent_reduceKeep_pos {K : Type} [Scalar K] {f : List K → K} {g : Grid K} {axis a : ℕ}
    (ha : 0 < g.extent a) : 0 < (g.reduceKeep f axis).extent a := by
  rw [extent] at ha ⊢
  rw [shape_reduceKeep, List.getD_eq_getElem?_getD, List.getElem?_set]
  split
  · split <;> simp_all
  · rwa [← List.getD_eq_getElem?_getD]

theorem extent_reduceAllKeep_pos {K : Type} [Scalar K] {f : List K → K} {g : Grid K} (axes : List ℕ)
    {a : ℕ} (ha : 0 < g.extent a) : 0 < (g.reduceAllKeep f axes).extent a := by
  rw [reduceAllKeep]
  induction (ascending axes).reverse generalizing g with
  | nil => exact ha
  | cons _ _ ih => exact ih (extent_reduceKeep_pos ha)

theorem reduceAllKeep_map_of (hf : ∀ l, l ≠ [] → f' (l.map (Checked.of c)) = Checked.of c (f l))
    {axes : List ℕ} (haxes : ∀ a ∈ axes, 0 < g.extent a) :
    (g.map (Checked.of c)).reduceAllKeep f' axes = (g.reduceAllKeep f axes).map (Checked.of c) := by
  have hfold : ∀ (l : List ℕ) (g : Grid ℝ), (∀ a ∈ l, 0 < g.extent a) →
      l.foldl (reduceKeep f') (g.map (Checked.of c)) =
        (l.foldl (reduceKeep f) g).map (Checked.of c) := by
    intro l
    induction l with
    | nil => exact fun _ _ => rfl
    | cons a l ih =>
      intro g hl
      obtain ⟨ha, hl⟩ := List.forall_mem_cons.mp hl
      rw [List.foldl_cons, List.foldl_cons, reduceKeep_map_of hf ha]
      exact ih _ fun b hb => extent_reduceKeep_pos (hl b hb)
  refine hfold _ _ fun a ha => haxes a ?_
  rwa [List.mem_reverse, mem_ascending] at ha

variable {axes : List ℕ} (haxes : ∀ a ∈ axes, 0 < g.extent a)

include haxes

theorem meanKeep_map_of :
    (g.map (Checked.of c)).meanKeep axes = (g.meanKeep axes).map (Checked.of c) :=
  reduceAllKeep_map_of (fun _ hl => Checked.mean_map_of hl) haxes

theorem harmonicMeanKeep_map_of : (g.map (Checked.of c)).harmonicMeanKeep axes =
    (g.harmonicMeanKeep axes).map (Checked.of c) :=
  reduceAllKeep_map_of (fun l _ => Checked.harmonicMean_map_of l) haxes

theorem sumKeep_map_of :
    (g.map (Checked.of c)).sumKeep axes = (g.sumKeep axes).map (Checked.of c) :=
  reduceAllKeep_map_of (fun l _ => Checked.total_map_of l) haxes

end Defined

end Grid

/-! ## Matrices -/

namespace Mat

section Map

variable {K L : Type}

/-- The matrix with each entry taken to another number. -/
def map (f : K → L) (a : Mat K) : Mat L :=
  ⟨a.rows, a.cols, a.entries.map f, by rw [Array.size_map, a.size_entries]⟩

@[simp] theorem rows_map (f : K → L) (a : Mat K) : (a.map f).rows = a.rows := rfl

@[simp] theorem cols_map (f : K → L) (a : Mat K) : (a.map f).cols = a.cols := rfl

theorem isSquare_map (f : K → L) {a : Mat K} (h : a.IsSquare) : (a.map f).IsSquare := h

theorem map_ofFn (f : K → L) (m n : ℕ) (e : ℕ → ℕ → K) :
    (ofFn m n e).map f = ofFn m n fun i j => f (e i j) := by
  refine Mat.ext rfl rfl (Array.ext ?_ fun i _ _ => ?_)
  · simp [map, ofFn]
  · simp [map, ofFn]

end Map

section Defined

variable {c : Comparison} (a b : Mat ℝ)

@[simp] theorem get_map_of (i j : ℕ) :
    (a.map (Checked.of c)).get i j = Checked.of c (a.get i j) := by
  rw [get, get, Array.getD_eq_getD_getElem?, Array.getD_eq_getD_getElem?]
  show ((a.entries.map (Checked.of c))[i * a.cols + j]?).getD 0 = _
  rw [Array.getElem?_map]
  cases a.entries[i * a.cols + j]? <;> rfl

/-! ### Operations -/

@[simp] theorem add_map_of :
    a.map (Checked.of c) + b.map (Checked.of c) = (a + b).map (Checked.of c) := by
  show (a.map (Checked.of c)).add (b.map (Checked.of c)) = (a.add b).map (Checked.of c)
  rw [add, add, map_ofFn]
  simp only [rows_map, cols_map, get_map_of, Checked.of_add]

@[simp] theorem mul_map_of :
    a.map (Checked.of c) * b.map (Checked.of c) = (a * b).map (Checked.of c) := by
  show (a.map (Checked.of c)).mul (b.map (Checked.of c)) = (a.mul b).map (Checked.of c)
  rw [mul, mul, map_ofFn]
  simp only [rows_map, cols_map, get_map_of, Checked.of_mul, ← Checked.total_map_of, List.map_map]
  rfl

@[simp] theorem crossProduct_map_of :
    (a.map (Checked.of c)).crossProduct = a.crossProduct.map (Checked.of c) := by
  rw [crossProduct, crossProduct, map_ofFn]
  simp only [rows_map, cols_map, get_map_of, Checked.of_mul, ← Checked.total_map_of, List.map_map]
  rfl

@[simp] theorem addRow_map_of (r : List ℝ) : (a.map (Checked.of c)).addRow (r.map (Checked.of c)) =
    (a.addRow r).map (Checked.of c) := by
  rw [addRow, addRow, map_ofFn]
  simp only [rows_map, cols_map, get_map_of, Checked.getD_map_of, Checked.of_add]

@[simp] theorem diagonal_map_of :
    (a.map (Checked.of c)).diagonal = a.diagonal.map (Checked.of c) := by
  simp only [diagonal, rows_map, get_map_of, List.map_map]
  rfl

/-! ### Determinants -/

@[simp] theorem minor_map_of (i j : ℕ) :
    (a.map (Checked.of c)).minor i j = (a.minor i j).map (Checked.of c) := by
  rw [minor, minor, map_ofFn]
  simp only [rows_map, cols_map, get_map_of]

@[simp] theorem alternating_of (i : ℕ) :
    (alternating i : Checked c) = Checked.of c (alternating i) :=
  Checked.ite_of Iff.rfl 1 (-1)

theorem expand_map_of : ∀ (n : ℕ) (a : Mat ℝ),
    expand n (a.map (Checked.of c)) = Checked.of c (expand n a)
  | 0, _ => rfl
  | n + 1, a => by
    rw [expand, expand, ← Checked.total_map_of, List.map_map]
    refine congrArg total (List.map_congr_left fun j _ => ?_)
    rw [minor_map_of, expand_map_of n, get_map_of, alternating_of]
    rfl

@[simp] theorem pivotRow_map_of : (a.map (Checked.of c)).pivotRow = a.pivotRow := by
  rw [pivotRow, pivotRow]
  refine congrArg (fun f => List.foldl f 0 (List.range a.rows))
    (funext fun best => funext fun i => ?_)
  rw [get_map_of, get_map_of, Checked.abs_of, Checked.abs_of]
  exact if_congr Checked.of_lt_iff rfl rfl

@[simp] theorem raise_map_of (p : ℕ) :
    (a.map (Checked.of c)).raise p = (a.raise p).map (Checked.of c) := by
  rw [raise, raise]
  split
  · rfl
  · rw [map_ofFn]
    simp only [rows_map, cols_map, get_map_of]

/-- The pivot that a step of elimination divides by is not zero. -/
@[simp] theorem clear_map_of (k : ℕ) : (a.map (Checked.of c)).clear (b.map (Checked.of c)) k =
    (a.clear b k).map (Checked.of c) := by
  simp only [clear, get_map_of, rows_map, cols_map, Checked.isZero_of_iff, isZero_iff]
  by_cases hpivot : a.get 0 0 = 0
  · rw [if_pos hpivot, if_pos hpivot, map_ofFn]
  · rw [if_neg hpivot, if_neg hpivot, map_ofFn, Checked.one_eq, Checked.of_div hpivot]
    simp only [Checked.of_mul, Checked.of_sub]

theorem eliminate_map_of : ∀ (n : ℕ) (acc : ℝ) (a : Mat ℝ),
    eliminate n (Checked.of c acc) (a.map (Checked.of c)) = Checked.of c (eliminate n acc a)
  | 0, _, _ => rfl
  | n + 1, acc, a => by
    simp only [eliminate, pivotRow_map_of, raise_map_of, get_map_of, clear_map_of, Checked.of_mul,
      Checked.of_neg]
    rw [Checked.ite_of (q := a.pivotRow = 0) Iff.rfl, eliminate_map_of n]

@[simp] theorem det_map_of : (a.map (Checked.of c)).det = Checked.of c a.det := by
  rw [det, det, rows_map]
  split
  · exact expand_map_of _ _
  · exact eliminate_map_of _ 1 _

@[simp] theorem sscpDet_map_of : (a.map (Checked.of c)).sscpDet = Checked.of c a.sscpDet := by
  simp only [sscpDet, det_map_of, diagonal_map_of, Checked.product_map_of, singularityTolerance,
    Checked.ofScientific_eq, Checked.of_mul, Checked.zero_eq]
  exact Checked.ite_of Iff.rfl 0 _

end Defined

end Mat

end SplitPlot
