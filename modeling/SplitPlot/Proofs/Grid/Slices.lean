import Mathlib
import SplitPlot.Proofs.Design.Completion
import SplitPlot.Proofs.Grid.Reductions
import SplitPlot.Proofs.OneWay

/-!
# Reductions of whole slices

A table is reduced along several axes one after another, and each reduction is one of lines: it sees
the numbers that the one before it has left, and not the entries of the table.  For the two means
the result is nevertheless that of a single reduction of all entries of a slice
(`isReduction_reduceAllKeep`), in whatever order the axes come.

## Slices

A slice consists of the positions that have given levels on all axes but some free ones.  To free
one more axis is to put the slices with its levels together (`slice_cons_perm`), and how long a
slice is does not depend on the levels that are given (`exists_length_slice`).

## Pooling

What is asked of a mean is that it can be pooled (`Pools`): the mean of the means of several lists
is the mean of all their entries.  This needs lists of one length, and for the harmonic mean it
needs entries that are not negative.  A zero among them makes the mean of its list zero, and then
the mean of the means.  Without the signs it fails: the reciprocals of a list may cancel, and its
harmonic mean is then zero, although no entry is.
-/

namespace SplitPlot

/-! ## Positions by their levels -/

theorem inBounds_iff_getD : ∀ {index shape : List ℕ}, InBounds index shape ↔
    index.length = shape.length ∧ ∀ a < shape.length, index.getD a 0 < shape.getD a 0
  | [], [] => by simp [InBounds]
  | [], _ :: _ => by simp [InBounds]
  | _ :: _, [] => by simp [InBounds]
  | i :: index, n :: shape => by
    rw [InBounds, inBounds_iff_getD, List.length_cons, List.length_cons, Nat.add_right_cancel_iff,
      Nat.forall_lt_succ_left, List.getD_cons_zero, List.getD_cons_zero, and_left_comm]
    rfl

theorem InBounds.getD_lt {index shape : List ℕ} (h : InBounds index shape) {a : ℕ}
    (ha : a < shape.length) : index.getD a 0 < shape.getD a 0 := (inBounds_iff_getD.mp h).2 a ha

/-- A position is determined by its levels. -/
theorem InBounds.eq_of_getD {index index' shape : List ℕ} (h : InBounds index shape)
    (h' : InBounds index' shape) (heq : ∀ a < shape.length, index.getD a 0 = index'.getD a 0) :
    index = index' := by
  refine List.ext_getElem (h.length_eq.trans h'.length_eq.symm) fun a ha ha' => ?_
  have hlevel := heq a (h.length_eq ▸ ha)
  rwa [List.getD_eq_getElem _ _ ha, List.getD_eq_getElem _ _ ha'] at hlevel

theorem getD_set_of_ne {l : List ℕ} {a b : ℕ} (h : b ≠ a) (i : ℕ) :
    (l.set a i).getD b 0 = l.getD b 0 := by
  rw [List.getD_eq_getElem?_getD, List.getElem?_set_ne h.symm, ← List.getD_eq_getElem?_getD]

/-! ## Slices -/

/-- The positions that have the given levels on all axes but the free ones. -/
def slice (shape free : List ℕ) (level : ℕ → ℕ) : List (List ℕ) :=
  (multiIndices shape).filter fun p => ∀ a < shape.length, a ∉ free → p.getD a 0 = level a

section Slice

variable {shape free free' : List ℕ} {level level' : ℕ → ℕ}

theorem mem_slice {p : List ℕ} : p ∈ slice shape free level ↔
    InBounds p shape ∧ ∀ a < shape.length, a ∉ free → p.getD a 0 = level a := by
  rw [slice, List.mem_filter, mem_multiIndices, decide_eq_true_iff]

theorem nodup_slice (shape free : List ℕ) (level : ℕ → ℕ) : (slice shape free level).Nodup :=
  (nodup_multiIndices shape).filter _

/-- A slice depends on which axes are free and on the levels on the other ones. -/
theorem slice_congr (hfree : ∀ a < shape.length, a ∈ free ↔ a ∈ free')
    (hlevel : ∀ a < shape.length, a ∉ free → level a = level' a) :
    slice shape free level = slice shape free' level' := by
  refine List.filter_congr fun p _ => decide_eq_decide.mpr (forall₂_congr fun a ha => ?_)
  rw [← hfree a ha]
  exact forall_congr' fun hmem => by rw [hlevel a ha hmem]

/-- With no axis free, a slice is a single position. -/
theorem slice_nil {index : List ℕ} (h : InBounds index shape) :
    slice shape [] (fun a => index.getD a 0) = [index] := by
  refine List.perm_singleton.mp ?_
  rw [List.perm_ext_iff_of_nodup (nodup_slice _ _ _) (List.nodup_singleton _)]
  intro p
  rw [mem_slice, List.mem_singleton]
  constructor
  · rintro ⟨hp, hlevels⟩
    exact hp.eq_of_getD h fun a ha => hlevels a ha List.not_mem_nil
  · rintro rfl
    exact ⟨h, fun _ _ _ => rfl⟩

/-- With all axes free, a slice is the whole table. -/
theorem slice_of_forall_mem (h : ∀ a < shape.length, a ∈ free) :
    slice shape free level = multiIndices shape :=
  List.filter_eq_self.mpr fun _ _ => decide_eq_true fun a ha hfree => absurd (h a ha) hfree

/-- To free one more axis is to put the slices with its levels together. -/
theorem slice_cons_perm {a : ℕ} (ha : a < shape.length) (hfree : a ∉ free) (level : ℕ → ℕ) :
    ((List.range (shape.getD a 0)).flatMap fun i =>
      slice shape free (Function.update level a i)).Perm (slice shape (a :: free) level) := by
  have hlevel : ∀ {p : List ℕ} {i : ℕ}, p ∈ slice shape free (Function.update level a i) →
      p.getD a 0 = i := fun hp => by
    rw [(mem_slice.mp hp).2 a ha hfree, Function.update_self]
  have hnodup : ((List.range (shape.getD a 0)).flatMap fun i =>
      slice shape free (Function.update level a i)).Nodup := by
    refine List.nodup_flatMap.mpr ⟨fun i _ => nodup_slice _ _ _, ?_⟩
    refine List.nodup_range.imp fun hne => ?_
    exact List.disjoint_left.mpr fun p hp hp' => hne ((hlevel hp).symm.trans (hlevel hp'))
  rw [List.perm_ext_iff_of_nodup hnodup (nodup_slice _ _ _)]
  intro p
  rw [List.mem_flatMap, mem_slice]
  constructor
  · rintro ⟨i, -, hp⟩
    obtain ⟨hin, hlevels⟩ := mem_slice.mp hp
    refine ⟨hin, fun b hb hmem => ?_⟩
    rw [hlevels b hb (List.not_mem_of_not_mem_cons hmem),
      Function.update_of_ne (List.ne_of_not_mem_cons hmem)]
  · rintro ⟨hin, hlevels⟩
    refine ⟨p.getD a 0, List.mem_range.mpr (hin.getD_lt ha),
      mem_slice.mpr ⟨hin, fun b hb hmem => ?_⟩⟩
    by_cases hba : b = a
    · rw [hba, Function.update_self]
    · rw [Function.update_of_ne hba, hlevels b hb (List.not_mem_cons_of_ne_of_not_mem hba hmem)]

/-- Levels that the axes have, apart from the free ones. -/
def LevelsOf (shape free : List ℕ) (level : ℕ → ℕ) : Prop :=
  ∀ a < shape.length, a ∉ free → level a < shape.getD a 0

/-- An axis that is not free any more is given one of its levels. -/
theorem LevelsOf.update {a i : ℕ} (h : LevelsOf shape (a :: free) level) (hi : i < shape.getD a 0) :
    LevelsOf shape free (Function.update level a i) := fun b hb hmem => by
  by_cases hba : b = a
  · rwa [hba, Function.update_self]
  · rw [Function.update_of_ne hba]
    exact h b hb (List.not_mem_cons_of_ne_of_not_mem hba hmem)

/-- All slices along the same axes have one length, and none is empty. -/
theorem exists_length_slice (hpos : ∀ n ∈ shape, 0 < n) (free : List ℕ) :
    ∃ k, 0 < k ∧ ∀ level, LevelsOf shape free level → (slice shape free level).length = k := by
  induction free with
  | nil =>
    refine ⟨1, one_pos, fun level hlevel => ?_⟩
    have hget : ∀ a < shape.length, ((List.range shape.length).map level).getD a 0 = level a := by
      intro a ha
      have hlt : a < ((List.range shape.length).map level).length := by
        rwa [List.length_map, List.length_range]
      rw [List.getD_eq_getElem _ _ hlt, List.getElem_map, List.getElem_range]
    have hin : InBounds ((List.range shape.length).map level) shape := by
      refine inBounds_iff_getD.mpr ⟨by rw [List.length_map, List.length_range], fun a ha => ?_⟩
      rw [hget a ha]
      exact hlevel a ha List.not_mem_nil
    rw [slice_congr (fun _ _ => Iff.rfl) fun a ha _ => (hget a ha).symm, slice_nil hin,
      List.length_singleton]
  | cons a free ih =>
    obtain ⟨k, hk, hlength⟩ := ih
    by_cases hnew : a < shape.length ∧ a ∉ free
    · obtain ⟨ha, hfree⟩ := hnew
      have hn : 0 < shape.getD a 0 := by
        rw [List.getD_eq_getElem _ _ ha]
        exact hpos _ (List.getElem_mem ha)
      refine ⟨shape.getD a 0 * k, Nat.mul_pos hn hk, fun level hlevel => ?_⟩
      rw [← (slice_cons_perm ha hfree level).length_eq, List.length_flatMap,
        List.map_congr_left fun i hi => hlength _ (hlevel.update (List.mem_range.mp hi)),
        List.map_const', List.sum_replicate, List.length_range, smul_eq_mul]
    · -- the axis is free already, or it is none
      have hsame : ∀ b < shape.length, b ∈ a :: free ↔ b ∈ free := fun b hb => by
        rw [List.mem_cons, or_iff_right_iff_imp]
        rintro rfl
        exact not_not.mp (not_and.mp hnew hb)
      refine ⟨k, hk, fun level hlevel => ?_⟩
      rw [slice_congr hsame fun _ _ _ => rfl]
      exact hlength level fun b hb hmem => hlevel b hb (mt (hsame b hb).mp hmem)

end Slice

/-! ## Pooling -/

/-- A mean of numbers with a property is the mean of the means of lists of one length into which the
numbers are divided. -/
structure Pools (f : List ℝ → ℝ) (P : ℝ → Prop) : Prop where
  /-- The order does not matter. -/
  perm : ∀ {l l' : List ℝ}, l.Perm l' → f l = f l'
  /-- A single number is its own mean. -/
  singleton : ∀ {x : ℝ}, P x → f [x] = x
  /-- The mean of means is the mean of all numbers. -/
  flatten : ∀ {L : List (List ℝ)} {k : ℕ}, 0 < k → (∀ l ∈ L, l.length = k) →
    (∀ l ∈ L, ∀ x ∈ l, P x) → f (L.map f) = f L.flatten

theorem length_flatten_of_forall {L : List (List ℝ)} {k : ℕ} (h : ∀ l ∈ L, l.length = k) :
    L.flatten.length = L.length * k := by
  rw [List.length_flatten, List.map_congr_left h, List.map_const', List.sum_replicate, smul_eq_mul]

theorem pools_mean : Pools mean fun _ => True where
  perm := mean_perm
  singleton _ := mean_singleton _
  flatten {L k} _ hlength _ := by
    have hmeans : L.map mean = L.map fun l => l.sum * (k : ℝ)⁻¹ :=
      List.map_congr_left fun l hl => by rw [mean_eq, hlength l hl, div_eq_mul_inv]
    rw [mean_eq, mean_eq, hmeans, List.sum_map_mul_right, List.sum_flatten, List.length_map,
      length_flatten_of_forall hlength, Nat.cast_mul, ← div_eq_mul_inv, div_div, mul_comm (k : ℝ)]

theorem pools_harmonicMean : Pools harmonicMean fun x => 0 ≤ x where
  perm := harmonicMean_perm
  singleton _ :=
    harmonicMean_of_forall_eq (List.cons_ne_nil _ _) fun _ hx => List.mem_singleton.mp hx
  flatten {L k} hk hlength hnonneg := by
    by_cases hzero : (0 : ℝ) ∈ L.flatten
    · obtain ⟨l, hl, hmem⟩ := List.mem_flatten.mp hzero
      have hmean : (0 : ℝ) ∈ L.map harmonicMean :=
        List.mem_map.mpr ⟨l, hl, harmonicMean_eq_zero_of_mem hmem⟩
      rw [harmonicMean_eq_zero_of_mem hmean, harmonicMean_eq_zero_of_mem hzero]
    · have hne : ∀ x ∈ L.flatten, x ≠ 0 := fun x hx h0 => hzero (h0 ▸ hx)
      have hpos : ∀ l ∈ L, ∀ x ∈ l, 0 < x := fun l hl x hx =>
        (hnonneg l hl x hx).lt_of_ne' (hne x (List.mem_flatten.mpr ⟨l, hl, hx⟩))
      have hmeans : ∀ y ∈ L.map harmonicMean, y ≠ 0 := fun y hy => by
        obtain ⟨l, hl, rfl⟩ := List.mem_map.mp hy
        have hnil : l ≠ [] := List.length_pos_iff.mp (hlength l hl ▸ hk)
        exact (harmonicMean_pos hnil (hpos l hl)).ne'
      -- the reciprocal of the mean of a list is the sum of its reciprocals by its length
      have hinv : (L.map harmonicMean).map (fun y => y⁻¹) =
          L.map fun l => (l.map fun x => x⁻¹).sum * (k : ℝ)⁻¹ := by
        rw [List.map_map]
        refine List.map_congr_left fun l hl => ?_
        rw [Function.comp_apply, harmonicMean_eq fun x hx => (hpos l hl x hx).ne', hlength l hl,
          inv_div, div_eq_mul_inv]
      have hsum :
          (L.map fun l => (l.map fun x => x⁻¹).sum).sum = (L.flatten.map fun x => x⁻¹).sum := by
        rw [List.map_flatten, List.sum_flatten, List.map_map]
        rfl
      rw [harmonicMean_eq hmeans, harmonicMean_eq hne, hinv, List.sum_map_mul_right, hsum,
        List.length_map, length_flatten_of_forall hlength, Nat.cast_mul, ← div_eq_mul_inv,
        div_div_eq_mul_div]

/-- The means of the slices through the levels of an axis have the mean of the slice along it. -/
theorem Pools.map_slice {f : List ℝ → ℝ} {P : ℝ → Prop} (hf : Pools f P) {shape free : List ℕ}
    (hpos : ∀ n ∈ shape, 0 < n) {v : List ℕ → ℝ} (hv : ∀ p, InBounds p shape → P (v p)) {a : ℕ}
    (ha : a < shape.length) (hfree : a ∉ free) {level : ℕ → ℕ}
    (hlevel : LevelsOf shape (a :: free) level) :
    f ((List.range (shape.getD a 0)).map fun i =>
      f ((slice shape free (Function.update level a i)).map v)) =
        f ((slice shape (a :: free) level).map v) := by
  obtain ⟨k, hk, hlength⟩ := exists_length_slice hpos free
  have hflat : ((List.range (shape.getD a 0)).map fun i =>
      (slice shape free (Function.update level a i)).map v).flatten.Perm
        ((slice shape (a :: free) level).map v) := by
    rw [← List.flatMap_def, ← List.map_flatMap]
    exact (slice_cons_perm ha hfree level).map v
  rw [← hf.perm hflat, ← hf.flatten hk, List.map_map]
  · rfl
  · intro l hl
    obtain ⟨i, hi, rfl⟩ := List.mem_map.mp hl
    rw [List.length_map, hlength _ (hlevel.update (List.mem_range.mp hi))]
  · intro l hl x hx
    obtain ⟨i, -, rfl⟩ := List.mem_map.mp hl
    obtain ⟨p, hp, rfl⟩ := List.mem_map.mp hx
    exact hv p (mem_slice.mp hp).1

/-! ## Axes that are kept -/

namespace Grid

/-- The second table is the first, with each slice along the listed axes reduced to one number.  The
listed axes have length one, and the others are as they were. -/
structure IsReduction (f : List ℝ → ℝ) (g : Grid ℝ) (axes : List ℕ) (h : Grid ℝ) : Prop where
  shape_eq : h.shape = g.shape.mapIdx fun a n => if a ∈ axes then 1 else n
  get_eq : ∀ index, InBounds index h.shape →
    h.get index = f ((slice g.shape axes fun a => index.getD a 0).map g.get)

variable {f : List ℝ → ℝ} {P : ℝ → Prop} {g h : Grid ℝ} {axes axes' : List ℕ}

theorem IsReduction.congr (hr : IsReduction f g axes h) (haxes : ∀ a, a ∈ axes ↔ a ∈ axes') :
    IsReduction f g axes' h where
  shape_eq := by simp only [hr.shape_eq, haxes]
  get_eq index hin := by
    rw [hr.get_eq index hin, slice_congr (fun a _ => haxes a) fun _ _ _ => rfl]

/-- An axis that is not listed has the extent it had. -/
theorem IsReduction.getD_shape (hr : IsReduction f g axes h) {a : ℕ} (ha : a < g.shape.length)
    (hmem : a ∉ axes) : h.shape.getD a 0 = g.shape.getD a 0 := by
  have hlt : a < h.shape.length := by rwa [hr.shape_eq, List.length_mapIdx]
  rw [List.getD_eq_getElem _ _ hlt, List.getD_eq_getElem _ _ ha]
  simp only [hr.shape_eq, List.getElem_mapIdx, if_neg hmem]

theorem isReduction_nil (hf : Pools f P) (hP : ∀ p, InBounds p g.shape → P (g.get p)) :
    IsReduction f g [] g where
  shape_eq := by
    refine List.ext_getElem (List.length_mapIdx).symm fun a _ _ => ?_
    rw [List.getElem_mapIdx, if_neg List.not_mem_nil]
  get_eq index hin := by
    rw [slice_nil hin, List.map_singleton, hf.singleton (hP index hin)]

/-- The reduction of one more axis. -/
theorem IsReduction.reduceKeep (hr : IsReduction f g axes h) (hf : Pools f P)
    (hpos : ∀ n ∈ g.shape, 0 < n) (hP : ∀ p, InBounds p g.shape → P (g.get p)) {a : ℕ}
    (ha : a < g.shape.length) (hmem : a ∉ axes) :
    IsReduction f g (a :: axes) (h.reduceKeep f a) where
  shape_eq := by
    rw [shape_reduceKeep, hr.shape_eq]
    refine List.ext_getElem (by simp only [List.length_set, List.length_mapIdx]) fun b _ _ => ?_
    rw [List.getElem_set, List.getElem_mapIdx, List.getElem_mapIdx]
    by_cases hba : a = b
    · rw [if_pos hba, if_pos (hba ▸ List.mem_cons_self)]
    · rw [if_neg hba]
      exact if_congr (List.mem_cons.trans (or_iff_right (Ne.symm hba))).symm rfl rfl
  get_eq index hin := by
    rw [shape_reduceKeep] at hin
    have hlength : h.shape.length = g.shape.length := by rw [hr.shape_eq, List.length_mapIdx]
    have hextent : h.extent a = g.shape.getD a 0 := hr.getD_shape ha hmem
    have hline : ∀ i < g.shape.getD a 0, InBounds (index.set a i) h.shape := fun i hi =>
      InBounds.set hin (hi.trans_eq hextent.symm)
    have hindex : a < index.length := by rwa [hin.length_eq, List.length_set, hlength]
    have hlevel : LevelsOf g.shape (a :: axes) fun b => index.getD b 0 := fun b hb hmem' => by
      obtain ⟨hba, hmem'⟩ := not_or.mp (mt List.mem_cons.mpr hmem')
      rw [← hr.getD_shape hb hmem', ← getD_set_of_ne hba 1]
      exact hin.getD_lt (by rwa [List.length_set, hlength])
    have hslice : ∀ i, (slice g.shape axes fun b => (index.set a i).getD b 0) =
        slice g.shape axes (Function.update (fun b => index.getD b 0) a i) := fun i =>
      slice_congr (fun _ _ => Iff.rfl) fun b _ _ => by
        by_cases hba : b = a
        · rw [hba, Function.update_self, List.getD_eq_getElem _ _ (by rwa [List.length_set]),
            List.getElem_set_self]
        · rw [Function.update_of_ne hba, getD_set_of_ne hba]
    rw [Grid.reduceKeep, get_ofFn _ hin, hextent, ← hf.map_slice hpos hP ha hmem hlevel]
    refine congrArg f (List.map_congr_left fun i hi => ?_)
    rw [hr.get_eq _ (hline i (List.mem_range.mp hi)), hslice]

theorem isReduction_foldr (hf : Pools f P) (hpos : ∀ n ∈ g.shape, 0 < n)
    (hP : ∀ p, InBounds p g.shape → P (g.get p)) (hnodup : axes.Nodup)
    (haxes : ∀ a ∈ axes, a < g.shape.length) :
    IsReduction f g axes (axes.foldr (fun a h => h.reduceKeep f a) g) := by
  induction axes with
  | nil => exact isReduction_nil hf hP
  | cons a axes ih =>
    obtain ⟨hmem, hnodup⟩ := List.nodup_cons.mp hnodup
    obtain ⟨ha, haxes⟩ := List.forall_mem_cons.mp haxes
    exact (ih hnodup haxes).reduceKeep hf hpos hP ha hmem

/-- **Axis by axis is all at once.**  The axes may be listed in any order and repeatedly. -/
theorem isReduction_reduceAllKeep (hf : Pools f P) (hpos : ∀ n ∈ g.shape, 0 < n)
    (hP : ∀ p, InBounds p g.shape → P (g.get p)) (haxes : ∀ a ∈ axes, a < g.shape.length) :
    IsReduction f g axes (g.reduceAllKeep f axes) := by
  have hsorted := isReduction_foldr hf hpos hP ((pairwise_ascending axes).imp Nat.ne_of_lt)
    fun a ha => haxes a (mem_ascending.mp ha)
  rw [reduceAllKeep, List.foldl_reverse]
  exact hsorted.congr fun _ => mem_ascending

/-- A table that is reduced along all its axes holds one number. -/
theorem IsReduction.eq_ofFn (hr : IsReduction f g axes h) (hall : ∀ a < g.shape.length, a ∈ axes) :
    h = ofFn (g.shape.map fun _ => 1) fun _ => f g.toList := by
  have hshape : h.shape = g.shape.map fun _ => 1 := by
    rw [hr.shape_eq]
    refine List.ext_getElem (by rw [List.length_mapIdx, List.length_map]) fun a ha _ => ?_
    rw [List.length_mapIdx] at ha
    rw [List.getElem_mapIdx, List.getElem_map, if_pos (hall a ha)]
  refine ext_get hshape fun index hin => ?_
  rw [get_ofFn _ (hshape ▸ hin), hr.get_eq index hin, slice_of_forall_mem hall, toList_eq]

/-- The shape of a reduced table does not depend on what a line is replaced by. -/
theorem shape_reduceAllKeep_eq (f f' : List ℝ → ℝ) (g : Grid ℝ) (axes : List ℕ) :
    (g.reduceAllKeep f axes).shape = (g.reduceAllKeep f' axes).shape := by
  rw [reduceAllKeep, reduceAllKeep, List.foldl_reverse, List.foldl_reverse, shape_foldr_reduceKeep,
    shape_foldr_reduceKeep]

end Grid

end SplitPlot
