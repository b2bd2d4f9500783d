import Mathlib
import SplitPlot.Proofs.Decomposition.Combinations
import SplitPlot.Proofs.Grid.Slices

/-!
# Axes dropped in any order

When an axis is dropped, the axes behind it move up.  So the place at which an axis is dropped
depends on which axes were dropped before, and the order shows in the program even where it does not
show in the result.  Here a table carries the numbers that its axes had at the beginning
(`Numbered`), and axes are dropped by these numbers, in any order.

What a table holds after some drops is the mean of a slice (`Grid.IsDrop`), in which the axes that
are gone are free.  It depends on which axes are gone and not on their order, so any two orders lead
to the same table (`Grid.IsDrop.eq`).  The factors within subjects are averaged out from the last
one on, where no axis that is still to be dropped has moved, and that is one of the orders
(`Numbered.foldl_reduceDrop`).
-/

namespace SplitPlot

/-- To insert a level at the place of a factor is to give the factor that level. -/
theorem levelAt_insertIdx (i b : ℕ) : ∀ {factors x : List ℕ} {a : ℕ}, a ∈ factors →
    x.length + 1 = factors.length → levelAt factors (x.insertIdx (factors.idxOf a) i) b =
      Function.update (levelAt (factors.erase a) x) a i b
  | c :: factors, x, a, ha, hlength => by
    by_cases hca : c = a
    · subst hca
      rw [List.idxOf_cons_self, List.insertIdx_zero, List.erase_cons_head]
      by_cases hb : b = c
      · rw [hb, levelAt_cons_self, Function.update_self]
      · rw [levelAt_cons_of_ne hb, Function.update_of_ne hb]
    · have ha : a ∈ factors := (List.mem_cons.mp ha).resolve_left (Ne.symm hca)
      obtain _ | ⟨j, x⟩ := x
      · have hnil : factors = [] := List.length_eq_zero_iff.mp (Nat.succ.inj hlength).symm
        exact absurd (hnil ▸ ha) List.not_mem_nil
      · rw [List.idxOf_cons_ne _ hca, List.insertIdx_succ_cons,
          List.erase_cons_tail (by rwa [beq_iff_eq])]
        by_cases hb : b = c
        · rw [hb, levelAt_cons_self, Function.update_of_ne hca, levelAt_cons_self]
        · rw [levelAt_cons_of_ne hb, levelAt_insertIdx i b ha (Nat.succ.inj hlength)]
          by_cases hba : b = a
          · rw [hba, Function.update_self, Function.update_self]
          · rw [Function.update_of_ne hba, Function.update_of_ne hba, levelAt_cons_of_ne hb]

namespace Grid

variable {f : List ℝ → ℝ} {P : ℝ → Prop} {g h h' : Grid ℝ} {axes axes' : List ℕ}

/-- The axes of a table that are not listed, in ascending order. -/
def otherAxes (g : Grid ℝ) (axes : List ℕ) : List ℕ := (List.range g.axes).filter (· ∉ axes)

theorem mem_otherAxes {a : ℕ} : a ∈ g.otherAxes axes ↔ a < g.shape.length ∧ a ∉ axes := by
  rw [otherAxes, List.mem_filter, List.mem_range, decide_eq_true_iff]
  rfl

theorem otherAxes_nil (g : Grid ℝ) : g.otherAxes [] = List.range g.shape.length :=
  List.filter_eq_self.mpr fun _ _ => decide_eq_true List.not_mem_nil

theorem nodup_otherAxes (g : Grid ℝ) (axes : List ℕ) : (g.otherAxes axes).Nodup :=
  List.nodup_range.filter _

theorem otherAxes_congr (haxes : ∀ a, a ∈ axes ↔ a ∈ axes') :
    g.otherAxes axes = g.otherAxes axes' :=
  List.filter_congr fun a _ => decide_eq_decide.mpr (not_congr (haxes a))

theorem otherAxes_cons (a : ℕ) : g.otherAxes (a :: axes) = (g.otherAxes axes).erase a := by
  rw [(nodup_otherAxes g axes).erase_eq_filter, otherAxes, otherAxes, List.filter_filter]
  refine List.filter_congr fun b _ => ?_
  rw [Bool.eq_iff_iff, decide_eq_true_iff, Bool.and_eq_true, bne_iff_ne, decide_eq_true_iff,
    List.mem_cons, not_or]

/-- The second table is the first, with each slice along the listed axes reduced to one number and
the listed axes dropped. -/
structure IsDrop (f : List ℝ → ℝ) (g : Grid ℝ) (axes : List ℕ) (h : Grid ℝ) : Prop where
  shape_eq : h.shape = (g.otherAxes axes).map g.extent
  get_eq : ∀ index, InBounds index h.shape →
    h.get index = f ((slice g.shape axes (levelAt (g.otherAxes axes) index)).map g.get)

theorem IsDrop.congr (hr : IsDrop f g axes h) (haxes : ∀ a, a ∈ axes ↔ a ∈ axes') :
    IsDrop f g axes' h where
  shape_eq := by rw [hr.shape_eq, otherAxes_congr haxes]
  get_eq index hin := by
    rw [hr.get_eq index hin, otherAxes_congr haxes,
      slice_congr (fun a _ => haxes a) fun _ _ _ => rfl]

/-- What is left does not depend on the order. -/
theorem IsDrop.eq (hr : IsDrop f g axes h) (hr' : IsDrop f g axes' h')
    (haxes : ∀ a, a ∈ axes ↔ a ∈ axes') : h = h' := by
  have hr := hr.congr haxes
  refine ext_get (hr.shape_eq.trans hr'.shape_eq.symm) fun index hin => ?_
  rw [hr.get_eq index hin, hr'.get_eq index (by rwa [hr'.shape_eq, ← hr.shape_eq])]

theorem isDrop_nil (hf : Pools f P) (hP : ∀ p, InBounds p g.shape → P (g.get p)) :
    IsDrop f g [] g := by
  refine ⟨?_, fun index hin => ?_⟩
  · rw [otherAxes_nil]
    refine List.ext_getElem (by rw [List.length_map, List.length_range]) fun a ha _ => ?_
    rw [List.getElem_map, List.getElem_range, extent, List.getD_eq_getElem _ _ ha]
  · have hlevel : ∀ a < g.shape.length, levelAt (List.range g.shape.length) index a =
        index.getD a 0 := fun a ha => by
      have hlt : a < (List.range g.shape.length).length := by rwa [List.length_range]
      have hplace := List.nodup_range.idxOf_getElem a hlt
      rw [List.getElem_range] at hplace
      rw [levelAt, hplace]
    rw [otherAxes_nil, slice_congr (fun _ _ => Iff.rfl) fun a ha _ => hlevel a ha, slice_nil hin,
      List.map_singleton, hf.singleton (hP index hin)]

/-- One more axis is dropped, at the place it has among those that are left. -/
theorem IsDrop.reduceDrop (hr : IsDrop f g axes h) (hf : Pools f P) (hpos : ∀ n ∈ g.shape, 0 < n)
    (hP : ∀ p, InBounds p g.shape → P (g.get p)) {a : ℕ} (ha : a < g.shape.length)
    (hmem : a ∉ axes) :
    IsDrop f g (a :: axes) (h.reduceDrop f ((g.otherAxes axes).idxOf a)) := by
  have ha' : a ∈ g.otherAxes axes := mem_otherAxes.mpr ⟨ha, hmem⟩
  have hshape : h.shape.eraseIdx ((g.otherAxes axes).idxOf a) =
      (g.otherAxes (a :: axes)).map g.extent := by
    rw [hr.shape_eq, List.eraseIdx_map, List.eraseIdx_idxOf_eq_erase, otherAxes_cons]
  refine ⟨hshape, fun index hin => ?_⟩
  rw [shape_reduceDrop] at hin
  have hextent : h.extent ((g.otherAxes axes).idxOf a) = g.shape.getD a 0 := by
    rw [extent, hr.shape_eq]
    exact levelAt_map g.extent ha'
  have hline : ∀ i < g.shape.getD a 0,
      InBounds (index.insertIdx ((g.otherAxes axes).idxOf a) i) h.shape := fun i hi =>
    InBounds.insertIdx hin (hi.trans_eq hextent.symm)
  have hposition : index ∈ positions ((g.otherAxes (a :: axes)).map g.extent) :=
    mem_positions.mpr (hshape ▸ hin)
  have hlevel : LevelsOf g.shape (a :: axes) (levelAt (g.otherAxes (a :: axes)) index) :=
    fun b hb hmem' => levelAt_lt hposition (mem_otherAxes.mpr ⟨hb, hmem'⟩)
  have hlength : index.length + 1 = (g.otherAxes axes).length := by
    rw [hin.length_eq, hshape, List.length_map, otherAxes_cons, List.length_erase_of_mem ha']
    exact Nat.succ_pred_eq_of_pos (List.length_pos_of_mem ha')
  rw [Grid.reduceDrop, get_ofFn _ hin, hextent, ← hf.map_slice hpos hP ha hmem hlevel]
  refine congrArg f (List.map_congr_left fun i hi => ?_)
  rw [hr.get_eq _ (hline i (List.mem_range.mp hi)), otherAxes_cons,
    slice_congr (fun _ _ => Iff.rfl) fun b _ _ => levelAt_insertIdx i b ha' hlength]

end Grid

/-! ## Drops by number -/

/-- A table, and the numbers that its axes had in the table it comes from. -/
structure Numbered where
  grid : Grid ℝ
  axes : List ℕ

namespace Numbered

/-- A table before any axis is dropped. -/
def start (g : Grid ℝ) : Numbered := ⟨g, List.range g.axes⟩

/-- Drops the axis with a number. -/
noncomputable def drop (f : List ℝ → ℝ) (t : Numbered) (a : ℕ) : Numbered :=
  ⟨t.grid.reduceDrop f (t.axes.idxOf a), t.axes.erase a⟩

/-- Drops the axes with the listed numbers, the first one first. -/
noncomputable def dropEach (f : List ℝ → ℝ) (g : Grid ℝ) (order : List ℕ) : Numbered :=
  order.foldl (drop f) (start g)

variable {f : List ℝ → ℝ} {P : ℝ → Prop} {g : Grid ℝ}

/-- **Axes dropped one after another are dropped at once**, in any order. -/
theorem isDrop_dropEach (hf : Pools f P) (hpos : ∀ n ∈ g.shape, 0 < n)
    (hP : ∀ p, InBounds p g.shape → P (g.get p)) {order : List ℕ} (hnodup : order.Nodup)
    (haxes : ∀ a ∈ order, a < g.shape.length) :
    (dropEach f g order).axes = g.otherAxes order ∧ g.IsDrop f order (dropEach f g order).grid := by
  induction order using List.reverseRecOn with
  | nil => exact ⟨(Grid.otherAxes_nil g).symm, Grid.isDrop_nil hf hP⟩
  | append_singleton order a ih =>
    obtain ⟨hnodup, -, hdisjoint⟩ := List.nodup_append.mp hnodup
    have hmem : a ∉ order := fun h => hdisjoint a h a (List.mem_singleton_self a) rfl
    obtain ⟨hothers, hdrop⟩ := ih hnodup fun b hb => haxes b (List.mem_append_left _ hb)
    have ha := haxes a (List.mem_append_right _ (List.mem_singleton_self a))
    have hcomm : ∀ b, b ∈ a :: order ↔ b ∈ order ++ [a] := fun b => by
      rw [List.mem_append, List.mem_singleton, List.mem_cons, or_comm]
    have hlast : dropEach f g (order ++ [a]) = (dropEach f g order).drop f a := by
      rw [dropEach, List.foldl_append]
      rfl
    rw [hlast, drop, hothers, ← Grid.otherAxes_cons, Grid.otherAxes_congr hcomm]
    exact ⟨rfl, (hdrop.reduceDrop hf hpos hP ha hmem).congr hcomm⟩

/-- From the last axis on, no axis that is still to be dropped has moved. -/
theorem foldl_reduceDrop (f : List ℝ → ℝ) : ∀ {order rest : List ℕ} {t : Numbered} {m : ℕ},
    order.Pairwise (· > ·) → (∀ a ∈ order, a < m) → t.axes = List.range m ++ rest →
      order.foldl (fun g a => g.reduceDrop f a) t.grid = (order.foldl (drop f) t).grid
  | [], _, _, _, _, _, _ => rfl
  | a :: order, rest, t, m, hsorted, hbelow, haxes => by
    obtain ⟨ha, hsorted⟩ := List.pairwise_cons.mp hsorted
    have ham : a < m := hbelow a List.mem_cons_self
    have hget : (List.range m)[a]? = some a := by
      rw [List.getElem?_range ham]
    have hsplit : t.axes = List.range a ++ a :: ((List.range m).drop (a + 1) ++ rest) := by
      rw [haxes, ← List.cons_append, ← List.append_assoc]
      conv_lhs => rw [← take_append_cons_drop hget, List.take_range, min_eq_left ham.le]
    have hnot : a ∉ List.range a := fun h => lt_irrefl a (List.mem_range.mp h)
    have hplace : t.axes.idxOf a = a := by
      rw [hsplit, List.idxOf_append_of_notMem hnot, List.idxOf_cons_self, List.length_range,
        Nat.add_zero]
    have hrest : (t.drop f a).axes = List.range a ++ ((List.range m).drop (a + 1) ++ rest) := by
      rw [drop, hsplit, List.erase_append_right _ hnot, List.erase_cons_head]
    rw [List.foldl_cons, List.foldl_cons, ← foldl_reduceDrop f hsorted ha hrest, drop, hplace]

end Numbered

namespace Design

/-- The axes of the factors within subjects that are not to be kept.  The first axis is that of the
subjects. -/
def droppedAxes (d : Design ℝ) (keep : List ℕ) : List ℕ :=
  ((List.range d.withinFactors.length).filter (· ∉ keep)).map (· + 1)

variable {d : Design ℝ} {keep : List ℕ}

theorem nodup_droppedAxes (d : Design ℝ) (keep : List ℕ) : (d.droppedAxes keep).Nodup :=
  (List.nodup_range.filter _).map fun _ _ h => Nat.succ.inj h

theorem lt_of_mem_droppedAxes {a : ℕ} (ha : a ∈ d.droppedAxes keep) :
    a < d.withinFactors.length + 1 := by
  obtain ⟨j, hj, rfl⟩ := List.mem_map.mp ha
  exact Nat.succ_lt_succ (List.mem_range.mp (List.mem_filter.mp hj).1)

/-- The factors within subjects are averaged out from the last one on. -/
theorem averageOutside_eq_dropEach (haxes : d.scores.axes = d.withinFactors.length + 1) :
    d.averageOutside keep =
      (Numbered.dropEach mean d.scores (d.droppedAxes keep).reverse).grid := by
  have hsorted : (d.droppedAxes keep).reverse.Pairwise (· > ·) := by
    rw [List.pairwise_reverse, droppedAxes, List.pairwise_map]
    exact (List.pairwise_lt_range.filter _).imp Nat.succ_lt_succ
  have hbelow : ∀ a ∈ (d.droppedAxes keep).reverse, a < d.scores.axes := fun a ha =>
    haxes ▸ lt_of_mem_droppedAxes (List.mem_reverse.mp ha)
  have hkeep : ∀ a, (!keep.contains a) = decide (a ∉ keep) := fun a => by
    rw [List.contains_eq_mem, decide_not]
  rw [Numbered.dropEach, ← Numbered.foldl_reduceDrop mean hsorted hbelow
    (List.append_nil _).symm, averageOutside, droppedAxes, ← List.map_reverse, List.foldl_map,
    ← List.filter_reverse]
  simp only [hkeep]
  rfl

/-- **Averaging out factors within subjects is taking the plain means over their axes**, and any
order of dropping the axes gives the same table. -/
theorem isDrop_averageOutside (hpos : ∀ n ∈ d.scores.shape, 0 < n)
    (haxes : d.scores.axes = d.withinFactors.length + 1) {order : List ℕ}
    (horder : order.Perm (d.droppedAxes keep)) :
    d.scores.IsDrop mean order (d.averageOutside keep) ∧
      (Numbered.dropEach mean d.scores order).grid = d.averageOutside keep := by
  have hbelow : ∀ a ∈ d.droppedAxes keep, a < d.scores.shape.length := fun a ha =>
    (lt_of_mem_droppedAxes ha).trans_eq haxes.symm
  have hany : ∀ {order : List ℕ}, order.Perm (d.droppedAxes keep) →
      d.scores.IsDrop mean order (Numbered.dropEach mean d.scores order).grid := fun h =>
    (Numbered.isDrop_dropEach pools_mean hpos (fun _ _ => trivial)
      (h.nodup_iff.mpr (nodup_droppedAxes d keep)) fun a ha => hbelow a (h.mem_iff.mp ha)).2
  have hlast := hany (List.reverse_perm (d.droppedAxes keep))
  rw [← averageOutside_eq_dropEach haxes] at hlast
  have hsame : ∀ a, a ∈ order ↔ a ∈ (d.droppedAxes keep).reverse := fun a => by
    rw [horder.mem_iff, List.mem_reverse]
  exact ⟨hlast.congr fun a => (hsame a).symm, (hany horder).eq hlast hsame⟩

end Design

/-! ## Both kinds of reduction -/

/-- The harmonic mean of the cell counts is their reduction along all axes. -/
theorem CellStatistics.harmonicMeanKeep_counts {values : Mat ℝ} {cells shape axes : List ℕ}
    (hpos : ∀ n ∈ shape, 0 < n) (haxes : ∀ a, a ∈ axes ↔ a < shape.length) :
    (ofRows values cells shape).counts.harmonicMeanKeep axes =
      .ofFn (shape.map fun _ => 1) fun _ => (ofRows values cells shape).harmonicN := by
  have hnonneg : ∀ p, InBounds p shape →
      0 ≤ (ofRows values cells shape).counts.get p := fun p hp => by
    rw [ofRows, Grid.get_ofFn _ hp]
    exact Nat.cast_nonneg _
  have hred := Grid.isReduction_reduceAllKeep (g := (ofRows values cells shape).counts)
    pools_harmonicMean hpos hnonneg fun a ha => (haxes a).mp ha
  exact hred.eq_ofFn fun a ha => (haxes a).mpr ha

/-- **Reductions axis by axis are reductions of whole slices.**  For every table without an empty
axis and every list of its axes, the means are those of the slices along the axes, and so are the
harmonic means, if no entry is negative; a slice with an entry zero has harmonic mean zero.  The
listed axes are kept with length one.  In particular the harmonic mean of the cell counts is their
reduction along all axes.  Factors within subjects are averaged out by the plain means over their
axes, and the axes may be dropped in any order. -/
theorem reductions_of_slices :
    (∀ (g : Grid ℝ) (axes : List ℕ), (∀ n ∈ g.shape, 0 < n) → (∀ a ∈ axes, a < g.axes) →
      g.IsReduction mean axes (g.meanKeep axes) ∧
      (g.harmonicMeanKeep axes).shape = (g.shape.mapIdx fun a n => if a ∈ axes then 1 else n) ∧
      ((∀ x ∈ g.toList, 0 ≤ x) →
        g.IsReduction harmonicMean axes (g.harmonicMeanKeep axes) ∧
        ∀ index, InBounds index (g.harmonicMeanKeep axes).shape →
          (∃ p ∈ slice g.shape axes fun a => index.getD a 0, g.get p = 0) →
            (g.harmonicMeanKeep axes).get index = 0)) ∧
    (∀ (values : Mat ℝ) (cells shape axes : List ℕ) (c : CellStatistics ℝ), (∀ n ∈ shape, 0 < n) →
      CellStatistics.compute values cells shape = .ok c → (∀ a, a ∈ axes ↔ a < shape.length) →
        c.counts.harmonicMeanKeep axes = .ofFn (shape.map fun _ => 1) fun _ => c.harmonicN) ∧
    (∀ (d : Design ℝ) (keep order : List ℕ), (∀ n ∈ d.scores.shape, 0 < n) →
      d.scores.axes = d.withinFactors.length + 1 → order.Perm (d.droppedAxes keep) →
        d.scores.IsDrop mean order (d.averageOutside keep) ∧
        (Numbered.dropEach mean d.scores order).grid = d.averageOutside keep) := by
  refine ⟨fun g axes hpos haxes => ?_, fun values cells shape axes c hpos hc haxes => ?_,
    fun d keep order hpos haxes horder => Design.isDrop_averageOutside hpos haxes horder⟩
  · have hmean := Grid.isReduction_reduceAllKeep pools_mean hpos (fun _ _ => trivial) haxes
    refine ⟨hmean, (Grid.shape_reduceAllKeep_eq _ _ g axes).trans hmean.shape_eq, fun hnonneg => ?_⟩
    have hentries : ∀ p, InBounds p g.shape → 0 ≤ g.get p := fun p hp => by
      refine hnonneg _ ?_
      rw [Grid.toList_eq]
      exact List.mem_map.mpr ⟨p, mem_multiIndices.mpr hp, rfl⟩
    have hharmonic := Grid.isReduction_reduceAllKeep pools_harmonicMean hpos hentries haxes
    refine ⟨hharmonic, fun index hin ⟨p, hp, hzero⟩ => ?_⟩
    rw [Grid.harmonicMeanKeep, hharmonic.get_eq index hin]
    exact harmonicMean_eq_zero_of_mem (List.mem_map.mpr ⟨p, hp, hzero⟩)
  · rw [CellStatistics.compute] at hc
    split at hc
    · rw [← Except.ok.inj hc]
      exact CellStatistics.harmonicMeanKeep_counts hpos haxes
    · cases hc

/-- Two axes with two levels each.  One entry is half as large as the others. -/
noncomputable def fourCells : Grid ℝ :=
  .ofFn [2, 2] fun p => ((if p = [0, 0] then 2 else 4 : ℕ) : ℝ)

theorem map_get_fourCells (axes : List ℕ) (level : ℕ → ℕ) :
    (slice [2, 2] axes level).map fourCells.get =
      (slice [2, 2] axes level).map fun p => ((if p = [0, 0] then 2 else 4 : ℕ) : ℝ) :=
  List.map_congr_left fun _ hp => Grid.get_ofFn _ (mem_slice.mp hp).1

/-- The entries along both axes and along the second one, the rows of three subjects in two cells,
and the six scores of one subject, averaged with the first factor going first. -/
theorem reductions_of_fourCells :
    (∀ n ∈ fourCells.shape, 0 < n) ∧ (∀ a ∈ [1, 0, 1], a < fourCells.axes) ∧
    (∀ x ∈ fourCells.toList, 0 ≤ x) ∧
    (fourCells.harmonicMeanKeep [1, 0, 1]).shape = [1, 1] ∧
    (fourCells.harmonicMeanKeep [1, 0, 1]).get [0, 0] = 16 / 5 ∧
    (fourCells.meanKeep [1, 1]).get [0, 0] = 3 ∧
    (∃ c : CellStatistics ℝ,
      CellStatistics.compute (.ofFn 3 1 fun i _ => (i : ℝ)) [0, 0, 1] [2] = .ok c ∧
        c.counts.harmonicMeanKeep [0] = .ofFn [1] fun _ => c.harmonicN) ∧
    Design.occasionsDesign.scores.axes = Design.occasionsDesign.withinFactors.length + 1 ∧
    [1, 2].Perm (Design.occasionsDesign.droppedAxes []) ∧
    (Numbered.dropEach mean Design.occasionsDesign.scores [1, 2]).grid =
      Design.occasionsDesign.averageOutside [] := by
  obtain ⟨hreductions, hcounts, hdrops⟩ := reductions_of_slices
  have hpos : ∀ n ∈ [2, 2], 0 < n := by decide
  have hboth : ∀ a ∈ [1, 0, 1], a < 2 := by decide
  have hnonneg : ∀ x ∈ fourCells.toList, 0 ≤ x := by
    intro x hx
    rw [Grid.toList_eq] at hx
    obtain ⟨p, hp, rfl⟩ := List.mem_map.mp hx
    have hp : InBounds p [2, 2] := mem_multiIndices.mp hp
    rw [fourCells, Grid.get_ofFn _ hp]
    exact Nat.cast_nonneg _
  obtain ⟨-, hshape, hharmonic⟩ := hreductions fourCells [1, 0, 1] hpos hboth
  have hshape : (fourCells.harmonicMeanKeep [1, 0, 1]).shape = [1, 1] := hshape
  obtain ⟨hmean, -, -⟩ := hreductions fourCells [1, 1] hpos (by decide)
  have hshape' : (fourCells.meanKeep [1, 1]).shape = [2, 1] := hmean.shape_eq
  refine ⟨hpos, hboth, hnonneg, hshape, ?_, ?_, ⟨_, rfl, ?_⟩, rfl, ?_, ?_⟩
  · have hslice : (slice [2, 2] [1, 0, 1] fun a => [0, 0].getD a 0) =
        [[0, 0], [0, 1], [1, 0], [1, 1]] := by decide
    have hget := (hharmonic hnonneg).1.get_eq [0, 0] (hshape ▸ ⟨one_pos, one_pos, trivial⟩)
    refine hget.trans ((congrArg harmonicMean (map_get_fourCells _ _)).trans ?_)
    rw [hslice, harmonicMean_eq]
    · norm_num
    · norm_num
  · have hslice : (slice [2, 2] [1, 1] fun a => [0, 0].getD a 0) = [[0, 0], [0, 1]] := by decide
    have hget := hmean.get_eq [0, 0] (hshape' ▸ ⟨two_pos, one_pos, trivial⟩)
    refine hget.trans ((congrArg mean (map_get_fourCells _ _)).trans ?_)
    rw [hslice, mean_eq]
    norm_num
  · exact hcounts (.ofFn 3 1 fun i _ => (i : ℝ)) [0, 0, 1] [2] [0] _ (by decide) rfl (by simp)
  · decide
  · exact (hdrops Design.occasionsDesign [] [1, 2] (by decide) rfl (by decide)).2

end SplitPlot
