import Mathlib
import SplitPlot.Grid.Lemmas

/-!
# What a reduced table holds

A table is reduced along several axes by a fold over the numbers of the axes.  What is proved about
reductions is proved by recursion on the axes themselves: this file turns the one form into the
other.

## Flagged axes

A `FlaggedAxis` is an extent together with a flag that says whether the axis is kept.  The axes of
a table are a list of them, and a position is read along that list, one level for each axis.
`lineKeep` and `lineDrop` are the two reductions in this form.  They stop at the end of the list, so
a table may have further axes behind the flagged ones; the axis of the variables is always there.

Reducing the highest axis first makes the lowest axis the outermost one.  So the fold agrees with
the recursion for every way to reduce a line, and no exchange of sums is involved
(`get_reduceAllKeep`, `get_reduceDrops`).
-/

namespace SplitPlot

/-! ## Positions with one level exchanged, added or taken away -/

theorem InBounds.set : ∀ {index shape : List ℕ} {axis i : ℕ}, InBounds index (shape.set axis 1) →
    i < shape.getD axis 0 → InBounds (index.set axis i) shape
  | [], [], _, _, _, hi => by simp at hi
  | _ :: _, _ :: _, 0, _, h, hi => ⟨hi, h.2⟩
  | _ :: _, _ :: _, _ + 1, _, h, hi => ⟨h.1, InBounds.set h.2 hi⟩
  | [], _ :: _, 0, _, h, _ => h.elim
  | [], _ :: _, _ + 1, _, h, _ => h.elim

theorem InBounds.insertIdx : ∀ {index shape : List ℕ} {axis i : ℕ},
    InBounds index (shape.eraseIdx axis) → i < shape.getD axis 0 →
      InBounds (index.insertIdx axis i) shape
  | _, [], _, _, _, hi => by simp at hi
  | _, _ :: _, 0, _, h, hi => ⟨hi, h⟩
  | _ :: _, _ :: _, _ + 1, _, h, hi => ⟨h.1, InBounds.insertIdx h.2 hi⟩
  | [], _ :: _, _ + 1, _, h, _ => h.elim

theorem inBounds_append : ∀ {index shape index' shape' : List ℕ}, index.length = shape.length →
    (InBounds (index ++ index') (shape ++ shape') ↔ InBounds index shape ∧ InBounds index' shape')
  | [], [], _, _, _ => ⟨fun h => ⟨trivial, h⟩, And.right⟩
  | _ :: _, _ :: _, _, _, h => by
    rw [List.cons_append, List.cons_append]
    exact (and_congr_right fun _ => inBounds_append (Nat.succ.inj h)).trans and_assoc.symm

theorem inBounds_concat {index shape : List ℕ} (h : InBounds index shape) {i n : ℕ} (hi : i < n) :
    InBounds (index ++ [i]) (shape ++ [n]) := (inBounds_append h.length_eq).mpr ⟨h, hi, trivial⟩

theorem inBounds_concat_iff {index shape : List ℕ} {i n : ℕ} :
    InBounds (index ++ [i]) (shape ++ [n]) ↔ InBounds index shape ∧ i < n := by
  refine ⟨fun h => ?_, fun h => inBounds_concat h.1 h.2⟩
  have hlen := h.length_eq
  rw [List.length_append, List.length_append] at hlen
  obtain ⟨hindex, hi, -⟩ := (inBounds_append (Nat.add_right_cancel hlen)).mp h
  exact ⟨hindex, hi⟩

theorem exists_eq_concat_of_inBounds {index shape : List ℕ} {n : ℕ}
    (h : InBounds index (shape ++ [n])) : ∃ x j, index = x ++ [j] ∧ InBounds x shape ∧ j < n := by
  rcases List.eq_nil_or_concat index with rfl | ⟨x, j, rfl⟩
  · have hlen := h.length_eq
    rw [List.length_append, List.length_nil] at hlen
    exact absurd hlen.symm (Nat.succ_ne_zero _)
  · rw [List.concat_eq_append] at h ⊢
    exact ⟨x, j, rfl, inBounds_concat_iff.mp h⟩

/-! ## Axes -/

/-- The extent of an axis, and whether the axis is kept. -/
abbrev FlaggedAxis := ℕ × Bool

/-- The numbers of the axes that are not kept. -/
def unkept (axes : List FlaggedAxis) : List ℕ :=
  (List.range axes.length).filter fun i => !(axes.getD i (0, true)).2

/-- The shape of a reduced table that keeps every axis. -/
def keptShape (axes : List FlaggedAxis) : List ℕ := axes.map fun a => if a.2 then a.1 else 1

/-- The shape of a reduced table that drops the other axes. -/
def droppedShape (axes : List FlaggedAxis) : List ℕ := (axes.filter (·.2)).map (·.1)

@[simp] theorem unkept_nil : unkept [] = [] := rfl

theorem unkept_cons (n : ℕ) (b : Bool) (axes : List FlaggedAxis) :
    unkept ((n, b) :: axes) = (if b then [] else [0]) ++ (unkept axes).map (· + 1) := by
  have htail : ((List.range axes.length).map (· + 1)).filter
      (fun i => !(((n, b) :: axes).getD i (0, true)).2) = (unkept axes).map (· + 1) := by
    rw [List.filter_map]
    rfl
  rw [unkept, List.length_cons, List.range_succ_eq_map, List.filter_cons]
  cases b with
  | true => exact htail
  | false => exact congrArg (0 :: ·) htail

theorem pairwise_unkept (axes : List FlaggedAxis) : (unkept axes).Pairwise (· < ·) :=
  List.pairwise_lt_range.filter _

@[simp] theorem keptShape_cons (n : ℕ) (b : Bool) (axes : List FlaggedAxis) :
    keptShape ((n, b) :: axes) = (if b then n else 1) :: keptShape axes := rfl

/-- If no axis is kept, all are reduced. -/
theorem unkept_map_false (shape : List ℕ) :
    unkept (shape.map fun n => (n, false)) = List.range shape.length := by
  rw [unkept, List.length_map]
  refine List.filter_eq_self.mpr fun i hi => ?_
  have hi' := List.mem_range.mp hi
  rw [List.getD_eq_getElem _ _ (by rwa [List.length_map]), List.getElem_map]
  rfl

@[simp] theorem length_keptShape (axes : List FlaggedAxis) :
    (keptShape axes).length = axes.length := List.length_map _

/-! ## Reductions by recursion on the axes -/

variable {K : Type}

/-- Reduces a function on positions along the axes that are not kept.  The level of such an axis is
not looked at. -/
def lineKeep (f : List K → K) : List FlaggedAxis → (List ℕ → K) → List ℕ → K
  | [], g, index => g index
  | _ :: _, g, [] => g []
  | (_, true) :: axes, g, i :: index => lineKeep f axes (fun rest => g (i :: rest)) index
  | (n, false) :: axes, g, _ :: index =>
    f ((List.range n).map fun i => lineKeep f axes (fun rest => g (i :: rest)) index)

/-- Reduces a function on positions along the axes that are not kept.  A position has no level of
such an axis. -/
def lineDrop (f : List K → K) : List FlaggedAxis → (List ℕ → K) → List ℕ → K
  | [], g, index => g index
  | (_, true) :: _, g, [] => g []
  | (_, true) :: axes, g, i :: index => lineDrop f axes (fun rest => g (i :: rest)) index
  | (n, false) :: axes, g, index =>
    f ((List.range n).map fun i => lineDrop f axes (fun rest => g (i :: rest)) index)

/-- What stands behind the flagged axes in a position is part of the function. -/
theorem lineKeep_append (f : List K → K) : ∀ {axes : List FlaggedAxis} (g : List ℕ → K)
    {index : List ℕ} (rest : List ℕ), index.length = axes.length →
      lineKeep f axes g (index ++ rest) = lineKeep f axes (fun x => g (x ++ rest)) index
  | [], _, [], _, _ => rfl
  | (_, true) :: _, g, i :: _, rest, hlen =>
    lineKeep_append f (fun x => g (i :: x)) rest (Nat.succ.inj hlen)
  | (_, false) :: _, g, _ :: _, rest, hlen =>
    congrArg f (List.map_congr_left fun i _ =>
      lineKeep_append f (fun x => g (i :: x)) rest (Nat.succ.inj hlen))

/-- A property of all entries that a reduction passes on to its values holds after reductions along
all axes. -/
theorem lineKeep_induction {f : List K → K} {P : K → Prop} : ∀ {axes : List FlaggedAxis},
    (∀ l : List K, l.length ∈ axes.map (·.1) → (∀ x ∈ l, P x) → P (f l)) →
      ∀ {g : List ℕ → K} {index : List ℕ}, (∀ x, InBounds x (axes.map (·.1)) → P (g x)) →
        InBounds index (keptShape axes) → P (lineKeep f axes g index)
  | [], _, g, [], hg, _ => hg [] trivial
  | (n, true) :: axes, hf, g, i :: index, hg, hin =>
    lineKeep_induction (fun l hl => hf l (List.mem_cons_of_mem _ hl))
      (fun x hx => hg (i :: x) ⟨hin.1, hx⟩) hin.2
  | (n, false) :: axes, hf, g, _ :: index, hg, hin => by
    refine hf _ ?_ fun x hx => ?_
    · rw [List.length_map, List.length_range]
      exact List.mem_cons_self
    · obtain ⟨i, hi, rfl⟩ := List.mem_map.mp hx
      exact lineKeep_induction (fun l hl => hf l (List.mem_cons_of_mem _ hl))
        (fun x hx => hg (i :: x) ⟨List.mem_range.mp hi, hx⟩) hin.2

/-! ## Reductions by the numbers of the axes -/

/-- Reduces a function on positions along the listed axes, the first one outermost.  `put` places a
level of an axis into a position. -/
def along (f : List K → K) (put : List ℕ → ℕ → ℕ → List ℕ) (extent : ℕ → ℕ) :
    List ℕ → (List ℕ → K) → List ℕ → K
  | [], g, index => g index
  | axis :: axes, g, index =>
    f ((List.range (extent axis)).map fun i => along f put extent axes g (put index axis i))

/-- A leading level that no listed axis belongs to is part of the function. -/
theorem along_cons {f : List K → K} {put : List ℕ → ℕ → ℕ → List ℕ} {extent : ℕ → ℕ}
    (hput : ∀ i index axis j, put (i :: index) (axis + 1) j = i :: put index axis j)
    (axes : List ℕ) (g : List ℕ → K) (i : ℕ) (index : List ℕ) :
    along f put extent (axes.map (· + 1)) g (i :: index) =
      along f put (fun axis => extent (axis + 1)) axes (fun rest => g (i :: rest)) index := by
  induction axes generalizing index with
  | nil => rfl
  | cons axis axes ih =>
    rw [List.map_cons, along, along]
    refine congrArg f (List.map_congr_left fun j _ => ?_)
    rw [hput, ih]

theorem along_set_unkept (f : List K → K) {extent : ℕ → ℕ} : ∀ {axes : List FlaggedAxis}
    {g : List ℕ → K} {index : List ℕ}, axes.length ≤ index.length →
    (∀ i < axes.length, extent i = (axes.getD i (0, true)).1) →
      along f List.set extent (unkept axes) g index = lineKeep f axes g index
  | [], _, _, _, _ => by rw [unkept_nil, along, lineKeep]
  | (n, b) :: axes, g, i :: index, hlen, hextent => by
    have hlen' : axes.length ≤ index.length := Nat.le_of_succ_le_succ hlen
    have htail : ∀ i < axes.length, extent (i + 1) = (axes.getD i (0, true)).1 := fun i hi =>
      hextent (i + 1) (Nat.succ_lt_succ hi)
    have hrest : ∀ j, along f List.set extent ((unkept axes).map (· + 1)) g (j :: index) =
        lineKeep f axes (fun rest => g (j :: rest)) index := fun j => by
      rw [along_cons fun _ _ _ _ => rfl, along_set_unkept f hlen' htail]
    rw [unkept_cons]
    cases b with
    | true => exact hrest i
    | false =>
      have hn : extent 0 = n := hextent 0 (Nat.succ_pos _)
      show f _ = f _
      rw [hn]
      exact congrArg f (List.map_congr_left fun j _ => hrest j)

theorem along_insertIdx_unkept (f : List K → K) {extent : ℕ → ℕ} : ∀ {axes : List FlaggedAxis}
    {g : List ℕ → K} {index : List ℕ}, (droppedShape axes).length ≤ index.length →
    (∀ i < axes.length, extent i = (axes.getD i (0, true)).1) →
      along f List.insertIdx extent (unkept axes) g index = lineDrop f axes g index
  | [], _, _, _, _ => by rw [unkept_nil, along, lineDrop]
  | (n, b) :: axes, g, index, hlen, hextent => by
    have htail : ∀ i < axes.length, extent (i + 1) = (axes.getD i (0, true)).1 := fun i hi =>
      hextent (i + 1) (Nat.succ_lt_succ hi)
    have hrest : ∀ j index, (droppedShape axes).length ≤ index.length →
        along f List.insertIdx extent ((unkept axes).map (· + 1)) g (j :: index) =
          lineDrop f axes (fun rest => g (j :: rest)) index := fun j index hlen => by
      rw [along_cons fun _ _ _ _ => rfl, along_insertIdx_unkept f hlen htail]
    rw [unkept_cons]
    cases b with
    | true =>
      obtain _ | ⟨i, index⟩ := index
      · exact absurd hlen (Nat.not_succ_le_zero _)
      · exact hrest i index (Nat.le_of_succ_le_succ hlen)
    | false =>
      have hn : extent 0 = n := hextent 0 (Nat.succ_pos _)
      show f _ = lineDrop f ((n, false) :: axes) g index
      rw [lineDrop, hn]
      exact congrArg f (List.map_congr_left fun j _ => hrest j index hlen)

/-! ## Reduced tables -/

namespace Grid

variable [Scalar K]

theorem foldl_reverse_reduceKeep (f : List K → K) (g : Grid K) {axes : List ℕ}
    (h : axes.Pairwise (· < ·)) :
    g.reduceAllKeep f axes = axes.foldr (fun axis g => g.reduceKeep f axis) g := by
  have hself : ascending axes = axes :=
    eq_of_pairwise_of_mem_iff (pairwise_ascending axes) h fun _ => mem_ascending
  rw [reduceAllKeep, hself, List.foldl_reverse]

theorem shape_foldr_reduceKeep (f : List K → K) (g : Grid K) (axes : List ℕ) :
    (axes.foldr (fun axis g => g.reduceKeep f axis) g).shape =
      axes.foldr (fun axis shape => shape.set axis 1) g.shape := by
  induction axes with
  | nil => rfl
  | cons axis axes ih => rw [List.foldr_cons, shape_reduceKeep, ih, List.foldr_cons]

theorem shape_foldr_reduceDrop (f : List K → K) (g : Grid K) (axes : List ℕ) :
    (axes.foldr (fun axis g => g.reduceDrop f axis) g).shape =
      axes.foldr (fun axis shape => shape.eraseIdx axis) g.shape := by
  induction axes with
  | nil => rfl
  | cons axis axes ih => rw [List.foldr_cons, shape_reduceDrop, ih, List.foldr_cons]

/-- The extent of an axis is not changed by reductions along higher ones. -/
theorem getD_foldr_set {shape axes : List ℕ} {axis : ℕ} (h : ∀ a ∈ axes, axis < a) :
    (axes.foldr (fun axis shape => shape.set axis 1) shape).getD axis 0 = shape.getD axis 0 := by
  induction axes with
  | nil => rfl
  | cons a axes ih =>
    obtain ⟨ha, haxes⟩ := List.forall_mem_cons.mp h
    rw [List.foldr_cons, List.getD_eq_getElem?_getD, List.getElem?_set_ne (Nat.ne_of_gt ha),
      ← List.getD_eq_getElem?_getD, ih haxes]

theorem getD_foldr_eraseIdx {shape axes : List ℕ} {axis : ℕ} (h : ∀ a ∈ axes, axis < a) :
    (axes.foldr (fun axis shape => shape.eraseIdx axis) shape).getD axis 0 =
      shape.getD axis 0 := by
  induction axes with
  | nil => rfl
  | cons a axes ih =>
    obtain ⟨ha, haxes⟩ := List.forall_mem_cons.mp h
    rw [List.foldr_cons, List.getD_eq_getElem?_getD, List.getElem?_eraseIdx_of_lt ha,
      ← List.getD_eq_getElem?_getD, ih haxes]

theorem get_foldr_reduceKeep (f : List K → K) (g : Grid K) : ∀ {axes index : List ℕ},
    axes.Pairwise (· < ·) →
    InBounds index (axes.foldr (fun axis shape => shape.set axis 1) g.shape) →
      (axes.foldr (fun axis g => g.reduceKeep f axis) g).get index =
        along f List.set g.extent axes g.get index
  | [], _, _, _ => rfl
  | axis :: axes, index, hlt, hin => by
    obtain ⟨haxis, hlt⟩ := List.pairwise_cons.mp hlt
    have hshape := shape_foldr_reduceKeep f g axes
    have hextent : (axes.foldr (fun axis g => g.reduceKeep f axis) g).extent axis =
        g.extent axis := by
      rw [extent, hshape, getD_foldr_set haxis]
      rfl
    rw [List.foldr_cons] at hin ⊢
    rw [reduceKeep, hshape, get_ofFn _ hin, hextent, along]
    refine congrArg f (List.map_congr_left fun i hi => get_foldr_reduceKeep f g hlt ?_)
    refine InBounds.set hin ?_
    rw [getD_foldr_set haxis]
    exact List.mem_range.mp hi

theorem get_foldr_reduceDrop (f : List K → K) (g : Grid K) : ∀ {axes index : List ℕ},
    axes.Pairwise (· < ·) →
    InBounds index (axes.foldr (fun axis shape => shape.eraseIdx axis) g.shape) →
      (axes.foldr (fun axis g => g.reduceDrop f axis) g).get index =
        along f List.insertIdx g.extent axes g.get index
  | [], _, _, _ => rfl
  | axis :: axes, index, hlt, hin => by
    obtain ⟨haxis, hlt⟩ := List.pairwise_cons.mp hlt
    have hshape := shape_foldr_reduceDrop f g axes
    have hextent : (axes.foldr (fun axis g => g.reduceDrop f axis) g).extent axis =
        g.extent axis := by
      rw [extent, hshape, getD_foldr_eraseIdx haxis]
      rfl
    rw [List.foldr_cons] at hin ⊢
    rw [reduceDrop, hshape, get_ofFn _ hin, hextent, along]
    refine congrArg f (List.map_congr_left fun i hi => get_foldr_reduceDrop f g hlt ?_)
    refine InBounds.insertIdx hin ?_
    rw [getD_foldr_eraseIdx haxis]
    exact List.mem_range.mp hi

/-! ## Tables with flagged axes -/

theorem foldr_set_unkept : ∀ (axes : List FlaggedAxis) (rest : List ℕ),
    (unkept axes).foldr (fun axis shape => shape.set axis 1) (axes.map (·.1) ++ rest) =
      keptShape axes ++ rest
  | [], _ => rfl
  | (n, b) :: axes, rest => by
    have htail : ∀ (l shape : List ℕ) (m : ℕ),
        (l.map (· + 1)).foldr (fun axis shape => shape.set axis 1) (m :: shape) =
          m :: l.foldr (fun axis shape => shape.set axis 1) shape := by
      intro l shape m
      induction l with
      | nil => rfl
      | cons a l ih => rw [List.map_cons, List.foldr_cons, ih, List.foldr_cons, List.set_cons_succ]
    rw [unkept_cons, List.foldr_append, List.map_cons, List.cons_append, htail,
      foldr_set_unkept axes rest]
    cases b <;> rfl

theorem foldr_eraseIdx_unkept : ∀ (axes : List FlaggedAxis) (rest : List ℕ),
    (unkept axes).foldr (fun axis shape => shape.eraseIdx axis) (axes.map (·.1) ++ rest) =
      droppedShape axes ++ rest
  | [], _ => rfl
  | (n, b) :: axes, rest => by
    have htail : ∀ (l shape : List ℕ) (m : ℕ),
        (l.map (· + 1)).foldr (fun axis shape => shape.eraseIdx axis) (m :: shape) =
          m :: l.foldr (fun axis shape => shape.eraseIdx axis) shape := by
      intro l shape m
      induction l with
      | nil => rfl
      | cons a l ih =>
        rw [List.map_cons, List.foldr_cons, ih, List.foldr_cons, List.eraseIdx_cons_succ]
    rw [unkept_cons, List.foldr_append, List.map_cons, List.cons_append, htail,
      foldr_eraseIdx_unkept axes rest]
    cases b <;> rfl

omit [Scalar K] in
/-- Each flagged axis has the extent that the shape of the table gives it. -/
theorem extent_eq_of_shape {g : Grid K} {axes : List FlaggedAxis} {rest : List ℕ}
    (hshape : g.shape = axes.map (·.1) ++ rest) {i : ℕ} (hi : i < axes.length) :
    g.extent i = (axes.getD i (0, true)).1 := by
  rw [extent, hshape, List.getD_append _ _ _ _ (by rwa [List.length_map]), List.getD_eq_getElem _ _
    (by rwa [List.length_map]), List.getD_eq_getElem _ _ hi, List.getElem_map]

theorem shape_reduceAllKeep (f : List K → K) {g : Grid K} {axes : List FlaggedAxis}
    {rest : List ℕ} (hshape : g.shape = axes.map (·.1) ++ rest) :
    (g.reduceAllKeep f (unkept axes)).shape = keptShape axes ++ rest := by
  rw [foldl_reverse_reduceKeep f g (pairwise_unkept axes), shape_foldr_reduceKeep, hshape,
    foldr_set_unkept]

/-- A table reduced along the axes that are not kept, read by recursion on the axes. -/
theorem get_reduceAllKeep (f : List K → K) {g : Grid K} {axes : List FlaggedAxis}
    {rest : List ℕ} (hshape : g.shape = axes.map (·.1) ++ rest) {index : List ℕ}
    (hin : InBounds index (keptShape axes ++ rest)) :
    (g.reduceAllKeep f (unkept axes)).get index = lineKeep f axes g.get index := by
  rw [foldl_reverse_reduceKeep f g (pairwise_unkept axes),
    get_foldr_reduceKeep f g (pairwise_unkept axes) (by rwa [hshape, foldr_set_unkept])]
  refine along_set_unkept f ?_ fun i hi => extent_eq_of_shape hshape hi
  rw [hin.length_eq, List.length_append, length_keptShape]
  exact Nat.le_add_right _ _

/-- A table reduced along the axes that are not kept, which are dropped, read by recursion on the
axes. -/
theorem get_reduceDrops (f : List K → K) {g : Grid K} {axes : List FlaggedAxis}
    (hshape : g.shape = axes.map (·.1)) {index : List ℕ}
    (hin : InBounds index (droppedShape axes)) :
    ((unkept axes).foldr (fun axis g => g.reduceDrop f axis) g).get index =
      lineDrop f axes g.get index := by
  have hshape' : g.shape = axes.map (·.1) ++ [] := hshape.trans (List.append_nil _).symm
  rw [get_foldr_reduceDrop f g (pairwise_unkept axes)
    (by rwa [hshape', foldr_eraseIdx_unkept, List.append_nil])]
  exact along_insertIdx_unkept f hin.length_eq.ge fun i hi => extent_eq_of_shape hshape' hi

theorem shape_reduceDrops (f : List K → K) {g : Grid K} {axes : List FlaggedAxis}
    (hshape : g.shape = axes.map (·.1)) :
    ((unkept axes).foldr (fun axis g => g.reduceDrop f axis) g).shape = droppedShape axes := by
  have hshape' : g.shape = axes.map (·.1) ++ [] := hshape.trans (List.append_nil _).symm
  rw [shape_foldr_reduceDrop, hshape', foldr_eraseIdx_unkept, List.append_nil]

end Grid

end SplitPlot
