import Mathlib
import SplitPlot.Proofs.Design.Accepted
import SplitPlot.Proofs.Grid.Reductions

/-!
# Pure effects without a memo

The pure effect of a source is found by taking the effects of its sub-sources away from its centred
means, and those effects are looked up in a memo.  Whether a look-up succeeds is a question about
the order of evaluation; what the effect is does not depend on it.  `Design.pureEffect` is the
effect itself, by recursion on the number of factors: a sub-source has fewer factors than its
source.  `restrict_eq_ok` says that a memo which holds the pure effects of the sub-sources of a
source leads to the pure effect of the source.

## Shapes

The effects of sub-sources stretch to the shape of the effect they are taken from.  The axes of a
table of cells are flagged by the factors of a source (`Coding.flags`), an effect has the kept shape
of these axes and a last axis for the variables (`shape_pureEffect`), and fewer flags give a shape
that stretches to the one of more flags (`stretchesTo_flags`).
-/

namespace SplitPlot

variable {K : Type}

/-! ## Flags -/

namespace Coding

/-- The axes of the listed factors, those of the factors of a source flagged. -/
def flags (c : Coding K) (factors : List ℕ) (s : Source) : List FlaggedAxis :=
  factors.map fun f => (c.levelCount f, s.contains f)

variable (c : Coding K)

@[simp] theorem flags_cons (f : ℕ) (factors : List ℕ) (s : Source) :
    c.flags (f :: factors) s = (c.levelCount f, s.contains f) :: c.flags factors s := rfl

@[simp] theorem length_flags (factors : List ℕ) (s : Source) :
    (c.flags factors s).length = factors.length := List.length_map _

@[simp] theorem map_fst_flags (factors : List ℕ) (s : Source) :
    (c.flags factors s).map (·.1) = factors.map c.levelCount := List.map_map

theorem axesOf_cons (f : ℕ) (factors : List ℕ) (s : Source) :
    axesOf (f :: factors) s =
      (if s.contains f then [0] else []) ++ (axesOf factors s).map (· + 1) := by
  rw [axesOf, List.zipIdx_cons', List.filter_cons, List.filter_map]
  by_cases h : s.contains f = true
  · simp [h, axesOf, Function.comp_def, Prod.map]
  · simp [h, axesOf, Function.comp_def, Prod.map]

/-- The places of the factors that do not belong to a source are the axes that are not kept. -/
theorem filter_not_axesOf (factors : List ℕ) (s : Source) :
    ((List.range factors.length).filter fun a => !(axesOf factors s).contains a) =
      unkept (c.flags factors s) := by
  induction factors with
  | nil => rfl
  | cons f factors ih =>
    have htail : ((List.range factors.length).map (· + 1)).filter
        (fun a => !(axesOf (f :: factors) s).contains a) =
          (unkept (c.flags factors s)).map (· + 1) := by
      rw [List.filter_map, ← ih]
      refine congrArg (List.map (· + 1)) (List.filter_congr fun a _ => ?_)
      simp [axesOf_cons]
    have hzero : (axesOf (f :: factors) s).contains 0 = s.contains f := by
      rw [Bool.eq_iff_iff, List.contains_iff_mem, axesOf_cons, List.mem_append]
      by_cases h : s.contains f = true <;> simp [h]
    rw [List.length_cons, List.range_succ_eq_map, List.filter_cons, htail, hzero, flags_cons,
      unkept_cons]
    cases s.contains f <;> rfl

/-- The extents of the axes of a source. -/
theorem map_getD_axesOf (factors : List ℕ) (s : Source) :
    ((axesOf factors s).map fun a => (factors.map c.levelCount).getD a 0) =
      droppedShape (c.flags factors s) := by
  induction factors with
  | nil => rfl
  | cons f factors ih =>
    rw [axesOf_cons, List.map_append, List.map_map, flags_cons, droppedShape, List.filter_cons]
    show _ ++ (axesOf factors s).map (fun a => (factors.map c.levelCount).getD a 0) = _
    rw [ih]
    cases s.contains f <;> rfl

/-- The axes of a source are flagged. -/
theorem getElem?_flags {factors : List ℕ} {s : Source} {axis : ℕ} (h : axis ∈ axesOf factors s) :
    ∃ n, (c.flags factors s)[axis]? = some (n, true) := by
  obtain ⟨⟨f, a⟩, hf, rfl⟩ := List.mem_map.mp h
  obtain ⟨hmem, hcontains⟩ := List.mem_filter.mp hf
  have hget : factors[a]? = some f := List.mk_mem_zipIdx_iff_getElem?.mp hmem
  refine ⟨c.levelCount f, ?_⟩
  rw [flags, List.getElem?_map, hget]
  simp [hcontains]

end Coding

/-! ## Stretching -/

/-- Fewer flags give a shape that stretches to the one of more flags. -/
theorem stretchesTo_flags (c : Coding K) {factors : List ℕ} {s t : Source} (rest : List ℕ)
    (h : ∀ f ∈ factors, t.contains f = true → s.contains f = true) :
    Grid.stretchesTo (keptShape (c.flags factors t) ++ rest)
      (keptShape (c.flags factors s) ++ rest) = true := by
  have hzip : ∀ factors : List ℕ, (∀ f ∈ factors, t.contains f = true → s.contains f = true) →
      ((keptShape (c.flags factors t) ++ rest).zip (keptShape (c.flags factors s) ++ rest)).all
        (fun e => e.1 == 1 || e.1 == e.2) = true := by
    intro factors
    induction factors with
    | nil =>
      intro _
      rw [List.all_eq_true]
      intro e he
      have hself : (keptShape (c.flags [] t) ++ rest).zip (keptShape (c.flags [] s) ++ rest) =
          rest.map fun n => (n, n) := by
        simp [Coding.flags, keptShape, List.zip_eq_zipWith]
      rw [hself] at he
      obtain ⟨n, -, rfl⟩ := List.mem_map.mp he
      simp
    | cons f factors ih =>
      intro h
      obtain ⟨hf, hfactors⟩ := List.forall_mem_cons.mp h
      rw [Coding.flags_cons, Coding.flags_cons, keptShape_cons, keptShape_cons, List.cons_append,
        List.cons_append, List.zip_cons_cons, List.all_cons, ih hfactors, Bool.and_true]
      by_cases ht : t.contains f = true
      · simp [ht, hf ht]
      · simp [ht]
  rw [Grid.stretchesTo, Bool.and_eq_true]
  constructor
  · simp
  · simpa using hzip factors h

variable [Scalar K]

/-- The difference of a table and one that is stretched to its shape, whether or not the shapes
allow it. -/
def Grid.minus (g h : Grid K) : Grid K :=
  .ofFn g.shape fun index => g.get index - h.getStretched index

theorem Grid.subStretched_eq_ok {g h : Grid K} (hshape : stretchesTo h.shape g.shape = true) :
    g.subStretched h = .ok (g.minus h) := if_pos hshape

namespace Design

variable (d : Design K)

/-! ## The pure effect of a source -/

omit [Scalar K] in
/-- A sub-source has fewer factors than its source. -/
theorem card_lt_of_mem_subSources {d : Design K} {s t : Source} (h : t ∈ d.subSources s) :
    t.toFinset.card < s.toFinset.card :=
  Finset.card_lt_card (Source.mem_properSubsets.mp (List.mem_filter.mp h).1).1

omit [Scalar K] in
/-- The sub-sources of a source ascend. -/
theorem pairwise_subSources (s : Source) :
    (d.subSources s).Pairwise fun t u => t.bits.toNat < u.bits.toNat :=
  (Source.pairwise_properSubsets s).filter _

/-- The pure effect of a source on the cells with the given statistics. -/
def pureEffect (c : CellStatistics K) (s : Source) : Grid K :=
  (d.subSources s).attach.foldl (fun effect t => effect.minus (pureEffect c t.1))
    (c.centredMeans (d.betweenAxes s))
termination_by s.toFinset.card
decreasing_by exact card_lt_of_mem_subSources t.2

theorem pureEffect_eq (c : CellStatistics K) (s : Source) :
    d.pureEffect c s = (d.subSources s).foldl (fun effect t => effect.minus (d.pureEffect c t))
      (c.centredMeans (d.betweenAxes s)) := by
  rw [pureEffect]
  exact List.foldl_attach (f := fun (effect : Grid K) t => effect.minus (d.pureEffect c t))

/-- The hypothesis matrix of a source on the cells with the given statistics. -/
def hypothesis (c : CellStatistics K) (s : Source) : Mat K :=
  c.hypothesisMatrix (d.pureEffect c s)
    (c.hypothesisWeights (d.betweenAxes s) (s == d.fullSource))

/-! ## Shapes -/

/-- The statistics of a score matrix whose rows stand in the cells of a design. -/
def statistics (values : Mat K) : CellStatistics K :=
  .ofRows values d.subjectCells d.betweenShape

theorem otherAxes_statistics (values : Mat K) (s : Source) :
    (d.statistics values).otherAxes (d.betweenAxes s) = unkept (d.flags d.betweenFactors s) := by
  have haxes : (d.statistics values).betweenAxes = d.betweenFactors.length :=
    List.length_map _
  rw [CellStatistics.otherAxes, haxes]
  exact d.filter_not_axesOf d.betweenFactors s

theorem shape_means (values : Mat K) (s : Source) : (d.statistics values).means.shape =
    (d.flags d.betweenFactors s).map (·.1) ++ [values.cols] := by
  rw [Coding.map_fst_flags]
  rfl

theorem shape_centredMeans (values : Mat K) (s : Source) :
    ((d.statistics values).centredMeans (d.betweenAxes s)).shape =
      keptShape (d.flags d.betweenFactors s) ++ [values.cols] := by
  show ((d.statistics values).marginalMeans (d.betweenAxes s)).shape = _
  rw [CellStatistics.marginalMeans, otherAxes_statistics]
  exact Grid.shape_reduceAllKeep mean (d.shape_means values s)

theorem shape_foldl_minus (effects : Source → Grid K) (l : List Source) (g : Grid K) :
    (l.foldl (fun effect t => effect.minus (effects t)) g).shape = g.shape := by
  induction l generalizing g with
  | nil => rfl
  | cons t l ih => rw [List.foldl_cons, ih]; rfl

/-- A pure effect has one axis for each factor between subjects and a last one for the
variables. -/
theorem shape_pureEffect (values : Mat K) (s : Source) :
    (d.pureEffect (d.statistics values) s).shape =
      keptShape (d.flags d.betweenFactors s) ++ [values.cols] := by
  rw [pureEffect_eq, shape_foldl_minus, shape_centredMeans]

/-- A source within subjects flags no factor between. -/
theorem Accepted.keptShape_within {d : Design K} (hd : d.Accepted) {s : Source}
    (h : d.kindOf s = .within) :
    keptShape (d.flags d.betweenFactors s) = d.betweenFactors.map fun _ => 1 := by
  rw [keptShape, Coding.flags, List.map_map]
  refine List.map_congr_left fun f hf => ?_
  obtain ⟨hlt, hbetween⟩ := Coding.mem_betweenFactors.mp hf
  have hnone : s.contains f = false := by
    rw [← Bool.not_eq_true, hd.contains_iff hlt]
    intro hmem
    have hwithin := List.mem_toFinset.mp ((hd.kindOf_eq_within_iff.mp h).2 hmem)
    rw [Coding.mem_withinFactors] at hwithin
    exact Bool.eq_false_iff.mp hbetween hwithin.2
  simp [hnone]

omit [Scalar K] in
/-- The flags of a sub-source give a shape that stretches to the one of its source. -/
theorem stretchesTo_flags_subSource {s t : Source} (rest : List ℕ) (ht : t ∈ d.subSources s) :
    Grid.stretchesTo (keptShape (d.flags d.betweenFactors t) ++ rest)
      (keptShape (d.flags d.betweenFactors s) ++ rest) = true := by
  have hsub := (Source.mem_properSubsets.mp (List.mem_filter.mp ht).1).1.1
  refine stretchesTo_flags d.toCoding _ fun f _ hf => ?_
  rw [Source.contains_iff] at hf ⊢
  exact ⟨hf.1, hsub hf.2⟩

/-- The effect of a sub-source stretches to the shape of the effect of its source. -/
theorem stretchesTo_subSource {s t : Source} (values : Mat K) (ht : t ∈ d.subSources s) :
    Grid.stretchesTo (d.pureEffect (d.statistics values) t).shape
      (keptShape (d.flags d.betweenFactors s) ++ [values.cols]) = true := by
  rw [shape_pureEffect]
  exact d.stretchesTo_flags_subSource _ ht

/-! ## Looking effects up -/

/-- A memo that holds the pure effects of the sub-sources of a source leads to the pure effect of
the source. -/
theorem restrict_eq_ok {values : Mat K} {s : Source} {memo : EffectMemo K}
    (hmemo : ∀ t ∈ d.subSources s,
      memo.get? t = some ⟨t, d.pureEffect (d.statistics values) t⟩) :
    d.restrict (d.statistics values) s memo =
      .ok (d.pureEffect (d.statistics values) s, d.hypothesis (d.statistics values) s) := by
  have hfold : d.subtractEffects s memo ((d.statistics values).centredMeans (d.betweenAxes s)) =
      .ok (d.pureEffect (d.statistics values) s) := by
    rw [pureEffect_eq]
    refine foldlM_eq_ok (P := fun l g => (∀ t ∈ l, t ∈ d.subSources s) ∧
      g.shape = keptShape (d.flags d.betweenFactors s) ++ [values.cols])
      ⟨fun t ht => ht, d.shape_centredMeans values s⟩ fun t l g hP => ?_
    obtain ⟨hl, hshape⟩ := hP
    obtain ⟨ht, hl⟩ := List.forall_mem_cons.mp hl
    refine ⟨?_, hl, hshape⟩
    rw [EffectMemo.require, hmemo t ht]
    refine Grid.subStretched_eq_ok ?_
    rw [hshape]
    exact d.stretchesTo_subSource values ht
  rw [restrict, hfold]
  rfl

end Design

end SplitPlot
