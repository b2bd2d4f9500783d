import Mathlib
import SplitPlot.Summary
import SplitPlot.Proofs.OneWay
import SplitPlot.Proofs.Decomposition.Alike
import SplitPlot.Proofs.Design.Choices
import SplitPlot.Proofs.Design.Decoding

/-!
# Descriptions of cells are consistent

The cells of a source are found by collecting whatever levels occur among the observations.  That
none is missing is a property of accepted designs: some subject stands in every cell between
subjects, and every subject is observed in every cell within (`Accepted.exists_observation`).  So
the ascending list of what occurs is the list of all positions along the factors
(`Accepted.summarize_eq`).

Each description belongs to the rows with its levels, replicates averaged (`CellSummary.Describes`).
The cells of a source divide the observations, and if a source has more factors than another, then
its cells divide the cells of the other (`CellSummary.IsPartOf`): numbers and totals add up
(`sum_parts`).  Both are the same regrouping of a sum, once over all observations and once over
those of a cell (`sum_map_filter_key`).
-/

namespace SplitPlot

/-! ## Sums over classes -/

/-- Among different keys, one is counted once. -/
theorem sum_map_single {β M : Type} [DecidableEq β] [AddCommMonoid M] {keys : List β}
    (hkeys : keys.Nodup) {k : β} (hk : k ∈ keys) (x : M) :
    (keys.map fun k' => if k = k' then x else 0).sum = x := by
  rw [List.sum_map_eq_nsmul_single k _ fun k' hk' _ => if_neg hk'.symm,
    List.count_eq_one_of_mem hkeys hk, one_nsmul, if_pos rfl]

/-- A sum over a list, class by class. -/
theorem sum_map_filter_key {α β M : Type} [BEq β] [LawfulBEq β] [AddCommMonoid M] {keys : List β}
    (hkeys : keys.Nodup) (key : α → β) (g : α → M) {l : List α} (hl : ∀ a ∈ l, key a ∈ keys) :
    (keys.map fun k => ((l.filter fun a => key a == k).map g).sum).sum = (l.map g).sum := by
  classical
  induction l with
  | nil => simp
  | cons a l ih =>
    obtain ⟨ha, hl⟩ := List.forall_mem_cons.mp hl
    have hsplit : ∀ k, (((a :: l).filter fun a => key a == k).map g).sum =
        (if key a = k then g a else 0) + ((l.filter fun a => key a == k).map g).sum := by
      intro k
      by_cases h : key a = k
      · rw [List.filter_cons_of_pos (by simpa using h), if_pos h, List.map_cons, List.sum_cons]
      · rw [List.filter_cons_of_neg (by simpa using h), if_neg h, zero_add]
    -- the head counts for its own class only
    rw [List.map_congr_left fun k _ => hsplit k, List.sum_map_add, sum_map_single hkeys ha, ih hl,
      List.map_cons, List.sum_cons]

/-! ## The order of positions -/

instance trichotomousListNat : Std.Trichotomous (α := List ℕ) (· < ·) :=
  inferInstanceAs (Std.Trichotomous (List.Lex fun a b : ℕ => a < b))

instance asymmListNat : Std.Asymm (α := List ℕ) (· < ·) :=
  inferInstanceAs (Std.Asymm (List.Lex fun a b : ℕ => a < b))

instance transListNat : Trans (α := List ℕ) (· < ·) (· < ·) (· < ·) :=
  ⟨fun h h' => List.lex_trans (r := fun a b : ℕ => a < b) Nat.lt_trans h h'⟩

/-! ## No cell is missing -/

namespace Design

section Generic

variable {K : Type} [Scalar K] {d : Design K}

/-- In an accepted design every combination of levels is observed. -/
theorem Accepted.exists_observation (hd : d.Accepted) {b : ℕ → ℕ}
    (hb : ∀ f < d.factorCount, b f < d.levelCount f) :
    ∃ o ∈ d.observations, ∀ f < d.factorCount, o.levels.getD f 0 = b f := by
  have hbetween : InBounds (d.betweenFactors.map b) d.betweenShape :=
    inBounds_map.mpr fun f hf => hb f (Coding.mem_betweenFactors.mp hf).1
  have hwithin : InBounds (d.withinFactors.map b) d.withinShape :=
    inBounds_map.mpr fun f hf => hb f (Coding.mem_withinFactors.mp hf).1
  -- a subject of the cell, and its observation at the levels within subjects
  obtain ⟨o, ho, hcell⟩ := hd.complete.populated _ hbetween
  obtain ⟨o', ho', hsubject, hvisit⟩ :=
    hd.complete.observed o.subject (hd.coherent.subject_lt o ho) _ hwithin
  have hcell' := (hd.complete.placed o' ho' o ho hsubject).trans hcell
  rw [CodedObservation.levelsAt, List.map_inj_left] at hcell' hvisit
  exact ⟨o', ho', fun f hf => (Coding.mem_betweenFactors_or_mem_withinFactors hf).elim (hcell' f)
    (hvisit f)⟩

variable {s u : Source}

/-- The cells that occur are all cells, in the order of the odometer. -/
theorem Accepted.summarize_eq (hd : d.Accepted) (hs : ∀ f ∈ s.factors, f < d.factorCount) :
    d.summarize s =
      (multiIndices (s.factors.map d.levelCount)).map (d.summarizeCell s.factors) := by
  refine congrArg (List.map _) (eq_of_pairwise_of_mem_iff (pairwise_ascending _)
    (pairwise_multiIndices _) fun x => ?_)
  rw [mem_ascending, mem_multiIndices, List.mem_map]
  constructor
  · rintro ⟨o, ho, rfl⟩
    exact inBounds_map.mpr fun f hf => hd.coherent.level_lt o ho f (hs f hf)
  · intro hx
    have hpos := mem_positions.mpr hx
    have hmap := map_levelAt s.nodup_factors (length_of_mem_positions hpos)
    obtain ⟨o, ho, hlevels⟩ := hd.exists_observation
      (b := fun f => if f ∈ s.factors then levelAt s.factors x f else 0) fun f hf => by
        by_cases h : f ∈ s.factors
        · rw [if_pos h]
          exact levelAt_lt hpos h
        · rw [if_neg h]
          exact hd.levelCount_pos f hf
    refine ⟨o, ho, Eq.trans (List.map_congr_left fun f hf => ?_) hmap⟩
    rw [hlevels f (hs f hf), if_pos hf]

/-- The position of an observation is one of the cells. -/
theorem Accepted.levelsAt_mem (hd : d.Accepted) (hs : ∀ f ∈ s.factors, f < d.factorCount)
    {o : CodedObservation K} (ho : o ∈ d.observations) :
    o.levelsAt s.factors ∈ multiIndices (s.factors.map d.levelCount) :=
  mem_multiIndices.mpr (inBounds_map.mpr fun f hf => hd.coherent.level_lt o ho f (hs f hf))

/-- A sum over the observations, cell by cell. -/
theorem Accepted.sum_cells (hd : d.Accepted) (hs : ∀ f ∈ s.factors, f < d.factorCount) {M : Type}
    [AddCommMonoid M] (g : CodedObservation K → M) :
    ((multiIndices (s.factors.map d.levelCount)).map fun x =>
      ((d.observations.filter fun o => o.levelsAt s.factors == x).map g).sum).sum =
        (d.observations.map g).sum :=
  sum_map_filter_key (nodup_multiIndices _) (·.levelsAt s.factors) g fun _ ho =>
    hd.levelsAt_mem hs ho

/-! ## Parts of a cell -/

/-- A position of one source has the levels of a position of another, at the factors of the
latter. -/
def Below (u s : Source) (y x : List ℕ) : Prop :=
  ∀ f ∈ s.factors, levelAt u.factors y f = levelAt s.factors x f

instance (u s : Source) (y x : List ℕ) : Decidable (Below u s y x) :=
  inferInstanceAs (Decidable (∀ f ∈ s.factors, _))

omit [Scalar K] in
theorem below_levelsAt_iff (hsu : s.toFinset ⊆ u.toFinset) {o : CodedObservation K} {x : List ℕ}
    (hx : x.length = s.factors.length) :
    Below u s (o.levelsAt u.factors) x ↔ o.levelsAt s.factors = x := by
  conv_rhs => rw [← map_levelAt s.nodup_factors hx, CodedObservation.levelsAt, List.map_inj_left]
  refine forall₂_congr fun f hf => ?_
  rw [CodedObservation.levelsAt, levelAt_map _ (Source.mem_factors_of_subset hsu hf)]

/-- The observations of a cell are those of its parts. -/
theorem Accepted.sum_observations_below (hd : d.Accepted) (hsu : s.toFinset ⊆ u.toFinset)
    (hu : ∀ f ∈ u.factors, f < d.factorCount) {x : List ℕ} (hx : x.length = s.factors.length)
    {M : Type} [AddCommMonoid M] (g : CodedObservation K → M) :
    (((multiIndices (u.factors.map d.levelCount)).filter fun y => Below u s y x).map fun y =>
      ((d.observations.filter fun o => o.levelsAt u.factors == y).map g).sum).sum =
        ((d.observations.filter fun o => o.levelsAt s.factors == x).map g).sum := by
  have hparts : ∀ y ∈ (multiIndices (u.factors.map d.levelCount)).filter fun y => Below u s y x,
      (d.observations.filter fun o => o.levelsAt u.factors == y) =
        (d.observations.filter fun o => o.levelsAt s.factors == x).filter
          fun o => o.levelsAt u.factors == y := by
    intro y hy
    have hbelow : Below u s y x := by simpa using (List.mem_filter.mp hy).2
    rw [List.filter_filter]
    refine List.filter_congr fun o _ => ?_
    rw [Bool.eq_iff_iff, Bool.and_eq_true, beq_iff_eq, beq_iff_eq, iff_self_and]
    rintro rfl
    exact (below_levelsAt_iff hsu hx).mp hbelow
  rw [List.map_congr_left fun y hy => by rw [hparts y hy]]
  refine sum_map_filter_key ((nodup_multiIndices _).filter _) (·.levelsAt u.factors) g
    fun o ho => ?_
  obtain ⟨hmem, hcell⟩ := List.mem_filter.mp ho
  refine List.mem_filter.mpr ⟨hd.levelsAt_mem hu hmem, ?_⟩
  rw [decide_eq_true_iff, below_levelsAt_iff hsu hx]
  exact beq_iff_eq.mp hcell

end Generic

end Design

/-! ## What a summary says of its cell -/

/-- A summary gives the number, the mean and the standard error of some values. -/
structure CellSummary.Describes (c : CellSummary ℝ) (values : List ℝ) : Prop where
  one_le : 1 ≤ c.n
  n_eq : c.n = values.length
  mean_eq : c.n * c.mean = values.sum
  stdErr_eq : 1 < c.n →
    c.n * (c.n - 1) * c.stdErr ^ 2 = (values.map fun v => v ^ 2).sum - c.n * c.mean ^ 2

/-- The level that a cell of a source has at a factor. -/
def CellSummary.level? {K : Type} (c : CellSummary K) (s : Source) (f : ℕ) : Option Level :=
  c.levels[s.factors.idxOf f]?

/-- A cell of a source has the levels of a cell of another, at the factors of the latter. -/
def CellSummary.IsPartOf {K : Type} (u s : Source) (c' c : CellSummary K) : Prop :=
  ∀ f ∈ s.factors, c'.level? u f = c.level? s f

instance {K : Type} (u s : Source) (c' c : CellSummary K) : Decidable (c'.IsPartOf u s c) :=
  inferInstanceAs (Decidable (∀ f ∈ s.factors, _))

/-- The squared standard error of the mean of several values. -/
theorem length_mul_standardError_sq {l : List ℝ} (h : 1 < l.length) :
    (l.length : ℝ) * (l.length - 1) * standardError l ^ 2 =
      (l.map fun v => v ^ 2).sum - l.length * mean l ^ 2 := by
  have hne : l ≠ [] := fun hnil => by simp [hnil] at h
  have hpos : (0 : ℝ) < l.length := by exact_mod_cast Nat.zero_lt_of_lt h
  have hpos' : (0 : ℝ) < l.length - 1 := by
    have : (1 : ℝ) < l.length := by exact_mod_cast h
    linarith
  have hcast : (((l.length - 1 : ℕ) : ℝ)) = l.length - 1 := by rw [Nat.cast_sub h.le, Nat.cast_one]
  have hsquares := sum_map_sub_sq_nonneg l (mean l)
  have hvalue : standardError l =
      √((l.map fun v => (v - mean l) ^ 2).sum / (l.length - 1) / l.length) := by
    rw [← hcast]
    simp only [standardError, if_neg (not_le.mpr h), total_eq_sum, Scalar.square, ← pow_two]
    rfl
  rw [hvalue, Real.sq_sqrt (by positivity), sum_map_sub_mean_sq hne, ← length_mul_mean hne]
  simp only [pow_two]
  field_simp

namespace Design

theorem summarizeCell_describes {d : Design ℝ} {factors : List ℕ} {o : CodedObservation ℝ}
    (ho : o ∈ d.observations) :
    (d.summarizeCell factors (o.levelsAt factors)).Describes
      ((d.observations.filter fun o' =>
        o'.levelsAt factors == o.levelsAt factors).map (·.value)) := by
  have hmem : o.value ∈ (d.observations.filter fun o' =>
      o'.levelsAt factors == o.levelsAt factors).map (·.value) :=
    List.mem_map_of_mem (List.mem_filter.mpr ⟨ho, beq_self_eq_true _⟩)
  have hne := List.ne_nil_of_mem hmem
  exact ⟨List.length_pos_iff.mpr hne, rfl, length_mul_mean hne, length_mul_standardError_sq⟩

section Cell

variable (d : Design ℝ) (factors x : List ℕ)

theorem n_summarizeCell : (d.summarizeCell factors x).n =
    ((d.observations.filter fun o => o.levelsAt factors == x).map fun _ => 1).sum := by
  simp [summarizeCell]

theorem total_summarizeCell :
    ((d.summarizeCell factors x).n : ℝ) * (d.summarizeCell factors x).mean =
      ((d.observations.filter fun o => o.levelsAt factors == x).map (·.value)).sum := by
  show (((d.observations.filter fun o => o.levelsAt factors == x).map (·.value)).length : ℝ) *
    mean _ = _
  rcases ((d.observations.filter fun o => o.levelsAt factors == x).map (·.value)).eq_nil_or_concat
    with hnil | ⟨l, v, hl⟩
  · rw [hnil, List.length_nil, Nat.cast_zero, zero_mul, List.sum_nil]
  · exact length_mul_mean (by rw [hl]; simp)

end Cell

theorem level?_summarizeCell (d : Design ℝ) {s : Source} {x : List ℕ}
    (hx : x.length = s.factors.length) {f : ℕ} (hf : f ∈ s.factors) :
    (d.summarizeCell s.factors x).level? s f =
      some ((d.factor f).levels.getD (levelAt s.factors x f) default) := by
  have hlevels : (d.summarizeCell s.factors x).levels =
      s.factors.map fun f => (d.factor f).levels.getD (levelAt s.factors x f) default := by
    conv_lhs => rw [← map_levelAt s.nodup_factors hx]
    exact pick_map (fun f => (d.factor f).levels) s.factors _
  have hlt := List.idxOf_lt_length_of_mem hf
  rw [CellSummary.level?, hlevels, List.getElem?_map, List.getElem?_eq_getElem hlt,
    List.getElem_idxOf hlt]
  rfl

section Table

variable {t : ObservationTable ℝ} {settings : Settings} {d : Design ℝ} (ht : t.Built)
  (h : ofTable t settings = .ok d)

include ht h

theorem pairwise_levels_ofTable {f : ℕ} (hf : f < d.factorCount) :
    (d.factor f).levels.Pairwise (· < ·) := by
  rw [levels_ofTable ht h (hf.trans_eq (factorCount_ofTable ht h))]
  exact pairwise_ascending _

variable {s u : Source} (hs : ∀ f ∈ s.factors, f < d.factorCount)

include hs

/-- The observations of a cell are the rows with its levels, replicates averaged. -/
theorem values_summarizeCell {x : List ℕ} (hx : InBounds x (s.factors.map d.levelCount)) :
    (d.observations.filter fun o => o.levelsAt s.factors == x).map (·.value) =
      (t.averages.filter fun r => r.At s.factors (d.summarizeCell s.factors x).levels).map
        (·.value) := by
  obtain ⟨hadm, -, -⟩ := (ofTable_eq_ok_iff t settings d).mp h
  have hlt : ∀ f ∈ s.factors, f < t.factorCount := fun f hf =>
    (hs f hf).trans_eq (factorCount_ofTable ht h)
  have hnames : ∀ f ∈ s.factors, f < (settings.resolveNames t.factorCount).length := fun f hf =>
    (hlt f hf).trans_eq hadm.length_names.symm
  have hlen : ∀ r ∈ t.averages, r.levels.length = (settings.resolveNames t.factorCount).length :=
    fun r hr => (length_levels_averages ht r hr).trans hadm.length_names.symm
  have hlevels : (d.summarizeCell s.factors x).levels =
      pick (columnLevels t.averages) s.factors x := by
    refine List.map_congr_left fun e he => ?_
    rw [levels_ofTable ht h (hlt e.2 (List.of_mem_zip he).2)]
  rw [hlevels, observations_ofTable ht h, List.filter_map, List.map_map]
  refine congrArg _ (List.filter_congr fun r hr => ?_)
  obtain rfl := eq_of_ofTable ht h
  rw [Bool.eq_iff_iff, decide_eq_true_iff, at_pick_iff hnames hlen s.nodup_factors hx hr]
  exact beq_iff_eq

/-- Parts are recognised by their levels as by their codes. -/
theorem isPartOf_iff (hsu : s.toFinset ⊆ u.toFinset) {x y : List ℕ}
    (hx : InBounds x (s.factors.map d.levelCount)) (hy : InBounds y (u.factors.map d.levelCount)) :
    (d.summarizeCell u.factors y).IsPartOf u s (d.summarizeCell s.factors x) ↔ Below u s y x := by
  have hpos := mem_positions.mpr hx
  have hpos' := mem_positions.mpr hy
  refine forall₂_congr fun f hf => ?_
  have hfu := Source.mem_factors_of_subset hsu hf
  rw [d.level?_summarizeCell (length_of_mem_positions hpos) hf,
    d.level?_summarizeCell (length_of_mem_positions hpos') hfu, Option.some_inj,
    List.getD_eq_getElem _ _ (levelAt_lt hpos hf), List.getD_eq_getElem _ _ (levelAt_lt hpos' hfu)]
  exact (nodup_of_pairwise_lt (pairwise_levels_ofTable ht h (hs f hf))).getElem_inj_iff

/-- There is one cell for each combination of levels, in their order, and every cell is
described. -/
theorem summarize_cells :
    (d.summarize s).map (·.levels) = choices (s.factors.map fun f => (d.factor f).levels) ∧
      ((d.summarize s).map (·.levels)).Pairwise (· < ·) ∧
      (∀ c ∈ d.summarize s,
        c.Describes ((t.averages.filter fun r => r.At s.factors c.levels).map (·.value))) ∧
      ((d.summarize s).map (·.n)).sum = t.averages.length := by
  have hd := accepted_of_ofTable ht h
  have hchoices : (d.summarize s).map (·.levels) =
      choices (s.factors.map fun f => (d.factor f).levels) := by
    rw [hd.summarize_eq hs, List.map_map, choices_map]
    rfl
  refine ⟨hchoices, ?_, fun c hc => ?_, ?_⟩
  · rw [hchoices]
    refine pairwise_choices fun l hl => ?_
    obtain ⟨f, hf, rfl⟩ := List.mem_map.mp hl
    exact pairwise_levels_ofTable ht h (hs f hf)
  · obtain ⟨x, hx, rfl⟩ := List.mem_map.mp hc
    obtain ⟨o, ho, rfl⟩ := List.mem_map.mp (mem_ascending.mp hx)
    rw [← values_summarizeCell ht h hs (mem_multiIndices.mp (hd.levelsAt_mem hs ho))]
    exact summarizeCell_describes ho
  · have hn : ((d.summarize s).map (·.n)) = (multiIndices (s.factors.map d.levelCount)).map fun x =>
        ((d.observations.filter fun o => o.levelsAt s.factors == x).map fun _ => 1).sum := by
      rw [hd.summarize_eq hs, List.map_map]
      exact List.map_congr_left fun x _ => d.n_summarizeCell s.factors x
    rw [hn, hd.sum_cells hs, List.map_const', List.sum_replicate, smul_eq_mul, mul_one,
      observations_ofTable ht h, List.length_map]

/-- A cell holds what its parts hold. -/
theorem sum_parts (hu : ∀ f ∈ u.factors, f < d.factorCount) (hsu : s.toFinset ⊆ u.toFinset)
    {c : CellSummary ℝ} (hc : c ∈ d.summarize s) :
    c.n = (((d.summarize u).filter fun c' => c'.IsPartOf u s c).map (·.n)).sum ∧
      (c.n : ℝ) * c.mean =
        (((d.summarize u).filter fun c' => c'.IsPartOf u s c).map
          fun c' => (c'.n : ℝ) * c'.mean).sum := by
  have hd := accepted_of_ofTable ht h
  rw [hd.summarize_eq hs] at hc
  obtain ⟨x, hx, rfl⟩ := List.mem_map.mp hc
  have hin := mem_multiIndices.mp hx
  have hlen := length_of_mem_positions (mem_positions.mpr hin)
  have hparts : ((d.summarize u).filter fun c' => c'.IsPartOf u s (d.summarizeCell s.factors x)) =
      ((multiIndices (u.factors.map d.levelCount)).filter fun y => Below u s y x).map
        (d.summarizeCell u.factors) := by
    rw [hd.summarize_eq hu, List.filter_map]
    refine congrArg _ (List.filter_congr fun y hy => ?_)
    rw [Function.comp_apply, decide_eq_decide]
    exact isPartOf_iff ht h hs hsu hin (mem_multiIndices.mp hy)
  rw [hparts, List.map_map, List.map_map]
  refine ⟨?_, ?_⟩
  · rw [n_summarizeCell, ← hd.sum_observations_below hsu hu hlen]
    exact congrArg List.sum (List.map_congr_left fun y _ => (d.n_summarizeCell u.factors y).symm)
  · rw [total_summarizeCell, ← hd.sum_observations_below hsu hu hlen]
    exact congrArg List.sum
      (List.map_congr_left fun y _ => (d.total_summarizeCell u.factors y).symm)

omit hs in
/-- **The summaries of cells are consistent.**  A source has one cell for each combination of the
levels of its factors, in ascending order; each cell describes the rows with its levels, of which
there is at least one; and the cells of a source add up to the cells of every source of fewer
factors. -/
theorem summarize_consistent : ∃ rows, t.deduplicate settings.duplicates = .ok rows ∧
    (∀ s : Source, s.toFinset ⊆ Finset.range d.factorCount →
      (d.summarize s).map (·.levels) = choices (s.factors.map fun f => (d.factor f).levels) ∧
      ((d.summarize s).map (·.levels)).Pairwise (· < ·) ∧
      (∀ c ∈ d.summarize s,
        c.Describes ((rows.filter fun r => r.At s.factors c.levels).map (·.value))) ∧
      ((d.summarize s).map (·.n)).sum = rows.length) ∧
    ∀ s u : Source, s.toFinset ⊆ u.toFinset → u.toFinset ⊆ Finset.range d.factorCount →
      ∀ c ∈ d.summarize s,
        c.n = (((d.summarize u).filter fun c' => c'.IsPartOf u s c).map (·.n)).sum ∧
        (c.n : ℝ) * c.mean = (((d.summarize u).filter fun c' => c'.IsPartOf u s c).map
          fun c' => (c'.n : ℝ) * c'.mean).sum := by
  obtain ⟨hadm, -, -⟩ := (ofTable_eq_ok_iff t settings d).mp h
  have hlt : ∀ s : Source, s.toFinset ⊆ Finset.range d.factorCount →
      ∀ f ∈ s.factors, f < d.factorCount := fun s hs f hf =>
    Finset.mem_range.mp (hs (Source.contains_iff.mp ((s.mem_factors f).mp hf)).2)
  refine ⟨t.averages, (t.deduplicate_eq_ok_iff _ _).mpr ⟨rfl, hadm.nodup_of_reject⟩,
    fun s hs => summarize_cells ht h (hlt s hs), fun s u hsu hu c hc => ?_⟩
  exact sum_parts ht h (hlt s (hsu.trans hu)) (hlt u hu) hsu hc

end Table

/-- Two groups, of two subjects and of one, on two occasions. -/
noncomputable def unequalGroups : ObservationTable ℝ :=
  wholeTable 2 [(1, [1, 1], 5), (1, [1, 2], 3), (2, [1, 1], 8), (2, [1, 2], 4), (3, [2, 1], 7),
    (3, [2, 2], 6)]

/-- Each group holds what its cells on the two occasions hold. -/
theorem summarize_unequalGroups : unequalGroups.Built ∧ ∃ d, ofTable unequalGroups {} = .ok d ∧
    (d.summarize (.span [0])).map (·.levels) = [[.int 1], [.int 2]] ∧
    ((d.summarize (.span [0])).map (·.n)).sum = 6 ∧
    ∀ c ∈ d.summarize (.span [0]), 1 ≤ c.n ∧
      c.n = (((d.summarize (.span [0, 1])).filter fun c' =>
        c'.IsPartOf (.span [0, 1]) (.span [0]) c).map (·.n)).sum := by
  have hbuilt : unequalGroups.Built := built_wholeTable (List.cons_ne_nil _ _) (by decide)
  have hd : ofTable unequalGroups {} = .ok (tableCoding unequalGroups {}).toDesign := rfl
  obtain ⟨rows, hrows, hcells, hparts⟩ := summarize_consistent hbuilt hd
  have hgroup : (Source.span [0]).toFinset ⊆ (Source.span [0, 1]).toFinset := by decide
  have hboth : (Source.span [0, 1]).toFinset ⊆
      Finset.range (tableCoding unequalGroups {}).toDesign.factorCount := by decide
  obtain ⟨hlevels, -, hdescribes, hn⟩ := hcells (.span [0]) (hgroup.trans hboth)
  obtain rfl := Except.ok.inj hrows
  exact ⟨hbuilt, _, hd, hlevels, hn, fun c hc => ⟨(hdescribes c hc).one_le,
    (hparts _ _ hgroup hboth c hc).1⟩⟩

end Design

end SplitPlot
