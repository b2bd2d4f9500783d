import Mathlib
import SplitPlot.Proofs.PureEffect

/-!
# What a run of an analysis yields

An analysis of an accepted design meets no fault, and its table has one result for each source,
which is the result for the outcome of that source (`anova_eq_ok`).  `Design.outcome` says what the
outcome is without a memo, and the waves are the way in which the memo comes to know it.

## The invariant of the waves

Before the wave of the sources with `n + 1` factors the memo holds the effects of the sources with
at most `n` factors and no others (`Filled`).

* A source of the wave finds the effects it asks for, since its sub-sources have fewer factors
  (`evaluate_eq_ok`).
* The effect of a source of the wave is not there yet, so storing it is no fault, and storing the
  effects of the whole wave fills the memo up to `n + 1` factors (`advance_eq_ok`).

The waves list each source once, and the results are sorted by their sources in the end.  So the
order inside the waves cannot be seen in the table.
-/

namespace SplitPlot

variable {K : Type} [Scalar K]

/-! ## The three ways of evaluating a source -/

namespace Analysis

omit [Scalar K] in
theorem scoresFor_eq_ok {a : Analysis K} {s : Source} {scores : ContrastScores K}
    (h : a.scores? (s.intersection a.design.withinMask) = some scores) :
    a.scoresFor s = .ok scores := by
  rw [scoresFor, h]

theorem evaluate_between (a : Analysis K) {s : Source} (h : a.design.kindOf s = .between) :
    a.evaluate s = a.design.evaluateBetween a.means a.meanCells s a.memo := by
  rw [evaluate, h]

theorem evaluate_within (a : Analysis K) {s : Source} (h : a.design.kindOf s = .within)
    {scores : ContrastScores K} (hscores : a.scoresFor s = .ok scores) :
    a.evaluate s = .ok (a.design.evaluateWithin scores s) := by
  rw [evaluate, h, hscores]
  rfl

theorem evaluate_mixed (a : Analysis K) {s : Source} (h : a.design.kindOf s = .mixed)
    {scores : ContrastScores K} (hscores : a.scoresFor s = .ok scores) :
    a.evaluate s = a.design.evaluateMixed scores s a.memo := by
  rw [evaluate, h, hscores]
  rfl

/-! ## The outcomes of the waves -/

variable (a : Analysis K)

/-- Works through one wave: the outcomes of its sources, and the analysis with their effects. -/
def advance (wave : List Source) : Except Fault (Analysis K × List (Outcome K)) := do
  let outcomes ← a.evaluateWave wave
  return (← outcomes.foldlM store a, outcomes)

/-- The outcomes of the sources of all waves, and the analysis with all effects. -/
def waveOutcomes (a : Analysis K) :
    List (List Source) → Except Fault (Analysis K × List (Outcome K))
  | [] => .ok (a, [])
  | wave :: rest => do
    let (next, found) ← a.advance wave
    let (last, later) ← next.waveOutcomes rest
    return (last, found ++ later)

omit [Scalar K] in
/-- Storing effects changes nothing but the memo. -/
theorem exists_memo_of_foldlM_store {outcomes : List (Outcome K)} {a b : Analysis K}
    (h : outcomes.foldlM store a = .ok b) : ∃ memo, b = { a with memo := memo } := by
  induction outcomes generalizing a with
  | nil => exact ⟨a.memo, (Except.ok.inj h).symm⟩
  | cons o outcomes ih =>
    rw [List.foldlM_cons, bind_eq_ok_iff] at h
    obtain ⟨next, hstore, hrest⟩ := h
    obtain ⟨memo, rfl⟩ := ih hrest
    rw [store] at hstore
    cases hinsert : (a.memo.insert o.effect).1 with
    | error e => rw [hinsert] at hstore; cases hstore
    | ok u =>
      rw [hinsert] at hstore
      cases hstore
      exact ⟨memo, rfl⟩

/-- The results of the waves are the results for their outcomes. -/
theorem runWaves_eq (waves : List (List Source)) (results : List (SourceResult K)) :
    a.runWaves waves results =
      (a.waveOutcomes waves).map fun r => results ++ r.2.map a.result := by
  induction waves generalizing a results with
  | nil => exact congrArg Except.ok (List.append_nil _).symm
  | cons wave rest ih =>
    rw [runWaves, waveOutcomes, runWave, advance]
    cases hevaluate : a.evaluateWave wave with
    | error e => rfl
    | ok outcomes =>
      rw [ok_bind, ok_bind]
      cases hstore : outcomes.foldlM store a with
      | error e => rfl
      | ok next =>
        show next.runWaves rest (results ++ outcomes.map a.result) = _
        -- what a result reports does not depend on the memo
        obtain ⟨memo, rfl⟩ := exists_memo_of_foldlM_store hstore
        rw [ih]
        show _ = Except.map _ (waveOutcomes { a with memo := memo } rest >>= fun r =>
          .ok (r.1, outcomes ++ r.2))
        cases waveOutcomes { a with memo := memo } rest with
        | error e => rfl
        | ok r =>
          refine congrArg Except.ok ?_
          show results ++ outcomes.map a.result ++ r.2.map a.result =
            results ++ (outcomes ++ r.2).map a.result
          rw [List.map_append, List.append_assoc]

end Analysis

/-! ## Outcomes without a memo -/

namespace Design

variable (d : Design K)

/-- The statistics of the cells of the subject means. -/
def meanStatistics : CellStatistics K := d.statistics (subjectMeans d.scores)

/-- The contrast scores of a source within subjects. -/
def scoresOf (s : Source) : ContrastScores K :=
  ⟨s, d.contrastColumns s, d.statistics (d.contrastColumns s)⟩

/-- The contrast scores of those factors of a source that vary within subjects. -/
def scoresWithin (s : Source) : ContrastScores K := d.scoresOf (s.intersection d.withinMask)

/-- What the means of the cells leave of the subject means, as a sum of squares. -/
def meanErrorSs : K :=
  total ((d.meanStatistics.residuals (subjectMeans d.scores) d.subjectCells).entries.toList.map
    fun r => r * r)

/-- The error matrix of the full model of a source with factors of both kinds. -/
def fullError (s : Source) : Mat K := (d.scoreResiduals (d.scoresWithin s)).crossProduct

theorem isSquare_fullError (s : Source) : (d.fullError s).IsSquare := Mat.isSquare_crossProduct _

/-- The error matrix of its restricted model. -/
def mixedRestrictedError (s : Source) : Mat K :=
  d.fullError s + d.hypothesis (d.scoresWithin s).cells s

/-- The error matrix of the restricted model of a source within subjects. -/
def withinRestrictedError (s : Source) : Mat K :=
  ((d.scoreResiduals (d.scoresWithin s)).addRow (d.scoresWithin s).cells.grandMeans).crossProduct

/-- What the evaluation of a source yields. -/
def outcome (s : Source) : Outcome K :=
  match d.kindOf s with
  | .between =>
    ⟨s, .between, ⟨s, d.pureEffect d.meanStatistics s⟩,
      .scalar ((d.hypothesis d.meanStatistics s).get 0 0) d.meanErrorSs, 1⟩
  | .within => d.evaluateWithin (d.scoresWithin s) s
  | .mixed =>
    ⟨s, .mixed, ⟨s, d.pureEffect (d.scoresWithin s).cells s⟩,
      .matrix ⟨d.fullError s, d.mixedRestrictedError s, rfl, rfl⟩, (d.scoresWithin s).size⟩

/-- The sources of a design whose factors all vary within subjects. -/
def sourcesWithin : List Source :=
  (Source.all d.factorCount).filter fun s => d.kindOf s == .within

/-- The analysis of a design with the effects found so far. -/
def prepared (settings : Settings) (memo : EffectMemo K) : Analysis K :=
  ⟨d, settings, subjectMeans d.scores, d.meanStatistics, d.sourcesWithin.map d.scoresOf, memo⟩

/-- What an analysis reports of a source. -/
def resultOf (settings : Settings) (s : Source) : SourceResult K :=
  (d.prepared settings ∅).result (d.outcome s)

variable {d}

theorem source_effect_outcome (s : Source) : (d.outcome s).effect.source = s := by
  rw [outcome]
  split <;> rfl

theorem source_outcome (s : Source) : (d.outcome s).source = s := by
  rw [outcome]
  split <;> rfl

theorem map_source_outcomes (l : List Source) : (l.map d.outcome).map (·.source) = l := by
  rw [List.map_map]
  exact (List.map_congr_left fun s _ => source_outcome s).trans (List.map_id _)

theorem kind_outcome (s : Source) : (d.outcome s).kind = d.kindOf s := by
  rw [outcome]
  split <;> next h => exact h.symm

theorem outcome_eq_between {s : Source} (h : d.kindOf s = .between) : d.outcome s =
    ⟨s, .between, ⟨s, d.pureEffect d.meanStatistics s⟩,
      .scalar ((d.hypothesis d.meanStatistics s).get 0 0) d.meanErrorSs, 1⟩ := by
  rw [outcome, h]

theorem outcome_eq_within {s : Source} (h : d.kindOf s = .within) :
    d.outcome s = d.evaluateWithin (d.scoresWithin s) s := by
  rw [outcome, h]

theorem outcome_eq_mixed {s : Source} (h : d.kindOf s = .mixed) : d.outcome s =
    ⟨s, .mixed, ⟨s, d.pureEffect (d.scoresWithin s).cells s⟩,
      .matrix ⟨d.fullError s, d.mixedRestrictedError s, rfl, rfl⟩, (d.scoresWithin s).size⟩ := by
  rw [outcome, h]

/-! ## Preparation -/

/-- Averaging over the factors within subjects that do not belong to a source reduces the axes that
are not flagged. -/
theorem averageOutside_eq (s : Source) : d.averageOutside (d.withinAxes s) =
    (unkept ((d.subjectCount, true) :: d.flags d.withinFactors s)).foldr
      (fun axis g => g.reduceDrop mean axis) d.scores := by
  rw [averageOutside, List.filter_reverse]
  beta_reduce
  rw [List.foldl_reverse, Coding.withinAxes, d.filter_not_axesOf, unkept_cons, if_pos rfl,
    List.nil_append, List.foldr_map]
  rfl

namespace Accepted

theorem shape_scores_flags (hd : d.Accepted) (s : Source) : d.scores.shape =
    ((d.subjectCount, true) :: d.flags d.withinFactors s).map (·.1) := by
  rw [hd.shape_scores, List.map_cons, Coding.map_fst_flags]
  rfl

theorem shape_averageOutside (hd : d.Accepted) (s : Source) :
    (d.averageOutside (d.withinAxes s)).shape =
      d.subjectCount :: droppedShape (d.flags d.withinFactors s) := by
  rw [averageOutside_eq, Grid.shape_reduceDrops mean (hd.shape_scores_flags s)]
  rfl

/-- Contrast scores have one row for each subject. -/
theorem rows_contrastColumns (hd : d.Accepted) (s : Source) :
    (d.contrastColumns s).rows = d.subjectCount := by
  show (d.averageOutside (d.withinAxes s)).extent 0 = d.subjectCount
  rw [Grid.extent, hd.shape_averageOutside]
  rfl

theorem rows_subjectMeans (hd : d.Accepted) : (subjectMeans d.scores).rows = d.subjectCount :=
  hd.extent_scores_zero

/-- A matrix with one row for each subject has statistics. -/
theorem compute_eq_ok (hd : d.Accepted) {values : Mat K} (h : values.rows = d.subjectCount) :
    CellStatistics.compute values d.subjectCells d.betweenShape = .ok (d.statistics values) :=
  if_pos (h.trans hd.length_subjectCells.symm)

/-- The contrast scores of a source within subjects can be formed. -/
theorem contrastScores_eq_ok (hd : d.Accepted) {s : Source} (hs : d.kindOf s = .within) :
    d.contrastScores s = .ok (d.scoresOf s) := by
  have hsub := (hd.kindOf_eq_within_iff.mp hs).2
  have hmask : s.isSubsetOf d.withinMask = true := by
    rwa [Source.isSubsetOf_iff, hd.toFinset_withinMask]
  have hsmall : d.oversized? s = none := by
    rw [oversized?, List.find?_eq_none]
    intro f hf
    obtain ⟨i, hi, rfl⟩ := List.mem_map.mp hf
    rw [Source.mem_factors, Source.contains_iff] at hi
    have hle := hd.levelCount_le i (List.mem_toFinset.mp (hsub hi.2))
    rw [decide_eq_true_eq, not_lt]
    exact hle
  rw [contrastScores, if_neg (not_not.mpr hmask), hsmall]
  show (do
    let cells ← Failure.ofFault (CellStatistics.compute (d.contrastColumns s) d.subjectCells
      d.betweenShape)
    return (⟨s, d.contrastColumns s, cells⟩ : ContrastScores K)) = _
  rw [hd.compute_eq_ok (hd.rows_contrastColumns s)]
  rfl

theorem ofDesign_eq_ok (hd : d.Accepted) (settings : Settings) :
    Analysis.ofDesign d settings = .ok (d.prepared settings ∅) := by
  have hsources : Analysis.withinSources d = .ok d.sourcesWithin := by
    rw [Analysis.withinSources, hd.enumerate_eq]
    rfl
  have hscores : d.sourcesWithin.mapM d.contrastScores = .ok (d.sourcesWithin.map d.scoresOf) :=
    mapM_eq_ok fun s hs => hd.contrastScores_eq_ok (beq_iff_eq.mp (List.mem_filter.mp hs).2)
  rw [Analysis.ofDesign, hd.compute_eq_ok hd.rows_subjectMeans, hsources]
  show (do
    let scores ← d.sourcesWithin.mapM d.contrastScores
    return (⟨d, settings, subjectMeans d.scores, d.meanStatistics, scores, ∅⟩ : Analysis K)) = _
  rw [hscores]
  rfl

/-! ## One source -/

theorem mem_sourcesWithin_iff (hd : d.Accepted) {s : Source} :
    s ∈ d.sourcesWithin ↔ d.kindOf s = .within := by
  rw [sourcesWithin, List.mem_filter, beq_iff_eq, and_iff_right_iff_imp]
  intro hs
  obtain ⟨hne, hsub⟩ := hd.kindOf_eq_within_iff.mp hs
  refine hd.mem_all_iff.mpr ⟨fun f hf => Finset.mem_range.mpr ?_, hne⟩
  exact (Coding.mem_withinFactors.mp (List.mem_toFinset.mp (hsub hf))).1

/-- The factors within subjects of a source of a design form a source within subjects, if there are
any. -/
theorem intersection_mem_sourcesWithin (hd : d.Accepted) {s : Source}
    (hs : ¬ Disjoint s.toFinset d.withinFactors.toFinset) :
    s.intersection d.withinMask ∈ d.sourcesWithin := by
  rw [hd.mem_sourcesWithin_iff, hd.kindOf_eq_within_iff, Source.toFinset_intersection,
    hd.toFinset_withinMask]
  exact ⟨Finset.not_disjoint_iff_nonempty_inter.mp hs, Finset.inter_subset_right⟩

/-- The scores that a source with factors within subjects asks for are prepared. -/
theorem scoresFor_eq_ok (hd : d.Accepted) {settings : Settings} {memo : EffectMemo K} {s : Source}
    (hs : ¬ Disjoint s.toFinset d.withinFactors.toFinset) :
    (d.prepared settings memo).scoresFor s =
      .ok (d.scoresWithin s) := by
  have hmem := hd.intersection_mem_sourcesWithin hs
  have hfind : (d.sourcesWithin.map d.scoresOf).find?
      (fun e => e.source == s.intersection d.withinMask) = some (d.scoresWithin s) := by
    have hsome : (d.sourcesWithin.find? fun t => t == s.intersection d.withinMask).isSome :=
      List.find?_isSome.mpr ⟨_, hmem, beq_self_eq_true _⟩
    obtain ⟨t, ht⟩ := Option.isSome_iff_exists.mp hsome
    have heq : t = s.intersection d.withinMask := by simpa using List.find?_some ht
    rw [List.find?_map]
    show (d.sourcesWithin.find? fun t => t == s.intersection d.withinMask).map d.scoresOf = _
    rw [ht, heq]
    rfl
  exact Analysis.scoresFor_eq_ok hfind

/-- A sub-source of a source between subjects is one too. -/
theorem kindOf_subSource_between (hd : d.Accepted) {s t : Source} (hs : d.kindOf s = .between)
    (ht : t ∈ d.subSources s) : d.kindOf t = .between := by
  rw [hd.kindOf_eq_between_iff] at hs ⊢
  exact hs.mono_left (hd.mem_subSources.mp ht).1.1

/-- A sub-source of a source with factors of both kinds is one too, with the same scores. -/
theorem kindOf_subSource_mixed (hd : d.Accepted) {s t : Source} (hs : d.kindOf s = .mixed)
    (ht : t ∈ d.subSources s) : d.kindOf t = .mixed ∧ d.scoresWithin t = d.scoresWithin s := by
  obtain ⟨-, hinter, hne⟩ := hd.mem_subSources.mp ht
  have hsame : t.intersection d.withinMask = s.intersection d.withinMask := by
    refine Source.toFinset_injective ?_
    rw [Source.toFinset_intersection, Source.toFinset_intersection, hd.toFinset_withinMask, hinter]
  constructor
  · rw [hd.kindOf_eq_mixed_iff] at hs ⊢
    refine ⟨?_, hne⟩
    rw [Finset.disjoint_iff_inter_eq_empty, hinter, ← Finset.disjoint_iff_inter_eq_empty]
    exact hs.1
  · rw [scoresWithin, hsame, scoresWithin]

/-- A sub-source of a source of a design is one too. -/
theorem mem_all_of_mem_subSources (hd : d.Accepted) {s t : Source}
    (hs : s ∈ Source.all d.factorCount) (ht : t ∈ d.subSources s) :
    t ∈ Source.all d.factorCount := by
  obtain ⟨hsub, hne⟩ := Source.mem_properSubsets.mp (List.mem_filter.mp ht).1
  exact hd.mem_all_iff.mpr ⟨hsub.1.trans (hd.mem_all_iff.mp hs).1, hne⟩

end Accepted

/-! ## The memo between two waves -/

/-- The memo holds the effects of the sources with at most `n` factors and no others. -/
def Filled (d : Design K) (n : ℕ) (memo : EffectMemo K) : Prop :=
  ∀ s, memo.get? s =
    if s ∈ Source.all d.factorCount ∧ s.factorCount ≤ n then some (d.outcome s).effect else none

/-- The sources of the wave that follows the sources with at most `n` factors. -/
def wave (d : Design K) (n : ℕ) : List Source :=
  (Source.all d.factorCount).filter fun s => s.factorCount == n + 1

namespace Accepted

/-- Before the first wave the memo holds nothing, and every source has a factor. -/
theorem filled_zero (hd : d.Accepted) : d.Filled 0 ∅ := by
  intro s
  rw [EffectMemo.get?_empty, if_neg]
  rintro ⟨hs, hcard⟩
  rw [Source.factorCount_eq_card, Nat.le_zero, Finset.card_eq_zero] at hcard
  exact (hd.mem_all_iff.mp hs).2.ne_empty hcard

/-- A source is evaluated to its outcome against a memo that holds the effects of its
sub-sources. -/
theorem evaluate_of_subSources (hd : d.Accepted) {settings : Settings} {memo : EffectMemo K}
    {s : Source} (hlook : ∀ t ∈ d.subSources s, memo.get? t = some (d.outcome t).effect) :
    (d.prepared settings memo).evaluate s = .ok (d.outcome s) := by
  cases hkind : d.kindOf s with
  | between =>
    have hrestrict : d.restrict d.meanStatistics s memo =
        .ok (d.pureEffect d.meanStatistics s, d.hypothesis d.meanStatistics s) :=
      d.restrict_eq_ok fun t ht => by
        rw [hlook t ht, outcome_eq_between (hd.kindOf_subSource_between hkind ht)]
        rfl
    rw [Analysis.evaluate_between (d.prepared settings memo) hkind, outcome_eq_between hkind]
    show d.evaluateBetween (subjectMeans d.scores) d.meanStatistics s memo = _
    rw [evaluateBetween, hrestrict]
    rfl
  | within =>
    have hne : ¬ Disjoint s.toFinset d.withinFactors.toFinset := fun h => by
      rw [hd.kindOf_eq_between_iff.mpr h] at hkind
      exact nomatch hkind
    rw [Analysis.evaluate_within (d.prepared settings memo) hkind
      (hd.scoresFor_eq_ok hne), outcome_eq_within hkind]
    rfl
  | mixed =>
    have hrestrict : d.restrict (d.scoresWithin s).cells s memo =
        .ok (d.pureEffect (d.scoresWithin s).cells s, d.hypothesis (d.scoresWithin s).cells s) :=
      d.restrict_eq_ok fun t ht => by
        obtain ⟨hmixed, hscores⟩ := hd.kindOf_subSource_mixed hkind ht
        rw [hlook t ht, outcome_eq_mixed hmixed, hscores]
        rfl
    rw [Analysis.evaluate_mixed (d.prepared settings memo) hkind
      (hd.scoresFor_eq_ok (hd.kindOf_eq_mixed_iff.mp hkind).1), outcome_eq_mixed hkind]
    show d.evaluateMixed (d.scoresWithin s) s memo = _
    rw [evaluateMixed, hrestrict]
    rfl

/-- A source of a wave is evaluated to its outcome. -/
theorem evaluate_eq_ok (hd : d.Accepted) {settings : Settings} {memo : EffectMemo K} {n : ℕ}
    (hmemo : d.Filled n memo) {s : Source} (hs : s ∈ d.wave n) :
    (d.prepared settings memo).evaluate s = .ok (d.outcome s) := by
  obtain ⟨hall, hcount⟩ := List.mem_filter.mp hs
  refine hd.evaluate_of_subSources fun t ht => ?_
  have hlt := card_lt_of_mem_subSources ht
  rw [beq_iff_eq, Source.factorCount_eq_card] at hcount
  have hle : t.factorCount ≤ n := by
    rw [Source.factorCount_eq_card]
    omega
  rw [hmemo t, if_pos ⟨hd.mem_all_of_mem_subSources hall ht, hle⟩]

end Accepted

/-! ## One wave -/

/-- An effect that is not in the memo yet is stored without a fault. -/
theorem store_eq_ok (d : Design K) (settings : Settings) {memo : EffectMemo K} {s : Source}
    (h : memo.get? s = none) : (d.prepared settings memo).store (d.outcome s) =
      .ok (d.prepared settings (memo.replace (d.outcome s).effect)) := by
  have hfree : memo.contains (d.outcome s).effect.source = false := by
    rw [EffectMemo.contains, source_effect_outcome, h]
    rfl
  rw [Analysis.store]
  show (memo.insert (d.outcome s).effect).1.map (fun _ =>
    d.prepared settings (memo.insert (d.outcome s).effect).2) = _
  rw [EffectMemo.insert, hfree]
  rfl

/-- The memo with the effects of further sources. -/
def withEffects (d : Design K) (memo : EffectMemo K) (l : List Source) : EffectMemo K :=
  l.foldl (fun memo s => memo.replace (d.outcome s).effect) memo

theorem get?_withEffects (d : Design K) (memo : EffectMemo K) (l : List Source) (s : Source) :
    (d.withEffects memo l).get? s =
      if s ∈ l then some (d.outcome s).effect else memo.get? s := by
  induction l generalizing memo with
  | nil => rfl
  | cons t l ih =>
    rw [withEffects, List.foldl_cons]
    show (d.withEffects (memo.replace (d.outcome t).effect) l).get? s = _
    rw [ih, EffectMemo.get?_replace, source_effect_outcome]
    by_cases hs : s = t
    · subst hs
      simp
    · simp [hs]

/-- A wave adds the sources with one factor more. -/
theorem Filled.withEffects {memo : EffectMemo K} {n : ℕ} (hmemo : d.Filled n memo) :
    d.Filled (n + 1) (d.withEffects memo (d.wave n)) := by
  intro s
  have hwave : s ∈ d.wave n ↔ s ∈ Source.all d.factorCount ∧ s.factorCount = n + 1 := by
    rw [wave, List.mem_filter, beq_iff_eq]
  rw [get?_withEffects, hmemo s]
  by_cases hs : s ∈ d.wave n
  · rw [if_pos hs, if_pos ⟨(hwave.mp hs).1, (hwave.mp hs).2.le⟩]
  · rw [if_neg hs]
    refine if_congr (and_congr_right fun hall => ?_) rfl rfl
    have hne : s.factorCount ≠ n + 1 := fun h => hs (hwave.mpr ⟨hall, h⟩)
    omega

namespace Accepted

theorem nodup_wave (hd : d.Accepted) (n : ℕ) : (d.wave n).Nodup :=
  (Source.nodup_all (hd.factorCount_le.trans (by decide))).filter _

/-- The effects of a wave are stored one after another, and none of them is there already. -/
theorem store_wave_eq_ok (hd : d.Accepted) (settings : Settings) {memo : EffectMemo K} {n : ℕ}
    (hmemo : d.Filled n memo) :
    ((d.wave n).map d.outcome).foldlM Analysis.store (d.prepared settings memo) =
      .ok (d.prepared settings (d.withEffects memo (d.wave n))) := by
  have hfold : ∀ (l : List Source) (memo : EffectMemo K), l.Nodup →
      (∀ s ∈ l, memo.get? s = none) →
        (l.map d.outcome).foldlM Analysis.store (d.prepared settings memo) =
          .ok (d.prepared settings (d.withEffects memo l)) := by
    intro l
    induction l with
    | nil => exact fun memo _ _ => rfl
    | cons s l ih =>
      intro memo hnodup hnone
      obtain ⟨hs, hnodup⟩ := List.nodup_cons.mp hnodup
      obtain ⟨hsnone, hnone⟩ := List.forall_mem_cons.mp hnone
      rw [List.map_cons, List.foldlM_cons, d.store_eq_ok settings hsnone, ok_bind]
      refine ih _ hnodup fun t ht => ?_
      have hne : t ≠ s := fun h => hs (h ▸ ht)
      rw [EffectMemo.get?_replace, source_effect_outcome, if_neg hne]
      exact hnone t ht
  refine hfold _ _ (hd.nodup_wave n) fun s hs => ?_
  obtain ⟨-, hcount⟩ := List.mem_filter.mp hs
  rw [beq_iff_eq] at hcount
  rw [hmemo s, if_neg]
  omega

/-- A wave is evaluated without a fault, and its effects are stored. -/
theorem advance_eq_ok (hd : d.Accepted) (settings : Settings) {memo : EffectMemo K} {n : ℕ}
    (hmemo : d.Filled n memo) : (d.prepared settings memo).advance (d.wave n) =
      .ok (d.prepared settings (d.withEffects memo (d.wave n)), (d.wave n).map d.outcome) := by
  have hevaluate : (d.prepared settings memo).evaluateWave (d.wave n) =
      .ok ((d.wave n).map d.outcome) := mapM_eq_ok fun s hs => hd.evaluate_eq_ok hmemo hs
  rw [Analysis.advance, hevaluate, ok_bind, hd.store_wave_eq_ok settings hmemo]
  rfl

/-! ## All waves -/

/-- The waves that follow one another are worked through without a fault. -/
theorem waveOutcomes_range'_eq_ok (hd : d.Accepted) (settings : Settings) (m : ℕ) :
    ∀ (n : ℕ) (memo : EffectMemo K), d.Filled n memo →
      (d.prepared settings memo).waveOutcomes ((List.range' n m).map d.wave) =
        .ok (d.prepared settings (d.withEffects memo ((List.range' n m).flatMap d.wave)),
          ((List.range' n m).flatMap d.wave).map d.outcome) := by
  induction m with
  | zero => exact fun n memo _ => rfl
  | succ m ih =>
    intro n memo hmemo
    rw [List.range'_succ, List.map_cons, Analysis.waveOutcomes, hd.advance_eq_ok settings hmemo,
      ok_bind]
    show (do
      let (last, later) ← (d.prepared settings (d.withEffects memo (d.wave n))).waveOutcomes _
      return (last, (d.wave n).map d.outcome ++ later)) = _
    rw [ih (n + 1) _ hmemo.withEffects, ok_bind, List.flatMap_cons, List.map_append, withEffects,
      withEffects, ← List.foldl_append]
    rfl

/-- The outcomes of all waves, starting without any effect. -/
theorem waveOutcomes_eq_ok (hd : d.Accepted) (settings : Settings) :
    (d.prepared settings ∅).waveOutcomes ((List.range d.factorCount).map d.wave) =
      .ok (d.prepared settings (d.withEffects ∅ ((List.range d.factorCount).flatMap d.wave)),
        ((List.range d.factorCount).flatMap d.wave).map d.outcome) := by
  rw [List.range_eq_range']
  exact hd.waveOutcomes_range'_eq_ok settings _ 0 ∅ hd.filled_zero

/-- The waves of an accepted design group its sources by the number of their factors. -/
theorem dependencyWaves_eq (hd : d.Accepted) : Source.dependencyWaves d.factorCount =
    .ok ((List.range d.factorCount).map d.wave) := by
  rw [Source.dependencyWaves, hd.enumerate_eq]
  rfl

/-- The waves list each source once. -/
theorem flatMap_wave_perm (hd : d.Accepted) :
    ((List.range d.factorCount).flatMap d.wave).Perm (Source.all d.factorCount) := by
  have hnodup := Source.nodup_all (hd.factorCount_le.trans (by decide : 16 ≤ 30))
  refine (List.perm_ext_iff_of_nodup ?_ hnodup).mpr fun s => ?_
  · refine List.nodup_flatMap.mpr ⟨fun n _ => hd.nodup_wave n, ?_⟩
    refine List.nodup_range.imp fun hne s hs hs' => hne ?_
    have hn := beq_iff_eq.mp (List.mem_filter.mp hs).2
    have hm := beq_iff_eq.mp (List.mem_filter.mp hs').2
    omega
  · rw [List.mem_flatMap]
    constructor
    · rintro ⟨n, -, hs⟩
      exact (List.mem_filter.mp hs).1
    · intro hs
      obtain ⟨hsub, hne⟩ := hd.mem_all_iff.mp hs
      have hle := Finset.card_le_card hsub
      have hpos := Finset.card_pos.mpr hne
      rw [Finset.card_range] at hle
      refine ⟨s.toFinset.card - 1, List.mem_range.mpr (by omega), List.mem_filter.mpr ⟨hs, ?_⟩⟩
      rw [beq_iff_eq, Source.factorCount_eq_card]
      omega

/-- Sorted by their sources, the results of all waves stand in the order of the sources. -/
theorem mergeSort_results (hd : d.Accepted) (settings : Settings) :
    (((List.range d.factorCount).flatMap d.wave).map fun s =>
      (d.prepared settings ∅).result (d.outcome s)).mergeSort
        (fun r s => r.source.bits.toNat ≤ s.source.bits.toNat) =
      (Source.all d.factorCount).map fun s => (d.prepared settings ∅).result (d.outcome s) := by
  have hsource : ∀ s, ((d.prepared settings ∅).result (d.outcome s)).source = s :=
    source_effect_outcome
  have hsorted : ((List.range d.factorCount).flatMap d.wave).mergeSort
      (fun s t => s.bits.toNat ≤ t.bits.toNat) = Source.all d.factorCount := by
    refine @List.Perm.eq_of_pairwise _ (fun s t => s.bits.toNat ≤ t.bits.toNat) _ _ ?_ ?_ ?_ ?_
    · exact fun s t _ _ hst hts => Source.ext (BitVec.eq_of_toNat_eq (le_antisymm hst hts))
    · refine (List.pairwise_mergeSort ?_ ?_ _).imp fun h => of_decide_eq_true h
      · exact fun r s t hrs hst => decide_eq_true
          ((of_decide_eq_true hrs).trans (of_decide_eq_true hst))
      · intro s t
        rw [Bool.or_eq_true, decide_eq_true_eq, decide_eq_true_eq]
        exact le_total _ _
    · exact (Source.pairwise_all (hd.factorCount_le.trans (by decide))).imp Nat.le_of_lt
    · exact (List.mergeSort_perm _ _).trans hd.flatMap_wave_perm
  rw [← hsorted]
  refine (List.map_mergeSort fun s _ t _ => ?_).symm
  rw [hsource, hsource]

/-- A run of the analysis of an accepted design has one result for each source. -/
theorem run_eq_ok (hd : d.Accepted) (settings : Settings) :
    (d.prepared settings ∅).run =
      .ok ⟨d.factors, d.subjectCount, (Source.all d.factorCount).map fun s =>
        (d.prepared settings ∅).result (d.outcome s)⟩ := by
  have hrun : (d.prepared settings ∅).runWaves ((List.range d.factorCount).map d.wave) [] =
      .ok (((List.range d.factorCount).flatMap d.wave).map fun s =>
        (d.prepared settings ∅).result (d.outcome s)) := by
    rw [Analysis.runWaves_eq, hd.waveOutcomes_eq_ok settings]
    show Except.ok (((List.range d.factorCount).flatMap d.wave).map d.outcome |>.map _) = _
    rw [List.map_map]
    rfl
  rw [Analysis.run]
  show (do
    let waves ← Source.dependencyWaves d.factorCount
    let results ← (d.prepared settings ∅).runWaves waves []
    return (⟨d.factors, d.subjectCount, results.mergeSort fun r s =>
      r.source.bits.toNat ≤ s.source.bits.toNat⟩ : AnovaTable K)) = _
  rw [hd.dependencyWaves_eq, ok_bind, hrun, ok_bind, hd.mergeSort_results]
  rfl

end Accepted

end Design

/-- The analysis of variance of a table that is an acceptable design has one result for each source
of the design. -/
theorem anova_eq_ok {t : ObservationTable K} (ht : t.Built) {settings : Settings} {d : Design K}
    (h : Design.ofTable t settings = .ok d) : anova t settings =
      .ok ⟨d.factors, d.subjectCount, (Source.all d.factorCount).map (d.resultOf settings)⟩ := by
  have hd := Design.accepted_of_ofTable ht h
  rw [anova, Analysis.ofTable, h]
  show (do
    let a ← Analysis.ofDesign d settings
    Failure.ofFault a.run) = _
  rw [hd.ofDesign_eq_ok, ok_bind, hd.run_eq_ok]
  rfl

end SplitPlot
