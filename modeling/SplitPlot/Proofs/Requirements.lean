import Mathlib
import SplitPlot.Proofs.Exact
import SplitPlot.Proofs.Lookups
import SplitPlot.Proofs.Run

/-!
# Which effects the evaluation of a source needs

The evaluation of a source needs the effects of its sub-sources (`Design.Needs`).  It looks them up
in ascending order and is at fault at the first that is missing.  If none is missing it yields an
outcome, and no other effect in the memo has a part in it (`evaluate_reads_subSources`).

However effects are looked up, evaluation starts from a table of the shape of the effect of the
source, takes the effects of the sub-sources away and finishes with what is left
(`Design.Accepted.evaluateWith_eq`).  A source within subjects is no exception, since it has no
sub-sources.

A memo may hold other effects than those that a run finds, as long as those of the sub-sources have
the same shapes (`Design.Fits`).  Then they can be taken away, and one that is missing is the only
fault.
-/

namespace SplitPlot

variable {K : Type} [Scalar K]

namespace Design

/-! ## What is needed -/

/-- A source needs the effects of its proper subsets with the same factors within subjects and at
least one factor between. -/
def Needs (d : Design K) (s u : Source) : Prop :=
  u.toFinset ⊂ s.toFinset ∧
    u.toFinset ∩ d.withinFactors.toFinset = s.toFinset ∩ d.withinFactors.toFinset ∧
    ¬ u.toFinset ⊆ d.withinFactors.toFinset

instance (d : Design K) (s u : Source) : Decidable (d.Needs s u) :=
  inferInstanceAs (Decidable (_ ∧ _ ∧ _))

theorem Accepted.needs_iff {d : Design K} (hd : d.Accepted) {s u : Source} :
    d.Needs s u ↔ u ∈ d.subSources s := hd.mem_subSources.symm

/-! ## Shapes -/

/-- The shape of the effect of a source: the levels of its factors between subjects, along an axis
of length one for every other such factor, and its variables. -/
def effectShape (d : Design K) (s : Source) : List ℕ :=
  (d.betweenFactors.map fun f => if s.contains f then d.levelCount f else 1) ++
    [(d.outcome s).variableCount]

/-- The effects that a source needs have the shapes that a run gives them, as far as they are
stored. -/
def Fits (d : Design K) (s : Source) (memo : EffectMemo K) : Prop :=
  ∀ u e, d.Needs s u → memo.get? u = some e → e.values.shape = d.effectShape u

variable {d : Design K} {s u : Source}

theorem effectShape_eq : d.effectShape s =
    keptShape (d.flags d.betweenFactors s) ++ [(d.outcome s).variableCount] := by
  rw [effectShape, keptShape, Coding.flags, List.map_map]
  rfl

theorem effectShape_between (h : d.kindOf s = .between) :
    d.effectShape s = keptShape (d.flags d.betweenFactors s) ++ [1] := by
  rw [effectShape_eq, outcome_eq_between h]

/-- A source with factors within subjects has one variable for each of their combined contrasts. -/
theorem effectShape_of_ne_between (h : d.kindOf s ≠ .between) : d.effectShape s =
    keptShape (d.flags d.betweenFactors s) ++
      [(d.contrastColumns (s.intersection d.withinMask)).cols] := by
  rw [effectShape_eq]
  cases hkind : d.kindOf s with
  | between => exact absurd hkind h
  | within =>
    rw [outcome_eq_within hkind, evaluateWithin, ContrastScores.size, scoresWithin, scoresOf]
  | mixed => rw [outcome_eq_mixed hkind, ContrastScores.size, scoresWithin, scoresOf]

namespace Accepted

variable (hd : d.Accepted)

include hd

theorem shape_effect_outcome (s : Source) :
    (d.outcome s).effect.values.shape = d.effectShape s := by
  cases h : d.kindOf s with
  | between =>
    rw [effectShape_between h, outcome_eq_between h]
    exact d.shape_pureEffect _ s
  | within =>
    rw [effectShape_of_ne_between (h.trans_ne (by decide)), outcome_eq_within h,
      hd.keptShape_within h, evaluateWithin, grandEffect, Grid.shape_ofFn, ContrastScores.size,
      scoresWithin, scoresOf]
  | mixed =>
    rw [effectShape_of_ne_between (h.trans_ne (by decide)), outcome_eq_mixed h, scoresWithin,
      scoresOf]
    exact d.shape_pureEffect _ s

/-- A sub-source has the same variables. -/
theorem variableCount_subSource (hu : u ∈ d.subSources s) :
    (d.outcome u).variableCount = (d.outcome s).variableCount := by
  cases h : d.kindOf s with
  | between => rw [outcome_eq_between h, outcome_eq_between (hd.kindOf_subSource_between h hu)]
  | within =>
    rw [hd.subSources_eq_nil h] at hu
    exact absurd hu List.not_mem_nil
  | mixed =>
    obtain ⟨hmixed, hscores⟩ := hd.kindOf_subSource_mixed h hu
    rw [outcome_eq_mixed h, outcome_eq_mixed hmixed, hscores]

/-- The stored effects of sub-sources can be taken away from a table of the shape of the effect. -/
theorem stretchesTo_of_fits {memo : EffectMemo K} (hfit : d.Fits s memo) {g : Grid K}
    (hg : g.shape = d.effectShape s) : ∀ u ∈ d.subSources s, ∀ e, memo.get? u = some e →
      Grid.stretchesTo e.values.shape g.shape = true := by
  intro u hu e he
  rw [hfit u e (hd.needs_iff.mpr hu) he, hg, effectShape_eq, effectShape_eq,
    hd.variableCount_subSource hu]
  exact d.stretchesTo_flags_subSource _ hu

end Accepted

/-! ## Evaluation as a fold over the sub-sources -/

/-- The table from which the effects of the sub-sources of a source are taken away. -/
def startingTable (d : Design K) (s : Source) : Grid K :=
  match d.kindOf s with
  | .between => d.meanStatistics.centredMeans (d.betweenAxes s)
  | .within => d.grandEffect (d.scoresWithin s)
  | .mixed => (d.scoresWithin s).cells.centredMeans (d.betweenAxes s)

/-- The hypothesis matrix for a given effect of a source. -/
def hypothesisOf (d : Design K) (c : CellStatistics K) (s : Source) (effect : Grid K) : Mat K :=
  c.hypothesisMatrix effect (c.hypothesisWeights (d.betweenAxes s) (s == d.fullSource))

/-- The outcome of a source for what is left of its table. -/
def outcomeWith (d : Design K) (s : Source) (effect : Grid K) : Outcome K :=
  match d.kindOf s with
  | .between =>
    ⟨s, .between, ⟨s, effect⟩, .scalar ((d.hypothesisOf d.meanStatistics s effect).get 0 0)
      d.meanErrorSs, 1⟩
  | .within => { d.evaluateWithin (d.scoresWithin s) s with effect := ⟨s, effect⟩ }
  | .mixed =>
    ⟨s, .mixed, ⟨s, effect⟩, .matrix ⟨d.fullError s,
      d.fullError s + d.hypothesisOf (d.scoresWithin s).cells s effect,
      d.isSquare_fullError s, rfl⟩, (d.scoresWithin s).size⟩

namespace Accepted

variable (hd : d.Accepted)

include hd

theorem shape_startingTable (s : Source) : (d.startingTable s).shape = d.effectShape s := by
  cases h : d.kindOf s with
  | between =>
    rw [effectShape_between h, startingTable, h]
    exact d.shape_centredMeans _ s
  | within =>
    rw [effectShape_of_ne_between (h.trans_ne (by decide)), startingTable, h, hd.keptShape_within h,
      grandEffect, Grid.shape_ofFn, ContrastScores.size, scoresWithin, scoresOf]
  | mixed =>
    rw [effectShape_of_ne_between (h.trans_ne (by decide)), startingTable, h, scoresWithin,
      scoresOf]
    exact d.shape_centredMeans _ s

theorem liftM_scoresFor {m : Type → Type} [Monad m] [MonadLiftT (Except Fault) m]
    [LawfulMonadLiftT (Except Fault) m] (settings : Settings) (memo : EffectMemo K)
    (hs : d.kindOf s ≠ .between) :
    (liftM ((d.prepared settings memo).scoresFor s) : m (ContrastScores K)) =
      pure (d.scoresWithin s) := by
  rw [hd.scoresFor_eq_ok (mt hd.kindOf_eq_between_iff.mpr hs)]
  exact liftM_pure _

/-- However effects are looked up, evaluation takes those of the sub-sources away from a table and
finishes with what is left. -/
theorem evaluateWith_eq {m : Type → Type} [Monad m] [LawfulMonad m] [MonadLiftT (Except Fault) m]
    [LawfulMonadLiftT (Except Fault) m] (settings : Settings) (memo : EffectMemo K)
    (look : Source → m (Effect K)) (s : Source) :
    (d.prepared settings memo).evaluateWith look s =
      d.outcomeWith s <$> subtractAllWith look (d.subSources s) (d.startingTable s) := by
  cases h : d.kindOf s with
  | between =>
    have hkind : (d.prepared settings memo).design.kindOf s = .between := h
    have hstart : d.startingTable s = d.meanStatistics.centredMeans (d.betweenAxes s) := by
      rw [startingTable, h]
    rw [Analysis.evaluateWith, hkind]
    simp only [restrictWith, bind_assoc, pure_bind, map_eq_pure_bind, hstart, outcomeWith, h]
    rfl
  | within =>
    have hkind : (d.prepared settings memo).design.kindOf s = .within := h
    have hne : d.kindOf s ≠ .between := h.trans_ne (by decide)
    rw [Analysis.evaluateWith, hkind]
    simp only [hd.liftM_scoresFor settings memo hne, hd.subSources_eq_nil h, subtractAllWith,
      List.foldlM_nil, pure_bind, map_pure, outcomeWith, startingTable, h]
    rfl
  | mixed =>
    have hkind : (d.prepared settings memo).design.kindOf s = .mixed := h
    have hne : d.kindOf s ≠ .between := h.trans_ne (by decide)
    have hstart : d.startingTable s = (d.scoresWithin s).cells.centredMeans (d.betweenAxes s) := by
      rw [startingTable, h]
    rw [Analysis.evaluateWith, hkind]
    simp only [hd.liftM_scoresFor settings memo hne, restrictWith, bind_assoc, pure_bind,
      map_eq_pure_bind, hstart, outcomeWith, h]
    rfl

theorem evaluate_eq_map (settings : Settings) (memo : EffectMemo K) (s : Source) :
    (d.prepared settings memo).evaluate s =
      (subtractAllWith memo.require (d.subSources s) (d.startingTable s)).map
        (d.outcomeWith s) := by
  rw [← Analysis.evaluateWith_require]
  exact hd.evaluateWith_eq settings memo memo.require s

theorem evaluate_within (settings : Settings) (memo : EffectMemo K) (hs : d.kindOf s = .within) :
    (d.prepared settings memo).evaluate s = .ok (d.outcome s) := by
  refine hd.evaluate_of_subSources fun u hu => ?_
  rw [hd.subSources_eq_nil hs] at hu
  exact absurd hu List.not_mem_nil

/-- Memos that agree on the sub-sources of a source lead to the same outcome, or to the same
fault. -/
theorem evaluate_congr (settings : Settings) {memo memo' : EffectMemo K}
    (h : ∀ u ∈ d.subSources s, memo.get? u = memo'.get? u) :
    (d.prepared settings memo).evaluate s = (d.prepared settings memo').evaluate s := by
  have hlook : ∀ u ∈ d.subSources s, memo.require u = memo'.require u := fun u hu => by
    rw [EffectMemo.require, EffectMemo.require, h u hu]
  rw [hd.evaluate_eq_map, hd.evaluate_eq_map, subtractAllWith_congr hlook]

variable {memo : EffectMemo K} (hfit : d.Fits s memo)

include hfit

/-- The only fault of an evaluation is that an effect which is looked up is missing. -/
theorem evaluate_eq_error_iff (settings : Settings) {fault : Fault} :
    (d.prepared settings memo).evaluate s = .error fault ↔
      ∃ u ∈ memo.lookedUp (d.subSources s), memo.get? u = none ∧ fault = .notYetComputed u := by
  have hfits := hd.stretchesTo_of_fits hfit (hd.shape_startingTable s)
  rw [← subtractAllWith_require_eq_error_iff hfits, hd.evaluate_eq_map]
  cases subtractAllWith memo.require (d.subSources s) (d.startingTable s) <;> simp [Except.map]

/-- An evaluation that finds its memo in a state leaves it there as it is. -/
theorem evaluateNoting_eq (settings : Settings) :
    (d.prepared settings memo).evaluateNoting s =
      ((d.prepared settings memo).evaluate s, memo, memo.lookedUp (d.subSources s)) := by
  have hafter := after_subtractAllWith_note
    (hd.stretchesTo_of_fits hfit (hd.shape_startingTable s)) []
  show Noting.after ((d.prepared settings memo).evaluateWith EffectMemo.note s) memo [] = _
  rw [hd.evaluateWith_eq, Noting.after_map, hafter, hd.evaluate_eq_map]
  rfl

end Accepted

/-! ## What is missing -/

/-- The least source that is needed and whose effect is missing. -/
structure FirstMissing (d : Design K) (s : Source) (memo : EffectMemo K) (u : Source) : Prop where
  needs : d.Needs s u
  missing : memo.get? u = none
  least : ∀ v, d.Needs s v → memo.get? v = none → u.bits.toNat ≤ v.bits.toNat

namespace Accepted

variable (hd : d.Accepted) {memo : EffectMemo K}

include hd

theorem firstMissing_of_mem_lookedUp (hu : u ∈ memo.lookedUp (d.subSources s))
    (hmissing : memo.get? u = none) : d.FirstMissing s memo u := by
  obtain ⟨hmem, hsmaller⟩ := (EffectMemo.mem_lookedUp_iff (d.pairwise_subSources s)).mp hu
  refine ⟨hd.needs_iff.mpr hmem, hmissing, fun v hv hv' => ?_⟩
  by_contra hlt
  have hstored := hsmaller v (hd.needs_iff.mp hv) (not_le.mp hlt)
  rw [EffectMemo.contains_eq_false_iff.mpr hv'] at hstored
  cases hstored

/-- An evaluation is at fault exactly if an effect that is needed is missing. -/
theorem exists_fault_iff (hfit : d.Fits s memo) (settings : Settings) :
    (∃ fault, (d.prepared settings memo).evaluate s = .error fault) ↔
      ∃ u, d.Needs s u ∧ memo.get? u = none := by
  have hmissing : (∃ u ∈ memo.lookedUp (d.subSources s), memo.get? u = none) ↔
      ∃ u, d.Needs s u ∧ memo.get? u = none := by
    simp only [hd.needs_iff]
    exact EffectMemo.exists_missing_lookedUp_iff
  rw [← hmissing]
  constructor
  · rintro ⟨fault, hfault⟩
    obtain ⟨u, hu, hnone, -⟩ := (hd.evaluate_eq_error_iff hfit settings).mp hfault
    exact ⟨u, hu, hnone⟩
  · rintro ⟨u, hu, hnone⟩
    exact ⟨_, (hd.evaluate_eq_error_iff hfit settings).mpr ⟨u, hu, hnone, rfl⟩⟩

end Accepted

end Design

/-- **Evaluation reads exactly its sub-sources.**  Take a design and any memo.  A source within
subjects is evaluated to the same outcome whatever the memo holds, and the answer for any source
depends on nothing in the memo but the effects that it needs.  If these have the shapes of those
that a run finds, as far as they are stored, then an evaluation is at fault exactly if one of them
is missing, and the fault names the least source of which this is so.  The sources looked up are
those that are needed, in ascending order up to the first that is missing, and the memo is left as
it is. -/
theorem evaluate_reads_subSources {t : ObservationTable K} (ht : t.Built) {settings : Settings}
    {d : Design K} (h : Design.ofTable t settings = .ok d) (settings' : Settings) :
    ∃ a, Analysis.ofDesign d settings' = .ok a ∧
      (∃ waves last ran, Source.dependencyWaves d.factorCount = .ok waves ∧
        a.waveOutcomes waves = .ok (last, ran) ∧
        (ran.map (·.source)).Perm (Source.all d.factorCount) ∧
        ∀ o ∈ ran, o.effect.values.shape = d.effectShape o.source) ∧
      (∀ s, d.kindOf s = .within → ∃ o, ∀ memo, (a.withMemo memo).evaluate s = .ok o) ∧
      (∀ s memo memo', (∀ u, d.Needs s u → memo.get? u = memo'.get? u) →
        (a.withMemo memo).evaluate s = (a.withMemo memo').evaluate s) ∧
      ∀ s memo, d.Fits s memo →
        ((∃ fault, (a.withMemo memo).evaluate s = .error fault) ↔
          ∃ u, d.Needs s u ∧ memo.get? u = none) ∧
        (∀ fault, (a.withMemo memo).evaluate s = .error fault →
          ∃ u, d.FirstMissing s memo u ∧ fault = .notYetComputed u ∧
            fault.message = s!"effect for source {u} requested before it was computed") ∧
        ∃ asked, (a.withMemo memo).evaluateNoting s =
            ((a.withMemo memo).evaluate s, memo, asked) ∧
          asked.Pairwise (fun u v => u.bits.toNat < v.bits.toNat) ∧
          ∀ u, u ∈ asked ↔ d.Needs s u ∧
            ∀ v, d.Needs s v → v.bits.toNat < u.bits.toNat → memo.contains v = true := by
  have hd := Design.accepted_of_ofTable ht h
  refine ⟨d.prepared settings' ∅, hd.ofDesign_eq_ok settings',
    ⟨_, _, _, hd.dependencyWaves_eq, hd.waveOutcomes_eq_ok settings', ?_, fun o ho => ?_⟩,
    fun s hs => ⟨_, fun memo => hd.evaluate_within settings' memo hs⟩,
    fun s memo memo' hagree => hd.evaluate_congr settings' fun u hu =>
      hagree u (hd.needs_iff.mpr hu),
    fun s memo hfit => ⟨hd.exists_fault_iff hfit settings', fun fault hfault => ?_,
      memo.lookedUp (d.subSources s), hd.evaluateNoting_eq hfit settings',
      (d.pairwise_subSources s).sublist (EffectMemo.lookedUp_sublist _), fun u => ?_⟩⟩
  · rw [Design.map_source_outcomes]
    exact hd.flatMap_wave_perm
  · obtain ⟨s, -, rfl⟩ := List.mem_map.mp ho
    rw [Design.source_outcome]
    exact hd.shape_effect_outcome s
  · obtain ⟨u, hu, hmissing, rfl⟩ := (hd.evaluate_eq_error_iff hfit settings').mp hfault
    exact ⟨u, hd.firstMissing_of_mem_lookedUp hu hmissing, rfl, rfl⟩
  · simp only [EffectMemo.mem_lookedUp_iff (d.pairwise_subSources s), hd.needs_iff]

/-- Four groups of one subject each, formed by two factors, on two occasions. -/
noncomputable def fourGroups : ObservationTable ℝ :=
  wholeTable 3 [(1, [0, 0, 0], 4), (1, [0, 0, 1], 6), (2, [0, 1, 0], 3), (2, [0, 1, 1], 8),
    (3, [1, 0, 0], 5), (3, [1, 0, 1], 2), (4, [1, 1, 0], 7), (4, [1, 1, 1], 9)]

/-- A memo that holds an effect for the interaction of the first factor with the occasions. -/
noncomputable def firstInteraction : EffectMemo ℝ :=
  EffectMemo.replace ∅ ⟨.span [0, 2], .ofFn [2, 1, 1] fun _ => 1⟩

/-- The interaction of all three factors needs that of the second with the occasions as well, which
itself needs nothing. -/
theorem evaluate_fourGroups : fourGroups.Built ∧ ∃ d a,
    Design.ofTable fourGroups {} = .ok d ∧ Analysis.ofDesign d {} = .ok a ∧
    (∀ s, d.Fits s firstInteraction) ∧
    (a.withMemo firstInteraction).evaluate (.span [0, 1, 2]) =
      .error (.notYetComputed (.span [1, 2])) ∧
    (∀ fault, (a.withMemo firstInteraction).evaluate (.span [1, 2]) ≠ .error fault) ∧
    ∃ o, ∀ memo, (a.withMemo memo).evaluate (.span [2]) = .ok o := by
  have hbuilt : fourGroups.Built := built_wholeTable (by decide) (by decide)
  have hofTable : Design.ofTable fourGroups {} =
      .ok (Design.tableCoding fourGroups {}).toDesign := rfl
  have hd := Design.accepted_of_ofTable hbuilt hofTable
  obtain ⟨a, ha, -, hwithin, -, hreads⟩ := evaluate_reads_subSources hbuilt hofTable {}
  have hfit : ∀ s, (Design.tableCoding fourGroups {}).toDesign.Fits s firstInteraction := by
    intro s u e _ he
    rw [firstInteraction, EffectMemo.get?_replace] at he
    split at he
    · next hu =>
      obtain rfl := Option.some_inj.mp he
      rw [hu]
      show [2, 1, 1] = _
      decide
    · cases he
  have hmem : ∀ {s u : Source}, s ∈ Source.all 3 →
      (Design.tableCoding fourGroups {}).toDesign.Needs s u → u ∈ Source.all 3 := fun hs hu =>
    hd.mem_all_of_mem_subSources hs (hd.needs_iff.mp hu)
  refine ⟨hbuilt, _, a, hofTable, ha, hfit, ?_, fun fault h => ?_, hwithin _ (by decide)⟩
  · obtain ⟨hfault, hfirst, -⟩ := hreads (.span [0, 1, 2]) _ (hfit _)
    obtain ⟨fault, h⟩ := hfault.mpr ⟨.span [1, 2], by decide, rfl⟩
    obtain ⟨u, hu, rfl, -⟩ := hfirst fault h
    have hpair : ∀ u ∈ Source.all 3,
        (Design.tableCoding fourGroups {}).toDesign.Needs (.span [0, 1, 2]) u →
          u = .span [0, 2] ∨ u = .span [1, 2] := by decide
    rcases hpair u (hmem (by decide) hu.needs) hu.needs with rfl | rfl
    · cases hu.missing
    · exact h
  · obtain ⟨u, hu, -⟩ := (hreads _ _ (hfit _)).1.mp ⟨fault, h⟩
    have hnone : ∀ u ∈ Source.all 3,
        ¬ (Design.tableCoding fourGroups {}).toDesign.Needs (.span [1, 2]) u := by decide
    exact hnone u (hmem (by decide) hu) hu

end SplitPlot
