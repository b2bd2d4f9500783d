import Mathlib
import SplitPlot.Proofs.Totality

/-!
# Evaluating the sources one at a time

The waves are one way to work through the sources of a design.  Here the sources are evaluated one
at a time and the effect of each is stored before the next is looked at (`Analysis.evaluateEach`),
in any order in which each source comes after its proper subsets (`Source.Schedule`).  No such order
is at fault, and each source has the outcome that it has in the waves (`evaluateEach_schedule`).

The invariant is that the memo holds the effects of exactly the sources in front of the one that is
evaluated.  These include the sub-sources that its evaluation asks for and do not include itself.
So its outcome is the one that needs no memo, and its effect is stored for the first time
(`Design.Accepted.evaluate_scheduled`).

The sources in ascending order are such an order, since a proper subset has a smaller word, and so
are the waves with the sources of each wave in any order, since it has fewer factors.
-/

namespace SplitPlot

/-! ## Orders of evaluation -/

/-- An order of the sources of `k` factors in which each of them stands once, after all its proper
subsets. -/
structure Source.Schedule (k : ℕ) (order : List Source) : Prop where
  perm : order.Perm (Source.all k)
  pairwise : order.Pairwise fun s t => t.isProperSubsetOf s = false

namespace Source.Schedule

variable {k : ℕ} {order done rest : List Source} {s t : Source}

/-- A proper subset of a source that is itself a source of the design stands in front of it. -/
theorem mem_of_isProperSubsetOf (h : Schedule k (done ++ s :: rest)) (ht : t ∈ all k)
    (hsub : t.isProperSubsetOf s = true) : t ∈ done := by
  obtain ⟨-, hlater, -⟩ := List.pairwise_append.mp h.pairwise
  have hmem : t ∈ done ++ s :: rest := h.perm.mem_iff.mpr ht
  rcases List.mem_append.mp hmem with hdone | hrest
  · exact hdone
  · rcases List.mem_cons.mp hrest with rfl | hrest
    · exact absurd (isProperSubsetOf_iff.mp hsub) (irrefl _)
    · rw [(List.pairwise_cons.mp hlater).1 t hrest] at hsub
      cases hsub

theorem nodup (h : Schedule k order) (hk : k ≤ 30) : order.Nodup :=
  h.perm.nodup_iff.mpr (nodup_all hk)

/-- If the proper subsets of a source are smaller in some measure, then an order by that measure is
a schedule. -/
theorem of_pairwise_le {measure : Source → ℕ}
    (hmeasure : ∀ s t : Source, s.isProperSubsetOf t = true → measure s < measure t)
    (hperm : order.Perm (all k)) (hle : order.Pairwise fun s t => measure s ≤ measure t) :
    Schedule k order := by
  refine ⟨hperm, hle.imp fun {s t} hle => ?_⟩
  rw [Bool.eq_false_iff]
  exact fun hsub => absurd (hmeasure t s hsub) (not_lt.mpr hle)

/-- The sources in ascending order are a schedule. -/
theorem all (hk : k ≤ 30) : Schedule k (all k) :=
  of_pairwise_le (fun _ _ => toNat_bits_lt_of_isProperSubsetOf) (List.Perm.refl _)
    ((pairwise_all hk).imp Nat.le_of_lt)

end Source.Schedule

variable {K : Type} [Scalar K]

namespace Design

variable {d : Design K}

omit [Scalar K] in
/-- Waves in which the sources stand in any order list the sources by their number of factors. -/
theorem pairwise_factorCount_flatten (d : Design K) {m : ℕ} :
    ∀ {n : ℕ} {waves : List (List Source)},
      List.Forall₂ List.Perm waves ((List.range' n m).map d.wave) →
        waves.flatten.Pairwise fun s t => s.factorCount ≤ t.factorCount := by
  induction m with
  | zero =>
    intro n waves h
    rw [List.forall₂_nil_right_iff.mp h]
    exact List.Pairwise.nil
  | succ m ih =>
    intro n waves h
    rw [List.range'_succ, List.map_cons] at h
    obtain ⟨wave, rest, hwave, hrest, rfl⟩ := List.forall₂_cons_right_iff.mp h
    have hcount : ∀ s ∈ wave, s.factorCount = n + 1 := fun s hs =>
      beq_iff_eq.mp (List.mem_filter.mp (hwave.mem_iff.mp hs)).2
    rw [List.flatten_cons, List.pairwise_append]
    refine ⟨List.pairwise_iff_getElem.mpr fun i j hi hj _ => ?_, ih hrest, fun s hs t ht => ?_⟩
    · rw [hcount _ (List.getElem_mem hi), hcount _ (List.getElem_mem hj)]
    · have hlater := (List.Perm.flatten_congr hrest).mem_iff.mp ht
      rw [← List.flatMap_def, List.mem_flatMap] at hlater
      obtain ⟨i, hi, hi'⟩ := hlater
      have hti := beq_iff_eq.mp (List.mem_filter.mp hi').2
      have hle := (List.mem_range'_1.mp hi).1
      rw [hcount s hs]
      omega

namespace Accepted

/-- The waves are a schedule, in whatever order the sources of each wave stand. -/
theorem schedule_waves (hd : d.Accepted) {waves : List (List Source)}
    (h : List.Forall₂ List.Perm waves ((List.range d.factorCount).map d.wave)) :
    Source.Schedule d.factorCount waves.flatten := by
  refine .of_pairwise_le (fun _ _ => Source.factorCount_lt_of_isProperSubsetOf) ?_ ?_
  · refine (List.Perm.flatten_congr h).trans ?_
    rw [← List.flatMap_def]
    exact hd.flatMap_wave_perm
  · rw [List.range_eq_range'] at h
    exact d.pairwise_factorCount_flatten h

end Accepted

end Design

/-! ## One source at a time -/

/-- Evaluates sources one at a time, and stores the effect of each before the next is evaluated. -/
def Analysis.evaluateEach (a : Analysis K) :
    List Source → Except Fault (Analysis K × List (Outcome K))
  | [] => .ok (a, [])
  | s :: rest => do
    let outcome ← a.evaluate s
    let next ← a.store outcome
    let (last, later) ← next.evaluateEach rest
    return (last, outcome :: later)

namespace Design

variable {d : Design K}

namespace Accepted

variable {done rest : List Source} {s : Source}

/-- A source is evaluated to its outcome against the effects of those in front of it, and its effect
is stored behind theirs. -/
theorem evaluate_scheduled (hd : d.Accepted) (settings : Settings)
    (h : Source.Schedule d.factorCount (done ++ s :: rest)) :
    (d.prepared settings (d.withEffects ∅ done)).evaluate s = .ok (d.outcome s) ∧
      (d.prepared settings (d.withEffects ∅ done)).store (d.outcome s) =
        .ok (d.prepared settings (d.withEffects ∅ (done ++ [s]))) := by
  have hs : s ∈ Source.all d.factorCount :=
    h.perm.mem_iff.mp (List.mem_append_right done List.mem_cons_self)
  have hnew : s ∉ done := fun hdone =>
    (List.nodup_append.mp (h.nodup (hd.factorCount_le.trans (by decide)))).2.2 s hdone s
      List.mem_cons_self rfl
  constructor
  · refine hd.evaluate_of_subSources fun t ht => ?_
    have hsub : t.isProperSubsetOf s = true :=
      Source.isProperSubsetOf_iff.mpr (hd.mem_subSources.mp ht).1
    rw [get?_withEffects,
      if_pos (h.mem_of_isProperSubsetOf (hd.mem_all_of_mem_subSources hs ht) hsub)]
  · have hfree : (d.withEffects ∅ done).get? s = none := by
      rw [get?_withEffects, if_neg hnew, EffectMemo.get?_empty]
    rw [d.store_eq_ok settings hfree, withEffects, withEffects, List.foldl_concat]

/-- The sources that are left are evaluated to their outcomes. -/
theorem evaluateEach_eq_ok (hd : d.Accepted) (settings : Settings) :
    ∀ {done rest : List Source}, Source.Schedule d.factorCount (done ++ rest) →
      (d.prepared settings (d.withEffects ∅ done)).evaluateEach rest =
        .ok (d.prepared settings (d.withEffects ∅ (done ++ rest)), rest.map d.outcome) := by
  intro done rest
  induction rest generalizing done with
  | nil => exact fun _ => by rw [List.append_nil]; rfl
  | cons s rest ih =>
    intro h
    obtain ⟨hevaluate, hstore⟩ := hd.evaluate_scheduled settings h
    have hsplit : done ++ s :: rest = done ++ [s] ++ rest := List.append_cons done s rest
    rw [Analysis.evaluateEach, hevaluate, ok_bind, hstore, ok_bind, ih (hsplit ▸ h), hsplit]
    rfl

end Accepted

end Design

/-! ## Independence of the schedule -/

/-- **The order of evaluation does not matter.**  Let a table be a design.  Its analysis starts with
an empty memo and works through the waves without a fault, and the results of a run are the results
for the outcomes of the waves.  In every schedule the sources can be evaluated one at a time, each
effect being stored before the next source is evaluated: this is not at fault, and it gives each
source the outcome that it has in the waves and ends with the same memo.  The ascending order is a
schedule, and so are the waves with the sources of each wave in any order. -/
theorem evaluateEach_schedule {t : ObservationTable K} (ht : t.Built) {settings : Settings}
    {d : Design K} (h : Design.ofTable t settings = .ok d) :
    ∃ a waves last ran table, Analysis.ofTable t settings = .ok a ∧ a.memo = ∅ ∧
      Source.dependencyWaves t.factorCount = .ok waves ∧
      a.waveOutcomes waves = .ok (last, ran) ∧ ran.map (·.source) = waves.flatten ∧
      a.runWaves waves [] = .ok (ran.map a.result) ∧
      a.run = .ok table ∧ table.results.Perm (ran.map a.result) ∧
      (∀ order, Source.Schedule t.factorCount order →
        ∃ last' outcomes, a.evaluateEach order = .ok (last', outcomes) ∧
          outcomes.map (·.source) = order ∧ outcomes.Perm ran ∧
          (∀ o ∈ outcomes, ∀ o' ∈ ran, o.source = o'.source → o = o') ∧
          ∀ s, last'.memo.get? s = last.memo.get? s) ∧
      Source.Schedule t.factorCount (Source.all t.factorCount) ∧
      ∀ waves', List.Forall₂ List.Perm waves' waves →
        Source.Schedule t.factorCount waves'.flatten := by
  have hd := Design.accepted_of_ofTable ht h
  rw [← Design.factorCount_ofTable ht h]
  refine ⟨d.prepared settings ∅, (List.range d.factorCount).map d.wave, _, _, d.table settings, ?_,
    rfl, hd.dependencyWaves_eq, hd.waveOutcomes_eq_ok settings, ?_, ?_, hd.run_eq_ok settings, ?_,
    fun order horder => ?_, .all (hd.factorCount_le.trans (by decide)),
    fun waves' hwaves => hd.schedule_waves hwaves⟩
  · rw [Analysis.ofTable, h]
    exact hd.ofDesign_eq_ok settings
  · rw [Design.map_source_outcomes, List.flatMap_def]
  · rw [Analysis.runWaves_eq, hd.waveOutcomes_eq_ok settings]
    rfl
  · rw [List.map_map]
    exact hd.flatMap_wave_perm.symm.map _
  · have hperm : order.Perm ((List.range d.factorCount).flatMap d.wave) :=
      horder.perm.trans hd.flatMap_wave_perm.symm
    have hfromStart : Source.Schedule d.factorCount ([] ++ order) := horder
    refine ⟨_, _, hd.evaluateEach_eq_ok settings hfromStart, Design.map_source_outcomes order,
      hperm.map d.outcome, fun o ho o' ho' heq => ?_, fun s => ?_⟩
    · obtain ⟨s, -, rfl⟩ := List.mem_map.mp ho
      obtain ⟨s', -, rfl⟩ := List.mem_map.mp ho'
      rw [Design.source_outcome, Design.source_outcome] at heq
      rw [heq]
    · show (d.withEffects ∅ order).get? s = (d.withEffects ∅ _).get? s
      rw [Design.get?_withEffects, Design.get?_withEffects]
      exact if_congr hperm.mem_iff rfl rfl

/-- The two factors of `measuredTwice` can be evaluated in either order. -/
theorem evaluateEach_measuredTwice : measuredTwice.Built ∧
    ∃ d, Design.ofTable measuredTwice {} = .ok d ∧
    Source.Schedule 2 [.span [1], .span [0], .span [0, 1]] ∧
    ∃ a last ran last' outcomes, Analysis.ofTable measuredTwice {} = .ok a ∧
      a.waveOutcomes [[.span [0], .span [1]], [.span [0, 1]]] = .ok (last, ran) ∧
      a.evaluateEach [.span [1], .span [0], .span [0, 1]] = .ok (last', outcomes) ∧
      outcomes.Perm ran := by
  have hbuilt : measuredTwice.Built := built_wholeTable (by decide) (by decide)
  have hofTable : Design.ofTable measuredTwice {} =
      .ok (Design.tableCoding measuredTwice {}).toDesign := rfl
  have hschedule : Source.Schedule 2 [.span [1], .span [0], .span [0, 1]] :=
    ⟨by decide, by decide⟩
  have hwaves : Source.dependencyWaves 2 = .ok [[.span [0], .span [1]], [.span [0, 1]]] := by decide
  obtain ⟨a, waves, last, ran, table, ha, -, heq, hran, -, -, -, -, horder, -⟩ :=
    evaluateEach_schedule hbuilt hofTable
  obtain ⟨last', outcomes, houtcomes, -, hperm, -⟩ := horder _ hschedule
  cases Except.ok.inj (hwaves.symm.trans heq)
  exact ⟨hbuilt, _, hofTable, hschedule, a, last, ran, last', outcomes, ha, hran, houtcomes, hperm⟩

end SplitPlot
