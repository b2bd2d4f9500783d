import Mathlib
import SplitPlot.Proofs.Relabelling.Runs

/-!
# Another scale for the values

Every value `v` of a table is replaced by `a * v + c`.  The table keeps its subjects and its levels,
so the two designs differ in the scores of the subjects only, and these are rescaled.  The number
that is added is gone from every result: a contrast has the sum zero, and a source between subjects
is compared with means that contain the same number.

The effects are multiplied by `a`.  The sum of squares of a source between subjects is multiplied by
`a ^ 2`.  That of another source is a determinant with a row for each variable, so it is multiplied
by `a ^ 2` once for each of them.  Nothing else in the test of a source shows the scale.
-/

namespace SplitPlot

/-! ## The rescaled table -/

namespace ObservationTable

/-- The table with each value multiplied by a number and another one added. -/
noncomputable def affine (a c : ℝ) (t : ObservationTable ℝ) : ObservationTable ℝ :=
  t.mapRows fun o => { o with value := a * o.value + c }

variable {t : ObservationTable ℝ}

theorem Built.affine (ht : t.Built) (a c : ℝ) : (t.affine a c).Built :=
  ht.mapRows (g := fun o => { o with value := a * o.value + c }) fun _ => rfl

/-- A rescaled table is a rewritten one with all names in place. -/
noncomputable def rescaling (a c : ℝ) (t : ObservationTable ℝ) : Rewriting t (t.affine a c) where
  row o := { o with value := a * o.value + c }
  factor := 1
  subject s := s
  level _ l := l
  scale := a
  shift := c
  rows_eq := rfl
  factorCount_eq := rfl
  factor_lt := Rewriting.one_apply_lt
  subject_row _ _ := rfl
  level_row _ _ _ := Option.map_id'.symm
  value_row _ _ := rfl
  subject_inj _ _ _ _ h := h
  level_inj _ _ _ _ _ h := h

end ObservationTable

/-! ## Rescaled results -/

/-- The result of a source on values that are multiplied by a number. -/
structure SourceResult.Rescaled (a : ℝ) (r r' : SourceResult ℝ) : Prop where
  source_eq : r'.source = r.source
  kind_eq : r'.kind = r.kind
  dfNum_eq : r'.test.dfNum = r.test.dfNum
  dfDen_eq : r'.test.dfDen = r.test.dfDen
  f_eq : r'.test.f = r.test.f
  p_eq : r'.test.p = r.test.p
  wilksLambda_eq : r'.test.wilksLambda = r.test.wilksLambda
  chiSquare_eq : r'.test.chiSquare = r.test.chiSquare
  degeneracy_eq : r'.test.degeneracy = r.test.degeneracy
  shape_eq : r'.effect.values.shape = r.effect.values.shape
  effect_eq : r'.effect.values.toList = r.effect.values.toList.map (a * ·)
  /-- The sums of squares of one variable, the subject mean. -/
  between : r.kind = .between →
    r'.test.ss = a ^ 2 * r.test.ss ∧ r'.test.errorSs = a ^ 2 * r.test.errorSs
  /-- The determinants of matrices with a row for each variable. -/
  contrasts : r.kind ≠ .between → ∃ m, r.matrices = some m ∧
    r'.test.ss = a ^ (2 * m.variableCount) * r.test.ss ∧
      r'.test.errorSs = a ^ (2 * m.variableCount) * r.test.errorSs

namespace Design.Relabelling

open Finset

variable {d d' : Design ℝ} (r : Relabelling d d') (hd : d.Accepted) (hd' : d'.Accepted)
  (hfactor : r.factor = 1) (hlevel : ∀ f < d.factorCount, ∀ i < d.levelCount f, r.level f i = i)
  (settings : Settings) {s : Source} (hs : s ∈ Source.all d.factorCount)

include hd hd' hfactor hlevel hs

/-- With all codes in place the result of a source is the rescaled one. -/
theorem rescaled (hscale : r.scale ≠ 0) :
    SourceResult.Rescaled r.scale (d.resultOf settings s) (d'.resultOf settings s) := by
  have hall : ∀ f ∈ s.toFinset, ∀ i < d.levelCount f, r.level f i = i := fun f hf =>
    hlevel f (mem_range.mp ((hd.mem_all_iff.mp hs).1 hf))
  have hwithin := fun f (hf : f ∈ d.withinPart s) => hall f (mem_inter.mp hf).1
  have htest : (d'.resultOf settings s).test = (d.resultOf settings s).test.rescale
      (r.scale ^ (2 * (d.scoreMatrix (d.withinPart s)).cols)) :=
    r.test_eq_rescale hd hd' (r.toFinset_eq_image hfactor s) hs hwithin hscale rfl
  exact {
    source_eq := by rw [source_resultOf, source_resultOf]
    kind_eq := by rw [kind_resultOf, kind_resultOf, r.kindOf_eq_self hd hd' hfactor]
    dfNum_eq := congrArg (·.dfNum) htest
    dfDen_eq := congrArg (·.dfDen) htest
    f_eq := congrArg (·.f) htest
    p_eq := congrArg (·.p) htest
    wilksLambda_eq := congrArg (·.wilksLambda) htest
    chiSquare_eq := congrArg (·.chiSquare) htest
    degeneracy_eq := congrArg (·.degeneracy) htest
    shape_eq := r.shape_effect_eq hd hd' hfactor hwithin settings settings
    effect_eq := r.toList_effect_eq hd hd' hfactor settings settings hs hall
    between := fun hkind => by
      rw [kind_resultOf] at hkind
      rw [htest, hd.withinPart_eq_empty hkind, cols_scoreMatrix_empty]
      exact ⟨rfl, rfl⟩
    contrasts := fun hkind => by
      rw [kind_resultOf] at hkind
      obtain ⟨m, hm, hcount⟩ := hd.exists_matrices settings hkind
      rw [htest, ← hcount]
      exact ⟨m, hm, rfl, rfl⟩ }

end Design.Relabelling

/-! ## The analysis of a rescaled table -/

/-- **An analysis does not depend on the scale of the values.**  If every value `v` of a table that
is analysed is replaced by `a * v + c`, with `a` not zero, then the new table is analysed too, and
each source has the rescaled result: kind, degrees of freedom, statistics, probability and the
reason why a test was not carried out stay, the effects are multiplied by `a`, and sums of squares
by `a ^ 2` or, for a source with factors within subjects, by `a ^ (2 * q)` with the number `q` of
its variables. -/
theorem anova_affine {t : ObservationTable ℝ} (ht : t.Built) {settings : Settings}
    {table : AnovaTable ℝ} (h : anova t settings = .ok table) {a : ℝ} (ha : a ≠ 0) (c : ℝ) :
    ∃ table', anova (t.affine a c) settings = .ok table' ∧
      List.Forall₂ (SourceResult.Rescaled a) table.results table'.results := by
  obtain ⟨d, d', hofTable, hofTable', rfl, htable'⟩ :=
    (t.rescaling a c).exists_run ht (ht.affine a c) rfl rfl h
  have hd := Design.accepted_of_ofTable ht hofTable
  have hd' := Design.accepted_of_ofTable (ht.affine a c) hofTable'
  have hcount := Design.factorCount_ofTable ht hofTable
  let r := (t.rescaling a c).relabelling ht (ht.affine a c) hofTable hofTable'
  refine ⟨_, htable', Design.forall₂_results r.factorCount_eq fun s hs => ?_⟩
  exact r.rescaled hd hd' rfl (fun f hf i hi => (t.rescaling a c).level_relabelling ht
    (ht.affine a c) hofTable hofTable' (hcount ▸ hf) (fun _ _ => rfl) hi) settings hs ha

/-- The values of a table are turned round and moved. -/
theorem anova_affine_threeOccasions : threeOccasions.Built ∧ (-2 : ℝ) ≠ 0 ∧
    ∃ table table', anova threeOccasions {} = .ok table ∧
      anova (threeOccasions.affine (-2) 7) {} = .ok table' ∧ table.results.length = 3 ∧
        List.Forall₂ (SourceResult.Rescaled (-2)) table.results table'.results := by
  have ha : (-2 : ℝ) ≠ 0 := neg_ne_zero.mpr two_ne_zero
  have htable := anova_eq_ok built_threeOccasions ofTable_threeOccasions
  obtain ⟨table', htable', hresults⟩ := anova_affine built_threeOccasions htable ha 7
  exact ⟨built_threeOccasions, ha, _, table', htable, htable', rfl, hresults⟩

end SplitPlot
