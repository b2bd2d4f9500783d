import Mathlib
import SplitPlot.Proofs.Decomposition.Interaction
import SplitPlot.Proofs.Relabelling.Results

/-!
# The effects of a run in closed form

A run finds the effect of a source with the effects of its sub-sources in hand, which other waves
have left in the memo.  What it arrives at can be said without a memo and without a recursion, from
the means and the sizes of the cells alone.

For a set `B` of factors between subjects and a cell, take the cells that have the same levels at
the factors of `B` (`Design.cellsAlike`): the plain mean of their means (`plainMean`) and the
harmonic mean of their sizes (`harmonicSize`).  The mean of the plain means with the harmonic sizes
as weights, over the combinations of levels of `B`, is the number on which `B` is centred
(`plainCentre`).  Then

* the effect of a source at a cell is the alternating sum of the centred plain means over the
  subsets of its factors between subjects, the empty one left out (`getStretched_effect`), and
* the effects of a source and of its sub-sources add up to the centred plain mean of the source
  itself (`sum_effects_below`).

Each says the same of the effects, and cells of any sizes are allowed in both.

A reduction goes one axis at a time and knows nothing of cells that are alike.  That it computes the
means over them is the first part of this file.
-/

namespace SplitPlot

open Finset

/-! ## Reductions as means over the positions that agree -/

section Alike

variable {extent : ℕ → ℕ} {factors : List ℕ} {S : Finset ℕ} {x : List ℕ}

theorem card_alike (hnodup : factors.Nodup) (hx : x ∈ positions (factors.map extent)) :
    ((alike extent factors S x).card : ℝ) = joined (flagged extent factors S) := by
  have h := joined_mul_lineKeep (S := S) hnodup hx fun _ => 1
  rw [lineKeep_const hnodup hx, mul_one, sum_const, nsmul_one] at h
  exact h.symm

theorem lineKeep_mean_eq (hnodup : factors.Nodup) (hx : x ∈ positions (factors.map extent))
    (g : List ℕ → ℝ) : lineKeep mean (flagged extent factors S) g x =
      (∑ y ∈ alike extent factors S x, g y) / (alike extent factors S x).card := by
  rw [lineKeep_eq_div hnodup hx, card_alike hnodup hx]

theorem lineKeep_harmonicMean_eq (hnodup : factors.Nodup) (hx : x ∈ positions (factors.map extent))
    {g : List ℕ → ℝ} (hg : ∀ y ∈ positions (factors.map extent), 0 < g y) :
    lineKeep harmonicMean (flagged extent factors S) g x =
      (alike extent factors S x).card / ∑ y ∈ alike extent factors S x, (g y)⁻¹ := by
  rw [← inv_inj, inv_lineKeep_harmonicMean hx hg, lineKeep_mean_eq hnodup hx, inv_div]

/-- The position at which a reduced table is read has the levels of the factors that are kept. -/
theorem squash_kept (hnodup : factors.Nodup) (hx : x ∈ positions (factors.map extent)) :
    squash (keptShape (flagged extent factors S)) x ∈
        positions (keptShape (flagged extent factors S)) ∧
      Agree factors S x (squash (keptShape (flagged extent factors S)) x) := by
  rw [mem_positions] at hx ⊢
  induction factors generalizing x with
  | nil =>
    match x, hx with
    | [], _ => exact ⟨trivial, nofun⟩
  | cons f factors ih =>
    obtain ⟨hf, hnodup⟩ := List.nodup_cons.mp hnodup
    match x, hx with
    | i :: x, ⟨hi, hx⟩ =>
      obtain ⟨hin, hagree⟩ := ih hnodup hx
      -- an axis of length one has level zero, kept or not
      have hlevel : f ∈ S → (if extent f = 1 then 0 else i) = i := fun _ => by
        split <;> omega
      by_cases hS : f ∈ S
      · rw [flagged_cons_of_mem extent hS]
        refine ⟨⟨?_, hin⟩, (agree_cons_iff hf).mpr ⟨fun _ => (hlevel hS).symm, hagree⟩⟩
        show (if extent f = 1 then 0 else i) < extent f
        rwa [hlevel hS]
      · rw [flagged_cons_of_notMem extent hS]
        exact ⟨⟨Nat.one_pos, hin⟩, (agree_cons_iff hf).mpr ⟨fun h => absurd h hS, hagree⟩⟩

end Alike

namespace Design

/-! ## Means and sizes of cells that are alike -/

section Definitions

variable (d : Design ℝ) (c : CellStatistics ℝ) (j : ℕ) (B : Finset ℕ)

/-- The cells between subjects that have the levels of a given one at the factors of a set. -/
def cellsAlike (x : List ℕ) : Finset (List ℕ) := alike d.levelCount d.betweenFactors B x

/-- The mean of the cell means of a variable over these cells, whatever their sizes. -/
noncomputable def plainMean (x : List ℕ) : ℝ :=
  (∑ y ∈ d.cellsAlike B x, c.means.get (y ++ [j])) / (d.cellsAlike B x).card

/-- The harmonic mean of the sizes of these cells. -/
noncomputable def harmonicSize (x : List ℕ) : ℝ :=
  (d.cellsAlike B x).card / ∑ y ∈ d.cellsAlike B x, (c.counts.get y)⁻¹

/-- The combinations of levels of the factors of a set, each as the cell that has level zero at
every other factor. -/
def combinations : Finset (List ℕ) :=
  positions (keptShape (flagged d.levelCount d.betweenFactors B))

/-- The mean of the plain means over these combinations, weighted with the harmonic sizes. -/
noncomputable def plainCentre : ℝ :=
  (∑ x ∈ d.combinations B, d.plainMean c j B x * d.harmonicSize c B x) /
    ∑ x ∈ d.combinations B, d.harmonicSize c B x

/-- The statistics on which a source is evaluated: those of the subject means if no factor of it
varies within subjects, and otherwise those of the contrast scores of the factors that do. -/
noncomputable def cellsOf (s : Source) : CellStatistics ℝ :=
  if d.kindOf s = .between then d.meanStatistics else (d.scoresWithin s).cells

/-- Whether the second source is the first one or a source whose effect is taken away from that of
the first: a subset with the same factors within subjects and at least one factor between. -/
def isBelow (s t : Source) : Bool :=
  t.isSubsetOf s && (t.intersection d.withinMask == s.intersection d.withinMask &&
    !(t.difference d.withinMask).isEmpty)

end Definitions

variable {d : Design ℝ} {values : Mat ℝ} {j : ℕ} {B : Finset ℕ} {x : List ℕ}

theorem margin_eq_plainMean (hx : x ∈ d.cellPositions) :
    d.margin values j B x = d.plainMean (d.statistics values) j B x :=
  lineKeep_mean_eq (nodup_betweenFactors d.toCoding) hx _

/-- Of no factor all cells are alike, and the weights do not matter. -/
theorem effectAt_empty (x : List ℕ) :
    d.effectAt values j ∅ x = d.margin values j ∅ x - d.centre values j ∅ := by
  rw [effectAt, powerset_empty, sum_singleton, card_empty, pow_zero, one_mul]

namespace Accepted

variable (hd : d.Accepted)

include hd

theorem marginSize_eq_harmonicSize (hx : x ∈ d.cellPositions) :
    d.marginSize values B x = d.harmonicSize (d.statistics values) B x :=
  lineKeep_harmonicMean_eq (nodup_betweenFactors d.toCoding) hx
    fun _ hy => hd.get_counts_pos (mem_positions.mp hy)

theorem centre_eq_plainCentre (values : Mat ℝ) (j : ℕ) (B : Finset ℕ) :
    d.centre values j B = d.plainCentre (d.statistics values) j B := by
  have hcell : ∀ x ∈ d.combinations B, x ∈ d.cellPositions := fun x hx =>
    mem_positions_of_keptShape (fun _ hf => hd.levelCount_between_pos hf) hx
  rw [plainCentre, ← sum_congr rfl fun x hx => hd.marginSize_eq_harmonicSize (hcell x hx),
    ← sum_congr rfl fun x hx => congrArg₂ (· * ·) (margin_eq_plainMean (hcell x hx))
      (hd.marginSize_eq_harmonicSize (hcell x hx))]
  rfl

theorem cellsOf_eq (s : Source) :
    d.cellsOf s = d.statistics (d.scoreMatrix (d.withinPart s)) := by
  by_cases h : d.kindOf s = .between
  · rw [cellsOf, if_pos h, hd.withinPart_eq_empty h, scoreMatrix_empty]
    rfl
  · rw [cellsOf, if_neg h, hd.statistics_scoresWithin (hd.withinPart_ne_empty h)]

/-- The part of no factor is centred already. -/
theorem effectAt_empty_eq_zero (hx : x ∈ d.cellPositions) : d.effectAt values j ∅ x = 0 := by
  have hlen := length_of_mem_positions hx
  rw [effectAt_empty, hd.centre_empty hlen, cellPart_eq_sum_margin (empty_subset _) hlen,
    powerset_empty, sum_singleton, card_empty, pow_zero, one_mul, sub_self]

/-! ## One effect -/

/-- The alternating sum of an effect needs no term for the empty set. -/
theorem effectAt_eq_sum_erase (hx : x ∈ d.cellPositions) (B : Finset ℕ) :
    d.effectAt values j B x = ∑ C ∈ B.powerset.erase ∅, (-1) ^ (B.card - C.card) *
      (d.plainMean (d.statistics values) j C x - d.plainCentre (d.statistics values) j C) := by
  have hzero : d.effectAt values j ∅ x = 0 := hd.effectAt_empty_eq_zero hx
  rw [effectAt_empty] at hzero
  rw [effectAt, ← add_sum_erase _ _ (empty_mem_powerset B), hzero, mul_zero, zero_add]
  refine sum_congr rfl fun C hC => ?_
  have hle : C.card ≤ B.card := card_le_card (mem_powerset.mp (mem_of_mem_erase hC))
  have hsign : (-1 : ℝ) ^ (B.card + C.card) = (-1) ^ (B.card - C.card) := by
    have heven : B.card + C.card = B.card - C.card + 2 * C.card := by omega
    rw [heven, pow_add, pow_mul, neg_one_sq, one_pow, mul_one]
  rw [hsign, margin_eq_plainMean hx, hd.centre_eq_plainCentre]

variable (settings : Settings) {s : Source} (hs : s ∈ Source.all d.factorCount)
  (hkind : d.kindOf s ≠ .within)

include hs hkind

/-- An effect is read at any cell, also one of factors that the source does not have. -/
theorem getStretched_effect_eq_effectAt (hx : x ∈ d.cellPositions)
    (hj : j < (d.scoreMatrix (d.withinPart s)).cols) :
    (d.resultOf settings s).effect.values.getStretched (x ++ [j]) =
      d.effectAt (d.scoreMatrix (d.withinPart s)) j (d.betweenPart s) x := by
  obtain ⟨hsquash, hagree⟩ := squash_kept (S := d.betweenPart s)
    (nodup_betweenFactors d.toCoding) hx
  have hlen : x.length = (keptShape (d.flags d.betweenFactors s)).length := by
    rw [length_keptShape, Coding.length_flags, length_of_mem_positions hx]
  rw [← hd.flags_between] at hsquash hagree
  rw [Grid.getStretched_append (hd.shape_effect settings) hlen hj,
    hd.effect_eq_pureEffect settings hkind,
    hd.get_pureEffect_eq_effectAt hj (hd.mem_all_iff.mp hs).1 (hd.betweenPart_ne_empty hs hkind)
      hsquash]
  exact effectAt_eq_of_agree hx (hd.mem_cellPositions hsquash) hagree

/-- The effect of a source at a cell is an alternating sum of centred plain means. -/
theorem getStretched_effect (hx : x ∈ d.cellPositions) (hj : j < (d.cellsOf s).variableCount) :
    (d.resultOf settings s).effect.values.getStretched (x ++ [j]) =
      ∑ B ∈ (d.betweenPart s).powerset.erase ∅, (-1) ^ ((d.betweenPart s).card - B.card) *
        (d.plainMean (d.cellsOf s) j B x - d.plainCentre (d.cellsOf s) j B) := by
  rw [hd.cellsOf_eq, variableCount_statistics] at hj
  rw [hd.getStretched_effect_eq_effectAt settings hs hkind hx hj, hd.effectAt_eq_sum_erase hx,
    hd.cellsOf_eq]

/-! ## The effects of a source and of its sub-sources -/

/-- The sources below a source are the source itself and its sub-sources. -/
theorem mem_below_iff {t : Source} :
    t ∈ (Source.all d.factorCount).filter (d.isBelow s) ↔ t = s ∨ t ∈ d.subSources s := by
  obtain ⟨hsub, hnonempty⟩ := hd.mem_all_iff.mp hs
  rw [List.mem_filter, isBelow, Bool.and_eq_true, Source.isSubsetOf_iff, hd.mem_all_iff]
  constructor
  · rintro ⟨⟨-, hne⟩, hle, hparts⟩
    rcases eq_or_ssubset_of_subset hle with heq | hlt
    · exact .inl (Source.toFinset_injective heq)
    · exact .inr (List.mem_filter.mpr ⟨Source.mem_properSubsets.mpr ⟨hlt, hne⟩, hparts⟩)
  · rintro (rfl | ht)
    · refine ⟨⟨hsub, hnonempty⟩, subset_rfl, ?_⟩
      rw [Bool.and_eq_true, beq_self_eq_true, Bool.not_eq_true', ← Bool.not_eq_true,
        Source.isEmpty_iff, Source.toFinset_difference, hd.toFinset_withinMask,
        sdiff_eq_empty_iff_subset]
      exact ⟨rfl, fun h => hkind (hd.kindOf_eq_within_iff.mpr ⟨hnonempty, h⟩)⟩
    · obtain ⟨hproper, hparts⟩ := List.mem_filter.mp ht
      obtain ⟨hlt, hne⟩ := Source.mem_properSubsets.mp hproper
      exact ⟨⟨hlt.1.trans hsub, hne⟩, hlt.1, hparts⟩

/-- A sum over the sources below a source, by their factors between subjects. -/
theorem sum_below (φ : Finset ℕ → ℝ) :
    (((Source.all d.factorCount).filter (d.isBelow s)).map fun t => φ (d.betweenPart t)).sum =
      ∑ B ∈ (d.betweenPart s).powerset.erase ∅, φ B := by
  have hsub := (hd.mem_all_iff.mp hs).1
  have hnodup := (Source.nodup_all (hd.factorCount_le.trans (by decide : 16 ≤ 30))).filter
    (d.isBelow s)
  have hset : ((Source.all d.factorCount).filter (d.isBelow s)).toFinset =
      insert s (d.subSources s).toFinset := by
    ext t
    rw [List.mem_toFinset, hd.mem_below_iff hs hkind, mem_insert, List.mem_toFinset]
  have hself : s ∉ (d.subSources s).toFinset := fun h =>
    ((hd.mem_subSources_iff hsub).mp (List.mem_toFinset.mp h)).2.2.1.2 subset_rfl
  have hsubsets : (d.betweenPart s).powerset.erase ∅ =
      insert (d.betweenPart s) ((d.betweenPart s).ssubsets.erase ∅) := by
    rw [ssubsets, erase_right_comm, insert_erase]
    exact mem_erase.mpr ⟨hd.betweenPart_ne_empty hs hkind, mem_powerset_self _⟩
  have hnot : d.betweenPart s ∉ (d.betweenPart s).ssubsets.erase ∅ := fun h =>
    (mem_ssubsets.mp (mem_of_mem_erase h)).2 subset_rfl
  have hnodup' : (d.subSources s).Nodup := (Source.nodup_properSubsets s).filter _
  rw [← List.sum_toFinset _ hnodup, hset, sum_insert hself, hsubsets, sum_insert hnot,
    ← hd.sum_subSources hsub φ, List.sum_toFinset _ hnodup']

/-- The effects of a source and of its sub-sources at a cell add up to its centred plain mean. -/
theorem sum_effects_below (hx : x ∈ d.cellPositions) (hj : j < (d.cellsOf s).variableCount) :
    d.plainCentre (d.cellsOf s) j (d.betweenPart s) +
        (((Source.all d.factorCount).filter (d.isBelow s)).map fun t =>
          (d.resultOf settings t).effect.values.getStretched (x ++ [j])).sum =
      d.plainMean (d.cellsOf s) j (d.betweenPart s) x := by
  have hsub := (hd.mem_all_iff.mp hs).1
  rw [hd.cellsOf_eq, variableCount_statistics] at hj
  have heffect : ∀ t ∈ (Source.all d.factorCount).filter (d.isBelow s),
      (d.resultOf settings t).effect.values.getStretched (x ++ [j]) =
        d.effectAt (d.scoreMatrix (d.withinPart s)) j (d.betweenPart t) x := fun t ht => by
    have hall := (List.mem_filter.mp ht).1
    have hparts : d.withinPart t = d.withinPart s ∧ d.betweenPart t ≠ ∅ := by
      rcases (hd.mem_below_iff hs hkind).mp ht with rfl | ht
      · exact ⟨rfl, hd.betweenPart_ne_empty hs hkind⟩
      · obtain ⟨-, hwithin, -, hne⟩ := (hd.mem_subSources_iff hsub).mp ht
        exact ⟨hwithin, hne⟩
    have hkind : d.kindOf t ≠ .within := fun h => hparts.2 (hd.betweenPart_eq_empty h)
    rw [hd.getStretched_effect_eq_effectAt settings hall hkind hx (by rwa [hparts.1]), hparts.1]
  rw [List.map_congr_left heffect, hd.sum_below hs hkind fun B =>
    d.effectAt (d.scoreMatrix (d.withinPart s)) j B x, hd.cellsOf_eq, ← hd.centre_eq_plainCentre,
    ← margin_eq_plainMean hx]
  -- the effect of no factor is zero, and over all subsets the alternating sums collapse
  have hcollapse : ∑ B ∈ (d.betweenPart s).powerset,
      d.effectAt (d.scoreMatrix (d.withinPart s)) j B x =
        d.margin (d.scoreMatrix (d.withinPart s)) j (d.betweenPart s) x -
          d.centre (d.scoreMatrix (d.withinPart s)) j (d.betweenPart s) :=
    sum_powerset_alternating _ _
  rw [← add_sum_erase _ _ (empty_mem_powerset (d.betweenPart s)), hd.effectAt_empty_eq_zero hx,
    zero_add] at hcollapse
  rw [hcollapse, add_sub_cancel]

end Accepted

end Design

/-! ## The effects of a run -/

open Design in
/-- **Effects in closed form.**  Let a table be a design with cells of any sizes.  The effect that
the run reports for a source between subjects, or with factors of both kinds, is at every cell and
for every variable the alternating sum of the centred plain means over the non-empty sets of factors
between subjects of the source.  And the effects that the run reports for the source and for its
sub-sources add up, with the number on which the source is centred, to its plain mean. -/
theorem anova_effect_closedForm {t : ObservationTable ℝ} (ht : t.Built) {settings : Settings}
    {d : Design ℝ} (h : ofTable t settings = .ok d) :
    ∃ table, anova t settings = .ok table ∧
      table.results.map (·.source) = Source.all d.factorCount ∧
      ∀ r ∈ table.results, r.kind = d.kindOf r.source ∧ (r.kind ≠ .within →
        let c := d.cellsOf r.source
        let S := d.betweenPart r.source
        r.effect.values.shape = keptShape (d.flags d.betweenFactors r.source) ++ [c.variableCount] ∧
        ∀ x ∈ d.cellPositions, ∀ j < c.variableCount,
          r.effect.values.getStretched (x ++ [j]) = ∑ B ∈ S.powerset.erase ∅,
            (-1) ^ (S.card - B.card) * (d.plainMean c j B x - d.plainCentre c j B) ∧
          d.plainCentre c j S +
              ((table.results.filter fun r' => d.isBelow r.source r'.source).map fun r' =>
                r'.effect.values.getStretched (x ++ [j])).sum =
            d.plainMean c j S x) := by
  have hd := accepted_of_ofTable ht h
  refine ⟨_, anova_eq_ok ht h, ?_, fun r hr => ?_⟩
  · rw [List.map_map]
    exact (List.map_congr_left fun s _ => source_resultOf settings s).trans (List.map_id _)
  obtain ⟨s, hs, rfl⟩ := List.mem_map.mp hr
  refine ⟨by rw [kind_resultOf, source_resultOf], fun hkind => ?_⟩
  rw [kind_resultOf] at hkind
  rw [source_resultOf]
  refine ⟨?_, fun x hx j hj => ⟨hd.getStretched_effect settings hs hkind hx hj, ?_⟩⟩
  · rw [hd.shape_effect settings, hd.cellsOf_eq, variableCount_statistics]
  · have hsource : (fun r => d.isBelow s r.source) ∘ d.resultOf settings = d.isBelow s :=
      funext fun t => congrArg (d.isBelow s) (source_resultOf settings t)
    show _ + (((((Source.all d.factorCount).map (d.resultOf settings)).filter
      fun r => d.isBelow s r.source).map _)).sum = _
    rw [List.filter_map, List.map_map, hsource]
    exact hd.sum_effects_below settings hs hkind hx hj

namespace Design

/-- The two factors of the cells of different sizes: their effect on the means of the subjects and
on the gains is made of the plain means over one factor and over both. -/
theorem effect_closedForm_unequalCells : unequalCells.Built ∧
    ofTable unequalCells {} = .ok unequalDesign ∧
    ∃ table, anova unequalCells {} = .ok table ∧ ∀ s ∈ [Source.span [0, 1], .span [0, 1, 2]],
      ∃ r ∈ table.results, r.source = s ∧ r.kind ≠ .within ∧ ∀ a < 2, ∀ b < 2,
        let c := unequalDesign.cellsOf s
        let p := fun B => unequalDesign.plainMean c 0 B [a, b] - unequalDesign.plainCentre c 0 B
        r.effect.values.getStretched [a, b, 0] = p {0, 1} - p {0} - p {1} := by
  obtain ⟨table, htable, hsources, hresults⟩ :=
    anova_effect_closedForm built_unequalCells ofTable_unequalCells
  refine ⟨built_unequalCells, ofTable_unequalCells, table, htable, fun s hs => ?_⟩
  have hcases : s ∈ Source.all unequalDesign.factorCount ∧ unequalDesign.kindOf s ≠ .within ∧
      unequalDesign.betweenPart s = {0, 1} ∧ (unequalDesign.cellsOf s).variableCount = 1 := by
    fin_cases hs
    · exact ⟨by decide, by decide, by decide, rfl⟩
    · exact ⟨by decide, by decide, by decide, rfl⟩
  obtain ⟨hall, hkind, hpart, hsize⟩ := hcases
  obtain ⟨r, hr, rfl⟩ := List.mem_map.mp (hsources ▸ hall)
  obtain ⟨hkindOf, heffect⟩ := hresults r hr
  rw [← hkindOf] at hkind
  refine ⟨r, hr, rfl, hkind, fun a ha b hb => ?_⟩
  intro c p
  have hsubsets : ({0, 1} : Finset ℕ).powerset.erase ∅ = {{0}, {1}, {0, 1}} := by decide
  have hcell : [a, b] ∈ unequalDesign.cellPositions :=
    mem_positions.mpr (inBounds_unequalDesign ha hb)
  obtain ⟨hsum, -⟩ := (heffect hkind).2 _ hcell 0 (by rw [hsize]; exact Nat.one_pos)
  rw [hpart, hsubsets, sum_insert (by decide), sum_pair (by decide), card_singleton, card_singleton,
    card_pair zero_ne_one] at hsum
  refine hsum.trans ?_
  simp only [p, c]
  ring

end Design

end SplitPlot
