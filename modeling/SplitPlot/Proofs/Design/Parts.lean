import Mathlib
import SplitPlot.Proofs.Decomposition.Positions
import SplitPlot.Proofs.Design.Accepted

/-!
# The two parts of a source

A source of a design is a set of its factors, and the factors are of two kinds.  So a source is a
pair: its factors between subjects and its factors within (`Design.betweenPart`,
`Design.withinPart`), each an arbitrary set of factors of that kind (`exists_source`).  The tables
of cells see the first part of a source only, the contrast scores the second.

Sums over sources become sums over such pairs.  The effects that are taken away from the effect of a
source belong to the pairs with the same second part whose first part is smaller and not empty
(`sum_subSources`).
-/

namespace SplitPlot

open Finset

namespace Design

variable {K : Type} {d : Design K}

/-- The factors between subjects of a source. -/
def betweenPart (d : Design K) (s : Source) : Finset ℕ :=
  s.toFinset ∩ d.betweenFactors.toFinset

/-- The factors within subjects of a source. -/
def withinPart (d : Design K) (s : Source) : Finset ℕ :=
  s.toFinset ∩ d.withinFactors.toFinset

theorem mem_betweenFactors_of_mem_betweenPart {s : Source} {f : ℕ} (hf : f ∈ d.betweenPart s) :
    f ∈ d.betweenFactors := List.mem_toFinset.mp (mem_inter.mp hf).2

theorem lt_factorCount_of_mem_withinPart {s : Source} {f : ℕ} (hf : f ∈ d.withinPart s) :
    f < d.factorCount := (Coding.mem_withinFactors.mp (List.mem_toFinset.mp (mem_inter.mp hf).2)).1

/-- A source of a design is determined by its two parts. -/
theorem betweenPart_union_withinPart {s : Source} (hs : s.toFinset ⊆ range d.factorCount) :
    d.betweenPart s ∪ d.withinPart s = s.toFinset := by
  rw [betweenPart, withinPart, ← inter_union_distrib_left, Coding.union_factors,
    inter_eq_left.mpr hs]

variable [Scalar K]

namespace Accepted

variable (hd : d.Accepted)

include hd

/-! ## The two parts of a source -/

/-- A source is between subjects exactly when all its factors are. -/
theorem kindOf_eq_between_iff_subset {s : Source} (hs : s ∈ Source.all d.factorCount) :
    d.kindOf s = .between ↔ s.toFinset ⊆ d.betweenFactors.toFinset := by
  rw [hd.kindOf_eq_between_iff]
  refine ⟨fun h => ?_, fun h => (Coding.disjoint_factors d.toCoding).mono_left h⟩
  have hsub := (hd.mem_all_iff.mp hs).1
  rw [← Coding.union_factors] at hsub
  exact h.left_le_of_le_sup_right hsub

theorem mem_betweenFactors_of_between {s : Source} (hs : s ∈ Source.all d.factorCount)
    (hkind : d.kindOf s = .between) {f : ℕ} (hf : f ∈ s.toFinset) : f ∈ d.betweenFactors :=
  List.mem_toFinset.mp ((hd.kindOf_eq_between_iff_subset hs).mp hkind hf)

theorem flags_between (s : Source) :
    d.flags d.betweenFactors s = flagged d.levelCount d.betweenFactors (d.betweenPart s) := by
  rw [flags_eq_flagged d.toCoding fun f hf => hd.lt_of_mem_betweenFactors hf]
  exact flagged_congr _ fun f hf => by
    rw [betweenPart, mem_inter, List.mem_toFinset, and_iff_left hf]

theorem flags_within (s : Source) :
    d.flags d.withinFactors s = flagged d.levelCount d.withinFactors (d.withinPart s) := by
  rw [flags_eq_flagged d.toCoding fun f hf => hd.lt_of_mem_withinFactors hf]
  exact flagged_congr _ fun f hf => by
    rw [withinPart, mem_inter, List.mem_toFinset, and_iff_left hf]

/-- Any two sets of factors are the parts of a source. -/
theorem exists_source {B T : Finset ℕ} (hB : B ⊆ d.betweenFactors.toFinset)
    (hT : T ⊆ d.withinFactors.toFinset) :
    ∃ s : Source, s.toFinset = B ∪ T ∧ d.betweenPart s = B ∧ d.withinPart s = T := by
  have hlt : ∀ f ∈ (B ∪ T).toList, f < 31 := by
    intro f hf
    rw [mem_toList] at hf
    rcases mem_union.mp hf with hf | hf
    · exact (hd.lt_of_mem_betweenFactors (List.mem_toFinset.mp (hB hf))).trans (by decide)
    · exact (hd.lt_of_mem_withinFactors (List.mem_toFinset.mp (hT hf))).trans (by decide)
  have hset : (Source.span (B ∪ T).toList).toFinset = B ∪ T := by
    rw [Source.toFinset_span hlt, toList_toFinset]
  have hdisj := (Coding.disjoint_factors d.toCoding)
  refine ⟨Source.span (B ∪ T).toList, hset, ?_, ?_⟩
  · rw [betweenPart, hset, union_inter_distrib_right, inter_eq_left.mpr hB,
      disjoint_iff_inter_eq_empty.mp (hdisj.symm.mono_left hT), union_empty]
  · rw [withinPart, hset, union_inter_distrib_right, inter_eq_left.mpr hT,
      disjoint_iff_inter_eq_empty.mp (hdisj.mono_left hB), empty_union]

/-- A source within subjects has no factor between. -/
theorem betweenPart_eq_empty {s : Source} (h : d.kindOf s = .within) : d.betweenPart s = ∅ :=
  disjoint_iff_inter_eq_empty.mp ((Coding.disjoint_factors d.toCoding).symm.mono_left
    (hd.kindOf_eq_within_iff.mp h).2)

/-- A source with factors of both kinds, or with factors between subjects only, has some of the
latter. -/
theorem betweenPart_ne_empty {s : Source} (hs : s ∈ Source.all d.factorCount)
    (h : d.kindOf s ≠ .within) : d.betweenPart s ≠ ∅ := by
  intro hempty
  obtain ⟨hsub, hne⟩ := hd.mem_all_iff.mp hs
  refine h (hd.kindOf_eq_within_iff.mpr ⟨hne, ?_⟩)
  rw [← betweenPart_union_withinPart hsub, hempty, empty_union]
  exact inter_subset_right

/-- The sub-sources of a source of a design keep its factors within subjects and have some, but not
all, of its factors between. -/
theorem mem_subSources_iff {s t : Source} (hs : s.toFinset ⊆ range d.factorCount) :
    t ∈ d.subSources s ↔ t.toFinset ⊆ range d.factorCount ∧ d.withinPart t = d.withinPart s ∧
      d.betweenPart t ⊂ d.betweenPart s ∧ d.betweenPart t ≠ ∅ := by
  have hne : ∀ t : Source, t.toFinset ⊆ range d.factorCount →
      (¬ t.toFinset ⊆ d.withinFactors.toFinset ↔ d.betweenPart t ≠ ∅) := by
    intro t ht
    rw [not_iff_not]
    constructor
    · intro hsub
      exact disjoint_iff_inter_eq_empty.mp
        ((Coding.disjoint_factors d.toCoding).symm.mono_left hsub)
    · intro hempty
      rw [← betweenPart_union_withinPart ht, hempty, empty_union]
      exact inter_subset_right
  rw [hd.mem_subSources]
  constructor
  · rintro ⟨hsub, hwithin, hnot⟩
    have ht := hsub.1.trans hs
    refine ⟨ht, hwithin, ⟨inter_subset_inter_right hsub.1, fun hle => hsub.2 ?_⟩,
      (hne t ht).mp hnot⟩
    rw [← betweenPart_union_withinPart ht, ← betweenPart_union_withinPart hs]
    exact union_subset_union hle hwithin.ge
  · rintro ⟨ht, hwithin, hbetween, hnot⟩
    refine ⟨⟨?_, fun hle => hbetween.2 (inter_subset_inter_right hle)⟩, hwithin,
      (hne t ht).mpr hnot⟩
    rw [← betweenPart_union_withinPart ht, ← betweenPart_union_withinPart hs]
    exact union_subset_union hbetween.1 hwithin.le

/-- A sum over the sub-sources of a source, by their factors between subjects. -/
theorem sum_subSources {s : Source} (hs : s.toFinset ⊆ range d.factorCount) (φ : Finset ℕ → ℝ) :
    ((d.subSources s).map fun t => φ (d.betweenPart t)).sum =
      ∑ B ∈ (d.betweenPart s).ssubsets.erase ∅, φ B := by
  have hnodup : (d.subSources s).Nodup := (Source.nodup_properSubsets s).filter _
  rw [← List.sum_toFinset _ hnodup]
  refine sum_bij (fun t _ => d.betweenPart t) ?_ ?_ ?_ fun _ _ => rfl
  · intro t ht
    obtain ⟨-, -, hsub, hne⟩ := (hd.mem_subSources_iff hs).mp (List.mem_toFinset.mp ht)
    exact mem_erase.mpr ⟨hne, mem_ssubsets.mpr hsub⟩
  · intro t ht t' ht' heq
    obtain ⟨hin, hwithin, -, -⟩ := (hd.mem_subSources_iff hs).mp (List.mem_toFinset.mp ht)
    obtain ⟨hin', hwithin', -, -⟩ := (hd.mem_subSources_iff hs).mp (List.mem_toFinset.mp ht')
    refine Source.toFinset_injective ?_
    rw [← betweenPart_union_withinPart hin, ← betweenPart_union_withinPart hin', heq,
      hwithin, hwithin']
  · intro B hB
    obtain ⟨hne, hB⟩ := mem_erase.mp hB
    have hsub := mem_ssubsets.mp hB
    obtain ⟨t, hset, hbetween, hwithin⟩ := hd.exists_source (hsub.1.trans inter_subset_right)
      (inter_subset_right : d.withinPart s ⊆ d.withinFactors.toFinset)
    refine ⟨t, List.mem_toFinset.mpr ((hd.mem_subSources_iff hs).mpr ⟨?_, hwithin, ?_, ?_⟩),
      hbetween⟩
    · rw [hset, ← Coding.union_factors]
      exact union_subset_union (hsub.1.trans inter_subset_right) inter_subset_right
    · rwa [hbetween]
    · rwa [hbetween]

/-- A sum over the sources of some of the factors is one over the non-empty sets of these
factors. -/
theorem sum_filter_all {A : Finset ℕ} (hA : A ⊆ range d.factorCount) {p : Source → Bool}
    (hp : ∀ s ∈ Source.all d.factorCount, p s = true ↔ s.toFinset ⊆ A) (φ : Finset ℕ → ℝ) :
    (((Source.all d.factorCount).filter p).map fun s => φ s.toFinset).sum =
      ∑ S ∈ A.powerset.erase ∅, φ S := by
  have hnodup := (Source.nodup_all (hd.factorCount_le.trans (by decide : 16 ≤ 30))).filter p
  rw [← List.sum_toFinset _ hnodup]
  refine sum_bij (fun s _ => s.toFinset) ?_ (fun _ _ _ _ heq => Source.toFinset_injective heq) ?_
    fun _ _ => rfl
  · intro s hs
    obtain ⟨hall, hps⟩ := List.mem_filter.mp (List.mem_toFinset.mp hs)
    exact mem_erase.mpr ⟨(hd.mem_all_iff.mp hall).2.ne_empty, mem_powerset.mpr ((hp s hall).mp hps)⟩
  · intro S hS
    obtain ⟨hne, hS⟩ := mem_erase.mp hS
    have hsub := mem_powerset.mp hS
    obtain ⟨s, rfl⟩ := Source.exists_toFinset_eq (hd.factorCount_le.trans (by decide : 16 ≤ 31))
      (hsub.trans hA)
    have hall := hd.mem_all_iff.mpr ⟨hsub.trans hA, nonempty_iff_ne_empty.mpr hne⟩
    exact ⟨s, List.mem_toFinset.mpr (List.mem_filter.mpr ⟨hall, (hp s hall).mpr hsub⟩), rfl⟩

/-- A sum over all sources, by their two parts.  The pair of two empty sets is not a source. -/
theorem sum_all (φ : Finset ℕ → Finset ℕ → ℝ) :
    ((Source.all d.factorCount).map fun s => φ (d.betweenPart s) (d.withinPart s)).sum + φ ∅ ∅ =
      ∑ B ∈ d.betweenFactors.toFinset.powerset, ∑ T ∈ d.withinFactors.toFinset.powerset, φ B T := by
  have hnodup := Source.nodup_all (hd.factorCount_le.trans (by decide : 16 ≤ 30))
  have hempty : ((∅ : Finset ℕ), (∅ : Finset ℕ)) ∈
      d.betweenFactors.toFinset.powerset ×ˢ d.withinFactors.toFinset.powerset :=
    mem_product.mpr ⟨empty_mem_powerset _, empty_mem_powerset _⟩
  rw [← sum_product', ← add_sum_erase _ _ hempty, add_comm, ← List.sum_toFinset _ hnodup]
  refine congrArg (φ ∅ ∅ + ·)
    (sum_bij (fun s _ => (d.betweenPart s, d.withinPart s)) ?_ ?_ ?_ fun _ _ => rfl)
  · intro s hs
    obtain ⟨hsub, hne⟩ := hd.mem_all_iff.mp (List.mem_toFinset.mp hs)
    refine mem_erase.mpr ⟨fun heq => hne.ne_empty ?_, mem_product.mpr
      ⟨mem_powerset.mpr inter_subset_right, mem_powerset.mpr inter_subset_right⟩⟩
    obtain ⟨hbetween, hwithin⟩ := Prod.mk.inj heq
    rw [← betweenPart_union_withinPart hsub, hbetween, hwithin, union_empty]
  · intro s hs t ht heq
    obtain ⟨hbetween, hwithin⟩ := Prod.mk.inj heq
    refine Source.toFinset_injective ?_
    rw [← betweenPart_union_withinPart (hd.mem_all_iff.mp (List.mem_toFinset.mp hs)).1,
      ← betweenPart_union_withinPart (hd.mem_all_iff.mp (List.mem_toFinset.mp ht)).1, hbetween,
      hwithin]
  · rintro ⟨B, T⟩ hBT
    obtain ⟨hne, hBT⟩ := mem_erase.mp hBT
    obtain ⟨hB, hT⟩ := mem_product.mp hBT
    obtain ⟨s, hset, hbetween, hwithin⟩ :=
      hd.exists_source (mem_powerset.mp hB) (mem_powerset.mp hT)
    refine ⟨s, List.mem_toFinset.mpr (hd.mem_all_iff.mpr ⟨?_, ?_⟩), by rw [hbetween, hwithin]⟩
    · rw [hset, ← Coding.union_factors]
      exact union_subset_union (mem_powerset.mp hB) (mem_powerset.mp hT)
    · rw [nonempty_iff_ne_empty, hset]
      intro h
      obtain ⟨rfl, rfl⟩ := union_eq_empty.mp h
      exact hne rfl

end Accepted

end Design

end SplitPlot
