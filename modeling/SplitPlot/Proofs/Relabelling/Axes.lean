import Mathlib
import SplitPlot.Proofs.Decomposition.Alike

/-!
# Tables with renumbered axes and renamed levels

Two tables can hold the same numbers in different places: the factors are listed in another order,
and the levels of a factor are numbered in another way.  An `AxisMap` is such a correspondence
between two lists of factors, and `AxisMap.move` takes a position of the first table to the position
of the second.

Everything that is formed by adding up over positions is carried along, since a sum over all
positions does not care in which order they come (`sum_move`), and two positions agree on a set of
factors exactly when their images agree on the image of the set (`agree_move`).  So are then the
sums over the positions that agree with a given one, and with them the means of both kinds
(`lineKeep_mean_move`, `lineKeep_harmonicMean_move`).  No reduction is looked at axis by axis here.
-/

namespace SplitPlot

open Finset

/-- The subsets of the image of a set are the images of its subsets. -/
theorem sum_powerset_image {e : ℕ → ℕ} (he : e.Injective) (S : Finset ℕ) (φ : Finset ℕ → ℝ) :
    ∑ B ∈ (S.image e).powerset, φ B = ∑ B ∈ S.powerset, φ (B.image e) := by
  have hpowerset : (S.image e).powerset = S.powerset.image (Finset.image e) := by
    ext B
    rw [mem_powerset, subset_image_iff, mem_image]
    simp only [mem_powerset]
  rw [hpowerset, sum_image fun B _ C _ => (image_injective he).eq_iff.mp]

/-- A correspondence between the factors and levels of two lists of factors. -/
structure AxisMap (extent extent' : ℕ → ℕ) (factors factors' : List ℕ) where
  /-- The factor of the second list that a factor corresponds to. -/
  factor : Equiv.Perm ℕ
  /-- The level that a level of a factor corresponds to. -/
  level : ℕ → ℕ → ℕ
  nodup : factors.Nodup
  nodup' : factors'.Nodup
  mem_iff : ∀ f, factor f ∈ factors' ↔ f ∈ factors
  extent_eq : ∀ f ∈ factors, extent' (factor f) = extent f
  level_lt : ∀ f ∈ factors, ∀ i < extent f, level f i < extent f
  level_inj : ∀ f ∈ factors, ∀ i < extent f, ∀ j < extent f, level f i = level f j → i = j

namespace AxisMap

variable {extent extent' : ℕ → ℕ} {factors factors' : List ℕ}
  (m : AxisMap extent extent' factors factors')

/-- The position that a position corresponds to. -/
def move (x : List ℕ) : List ℕ :=
  factors'.map fun g => m.level (m.factor.symm g) (levelAt factors x (m.factor.symm g))

theorem symm_mem {g : ℕ} (hg : g ∈ factors') : m.factor.symm g ∈ factors :=
  (m.mem_iff _).mp (by rwa [Equiv.apply_symm_apply])

theorem extent_symm {g : ℕ} (hg : g ∈ factors') : extent' g = extent (m.factor.symm g) := by
  rw [← m.extent_eq _ (m.symm_mem hg), Equiv.apply_symm_apply]

theorem levelAt_move {f : ℕ} (hf : f ∈ factors) (x : List ℕ) :
    levelAt factors' (m.move x) (m.factor f) = m.level f (levelAt factors x f) := by
  rw [move, levelAt_map _ ((m.mem_iff f).mpr hf), Equiv.symm_apply_apply]

/-! ## Positions -/

theorem move_mem {x : List ℕ} (hx : x ∈ positions (factors.map extent)) :
    m.move x ∈ positions (factors'.map extent') := by
  refine map_mem_positions fun g hg => ?_
  rw [m.extent_symm hg]
  exact m.level_lt _ (m.symm_mem hg) _ (levelAt_lt hx (m.symm_mem hg))

theorem levelAt_eq_iff {x y : List ℕ} (hx : x ∈ positions (factors.map extent))
    (hy : y ∈ positions (factors.map extent)) {f : ℕ} (hf : f ∈ factors) :
    levelAt factors' (m.move x) (m.factor f) = levelAt factors' (m.move y) (m.factor f) ↔
      levelAt factors x f = levelAt factors y f := by
  rw [m.levelAt_move hf, m.levelAt_move hf]
  exact ⟨m.level_inj f hf _ (levelAt_lt hx hf) _ (levelAt_lt hy hf), congrArg (m.level f)⟩

theorem injOn_move : Set.InjOn m.move (positions (factors.map extent)) := by
  intro x hx y hy heq
  rw [← map_levelAt m.nodup (length_of_mem_positions hx),
    ← map_levelAt m.nodup (length_of_mem_positions hy)]
  refine List.map_congr_left fun f hf => (m.levelAt_eq_iff hx hy hf).mp ?_
  rw [heq]

/-- The second list holds the images of the factors of the first. -/
theorem map_perm : (factors.map m.factor).Perm factors' := by
  refine (List.perm_ext_iff_of_nodup (m.nodup.map m.factor.injective) m.nodup').mpr fun g => ?_
  rw [List.mem_map]
  constructor
  · rintro ⟨f, hf, rfl⟩
    exact (m.mem_iff f).mpr hf
  · intro hg
    exact ⟨_, m.symm_mem hg, m.factor.apply_symm_apply g⟩

theorem mem_image_factor {f : ℕ} {S : Finset ℕ} : m.factor f ∈ S.image m.factor ↔ f ∈ S :=
  m.factor.injective.mem_finset_image

end AxisMap

/-- The number of joined positions is the product of the extents of the other axes. -/
theorem joined_flagged (extent : ℕ → ℕ) (factors : List ℕ) (S : Finset ℕ) :
    joined (flagged extent factors S) = ((factors.filter (· ∉ S)).map extent).prod := by
  induction factors with
  | nil => rfl
  | cons f factors ih =>
    by_cases hf : f ∈ S
    · rw [flagged_cons_of_mem extent hf, joined_cons_true, ih,
        List.filter_cons_of_neg (by simpa using hf)]
    · rw [flagged_cons_of_notMem extent hf, joined_cons_false, ih,
        List.filter_cons_of_pos (by simpa using hf), List.map_cons, List.prod_cons]

namespace AxisMap

variable {extent extent' : ℕ → ℕ} {factors factors' : List ℕ}
  (m : AxisMap extent extent' factors factors')

theorem joined_move (S : Finset ℕ) : joined (flagged extent' factors' (S.image m.factor)) =
    joined (flagged extent factors S) := by
  have hfilter : (factors.map m.factor).filter (· ∉ S.image m.factor) =
      (factors.filter (· ∉ S)).map m.factor := by
    rw [List.filter_map]
    refine congrArg _ (List.filter_congr fun f _ => ?_)
    rw [Function.comp_apply, decide_eq_decide, m.mem_image_factor]
  rw [joined_flagged, joined_flagged, ← ((m.map_perm.filter _).map extent').prod_eq, hfilter,
    List.map_map]
  exact congrArg List.prod
    (List.map_congr_left fun f hf => m.extent_eq f (List.mem_of_mem_filter hf))

include m in
theorem cellCount_move : cellCount (factors'.map extent') = cellCount (factors.map extent) := by
  rw [← joined_flagged_empty, ← joined_flagged_empty, ← m.joined_move, image_empty]

/-- Every position of the second table is the image of one of the first. -/
theorem image_move : (positions (factors.map extent)).image m.move =
    positions (factors'.map extent') := by
  refine eq_of_subset_of_card_le (image_subset_iff.mpr fun x hx => m.move_mem hx) ?_
  rw [card_image_of_injOn m.injOn_move, card_positions, card_positions, m.cellCount_move]

theorem exists_move_eq {y : List ℕ} (hy : y ∈ positions (factors'.map extent')) :
    ∃ x ∈ positions (factors.map extent), m.move x = y := by
  rw [← m.image_move] at hy
  exact mem_image.mp hy

/-- A sum over the positions of the second table is one over those of the first. -/
theorem sum_move {M : Type} [AddCommMonoid M] (g : List ℕ → M) :
    ∑ y ∈ positions (factors'.map extent'), g y =
      ∑ x ∈ positions (factors.map extent), g (m.move x) := by
  rw [← m.image_move, sum_image m.injOn_move]

/-! ## Means -/

/-- Agreement on a set of factors is agreement of the images on its image. -/
theorem agree_move {S : Finset ℕ} {x y : List ℕ} (hx : x ∈ positions (factors.map extent))
    (hy : y ∈ positions (factors.map extent)) :
    Agree factors' (S.image m.factor) (m.move x) (m.move y) ↔ Agree factors S x y := by
  constructor
  · intro h f hf hS
    exact (m.levelAt_eq_iff hx hy hf).mp (h _ ((m.mem_iff f).mpr hf) (m.mem_image_factor.mpr hS))
  · intro h g hg hS
    obtain ⟨f, hfS, rfl⟩ := mem_image.mp hS
    have hf := (m.mem_iff f).mp hg
    exact (m.levelAt_eq_iff hx hy hf).mpr (h f hf hfS)

theorem sum_alike_move {S : Finset ℕ} {x : List ℕ} (hx : x ∈ positions (factors.map extent))
    (g : List ℕ → ℝ) : ∑ y ∈ alike extent' factors' (S.image m.factor) (m.move x), g y =
      ∑ y ∈ alike extent factors S x, g (m.move y) := by
  rw [alike, alike, sum_filter, sum_filter, m.sum_move]
  exact sum_congr rfl fun y hy => if_congr (m.agree_move hx hy) rfl rfl

/-- Means over the factors outside a set are carried along. -/
theorem lineKeep_mean_move {S : Finset ℕ} {x : List ℕ} (hx : x ∈ positions (factors.map extent))
    (g : List ℕ → ℝ) :
    lineKeep mean (flagged extent' factors' (S.image m.factor)) g (m.move x) =
      lineKeep mean (flagged extent factors S) (fun y => g (m.move y)) x := by
  rw [lineKeep_eq_div m.nodup' (m.move_mem hx), lineKeep_eq_div m.nodup hx, m.sum_alike_move hx,
    m.joined_move]

/-- And so are harmonic means. -/
theorem lineKeep_harmonicMean_move {S : Finset ℕ} {x : List ℕ}
    (hx : x ∈ positions (factors.map extent)) {g : List ℕ → ℝ}
    (hg : ∀ y ∈ positions (factors'.map extent'), 0 < g y) :
    lineKeep harmonicMean (flagged extent' factors' (S.image m.factor)) g (m.move x) =
      lineKeep harmonicMean (flagged extent factors S) (fun y => g (m.move y)) x := by
  refine inv_injective ?_
  rw [inv_lineKeep_harmonicMean (m.move_mem hx) hg, m.lineKeep_mean_move hx,
    inv_lineKeep_harmonicMean hx fun y hy => hg _ (m.move_mem hy)]

/-! ## Maps that leave something in place -/

/-- Where no factor is renumbered and no level renamed, nothing moves. -/
theorem move_eq_self (hfactors : factors' = factors) (hfactor : m.factor = 1)
    (hlevel : ∀ f ∈ factors, ∀ i < extent f, m.level f i = i) {x : List ℕ}
    (hx : x ∈ positions (factors.map extent)) : m.move x = x := by
  conv_rhs => rw [← map_levelAt m.nodup (length_of_mem_positions hx), ← hfactors]
  refine List.map_congr_left fun g hg => ?_
  have hsymm : m.factor.symm g = g := by
    rw [hfactor]
    rfl
  have hg : g ∈ factors := hfactors ▸ hg
  rw [hsymm, hlevel g hg _ (levelAt_lt hx hg), hfactors]

end AxisMap

end SplitPlot
