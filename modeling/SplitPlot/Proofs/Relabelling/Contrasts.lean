import Mathlib
import SplitPlot.Proofs.Decomposition.Basis
import SplitPlot.Proofs.Decomposition.Margins
import SplitPlot.Proofs.Relabelling.Axes

/-!
# Contrasts on relabelled axes

The contrasts of a factor follow the order of its levels.  So when levels are renamed, the
combinations of contrasts of the second table are not those of the first; but they span the same
functions, namely those that belong to the factors (`AxisMap.pureLine_move`).  Each is a linear
combination of those of the first table (`contrastAt_move_eq_sum`), and because both families are
orthogonal and of one length, the coefficients form an orthogonal matrix (`sum_change_mul_change`).

Where the levels keep their order, and only the factors are listed in another one, the combinations
themselves are the same, in another order: a combination is a product with one contrast for each
factor (`contrastAt_eq_prod`), and a product does not care about order (`contrastAt_move_kept`).
-/

namespace SplitPlot

open Finset

variable {extent extent' : ℕ → ℕ} {factors factors' : List ℕ}

/-! ## A combination as a product -/

theorem droppedShape_flagged (extent : ℕ → ℕ) (factors : List ℕ) (S : Finset ℕ) :
    droppedShape (flagged extent factors S) = (factors.filter (· ∈ S)).map extent := by
  induction factors with
  | nil => rfl
  | cons f factors ih =>
    by_cases hf : f ∈ S
    · rw [flagged_cons_of_mem extent hf, List.filter_cons_of_pos (by simpa using hf), List.map_cons,
        ← ih]
      rfl
    · rw [flagged_cons_of_notMem extent hf, List.filter_cons_of_neg (by simpa using hf), ← ih]
      rfl

/-- The combinations of contrasts of a set of factors are positions along these factors. -/
theorem combinations_flagged (extent : ℕ → ℕ) (factors : List ℕ) (S : Finset ℕ) :
    combinations (flagged extent factors S) =
      positions ((factors.filter (· ∈ S)).map (extent · - 1)) := by
  rw [combinations, droppedShape_flagged, contrastShape, List.map_map]
  rfl

/-- A combination of contrasts is a product of one contrast for each factor. -/
theorem contrastAt_eq_prod (hnodup : factors.Nodup) {S : Finset ℕ} {b z : List ℕ}
    (hb : b ∈ combinations (flagged extent factors S)) (hz : z ∈ positions (factors.map extent)) :
    contrastAt (flagged extent factors S) b z =
      ((factors.filter (· ∈ S)).map fun f => unitContrast (extent f)
        (levelAt (factors.filter (· ∈ S)) b f) (levelAt factors z f)).prod := by
  induction factors generalizing b z with
  | nil =>
    rw [flagged_nil, combinations_nil, mem_singleton] at hb
    rw [List.map_nil, positions_nil, mem_singleton] at hz
    rw [hb, hz]
    exact contrastAt_nil
  | cons f factors ih =>
    obtain ⟨hf, hnodup⟩ := List.nodup_cons.mp hnodup
    have hne : ∀ e ∈ factors.filter (· ∈ S), e ≠ f := fun e he h =>
      hf (h ▸ List.mem_of_mem_filter he)
    match z, mem_positions.mp hz with
    | i :: z, ⟨hi, hz⟩ =>
      have hz := mem_positions.mpr hz
      by_cases hS : f ∈ S
      · rw [flagged_cons_of_mem extent hS] at hb ⊢
        match b, mem_positions.mp hb with
        | c :: b, ⟨hc, hb⟩ =>
          rw [contrastAt_cons_true, ih hnodup (mem_positions.mpr hb) hz,
            List.filter_cons_of_pos (by simpa using hS), List.map_cons, List.prod_cons,
            levelAt_cons_self, levelAt_cons_self]
          refine congrArg _ (congrArg List.prod (List.map_congr_left fun e he => ?_))
          rw [levelAt_cons_of_ne (hne e he), levelAt_cons_of_ne (hne e he)]
      · rw [flagged_cons_of_notMem extent hS] at hb ⊢
        rw [contrastAt_cons_false, ih hnodup hb hz, List.filter_cons_of_neg (by simpa using hS)]
        refine congrArg List.prod (List.map_congr_left fun e he => ?_)
        rw [levelAt_cons_of_ne (hne e he)]

/-- Of no factors there is one combination, and it is constant. -/
theorem contrastAt_flagged_empty (hnodup : factors.Nodup) {b z : List ℕ}
    (hb : b ∈ combinations (flagged extent factors ∅)) (hz : z ∈ positions (factors.map extent)) :
    contrastAt (flagged extent factors ∅) b z = 1 := by
  have hfilter : factors.filter (· ∈ (∅ : Finset ℕ)) = [] :=
    List.filter_eq_nil_iff.mpr fun f _ => by simp
  rw [contrastAt_eq_prod hnodup hb hz, hfilter, List.map_nil, List.prod_nil]

section Bounds

variable (hextent : ∀ f ∈ factors, 0 < extent f ∧ extent f ≤ maxWithinLevels)

include hextent

theorem bounds_flagged (S : Finset ℕ) :
    ∀ a ∈ flagged extent factors S, 0 < a.1 ∧ a.1 ≤ maxWithinLevels := by
  intro a ha
  obtain ⟨f, hf, rfl⟩ := List.mem_map.mp ha
  exact hextent f hf

theorem joined_flagged_ne_zero (S : Finset ℕ) : (joined (flagged extent factors S) : ℝ) ≠ 0 :=
  (Nat.cast_pos.mpr (joined_pos fun a ha => (bounds_flagged hextent S a ha).1)).ne'

end Bounds

namespace AxisMap

variable (m : AxisMap extent extent' factors factors') {S : Finset ℕ}

theorem image_subset (hS : S ⊆ factors.toFinset) : S.image m.factor ⊆ factors'.toFinset := by
  refine image_subset_iff.mpr fun f hf => List.mem_toFinset.mpr ((m.mem_iff f).mpr ?_)
  exact List.mem_toFinset.mp (hS hf)

/-- What belongs to a set of factors is carried along. -/
theorem pureLine_move (hS : S ⊆ factors.toFinset) {x : List ℕ}
    (hx : x ∈ positions (factors.map extent)) (g : List ℕ → ℝ) :
    pureLine (flagged extent' factors' (S.image m.factor)) g (m.move x) =
      pureLine (flagged extent factors S) (fun y => g (m.move y)) x := by
  rw [pureLine_eq_sum_lineKeep m.nodup' (m.image_subset hS) g
      (length_of_mem_positions (m.move_mem hx)),
    pureLine_eq_sum_lineKeep m.nodup hS _ (length_of_mem_positions hx),
    sum_powerset_image m.factor.injective]
  refine sum_congr rfl fun B _ => ?_
  rw [m.lineKeep_mean_move hx, card_image_of_injective _ m.factor.injective,
    card_image_of_injective _ m.factor.injective]

/-! ## Combinations of renamed levels -/

/-- The coefficient of a combination of the first table in one of the second. -/
noncomputable def change (S : Finset ℕ) (b' b : List ℕ) : ℝ :=
  (∑ z ∈ positions (factors.map extent), contrastAt (flagged extent factors S) b z *
    contrastAt (flagged extent' factors' (S.image m.factor)) b' (m.move z)) /
      joined (flagged extent factors S)

section Renamed

variable (hextent : ∀ f ∈ factors, 0 < extent f ∧ extent f ≤ maxWithinLevels)

include hextent

include m in
theorem bounds_flagged_move : ∀ a ∈ flagged extent' factors' (S.image m.factor),
    0 < a.1 ∧ a.1 ≤ maxWithinLevels := by
  refine bounds_flagged (fun g hg => ?_) _
  rw [m.extent_symm hg]
  exact hextent _ (m.symm_mem hg)

variable (hS : S ⊆ factors.toFinset)

include hS

/-- A combination of the second table is a linear combination of those of the first. -/
theorem contrastAt_move_eq_sum {b' z : List ℕ}
    (hb' : b' ∈ combinations (flagged extent' factors' (S.image m.factor)))
    (hz : z ∈ positions (factors.map extent)) :
    contrastAt (flagged extent' factors' (S.image m.factor)) b' (m.move z) =
      ∑ b ∈ combinations (flagged extent factors S),
        m.change S b' b * contrastAt (flagged extent factors S) b z := by
  have hmap := map_fst_flagged extent factors S
  have hmap' := map_fst_flagged extent' factors' (S.image m.factor)
  have hjoined := joined_flagged_ne_zero hextent S
  have hbelongs : pureLine (flagged extent factors S) (fun y =>
      contrastAt (flagged extent' factors' (S.image m.factor)) b' (m.move y)) z =
        contrastAt (flagged extent' factors' (S.image m.factor)) b' (m.move z) := by
    rw [← m.pureLine_move hS hz]
    exact pureLine_contrastAt (m.bounds_flagged_move hextent) hb' (hmap' ▸ m.move_mem hz)
  have hspan := sum_contrastAt_mul_score (bounds_flagged hextent S)
    (fun y => contrastAt (flagged extent' factors' (S.image m.factor)) b' (m.move y)) (hmap ▸ hz)
  simp only [contrastScore, hbelongs, hmap] at hspan
  refine mul_left_cancel₀ hjoined (hspan.symm.trans ?_)
  rw [mul_sum]
  exact sum_congr rfl fun b _ => by
    rw [change, ← mul_assoc, mul_div_cancel₀ _ hjoined, mul_comm]

/-- The coefficients form an orthogonal matrix. -/
theorem sum_change_mul_change {b' e' : List ℕ}
    (hb' : b' ∈ combinations (flagged extent' factors' (S.image m.factor)))
    (he' : e' ∈ combinations (flagged extent' factors' (S.image m.factor))) :
    ∑ b ∈ combinations (flagged extent factors S), m.change S b' b * m.change S e' b =
      if b' = e' then 1 else 0 := by
  have hjoined := joined_flagged_ne_zero hextent S
  have hmap' := map_fst_flagged extent' factors' (S.image m.factor)
  have horth := sum_contrastAt_mul_contrastAt (m.bounds_flagged_move hextent) hb' he'
  rw [hmap', m.sum_move, m.joined_move] at horth
  calc ∑ b ∈ combinations (flagged extent factors S), m.change S b' b * m.change S e' b
      = (∑ z ∈ positions (factors.map extent), (∑ b ∈ combinations (flagged extent factors S),
          m.change S b' b * contrastAt (flagged extent factors S) b z) *
            contrastAt (flagged extent' factors' (S.image m.factor)) e' (m.move z)) /
          joined (flagged extent factors S) := by
        simp only [sum_mul]
        rw [sum_comm, sum_div]
        refine sum_congr rfl fun b _ => ?_
        show m.change S b' b * (_ / _) = _
        rw [mul_div_assoc', mul_sum]
        simp only [mul_assoc]
    _ = (if b' = e' then (joined (flagged extent factors S) : ℝ) else 0) /
          joined (flagged extent factors S) := by
        rw [← horth]
        refine congrArg (· / _) (sum_congr rfl fun z hz => ?_)
        rw [m.contrastAt_move_eq_sum hextent hS hb' hz]
    _ = if b' = e' then 1 else 0 := by
        rw [ite_div, div_self hjoined, zero_div]

end Renamed

/-! ## Combinations of levels in order -/

/-- The correspondence of the combinations of contrasts of a set of factors. -/
def kept (S : Finset ℕ) : AxisMap (extent · - 1) (extent' · - 1) (factors.filter (· ∈ S))
    (factors'.filter (· ∈ S.image m.factor)) where
  factor := m.factor
  level _ i := i
  nodup := m.nodup.filter _
  nodup' := m.nodup'.filter _
  mem_iff f := by
    rw [List.mem_filter, List.mem_filter, m.mem_iff, decide_eq_true_eq, decide_eq_true_eq,
      m.mem_image_factor]
  extent_eq f hf := congrArg (· - 1) (m.extent_eq f (List.mem_of_mem_filter hf))
  level_lt _ _ _ hi := hi
  level_inj _ _ _ _ _ _ h := h

section InOrder

variable (hlevel : ∀ f ∈ factors, f ∈ S → ∀ i < extent f, m.level f i = i)

include hlevel

/-- A combination takes the same contrast from every factor that it took before. -/
theorem contrastAt_move_kept {b z : List ℕ} (hb : b ∈ combinations (flagged extent factors S))
    (hz : z ∈ positions (factors.map extent)) :
    contrastAt (flagged extent' factors' (S.image m.factor)) ((m.kept S).move b) (m.move z) =
      contrastAt (flagged extent factors S) b z := by
  have hbkept := hb
  rw [combinations_flagged] at hbkept
  have hb' : (m.kept S).move b ∈ combinations (flagged extent' factors' (S.image m.factor)) := by
    rw [combinations_flagged]
    exact (m.kept S).move_mem hbkept
  rw [contrastAt_eq_prod m.nodup' hb' (m.move_mem hz), contrastAt_eq_prod m.nodup hb hz,
    ← ((m.kept S).map_perm.map _).prod_eq, List.map_map]
  refine congrArg List.prod (List.map_congr_left fun f hf => ?_)
  obtain ⟨hmem, hS⟩ := List.mem_filter.mp hf
  have hextent : extent' (m.factor f) = extent f := m.extent_eq f hmem
  have hcontrast :
      levelAt (factors'.filter (· ∈ S.image m.factor)) ((m.kept S).move b) (m.factor f) =
        levelAt (factors.filter (· ∈ S)) b f :=
    (m.kept S).levelAt_move hf b
  show unitContrast (extent' (m.factor f)) (levelAt _ _ (m.factor f)) (levelAt _ _ (m.factor f)) = _
  rw [hextent, hcontrast, m.levelAt_move hmem,
    hlevel f hmem (of_decide_eq_true hS) _ (levelAt_lt hz hmem)]

/-- So the coefficients are those of a permutation. -/
theorem change_kept (hextent : ∀ f ∈ factors, 0 < extent f ∧ extent f ≤ maxWithinLevels)
    {b e : List ℕ} (hb : b ∈ combinations (flagged extent factors S))
    (he : e ∈ combinations (flagged extent factors S)) :
    m.change S ((m.kept S).move b) e = if b = e then 1 else 0 := by
  have hjoined := joined_flagged_ne_zero hextent S
  have hmap := map_fst_flagged extent factors S
  have horth := sum_contrastAt_mul_contrastAt (bounds_flagged hextent S) he hb
  rw [hmap] at horth
  rw [change, sum_congr rfl fun z hz => by rw [m.contrastAt_move_kept hlevel hb hz], horth, ite_div,
    div_self hjoined, zero_div, if_congr eq_comm rfl rfl]

end InOrder

end AxisMap

end SplitPlot
