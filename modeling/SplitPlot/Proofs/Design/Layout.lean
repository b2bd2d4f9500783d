import Mathlib
import SplitPlot.Design.Classification
import SplitPlot.Proofs.Rows

/-!
# The layout of a factorial design

A table is the record of a factorial experiment when its factors fall into two groups: those that
vary between subjects only, and those that every subject runs through completely.  `Crossed` says
what that means, in terms of which rows there are.  It mentions no order of levels, no reference
level and no count of rows.

The classification looks at something much smaller.  It takes the rows in which every factor but
one stands at its first level, and asks whether a subject occurs there twice.  The content of this
file is that the small question has the right answer on every crossed table:

* `variesWithin_iff`: a subject occurs twice in the slice of a factor exactly when two rows of the
  slice differ in that factor and in nothing else;
* `Crossed.variesWithin_iff_varies`: on a crossed table that is the case exactly when some subject
  has rows at two levels of the factor, wherever in the table they are.

The second needs all of `Crossed`.  Some subject stands at the first level of every factor between
subjects, because every combination of their levels is populated; and that subject has been
observed at every level of the factor with the other factors within subjects at their first level,
because it has been observed everywhere.
-/

namespace SplitPlot

variable {K : Type}

/-! ## What a crossed table is -/

/-- Some row has the level `l` of factor `f`. -/
def Occurs (rows : List (Observation K)) (f : ℕ) (l : Level) : Prop :=
  ∃ r ∈ rows, r.levels[f]? = some l

/-- Some subject has rows at two different levels of factor `f`. -/
def Varies (rows : List (Observation K)) (f : ℕ) : Prop :=
  ∃ r ∈ rows, ∃ r' ∈ rows, r.subject = r'.subject ∧ r.levels[f]? ≠ r'.levels[f]?

/-- The factors `between` divide the subjects and the factors `within` are run through by each of
them. -/
structure Crossed (rows : List (Observation K)) (between within : Finset ℕ) : Prop where
  /-- A subject has the same level of a factor between subjects in all its rows. -/
  constant : ∀ f ∈ between, ¬ Varies rows f
  /-- Every combination of observed levels of the factors between subjects belongs to some
  subject. -/
  populated : ∀ g : ℕ → Level, (∀ f ∈ between, Occurs rows f (g f)) →
    ∃ r ∈ rows, ∀ f ∈ between, r.levels[f]? = some (g f)
  /-- Every subject has a row at every combination of observed levels of the factors within
  subjects. -/
  complete : ∀ r ∈ rows, ∀ g : ℕ → Level, (∀ f ∈ within, Occurs rows f (g f)) →
    ∃ r' ∈ rows, r'.subject = r.subject ∧ ∀ f ∈ within, r'.levels[f]? = some (g f)
  /-- A factor within subjects has at most ten levels. -/
  levels_le : ∀ f ∈ within, (rows.filterMap fun r => r.levels[f]?).toFinset.card ≤ 10

/-! ## Tables with the same keys -/

section Keys

variable {rows rows' : List (Observation K)}

/-- Every row has a counterpart with the same subject and the same levels. -/
def KeysWithin (rows rows' : List (Observation K)) : Prop :=
  ∀ r ∈ rows, ∃ r' ∈ rows', r'.subject = r.subject ∧ r'.levels = r.levels

theorem keysWithin_of_map_key_subset
    (h : ∀ key ∈ rows.map Observation.key, key ∈ rows'.map Observation.key) :
    KeysWithin rows rows' := by
  intro r hr
  obtain ⟨r', hr', hkey⟩ := List.mem_map.mp (h r.key (List.mem_map_of_mem hr))
  exact ⟨r', hr', List.cons_eq_cons.mp hkey⟩

theorem Occurs.mono (h : KeysWithin rows rows') {f : ℕ} {l : Level} (hl : Occurs rows f l) :
    Occurs rows' f l := by
  obtain ⟨r, hr, hrl⟩ := hl
  obtain ⟨r', hr', -, hlevels⟩ := h r hr
  exact ⟨r', hr', hlevels ▸ hrl⟩

theorem Varies.mono (h : KeysWithin rows rows') {f : ℕ} (hf : Varies rows f) : Varies rows' f := by
  obtain ⟨r, hr, q, hq, hsubject, hne⟩ := hf
  obtain ⟨r', hr', hrs, hrl⟩ := h r hr
  obtain ⟨q', hq', hqs, hql⟩ := h q hq
  refine ⟨r', hr', q', hq', ?_, ?_⟩
  · rw [hrs, hqs, hsubject]
  · rwa [hrl, hql]

/-- Whether a table is crossed depends on its keys only. -/
theorem Crossed.congr (h : KeysWithin rows rows') (h' : KeysWithin rows' rows)
    {between within : Finset ℕ} (hc : Crossed rows between within) :
    Crossed rows' between within where
  constant f hf hv := hc.constant f hf (hv.mono h')
  populated g hg := by
    obtain ⟨r, hr, hlevels⟩ := hc.populated g fun f hf => (hg f hf).mono h'
    obtain ⟨r', hr', -, heq⟩ := h r hr
    exact ⟨r', hr', fun f hf => heq ▸ hlevels f hf⟩
  complete r hr g hg := by
    obtain ⟨q, hq, hqs, -⟩ := h' r hr
    obtain ⟨p, hp, hps, hlevels⟩ := hc.complete q hq g fun f hf => (hg f hf).mono h'
    obtain ⟨p', hp', hps', heq⟩ := h p hp
    exact ⟨p', hp', by rw [hps', hps, hqs], fun f hf => heq ▸ hlevels f hf⟩
  levels_le f hf := by
    refine le_trans (Finset.card_le_card fun l hl => ?_) (hc.levels_le f hf)
    obtain ⟨r, hr, hrl⟩ := List.mem_filterMap.mp (List.mem_toFinset.mp hl)
    obtain ⟨r', hr', -, heq⟩ := h' r hr
    exact List.mem_toFinset.mpr (List.mem_filterMap.mpr ⟨r', hr', heq ▸ hrl⟩)

end Keys

/-! ## Levels of a column -/

section Columns

variable {rows : List (Observation K)}

theorem mem_columnLevels {f : ℕ} {l : Level} : l ∈ columnLevels rows f ↔ Occurs rows f l := by
  rw [columnLevels, mem_ascending, List.mem_filterMap]
  rfl

theorem nodup_columnLevels (f : ℕ) : (columnLevels rows f).Nodup := nodup_ascending _

theorem length_columnLevels (f : ℕ) :
    (columnLevels rows f).length = (rows.filterMap fun r => r.levels[f]?).toFinset.card := by
  rw [← List.toFinset_card_of_nodup (nodup_columnLevels f)]
  congr 1
  ext l
  rw [List.mem_toFinset, List.mem_toFinset, columnLevels, mem_ascending]

end Columns

/-! ## The slice that decides the kind of a factor -/

section Slice

variable {rows : List (Observation K)} {k : ℕ}

/-- The levels of all columns, as the classification passes them on. -/
abbrev allLevels (rows : List (Observation K)) (k : ℕ) : List (List Level) :=
  (List.range k).map (columnLevels rows)

/-- A row of the reference slice of `f` has every other factor at its first level. -/
theorem mem_referenceSlice {f : ℕ} {r : Observation K} (hlen : r.levels.length = k) :
    r ∈ referenceSlice rows (allLevels rows k) f ↔
      r ∈ rows ∧ ∀ g < k, g ≠ f → r.levels[g]? = (columnLevels rows g).head? := by
  rw [referenceSlice, List.mem_filter, List.all_eq_true]
  refine and_congr_right fun _ => ⟨fun h g hg hgf => ?_, ?_⟩
  · have hmem : ((r.levels[g], columnLevels rows g), g) ∈
        (r.levels.zip (allLevels rows k)).zipIdx := by
      rw [List.mem_zipIdx_iff_getElem?]
      simp [hg, hlen]
    rcases Bool.or_eq_true _ _ ▸ h _ hmem with heq | heq
    · exact absurd (beq_iff_eq.mp heq) hgf
    · rw [List.getElem?_eq_getElem (hlen ▸ hg)]
      exact (beq_iff_eq.mp heq).symm
  · rintro h ⟨⟨l, ls⟩, g⟩ hmem
    have hget : (r.levels.zip (allLevels rows k))[g]? = some (l, ls) :=
      List.mem_zipIdx_iff_getElem?.mp hmem
    obtain ⟨hl, hls⟩ := List.getElem?_zip_eq_some.mp hget
    rw [Bool.or_eq_true]
    by_cases hgf : g = f
    · exact Or.inl (beq_iff_eq.mpr hgf)
    · have hg : g < k := hlen ▸ (List.getElem?_eq_some_iff.mp hl).1
      rw [List.getElem?_map, List.getElem?_range hg, Option.map_some, Option.some_inj] at hls
      refine Or.inr (beq_iff_eq.mpr ?_)
      rw [← hl, h g hg hgf, ← hls]

/-- A subject occurs twice in the slice of a factor exactly when two rows of the slice have the
subject in common and differ at the factor. -/
theorem variesWithin_iff (hlen : ∀ r ∈ rows, r.levels.length = k)
    (hkeys : (rows.map Observation.key).Nodup) {f : ℕ} :
    variesWithin rows (allLevels rows k) f = true ↔
      ∃ r ∈ referenceSlice rows (allLevels rows k) f,
        ∃ r' ∈ referenceSlice rows (allLevels rows k) f,
          r.subject = r'.subject ∧ r.levels[f]? ≠ r'.levels[f]? := by
  have hslice : ∀ r ∈ referenceSlice rows (allLevels rows k) f, r ∈ rows ∧
      ∀ g < k, g ≠ f → r.levels[g]? = (columnLevels rows g).head? := fun r hr =>
    (mem_referenceSlice (hlen r (List.mem_of_mem_filter hr))).mp hr
  have hnodup : (referenceSlice rows (allLevels rows k) f).Nodup :=
    (List.Nodup.of_map _ hkeys).filter _
  simp only [variesWithin, decide_eq_true_eq]
  rw [← List.length_map (f := fun r : Observation K => r.subject), length_ascending_lt_iff,
    List.nodup_map_iff_inj_on hnodup]
  constructor
  · intro h
    push Not at h
    obtain ⟨r, hr, r', hr', hsubject, hne⟩ := h
    refine ⟨r, hr, r', hr', hsubject, fun heq => hne ?_⟩
    -- rows of the slice that agree at `f` as well have one key, and keys are not repeated
    obtain ⟨hmem, hfirst⟩ := hslice r hr
    obtain ⟨hmem', hfirst'⟩ := hslice r' hr'
    refine List.inj_on_of_nodup_map hkeys hmem hmem' ?_
    have hlevels : r.levels = r'.levels := by
      refine List.ext_getElem? fun g => ?_
      rcases lt_or_ge g k with hg | hg
      · by_cases hgf : g = f
        · rw [hgf, heq]
        · rw [hfirst g hg hgf, hfirst' g hg hgf]
      · rw [List.getElem?_eq_none (hlen r hmem ▸ hg), List.getElem?_eq_none (hlen r' hmem' ▸ hg)]
    rw [Observation.key, Observation.key, hsubject, hlevels]
  · rintro ⟨r, hr, r', hr', hsubject, hne⟩ hinj
    exact hne (by rw [hinj r hr r' hr' hsubject])

/-- A factor that varies in its slice varies. -/
theorem varies_of_variesWithin (hlen : ∀ r ∈ rows, r.levels.length = k)
    (hkeys : (rows.map Observation.key).Nodup) {f : ℕ}
    (h : variesWithin rows (allLevels rows k) f = true) : Varies rows f := by
  obtain ⟨r, hr, r', hr', hsubject, hne⟩ := (variesWithin_iff hlen hkeys).mp h
  exact ⟨r, List.mem_of_mem_filter hr, r', List.mem_of_mem_filter hr', hsubject, hne⟩

end Slice

/-! ## Crossed tables are classified rightly -/

namespace Crossed

variable {rows : List (Observation K)} {k : ℕ} {between within : Finset ℕ}

/-- The first level of a column. -/
def firstLevel (rows : List (Observation K)) (f : ℕ) : Level := (columnLevels rows f).headD default

theorem head?_columnLevels (hlen : ∀ r ∈ rows, r.levels.length = k) (hne : rows ≠ []) {f : ℕ}
    (hf : f < k) : (columnLevels rows f).head? = some (firstLevel rows f) := by
  obtain ⟨r, hr⟩ := List.exists_mem_of_ne_nil rows hne
  have hlt : f < r.levels.length := (hlen r hr).symm ▸ hf
  have hmem : r.levels[f] ∈ columnLevels rows f :=
    mem_columnLevels.mpr ⟨r, hr, List.getElem?_eq_getElem _⟩
  rcases hcol : columnLevels rows f with _ | ⟨l, ls⟩
  · rw [hcol] at hmem
    exact absurd hmem List.not_mem_nil
  · rw [firstLevel, hcol]
    rfl

theorem occurs_firstLevel (hlen : ∀ r ∈ rows, r.levels.length = k) (hne : rows ≠ []) {f : ℕ}
    (hf : f < k) : Occurs rows f (firstLevel rows f) :=
  mem_columnLevels.mp (List.mem_of_mem_head? (head?_columnLevels hlen hne hf))

/-- On a crossed table the reference slice of a factor shows whether the factor varies. -/
theorem variesWithin_iff_varies (hc : Crossed rows between within)
    (hcover : between ∪ within = Finset.range k) (hlen : ∀ r ∈ rows, r.levels.length = k)
    (hkeys : (rows.map Observation.key).Nodup) {f : ℕ} :
    variesWithin rows (allLevels rows k) f = true ↔ Varies rows f := by
  refine ⟨varies_of_variesWithin hlen hkeys, fun hv => (variesWithin_iff hlen hkeys).mpr ?_⟩
  have hlt : ∀ g, g ∈ between ∨ g ∈ within → g < k := fun g hg =>
    Finset.mem_range.mp (hcover ▸ Finset.mem_union.mpr hg)
  obtain ⟨r₁, hr₁, r₂, hr₂, hsubject, hdiff⟩ := id hv
  have hne : rows ≠ [] := List.ne_nil_of_mem hr₁
  have hf : f < k := by
    by_contra hge
    refine hdiff ?_
    rw [List.getElem?_eq_none (hlen r₁ hr₁ ▸ not_lt.mp hge),
      List.getElem?_eq_none (hlen r₂ hr₂ ▸ not_lt.mp hge)]
  have hfw : f ∈ within :=
    (Finset.mem_union.mp (hcover ▸ Finset.mem_range.mpr hf)).resolve_left fun hfb =>
      hc.constant f hfb hv
  -- a subject at the first level of every factor between subjects
  obtain ⟨r₀, hr₀, hfirst₀⟩ := hc.populated (firstLevel rows) fun g hg =>
    occurs_firstLevel hlen hne (hlt g (Or.inl hg))
  -- its row in the slice at any observed level of `f`
  have hrow : ∀ l, Occurs rows f l → ∃ r ∈ referenceSlice rows (allLevels rows k) f,
      r.subject = r₀.subject ∧ r.levels[f]? = some l := by
    intro l hl
    obtain ⟨r, hr, hrs, hlevels⟩ := hc.complete r₀ hr₀ (Function.update (firstLevel rows) f l)
      fun g hg => by
        by_cases hgf : g = f
        · rw [hgf, Function.update_self]
          exact hl
        · rw [Function.update_of_ne hgf]
          exact occurs_firstLevel hlen hne (hlt g (Or.inr hg))
    refine ⟨r, (mem_referenceSlice (hlen r hr)).mpr ⟨hr, fun g hg hgf => ?_⟩, hrs, ?_⟩
    · rw [head?_columnLevels hlen hne hg]
      rcases Finset.mem_union.mp (hcover ▸ Finset.mem_range.mpr hg) with hgb | hgw
      · rw [← hfirst₀ g hgb]
        exact not_not.mp fun hneq => hc.constant g hgb ⟨r, hr, r₀, hr₀, hrs, hneq⟩
      · rw [hlevels g hgw, Function.update_of_ne hgf]
    · rw [hlevels f hfw, Function.update_self]
  have hget : ∀ r ∈ rows, ∃ l, r.levels[f]? = some l := fun r hr =>
    ⟨_, List.getElem?_eq_getElem (hlen r hr ▸ hf)⟩
  obtain ⟨l₁, hl₁⟩ := hget r₁ hr₁
  obtain ⟨l₂, hl₂⟩ := hget r₂ hr₂
  obtain ⟨q₁, hq₁, hs₁, hql₁⟩ := hrow l₁ ⟨r₁, hr₁, hl₁⟩
  obtain ⟨q₂, hq₂, hs₂, hql₂⟩ := hrow l₂ ⟨r₂, hr₂, hl₂⟩
  refine ⟨q₁, hq₁, q₂, hq₂, hs₁.trans hs₂.symm, fun heq => hdiff ?_⟩
  rw [hl₁, hl₂, ← hql₁, ← hql₂, heq]

/-- A factor within subjects that no subject varies in has one level only. -/
theorem levels_eq_of_not_varies (hc : Crossed rows between within)
    (hlen : ∀ r ∈ rows, r.levels.length = k) (hlt : ∀ g ∈ within, g < k) {f : ℕ}
    (hf : f ∈ within) (hv : ¬ Varies rows f) {l : Level} (hl : Occurs rows f l)
    {r : Observation K} (hr : r ∈ rows) : r.levels[f]? = some l := by
  have hown : ∀ g ∈ within, Occurs rows g (r.levels.getD g default) := fun g hg => by
    have hg' : g < r.levels.length := hlen r hr ▸ hlt g hg
    exact ⟨r, hr, by rw [List.getD_eq_getElem _ _ hg', List.getElem?_eq_getElem hg']⟩
  obtain ⟨r', hr', hsubject, hlevels⟩ := hc.complete r hr
    (Function.update (fun g => r.levels.getD g default) f l) fun g hg => by
      by_cases hgf : g = f
      · rw [hgf, Function.update_self]
        exact hl
      · rw [Function.update_of_ne hgf]
        exact hown g hg
  have heq : r'.levels[f]? = some l := by rw [hlevels f hf, Function.update_self]
  rw [← heq]
  exact not_not.mp fun hne => hv ⟨r, hr, r', hr', hsubject.symm, hne⟩

open Classical in
/-- However the factors of a crossed table are split, the factors that vary can be taken for those
within subjects.  The two splits differ in factors with a single level only. -/
theorem varying (hc : Crossed rows between within) (hcover : between ∪ within = Finset.range k)
    (hlen : ∀ r ∈ rows, r.levels.length = k) :
    Crossed rows ((Finset.range k).filter fun f => ¬ Varies rows f)
      ((Finset.range k).filter fun f => Varies rows f) := by
  have hlt : ∀ g, g ∈ between ∨ g ∈ within → g < k := fun g hg =>
    Finset.mem_range.mp (hcover ▸ Finset.mem_union.mpr hg)
  have hwithin : ∀ f ∈ (Finset.range k).filter fun f => Varies rows f, f ∈ within := fun f hf =>
    (Finset.mem_union.mp (hcover ▸ (Finset.mem_filter.mp hf).1)).resolve_left fun hfb =>
      hc.constant f hfb (Finset.mem_filter.mp hf).2
  refine ⟨fun f hf => (Finset.mem_filter.mp hf).2, fun g hg => ?_, fun r hr g hg => ?_,
    fun f hf => hc.levels_le f (hwithin f hf)⟩
  · have hbetween : ∀ f ∈ between, Occurs rows f (g f) := fun f hf =>
      hg f (Finset.mem_filter.mpr ⟨Finset.mem_range.mpr (hlt f (Or.inl hf)), hc.constant f hf⟩)
    obtain ⟨r, hr, hlevels⟩ := hc.populated g hbetween
    refine ⟨r, hr, fun f hf => ?_⟩
    obtain ⟨hfk, hfv⟩ := Finset.mem_filter.mp hf
    rcases Finset.mem_union.mp (hcover ▸ hfk) with hfb | hfw
    · exact hlevels f hfb
    · exact hc.levels_eq_of_not_varies hlen (fun g hg => hlt g (Or.inr hg)) hfw hfv (hg f hf) hr
  · obtain ⟨r', hr', hsubject, hlevels⟩ := hc.complete r hr
      (fun f => if Varies rows f then g f else r.levels.getD f default) fun f hf => by
        have hfk : f < r.levels.length := hlen r hr ▸ hlt f (Or.inr hf)
        by_cases hfv : Varies rows f
        · simp only [if_pos hfv]
          exact hg f (Finset.mem_filter.mpr ⟨Finset.mem_range.mpr (hlt f (Or.inr hf)), hfv⟩)
        · simp only [if_neg hfv]
          exact ⟨r, hr, by rw [List.getD_eq_getElem _ _ hfk, List.getElem?_eq_getElem hfk]⟩
    refine ⟨r', hr', hsubject, fun f hf => ?_⟩
    rw [hlevels f (hwithin f hf), if_pos (Finset.mem_filter.mp hf).2]

end Crossed

end SplitPlot
