import Mathlib
import SplitPlot.Proofs.Relabelling.Runs

/-!
# Other names for subjects and levels

Subjects and levels are given other names, different ones for different ones.  The names are sorted,
as they are integers and texts, so a renaming puts them in another order: another subject comes
first, the cells are numbered otherwise, and another level of each factor stands in front.

For subjects and for the levels between subjects this is a matter of places only.  Every source
keeps its test and its error matrices, and its effect is found in the cells that show the new names
(`anova_rename_groups`).

The levels within subjects are weighted with polynomials in the order of their names, so their
variables do change.  The columns of contrasts span the same space in every order, and the two sets
of columns differ by an orthogonal matrix.  What is kept are the determinants and the traces of the
error matrices (`anova_rename_occasions`).  The determinants are the true ones: whether a matrix is
read as singular depends on its diagonal, and the diagonal changes.
-/

namespace SplitPlot

open Finset

/-! ## The renamed table -/

namespace ObservationTable

/-- The table with other names for the subjects and for the levels of each factor. -/
def rename (subject : Level → Level) (level : ℕ → Level → Level) (t : ObservationTable ℝ) :
    ObservationTable ℝ :=
  t.mapRows fun o => { o with subject := subject o.subject, levels := o.levels.mapIdx level }

variable {t : ObservationTable ℝ} {subject : Level → Level} {level : ℕ → Level → Level}

theorem Built.rename (ht : t.Built) (subject : Level → Level) (level : ℕ → Level → Level) :
    (t.rename subject level).Built :=
  ht.mapRows
    (g := fun o => { o with subject := subject o.subject, levels := o.levels.mapIdx level })
    fun _ => List.length_mapIdx

/-- A renamed table is a rewritten one if different names stay different. -/
def renamed (hsubject : Set.InjOn subject {s | ∃ r ∈ t.rows, r.subject = s})
    (hlevel : ∀ f, Set.InjOn (level f) {l | Occurs t.rows f l}) :
    Rewriting t (t.rename subject level) where
  row o := { o with subject := subject o.subject, levels := o.levels.mapIdx level }
  factor := 1
  subject := subject
  level := level
  scale := 1
  shift := 0
  rows_eq := rfl
  factorCount_eq := rfl
  factor_lt := Rewriting.one_apply_lt
  subject_row _ _ := rfl
  level_row _ _ _ := List.getElem?_mapIdx
  value_row r _ := by rw [one_mul, add_zero]
  subject_inj r hr q hq := hsubject.eq_iff ⟨r, hr, rfl⟩ ⟨q, hq, rfl⟩ |>.mp
  level_inj f _ _ hl hm := (hlevel f).eq_iff hl hm |>.mp

end ObservationTable

variable {t : ObservationTable ℝ} (ht : t.Built) {settings : Settings} {d : Design ℝ}
  (h : Design.ofTable t settings = .ok d)

include ht h

/-- Names are kept apart for all factors if they are for those of each kind. -/
theorem injOn_levels {level : ℕ → Level → Level}
    (hbetween : ∀ f ∈ d.betweenFactors, Set.InjOn (level f) {l | Occurs t.rows f l})
    (hwithin : ∀ f ∈ d.withinFactors, Set.InjOn (level f) {l | Occurs t.rows f l}) (f : ℕ) :
    Set.InjOn (level f) {l | Occurs t.rows f l} := by
  by_cases hf : f < t.factorCount
  · rw [← Design.factorCount_ofTable ht h] at hf
    cases hkind : (d.factor f).within with
    | false => exact hbetween f (Coding.mem_betweenFactors.mpr ⟨hf, hkind⟩)
    | true => exact hwithin f (Coding.mem_withinFactors.mpr ⟨hf, hkind⟩)
  · rintro l ⟨r, hr, hl⟩
    have hlength := (List.getElem?_eq_some_iff.mp hl).1
    exact absurd (ht.length_levels hr ▸ hlength) hf

omit ht h in
theorem injOn_of_forall_eq {level : Level → Level} {S : Set Level} (h : ∀ l ∈ S, level l = l) :
    Set.InjOn level S := (Set.injOn_id S).congr fun l hl => (h l hl).symm

omit ht h in
/-- Renames the level 0 of one factor so that its name comes last. -/
def lastLevel (g f : ℕ) : Level → Level :=
  if f = g then Equiv.swap (.int 0) (.text "last") else id

omit ht h in
theorem injective_lastLevel (g f : ℕ) : Function.Injective (lastLevel g f) := by
  rw [lastLevel]
  split
  · exact Equiv.injective _
  · exact Function.injective_id

/-! ## Other names within subjects -/

omit ht h in
/-- The result of a source under other names for the levels within subjects. -/
structure SourceResult.RenamedWithin (r r' : SourceResult ℝ) : Prop where
  source_eq : r'.source = r.source
  kind_eq : r'.kind = r.kind
  between : r.kind = .between → r'.test = r.test ∧ r'.effect.values = r.effect.values
  contrasts : r.kind ≠ .between → ∃ m m', r.matrices = some m ∧ r'.matrices = some m' ∧
    m'.full.det = m.full.det ∧ m'.restricted.det = m.restricted.det ∧
      m'.full.trace = m.full.trace ∧ m'.restricted.trace = m.restricted.trace

/-- **The names of the levels within subjects.**  If the levels of the factors within subjects of a
design are given other names, different ones for different ones, the table stays a design.  Sources
between subjects keep their tests and their effects; the other sources keep the determinants and the
traces of their error matrices, before any of these is read as singular. -/
theorem anova_rename_occasions {level : ℕ → Level → Level}
    (hbetween : ∀ f ∈ d.betweenFactors, ∀ l, Occurs t.rows f l → level f l = l)
    (hwithin : ∀ f ∈ d.withinFactors, Set.InjOn (level f) {l | Occurs t.rows f l}) :
    ∃ table table', anova t settings = .ok table ∧ anova (t.rename id level) settings = .ok table' ∧
      List.Forall₂ SourceResult.RenamedWithin table.results table'.results := by
  have ht' := ht.rename id level
  let w := ObservationTable.renamed (t := t) (Set.injOn_id _)
    (injOn_levels ht h (fun f hf => injOn_of_forall_eq (hbetween f hf)) hwithin)
  obtain ⟨d', h'⟩ : ∃ d', Design.ofTable _ settings = .ok d' := w.exists_ofTable ht ht' rfl rfl h
  have hd := Design.accepted_of_ofTable ht h
  have hd' := Design.accepted_of_ofTable ht' h'
  let r := w.relabelling ht ht' h h'
  refine ⟨_, _, anova_eq_ok ht h, anova_eq_ok ht' h',
    Design.forall₂_results r.factorCount_eq fun s hs => ⟨?_, ?_, fun hkind => ?_, fun hkind => ?_⟩⟩
  · rw [Design.source_resultOf, Design.source_resultOf]
  · rw [Design.kind_resultOf, Design.kind_resultOf, r.kindOf_eq_self hd hd' rfl]
  · rw [Design.kind_resultOf] at hkind
    have hall : ∀ f ∈ s.toFinset, ∀ i < d.levelCount f, r.level f i = i := fun f hf i hi => by
      have hlt := mem_range.mp ((hd.mem_all_iff.mp hs).1 hf)
      have hmem := hd.mem_betweenFactors_of_between hs hkind hf
      rw [Design.factorCount_ofTable ht h] at hlt
      exact w.level_relabelling ht ht' h h' hlt (hbetween f hmem) hi
    exact ⟨r.test_eq hd hd' (r.toFinset_eq_image rfl s) hs (fun f hf => hall f (mem_inter.mp hf).1)
      rfl rfl, r.effect_eq hd hd' rfl settings settings hs hall rfl⟩
  · rw [Design.kind_resultOf] at hkind
    exact r.det_trace_eq hd hd' (r.toFinset_eq_image rfl s) hs rfl hkind settings settings

omit ht h

/-- The first occasion gets a name that comes last. -/
theorem anova_rename_threeOccasions : threeOccasions.Built ∧
    ∃ d, Design.ofTable threeOccasions {} = .ok d ∧
      (∀ f ∈ d.betweenFactors, ∀ l, Occurs threeOccasions.rows f l → lastLevel 1 f l = l) ∧
      (∀ f ∈ d.withinFactors, Set.InjOn (lastLevel 1 f) {l | Occurs threeOccasions.rows f l}) ∧
      ∃ table table', anova threeOccasions {} = .ok table ∧
        anova (threeOccasions.rename id (lastLevel 1)) {} = .ok table' ∧ table.results.length = 3 ∧
          List.Forall₂ SourceResult.RenamedWithin table.results table'.results := by
  have hbetween : (Design.tableCoding threeOccasions {}).toDesign.betweenFactors = [0] := rfl
  have hkept : ∀ f ∈ (Design.tableCoding threeOccasions {}).toDesign.betweenFactors, ∀ l,
      Occurs threeOccasions.rows f l → lastLevel 1 f l = l := by
    rw [hbetween]
    rintro f hf l -
    rw [List.mem_singleton.mp hf]
    rfl
  have hinj : ∀ f ∈ (Design.tableCoding threeOccasions {}).toDesign.withinFactors,
      Set.InjOn (lastLevel 1 f) {l | Occurs threeOccasions.rows f l} :=
    fun f _ => (injective_lastLevel 1 f).injOn
  obtain ⟨table, table', htable, htable', hresults⟩ :=
    anova_rename_occasions built_threeOccasions ofTable_threeOccasions hkept hinj
  refine ⟨built_threeOccasions, _, ofTable_threeOccasions, hkept, hinj, table, table', htable,
    htable', ?_, hresults⟩
  rw [anova_eq_ok built_threeOccasions ofTable_threeOccasions] at htable
  cases htable
  rfl

/-! ## Other names between subjects -/

namespace Design.Relabelling

variable {d' : Design ℝ} (r : Relabelling d d') {s : Source} {x y : List ℕ}

/-- The cell of a source with the new levels of a cell.  Axes that are not the source's stay. -/
def moveCell (s : Source) (x : List ℕ) : List ℕ :=
  d.betweenFactors.map fun f =>
    if s.contains f then r.level f (levelAt d.betweenFactors x f) else levelAt d.betweenFactors x f

theorem levelAt_keptShape_lt (hx : x ∈ positions (keptShape (d.flags d.betweenFactors s))) {f : ℕ}
    (hf : f ∈ d.betweenFactors) :
    levelAt d.betweenFactors x f < if s.contains f then d.levelCount f else 1 := by
  rw [keptShape, Coding.flags, List.map_map] at hx
  exact levelAt_lt hx hf

theorem moveCell_mem (hx : x ∈ positions (keptShape (d.flags d.betweenFactors s))) :
    r.moveCell s x ∈ positions (keptShape (d.flags d.betweenFactors s)) := by
  have hlevel := fun f hf => levelAt_keptShape_lt hx (f := f) hf
  rw [keptShape, Coding.flags, List.map_map]
  refine map_mem_positions fun f hf => ?_
  show (if s.contains f then _ else _) < if s.contains f then _ else _
  have hlt := hlevel f hf
  split_ifs at hlt ⊢ with hcontains
  · exact r.level_lt f (Coding.mem_betweenFactors.mp hf).1 _ hlt
  · exact hlt

theorem moveCell_inj (hx : x ∈ positions (keptShape (d.flags d.betweenFactors s)))
    (hy : y ∈ positions (keptShape (d.flags d.betweenFactors s)))
    (h : r.moveCell s x = r.moveCell s y) : x = y := by
  have hlength : ∀ {z}, z ∈ positions (keptShape (d.flags d.betweenFactors s)) →
      z.length = d.betweenFactors.length := fun {z} hz => by
    rw [(mem_positions.mp hz).length_eq, keptShape, Coding.flags, List.length_map, List.length_map]
  have hnodup := nodup_betweenFactors d.toCoding
  rw [← map_levelAt hnodup (hlength hx), ← map_levelAt hnodup (hlength hy)]
  refine List.map_congr_left fun f hf => ?_
  have heq := List.map_inj_left.mp h f hf
  have hltx := levelAt_keptShape_lt hx hf
  have hlty := levelAt_keptShape_lt hy hf
  split_ifs at heq hltx hlty with hcontains
  · exact r.level_inj f (Coding.mem_betweenFactors.mp hf).1 _ hltx _ hlty heq
  · exact heq

/-- The effect at a cell is found in the cell with the new levels. -/
theorem get_effect_moveCell (hd : d.Accepted) (hd' : d'.Accepted) (hfactor : r.factor = 1)
    (hlevel : ∀ f ∈ d.withinPart s, ∀ i < d.levelCount f, r.level f i = i) (hscale : r.scale = 1)
    (settings : Settings) (hs : s ∈ Source.all d.factorCount) {j : ℕ}
    (h : InBounds (x ++ [j]) (d.resultOf settings s).effect.values.shape) :
    InBounds (r.moveCell s x ++ [j]) (d.resultOf settings s).effect.values.shape ∧
      (d'.resultOf settings s).effect.values.get (r.moveCell s x ++ [j]) =
        (d.resultOf settings s).effect.values.get (x ++ [j]) := by
  rw [hd.shape_effect settings] at h ⊢
  obtain ⟨hx, hj⟩ := inBounds_concat_iff.mp h
  have hx := mem_positions.mpr hx
  have hmove := r.moveCell_mem hx
  refine ⟨inBounds_concat (mem_positions.mp hmove) hj, ?_⟩
  rw [r.get_effect_eq hd hd' hfactor hlevel settings settings hs hx hmove hj fun f hf => ?_, hscale,
    one_mul]
  have hbetween := mem_betweenFactors_of_mem_betweenPart hf
  rw [moveCell, levelAt_map _ hbetween, if_pos]
  exact (hd.contains_iff (Coding.mem_betweenFactors.mp hbetween).1).mpr (mem_inter.mp hf).1

end Design.Relabelling

/-- The cell of a source that shows the new names of the levels of a cell: on the axis of a factor
of the source, the place of the new name among the new names. -/
def Design.renamedCell (d d' : Design ℝ) (level : ℕ → Level → Level) (s : Source) (x : List ℕ) :
    List ℕ :=
  d.betweenFactors.map fun f =>
    if s.contains f then
      newPlace (level f) (d.factor f).levels (d'.factor f).levels (levelAt d.betweenFactors x f)
    else levelAt d.betweenFactors x f

/-- The result of a source under other names for the subjects and the levels between subjects, where
the cells of the source are moved. -/
structure SourceResult.RenamedBetween (move : List ℕ → List ℕ) (r r' : SourceResult ℝ) : Prop where
  source_eq : r'.source = r.source
  kind_eq : r'.kind = r.kind
  test_eq : r'.test = r.test
  matrices_eq : r'.matrices = r.matrices
  shape_eq : r'.effect.values.shape = r.effect.values.shape
  effect_eq : ∀ x j, InBounds (x ++ [j]) r.effect.values.shape →
    InBounds (move x ++ [j]) r.effect.values.shape ∧
      r'.effect.values.get (move x ++ [j]) = r.effect.values.get (x ++ [j])
  move_inj : ∀ x y j, InBounds (x ++ [j]) r.effect.values.shape →
    InBounds (y ++ [j]) r.effect.values.shape → move x = move y → x = y

include ht h

/-- **The names of the subjects and of the groups.**  If the subjects of a design and the levels of
its factors between subjects are given other names, different ones for different ones, the table
stays a design.  Every source keeps its test and its error matrices, and its effect is the old one
with the levels at the places of their new names. -/
theorem anova_rename_groups {subject : Level → Level} {level : ℕ → Level → Level}
    (hsubject : Set.InjOn subject {s | ∃ r ∈ t.rows, r.subject = s})
    (hbetween : ∀ f ∈ d.betweenFactors, Set.InjOn (level f) {l | Occurs t.rows f l})
    (hwithin : ∀ f ∈ d.withinFactors, ∀ l, Occurs t.rows f l → level f l = l) :
    ∃ d' table table', Design.ofTable (t.rename subject level) settings = .ok d' ∧
      anova t settings = .ok table ∧ anova (t.rename subject level) settings = .ok table' ∧
      List.Forall₂ (fun r r' => SourceResult.RenamedBetween (d.renamedCell d' level r.source) r r')
        table.results table'.results := by
  have ht' := ht.rename subject level
  let w := ObservationTable.renamed hsubject
    (injOn_levels ht h hbetween (fun f hf => injOn_of_forall_eq (hwithin f hf)))
  obtain ⟨d', h'⟩ : ∃ d', Design.ofTable _ settings = .ok d' := w.exists_ofTable ht ht' rfl rfl h
  have hd := Design.accepted_of_ofTable ht h
  have hd' := Design.accepted_of_ofTable ht' h'
  let r := w.relabelling ht ht' h h'
  have hlevel : ∀ s, ∀ f ∈ d.withinPart s, ∀ i < d.levelCount f, r.level f i = i := by
    intro s f hf i hi
    have hlt := Design.lt_factorCount_of_mem_withinPart hf
    rw [Design.factorCount_ofTable ht h] at hlt
    exact w.level_relabelling ht ht' h h' hlt
      (hwithin f (List.mem_toFinset.mp (mem_inter.mp hf).2)) hi
  refine ⟨d', _, _, h', anova_eq_ok ht h, anova_eq_ok ht' h',
    Design.forall₂_results r.factorCount_eq fun s hs => ?_⟩
  rw [Design.source_resultOf]
  exact {
    source_eq := by rw [Design.source_resultOf, Design.source_resultOf]
    kind_eq := by rw [Design.kind_resultOf, Design.kind_resultOf, r.kindOf_eq_self hd hd' rfl]
    test_eq := r.test_eq hd hd' (r.toFinset_eq_image rfl s) hs (hlevel s) rfl rfl
    matrices_eq := r.matrices_eq hd hd' rfl (hlevel s) settings settings hs rfl
    shape_eq := r.shape_effect_eq hd hd' rfl (hlevel s) settings settings
    effect_eq := fun x j hx => r.get_effect_moveCell hd hd' rfl (hlevel s) rfl settings hs hx
    move_inj := fun x y j hx hy => by
      rw [hd.shape_effect settings] at hx hy
      exact r.moveCell_inj (mem_positions.mpr (inBounds_concat_iff.mp hx).1)
        (mem_positions.mpr (inBounds_concat_iff.mp hy).1) }

omit ht h

/-- The first group and the first subject get names that come last. -/
theorem anova_rename_groups_threeOccasions : threeOccasions.Built ∧
    ∃ d, Design.ofTable threeOccasions {} = .ok d ∧
      Set.InjOn (Equiv.swap (.int 1) (.text "last"))
        {s | ∃ r ∈ threeOccasions.rows, r.subject = s} ∧
      (∀ f ∈ d.betweenFactors, Set.InjOn (lastLevel 0 f) {l | Occurs threeOccasions.rows f l}) ∧
      (∀ f ∈ d.withinFactors, ∀ l, Occurs threeOccasions.rows f l → lastLevel 0 f l = l) ∧
      ∃ d' table table',
        Design.ofTable (threeOccasions.rename (Equiv.swap (.int 1) (.text "last"))
          (lastLevel 0)) {} = .ok d' ∧ anova threeOccasions {} = .ok table ∧
        anova (threeOccasions.rename (Equiv.swap (.int 1) (.text "last")) (lastLevel 0)) {} =
          .ok table' ∧ table.results.length = 3 ∧
        List.Forall₂
          (fun r r' => SourceResult.RenamedBetween (d.renamedCell d' (lastLevel 0) r.source) r r')
          table.results table'.results := by
  have hwithin : (Design.tableCoding threeOccasions {}).toDesign.withinFactors = [1] := rfl
  have hsubject := (Equiv.swap (Level.int 1) (Level.text "last")).injective.injOn
    (s := {s | ∃ r ∈ threeOccasions.rows, r.subject = s})
  have hinj : ∀ f ∈ (Design.tableCoding threeOccasions {}).toDesign.betweenFactors,
      Set.InjOn (lastLevel 0 f) {l | Occurs threeOccasions.rows f l} :=
    fun f _ => (injective_lastLevel 0 f).injOn
  have hkept : ∀ f ∈ (Design.tableCoding threeOccasions {}).toDesign.withinFactors, ∀ l,
      Occurs threeOccasions.rows f l → lastLevel 0 f l = l := by
    rw [hwithin]
    rintro f hf l -
    rw [List.mem_singleton.mp hf]
    rfl
  obtain ⟨d', table, table', hofTable', htable, htable', hresults⟩ :=
    anova_rename_groups built_threeOccasions ofTable_threeOccasions hsubject hinj hkept
  refine ⟨built_threeOccasions, _, ofTable_threeOccasions, hsubject, hinj, hkept, d', table, table',
    hofTable', htable, htable', ?_, hresults⟩
  rw [anova_eq_ok built_threeOccasions ofTable_threeOccasions] at htable
  cases htable
  rfl

end SplitPlot
