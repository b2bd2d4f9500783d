import Mathlib
import SplitPlot.Proofs.PureEffect

/-!
# Looking effects up

The evaluation of a source looks effects up in the memo, and that is all it has to do with the memo.
To say what is looked up, evaluation is read with the look-up as a parameter
(`Analysis.evaluateWith`).

* With the look-up in the memo it is evaluation itself (`Analysis.evaluateWith_require`).
* With `EffectMemo.note` the memo stands in a state, and so does the list of the sources asked for
  (`Analysis.evaluateNoting`).

Effects are taken away from a table one after another.  If the stored ones can be taken away, then
this ends at the first that is missing (`subtractAllWith_require_eq_error_iff`); the effects looked
up are those up to there, and the memo is left as it is (`after_subtractAllWith_note`).  Both are
inductions on the list of sources, with the table as it is by then.
-/

namespace SplitPlot

variable {K : Type}

/-! ## Up to the first that is missing -/

namespace EffectMemo

/-- The members of a list of sources that are looked up if the search ends at the first without a
stored effect. -/
def lookedUp (memo : EffectMemo K) : List Source → List Source
  | [] => []
  | u :: l => u :: if memo.contains u then memo.lookedUp l else []

variable {memo : EffectMemo K} {u : Source} {l : List Source}

theorem contains_eq_false_iff : memo.contains u = false ↔ memo.get? u = none := by
  rw [contains, Option.isSome_eq_false_iff, Option.isNone_iff_eq_none]

theorem lookedUp_sublist : ∀ l : List Source, (memo.lookedUp l).Sublist l
  | [] => List.Sublist.refl []
  | u :: l => by
    rw [lookedUp]
    split
    · exact (lookedUp_sublist l).cons_cons u
    · exact (List.nil_sublist l).cons_cons u

/-- In an ascending list a source is looked up when all smaller ones are stored. -/
theorem mem_lookedUp_iff (hl : l.Pairwise fun u v => u.bits.toNat < v.bits.toNat) :
    u ∈ memo.lookedUp l ↔
      u ∈ l ∧ ∀ v ∈ l, v.bits.toNat < u.bits.toNat → memo.contains v = true := by
  induction l with
  | nil => simp [lookedUp]
  | cons w l ih =>
    obtain ⟨hw, hl⟩ := List.pairwise_cons.mp hl
    have ih := ih hl
    rw [lookedUp, List.mem_cons, List.mem_cons, List.forall_mem_cons]
    constructor
    · rintro (rfl | hu)
      · exact ⟨Or.inl rfl, fun hlt => absurd hlt (lt_irrefl _), fun v hv hlt =>
          absurd (hw v hv) (not_lt.mpr hlt.le)⟩
      · split at hu
        · next hstored =>
          obtain ⟨hu, hsmaller⟩ := ih.mp hu
          exact ⟨Or.inr hu, fun _ => hstored, hsmaller⟩
        · exact absurd hu List.not_mem_nil
    · rintro ⟨rfl | hu, hfirst, hsmaller⟩
      · exact Or.inl rfl
      · rw [if_pos (hfirst (hw u hu))]
        exact Or.inr (ih.mpr ⟨hu, hsmaller⟩)

/-- If an effect is missing, then the search comes to one that is. -/
theorem exists_missing_lookedUp_iff :
    (∃ u ∈ memo.lookedUp l, memo.get? u = none) ↔ ∃ u ∈ l, memo.get? u = none := by
  constructor
  · rintro ⟨u, hu, hmissing⟩
    exact ⟨u, (lookedUp_sublist l).subset hu, hmissing⟩
  · induction l with
    | nil =>
      rintro ⟨u, hu, -⟩
      exact absurd hu List.not_mem_nil
    | cons w l ih =>
      rintro ⟨u, hu, hmissing⟩
      rw [lookedUp]
      cases hw : memo.contains w with
      | false => exact ⟨w, List.mem_cons_self, contains_eq_false_iff.mp hw⟩
      | true =>
        have hne : u ≠ w := by
          rintro rfl
          rw [contains_eq_false_iff.mpr hmissing] at hw
          cases hw
        obtain ⟨v, hv, hv'⟩ := ih ⟨u, (List.mem_cons.mp hu).resolve_left hne, hmissing⟩
        exact ⟨v, List.mem_cons_of_mem w hv, hv'⟩

end EffectMemo

/-! ## Looking up in a state -/

/-- A step that may be at fault, in a state of a memo and the sources looked up so far. -/
abbrev Noting (K : Type) : Type → Type := ExceptT Fault (StateM (EffectMemo K × List Source))

/-- Looks an effect up in the memo of the state, and notes its source. -/
def EffectMemo.note (u : Source) : Noting K (Effect K) := do
  let (memo, asked) ← get
  set (memo, asked ++ [u])
  liftM (memo.require u)

namespace Noting

variable {α β : Type}

/-- The answer of a step, the memo afterwards, and the sources looked up. -/
def after (x : Noting K α) (memo : EffectMemo K) (asked : List Source) :
    Except Fault α × EffectMemo K × List Source :=
  (x.run.run (memo, asked)).run

variable {x : Noting K α} {f : α → Noting K β} {memo memo' : EffectMemo K}
  {asked asked' : List Source}

theorem after_bind_of_ok {a : α} (h : x.after memo asked = (.ok a, memo', asked')) :
    after (x >>= f) memo asked = (f a).after memo' asked' := by
  have hrun : x.run.run (memo, asked) = (.ok a, memo', asked') := h
  rw [after, ExceptT.run_bind, StateT.run_bind, hrun]
  rfl

theorem after_bind_of_error {e : Fault} (h : x.after memo asked = (.error e, memo', asked')) :
    after (x >>= f) memo asked = (.error e, memo', asked') := by
  have hrun : x.run.run (memo, asked) = (.error e, memo', asked') := h
  rw [after, ExceptT.run_bind, StateT.run_bind, hrun]
  rfl

theorem after_note (u : Source) :
    (EffectMemo.note u).after memo asked = (memo.require u, memo, asked ++ [u]) := rfl

theorem after_lift (y : Except Fault α) :
    after (liftM y : Noting K α) memo asked = (y, memo, asked) := rfl

/-- What is done with the answer in the end changes nothing in the state. -/
theorem after_map (g : α → β) (x : Noting K α) : after (g <$> x) memo asked =
    ((x.after memo asked).1.map g, (x.after memo asked).2) := by
  rcases hx : x.after memo asked with ⟨e | a, memo', asked'⟩
  · rw [map_eq_pure_bind, after_bind_of_error hx]
    rfl
  · rw [map_eq_pure_bind, after_bind_of_ok hx]
    rfl

end Noting

/-! ## Evaluation with the look-up as a parameter -/

variable [Scalar K]

section Parameter

variable {m : Type → Type} [Monad m] [MonadLiftT (Except Fault) m]

/-- Takes the effects of the listed sources away from a table. -/
def subtractAllWith (look : Source → m (Effect K)) (l : List Source) (start : Grid K) :
    m (Grid K) :=
  l.foldlM (fun effect u => do liftM (effect.subStretched (← look u).values)) start

/-- Restriction with a given way of looking effects up. -/
def Design.restrictWith (d : Design K) (look : Source → m (Effect K)) (c : CellStatistics K)
    (s : Source) : m (Grid K × Mat K) := do
  let axes := d.betweenAxes s
  let effect ← subtractAllWith look (d.subSources s) (c.centredMeans axes)
  return (effect, c.hypothesisMatrix effect (c.hypothesisWeights axes (s == d.fullSource)))

/-- Evaluation with a given way of looking effects up. -/
def Analysis.evaluateWith (a : Analysis K) (look : Source → m (Effect K)) (s : Source) :
    m (Outcome K) :=
  match a.design.kindOf s with
  | .between => do
    let (effect, hypothesis) ← a.design.restrictWith look a.meanCells s
    let residuals := a.meanCells.residuals a.means a.design.subjectCells
    let errorSs := total (residuals.entries.toList.map fun r => r * r)
    return ⟨s, .between, ⟨s, effect⟩, .scalar (hypothesis.get 0 0) errorSs, 1⟩
  | .within => do
    let scores ← liftM (a.scoresFor s)
    return a.design.evaluateWithin scores s
  | .mixed => do
    let scores ← liftM (a.scoresFor s)
    let full := (a.design.scoreResiduals scores).crossProduct
    let (effect, hypothesis) ← a.design.restrictWith look scores.cells s
    return ⟨s, .mixed, ⟨s, effect⟩, .matrix ⟨full, full + hypothesis, rfl, rfl⟩, scores.size⟩

variable {look look' : Source → m (Effect K)} {l : List Source} {g : Grid K}

theorem subtractAllWith_congr (h : ∀ u ∈ l, look u = look' u) :
    subtractAllWith look l g = subtractAllWith look' l g := by
  induction l generalizing g with
  | nil => rfl
  | cons u l ih =>
    obtain ⟨hu, hl⟩ := List.forall_mem_cons.mp h
    rw [subtractAllWith, subtractAllWith, List.foldlM_cons, List.foldlM_cons, hu]
    exact congrArg _ (funext fun g' => ih hl)

end Parameter

namespace Analysis

variable (a : Analysis K) (s : Source)

theorem evaluateWith_require : a.evaluateWith a.memo.require s = a.evaluate s := by
  rw [evaluateWith, evaluate]
  cases a.design.kindOf s <;> rfl

/-- The answer of an evaluation that finds its memo in a state, the memo afterwards, and the sources
looked up. -/
def evaluateNoting : Except Fault (Outcome K) × EffectMemo K × List Source :=
  Noting.after (a.evaluateWith EffectMemo.note s) a.memo []

/-- The analysis with other effects in its memo. -/
def withMemo (memo : EffectMemo K) : Analysis K := { a with memo := memo }

end Analysis

/-! ## One effect after another -/

section Fold

variable {memo : EffectMemo K} {u : Source} {l : List Source} {g : Grid K}

theorem subtractAllWith_require_missing (h : memo.get? u = none) :
    subtractAllWith memo.require (u :: l) g = .error (.notYetComputed u) := by
  rw [subtractAllWith, List.foldlM_cons, EffectMemo.require, h]
  rfl

theorem subtractAllWith_require_stored {e : Effect K} (h : memo.get? u = some e)
    (hfit : Grid.stretchesTo e.values.shape g.shape = true) :
    subtractAllWith memo.require (u :: l) g =
      subtractAllWith memo.require l (g.minus e.values) := by
  rw [subtractAllWith, List.foldlM_cons, EffectMemo.require, h, ok_bind,
    Grid.subStretched_eq_ok hfit]
  rfl

variable (hfit : ∀ u ∈ l, ∀ e, memo.get? u = some e →
  Grid.stretchesTo e.values.shape g.shape = true)

include hfit

/-- The only fault is that an effect which is looked up is missing. -/
theorem subtractAllWith_require_eq_error_iff {fault : Fault} :
    subtractAllWith memo.require l g = .error fault ↔
      ∃ u ∈ memo.lookedUp l, memo.get? u = none ∧ fault = .notYetComputed u := by
  induction l generalizing g with
  | nil => simp [subtractAllWith, EffectMemo.lookedUp, pure, Except.pure]
  | cons u l ih =>
    obtain ⟨hu, hl⟩ := List.forall_mem_cons.mp hfit
    rw [EffectMemo.lookedUp, EffectMemo.contains]
    cases h : memo.get? u with
    | none =>
      rw [subtractAllWith_require_missing h]
      simp [h, eq_comm]
    | some e =>
      have hrest := ih (g := g.minus e.values) hl
      rw [subtractAllWith_require_stored h (hu e h), hrest]
      simp [h]

/-- With the memo in a state the answer is the same and the memo is left as it is. -/
theorem after_subtractAllWith_note (before : List Source) :
    Noting.after (subtractAllWith EffectMemo.note l g) memo before =
      (subtractAllWith memo.require l g, memo, before ++ memo.lookedUp l) := by
  induction l generalizing g before with
  | nil =>
    rw [EffectMemo.lookedUp, List.append_nil]
    rfl
  | cons u l ih =>
    obtain ⟨hu, hl⟩ := List.forall_mem_cons.mp hfit
    have hnote : (EffectMemo.note u).after memo before = (memo.require u, memo, before ++ [u]) :=
      Noting.after_note u
    rw [EffectMemo.lookedUp, EffectMemo.contains]
    cases h : memo.get? u with
    | none =>
      rw [EffectMemo.require, h] at hnote
      rw [subtractAllWith_require_missing h, subtractAllWith, List.foldlM_cons]
      exact Noting.after_bind_of_error (Noting.after_bind_of_error hnote)
    | some e =>
      rw [EffectMemo.require, h] at hnote
      have hstep : Noting.after
          (do liftM (g.subStretched (← EffectMemo.note u).values) : Noting K (Grid K)) memo before =
            (.ok (g.minus e.values), memo, before ++ [u]) := by
        rw [Noting.after_bind_of_ok hnote, Noting.after_lift, Grid.subStretched_eq_ok (hu e h)]
      have hrest := ih (g := g.minus e.values) hl (before ++ [u])
      rw [subtractAllWith] at hrest
      rw [subtractAllWith_require_stored h (hu e h), subtractAllWith, List.foldlM_cons,
        Noting.after_bind_of_ok hstep, hrest, List.append_assoc]
      rfl

end Fold

end SplitPlot
