import SplitPlot.Grid

/-!
# Pure effects and the memo that holds them

The pure effect of a source is what its cell means show beyond the grand mean and the pure effects
of its sub-sources.  It is a table with one axis per factor between subjects, of length one where
the source does not have the factor, and a last axis for the variables; so the effects of
sub-sources stretch to its shape.

## The memo

An effect is needed by every source above it, so it is computed once and kept.  The memo is meant
to be written once for each source.  `EffectMemo.insert` reports a second write as a fault and
still takes the new effect, so that the memo always holds what was written last; `require`
reports an effect that is not there yet.
-/

namespace SplitPlot

/-- The pure effect of a source. -/
structure Effect (K : Type) where
  /-- The source. -/
  source : Source
  /-- The effect at each combination of levels and for each variable. -/
  values : Grid K

/-- The effects computed so far, the one written last in front. -/
structure EffectMemo (K : Type) where
  /-- The stored effects, one for each source. -/
  effects : List (Effect K) := []

namespace EffectMemo

variable {K : Type}

/-- The memo without effects. -/
instance : EmptyCollection (EffectMemo K) := ⟨{}⟩

instance : Inhabited (EffectMemo K) := ⟨∅⟩

/-- The effect of a source, if it is stored. -/
def get? (m : EffectMemo K) (s : Source) : Option (Effect K) :=
  m.effects.find? fun e => e.source == s

/-- Whether the effect of a source is stored. -/
def contains (m : EffectMemo K) (s : Source) : Bool := (m.get? s).isSome

/-- The number of stored effects. -/
def size (m : EffectMemo K) : Nat := m.effects.length

/-- Whether no effect is stored. -/
def isEmpty (m : EffectMemo K) : Bool := m.effects.isEmpty

/-- The effect of a source, which has to be stored. -/
def require (m : EffectMemo K) (s : Source) : Except Fault (Effect K) :=
  match m.get? s with
  | some e => .ok e
  | none => .error (.notYetComputed s)

/-- The memo with an effect in place of the one stored for its source. -/
def replace (m : EffectMemo K) (e : Effect K) : EffectMemo K where
  effects := e :: m.effects.filter fun e' => e'.source != e.source

/-- Stores an effect: whether its source had none before, and the memo afterwards. -/
def insert (m : EffectMemo K) (e : Effect K) : Except Fault Unit × EffectMemo K :=
  (if m.contains e.source then .error (.computedTwice e.source) else .ok (), m.replace e)

@[simp] theorem get?_empty (s : Source) : (∅ : EffectMemo K).get? s = none := rfl

@[simp] theorem get?_replace (m : EffectMemo K) (e : Effect K) (s : Source) :
    (m.replace e).get? s = if s = e.source then some e else m.get? s := by
  simp only [get?, replace, List.find?_cons]
  by_cases h : s = e.source
  · simp [h]
  · have hne : (e.source == s) = false := by simpa using fun hs => h hs.symm
    rw [hne, if_neg h, List.find?_filter]
    refine congrArg (fun p => m.effects.find? p) (funext fun e' => ?_)
    by_cases hs : e'.source = s
    · simp [hs, h]
    · simp [hs]

@[simp] theorem snd_insert (m : EffectMemo K) (e : Effect K) : (m.insert e).2 = m.replace e := rfl

end EffectMemo

end SplitPlot
