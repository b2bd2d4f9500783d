/-!
# Levels and subjects

A level of a factor, and likewise a subject, is identified by a whole number or by a name.  All
identifiers are ordered in one line: numbers by size, in front of all names; names letter by
letter.  Level sets are kept in this order, so the analysis never depends on the order in which
the rows of a table arrive.
-/

namespace SplitPlot

/-- An identifier of a factor level or of a subject. -/
inductive Level where
  /-- An identifier that is a number. -/
  | int (value : Int)
  /-- An identifier that is a name. -/
  | text (name : String)
  deriving DecidableEq

namespace Level

instance : Inhabited Level := ⟨.int 0⟩

/-- The order of identifiers: numbers in front of names. -/
def Before : Level → Level → Prop
  | .int a, .int b => a < b
  | .int _, .text _ => True
  | .text _, .int _ => False
  | .text a, .text b => a < b

instance : LT Level := ⟨Before⟩

instance : DecidableLT Level
  | .int a, .int b => inferInstanceAs (Decidable (a < b))
  | .int _, .text _ => .isTrue trivial
  | .text _, .int _ => .isFalse id
  | .text a, .text b => inferInstanceAs (Decidable (a < b))

@[simp] theorem int_lt_int {a b : Int} : Level.int a < Level.int b ↔ a < b := Iff.rfl

@[simp] theorem int_lt_text {a : Int} {b : String} : Level.int a < Level.text b := trivial

@[simp] theorem not_text_lt_int {a : String} {b : Int} : ¬ Level.text a < Level.int b := id

@[simp] theorem text_lt_text {a b : String} : Level.text a < Level.text b ↔ a < b := Iff.rfl

theorem lt_asymm : ∀ {a b : Level}, a < b → ¬ b < a
  | .int _, .int _, h => Int.lt_asymm h
  | .int _, .text _, _ => id
  | .text _, .int _, h => absurd h id
  | .text _, .text _, h => String.lt_asymm h

theorem lt_trans : ∀ {a b c : Level}, a < b → b < c → a < c
  | .int _, .int _, .int _, h, h' => Int.lt_trans h h'
  | .int _, _, .text _, _, _ => trivial
  | _, .text _, .int _, _, h' => absurd h' id
  | .text _, .int _, _, h, _ => absurd h id
  | .text _, .text _, .text _, h, h' => String.lt_trans h h'

theorem eq_of_not_lt : ∀ {a b : Level}, ¬ a < b → ¬ b < a → a = b
  | .int _, .int _, h, h' => congrArg int (Int.le_antisymm (Int.not_lt.mp h') (Int.not_lt.mp h))
  | .int _, .text _, h, _ => absurd trivial h
  | .text _, .int _, _, h' => absurd trivial h'
  | .text _, .text _, h, h' =>
    congrArg text (String.le_antisymm (String.not_lt.mp h') (String.not_lt.mp h))

instance : Std.Asymm (α := Level) (· < ·) := ⟨fun _ _ => lt_asymm⟩

instance : Trans (α := Level) (· < ·) (· < ·) (· < ·) := ⟨lt_trans⟩

instance : Std.Trichotomous (α := Level) (· < ·) := ⟨fun _ _ => eq_of_not_lt⟩

/-- The identifiers of a list in ascending order, repetitions kept. -/
def sort (levels : List Level) : List Level := levels.mergeSort fun a b => !(b < a : Bool)

instance : ToString Level where
  toString
    | .int value => toString value
    | .text name => name

/-- A combination of levels in parentheses. -/
def renderCombination (levels : List Level) : String :=
  "(" ++ ", ".intercalate (levels.map toString) ++ ")"

end Level

end SplitPlot
