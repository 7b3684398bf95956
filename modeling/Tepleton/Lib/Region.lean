import Mathlib

/-!
# Parts of a database

A database maps strings to values.  The entries whose keys start with a given string are a database of
their own (`under`), and can be replaced as a whole (`putUnder`).  Two such parts share no key if
neither string starts with the other.
-/

namespace Tepleton.Lib

variable {α V : Type}

/-- A map from strings over `α`. -/
abbrev Database (α V : Type) := List α → Option V

/-- The entries whose keys start with `space`, without it. -/
def under (db : Database α V) (space : List α) : Database α V := fun key => db (space ++ key)

/-- Neither string starts with the other. -/
def Apart (space space' : List α) : Prop := ¬ space <+: space' ∧ ¬ space' <+: space

theorem Apart.symm {space space' : List α} (h : Apart space space') : Apart space' space := ⟨h.2, h.1⟩

variable [DecidableEq α]

instance (space space' : List α) : Decidable (Apart space space') :=
  inferInstanceAs (Decidable (_ ∧ _))

/-- The database with other entries for the keys that start with `space`. -/
def putUnder (db : Database α V) (space : List α) (part : Database α V) : Database α V := fun key =>
  if space <+: key then part (key.drop space.length) else db key

/-- The database with another entry for one key. -/
def put (db : Database α V) (key : List α) (value : V) : Database α V :=
  Function.update db key (some value)

omit [DecidableEq α] in
theorem Apart.not_start {space space' : List α} (h : Apart space space') (key : List α) :
    ¬ space <+: space' ++ key := by
  intro hstart
  rcases List.prefix_or_prefix_of_prefix hstart (List.prefix_append space' key) with hle | hle
  · exact h.1 hle
  · exact h.2 hle

@[simp] theorem under_putUnder_self (db : Database α V) (space : List α) (part : Database α V) :
    under (putUnder db space part) space = part := by
  funext key
  rw [under, putUnder, if_pos (List.prefix_append space key), List.drop_left]

theorem putUnder_of_not {space key : List α} (h : ¬ space <+: key) (db : Database α V)
    (part : Database α V) : putUnder db space part key = db key := by
  rw [putUnder, if_neg h]

end Tepleton.Lib
