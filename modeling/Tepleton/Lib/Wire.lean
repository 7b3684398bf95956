import Mathlib

/-!
# Self-delimiting encodings

A `Wire α` writes values of `α` as bytes and reads them back from the front of a byte string; that
reading undoes writing, whatever follows, is part of it.  Encodings of pairs, lists and retracts are
put together from those of their parts, and `decode` reads a value that fills the whole string.
-/

namespace Tepleton.Lib

instance neZero_byte : NeZero 256 := ⟨by decide⟩

/-- An encoding of `α` that can be followed by anything. -/
structure Wire (α : Type) where
  put : α → List (Fin 256)
  get : List (Fin 256) → Option (α × List (Fin 256))
  get_put (a : α) (rest : List (Fin 256)) : get (put a ++ rest) = some (a, rest)

namespace Wire

variable {α β : Type}

/-- Reads a value that fills the whole string. -/
def decode (w : Wire α) (bz : List (Fin 256)) : Option α :=
  match w.get bz with
  | some (a, []) => some a
  | _ => none

@[simp] theorem decode_put (w : Wire α) (a : α) : w.decode (w.put a) = some a := by
  have hget := w.get_put a []
  rw [List.append_nil] at hget
  rw [decode, hget]

/-- One byte. -/
def byte : Wire (Fin 256) where
  put b := [b]
  get
    | [] => none
    | b :: rest => some (b, rest)
  get_put _ _ := rfl

/-- One value after the other. -/
def pair (w : Wire α) (w' : Wire β) : Wire (α × β) where
  put p := w.put p.1 ++ w'.put p.2
  get bz := do
    let (a, bz) ← w.get bz
    let (b, bz) ← w'.get bz
    return ((a, b), bz)
  get_put p rest := by simp [List.append_assoc, w.get_put, w'.get_put]

/-- The values of a type that sits in another one. -/
def retract (w : Wire α) (f : β → α) (g : α → β) (h : ∀ b, g (f b) = b) : Wire β where
  put b := w.put (f b)
  get bz := (w.get bz).map fun result => (g result.1, result.2)
  get_put b rest := by simp [w.get_put, h]

/-- Every element after a one, then a zero. -/
def putList (w : Wire α) : List α → List (Fin 256)
  | [] => [0]
  | a :: as => 1 :: w.put a ++ putList w as

/-- Reads a list of at most `fuel` elements. -/
def getList (w : Wire α) : ℕ → List (Fin 256) → Option (List α × List (Fin 256))
  | 0, _ => none
  | _ + 1, [] => none
  | fuel + 1, tag :: bz =>
    if tag = 0 then some ([], bz)
    else do
      let (a, bz) ← w.get bz
      let (as, bz) ← getList w fuel bz
      return (a :: as, bz)

theorem getList_putList (w : Wire α) {fuel : ℕ} {as : List α} (hfuel : as.length < fuel)
    (rest : List (Fin 256)) : getList w fuel (putList w as ++ rest) = some (as, rest) := by
  induction as generalizing fuel with
  | nil =>
    obtain ⟨fuel, rfl⟩ := Nat.exists_eq_add_of_lt hfuel
    rfl
  | cons a as ih =>
    obtain ⟨fuel, rfl⟩ := Nat.exists_eq_add_one_of_ne_zero (Nat.ne_zero_of_lt hfuel)
    have hrest := ih (Nat.lt_of_succ_lt_succ hfuel)
    have htag : (1 : Fin 256) ≠ 0 := by decide
    simp only [putList, List.cons_append, List.append_assoc, getList, if_neg htag, w.get_put,
      Option.bind_eq_bind, Option.bind_some, hrest, Option.pure_def]

theorem length_lt_length_putList (w : Wire α) (as : List α) :
    as.length < (putList w as).length := by
  induction as with
  | nil => simp [putList]
  | cons a as ih =>
    simp only [putList, List.length_cons, List.length_append, List.cons_append]
    omega

/-- A list. -/
def list (w : Wire α) : Wire (List α) where
  put := putList w
  get bz := getList w bz.length bz
  get_put as rest := by
    refine getList_putList w ?_ rest
    have hlength := length_lt_length_putList w as
    rw [List.length_append]
    omega

/-- A value that may be missing, as a list of at most one. -/
def option (w : Wire α) : Wire (Option α) :=
  w.list.retract Option.toList List.head? (by rintro (_ | a) <;> rfl)

/-- A natural number, by its digits. -/
def nat : Wire ℕ :=
  (list byte).retract (fun n => (Nat.digits 256 n).map (Fin.ofNat 256))
    (fun digits => Nat.ofDigits 256 (digits.map Fin.val)) (by
      intro n
      have hdigits : ((Nat.digits 256 n).map (Fin.ofNat 256)).map Fin.val = Nat.digits 256 n := by
        rw [List.map_map]
        refine (List.map_congr_left fun d hd => ?_).trans (List.map_id _)
        exact Nat.mod_eq_of_lt (Nat.digits_lt_base (by norm_num) hd)
      rw [hdigits, Nat.ofDigits_digits])

/-- An integer, by its sign and its absolute value. -/
def int : Wire ℤ :=
  (pair byte nat).retract (fun z => (if z < 0 then 1 else 0, z.natAbs))
    (fun p => if p.1 = 1 then -p.2 else p.2) (by
      intro z
      by_cases hz : z < 0
      · simp only [hz, if_true]
        omega
      · simp only [hz, if_false]
        have htag : (0 : Fin 256) ≠ 1 := by decide
        rw [if_neg htag]
        omega)

/-- A text, by its characters. -/
def string : Wire String :=
  (list nat).retract (fun s => s.toList.map Char.toNat)
    (fun codes => String.ofList (codes.map Char.ofNat)) (by
      intro s
      have hchars : (s.toList.map Char.toNat).map Char.ofNat = s.toList := by
        rw [List.map_map]
        exact (List.map_congr_left fun c _ => Char.ofNat_toNat c).trans (List.map_id _)
      rw [hchars, String.ofList_toList])

end Wire

end Tepleton.Lib
