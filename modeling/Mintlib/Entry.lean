import Mintlib.Lib.Text

/-!
# Reading entries character by character

The readers of the password and the shadow file share the text of `my_getc` and of the
loop that looks for the first character of an entry (state `init`).
-/

namespace Mintlib.Entry

open Text

/-- `printf ("%ld", (long) n)` for a 32-bit word. -/
def printLong (n : ℕ) : Str := if n < 2 ^ 31 then decimal n else 45 :: decimal (2 ^ 32 - n)

/-- `my_getc` makes one newline of `"\r\n"`: the `'\r'` is dropped. -/
def Dropped (c : UInt8) (fp : List UInt8) : Prop := c = CR ∧ fp.head? = some NEWLINE

instance (c : UInt8) (fp : List UInt8) : Decidable (Dropped c fp) :=
  inferInstanceAs (Decidable (_ ∧ _))

def IsBlank (c : UInt8) : Prop := c = BLANK ∨ c = TAB ∨ c = CR ∨ c = NEWLINE

instance (c : UInt8) : Decidable (IsBlank c) := inferInstanceAs (Decidable (_ ∨ _))

/-- The loop in state `init`, and inside a comment the loop that eats it up. The result
begins with the first character of the entry; `none` is the end of the stream. -/
def skip (comment : Bool) : List UInt8 → Option (List UInt8)
  | [] => none
  | c :: fp =>
    if Dropped c fp then skip comment fp
    else if comment then skip (decide (c ≠ NEWLINE)) fp
    else if IsBlank c then skip false fp
    else if c = HASH then skip true fp
    else some (c :: fp)

theorem skip_entry {c : UInt8} {fp : List UInt8} (hblank : ¬ IsBlank c) (hhash : c ≠ HASH) :
    skip false (c :: fp) = some (c :: fp) := by
  have hdrop : ¬ Dropped c fp := fun h => hblank (Or.inr (Or.inr (Or.inl h.1)))
  rw [skip, if_neg hdrop, if_neg (by decide), if_neg hblank, if_neg hhash]

theorem skip_suffix {comment : Bool} {fp rest : List UInt8} (h : skip comment fp = some rest) :
    rest <:+ fp := by
  induction fp generalizing comment with
  | nil => exact absurd h (by simp [skip])
  | cons c fp ih =>
    have hmore : ∀ {m}, skip m fp = some rest → rest <:+ c :: fp :=
      fun h => (ih h).trans (List.suffix_cons c fp)
    unfold skip at h
    by_cases hd : Dropped c fp
    · rw [if_pos hd] at h
      exact hmore h
    rw [if_neg hd] at h
    cases comment with
    | true => exact hmore h
    | false =>
      rw [if_neg (by decide)] at h
      by_cases hb : IsBlank c
      · rw [if_pos hb] at h
        exact hmore h
      rw [if_neg hb] at h
      by_cases hh : c = HASH
      · rw [if_pos hh] at h
        exact hmore h
      · rw [if_neg hh, Option.some.injEq] at h
        exact h ▸ List.suffix_rfl

end Mintlib.Entry
