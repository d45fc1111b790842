import Mathlib

/-!
# Strings in memory and decimal numbers

A string is what stands in front of the first NUL. A decimal number is the list of its
digits, the leading one first; it is read back by multiplying and adding.
-/

namespace Mintlib.Text

/-- The bytes of a string, without the terminating NUL. -/
abbrev Str := List UInt8

instance : LawfulBEq Str := inferInstance

abbrev TAB : UInt8 := 9
abbrev NEWLINE : UInt8 := 10
abbrev CR : UInt8 := 13
abbrev BLANK : UInt8 := 32
abbrev HASH : UInt8 := 35
abbrev QUOTE : UInt8 := 39
abbrev PLUS : UInt8 := 43
abbrev COMMA : UInt8 := 44
abbrev MINUS : UInt8 := 45
abbrev DOT : UInt8 := 46
abbrev SLASH : UInt8 := 47
abbrev COLON : UInt8 := 58
abbrev SEMICOLON : UInt8 := 59
abbrev EQ : UInt8 := 61
abbrev BACKSLASH : UInt8 := 92

def Named (name s : Str) : Prop := (name ++ [EQ]) <+: s

instance (name s : Str) : Decidable (Named name s) := inferInstanceAs (Decidable (_ <+: _))

def cstr : List UInt8 → Str
  | [] => []
  | c :: mem => if c = 0 then [] else c :: cstr mem

theorem cstr_append_left {s : Str} (h : 0 ∉ s) (mem : List UInt8) :
    cstr (s ++ mem) = s ++ cstr mem := by
  induction s with
  | nil => rfl
  | cons c s ih =>
    obtain ⟨hc, hs⟩ := not_or.mp (mt List.mem_cons.mpr h)
    rw [List.cons_append, cstr, if_neg (Ne.symm hc), ih hs, List.cons_append]

theorem cstr_append {s : Str} (h : 0 ∉ s) (rest : List UInt8) : cstr (s ++ 0 :: rest) = s := by
  rw [cstr_append_left h, cstr, if_pos rfl, List.append_nil]

theorem cstr_of_clean {s : Str} (h : 0 ∉ s) : cstr s = s := by
  have heq := cstr_append_left h []
  rwa [List.append_nil, cstr, List.append_nil] at heq

theorem cstr_clean (mem : List UInt8) : 0 ∉ cstr mem := by
  induction mem with
  | nil => exact List.not_mem_nil
  | cons c mem ih =>
    rw [cstr]
    by_cases hc : c = 0
    · rw [if_pos hc]
      exact List.not_mem_nil
    · rw [if_neg hc, List.mem_cons, not_or]
      exact ⟨Ne.symm hc, ih⟩

theorem length_cstr_le (mem : List UInt8) : (cstr mem).length ≤ mem.length := by
  induction mem with
  | nil => exact le_refl _
  | cons c mem ih =>
    rw [cstr]
    by_cases hc : c = 0
    · rw [if_pos hc]
      exact Nat.zero_le _
    · rw [if_neg hc, List.length_cons, List.length_cons]
      omega

/-- `'0' + d`. -/
def digit (d : ℕ) : UInt8 := UInt8.ofNat (48 + d)

/-- `'0' <= c && c <= '9'`. -/
def IsDigit (c : UInt8) : Prop := 48 ≤ c ∧ c ≤ 57

instance (c : UInt8) : Decidable (IsDigit c) := inferInstanceAs (Decidable (_ ∧ _))

/-- The decimal digits of a number, as `printf` writes them. -/
def decimal (n : ℕ) : Str := if n = 0 then [48] else (Nat.digits 10 n).reverse.map digit

def more (acc : ℕ) (c : UInt8) : ℕ := acc * 10 + (c.toNat - 48)

theorem digit_toNat {d : ℕ} (h : d < 10) : (digit d).toNat = 48 + d := by
  have hlt : 48 + d < 2 ^ 8 := by omega
  rw [digit, UInt8.toNat_ofNat', Nat.mod_eq_of_lt hlt]

theorem digit_isDigit {d : ℕ} (h : d < 10) : IsDigit (digit d) := by
  rw [IsDigit, UInt8.le_iff_toNat_le, UInt8.le_iff_toNat_le, digit_toNat h]
  exact ⟨Nat.le_add_right 48 d, by show 48 + d ≤ 57; omega⟩

theorem decimal_isDigit {n : ℕ} {c : UInt8} (h : c ∈ decimal n) : IsDigit c := by
  unfold decimal at h
  by_cases hn : n = 0
  · rw [if_pos hn, List.mem_singleton] at h
    rw [h]
    decide
  · rw [if_neg hn, List.mem_map] at h
    obtain ⟨d, hd, rfl⟩ := h
    exact digit_isDigit (Nat.digits_lt_base (by norm_num) (List.mem_reverse.mp hd))

theorem decimal_ne_nil (n : ℕ) : decimal n ≠ [] := by
  unfold decimal
  by_cases hn : n = 0
  · rw [if_pos hn]
    exact List.cons_ne_nil _ _
  · rw [if_neg hn, ne_eq, List.map_eq_nil_iff, List.reverse_eq_nil_iff]
    exact Nat.digits_ne_nil_iff_ne_zero.mpr hn

theorem foldl_more_decimal (n : ℕ) : (decimal n).foldl more 0 = n := by
  unfold decimal
  by_cases hn : n = 0
  · rw [if_pos hn, hn]
    rfl
  · have hdigits : ∀ l : List ℕ, (∀ d ∈ l, d < 10) →
        (l.reverse.map digit).foldl more 0 = Nat.ofDigits 10 l := by
      intro l hl
      induction l with
      | nil => rfl
      | cons d l ih =>
        have hd : d < 10 := hl d List.mem_cons_self
        have htl : ∀ d ∈ l, d < 10 := fun d h => hl d (List.mem_cons_of_mem _ h)
        rw [List.reverse_cons, List.map_append, List.foldl_append, ih htl, Nat.ofDigits_cons]
        show Nat.ofDigits 10 l * 10 + ((digit d).toNat - 48) = _
        rw [digit_toNat hd]
        omega
    rw [if_neg hn, hdigits _ fun d hd => Nat.digits_lt_base (by norm_num) hd,
      Nat.ofDigits_digits]

theorem foldl_more_mod (M acc : ℕ) (s : Str) :
    s.foldl (fun a c => more a c % M) (acc % M) = s.foldl more acc % M := by
  induction s generalizing acc with
  | nil => rfl
  | cons c s ih =>
    have hstep : more (acc % M) c % M = more acc c % M := by
      simp only [more, Nat.add_mod, Nat.mul_mod, Nat.mod_mod]
    rw [List.foldl_cons, List.foldl_cons, hstep, ih]

theorem foldl_more_le (acc : ℕ) (s : Str) : acc ≤ s.foldl more acc := by
  induction s generalizing acc with
  | nil => exact le_refl _
  | cons c s ih =>
    have hc : acc ≤ more acc c := by
      unfold more
      omega
    exact hc.trans (ih _)

end Mintlib.Text
