import Mintlib.Lib.Text
import Mintlib.Lib.Checked

/-!
# Strings that are made in an array

A store beyond the array stops the run. What has been written stands at the beginning of the
array, and what is behind it is as it was.
-/

namespace Mintlib.Stores

open Text Checked

abbrev CStr := {s : Str // (0 : UInt8) ∉ s}

theorem nil_clean : (0 : UInt8) ∉ ([] : Str) := List.not_mem_nil

/-- A loop of `*s++ = *t++`: where `s` is then, and the array. -/
def copyText : Str → ℕ → Str → Except Stop (ℕ × Str)
  | [], s, buf => .ok (s, buf)
  | c :: t, s, buf => do
    let buf ← store buf s c
    copyText t (s + 1) buf

/-- `strcpy (&buf[i], t)`. -/
def strcpy (buf : Str) (i : ℕ) (t : Str) : Except Stop Str := do
  let (s, buf) ← copyText t i buf
  store buf s 0

/-- `head` stands in the array, which is as it was from `l` on. -/
structure Written (buf b head : Str) (l : ℕ) : Prop where
  length : b.length = buf.length
  head : head <+: b
  rest : b.drop l = buf.drop l

section Written

variable {buf b head : Str} {l : ℕ}

theorem Written.start (buf : Str) (l : ℕ) : Written buf buf [] l :=
  ⟨rfl, List.nil_prefix, rfl⟩

theorem Written.of_prefix {head' : Str} (h : Written buf b head' l) (hhead : head <+: head') :
    Written buf b head l :=
  ⟨h.length, hhead.trans h.head, h.rest⟩

theorem Written.store (h : Written buf b head l) (hl : head.length < l) (hroom : l ≤ buf.length)
    (c : UInt8) : ∃ b', store b head.length c = .ok b' ∧ Written buf b' (head ++ [c]) l := by
  have hlength := h.length
  have hin : head.length < b.length := by omega
  obtain ⟨rest, hrest⟩ := h.head
  obtain ⟨d, rest, rfl⟩ : ∃ d t, rest = d :: t := by
    cases rest with
    | nil =>
      rw [List.append_nil] at hrest
      rw [hrest] at hin
      exact absurd hin (Nat.lt_irrefl _)
    | cons d rest => exact ⟨d, rest, rfl⟩
  refine ⟨b.set head.length c, if_pos hin, ?_, ?_, ?_⟩
  · rw [List.length_set, hlength]
  · refine ⟨rest, ?_⟩
    rw [← hrest, List.set_append_right _ _ le_rfl, Nat.sub_self, List.set_cons_zero,
      List.append_assoc, List.singleton_append]
  · rw [List.drop_set_of_lt hl, h.rest]

theorem Written.copyText (hroom : l ≤ buf.length) (text : Str) : ∀ {b head : Str},
    Written buf b head l → head.length + text.length ≤ l →
    ∃ b', copyText text head.length b = .ok (head.length + text.length, b') ∧
      Written buf b' (head ++ text) l := by
  induction text with
  | nil =>
    intro b head h _
    rw [List.append_nil]
    exact ⟨b, rfl, h⟩
  | cons c text ih =>
    intro b head h hl
    rw [List.length_cons] at hl
    obtain ⟨b₁, hstore, h₁⟩ := h.store (by omega) hroom c
    have hlength : (head ++ [c]).length = head.length + 1 := List.length_append
    obtain ⟨b', hput, h'⟩ := ih h₁ (by omega)
    rw [hlength] at hput
    refine ⟨b', ?_, ?_⟩
    · rw [Stores.copyText, hstore, ok_bind, hput, List.length_cons]
      congr 2
      omega
    · rw [List.append_assoc, List.singleton_append] at h'
      exact h'

theorem Written.strcpy (h : Written buf b head l) (text : Str)
    (hl : head.length + text.length < l) (hroom : l ≤ buf.length) :
    ∃ b', strcpy b head.length text = .ok b' ∧ Written buf b' (head ++ text ++ [0]) l := by
  obtain ⟨b₁, hcopy, h₁⟩ := Written.copyText hroom text h hl.le
  have hlength : (head ++ text).length = head.length + text.length := List.length_append
  obtain ⟨b', hstore, h'⟩ := h₁.store (by omega) hroom 0
  rw [hlength] at hstore
  refine ⟨b', ?_, h'⟩
  rw [Stores.strcpy, hcopy, ok_bind]
  exact hstore

theorem Written.cstr (h : Written buf b (head ++ [0]) l) (hclean : (0 : UInt8) ∉ head) :
    cstr b = head := by
  obtain ⟨rest, hrest⟩ := h.head
  rw [← hrest, List.append_assoc]
  exact cstr_append hclean rest

end Written

end Mintlib.Stores
