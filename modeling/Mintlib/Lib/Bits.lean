import Mathlib.Tactic

/-!
# Bit masks as C tests them

`x & (1 << i)` and `x & ~y` compared with zero, in terms of single bits.
-/

namespace Mintlib.Bits

variable {w i : ℕ}

theorem and_twoPow_ne_zero (x : BitVec w) (hi : i < w) :
    x &&& BitVec.twoPow w i ≠ 0#w ↔ x.getLsbD i = true := by
  have hpow : BitVec.twoPow w i ≠ 0#w := by
    intro h
    have hbit := congrArg (fun y => y.getLsbD i) h
    simp [hi] at hbit
  rw [BitVec.and_twoPow]
  by_cases hx : x.getLsbD i = true
  · rw [if_pos hx]
    exact ⟨fun _ => hx, fun _ => hpow⟩
  · rw [if_neg hx]
    exact ⟨fun h => absurd rfl h, fun h => absurd h hx⟩

theorem lt_of_and_twoPow {x : BitVec w} (h : x &&& BitVec.twoPow w i ≠ 0#w) : i < w := by
  by_contra hi
  apply h
  apply BitVec.eq_of_getLsbD_eq
  intro j _
  simp [BitVec.getLsbD_twoPow, hi]

theorem eq_zero_iff (x : BitVec w) : x = 0#w ↔ ∀ i, x.getLsbD i = false := by
  constructor
  · rintro rfl i
    exact BitVec.getLsbD_zero
  · intro h
    apply BitVec.eq_of_getLsbD_eq
    intro i _
    rw [h i, BitVec.getLsbD_zero]

theorem ne_zero_iff (x : BitVec w) : x ≠ 0#w ↔ ∃ i, x.getLsbD i = true := by
  rw [Ne, eq_zero_iff]
  push Not
  simp only [ne_eq, Bool.not_eq_false]

/-- `x & m` as a condition. -/
def has (x m : BitVec w) : Prop := x &&& m ≠ 0#w

instance (x m : BitVec w) : Decidable (has x m) := inferInstanceAs (Decidable (_ ≠ _))

section Has

variable {p : Prop} [Decidable p] {x y m a b : BitVec w}

theorem has_or : has (x ||| y) m ↔ has x m ∨ has y m := by
  simp only [has, ne_zero_iff, BitVec.getLsbD_and, BitVec.getLsbD_or, Bool.and_eq_true,
    Bool.or_eq_true, or_and_right, exists_or]

theorem has_or_mask : has x (a ||| b) ↔ has x a ∨ has x b := by
  simp only [has, ne_zero_iff, BitVec.getLsbD_and, BitVec.getLsbD_or, Bool.and_eq_true,
    Bool.or_eq_true, and_or_left, exists_or]

theorem has_and : has (x &&& a) m ↔ has x (a &&& m) := by
  rw [has, has, BitVec.and_assoc]

theorem has_ite : has (if p then x else y) m ↔ if p then has x m else has y m := by
  split <;> exact Iff.rfl

theorem has_and_of_eq_zero (h : a &&& m = 0#w) : ¬ has (x &&& a) m := by
  rw [has_and, h, has, BitVec.and_zero]
  exact not_not.mpr rfl

theorem has_and_of_eq_self (h : a &&& m = m) : has (x &&& a) m ↔ has x m := by
  rw [has_and, h]

theorem and_or_eq (ha : x &&& a = y &&& a) (hb : x &&& b = y &&& b) :
    x &&& (a ||| b) = y &&& (a ||| b) := by
  rw [BitVec.and_or_distrib_left, BitVec.and_or_distrib_left, ha, hb]

theorem and_twoPow_eq {i : ℕ} (h : has x (BitVec.twoPow w i) ↔ has y (BitVec.twoPow w i)) :
    x &&& BitVec.twoPow w i = y &&& BitVec.twoPow w i := by
  by_cases hi : i < w
  · have hbit : x.getLsbD i = y.getLsbD i := by
      rw [has, has, and_twoPow_ne_zero x hi, and_twoPow_ne_zero y hi, ← Bool.eq_iff_iff] at h
      exact h
    rw [BitVec.and_twoPow, BitVec.and_twoPow, hbit]
  · apply BitVec.eq_of_getLsbD_eq
    intro j _
    simp [BitVec.getLsbD_twoPow, hi]

theorem and_twoPow_of_has {i : ℕ} (h : has x (BitVec.twoPow w i)) :
    x &&& BitVec.twoPow w i = BitVec.twoPow w i := by
  have hi := lt_of_and_twoPow h
  rw [BitVec.and_twoPow, if_pos ((and_twoPow_ne_zero x hi).mp h)]

theorem and_eq_mask_iff {i j : ℕ} (hi : i < w) (hj : j < w) :
    x &&& (BitVec.twoPow w i ||| BitVec.twoPow w j) = BitVec.twoPow w i ||| BitVec.twoPow w j ↔
      has x (BitVec.twoPow w i) ∧ has x (BitVec.twoPow w j) := by
  constructor
  · intro h
    have hbit : ∀ k, (k = i ∨ k = j) → k < w → x.getLsbD k = true := by
      intro k hk hlt
      have hget := congrArg (fun y => y.getLsbD k) h
      rcases hk with rfl | rfl
      · simpa [BitVec.getLsbD_twoPow, hlt] using hget
      · simpa [BitVec.getLsbD_twoPow, hlt] using hget
    exact ⟨(and_twoPow_ne_zero x hi).mpr (hbit i (.inl rfl) hi),
      (and_twoPow_ne_zero x hj).mpr (hbit j (.inr rfl) hj)⟩
  · rintro ⟨hxi, hxj⟩
    rw [BitVec.and_or_distrib_left, and_twoPow_of_has hxi, and_twoPow_of_has hxj]

end Has

theorem countP_eq_sum_range {α : Type*} {P : α → Prop} [DecidablePred P] {f : α → ℕ} {n : ℕ}
    {l : List α} (h : ∀ a, P a → f a < n) :
    l.countP (fun a => decide (P a)) =
      ∑ i ∈ Finset.range n, l.countP fun a => decide (P a ∧ f a = i) := by
  induction l with
  | nil => simp
  | cons a l ih =>
    simp only [List.countP_cons, Finset.sum_add_distrib, ← ih]
    congr 1
    by_cases ha : P a
    · simp [ha, h a ha]
    · simp [ha]

end Mintlib.Bits
