import Mathlib.Tactic

/-!
# Extents of addresses

Half-open ranges of natural-number addresses, their separation, and what a list
of pairwise separated extents says about its members.
-/

namespace Mintlib

/-- The addresses `base`, ..., `base + len - 1`. -/
structure Extent where
  base : ℕ
  len : ℕ
deriving DecidableEq

namespace Extent

abbrev fin (e : Extent) : ℕ := e.base + e.len

instance : Membership ℕ Extent where
  mem e x := e.base ≤ x ∧ x < e.base + e.len

theorem mem_iff {e : Extent} {x : ℕ} : x ∈ e ↔ e.base ≤ x ∧ x < e.base + e.len := Iff.rfl

instance (e : Extent) (x : ℕ) : Decidable (x ∈ e) :=
  inferInstanceAs (Decidable (_ ∧ _))

def Apart (e f : Extent) : Prop := e.fin ≤ f.base ∨ f.fin ≤ e.base

instance (e f : Extent) : Decidable (e.Apart f) := inferInstanceAs (Decidable (_ ∨ _))

/-- `e` lies inside `f`. -/
def Within (e f : Extent) : Prop := f.base ≤ e.base ∧ e.fin ≤ f.fin

instance (e f : Extent) : Decidable (e.Within f) := inferInstanceAs (Decidable (_ ∧ _))

theorem Apart.symm {e f : Extent} (h : e.Apart f) : f.Apart e := Or.symm h

instance : Std.Symm Apart := ⟨fun _ _ => Apart.symm⟩

theorem Apart.not_mem {e f : Extent} (h : e.Apart f) {x : ℕ} (hx : x ∈ e) : x ∉ f := by
  intro hf
  simp only [mem_iff, Apart, fin] at *
  omega

theorem Apart.mono {e e' f f' : Extent} (h : e.Apart f) (he : e'.Within e) (hf : f'.Within f) :
    e'.Apart f' := by
  simp only [Apart, Within, fin] at *
  omega

theorem exists_common_of_not_apart {e f : Extent} (h : ¬ e.Apart f) (he : 0 < e.len)
    (hf : 0 < f.len) : ∃ x, x ∈ e ∧ x ∈ f := by
  refine ⟨max e.base f.base, ?_⟩
  simp only [mem_iff, Apart, fin] at *
  omega

theorem Within.mem {e f : Extent} (h : e.Within f) {x : ℕ} (hx : x ∈ e) : x ∈ f := by
  simp only [mem_iff, Within, fin] at *
  omega

theorem Within.trans {e f g : Extent} (h : e.Within f) (h' : f.Within g) : e.Within g := by
  simp only [Within, fin] at *
  omega

theorem Within.refl (e : Extent) : e.Within e := ⟨le_rfl, le_rfl⟩

end Extent

end Mintlib
