import Mathlib.Data.List.Basic
import Mathlib.Tactic

/-!
# Comparison functions and lists that are sorted by them

A comparison gives a negative number, 0 or a positive number. It orders the items when it is
consistent; several items may be equal for it.
-/

namespace Mintlib.Compare

variable {α : Type*} {cmp : α → α → ℤ}

/-- What a comparison function has to be for sorting. -/
structure Consistent (cmp : α → α → ℤ) : Prop where
  sign : ∀ x y, cmp x y < 0 ↔ 0 < cmp y x
  trans : ∀ x y z, cmp x y ≤ 0 → cmp y z ≤ 0 → cmp x z ≤ 0

def Sorted (cmp : α → α → ℤ) (l : List α) : Prop := l.Pairwise fun x y => cmp x y ≤ 0

def same (cmp : α → α → ℤ) (z : α) (l : List α) : List α := l.filter fun x => cmp z x = 0

/-- The same items sorted, equal ones in their order. -/
structure StableSort (cmp : α → α → ℤ) (l r : List α) : Prop where
  sorted : Sorted cmp r
  perm : r.Perm l
  stable : ∀ z, same cmp z r = same cmp z l

section Consistent

theorem Consistent.not_neg (h : Consistent cmp) (x y : α) : ¬ cmp x y < 0 ↔ cmp y x ≤ 0 := by
  rw [h.sign]
  omega

theorem Consistent.not_le (h : Consistent cmp) (x y : α) : ¬ cmp x y ≤ 0 ↔ cmp y x < 0 := by
  rw [h.sign y x]
  omega

theorem Consistent.refl (h : Consistent cmp) (x : α) : cmp x x = 0 := by
  have hsign := h.sign x x
  omega

theorem Consistent.total (h : Consistent cmp) (x y : α) : cmp x y ≤ 0 ∨ cmp y x ≤ 0 := by
  have hsign := h.sign x y
  omega

theorem Consistent.lt_of_lt_of_le (h : Consistent cmp) {x y z : α} (hxy : cmp x y < 0)
    (hyz : cmp y z ≤ 0) : cmp x z < 0 := by
  rw [← h.not_le] at hxy ⊢
  exact fun hzx => hxy (h.trans y z x hyz hzx)

theorem same_append (z : α) (l r : List α) :
    same cmp z (l ++ r) = same cmp z l ++ same cmp z r := List.filter_append l r

theorem same_merge (h : Consistent cmp) (z : α) {l r : List α} (hl : Sorted cmp l)
    (hr : Sorted cmp r) :
    same cmp z (l.merge r fun x y => cmp x y ≤ 0) = same cmp z l ++ same cmp z r := by
  induction l generalizing r with
  | nil => rw [List.nil_merge]; rfl
  | cons x l ihl =>
    obtain ⟨hx, hl'⟩ := List.pairwise_cons.mp hl
    induction r with
    | nil => rw [List.merge_right]; exact (List.append_nil _).symm
    | cons y r ihr =>
      obtain ⟨-, hr'⟩ := List.pairwise_cons.mp hr
      by_cases hxy : cmp x y ≤ 0
      · rw [List.cons_merge_cons_pos _ _ _ (decide_eq_true hxy)]
        have hrest := ihl hl' hr
        rw [same, List.filter_cons, same, List.filter_cons]
        split
        · rw [List.cons_append, ← same, hrest]
          rfl
        · rw [← same, hrest]
          rfl
      · rw [List.cons_merge_cons_neg _ _ _ (by simpa using hxy)]
        have hrest := ihr hr'
        rw [same, List.filter_cons, ← same, hrest]
        -- what is equal to `y` does not occur in the first list
        by_cases hzy : cmp z y = 0
        · have hnone : same cmp z (x :: l) = [] := by
            rw [same, List.filter_eq_nil_iff]
            intro w hw
            have hyx : cmp y x < 0 := (h.not_le x y).mp hxy
            have hyw : cmp y w < 0 := by
              rcases List.mem_cons.mp hw with rfl | hw
              · exact hyx
              · exact h.lt_of_lt_of_le hyx (hx w hw)
            have hwy : ¬ cmp w y ≤ 0 := by
              rw [h.not_le]
              exact hyw
            intro hzw
            have hzw' : cmp z w = 0 := by simpa using hzw
            have hwz : cmp w z ≤ 0 := by
              have hsign := h.sign z w
              have hsign' := h.sign w z
              omega
            exact hwy (h.trans w z y hwz hzy.le)
          rw [hnone, if_pos (decide_eq_true hzy), List.nil_append, List.nil_append, same, same,
            List.filter_cons, if_pos (decide_eq_true hzy)]
        · rw [if_neg (by simpa using hzy)]
          congr 1
          rw [same, same, List.filter_cons, if_neg (by simpa using hzy)]

theorem sorted_merge (h : Consistent cmp) {l r : List α} (hl : Sorted cmp l)
    (hr : Sorted cmp r) : Sorted cmp (l.merge r fun x y => cmp x y ≤ 0) := by
  have htrans : ∀ x y z, decide (cmp x y ≤ 0) = true → decide (cmp y z ≤ 0) = true →
      decide (cmp x z ≤ 0) = true := fun x y z hxy hyz =>
    decide_eq_true (h.trans x y z (of_decide_eq_true hxy) (of_decide_eq_true hyz))
  have htotal : ∀ x y, (decide (cmp x y ≤ 0) || decide (cmp y x ≤ 0)) = true := by
    intro x y
    rcases h.total x y with hxy | hyx
    · simp [hxy]
    · simp [hyx]
  have hmerge := List.pairwise_merge htrans htotal l r
    (hl.imp fun hxy => decide_eq_true hxy) (hr.imp fun hxy => decide_eq_true hxy)
  exact hmerge.imp fun hxy => of_decide_eq_true hxy

theorem StableSort.merge (h : Consistent cmp) {l l' r r' : List α} (hl : StableSort cmp l l')
    (hr : StableSort cmp r r') :
    StableSort cmp (l ++ r) (l'.merge r' fun x y => cmp x y ≤ 0) := by
  refine ⟨sorted_merge h hl.sorted hr.sorted, ?_, fun z => ?_⟩
  · exact (List.merge_perm_append _).trans (hl.perm.append hr.perm)
  · rw [same_merge h z hl.sorted hr.sorted, hl.stable, hr.stable, same_append]

theorem StableSort.short {l : List α} (hl : l.length ≤ 1) : StableSort cmp l l := by
  refine ⟨?_, List.Perm.refl l, fun _ => rfl⟩
  rcases l with _ | ⟨x, _ | ⟨y, l⟩⟩
  · exact List.Pairwise.nil
  · exact List.pairwise_singleton _ x
  · rw [List.length_cons, List.length_cons] at hl
    omega

end Consistent

end Mintlib.Compare
