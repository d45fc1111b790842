import Mathlib.Data.List.Basic
import Mathlib.Tactic

/-!
# Lists whose items change their places

The items from `lo` to `hi` stand in another order, and all others where they were.
-/

namespace Mintlib

variable {α : Type*}

structure Rearranged (lo hi : ℕ) (a b : List α) : Prop where
  front : b.take lo = a.take lo
  back : b.drop (hi + 1) = a.drop (hi + 1)
  perm : b.Perm a

namespace Rearranged

variable {lo hi lo' hi' i j k : ℕ} {a b c : List α} {x y : α}

theorem refl (lo hi : ℕ) (a : List α) : Rearranged lo hi a a := ⟨rfl, rfl, List.Perm.refl a⟩

theorem trans (h : Rearranged lo hi a b) (h' : Rearranged lo hi b c) : Rearranged lo hi a c :=
  ⟨h'.front.trans h.front, h'.back.trans h.back, h'.perm.trans h.perm⟩

theorem length (h : Rearranged lo hi a b) : b.length = a.length := h.perm.length_eq

theorem swap (hi₁ : lo ≤ i) (hi₂ : i ≤ hi) (hj₁ : lo ≤ j) (hj₂ : j ≤ hi) (hx : a[i]? = some x)
    (hy : a[j]? = some y) : Rearranged lo hi a ((a.set i y).set j x) := by
  obtain ⟨hilt, hix⟩ := List.getElem?_eq_some_iff.mp hx
  obtain ⟨hjlt, hjy⟩ := List.getElem?_eq_some_iff.mp hy
  refine ⟨?_, ?_, ?_⟩
  · rw [List.take_set_of_le hj₁, List.take_set_of_le hi₁]
  · rw [List.drop_set_of_lt (by omega), List.drop_set_of_lt (by omega)]
  · rw [← hix, ← hjy]
    exact List.set_set_perm hilt hjlt

theorem get (h : Rearranged lo hi a b) (hout : i < lo ∨ hi < i) : b[i]? = a[i]? := by
  rcases hout with hlt | hgt
  · have hfront := congrArg (fun l : List α => l[i]?) h.front
    rwa [List.getElem?_take_of_lt hlt, List.getElem?_take_of_lt hlt] at hfront
  · have hback := congrArg (fun l : List α => l[i - (hi + 1)]?) h.back
    rw [List.getElem?_drop, List.getElem?_drop] at hback
    have hsum : hi + 1 + (i - (hi + 1)) = i := by omega
    rwa [hsum] at hback

theorem take_perm (h : Rearranged lo hi a b) (hk : hi < k) : (b.take k).Perm (a.take k) := by
  have hback : b.drop k = a.drop k := by
    have hdrop := congrArg (List.drop (k - (hi + 1))) h.back
    rw [List.drop_drop, List.drop_drop] at hdrop
    have hsum : hi + 1 + (k - (hi + 1)) = k := by omega
    rwa [hsum] at hdrop
  have hperm := h.perm
  rw [← List.take_append_drop k b, ← List.take_append_drop k a, hback] at hperm
  exact (List.perm_append_right_iff _).mp hperm

theorem mem_range (h : Rearranged lo hi a b) (hlo : lo ≤ i) (hhi : i ≤ hi) (hx : b[i]? = some x) :
    ∃ j, lo ≤ j ∧ j ≤ hi ∧ a[j]? = some x := by
  have hperm : ((b.take (hi + 1)).drop lo).Perm ((a.take (hi + 1)).drop lo) := by
    have htake := h.take_perm (Nat.lt_succ_self hi)
    have hfront : (b.take (hi + 1)).take lo = (a.take (hi + 1)).take lo := by
      rw [List.take_take, List.take_take, Nat.min_eq_left (by omega), h.front]
    rw [← List.take_append_drop lo (b.take (hi + 1)), ← List.take_append_drop lo (a.take (hi + 1)),
      hfront] at htake
    exact (List.perm_append_left_iff _).mp htake
  have hmem : x ∈ (b.take (hi + 1)).drop lo := by
    refine List.mem_iff_getElem?.mpr ⟨i - lo, ?_⟩
    rw [List.getElem?_drop, Nat.add_sub_cancel' hlo, List.getElem?_take_of_lt (by omega), hx]
  obtain ⟨j, hj⟩ := List.mem_iff_getElem?.mp (hperm.mem_iff.mp hmem)
  rw [List.getElem?_drop] at hj
  have hlt : lo + j < hi + 1 := by
    obtain ⟨hlt, -⟩ := List.getElem?_eq_some_iff.mp hj
    rw [List.length_take] at hlt
    omega
  rw [List.getElem?_take_of_lt hlt] at hj
  exact ⟨lo + j, Nat.le_add_right lo j, by omega, hj⟩

end Rearranged

end Mintlib
