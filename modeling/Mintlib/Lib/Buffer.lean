import Mathlib.Tactic

/-!
# Buffers that are filled from the front

A buffer is a list of cells with a prefix that is in use. Appending stores behind the
prefix, resizing keeps it, and clearing fills the cells behind it.
-/

namespace Mintlib.Buffer

variable {α : Type*}

theorem take_set_succ {mem : List α} {n : ℕ} (c : α) (h : n < mem.length) :
    (mem.set n c).take (n + 1) = mem.take n ++ [c] := by
  have hlen : n < (mem.set n c).length := by
    rw [List.length_set]
    exact h
  rw [List.take_succ_eq_append_getElem hlen, List.take_set_of_le (le_refl n),
    List.getElem_set_self]

theorem foldl_snoc (s : List α) : s.foldl (fun s c => s ++ [c]) [] = s := by
  induction s using List.reverseRecOn with
  | nil => rfl
  | append_singleton s c ih => rw [List.foldl_append, ih, List.foldl_cons, List.foldl_nil]

/-- The block at its new size; `junk` is what the new part of it holds. -/
def resize (junk : ℕ → α) (mem : List α) (size : ℕ) : List α :=
  mem.take size ++ (List.range' mem.length (size - mem.length)).map junk

@[simp] theorem length_resize (junk : ℕ → α) (mem : List α) (size : ℕ) :
    (resize junk mem size).length = size := by
  rw [resize, List.length_append, List.length_take, List.length_map, List.length_range']
  omega

theorem take_resize (junk : ℕ → α) {mem : List α} {size n : ℕ} (hsize : n ≤ size)
    (hmem : n ≤ mem.length) : (resize junk mem size).take n = mem.take n := by
  rw [resize, List.take_append_of_le_length, List.take_take, min_eq_left hsize]
  rw [List.length_take]
  omega

end Mintlib.Buffer
