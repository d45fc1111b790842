import Mathlib.Data.List.Basic

/-!
# Accesses that are checked

An access outside an array stops the run, and so does a loop that is not through after as many
steps as it is given.
-/

namespace Mintlib.Checked

/-- Why a run stops before its end: an access outside of a block, or the steps are used up. -/
inductive Stop
  | bounds
  | steps
deriving DecidableEq

variable {α β : Type}

theorem ok_bind (a : α) (f : α → Except Stop β) : (Except.ok a >>= f) = f a := rfl

theorem error_bind (stop : Stop) (f : α → Except Stop β) :
    (Except.error stop >>= f) = .error stop := rfl

theorem bind_eq_ok {x : Except Stop α} {f : α → Except Stop β} {b : β} (h : (x >>= f) = .ok b) :
    ∃ a, x = .ok a ∧ f a = .ok b := by
  cases x with
  | error stop => exact absurd h (by simp [bind, Except.bind])
  | ok a => exact ⟨a, rfl, h⟩

/-- `a[i]`. -/
def load (a : List α) (i : ℕ) : Except Stop α :=
  match a[i]? with
  | some x => .ok x
  | none => .error .bounds

/-- `a[i] = x`. -/
def store (a : List α) (i : ℕ) (x : α) : Except Stop (List α) :=
  if i < a.length then .ok (a.set i x) else .error .bounds

theorem load_ok {a : List α} {i : ℕ} {x : α} (h : a[i]? = some x) : load a i = .ok x := by
  rw [load, h]

theorem store_ok {a : List α} {i : ℕ} (h : i < a.length) (x : α) :
    store a i x = .ok (a.set i x) := if_pos h

theorem load_append (a : List α) (x : α) (b : List α) : load (a ++ x :: b) a.length = .ok x :=
  load_ok (by rw [List.getElem?_append_right (Nat.le_refl _), Nat.sub_self, List.getElem?_cons_zero])

theorem store_append (a : List α) (x : α) (b : List α) (y : α) :
    store (a ++ x :: b) a.length y = .ok (a ++ y :: b) := by
  have hlt : a.length < (a ++ x :: b).length := by
    rw [List.length_append, List.length_cons]
    exact Nat.lt_add_of_pos_right (Nat.succ_pos _)
  rw [store_ok hlt, List.set_append_right _ _ (Nat.le_refl _), Nat.sub_self, List.set_cons_zero]

end Mintlib.Checked
