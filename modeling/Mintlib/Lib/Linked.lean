import Mathlib.Tactic

/-!
# Singly linked lists and the loops that walk them

`Linked next p xs q` says that following `next` from the node `p` visits the
nodes `xs` and then reaches `q`. `walk` is the loop
`while (q && c (q)) { o = p; p = q; q = next (q); }` with a step budget.
-/

namespace Mintlib

/-- Following `next` from `p` visits `xs` in order and arrives at `q`. -/
def Linked {α : Type*} (next : α → α) : α → List α → α → Prop
  | p, [], q => next p = q
  | p, x :: xs, q => next p = x ∧ Linked next x xs q

namespace Linked

variable {α : Type*} {next next' : α → α} {p q : α} {xs ys : List α}

@[simp] theorem nil_iff : Linked next p [] q ↔ next p = q := Iff.rfl

@[simp] theorem cons_iff {x : α} : Linked next p (x :: xs) q ↔ next p = x ∧ Linked next x xs q :=
  Iff.rfl

theorem next_eq (h : Linked next p xs q) : next p = xs.headD q := by
  cases xs with
  | nil => exact h
  | cons x xs => exact h.1

theorem append_iff : Linked next p (xs ++ ys) q ↔
    Linked next p xs (ys.headD q) ∧ Linked next (xs.getLastD p) ys q := by
  induction xs generalizing p with
  | nil =>
    simp only [List.nil_append, nil_iff, List.getLastD_nil]
    exact ⟨fun h => ⟨h.next_eq, h⟩, fun h => h.2⟩
  | cons x xs ih => simp only [List.cons_append, cons_iff, ih, List.getLastD_cons, and_assoc]

theorem next_last (h : Linked next p xs q) : next (xs.getLastD p) = q := by
  have hnil : Linked next p (xs ++ []) q := by rwa [List.append_nil]
  exact (append_iff.mp hnil).2

theorem unique (h : Linked next p xs q) (h' : Linked next p ys q) (hx : q ∉ xs) (hy : q ∉ ys) :
    xs = ys := by
  induction xs generalizing p ys with
  | nil =>
    cases ys with
    | nil => rfl
    | cons y ys => exact absurd (h.symm.trans h'.1) fun hq => hy (hq ▸ List.mem_cons_self)
  | cons x xs ih =>
    cases ys with
    | nil => exact absurd (h'.symm.trans h.1) fun hq => hx (hq ▸ List.mem_cons_self)
    | cons y ys =>
      obtain rfl : x = y := h.1.symm.trans h'.1
      rw [ih h.2 h'.2 (fun hq => hx (List.mem_cons_of_mem _ hq)) fun hq =>
        hy (List.mem_cons_of_mem _ hq)]

theorem congr (h : Linked next p xs q) (hp : next' p = next p)
    (hxs : ∀ x ∈ xs, next' x = next x) : Linked next' p xs q := by
  induction xs generalizing p with
  | nil => exact hp.trans h
  | cons x xs ih =>
    refine ⟨hp.trans h.1, ih h.2 (hxs x (by simp)) fun y hy => hxs y (by simp [hy])⟩

theorem iterate_mem {k : ℕ} (h : Linked next p xs q) (hk : ∀ i ≤ k, next^[i + 1] p ≠ q) :
    next^[k + 1] p ∈ xs := by
  induction xs generalizing p k with
  | nil => exact absurd h (hk 0 (Nat.zero_le k))
  | cons x xs ih =>
    cases k with
    | zero => exact h.1 ▸ List.mem_cons_self
    | succ k =>
      rw [Function.iterate_succ_apply, h.1]
      refine List.mem_cons_of_mem _ (ih h.2 fun i hi => ?_)
      have hne := hk (i + 1) (by omega)
      rwa [Function.iterate_succ_apply, h.1] at hne

end Linked

/-- `while (q != null && c (q)) { o = p; p = q; q = next (q); }`, giving up
after `fuel` tests of the condition. -/
def walk {α : Type*} [DecidableEq α] (null : α) (next : α → α) (c : α → Bool) :
    ℕ → α → α → α → Option (α × α × α)
  | 0, _, _, _ => none
  | fuel + 1, o, p, q =>
    if q ≠ null ∧ c q = true then walk null next c fuel p q (next q) else some (o, p, q)

/-- The last two nodes among `o`, `p` and the visited nodes. -/
def lastTwo {α : Type*} (o p : α) : List α → α × α
  | [] => (o, p)
  | x :: xs => lastTwo p x xs

theorem lastTwo_snd {α : Type*} (o p : α) (xs : List α) : (lastTwo o p xs).2 = xs.getLastD p := by
  induction xs generalizing o p with
  | nil => rfl
  | cons x xs ih => rw [lastTwo, ih, List.getLastD_cons]

theorem lastTwo_append_singleton {α : Type*} (o p x : α) (xs : List α) :
    lastTwo o p (xs ++ [x]) = (xs.getLastD p, x) := by
  induction xs generalizing o p with
  | nil => rfl
  | cons y xs ih => rw [List.cons_append, lastTwo, ih, List.getLastD_cons]

section Walk

variable {α : Type*} [DecidableEq α] {null : α} {next : α → α} {c : α → Bool}

theorem walk_eq {xs ys : List α} {o p : α} (fuel : ℕ)
    (hl : Linked next p (xs ++ ys) null) (hnull : ∀ x ∈ xs, x ≠ null)
    (hxs : ∀ x ∈ xs, c x = true) (hys : ∀ y ∈ ys.head?, c y = false) (hf : xs.length < fuel) :
    walk null next c fuel o p (next p) =
      some ((lastTwo o p xs).1, (lastTwo o p xs).2, ys.headD null) := by
  induction xs generalizing o p fuel with
  | nil =>
    obtain ⟨fuel, rfl⟩ : ∃ k, fuel = k + 1 := ⟨fuel - 1, by simp at hf; omega⟩
    have hq : next p = ys.headD null := (by simpa using hl : Linked next p ys null).next_eq
    have hstop : ¬ (next p ≠ null ∧ c (next p) = true) := by
      rw [hq]
      cases ys with
      | nil => simp
      | cons y ys => simp [hys y (by simp)]
    rw [walk, if_neg hstop, hq]
    rfl
  | cons x xs ih =>
    obtain ⟨fuel, rfl⟩ : ∃ k, fuel = k + 1 := ⟨fuel - 1, by simp at hf; omega⟩
    have hx : next p = x := hl.1
    have hgo : next p ≠ null ∧ c (next p) = true := by
      rw [hx]
      exact ⟨hnull x (by simp), hxs x (by simp)⟩
    rw [walk, if_pos hgo, hx, ih fuel hl.2 (fun y hy => hnull y (by simp [hy]))
      (fun y hy => hxs y (by simp [hy])) (by simpa using hf)]
    rfl

end Walk

/-- The nodes of a strictly ascending list of addresses below `n` number at most `n`. -/
theorem length_le_of_ascending {xs : List ℕ} {n : ℕ} (hasc : xs.Pairwise (· < ·))
    (hlt : ∀ x ∈ xs, x < n) : xs.length ≤ n := by
  have hnodup : xs.Nodup := hasc.imp Nat.ne_of_lt
  simpa using (hnodup.subperm fun x hx => List.mem_range.mpr (hlt x hx)).length_le

end Mintlib
