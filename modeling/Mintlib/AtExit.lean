import Mintlib.Lib.Checked
import Mathlib.Data.Int.Basic
import Mathlib.Data.List.Induction
import Mathlib.Data.List.Perm.Basic

/-!
# `atexit.c` and `exit.c`

`exit` walks the table from an index that is fixed before the first function is called. What a
function registers in the meantime is stored behind that index.
-/

namespace Mintlib.AtExit

open Checked (Stop)

variable {F σ : Type}

/-- `_at_exit`, which is a block of `_num_at_exit` functions. -/
structure Table (F : Type) where
  atExit : List F
  numAtExit : ℕ
  room : atExit.length = numAtExit

def Table.empty : Table F := ⟨[], 0, rfl⟩

/-- `atexit`; `block` tells whether `malloc` or `realloc` has a block. -/
def atexit (block : Bool) (func : F) (table : Table F) : ℤ × Table F :=
  if block = false then (-1, table)
  else (0, ⟨table.atExit ++ [func], table.numAtExit + 1, by
    rw [List.length_append, table.room, List.length_singleton]⟩)

/-- Several calls of `atexit`. -/
def atexits : List (F × Bool) → Table F → Table F
  | [], table => table
  | (func, block) :: calls, table => atexits calls (atexit block func table).2

/-- The loop of `exit`: the functions that are called, and the state that they leave. A function
that is called may call `atexit`, and leaves another state. -/
def exitLoop (call : F → σ → List (F × Bool) × σ) :
    ℕ → Table F → σ → Except Stop (List F × σ)
  | 0, _, s => .ok ([], s)
  | i + 1, table, s =>
    match table.atExit[i]? with
    | none => .error .bounds
    | some func =>
      match exitLoop call i (atexits (call func s).1 table) (call func s).2 with
      | .error stop => .error stop
      | .ok (funcs, s) => .ok (func :: funcs, s)

def exit (call : F → σ → List (F × Bool) × σ) (table : Table F) (s : σ) :
    Except Stop (List F × σ) :=
  exitLoop call table.numAtExit table s

def granted (calls : List (F × Bool)) : List F := (calls.filter (·.2)).map (·.1)

/-- The functions that are to be called: the one registered last comes first, and what it registers
itself comes in front of the others. -/
inductive Calls (call : F → σ → List (F × Bool) × σ) : List F → σ → List F → σ → Prop
  | nil (s : σ) : Calls call [] s [] s
  | cons {func : F} {pending funcs : List F} {s s' : σ}
      (hrest : Calls call ((granted (call func s).1).reverse ++ pending) (call func s).2 funcs s') :
      Calls call (func :: pending) s (func :: funcs) s'

/-- What is registered while these functions are called, one after the other. -/
def during (call : F → σ → List (F × Bool) × σ) : List F → σ → List F
  | [], _ => []
  | func :: funcs, s => granted (call func s).1 ++ during call funcs (call func s).2

def after (call : F → σ → List (F × Bool) × σ) : List F → σ → σ
  | [], s => s
  | func :: funcs, s => after call funcs (call func s).2

section Calls

variable {call : F → σ → List (F × Bool) × σ} {table : Table F} {s s' : σ} {funcs pending : List F}

theorem atexits_table (calls : List (F × Bool)) : ∀ table : Table F,
    (atexits calls table).atExit = table.atExit ++ granted calls := by
  induction calls with
  | nil => exact fun table => (List.append_nil _).symm
  | cons c calls ih =>
    intro table
    obtain ⟨func, block⟩ := c
    rw [atexits, ih]
    cases block with
    | false => rfl
    | true => exact List.append_assoc table.atExit [func] (granted calls)

/-- Every function is called once: those that were registered before, and those that are registered
on the way. -/
theorem Calls.perm (h : Calls call pending s funcs s') :
    funcs.Perm (pending ++ during call funcs s) := by
  induction h with
  | nil => exact List.Perm.refl []
  | @cons func pending funcs s s' _ ih =>
    rw [during, List.cons_append]
    refine List.Perm.cons func (ih.trans ?_)
    rw [List.append_assoc, ← List.append_assoc pending]
    refine ((List.reverse_perm _).append_right _).trans ?_
    rw [← List.append_assoc]
    exact List.perm_append_comm.append_right _

theorem calls_quiet (funcs : List F) : ∀ s : σ, during call funcs s = [] →
    Calls call funcs s funcs (after call funcs s) := by
  induction funcs with
  | nil => exact fun s _ => .nil s
  | cons func funcs ih =>
    intro s hnone
    obtain ⟨hfirst, hrest⟩ := List.append_eq_nil_iff.mp hnone
    refine .cons ?_
    rw [hfirst]
    exact ih _ hrest

/-- The walk calls what stood in front of the index, whatever is registered behind it. -/
theorem exitLoop_eq (front : List F) : ∀ (table : Table F) (behind : List F) (s : σ),
    table.atExit = front ++ behind →
      exitLoop call front.length table s = .ok (front.reverse, after call front.reverse s) := by
  induction front using List.reverseRecOn with
  | nil => exact fun _ _ _ _ => rfl
  | append_singleton front func ih =>
    intro table behind s htable
    rw [List.append_assoc, List.singleton_append] at htable
    have hat : table.atExit[front.length]? = some func := by
      rw [htable, List.getElem?_append_right (Nat.le_refl _), Nat.sub_self]
      rfl
    have hnext : (atexits (call func s).1 table).atExit =
        front ++ (func :: behind ++ granted (call func s).1) := by
      rw [atexits_table, htable, List.append_assoc]
    rw [List.length_append, List.length_singleton, exitLoop, hat]
    simp only
    rw [ih _ _ _ hnext, List.reverse_append, List.reverse_singleton, List.singleton_append]
    rfl

theorem exit_eq : exit call table s =
    .ok (table.atExit.reverse, after call table.atExit.reverse s) := by
  rw [exit, ← table.room]
  exact exitLoop_eq table.atExit table [] s (List.append_nil _).symm

end Calls

/-- `exit` calls what it is to call, after these registrations, if and only if no function registers
another one while it is called. -/
theorem exit_iff (call : F → σ → List (F × Bool) × σ) (calls : List (F × Bool)) (s : σ) :
    (∃ funcs s', exit call (atexits calls Table.empty) s = .ok (funcs, s') ∧
        Calls call (granted calls).reverse s funcs s') ↔
      during call (granted calls).reverse s = [] := by
  have htable : (atexits calls (Table.empty : Table F)).atExit = granted calls :=
    atexits_table calls Table.empty
  rw [exit_eq, htable]
  constructor
  · rintro ⟨funcs, s', heq, hcalls⟩
    obtain ⟨rfl, rfl⟩ := Prod.mk.inj (Except.ok.inj heq)
    have hlen := hcalls.perm.length_eq
    rw [List.length_append] at hlen
    exact List.eq_nil_of_length_eq_zero (by omega)
  · exact fun hnone => ⟨_, _, rfl, calls_quiet _ s hnone⟩

/-- The function `0` is registered, and registers `1` when it is called: `1` is not called. -/
theorem late_registration_lost :
    ¬ ∃ funcs s', exit (fun func (s : Unit) => (if func = 0 then [(1, true)] else [], s))
        (atexits [(0, true)] Table.empty) () = .ok (funcs, s') ∧
      Calls (fun func (s : Unit) => (if func = 0 then [(1, true)] else [], s))
        (granted [(0, true)]).reverse () funcs s' := by
  rintro ⟨funcs, s', heq, hcalls⟩
  have hexit : exit (fun func (s : Unit) => (if func = 0 then [(1, true)] else [], s))
      (atexits [(0, true)] Table.empty) () = .ok ([0], ()) := rfl
  rw [hexit] at heq
  obtain ⟨rfl, -⟩ := Prod.mk.inj (Except.ok.inj heq)
  cases hcalls with
  | cons hrest => cases hrest

end Mintlib.AtExit
