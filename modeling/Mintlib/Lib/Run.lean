import Mathlib.Tactic

/-!
# Runs of labelled transition systems

One induction rule: what holds initially and is kept by every step holds in
every state that a run reaches.
-/

namespace Mintlib

/-- A transition system with states `σ` and labels `ε`. -/
structure Machine (σ ε : Type*) where
  init : σ → Prop
  step : σ → ε → σ → Prop

namespace Machine

variable {σ ε : Type*} {M : Machine σ ε}

/-- `M.Run es s`: the labels `es`, in order, lead from an initial state to `s`. -/
inductive Run (M : Machine σ ε) : List ε → σ → Prop
  | start {s : σ} : M.init s → Run M [] s
  | snoc {es : List ε} {s s' : σ} {e : ε} : Run M es s → M.step s e s' → Run M (es ++ [e]) s'

theorem Run.invariant {P : σ → Prop} (hinit : ∀ s, M.init s → P s)
    (hstep : ∀ s e s', P s → M.step s e s' → P s') {es : List ε} {s : σ} (h : M.Run es s) :
    P s := by
  induction h with
  | start h => exact hinit _ h
  | snoc _ hs ih => exact hstep _ _ _ ih hs

theorem Run.foldlM {f : σ → ε → Option σ} {es fs : List ε} {s s' : σ} (h : M.Run es s)
    (hf : ∀ e ∈ fs, ∀ s s', f s e = some s' → M.step s e s') (he : fs.foldlM f s = some s') :
    M.Run (es ++ fs) s' := by
  induction fs generalizing es s with
  | nil =>
    rw [List.foldlM_nil, Option.pure_def, Option.some.injEq] at he
    rwa [List.append_nil, ← he]
  | cons e fs ih =>
    rw [List.foldlM_cons, Option.bind_eq_bind, Option.bind_eq_some_iff] at he
    obtain ⟨t, ht, he⟩ := he
    have hrun := h.snoc (hf e List.mem_cons_self s t ht)
    have hrest := ih hrun (fun e he => hf e (List.mem_cons_of_mem _ he)) he
    rwa [List.append_assoc, List.singleton_append] at hrest

end Machine

end Mintlib
