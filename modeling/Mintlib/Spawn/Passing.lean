import Mintlib.Spawn.Retry

/-!
# From parent to child

1024 bytes are added to the block for what the lists become, and the list of the empty arguments.
As long as they are enough, there is one pass, and the child finds all variables and arguments.
-/

namespace Mintlib.Spawn

open Text Unx2dos Stores Checked
open StartUp (PATH pconvert names)

/-- What the list of the empty arguments takes from `left`. -/
def listTake : ℕ → Bool → List CStr → ℕ
  | _, _, [] => 0
  | idx, any, a :: argv =>
    if a.1 = [] then (if any then 0 else 6) + (place idx).length + 2 + listTake (idx + 1) true argv
    else listTake (idx + 1) any argv

section Enough

variable {σ : Sys} {pconv : Option Str} {enlen min_left : ℕ}

theorem envLoop_through (σ : Sys) (pconv : Option Str) (envp : List CStr) {f : Filled} {k : ℕ}
    (hlen : enlen < 2 ^ 32)
    (hpos : 64 ≤ min_left) (hf : Between enlen min_left f)
    (hroom : min_left + total envp + (envp.map fun p => growth pconv p.1).sum + k ≤ f.left) :
    ∃ f', envLoop σ pconv enlen min_left envp f = .ok (.done f') ∧ Between enlen min_left f' ∧
      f'.out = f.out ++ flat (envp.map fun p => whole σ pconv p.1) ∧ min_left + k ≤ f'.left := by
  induction envp generalizing f with
  | nil => exact ⟨f, rfl, hf, (List.append_nil _).symm, by
      rw [List.map_nil, List.sum_nil] at hroom
      omega⟩
  | cons p envp ih =>
    have htotal : total (p :: envp) = p.1.length + 1 + total envp := List.sum_cons
    rw [List.map_cons, List.sum_cons, htotal] at hroom
    obtain ⟨f₁, hone, hf₁, hout, hleft⟩ := copyOne_through σ pconv p.1
      hlen hpos hf (by omega)
    obtain ⟨f', hloop, hf', hout', hleft'⟩ := ih hf₁ (by omega)
    refine ⟨f', ?_, hf', ?_, hleft'⟩
    · rw [envLoop, hone]
      exact hloop
    · rw [hout', hout, List.map_cons, flat_cons, List.append_assoc f.out, List.append_assoc f.out]

theorem nullLoop_through (argv : List CStr) (idx : ℕ) {k : ℕ} {any : Bool} {f : Filled}
    (hlen : enlen < 2 ^ 32) (hpos : 64 ≤ min_left) (hidx : idx + argv.length < 2 ^ 32)
    (h : Listing enlen min_left k any f)
    (hroom : min_left + listTake idx any argv ≤ f.left) :
    ∃ t, nullLoop enlen min_left argv idx any f = .ok (.done t) := by
  induction argv generalizing k idx any f with
  | nil => exact ⟨_, rfl⟩
  | cons a argv ih =>
    rw [List.length_cons] at hidx
    rw [nullLoop]
    rw [listTake] at hroom
    by_cases hempty : a.1 = []
    · rw [if_pos hempty] at hroom ⊢
      have hsmall := h.small
      obtain ⟨f₁, hlist, hnext⟩ := listEmpty_ok hlen hpos (show idx < 2 ^ 32 by omega) h
      have hleft : f₁.left = f.left - ((if any then 0 else 6) + (place idx).length + 2) := by
        rw [listEmpty] at hlist
        obtain ⟨out₁, -, hrest⟩ := bind_eq_ok hlist
        obtain ⟨out₂, -, hrest⟩ := bind_eq_ok hrest
        rw [← Except.ok.inj hrest]
        cases any with
        | true =>
          simp only [if_true] at hroom ⊢
          rw [less_eq (by omega) (by omega)]
          omega
        | false =>
          simp only [Bool.false_eq_true, if_false] at hroom ⊢
          rw [less_eq (show 6 ≤ f.left by omega) (by omega), less_eq (by omega) (by omega)]
          omega
      have hgo : ¬ f₁.left < min_left := by omega
      rw [hlist]
      simp only
      rw [if_neg hgo]
      exact ih (idx + 1) (by omega) (hnext (by omega)) (by omega)
    · rw [if_neg hempty] at hroom ⊢
      exact ih (idx + 1) (by omega) h hroom

end Enough

end Mintlib.Spawn
