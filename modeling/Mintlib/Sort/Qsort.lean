import Mintlib.Sort.Quicksort

/-!
# `qsort` and `bsearch`

`qsort` merges when it has memory for a second array. `bsearch` finds in an array that is sorted what
is there.
-/

namespace Mintlib.Sort

open Compare Checked

variable {α κ : Type}

/-- `memory` says whether `malloc` succeeds; small arrays are on the stack. -/
def qsort (cmp : α → α → ℤ) (s : ℕ) (memory : Bool) (a : List α) : Except Stop (List α) :=
  let size := a.length * s % 2 ^ 32
  if size < 1024 ∨ memory then do
    let r ← msortWithTmp cmp (a.length + 1) 0 a.length a (List.replicate (size / s) none)
    .ok r.1
  else quicksort cmp s a

/-- The loop of `bsearch`, with `a` and `b`. -/
def bsearchLoop (cmp : κ → α → ℤ) (key : κ) (base : List α) :
    ℕ → ℕ → ℕ → Except Stop (Option ℕ)
  | 0, _, _ => .error .steps
  | steps + 1, a, b =>
    if a ≤ b then do
      let c := (a + b) % 2 ^ 32 / 2
      let x ← load base c
      let dir := cmp key x
      if dir ≠ 0 then
        if dir < 0 then
          if c = 0 then .ok none else bsearchLoop cmp key base steps a (c - 1)
        else bsearchLoop cmp key base steps (c + 1) b
      else .ok (some c)
    else .ok none

def bsearch (cmp : κ → α → ℤ) (key : κ) (base : List α) (size : ℕ) : Except Stop (Option ℕ) :=
  if size = 0 ∨ base.length = 0 then .ok none
  else bsearchLoop cmp key base (base.length + 1) 0 (base.length - 1)

theorem qsort_ok {cmp : α → α → ℤ} (hcmp : Consistent cmp) {s : ℕ} (hs : 0 < s) (memory : Bool)
    {a : List α} (hsize : a.length * s < 2 ^ 31) :
    ∃ b, qsort cmp s memory a = .ok b ∧ b.Perm a ∧ Sorted cmp b ∧
      (a.length * s < 1024 ∨ memory → StableSort cmp a b) := by
  have hmod : a.length * s % 2 ^ 32 = a.length * s := Nat.mod_eq_of_lt (hsize.trans (by norm_num))
  rw [qsort, hmod]
  by_cases hmerge : a.length * s < 1024 ∨ memory
  · rw [if_pos hmerge, Nat.mul_div_cancel _ hs]
    obtain ⟨r, t, hsort, hstable, -⟩ := msort_with_tmp_ok hcmp (a.length + 1) [] a []
      (List.replicate a.length none) rfl rfl (by rw [List.length_replicate]) (by omega) (by omega)
    rw [List.append_nil, List.append_nil, List.nil_append, List.nil_append, List.length_nil] at hsort
    rw [hsort, ok_bind]
    exact ⟨r, rfl, hstable.perm, hstable.sorted, fun _ => hstable⟩
  · obtain ⟨b, hsort, hperm, hsorted⟩ := quicksort_ok hcmp hs hsize
    rw [if_neg hmerge]
    exact ⟨b, hsort, hperm, hsorted, fun h => absurd h hmerge⟩

/-- The items for which the comparison with the key is positive come first, and those for which it is
negative come last. -/
def Divided (cmp : κ → α → ℤ) (key : κ) (base : List α) : Prop :=
  base.Pairwise fun x y => (cmp key x < 0 → cmp key y < 0) ∧ (0 < cmp key y → 0 < cmp key x)

section Search

variable {cmp : κ → α → ℤ} {key : κ} {base : List α} {i j : ℕ} {x y : α}

theorem Divided.get (h : Divided cmp key base) (hij : i < j) (hx : base[i]? = some x)
    (hy : base[j]? = some y) :
    (cmp key x < 0 → cmp key y < 0) ∧ (0 < cmp key y → 0 < cmp key x) := by
  obtain ⟨hi, rfl⟩ := List.getElem?_eq_some_iff.mp hx
  obtain ⟨hj, rfl⟩ := List.getElem?_eq_some_iff.mp hy
  exact List.pairwise_iff_getElem.mp h i j hi hj hij

theorem bsearchLoop_ok (h : Divided cmp key base) (hsmall : base.length ≤ 2 ^ 31) (steps a b : ℕ)
    (hb : b < base.length) (hsteps : b + 1 < a + steps) (hpos : 0 < steps)
    (hin : ∀ i x, base[i]? = some x → cmp key x = 0 → a ≤ i ∧ i ≤ b) :
    ∃ r, bsearchLoop cmp key base steps a b = .ok r ∧
      (∀ i, r = some i → ∃ x, base[i]? = some x ∧ cmp key x = 0) ∧
      (r = none → ∀ x ∈ base, cmp key x ≠ 0) := by
  have hnowhere : ∀ {l u : ℕ}, u < l → (∀ i x, base[i]? = some x → cmp key x = 0 → l ≤ i ∧ i ≤ u) →
      ∀ x ∈ base, cmp key x ≠ 0 := by
    intro l u hlt hin x hx hzero
    obtain ⟨i, hi⟩ := List.mem_iff_getElem?.mp hx
    have hrange := hin i x hi hzero
    omega
  induction steps generalizing a b with
  | zero => exact absurd hpos (Nat.lt_irrefl 0)
  | succ steps ih =>
    rw [bsearchLoop]
    by_cases hle : a ≤ b
    · have hmid : (a + b) % 2 ^ 32 / 2 = (a + b) / 2 := by
        rw [Nat.mod_eq_of_lt (by omega)]
      obtain ⟨x, hx⟩ := exists_get (a := base) (i := (a + b) / 2) (by omega)
      rw [if_pos hle]
      dsimp only
      rw [hmid, load_ok hx, ok_bind]
      by_cases hzero : cmp key x = 0
      · rw [if_neg (not_not.mpr hzero)]
        refine ⟨_, rfl, fun i hi => ?_, fun hnone => absurd hnone (by simp)⟩
        rw [← Option.some.inj hi]
        exact ⟨x, hx, hzero⟩
      · rw [if_pos hzero]
        by_cases hneg : cmp key x < 0
        · rw [if_pos hneg]
          -- what is behind is greater as well
          have hleft : ∀ i y, base[i]? = some y → cmp key y = 0 → i < (a + b) / 2 := by
            intro i y hy hkey
            rcases Nat.lt_trichotomy i ((a + b) / 2) with hlt | heq | hgt
            · exact hlt
            · rw [heq, hx] at hy
              rw [Option.some.inj hy] at hzero
              exact absurd hkey hzero
            · have hless := (h.get hgt hx hy).1 hneg
              omega
          by_cases hc : (a + b) / 2 = 0
          · rw [if_pos hc]
            refine ⟨none, rfl, fun i hi => absurd hi (by simp), fun _ y hy hkey => ?_⟩
            obtain ⟨i, hi⟩ := List.mem_iff_getElem?.mp hy
            have hlt := hleft i y hi hkey
            omega
          · rw [if_neg hc]
            refine ih a ((a + b) / 2 - 1) (by omega) (by omega) (by omega) fun i y hy hkey => ?_
            have hlt := hleft i y hy hkey
            have hrange := hin i y hy hkey
            omega
        · rw [if_neg hneg]
          have hpositive : 0 < cmp key x := by omega
          have hright : ∀ i y, base[i]? = some y → cmp key y = 0 → (a + b) / 2 < i := by
            intro i y hy hkey
            rcases Nat.lt_trichotomy i ((a + b) / 2) with hlt | heq | hgt
            · have hless := (h.get hlt hy hx).2 hpositive
              omega
            · rw [heq, hx] at hy
              rw [Option.some.inj hy] at hzero
              exact absurd hkey hzero
            · exact hgt
          refine ih ((a + b) / 2 + 1) b hb (by omega) (by omega) fun i y hy hkey => ?_
          have hlt := hright i y hy hkey
          have hrange := hin i y hy hkey
          omega
    · rw [if_neg hle]
      exact ⟨none, rfl, fun i hi => absurd hi (by simp), fun _ => hnowhere (by omega) hin⟩

theorem bsearch_ok (h : Divided cmp key base) (hsmall : base.length ≤ 2 ^ 31) {size : ℕ}
    (hsize : 0 < size) :
    ∃ r, bsearch cmp key base size = .ok r ∧
      (∀ i, r = some i → ∃ x, base[i]? = some x ∧ cmp key x = 0) ∧
      (r = none → ∀ x ∈ base, cmp key x ≠ 0) := by
  rw [bsearch]
  by_cases hempty : base.length = 0
  · rw [if_pos (Or.inr hempty), List.length_eq_zero_iff.mp hempty]
    exact ⟨none, rfl, fun i hi => absurd hi (by simp), fun _ x hx => absurd hx List.not_mem_nil⟩
  · rw [if_neg (by omega)]
    refine bsearchLoop_ok h hsmall (base.length + 1) 0 (base.length - 1) (by omega) (by omega)
      (Nat.succ_pos _) fun i x hx _ => ?_
    have hlt := (List.getElem?_eq_some_iff.mp hx).1
    omega

end Search

theorem divided_of_sorted {cmp : α → α → ℤ} (hcmp : Consistent cmp) {base : List α}
    (h : Sorted cmp base) (key : α) : Divided cmp key base := by
  refine h.imp fun {x y} hxy => ⟨fun hneg => hcmp.lt_of_lt_of_le hneg hxy, fun hpos => ?_⟩
  have hback := (hcmp.sign y key).mpr hpos
  have hall : cmp x key < 0 := by
    rw [← hcmp.not_le] at hback ⊢
    exact fun hkx => hback (hcmp.trans key x y hkx hxy)
  exact (hcmp.sign x key).mp hall

/-- Whether there is memory or not, `qsort` leaves the items of an array of less than 2^31 bytes
sorted, in their order when it merges, and `bsearch` finds in them what is equal to a key exactly
if there is such an item. -/
theorem qsort_bsearch {cmp : α → α → ℤ} (hcmp : Consistent cmp) (s : ℕ) (hs : 0 < s)
    (memory : Bool) (a : List α) (hsize : a.length * s < 2 ^ 31) (key : α) :
    ∃ b r, qsort cmp s memory a = .ok b ∧ b.Perm a ∧ Sorted cmp b ∧
      (a.length * s < 1024 ∨ memory → StableSort cmp a b) ∧ bsearch cmp key b s = .ok r ∧
      (∀ i, r = some i → ∃ x, b[i]? = some x ∧ cmp key x = 0) ∧
      (r ≠ none ↔ ∃ x ∈ a, cmp key x = 0) := by
  obtain ⟨b, hsort, hperm, hsorted, hstable⟩ := qsort_ok hcmp hs memory hsize
  have hlength := hperm.length_eq
  have hitems : a.length ≤ a.length * s := Nat.le_mul_of_pos_right _ hs
  obtain ⟨r, hsearch, hfound, hnone⟩ := bsearch_ok (divided_of_sorted hcmp hsorted key)
    (by omega) hs
  refine ⟨b, r, hsort, hperm, hsorted, hstable, hsearch, hfound, ?_⟩
  constructor
  · intro hne
    obtain ⟨i, hi⟩ := Option.ne_none_iff_exists'.mp hne
    obtain ⟨x, hx, hzero⟩ := hfound i hi
    exact ⟨x, hperm.mem_iff.mp (List.mem_of_getElem? hx), hzero⟩
  · rintro ⟨x, hx, hzero⟩ heq
    exact hnone heq x (hperm.mem_iff.mpr hx) hzero

theorem consistent_sub : Consistent fun x y : ℤ => x - y := by
  refine ⟨fun x y => ?_, fun x y z hxy hyz => ?_⟩
  · omega
  · omega

/-- Six items of 256 bytes, without memory for a second array: the quicksort. -/
theorem qsort_bsearch_demo : ∃ b r,
    qsort (fun x y : ℤ => x - y) 256 false [3, 1, 6, 2, 5, 4] = .ok b ∧ b.Perm [3, 1, 6, 2, 5, 4] ∧
    Sorted (fun x y : ℤ => x - y) b ∧
    ([3, 1, 6, 2, 5, 4].length * 256 < 1024 ∨ false = true →
      StableSort (fun x y : ℤ => x - y) [3, 1, 6, 2, 5, 4] b) ∧
    bsearch (fun x y : ℤ => x - y) 2 b 256 = .ok r ∧
    (∀ i, r = some i → ∃ x, b[i]? = some x ∧ (2 : ℤ) - x = 0) ∧
    (r ≠ none ↔ ∃ x ∈ [3, 1, 6, 2, 5, 4], (2 : ℤ) - x = 0) :=
  qsort_bsearch consistent_sub 256 (by norm_num) false [3, 1, 6, 2, 5, 4] (by norm_num) 2

end Mintlib.Sort
