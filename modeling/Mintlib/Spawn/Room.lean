import Mintlib.Spawn.Parse

/-!
# Room in the block of `_spawnve`

Before a list is converted, what it can become at most is taken from `left`, without a sign. As long
as that is not more than `left`, all stores are inside the block.
-/

namespace Mintlib.Spawn

open Text Unx2dos Stores Checked
open StartUp (PATH pconvert names)
open PathLists (dosName unx2dos_eq)
open NameRoom (IsDevice dosWhole dosDrive dosName_eq_drive length_dosWhole unx2dos_device device_eq)

def dosPath (σ : Sys) (es : List Str) : Str :=
  [COMMA].intercalate (es.map fun e => dosWhole σ (e.take (PATH_MAX - 1)))

section Lists

variable {σ : Sys} {e unx : Str} {es : List Str} {len : ℕ}

theorem unx2dos_whole (h : (dosWhole σ unx).length + 1 < len) (hlen : len < 2 ^ 32) :
    ∃ ret, unx2dos σ unx len = some (dosWhole σ unx, ret) := by
  by_cases hdevice : IsDevice σ unx
  · rw [length_dosWhole hdevice] at h
    have hless : less len 1 = len - 1 := less_eq (by omega) hlen
    refine ⟨1, ?_⟩
    rw [unx2dos_device hdevice, hless, device_eq (by omega), dosWhole, if_pos hdevice]
  · rw [dosWhole, if_neg hdevice] at h ⊢
    refine unx2dos_eq (fun hdev => ?_) (by omega) hlen
    by_contra hnone
    rw [not_or, not_not] at hnone
    exact hdevice ⟨hdev, hnone.1, hnone.2⟩

theorem length_dosWhole_le (σ : Sys) (unx : Str) : (dosWhole σ unx).length ≤ unx.length + 2 := by
  by_cases hdevice : IsDevice σ unx
  · rw [length_dosWhole hdevice, List.length_drop]
    omega
  · rw [dosWhole, if_neg hdevice, dosName_eq_drive, List.length_append, List.length_map, dosDrive]
    split_ifs with hdev hdrive hpipe hroot
    · show 2 + (unx.drop 5).tail.length ≤ _
      rw [List.length_tail, List.length_drop]
      omega
    · have hlong : 5 ≤ unx.length := hdev.length_le
      show 7 + (unx.drop 5).length ≤ _
      rw [List.length_drop]
      omega
    · have hlong : 6 ≤ unx.length := hpipe.2.length_le
      show 8 + (unx.drop 6).length ≤ _
      rw [List.length_drop]
      omega
    · show 2 + unx.length ≤ _
      omega
    · show 0 + unx.length ≤ _
      omega

theorem dosPath_cons (h : es ≠ []) : dosPath σ (e :: es) =
    dosWhole σ (e.take (PATH_MAX - 1)) ++ COMMA :: dosPath σ es := by
  rw [dosPath, List.map_cons, List.intercalate_cons_of_ne_nil (by simpa using h)]
  simp only [List.append_assoc, List.singleton_append]
  rfl

theorem dosPath_singleton : dosPath σ [e] = dosWhole σ (e.take (PATH_MAX - 1)) := by
  rw [dosPath, List.map_singleton, List.intercalate_singleton]

theorem reachOne_le (unx : Str) {t : Str} (h : t.length < len) (hlen : len < 2 ^ 32) :
    reachOne σ unx t len ≤ len := by
  have hless : less len 1 = len - 1 := less_eq (by omega) hlen
  rw [reachOne, hless]
  split <;> omega

theorem pathLoop_whole (σ : Sys) (es : List Str) (h : (dosPath σ es).length + 11 < len)
    (hlen : len < 2 ^ 32) :
    pathLoop (unx2dos σ) COMMA len es = some (dosPath σ es) ∧ reach σ len es ≤ len := by
  induction es generalizing len with
  | nil => exact ⟨rfl, by rw [reach]; omega⟩
  | cons e es ih =>
    set t := dosWhole σ (e.take (PATH_MAX - 1)) with ht
    by_cases hnil : es = []
    · rw [hnil, dosPath_singleton, ← ht] at h ⊢
      obtain ⟨ret, hcall⟩ := unx2dos_whole (show t.length + 1 < len by omega) hlen
      refine ⟨?_, ?_⟩
      · rw [pathLoop_cons hcall rfl, if_pos (Or.inr rfl)]
      · have hone := reachOne_le (σ := σ) (e.take (PATH_MAX - 1))
          (show t.length < len by omega) hlen
        simp only [reach, hcall, ← ht, or_true, if_true]
        omega
    · rw [dosPath_cons hnil, ← ht, List.length_append, List.length_cons] at h
      obtain ⟨ret, hcall⟩ := unx2dos_whole (show t.length + 1 < len by omega) hlen
      have hless : less len t.length = len - t.length := less_eq (by omega) hlen
      have hless' : less (len - t.length) 1 = len - t.length - 1 := less_eq (by omega) (by omega)
      obtain ⟨hrest, hreach⟩ := ih (show _ < len - t.length - 1 by omega) (by omega)
      have hgo : ¬ (len - t.length ≤ 10 ∨ es = []) := not_or.mpr ⟨by omega, hnil⟩
      refine ⟨?_, ?_⟩
      · rw [pathLoop_cons hcall hless, if_neg hgo, hless', hrest, Option.map_some,
          dosPath_cons hnil]
      · have hone := reachOne_le (σ := σ) (e.take (PATH_MAX - 1))
          (show t.length < len by omega) hlen
        simp only [reach, hcall, ← ht, hless, if_neg hgo, hless']
        omega

/-- There are not more elements than colons and one, and they are not longer than the list. -/
theorem elements_size (unx : Str) : (elements isUnxSep unx).length ≤ 1 + unx.countP isUnxSep ∧
    ((elements isUnxSep unx).map fun e => e.length + 1).sum ≤ unx.length + 1 ∧
    (unx = [] ∨ elements isUnxSep unx ≠ []) := by
  induction unx with
  | nil => exact ⟨Nat.zero_le _, Nat.zero_le _, Or.inl rfl⟩
  | cons c unx ih =>
    obtain ⟨hcount, hsum, -⟩ := ih
    refine ⟨?_, ?_, Or.inr (elements_ne_nil (List.cons_ne_nil c unx))⟩
    · rw [elements, List.countP_cons]
      by_cases hc : isUnxSep c = true
      · rw [if_pos hc, if_pos hc, List.length_cons]
        omega
      · rw [if_neg hc, if_neg hc]
        cases hes : elements isUnxSep unx with
        | nil =>
          show 1 ≤ _
          omega
        | cons e es =>
          rw [hes, List.length_cons] at hcount
          show es.length + 1 ≤ _
          omega
    · rw [elements, List.length_cons]
      by_cases hc : isUnxSep c = true
      · rw [if_pos hc, List.map_cons, List.sum_cons, List.length_nil]
        omega
      · rw [if_neg hc]
        cases hes : elements isUnxSep unx with
        | nil =>
          show 1 + 1 + 0 ≤ _
          omega
        | cons e es =>
          rw [hes, List.map_cons, List.sum_cons] at hsum
          show e.length + 1 + 1 + (es.map fun e => e.length + 1).sum ≤ _
          omega

theorem length_dosPath_le (σ : Sys) (es : List Str) : (dosPath σ es).length + 1 ≤
    (es.map fun e => e.length + 1).sum + 2 * es.length + (if es = [] then 1 else 0) := by
  induction es with
  | nil => exact Nat.le_refl 1
  | cons e es ih =>
    have hone := length_dosWhole_le σ (e.take (PATH_MAX - 1))
    rw [List.length_take] at hone
    rw [if_neg (List.cons_ne_nil _ _), List.map_cons, List.sum_cons, List.length_cons]
    by_cases hnil : es = []
    · rw [hnil, dosPath_singleton]
      show _ ≤ e.length + 1 + 0 + 2 * 1 + 0
      omega
    · rw [if_neg hnil] at ih
      rw [dosPath_cons hnil, List.length_append, List.length_cons]
      omega

theorem length_converted (σ : Sys) (unx : Str) : (dosPath σ (elements isUnxSep unx)).length ≤
    unx.length + (1 + unx.countP isUnxSep) * 2 := by
  obtain ⟨hcount, hsum, hne⟩ := elements_size unx
  have hlength := length_dosPath_le σ (elements isUnxSep unx)
  rcases hne with hnil | hne
  · rw [hnil]
    exact Nat.zero_le _
  · rw [if_neg hne] at hlength
    omega

end Lists

section Stores

variable {σ : Sys} {pconv : Option Str} {enlen min_left : ℕ} {out text : Str}

theorem put_ok {c : UInt8} (h : out.length < enlen) : put enlen out c = .ok (out ++ [c]) := if_pos h

theorem puts_ok (h : out.length + text.length ≤ enlen) :
    puts enlen text out = .ok (out ++ text) := by
  induction text generalizing out with
  | nil => rw [puts, List.append_nil]
  | cons c text ih =>
    rw [List.length_cons] at h
    have hlength : (out ++ [c]).length = out.length + 1 := List.length_append
    rw [puts, put_ok (by omega), ok_bind, ih (by omega), List.append_assoc, List.singleton_append]

theorem putsIf_ok (cond : Bool) (h : out.length + text.length ≤ enlen) :
    putsIf cond enlen text out = .ok (if cond then out ++ text else out) := by
  cases cond with
  | true => exact puts_ok h
  | false => rfl

/-- Between two variables: what has been written and what is left make up the block, and the arguments
have room in what is left. -/
structure Between (enlen min_left : ℕ) (f : Filled) : Prop where
  all : f.out.length + f.left = enlen
  least : min_left ≤ f.left

theorem less_left {f : Filled} {n : ℕ} (hlen : enlen < 2 ^ 32) (h : Between enlen min_left f)
    (hn : n ≤ f.left) : less f.left n = f.left - n :=
  less_eq hn (by have := h.all; omega)

/-- What is to hold in front of a variable: the estimate for a list is not more than `left`, or the
check sees that there is no room; and in front of an empty string there is a byte to spare. -/
def Guarded (pconv : Option Str) (min_left : ℕ) (p : Str) (f : Filled) : Prop :=
  match listed pconv p with
  | some len => less f.left (estimate p len) < min_left ∨
      p.length + (1 + (p.drop len).countP isUnxSep) * 2 + 1 ≤ f.left
  | none => p = [] → min_left < f.left

def Goes (enlen min_left : ℕ) (r : Except Stop (Option Filled)) : Prop :=
  ∃ next, r = .ok next ∧ ∀ f ∈ next, Between enlen min_left f

theorem copyVar_goes {p : Str} {f : Filled} (hlen : enlen < 2 ^ 32) (hpos : 0 < min_left)
    (hf : Between enlen min_left f) (hnil : p = [] → min_left < f.left) :
    Goes enlen min_left (copyVar enlen min_left p f) := by
  induction p generalizing f with
  | nil =>
    have hall := hf.all
    have hroom := hnil rfl
    have hless := less_left hlen hf (n := 1) (by omega)
    have hlength : (f.out ++ [0]).length = f.out.length + 1 := List.length_append
    refine ⟨some ⟨f.out ++ [0], less f.left 1⟩, ?_, ?_⟩
    · rw [copyVar, put_ok (by omega), ok_bind]
    · intro f' hf'
      rw [← Option.mem_some.mp hf', hless]
      refine ⟨?_, ?_⟩
      · show (f.out ++ [0]).length + (f.left - 1) = enlen
        omega
      · show min_left ≤ f.left - 1
        omega
  | cons c p ih =>
    have hall := hf.all
    have hleast := hf.least
    have hless := less_left hlen hf (n := 1) (by omega)
    have hlength : (f.out ++ [c]).length = f.out.length + 1 := List.length_append
    rw [copyVar, put_ok (by omega), ok_bind, hless]
    by_cases hend : f.left - 1 ≤ min_left
    · rw [if_pos hend]
      exact ⟨none, rfl, fun f' hf' => absurd hf' (by simp)⟩
    · rw [if_neg hend]
      have hall' : (f.out ++ [c]).length + (f.left - 1) = enlen := by omega
      exact ih ⟨hall', by show min_left ≤ f.left - 1; omega⟩
        (fun _ => by show min_left < f.left - 1; omega)

theorem convertVar_goes {p : Str} {len : ℕ} {early : Bool} {f : Filled} (hlen : enlen < 2 ^ 32)
    (hpos : 64 ≤ min_left) (hf : Between enlen min_left f) (hp : len ≤ p.length)
    (hearly : early = true → len ≤ 64)
    (hguard : less f.left (estimate p len) < min_left ∨
      p.length + (1 + (p.drop len).countP isUnxSep) * 2 + 1 ≤ f.left) :
    Goes enlen min_left (convertVar σ early enlen min_left p len f) := by
  have hall := hf.all
  have hleast := hf.least
  have htake : (p.take len).length = len := List.length_take_of_le hp
  have hnamed : putsIf early enlen (p.take len) f.out =
      .ok (if early then f.out ++ p.take len else f.out) := by
    cases early with
    | true => exact puts_ok (by have := hearly rfl; omega)
    | false => rfl
  rw [convertVar, hnamed, ok_bind]
  -- the estimate asks for another block; otherwise it is not less than what is converted
  by_cases hmore : less f.left (estimate p len) < min_left
  · rw [if_pos hmore]
    exact ⟨none, rfl, fun f' hf' => absurd hf' (by simp)⟩
  · have hfits := hguard.resolve_left hmore
    rw [if_neg hmore]
    have hest : estimate p len = p.length + (1 + (p.drop len).countP isUnxSep) * 2 + 1 :=
      Nat.mod_eq_of_lt (by omega)
    rw [hest, less_left hlen hf hfits] at hmore
    have hdrop : (p.drop len).length = p.length - len := List.length_drop
    have hgrown := length_converted σ (p.drop len)
    have hless : less f.left len = f.left - len := less_left hlen hf (by omega)
    obtain ⟨hpath, hreach⟩ := pathLoop_whole σ (elements isUnxSep (p.drop len))
      (show _ < f.left - len by omega) (by omega)
    set t := dosPath σ (elements isUnxSep (p.drop len)) with ht
    have hname : (f.out ++ p.take len).length = f.out.length + len := by
      rw [List.length_append, htake]
    have hboth : putsIf (!early) enlen (p.take len)
        (if early then f.out ++ p.take len else f.out) = .ok (f.out ++ p.take len) := by
      cases early with
      | true => rfl
      | false =>
        show puts enlen (p.take len) f.out = _
        exact puts_ok (by omega)
    have hconvert : convert σ enlen (f.out ++ p.take len) (p.drop len) (f.left - len) =
        .ok (f.out ++ p.take len ++ t ++ [0]) := by
      rw [convert, pathUnx2dos, hpath]
      simp only [hname]
      rw [if_pos (by omega)]
    have hlength : (f.out ++ p.take len ++ t ++ [0]).length = f.out.length + len + t.length + 1 := by
      rw [List.length_append, List.length_append, hname, List.length_singleton]
    refine ⟨some ⟨f.out ++ p.take len ++ t ++ [0],
      less f.left (len + t.length + 1)⟩, ?_, ?_⟩
    · rw [hboth, ok_bind, hless, hconvert, ok_bind, hlength]
      congr 4
      omega
    · intro f' hf'
      rw [← Option.mem_some.mp hf', less_left hlen hf (by omega)]
      refine ⟨?_, ?_⟩
      · rw [hlength]
        show _ + (f.left - _) = _
        omega
      · show min_left ≤ f.left - _
        omega

theorem listed_le {p : Str} {len : ℕ} (h : listed pconv p = some len) :
    len ≤ p.length ∧ (pconv.isNone = true → len ≤ 64) := by
  unfold listed at h
  cases pconv with
  | none =>
    simp only at h
    split at h
    · next hpath =>
      rw [← Option.some.inj h]
      exact ⟨hpath.length_le, fun _ => by decide⟩
    · exact absurd h (by simp)
  | some pconv =>
    simp only [Option.map_eq_some_iff] at h
    obtain ⟨name, hfound, rfl⟩ := h
    have hnamed : Named name p := by simpa using List.find?_some hfound
    have hlength := hnamed.length_le
    rw [List.length_append, List.length_singleton] at hlength
    exact ⟨hlength, fun hnone => absurd hnone (by simp)⟩

theorem copyOne_goes {p : Str} {f : Filled} (hlen : enlen < 2 ^ 32) (hpos : 64 ≤ min_left)
    (hf : Between enlen min_left f) (hguard : Guarded pconv min_left p f) :
    Goes enlen min_left (copyOne σ pconv enlen min_left p f) := by
  rw [Guarded] at hguard
  rw [copyOne]
  cases hlisted : listed pconv p with
  | none =>
    rw [hlisted] at hguard
    exact copyVar_goes hlen (by omega) hf hguard
  | some len =>
    rw [hlisted] at hguard
    obtain ⟨hle, hearly⟩ := listed_le hlisted
    exact convertVar_goes hlen hpos hf hle hearly hguard

end Stores

section Arguments

variable {enlen min_left : ℕ}

theorem length_digitLoop {m : ℕ} : ∀ (steps val : ℕ) (ds : Str), val < 10 ^ m →
    (digitLoop steps val ds).length ≤ ds.length + m := by
  induction m with
  | zero =>
    intro steps val ds hval
    have hzero : val = 0 := by omega
    cases steps with
    | zero => exact Nat.le_refl _
    | succ steps =>
      rw [digitLoop, if_pos hzero]
      exact Nat.le_refl _
  | succ m ih =>
    intro steps val ds hval
    cases steps with
    | zero => exact Nat.le_add_right _ _
    | succ steps =>
      rw [digitLoop]
      by_cases hzero : val = 0
      · rw [if_pos hzero]
        exact Nat.le_add_right _ _
      · rw [if_neg hzero]
        rw [Nat.pow_succ] at hval
        have hless : val / 10 < 10 ^ m := by omega
        have hlength := ih steps (val / 10) (digit (val % 10) :: ds) hless
        rw [List.length_cons] at hlength
        omega

theorem length_place {idx : ℕ} (h : idx < 2 ^ 32) : (place idx).length ≤ 10 := by
  rw [place]
  by_cases hzero : idx = 0
  · rw [if_pos hzero]
    decide
  · rw [if_neg hzero]
    have hlength := length_digitLoop idx idx []
      (show idx < 10 ^ 10 by omega)
    rw [List.length_nil] at hlength
    omega

/-- While the empty arguments are listed, `k` of them so far, `left` counts the NUL of the list and a
blank for each that comes later. -/
structure Listing (enlen min_left k : ℕ) (any : Bool) (f : Filled) : Prop where
  some : any = true ↔ 0 < k
  head : f.out ≠ []
  all : f.out.length + f.left + k = enlen + (if any then 3 else 6)
  least : min_left ≤ f.left
  small : f.left ≤ enlen

theorem listEmpty_ok {k idx : ℕ} {any : Bool} {f : Filled} (hlen : enlen < 2 ^ 32)
    (hpos : 64 ≤ min_left) (hidx : idx < 2 ^ 32) (h : Listing enlen min_left k any f) :
    ∃ f', listEmpty enlen idx any f = .ok f' ∧
      (min_left ≤ f'.left → Listing enlen min_left (k + 1) true f') := by
  have hplace := length_place hidx
  have hall := h.all
  have hleast := h.least
  have hsmall := h.small
  have hnonempty : 0 < f.out.length := List.length_pos_iff.mpr h.head
  -- a comma in front of another number, or the head of the list in front of the first
  cases any with
  | true =>
    have hk : 0 < k := h.some.mp rfl
    simp only [if_true] at hall
    have hcomma : (f.out ++ [COMMA]).length = f.out.length + 1 := List.length_append
    have hless : less f.left ((place idx).length + 2) = f.left - ((place idx).length + 2) :=
      less_eq (by omega) (by omega)
    refine ⟨⟨f.out ++ [COMMA] ++ place idx, less f.left ((place idx).length + 2)⟩, ?_, ?_⟩
    · rw [listEmpty, beginPlace, if_pos rfl, put_ok (by omega), ok_bind, puts_ok (by omega), ok_bind,
        if_pos rfl]
    · intro hroom
      refine ⟨iff_of_true rfl (Nat.succ_pos k), by simp, ?_, hroom, ?_⟩
      · show (f.out ++ [COMMA] ++ place idx).length + less f.left _ + (k + 1) = enlen + 3
        rw [List.length_append, hcomma, hless]
        omega
      · show less f.left _ ≤ enlen
        rw [hless]
        omega
  | false =>
    have hk : k = 0 := by
      have := h.some
      simp only [Bool.false_eq_true, false_iff] at this
      omega
    simp only [Bool.false_eq_true, if_false] at hall
    have hcut : f.out.dropLast.length = f.out.length - 1 := List.length_dropLast
    have hputs : puts enlen (NULL ++ [0]) f.out.dropLast = .ok (f.out.dropLast ++ (NULL ++ [0])) :=
      puts_ok (by rw [hcut]; show _ + 6 ≤ enlen; omega)
    have hnull : (f.out.dropLast ++ (NULL ++ [0])).dropLast = f.out.dropLast ++ NULL := by
      rw [← List.append_assoc, List.dropLast_concat]
    have hlength : (f.out.dropLast ++ NULL).length = f.out.length + 4 := by
      rw [List.length_append, hcut]
      show _ + 5 = _
      omega
    have hless : less (less f.left 6) ((place idx).length + 2) =
        f.left - 6 - ((place idx).length + 2) := by
      rw [less_eq (show 6 ≤ f.left by omega) (by omega), less_eq (by omega) (by omega)]
    refine ⟨⟨f.out.dropLast ++ NULL ++ place idx,
      less (less f.left 6) ((place idx).length + 2)⟩, ?_, ?_⟩
    · rw [listEmpty, beginPlace, if_neg Bool.false_ne_true, hputs]
      show (puts enlen (place idx) (f.out.dropLast ++ (NULL ++ [0])).dropLast >>= _) = _
      rw [hnull, puts_ok (by omega), ok_bind, if_neg Bool.false_ne_true]
    · intro hroom
      refine ⟨iff_of_true rfl (Nat.succ_pos k), by simp, ?_, hroom, ?_⟩
      · show (f.out.dropLast ++ NULL ++ place idx).length + less (less f.left 6) _ + (k + 1) =
          enlen + 3
        rw [List.length_append, hlength, hless]
        omega
      · show less (less f.left 6) _ ≤ enlen
        rw [hless]
        omega

theorem nullLoop_ok (argv : List CStr) (idx : ℕ) {k : ℕ} {any : Bool} {f : Filled}
    (hlen : enlen < 2 ^ 32) (hpos : 64 ≤ min_left) (hidx : idx + argv.length < 2 ^ 32)
    (h : Listing enlen min_left k any f) :
    ∃ r, nullLoop enlen min_left argv idx any f = .ok r ∧ ∀ any' f', r = .done (any', f') →
      Listing enlen min_left (k + (empties idx argv).length) any' f' := by
  induction argv generalizing k idx any f with
  | nil =>
    refine ⟨_, rfl, fun any' f' hdone => ?_⟩
    injection hdone with hsame
    obtain ⟨rfl, rfl⟩ := Prod.mk.inj hsame
    exact h
  | cons a argv ih =>
    rw [List.length_cons] at hidx
    rw [nullLoop, empties]
    by_cases hempty : a.1 = []
    · rw [if_pos hempty, if_pos hempty, List.length_cons]
      obtain ⟨f₁, hlist, hnext⟩ := listEmpty_ok hlen hpos (show idx < 2 ^ 32 by omega) h
      rw [hlist]
      simp only
      by_cases hmore : f₁.left < min_left
      · rw [if_pos hmore]
        exact ⟨_, rfl, fun any' f' hdone => absurd hdone (by simp)⟩
      · rw [if_neg hmore]
        obtain ⟨r, hr, hdone⟩ := ih (idx + 1) (by omega) (hnext (by omega))
        refine ⟨r, hr, fun any' f' h' => ?_⟩
        rw [Nat.add_comm (empties (idx + 1) argv).length 1, ← Nat.add_assoc]
        exact hdone any' f' h'
    · rw [if_neg hempty, if_neg hempty]
      exact ih (idx + 1) (by omega) h

theorem length_argTexts (argv : List CStr) (idx : ℕ) :
    (argv.flatMap fun a => argText a.1).length = total argv + (empties idx argv).length := by
  induction argv generalizing idx with
  | nil => rfl
  | cons a argv ih =>
    have htotal : total (a :: argv) = a.1.length + 1 + total argv := List.sum_cons
    rw [List.flatMap_cons, List.length_append, ih (idx + 1), htotal, empties, argText,
      List.length_append, List.length_singleton, shown]
    by_cases hempty : a.1 = []
    · rw [if_pos hempty, if_pos hempty, hempty]
      show 1 + 1 + _ = 0 + 1 + _ + ((empties (idx + 1) argv).length + 1)
      omega
    · rw [if_neg hempty, if_neg hempty]
      omega

theorem putArgs_ok {argv : List CStr} {out : Str}
    (h : out.length + (argv.flatMap fun a => argText a.1).length ≤ enlen) :
    putArgs enlen argv out = .ok (out ++ argv.flatMap fun a => argText a.1) := by
  induction argv generalizing out with
  | nil => rw [putArgs, List.flatMap_nil, List.append_nil]
  | cons a argv ih =>
    rw [List.flatMap_cons, List.length_append] at h
    have hlength : (out ++ argText a.1).length = out.length + (argText a.1).length :=
      List.length_append
    rw [putArgs, puts_ok (by omega), ok_bind, ih (by omega), List.flatMap_cons, List.append_assoc]

theorem length_le_total (argv : List CStr) : argv.length ≤ total argv := by
  induction argv with
  | nil => exact Nat.le_refl 0
  | cons a argv ih =>
    have htotal : total (a :: argv) = a.1.length + 1 + total argv := List.sum_cons
    rw [List.length_cons]
    omega

/-- What is left behind the variables is enough for the arguments, or the pass ends in front of them. -/
theorem argSection_ok (argv : List CStr) {f : Filled} (hlen : enlen < 2 ^ 32)
    (htotal : total argv + 64 < 2 ^ 32) (h : Between enlen (total argv + 64) f) :
    ∃ r, argSection enlen (total argv + 64) argv f = .ok r := by
  have hall := h.all
  have hleast := h.least
  have hargs := length_le_total argv
  have hstart : (f.out ++ (ARGV ++ [0])).length = f.out.length + 6 := List.length_append
  have hlisting : Listing enlen (total argv + 64) 0 false ⟨f.out ++ (ARGV ++ [0]), f.left⟩ := by
    refine ⟨by simp, by simp, ?_, hleast, ?_⟩
    · show (f.out ++ (ARGV ++ [0])).length + f.left + 0 = enlen + 6
      omega
    · show f.left ≤ enlen
      omega
  obtain ⟨r, hnull, hdone⟩ := nullLoop_ok argv 0 hlen (by omega) (by omega)
    hlisting
  rw [argSection, puts_ok (by show _ + 6 ≤ enlen; omega), ok_bind, hnull, ok_bind]
  cases r with
  | more envp => exact ⟨_, rfl⟩
  | done t =>
    obtain ⟨any, f'⟩ := t
    have hend := hdone any f' rfl
    have hend_all := hend.all
    have hend_least := hend.least
    have htexts := length_argTexts argv 0
    rw [Nat.zero_add] at hend_all
    have hzero : f'.out.length + 1 ≤ enlen := by split at hend_all <;> omega
    simp only
    rw [putsIf_ok any (show f'.out.length + ([0] : Str).length ≤ enlen from hzero), ok_bind]
    have hout : (if any then f'.out ++ [0] else f'.out).length +
        (argv.flatMap fun a => argText a.1).length + 2 ≤ enlen := by
      cases any with
      | true =>
        simp only [if_true] at hend_all ⊢
        rw [List.length_append, List.length_singleton]
        omega
      | false =>
        simp only [Bool.false_eq_true, if_false] at hend_all ⊢
        have hnone : (empties 0 argv).length = 0 := by
          have hsome := hend.some
          simp only [Bool.false_eq_true, false_iff] at hsome
          omega
        omega
    rw [putArgs_ok (by omega), ok_bind, puts_ok (by
      rw [List.length_append]
      show _ + 2 ≤ enlen
      omega), ok_bind]
    exact ⟨_, rfl⟩

end Arguments

def whole (σ : Sys) (pconv : Option Str) (p : Str) : Str :=
  match listed pconv p with
  | none => p
  | some len => p.take len ++ dosPath σ (elements isUnxSep (p.drop len))

def growth (pconv : Option Str) (p : Str) : ℕ :=
  match listed pconv p with
  | none => 0
  | some len => (1 + (p.drop len).countP isUnxSep) * 2

section Whole

variable {σ : Sys} {pconv : Option Str} {enlen min_left : ℕ}

theorem copyOne_whole {p : Str} {f f' : Filled} (hlen : enlen < 2 ^ 32) (hpos : 64 ≤ min_left)
    (hf : Between enlen min_left f) (hguard : Guarded pconv min_left p f)
    (h : copyOne σ pconv enlen min_left p f = .ok (some f')) :
    f'.out = f.out ++ whole σ pconv p ++ [0] := by
  rw [Guarded] at hguard
  rw [copyOne] at h
  rw [whole]
  cases hlisted : listed pconv p with
  | none =>
    rw [hlisted] at h
    exact copyVar_shape h
  | some len =>
    rw [hlisted] at h hguard
    have hall := hf.all
    obtain ⟨hle, -⟩ := listed_le hlisted
    have hmore : ¬ less f.left (estimate p len) < min_left := by
      intro hmore
      have hvar : convertVar σ pconv.isNone enlen min_left p len f = .ok (some f') := h
      rw [convertVar] at hvar
      obtain ⟨named, -, hrest⟩ := bind_eq_ok hvar
      rw [if_pos hmore] at hrest
      exact absurd (Except.ok.inj hrest) (by simp)
    have hfits := hguard.resolve_left hmore
    have hest : estimate p len = p.length + (1 + (p.drop len).countP isUnxSep) * 2 + 1 :=
      Nat.mod_eq_of_lt (by omega)
    rw [hest, less_left hlen hf hfits] at hmore
    have hdrop : (p.drop len).length = p.length - len := List.length_drop
    have hgrown := length_converted σ (p.drop len)
    have hless : less f.left len = f.left - len := less_left hlen hf (by omega)
    obtain ⟨t, ht, hout, -⟩ := convertVar_shape h
    obtain ⟨hpath, -⟩ := pathLoop_whole σ (elements isUnxSep (p.drop len))
      (show _ < f.left - len by omega) (by omega)
    rw [pathUnx2dos, hless, hpath] at ht
    rw [hout, ← Option.some.inj ht]

theorem copyVar_none {p : Str} {f : Filled} (hlen : enlen < 2 ^ 32)
    (hf : Between enlen min_left f) (hroom : min_left + p.length < f.left) :
    copyVar enlen min_left p f ≠ .ok none := by
  induction p generalizing f with
  | nil =>
    intro h
    rw [copyVar] at h
    obtain ⟨out, -, hrest⟩ := bind_eq_ok h
    exact absurd (Except.ok.inj hrest) (by simp)
  | cons c p ih =>
    have hall := hf.all
    rw [List.length_cons] at hroom
    have hless := less_left hlen hf (n := 1) (by omega)
    have hlength : (f.out ++ [c]).length = f.out.length + 1 := List.length_append
    have hgo : ¬ f.left - 1 ≤ min_left := by omega
    rw [copyVar, put_ok (by omega), ok_bind, hless, if_neg hgo]
    have hall' : (f.out ++ [c]).length + (f.left - 1) = enlen := by omega
    exact ih ⟨hall', by show min_left ≤ f.left - 1; omega⟩
      (by show min_left + p.length < f.left - 1; omega)

theorem length_whole (σ : Sys) (pconv : Option Str) (p : Str) :
    (whole σ pconv p).length ≤ p.length + growth pconv p := by
  rw [whole, growth]
  cases hlisted : listed pconv p with
  | none => exact Nat.le_refl _
  | some len =>
    have hgrown := length_converted σ (p.drop len)
    rw [List.length_drop] at hgrown
    obtain ⟨hle, -⟩ := listed_le hlisted
    show (p.take len ++ dosPath σ (elements isUnxSep (p.drop len))).length ≤
      p.length + (1 + (p.drop len).countP isUnxSep) * 2
    rw [List.length_append, List.length_take_of_le hle]
    omega

theorem whole_passed (σ : Sys) (pconv : Option Str) (p : CStr)
    (h : p.1.length + growth pconv p.1 + 12 < 2 ^ 32) : Passed σ pconv p (whole σ pconv p.1) := by
  have hlength := length_whole σ pconv p.1
  rw [whole] at hlength ⊢
  rw [Passed]
  cases hlisted : listed pconv p.1 with
  | none => rfl
  | some len =>
    rw [hlisted] at hlength
    dsimp only at hlength ⊢
    rw [List.length_append] at hlength
    obtain ⟨hpath, -⟩ := pathLoop_whole σ (elements isUnxSep (p.1.drop len))
      (Nat.lt_succ_self _) (show _ < 2 ^ 32 by omega)
    exact ⟨_, _, hpath, rfl⟩

/-- With room for what a variable can become there is no other way than on to the next one. -/
theorem copyOne_through (σ : Sys) (pconv : Option Str) (p : Str) {f : Filled}
    (hlen : enlen < 2 ^ 32) (hpos : 64 ≤ min_left)
    (hf : Between enlen min_left f) (hroom : min_left + p.length + growth pconv p < f.left) :
    ∃ f', copyOne σ pconv enlen min_left p f = .ok (some f') ∧ Between enlen min_left f' ∧
      f'.out = f.out ++ whole σ pconv p ++ [0] ∧
      f.left ≤ f'.left + (p.length + growth pconv p + 1) := by
  have hall := hf.all
  have hguard : Guarded pconv min_left p f := by
    rw [Guarded]
    rw [growth] at hroom
    cases hlisted : listed pconv p with
    | none =>
      rw [hlisted] at hroom
      intro hnil
      show min_left < f.left
      omega
    | some len =>
      rw [hlisted] at hroom
      dsimp only at hroom
      exact Or.inr (by omega)
  obtain ⟨next, hone, hnext⟩ := copyOne_goes (σ := σ) hlen hpos hf hguard
  cases next with
  | none =>
    rw [copyOne] at hone
    rw [growth] at hroom
    cases hlisted : listed pconv p with
    | none =>
      rw [hlisted] at hone hroom
      exact absurd hone (copyVar_none hlen hf hroom)
    | some len =>
      rw [hlisted] at hone hroom
      have hvar : convertVar σ pconv.isNone enlen min_left p len f = .ok none := hone
      rw [convertVar] at hvar
      obtain ⟨named, -, hrest⟩ := bind_eq_ok hvar
      dsimp only at hroom
      have hest : estimate p len = p.length + (1 + (p.drop len).countP isUnxSep) * 2 + 1 :=
        Nat.mod_eq_of_lt (by omega)
      have hgo : ¬ less f.left (estimate p len) < min_left := by
        rw [hest, less_left hlen hf (by omega)]
        omega
      rw [if_neg hgo] at hrest
      obtain ⟨named', -, hrest⟩ := bind_eq_ok hrest
      obtain ⟨out, -, hrest⟩ := bind_eq_ok hrest
      exact absurd (Except.ok.inj hrest) (by simp)
  | some f' =>
    have hout := copyOne_whole hlen hpos hf hguard hone
    have hf' := hnext f' rfl
    have hall' := hf'.all
    have hwhole := length_whole σ pconv p
    have hlength : f'.out.length = f.out.length + (whole σ pconv p).length + 1 := by
      rw [hout, List.length_append, List.length_append, List.length_singleton]
    exact ⟨f', hone, hf', hout, by omega⟩

end Whole

end Mintlib.Spawn
