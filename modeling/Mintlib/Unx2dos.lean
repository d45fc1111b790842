import Mintlib.Lib.Text

/-!
# File names of two kinds: `unx2dos.c`

`_dos2unx` and `_unx2dos` translate one name, `_path_dos2unx` and `_path_unx2dos` a list
of names. They write from left to right and terminate what they have written: a call is
described by the string that it leaves, whose NUL is the last byte written. `none` stands
for a string that is left without a NUL.
-/

namespace Mintlib.Unx2dos

open Text

def PATH_MAX : ℕ := 1024

/-- `_rootdir` (0 if there is none) and `__mint` (the version of MiNT, 0 under TOS). -/
structure Sys where
  rootdir : UInt8
  mint : ℕ

def isUpper (c : UInt8) : Prop := 65 ≤ c ∧ c ≤ 90

instance (c : UInt8) : Decidable (isUpper c) := inferInstanceAs (Decidable (_ ∧ _))

def tolower (c : UInt8) : UInt8 := if isUpper c then c + 32 else c

def toupper (c : UInt8) : UInt8 := if 97 ≤ c ∧ c ≤ 122 then c - 32 else c

def isalpha (c : UInt8) : Prop := isUpper c ∨ (97 ≤ c ∧ c ≤ 122)

instance (c : UInt8) : Decidable (isalpha c) := inferInstanceAs (Decidable (_ ∨ _))

/-- `len -= n` for a `size_t`. -/
def less (len n : ℕ) : ℕ := (len + 2 ^ 32 - n) % 2 ^ 32

/-- The loop at the end of `_dos2unx` and `_unx2dos`: the characters that are written, and
`-1` if it stops with `ENAMETOOLONG`. -/
def copy (conv : UInt8 → UInt8) (length : ℕ) : ℕ → ℕ → Str → Str × ℤ
  | _, _, [] => ([], 0)
  | count, len, c :: s =>
    if less len 1 = 0 then ([conv c], if count + 1 < length then -1 else 0)
    else
      let (t, ret) := copy conv length (count + 1) (less len 1) s
      (conv c :: t, ret)

/-- The conversion of a character in `_dos2unx`. -/
def Sys.unxChar (σ : Sys) (c : UInt8) : UInt8 :=
  if c = BACKSLASH then SLASH else if σ.mint < 7 then tolower c else c

/-- What `_dos2unx` writes for a drive, and the rest of the name. -/
def Sys.unxDrive (σ : Sys) : Str → Str × Str
  | c :: 58 :: dos =>
    let dev := tolower c
    let unx := if dev ≠ σ.rootdir then
        (if σ.rootdir ≠ 117 then [SLASH, 100, 101, 118] else []) ++ [SLASH, dev]
      else []
    (if dos.head? ≠ some SLASH ∧ dos.head? ≠ some BACKSLASH then unx ++ [SLASH] else unx, dos)
  | dos => ([], dos)

def dos2unx (σ : Sys) (dos : Str) (len : ℕ) : Str × ℤ :=
  let (unx, rest) := σ.unxDrive dos
  let (t, ret) := copy σ.unxChar dos.length 0 (less (less len 1) unx.length) rest
  (unx ++ t, ret)

/-- The conversion of a character in `_unx2dos`. -/
def dosChar (c : UInt8) : UInt8 := if c = SLASH then BACKSLASH else c

/-- `"/dev/"`, `"/pipe/"`, `"U:\\dev\\"` and `"U:\\pipe\\"`. -/
abbrev DEV : Str := [47, 100, 101, 118, 47]
abbrev PIPE : Str := [47, 112, 105, 112, 101, 47]
abbrev UDEV : Str := [85, 58, 92, 100, 101, 118, 92]
abbrev UPIPE : Str := [85, 58, 92, 112, 105, 112, 101, 92]

/-- A device under TOS: `"tty"` is the console, other names get a `':'`. No length is as large as
2^31, from which on `strncpy` would take it for a negative `long`. -/
def device (u : Str) (len : ℕ) : Option (Str × ℤ) :=
  if u.length < len then
    let d := u ++ [COLON]
    some (if d = [116, 116, 121, 58] then [99, 111, 110, 58] else d, 1)
  -- `strncpy` wrote nothing, and to `strncat` a `len` that wrapped is a negative `long`
  else if len = 0 then some ([], 1)
  else none

/-- `*u && isalpha (*u) && (u[1] == 0 || u[1] == '/' || u[1] == '\\')`. -/
def IsDrive (u : Str) : Prop :=
  ∃ c ∈ u.head?, isalpha c ∧
    (u.tail.head? = none ∨ u.tail.head? = some SLASH ∨ u.tail.head? = some BACKSLASH)

instance (u : Str) : Decidable (IsDrive u) := by
  unfold IsDrive
  exact inferInstance

def unx2dos (σ : Sys) (unx : Str) (len : ℕ) : Option (Str × ℤ) :=
  let len := less len 1
  let rest (d u : Str) :=
    let (t, ret) := copy dosChar unx.length 0 (less len d.length) u
    some (d ++ t, ret)
  if DEV <+: unx then
    let u := unx.drop 5
    if IsDrive u then rest [u.headD 0, COLON] u.tail
    else if σ.mint ≠ 0 then rest UDEV u
    else device u len
  else if σ.mint ≠ 0 ∧ PIPE <+: unx then rest UPIPE (unx.drop 6)
  else if unx.head? = some SLASH ∧ σ.rootdir ≠ 0 then rest [σ.rootdir, COLON] unx
  else rest [] unx

/-- The elements that the loops of `_path_dos2unx` and `_path_unx2dos` come to: an empty
one behind the last separator is not among them. -/
def elements (isSep : UInt8 → Bool) : Str → List Str
  | [] => []
  | c :: s =>
    if isSep c then [] :: elements isSep s
    else match elements isSep s with
      | [] => [[c]]
      | e :: es => (c :: e) :: es

/-- The outer loop, which translates the elements with `f` and puts `sep` between them. -/
def pathLoop (f : Str → ℕ → Option (Str × ℤ)) (sep : UInt8) : ℕ → List Str → Option Str
  | _, [] => some []
  | len, e :: es => do
    let (t, _) ← f (e.take (PATH_MAX - 1)) len
    let len := less len t.length
    if len ≤ 10 ∨ es = [] then some t
    else
      let rest ← pathLoop f sep (less len 1) es
      some (t ++ sep :: rest)

def isDosSep (c : UInt8) : Bool := c = SEMICOLON ∨ c = COMMA

def pathDos2unx (σ : Sys) (dos : Str) (len : ℕ) : Option Str :=
  pathLoop (fun e len => some (dos2unx σ e len)) COLON len (elements isDosSep dos)

def isUnxSep (c : UInt8) : Bool := c = COLON

def pathUnx2dos (σ : Sys) (unx : Str) (len : ℕ) : Option Str :=
  pathLoop (unx2dos σ) COMMA len (elements isUnxSep unx)

section Elements

variable {isSep : UInt8 → Bool} {s : Str}

theorem elements_ne_nil (h : s ≠ []) : elements isSep s ≠ [] := by
  cases s with
  | nil => exact absurd rfl h
  | cons c s =>
    unfold elements
    by_cases hc : isSep c = true
    · rw [if_pos hc]
      exact List.cons_ne_nil _ _
    · rw [if_neg hc]
      cases elements isSep s with
      | nil => exact List.cons_ne_nil _ _
      | cons e es => exact List.cons_ne_nil _ _

def EndsEmpty (isSep : UInt8 → Bool) (s : Str) : Prop :=
  s = [] ∨ ∃ c, s.getLast? = some c ∧ isSep c = true

theorem splitOnP_eq (isSep : UInt8 → Bool) (s : Str) :
    (EndsEmpty isSep s → s.splitOnP isSep = elements isSep s ++ [[]]) ∧
      (¬ EndsEmpty isSep s → s.splitOnP isSep = elements isSep s) := by
  induction s with
  | nil => exact ⟨fun _ => rfl, fun h => absurd (Or.inl rfl) h⟩
  | cons c s ih =>
    have hends : s ≠ [] → (EndsEmpty isSep (c :: s) ↔ EndsEmpty isSep s) := by
      intro hne
      cases s with
      | nil => exact absurd rfl hne
      | cons d s => simp only [EndsEmpty, List.getLast?_cons_cons, reduceCtorEq, false_or]
    rw [List.splitOnP_cons_eq_if_modifyHead]
    by_cases hc : isSep c = true
    · simp only [elements, if_pos hc, List.cons_append, List.cons.injEq, true_and]
      by_cases hs : s = []
      · subst hs
        exact ⟨fun _ => rfl, fun h => absurd (Or.inr ⟨c, rfl, hc⟩) h⟩
      · rw [hends hs]
        exact ih
    · simp only [elements, if_neg hc]
      by_cases hs : s = []
      · subst hs
        refine ⟨fun h => ?_, fun _ => rfl⟩
        rcases h with h | ⟨d, hd, hsep⟩
        · exact absurd h (List.cons_ne_nil _ _)
        · rw [List.getLast?_singleton, Option.some.injEq] at hd
          exact absurd (hd ▸ hsep) hc
      · have hne : elements isSep s ≠ [] := elements_ne_nil hs
        obtain ⟨e, es, hes⟩ := List.exists_cons_of_ne_nil hne
        rw [hends hs]
        simp only [hes] at ih ⊢
        exact ⟨fun h => by rw [ih.1 h]; rfl, fun h => by rw [ih.2 h]; rfl⟩

end Elements

section Room

variable {σ : Sys} {e t : Str} {es : List Str} {len : ℕ}

theorem less_eq {n : ℕ} (h : n ≤ len) (hlen : len < 2 ^ 32) : less len n = len - n := by
  have hsplit : len + 2 ^ 32 - n = len - n + 2 ^ 32 := by omega
  rw [less, hsplit, Nat.add_mod_right, Nat.mod_eq_of_lt (by omega)]

theorem copy_eq {conv : UInt8 → UInt8} {length count : ℕ} (h : e.length ≤ len)
    (hlen : len < 2 ^ 32) : (copy conv length count len e).1 = e.map conv := by
  induction e generalizing len count with
  | nil => rfl
  | cons c e ih =>
    rw [List.length_cons] at h
    have hless : less len 1 = len - 1 := less_eq (by omega) hlen
    rw [copy, hless]
    by_cases hzero : len - 1 = 0
    · have hnil : e = [] := List.eq_nil_of_length_eq_zero (by omega)
      rw [if_pos hzero, hnil]
      rfl
    · have hrest : (copy conv length (count + 1) (len - 1) e).1 = e.map conv :=
        ih (by omega) (by omega)
      rw [if_neg hzero]
      show conv c :: (copy conv length (count + 1) (len - 1) e).1 = _
      rw [hrest, List.map_cons]

/-- The translation of a name by `_dos2unx`, with room enough. -/
def Sys.unxName (σ : Sys) (e : Str) : Str := (σ.unxDrive e).1 ++ (σ.unxDrive e).2.map σ.unxChar

theorem dos2unx_eq (h : (σ.unxName e).length < len) (hlen : len < 2 ^ 32) :
    (dos2unx σ e len).1 = σ.unxName e := by
  rw [Sys.unxName, List.length_append, List.length_map] at h
  have hless : less (less len 1) (σ.unxDrive e).1.length = len - 1 - (σ.unxDrive e).1.length := by
    rw [less_eq (by omega) hlen, less_eq (by omega) (by omega)]
  simp only [dos2unx]
  rw [hless, copy_eq (by omega) (by omega), Sys.unxName]

theorem length_unxName_take {k : ℕ} (hk : 3 ≤ k) (h : k < e.length) :
    (σ.unxName (e.take k)).length < (σ.unxName e).length := by
  obtain ⟨k, rfl⟩ := Nat.exists_eq_add_of_le' hk
  have hplain : σ.unxDrive e = ([], e) → σ.unxDrive (e.take (k + 3)) = ([], e.take (k + 3)) →
      (σ.unxName (e.take (k + 3))).length < (σ.unxName e).length := by
    intro he htake
    simp only [Sys.unxName, he, htake, List.nil_append, List.length_map, List.length_take]
    omega
  match e with
  | [] => exact absurd h (Nat.not_lt_zero _)
  | [c] => exact absurd h (by simp)
  | c :: d :: dos =>
    have htake : (c :: d :: dos).take (k + 3) = c :: d :: dos.take (k + 1) := by
      rw [List.take_succ_cons, List.take_succ_cons]
    by_cases hd : d = 58
    · subst hd
      have hhead : (dos.take (k + 1)).head? = dos.head? := by
        cases dos with
        | nil => rfl
        | cons d dos => rfl
      rw [htake]
      simp only [Sys.unxName, Sys.unxDrive, hhead, List.length_append, List.length_map,
        List.length_take]
      simp only [List.length_cons] at h
      omega
    · have hne : ∀ dos, σ.unxDrive (c :: d :: dos) = ([], c :: d :: dos) := by
        intro dos
        unfold Sys.unxDrive
        split
        · next heq => exact absurd (List.cons.inj (List.cons.inj heq).2).1 hd
        · rfl
      refine hplain (hne dos) ?_
      rw [htake]
      exact hne _

/-- The list that `_path_dos2unx` is to write. -/
def Sys.unxPath (σ : Sys) (es : List Str) : Str := [COLON].intercalate (es.map σ.unxName)

/-- No element is cut, and behind each but the last more than 10 bytes are left. -/
def Sys.Fits (σ : Sys) : ℕ → List Str → Prop
  | _, [] => True
  | len, e :: es => e.length < PATH_MAX ∧ (es ≠ [] → 10 < len - (σ.unxName e).length) ∧
      σ.Fits (len - (σ.unxName e).length - 1) es

theorem Sys.unxPath_cons (h : es ≠ []) :
    σ.unxPath (e :: es) = σ.unxName e ++ COLON :: σ.unxPath es := by
  rw [Sys.unxPath, List.map_cons, List.intercalate_cons_of_ne_nil (by simpa using h)]
  simp only [List.append_assoc, List.singleton_append]
  rfl

theorem fits_iff : σ.Fits len es ↔ (∀ e ∈ es, e.length < PATH_MAX) ∧
    ∀ pre post, es = pre ++ post → pre ≠ [] → post ≠ [] →
      (σ.unxPath pre).length + 10 < len := by
  induction es generalizing len with
  | nil =>
    refine iff_of_true trivial ⟨fun e h => absurd h List.not_mem_nil, fun pre post h hpre => ?_⟩
    exact absurd (List.append_eq_nil_iff.mp h.symm).1 hpre
  | cons e es ih =>
    have hone : (σ.unxPath [e]).length = (σ.unxName e).length := by
      rw [Sys.unxPath, List.map_singleton, List.intercalate_singleton]
    rw [Sys.Fits, ih, List.forall_mem_cons]
    constructor
    · rintro ⟨hlt, hten, hall, hrest⟩
      refine ⟨⟨hlt, hall⟩, fun pre post hsplit hpre hpost => ?_⟩
      obtain ⟨e', pre, rfl⟩ := List.exists_cons_of_ne_nil hpre
      obtain ⟨rfl, htail⟩ := List.cons.inj hsplit
      by_cases hnil : pre = []
      · subst hnil
        have hes : es ≠ [] := by
          rw [htail]
          exact hpost
        have := hten hes
        omega
      · have := hrest pre post htail hnil hpost
        rw [Sys.unxPath_cons hnil, List.length_append, List.length_cons]
        omega
    · rintro ⟨⟨hlt, hall⟩, hsplit⟩
      refine ⟨hlt, fun hes => ?_, hall, fun pre post htail hpre hpost => ?_⟩
      · have := hsplit [e] es rfl (List.cons_ne_nil _ _) hes
        omega
      · have := hsplit (e :: pre) post (by rw [htail]; rfl) (List.cons_ne_nil _ _) hpost
        rw [Sys.unxPath_cons hpre, List.length_append, List.length_cons] at this
        omega

theorem pathLoop_cons {f : Str → ℕ → Option (Str × ℤ)} {sep : UInt8} {ret : ℤ} {n : ℕ}
    (hf : f (e.take (PATH_MAX - 1)) len = some (t, ret)) (hn : less len t.length = n) :
    pathLoop f sep len (e :: es) = if n ≤ 10 ∨ es = [] then some t
      else (pathLoop f sep (less n 1) es).map fun rest => t ++ sep :: rest := by
  rw [pathLoop, hf, Option.bind_eq_bind, Option.bind_some]
  simp only [hn, Option.bind_eq_bind, Option.map_eq_bind]
  rfl

/-- The loop writes the list if and only if the elements fit, and never a longer one. -/
theorem pathLoop_spec (h : (σ.unxPath es).length < len) (hlen : len < 2 ^ 32) :
    ∃ t, pathLoop (fun e len => some (dos2unx σ e len)) COLON len es = some t ∧
      t.length ≤ (σ.unxPath es).length ∧ (t = σ.unxPath es ↔ σ.Fits len es) := by
  induction es generalizing len with
  | nil => exact ⟨[], rfl, le_refl _, iff_of_true rfl trivial⟩
  | cons e es ih =>
    -- an element is cut to the buffer before it is converted
    set e' := e.take (PATH_MAX - 1) with he'
    have hle : (σ.unxName e').length ≤ (σ.unxName e).length ∧
        ((σ.unxName e').length = (σ.unxName e).length → e' = e ∧ e.length < PATH_MAX) := by
      by_cases hlong : PATH_MAX ≤ e.length
      · have hlt := length_unxName_take (σ := σ) (k := PATH_MAX - 1) (by decide)
          (show 1023 < e.length from hlong)
        exact ⟨hlt.le, fun heq => absurd heq (Nat.ne_of_lt hlt)⟩
      · have htake : e' = e := List.take_of_length_le (by omega)
        rw [htake]
        exact ⟨le_refl _, fun _ => ⟨rfl, not_le.mp hlong⟩⟩
    have hcut : e.length < PATH_MAX → e' = e := fun hlt => List.take_of_length_le (by omega)
    have hfirst : (σ.unxName e).length < len := by
      by_cases hnil : es = []
      · rwa [hnil, Sys.unxPath, List.map_singleton, List.intercalate_singleton] at h
      · rw [Sys.unxPath_cons hnil, List.length_append] at h
        omega
    have hdos : (dos2unx σ e' len).1 = σ.unxName e' := dos2unx_eq (by omega) hlen
    have hf : (fun e len => some (dos2unx σ e len)) (e.take (PATH_MAX - 1)) len =
        some (σ.unxName e', (dos2unx σ e' len).2) := congrArg some (Prod.ext hdos rfl)
    have hless : less len (σ.unxName e').length = len - (σ.unxName e').length :=
      less_eq (by omega) hlen
    by_cases hnil : es = []
    · subst hnil
      have hpath : σ.unxPath [e] = σ.unxName e := by
        rw [Sys.unxPath, List.map_singleton, List.intercalate_singleton]
      refine ⟨σ.unxName e', ?_, by rw [hpath]; exact hle.1, ?_⟩
      · rw [pathLoop_cons hf rfl, if_pos (Or.inr rfl)]
      · rw [hpath]
        constructor
        · intro heq
          exact ⟨(hle.2 (by rw [heq])).2, fun hne => absurd rfl hne, trivial⟩
        · rintro ⟨hlt, -, -⟩
          rw [hcut hlt]
    · rw [Sys.unxPath_cons hnil, List.length_append, List.length_cons] at h
      rw [Sys.unxPath_cons hnil]
      -- the loop is left when ten bytes or fewer are left
      by_cases hbreak : len - (σ.unxName e').length ≤ 10
      · refine ⟨σ.unxName e', ?_, by rw [List.length_append]; omega, iff_of_false ?_ ?_⟩
        · have hstop : len - (σ.unxName e').length ≤ 10 ∨ es = [] := Or.inl hbreak
          rw [pathLoop_cons hf hless, if_pos hstop]
        · intro heq
          have hlength := congrArg List.length heq
          rw [List.length_append, List.length_cons] at hlength
          omega
        · rintro ⟨hlt, hten, -⟩
          rw [hcut hlt] at hbreak
          exact absurd (hten hnil) (by omega)
      · have hless' : less (len - (σ.unxName e').length) 1 = len - (σ.unxName e').length - 1 :=
          less_eq (by omega) (by omega)
        have hroom : (σ.unxPath es).length < len - (σ.unxName e').length - 1 := by omega
        obtain ⟨rest, hrest, hlenrest, hiff⟩ := ih hroom (by omega)
        refine ⟨σ.unxName e' ++ COLON :: rest, ?_, ?_, ?_⟩
        · have hgo : ¬ (len - (σ.unxName e').length ≤ 10 ∨ es = []) := not_or.mpr ⟨hbreak, hnil⟩
          rw [pathLoop_cons hf hless, if_neg hgo, hless', hrest, Option.map_some]
        · rw [List.length_append, List.length_append, List.length_cons, List.length_cons]
          omega
        · constructor
          · intro heq
            have hlength := congrArg List.length heq
            rw [List.length_append, List.length_append, List.length_cons, List.length_cons]
              at hlength
            obtain ⟨hsame, hlt⟩ := hle.2 (by omega)
            rw [hsame] at heq hbreak hiff
            have htail := (List.cons.inj (List.append_cancel_left heq)).2
            exact ⟨hlt, fun _ => by omega, hiff.mp htail⟩
          · rintro ⟨hlt, -, hfits⟩
            rw [hcut hlt] at hiff ⊢
            rw [hiff.mpr hfits]

end Room

end Mintlib.Unx2dos
