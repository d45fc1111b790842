import Mintlib.Unx2dos

/-!
# Path lists there and back

`__libc_main` translates a DOS path list with `_path_dos2unx`, and `_spawnve` translates it
back with `_path_unx2dos`. What comes back names the same places, but for the names that
`_unx2dos` takes for a device or a pipe.
-/

namespace Mintlib.PathLists

open Text Unx2dos

section Letters

variable {c k : UInt8} {σ : Sys}

theorem toNat_tolower (c : UInt8) :
    (tolower c).toNat = if 65 ≤ c.toNat ∧ c.toNat ≤ 90 then c.toNat + 32 else c.toNat := by
  by_cases h : isUpper c
  · have hle : 65 ≤ c.toNat ∧ c.toNat ≤ 90 := h
    rw [tolower, if_pos h, if_pos hle, UInt8.toNat_add]
    exact Nat.mod_eq_of_lt (show c.toNat + 32 < 256 by omega)
  · have hle : ¬ (65 ≤ c.toNat ∧ c.toNat ≤ 90) := h
    rw [tolower, if_neg h, if_neg hle]

@[simp]
theorem tolower_tolower (c : UInt8) : tolower (tolower c) = tolower c := by
  rw [← UInt8.toNat_inj, toNat_tolower (tolower c), toNat_tolower c]
  grind

theorem tolower_eq_iff (hk : ¬ isalpha k) : tolower c = k ↔ c = k := by
  have hk' : ¬ ((65 ≤ k.toNat ∧ k.toNat ≤ 90) ∨ (97 ≤ k.toNat ∧ k.toNat ≤ 122)) := hk
  rw [← UInt8.toNat_inj, ← UInt8.toNat_inj, toNat_tolower c]
  grind

theorem isalpha_tolower (h : isalpha c) : isalpha (tolower c) := by
  have h' : (65 ≤ c.toNat ∧ c.toNat ≤ 90) ∨ (97 ≤ c.toNat ∧ c.toNat ≤ 122) := h
  have hc := toNat_tolower c
  show (65 ≤ (tolower c).toNat ∧ (tolower c).toNat ≤ 90) ∨
    (97 ≤ (tolower c).toNat ∧ (tolower c).toNat ≤ 122)
  grind

theorem isalpha_ne (h : isalpha c) (hk : ¬ isalpha k) : c ≠ k := fun heq => hk (heq ▸ h)

def foldChar (σ : Sys) (c : UInt8) : UInt8 := if σ.mint < 7 then tolower c else c

theorem foldChar_eq_iff (hk : ¬ isalpha k) : foldChar σ c = k ↔ c = k := by
  unfold foldChar
  split
  · exact tolower_eq_iff hk
  · exact Iff.rfl

theorem tolower_foldChar (c : UInt8) : tolower (foldChar σ c) = tolower c := by
  unfold foldChar
  split
  · exact tolower_tolower c
  · rfl

theorem foldChar_foldChar (c : UInt8) : foldChar σ (foldChar σ c) = foldChar σ c := by
  by_cases h : σ.mint < 7
  · simp only [foldChar, if_pos h, tolower_tolower]
  · simp only [foldChar, if_neg h]

theorem unxChar_eq (h : c ≠ BACKSLASH) : σ.unxChar c = foldChar σ c := by
  rw [Sys.unxChar, if_neg h, foldChar]

theorem dosChar_unxChar (h : c ≠ SLASH) : dosChar (σ.unxChar c) = foldChar σ c := by
  by_cases hback : c = BACKSLASH
  · subst hback
    rw [Sys.unxChar, if_pos rfl, (foldChar_eq_iff (by decide)).mpr rfl]
    rfl
  · rw [unxChar_eq hback, dosChar, if_neg]
    rwa [foldChar_eq_iff (by decide)]

end Letters

/-- A drive letter, a `':'`, and components that follow a `'\\'` each. -/
def DosName (e : Str) : Prop :=
  ∃ c rest, e = c :: COLON :: BACKSLASH :: rest ∧ isalpha c ∧
    ∀ x ∈ rest, x ≠ SLASH ∧ x ≠ COLON ∧ isDosSep x = false

/-- `U:\X\…` is `X:\…`, and a drive is written as a small letter. -/
def place : Str → Str
  | c :: 58 :: 92 :: d :: 92 :: rest =>
    if tolower c = 117 ∧ isalpha d then tolower d :: 58 :: 92 :: rest
    else tolower c :: 58 :: 92 :: d :: 92 :: rest
  | c :: rest => tolower c :: rest
  | [] => []

def Same (σ : Sys) (e e' : Str) : Prop :=
  place (e.map (foldChar σ)) = place (e'.map (foldChar σ))

/-- A name on the root drive that `_unx2dos` does not take for a file there: below `\dev`,
unless it stays `U:\dev`, and below `\pipe`, unless it stays `U:\pipe`. -/
def Special (σ : Sys) (e : Str) : Prop :=
  tolower (e.headD 0) = σ.rootdir ∧
    (DEV <+: σ.unxName e ∧
        (σ.mint = 0 ∨ σ.rootdir ≠ 117 ∨ IsDrive ((σ.unxName e).drop 5)) ∨
      σ.mint ≠ 0 ∧ PIPE <+: σ.unxName e ∧ σ.rootdir ≠ 117)

/-- The translation of a name by `_unx2dos`, with room enough. -/
def dosName (σ : Sys) (u : Str) : Str :=
  if DEV <+: u then
    if IsDrive (u.drop 5) then [(u.drop 5).headD 0, COLON] ++ (u.drop 5).tail.map dosChar
    else UDEV ++ (u.drop 5).map dosChar
  else if σ.mint ≠ 0 ∧ PIPE <+: u then UPIPE ++ (u.drop 6).map dosChar
  else if u.head? = some SLASH ∧ σ.rootdir ≠ 0 then [σ.rootdir, COLON] ++ u.map dosChar
  else u.map dosChar

section Names

variable {σ : Sys} {u e rest : Str} {c d : UInt8} {len : ℕ}

theorem unx2dos_eq (htos : DEV <+: u → IsDrive (u.drop 5) ∨ σ.mint ≠ 0)
    (h : (dosName σ u).length < len) (hlen : len < 2 ^ 32) :
    ∃ ret, unx2dos σ u len = some (dosName σ u, ret) := by
  -- the drive is written first, then the rest is copied
  have hcopy : ∀ d rest : Str, dosName σ u = d ++ rest.map dosChar →
      d ++ (copy dosChar u.length 0 (less (less len 1) d.length) rest).1 = dosName σ u := by
    intro d rest heq
    rw [heq, List.length_append, List.length_map] at h
    rw [less_eq (by omega) hlen, less_eq (by omega) (by omega), copy_eq (by omega) (by omega), heq]
  unfold unx2dos
  by_cases hdev : DEV <+: u
  · simp only [if_pos hdev]
    by_cases hdrive : IsDrive (u.drop 5)
    · simp only [if_pos hdrive]
      exact ⟨_, congrArg some (Prod.ext (hcopy [(u.drop 5).headD 0, COLON] _
        (by rw [dosName, if_pos hdev, if_pos hdrive])) rfl)⟩
    · have hmint : σ.mint ≠ 0 := (htos hdev).resolve_left hdrive
      simp only [if_neg hdrive, if_pos hmint]
      exact ⟨_, congrArg some (Prod.ext (hcopy UDEV _
        (by rw [dosName, if_pos hdev, if_neg hdrive])) rfl)⟩
  · simp only [if_neg hdev]
    by_cases hpipe : σ.mint ≠ 0 ∧ PIPE <+: u
    · simp only [if_pos hpipe]
      exact ⟨_, congrArg some (Prod.ext (hcopy UPIPE _
        (by rw [dosName, if_neg hdev, if_pos hpipe])) rfl)⟩
    · simp only [if_neg hpipe]
      by_cases hroot : u.head? = some SLASH ∧ σ.rootdir ≠ 0
      · simp only [if_pos hroot]
        exact ⟨_, congrArg some (Prod.ext (hcopy [σ.rootdir, COLON] _
          (by rw [dosName, if_neg hdev, if_neg hpipe, if_pos hroot])) rfl)⟩
      · simp only [if_neg hroot]
        exact ⟨_, congrArg some (Prod.ext (hcopy [] _
          (by rw [dosName, if_neg hdev, if_neg hpipe, if_neg hroot]; rfl)) rfl)⟩

theorem unxName_dev (hother : tolower c ≠ σ.rootdir) (hu : σ.rootdir ≠ 117) :
    σ.unxName (c :: COLON :: BACKSLASH :: rest) =
      DEV ++ tolower c :: SLASH :: rest.map σ.unxChar := by
  simp [Sys.unxName, Sys.unxDrive, hother, hu, Sys.unxChar]

theorem unxName_u (hother : tolower c ≠ σ.rootdir) (hu : σ.rootdir = 117) :
    σ.unxName (c :: COLON :: BACKSLASH :: rest) =
      SLASH :: tolower c :: SLASH :: rest.map σ.unxChar := by
  rw [hu] at hother
  simp [Sys.unxName, Sys.unxDrive, hother, hu, Sys.unxChar]

theorem unxName_root (hroot : tolower c = σ.rootdir) :
    σ.unxName (c :: COLON :: BACKSLASH :: rest) = SLASH :: rest.map σ.unxChar := by
  simp [Sys.unxName, Sys.unxDrive, hroot, Sys.unxChar]

theorem map_dosChar (hrest : ∀ x ∈ rest, x ≠ SLASH) :
    (rest.map σ.unxChar).map dosChar = rest.map (foldChar σ) := by
  rw [List.map_map]
  exact List.map_congr_left fun x hx => dosChar_unxChar (hrest x hx)

/-- What comes back is the name with its drive in some case, or the name below `u:`. -/
theorem dosName_unxName (hc : isalpha c) (hrest : ∀ x ∈ rest, x ≠ SLASH)
    (hspecial : ¬ Special σ (c :: COLON :: BACKSLASH :: rest)) :
    ((∃ d, tolower d = tolower c ∧ dosName σ (σ.unxName (c :: COLON :: BACKSLASH :: rest)) =
        d :: COLON :: BACKSLASH :: rest.map (foldChar σ)) ∨
      tolower c ≠ 117 ∧ dosName σ (σ.unxName (c :: COLON :: BACKSLASH :: rest)) =
        117 :: COLON :: BACKSLASH :: tolower c :: BACKSLASH :: rest.map (foldChar σ)) ∧
    (DEV <+: σ.unxName (c :: COLON :: BACKSLASH :: rest) →
      IsDrive ((σ.unxName (c :: COLON :: BACKSLASH :: rest)).drop 5) ∨ σ.mint ≠ 0) := by
  have hmap := map_dosChar (σ := σ) hrest
  -- on the drive of the root the name begins with a slash, which may look like a device
  by_cases hroot : tolower c = σ.rootdir
  · have hzero : σ.rootdir ≠ 0 := hroot ▸ isalpha_ne (isalpha_tolower hc) (by decide)
    simp only [Special, List.headD_cons, hroot, true_and, not_or, not_and, not_not] at hspecial
    rw [unxName_root hroot] at hspecial ⊢
    set u := SLASH :: rest.map σ.unxChar with hu
    have hmapu : u.map dosChar = BACKSLASH :: rest.map (foldChar σ) := by
      rw [hu, List.map_cons, hmap]
      rfl
    obtain ⟨hdev, hpipe⟩ := hspecial
    refine ⟨Or.inl ?_, fun h => Or.inr (hdev h).1⟩
    by_cases hisdev : DEV <+: u
    · obtain ⟨hmint, huroot, hdrive⟩ := hdev hisdev
      refine ⟨85, by rw [hroot, huroot]; rfl, ?_⟩
      have hback : UDEV ++ (u.drop 5).map dosChar = 85 :: COLON :: u.map dosChar := by
        conv_rhs => rw [← List.prefix_iff_eq_append.mp hisdev, List.map_append]
        rfl
      rw [dosName, if_pos hisdev, if_neg hdrive, hback, hmapu]
    · by_cases hispipe : σ.mint ≠ 0 ∧ PIPE <+: u
      · have huroot := hpipe hispipe.1 hispipe.2
        refine ⟨85, by rw [hroot, huroot]; rfl, ?_⟩
        have hback : UPIPE ++ (u.drop 6).map dosChar = 85 :: COLON :: u.map dosChar := by
          conv_rhs => rw [← List.prefix_iff_eq_append.mp hispipe.2, List.map_append]
          rfl
        rw [dosName, if_neg hisdev, if_pos hispipe, hback, hmapu]
      · refine ⟨σ.rootdir, by rw [← hroot, tolower_tolower], ?_⟩
        rw [dosName, if_neg hisdev, if_neg hispipe, if_pos ⟨rfl, hzero⟩, hmapu]
        rfl
  · by_cases hu : σ.rootdir = 117
    · rw [unxName_u hroot hu]
      have hnodev : ¬ DEV <+: SLASH :: tolower c :: SLASH :: rest.map σ.unxChar := by
        simp [List.cons_prefix_cons, show (101 : UInt8) ≠ SLASH by decide]
      have hnopipe : ¬ (σ.mint ≠ 0 ∧
          PIPE <+: SLASH :: tolower c :: SLASH :: rest.map σ.unxChar) := by
        simp [List.cons_prefix_cons, show (105 : UInt8) ≠ SLASH by decide]
      refine ⟨Or.inr ⟨hu ▸ hroot, ?_⟩, fun h => absurd h hnodev⟩
      rw [dosName, if_neg hnodev, if_neg hnopipe, if_pos ⟨rfl, by rw [hu]; decide⟩, hu]
      rw [List.map_cons, List.map_cons, List.map_cons, hmap]
      have hdosc : dosChar (tolower c) = tolower c :=
        if_neg (isalpha_ne (isalpha_tolower hc) (by decide))
      rw [hdosc]
      rfl
    · rw [unxName_dev hroot hu]
      have hdrive : IsDrive ((DEV ++ tolower c :: SLASH :: rest.map σ.unxChar).drop 5) :=
        ⟨tolower c, rfl, isalpha_tolower hc, Or.inr (Or.inl rfl)⟩
      have hdrop : (DEV ++ tolower c :: SLASH :: rest.map σ.unxChar).drop 5 =
          tolower c :: SLASH :: rest.map σ.unxChar := rfl
      refine ⟨Or.inl ⟨tolower c, tolower_tolower c, ?_⟩, fun _ => Or.inl hdrive⟩
      rw [dosName, if_pos (List.prefix_append _ _), if_pos hdrive, hdrop, List.tail_cons,
        List.map_cons, hmap]
      rfl

theorem place_of_ne (h : tolower c ≠ 117) (rest : Str) :
    place (c :: rest) = tolower c :: rest := by
  unfold place
  split
  · next heq =>
    obtain ⟨rfl, rfl⟩ := List.cons.inj heq
    rw [if_neg fun hu => h hu.1]
  · next heq =>
    obtain ⟨rfl, rfl⟩ := List.cons.inj heq
    rfl
  · next heq => exact absurd heq (List.cons_ne_nil _ _)

theorem place_congr (h : tolower c = tolower d) (rest : Str) :
    place (c :: rest) = place (d :: rest) := by
  unfold place
  split
  · next heq =>
    obtain ⟨rfl, rfl⟩ := List.cons.inj heq
    simp only [h]
  · next hno heq =>
    obtain ⟨rfl, rfl⟩ := List.cons.inj heq
    split
    · next heq =>
      obtain ⟨rfl, rfl⟩ := List.cons.inj heq
      exact (hno _ _ rfl).elim
    · next heq =>
      obtain ⟨rfl, rfl⟩ := List.cons.inj heq
      rw [h]
    · next heq => exact absurd heq (List.cons_ne_nil _ _)
  · next heq => exact absurd heq (List.cons_ne_nil _ _)

theorem same_back (h : DosName e) (hspecial : ¬ Special σ e) :
    Same σ e (dosName σ (σ.unxName e)) := by
  obtain ⟨c, rest, rfl, hc, hrest⟩ := h
  have hfold : (rest.map (foldChar σ)).map (foldChar σ) = rest.map (foldChar σ) := by
    rw [List.map_map]
    exact List.map_congr_left fun x _ => foldChar_foldChar x
  have hcolon : foldChar σ COLON = COLON := (foldChar_eq_iff (by decide)).mpr rfl
  have hback : foldChar σ BACKSLASH = BACKSLASH := (foldChar_eq_iff (by decide)).mpr rfl
  unfold Same
  rcases (dosName_unxName hc (fun x hx => (hrest x hx).1) hspecial).1 with
    ⟨d, hd, heq⟩ | ⟨hu, heq⟩
  · rw [heq]
    simp only [List.map_cons, hfold, hcolon, hback]
    refine place_congr ?_ _
    rw [tolower_foldChar, tolower_foldChar, hd]
  · have hsmall : foldChar σ 117 = 117 := by
      unfold foldChar
      split <;> rfl
    have hletter : foldChar σ (tolower c) = tolower c := by
      unfold foldChar
      split
      · exact tolower_tolower c
      · rfl
    rw [heq]
    simp only [List.map_cons, hfold, hcolon, hback, hsmall, hletter]
    rw [place_of_ne (by rwa [tolower_foldChar]), tolower_foldChar]
    show _ = if tolower 117 = 117 ∧ isalpha (tolower c) then _ else _
    rw [if_pos ⟨rfl, isalpha_tolower hc⟩, tolower_tolower]

end Names

/-- The elements of a list; the empty string is the list without elements. -/
def parts (isSep : UInt8 → Bool) (p : Str) : List Str := if p = [] then [] else p.splitOnP isSep

section Lists

variable {σ : Sys} {isSep : UInt8 → Bool} {p e : Str} {es us : List Str} {sep : UInt8} {len : ℕ}

theorem elements_eq_parts (h : ∀ e ∈ parts isSep p, e ≠ []) :
    elements isSep p = parts isSep p := by
  unfold parts at h ⊢
  by_cases hnil : p = []
  · rw [if_pos hnil, hnil]
    rfl
  · rw [if_neg hnil] at h ⊢
    by_cases hends : EndsEmpty isSep p
    · refine absurd rfl (h [] ?_)
      rw [(splitOnP_eq isSep p).1 hends]
      exact List.mem_append_right _ (List.mem_singleton_self _)
    · exact ((splitOnP_eq isSep p).2 hends).symm

theorem parts_intercalate (hne : ∀ u ∈ us, u ≠ []) (hsep : ∀ u ∈ us, sep ∉ u) :
    parts (· == sep) ([sep].intercalate us) = us := by
  cases us with
  | nil => rfl
  | cons u us =>
    have hnil : [sep].intercalate (u :: us) ≠ [] := by
      have hu : u ≠ [] := hne u List.mem_cons_self
      cases us with
      | nil => simpa using hu
      | cons v us =>
        rw [List.intercalate_cons_cons]
        simp [hu]
    rw [parts, if_neg hnil]
    exact List.splitOn_intercalate sep hsep (List.cons_ne_nil _ _)

theorem pathLoop_room {f : Str → ℕ → Option (Str × ℤ)} {g : Str → Str}
    (hf : ∀ e ∈ es, e.length < PATH_MAX ∧
      ∀ len, (g e).length < len → len < 2 ^ 32 → ∃ ret, f e len = some (g e, ret))
    (h : ([sep].intercalate (es.map g)).length + 10 < len) (hlen : len < 2 ^ 32) :
    pathLoop f sep len es = some ([sep].intercalate (es.map g)) := by
  induction es generalizing len with
  | nil => rfl
  | cons e es ih =>
    obtain ⟨hshort, hroom⟩ := hf e List.mem_cons_self
    have hcut : e.take (PATH_MAX - 1) = e := List.take_of_length_le (by omega)
    by_cases hnil : es = []
    · subst hnil
      rw [List.map_singleton, List.intercalate_singleton] at h ⊢
      obtain ⟨ret, hret⟩ := hroom len (by omega) hlen
      rw [← hcut] at hret
      rw [pathLoop_cons (n := less len (g (e.take (PATH_MAX - 1))).length) hret rfl,
        if_pos (Or.inr rfl), hcut]
    · rw [List.map_cons, List.intercalate_cons_of_ne_nil (by simpa using hnil)] at h ⊢
      simp only [List.append_assoc, List.length_append, List.length_singleton] at h
      obtain ⟨ret, hret⟩ := hroom len (by omega) hlen
      rw [← hcut] at hret
      have hless : less len (g (e.take (PATH_MAX - 1))).length = len - (g e).length := by
        rw [hcut, less_eq (by omega) hlen]
      have hless' : less (len - (g e).length) 1 = len - (g e).length - 1 :=
        less_eq (by omega) (by omega)
      have hgo : ¬ (len - (g e).length ≤ 10 ∨ es = []) := not_or.mpr ⟨by omega, hnil⟩
      rw [pathLoop_cons hret hless, if_neg hgo, hless',
        ih (fun e he => hf e (List.mem_cons_of_mem _ he)) (by omega) (by omega), hcut,
        Option.map_some, List.append_assoc]
      rfl

theorem unxName_ne_nil (h : DosName e) : σ.unxName e ≠ [] := by
  obtain ⟨c, rest, rfl, -⟩ := h
  by_cases hroot : tolower c = σ.rootdir
  · rw [unxName_root hroot]
    exact List.cons_ne_nil _ _
  · by_cases hu : σ.rootdir = 117
    · rw [unxName_u hroot hu]
      exact List.cons_ne_nil _ _
    · rw [unxName_dev hroot hu]
      exact List.cons_ne_nil _ _

theorem colon_notMem (h : DosName e) : COLON ∉ σ.unxName e := by
  obtain ⟨c, rest, rfl, hc, hrest⟩ := h
  have hletter : COLON ≠ tolower c := (isalpha_ne (isalpha_tolower hc) (by decide)).symm
  have hmap : COLON ∉ rest.map σ.unxChar := by
    rw [List.mem_map]
    rintro ⟨x, hx, heq⟩
    by_cases hback : x = BACKSLASH
    · rw [hback, Sys.unxChar, if_pos rfl] at heq
      exact absurd heq (by decide)
    · rw [unxChar_eq hback, foldChar_eq_iff (by decide)] at heq
      exact (hrest x hx).2.1 heq
  have hslash : COLON ≠ SLASH := by decide
  by_cases hroot : tolower c = σ.rootdir
  · rw [unxName_root hroot]
    exact List.not_mem_cons_of_ne_of_not_mem hslash hmap
  · by_cases hu : σ.rootdir = 117
    · rw [unxName_u hroot hu]
      simp only [List.mem_cons, hslash, hletter, hmap, or_self, not_false_eq_true]
    · rw [unxName_dev hroot hu]
      simp only [List.mem_append, List.mem_cons, hslash, hletter, hmap, or_self, or_false]
      decide

theorem comma_notMem (h : DosName e) (hspecial : ¬ Special σ e) :
    dosName σ (σ.unxName e) ≠ [] ∧ COMMA ∉ dosName σ (σ.unxName e) := by
  obtain ⟨c, rest, rfl, hc, hrest⟩ := h
  have hcomma : ∀ d, isalpha d → COMMA ≠ d := fun d hd => (isalpha_ne hd (by decide)).symm
  have hcolon : COMMA ≠ COLON := by decide
  have hback : COMMA ≠ BACKSLASH := by decide
  have hmap : COMMA ∉ rest.map (foldChar σ) := by
    rw [List.mem_map]
    rintro ⟨x, hx, heq⟩
    rw [foldChar_eq_iff (by decide)] at heq
    have := (hrest x hx).2.2
    rw [heq] at this
    exact absurd this (by decide)
  rcases (dosName_unxName hc (fun x hx => (hrest x hx).1) hspecial).1 with
    ⟨d, hd, heq⟩ | ⟨-, heq⟩
  · have hd' : COMMA ≠ d := by
      rintro rfl
      have := (tolower_eq_iff (c := c) (k := COMMA) (by decide)).mp hd.symm
      exact hcomma c hc this.symm
    rw [heq]
    refine ⟨List.cons_ne_nil _ _, ?_⟩
    simp only [List.mem_cons, hd', hcolon, hback, hmap, or_self, not_false_eq_true]
  · rw [heq]
    refine ⟨List.cons_ne_nil _ _, ?_⟩
    simp only [List.mem_cons, hcomma 117 (by decide), hcomma _ (isalpha_tolower hc), hcolon, hback,
      hmap, or_self, not_false_eq_true]

/-- A list of names that are not special comes back as the list of the same places. -/
theorem path_round_trip (h : ∀ e ∈ parts isDosSep p, DosName e ∧ ¬ Special σ e ∧
      e.length < PATH_MAX ∧ (σ.unxName e).length < PATH_MAX)
    (hroom : (σ.unxPath (parts isDosSep p)).length + 10 < len) (hlen : len < 2 ^ 32) :
    ∃ unx dos, pathDos2unx σ p len = some unx ∧
      (∀ len', dos.length + 10 < len' → len' < 2 ^ 32 → pathUnx2dos σ unx len' = some dos) ∧
      List.Forall₂ (Same σ) (parts isDosSep p) (parts (· == COMMA) dos) := by
  have hne : ∀ e, DosName e → e ≠ [] := by
    rintro e ⟨c, rest, rfl, -⟩
    exact List.cons_ne_nil _ _
  have helems : elements isDosSep p = parts isDosSep p :=
    elements_eq_parts fun e he => hne e (h e he).1
  set es := parts isDosSep p with hes
  have hunx : ∀ u ∈ es.map σ.unxName, ∃ e ∈ es, DosName e ∧ ¬ Special σ e ∧
      u = σ.unxName e ∧ u.length < PATH_MAX := by
    intro u hu
    obtain ⟨e, he, rfl⟩ := List.mem_map.mp hu
    exact ⟨e, he, (h e he).1, (h e he).2.1, rfl, (h e he).2.2.2⟩
  have hparts : parts isUnxSep (σ.unxPath es) = es.map σ.unxName := by
    have hcolon : parts (· == COLON) ([COLON].intercalate (es.map σ.unxName)) =
        es.map σ.unxName := by
      refine parts_intercalate (fun u hu => ?_) fun u hu => ?_
      · obtain ⟨e, -, he, -, rfl, -⟩ := hunx u hu
        exact unxName_ne_nil he
      · obtain ⟨e, -, he, -, rfl, -⟩ := hunx u hu
        exact colon_notMem he
    exact hcolon
  refine ⟨σ.unxPath es, [COMMA].intercalate ((es.map σ.unxName).map (dosName σ)), ?_, ?_, ?_⟩
  · rw [pathDos2unx, helems]
    refine pathLoop_room (fun e he => ⟨(h e he).2.2.1, fun len hfit hlen => ?_⟩) hroom hlen
    exact ⟨_, congrArg some (Prod.ext (dos2unx_eq hfit hlen) rfl)⟩
  · intro len' hroom' hlen'
    rw [pathUnx2dos, elements_eq_parts, hparts]
    · refine pathLoop_room (fun u hu => ?_) hroom' hlen'
      obtain ⟨e, -, ⟨c, rest, rfl, hc, hrest⟩, hspecial, rfl, hshort⟩ := hunx u hu
      have htos := (dosName_unxName hc (fun x hx => (hrest x hx).1) hspecial).2
      exact ⟨hshort, fun len hfit hlen => unx2dos_eq htos hfit hlen⟩
    · rw [hparts]
      intro u hu
      obtain ⟨e, -, he, -, rfl, -⟩ := hunx u hu
      exact unxName_ne_nil he
  · rw [parts_intercalate, List.map_map, List.forall₂_map_right_iff, List.forall₂_same]
    · exact fun e he => same_back (h e he).1 (h e he).2.1
    · intro d hd
      obtain ⟨u, hu, rfl⟩ := List.mem_map.mp hd
      obtain ⟨e, -, he, hspecial, rfl, -⟩ := hunx u hu
      exact (comma_notMem he hspecial).1
    · intro d hd
      obtain ⟨u, hu, rfl⟩ := List.mem_map.mp hd
      obtain ⟨e, -, he, hspecial, rfl, -⟩ := hunx u hu
      exact (comma_notMem he hspecial).2

theorem path_round_trip_demo : ∃ unx dos,
    pathDos2unx ⟨0, 0⟩ [67, 58, 92, 120, 59, 68, 58, 92, 121] 100 = some unx ∧
      (∀ len', dos.length + 10 < len' → len' < 2 ^ 32 →
        pathUnx2dos ⟨0, 0⟩ unx len' = some dos) ∧
      List.Forall₂ (Same ⟨0, 0⟩) (parts isDosSep [67, 58, 92, 120, 59, 68, 58, 92, 121])
        (parts (· == COMMA) dos) := by
  have hparts : parts isDosSep [67, 58, 92, 120, 59, 68, 58, 92, 121] =
      [[67, 58, 92, 120], [68, 58, 92, 121]] := by decide
  refine path_round_trip ?_ (by decide) (by norm_num)
  rw [hparts]
  intro e he
  rcases List.mem_pair.mp he with rfl | rfl
  · exact ⟨⟨67, [120], rfl, by decide, List.forall_mem_singleton.mpr (by decide)⟩,
      fun h => absurd h.1 (by decide), by decide, by decide⟩
  · exact ⟨⟨68, [121], rfl, by decide, List.forall_mem_singleton.mpr (by decide)⟩,
      fun h => absurd h.1 (by decide), by decide, by decide⟩

/-- With the root drive `c:`, `C:\dev\a\x` comes back as `a:\x`. -/
theorem dev_lost : DosName [67, 58, 92, 100, 101, 118, 92, 97, 92, 120] ∧
    ∃ unx, pathDos2unx ⟨99, 0x10c⟩ [67, 58, 92, 100, 101, 118, 92, 97, 92, 120] 100 = some unx ∧
      pathUnx2dos ⟨99, 0x10c⟩ unx 100 = some [97, 58, 92, 120] ∧
      ¬ Same ⟨99, 0x10c⟩ [67, 58, 92, 100, 101, 118, 92, 97, 92, 120] [97, 58, 92, 120] := by
  have hname : DosName [67, 58, 92, 100, 101, 118, 92, 97, 92, 120] := by
    refine ⟨67, _, rfl, by decide, fun x hx => ?_⟩
    simp only [List.mem_cons, List.not_mem_nil, or_false] at hx
    rcases hx with rfl | rfl | rfl | rfl | rfl | rfl | rfl <;> decide
  refine ⟨hname, [47, 100, 101, 118, 47, 97, 47, 120], by decide, by decide, ?_⟩
  unfold Same
  decide

end Lists

end Mintlib.PathLists
