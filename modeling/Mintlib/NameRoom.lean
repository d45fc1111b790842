import Mintlib.PathLists
import Mintlib.Posix

/-!
# Room for a name

What `_unx2dos` and `_dos2unx` do with a buffer of any length, and `getcwd`, which passes
the length of its caller on to `_dos2unx`.
-/

namespace Mintlib.NameRoom

open Text Unx2dos PathLists Posix

/-- What a call of `_unx2dos` or `_dos2unx` is to do with a buffer of `len` bytes when the
whole translation has `whole` characters. -/
def Kept (out : Option (Str × ℤ)) (whole len : ℕ) : Prop :=
  match out with
  | none => False
  | some (t, ret) => t.length + 1 ≤ len ∧ (ret = -1 ↔ len < whole + 1)

instance (out : Option (Str × ℤ)) (whole len : ℕ) : Decidable (Kept out whole len) := by
  unfold Kept
  split
  · exact instDecidableFalse
  · exact instDecidableAnd

def IsDevice (σ : Sys) (unx : Str) : Prop :=
  DEV <+: unx ∧ ¬ IsDrive (unx.drop 5) ∧ σ.mint = 0

instance (σ : Sys) (unx : Str) : Decidable (IsDevice σ unx) := by
  unfold IsDevice
  exact inferInstance

/-- What `_unx2dos` writes for a drive, and the rest of the name. -/
def dosDrive (σ : Sys) (unx : Str) : Str × Str :=
  if DEV <+: unx then
    if IsDrive (unx.drop 5) then ([(unx.drop 5).headD 0, COLON], (unx.drop 5).tail)
    else (UDEV, unx.drop 5)
  else if σ.mint ≠ 0 ∧ PIPE <+: unx then (UPIPE, unx.drop 6)
  else if unx.head? = some SLASH ∧ σ.rootdir ≠ 0 then ([σ.rootdir, COLON], unx)
  else ([], unx)

/-- The whole translation by `_unx2dos`. -/
def dosWhole (σ : Sys) (unx : Str) : Str :=
  if IsDevice σ unx then
    if unx.drop 5 = [116, 116, 121] then [99, 111, 110, 58] else unx.drop 5 ++ [COLON]
  else dosName σ unx

/-- `drive` and the NUL leave room for one more character, or nothing follows; and unless
the loop counts all the `length` characters of the name, it is not to stop at its end. -/
def Roomy (drive rest : Str) (length len : ℕ) : Prop :=
  (drive.length + 1 < len ∨ drive.length + 1 = len ∧ rest = []) ∧
    (drive.length + rest.length + 1 = len → rest = [] ∨ rest.length = length)

instance (drive rest : Str) (length len : ℕ) : Decidable (Roomy drive rest length len) :=
  inferInstanceAs (Decidable (_ ∧ _))

/-- What `getcwd` meets: `Dgetdrv () + 'a'`, the answers of `Dgetcwd` for a length and of
`Dgetpath`, and whether `malloc` finds that many bytes. -/
structure Kernel where
  drv : UInt8
  dgetcwd : ℕ → Except ℤ Str
  dgetpath : Str
  malloc : ℕ → Bool

def Kernel.cwd (k : Kernel) (len : ℕ) : Except ℤ Str :=
  match k.dgetcwd len with
  | .ok path => .ok path
  | .error r => if r = ENOSYS then .ok k.dgetpath else .error r

/-- The name that `getcwd` passes to `_dos2unx`. -/
def Kernel.name (k : Kernel) (σ : Sys) (path : Str) : Str :=
  if σ.rootdir ≠ 0 ∧ k.drv = σ.rootdir then (if path = [] then [BACKSLASH] else path)
  else k.drv :: COLON :: path

/-- The length of `_path`. -/
def pathLength (size : ℕ) : ℕ := (if 0 < size then size else PATH_MAX) + 16

/-- The string that is left in the buffer with the length of the buffer, if `_dos2unx` was
called, and `errno` if `NULL` is returned. -/
def getcwd (σ : Sys) (k : Kernel) (buf : Bool) (size : ℕ) : Option (Str × ℕ) × Option ℤ :=
  if k.malloc (pathLength size) = false then (none, some ENOMEM)
  else
    let room := if buf = false ∧ size = 0 then PATH_MAX else size
    if buf = false ∧ k.malloc room = false then (none, some ENOMEM)
    else
      match k.cwd (pathLength size - 2) with
      | .error r => (none, some r)
      | .ok path =>
        let (t, ret) := dos2unx σ (k.name σ path) room
        (some (t, room), if ret = -1 then some ENAMETOOLONG else none)

section Loop

variable {conv : UInt8 → UInt8} {drive rest : Str} {length count len : ℕ}

theorem copy_ne_nil (conv : UInt8 → UInt8) (length count len : ℕ) (h : rest ≠ []) :
    (copy conv length count len rest).1 ≠ [] := by
  obtain ⟨c, rest, rfl⟩ := List.exists_cons_of_ne_nil h
  unfold copy
  split
  · exact List.cons_ne_nil _ _
  · exact List.cons_ne_nil _ _

theorem copy_room (conv : UInt8 → UInt8) (rest : Str) (length count len : ℕ) (hpos : 0 < len)
    (hlen : len < 2 ^ 32) :
    (copy conv length count len rest).1.length = min rest.length len ∧
      ((copy conv length count len rest).2 = -1 ↔
        len ≤ rest.length ∧ count + len < length) := by
  induction rest generalizing count len with
  | nil =>
    refine ⟨(Nat.zero_min _).symm, ?_⟩
    simp only [copy, List.length_nil]
    omega
  | cons c rest ih =>
    have hless : less len 1 = len - 1 := less_eq hpos hlen
    rw [copy, hless, List.length_cons]
    by_cases hzero : len - 1 = 0
    · rw [if_pos hzero]
      refine ⟨by simp only [List.length_singleton]; omega, ?_⟩
      split <;> omega
    · obtain ⟨hlength, hret⟩ := ih (count + 1) (len - 1) (by omega) (by omega)
      rw [if_neg hzero]
      refine ⟨?_, ?_⟩
      · show (copy conv length (count + 1) (len - 1) rest).1.length + 1 = _
        omega
      · show (copy conv length (count + 1) (len - 1) rest).2 = -1 ↔ _
        rw [hret]
        omega

theorem kept_copy (hrest : rest.length ≤ length) (hlen : len < 2 ^ 32) :
    Kept (some (drive ++ (copy conv length 0 (less (less len 1) drive.length) rest).1,
        (copy conv length 0 (less (less len 1) drive.length) rest).2))
      (drive.length + rest.length) len ↔ Roomy drive rest length len := by
  simp only [Kept, Roomy, List.length_append]
  by_cases hroom : drive.length + 1 < len
  · have hless : less (less len 1) drive.length = len - 1 - drive.length := by
      rw [less_eq (by omega) hlen, less_eq (by omega) (by omega)]
    obtain ⟨hlength, hret⟩ := copy_room conv rest length 0
      (len - 1 - drive.length) (by omega) (by omega)
    rw [hless, hlength, hret, ← List.length_eq_zero_iff]
    omega
  · by_cases hnil : drive.length + 1 = len ∧ rest = []
    · obtain ⟨hfull, rfl⟩ := hnil
      have hlength : (copy conv length 0 (less (less len 1) drive.length) []).1.length = 0 := rfl
      have hret : (copy conv length 0 (less (less len 1) drive.length) []).2 = 0 := rfl
      simp only [hlength, hret, List.length_nil, and_true, true_or, implies_true]
      omega
    · have hover : ¬ (drive.length +
          (copy conv length 0 (less (less len 1) drive.length) rest).1.length + 1 ≤ len) := by
        intro hle
        by_cases hempty : rest = []
        · exact hnil ⟨by omega, hempty⟩
        · have hpos := List.length_pos_iff.mpr (copy_ne_nil conv length 0
            (less (less len 1) drive.length) hempty)
          omega
      refine iff_of_false (fun h => hover h.1) (fun h => ?_)
      exact h.1.elim hroom hnil

end Loop

section Names

variable {σ : Sys} {unx dos : Str} {len : ℕ}

theorem length_unxDrive_le : (σ.unxDrive dos).2.length ≤ dos.length := by
  unfold Sys.unxDrive
  split
  · simp only [List.length_cons]
    omega
  · exact le_refl _

theorem kept_dos2unx (hlen : len < 2 ^ 32) :
    Kept (some (dos2unx σ dos len)) (σ.unxName dos).length len ↔
      Roomy (σ.unxDrive dos).1 (σ.unxDrive dos).2 dos.length len := by
  have hwhole : (σ.unxName dos).length =
      (σ.unxDrive dos).1.length + (σ.unxDrive dos).2.length := by
    rw [Sys.unxName, List.length_append, List.length_map]
  rw [hwhole]
  exact kept_copy length_unxDrive_le hlen

theorem length_dosDrive_le : (dosDrive σ unx).2.length ≤ unx.length := by
  unfold dosDrive
  split_ifs
  all_goals simp only [List.length_drop, List.length_tail]; omega

theorem dosName_eq_drive : dosName σ unx = (dosDrive σ unx).1 ++ (dosDrive σ unx).2.map dosChar := by
  unfold dosName dosDrive
  split_ifs <;> rfl

theorem unx2dos_eq_copy (h : ¬ IsDevice σ unx) :
    unx2dos σ unx len = some ((dosDrive σ unx).1 ++
        (copy dosChar unx.length 0 (less (less len 1) (dosDrive σ unx).1.length)
          (dosDrive σ unx).2).1,
      (copy dosChar unx.length 0 (less (less len 1) (dosDrive σ unx).1.length)
        (dosDrive σ unx).2).2) := by
  unfold unx2dos dosDrive
  by_cases hdev : DEV <+: unx
  · simp only [if_pos hdev]
    by_cases hdrive : IsDrive (unx.drop 5)
    · simp only [if_pos hdrive]
    · have hmint : σ.mint ≠ 0 := fun hzero => h ⟨hdev, hdrive, hzero⟩
      simp only [if_neg hdrive, if_pos hmint]
  · simp only [if_neg hdev]
    by_cases hpipe : σ.mint ≠ 0 ∧ PIPE <+: unx
    · simp only [if_pos hpipe]
    · simp only [if_neg hpipe]
      by_cases hroot : unx.head? = some SLASH ∧ σ.rootdir ≠ 0
      · simp only [if_pos hroot]
      · simp only [if_neg hroot]

theorem kept_unx2dos (h : ¬ IsDevice σ unx) (hlen : len < 2 ^ 32) :
    Kept (unx2dos σ unx len) (dosWhole σ unx).length len ↔
      Roomy (dosDrive σ unx).1 (dosDrive σ unx).2 unx.length len := by
  have hwhole : (dosWhole σ unx).length =
      (dosDrive σ unx).1.length + (dosDrive σ unx).2.length := by
    rw [dosWhole, if_neg h, dosName_eq_drive, List.length_append, List.length_map]
  rw [unx2dos_eq_copy h, hwhole]
  exact kept_copy length_dosDrive_le hlen

theorem unx2dos_device (h : IsDevice σ unx) :
    unx2dos σ unx len = device (unx.drop 5) (less len 1) := by
  obtain ⟨hdev, hdrive, hmint⟩ := h
  have hzero : ¬ σ.mint ≠ 0 := not_not.mpr hmint
  unfold unx2dos
  simp only [if_pos hdev, if_neg hdrive, if_neg hzero]

theorem device_eq {u : Str} (h : u.length < len) :
    device u len = some (if u = [116, 116, 121] then [99, 111, 110, 58] else u ++ [COLON], 1) := by
  have htty : u ++ [COLON] = [116, 116, 121, 58] ↔ u = [116, 116, 121] := by
    have happend : ([116, 116, 121, 58] : Str) = [116, 116, 121] ++ [COLON] := rfl
    rw [happend, List.append_left_inj]
  rw [device, if_pos h]
  simp only [htty]

theorem length_dosWhole (h : IsDevice σ unx) :
    (dosWhole σ unx).length = (unx.drop 5).length + 1 := by
  rw [dosWhole, if_pos h]
  split
  · next htty => rw [htty]; rfl
  · exact List.length_append

theorem kept_device (h : IsDevice σ unx) (hlen : len < 2 ^ 32) :
    Kept (unx2dos σ unx len) (dosWhole σ unx).length len ↔
      (dosWhole σ unx).length + 1 ≤ len := by
  rw [unx2dos_device h, length_dosWhole h]
  generalize unx.drop 5 = u
  by_cases hnone : len = 0
  · subst hnone
    refine iff_of_false (fun hkept => ?_) (by omega)
    unfold Kept at hkept
    split at hkept
    · exact hkept
    · exact absurd hkept.1 (by omega)
  · have hless : less len 1 = len - 1 := less_eq (by omega) hlen
    rw [hless]
    by_cases hfits : u.length < len - 1
    · have hd : (if u = [116, 116, 121] then [99, 111, 110, 58]
          else u ++ [COLON]).length = u.length + 1 := by
        split
        · next htty => rw [htty]; rfl
        · exact List.length_append
      rw [device_eq hfits]
      simp only [Kept, hd]
      omega
    · rw [device, if_neg hfits]
      refine iff_of_false (fun hkept => ?_) (by omega)
      by_cases hzero : len - 1 = 0
      · rw [if_pos hzero] at hkept
        have := hkept.2
        omega
      · rw [if_neg hzero] at hkept
        exact hkept

theorem getcwd_call {k : Kernel} {buf : Bool} {size room : ℕ} {path t : Str} {err : Option ℤ}
    (hcwd : k.cwd (pathLength size - 2) = .ok path)
    (h : getcwd σ k buf size = (some (t, room), err)) :
    room = (if buf = false ∧ size = 0 then PATH_MAX else size) ∧
      t = (dos2unx σ (k.name σ path) room).1 ∧
      (err = some ENAMETOOLONG ↔ (dos2unx σ (k.name σ path) room).2 = -1) := by
  unfold getcwd at h
  by_cases hmalloc : k.malloc (pathLength size) = false
  · rw [if_pos hmalloc] at h
    cases h
  · simp only [if_neg hmalloc, hcwd] at h
    generalize (if buf = false ∧ size = 0 then PATH_MAX else size) = len at h ⊢
    by_cases hbuf : buf = false ∧ k.malloc len = false
    · rw [if_pos hbuf] at h
      cases h
    · rw [if_neg hbuf] at h
      obtain ⟨hsome, rfl⟩ := Prod.mk.inj h
      obtain ⟨ht, rfl⟩ := Prod.mk.inj (Option.some.inj hsome)
      refine ⟨rfl, ht.symm, ?_⟩
      split
      · next hret => exact iff_of_true rfl hret
      · next hret => exact iff_of_false (Option.some_ne_none _).symm hret

end Names

/-- Exactly when `_unx2dos`, `_dos2unx` and `getcwd` keep to the buffer, terminate the name
and report one that is too long. -/
theorem name_room_iff (σ : Sys) :
    (∀ unx len, len < 2 ^ 32 →
      (Kept (unx2dos σ unx len) (dosWhole σ unx).length len ↔
        if IsDevice σ unx then (dosWhole σ unx).length + 1 ≤ len
        else Roomy (dosDrive σ unx).1 (dosDrive σ unx).2 unx.length len)) ∧
    (∀ dos len, len < 2 ^ 32 →
      (Kept (some (dos2unx σ dos len)) (σ.unxName dos).length len ↔
        Roomy (σ.unxDrive dos).1 (σ.unxDrive dos).2 dos.length len)) ∧
    ∀ (k : Kernel) buf size path t room err, size < 2 ^ 32 →
      k.cwd (pathLength size - 2) = .ok path →
      getcwd σ k buf size = (some (t, room), err) →
      (t.length + 1 ≤ room ∧
          (err = some ENAMETOOLONG ↔ room < (σ.unxName (k.name σ path)).length + 1) ↔
        Roomy (σ.unxDrive (k.name σ path)).1 (σ.unxDrive (k.name σ path)).2
          (k.name σ path).length room) := by
  refine ⟨fun unx len hlen => ?_, fun dos len hlen => kept_dos2unx hlen, ?_⟩
  · by_cases hdevice : IsDevice σ unx
    · rw [if_pos hdevice]
      exact kept_device hdevice hlen
    · rw [if_neg hdevice]
      exact kept_unx2dos hdevice hlen
  · intro k buf size path t room err hsize hcwd hcall
    obtain ⟨hroom, ht, herr⟩ := getcwd_call hcwd hcall
    have hlt : room < 2 ^ 32 := by
      rw [hroom]
      split
      · decide
      · exact hsize
    rw [← kept_dos2unx hlt, ht, herr]
    exact Iff.rfl

/-- `"c:\x"`. -/
def demoName : Str := [99, COLON, BACKSLASH, 120]

/-- The root directory of drive `c`, under TOS. -/
def demoKernel : Kernel :=
  { drv := 99, dgetcwd := fun _ => .error ENOSYS, dgetpath := [], malloc := fun _ => true }

/-- The theorem at buffers of ten bytes; `getcwd` finds `"/dev/c/"`. -/
theorem name_room_iff_demo :
    (Kept (unx2dos ⟨100, 0⟩ [SLASH, 97] 10) 4 10 ∧
      Kept (some (dos2unx ⟨100, 0⟩ demoName 10)) 8 10) ∧
    (7 + 1 ≤ 10 ∧ ((none : Option ℤ) = some ENAMETOOLONG ↔
      10 < (Sys.unxName ⟨100, 0⟩ [99, COLON]).length + 1)) :=
  ⟨⟨((name_room_iff ⟨100, 0⟩).1 [SLASH, 97] 10 (by decide)).mpr (by decide),
    ((name_room_iff ⟨100, 0⟩).2.1 demoName 10 (by decide)).mpr (by decide)⟩,
    ((name_room_iff ⟨100, 0⟩).2.2 demoKernel true 10 [] [SLASH, 100, 101, 118, SLASH, 99, SLASH]
      10 none (by decide) rfl rfl).mpr (by decide)⟩

/-- A name that fits exactly is reported as too long: `"/dev/c/x"` in nine bytes. -/
theorem exact_fit_refused :
    ¬ ∀ (σ : Sys) (dos : Str) (len : ℕ), 1 ≤ len → len < 2 ^ 32 →
      Kept (some (dos2unx σ dos len)) (σ.unxName dos).length len := by
  intro h
  have hkept := h ⟨100, 0⟩ demoName 9 (by decide) (by decide)
  exact absurd hkept (by decide)

end Mintlib.NameRoom
