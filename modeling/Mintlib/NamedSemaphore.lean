import Mintlib.Lib.Text
import Mintlib.Semaphore

/-!
# Named semaphores: `sem_open.c`, `sem_close.c`, `sem_unlink.c` and `sem_destroy.c`

A name stands for a file in `U:\SHM`, a shared block that is attached to the file and a
semaphore of the kernel, whose id is made of the characters of the name. The kernel
refuses to create a semaphore whose id is in use.
-/

namespace Mintlib.NamedSemaphore

open Text Semaphore

abbrev UNDERSCORE : UInt8 := 95

abbrev SEM_NAME_MAX : ℕ := 4

abbrev EACCDN : ℤ := -36
abbrev ENHNDL : ℤ := -35
abbrev EPTHNF : ℤ := -34

abbrev O_CREAT : ℕ := 0x200
abbrev O_EXCL : ℕ := 0x800

inductive Errno where
  | EINVAL | ENAMETOOLONG | ENOENT | EEXIST | EMFILE | EACCES | ENOMEM | EAGAIN
deriving DecidableEq

/-- The address of a block that `Mxalloc` gave, or 0. -/
abbrev Ptr := ℕ

structure SemT where
  max_count : ℤ
  io_count : ℤ
  sem_id : Ptr

inductive Block where
  | sem (b : SemT)
  | text (c : List UInt8)

/-- A file in `U:\SHM`: the block that is attached to it, or 0. -/
structure File where
  block : Ptr
  mode : ℕ

/-- The files, the shared memory and the ids of the kernel's semaphores. -/
structure Sys (F : Type*) where
  file : F → Option File
  mem : Ptr → Option Block
  ids : Finset UInt32

/-- What the kernel answers during a call. `SHMSETBLK` says whether the block was attached and
`Psemaphore` whether there is room for another semaphore. -/
structure Answers where
  Fcreate : ℤ
  Mxalloc₁ : Ptr
  Mxalloc₂ : Ptr
  SHMSETBLK : Bool
  Psemaphore : Bool
  R_OK : Bool
  W_OK : Bool
  Fopen : ℤ
  fork : ℤ

namespace Sys

variable {F : Type*} [DecidableEq F] (s : Sys F)

def put (p : Ptr) (b : Block) : Sys F := { s with mem := Function.update s.mem p (some b) }

def Mfree (p : Ptr) : Sys F := { s with mem := Function.update s.mem p none }

/-- `Fcreate (path, 4)` and `Fchmod`; a file that exists keeps its block. -/
def Fcreate (f : F) (mode : ℕ) : Sys F :=
  { s with file := Function.update s.file f (some ⟨((s.file f).map File.block).getD 0, mode⟩) }

def SHMSETBLK (f : F) (p : Ptr) : Sys F :=
  { s with file := Function.update s.file f ((s.file f).map fun x => { x with block := p }) }

/-- The `sem_t` at an address. -/
def semAt (p : Ptr) : SemT :=
  match s.mem p with
  | some (.sem b) => b
  | _ => ⟨0, 0, 0⟩

def textAt (p : Ptr) : List UInt8 :=
  match s.mem p with
  | some (.text c) => c
  | _ => []

/-- `sem_ptr->io_count += d` for an `int`. -/
def addIo (p : Ptr) (d : ℤ) : Sys F :=
  match s.mem p with
  | some (.sem b) => s.put p (.sem { b with io_count := Int.bmod (b.io_count + d) (2 ^ 32) })
  | _ => s

end Sys

/-- `"/U/SHM"` and the name. -/
def semPath (name : Str) : Str := [47, 85, 47, 83, 72, 77] ++ name

/-- What `strncpy` and the last assignment leave in the five bytes of `sem_id`. -/
def idText (name : Str) : List UInt8 :=
  (name ++ List.replicate (SEM_NAME_MAX - name.length) 0).take SEM_NAME_MAX ++ [0]

/-- The kernel's id for the characters at `sem_id`. -/
def textId (c : List UInt8) : UInt32 := semId fun i => c.getD i 0

def nameId (name : Str) : UInt32 := textId (idText name)

section Calls

variable {F : Type*} [DecidableEq F] (lookup : Str → F) (k : Answers) (s : Sys F)

/-- `sem_open` with `O_CREAT` from `Fcreate` on. -/
def create (name : Str) (mode value : ℕ) : Except (Option Errno) Ptr × Sys F :=
  let f := lookup (semPath name)
  if k.Fcreate = ENHNDL then (.error (some .EMFILE), s)
  else if k.Fcreate = EPTHNF ∨ k.Fcreate = EACCDN then (.error (some .EACCES), s)
  else if k.Fcreate < 0 then (.error none, s)
  else
    let s := s.Fcreate f mode
    if k.Mxalloc₁ = 0 then (.error (some .ENOMEM), s)
    else if k.Mxalloc₂ = 0 then (.error (some .ENOMEM), s.Mfree k.Mxalloc₁)
    else
      let s := if k.SHMSETBLK then s.SHMSETBLK f k.Mxalloc₁ else s
      let s := (s.put k.Mxalloc₂ (.text (idText name))).put k.Mxalloc₁ (.sem ⟨value, 0, k.Mxalloc₂⟩)
      let sem_id := nameId name
      if sem_id ∈ s.ids ∨ k.Psemaphore = false then
        (.error none, (s.Mfree k.Mxalloc₂).Mfree k.Mxalloc₁)
      else (.ok k.Mxalloc₁, { s with ids := insert sem_id s.ids }.addIo k.Mxalloc₁ 1)

/-- `sem_open` without `O_CREAT`, after the checks of the name. -/
def attach (name : Str) : Except (Option Errno) Ptr × Sys F :=
  match s.file (lookup (semPath name)) with
  | none => (.error (some .ENOENT), s)
  | some file =>
    if k.R_OK = false then (.error (some .EACCES), s)
    else if k.Fopen < 0 then (.error (some .EACCES), s)
    else if file.block = 0 then (.error (some .ENOENT), s)
    else (.ok file.block, s.addIo file.block 1)

/-- `lookup` is the kernel's search for a path. -/
def semOpen (name : Option Str) (oflag mode value : ℕ) : Except (Option Errno) Ptr × Sys F :=
  match name with
  | none => (.error (some .EINVAL), s)
  | some name =>
    if SEM_NAME_MAX < name.length then (.error (some .ENAMETOOLONG), s)
    else if name.head? ≠ some SLASH then (.error (some .EINVAL), s)
    else if name = [SLASH] then (.error (some .EINVAL), s)
    else if name.head? = some UNDERSCORE then (.error (some .ENOENT), s)
    else if oflag &&& O_CREAT ≠ 0 ∧ SEM_VALUE_MAX < value then (.error (some .EINVAL), s)
    else if oflag &&& O_CREAT ≠ 0 then
      if oflag &&& O_EXCL ≠ 0 ∧ (s.file (lookup (semPath name))).isSome then
        (.error (some .EEXIST), s)
      else create lookup k s name mode value
    else attach lookup k s name

/-- `access (path, W_OK) == 0`. -/
def writable (path : Str) : Bool := (s.file (lookup path)).isSome && k.W_OK

def semClose (sem : Ptr) : ℤ × Option Errno × Sys F :=
  if sem = 0 then (-1, some .EINVAL, s)
  else if (s.semAt sem).sem_id = 0 then (-1, some .EINVAL, s)
  else
    let name := cstr (s.textAt (s.semAt sem).sem_id)
    if writable lookup k s (semPath name) = false then (-1, some .EINVAL, s)
    else
      match semOpen lookup k s (some name) 0 0 0 with
      | (.error _, s) => (-1, some .EINVAL, s)
      | (.ok p, s) => (0, none, if 0 < (s.semAt p).io_count then s.addIo p (-1) else s)

/-- The parent's part of `sem_unlink`, and the `sem_ptr` of the child. -/
def semUnlink (name : Option Str) : ℤ × Option Errno × Option Ptr × Sys F :=
  match name with
  | none => (-1, some .EINVAL, none, s)
  | some name =>
    if SEM_NAME_MAX < name.length then (-1, some .ENAMETOOLONG, none, s)
    else if writable lookup k s (semPath name) = false then (-1, some .EACCES, none, s)
    else
      match semOpen lookup k s (some name) 0 0 0 with
      | (.error _, s) => (-1, some .ENOENT, none, s)
      | (.ok p, s) =>
        let s := s.addIo p (-1)
        if k.fork < 0 then (-1, some .EAGAIN, none, s) else (0, none, some p, s)

/-- The child of `sem_unlink`, from the test of its loop on: `none` is `sched_yield`. The
address of its variable `sem_id` is `addr`, and that is what it passes to `Psemaphore`. -/
def unlinkChild (name : Str) (addr : UInt32) (p : Ptr) : Option (Sys F) :=
  if 0 < (s.semAt p).io_count then none
  else
    let s' := { s with ids := s.ids.erase addr }
    let s' := (s'.Mfree (s.semAt p).sem_id).Mfree p
    some { s' with file := Function.update s'.file (lookup (semPath name)) none }

omit [DecidableEq F] in
/-- `addr` is the address of the variable `sem_id`. -/
def semDestroy (addr : UInt32) (sem : Ptr) : ℤ × Option Errno × Sys F :=
  if sem = 0 then (-1, some .EINVAL, s)
  else if (s.semAt sem).sem_id = 0 then (-1, some .EINVAL, s)
  else
    let b := s.semAt sem
    (0, none, ({ s with ids := s.ids.erase addr }.Mfree b.sem_id).put sem (.sem { b with sem_id := 0 }))

end Calls

section Opening

variable {F : Type*} [DecidableEq F] {lookup : Str → F} {k : Answers} {s s' : Sys F}
  {name : Str} {oflag mode value : ℕ} {res : Except (Option Errno) Ptr}

structure Honest (k : Answers) (s : Sys F) : Prop where
  first : s.mem k.Mxalloc₁ = none
  second : s.mem k.Mxalloc₂ = none
  apart : k.Mxalloc₁ ≠ 0 → k.Mxalloc₁ ≠ k.Mxalloc₂

structure Reaches (lookup : Str → F) (k : Answers) (s : Sys F) (name : Str) (oflag value : ℕ) :
    Prop where
  length : name.length ≤ SEM_NAME_MAX
  slash : name.head? = some SLASH
  root : name ≠ [SLASH]
  creat : oflag &&& O_CREAT ≠ 0
  value : (value : ℤ) ≤ SEM_VALUE_MAX
  excl : oflag &&& O_EXCL ≠ 0 → s.file (lookup (semPath name)) = none
  handle : 0 ≤ k.Fcreate
  first : k.Mxalloc₁ ≠ 0
  second : k.Mxalloc₂ ≠ 0

/-- The file and the blocks of a call that comes to `Psemaphore`. -/
def prepare (lookup : Str → F) (k : Answers) (s : Sys F) (name : Str) (mode value : ℕ) : Sys F :=
  let f := lookup (semPath name)
  let s := s.Fcreate f mode
  let s := if k.SHMSETBLK then s.SHMSETBLK f k.Mxalloc₁ else s
  (s.put k.Mxalloc₂ (.text (idText name))).put k.Mxalloc₁ (.sem ⟨value, 0, k.Mxalloc₂⟩)

/-- What a call of `sem_open` does. -/
inductive Opens (lookup : Str → F) (k : Answers) (s : Sys F) (name : Str)
    (oflag mode value : ℕ) : Except (Option Errno) Ptr → Sys F → Prop
  | refused (e : Option Errno) : Opens lookup k s name oflag mode value (.error e) s
  | unfinished (hcreat : oflag &&& O_CREAT ≠ 0) {s' : Sys F}
      (hmem : s'.mem = s.mem ∨ s'.mem = Function.update s.mem k.Mxalloc₁ none)
      (hids : s'.ids = s.ids) (hfile : s'.file = (s.Fcreate (lookup (semPath name)) mode).file) :
      Opens lookup k s name oflag mode value (.error (some .ENOMEM)) s'
  | undone (hreach : Reaches lookup k s name oflag value)
      (hid : nameId name ∈ s.ids ∨ k.Psemaphore = false) :
      Opens lookup k s name oflag mode value (.error none)
        (((prepare lookup k s name mode value).Mfree k.Mxalloc₂).Mfree k.Mxalloc₁)
  | created (hreach : Reaches lookup k s name oflag value) (hid : nameId name ∉ s.ids) :
      Opens lookup k s name oflag mode value (.ok k.Mxalloc₁)
        ({ prepare lookup k s name mode value with ids := insert (nameId name) s.ids }.addIo
          k.Mxalloc₁ 1)
  | attached {file : File} (hcreat : oflag &&& O_CREAT = 0)
      (hfile : s.file (lookup (semPath name)) = some file) (hblock : file.block ≠ 0) :
      Opens lookup k s name oflag mode value (.ok file.block) (s.addIo file.block 1)

theorem ids_prepare (lookup : Str → F) (k : Answers) (s : Sys F) (name : Str) (mode value : ℕ) :
    (prepare lookup k s name mode value).ids = s.ids := by
  unfold prepare Sys.put Sys.Fcreate Sys.SHMSETBLK
  split <;> rfl

theorem create_opens (hlength : name.length ≤ SEM_NAME_MAX) (hslash : name.head? = some SLASH)
    (hroot : name ≠ [SLASH]) (hcreat : oflag &&& O_CREAT ≠ 0) (hvalue : (value : ℤ) ≤ SEM_VALUE_MAX)
    (hexcl : oflag &&& O_EXCL ≠ 0 → s.file (lookup (semPath name)) = none) :
    Opens lookup k s name oflag mode value (create lookup k s name mode value).1
      (create lookup k s name mode value).2 := by
  unfold create
  by_cases hhandle : k.Fcreate = ENHNDL
  · simp only [if_pos hhandle]
    exact .refused _
  by_cases haccess : k.Fcreate = EPTHNF ∨ k.Fcreate = EACCDN
  · simp only [if_neg hhandle, if_pos haccess]
    exact .refused _
  by_cases hneg : k.Fcreate < 0
  · simp only [if_neg hhandle, if_neg haccess, if_pos hneg]
    exact .refused _
  simp only [if_neg hhandle, if_neg haccess, if_neg hneg]
  by_cases hfirst : k.Mxalloc₁ = 0
  · simp only [if_pos hfirst]
    exact .unfinished hcreat (.inl rfl) rfl rfl
  by_cases hsecond : k.Mxalloc₂ = 0
  · simp only [if_neg hfirst, if_pos hsecond]
    exact .unfinished hcreat (.inr rfl) rfl rfl
  have hreach : Reaches lookup k s name oflag value :=
    ⟨hlength, hslash, hroot, hcreat, hvalue, hexcl, not_lt.mp hneg, hfirst, hsecond⟩
  have hids := ids_prepare lookup k s name mode value
  unfold prepare at hids
  simp only [if_neg hfirst, if_neg hsecond, hids]
  by_cases hid : nameId name ∈ s.ids ∨ k.Psemaphore = false
  · simp only [if_pos hid]
    exact .undone hreach hid
  · simp only [if_neg hid]
    exact .created hreach fun h => hid (.inl h)

theorem semOpen_opens (lookup : Str → F) (k : Answers) (s : Sys F) (name : Str)
    (oflag mode value : ℕ) :
    Opens lookup k s name oflag mode value (semOpen lookup k s (some name) oflag mode value).1
      (semOpen lookup k s (some name) oflag mode value).2 := by
  unfold semOpen
  simp only
  split_ifs with hlength hslash hroot hunder hvalue hcreat hexcl
  · exact .refused _
  · exact .refused _
  · exact .refused _
  · exact .refused _
  · exact .refused _
  · exact .refused _
  · exact create_opens (not_lt.mp hlength) (not_not.mp hslash) hroot hcreat
      (not_lt.mp fun h => hvalue ⟨hcreat, h⟩)
      fun h => Option.not_isSome_iff_eq_none.mp fun hf => hexcl ⟨h, hf⟩
  · unfold attach
    cases hfile : s.file (lookup (semPath name)) with
    | none => exact .refused _
    | some file =>
      simp only
      split_ifs with hread hopen hblock
      · exact .refused _
      · exact .refused _
      · exact .refused _
      · exact .attached (not_not.mp hcreat) hfile hblock

theorem mem_prepare (lookup : Str → F) (k : Answers) (s : Sys F) (name : Str) (mode value : ℕ) :
    (prepare lookup k s name mode value).mem =
      Function.update (Function.update s.mem k.Mxalloc₂ (some (.text (idText name)))) k.Mxalloc₁
        (some (.sem ⟨value, 0, k.Mxalloc₂⟩)) := by
  unfold prepare Sys.put Sys.Fcreate Sys.SHMSETBLK
  split <;> rfl

theorem file_prepare (lookup : Str → F) (k : Answers) (s : Sys F) (name : Str) (mode value : ℕ) :
    (prepare lookup k s name mode value).file =
      Function.update s.file (lookup (semPath name))
        (some ⟨if k.SHMSETBLK then k.Mxalloc₁
          else ((s.file (lookup (semPath name))).map File.block).getD 0, mode⟩) := by
  unfold prepare Sys.put Sys.Fcreate Sys.SHMSETBLK
  by_cases h : k.SHMSETBLK = true
  · simp only [if_pos h, Function.update_self, Option.map_some, Function.update_idem]
  · simp only [if_neg h]

theorem mem_undone (hk : Honest k s) :
    (((prepare lookup k s name mode value).Mfree k.Mxalloc₂).Mfree k.Mxalloc₁).mem = s.mem := by
  unfold Sys.Mfree
  rw [mem_prepare]
  funext p
  simp only [Function.update_apply]
  split_ifs with h₁ h₂
  · rw [h₁, hk.first]
  · rw [h₂, hk.second]
  · rfl

omit [DecidableEq F] in
@[simp]
theorem file_addIo (s : Sys F) (p : Ptr) (d : ℤ) : (s.addIo p d).file = s.file := by
  unfold Sys.addIo
  split <;> rfl

omit [DecidableEq F] in
@[simp]
theorem ids_addIo (s : Sys F) (p : Ptr) (d : ℤ) : (s.addIo p d).ids = s.ids := by
  unfold Sys.addIo
  split <;> rfl

omit [DecidableEq F] in
theorem mem_addIo {b : SemT} {p : Ptr} (h : s.mem p = some (.sem b)) (d : ℤ) :
    (s.addIo p d).mem = Function.update s.mem p
      (some (.sem { b with io_count := Int.bmod (b.io_count + d) (2 ^ 32) })) := by
  unfold Sys.addIo
  rw [h]
  rfl

/-- A handle: the `sem_t` is there, and `sem_id` leads to the characters of the name. -/
def Live (s : Sys F) (name : Str) (p : Ptr) : Prop :=
  ∃ b, s.mem p = some (.sem b) ∧ s.mem b.sem_id = some (.text (idText name))

def kernelId (s : Sys F) (p : Ptr) : UInt32 := textId (s.textAt (s.semAt p).sem_id)

omit [DecidableEq F] in
theorem Live.kernelId {p : Ptr} (h : Live s name p) : kernelId s p = nameId name := by
  obtain ⟨b, hb, htext⟩ := h
  unfold NamedSemaphore.kernelId Sys.semAt Sys.textAt nameId
  rw [hb]
  simp only
  rw [htext]

omit [DecidableEq F] in
theorem Live.addIo {p : Ptr} (h : Live s name p) (q : Ptr) (d : ℤ) :
    Live (s.addIo q d) name p := by
  obtain ⟨b, hb, htext⟩ := h
  cases hq : s.mem q with
  | none =>
    have hsame : s.addIo q d = s := by
      unfold Sys.addIo
      rw [hq]
    rw [hsame]
    exact ⟨b, hb, htext⟩
  | some c =>
    cases c with
    | text c =>
      have hsame : s.addIo q d = s := by
        unfold Sys.addIo
        rw [hq]
      rw [hsame]
      exact ⟨b, hb, htext⟩
    | sem c =>
      have hne : b.sem_id ≠ q := by
        intro heq
        rw [heq, hq] at htext
        cases htext
      unfold Live
      rw [mem_addIo hq]
      by_cases hpq : p = q
      · subst hpq
        rw [hq, Option.some.injEq, Block.sem.injEq] at hb
        subst hb
        exact ⟨_, Function.update_self .., (Function.update_of_ne hne ..).trans htext⟩
      · exact ⟨b, (Function.update_of_ne hpq ..).trans hb,
          (Function.update_of_ne hne ..).trans htext⟩

omit [DecidableEq F] in
theorem Live.of_mem {s s' : Sys F} {p q r : Ptr} {b c : Block} (h : Live s name p)
    (hq : s.mem q = none) (hr : s.mem r = none)
    (hmem : s'.mem = Function.update (Function.update s.mem q (some b)) r (some c)) :
    Live s' name p := by
  obtain ⟨x, hx, htext⟩ := h
  have hkeep : ∀ a, s.mem a ≠ none → s'.mem a = s.mem a := by
    intro a ha
    have haq : a ≠ q := fun heq => ha (heq ▸ hq)
    have har : a ≠ r := fun heq => ha (heq ▸ hr)
    rw [hmem, Function.update_of_ne har, Function.update_of_ne haq]
  refine ⟨x, (hkeep p ?_).trans hx, (hkeep _ ?_).trans htext⟩
  · rw [hx]
    exact Option.some_ne_none _
  · rw [htext]
    exact Option.some_ne_none _

theorem live_prepare (hk : Honest k s) (hfirst : k.Mxalloc₁ ≠ 0) :
    Live (prepare lookup k s name mode value) name k.Mxalloc₁ := by
  have hne := hk.apart hfirst
  unfold Live
  rw [mem_prepare]
  exact ⟨_, Function.update_self .., by rw [Function.update_of_ne hne.symm, Function.update_self]⟩

structure Call where
  name : Str
  oflag : ℕ
  mode : ℕ
  value : ℕ

/-- The system, and the handles that calls returned, with their names. -/
structure Opened (F : Type*) where
  sys : Sys F
  handles : List (Str × Ptr)

def enter (t : Opened F) (name : Str) : Except (Option Errno) Ptr × Sys F → Opened F
  | (.ok p, s) => ⟨s, (name, p) :: t.handles⟩
  | (.error _, s) => ⟨s, t.handles⟩

def callOpen (lookup : Str → F) (k : Answers) (t : Opened F) (c : Call) :
    Except (Option Errno) Ptr × Sys F :=
  semOpen lookup k t.sys (some c.name) c.oflag c.mode c.value

/-- `O_CREAT` without `O_EXCL`. -/
def Creates (c : Call) : Prop := c.oflag &&& O_CREAT ≠ 0 ∧ c.oflag &&& O_EXCL = 0

/-- The call does not open the file of another name, does not create what is there, and
`Psemaphore` does not fail once the block is attached to the file. -/
structure Sound (lookup : Str → F) (k : Answers) (t : Opened F) (c : Call) : Prop where
  apart : c.oflag &&& O_CREAT = 0 → ∀ h ∈ t.handles,
    lookup (semPath h.1) = lookup (semPath c.name) → h.1 = c.name
  fresh : Creates c → ∀ h ∈ t.handles, h.1 ≠ c.name
  kept : Reaches lookup k t.sys c.name c.oflag c.value → k.SHMSETBLK = true →
    nameId c.name ∉ t.sys.ids ∧ k.Psemaphore = true

/-- Calls of `sem_open`, from a `U:\SHM` without files. -/
def opening (lookup : Str → F) : Machine (Opened F) (Call × Answers) where
  init t := (∀ f, t.sys.file f = none) ∧ t.handles = []
  step t e t' := Honest e.2 t.sys ∧ Sound lookup e.2 t e.1 ∧
    t' = enter t e.1.name (callOpen lookup e.2 t e.1)

def blockOf (s : Sys F) (f : F) : Option Ptr := (s.file f).map File.block

structure Known (lookup : Str → F) (t : Opened F) : Prop where
  attached : ∀ f p, p ≠ 0 → blockOf t.sys f = some p →
    ∃ name, lookup (semPath name) = f ∧ (name, p) ∈ t.handles
  live : ∀ h ∈ t.handles, Live t.sys h.1 h.2
  used : ∀ h ∈ t.handles, nameId h.1 ∈ t.sys.ids
  same : ∀ h ∈ t.handles, ∀ h' ∈ t.handles, nameId h.1 = nameId h'.1 → h.1 = h'.1

/-- The memory, the ids and the blocks attached to files are as they were. -/
structure Unchanged (s s' : Sys F) : Prop where
  mem : s'.mem = s.mem
  ids : s'.ids = s.ids
  block : ∀ f p, p ≠ 0 → (blockOf s' f = some p ↔ blockOf s f = some p)

theorem blockOf_update {f : F} {x : File} (hfile : s'.file = Function.update s.file f (some x))
    (g : F) : blockOf s' g = if g = f then some x.block else blockOf s g := by
  unfold blockOf
  rw [hfile, Function.update_apply]
  split <;> rfl

theorem unchanged_fcreate {f : F} (hmem : s'.mem = s.mem) (hids : s'.ids = s.ids)
    (hfile : s'.file = (s.Fcreate f mode).file) : Unchanged s s' := by
  refine ⟨hmem, hids, fun g p hp => ?_⟩
  rw [blockOf_update hfile]
  split
  · next h =>
    rw [h, Option.some.injEq]
    unfold blockOf
    cases (s.file f).map File.block with
    | none => simp [hp.symm]
    | some q => simp
  · rfl

/-- A call that fails changes nothing, unless it attaches its block to the file first. -/
theorem Opens.unchanged {e : Option Errno} (hk : Honest k s)
    (hkept : Reaches lookup k s name oflag value → k.SHMSETBLK = true →
      nameId name ∉ s.ids ∧ k.Psemaphore = true)
    (h : Opens lookup k s name oflag mode value (.error e) s') : Unchanged s s' := by
  cases h with
  | refused => exact ⟨rfl, rfl, fun _ _ _ => Iff.rfl⟩
  | unfinished hcreat hmem hids hfile =>
    refine unchanged_fcreate (hmem.elim id fun h => h.trans ?_) hids hfile
    rw [Function.update_eq_self_iff, hk.first]
  | undone hreach hid =>
    have hset : ¬ k.SHMSETBLK = true := by
      intro hset
      obtain ⟨hfree, hroom⟩ := hkept hreach hset
      rcases hid with hid | hid
      · exact hfree hid
      · rw [hid] at hroom
        cases hroom
    have hfile : (prepare lookup k s name mode value).file =
        (s.Fcreate (lookup (semPath name)) mode).file := by
      rw [file_prepare, if_neg hset]
      rfl
    exact unchanged_fcreate (mem_undone hk) (ids_prepare lookup k s name mode value) hfile

omit [DecidableEq F] in
theorem Known.unchanged {t : Opened F} (h : Known lookup t) (hs : Unchanged t.sys s') :
    Known lookup ⟨s', t.handles⟩ := by
  refine ⟨fun f p hp hf => h.attached f p hp ((hs.block f p hp).mp hf), fun x hx => ?_,
    fun x hx => ?_, h.same⟩
  · have hlive := h.live x hx
    unfold Live at hlive ⊢
    rwa [hs.mem]
  · rw [hs.ids]
    exact h.used x hx

theorem Known.created {t : Opened F} (h : Known lookup t) (hk : Honest k t.sys)
    (hfirst : k.Mxalloc₁ ≠ 0) (hid : nameId name ∉ t.sys.ids) :
    Known lookup ⟨{ prepare lookup k t.sys name mode value with
      ids := insert (nameId name) t.sys.ids }.addIo k.Mxalloc₁ 1,
      (name, k.Mxalloc₁) :: t.handles⟩ := by
  have hold : ∀ x ∈ t.handles, nameId x.1 ≠ nameId name := fun x hx heq => hid (heq ▸ h.used x hx)
  refine ⟨?_, ?_, ?_, ?_⟩
  · intro f p hp hf
    have hf : blockOf (prepare lookup k t.sys name mode value) f = some p := by
      unfold blockOf at hf
      rwa [file_addIo] at hf
    rw [blockOf_update (file_prepare lookup k t.sys name mode value)] at hf
    split_ifs at hf with hname hset
    · rw [Option.some.injEq] at hf
      exact ⟨name, hname.symm, hf ▸ List.mem_cons_self⟩
    · -- the file keeps the block of an older semaphore
      rw [Option.some.injEq] at hf
      have hfile : blockOf t.sys f = some p := by
        unfold blockOf
        rw [hname]
        cases hx : (t.sys.file (lookup (semPath name))).map File.block with
        | none =>
          simp only [hx, Option.getD_none] at hf
          exact absurd hf.symm hp
        | some q =>
          simp only [hx, Option.getD_some] at hf
          rw [hf]
      obtain ⟨m, hm, hmem⟩ := h.attached f p hp hfile
      exact ⟨m, hm, List.mem_cons_of_mem _ hmem⟩
    · obtain ⟨m, hm, hmem⟩ := h.attached f p hp hf
      exact ⟨m, hm, List.mem_cons_of_mem _ hmem⟩
  · intro x hx
    refine Live.addIo ?_ _ _
    rcases List.mem_cons.mp hx with rfl | hx
    · exact live_prepare hk hfirst
    · exact (h.live x hx).of_mem hk.second hk.first (mem_prepare lookup k t.sys name mode value)
  · intro x hx
    rw [ids_addIo]
    rcases List.mem_cons.mp hx with rfl | hx
    · exact Finset.mem_insert_self _ _
    · exact Finset.mem_insert_of_mem (h.used x hx)
  · intro x hx y hy hxy
    rcases List.mem_cons.mp hx with rfl | hx <;> rcases List.mem_cons.mp hy with rfl | hy
    · rfl
    · exact absurd hxy.symm (hold y hy)
    · exact absurd hxy (hold x hx)
    · exact h.same x hx y hy hxy

omit [DecidableEq F] in
theorem Known.attach {t : Opened F} {file : File} (h : Known lookup t)
    (hapart : ∀ x ∈ t.handles, lookup (semPath x.1) = lookup (semPath name) → x.1 = name)
    (hfile : t.sys.file (lookup (semPath name)) = some file) (hblock : file.block ≠ 0) :
    Known lookup ⟨t.sys.addIo file.block 1, (name, file.block) :: t.handles⟩ := by
  have hmem : (name, file.block) ∈ t.handles := by
    have hof : blockOf t.sys (lookup (semPath name)) = some file.block := by
      unfold blockOf
      rw [hfile]
      rfl
    obtain ⟨m, hm, hmem⟩ := h.attached _ _ hblock hof
    rwa [← hapart _ hmem hm]
  have hback : ∀ x ∈ (name, file.block) :: t.handles, x ∈ t.handles := by
    intro x hx
    rcases List.mem_cons.mp hx with rfl | hx
    · exact hmem
    · exact hx
  refine ⟨?_, ?_, ?_, ?_⟩
  · intro f p hp hf
    have hf : blockOf t.sys f = some p := by
      unfold blockOf at hf ⊢
      rwa [file_addIo] at hf
    obtain ⟨m, hm, hmem⟩ := h.attached f p hp hf
    exact ⟨m, hm, List.mem_cons_of_mem _ hmem⟩
  · exact fun x hx => (h.live x (hback x hx)).addIo _ _
  · intro x hx
    rw [ids_addIo]
    exact h.used x (hback x hx)
  · exact fun x hx y hy => h.same x (hback x hx) y (hback y hy)

theorem Known.step {t : Opened F} {c : Call} (h : Known lookup t) (hk : Honest k t.sys)
    (hc : Sound lookup k t c) : Known lookup (enter t c.name (callOpen lookup k t c)) := by
  have hopens := semOpen_opens lookup k t.sys c.name c.oflag c.mode c.value
  unfold callOpen
  obtain ⟨res, s', hcall⟩ : ∃ res s',
      semOpen lookup k t.sys (some c.name) c.oflag c.mode c.value = (res, s') := ⟨_, _, rfl⟩
  rw [hcall] at hopens ⊢
  cases res with
  | error e => exact h.unchanged (hopens.unchanged hk hc.kept)
  | ok p =>
    cases hopens with
    | created hreach hid => exact h.created hk hreach.first hid
    | attached hcreat hfile hblock => exact h.attach (hc.apart hcreat) hfile hblock

theorem known_of_run {t : Opened F} {es : List (Call × Answers)} (hrun : (opening lookup).Run es t) :
    Known lookup t := by
  refine hrun.invariant (P := Known lookup) ?_ ?_
  · rintro t ⟨hfile, hhandles⟩
    have hnone : ∀ x, x ∉ t.handles := fun x => by simp [hhandles]
    refine ⟨fun f p _ hf => ?_, fun x hx => absurd hx (hnone x), fun x hx => absurd hx (hnone x),
      fun x hx => absurd hx (hnone x)⟩
    rw [blockOf, hfile] at hf
    cases hf
  · rintro t ⟨c, k⟩ t' h ⟨hk, hc, rfl⟩
    exact h.step hk hc

theorem Known.recreate {t : Opened F} {c : Call} (h : Known lookup t) (hc : Creates c)
    (hthere : ∃ x ∈ t.handles, x.1 = c.name) (p : Ptr) : (callOpen lookup k t c).1 ≠ .ok p := by
  intro hok
  have hopens := semOpen_opens lookup k t.sys c.name c.oflag c.mode c.value
  unfold callOpen at hok
  rw [hok] at hopens
  generalize (semOpen lookup k t.sys (some c.name) c.oflag c.mode c.value).2 = s' at hopens
  obtain ⟨x, hx, hname⟩ := hthere
  cases hopens with
  | created hreach hid => exact hid (hname ▸ h.used x hx)
  | attached hcreat hfile hblock => exact hc.1 hcreat

end Opening

/-- In every run of such calls different names have different semaphores, and a call that
fails leaves all of them alone; but `O_CREAT` never returns a semaphore that is there. -/
theorem names_apart {F : Type*} [DecidableEq F] {lookup : Str → F} {t : Opened F}
    {es : List (Call × Answers)} (hrun : (opening lookup).Run es t) :
    (∀ x ∈ t.handles, ∀ y ∈ t.handles, x.1 ≠ y.1 → kernelId t.sys x.2 ≠ kernelId t.sys y.2) ∧
    (∀ k c, Creates c → (∃ x ∈ t.handles, x.1 = c.name) →
      ∀ p, (callOpen lookup k t c).1 ≠ .ok p) ∧
    ∀ k c, Honest k t.sys → Sound lookup k t c → ∀ e, (callOpen lookup k t c).1 = .error e →
      Unchanged t.sys (callOpen lookup k t c).2 := by
  have h := known_of_run hrun
  refine ⟨fun x hx y hy hne heq => ?_, fun k c => h.recreate, fun k c hk hc e he => ?_⟩
  · rw [(h.live x hx).kernelId, (h.live y hy).kernelId] at heq
    exact hne (h.same x hx y hy heq)
  · have hopens := semOpen_opens lookup k t.sys c.name c.oflag c.mode c.value
    unfold callOpen at he ⊢
    rw [he] at hopens
    exact hopens.unchanged hk hc.kept

/-- `"/a"` and `"/b"`. -/
def demoName : Str := [47, 97]
def demoOther : Str := [47, 98]

def demoKernel (p q : Ptr) : Answers := ⟨6, p, q, true, true, true, true, 6, 1⟩

/-- The state after `sem_open (name, O_CREAT, 0666, 1)`. -/
def demoOpen (t : Opened Str) (name : Str) (p q : Ptr) : Opened Str :=
  enter t name (callOpen id (demoKernel p q) t ⟨name, O_CREAT, 0o666, 1⟩)

def demoStart : Opened Str := ⟨⟨fun _ => none, fun _ => none, ∅⟩, []⟩

/-- The theorem for two names that are created one after the other. -/
theorem names_apart_demo :
    kernelId (demoOpen (demoOpen demoStart demoName 16 32) demoOther 48 64).sys 16 ≠
      kernelId (demoOpen (demoOpen demoStart demoName 16 32) demoOther 48 64).sys 48 := by
  have hstart : (opening id).Run [] demoStart := .start ⟨fun _ => rfl, rfl⟩
  have hfirst : (opening id).Run [(⟨demoName, O_CREAT, 0o666, 1⟩, demoKernel 16 32)]
      (demoOpen demoStart demoName 16 32) := hstart.snoc
    ⟨⟨rfl, rfl, by decide⟩, ⟨fun _ _ hx => absurd hx List.not_mem_nil,
      fun _ _ hx => absurd hx List.not_mem_nil, fun _ _ => by decide⟩, rfl⟩
  have hsecond : (opening id).Run [(⟨demoName, O_CREAT, 0o666, 1⟩, demoKernel 16 32),
      (⟨demoOther, O_CREAT, 0o666, 1⟩, demoKernel 48 64)]
      (demoOpen (demoOpen demoStart demoName 16 32) demoOther 48 64) := hfirst.snoc
    ⟨⟨rfl, rfl, by decide⟩, ⟨fun _ => List.forall_mem_singleton.mpr (by decide),
      fun _ => List.forall_mem_singleton.mpr (by decide), fun _ _ => by decide⟩, rfl⟩
  exact (names_apart hsecond).1 (demoName, 16) (by decide) (demoOther, 48) (by decide) (by decide)

/-- Creating what is there fails, and `sem_open` then finds a block that has been freed. -/
theorem recreated :
    (callOpen id (demoKernel 48 64) (demoOpen demoStart demoName 16 32)
      ⟨demoName, O_CREAT, 0o666, 1⟩).1 = .error none ∧
    (demoOpen demoStart demoName 16 32).handles = [(demoName, 16)] ∧
    (semOpen id (demoKernel 80 96)
      (demoOpen (demoOpen demoStart demoName 16 32) demoName 48 64).sys (some demoName) 0 0 0).1 =
        .ok 48 ∧
    (demoOpen (demoOpen demoStart demoName 16 32) demoName 48 64).sys.mem 48 = none := by
  decide

/-- What a process does, or the child of a `sem_unlink` that gets to run. -/
inductive Event where
  | opens (oflag mode value : ℕ)
  | closes (sem : Ptr)
  | unlink
  | destroy (sem : Ptr)
  | child (i : ℕ)

/-- The system, the handles of the users, how many calls for each block have succeeded, and
the `sem_ptr` of the children that wait. -/
structure Users (F : Type*) where
  sys : Sys F
  handles : List Ptr
  opened : Ptr → ℕ
  closed : Ptr → ℕ
  waiting : List Ptr

section Users

variable {F : Type*} [DecidableEq F] (lookup : Str → F) (k : Answers) (addr : UInt32) (name : Str)

def count (f : Ptr → ℕ) (p : Ptr) : Ptr → ℕ := Function.update f p (f p + 1)

def userStep (t : Users F) : Event → Option (Users F)
  | .opens oflag mode value =>
    match semOpen lookup k t.sys (some name) oflag mode value with
    | (.ok p, s) => some { t with sys := s, handles := p :: t.handles, opened := count t.opened p }
    | (.error _, s) => some { t with sys := s }
  | .closes sem =>
    let r := semClose lookup k t.sys sem
    if sem ∈ t.handles then
      some { t with sys := r.2.2, closed := if r.1 = 0 then count t.closed sem else t.closed }
    else none
  | .unlink =>
    let r := semUnlink lookup k t.sys (some name)
    some { t with sys := r.2.2.2, waiting := r.2.2.1.toList ++ t.waiting }
  | .destroy sem =>
    if sem ∈ t.handles then some { t with sys := (semDestroy t.sys addr sem).2.2 } else none
  | .child i =>
    match t.waiting[i]? with
    | none => none
    | some p =>
      match unlinkChild lookup t.sys name addr p with
      | none => some t
      | some s => some { t with sys := s, waiting := t.waiting.eraseIdx i }

/-- No call of the kernel fails: there are files, memory and processes enough, and a
semaphore that is created is not there yet. -/
structure KernelOk (t : Users F) (e : Event) : Prop where
  handle : 0 ≤ k.Fcreate
  honest : Honest k t.sys
  first : k.Mxalloc₁ ≠ 0
  second : k.Mxalloc₂ ≠ 0
  attaches : k.SHMSETBLK = true
  create : ∀ oflag mode value, e = .opens oflag mode value →
    Reaches lookup k t.sys name oflag value → nameId name ∉ t.sys.ids ∧ k.Psemaphore = true
  access : k.R_OK = true ∧ k.W_OK = true
  opens : 0 ≤ k.Fopen
  fork : 0 ≤ k.fork

/-- Users of one name, who have not opened it yet. The counts stay in the range of an `int`. -/
def sharing : Machine (Users F) (Event × Answers × UInt32) where
  init t := t.sys.file (lookup (semPath name)) = none ∧ t.handles = [] ∧ t.waiting = [] ∧
    (∀ p, t.opened p = 0 ∧ t.closed p = 0)
  step t e t' := KernelOk lookup e.2.1 name t e.1 ∧ (∀ p, t.opened p + 1 < 2 ^ 31) ∧
    userStep lookup e.2.1 e.2.2 name t e.1 = some t'

/-- The block counts the calls that opened it, and `sem_close` does not show. -/
structure Counts (lookup : Str → F) (name : Str) (t : Users F) (p : Ptr) (b : SemT) : Prop where
  ne : p ≠ 0
  mem : t.sys.mem p = some (.sem b)
  count : b.io_count = t.opened p
  pos : 0 < t.opened p
  current : b.sem_id ≠ 0 → t.sys.mem b.sem_id = some (.text (idText name)) ∧
    nameId name ∈ t.sys.ids ∧ blockOf t.sys (lookup (semPath name)) = some p

structure Counted (lookup : Str → F) (name : Str) (t : Users F) : Prop where
  file : ∀ p, p ≠ 0 → blockOf t.sys (lookup (semPath name)) = some p → p ∈ t.handles
  handle : ∀ p ∈ t.handles, ∃ b, Counts lookup name t p b
  unopened : ∀ p, p ∉ t.handles → t.opened p = 0
  waiting : ∀ p ∈ t.waiting, p ∈ t.handles
  length : ∀ p ∈ t.handles, name.length ≤ SEM_NAME_MAX

variable {lookup k addr name} {t t' : Users F} {s' : Sys F} {p : Ptr} {b : SemT}

omit [DecidableEq F] in
theorem Counts.semAt (h : Counts lookup name t p b) : t.sys.semAt p = b := by
  unfold Sys.semAt
  rw [h.mem]

omit [DecidableEq F] in
theorem addIo_cancel {s : Sys F} (hb : s.mem p = some (.sem b)) (hnonneg : 0 ≤ b.io_count)
    (hlt : b.io_count + 1 < 2 ^ 31) :
    0 < ((s.addIo p 1).semAt p).io_count ∧ (s.addIo p 1).addIo p (-1) = s := by
  have hmem := mem_addIo hb 1
  have hup : Int.bmod (b.io_count + 1) (2 ^ 32) = b.io_count + 1 := by
    rw [Int.bmod_eq_of_le] <;> omega
  have hdown : Int.bmod (b.io_count + 1 + -1) (2 ^ 32) = b.io_count := by
    rw [Int.bmod_eq_of_le] <;> omega
  rw [hup] at hmem
  have hself : (s.addIo p 1).mem p = some (.sem { b with io_count := b.io_count + 1 }) := by
    rw [hmem, Function.update_self]
  constructor
  · unfold Sys.semAt
    rw [hself]
    show 0 < b.io_count + 1
    omega
  · have hback : ((s.addIo p 1).addIo p (-1)).mem = s.mem := by
      rw [mem_addIo hself, hmem, Function.update_idem, hdown, ← hb, Function.update_eq_self]
    have hfile : ((s.addIo p 1).addIo p (-1)).file = s.file := by
      rw [file_addIo, file_addIo]
    have hids : ((s.addIo p 1).addIo p (-1)).ids = s.ids := by
      rw [ids_addIo, ids_addIo]
    cases s
    exact congr (congr (congrArg Sys.mk hfile) hback) hids

/-- `sem_open` with no flags: it fails, or adds one to the count of the file's block. -/
theorem semOpen_plain (lookup : Str → F) (k : Answers) (s : Sys F) (name : Str) :
    (∃ e, semOpen lookup k s (some name) 0 0 0 = (.error e, s)) ∨
    ∃ p, p ≠ 0 ∧ blockOf s (lookup (semPath name)) = some p ∧
      semOpen lookup k s (some name) 0 0 0 = (.ok p, s.addIo p 1) := by
  have hopens := semOpen_opens lookup k s name 0 0 0
  obtain ⟨res, s', hcall⟩ : ∃ res s', semOpen lookup k s (some name) 0 0 0 = (res, s') :=
    ⟨_, _, rfl⟩
  rw [hcall] at hopens ⊢
  cases hopens with
  | refused e => exact .inl ⟨e, rfl⟩
  | unfinished hcreat => exact absurd rfl hcreat
  | undone hreach => exact absurd rfl hreach.creat
  | created hreach => exact absurd rfl hreach.creat
  | attached hcreat hfile hblock =>
    refine .inr ⟨_, hblock, ?_, rfl⟩
    rw [blockOf, hfile]
    rfl

omit [DecidableEq F] in
theorem Counted.cancel (h : Counted lookup name t) (hmax : ∀ p, t.opened p + 1 < 2 ^ 31)
    (hp : p ∈ t.handles) :
    0 < ((t.sys.addIo p 1).semAt p).io_count ∧ (t.sys.addIo p 1).addIo p (-1) = t.sys := by
  obtain ⟨b, hb⟩ := h.handle p hp
  have hlt := hmax p
  have hcount := hb.count
  exact addIo_cancel hb.mem (by omega) (by omega)

omit [DecidableEq F] in
theorem cstr_idText (hname : 0 ∉ name) (hlength : name.length ≤ SEM_NAME_MAX) :
    cstr (idText name) = name := by
  have hrest : ∀ n, cstr (List.replicate n 0 ++ [0]) = [] := by
    intro n
    cases n with
    | zero => rfl
    | succ n => rfl
  have hwhole : (name ++ List.replicate (SEM_NAME_MAX - name.length) 0).length ≤ SEM_NAME_MAX := by
    rw [List.length_append, List.length_replicate]
    omega
  rw [idText, List.take_of_length_le hwhole, List.append_assoc, cstr_append_left hname, hrest,
    List.append_nil]

theorem Counted.semClose (h : Counted lookup name t) (hmax : ∀ p, t.opened p + 1 < 2 ^ 31)
    (hname : 0 ∉ name) (hp : p ∈ t.handles) : (semClose lookup k t.sys p).2.2 = t.sys := by
  unfold NamedSemaphore.semClose
  by_cases hnull : p = 0
  · rw [if_pos hnull]
  by_cases hid : (t.sys.semAt p).sem_id = 0
  · rw [if_neg hnull, if_pos hid]
  obtain ⟨b, hb⟩ := h.handle p hp
  have htext : cstr (t.sys.textAt (t.sys.semAt p).sem_id) = name := by
    rw [hb.semAt] at hid ⊢
    rw [Sys.textAt, (hb.current hid).1]
    exact cstr_idText hname (h.length p hp)
  simp only [if_neg hnull, if_neg hid, htext]
  by_cases hwrite : writable lookup k t.sys (semPath name) = false
  · rw [if_pos hwrite]
  rw [if_neg hwrite]
  rcases semOpen_plain lookup k t.sys name with ⟨e, hfail⟩ | ⟨q, hq, hblock, hopen⟩
  · rw [hfail]
  · obtain ⟨hpos, hcancel⟩ := h.cancel hmax (h.file q hq hblock)
    rw [hopen]
    simp only [if_pos hpos]
    exact hcancel

theorem Counted.semUnlink (h : Counted lookup name t) (hmax : ∀ p, t.opened p + 1 < 2 ^ 31) :
    (semUnlink lookup k t.sys (some name)).2.2.2 = t.sys ∧
      ∀ p ∈ (semUnlink lookup k t.sys (some name)).2.2.1, p ∈ t.handles := by
  have hnone : ∀ p ∈ (none : Option Ptr), p ∈ t.handles := fun p hp => by cases hp
  unfold NamedSemaphore.semUnlink
  dsimp only
  by_cases hlength : SEM_NAME_MAX < name.length
  · rw [if_pos hlength]
    exact ⟨rfl, hnone⟩
  by_cases hwrite : writable lookup k t.sys (semPath name) = false
  · rw [if_neg hlength, if_pos hwrite]
    exact ⟨rfl, hnone⟩
  rw [if_neg hlength, if_neg hwrite]
  rcases semOpen_plain lookup k t.sys name with ⟨e, hfail⟩ | ⟨q, hq, hblock, hopen⟩
  · rw [hfail]
    exact ⟨rfl, hnone⟩
  · have hmem := h.file q hq hblock
    rw [hopen]
    by_cases hfork : k.fork < 0
    · simp only [if_pos hfork]
      exact ⟨(h.cancel hmax hmem).2, hnone⟩
    · simp only [if_neg hfork]
      refine ⟨(h.cancel hmax hmem).2, fun p hp => ?_⟩
      cases hp
      exact hmem

omit [DecidableEq F] in
theorem Counted.unchanged (h : Counted lookup name t) (hs : Unchanged t.sys s') :
    Counted lookup name { t with sys := s' } := by
  refine ⟨fun p hp hf => h.file p hp ((hs.block _ p hp).mp hf), fun p hp => ?_, h.unopened,
    h.waiting, h.length⟩
  obtain ⟨b, hb⟩ := h.handle p hp
  refine ⟨b, hb.ne, by rw [hs.mem]; exact hb.mem, hb.count, hb.pos, fun hid => ?_⟩
  obtain ⟨htext, hused, hcurrent⟩ := hb.current hid
  exact ⟨by rw [hs.mem]; exact htext, by rw [hs.ids]; exact hused,
    (hs.block _ p hb.ne).mpr hcurrent⟩

theorem Counted.created {mode value : ℕ} (h : Counted lookup name t) (hk : Honest k t.sys)
    (hfirst : k.Mxalloc₁ ≠ 0) (hset : k.SHMSETBLK = true) (hid : nameId name ∉ t.sys.ids)
    (hlength : name.length ≤ SEM_NAME_MAX) :
    Counted lookup name { t with
      sys := { prepare lookup k t.sys name mode value with
        ids := insert (nameId name) t.sys.ids }.addIo k.Mxalloc₁ 1
      handles := k.Mxalloc₁ :: t.handles
      opened := count t.opened k.Mxalloc₁ } := by
  -- the state behind the call, and what `prepare` and `addIo` have left in its memory
  obtain ⟨s', hs'⟩ : ∃ s', { prepare lookup k t.sys name mode value with
      ids := insert (nameId name) t.sys.ids }.addIo k.Mxalloc₁ 1 = s' := ⟨_, rfl⟩
  have hmem := mem_prepare lookup k t.sys name mode value
  have hself : (prepare lookup k t.sys name mode value).mem k.Mxalloc₁ =
      some (.sem ⟨value, 0, k.Mxalloc₂⟩) := by
    rw [hmem, Function.update_self]
  have hmem' : s'.mem = Function.update (prepare lookup k t.sys name mode value).mem k.Mxalloc₁
      (some (.sem ⟨value, 1, k.Mxalloc₂⟩)) := by
    have hone : Int.bmod (0 + 1) (2 ^ 32) = 1 := by decide
    have hadd := mem_addIo (s := { prepare lookup k t.sys name mode value with
      ids := insert (nameId name) t.sys.ids }) hself 1
    rwa [hs', hone] at hadd
  have hids : s'.ids = insert (nameId name) t.sys.ids := by
    rw [← hs', ids_addIo]
  have hblock : blockOf s' (lookup (semPath name)) = some k.Mxalloc₁ := by
    have hfile := blockOf_update (file_prepare lookup k t.sys name mode value) (lookup (semPath name))
    rw [if_pos rfl, if_pos hset] at hfile
    rw [← hfile, ← hs', blockOf, file_addIo]
    rfl
  -- `Mxalloc` gives memory that no handle stands for
  have hnew : k.Mxalloc₁ ∉ t.handles := by
    intro hp
    obtain ⟨b, hb⟩ := h.handle _ hp
    have hmem := hb.mem
    rw [hk.first] at hmem
    cases hmem
  rw [hs']
  refine ⟨fun p _ hf => ?_, fun p hp => ?_, fun p hp => ?_, fun p hp => ?_, fun _ _ => hlength⟩
  · have hf : blockOf s' (lookup (semPath name)) = some p := hf
    rw [hblock, Option.some.injEq] at hf
    exact hf ▸ List.mem_cons_self
  · rcases List.mem_cons.mp hp with rfl | hp
    · refine ⟨⟨value, 1, k.Mxalloc₂⟩, hfirst, ?_, ?_, ?_, fun _ => ⟨?_, ?_, hblock⟩⟩
      · show s'.mem _ = _
        rw [hmem', Function.update_self]
      · show (1 : ℤ) = count t.opened k.Mxalloc₁ k.Mxalloc₁
        rw [count, Function.update_self, h.unopened _ hnew]
        rfl
      · show 0 < count t.opened k.Mxalloc₁ k.Mxalloc₁
        rw [count, Function.update_self]
        exact Nat.succ_pos _
      · have hne := (hk.apart hfirst).symm
        show s'.mem _ = _
        rw [hmem', Function.update_of_ne hne, hmem, Function.update_of_ne hne, Function.update_self]
      · show _ ∈ s'.ids
        rw [hids]
        exact Finset.mem_insert_self _ _
    · obtain ⟨b, hb⟩ := h.handle p hp
      have hne : p ≠ k.Mxalloc₁ := fun heq => hnew (heq ▸ hp)
      have hne₂ : p ≠ k.Mxalloc₂ := by
        intro heq
        have hmem := hb.mem
        rw [heq, hk.second] at hmem
        cases hmem
      have hzero : b.sem_id = 0 := by
        by_contra hcur
        exact hid (hb.current hcur).2.1
      refine ⟨b, hb.ne, ?_, ?_, ?_, fun hcur => absurd hzero hcur⟩
      · show s'.mem p = _
        rw [hmem', Function.update_of_ne hne, hmem, Function.update_of_ne hne,
          Function.update_of_ne hne₂, hb.mem]
      · show b.io_count = count t.opened k.Mxalloc₁ p
        rw [count, Function.update_of_ne hne, hb.count]
      · show 0 < count t.opened k.Mxalloc₁ p
        rw [count, Function.update_of_ne hne]
        exact hb.pos
  · obtain ⟨hne, hp⟩ := not_or.mp (mt List.mem_cons.mpr hp)
    show count t.opened k.Mxalloc₁ p = 0
    rw [count, Function.update_of_ne hne, h.unopened p hp]
  · exact List.mem_cons_of_mem _ (h.waiting p hp)

omit [DecidableEq F] in
theorem Counted.attach (h : Counted lookup name t) (hmax : ∀ p, t.opened p + 1 < 2 ^ 31)
    (hp : p ∈ t.handles) :
    Counted lookup name { t with
      sys := t.sys.addIo p 1, handles := p :: t.handles, opened := count t.opened p } := by
  obtain ⟨b, hb⟩ := h.handle p hp
  have hmem := mem_addIo hb.mem 1
  have hio : Int.bmod (b.io_count + 1) (2 ^ 32) = b.io_count + 1 := by
    have hlt := hmax p
    have hcount := hb.count
    rw [Int.bmod_eq_of_le] <;> omega
  rw [hio] at hmem
  have hback : ∀ q ∈ p :: t.handles, q ∈ t.handles := by
    intro q hq
    rcases List.mem_cons.mp hq with rfl | hq
    · exact hp
    · exact hq
  have hfile : ∀ f, blockOf (t.sys.addIo p 1) f = blockOf t.sys f := by
    intro f
    rw [blockOf, file_addIo]
    rfl
  refine ⟨fun q hq hf => ?_, fun q hq => ?_, fun q hq => ?_, fun q hq => ?_,
    fun q hq => h.length q (hback q hq)⟩
  · exact List.mem_cons_of_mem _ (h.file q hq ((hfile _).symm.trans hf))
  · obtain ⟨c, hc⟩ := h.handle q (hback q hq)
    have htext : c.sem_id ≠ 0 → (t.sys.addIo p 1).mem c.sem_id = some (.text (idText name)) := by
      intro hid
      have htext := (hc.current hid).1
      have hne : c.sem_id ≠ p := by
        intro heq
        rw [heq, hb.mem] at htext
        cases htext
      rw [hmem, Function.update_of_ne hne, htext]
    have hcurrent : c.sem_id ≠ 0 → nameId name ∈ (t.sys.addIo p 1).ids ∧
        blockOf (t.sys.addIo p 1) (lookup (semPath name)) = some q := by
      intro hid
      rw [ids_addIo, hfile]
      exact (hc.current hid).2
    -- the block whose count has changed, and the others
    by_cases hqp : q = p
    · subst hqp
      obtain rfl : b = c := by
        have hsame := hb.mem.symm.trans hc.mem
        rwa [Option.some.injEq, Block.sem.injEq] at hsame
      refine ⟨{ b with io_count := b.io_count + 1 }, hc.ne, ?_, ?_, ?_,
        fun hid => ⟨htext hid, hcurrent hid⟩⟩
      · show (t.sys.addIo q 1).mem q = _
        rw [hmem, Function.update_self]
      · show b.io_count + 1 = count t.opened q q
        rw [count, Function.update_self, hb.count]
        rfl
      · show 0 < count t.opened q q
        rw [count, Function.update_self]
        exact Nat.succ_pos _
    · refine ⟨c, hc.ne, ?_, ?_, ?_, fun hid => ⟨htext hid, hcurrent hid⟩⟩
      · show (t.sys.addIo p 1).mem q = _
        rw [hmem, Function.update_of_ne hqp, hc.mem]
      · show c.io_count = count t.opened p q
        rw [count, Function.update_of_ne hqp, hc.count]
      · show 0 < count t.opened p q
        rw [count, Function.update_of_ne hqp]
        exact hc.pos
  · obtain ⟨hne, hq⟩ := not_or.mp (mt List.mem_cons.mpr hq)
    show count t.opened p q = 0
    rw [count, Function.update_of_ne hne, h.unopened q hq]
  · exact List.mem_cons_of_mem _ (h.waiting q hq)

omit [DecidableEq F] in
theorem Counted.destroy (h : Counted lookup name t) (hp : p ∈ t.handles) :
    Counted lookup name { t with sys := (semDestroy t.sys addr p).2.2 } := by
  unfold semDestroy
  by_cases hnull : p = 0
  · rw [if_pos hnull]
    exact h
  by_cases hid : (t.sys.semAt p).sem_id = 0
  · rw [if_neg hnull, if_pos hid]
    exact h
  rw [if_neg hnull, if_neg hid]
  dsimp only
  obtain ⟨b, hb⟩ := h.handle p hp
  rw [hb.semAt] at hid ⊢
  obtain ⟨htext, -, hcurrent⟩ := hb.current hid
  refine ⟨h.file, fun q hq => ?_, h.unopened, h.waiting, h.length⟩
  by_cases hqp : q = p
  · subst hqp
    exact ⟨{ b with sem_id := 0 }, hb.ne, Function.update_self .., hb.count, hb.pos,
      fun hne => absurd rfl hne⟩
  · obtain ⟨c, hc⟩ := h.handle q hq
    have hne : q ≠ b.sem_id := by
      intro heq
      have hmem := hc.mem
      rw [heq, htext] at hmem
      cases hmem
    refine ⟨c, hc.ne, ?_, hc.count, hc.pos, fun hcur => ?_⟩
    · exact (Function.update_of_ne hqp ..).trans ((Function.update_of_ne hne ..).trans hc.mem)
    · have hsame := (hc.current hcur).2.2
      rw [hcurrent, Option.some.injEq] at hsame
      exact absurd hsame.symm hqp

theorem Counted.child (h : Counted lookup name t) (hp : p ∈ t.handles) :
    unlinkChild lookup t.sys name addr p = none := by
  obtain ⟨b, hb⟩ := h.handle p hp
  have hpos : 0 < (t.sys.semAt p).io_count := by
    have hcount := hb.count
    have hopened := hb.pos
    rw [hb.semAt]
    omega
  exact if_pos hpos

omit [DecidableEq F] in
theorem Counted.books (h : Counted lookup name t) (closed : Ptr → ℕ) {waiting : List Ptr}
    (hw : ∀ p ∈ waiting, p ∈ t.handles) :
    Counted lookup name { t with closed := closed, waiting := waiting } := by
  refine ⟨h.file, fun p hp => ?_, h.unopened, hw, h.length⟩
  obtain ⟨b, hb⟩ := h.handle p hp
  exact ⟨b, hb.ne, hb.mem, hb.count, hb.pos, hb.current⟩

theorem Counted.step {e : Event} (h : Counted lookup name t) (hname : 0 ∉ name)
    (hk : KernelOk lookup k name t e) (hmax : ∀ p, t.opened p + 1 < 2 ^ 31)
    (hstep : userStep lookup k addr name t e = some t') : Counted lookup name t' := by
  cases e with
  | opens oflag mode value =>
    have hcreate := hk.create oflag mode value rfl
    have hopens := semOpen_opens lookup k t.sys name oflag mode value
    obtain ⟨res, s', hcall⟩ : ∃ res s',
        semOpen lookup k t.sys (some name) oflag mode value = (res, s') := ⟨_, _, rfl⟩
    rw [hcall] at hopens
    rw [userStep, hcall] at hstep
    cases res with
    | error e =>
      cases hstep
      exact h.unchanged (hopens.unchanged hk.honest fun hreach _ => hcreate hreach)
    | ok p =>
      cases hstep
      -- the semaphore is new, or it was there and one more handle stands for it
      cases hopens with
      | created hreach hid =>
        exact h.created hk.honest hk.first hk.attaches hid hreach.length
      | attached hcreat hfile hblock =>
        refine h.attach hmax (h.file _ hblock ?_)
        rw [blockOf, hfile]
        rfl
  | closes sem =>
    by_cases hsem : sem ∈ t.handles
    · have hsame := h.semClose (k := k) hmax hname hsem
      rw [userStep, if_pos hsem, hsame, Option.some.injEq] at hstep
      subst hstep
      exact h.books _ h.waiting
    · rw [userStep, if_neg hsem] at hstep
      cases hstep
  | unlink =>
    obtain ⟨hsame, hchild⟩ := h.semUnlink (k := k) hmax
    rw [userStep, hsame, Option.some.injEq] at hstep
    subst hstep
    refine h.books _ fun p hp => ?_
    rcases List.mem_append.mp hp with hp | hp
    · exact hchild p (Option.mem_toList.mp hp)
    · exact h.waiting p hp
  | destroy sem =>
    by_cases hsem : sem ∈ t.handles
    · rw [userStep, if_pos hsem] at hstep
      cases hstep
      exact h.destroy hsem
    · rw [userStep, if_neg hsem] at hstep
      cases hstep
  | child i =>
    rw [userStep] at hstep
    cases hi : t.waiting[i]? with
    | none =>
      rw [hi] at hstep
      cases hstep
    | some p =>
      rw [hi] at hstep
      simp only [h.child (h.waiting p (List.mem_of_getElem? hi))] at hstep
      cases hstep
      exact h

theorem counted_of_run (hname : 0 ∉ name) {es : List (Event × Answers × UInt32)}
    (hrun : (sharing lookup name).Run es t) : Counted lookup name t := by
  refine hrun.invariant (P := Counted lookup name) ?_ ?_
  · rintro t ⟨hfile, hhandles, hwaiting, hcounts⟩
    have hnone : ∀ p, p ∉ t.handles := fun p => by simp [hhandles]
    refine ⟨fun p _ hf => ?_, fun p hp => absurd hp (hnone p), fun p _ => (hcounts p).1,
      fun p hp => by simp [hwaiting] at hp, fun p hp => absurd hp (hnone p)⟩
    rw [blockOf, hfile] at hf
    cases hf
  · rintro t ⟨e, k, addr⟩ t' h ⟨hk, hmax, hstep⟩
    exact h.step hname hk hmax hstep

omit [DecidableEq F] in
theorem ids_semDestroy {s : Sys F} (hp : p ≠ 0) (hid : (s.semAt p).sem_id ≠ 0) :
    (semDestroy s addr p).2.2.ids = s.ids.erase addr := by
  rw [semDestroy, if_neg hp, if_neg hid]
  rfl

end Users

/-- In every run the count is the number of opens: it is the number of users exactly if nobody
has closed the semaphore, the children of `sem_unlink` wait forever, and what they and
`sem_destroy` delete is what has the address of their variable for an id. -/
theorem io_count_iff {F : Type*} [DecidableEq F] {lookup : Str → F} {name : Str} {t : Users F}
    {es : List (Event × Answers × UInt32)} (hname : 0 ∉ name)
    (hrun : (sharing lookup name).Run es t) :
    (∀ p ∈ t.handles, (t.sys.semAt p).io_count = t.opened p ∧ 0 < (t.sys.semAt p).io_count ∧
      ((t.sys.semAt p).io_count = t.opened p - t.closed p ↔ t.closed p = 0)) ∧
    (∀ p ∈ t.waiting, ∀ addr,
      (((unlinkChild lookup t.sys name addr p).isSome ↔ t.opened p = t.closed p) ↔
        t.opened p ≠ t.closed p)) ∧
    (∀ p ∈ t.handles, (t.sys.semAt p).sem_id ≠ 0 → nameId name ∈ t.sys.ids ∧
      ∀ addr, nameId name ∉ (semDestroy t.sys addr p).2.2.ids ↔ addr = nameId name) ∧
    ∀ (s s' : Sys F) p addr, unlinkChild lookup s name addr p = some s' →
      s'.ids = s.ids.erase addr := by
  have h := counted_of_run hname hrun
  refine ⟨fun p hp => ?_, fun p hp addr => ?_, fun p hp hid => ?_, fun s s' p addr hs => ?_⟩
  · obtain ⟨b, hb⟩ := h.handle p hp
    have hcount := hb.count
    have hpos := hb.pos
    rw [hb.semAt]
    refine ⟨hcount, by omega, ?_⟩
    omega
  · rw [h.child (h.waiting p hp)]
    simp
  · obtain ⟨b, hb⟩ := h.handle p hp
    have hused := (hb.current (hb.semAt ▸ hid)).2.1
    refine ⟨hused, fun addr => ?_⟩
    rw [ids_semDestroy hb.ne hid, Finset.mem_erase]
    constructor
    · intro hgone
      by_contra hne
      exact hgone ⟨Ne.symm hne, hused⟩
    · rintro rfl hmem
      exact hmem.1 rfl
  · unfold unlinkChild at hs
    split_ifs at hs with hio
    cases hs
    rfl

/-- The state after `sem_open ("/a", O_CREAT, 0666, 1)`, and after what one event does. -/
def demoUsers : Users Str :=
  ⟨(demoOpen demoStart demoName 16 32).sys, [16], count (fun _ => 0) 16, fun _ => 0, []⟩

def demoStep (t : Users Str) (e : Event) : Users Str :=
  (userStep id (demoKernel 48 64) 0 demoName t e).getD t

theorem demo_run : ∃ es, (sharing id demoName).Run es
    (demoStep (demoStep demoUsers .unlink) (.closes 16)) := by
  have hstart : (sharing id demoName).Run [] (⟨demoStart.sys, [], fun _ => 0, fun _ => 0, []⟩) :=
    .start ⟨rfl, rfl, rfl, fun _ => ⟨rfl, rfl⟩⟩
  have hcounts : ∀ p, count (fun _ => 0) 16 p + 1 < 2 ^ 31 := by
    intro p
    rw [count, Function.update_apply]
    split <;> decide
  have hopen : (sharing id demoName).Run [(.opens O_CREAT 0o666 1, demoKernel 16 32, 0)]
      demoUsers := hstart.snoc
    ⟨⟨by decide, ⟨rfl, rfl, by decide⟩, by decide, by decide, rfl, fun _ _ _ _ _ => by decide,
      ⟨rfl, rfl⟩, by decide, by decide⟩, fun _ => Nat.le_of_ble_eq_true rfl, rfl⟩
  have hunlink : (sharing id demoName).Run [(.opens O_CREAT 0o666 1, demoKernel 16 32, 0),
      (.unlink, demoKernel 48 64, 0)] (demoStep demoUsers .unlink) := hopen.snoc
    ⟨⟨by decide, ⟨rfl, rfl, by decide⟩, by decide, by decide, rfl, fun _ _ _ he => (by cases he),
      ⟨rfl, rfl⟩, by decide, by decide⟩, hcounts, rfl⟩
  exact ⟨_, hunlink.snoc (e := (.closes 16, demoKernel 48 64, 0))
    ⟨⟨by decide, ⟨rfl, rfl, by decide⟩, by decide, by decide, rfl, fun _ _ _ he => (by cases he),
      ⟨rfl, rfl⟩, by decide, by decide⟩, hcounts, rfl⟩⟩

theorem io_count_iff_demo :
    ((demoStep (demoStep demoUsers .unlink) (.closes 16)).sys.semAt 16).io_count = 1 := by
  obtain ⟨es, hrun⟩ := demo_run
  exact ((io_count_iff (by decide) hrun).1 16 (by decide)).1

/-- The only user has closed the semaphore; it is still counted, and the child waits. -/
theorem closed_still_counted :
    (∃ es, (sharing id demoName).Run es (demoStep (demoStep demoUsers .unlink) (.closes 16))) ∧
    (demoStep (demoStep demoUsers .unlink) (.closes 16)).opened 16 = 1 ∧
    (demoStep (demoStep demoUsers .unlink) (.closes 16)).closed 16 = 1 ∧
    ((demoStep (demoStep demoUsers .unlink) (.closes 16)).sys.semAt 16).io_count = 1 ∧
    (demoStep (demoStep demoUsers .unlink) (.closes 16)).waiting = [16] ∧
    (unlinkChild id (demoStep (demoStep demoUsers .unlink) (.closes 16)).sys demoName 0 16).isNone :=
  ⟨demo_run, by decide, by decide, by decide, by decide, by decide⟩

end Mintlib.NamedSemaphore
