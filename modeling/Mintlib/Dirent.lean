import Mintlib.Unx2dos
import Mintlib.Posix

/-!
# Positions in a directory: `src/dirent`

A stream reads a directory through a handle of the kernel, or under TOS with `Fsfirst` and
`Fsnext`, where the first entry has been found before it is read. `seekdir` rewinds and
reads on until the counter is right. The directory does not change, and the calls that read
it do not fail.
-/

namespace Mintlib.Dirent

open Text Unx2dos Posix

/-- What `opendir` and `rewinddir` find: `drv` is `Dgetdrv () + 'A'`, `path` the current
directory of a drive (empty for its root), `list` what `Fsfirst` and `Fsnext` find for a
pattern below the root of a drive. `Dopendir` is `none` where it is not there. -/
structure System where
  drv : UInt8
  path : UInt8 → Str
  list : UInt8 → Str → Except ℤ (List Str)
  Dopendir : Str → Option (Except ℤ (List (ℕ × Str)))
  noCase : Str → Bool
  enoent : Str → Bool
  mallocDir : Bool
  mallocName : Bool

def System.onDrive (k : System) (c : UInt8) (name : Str) : Except ℤ (List Str) :=
  if name.head? = some BACKSLASH then k.list c name else k.list c (k.path c ++ BACKSLASH :: name)

def System.search (k : System) : Str → Except ℤ (List Str)
  | c :: 58 :: name => k.onDrive c name
  | name => k.onDrive k.drv name

/-- `Fsfirst (name, 0x17)`: the first entry, and those that `Fsnext` is to find. -/
def System.Fsfirst (k : System) (name : Str) : Except ℤ (Str × List Str) :=
  match k.search name with
  | .ok (first :: more) => .ok (first, more)
  | .ok [] => .error ENOENT
  | .error r => .error r

inductive Status where
  | INSEARCH
  | STARTSEARCH
  | NMFILE
  | NO_CASE
deriving DecidableEq

/-- The `DIR`, with `__inode`. `dta` is the name in the DTA, `more` what `Fsnext` is to find;
`handle` has the entries behind a handle of the kernel and its position there. -/
structure DIR where
  status : Status
  dta : Str
  more : List Str
  dirname : Option Str
  d_off : ℕ
  handle : Option (List (ℕ × Str) × ℕ)
  inode : ℕ

structure dirent where
  d_ino : ℕ
  d_off : ℕ
  d_namlen : ℕ
  d_name : Str
deriving DecidableEq

/-- `strcpy (p, "*.*")` behind a name that ends in `'\\'` or is empty. -/
def pattern (name : Str) : Str :=
  let name := name.map fun c => if c = SLASH then BACKSLASH else c
  (if name ≠ [] ∧ name.getLast? ≠ some BACKSLASH then name ++ [BACKSLASH] else name) ++ [42, 46, 42]

/-- What is put in front of the pattern for `rewinddir`. -/
def System.dirpath (k : System) (name : Str) : Str :=
  if name.tail.head? = some COLON then []
  else [k.drv, COLON] ++ (if name.head? ≠ some BACKSLASH then k.path k.drv else [])

/-- `name` is the name for the kernel. -/
def opendir (k : System) (inode : ℕ) (name : Str) : Except ℤ DIR :=
  if k.mallocDir = false then .error ENOMEM
  else
    match k.Dopendir name with
    | some (.error r) => .error (if r = ENOTDIR ∧ k.enoent name then ENOENT else r)
    | some (.ok entries) =>
      .ok ⟨if k.noCase name then .NO_CASE else .INSEARCH, [], [], none, 0, some (entries, 0), inode⟩
    | none =>
      let name := pattern name
      let dirname := if k.mallocName then some (k.dirpath name ++ name) else none
      match k.Fsfirst name with
      | .ok (dta, more) => .ok ⟨.STARTSEARCH, dta, more, dirname, 0, none, inode⟩
      | .error r =>
        if r = ENOENT then .ok ⟨.NMFILE, [], [], dirname, 0, none, inode⟩ else .error r

/-- `dd` for an entry. -/
def DIR.fill (d : DIR) (ino : ℕ) (name : Str) : dirent :=
  ⟨ino, d.d_off + 1, name.length, name⟩

abbrev NAMESIZE : ℕ := 256

def DIR.found (σ : Sys) (d : DIR) : Option dirent × DIR :=
  let name := (dos2unx σ d.dta NAMESIZE).1
  (some (d.fill d.inode name), { d with d_off := d.d_off + 1, inode := d.inode + 1 })

def readdir (σ : Sys) (d : DIR) : Option dirent × DIR :=
  match d.handle with
  | some (entries, pos) =>
    match entries[pos]? with
    | none => (none, d)
    | some (ino, name) =>
      (some (d.fill ino (if d.status = .NO_CASE then name.map tolower else name)),
        { d with handle := some (entries, pos + 1), d_off := d.d_off + 1 })
  | none =>
    if d.status = .NMFILE then (none, d)
    else if d.status = .STARTSEARCH then DIR.found σ { d with status := .INSEARCH }
    else
      match d.more with
      | dta :: more => DIR.found σ { d with dta := dta, more := more }
      | [] => (none, { d with status := .NMFILE })

def telldir (d : DIR) : ℤ := d.d_off

def rewinddir (k : System) (d : DIR) : DIR :=
  match d.handle with
  | some (entries, _) => { d with handle := some (entries, 0), d_off := 0 }
  | none =>
    match d.dirname with
    | none => d
    | some dirname =>
      match k.Fsfirst dirname with
      | .ok (dta, more) => { d with dta := dta, more := more, status := .STARTSEARCH, d_off := 0 }
      | .error _ => { d with status := .NMFILE, d_off := 0 }

/-- `d_name` for an entry behind a handle. -/
def nameOf (status : Status) (e : ℕ × Str) : Str :=
  if status = .NO_CASE then e.2.map tolower else e.2

/-- `d_name` for an entry that `Fsfirst` or `Fsnext` has found. -/
def tosName (σ : Sys) (name : Str) : Str := (dos2unx σ name NAMESIZE).1

def DIR.coming (σ : Sys) (d : DIR) : List Str :=
  match d.handle with
  | some (entries, pos) => (entries.drop pos).map (nameOf d.status)
  | none =>
    match d.status with
    | .NMFILE => []
    | .STARTSEARCH => (d.dta :: d.more).map (tosName σ)
    | _ => d.more.map (tosName σ)

/-- The parts of a stream that `readdir` leaves as they are. -/
structure Same (d d' : DIR) : Prop where
  dirname : d'.dirname = d.dirname
  entries : d'.handle.map Prod.fst = d.handle.map Prod.fst
  status : d.handle.isSome → d'.status = d.status

section Readdir

variable {σ : Sys} {d : DIR}

theorem readdir_spec (σ : Sys) (d : DIR) : Same d (readdir σ d).2 ∧
    (d.coming σ = [] ∧ (readdir σ d).1 = none ∧ (readdir σ d).2.coming σ = [] ∧
        (readdir σ d).2.d_off = d.d_off ∨
      ∃ e, (readdir σ d).1 = some e ∧ d.coming σ = e.d_name :: (readdir σ d).2.coming σ ∧
        (readdir σ d).2.d_off = d.d_off + 1) := by
  obtain ⟨status, dta, more, dirname, d_off, handle, inode⟩ := d
  cases handle with
  | some h =>
    obtain ⟨entries, pos⟩ := h
    cases hget : entries[pos]? with
    | none =>
      have hread : readdir σ ⟨status, dta, more, dirname, d_off, some (entries, pos), inode⟩ =
          (none, ⟨status, dta, more, dirname, d_off, some (entries, pos), inode⟩) := by
        simp only [readdir, hget]
      have hnil : entries.drop pos = [] :=
        List.drop_of_length_le (List.getElem?_eq_none_iff.mp hget)
      rw [hread]
      refine ⟨⟨rfl, rfl, fun _ => rfl⟩, .inl ⟨?_, rfl, ?_, rfl⟩⟩
      all_goals simp only [DIR.coming, hnil, List.map_nil]
    | some e =>
      obtain ⟨hlt, he⟩ := List.getElem?_eq_some_iff.mp hget
      have hread : readdir σ ⟨status, dta, more, dirname, d_off, some (entries, pos), inode⟩ =
          (some ⟨e.1, d_off + 1, (nameOf status e).length, nameOf status e⟩,
            ⟨status, dta, more, dirname, d_off + 1, some (entries, pos + 1), inode⟩) := by
        simp only [readdir, hget]
        rfl
      rw [hread]
      refine ⟨⟨rfl, rfl, fun _ => rfl⟩, .inr ⟨_, rfl, ?_, rfl⟩⟩
      simp only [DIR.coming, List.drop_eq_getElem_cons hlt, he, List.map_cons]
  | none =>
    cases status with
    | NMFILE => exact ⟨⟨rfl, rfl, fun _ => rfl⟩, .inl ⟨rfl, rfl, rfl, rfl⟩⟩
    | STARTSEARCH => exact ⟨⟨rfl, rfl, fun h => nomatch h⟩, .inr ⟨_, rfl, rfl, rfl⟩⟩
    | INSEARCH | NO_CASE =>
      cases more with
      | nil => exact ⟨⟨rfl, rfl, fun h => nomatch h⟩, .inl ⟨rfl, rfl, rfl, rfl⟩⟩
      | cons name more => exact ⟨⟨rfl, rfl, fun h => nomatch h⟩, .inr ⟨_, rfl, rfl, rfl⟩⟩

/-- The loop of `seekdir` comes to an end: every entry that is read is one less to come. -/
theorem readdir_lt {e : dirent} (h : (readdir σ d).1 = some e) :
    ((readdir σ d).2.coming σ).length < (d.coming σ).length := by
  obtain ⟨-, hread⟩ := readdir_spec σ d
  rcases hread with ⟨-, hnone, -⟩ | ⟨e', -, hcoming, -⟩
  · rw [hnone] at h
    cases h
  · rw [hcoming]
    exact Nat.lt_succ_self _

end Readdir

/-- The loop of `seekdir`. -/
def seekLoop (σ : Sys) (pos : ℤ) (d : DIR) : DIR :=
  if (d.d_off : ℤ) ≠ pos then
    match _h : (readdir σ d).1 with
    | some _ => seekLoop σ pos (readdir σ d).2
    | none => (readdir σ d).2
  else d
termination_by (d.coming σ).length
decreasing_by exact readdir_lt _h

def seekdir (k : System) (σ : Sys) (d : DIR) (pos : ℤ) : DIR := seekLoop σ pos (rewinddir k d)

inductive Op where
  | readdir
  | telldir
  | seekdir (pos : ℤ)
  | rewinddir

def step (k : System) (σ : Sys) (d : DIR) : Op → DIR
  | .readdir => (readdir σ d).2
  | .telldir => d
  | .seekdir pos => seekdir k σ d pos
  | .rewinddir => rewinddir k d

def run (k : System) (σ : Sys) (d : DIR) (ops : List Op) : DIR := ops.foldl (step k σ) d

/-- What the next `n` calls of `readdir` return. -/
def reads (σ : Sys) : ℕ → DIR → List (Option Str)
  | 0, _ => []
  | n + 1, d => (readdir σ d).1.map dirent.d_name :: reads σ n (readdir σ d).2

/-- What `n` calls of `readdir` are to return for a directory with these names. -/
def listing (names : List Str) (n : ℕ) : List (Option Str) := (List.range n).map fun i => names[i]?

section Runs

variable {k : System} {σ : Sys} {d d' : DIR} {n : ℕ} {pos : ℤ} {names : List Str}

theorem reads_eq (n : ℕ) (d : DIR) : reads σ n d = listing (d.coming σ) n := by
  induction n generalizing d with
  | zero => rfl
  | succ n ih =>
    obtain ⟨-, hread⟩ := readdir_spec σ d
    have hlisting : ∀ names, listing names (n + 1) =
        names[0]? :: (List.range n).map fun i => names[i + 1]? := by
      intro names
      rw [listing, List.range_succ_eq_map, List.map_cons, List.map_map]
      rfl
    rw [reads, ih, hlisting]
    rcases hread with ⟨hnil, hnone, hnext, -⟩ | ⟨e, hsome, hcoming, -⟩
    · rw [hnone, hnil, hnext]
      rfl
    · rw [hsome, hcoming]
      rfl

theorem listing_inj {names names' : List Str} (h : ∀ n, listing names n = listing names' n) :
    names = names' := by
  apply List.ext_getElem?
  intro i
  have hi := congrArg (fun l => l[i]?) (h (i + 1))
  simpa [listing] using hi

/-- What `Fsfirst` and `Fsnext` find, as `readdir` names it; nothing if `Fsfirst` fails. -/
def System.listed (k : System) (σ : Sys) (name : Str) : List Str :=
  match k.Fsfirst name with
  | .ok (dta, more) => (dta :: more).map (tosName σ)
  | .error _ => []

/-- `rewinddir` comes back to these names: the stream has a handle, or the name that is kept
leads to them, or there are none to come back to. -/
def Rewinds (k : System) (σ : Sys) (names : List Str) (d : DIR) : Prop :=
  match d.handle with
  | some (entries, _) => entries.map (nameOf d.status) = names
  | none =>
    match d.dirname with
    | some dirname => k.listed σ dirname = names
    | none => names = []

/-- The stream stands at the entry that `d_off` counts. -/
structure At (k : System) (σ : Sys) (names : List Str) (d : DIR) : Prop where
  coming : d.coming σ = names.drop d.d_off
  le : d.d_off ≤ names.length
  rewinds : Rewinds k σ names d

theorem Rewinds.congr (hsame : Same d d') (h : Rewinds k σ names d) : Rewinds k σ names d' := by
  obtain ⟨hdirname, hentries, hstatus⟩ := hsame
  unfold Rewinds at h ⊢
  cases hhandle : d.handle with
  | some e =>
    obtain ⟨entries, pos⟩ := e
    rw [hhandle] at h hentries hstatus
    obtain ⟨e', he', heq⟩ := Option.map_eq_some_iff.mp hentries
    rw [he', hstatus rfl]
    show e'.1.map _ = names
    rw [heq]
    exact h
  | none =>
    rw [hhandle] at h hentries
    rw [Option.map_eq_none_iff.mp hentries, hdirname]
    exact h

theorem At.readdir (h : At k σ names d) : At k σ names (readdir σ d).2 := by
  obtain ⟨hsame, hread⟩ := readdir_spec σ d
  refine ⟨?_, ?_, h.rewinds.congr hsame⟩
  · rcases hread with ⟨hnil, -, hnext, hoff⟩ | ⟨e, -, hcoming, hoff⟩
    · rw [hnext, hoff, ← h.coming, hnil]
    · rw [hoff, ← List.tail_drop, ← h.coming, hcoming, List.tail_cons]
  · rcases hread with ⟨-, -, -, hoff⟩ | ⟨e, -, hcoming, hoff⟩
    · rw [hoff]
      exact h.le
    · have hlength := congrArg List.length (hcoming.symm.trans h.coming)
      rw [List.length_cons, List.length_drop] at hlength
      omega

theorem rewinddir_tos {dirname : Str} (hhandle : d.handle = none)
    (hdirname : d.dirname = some dirname) :
    (rewinddir k d).coming σ = k.listed σ dirname ∧ (rewinddir k d).d_off = 0 := by
  cases hfirst : k.Fsfirst dirname with
  | ok found =>
    have hcall : rewinddir k d =
        { d with dta := found.1, more := found.2, status := .STARTSEARCH, d_off := 0 } := by
      simp only [rewinddir, hhandle, hdirname, hfirst]
    have hlisted : k.listed σ dirname = (found.1 :: found.2).map (tosName σ) := by
      simp only [System.listed, hfirst]
    rw [hcall, hlisted]
    simp only [DIR.coming, hhandle, and_self]
  | error r =>
    have hcall : rewinddir k d = { d with status := .NMFILE, d_off := 0 } := by
      simp only [rewinddir, hhandle, hdirname, hfirst]
    have hlisted : k.listed σ dirname = [] := by
      simp only [System.listed, hfirst]
    rw [hcall, hlisted]
    simp only [DIR.coming, hhandle, and_self]

theorem same_rewinddir : Same d (rewinddir k d) := by
  obtain ⟨status, dta, more, dirname, d_off, handle, inode⟩ := d
  cases handle with
  | some e => exact ⟨rfl, rfl, fun _ => rfl⟩
  | none =>
    refine ⟨?_, ?_, fun h => nomatch h⟩
    all_goals
      unfold rewinddir
      cases dirname with
      | none => rfl
      | some dirname => simp only; split <;> rfl

theorem At.rewinddir (h : At k σ names d) :
    At k σ names (rewinddir k d) ∧ (rewinddir k d).d_off = 0 := by
  have hrewinds := h.rewinds
  obtain ⟨status, dta, more, dirname, d_off, handle, inode⟩ := d
  cases handle with
  | some e => exact ⟨⟨hrewinds, Nat.zero_le _, hrewinds⟩, rfl⟩
  | none =>
    cases dirname with
    | none =>
      have hnil : names = [] := hrewinds
      have hzero : d_off = 0 := by
        have hle : d_off ≤ names.length := h.le
        rw [hnil] at hle
        exact Nat.le_zero.mp hle
      exact ⟨h, hzero⟩
    | some dirname =>
      have hnames : k.listed σ dirname = names := hrewinds
      obtain ⟨hcoming, hoff⟩ := rewinddir_tos (k := k) (σ := σ)
        (d := ⟨status, dta, more, some dirname, d_off, none, inode⟩) rfl rfl
      refine ⟨⟨?_, ?_, h.rewinds.congr same_rewinddir⟩, hoff⟩
      · rw [hcoming, hoff, hnames, List.drop_zero]
      · rw [hoff]
        exact Nat.zero_le _

theorem seekLoop_at (h : At k σ names d) (pos : ℤ) :
    At k σ names (seekLoop σ pos d) ∧
      ((d.d_off : ℤ) ≤ pos → pos ≤ names.length → ((seekLoop σ pos d).d_off : ℤ) = pos) := by
  generalize hn : (d.coming σ).length = n
  induction n using Nat.strong_induction_on generalizing d with
  | _ n ih =>
    rw [seekLoop]
    by_cases hpos : (d.d_off : ℤ) ≠ pos
    · rw [if_pos hpos]
      obtain ⟨-, hread⟩ := readdir_spec σ d
      split
      · next e he =>
        obtain ⟨-, hnone, -⟩ | ⟨e', -, hcoming, hoff⟩ := hread
        · rw [hnone] at he
          cases he
        have hlt := readdir_lt he
        rw [hn] at hlt
        obtain ⟨hat, hstop⟩ := ih _ hlt h.readdir rfl
        refine ⟨hat, fun hle hmax => hstop ?_ hmax⟩
        rw [hoff]
        omega
      · next he =>
        obtain ⟨hnil, -, -, hoff⟩ | ⟨e', hsome, -⟩ := hread
        · refine ⟨h.readdir, fun hle hmax => ?_⟩
          -- nothing is left, so `d_off` counts all the entries
          have hend : names.length ≤ d.d_off := List.drop_eq_nil_iff.mp (h.coming.symm.trans hnil)
          rw [hoff]
          omega
        · rw [hsome] at he
          cases he
    · rw [if_neg hpos]
      exact ⟨h, fun _ _ => not_not.mp hpos⟩

theorem At.seekdir (h : At k σ names d) (pos : ℤ) : At k σ names (seekdir k σ d pos) :=
  (seekLoop_at h.rewinddir.1 pos).1

theorem At.step (h : At k σ names d) (op : Op) : At k σ names (step k σ d op) := by
  cases op with
  | readdir => exact h.readdir
  | telldir => exact h
  | seekdir pos => exact h.seekdir pos
  | rewinddir => exact h.rewinddir.1

theorem At.run (h : At k σ names d) (ops : List Op) : At k σ names (run k σ d ops) := by
  induction ops generalizing d with
  | nil => exact h
  | cons op ops ih => exact ih (h.step op)

theorem At.seekdir_telldir (h : At k σ names d) (h' : At k σ names d') :
    (Dirent.seekdir k σ d' (telldir d)).coming σ = d.coming σ := by
  obtain ⟨hat, hzero⟩ := h'.rewinddir
  obtain ⟨hstop, hoff⟩ := seekLoop_at hat (telldir d)
  have hpos := hoff (by rw [hzero]; exact Int.natCast_nonneg _) (Int.ofNat_le.mpr h.le)
  rw [Dirent.seekdir, hstop.coming, h.coming]
  exact congrArg names.drop (Int.ofNat_inj.mp hpos)

end Runs

section Opendir

variable {k : System} {σ : Sys} {inode : ℕ} {name : Str} {d : DIR}

/-- The entries of a directory, as `readdir` names them. -/
def System.directory (k : System) (σ : Sys) (name : Str) : List Str :=
  match k.Dopendir name with
  | some (.ok entries) => entries.map (nameOf (if k.noCase name then .NO_CASE else .INSEARCH))
  | some (.error _) => []
  | none => k.listed σ (pattern name)

/-- `rewinddir` finds the directory again. -/
def System.FoundAgain (k : System) (σ : Sys) (name : Str) : Prop :=
  (k.Dopendir name).isSome ∨
    if k.mallocName then
      k.listed σ (k.dirpath (pattern name) ++ pattern name) = k.listed σ (pattern name)
    else k.listed σ (pattern name) = []

theorem opendir_handle {entries : List (ℕ × Str)} (hcall : k.Dopendir name = some (.ok entries))
    (h : opendir k inode name = .ok d) :
    d = ⟨if k.noCase name then .NO_CASE else .INSEARCH, [], [], none, 0, some (entries, 0), inode⟩ := by
  unfold opendir at h
  by_cases hdir : k.mallocDir = false
  · rw [if_pos hdir] at h
    cases h
  · simp only [if_neg hdir, hcall] at h
    exact (Except.ok.inj h).symm

theorem opendir_tos (hcall : k.Dopendir name = none) (h : opendir k inode name = .ok d) :
    d.coming σ = k.listed σ (pattern name) ∧ d.d_off = 0 ∧ d.handle = none ∧
      d.dirname = if k.mallocName then some (k.dirpath (pattern name) ++ pattern name) else none := by
  unfold opendir at h
  by_cases hdir : k.mallocDir = false
  · rw [if_pos hdir] at h
    cases h
  · simp only [if_neg hdir, hcall] at h
    unfold System.listed
    cases hfirst : k.Fsfirst (pattern name) with
    | ok found =>
      obtain ⟨dta, more⟩ := found
      simp only [hfirst] at h ⊢
      obtain rfl := (Except.ok.inj h).symm
      exact ⟨rfl, rfl, rfl, rfl⟩
    | error r =>
      simp only [hfirst] at h ⊢
      by_cases hr : r = ENOENT
      · rw [if_pos hr] at h
        obtain rfl := (Except.ok.inj h).symm
        exact ⟨rfl, rfl, rfl, rfl⟩
      · rw [if_neg hr] at h
        cases h

theorem opendir_coming (h : opendir k inode name = .ok d) :
    d.coming σ = k.directory σ name ∧ d.d_off = 0 := by
  unfold System.directory
  cases hcall : k.Dopendir name with
  | none =>
    obtain ⟨hcoming, hoff, -, -⟩ := opendir_tos (σ := σ) hcall h
    exact ⟨hcoming, hoff⟩
  | some r =>
    cases r with
    | ok entries =>
      obtain rfl := opendir_handle hcall h
      exact ⟨rfl, rfl⟩
    | error r =>
      unfold opendir at h
      simp only [hcall] at h
      split_ifs at h

theorem opendir_rewinds (h : opendir k inode name = .ok d) (hfound : k.FoundAgain σ name) :
    Rewinds k σ (k.directory σ name) d := by
  unfold System.directory
  cases hcall : k.Dopendir name with
  | none =>
    obtain ⟨-, -, hhandle, hdirname⟩ := opendir_tos (σ := σ) hcall h
    have hname := hfound.resolve_left (by rw [hcall]; exact Bool.false_ne_true)
    unfold Rewinds
    rw [hhandle, hdirname]
    by_cases hmalloc : k.mallocName
    · rw [if_pos hmalloc] at hname ⊢
      exact hname
    · rw [if_neg hmalloc] at hname ⊢
      exact hname
  | some r =>
    cases r with
    | ok entries =>
      obtain rfl := opendir_handle hcall h
      rfl
    | error r =>
      unfold opendir at h
      simp only [hcall] at h
      split_ifs at h

theorem foundAgain_of_rewinddir (h : opendir k inode name = .ok d)
    (hrewind : ∀ ops n, reads σ n (rewinddir k (run k σ d ops)) = listing (k.directory σ name) n) :
    k.FoundAgain σ name := by
  have hcoming : ∀ ops, (rewinddir k (run k σ d ops)).coming σ = k.directory σ name :=
    fun ops => listing_inj fun n => (reads_eq n _).symm.trans (hrewind ops n)
  by_cases hcall : k.Dopendir name = none
  · obtain ⟨hfirst, -, hhandle, hdirname⟩ := opendir_tos (σ := σ) hcall h
    have hdirectory : k.directory σ name = k.listed σ (pattern name) := by
      rw [System.directory, hcall]
    right
    by_cases hmalloc : k.mallocName
    · rw [if_pos hmalloc] at hdirname ⊢
      have hback := hcoming []
      rw [hdirectory] at hback
      rw [← hback]
      exact (rewinddir_tos hhandle hdirname).1.symm
    · rw [if_neg hmalloc] at hdirname ⊢
      -- nothing is rewound after the first entry has been read
      have hback := hcoming [.readdir]
      have hsame := (readdir_spec σ d).1
      have hstill : rewinddir k (readdir σ d).2 = (readdir σ d).2 := by
        have hhandle' : (readdir σ d).2.handle = none := by
          have hentries := hsame.entries
          rw [hhandle] at hentries
          exact Option.map_eq_none_iff.mp hentries
        unfold rewinddir
        rw [hhandle', hsame.dirname, hdirname]
      have hafter : (readdir σ d).2.coming σ = d.coming σ := by
        rw [hfirst, ← hdirectory, ← hback]
        exact congrArg (DIR.coming σ) hstill.symm
      rcases (readdir_spec σ d).2 with ⟨hnil, -⟩ | ⟨e, -, hcons, -⟩
      · rw [← hfirst, hnil]
      · have hlength := congrArg List.length hcons
        rw [hafter, List.length_cons] at hlength
        omega
  · exact .inl (Option.isSome_iff_ne_none.mpr hcall)

end Opendir

/-- Positions are kept, and `rewinddir` comes to every entry once, in every run of a stream
exactly if `rewinddir` finds the directory that `opendir` has found. -/
theorem positions_iff (k : System) (σ : Sys) (inode : ℕ) (name : Str) (d : DIR)
    (h : opendir k inode name = .ok d) :
    (∀ ops₁ ops₂ n,
      reads σ n (seekdir k σ (run k σ (run k σ d ops₁) ops₂) (telldir (run k σ d ops₁))) =
          reads σ n (run k σ d ops₁) ∧
        reads σ n (rewinddir k (run k σ d ops₁)) = listing (k.directory σ name) n) ↔
      k.FoundAgain σ name := by
  constructor
  · exact fun hall => foundAgain_of_rewinddir h fun ops n => (hall ops [] n).2
  · intro hfound ops₁ ops₂ n
    obtain ⟨hcoming, hoff⟩ := opendir_coming (σ := σ) h
    have hstart : At k σ (k.directory σ name) d := by
      refine ⟨?_, ?_, opendir_rewinds h hfound⟩
      · rw [hcoming, hoff, List.drop_zero]
      · rw [hoff]
        exact Nat.zero_le _
    have h₁ := hstart.run ops₁
    have h₂ := h₁.run ops₂
    obtain ⟨hrewound, hzero⟩ := h₁.rewinddir
    refine ⟨?_, ?_⟩
    · rw [reads_eq, reads_eq, h₁.seekdir_telldir h₂]
    · rw [reads_eq, hrewound.coming, hzero, List.drop_zero]

/-- TOS with the given current directory, where `\\F` has the entries `A` and `B`. -/
def demoSystem (path : Str) : System where
  drv := 67
  path _ := path
  list _ name := if name = [92, 70, 92, 42, 46, 42] then .ok [[65], [66]] else .error ENOENT
  Dopendir _ := none
  noCase _ := false
  enoent _ := false
  mallocDir := true
  mallocName := true

/-- The stream that `opendir ("F")` makes in the root. -/
def demoStream : DIR :=
  ⟨.STARTSEARCH, [65], [[66]], some [67, 58, 70, 92, 42, 46, 42], 0, none, 0⟩

theorem positions_iff_demo :
    (∀ ops₁ ops₂ n,
      reads ⟨0, 0⟩ n (seekdir (demoSystem []) ⟨0, 0⟩
          (run (demoSystem []) ⟨0, 0⟩ (run (demoSystem []) ⟨0, 0⟩ demoStream ops₁) ops₂)
          (telldir (run (demoSystem []) ⟨0, 0⟩ demoStream ops₁))) =
        reads ⟨0, 0⟩ n (run (demoSystem []) ⟨0, 0⟩ demoStream ops₁) ∧
      reads ⟨0, 0⟩ n (rewinddir (demoSystem []) (run (demoSystem []) ⟨0, 0⟩ demoStream ops₁)) =
        listing ((demoSystem []).directory ⟨0, 0⟩ [70]) n) ↔
      (demoSystem []).FoundAgain ⟨0, 0⟩ [70] :=
  positions_iff (demoSystem []) ⟨0, 0⟩ 0 [70] demoStream rfl

/-- `opendir (".")` in `\\F`: the second time `Fsfirst` is asked for `C:\\F.\\*.*`. -/
theorem rewound_elsewhere :
    ¬ ∀ (k : System) (σ : Sys) (inode : ℕ) (name : Str) (d : DIR),
      opendir k inode name = .ok d → ∀ ops₁ ops₂ n,
        reads σ n (seekdir k σ (run k σ (run k σ d ops₁) ops₂) (telldir (run k σ d ops₁))) =
            reads σ n (run k σ d ops₁) ∧
          reads σ n (rewinddir k (run k σ d ops₁)) = listing (k.directory σ name) n := by
  intro h
  have hrewind := (h { demoSystem [92, 70] with
      list := fun _ name =>
        if name = [92, 70, 92, 46, 92, 42, 46, 42] then .ok [[65]] else .error ENOENT }
    ⟨0, 0⟩ 0 [46] _ rfl [] [] 1).2
  exact absurd hrewind (by decide)

end Mintlib.Dirent
