import Mintlib.Lib.Checked
import Mintlib.Unx2dos
import Mintlib.Posix

/-!
# Looking for a program: `execvp.c`

`execvp` tries the name in each directory of `PATH`, with each extension that the system knows.
All the names are built in one buffer.
-/

namespace Mintlib.Execvp

open Mintlib.Text Mintlib.Unx2dos Posix
open Checked (Stop)

/-- `".ttp"`, `".prg"`, `".tos"`, `".app"` and `".gtp"`. -/
def extensions : List Str :=
  [[], [46, 116, 116, 112], [46, 112, 114, 103], [46, 116, 111, 115], [46, 97, 112, 112],
    [46, 103, 116, 112]]

def mintExt : List Str := [[]]

/-- `exts`; `mint` is `__mint`. -/
def exts (mint : Bool) : List Str := if mint then mintExt else extensions

/-- `__execve`: call number `k` starts a program of this name and does not return, or leaves an
error. -/
abbrev Execve := ℕ → Str → Option ℤ

/-- The names that have been tried, `errno`, and `got_eacces`. -/
structure Search where
  tried : List Str
  errno : ℤ
  got_eacces : Bool

/-- The names that were tried, and the error, unless a program was started. -/
structure Result where
  tried : List Str
  errno : Option ℤ

/-- What is behind the beginning of a buffer of `room` bytes: the bytes are added to it. -/
def append (room : ℕ) (start bytes : Str) : Except Stop Str :=
  if start.length + bytes.length ≤ room then .ok (start ++ bytes) else .error .bounds

def Passes (mint : Bool) (ext : Str) (errno : ℤ) : Prop :=
  errno = EACCES ∨ errno = ENOENT ∨ errno = ESTALE ∨ errno = ENOTDIR ∨
    (errno = ENOEXEC ∧ mint = false ∧ ext = [])

instance (mint : Bool) (ext : Str) (errno : ℤ) : Decidable (Passes mint ext errno) :=
  inferInstanceAs (Decidable (_ ∨ _))

/-- The loop over the extensions, behind `base`: the search goes on, or it is over. -/
def tryExts (execve : Execve) (mint : Bool) (room : ℕ) (base : Str) :
    List Str → Search → Except Stop (Search ⊕ Result)
  | [], search => .ok (.inl search)
  | ext :: exts, search => do
    -- `strcpy (extpos, *ext)`
    let _ ← append room base (ext ++ [0])
    let tried := search.tried ++ [base ++ ext]
    match execve search.tried.length (base ++ ext) with
    | none => .ok (.inr ⟨tried, none⟩)
    | some errno =>
      if Passes mint ext errno then
        tryExts execve mint room base exts ⟨tried, errno, search.got_eacces || errno = EACCES⟩
      else .ok (.inr ⟨tried, some errno⟩)

def place (room : ℕ) (file dir : Str) : Except Stop Str := do
  if dir = [] then
    let _ ← append room [] (file ++ [0])
    .ok file
  else
    let name ← append room [] dir
    let name ← append room name [SLASH]
    let _ ← append room name (file ++ [0])
    .ok (name ++ file)

/-- The loop over `PATH`; `p` is what is left of it. -/
def searchPath (execve : Execve) (mint : Bool) (room : ℕ) (file : Str) :
    ℕ → Str → Search → Except Stop Result
  | 0, _, _ => .error .steps
  | steps + 1, p, search => do
    let dir := p.takeWhile (· ≠ COLON)
    let base ← place room file dir
    match ← tryExts execve mint room base (exts mint) search with
    | .inr result => .ok result
    | .inl search =>
      match p.drop dir.length with
      | [] => .ok ⟨search.tried, some (if search.got_eacces then EACCES else search.errno)⟩
      | _ :: p => searchPath execve mint room file steps p search

/-- The search path: that of the environment, or the current directory. -/
def searched (mint : Bool) (PATH : Option Str) : Str :=
  match PATH with
  | some path => path
  | none => if mint then [COLON] else []

/-- `execvp`; `malloc` says whether the buffer can be had. -/
def execvp (execve : Execve) (mint malloc : Bool) (PATH : Option Str) (file : Str) :
    Except Stop Result :=
  if file = [] then .ok ⟨[], some ENOENT⟩
  else if SLASH ∈ file ∨ BACKSLASH ∈ file then .ok ⟨[file], execve 0 file⟩
  else
    let path := searched mint PATH
    let len := file.length + 1
    -- room for extenders
    let room := path.length + len + 4
    if malloc then searchPath execve mint room file (path.length + 1) path ⟨[], 0, false⟩
    else .ok ⟨[], some ENOMEM⟩

/-- The name of the file in a directory of `PATH`. -/
def inDir (file dir : Str) : Str := if dir = [] then file else dir ++ [SLASH] ++ file

def namesIn (mint : Bool) (file dir : Str) : List (Str × Str) :=
  (exts mint).map (inDir file dir, ·)

/-- The names with their extensions, in the order of `PATH` and of the extensions. -/
def candidates (mint malloc : Bool) (PATH : Option Str) (file : Str) : List (Str × Str) :=
  if file = [] then []
  else if SLASH ∈ file ∨ BACKSLASH ∈ file then [(file, [])]
  else if malloc then
    ((searched mint PATH).splitOn COLON).flatMap (namesIn mint file)
  else []

/-- The names up to the first that starts a program or leaves an error of another kind. -/
def visit (execve : Execve) (mint : Bool) : ℕ → List (Str × Str) → List Str
  | _, [] => []
  | k, (base, ext) :: names =>
    (base ++ ext) :: match execve k (base ++ ext) with
      | some errno => if Passes mint ext errno then visit execve mint (k + 1) names else []
      | none => []

def Passed (execve : Execve) (mint : Bool) : ℕ → List (Str × Str) → Prop
  | _, [] => True
  | k, (base, ext) :: names =>
    (∃ errno, execve k (base ++ ext) = some errno ∧ Passes mint ext errno) ∧
      Passed execve mint (k + 1) names

/-- The search stays in its buffer: the system knows no extensions, or `PATH` is empty or has
more than one element, or the search ends with the first name; or there is none. -/
def Fits (execve : Execve) (mint malloc : Bool) (PATH : Option Str) (file : Str) : Prop :=
  file = [] ∨ (SLASH ∈ file ∨ BACKSLASH ∈ file) ∨ malloc = false ∨ mint = true ∨
    searched mint PATH = [] ∨ COLON ∈ searched mint PATH ∨
    ∀ errno, execve 0 (inDir file (searched mint PATH)) = some errno → ¬ Passes mint [] errno

section Visit

variable {execve : Execve} {mint : Bool} {k : ℕ} {names names' : List (Str × Str)}

theorem visit_append (names names' : List (Str × Str)) : ∀ k,
    (Passed execve mint k names → visit execve mint k (names ++ names') =
      visit execve mint k names ++ visit execve mint (k + names.length) names') ∧
    (¬ Passed execve mint k names →
      visit execve mint k (names ++ names') = visit execve mint k names) := by
  induction names with
  | nil =>
    intro k
    exact ⟨fun _ => rfl, fun h => absurd trivial h⟩
  | cons name names ih =>
    obtain ⟨base, ext⟩ := name
    intro k
    obtain ⟨hpass, hstop⟩ := ih (k + 1)
    have hindex : k + (names.length + 1) = k + 1 + names.length := by omega
    rw [List.cons_append, visit, visit, List.length_cons, hindex]
    constructor
    · rintro ⟨⟨errno, hexec, herrno⟩, hrest⟩
      simp only [hexec, if_pos herrno, List.cons_append]
      rw [hpass hrest]
    · intro hnot
      cases hexec : execve k (base ++ ext) with
      | none => rfl
      | some errno =>
        by_cases herrno : Passes mint ext errno
        · simp only [if_pos herrno]
          rw [hstop fun hrest => hnot ⟨⟨errno, hexec, herrno⟩, hrest⟩]
        · simp only [if_neg herrno]

theorem visit_passed (h : Passed execve mint k names) :
    visit execve mint k names = names.map fun name => name.1 ++ name.2 := by
  induction names generalizing k with
  | nil => rfl
  | cons name names ih =>
    obtain ⟨base, ext⟩ := name
    obtain ⟨⟨errno, hexec, herrno⟩, hrest⟩ := h
    rw [visit, hexec]
    simp only [if_pos herrno]
    rw [ih hrest]
    rfl

end Visit

section Search

variable {execve : Execve} {mint : Bool} {room : ℕ} {base file dir start bytes : Str}

theorem append_eq (h : start.length + bytes.length ≤ room) :
    append room start bytes = .ok (start ++ bytes) := if_pos h

structure ExtsOk (execve : Execve) (mint : Bool) (names : List (Str × Str)) (search : Search)
    (out : Search ⊕ Result) : Prop where
  goes : Passed execve mint search.tried.length names → ∃ search', out = .inl search' ∧
    search'.tried = search.tried ++ visit execve mint search.tried.length names
  stops : ¬ Passed execve mint search.tried.length names → ∃ result, out = .inr result ∧
    result.tried = search.tried ++ visit execve mint search.tried.length names

theorem tryExts_ok (execve : Execve) (mint : Bool) (base : Str) (exts : List Str)
    (hfits : ∀ ext ∈ exts, base.length + ext.length + 1 ≤ room) : ∀ search : Search,
    ∃ out, tryExts execve mint room base exts search = .ok out ∧
      ExtsOk execve mint (exts.map (base, ·)) search out := by
  induction exts with
  | nil =>
    intro search
    refine ⟨.inl search, rfl, fun _ => ⟨search, rfl, ?_⟩, fun h => absurd trivial h⟩
    exact (List.append_nil _).symm
  | cons ext exts ih =>
    obtain ⟨hext, hexts⟩ := List.forall_mem_cons.mp hfits
    intro search
    have happend : append room base (ext ++ [0]) = .ok (base ++ (ext ++ [0])) := by
      refine append_eq ?_
      rw [List.length_append, List.length_singleton]
      omega
    rw [tryExts, happend, List.map_cons]
    simp only [bind, Except.bind]
    cases hexec : execve search.tried.length (base ++ ext) with
    | none =>
      refine ⟨_, rfl, ?_, fun _ => ⟨_, rfl, ?_⟩⟩
      · rintro ⟨⟨errno, h, -⟩, -⟩
        rw [hexec] at h
        cases h
      · rw [visit, hexec]
    | some errno =>
      by_cases herrno : Passes mint ext errno
      · simp only [if_pos herrno]
        set search₁ : Search := ⟨search.tried ++ [base ++ ext], errno,
          search.got_eacces || errno = EACCES⟩ with hsearch₁
        have hlen : search₁.tried.length = search.tried.length + 1 := by
          rw [hsearch₁, List.length_append, List.length_singleton]
        obtain ⟨out, hout, hgoes, hstops⟩ := ih hexts search₁
        rw [hlen] at hgoes hstops
        have htried : search₁.tried ++
              visit execve mint (search.tried.length + 1) (exts.map (base, ·)) =
            search.tried ++
              visit execve mint search.tried.length ((base, ext) :: exts.map (base, ·)) := by
          rw [visit, hexec]
          simp only [if_pos herrno]
          rw [hsearch₁, List.append_assoc, List.singleton_append]
        rw [htried] at hgoes hstops
        refine ⟨out, hout, fun h => hgoes h.2, fun h => hstops fun hrest => ?_⟩
        exact h ⟨⟨errno, hexec, herrno⟩, hrest⟩
      · simp only [if_neg herrno]
        refine ⟨_, rfl, ?_, fun _ => ⟨_, rfl, ?_⟩⟩
        · rintro ⟨⟨errno', h, hpass⟩, -⟩
          rw [hexec, Option.some.injEq] at h
          exact absurd (h ▸ hpass) herrno
        · rw [visit, hexec]
          simp only [if_neg herrno]

theorem length_inDir (file dir : Str) :
    (inDir file dir).length = if dir = [] then file.length else dir.length + 1 + file.length := by
  unfold inDir
  split_ifs
  · rfl
  · rw [List.length_append, List.length_append, List.length_singleton]

theorem place_ok (hfits : (inDir file dir).length + 1 ≤ room) :
    place room file dir = .ok (inDir file dir) := by
  rw [length_inDir] at hfits
  unfold place inDir
  by_cases hdir : dir = []
  · have hfile : append room [] (file ++ [0]) = .ok (file ++ [0]) := by
      refine append_eq ?_
      rw [if_pos hdir] at hfits
      rw [List.length_append, List.length_singleton, List.length_nil]
      omega
    rw [if_pos hdir, if_pos hdir, hfile]
    rfl
  · rw [if_neg hdir] at hfits
    have hstart : append room [] dir = .ok dir := by
      refine append_eq ?_
      rw [List.length_nil]
      omega
    have hslash : append room dir [SLASH] = .ok (dir ++ [SLASH]) := by
      refine append_eq ?_
      rw [List.length_singleton]
      omega
    have hfile : append room (dir ++ [SLASH]) (file ++ [0]) =
        .ok (dir ++ [SLASH] ++ (file ++ [0])) := by
      refine append_eq ?_
      rw [List.length_append, List.length_append, List.length_singleton, List.length_singleton]
      omega
    rw [if_neg hdir, if_neg hdir, hstart]
    simp only [bind, Except.bind, hslash, hfile]

theorem length_ext_le {ext : Str} (h : ext ∈ exts mint) : ext.length ≤ 4 := by
  have hall : ∀ mint, ∀ ext ∈ exts mint, ext.length ≤ 4 := by decide
  exact hall mint ext h

theorem split_path (p : Str) : COLON ∉ p.takeWhile (· ≠ COLON) ∧
    ((p.drop (p.takeWhile (· ≠ COLON)).length = [] ∧ p = p.takeWhile (· ≠ COLON)) ∨
      ∃ rest, p.drop (p.takeWhile (· ≠ COLON)).length = COLON :: rest ∧
        p = p.takeWhile (· ≠ COLON) ++ COLON :: rest) := by
  have hnot : COLON ∉ p.takeWhile (· ≠ COLON) := by
    intro h
    have hne := List.mem_takeWhile_imp h
    simp only [ne_eq, not_true_eq_false, decide_false, Bool.false_eq_true] at hne
  have hsplit := List.takeWhile_append_dropWhile (p := (· ≠ COLON)) (l := p)
  have hdrop : p.drop (p.takeWhile (· ≠ COLON)).length = p.dropWhile (· ≠ COLON) := by
    have hleft : (p.takeWhile (· ≠ COLON) ++ p.dropWhile (· ≠ COLON)).drop
        (p.takeWhile (· ≠ COLON)).length = p.dropWhile (· ≠ COLON) := List.drop_left
    rwa [hsplit] at hleft
  refine ⟨hnot, ?_⟩
  rw [hdrop]
  cases hrest : p.dropWhile (· ≠ COLON) with
  | nil =>
    rw [hrest, List.append_nil] at hsplit
    exact Or.inl ⟨rfl, hsplit.symm⟩
  | cons c rest =>
    have hhead := List.head?_dropWhile_not (· ≠ COLON) p
    rw [hrest] at hhead
    have hc : c = COLON := by simpa using hhead
    subst hc
    rw [hrest] at hsplit
    exact Or.inr ⟨rest, rfl, hsplit.symm⟩

theorem searchPath_ok (execve : Execve) (file : Str) (steps : ℕ) :
    ∀ (p : Str) (search : Search), p.length < steps →
    (∀ dir ∈ p.splitOn COLON, ∀ ext ∈ exts mint,
      (inDir file dir).length + ext.length + 1 ≤ room) →
    ∃ result, searchPath execve mint room file steps p search = .ok result ∧
      result.tried = search.tried ++ visit execve mint search.tried.length
        ((p.splitOn COLON).flatMap (namesIn mint file)) := by
  induction steps with
  | zero => exact fun p _ h => absurd h (Nat.not_lt_zero _)
  | succ steps ih =>
    intro p search hsteps hfits
    obtain ⟨hcolon, hrest⟩ := split_path p
    set dir := p.takeWhile (· ≠ COLON) with hdir
    have hmem : dir ∈ p.splitOn COLON := by
      rcases hrest with ⟨-, hp⟩ | ⟨rest, -, hp⟩
      · rw [hp, List.splitOn_eq_singleton hcolon]
        exact List.mem_singleton_self dir
      · rw [hp, List.splitOn_append_cons_self, List.splitOn_eq_singleton hcolon]
        exact List.mem_cons_self
    have hempty : [] ∈ exts mint := by cases mint <;> decide
    have hplace : place room file dir = .ok (inDir file dir) :=
      place_ok (hfits dir hmem [] hempty)
    have hexts := hfits dir hmem
    obtain ⟨out, hout, hok⟩ := tryExts_ok execve mint (inDir file dir) (exts mint) hexts search
    obtain ⟨hgoes, hstops⟩ : ExtsOk execve mint (namesIn mint file dir) search out := hok
    rw [searchPath]
    simp only [← hdir, hplace, bind, Except.bind]
    rw [hout]
    -- the search goes on to the next directory only if no name in this one was decisive
    by_cases hpassed : Passed execve mint search.tried.length (namesIn mint file dir)
    · obtain ⟨search', rfl, htried⟩ := hgoes hpassed
      rcases hrest with ⟨hdrop, hp⟩ | ⟨rest, hdrop, hp⟩
      · simp only [hdrop]
        refine ⟨_, rfl, ?_⟩
        rw [hp, List.splitOn_eq_singleton hcolon, List.flatMap_singleton]
        exact htried
      · simp only [hdrop]
        have hlen : rest.length < steps := by
          rw [hp, List.length_append, List.length_cons] at hsteps
          omega
        have hfits' : ∀ dir ∈ rest.splitOn COLON, ∀ ext ∈ exts mint,
            (inDir file dir).length + ext.length + 1 ≤ room := by
          intro dir' hdir'
          refine hfits dir' ?_
          rw [hp, List.splitOn_append_cons_self]
          exact List.mem_append_right _ hdir'
        obtain ⟨result, hresult, hall⟩ := ih rest search' hlen hfits'
        refine ⟨result, hresult, ?_⟩
        have hnames : (p.splitOn COLON).flatMap (namesIn mint file) =
            namesIn mint file dir ++ (rest.splitOn COLON).flatMap (namesIn mint file) := by
          rw [hp, List.splitOn_append_cons_self, List.splitOn_eq_singleton hcolon,
            List.singleton_append, List.flatMap_cons]
        have hindex : search'.tried.length =
            search.tried.length + (namesIn mint file dir).length := by
          rw [htried, List.length_append, visit_passed hpassed, List.length_map]
        rw [hall, hindex, hnames, ((visit_append _ _ _).1 hpassed), htried, List.append_assoc]
    · obtain ⟨result, rfl, htried⟩ := hstops hpassed
      refine ⟨result, rfl, ?_⟩
      have hvisit : visit execve mint search.tried.length
            ((p.splitOn COLON).flatMap (namesIn mint file)) =
          visit execve mint search.tried.length (namesIn mint file dir) := by
        rcases hrest with ⟨-, hp⟩ | ⟨rest, -, hp⟩
        · rw [hp, List.splitOn_eq_singleton hcolon, List.flatMap_singleton]
        · rw [hp, List.splitOn_append_cons_self, List.splitOn_eq_singleton hcolon,
            List.singleton_append, List.flatMap_cons, (visit_append _ _ _).2 hpassed]
      rw [hvisit]
      exact htried

theorem searchPath_overruns {p : Str} (hp : p ≠ []) (hcolon : COLON ∉ p) {errno : ℤ}
    (hexec : execve 0 (inDir file p) = some errno) (herrno : Passes false [] errno) (steps : ℕ) :
    searchPath execve false (p.length + (file.length + 1) + 4) file (steps + 1) p ⟨[], 0, false⟩ =
      .error .bounds := by
  have hdir : p.takeWhile (· ≠ COLON) = p := by
    rw [List.takeWhile_eq_self_iff]
    intro c hc
    exact decide_eq_true fun h => hcolon (h ▸ hc)
  have hlen : (inDir file p).length = p.length + 1 + file.length := by
    rw [length_inDir, if_neg hp]
  have hplace : place (p.length + (file.length + 1) + 4) file p = .ok (inDir file p) :=
    place_ok (by omega)
  have hfirst : append (p.length + (file.length + 1) + 4) (inDir file p) ([] ++ [0]) =
      .ok (inDir file p ++ ([] ++ [0])) := by
    refine append_eq ?_
    rw [hlen, List.nil_append, List.length_singleton]
    omega
  have hsecond : append (p.length + (file.length + 1) + 4) (inDir file p)
      ([46, 116, 116, 112] ++ [0]) = .error .bounds := by
    refine if_neg ?_
    rw [hlen, List.length_append, List.length_singleton]
    simp only [List.length_cons, List.length_nil]
    omega
  rw [searchPath]
  simp only [hdir, hplace, bind, Except.bind]
  have hexts : exts false = [] :: [46, 116, 116, 112] :: [[46, 112, 114, 103], [46, 116, 111, 115],
      [46, 97, 112, 112], [46, 103, 116, 112]] := rfl
  rw [hexts, tryExts, hfirst]
  simp only [bind, Except.bind, List.length_nil, List.append_nil, hexec, if_pos herrno]
  rw [tryExts, hsecond]
  rfl

theorem searchPath_first {p : Str} (hcolon : COLON ∉ p)
    (hstop : ∀ errno, execve 0 (inDir file p) = some errno → ¬ Passes mint [] errno) (steps : ℕ) :
    ∃ result, searchPath execve mint (p.length + (file.length + 1) + 4) file (steps + 1) p
        ⟨[], 0, false⟩ = .ok result ∧ result.tried = [inDir file p] := by
  have hdir : p.takeWhile (· ≠ COLON) = p := by
    rw [List.takeWhile_eq_self_iff]
    intro c hc
    exact decide_eq_true fun h => hcolon (h ▸ hc)
  have hlen : (inDir file p).length ≤ p.length + 1 + file.length := by
    rw [length_inDir]
    split_ifs <;> omega
  have hplace : place (p.length + (file.length + 1) + 4) file p = .ok (inDir file p) :=
    place_ok (by omega)
  have hfirst : append (p.length + (file.length + 1) + 4) (inDir file p) ([] ++ [0]) =
      .ok (inDir file p ++ ([] ++ [0])) := by
    refine append_eq ?_
    rw [List.nil_append, List.length_singleton]
    omega
  obtain ⟨es, hexts⟩ : ∃ es, exts mint = [] :: es := by
    cases mint with
    | true => exact ⟨_, rfl⟩
    | false => exact ⟨_, rfl⟩
  rw [searchPath]
  simp only [hdir, hplace, bind, Except.bind]
  rw [hexts, tryExts, hfirst]
  simp only [bind, Except.bind, List.length_nil, List.append_nil, List.nil_append]
  cases hexec : execve 0 (inDir file p) with
  | none => exact ⟨_, rfl, rfl⟩
  | some errno =>
    simp only [if_neg (hstop errno hexec)]
    exact ⟨_, rfl, rfl⟩

theorem length_element_le {p dir : Str} (h : dir ∈ p.splitOn COLON) : dir.length ≤ p.length := by
  induction hn : p.length using Nat.strong_induction_on generalizing p with
  | _ n ih =>
    by_cases hcolon : COLON ∈ p
    · obtain ⟨a, b, rfl⟩ := List.append_of_mem hcolon
      rw [List.splitOn_append_cons_self] at h
      rw [List.length_append, List.length_cons] at hn
      rcases List.mem_append.mp h with h | h
      · exact (ih a.length (by omega) h rfl).trans (by omega)
      · exact (ih b.length (by omega) h rfl).trans (by omega)
    · rw [List.splitOn_eq_singleton hcolon, List.mem_singleton] at h
      rw [h, hn]

theorem names_fit {p : Str} (h : mint = true ∨ p = [] ∨ COLON ∈ p) :
    ∀ dir ∈ p.splitOn COLON, ∀ ext ∈ exts mint,
      (inDir file dir).length + ext.length + 1 ≤ p.length + (file.length + 1) + 4 := by
  intro dir hdir ext hext
  have hle := length_element_le hdir
  have hfour := length_ext_le hext
  rw [length_inDir]
  split_ifs with hnil
  · omega
  rcases h with rfl | rfl | hcolon
  · have hempty : ext = [] := List.mem_singleton.mp hext
    rw [hempty, List.length_nil]
    omega
  · exact absurd (List.length_eq_zero_iff.mp (Nat.le_zero.mp hle)) hnil
  · have hlt : dir.length < p.length := by
      obtain ⟨a, b, rfl⟩ := List.append_of_mem hcolon
      rw [List.splitOn_append_cons_self] at hdir
      rw [List.length_append, List.length_cons]
      rcases List.mem_append.mp hdir with hdir | hdir
      · have hlen := length_element_le hdir
        omega
      · have hlen := length_element_le hdir
        omega
    omega

end Search

/-- `execvp` stays in its buffer, ends, and tries the names in order up to the first that starts
a program or leaves an error of another kind, unless the system knows extensions, `PATH` has one
element that is not empty, and the search goes on behind the first name. -/
theorem execvp_iff (execve : Execve) (mint malloc : Bool) (PATH : Option Str) (file : Str) :
    (∃ result, execvp execve mint malloc PATH file = .ok result ∧
      result.tried = visit execve mint 0 (candidates mint malloc PATH file)) ↔
    Fits execve mint malloc PATH file := by
  unfold execvp candidates Fits
  -- no name, a name with a path, no memory for the names: nothing is searched
  by_cases hfile : file = []
  · rw [if_pos hfile, if_pos hfile]
    exact iff_of_true ⟨_, rfl, rfl⟩ (Or.inl hfile)
  rw [if_neg hfile, if_neg hfile]
  by_cases hslash : SLASH ∈ file ∨ BACKSLASH ∈ file
  · rw [if_pos hslash, if_pos hslash]
    refine iff_of_true ⟨_, rfl, ?_⟩ (Or.inr (Or.inl hslash))
    rw [visit, List.append_nil]
    cases execve 0 file with
    | none => rfl
    | some errno => exact congrArg (file :: ·) (ite_self _).symm
  rw [if_neg hslash, if_neg hslash]
  cases malloc with
  | false => exact iff_of_true ⟨_, rfl, rfl⟩ (Or.inr (Or.inr (Or.inl rfl)))
  | true =>
    simp only [if_true]
    set p := searched mint PATH
    -- the names fit if there is a second directory or no extension is tried
    by_cases hroom : mint = true ∨ p = [] ∨ COLON ∈ p
    · obtain ⟨result, hresult, htried⟩ := searchPath_ok execve file (p.length + 1) p ⟨[], 0, false⟩
        (Nat.lt_succ_self _) (names_fit hroom)
      refine iff_of_true ⟨result, hresult, htried⟩ ?_
      rcases hroom with h | h | h <;> simp only [h, true_or, or_true]
    obtain ⟨hmint, hroom⟩ := not_or.mp hroom
    obtain ⟨hne, hcolon⟩ := not_or.mp hroom
    have hno : mint = false := Bool.eq_false_iff.mpr hmint
    -- with one directory the extensions do not fit, unless the name without one is decisive
    by_cases hstop : ∀ errno, execve 0 (inDir file p) = some errno → ¬ Passes mint [] errno
    · obtain ⟨result, hresult, htried⟩ := searchPath_first hcolon hstop p.length
      refine iff_of_true ⟨result, hresult, ?_⟩ ?_
      · rw [htried, List.splitOn_eq_singleton hcolon, List.flatMap_singleton]
        have hnames : ∃ names, namesIn mint file p = (inDir file p, []) :: names := by
          rw [hno]
          exact ⟨_, rfl⟩
        obtain ⟨names, hnames⟩ := hnames
        rw [hnames, visit, List.append_nil]
        cases hexec : execve 0 (inDir file p) with
        | none => rfl
        | some errno => exact congrArg (inDir file p :: ·) (if_neg (hstop errno hexec)).symm
      · exact Or.inr (Or.inr (Or.inr (Or.inr (Or.inr (Or.inr hstop)))))
    · refine iff_of_false ?_ ?_
      · rintro ⟨result, hresult, -⟩
        push Not at hstop
        obtain ⟨errno, hexec, herrno⟩ := hstop
        rw [hno] at hresult herrno
        rw [searchPath_overruns hne hcolon hexec herrno] at hresult
        cases hresult
      · rintro (h | h | h | h | h | h | h)
        · exact hfile h
        · exact hslash h
        · cases h
        · exact hmint h
        · exact hne h
        · exact hcolon h
        · exact hstop h

/-- `PATH=/bin` without MiNT: the second name is one byte too long for the buffer. -/
theorem extension_overruns :
    ¬ ∀ (execve : Execve) (mint malloc : Bool) (PATH : Option Str) (file : Str),
      ∃ result, execvp execve mint malloc PATH file = .ok result ∧
        result.tried = visit execve mint 0 (candidates mint malloc PATH file) := by
  intro h
  obtain ⟨result, hresult, -⟩ := h (fun _ _ => some ENOENT) false true
    (some [47, 98, 105, 110]) [108, 115]
  have hbounds : execvp (fun _ _ => some ENOENT) false true (some [47, 98, 105, 110]) [108, 115] =
      .error .bounds := by rfl
  rw [hbounds] at hresult
  cases hresult

end Mintlib.Execvp
