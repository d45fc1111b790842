import Mintlib.Lib.Text
import Mintlib.Posix

/-!
# Names for temporary files: `mkstemp.c` and `mktemp.c`

Both replace the six X at the end of a template by three letters and three digits of the process
id. The letters are counted in variables of 16 bits, and 2 ^ 16 is no multiple of their number.
-/

namespace Mintlib.TempNames

open Mintlib.Text Posix

abbrev X : UInt8 := 88

def letters : Str :=
  [65, 66, 67, 68, 69, 70, 71, 72, 73, 74, 75, 76, 77, 78, 79, 80, 81, 82, 83, 84, 85, 86, 87, 88,
    89, 90, 97, 98, 99, 100, 101, 102, 103, 104, 105, 106, 107, 108, 109, 110, 111, 112, 113, 114,
    115, 116, 117, 118, 119, 120, 121, 122, 48, 49, 50, 51, 52, 53, 54, 55, 56, 57]

/-- `__tmp_letters[i % sizeof __tmp_letters]`. -/
def letter (i : ℕ) : UInt8 := letters.getD (i % letters.length) 0

/-- What is found out about a name. -/
inductive Answer
  | taken
  | free
  | failed
deriving DecidableEq

/-- The template, and the names that have been tried. -/
structure Temp where
  template : Str
  tried : List Str

/-- A loop that has run through, with the counters that go on, or one that was left. -/
inductive Outcome (α : Type)
  | more (counters : α) (temp : Temp)
  | stop (answer : Answer) (temp : Temp)

/-- The counters are `unsigned short`. -/
def next (i : ℕ) : ℕ := (i + 1) % 2 ^ 16

section Loops

variable (answer : Str → Answer) (len : ℕ)

/-- The loop over `j2`; the first argument is how often it still runs. -/
def loop2 : ℕ → ℕ → Temp → Outcome ℕ
  | 0, i2, temp => .more i2 temp
  | j2 + 1, i2, temp =>
    let template := temp.template.set (len - 4) (letter i2)
    let temp : Temp := ⟨template, temp.tried ++ [template]⟩
    match answer template with
    | .taken => loop2 j2 (next i2) temp
    | other => .stop other temp

/-- The loop over `j1`. -/
def loop1 : ℕ → ℕ × ℕ → Temp → Outcome (ℕ × ℕ)
  | 0, counters, temp => .more counters temp
  | j1 + 1, (i1, i2), temp =>
    match loop2 answer len letters.length i2
        ⟨temp.template.set (len - 5) (letter i1), temp.tried⟩ with
    | .more i2 temp => loop1 j1 (next i1, i2) temp
    | .stop other temp => .stop other temp

/-- The loop over `j0`. -/
def loop0 : ℕ → ℕ × ℕ × ℕ → Temp → Outcome (ℕ × ℕ × ℕ)
  | 0, counters, temp => .more counters temp
  | j0 + 1, (i0, i1, i2), temp =>
    match loop1 answer len letters.length (i1, i2)
        ⟨temp.template.set (len - 6) (letter i0), temp.tried⟩ with
    | .more (i1, i2) temp => loop0 j0 (next i0, i1, i2) temp
    | .stop other temp => .stop other temp

end Loops

/-- How the search ends: the template is none, a name was made, a call failed, or there is no name
left (`ENMFILES`). -/
inductive Made
  | invalid
  | made (name : Str)
  | failed
  | exhausted
deriving DecidableEq

def sixX : Str := [X, X, X, X, X, X]

/-- The three digits of the process id, the last one first in the code. -/
def pidDigits (pid : ℕ) : Str :=
  let pid := pid % 2 ^ 16
  [digit (pid / 10 / 10 % 10), digit (pid / 10 % 10), digit (pid % 10)]

/-- Where the counters start: `((unsigned short) Random ()) % sizeof __tmp_letters`. -/
def start (random : ℕ) : ℕ := random % 2 ^ 16 % letters.length

/-- What `mkstemp` and `mktemp` have in common: the names that were tried, and the end. -/
def search (answer : Str → Answer) (pid : ℕ) (random : ℕ × ℕ × ℕ) (template : Str) :
    Made × List Str :=
  let len := template.length
  if len < 6 ∨ template.drop (len - 6) ≠ sixX then (.invalid, [])
  else
    let template := template.take (len - 3) ++ pidDigits pid
    match loop0 answer len letters.length (start random.1, start random.2.1, start random.2.2)
        ⟨template, []⟩ with
    | .more _ temp => (.exhausted, temp.tried)
    | .stop .free temp => (.made temp.template, temp.tried)
    | .stop _ temp => (.failed, temp.tried)

/-- The files that there are, which of them are directories, for which names `open` fails for
another reason, and with which other error than `ENOENT` a name cannot be looked at, whether there
is a file or not. -/
structure Files where
  there : Str → Bool
  isDir : Str → Bool
  broken : Str → Bool
  denied : Str → Option ℤ
  other : ∀ name, denied name ≠ some ENOENT

/-- `open (template, O_RDWR | O_CREAT | O_EXCL, 0600)`: `EEXIST` for a file, another error for a
directory or if the file cannot be made. -/
def Files.open (files : Files) (name : Str) : Answer :=
  if files.broken name then .failed
  else if files.there name then (if files.isDir name then .failed else .taken)
  else .free

/-- `__quickstat`: `errno` if it fails. -/
def Files.quickstat (files : Files) (name : Str) : Option ℤ :=
  match files.denied name with
  | some errno => some errno
  | none => if files.there name then none else some ENOENT

/-- `__exists`: a file is there if `__quickstat` fails for another reason than `ENOENT`. -/
def Files.nameExists (files : Files) (name : Str) : Bool :=
  match files.quickstat name with
  | none => true
  | some errno => errno ≠ ENOENT

/-- `if (!__exists (template))`. -/
def Files.exists (files : Files) (name : Str) : Answer :=
  if files.nameExists name then .taken else .free

def mkstemp (files : Files) (pid : ℕ) (random : ℕ × ℕ × ℕ) : Option Str → Made × List Str
  | none => (.invalid, [])
  | some template => search files.open pid random template

def mktemp (files : Files) (pid : ℕ) (random : ℕ × ℕ × ℕ) : Option Str → Made × List Str
  | none => (.invalid, [])
  | some template => search files.exists pid random template

def candidate (stem : Str) (pid a b c : ℕ) : Str :=
  stem ++ ([letter a, letter b, letter c] ++ pidDigits pid)

/-- How often the last letter has gone round when the others have these numbers. -/
def round (random : ℕ × ℕ × ℕ) (a b : ℕ) : ℕ :=
  62 * ((a + 62 - start random.1) % 62) + (b + 62 - start random.2.1) % 62

def counter (random : ℕ × ℕ × ℕ) (a b : ℕ) : ℕ := (start random.2.2 + 62 * round random a b) % 2 ^ 16

/-- The last counter wraps in this round, and the letter is one of the two that are left out. -/
def Skipped (random : ℕ × ℕ × ℕ) (a b c : ℕ) : Prop :=
  2 ≤ c ∧ (c + 65474 = counter random a b ∨ c + 65473 = counter random a b)

def LacksRightly (files : Files) (stem : Str) (pid : ℕ) (out : Made) : Prop :=
  out = .exhausted → ∀ a < 62, ∀ b < 62, ∀ c < 62, files.there (candidate stem pid a b c)

/-- All candidates are there, those that are skipped and those that are not, if those that are not
skipped are all taken. -/
def Covered (files : Files) (stem : Str) (pid : ℕ) (random : ℕ × ℕ × ℕ) (taken : Str → Prop) : Prop :=
  (∀ a < 62, ∀ b < 62, ∀ c < 62, ¬ Skipped random a b c → taken (candidate stem pid a b c)) →
    (∀ a < 62, ∀ b < 62, ∀ c < 62, Skipped random a b c →
        files.there (candidate stem pid a b c)) ∧
      ∀ a < 62, ∀ b < 62, ∀ c < 62, ¬ Skipped random a b c →
        files.there (candidate stem pid a b c)

/-- A name that was made was not there, and the names that were tried are the template up to the
six X. -/
structure NamesOk (files : Files) (stem : Str) (out : Made) (tried : List Str) : Prop where
  fresh : ∀ name, out = .made name → files.there name = false
  form : ∀ name, name ∈ tried ∨ out = .made name → ∃ six : Str, six.length = 6 ∧ name = stem ++ six

section Counters

variable {random : ℕ × ℕ × ℕ} {a b c j0 j1 j2 : ℕ}

theorem start_lt (r : ℕ) : start r < 62 := Nat.mod_lt _ (by decide)

theorem letter_congr {i j : ℕ} (h : i % 62 = j % 62) : letter i = letter j :=
  congrArg (letters.getD · 0) h

theorem back_eq {s a : ℕ} (hs : s < 62) (ha : a < 62) : (s + (a + 62 - s) % 62) % 62 = a := by
  omega

theorem round_eq (hj0 : j0 < 62) (hj1 : j1 < 62) :
    round random ((start random.1 + j0) % 62) ((start random.2.1 + 62 * j0 + j1) % 62) =
      62 * j0 + j1 := by
  have h0 := start_lt random.1
  have h1 := start_lt random.2.1
  unfold round
  omega

theorem window_covers {s c : ℕ} (hs : s < 2 ^ 16) (hc : c < 62)
    (hskip : ¬ (2 ≤ c ∧ (c + 65474 = s ∨ c + 65473 = s))) :
    ∃ j < 62, (s + j) % 2 ^ 16 % 62 = c := by
  by_cases hlow : s + (c + 62 - s % 62) % 62 < 2 ^ 16
  · refine ⟨(c + 62 - s % 62) % 62, Nat.mod_lt _ (by decide), ?_⟩
    rw [Nat.mod_eq_of_lt hlow]
    omega
  · refine ⟨c + 2 ^ 16 - s, by omega, by omega⟩

theorem window_misses {s c j : ℕ} (hs : s < 2 ^ 16) (hj : j < 62)
    (h : (s + j) % 2 ^ 16 % 62 = c) : ¬ (2 ≤ c ∧ (c + 65474 = s ∨ c + 65473 = s)) := by
  by_cases hlow : s + j < 2 ^ 16
  · rw [Nat.mod_eq_of_lt hlow] at h
    omega
  · have hwrap : (s + j) % 2 ^ 16 = s + j - 2 ^ 16 := by omega
    rw [hwrap] at h
    omega

end Counters

section Loops

variable {answer : Str → Answer} {stem : Str} {pid : ℕ} {random : ℕ × ℕ × ℕ}

def put (stem : Str) (pid : ℕ) (x0 x1 x2 : UInt8) : Str := stem ++ ([x0, x1, x2] ++ pidDigits pid)

theorem put_first (x0 x1 x2 y : UInt8) :
    (put stem pid x0 x1 x2).set (stem.length + 6 - 6) y = put stem pid y x1 x2 := by
  rw [put, Nat.add_sub_cancel, List.set_append_right _ _ (le_refl _), Nat.sub_self]
  rfl

theorem put_second (x0 x1 x2 y : UInt8) :
    (put stem pid x0 x1 x2).set (stem.length + 6 - 5) y = put stem pid x0 y x2 := by
  have hindex : stem.length + 6 - 5 = stem.length + 1 := rfl
  rw [put, hindex, List.set_append_right _ _ (Nat.le_add_right _ _), Nat.add_sub_cancel_left]
  rfl

theorem put_third (x0 x1 x2 y : UInt8) :
    (put stem pid x0 x1 x2).set (stem.length + 6 - 4) y = put stem pid x0 x1 y := by
  have hindex : stem.length + 6 - 4 = stem.length + 2 := rfl
  rw [put, hindex, List.set_append_right _ _ (Nat.le_add_right _ _), Nat.add_sub_cancel_left]
  rfl

def Generated (stem : Str) (pid : ℕ) (tried : List Str) : Prop :=
  ∀ name ∈ tried, ∃ a b c, name = candidate stem pid a b c

theorem Generated.snoc {tried : List Str} (h : Generated stem pid tried) (a b c : ℕ) :
    Generated stem pid (tried ++ [candidate stem pid a b c]) := by
  intro name hname
  rcases List.mem_append.mp hname with hname | hname
  · exact h name hname
  · exact ⟨a, b, c, List.mem_singleton.mp hname⟩

/-- A loop over some names: all are taken and the counters go on, or it is left at one that is
not. -/
def Looped (answer : Str → Answer) (stem : Str) (pid : ℕ) {α : Type} (names : Str → Prop)
    (counters : α) (left : Str → Prop) (out : Outcome α) : Prop :=
  (∃ temp, out = .more counters temp ∧ left temp.template ∧ Generated stem pid temp.tried ∧
    ∀ name, names name → answer name = .taken) ∨
  (∃ temp, out = .stop (answer temp.template) temp ∧ names temp.template ∧
    Generated stem pid temp.tried ∧ answer temp.template ≠ .taken)

/-- The names of `n` turns of the innermost loop. -/
def Names2 (stem : Str) (pid i0 i1 i2 n : ℕ) (name : Str) : Prop :=
  ∃ j < n, name = candidate stem pid i0 i1 ((i2 + j) % 2 ^ 16)

def Names1 (stem : Str) (pid i0 i1 i2 n : ℕ) (name : Str) : Prop :=
  ∃ j < n, Names2 stem pid i0 ((i1 + j) % 2 ^ 16) ((i2 + 62 * j) % 2 ^ 16) 62 name

def Names0 (stem : Str) (pid i0 i1 i2 n : ℕ) (name : Str) : Prop :=
  ∃ j < n, Names1 stem pid ((i0 + j) % 2 ^ 16) ((i1 + 62 * j) % 2 ^ 16)
    ((i2 + 62 * 62 * j) % 2 ^ 16) 62 name

theorem exists_lt_succ {n : ℕ} {p : ℕ → Prop} :
    (∃ j < n + 1, p j) ↔ p 0 ∨ ∃ j < n, p (j + 1) := by
  constructor
  · rintro ⟨j, hj, h⟩
    cases j with
    | zero => exact Or.inl h
    | succ j => exact Or.inr ⟨j, Nat.lt_of_succ_lt_succ hj, h⟩
  · rintro (h | ⟨j, hj, h⟩)
    · exact ⟨0, Nat.succ_pos n, h⟩
    · exact ⟨j + 1, Nat.succ_lt_succ hj, h⟩

theorem shift (i k m t : ℕ) (h : k + m = t) : ((i + k) % 2 ^ 16 + m) % 2 ^ 16 = (i + t) % 2 ^ 16 := by
  rw [Nat.mod_add_mod, Nat.add_assoc, h]

variable {i0 i1 i2 n : ℕ} {name : Str}

theorem names2_succ (hi2 : i2 < 2 ^ 16) : Names2 stem pid i0 i1 i2 (n + 1) name ↔
    name = candidate stem pid i0 i1 i2 ∨ Names2 stem pid i0 i1 (next i2) n name := by
  unfold Names2
  rw [exists_lt_succ, Nat.add_zero, Nat.mod_eq_of_lt hi2]
  refine or_congr_right (exists_congr fun j => and_congr_right fun _ => ?_)
  rw [next, shift i2 1 j (j + 1) (Nat.add_comm 1 j)]

theorem names1_succ (hi1 : i1 < 2 ^ 16) (hi2 : i2 < 2 ^ 16) :
    Names1 stem pid i0 i1 i2 (n + 1) name ↔
      Names2 stem pid i0 i1 i2 62 name ∨
        Names1 stem pid i0 (next i1) ((i2 + 62) % 2 ^ 16) n name := by
  unfold Names1
  rw [exists_lt_succ, Nat.mul_zero, Nat.add_zero, Nat.add_zero, Nat.mod_eq_of_lt hi1,
    Nat.mod_eq_of_lt hi2]
  refine or_congr_right (exists_congr fun j => and_congr_right fun _ => ?_)
  rw [next, shift i1 1 j (j + 1) (Nat.add_comm 1 j), shift i2 62 (62 * j) (62 * (j + 1)) (by omega)]

theorem names0_succ (hi0 : i0 < 2 ^ 16) (hi1 : i1 < 2 ^ 16) (hi2 : i2 < 2 ^ 16) :
    Names0 stem pid i0 i1 i2 (n + 1) name ↔
      Names1 stem pid i0 i1 i2 62 name ∨
        Names0 stem pid (next i0) ((i1 + 62) % 2 ^ 16) ((i2 + 62 * 62) % 2 ^ 16) n name := by
  unfold Names0
  rw [exists_lt_succ, Nat.mul_zero, Nat.add_zero, Nat.add_zero, Nat.add_zero,
    Nat.mod_eq_of_lt hi0, Nat.mod_eq_of_lt hi1, Nat.mod_eq_of_lt hi2]
  refine or_congr_right (exists_congr fun j => and_congr_right fun _ => ?_)
  rw [next, shift i0 1 j (j + 1) (Nat.add_comm 1 j), shift i1 62 (62 * j) (62 * (j + 1)) (by omega),
    shift i2 (62 * 62) (62 * 62 * j) (62 * 62 * (j + 1)) (by omega)]

theorem next_lt (i : ℕ) : next i < 2 ^ 16 := Nat.mod_lt _ (by decide)

variable (answer) in
theorem loop2_spec (i0 i1 n : ℕ) : ∀ (i2 : ℕ) (x2 : UInt8) (tried : List Str), i2 < 2 ^ 16 →
    Generated stem pid tried →
    Looped answer stem pid (Names2 stem pid i0 i1 i2 n) ((i2 + n) % 2 ^ 16)
      (fun t => ∃ y, t = put stem pid (letter i0) (letter i1) y)
      (loop2 answer (stem.length + 6) n i2 ⟨put stem pid (letter i0) (letter i1) x2, tried⟩) := by
  induction n with
  | zero =>
    intro i2 x2 tried hi2 htried
    rw [loop2, Nat.add_zero, Nat.mod_eq_of_lt hi2]
    refine Or.inl ⟨_, rfl, ⟨x2, rfl⟩, htried, fun name hname => ?_⟩
    obtain ⟨j, hj, -⟩ := hname
    exact absurd hj (Nat.not_lt_zero j)
  | succ n ih =>
    intro i2 x2 tried hi2 htried
    have hgen := htried.snoc i0 i1 i2
    have hput : put stem pid (letter i0) (letter i1) (letter i2) = candidate stem pid i0 i1 i2 := rfl
    rw [loop2]
    simp only [put_third]
    rw [hput]
    by_cases htaken : answer (candidate stem pid i0 i1 i2) = .taken
    · rw [htaken]
      rcases ih (next i2) (letter i2) _ (next_lt i2) hgen with
        ⟨temp, hout, hleft, htried', hall⟩ | ⟨temp, hout, hname, htried', hother⟩
      · refine Or.inl ⟨temp, ?_, hleft, htried', fun name hname => ?_⟩
        · rw [← shift i2 1 n (n + 1) (Nat.add_comm 1 n)]
          exact hout
        · rcases (names2_succ hi2).mp hname with rfl | hname
          · exact htaken
          · exact hall name hname
      · exact Or.inr ⟨temp, hout, (names2_succ hi2).mpr (Or.inr hname), htried', hother⟩
    · refine Or.inr ⟨⟨candidate stem pid i0 i1 i2, tried ++ [candidate stem pid i0 i1 i2]⟩, ?_,
        (names2_succ hi2).mpr (Or.inl rfl), hgen, htaken⟩
      show _ = Outcome.stop (answer (candidate stem pid i0 i1 i2)) _
      cases hanswer : answer (candidate stem pid i0 i1 i2) with
      | taken => exact absurd hanswer htaken
      | free => rfl
      | failed => rfl

variable (answer) in
theorem loop1_spec (i0 n : ℕ) : ∀ (i1 i2 : ℕ) (x1 x2 : UInt8) (tried : List Str), i1 < 2 ^ 16 →
    i2 < 2 ^ 16 → Generated stem pid tried →
    Looped answer stem pid (Names1 stem pid i0 i1 i2 n)
      ((i1 + n) % 2 ^ 16, (i2 + 62 * n) % 2 ^ 16)
      (fun t => ∃ y z, t = put stem pid (letter i0) y z)
      (loop1 answer (stem.length + 6) n (i1, i2) ⟨put stem pid (letter i0) x1 x2, tried⟩) := by
  induction n with
  | zero =>
    intro i1 i2 x1 x2 tried hi1 hi2 htried
    rw [loop1, Nat.mul_zero, Nat.add_zero, Nat.add_zero, Nat.mod_eq_of_lt hi1, Nat.mod_eq_of_lt hi2]
    refine Or.inl ⟨_, rfl, ⟨x1, x2, rfl⟩, htried, fun name hname => ?_⟩
    obtain ⟨j, hj, -⟩ := hname
    exact absurd hj (Nat.not_lt_zero j)
  | succ n ih =>
    intro i1 i2 x1 x2 tried hi1 hi2 htried
    have hlt : (i2 + 62) % 2 ^ 16 < 2 ^ 16 := Nat.mod_lt _ (by decide)
    have hlength : letters.length = 62 := rfl
    rw [loop1]
    simp only [put_second, hlength]
    rcases loop2_spec answer i0 i1 62 i2 x2 tried hi2 htried with
      ⟨temp, hout, ⟨y, hy⟩, htried', hall⟩ | ⟨temp, hout, hname, htried', hother⟩
    · obtain ⟨template, tried'⟩ := temp
      subst hy
      rw [hout]
      simp only
      rcases ih (next i1) ((i2 + 62) % 2 ^ 16) (letter i1) y tried' (next_lt i1) hlt htried' with
        ⟨temp, hout', hleft, htried'', hall'⟩ | ⟨temp, hout', hname, htried'', hother⟩
      · refine Or.inl ⟨temp, ?_, hleft, htried'', fun name hname => ?_⟩
        · rw [← shift i1 1 n (n + 1) (Nat.add_comm 1 n),
            ← shift i2 62 (62 * n) (62 * (n + 1)) (by omega)]
          exact hout'
        · rcases (names1_succ hi1 hi2).mp hname with hname | hname
          · exact hall name hname
          · exact hall' name hname
      · exact Or.inr ⟨temp, hout', (names1_succ hi1 hi2).mpr (Or.inr hname), htried'', hother⟩
    · rw [hout]
      exact Or.inr ⟨temp, rfl, (names1_succ hi1 hi2).mpr (Or.inl hname), htried', hother⟩

variable (answer) in
theorem loop0_spec (n : ℕ) : ∀ (i0 i1 i2 : ℕ) (x0 x1 x2 : UInt8) (tried : List Str), i0 < 2 ^ 16 →
    i1 < 2 ^ 16 → i2 < 2 ^ 16 → Generated stem pid tried →
    Looped answer stem pid (Names0 stem pid i0 i1 i2 n)
      ((i0 + n) % 2 ^ 16, (i1 + 62 * n) % 2 ^ 16, (i2 + 62 * 62 * n) % 2 ^ 16) (fun _ => True)
      (loop0 answer (stem.length + 6) n (i0, i1, i2) ⟨put stem pid x0 x1 x2, tried⟩) := by
  induction n with
  | zero =>
    intro i0 i1 i2 x0 x1 x2 tried hi0 hi1 hi2 htried
    rw [loop0, Nat.mul_zero, Nat.add_zero, Nat.add_zero, Nat.add_zero,
      Nat.mod_eq_of_lt hi0, Nat.mod_eq_of_lt hi1, Nat.mod_eq_of_lt hi2]
    refine Or.inl ⟨_, rfl, trivial, htried, fun name hname => ?_⟩
    obtain ⟨j, hj, -⟩ := hname
    exact absurd hj (Nat.not_lt_zero j)
  | succ n ih =>
    intro i0 i1 i2 x0 x1 x2 tried hi0 hi1 hi2 htried
    have hlt1 : (i1 + 62) % 2 ^ 16 < 2 ^ 16 := Nat.mod_lt _ (by decide)
    have hlt2 : (i2 + 62 * 62) % 2 ^ 16 < 2 ^ 16 := Nat.mod_lt _ (by decide)
    have hlength : letters.length = 62 := rfl
    rw [loop0]
    simp only [put_first, hlength]
    rcases loop1_spec answer i0 62 i1 i2 x1 x2 tried hi1 hi2 htried with
      ⟨temp, hout, ⟨y, z, hyz⟩, htried', hall⟩ | ⟨temp, hout, hname, htried', hother⟩
    · obtain ⟨template, tried'⟩ := temp
      subst hyz
      rw [hout]
      simp only
      rcases ih (next i0) ((i1 + 62) % 2 ^ 16) ((i2 + 62 * 62) % 2 ^ 16) (letter i0) y z tried'
        (next_lt i0) hlt1 hlt2 htried' with
        ⟨temp, hout', -, htried'', hall'⟩ | ⟨temp, hout', hname, htried'', hother⟩
      · refine Or.inl ⟨temp, ?_, trivial, htried'', fun name hname => ?_⟩
        · rw [← shift i0 1 n (n + 1) (Nat.add_comm 1 n),
            ← shift i1 62 (62 * n) (62 * (n + 1)) (by omega),
            ← shift i2 (62 * 62) (62 * 62 * n) (62 * 62 * (n + 1)) (by omega)]
          exact hout'
        · rcases (names0_succ hi0 hi1 hi2).mp hname with hname | hname
          · exact hall name hname
          · exact hall' name hname
      · exact Or.inr ⟨temp, hout', (names0_succ hi0 hi1 hi2).mpr (Or.inr hname), htried'', hother⟩
    · rw [hout]
      exact Or.inr ⟨temp, rfl, (names0_succ hi0 hi1 hi2).mpr (Or.inl hname), htried', hother⟩

end Loops

section Search

variable {answer : Str → Answer} {stem : Str} {pid : ℕ} {random : ℕ × ℕ × ℕ}

theorem names_iff {name : Str} :
    Names0 stem pid (start random.1) (start random.2.1) (start random.2.2) 62 name ↔
      ∃ a < 62, ∃ b < 62, ∃ c < 62, ¬ Skipped random a b c ∧ name = candidate stem pid a b c := by
  have h0 := start_lt random.1
  have h1 := start_lt random.2.1
  have h2 := start_lt random.2.2
  constructor
  · rintro ⟨j0, hj0, j1, hj1, j2, hj2, rfl⟩
    have hi0 : (start random.1 + j0) % 2 ^ 16 = start random.1 + j0 := by omega
    have hi1 : ((start random.2.1 + 62 * j0) % 2 ^ 16 + j1) % 2 ^ 16 =
        start random.2.1 + 62 * j0 + j1 := by omega
    have hi2 : ((start random.2.2 + 62 * 62 * j0) % 2 ^ 16 + 62 * j1) % 2 ^ 16 =
        (start random.2.2 + 62 * (62 * j0 + j1)) % 2 ^ 16 := by omega
    rw [hi0, hi1, hi2]
    refine ⟨(start random.1 + j0) % 62, Nat.mod_lt _ (by decide),
      (start random.2.1 + 62 * j0 + j1) % 62, Nat.mod_lt _ (by decide),
      ((start random.2.2 + 62 * (62 * j0 + j1)) % 2 ^ 16 + j2) % 2 ^ 16 % 62,
      Nat.mod_lt _ (by decide), ?_, ?_⟩
    · rw [Skipped, counter, round_eq hj0 hj1]
      exact window_misses (Nat.mod_lt _ (by decide)) hj2 rfl
    · unfold candidate
      rw [letter_congr (Nat.mod_mod (start random.1 + j0) 62),
        letter_congr (Nat.mod_mod (start random.2.1 + 62 * j0 + j1) 62),
        letter_congr (Nat.mod_mod (((start random.2.2 + 62 * (62 * j0 + j1)) % 2 ^ 16 + j2) %
          2 ^ 16) 62)]
  · rintro ⟨a, ha, b, hb, c, hc, hskip, rfl⟩
    set j0 := (a + 62 - start random.1) % 62 with hj0
    set j1 := (b + 62 - start random.2.1) % 62 with hj1
    have hround : round random a b = 62 * j0 + j1 := rfl
    rw [Skipped, counter, hround] at hskip
    obtain ⟨j2, hj2, hc2⟩ := window_covers (Nat.mod_lt _ (by decide)) hc hskip
    refine ⟨j0, Nat.mod_lt _ (by decide), j1, Nat.mod_lt _ (by decide), j2, hj2, ?_⟩
    have hi2 : ((start random.2.2 + 62 * 62 * j0) % 2 ^ 16 + 62 * j1) % 2 ^ 16 =
        (start random.2.2 + 62 * (62 * j0 + j1)) % 2 ^ 16 := by omega
    have hj0lt : j0 < 62 := Nat.mod_lt _ (by decide)
    have hj1lt : j1 < 62 := Nat.mod_lt _ (by decide)
    have ha1 : (start random.1 + j0) % 2 ^ 16 = start random.1 + j0 := by omega
    have hb1 : ((start random.2.1 + 62 * j0) % 2 ^ 16 + j1) % 2 ^ 16 =
        start random.2.1 + j1 + 62 * j0 := by omega
    have ha2 : a % 62 = (start random.1 + j0) % 2 ^ 16 % 62 := by
      rw [ha1, hj0, back_eq h0 ha, Nat.mod_eq_of_lt ha]
    have hb2 : b % 62 = ((start random.2.1 + 62 * j0) % 2 ^ 16 + j1) % 2 ^ 16 % 62 := by
      rw [hb1, Nat.add_mul_mod_self_left, hj1, back_eq h1 hb, Nat.mod_eq_of_lt hb]
    rw [hi2]
    unfold candidate
    rw [letter_congr ha2, letter_congr hb2, letter_congr ((Nat.mod_eq_of_lt hc).trans hc2.symm)]

structure SearchOk (answer : Str → Answer) (stem : Str) (pid : ℕ) (random : ℕ × ℕ × ℕ)
    (out : Made) (tried : List Str) : Prop where
  generated : Generated stem pid tried
  made : ∀ name, out = Made.made name →
    answer name = .free ∧ ∃ a b c, name = candidate stem pid a b c
  exhausted : out = Made.exhausted ↔
    ∀ a < 62, ∀ b < 62, ∀ c < 62, ¬ Skipped random a b c →
      answer (candidate stem pid a b c) = .taken
  valid : out ≠ Made.invalid

theorem search_ok (answer : Str → Answer) (stem : Str) (pid : ℕ) (random : ℕ × ℕ × ℕ) :
    ∃ made tried, search answer pid random (stem ++ sixX) = (made, tried) ∧
      SearchOk answer stem pid random made tried := by
  have hsix : sixX.length = 6 := rfl
  have hlen : (stem ++ sixX).length = stem.length + 6 := by rw [List.length_append, hsix]
  have hvalid : ¬ ((stem ++ sixX).length < 6 ∨
      (stem ++ sixX).drop ((stem ++ sixX).length - 6) ≠ sixX) := by
    rw [hlen, Nat.add_sub_cancel, List.drop_left]
    rintro (h | h)
    · omega
    · exact h rfl
  have htemplate : (stem ++ sixX).take ((stem ++ sixX).length - 3) ++ pidDigits pid =
      put stem pid X X X := by
    have hthree : stem.length + 6 - 3 = stem.length + 3 := rfl
    rw [hlen, hthree, List.take_length_add_append, put, List.append_assoc]
    rfl
  have hlt : ∀ r, start r < 2 ^ 16 := fun r => (start_lt r).trans (by decide)
  have hempty : Generated stem pid [] := fun name hname => absurd hname List.not_mem_nil
  have hlength : letters.length = 62 := rfl
  rw [search]
  simp only
  rw [if_neg hvalid, htemplate, hlen, hlength]
  -- no candidate is left, or one was not taken
  rcases loop0_spec answer 62 (start random.1) (start random.2.1) (start random.2.2)
    X X X [] (hlt _) (hlt _) (hlt _) hempty with
    ⟨temp, hout, -, htried, hall⟩ | ⟨temp, hout, hname, htried, hother⟩
  · rw [hout]
    refine ⟨.exhausted, temp.tried, rfl, htried, ?_, ?_, by decide⟩
    · intro name h
      cases h
    · refine iff_of_true rfl fun a ha b hb c hc hskip => hall _ ?_
      exact names_iff.mpr ⟨a, ha, b, hb, c, hc, hskip, rfl⟩
  · obtain ⟨a, ha, b, hb, c, hc, hskip, hcand⟩ := names_iff.mp hname
    have hnot : ¬ ∀ a < 62, ∀ b < 62, ∀ c < 62, ¬ Skipped random a b c →
        answer (candidate stem pid a b c) = .taken := by
      intro h
      refine hother ?_
      rw [hcand]
      exact h a ha b hb c hc hskip
    rw [hout]
    cases hanswer : answer temp.template with
    | taken => exact absurd hanswer hother
    | free =>
      refine ⟨.made temp.template, temp.tried, rfl, htried, ?_, ?_, ?_⟩
      · intro name h
        cases h
        exact ⟨hanswer, a, b, c, hcand⟩
      · exact iff_of_false (fun h => by cases h) hnot
      · exact fun h => by cases h
    | failed =>
      refine ⟨.failed, temp.tried, rfl, htried, ?_, iff_of_false (fun h => by cases h) hnot, ?_⟩
      · intro name h
        cases h
      · exact fun h => by cases h

theorem candidate_form (stem : Str) (pid a b c : ℕ) :
    ∃ six : Str, six.length = 6 ∧ candidate stem pid a b c = stem ++ six :=
  ⟨_, rfl, rfl⟩

/-- A name that `open` reports with `EEXIST`. -/
def Files.OpenTaken (files : Files) (name : Str) : Prop :=
  files.there name = true ∧ files.isDir name = false ∧ files.broken name = false

def Files.Seen (files : Files) (name : Str) : Prop :=
  files.there name = true ∨ files.denied name ≠ none

theorem Files.open_taken {files : Files} {name : Str} :
    files.open name = .taken ↔ files.OpenTaken name := by
  unfold Files.open Files.OpenTaken
  cases files.there name <;> cases files.isDir name <;> cases files.broken name <;> decide

theorem Files.open_free {files : Files} {name : Str} (h : files.open name = .free) :
    files.there name = false := by
  unfold Files.open at h
  by_contra hthere
  rw [Bool.not_eq_false] at hthere
  rw [hthere, if_pos rfl] at h
  split_ifs at h

theorem Files.exists_taken {files : Files} {name : Str} :
    files.exists name = .taken ↔ files.Seen name := by
  have hother := files.other name
  unfold Files.exists Files.nameExists Files.quickstat Files.Seen
  cases hdenied : files.denied name with
  | some errno =>
    rw [hdenied] at hother
    have hne : errno ≠ ENOENT := fun h => hother (congrArg some h)
    refine iff_of_true ?_ (Or.inr (Option.some_ne_none errno))
    simp only [decide_eq_true hne, if_true]
  | none => cases files.there name <;> decide

theorem Files.exists_free {files : Files} {name : Str} (h : files.exists name = .free) :
    files.there name = false := by
  by_contra hthere
  rw [Bool.not_eq_false] at hthere
  rw [Files.exists_taken.mpr (Or.inl hthere)] at h
  cases h

theorem SearchOk.names {files : Files} {taken : Str → Prop} {out : Made} {tried : List Str}
    (h : SearchOk answer stem pid random out tried)
    (htaken : ∀ name, answer name = .taken ↔ taken name)
    (hfree : ∀ name, answer name = .free → files.there name = false) :
    (LacksRightly files stem pid out ↔ Covered files stem pid random taken) ∧
      NamesOk files stem out tried := by
  refine ⟨⟨fun hlacks hall => ?_, fun hcovered hout a ha b hb c hc => ?_⟩,
    fun name hname => hfree name (h.made name hname).1, fun name hname => ?_⟩
  · have hthere := hlacks (h.exhausted.mpr fun a ha b hb c hc hskip =>
      (htaken _).mpr (hall a ha b hb c hc hskip))
    exact ⟨fun a ha b hb c hc _ => hthere a ha b hb c hc,
      fun a ha b hb c hc _ => hthere a ha b hb c hc⟩
  · obtain ⟨hskipped, htried⟩ := hcovered fun a ha b hb c hc hskip =>
      (htaken _).mp (h.exhausted.mp hout a ha b hb c hc hskip)
    by_cases hskip : Skipped random a b c
    · exact hskipped a ha b hb c hc hskip
    · exact htried a ha b hb c hc hskip
  · rcases hname with hname | hname
    · obtain ⟨a, b, c, rfl⟩ := h.generated name hname
      exact candidate_form stem pid a b c
    · obtain ⟨-, a, b, c, rfl⟩ := h.made name hname
      exact candidate_form stem pid a b c

end Search

theorem letter_inj {a b : ℕ} (ha : a < 62) (hb : b < 62) (h : letter a = letter b) : a = b := by
  have hall : ∀ a b : Fin 62, letter a = letter b → a = b := by decide +kernel
  exact congrArg Fin.val (hall ⟨a, ha⟩ ⟨b, hb⟩ h)

end Mintlib.TempNames
