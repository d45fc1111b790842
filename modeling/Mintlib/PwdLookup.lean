import Mintlib.PwdRecords
import Mintlib.Posix

/-!
# Looking up a user: `getpwnam_r.c`

The loop reads entry after entry and compares the names. What it finds is the complete entry of
a line if the records up to it fit into the buffer and its own one reads as that line.
-/

namespace Mintlib.PwdLookup

open Text Entry Pwd PwdLines PwdRecords Posix

/-- What ends a call early: a store outside of the buffer, `strcmp` of `NULL`, or the calls of
`fgetpwent_r` are used up. -/
inductive Fault
  | outside
  | null
  | calls
  deriving DecidableEq

/-- What is returned, `errno`, and `*result`. -/
structure Reply where
  retval : ℤ
  errno : ℤ
  result : Option Passwd
  deriving DecidableEq

def search (name : Str) (buflen : ℕ) : ℕ → List UInt8 → Except Fault (Option Passwd)
  | 0, _ => .error .calls
  | calls + 1, pwfile =>
    match fgetpwentR (some pwfile) (some buflen) with
    | none => .error .outside
    | some (.entry pw, pwfile) =>
      match pw.pw_name with
      | none => .error .null
      | some pw_name => if pw_name = name then .ok (some pw) else search name buflen calls pwfile
    | some (_, _) => .ok none

/-- `getpwnam_r`; the file is what it holds, or what `fopen` leaves in `errno`. -/
def getpwnamR (name : Str) (passwd : Except ℤ (List UInt8)) (buflen : ℕ) (errno : ℤ) :
    Except Fault Reply :=
  match passwd with
  | .error e => .ok ⟨-1, e, none⟩
  | .ok pwfile => do
    let result ← search name buflen (pwfile.length + 1) pwfile
    .ok ⟨if result.isSome then 0 else -1, errno, result⟩

def lineText : List UInt8 → Str
  | [] => []
  | c :: fp => if Dropped c fp then lineText fp else if c = NEWLINE then [] else c :: lineText fp

/-- The lines that are entries: blanks in front of them and comments are skipped. -/
def linesFrom : ℕ → List UInt8 → List Str
  | 0, _ => []
  | turns + 1, fp =>
    match skip false fp with
    | none => []
    | some l => lineText l :: linesFrom turns (afterLine l)

def lines (file : List UInt8) : List Str := linesFrom (file.length + 1) file

/-- A field of a line; those behind its last `':'` are empty. -/
def fieldOf (line : Str) (i : ℕ) : Str := (line.splitOn COLON).getD i []

/-- A text is the number `n` in decimal, or empty. -/
def IsId (w : Str) (n : ℕ) : Prop := (∀ c ∈ w, IsDigit c) ∧ w.foldl more 0 = n

/-- Every field of the entry is the complete field of the line. -/
structure Complete (line : Str) (pw : Passwd) : Prop where
  name : pw.pw_name = some (fieldOf line 0)
  passwd : pw.pw_passwd = some (beforeComma (fieldOf line 1))
  age : pw.pw_age = some (afterComma (fieldOf line 1))
  uid : IsId (fieldOf line 2) pw.pw_uid
  gid : IsId (fieldOf line 3) pw.pw_gid
  gecos : pw.pw_gecos = some (fieldOf line 4)
  dir : pw.pw_dir = some (fieldOf line 5)
  shell : pw.pw_shell = some (fieldOf line 6)

def room (line : Str) : ℕ := needed allKinds (line.splitOn COLON)

/-- The call stays inside of its buffer, succeeds with the complete entry of a line with the name
or not at all, and fails with `ERANGE` for a line with the name that does not fit. -/
def Finds (name : Str) (file : List UInt8) (buflen : ℕ) : Prop :=
  ∃ reply, getpwnamR name (.ok file) buflen 0 = .ok reply ∧
    (∀ pw, reply.result = some pw → ∃ line ∈ lines file, fieldOf line 0 = name ∧ Complete line pw) ∧
    (∀ line, (lines file).find? (fun line => fieldOf line 0 = name) = some line →
      buflen < room line → reply.result = none ∧ (reply.retval = ERANGE ∨ reply.errno = ERANGE))

def recordsFrom : ℕ → List UInt8 → List Record
  | 0, _ => []
  | turns + 1, fp =>
    match skip false fp with
    | none => []
    | some l => record 6 l :: recordsFrom turns (record 6 l).rest

def records (file : List UInt8) : List Record := recordsFrom (file.length + 1) file

def Matches (name : Str) (r : Record) : Prop := cstr r.first = name

instance (name : Str) : DecidablePred (Matches name) :=
  fun _ => inferInstanceAs (Decidable (_ = _))

/-- Room for the strings that a `':'` ends, and for the name. -/
def Holds (buflen : ℕ) (r : Record) : Prop :=
  needed allKinds (ended r.cut r.texts) ≤ buflen ∧ r.first.length < buflen

def Clear (name : Str) (buflen : ℕ) : List Record → Prop
  | [] => True
  | r :: rs => Holds buflen r ∧ (Matches name r ∨ Clear name buflen rs)

def numberOf (w : Str) : ℕ := (w.takeWhile (IsDigit ·)).foldl more 0

/-- The fields of a line have no NUL, and its ids are numbers below 2 ^ 32. -/
structure PlainLine (line : Str) : Prop where
  nul : ∀ i < 7, 0 ∉ fieldOf line i
  ids : ∀ i ∈ [2, 3], (∀ c ∈ fieldOf line i, IsDigit c) ∧ numberOf (fieldOf line i) < 2 ^ 32

def Whole (texts : List Str) (line : Str) : Prop := ∀ i < 7, texts.getD i [] = fieldOf line i

/-- The texts of a record are no more than the fields of a line if they are cut at a NUL, and its
ids begin with the same numbers modulo 2 ^ 32. -/
structure Alike (texts : List Str) (line : Str) : Prop where
  strings : ∀ f ∈ [ParseState.name, .password, .age, .gecos, .home, .shell],
    cstr (value f (texts.getD (index f) [])) = value f (fieldOf line (index f))
  ids : ∀ i ∈ [2, 3], numberOf (texts.getD i []) % 2 ^ 32 = numberOf (fieldOf line i)

/-- The records on the way have room; the one with the name has all of it, and it is a plain line
with the name or looks like one; and the first line with the name has room as well. -/
structure Fits (name : Str) (file : List UInt8) (buflen : ℕ) : Prop where
  clear : Clear name buflen (records file)
  found : ∀ r, (records file).find? (Matches name) = some r → needed allKinds r.texts ≤ buflen ∧
    ∃ line ∈ lines file, fieldOf line 0 = name ∧ PlainLine line ∧
      (Whole r.texts line ∨ Alike r.texts line)
  wanted : ∀ line, (lines file).find? (fun line => fieldOf line 0 = name) = some line →
    room line ≤ buflen

def Ordinary (file : List UInt8) (buflen : ℕ) : Prop :=
  ∀ line ∈ lines file, PlainLine line ∧ (line.splitOn COLON).length ≤ 7 ∧ room line ≤ buflen

section Lines

variable {line w : Str} {texts : List Str} {pw : Passwd}

theorem takeWhile_digits (h : ∀ c ∈ w, IsDigit c) : w.takeWhile (IsDigit ·) = w :=
  List.takeWhile_eq_self_iff.mpr fun c hc => decide_eq_true (h c hc)

theorem dropWhile_first {p : UInt8 → Bool} {c : UInt8} {rest : Str}
    (h : w.dropWhile p = c :: rest) : p c = false := by
  have hhead := List.head?_dropWhile_not p w
  rwa [h] at hhead

theorem idOf_eq (w : Str) : idOf w = numberOf w % 2 ^ 32 := by
  have hdigits : ∀ c ∈ w.takeWhile (IsDigit ·), IsDigit c := fun c hc =>
    of_decide_eq_true (List.mem_takeWhile_imp (p := (IsDigit ·)) hc)
  have hmod := foldl_more_mod (2 ^ 32) 0 (w.takeWhile (IsDigit ·))
  rw [Nat.zero_mod] at hmod
  have hread : readId (0, false) (w.takeWhile (IsDigit ·)) = (numberOf w % 2 ^ 32, false) := by
    rw [readId_digits hdigits, hmod, numberOf]
  have hsplit : readId (0, false) w =
      readId (numberOf w % 2 ^ 32, false) (w.dropWhile (IsDigit ·)) := by
    conv_lhs => rw [← List.takeWhile_append_dropWhile (p := (IsDigit ·)) (l := w)]
    rw [← hread, readId, readId, readId, List.foldl_append]
  rw [idOf, hsplit]
  cases hrest : w.dropWhile (IsDigit ·) with
  | nil => rfl
  | cons c rest =>
    -- nothing is read behind the first character that is no digit
    have hc : ¬ IsDigit c := of_decide_eq_false (dropWhile_first hrest)
    have hstep : digitOf (numberOf w % 2 ^ 32) false c = (numberOf w % 2 ^ 32, true) := by
      rw [digitOf, if_pos hc]
    show (readId (digitOf (numberOf w % 2 ^ 32) false c) rest).1 = _
    rw [hstep, readId_error]

theorem alike_of_whole (h : Whole texts line) (hplain : PlainLine line) : Alike texts line := by
  constructor
  · intro f hf
    have hindex : index f < 7 := by fin_cases hf <;> decide
    have hnul : 0 ∉ value f (fieldOf line (index f)) := by
      intro hmem
      refine hplain.nul (index f) hindex ?_
      cases f with
      | password => exact (List.takeWhile_prefix _).subset hmem
      | age => exact (List.dropWhile_suffix _).subset ((List.tail_suffix _).subset hmem)
      | _ => exact hmem
    rw [h (index f) hindex, cstr_of_clean hnul]
  · intro i hi
    have hlt : i < 7 := by
      rcases List.mem_pair.mp hi with rfl | rfl <;> decide
    rw [h i hlt, Nat.mod_eq_of_lt (hplain.ids i hi).2]

/-- The entry of a record is the complete one of a line if the line is plain, and the record is
it or looks like it. -/
theorem complete_iff : Complete line (entryOf texts) ↔
    PlainLine line ∧ (Whole texts line ∨ Alike texts line) := by
  constructor
  · intro h
    have hname : cstr (texts.getD 0 []) = fieldOf line 0 := Option.some.inj h.name
    have hpasswd := Option.some.inj h.passwd
    have hage := Option.some.inj h.age
    have hgecos : cstr (texts.getD 4 []) = fieldOf line 4 := Option.some.inj h.gecos
    have hdir : cstr (texts.getD 5 []) = fieldOf line 5 := Option.some.inj h.dir
    have hshell : cstr (texts.getD 6 []) = fieldOf line 6 := Option.some.inj h.shell
    have hid : ∀ i ∈ [2, 3], IsId (fieldOf line i) (idOf (texts.getD i [])) := by
      intro i hi
      rcases List.mem_pair.mp hi with rfl | rfl
      · exact h.uid
      · exact h.gid
    have hnumber : ∀ i ∈ [2, 3], numberOf (fieldOf line i) = numberOf (texts.getD i []) % 2 ^ 32 := by
      intro i hi
      obtain ⟨hdigits, hvalue⟩ := hid i hi
      rw [numberOf, takeWhile_digits hdigits, hvalue, idOf_eq]
    have hdigit : ∀ i ∈ [2, 3], 0 ∉ fieldOf line i := fun i hi hmem =>
      absurd ((hid i hi).1 0 hmem) (by decide)
    have hsecond : 0 ∉ fieldOf line 1 := by
      intro hmem
      rw [← List.takeWhile_append_dropWhile (p := (· ≠ COMMA)) (l := fieldOf line 1)] at hmem
      rcases List.mem_append.mp hmem with hmem | hmem
      · have hbefore : 0 ∈ beforeComma (fieldOf line 1) := hmem
        rw [← hpasswd] at hbefore
        exact cstr_clean _ hbefore
      · cases hrest : (fieldOf line 1).dropWhile (· ≠ COMMA) with
        | nil =>
          rw [hrest] at hmem
          exact List.not_mem_nil hmem
        | cons c rest =>
          have hcomma : c = COMMA := not_not.mp (of_decide_eq_false (dropWhile_first hrest))
          have hafter : afterComma (fieldOf line 1) = rest := by rw [afterComma, hrest, List.tail_cons]
          rw [hrest, hcomma] at hmem
          rcases List.mem_cons.mp hmem with h0 | hmem
          · exact absurd h0 (by decide)
          · rw [← hafter, ← hage] at hmem
            exact cstr_clean _ hmem
    refine ⟨⟨fun i hi => ?_, fun i hi => ⟨(hid i hi).1, ?_⟩⟩, Or.inr ⟨fun f hf => ?_, fun i hi => ?_⟩⟩
    · interval_cases i
      · exact hname ▸ cstr_clean _
      · exact hsecond
      · exact hdigit 2 (by decide)
      · exact hdigit 3 (by decide)
      · exact hgecos ▸ cstr_clean _
      · exact hdir ▸ cstr_clean _
      · exact hshell ▸ cstr_clean _
    · rw [hnumber i hi]
      exact Nat.mod_lt _ (by decide)
    · fin_cases hf
      · exact hname
      · exact hpasswd
      · exact hage
      · exact hgecos
      · exact hdir
      · exact hshell
    · exact (hnumber i hi).symm
  · rintro ⟨hplain, hsame⟩
    have halike : Alike texts line := hsame.elim (fun h => alike_of_whole h hplain) id
    have hid : ∀ i ∈ [2, 3], IsId (fieldOf line i) (idOf (texts.getD i [])) := by
      intro i hi
      have hdigits := (hplain.ids i hi).1
      refine ⟨hdigits, ?_⟩
      rw [idOf_eq, halike.ids i hi, numberOf, takeWhile_digits hdigits]
    exact ⟨congrArg some (halike.strings .name (by decide)),
      congrArg some (halike.strings .password (by decide)),
      congrArg some (halike.strings .age (by decide)), hid 2 (by decide), hid 3 (by decide),
      congrArg some (halike.strings .gecos (by decide)),
      congrArg some (halike.strings .home (by decide)),
      congrArg some (halike.strings .shell (by decide))⟩

theorem record_line {k : ℕ} (h : (record k l).cut = false) :
    (record k l).texts = (lineText l).splitOn COLON ∧ (record k l).rest = afterLine l := by
  induction l generalizing k with
  | nil => exact ⟨rfl, rfl⟩
  | cons c fp ih =>
    unfold record at h ⊢
    rw [lineText, afterLine]
    by_cases hdrop : Dropped c fp
    · have hnewline : ¬ c = NEWLINE := by
        rw [hdrop.1]
        decide
      rw [if_pos hdrop] at h ⊢
      rw [if_pos hdrop, if_neg hnewline]
      exact ih h
    rw [if_neg hdrop] at h ⊢
    rw [if_neg hdrop]
    by_cases hcolon : c = COLON
    · subst hcolon
      rw [if_pos rfl] at h ⊢
      rw [if_neg (by decide), if_neg (by decide)]
      cases k with
      | zero => cases h
      | succ k =>
        obtain ⟨htexts, hrest⟩ := ih h
        refine ⟨?_, hrest⟩
        rw [List.splitOn, List.splitOnP_cons_eq_if_modifyHead, if_pos (by decide)]
        exact congrArg ([] :: ·) htexts
    rw [if_neg hcolon] at h ⊢
    by_cases hnewline : c = NEWLINE
    · rw [if_pos hnewline, if_pos hnewline, if_pos hnewline]
      exact ⟨rfl, rfl⟩
    · rw [if_neg hnewline] at h ⊢
      rw [if_neg hnewline, if_neg hnewline]
      obtain ⟨htexts, hrest⟩ := ih h
      refine ⟨?_, hrest⟩
      have hsplit : (lineText fp).splitOn COLON = (lineText fp).splitOnP (· == COLON) := rfl
      rw [List.splitOn, List.splitOnP_cons_eq_if_modifyHead,
        if_neg (fun hno => hcolon (beq_iff_eq.mp hno)), ← hsplit, ← htexts]
      rfl

theorem record_whole {k : ℕ} (l : List UInt8)
    (h : ((lineText l).splitOn COLON).length ≤ k + 1) : (record k l).cut = false := by
  induction l generalizing k with
  | nil => rfl
  | cons c fp ih =>
    rw [lineText] at h
    unfold record
    by_cases hdrop : Dropped c fp
    · rw [if_pos hdrop] at h ⊢
      exact ih h
    rw [if_neg hdrop] at h ⊢
    by_cases hcolon : c = COLON
    · subst hcolon
      rw [if_neg (by decide), List.splitOn, List.splitOnP_cons_eq_if_modifyHead, if_pos (by decide),
        List.length_cons] at h
      rw [if_pos rfl]
      cases k with
      | zero =>
        have hpos : 0 < ((lineText fp).splitOnP (· == COLON)).length :=
          List.length_pos_iff.mpr (List.splitOnP_ne_nil _ _)
        omega
      | succ k => exact ih (Nat.le_of_succ_le_succ h)
    rw [if_neg hcolon]
    by_cases hnewline : c = NEWLINE
    · rw [if_pos hnewline]
    · rw [if_neg hnewline] at h ⊢
      rw [List.splitOn, List.splitOnP_cons_eq_if_modifyHead,
        if_neg (fun hno => hcolon (beq_iff_eq.mp hno)), List.length_modifyHead] at h
      exact ih h

theorem recordsFrom_lines (turns : ℕ) (fp : List UInt8)
    (h : ∀ line ∈ linesFrom turns fp, (line.splitOn COLON).length ≤ 7) :
    (∀ r ∈ recordsFrom turns fp, r.cut = false) ∧
      (recordsFrom turns fp).map Record.texts = (linesFrom turns fp).map (List.splitOn COLON) := by
  induction turns generalizing fp with
  | zero => exact ⟨fun r hr => absurd hr List.not_mem_nil, rfl⟩
  | succ turns ih =>
    rw [linesFrom] at h ⊢
    rw [recordsFrom]
    cases hskip : skip false fp with
    | none => exact ⟨fun r hr => absurd hr List.not_mem_nil, rfl⟩
    | some l =>
      rw [hskip] at h
      have hcut := record_whole l (h _ List.mem_cons_self)
      obtain ⟨htexts, hrest⟩ := record_line hcut
      obtain ⟨hcuts, hmap⟩ := ih (afterLine l) fun line hline => h line (List.mem_cons_of_mem _ hline)
      simp only [List.map_cons]
      rw [hrest, htexts, hmap]
      exact ⟨List.forall_mem_cons.mpr ⟨hcut, hcuts⟩, rfl⟩

theorem needed_dropLast_le (kinds : List Bool) (ws : List Str) :
    needed kinds ws.dropLast ≤ needed kinds ws := by
  induction ws generalizing kinds with
  | nil => exact le_refl _
  | cons w ws ih =>
    cases kinds with
    | nil => cases ws <;> exact le_refl _
    | cons stored kinds =>
      cases ws with
      | nil => exact Nat.zero_le _
      | cons w' ws =>
        rw [List.dropLast_cons_of_ne_nil (List.cons_ne_nil w' ws), needed, needed]
        exact Nat.add_le_add_left (ih kinds) _

end Lines

section Lookup

variable {name : Str} {buflen turns : ℕ} {fp l file : List UInt8} {r : Record}

theorem rest_shorter (hskip : skip false fp = some l) (h : fp.length < turns + 1) :
    (record 6 l).rest.length < turns := by
  obtain ⟨c, l', hl, -⟩ := skip_first hskip
  have hshorter : (record 6 l).rest.length < l.length :=
    record_rest 6 (hl ▸ List.cons_ne_nil c l')
  have hle : l.length ≤ fp.length := (skip_suffix hskip).length_le
  omega

theorem search_eof (hskip : skip false fp = none) : search name buflen (turns + 1) fp = .ok none := by
  simp only [search, fgetpwentR, hskip]

theorem search_fault (hskip : skip false fp = some l) (h : ¬ Holds buflen (record 6 l)) :
    ∃ fault, search name buflen (turns + 1) fp = .error fault := by
  obtain ⟨hover, hentry⟩ := fgetpwent_r_record hskip buflen
  by_cases hroom : needed allKinds (ended (record 6 l).cut (record 6 l).texts) ≤ buflen
  · obtain ⟨pw, hread, hname, -⟩ := hentry hroom
    rw [if_neg fun hlt => h ⟨hroom, hlt⟩] at hname
    refine ⟨.null, ?_⟩
    simp only [search, hread, hname]
  · refine ⟨.outside, ?_⟩
    simp only [search, hover (not_le.mp hroom)]

variable (name turns) in
theorem search_step (hskip : skip false fp = some l) (h : Holds buflen (record 6 l)) : ∃ pw,
    (needed allKinds (record 6 l).texts ≤ buflen → pw = entryOf (record 6 l).texts) ∧
      (buflen < needed allKinds (record 6 l).texts → HasNull pw) ∧
      search name buflen (turns + 1) fp = if Matches name (record 6 l) then .ok (some pw)
        else search name buflen turns (record 6 l).rest := by
  obtain ⟨-, hentry⟩ := fgetpwent_r_record hskip buflen
  obtain ⟨pw, hread, hname, hfit, hnull⟩ := hentry h.1
  rw [if_pos h.2] at hname
  refine ⟨pw, hfit, hnull, ?_⟩
  simp only [search, hread, hname]
  rfl

theorem search_unclear (hlen : fp.length < turns)
    (h : ¬ Clear name buflen (recordsFrom turns fp)) :
    ∃ fault, search name buflen turns fp = .error fault := by
  induction turns generalizing fp with
  | zero => exact absurd hlen (Nat.not_lt_zero _)
  | succ turns ih =>
    rw [recordsFrom] at h
    cases hskip : skip false fp with
    | none =>
      rw [hskip] at h
      exact absurd trivial h
    | some l =>
      rw [hskip] at h
      by_cases hholds : Holds buflen (record 6 l)
      · obtain ⟨pw, -, -, hsearch⟩ := search_step name turns hskip hholds
        have hno : ¬ Matches name (record 6 l) := fun hm => h ⟨hholds, Or.inl hm⟩
        rw [hsearch, if_neg hno]
        exact ih (rest_shorter hskip hlen) fun hclear => h ⟨hholds, Or.inr hclear⟩
      · exact search_fault hskip hholds

theorem search_clear (hlen : fp.length < turns) (h : Clear name buflen (recordsFrom turns fp)) :
    ∃ found, search name buflen turns fp = .ok found ∧
      ((recordsFrom turns fp).find? (Matches name) = none → found = none) ∧
      ∀ r, (recordsFrom turns fp).find? (Matches name) = some r → ∃ pw, found = some pw ∧
        (needed allKinds r.texts ≤ buflen → pw = entryOf r.texts) ∧
        (buflen < needed allKinds r.texts → HasNull pw) := by
  induction turns generalizing fp with
  | zero => exact absurd hlen (Nat.not_lt_zero _)
  | succ turns ih =>
    cases hskip : skip false fp with
    | none =>
      have hnil : recordsFrom (turns + 1) fp = [] := by rw [recordsFrom, hskip]
      rw [hnil]
      exact ⟨none, search_eof hskip, fun _ => rfl, fun r hr => by cases hr⟩
    | some l =>
      have hcons : recordsFrom (turns + 1) fp =
          record 6 l :: recordsFrom turns (record 6 l).rest := by rw [recordsFrom, hskip]
      rw [hcons] at h ⊢
      obtain ⟨hholds, hrest⟩ := h
      obtain ⟨pw, hfit, hnull, hsearch⟩ := search_step name turns hskip hholds
      rw [hsearch]
      by_cases hm : Matches name (record 6 l)
      · rw [if_pos hm, List.find?_cons_of_pos (by simpa using hm)]
        refine ⟨some pw, rfl, fun hno => absurd hno (Option.some_ne_none _), fun r hr => ?_⟩
        obtain rfl := Option.some.inj hr
        exact ⟨pw, rfl, hfit, hnull⟩
      · rw [if_neg hm, List.find?_cons_of_neg (by simpa using hm)]
        exact ih (rest_shorter hskip hlen) (hrest.resolve_left hm)

theorem Complete.not_null {line : Str} {pw : Passwd} (h : Complete line pw) : ¬ HasNull pw := by
  unfold HasNull
  rw [h.name, h.passwd, h.age, h.gecos, h.dir, h.shell]
  simp only [reduceCtorEq, or_self, not_false_eq_true]

theorem getpwnam_r_of_search {found : Option Passwd} (errno : ℤ)
    (h : search name buflen (file.length + 1) file = .ok found) :
    getpwnamR name (.ok file) buflen errno =
      .ok ⟨if found.isSome then 0 else -1, errno, found⟩ := by
  rw [getpwnamR, h]
  rfl

theorem not_range {found : Option Passwd} :
    ¬ ((if found.isSome then 0 else -1) = ERANGE ∨ (0 : ℤ) = ERANGE) := by
  cases found with
  | none => decide
  | some pw =>
    show ¬ ((0 : ℤ) = ERANGE ∨ (0 : ℤ) = ERANGE)
    decide

theorem clear_of_holds {rs : List Record} (h : ∀ r ∈ rs, Holds buflen r) :
    Clear name buflen rs := by
  induction rs with
  | nil => trivial
  | cons r rs ih =>
    exact ⟨h r List.mem_cons_self, Or.inr (ih fun r hr => h r (List.mem_cons_of_mem _ hr))⟩

theorem fits_of_ordinary (name : Str) (h : Ordinary file buflen) : Fits name file buflen := by
  obtain ⟨hcut, hlines⟩ := recordsFrom_lines (file.length + 1) file fun line hline =>
    (h line hline).2.1
  have hline : ∀ r ∈ records file, ∃ line ∈ lines file, line.splitOn COLON = r.texts := by
    intro r hr
    have hmem : r.texts ∈ (records file).map Record.texts := List.mem_map.mpr ⟨r, hr, rfl⟩
    rw [records, hlines] at hmem
    exact List.mem_map.mp hmem
  have hfits : ∀ r ∈ records file, needed allKinds r.texts ≤ buflen := by
    intro r hr
    obtain ⟨line, hmem, htexts⟩ := hline r hr
    exact htexts ▸ (h line hmem).2.2
  refine ⟨clear_of_holds fun r hr => ?_, fun r hr => ?_, fun line hfound => ?_⟩
  · have hall := hfits r hr
    have hended : needed allKinds (ended r.cut r.texts) ≤ needed allKinds r.texts := by
      rw [hcut r hr]
      exact needed_dropLast_le _ _
    have hname : r.first.length + 1 ≤ needed allKinds r.texts := Nat.le_add_right _ _
    exact ⟨hended.trans hall, by omega⟩
  · have hmem := List.mem_of_find?_eq_some hr
    have hmatch : Matches name r :=
      of_decide_eq_true (List.find?_some (p := fun r => decide (Matches name r)) hr)
    obtain ⟨line, hin, htexts⟩ := hline r hmem
    have hplain := (h line hin).1
    have hfirst : fieldOf line 0 = r.first := by
      rw [fieldOf, htexts]
      rfl
    have hname : fieldOf line 0 = name := by
      rw [← cstr_of_clean (hplain.nul 0 (by decide)), hfirst]
      exact hmatch
    exact ⟨hfits r hmem, line, hin, hname, hplain, Or.inl fun i _ => by rw [fieldOf, htexts]⟩
  · exact (h line (List.mem_of_find?_eq_some hfound)).2.2

theorem finds_iff_fits (name : Str) (file : List UInt8) (buflen : ℕ) :
    Finds name file buflen ↔ Fits name file buflen := by
  have hlen : file.length < file.length + 1 := Nat.lt_succ_self _
  by_cases hclear : Clear name buflen (records file)
  · obtain ⟨found, hsearch, hnone, hsome⟩ := search_clear hlen hclear
    have hreply := getpwnam_r_of_search 0 hsearch
    constructor
    · rintro ⟨reply, hok, hcomplete, hrange⟩
      obtain rfl := Except.ok.inj (hreply.symm.trans hok)
      refine ⟨hclear, fun r hr => ?_, fun line hline => ?_⟩
      · obtain ⟨pw, rfl, hfit, hnull⟩ := hsome r hr
        obtain ⟨line, hmem, hname, hall⟩ := hcomplete pw rfl
        have hroom : needed allKinds r.texts ≤ buflen :=
          not_lt.mp fun hshort => hall.not_null (hnull hshort)
        exact ⟨hroom, line, hmem, hname, complete_iff.mp (hfit hroom ▸ hall)⟩
      · exact not_lt.mp fun hshort => not_range (hrange line hline hshort).2
    · rintro ⟨-, hfound, hwanted⟩
      refine ⟨_, hreply, fun pw hpw => ?_, fun line hline hshort => ?_⟩
      · cases hfind : (records file).find? (Matches name) with
        | none =>
          have hno : found = none := hnone hfind
          rw [hno] at hpw
          cases hpw
        | some r =>
          obtain ⟨hroom, line, hmem, hname, hall⟩ := hfound r hfind
          obtain ⟨pw', hpw', hfit, -⟩ := hsome r hfind
          obtain rfl : pw = pw' := Option.some.inj (hpw.symm.trans hpw')
          exact ⟨line, hmem, hname, hfit hroom ▸ complete_iff.mpr hall⟩
      · exact absurd (hwanted line hline) (not_le.mpr hshort)
  · obtain ⟨fault, hsearch⟩ := search_unclear hlen hclear
    refine iff_of_false ?_ fun h => hclear h.clear
    rintro ⟨reply, hok, -⟩
    rw [getpwnamR, hsearch] at hok
    cases hok

end Lookup

/-- The call finds complete entries, and nothing else, under the condition only; with an ordinary
file and room for its lines it does for every name. -/
theorem finds_iff (name : Str) (file : List UInt8) (buflen : ℕ) :
    (Finds name file buflen ↔ Fits name file buflen) ∧
      (Ordinary file buflen → Finds name file buflen) :=
  ⟨finds_iff_fits name file buflen, fun h =>
    (finds_iff_fits name file buflen).mpr (fits_of_ordinary name h)⟩

/-- `ab:x:1:2:c:/:s` -/
def demoFile : List UInt8 := [97, 98, 58, 120, 58, 49, 58, 50, 58, 99, 58, 47, 58, 115, 10]

/-- With ten bytes the call succeeds, and the shell is a `NULL` pointer. -/
theorem short_success : getpwnamR [97, 98] (.ok demoFile) 10 0 =
      .ok ⟨0, 0, some ⟨some [97, 98], some [120], 1, 2, some [], some [99], some [99], some [47],
        none⟩⟩ ∧ ¬ Finds [97, 98] demoFile 10 := by
  have hcall : getpwnamR [97, 98] (.ok demoFile) 10 0 = .ok ⟨0, 0, some ⟨some [97, 98],
      some [120], 1, 2, some [], some [99], some [99], some [47], none⟩⟩ := by decide +kernel
  refine ⟨hcall, ?_⟩
  rintro ⟨reply, hok, hcomplete, -⟩
  obtain rfl := Except.ok.inj (hcall.symm.trans hok)
  obtain ⟨line, -, -, hall⟩ := hcomplete _ rfl
  have hshell := hall.shell
  cases hshell

end Mintlib.PwdLookup
