import Mintlib.Entry

/-!
# The password file: `putpwent.c` and `fgetpwent_r.c`

`putpwent` writes an entry as one line. `fgetpwent_r` reads it with a state machine, one
character after the other, and copies the strings into the buffer of its caller. `none`
stands for a store outside of that buffer.
-/

namespace Mintlib.Pwd

open Text Entry

/-- The strings are `none` for a `NULL` pointer; the ids are 32 bits wide. -/
structure Passwd where
  pw_name : Option Str
  pw_passwd : Option Str
  pw_uid : ℕ
  pw_gid : ℕ
  pw_age : Option Str
  pw_comment : Option Str
  pw_gecos : Option Str
  pw_dir : Option Str
  pw_shell : Option Str
  deriving DecidableEq

/-- The bytes that are written; no string but `pw_age` may be `NULL`. -/
def putpwent (p : Passwd) : Option Str := do
  let name ← p.pw_name
  let passwd ← p.pw_passwd
  let gecos ← p.pw_gecos
  let dir ← p.pw_dir
  let shell ← p.pw_shell
  let age := p.pw_age.getD []
  let ids := printLong p.pw_uid ++ COLON :: printLong p.pw_gid
  let strings := gecos ++ COLON :: dir ++ COLON :: shell ++ [NEWLINE]
  if passwd = [] ∨ age = [] then some (name ++ COLON :: passwd ++ COLON :: ids ++ COLON :: strings)
  else some (name ++ COLON :: passwd ++ COMMA :: age ++ COLON :: ids ++ COLON :: strings)

/-- `enum parse_state`, without `init`. -/
inductive ParseState
  | name | password | age | uid | gid | gecos | home | shell | finished
  deriving DecidableEq

/-- `++state`. -/
def ParseState.next : ParseState → ParseState
  | name => password
  | password => age
  | age => uid
  | uid => gid
  | gid => gecos
  | gecos => home
  | home => shell
  | shell => finished
  | finished => finished

/-- `fields[state] != NULL`. -/
def ParseState.isField : ParseState → Bool
  | uid | gid | finished => false
  | _ => true

/-- A string pointer of `result_buf`: `NULL`, the static empty string, or into the buffer. -/
inductive Ptr
  | null
  | space
  | buffer (p : ℕ)
  deriving DecidableEq

structure St where
  state : ParseState
  /-- The bytes before `write_crs`; there are `bytes_used` of them. -/
  written : List UInt8
  ptr : ParseState → Ptr
  pw_uid : ℕ
  pw_gid : ℕ
  numerical_error : Bool

section Machine

variable (buflen : ℕ)

/-- `*write_crs++ = c; bytes_used++`. -/
def St.store (st : St) (c : UInt8) : Option St :=
  if st.written.length < buflen then some { st with written := st.written ++ [c] } else none

/-- `fields[state] != NULL && *fields[state] != NULL`. -/
def St.open (st : St) : Prop := st.state.isField = true ∧ st.ptr st.state ≠ .null

instance (st : St) : Decidable st.open := inferInstanceAs (Decidable (_ ∧ _))

/-- The next state, and `*fields[state] = write_crs` if there is room. -/
def St.enter (st : St) (state : ParseState) : St :=
  { st with
    state := state
    ptr := if st.written.length < buflen ∧ state.isField = true then
        Function.update st.ptr state (.buffer st.written.length)
      else st.ptr }

/-- `':'`. -/
def colon (st : St) : Option St := do
  let st ← if st.open then st.store buflen 0 else some st
  let state := if st.state.next = .age then .uid else st.state.next
  some { st.enter buflen state with numerical_error := false }

/-- `'\n'` or the end of the stream. -/
def endOfLine (st : St) : Option St :=
  if st.written.length < buflen ∧ st.open then
    (st.store buflen 0).map fun st => { st with state := .finished }
  else if st.state.isField then
    some { st with state := .finished, ptr := Function.update st.ptr st.state .null }
  else some { st with state := .finished }

/-- One more digit of an id; the second component is `numerical_error`. -/
def digitOf (id : ℕ) (error : Bool) (c : UInt8) : ℕ × Bool :=
  if ¬ IsDigit c then (id, true)
  else if error then (id, error)
  else (more id c % 2 ^ 32, error)

def other (st : St) (c : UInt8) : Option St := do
  let st ← if st.written.length < buflen ∧ st.open then st.store buflen c else some st
  match st.state with
  | .uid =>
    let (id, error) := digitOf st.pw_uid st.numerical_error c
    some { st with pw_uid := id, numerical_error := error }
  | .gid =>
    let (id, error) := digitOf st.pw_gid st.numerical_error c
    some { st with pw_gid := id, numerical_error := error }
  | .password =>
    if c = COMMA then
      -- `write_crs[-1] = '\0'` takes the comma back, or what was written last
      if st.open then
        if st.written = [] then none
        else some (St.enter buflen { st with written := st.written.dropLast ++ [0] } .age)
      else some (st.enter buflen .age)
    else some st
  | _ => some st

def run (st : St) : List UInt8 → Option (St × List UInt8)
  | [] => (endOfLine buflen st).map fun st => (st, [])
  | c :: fp =>
    if Dropped c fp then run st fp
    else do
      let st ←
        if c = COLON then colon buflen st
        else if c = NEWLINE then endOfLine buflen st
        else other buflen st c
      if st.state = .finished then some (st, fp) else run st fp

end Machine

def St.str (st : St) (field : ParseState) : Option Str :=
  match st.ptr field with
  | .null => none
  | .space => some []
  | .buffer p => some (cstr (st.written.drop p))

def St.passwd (st : St) : Passwd where
  pw_name := st.str .name
  pw_passwd := st.str .password
  pw_uid := st.pw_uid
  pw_gid := st.pw_gid
  pw_age := st.str .age
  pw_comment := st.str .gecos
  pw_gecos := st.str .gecos
  pw_dir := st.str .home
  pw_shell := st.str .shell

def start (buffer : Ptr) : St :=
  ⟨.name, [], Function.update (fun _ => .space) .name buffer, 0, 0, false⟩

inductive Result
  | efault
  | eof
  | entry (result_buf : Passwd)
  deriving DecidableEq

/-- `stream` and `buffer` are `none` for `NULL`; a buffer is given by its length. The
second component is what is left of the stream. -/
def fgetpwentR (stream : Option (List UInt8)) (buffer : Option ℕ) :
    Option (Result × List UInt8) :=
  match stream with
  | none => some (.efault, [])
  | some fp =>
    match skip false fp with
    | none => some (.eof, [])
    | some fp => do
      let (st, fp) ← match buffer with
        | none => run 0 (start .null) fp
        | some buflen => run buflen (start (.buffer 0)) fp
      some (.entry st.passwd, fp)

section Steps

variable {b : ℕ} {st st' : St} {c : UInt8} {w s : Str} {fp : List UInt8} {f g : ParseState}

def Plain (c : UInt8) : Prop := c ≠ 0 ∧ c ≠ CR ∧ c ≠ COLON ∧ c ≠ NEWLINE

instance (c : UInt8) : Decidable (Plain c) := inferInstanceAs (Decidable (_ ∧ _))

def consume (b : ℕ) (c : UInt8) (st : St) : Option St :=
  match st.state with
  | .uid => some { st with
      pw_uid := (digitOf st.pw_uid st.numerical_error c).1
      numerical_error := (digitOf st.pw_uid st.numerical_error c).2 }
  | .gid => some { st with
      pw_gid := (digitOf st.pw_gid st.numerical_error c).1
      numerical_error := (digitOf st.pw_gid st.numerical_error c).2 }
  | .password =>
    if c = COMMA then
      if st.open then
        if st.written = [] then none
        else some (St.enter b { st with written := st.written.dropLast ++ [0] } .age)
      else some (st.enter b .age)
    else some st
  | _ => some st

theorem other_eq (b : ℕ) (st : St) (c : UInt8) : other b st c =
    (if st.written.length < b ∧ st.open then st.store b c else some st).bind (consume b c) := by
  have htail : ∀ st : St, (match st.state with
      | .uid =>
        let (id, error) := digitOf st.pw_uid st.numerical_error c
        some { st with pw_uid := id, numerical_error := error }
      | .gid =>
        let (id, error) := digitOf st.pw_gid st.numerical_error c
        some { st with pw_gid := id, numerical_error := error }
      | .password =>
        if c = COMMA then
          if st.open then
            if st.written = [] then none
            else some (St.enter b { st with written := st.written.dropLast ++ [0] } .age)
          else some (st.enter b .age)
        else some st
      | _ => some st) = consume b c st := by
    intro st
    unfold consume
    cases hs : st.state <;> rfl
  unfold other
  by_cases hroom : st.written.length < b ∧ st.open
  · rw [if_pos hroom, if_pos hroom]
    cases st.store b c with
    | none => rfl
    | some st₁ => exact htail st₁
  · rw [if_neg hroom, if_neg hroom]
    exact htail st

theorem run_other (hc : Plain c) (h : other b st c = some st') (hs : st'.state ≠ .finished) :
    run b st (c :: fp) = run b st' fp := by
  obtain ⟨-, hcr, hcolon, hnewline⟩ := hc
  have hdrop : ¬ Dropped c fp := fun h => hcr h.1
  simp only [run, if_neg hdrop, if_neg hcolon, if_neg hnewline, h, Option.bind_eq_bind,
    Option.bind_some, if_neg hs]

theorem run_colon (h : colon b st = some st') (hs : st'.state ≠ .finished) :
    run b st (COLON :: fp) = run b st' fp := by
  have hdrop : ¬ Dropped COLON fp := fun h => absurd h.1 (by decide)
  simp only [run, if_neg hdrop, if_true, h, Option.bind_eq_bind, Option.bind_some, if_neg hs]

theorem run_newline (h : endOfLine b st = some st') (hs : st'.state = .finished) :
    run b st (NEWLINE :: fp) = some (st', fp) := by
  have hdrop : ¬ Dropped NEWLINE fp := fun h => absurd h.1 (by decide)
  have hne : ¬ NEWLINE = COLON := by decide
  simp only [run, if_neg hdrop, if_neg hne, if_true, h, Option.bind_eq_bind, Option.bind_some,
    if_pos hs]

theorem store_eq (hroom : st.written.length < b) :
    st.store b c = some { st with written := st.written ++ [c] } := if_pos hroom

theorem other_string (hopen : st.open) (hroom : st.written.length < b)
    (hc : st.state = .password → c ≠ COMMA) :
    other b st c = some { st with written := st.written ++ [c] } := by
  have hfield := hopen.1
  simp only [other, if_pos (And.intro hroom hopen), store_eq hroom, Option.bind_eq_bind,
    Option.bind_some]
  cases hs : st.state with
  | password => rw [if_neg (hc hs)]
  | uid | gid =>
    rw [hs] at hfield
    exact absurd hfield (by decide)
  | _ => rfl

def feed (b : ℕ) (st : St) (w : Str) : Option St := w.foldlM (other b) st

theorem other_running (h : other b st c = some st') (hs : st.state ≠ .finished) :
    st'.state ≠ .finished := by
  rw [other_eq, Option.bind_eq_some_iff] at h
  obtain ⟨st₁, hstore, hconsume⟩ := h
  have hs₁ : st₁.state ≠ .finished := by
    unfold St.store at hstore
    split_ifs at hstore
    · cases hstore
      exact hs
    · cases hstore
      exact hs
  unfold consume at hconsume
  split at hconsume
  · cases hconsume
    exact hs₁
  · cases hconsume
    exact hs₁
  · split_ifs at hconsume
    · cases hconsume
      exact ParseState.noConfusion
    · cases hconsume
      exact ParseState.noConfusion
    · cases hconsume
      exact hs₁
  · cases hconsume
    exact hs₁

theorem St.open.running (h : st.open) : st.state ≠ .finished := by
  intro hs
  have := h.1
  rw [hs] at this
  exact absurd this (by decide)

theorem run_feed (hw : ∀ c ∈ w, Plain c) (hs : st.state ≠ .finished)
    (h : feed b st w = some st') : run b st (w ++ fp) = run b st' fp := by
  induction w generalizing st with
  | nil =>
    cases h
    rfl
  | cons c w ih =>
    obtain ⟨st₁, hother, hrest⟩ := Option.bind_eq_some_iff.mp h
    have hs₁ := other_running hother hs
    rw [List.cons_append, run_other (hw c List.mem_cons_self) hother hs₁]
    exact ih (fun c h => hw c (List.mem_cons_of_mem _ h)) hs₁ hrest

theorem feed_string (hopen : st.open) (hroom : st.written.length + w.length ≤ b)
    (hcomma : st.state = .password → COMMA ∉ w) :
    feed b st w = some { st with written := st.written ++ w } := by
  induction w generalizing st with
  | nil =>
    rw [List.append_nil]
    rfl
  | cons c w ih =>
    rw [List.length_cons] at hroom
    have hstep : other b st c = some { st with written := st.written ++ [c] } :=
      other_string hopen (by omega) fun hs h => hcomma hs (h ▸ List.mem_cons_self)
    have hroom' : (st.written ++ [c]).length + w.length ≤ b := by
      rw [List.length_append, List.length_singleton]
      omega
    have hrest : feed b { st with written := st.written ++ [c] } w =
        some { st with written := st.written ++ [c] ++ w } :=
      ih hopen hroom' fun hs h => hcomma hs (List.mem_cons_of_mem _ h)
    show (other b st c).bind _ = _
    rw [hstep, Option.bind_some]
    refine hrest.trans ?_
    rw [List.append_assoc, List.singleton_append]

def readId (id : ℕ × Bool) (w : Str) : ℕ × Bool := w.foldl (fun p c => digitOf p.1 p.2 c) id

theorem other_uid (hs : st.state = .uid) (c : UInt8) : other b st c = some { st with
    pw_uid := (digitOf st.pw_uid st.numerical_error c).1
    numerical_error := (digitOf st.pw_uid st.numerical_error c).2 } := by
  have hopen : ¬ st.open := fun h => by
    have := h.1
    rw [hs] at this
    exact absurd this (by decide)
  simp only [other, if_neg fun h : _ ∧ st.open => hopen h.2, Option.bind_eq_bind,
    Option.bind_some, hs]

theorem other_gid (hs : st.state = .gid) (c : UInt8) : other b st c = some { st with
    pw_gid := (digitOf st.pw_gid st.numerical_error c).1
    numerical_error := (digitOf st.pw_gid st.numerical_error c).2 } := by
  have hopen : ¬ st.open := fun h => by
    have := h.1
    rw [hs] at this
    exact absurd this (by decide)
  simp only [other, if_neg fun h : _ ∧ st.open => hopen h.2, Option.bind_eq_bind,
    Option.bind_some, hs]

theorem feed_uid (hs : st.state = .uid) (w : Str) : feed b st w = some { st with
    pw_uid := (readId (st.pw_uid, st.numerical_error) w).1
    numerical_error := (readId (st.pw_uid, st.numerical_error) w).2 } := by
  induction w generalizing st with
  | nil => rfl
  | cons c w ih =>
    show (other b st c).bind _ = _
    rw [other_uid hs c]
    exact ih hs

theorem feed_gid (hs : st.state = .gid) (w : Str) : feed b st w = some { st with
    pw_gid := (readId (st.pw_gid, st.numerical_error) w).1
    numerical_error := (readId (st.pw_gid, st.numerical_error) w).2 } := by
  induction w generalizing st with
  | nil => rfl
  | cons c w ih =>
    show (other b st c).bind _ = _
    rw [other_gid hs c]
    exact ih hs

theorem printLong_plain {n : ℕ} (hc : c ∈ printLong n) : Plain c := by
  have hdigit : ∀ c, IsDigit c → Plain c := by
    rintro c ⟨h1, h2⟩
    have h1 : 48 ≤ c.toNat := UInt8.le_iff_toNat_le.mp h1
    have h2 : c.toNat ≤ 57 := UInt8.le_iff_toNat_le.mp h2
    have hne : ∀ d : UInt8, d.toNat < 48 ∨ 57 < d.toNat → c ≠ d := by
      rintro d hd rfl
      omega
    exact ⟨hne _ (by decide), hne _ (by decide), hne _ (by decide), hne _ (by decide)⟩
  unfold printLong at hc
  by_cases hn : n < 2 ^ 31
  · rw [if_pos hn] at hc
    exact hdigit c (decimal_isDigit hc)
  · rw [if_neg hn, List.mem_cons] at hc
    rcases hc with rfl | hc
    · decide
    · exact hdigit c (decimal_isDigit hc)

theorem readId_error (id : ℕ) (w : Str) : readId (id, true) w = (id, true) := by
  induction w with
  | nil => rfl
  | cons c w ih =>
    have hstep : digitOf id true c = (id, true) := by
      unfold digitOf
      by_cases hc : ¬ IsDigit c
      · rw [if_pos hc]
      · rw [if_neg hc, if_pos rfl]
    show readId (digitOf id true c) w = _
    rw [hstep, ih]

theorem readId_digits {acc : ℕ} (hw : ∀ c ∈ w, IsDigit c) :
    readId (acc, false) w = (w.foldl (fun a c => more a c % 2 ^ 32) acc, false) := by
  induction w generalizing acc with
  | nil => rfl
  | cons c w ih =>
    have hstep : digitOf acc false c = (more acc c % 2 ^ 32, false) := by
      rw [digitOf, if_neg (not_not.mpr (hw c List.mem_cons_self)), if_neg (by decide)]
    show readId (digitOf acc false c) w = _
    rw [hstep, ih fun c h => hw c (List.mem_cons_of_mem _ h)]
    rfl

/-- An id is read back unless it is printed with a sign; then nothing of it is read. -/
theorem readId_printLong {n : ℕ} :
    (readId (0, false) (printLong n)).1 = if n < 2 ^ 31 then n else 0 := by
  unfold printLong
  by_cases hn : n < 2 ^ 31
  · rw [if_pos hn, if_pos hn, readId_digits fun _ => decimal_isDigit]
    have hmod := foldl_more_mod (2 ^ 32) 0 (decimal n)
    rw [Nat.zero_mod, foldl_more_decimal, Nat.mod_eq_of_lt (by omega)] at hmod
    exact hmod
  · rw [if_neg hn, if_neg hn]
    show (readId (0, true) _).1 = 0
    rw [readId_error]

end Steps

section Fields

variable {b : ℕ} {st st' : St} {w s : Str} {fp : List UInt8} {f g : ParseState}

/-- The string of the field `f` is in the buffer, with its NUL. -/
def Stored (st : St) (f : ParseState) (s : Str) : Prop :=
  ∃ pre post, st.ptr f = .buffer pre.length ∧ st.written = pre ++ (s ++ 0 :: post)

theorem Stored.str (h : Stored st f s) (hs : 0 ∉ s) : st.str f = some s := by
  obtain ⟨pre, post, hptr, hwritten⟩ := h
  unfold St.str
  simp only [hptr, hwritten, List.drop_left, cstr_append hs]

theorem Stored.mono (h : Stored st f s) (hptr : st'.ptr f = st.ptr f)
    (hwritten : st.written <+: st'.written) : Stored st' f s := by
  obtain ⟨pre, post, hptr', hw⟩ := h
  obtain ⟨t, ht⟩ := hwritten
  refine ⟨pre, post ++ t, by rw [hptr, hptr'], ?_⟩
  rw [← ht, hw, List.append_assoc, List.append_assoc, List.cons_append]

/-- The string `w` of the current field has been read and the field `f` begins. -/
structure Field (b : ℕ) (st st' : St) (w : Str) (f : ParseState) : Prop where
  state : st'.state = f
  written : st'.written = st.written ++ w ++ [0]
  stored : Stored st' st.state w
  ptr : ∀ g, g ≠ f → st'.ptr g = st.ptr g
  opened : f.isField = true → st'.written.length < b → st'.ptr f = .buffer st'.written.length
  uid : st'.pw_uid = st.pw_uid
  gid : st'.pw_gid = st.pw_gid
  error : st.numerical_error = false → st'.numerical_error = false

theorem Field.mono (h : Field b st st' w f) (hs : Stored st g s) (hg : g ≠ f) : Stored st' g s :=
  hs.mono (h.ptr g hg) ⟨w ++ [0], by rw [h.written, List.append_assoc]⟩

theorem Field.length (h : Field b st st' w f) :
    st'.written.length = st.written.length + w.length + 1 := by
  rw [h.written, List.length_append, List.length_append, List.length_singleton]

/-- Every way to end a string: `st'` differs from `enter` in `numerical_error` at most. -/
theorem field_of_enter (hptr : st.ptr st.state = .buffer st.written.length) (hf : f ≠ st.state)
    (hstate : st'.state = f) (hwritten : st'.written = st.written ++ w ++ [0])
    (hnew : st'.ptr = (St.enter b { st with written := st.written ++ w ++ [0] } f).ptr)
    (hids : st'.pw_uid = st.pw_uid ∧ st'.pw_gid = st.pw_gid)
    (herr : st.numerical_error = false → st'.numerical_error = false) :
    Field b st st' w f := by
  have hothers : ∀ g, g ≠ f → st'.ptr g = st.ptr g := by
    intro g hg
    rw [hnew]
    show (if _ then Function.update st.ptr f _ else st.ptr) g = st.ptr g
    by_cases hroom : (st.written ++ w ++ [0]).length < b ∧ f.isField = true
    · rw [if_pos hroom, Function.update_of_ne hg]
    · rw [if_neg hroom]
  refine ⟨hstate, hwritten, ⟨st.written, [], ?_, ?_⟩, hothers, fun hfield hroom => ?_, hids.1,
    hids.2, herr⟩
  · rw [hothers _ (Ne.symm hf), hptr]
  · rw [hwritten, List.append_assoc]
  · rw [hwritten] at hroom ⊢
    rw [hnew]
    show (if _ then Function.update st.ptr f _ else st.ptr) f = _
    rw [if_pos ⟨hroom, hfield⟩, Function.update_self]

theorem run_field (fp : List UInt8) (hptr : st.ptr st.state = .buffer st.written.length)
    (hfield : st.state.isField = true) (hroom : st.written.length + w.length < b)
    (hw : ∀ c ∈ w, Plain c) (hcomma : st.state = .password → COMMA ∉ w)
    (hnext : f = if st.state.next = .age then .uid else st.state.next)
    (hf : f ≠ .finished ∧ f ≠ st.state) :
    ∃ st', run b st (w ++ COLON :: fp) = run b st' fp ∧ Field b st st' w f := by
  have hopen : st.open := ⟨hfield, by rw [hptr]; exact Ptr.noConfusion⟩
  have hstore : St.store b { st with written := st.written ++ w } 0 =
      some { st with written := st.written ++ w ++ [0] } := by
    refine store_eq ?_
    rw [List.length_append]
    exact hroom
  have hopen' : St.open { st with written := st.written ++ w } := hopen
  have hcolon : colon b { st with written := st.written ++ w } = some
      { (St.enter b { st with written := st.written ++ w ++ [0] } f) with
        numerical_error := false } := by
    simp only [colon, if_pos hopen', hstore, Option.bind_eq_bind, Option.bind_some, ← hnext]
  refine ⟨{ (St.enter b { st with written := st.written ++ w ++ [0] } f) with
    numerical_error := false }, ?_, field_of_enter hptr hf.2 rfl rfl rfl ⟨rfl, rfl⟩ fun _ => rfl⟩
  rw [run_feed hw hopen.running (feed_string hopen (by omega) hcomma), run_colon hcolon hf.1]

theorem other_comma (hs : st.state = .password) (hopen : st.open)
    (hroom : (st.written ++ w).length < b) : other b { st with written := st.written ++ w } COMMA =
      some (St.enter b { st with written := st.written ++ w ++ [0] } .age) := by
  have hopen' : St.open { st with written := st.written ++ w } := hopen
  have hopen'' : St.open { st with written := st.written ++ w ++ [COMMA] } := hopen
  have hne : ¬ st.written ++ w ++ [COMMA] = [] := by simp
  have hstore : St.store b { st with written := st.written ++ w } COMMA =
      some { st with written := st.written ++ w ++ [COMMA] } := store_eq hroom
  simp only [other, if_pos (And.intro hroom hopen'), hstore, Option.bind_eq_bind, Option.bind_some]
  rw [hs]
  rw [hs] at hopen''
  simp only [if_true, if_pos hopen'', if_neg hne, List.dropLast_concat]

theorem run_comma (fp : List UInt8) (hs : st.state = .password)
    (hptr : st.ptr .password = .buffer st.written.length)
    (hroom : st.written.length + w.length < b) (hw : ∀ c ∈ w, Plain c) (hcomma : COMMA ∉ w) :
    ∃ st', run b st (w ++ COMMA :: fp) = run b st' fp ∧ Field b st st' w .age := by
  have hopen : st.open := by
    unfold St.open
    rw [hs]
    exact ⟨rfl, by rw [hptr]; exact Ptr.noConfusion⟩
  have hroom' : (st.written ++ w).length < b := by
    rw [List.length_append]
    exact hroom
  have hplain : Plain COMMA := by decide
  refine ⟨_, ?_, field_of_enter (by rw [hs, hptr]) (by rw [hs]; decide) rfl rfl rfl ⟨rfl, rfl⟩
    fun h => h⟩
  rw [run_feed hw hopen.running (feed_string hopen (by omega) fun _ => hcomma),
    run_other hplain (other_comma hs hopen hroom')]
  exact ParseState.noConfusion

theorem run_last (fp : List UInt8) (hptr : st.ptr st.state = .buffer st.written.length)
    (hfield : st.state.isField = true) (hroom : st.written.length + w.length < b)
    (hw : ∀ c ∈ w, Plain c) (hcomma : st.state = .password → COMMA ∉ w) :
    ∃ st', run b st (w ++ NEWLINE :: fp) = some (st', fp) ∧ Field b st st' w .finished := by
  have hopen : st.open := ⟨hfield, by rw [hptr]; exact Ptr.noConfusion⟩
  have hopen' : St.open { st with written := st.written ++ w } := hopen
  have hroom' : (st.written ++ w).length < b := by
    rw [List.length_append]
    exact hroom
  have hend : endOfLine b { st with written := st.written ++ w } =
      some { st with written := st.written ++ w ++ [0], state := .finished } := by
    have hstore : St.store b { st with written := st.written ++ w } 0 =
        some { st with written := st.written ++ w ++ [0] } := store_eq hroom'
    rw [endOfLine, if_pos (And.intro hroom' hopen'), hstore, Option.map_some]
  have hne : ParseState.finished ≠ st.state := by
    intro h
    rw [← h] at hfield
    exact absurd hfield (by decide)
  refine ⟨{ st with written := st.written ++ w ++ [0], state := .finished }, ?_,
    field_of_enter hptr hne rfl rfl ?_ ⟨rfl, rfl⟩ fun h => h⟩
  · rw [run_feed hw hopen.running (feed_string hopen (by omega) hcomma), run_newline hend rfl]
  · exact (if_neg fun h => absurd h.2 (by decide)).symm

theorem run_ids (uid gid : ℕ) (fp : List UInt8) (hs : st.state = .uid) (herr : st.numerical_error = false)
    (huid : st.pw_uid = 0) (hgid : st.pw_gid = 0) (hroom : st.written.length < b) :
    ∃ st', run b st (printLong uid ++ COLON :: (printLong gid ++ COLON :: fp)) = run b st' fp ∧
      st'.state = .gecos ∧ st'.written = st.written ∧
      st'.ptr = Function.update st.ptr .gecos (.buffer st.written.length) ∧
      st'.pw_uid = (if uid < 2 ^ 31 then uid else 0) ∧
      st'.pw_gid = (if gid < 2 ^ 31 then gid else 0) := by
  have hread : ∀ n, (readId (0, false) (printLong n)).1 = if n < 2 ^ 31 then n else 0 :=
    fun _ => readId_printLong
  set st₁ : St := { st with pw_uid := (readId (0, false) (printLong uid)).1,
                            numerical_error := (readId (0, false) (printLong uid)).2 } with hst₁
  set st₂ : St := { st₁ with state := .gid, numerical_error := false } with hst₂
  set st₃ : St := { st₂ with pw_gid := (readId (0, false) (printLong gid)).1,
                             numerical_error := (readId (0, false) (printLong gid)).2 } with hst₃
  set st₄ : St := { st₃ with state := .gecos, numerical_error := false,
                             ptr := Function.update st.ptr .gecos (.buffer st.written.length) }
    with hst₄
  have h₁ : ∀ fp, run b st (printLong uid ++ fp) = run b st₁ fp := by
    intro fp
    have hfeed := feed_uid (b := b) hs (printLong uid)
    rw [huid, herr] at hfeed
    exact run_feed (fun _ => printLong_plain) (by rw [hs]; decide) hfeed
  have hnone : ∀ {u : St}, u.state.isField = false → ¬ u.open := by
    intro u hu h
    rw [h.1] at hu
    exact Bool.noConfusion hu
  have h₂ : colon b st₁ = some st₂ := by
    have hno : ¬ st₁.open := hnone (by show st.state.isField = false; rw [hs]; rfl)
    have hnext : (if st₁.state.next = .age then .uid else st₁.state.next) = ParseState.gid := by
      show (if st.state.next = .age then ParseState.uid else st.state.next) = _
      rw [hs]
      rfl
    have hroom' : ¬ (st₁.written.length < b ∧ ParseState.gid.isField = true) :=
      fun h => Bool.noConfusion h.2
    simp only [colon, if_neg hno, Option.bind_eq_bind, Option.bind_some, hnext]
    rw [St.enter, if_neg hroom']
  have h₃ : ∀ fp, run b st₂ (printLong gid ++ fp) = run b st₃ fp := by
    intro fp
    have hgid₂ : st₂.pw_gid = 0 := hgid
    have hfeed := feed_gid (b := b) (show st₂.state = .gid from rfl) (printLong gid)
    rw [hgid₂] at hfeed
    exact run_feed (fun _ => printLong_plain) ParseState.noConfusion hfeed
  have h₄ : colon b st₃ = some st₄ := by
    have hno : ¬ st₃.open := hnone rfl
    have hroom' : st₃.written.length < b ∧ ParseState.gecos.isField = true := ⟨hroom, rfl⟩
    rw [colon, if_neg hno, Option.bind_eq_bind, Option.bind_some]
    show some { St.enter b st₃ .gecos with numerical_error := false } = _
    rw [St.enter, if_pos hroom']
  refine ⟨st₄, ?_, rfl, rfl, rfl, hread uid, hread gid⟩
  rw [h₁, run_colon h₂ ParseState.noConfusion, h₃, run_colon h₄ ParseState.noConfusion]

theorem run_tail (uid gid : ℕ) {gecos dir shell : Str} (fp : List UInt8) (hs : st.state = .uid)
    (herr : st.numerical_error = false) (huid : st.pw_uid = 0) (hgid : st.pw_gid = 0)
    (hroom : st.written.length + (gecos.length + 1) + (dir.length + 1) + (shell.length + 1) ≤ b)
    (hgecos : ∀ c ∈ gecos, Plain c) (hdir : ∀ c ∈ dir, Plain c) (hshell : ∀ c ∈ shell, Plain c) :
    ∃ st', run b st (printLong uid ++ COLON :: (printLong gid ++ COLON ::
        (gecos ++ COLON :: (dir ++ COLON :: (shell ++ NEWLINE :: fp))))) = some (st', fp) ∧
      Stored st' .gecos gecos ∧ Stored st' .home dir ∧ Stored st' .shell shell ∧
      st'.pw_uid = (if uid < 2 ^ 31 then uid else 0) ∧
      st'.pw_gid = (if gid < 2 ^ 31 then gid else 0) ∧
      (∀ f ∈ [.name, .password, .age], st'.ptr f = st.ptr f) ∧ st.written <+: st'.written := by
  have hroom₁ : st.written.length < b := by omega
  -- the two ids, then the three strings, of which the last ends at the end of the line
  obtain ⟨st₁, hrun₁, hs₁, hw₁, hp₁, huid₁, hgid₁⟩ := run_ids uid gid
    (gecos ++ COLON :: (dir ++ COLON :: (shell ++ NEWLINE :: fp))) hs herr huid hgid hroom₁
  have hptr₁ : st₁.ptr st₁.state = .buffer st₁.written.length := by
    rw [hs₁, hp₁, hw₁, Function.update_self]
  have hno : ∀ {u : St} {f}, u.state = f → f ≠ .password → u.state = .password → ∀ w : Str,
      COMMA ∉ w := fun hu hf hp => absurd (hu.symm.trans hp) hf
  obtain ⟨st₂, hrun₂, h₂⟩ := run_field (b := b) (w := gecos) (f := .home)
    (dir ++ COLON :: (shell ++ NEWLINE :: fp)) hptr₁ (by rw [hs₁]; rfl)
    (by rw [hw₁]; omega) hgecos (fun h => hno hs₁ (by decide) h _) (by rw [hs₁]; rfl)
    (by rw [hs₁]; decide)
  have hlen₂ := h₂.length
  rw [hw₁] at hlen₂
  have hptr₂ : st₂.ptr st₂.state = .buffer st₂.written.length := by
    rw [h₂.state]
    exact h₂.opened rfl (by omega)
  obtain ⟨st₃, hrun₃, h₃⟩ := run_field (b := b) (w := dir) (f := .shell)
    (shell ++ NEWLINE :: fp) hptr₂
    (by rw [h₂.state]; rfl) (by omega) hdir (fun h => hno h₂.state (by decide) h _)
    (by rw [h₂.state]; rfl) (by rw [h₂.state]; decide)
  have hlen₃ := h₃.length
  have hptr₃ : st₃.ptr st₃.state = .buffer st₃.written.length := by
    rw [h₃.state]
    exact h₃.opened rfl (by omega)
  obtain ⟨st₄, hrun₄, h₄⟩ := run_last (b := b) (w := shell) fp hptr₃
    (by rw [h₃.state]; rfl) (by omega) hshell fun h => hno h₃.state (by decide) h _
  refine ⟨st₄, ?_, ?_, ?_, ?_, ?_, ?_, ?_, ?_⟩
  · rw [hrun₁, hrun₂, hrun₃, hrun₄]
  · have h := h₂.stored
    rw [hs₁] at h
    exact h₄.mono (h₃.mono h (by decide)) (by decide)
  · have h := h₃.stored
    rw [h₂.state] at h
    exact h₄.mono h (by decide)
  · have h := h₄.stored
    rwa [h₃.state] at h
  · rw [h₄.uid, h₃.uid, h₂.uid, huid₁]
  · rw [h₄.gid, h₃.gid, h₂.gid, hgid₁]
  · intro f hf
    have hne : f ≠ .finished ∧ f ≠ .shell ∧ f ≠ .home ∧ f ≠ .gecos := by
      simp only [List.mem_cons, List.not_mem_nil, or_false] at hf
      rcases hf with rfl | rfl | rfl <;> decide
    rw [h₄.ptr f hne.1, h₃.ptr f hne.2.1, h₂.ptr f hne.2.2.1, hp₁,
      Function.update_of_ne hne.2.2.2]
  · refine ⟨gecos ++ [0] ++ (dir ++ [0]) ++ (shell ++ [0]), ?_⟩
    rw [h₄.written, h₃.written, h₂.written, hw₁]
    simp only [List.append_assoc]

end Fields

section RoundTrip

variable {p : Passwd} {b : ℕ}

/-- The entries that a password file can hold. -/
structure Valid (p : Passwd) : Prop where
  name : ∃ c w, p.pw_name = some (c :: w) ∧ (∀ d ∈ c :: w, Plain d) ∧ ¬ IsBlank c ∧ c ≠ HASH
  passwd : ∃ w, p.pw_passwd = some w ∧ (∀ c ∈ w, Plain c) ∧ COMMA ∉ w
  age : (∀ c ∈ p.pw_age.getD [], Plain c) ∧ (p.pw_age.getD [] = [] ∨ p.pw_passwd ≠ some [])
  gecos : ∃ w, p.pw_gecos = some w ∧ ∀ c ∈ w, Plain c
  dir : ∃ w, p.pw_dir = some w ∧ ∀ c ∈ w, Plain c
  shell : ∃ w, p.pw_shell = some w ∧ ∀ c ∈ w, Plain c
  comment : p.pw_comment = p.pw_gecos
  ids : p.pw_uid < 2 ^ 32 ∧ p.pw_gid < 2 ^ 32

def need (p : Passwd) : ℕ :=
  ((p.pw_name.getD []).length + 1) + ((p.pw_passwd.getD []).length + 1) +
    (if p.pw_age.getD [] = [] then 0 else (p.pw_age.getD []).length + 1) +
    ((p.pw_gecos.getD []).length + 1) + ((p.pw_dir.getD []).length + 1) +
    ((p.pw_shell.getD []).length + 1)

/-- The entry that is read back: an id that is printed with a sign is lost. -/
def received (p : Passwd) : Passwd :=
  { p with
    pw_uid := if p.pw_uid < 2 ^ 31 then p.pw_uid else 0
    pw_gid := if p.pw_gid < 2 ^ 31 then p.pw_gid else 0
    pw_age := some (p.pw_age.getD []) }

/-- Equal entries, where a `NULL` age is an empty one. -/
def Same (p q : Passwd) : Prop :=
  { p with pw_age := some (p.pw_age.getD []) } = { q with pw_age := some (q.pw_age.getD []) }

theorem same_received_iff : Same (received p) p ↔
    p.pw_uid < 2 ^ 31 ∧ p.pw_gid < 2 ^ 31 := by
  have hid : ∀ n : ℕ, (if n < 2 ^ 31 then n else 0) = n ↔ n < 2 ^ 31 := by
    intro n
    by_cases hn : n < 2 ^ 31
    · rw [if_pos hn]
      exact iff_of_true rfl hn
    · rw [if_neg hn]
      exact iff_of_false (by omega) hn
  rw [← hid p.pw_uid, ← hid p.pw_gid]
  constructor
  · intro h
    exact ⟨congrArg Passwd.pw_uid h, congrArg Passwd.pw_gid h⟩
  · rintro ⟨huid, hgid⟩
    unfold Same received
    simp only [huid, hgid, Option.getD_some]

theorem run_head {name passwd age : Str} (fp : List UInt8) (hname : ∀ c ∈ name, Plain c)
    (hpasswd : ∀ c ∈ passwd, Plain c) (hcomma : COMMA ∉ passwd) (hage : ∀ c ∈ age, Plain c)
    (hroom : (name.length + 1) + (passwd.length + 1) +
      (if age = [] then 0 else age.length + 1) < b) :
    ∃ st, run b (start (.buffer 0)) (name ++ COLON :: (passwd ++
        (if age = [] then [] else COMMA :: age) ++ COLON :: fp)) = run b st fp ∧
      st.state = .uid ∧ st.numerical_error = false ∧ st.pw_uid = 0 ∧ st.pw_gid = 0 ∧
      st.written.length = (name.length + 1) + (passwd.length + 1) +
        (if age = [] then 0 else age.length + 1) ∧
      Stored st .name name ∧ Stored st .password passwd ∧
      (if age = [] then st.ptr .age = .space else Stored st .age age) := by
  obtain ⟨st₁, hrun₁, h₁⟩ := run_field (b := b) (w := name) (f := .password)
    (passwd ++ (if age = [] then [] else COMMA :: age) ++ COLON :: fp)
    (show (start (.buffer 0)).ptr .name = _ from rfl) rfl
    (by show 0 + name.length < b; omega) hname (fun h => ParseState.noConfusion h) rfl (by decide)
  have hlen₁ := h₁.length
  change _ = 0 + name.length + 1 at hlen₁
  have hptr₁ : st₁.ptr .password = .buffer st₁.written.length := h₁.opened rfl (by omega)
  have herr₁ := h₁.error rfl
  have huid₁ : st₁.pw_uid = 0 := h₁.uid
  have hgid₁ : st₁.pw_gid = 0 := h₁.gid
  by_cases hnil : age = []
  · simp only [if_pos hnil, Nat.add_zero, List.append_nil] at hroom hrun₁ ⊢
    obtain ⟨st₂, hrun₂, h₂⟩ := run_field (b := b) (w := passwd) (f := .uid) fp
      (by rw [h₁.state, hptr₁]) (by rw [h₁.state]; rfl) (by omega) hpasswd (fun _ => hcomma)
      (by rw [h₁.state]; rfl) (by rw [h₁.state]; decide)
    have hlen₂ := h₂.length
    refine ⟨st₂, by rw [hrun₁, hrun₂], h₂.state, h₂.error herr₁, by rw [h₂.uid, huid₁],
      by rw [h₂.gid, hgid₁], by omega, h₂.mono h₁.stored (by decide), ?_, ?_⟩
    · have h := h₂.stored
      rwa [h₁.state] at h
    · rw [h₂.ptr _ (by decide), h₁.ptr _ (by decide)]
      rfl
  · simp only [if_neg hnil] at hroom hrun₁ ⊢
    obtain ⟨st₂, hrun₂, h₂⟩ := run_comma (b := b) (w := passwd) (age ++ COLON :: fp) h₁.state
      hptr₁ (by omega) hpasswd hcomma
    have hlen₂ := h₂.length
    have hptr₂ : st₂.ptr .age = .buffer st₂.written.length := h₂.opened rfl (by omega)
    obtain ⟨st₃, hrun₃, h₃⟩ := run_field (b := b) (w := age) (f := .uid) fp
      (by rw [h₂.state, hptr₂]) (by rw [h₂.state]; rfl) (by omega) hage
      (fun h => absurd (h₂.state.symm.trans h) (by decide))
      (by rw [h₂.state]; rfl) (by rw [h₂.state]; decide)
    have hlen₃ := h₃.length
    refine ⟨st₃, ?_, h₃.state, h₃.error (h₂.error herr₁), by rw [h₃.uid, h₂.uid, huid₁],
      by rw [h₃.gid, h₂.gid, hgid₁], by omega,
      h₃.mono (h₂.mono h₁.stored (by decide)) (by decide), ?_, ?_⟩
    · rw [hrun₁, List.append_assoc, List.cons_append, hrun₂, hrun₃]
    · have h := h₂.stored
      rw [h₁.state] at h
      exact h₃.mono h (by decide)
    · have h := h₃.stored
      rwa [h₂.state] at h

theorem fgetpwent_r_putpwent (h : Valid p) (hb : need p ≤ b) : ∃ line, putpwent p = some line ∧
    ∀ rest, fgetpwentR (some (line ++ rest)) (some b) = some (.entry (received p), rest) := by
  obtain ⟨c, w, hname, hwname, hblank, hhash⟩ := h.name
  obtain ⟨passwd, hpasswd, hwpasswd, hcomma⟩ := h.passwd
  obtain ⟨gecos, hgecos, hwgecos⟩ := h.gecos
  obtain ⟨dir, hdir, hwdir⟩ := h.dir
  obtain ⟨shell, hshell, hwshell⟩ := h.shell
  obtain ⟨hwage, hage⟩ := h.age
  set age := p.pw_age.getD [] with hage'
  set name := c :: w with hname'
  have hline : putpwent p = some (name ++ COLON :: (passwd ++
      (if age = [] then [] else COMMA :: age) ++ COLON :: (printLong p.pw_uid ++ COLON ::
        (printLong p.pw_gid ++ COLON :: (gecos ++ COLON :: (dir ++ COLON ::
          (shell ++ [NEWLINE]))))))) := by
    have hiff : (passwd = [] ∨ age = []) ↔ age = [] := by
      refine or_iff_right_of_imp fun hnil => hage.resolve_right fun hne => ?_
      rw [hpasswd, hnil] at hne
      exact hne rfl
    simp only [putpwent, hname, hpasswd, hgecos, hdir, hshell, Option.bind_eq_bind,
      Option.bind_some, ← hage', hiff]
    by_cases hnil : age = []
    · simp only [if_pos hnil, List.append_assoc, List.cons_append, List.append_nil]
    · simp only [if_neg hnil, List.append_assoc, List.cons_append]
  have hneed : need p = (name.length + 1) + (passwd.length + 1) +
      (if age = [] then 0 else age.length + 1) + (gecos.length + 1) + (dir.length + 1) +
      (shell.length + 1) := by
    simp only [need, hname, hpasswd, hgecos, hdir, hshell, Option.getD_some, ← hage']
  refine ⟨_, hline, fun rest => ?_⟩
  obtain ⟨st₁, hrun₁, hs₁, herr₁, huid₁, hgid₁, hlen₁, hsname, hspasswd, hsage⟩ :=
    run_head (printLong p.pw_uid ++ COLON :: (printLong p.pw_gid ++ COLON :: (gecos ++ COLON ::
      (dir ++ COLON :: (shell ++ NEWLINE :: rest))))) hwname hwpasswd hcomma hwage
      (show _ < b by omega)
  obtain ⟨st₂, hrun₂, hsgecos, hshome, hsshell, huid₂, hgid₂, hptr₂, hpre₂⟩ :=
    run_tail p.pw_uid p.pw_gid rest hs₁ herr₁ huid₁ hgid₁ (show _ ≤ b by omega)
      hwgecos hwdir hwshell
  have hclean : ∀ {s : Str}, (∀ c ∈ s, Plain c) → 0 ∉ s := fun hs h0 => (hs 0 h0).1 rfl
  have hentry : st₂.passwd = received p := by
    have hage₂ : st₂.str .age = some age := by
      by_cases hnil : age = []
      · rw [if_pos hnil] at hsage
        unfold St.str
        simp only [hptr₂ .age (by decide), hsage, hnil]
      · rw [if_neg hnil] at hsage
        exact (hsage.mono (hptr₂ .age (by decide)) hpre₂).str (hclean hwage)
    have hstr : ∀ {f s}, f ∈ [ParseState.name, .password, .age] → Stored st₁ f s →
        (∀ c ∈ s, Plain c) → st₂.str f = some s :=
      fun hf hs hplain => (hs.mono (hptr₂ _ hf) hpre₂).str (hclean hplain)
    simp only [St.passwd, received, hstr (by decide) hsname hwname,
      hstr (by decide) hspasswd hwpasswd, hage₂, hsgecos.str (hclean hwgecos),
      hshome.str (hclean hwdir), hsshell.str (hclean hwshell), huid₂, hgid₂, hname, hpasswd,
      hgecos, hdir, hshell, h.comment, ← hage']
  have hskip : ∀ l, skip false (name ++ l) = some (name ++ l) :=
    fun l => skip_entry hblank hhash
  simp only [fgetpwentR, List.append_assoc, List.cons_append, List.nil_append, hskip,
    Option.bind_eq_bind]
  simp only [List.append_assoc] at hrun₁
  rw [hrun₁, hrun₂, Option.bind_some, hentry]

def writeAll : List Passwd → Option Str
  | [] => some []
  | p :: ps => do
    let line ← putpwent p
    let lines ← writeAll ps
    some (line ++ lines)

/-- One call of `fgetpwent_r` for each of the buffers, until the end of the file. -/
def readAll : List ℕ → List UInt8 → Option (List Passwd × List UInt8)
  | [], fp => some ([], fp)
  | b :: bs, fp => do
    let (r, fp) ← fgetpwentR (some fp) (some b)
    match r with
    | .entry p =>
      let (ps, fp) ← readAll bs fp
      some (p :: ps, fp)
    | _ => some ([], fp)

theorem readAll_writeAll {ps : List Passwd} {bs : List ℕ} (h : ∀ p ∈ ps, Valid p)
    (hb : List.Forall₂ (fun p b => need p ≤ b) ps bs) : ∃ file, writeAll ps = some file ∧
      ∀ rest, readAll bs (file ++ rest) = some (ps.map received, rest) := by
  induction hb with
  | nil => exact ⟨[], rfl, fun rest => rfl⟩
  | @cons p b ps bs hneed hb ih =>
    obtain ⟨line, hline, hread⟩ := fgetpwent_r_putpwent (h p List.mem_cons_self) hneed
    obtain ⟨file, hfile, hreads⟩ := ih fun p hp => h p (List.mem_cons_of_mem _ hp)
    refine ⟨line ++ file, ?_, fun rest => ?_⟩
    · rw [writeAll, hline, hfile]
      rfl
    · rw [List.append_assoc, readAll, hread, Option.bind_eq_bind, Option.bind_some]
      simp only [hreads, List.map_cons]
      rfl

/-- The entries written in order are read back in order, whatever the buffers that are
long enough, and then the file is at its end. -/
def RoundTrips (ps : List Passwd) : Prop :=
  ∀ bs, List.Forall₂ (fun p b => need p ≤ b) ps bs → ∃ file ps',
    writeAll ps = some file ∧ readAll bs file = some (ps', []) ∧ List.Forall₂ Same ps' ps

/-- Entries come back as they were if and only if their ids are below 2³¹. -/
theorem putpwent_fgetpwent_iff {ps : List Passwd} (h : ∀ p ∈ ps, Valid p) :
    RoundTrips ps ↔ ∀ p ∈ ps, p.pw_uid < 2 ^ 31 ∧ p.pw_gid < 2 ^ 31 := by
  have hread : ∀ bs, List.Forall₂ (fun p b => need p ≤ b) ps bs → ∃ file,
      writeAll ps = some file ∧ readAll bs file = some (ps.map received, []) := by
    intro bs hbs
    obtain ⟨file, hfile, hreads⟩ := readAll_writeAll h hbs
    have := hreads []
    rw [List.append_nil] at this
    exact ⟨file, hfile, this⟩
  have hsame : List.Forall₂ Same (ps.map received) ps ↔
      ∀ p ∈ ps, p.pw_uid < 2 ^ 31 ∧ p.pw_gid < 2 ^ 31 := by
    rw [List.forall₂_map_left_iff, List.forall₂_same]
    exact forall₂_congr fun p _ => same_received_iff
  rw [← hsame]
  constructor
  · intro htrip
    have hneeds : List.Forall₂ (fun p b => need p ≤ b) ps (ps.map need) := by
      rw [List.forall₂_map_right_iff, List.forall₂_same]
      exact fun p _ => le_refl _
    obtain ⟨file, ps', hfile, hps', hall⟩ := htrip _ hneeds
    obtain ⟨file', hfile', hps⟩ := hread _ hneeds
    obtain rfl : file = file' := Option.some.inj (hfile.symm.trans hfile')
    have heq := Option.some.inj (hps'.symm.trans hps)
    rwa [(Prod.mk.inj heq).1] at hall
  · intro hall bs hbs
    obtain ⟨file, hfile, hps⟩ := hread bs hbs
    exact ⟨file, _, hfile, hps, hall⟩

/-- The user `a` with the password `x`, the age `b` and the id `uid`. -/
def demo (uid : ℕ) : Passwd :=
  ⟨some [97], some [120], uid, 5, some [98], some [99], some [99], some [47], some []⟩

theorem demo_valid {uid : ℕ} (h : uid < 2 ^ 32) : Valid (demo uid) where
  name := ⟨97, [], rfl, List.forall_mem_singleton.mpr (by decide), by decide, by decide⟩
  passwd := ⟨[120], rfl, List.forall_mem_singleton.mpr (by decide), by decide⟩
  age := ⟨show ∀ c ∈ [98], Plain c from List.forall_mem_singleton.mpr (by decide),
    Or.inr (show some [120] ≠ some [] by decide)⟩
  gecos := ⟨[99], rfl, List.forall_mem_singleton.mpr (by decide)⟩
  dir := ⟨[47], rfl, List.forall_mem_singleton.mpr (by decide)⟩
  shell := ⟨[], rfl, List.forall_mem_nil _⟩
  comment := rfl
  ids := ⟨h, show 5 < 2 ^ 32 by decide⟩

theorem putpwent_fgetpwent_iff_demo : RoundTrips [demo 1000] ↔
    ∀ p ∈ [demo 1000], p.pw_uid < 2 ^ 31 ∧ p.pw_gid < 2 ^ 31 := by
  refine putpwent_fgetpwent_iff fun p hp => ?_
  rw [List.mem_singleton] at hp
  exact hp ▸ demo_valid (by decide)

/-- The uid 4294967294 is printed as -2 and read back as 0. -/
theorem large_uid_lost : Valid (demo 4294967294) ∧ ¬ RoundTrips [demo 4294967294] := by
  refine ⟨demo_valid (by decide), fun htrip => ?_⟩
  obtain ⟨file, ps', hfile, hread, hsame⟩ := htrip [12] (.cons (by decide) .nil)
  have hfile' : writeAll [demo 4294967294] =
      some [97, 58, 120, 44, 98, 58, 45, 50, 58, 53, 58, 99, 58, 47, 58, 10] := by decide +kernel
  obtain rfl := Option.some.inj (hfile'.symm.trans hfile)
  have hread' : readAll [12] [97, 58, 120, 44, 98, 58, 45, 50, 58, 53, 58, 99, 58, 47, 58, 10] =
      some ([demo 0], []) := by decide +kernel
  have heq := Option.some.inj (hread'.symm.trans hread)
  obtain rfl := (Prod.mk.inj heq).1
  rw [List.forall₂_cons] at hsame
  exact absurd (congrArg Passwd.pw_uid hsame.1) (by decide)

end RoundTrip

end Mintlib.Pwd
