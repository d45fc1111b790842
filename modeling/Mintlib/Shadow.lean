import Mintlib.Entry

/-!
# The shadow file: `putspent.c`, `sgetspent_r.c` and `fgetspent_r.c`

Two readers, one for a string and one for a stream, run the same state machine. It treats
all nine fields of the result as pointers, also the numbers, so that what the fields hold
are words of 32 bits. `none` stands for a store outside of the buffer or a read behind
the end of the string.
-/

namespace Mintlib.Shadow

open Text Entry

abbrev ABSENT : ℕ := 2 ^ 32 - 1

/-- `struct spwd`; the strings are `none` for `NULL`, the numbers are 32-bit words. -/
structure Spwd where
  sp_namp : Option Str
  sp_pwdp : Option Str
  sp_lstchg : ℕ
  sp_min : ℕ
  sp_max : ℕ
  sp_warn : ℕ
  sp_inact : ℕ
  sp_expire : ℕ
  sp_flag : ℕ
  deriving DecidableEq

def putLong (n : ℕ) : Str := if n ≠ ABSENT then printLong n else []

/-- The bytes that are written; the name may not be `NULL`. -/
def putspent (p : Spwd) : Option Str := do
  let namp ← p.sp_namp
  some (namp ++ COLON :: p.sp_pwdp.getD [] ++ COLON :: putLong p.sp_lstchg ++
    COLON :: putLong p.sp_min ++ COLON :: putLong p.sp_max ++ COLON :: putLong p.sp_warn ++
    COLON :: putLong p.sp_inact ++ COLON :: putLong p.sp_expire ++ COLON :: putLong p.sp_flag ++
    [NEWLINE])

/-- `enum parse_state`, without `init`. -/
inductive ParseState
  | namp | pwdp | lstchg | min | max | warn | inact | expire | flag | finished
  deriving DecidableEq

/-- `++state`. -/
def ParseState.next : ParseState → ParseState
  | namp => pwdp
  | pwdp => lstchg
  | lstchg => min
  | min => max
  | max => warn
  | warn => inact
  | inact => expire
  | expire => flag
  | flag => finished
  | finished => finished

/-- The buffer of the caller and the address of the static empty string. -/
structure Buffer where
  address : ℕ
  buflen : ℕ
  space : ℕ

structure St where
  state : ParseState
  /-- The bytes before `write_crs`; there are `bytes_used` of them. -/
  written : List UInt8
  /-- `*fields[state]`. -/
  words : ParseState → ℕ
  numerical_error : Bool

section Machine

variable (b : Buffer)

/-- `*write_crs++ = c; bytes_used++`. -/
def St.store (st : St) (c : UInt8) : Option St :=
  if st.written.length < b.buflen then some { st with written := st.written ++ [c] } else none

def St.setWord (st : St) (word : ℕ) : St :=
  { st with words := Function.update st.words st.state word }

/-- `fields[state] != NULL && *fields[state] != NULL`. -/
def St.open (st : St) : Prop := st.state ≠ .finished ∧ st.words st.state ≠ 0

instance (st : St) : Decidable st.open := inferInstanceAs (Decidable (_ ∧ _))

/-- `':'`: also the number that begins is set to the address of the next free byte. -/
def colon (st : St) : Option St := do
  let st ← if st.open then st.store b 0 else some st
  let st := { st with state := st.state.next }
  let st := if st.written.length < b.buflen ∧ st.state ≠ .finished then
      st.setWord ((b.address + st.written.length) % 2 ^ 32)
    else st
  some { st with numerical_error := false }

def endOfLine (st : St) : Option St :=
  Option.map (fun st => { st with state := .finished })
    (if st.written.length < b.buflen ∧ st.open then st.store b 0
    else if st.state ≠ .finished then some (st.setWord 0)
    else some st)

def other (st : St) (c : UInt8) : Option St :=
  if st.written.length < b.buflen ∧ (st.state = .namp ∨ st.state = .pwdp) ∧ st.open then
    st.store b c
  else if ¬ IsDigit c then some { st with numerical_error := true }
  else if st.numerical_error then some st
  -- `longptr += the_char - '0'` moves the pointer; the digit is not added to the number
  else some (st.setWord (st.words st.state * 10 % 2 ^ 32))

def character (st : St) (c : UInt8) : Option St :=
  if c = COLON then colon b st else if c = NEWLINE then endOfLine b st else other b st c

def start : St :=
  ⟨.namp, [], Function.update (Function.update (fun _ => 0) .pwdp b.space) .namp b.address, false⟩

def St.str (st : St) (address : ℕ) : Option Str :=
  if address = b.space then some []
  else if b.address ≤ address ∧ address < b.address + st.written.length then
    some (cstr (st.written.drop (address - b.address)))
  else none

def St.spwd (st : St) : Spwd where
  sp_namp := st.str b (st.words .namp)
  sp_pwdp := st.str b (st.words .pwdp)
  sp_lstchg := st.words .lstchg
  sp_min := st.words .min
  sp_max := st.words .max
  sp_warn := st.words .warn
  sp_inact := st.words .inact
  sp_expire := st.words .expire
  sp_flag := st.words .flag

end Machine

inductive Result
  | efault
  | failed
  | entry (result_buf : Spwd)
  deriving DecidableEq

/-- A `NULL` buffer has no room. -/
def Buffer.checked (b : Buffer) : Buffer := if b.address = 0 then { b with buflen := 0 } else b

def frun (b : Buffer) (st : St) : List UInt8 → Option (St × List UInt8)
  | [] => (endOfLine b st).map fun st => (st, [])
  | c :: fp =>
    if Dropped c fp then frun b st fp
    else do
      let st ← character b st c
      if st.state = .finished then some (st, fp) else frun b st fp

/-- `stream` is `none` for `NULL`. The second component is what is left of the stream. -/
def fgetspentR (stream : Option (List UInt8)) (b : Buffer) : Option (Result × List UInt8) :=
  match stream with
  | none => some (.efault, [])
  | some fp =>
    match skip false fp with
    | none => some (.failed, [])
    | some fp => (frun b.checked (start b.checked) fp).map fun r => (.entry (r.1.spwd b.checked), r.2)

/-- The loop in state `init`, over memory that holds a string. The result begins with the
first character of the entry, `some none` is the end of the string. -/
def sskip (comment : Bool) : List UInt8 → Option (Option (List UInt8))
  | [] => none
  | c :: stream =>
    if Dropped c stream then sskip comment stream
    else if comment then
      if c = NEWLINE then sskip false stream
      else if c = 0 then some none
      else sskip true stream
    else if IsBlank c then sskip false stream
    else if c = HASH then sskip true stream
    else if c = 0 then some none
    else some (some (c :: stream))

def srun (b : Buffer) (st : St) : List UInt8 → Option St
  | [] => none
  | c :: stream =>
    if Dropped c stream then srun b st stream
    else if c = 0 then endOfLine b st
    else do
      let st ← character b st c
      if st.state = .finished then some st else srun b st stream

/-- `stream` is the memory from the pointer on, or `none` for `NULL`. -/
def sgetspentR (stream : Option (List UInt8)) (b : Buffer) : Option Result :=
  match stream with
  | none => some .efault
  | some stream => do
    match ← sskip false stream with
    | none => some .failed
    | some stream => (srun b.checked (start b.checked) stream).map fun st => .entry (st.spwd b.checked)

section Agreement

variable {b : Buffer} {st st' : St} {c : UInt8} {line junk : List UInt8} {comment : Bool}

/-- A character behind the end of the line decides nothing but whether `'\r'` is dropped. -/
theorem dropped_append {d : UInt8} (hd : d = NEWLINE → line ≠ [] ∨ c ≠ CR) :
    Dropped c (line ++ d :: junk) ↔ Dropped c line := by
  cases line with
  | cons _ _ => exact Iff.rfl
  | nil =>
    refine iff_of_false ?_ (fun h => Option.some_ne_none _ h.2.symm)
    rintro ⟨hc, hhead⟩
    rcases hd (Option.some.inj hhead) with h | h
    · exact h rfl
    · exact h hc

theorem srun_append (h0 : 0 ∉ line) :
    srun b st (line ++ 0 :: junk) = (frun b st line).map Prod.fst := by
  induction line generalizing st with
  | nil =>
    have hdrop : ¬ Dropped 0 junk := fun h => absurd h.1 (by decide)
    rw [List.nil_append, srun, if_neg hdrop, if_pos rfl, frun, Option.map_map]
    exact Option.map_id'.symm
  | cons c line ih =>
    obtain ⟨hc, hline⟩ := not_or.mp (mt List.mem_cons.mpr h0)
    have hdrop : Dropped c (line ++ 0 :: junk) ↔ Dropped c line :=
      dropped_append fun h => absurd h (by decide)
    simp only [List.cons_append, srun, frun, hdrop, if_neg (Ne.symm hc), ih hline,
      Option.bind_eq_bind]
    by_cases hd : Dropped c line
    · rw [if_pos hd, if_pos hd]
    · rw [if_neg hd, if_neg hd, Option.map_bind]
      congr 1
      funext st'
      by_cases hfin : st'.state = .finished
      · simp only [Function.comp, if_pos hfin, Option.map_some]
      · simp only [Function.comp, if_neg hfin]

theorem sskip_append (h0 : 0 ∉ line) :
    sskip comment (line ++ 0 :: junk) = some ((skip comment line).map (· ++ 0 :: junk)) := by
  induction line generalizing comment with
  | nil =>
    have hdrop : ¬ Dropped 0 junk := fun h => absurd h.1 (by decide)
    have hblank : ¬ IsBlank 0 := by decide
    have hnewline : ¬ (0 : UInt8) = NEWLINE := by decide
    have hhash : ¬ (0 : UInt8) = HASH := by decide
    simp only [List.nil_append, sskip, skip, if_neg hdrop, if_neg hblank, if_neg hnewline,
      if_neg hhash, if_true, ite_self, Option.map_none]
  | cons c line ih =>
    obtain ⟨hc, hline⟩ := not_or.mp (mt List.mem_cons.mpr h0)
    have hdrop : Dropped c (line ++ 0 :: junk) ↔ Dropped c line :=
      dropped_append fun h => absurd h (by decide)
    simp only [List.cons_append, sskip, skip, hdrop, if_neg (Ne.symm hc), ih hline]
    by_cases hd : Dropped c line
    · rw [if_pos hd, if_pos hd]
    rw [if_neg hd, if_neg hd]
    cases comment with
    | true =>
      by_cases hn : c = NEWLINE
      · simp only [if_true, hn, ne_eq, not_true_eq_false, decide_false]
      · simp only [if_true, if_false, hn, ne_eq, not_false_eq_true, decide_true]
    | false =>
      simp only [Bool.false_eq_true, if_false]
      by_cases hb : IsBlank c
      · rw [if_pos hb, if_pos hb]
      rw [if_neg hb, if_neg hb]
      by_cases hh : c = HASH
      · rw [if_pos hh, if_pos hh]
      · rw [if_neg hh, if_neg hh]
        rfl

theorem readers_agree (h0 : 0 ∉ line) :
    sgetspentR (some (line ++ 0 :: junk)) b = (fgetspentR (some line) b).map Prod.fst := by
  simp only [sgetspentR, fgetspentR, sskip_append h0, Option.bind_eq_bind, Option.bind_some]
  cases hskip : skip false line with
  | none => rfl
  | some rest =>
    have hrest : 0 ∉ rest := fun h => h0 ((skip_suffix hskip).subset h)
    simp only [Option.map_some, srun_append hrest, Option.map_map]
    rfl

/-- Neither the newline of the line nor a `'\r'` in front of one. -/
def Bare (line : List UInt8) : Prop := NEWLINE ∉ line ∧ line.getLast? ≠ some CR

theorem Bare.tail (h : Bare (c :: line)) :
    c ≠ NEWLINE ∧ (line = [] → c ≠ CR) ∧ Bare line := by
  obtain ⟨hnewline, hlast⟩ := h
  obtain ⟨hc, hline⟩ := not_or.mp (mt List.mem_cons.mpr hnewline)
  refine ⟨Ne.symm hc, fun hnil hcr => hlast (by rw [hnil, hcr]; rfl), hline, fun h => hlast ?_⟩
  cases line with
  | nil => exact absurd h (by simp)
  | cons d line => rwa [List.getLast?_cons_cons]

theorem Bare.suffix {rest : List UInt8} (h : Bare line) (hs : rest <:+ line) : Bare rest := by
  obtain ⟨pre, rfl⟩ := hs
  induction pre with
  | nil => exact h
  | cons c pre ih => exact ih h.tail.2.2

theorem Bare.dropped (h : Bare (c :: line)) (junk : List UInt8) :
    ¬ Dropped c (line ++ NEWLINE :: junk) ∧ ¬ Dropped c line := by
  obtain ⟨-, hnil, hline, -⟩ := h.tail
  have hno : ¬ Dropped c line := by
    rintro ⟨-, hhead⟩
    exact hline (List.mem_of_mem_head? hhead)
  refine ⟨fun hd => hno ((dropped_append fun _ => ?_).mp hd), hno⟩
  by_cases h : line = []
  · exact Or.inr (hnil h)
  · exact Or.inl h

theorem frun_newline (h : Bare line) :
    (frun b st (line ++ NEWLINE :: junk)).map Prod.fst = (frun b st line).map Prod.fst := by
  induction line generalizing st with
  | nil =>
    have hdrop : ¬ Dropped NEWLINE junk := fun h => absurd h.1 (by decide)
    have hchar : character b st NEWLINE = endOfLine b st := rfl
    simp only [List.nil_append, frun, if_neg hdrop, hchar, Option.bind_eq_bind, endOfLine]
    cases (if st.written.length < b.buflen ∧ st.open then st.store b 0
      else if st.state ≠ .finished then some (st.setWord 0) else some st) with
    | none => rfl
    | some st' => rfl
  | cons c line ih =>
    obtain ⟨hd, hd'⟩ := h.dropped junk
    simp only [List.cons_append, frun, if_neg hd, if_neg hd', Option.bind_eq_bind,
      Option.map_bind]
    congr 1
    funext st'
    by_cases hfin : st'.state = .finished
    · simp only [Function.comp, if_pos hfin, Option.map_some]
    · simp only [Function.comp, if_neg hfin, ih h.tail.2.2]

theorem skip_newline (h : Bare line) :
    skip comment (line ++ [NEWLINE]) = (skip comment line).map (· ++ [NEWLINE]) := by
  induction line generalizing comment with
  | nil => cases comment <;> rfl
  | cons c line ih =>
    obtain ⟨hd, hd'⟩ := h.dropped []
    have hrest := h.tail.2.2
    rw [List.cons_append, skip, skip, if_neg hd, if_neg hd']
    cases comment with
    | true => exact ih hrest
    | false =>
      simp only [Bool.false_eq_true, if_false]
      by_cases hb : IsBlank c
      · rw [if_pos hb, if_pos hb]
        exact ih hrest
      rw [if_neg hb, if_neg hb]
      by_cases hh : c = HASH
      · rw [if_pos hh, if_pos hh]
        exact ih hrest
      · rw [if_neg hh, if_neg hh]
        rfl

theorem readers_agree_newline (h0 : 0 ∉ line) (h : Bare line) :
    sgetspentR (some (line ++ 0 :: junk)) b =
      (fgetspentR (some (line ++ [NEWLINE])) b).map Prod.fst := by
  rw [readers_agree h0]
  simp only [fgetspentR, skip_newline h]
  cases hskip : skip false line with
  | none => rfl
  | some rest =>
    have hbare : Bare rest := h.suffix (skip_suffix hskip)
    have hrun : (frun b.checked (start b.checked) (rest ++ NEWLINE :: [])).map Prod.fst =
        (frun b.checked (start b.checked) rest).map Prod.fst := frun_newline hbare
    have hmap := congrArg (Option.map fun st => Result.entry (st.spwd b.checked)) hrun
    simp only [Option.map_map, Option.map_some] at hmap ⊢
    exact hmap.symm

end Agreement

section Fields

variable {b : Buffer} {st st' : St} {c : UInt8} {w : Str} {fp : List UInt8} {f g : ParseState}

theorem frun_step (hd : ¬ Dropped c fp) (h : character b st c = some st')
    (hs : st'.state ≠ .finished) : frun b st (c :: fp) = frun b st' fp := by
  simp only [frun, if_neg hd, h, Option.bind_eq_bind, Option.bind_some, if_neg hs]

theorem not_dropped (hc : c ≠ CR) : ¬ Dropped c fp := fun h => hc h.1

theorem store_eq (hroom : st.written.length < b.buflen) :
    st.store b c = some { st with written := st.written ++ [c] } := if_pos hroom

theorem frun_string (fp : Str) (hstate : st.state = .namp ∨ st.state = .pwdp)
    (hword : st.words st.state ≠ 0)
    (hroom : st.written.length + w.length ≤ b.buflen) (hw : ∀ c ∈ w, c ≠ COLON ∧ c ≠ NEWLINE) :
    frun b st (w ++ COLON :: fp) =
      frun b { st with written := st.written ++ w } (COLON :: fp) := by
  have hne : st.state ≠ .finished := by
    rcases hstate with h | h <;> rw [h] <;> decide
  induction w generalizing st with
  | nil => rw [List.nil_append, List.append_nil]
  | cons c w ih =>
    rw [List.length_cons] at hroom
    have hplain : ∀ c ∈ w, c ≠ COLON ∧ c ≠ NEWLINE := fun c h => hw c (List.mem_cons_of_mem _ h)
    have hd : ¬ Dropped c (w ++ COLON :: fp) := by
      rintro ⟨-, hhead⟩
      cases w with
      | nil => exact absurd (Option.some.inj hhead) (by decide)
      | cons d w => exact (hplain d List.mem_cons_self).2 (Option.some.inj hhead)
    have hchar : character b st c = some { st with written := st.written ++ [c] } := by
      obtain ⟨hcolon, hnewline⟩ := hw c List.mem_cons_self
      have hlt : st.written.length < b.buflen := by omega
      rw [character, if_neg hcolon, if_neg hnewline, other, if_pos ⟨hlt, hstate, hne, hword⟩,
        store_eq hlt]
    have hroom' : (st.written ++ [c]).length + w.length ≤ b.buflen := by
      rw [List.length_append, List.length_singleton]
      omega
    have hrest : frun b { st with written := st.written ++ [c] } (w ++ COLON :: fp) =
        frun b { st with written := st.written ++ [c] ++ w } (COLON :: fp) :=
      ih hstate hword hroom' hplain hne
    rw [List.cons_append, frun_step hd hchar hne, hrest, List.append_assoc,
      List.singleton_append]

theorem frun_digits (hstate : st.state ≠ .namp ∧ st.state ≠ .pwdp ∧ st.state ≠ .finished)
    (herr : st.numerical_error = false) (hword : st.words st.state < 2 ^ 32)
    (hw : ∀ c ∈ w, IsDigit c) :
    frun b st (w ++ fp) =
      frun b (st.setWord (st.words st.state * 10 ^ w.length % 2 ^ 32)) fp := by
  induction w generalizing st with
  | nil =>
    rw [List.nil_append, List.length_nil, Nat.pow_zero, Nat.mul_one, Nat.mod_eq_of_lt hword,
      St.setWord, Function.update_eq_self]
  | cons c w ih =>
    have hdigit := hw c List.mem_cons_self
    have hne : ∀ d : UInt8, d.toNat < 48 ∨ 57 < d.toNat → c ≠ d := by
      have h1 : 48 ≤ c.toNat := UInt8.le_iff_toNat_le.mp hdigit.1
      have h2 : c.toNat ≤ 57 := UInt8.le_iff_toNat_le.mp hdigit.2
      rintro d hd rfl
      omega
    have hchar : character b st c = some (st.setWord (st.words st.state * 10 % 2 ^ 32)) := by
      have hstr : ¬ (st.written.length < b.buflen ∧ (st.state = .namp ∨ st.state = .pwdp) ∧
          st.open) := by
        rintro ⟨-, h | h, -⟩
        · exact hstate.1 h
        · exact hstate.2.1 h
      rw [character, if_neg (hne _ (by decide)), if_neg (hne _ (by decide)), other, if_neg hstr,
        if_neg (not_not.mpr hdigit), herr, if_neg Bool.false_ne_true]
    set st₁ := st.setWord (st.words st.state * 10 % 2 ^ 32) with hst₁
    have hword₁ : st₁.words st₁.state = st.words st.state * 10 % 2 ^ 32 :=
      Function.update_self _ _ _
    have hrest : frun b st₁ (w ++ fp) =
        frun b (st₁.setWord (st₁.words st₁.state * 10 ^ w.length % 2 ^ 32)) fp :=
      ih hstate herr (by rw [hword₁]; exact Nat.mod_lt _ (by norm_num))
        fun c h => hw c (List.mem_cons_of_mem _ h)
    have hpow : st.words st.state * 10 % 2 ^ 32 * 10 ^ w.length % 2 ^ 32 =
        st.words st.state * 10 ^ (w.length + 1) % 2 ^ 32 := by
      rw [Nat.mod_mul_mod, Nat.pow_succ']
      congr 1
      ring
    rw [List.cons_append, frun_step (not_dropped (hne _ (by decide))) hchar hstate.2.2, hrest,
      List.length_cons, hword₁, hpow]
    simp only [hst₁, St.setWord, Function.update_idem]

theorem frun_colon (fp : Str) (hroom : st.words st.state ≠ 0 → st.written.length < b.buflen)
    (hf : f = st.state.next) (hfin : st.state ≠ .finished ∧ f ≠ .finished) :
    ∃ st', frun b st (COLON :: fp) = frun b st' fp ∧ st'.state = f ∧
      st'.written = st.written ++ (if st.words st.state ≠ 0 then [0] else []) ∧
      st'.words = (if st'.written.length < b.buflen then
        Function.update st.words f ((b.address + st'.written.length) % 2 ^ 32) else st.words) ∧
      st'.numerical_error = false := by
  -- the NUL, the next state, its word: the three steps of the branch for a colon
  set st₁ : St := { st with written := st.written ++ (if st.words st.state ≠ 0 then [0] else []) }
    with hst₁
  have hstore : (if st.open then st.store b 0 else some st) = some st₁ := by
    by_cases hword : st.words st.state ≠ 0
    · have hopen : st.open := ⟨hfin.1, hword⟩
      rw [if_pos hopen, store_eq (hroom hword), hst₁, if_pos hword]
    · have hopen : ¬ st.open := fun h => hword h.2
      rw [if_neg hopen, hst₁, if_neg hword, List.append_nil]
  set st₂ : St := { st₁ with state := f } with hst₂
  set st₃ : St := if st₂.written.length < b.buflen ∧ st₂.state ≠ .finished then
    st₂.setWord ((b.address + st₂.written.length) % 2 ^ 32) else st₂ with hst₃
  have hcolon : colon b st = some { st₃ with numerical_error := false } := by
    have hbind : colon b st = (if st.open then st.store b 0 else some st).bind fun st =>
        some { (if st.written.length < b.buflen ∧ st.state.next ≠ .finished then
          St.setWord { st with state := st.state.next }
            ((b.address + st.written.length) % 2 ^ 32)
          else { st with state := st.state.next }) with numerical_error := false } := by
      unfold colon
      by_cases hopen : st.open
      · rw [if_pos hopen, if_pos hopen]
        rfl
      · rw [if_neg hopen, if_neg hopen]
        rfl
    rw [hbind, hstore, Option.bind_some]
    have hnext : st₁.state.next = f := hf.symm
    rw [hnext]
  have hst₃' : st₃.state = f ∧ st₃.written = st₁.written ∧ st₃.words =
      if st₁.written.length < b.buflen then
        Function.update st.words f ((b.address + st₁.written.length) % 2 ^ 32) else st.words := by
    rw [hst₃]
    by_cases hlt : st₁.written.length < b.buflen
    · rw [if_pos (⟨hlt, hfin.2⟩ : st₂.written.length < b.buflen ∧ st₂.state ≠ .finished),
        if_pos hlt]
      exact ⟨rfl, rfl, rfl⟩
    · rw [if_neg (fun h : st₂.written.length < b.buflen ∧ _ => hlt h.1), if_neg hlt]
      exact ⟨rfl, rfl, rfl⟩
  obtain ⟨hs, hw, hwords⟩ := hst₃'
  refine ⟨{ st₃ with numerical_error := false }, ?_, hs, hw, ?_, rfl⟩
  · have hchar : character b st COLON = some { st₃ with numerical_error := false } := by
      rw [character, if_pos rfl, hcolon]
    have hfin' : ({ st₃ with numerical_error := false } : St).state ≠ .finished := by
      show st₃.state ≠ _
      rw [hs]
      exact hfin.2
    exact frun_step (not_dropped (by decide)) hchar hfin'
  · show st₃.words = if st₃.written.length < b.buflen then _ else _
    rw [hwords, hw]

theorem frun_end (fp : Str) (hroom : st.words st.state ≠ 0 → st.written.length < b.buflen)
    (hfin : st.state ≠ .finished) : ∃ st', frun b st (NEWLINE :: fp) = some (st', fp) ∧
      st'.words = st.words ∧ st.written <+: st'.written := by
  have hd : ¬ Dropped NEWLINE fp := not_dropped (by decide)
  have hrun : ∀ {st'}, endOfLine b st = some st' → st'.state = .finished →
      frun b st (NEWLINE :: fp) = some (st', fp) := by
    intro st' hend hs
    have hchar : character b st NEWLINE = some st' := hend
    simp only [frun, if_neg hd, hchar, Option.bind_eq_bind, Option.bind_some, if_pos hs]
  by_cases hword : st.words st.state ≠ 0
  · have hopen : st.written.length < b.buflen ∧ st.open := ⟨hroom hword, hfin, hword⟩
    refine ⟨{ st with written := st.written ++ [0], state := .finished }, hrun ?_ rfl, rfl,
      List.prefix_append _ _⟩
    rw [endOfLine, if_pos hopen, store_eq hopen.1, Option.map_some]
  · have hopen : ¬ (st.written.length < b.buflen ∧ st.open) := fun h => hword h.2.2
    refine ⟨{ (st.setWord 0) with state := .finished }, hrun ?_ rfl, ?_, List.prefix_refl _⟩
    · rw [endOfLine, if_neg hopen, if_pos hfin, Option.map_some]
    · show Function.update st.words st.state 0 = st.words
      rw [← not_not.mp hword, Function.update_eq_self]

/-- The numbers of a line, with `':'` between them. -/
def numbersText : List ℕ → Str
  | [] => []
  | [v] => putLong v
  | v :: vs => putLong v ++ COLON :: numbersText vs

/-- The fields that hold numbers, from `f` on. -/
def ParseState.numbers (f : ParseState) : List ParseState :=
  [lstchg, min, max, warn, inact, expire, flag].dropWhile (· ≠ f)

/-- The word that is read for a number when `u` bytes of the buffer are in use. -/
def readWord (b : Buffer) (u v : ℕ) : ℕ :=
  if u < b.buflen then (b.address + u) * 10 ^ (putLong v).length % 2 ^ 32 else 0

def readWords (b : Buffer) : ℕ → List ℕ → List ℕ
  | _, [] => []
  | u, v :: vs => readWord b u v :: readWords b (if readWord b u v ≠ 0 then u + 1 else u) vs

def Number (v : ℕ) : Prop := v = ABSENT ∨ v < 2 ^ 31

theorem putLong_digits {v : ℕ} (h : Number v) (hc : c ∈ putLong v) : IsDigit c := by
  unfold putLong at hc
  by_cases hv : v ≠ ABSENT
  · have hlt : v < 2 ^ 31 := h.resolve_left hv
    rw [if_pos hv, printLong, if_pos hlt] at hc
    exact decimal_isDigit hc
  · rw [if_neg hv] at hc
    exact absurd hc List.not_mem_nil

/-- What is known when the number field `f` begins. -/
structure Begins (b : Buffer) (st : St) (f : ParseState) : Prop where
  state : st.state = f
  error : st.numerical_error = false
  word : st.words f =
    if st.written.length < b.buflen then b.address + st.written.length else 0
  zero : ∀ g ∈ f.numbers, g ≠ f → st.words g = 0

theorem frun_numbers {vs : List ℕ} (fp : Str) (hb : b.address + b.buflen ≤ 2 ^ 32)
    (hvs : ∀ v ∈ vs, Number v)
    (hf : f ∈ ParseState.lstchg.numbers) (hlen : f.numbers.length = vs.length)
    (h : Begins b st f) : ∃ st', frun b st (numbersText vs ++ NEWLINE :: fp) = some (st', fp) ∧
      f.numbers.map st'.words = readWords b st.written.length vs ∧
      (∀ g ∉ f.numbers, st'.words g = st.words g) ∧ st.written <+: st'.written := by
  -- `Begins` carries the induction: the state is that of the next number, and its word is zero
  induction vs generalizing st f with
  | nil =>
    have hpos : ∀ f ∈ ParseState.lstchg.numbers, f.numbers.length ≠ 0 := by decide
    exact absurd hlen (hpos f hf)
  | cons v vs ih =>
    have hfield : f ≠ .namp ∧ f ≠ .pwdp ∧ f ≠ .finished := by
      have hall : ∀ f ∈ ParseState.lstchg.numbers, f ≠ .namp ∧ f ≠ .pwdp ∧ f ≠ .finished := by
        decide
      exact hall f hf
    have hstate : st.state ≠ .namp ∧ st.state ≠ .pwdp ∧ st.state ≠ .finished := by
      rw [h.state]
      exact hfield
    have hself : f ∈ f.numbers := by
      have hall : ∀ f ∈ ParseState.lstchg.numbers, f ∈ f.numbers := by decide
      exact hall f hf
    have hword : st.words st.state < 2 ^ 32 := by
      rw [h.state, h.word]
      by_cases hlt : st.written.length < b.buflen
      · rw [if_pos hlt]
        omega
      · rw [if_neg hlt]
        norm_num
    set st₁ := st.setWord (st.words st.state * 10 ^ (putLong v).length % 2 ^ 32) with hst₁
    have hrun₁ : ∀ fp, frun b st (putLong v ++ fp) = frun b st₁ fp := fun fp =>
      frun_digits hstate h.error hword fun c => putLong_digits (hvs v List.mem_cons_self)
    have hs₁ : st₁.state = f := h.state
    have hset : st₁.words =
        Function.update st.words f (st.words f * 10 ^ (putLong v).length % 2 ^ 32) := by
      simp only [hst₁, St.setWord, h.state]
    have hread : st₁.words f = readWord b st.written.length v := by
      rw [hset, Function.update_self, h.word, readWord]
      by_cases hlt : st.written.length < b.buflen
      · rw [if_pos hlt, if_pos hlt]
      · rw [if_neg hlt, if_neg hlt, Nat.zero_mul, Nat.zero_mod]
    have hothers : ∀ g, g ≠ f → st₁.words g = st.words g := by
      intro g hg
      rw [hset, Function.update_of_ne hg]
    have hroom : st₁.words st₁.state ≠ 0 → st₁.written.length < b.buflen := by
      intro hne
      by_contra hlt
      have hlt' : ¬ st.written.length < b.buflen := hlt
      rw [hs₁, hread, readWord, if_neg hlt'] at hne
      exact hne rfl
    -- the line ends behind the last number, and behind the others stands a colon
    cases vs with
    | nil =>
      have hone : ∀ f ∈ ParseState.lstchg.numbers, f.numbers.length = 1 → f.numbers = [f] := by
        decide
      have hnumbers := hone f hf hlen
      obtain ⟨st', hend, hwords, hpre⟩ := frun_end fp hroom (by rw [hs₁]; exact hfield.2.2)
      refine ⟨st', ?_, ?_, fun g hg => ?_, hpre⟩
      · rw [numbersText, hrun₁, hend]
      · rw [hnumbers, List.map_singleton, hwords, hread]
        rfl
      · rw [hnumbers, List.mem_singleton] at hg
        rw [hwords, hothers g hg]
    | cons v' vs =>
      have hmore : ∀ f ∈ ParseState.lstchg.numbers, f.numbers.length ≠ 1 →
          f.numbers = f :: f.next.numbers ∧ f.next ∈ ParseState.lstchg.numbers ∧
            f ∉ f.next.numbers ∧ f.next ≠ f := by
        decide
      obtain ⟨hnumbers, hnext, hnot, hne⟩ := hmore f hf (by rw [hlen]; simp)
      have hfin : f.next ≠ .finished := by
        have hall : ∀ f ∈ ParseState.lstchg.numbers, f ≠ .finished := by decide
        exact hall _ hnext
      have hself' : f.next ∈ f.next.numbers := by
        have hall : ∀ f ∈ ParseState.lstchg.numbers, f ∈ f.numbers := by decide
        exact hall _ hnext
      obtain ⟨st₂, hrun₂, hs₂, hw₂, hwords₂, herr₂⟩ := frun_colon (f := f.next)
        (numbersText (v' :: vs) ++ NEWLINE :: fp) hroom (by rw [hs₁])
        (by rw [hs₁]; exact ⟨hfield.2.2, hfin⟩)
      have hlen₂ : st₂.written.length =
          if readWord b st.written.length v ≠ 0 then st.written.length + 1
          else st.written.length := by
        rw [hw₂, hs₁, hread, List.length_append]
        by_cases hz : readWord b st.written.length v ≠ 0
        · rw [if_pos hz, if_pos hz]
          rfl
        · rw [if_neg hz, if_neg hz]
          rfl
      have hkeep : ∀ g, g ≠ f.next → st₂.words g = st₁.words g := by
        intro g hg
        rw [hwords₂]
        by_cases hlt : st₂.written.length < b.buflen
        · rw [if_pos hlt, Function.update_of_ne hg]
        · rw [if_neg hlt]
      have hzero : ∀ g ∈ f.next.numbers, st₁.words g = 0 := by
        intro g hg
        have hgf : g ≠ f := fun he => hnot (he ▸ hg)
        rw [hothers g hgf]
        exact h.zero g (by rw [hnumbers]; exact List.mem_cons_of_mem _ hg) hgf
      have hbegins : Begins b st₂ f.next := by
        refine ⟨hs₂, herr₂, ?_, fun g hg hgn => ?_⟩
        · rw [hwords₂]
          by_cases hlt : st₂.written.length < b.buflen
          · rw [if_pos hlt, if_pos hlt, Function.update_self, Nat.mod_eq_of_lt (by omega)]
          · rw [if_neg hlt, if_neg hlt, hzero _ hself']
        · rw [hkeep g hgn, hzero g hg]
      obtain ⟨st', hrun, hmap, hrest, hpre⟩ := ih (fun v h => hvs v (List.mem_cons_of_mem _ h))
        hnext (by rw [hnumbers] at hlen; exact Nat.succ.inj hlen) hbegins
      refine ⟨st', ?_, ?_, fun g hg => ?_, ?_⟩
      · have htext : numbersText (v :: v' :: vs) = putLong v ++ COLON :: numbersText (v' :: vs) :=
          rfl
        rw [htext, List.append_assoc, List.cons_append, hrun₁, hrun₂, hrun]
      · have hfirst : st'.words f = readWord b st.written.length v := by
          rw [hrest f hnot, hkeep f (Ne.symm hne), hread]
        rw [hnumbers, List.map_cons, hmap, hfirst, hlen₂]
        rfl
      · rw [hnumbers, List.mem_cons, not_or] at hg
        have hgn : g ≠ f.next := fun he => hg.2 (he ▸ hself')
        rw [hrest g hg.2, hkeep g hgn, hothers g hg.1]
      · have h₁ : st.written <+: st₂.written := by
          rw [hw₂]
          exact List.prefix_append _ _
        exact h₁.trans hpre

end Fields

section RoundTrip

variable {b : Buffer} {p q : Spwd} {name pwd name' : Str} {line fp : List UInt8} {vs : List ℕ}

def Spwd.values (p : Spwd) : List ℕ :=
  [p.sp_lstchg, p.sp_min, p.sp_max, p.sp_warn, p.sp_inact, p.sp_expire, p.sp_flag]

/-- No `':'`, no newline and no NUL. -/
def Clean (s : Str) : Prop := 0 ∉ s ∧ COLON ∉ s ∧ NEWLINE ∉ s

instance (s : Str) : Decidable (Clean s) := inferInstanceAs (Decidable (_ ∧ _))

/-- A buffer in memory that has room for two strings, beside the static empty string. -/
structure Holds (b : Buffer) (name pwd : Str) : Prop where
  address : b.address ≠ 0
  bound : b.address + b.buflen ≤ 2 ^ 32
  space : b.space < b.address ∨ b.address + b.buflen ≤ b.space
  room : name.length + 1 + (pwd.length + 1) ≤ b.buflen

theorem Clean.plain {s : Str} (h : Clean s) : ∀ c ∈ s, c ≠ COLON ∧ c ≠ NEWLINE := by
  rintro c hc
  exact ⟨fun he => h.2.1 (he ▸ hc), fun he => h.2.2 (he ▸ hc)⟩

theorem str_eq {st : St} {u : ℕ} {s : Str} {post : List UInt8} (hb : Holds b name pwd)
    (hu : u < b.buflen) (h0 : 0 ∉ s) (hw : st.written.drop u = s ++ 0 :: post) :
    st.str b (b.address + u) = some s := by
  have hspace : b.address + u ≠ b.space := by
    rcases hb.space with h | h <;> omega
  have hlt : u < st.written.length := by
    by_contra hle
    rw [List.drop_eq_nil_of_le (not_lt.mp hle)] at hw
    simp at hw
  have hin : b.address ≤ b.address + u ∧ b.address + u < b.address + st.written.length := by
    omega
  rw [St.str, if_neg hspace, if_pos hin, Nat.add_sub_cancel_left, hw, cstr_append h0]

theorem frun_field {st : St} {w : Str} {f : ParseState} (fp : List UInt8)
    (hstate : st.state = .namp ∨ st.state = .pwdp) (haddress : b.address ≠ 0)
    (hbound : b.address + b.buflen ≤ 2 ^ 32)
    (hword : st.words st.state = b.address + st.written.length)
    (hroom : st.written.length + w.length < b.buflen) (hw : Clean w) (hf : f = st.state.next) :
    ∃ st', frun b st (w ++ COLON :: fp) = frun b st' fp ∧ st'.state = f ∧
      st'.written = st.written ++ w ++ [0] ∧
      st'.words = (if st'.written.length < b.buflen then
        Function.update st.words f (b.address + st'.written.length) else st.words) ∧
      st'.numerical_error = false := by
  have hne : st.words st.state ≠ 0 := by omega
  have hfin : st.state ≠ .finished ∧ f ≠ .finished := by
    rw [hf]
    rcases hstate with h | h <;> rw [h] <;> decide
  have hstr := frun_string (b := b) fp hstate hne (by omega) hw.plain
  set st₁ : St := { st with written := st.written ++ w } with hst₁
  have hlen₁ : st₁.written.length < b.buflen := by
    rw [hst₁, List.length_append]
    exact hroom
  obtain ⟨st₂, hrun₂, hs₂, hw₂, hwords₂, herr₂⟩ :=
    frun_colon (b := b) (f := f) fp (fun _ => hlen₁) hf hfin
  refine ⟨st₂, hstr.trans hrun₂, hs₂, ?_, ?_, herr₂⟩
  · rw [hw₂, if_pos (show st₁.words st₁.state ≠ 0 from hne)]
  · rw [hwords₂]
    by_cases hlt : st₂.written.length < b.buflen
    · rw [if_pos hlt, if_pos hlt, Nat.mod_eq_of_lt (by omega)]
    · rw [if_neg hlt, if_neg hlt]

theorem frun_line (fp : Str) (hb : Holds b name pwd) (hname : Clean name) (hpwd : Clean pwd)
    (hlen : vs.length = 7) (hvs : ∀ v ∈ vs, Number v) :
    ∃ st, frun b (start b) (name ++ COLON :: (pwd ++ COLON :: (numbersText vs ++
        NEWLINE :: fp))) = some (st, fp) ∧
      (st.spwd b).sp_namp = some name ∧ (st.spwd b).sp_pwdp = some pwd ∧
      (st.spwd b).values = readWords b (name.length + 1 + (pwd.length + 1)) vs := by
  have hroom := hb.room
  have hwords₀ : (start b).words .namp = b.address + 0 := rfl
  -- the name, the password, and then the numbers
  obtain ⟨st₁, hrun₁, hs₁, hw₁, hwords₁, -⟩ := frun_field (b := b) (w := name) (f := .pwdp)
    (pwd ++ COLON :: (numbersText vs ++ NEWLINE :: fp)) (Or.inl rfl) hb.address hb.bound hwords₀
    (show 0 + name.length < _ by omega) hname rfl
  change _ = [] ++ name ++ [0] at hw₁
  rw [List.nil_append] at hw₁
  have hlen₁ : st₁.written.length = name.length + 1 := by
    rw [hw₁, List.length_append, List.length_singleton]
  rw [if_pos (by omega), hlen₁] at hwords₁
  obtain ⟨st₂, hrun₂, hs₂, hw₂, hwords₂, herr₂⟩ := frun_field (b := b) (w := pwd) (f := .lstchg)
    (numbersText vs ++ NEWLINE :: fp) (Or.inr hs₁) hb.address hb.bound
    (by rw [hs₁, hwords₁, Function.update_self, hlen₁]) (by omega) hpwd (by rw [hs₁]; rfl)
  have hlen₂ : st₂.written.length = name.length + 1 + (pwd.length + 1) := by
    rw [hw₂, List.length_append, List.length_append, hlen₁, List.length_singleton]
    omega
  have hkeep : ∀ g, g ≠ .lstchg → st₂.words g = st₁.words g := by
    intro g hg
    rw [hwords₂]
    by_cases hlt : st₂.written.length < b.buflen
    · rw [if_pos hlt, Function.update_of_ne hg]
    · rw [if_neg hlt]
  have hzero : ∀ g, g ≠ .namp → g ≠ .pwdp → st₁.words g = 0 := by
    intro g hgn hgp
    rw [hwords₁, Function.update_of_ne hgp]
    show Function.update (Function.update (fun _ => 0) .pwdp b.space) .namp b.address g = 0
    rw [Function.update_of_ne hgn, Function.update_of_ne hgp]
  have hbegins : Begins b st₂ .lstchg := by
    refine ⟨hs₂, herr₂, ?_, fun g hg hne => ?_⟩
    · rw [hwords₂]
      by_cases hlt : st₂.written.length < b.buflen
      · rw [if_pos hlt, if_pos hlt, Function.update_self]
      · rw [if_neg hlt, if_neg hlt]
        exact hzero _ (by decide) (by decide)
    · have hall : ∀ g ∈ ParseState.lstchg.numbers, g ≠ .namp ∧ g ≠ .pwdp := by decide
      rw [hkeep g hne, hzero g (hall g hg).1 (hall g hg).2]
  obtain ⟨st₃, hrun₃, hmap₃, hkeep₃, post, hpost⟩ := frun_numbers fp hb.bound hvs
    (by decide) (by rw [hlen]; rfl) hbegins
  have hwritten : st₃.written = (name ++ [0]) ++ (pwd ++ 0 :: post) := by
    rw [← hpost, hw₂, hw₁]
    simp only [List.append_assoc, List.cons_append, List.nil_append]
  -- the strings stand where their words point to, since what has been written is not written again
  refine ⟨st₃, by rw [hrun₁, hrun₂, hrun₃], ?_, ?_, ?_⟩
  · have hword : st₃.words .namp = b.address + 0 := by
      rw [hkeep₃ _ (by decide), hkeep _ (by decide), hwords₁, Function.update_of_ne (by decide),
        hwords₀]
    have hdrop : st₃.written.drop 0 = name ++ 0 :: (pwd ++ 0 :: post) := by
      rw [hwritten, List.drop_zero, List.append_assoc]
      rfl
    show st₃.str b (st₃.words .namp) = some name
    rw [hword]
    exact str_eq hb (by omega) hname.1 hdrop
  · have hword : st₃.words .pwdp = b.address + (name.length + 1) := by
      rw [hkeep₃ _ (by decide), hkeep _ (by decide), hwords₁, Function.update_self]
    have hdrop : st₃.written.drop (name.length + 1) = pwd ++ 0 :: post := by
      have hl : (name ++ [0]).length = name.length + 1 := by
        rw [List.length_append, List.length_singleton]
      rw [hwritten, ← hl, List.drop_left]
    show st₃.str b (st₃.words .pwdp) = some pwd
    rw [hword]
    exact str_eq hb (by omega) hpwd.1 hdrop
  · rw [hlen₂] at hmap₃
    exact hmap₃

def Head (name : Str) : Prop := ∀ c, name.head? = some c → ¬ IsBlank c ∧ c ≠ HASH

theorem skip_comment (h : Bare line) : skip true line = none := by
  induction line with
  | nil => rfl
  | cons c line ih =>
    have hc : decide (c ≠ NEWLINE) = true := decide_eq_true h.tail.1
    rw [skip, if_neg (h.dropped []).2, if_pos rfl, hc, ih h.tail.2.2]

theorem skip_line (h : Bare (name ++ COLON :: fp)) :
    skip false (name ++ COLON :: fp) = none ∨ ∃ name', name' <:+ name ∧ Head name' ∧
      skip false (name ++ COLON :: fp) = some (name' ++ COLON :: fp) := by
  induction name with
  | nil =>
    refine Or.inr ⟨[], List.suffix_rfl, fun c h => absurd h (by simp), ?_⟩
    exact skip_entry (by decide) (by decide)
  | cons c name ih =>
    have hd : ¬ Dropped c (name ++ COLON :: fp) := (h.dropped []).2
    have hrest : Bare (name ++ COLON :: fp) := h.tail.2.2
    rw [List.cons_append, skip, if_neg hd, if_neg (by decide)]
    by_cases hb : IsBlank c
    · rw [if_pos hb]
      rcases ih hrest with hnone | ⟨name', hsuffix, hhead, hskip⟩
      · exact Or.inl hnone
      · exact Or.inr ⟨name', hsuffix.trans (List.suffix_cons c name), hhead, hskip⟩
    rw [if_neg hb]
    by_cases hh : c = HASH
    · rw [if_pos hh, skip_comment hrest]
      exact Or.inl rfl
    · rw [if_neg hh]
      refine Or.inr ⟨c :: name, List.suffix_rfl, fun d hd => ?_, rfl⟩
      obtain rfl := Option.some.inj hd
      exact ⟨hb, hh⟩

/-- The entries that a shadow file can hold. -/
structure Valid (p : Spwd) (name : Str) : Prop where
  namp : p.sp_namp = some name
  name : Clean name
  pwdp : Clean (p.sp_pwdp.getD [])
  numbers : ∀ v ∈ p.values, Number v

/-- Equal entries, where a `NULL` password is an empty one. -/
def Same (p q : Spwd) : Prop :=
  { p with sp_pwdp := some (p.sp_pwdp.getD []) } = { q with sp_pwdp := some (q.sp_pwdp.getD []) }

/-- Both readers give back the entry: the one from the line without its newline, the other
from a file that begins with the line. -/
def RoundTrips (p : Spwd) (b : Buffer) : Prop :=
  ∃ line, putspent p = some (line ++ [NEWLINE]) ∧ ∀ junk rest, ∃ q, Same q p ∧
    sgetspentR (some (line ++ 0 :: junk)) b = some (.entry q) ∧
    fgetspentR (some (line ++ NEWLINE :: rest)) b = some (.entry q, rest)

/-- Each number happens to be the address of the first free byte of the buffer times ten to
the number of its digits, or 0 when the buffer is full. -/
def Accident (b : Buffer) : ℕ → List ℕ → Prop
  | _, [] => True
  | u, v :: vs =>
    v = (if u < b.buflen then (b.address + u) * 10 ^ (putLong v).length % 2 ^ 32 else 0) ∧
      Accident b (if v ≠ 0 then u + 1 else u) vs

theorem readWords_eq_iff (u : ℕ) : readWords b u vs = vs ↔ Accident b u vs := by
  induction vs generalizing u with
  | nil => exact iff_of_true rfl trivial
  | cons v vs ih =>
    rw [readWords, List.cons.injEq]
    constructor
    · rintro ⟨hv, hvs⟩
      rw [hv] at hvs
      exact ⟨hv.symm, (ih _).mp hvs⟩
    · rintro ⟨hv, hvs⟩
      have hv' : readWord b u v = v := hv.symm
      rw [hv']
      exact ⟨rfl, (ih _).mpr hvs⟩

theorem putspent_eq (h : Valid p name) : putspent p = some (name ++ COLON ::
    (p.sp_pwdp.getD [] ++ COLON :: numbersText p.values) ++ [NEWLINE]) := by
  simp only [putspent, h.namp, Option.bind_eq_bind, Option.bind_some, Spwd.values, numbersText,
    List.append_assoc, List.cons_append]

theorem bare_line (h : Valid p name) :
    0 ∉ name ++ COLON :: (p.sp_pwdp.getD [] ++ COLON :: numbersText p.values) ∧
      Bare (name ++ COLON :: (p.sp_pwdp.getD [] ++ COLON :: numbersText p.values)) := by
  have hdigit : ∀ c, IsDigit c → c ≠ 0 ∧ c ≠ NEWLINE ∧ c ≠ CR := by
    rintro c ⟨h1, h2⟩
    have h1 : 48 ≤ c.toNat := UInt8.le_iff_toNat_le.mp h1
    have hne : ∀ d : UInt8, d.toNat < 48 → c ≠ d := by
      rintro d hd rfl
      omega
    exact ⟨hne _ (by decide), hne _ (by decide), hne _ (by decide)⟩
  have hnumbers : ∀ vs : List ℕ, (∀ v ∈ vs, Number v) → ∀ c ∈ COLON :: numbersText vs,
      c ≠ 0 ∧ c ≠ NEWLINE ∧ c ≠ CR := by
    intro vs hvs
    induction vs with
    | nil => exact List.forall_mem_singleton.mpr (by decide)
    | cons v vs ih =>
      have hv : ∀ c ∈ putLong v, c ≠ 0 ∧ c ≠ NEWLINE ∧ c ≠ CR :=
        fun c hc => hdigit c (putLong_digits (hvs v List.mem_cons_self) hc)
      have hrest := ih fun v h => hvs v (List.mem_cons_of_mem _ h)
      have hcolon : (COLON : UInt8) ≠ 0 ∧ COLON ≠ NEWLINE ∧ COLON ≠ CR := by decide
      intro c hc
      rcases List.mem_cons.mp hc with rfl | hc
      · exact hcolon
      · cases vs with
        | nil => exact hv c hc
        | cons v' vs =>
          rcases List.mem_append.mp hc with hc | hc
          · exact hv c hc
          · exact hrest c hc
  have htail := hnumbers p.values h.numbers
  set text := numbersText p.values with htext
  have hassoc : name ++ COLON :: (p.sp_pwdp.getD [] ++ COLON :: text) =
      (name ++ COLON :: p.sp_pwdp.getD []) ++ COLON :: text := by
    simp only [List.append_assoc, List.cons_append]
  have hlast : ((name ++ COLON :: p.sp_pwdp.getD []) ++ COLON :: text).getLast? ≠ some CR := by
    rw [List.getLast?_append]
    intro hcr
    have hsome : (COLON :: text).getLast?.isSome := by simp
    obtain ⟨d, hd⟩ := Option.isSome_iff_exists.mp hsome
    rw [hd, Option.some_or, Option.some.injEq] at hcr
    exact (htail d (List.mem_of_getLast? hd)).2.2 hcr
  have h0 : 0 ∉ COLON :: text := fun h => (htail 0 h).1 rfl
  have hnl : NEWLINE ∉ COLON :: text := fun h => (htail _ h).2.1 rfl
  rw [hassoc]
  refine ⟨?_, ?_, hlast⟩
  · rw [List.mem_append, List.mem_append, List.mem_cons, not_or, not_or, not_or]
    exact ⟨⟨h.name.1, by decide, h.pwdp.1⟩, h0⟩
  · rw [List.mem_append, List.mem_append, List.mem_cons, not_or, not_or, not_or]
    exact ⟨⟨h.name.2.2, by decide, h.pwdp.2.2⟩, hnl⟩

theorem Spwd.eq_of_values (hnamp : q.sp_namp = p.sp_namp) (hpwdp : q.sp_pwdp = p.sp_pwdp)
    (hvalues : q.values = p.values) : q = p := by
  cases p
  cases q
  simp only [Spwd.values, List.cons.injEq, and_true] at hvalues
  obtain ⟨h₁, h₂, h₃, h₄, h₅, h₆, h₇⟩ := hvalues
  simp only at hnamp hpwdp
  rw [hnamp, hpwdp, h₁, h₂, h₃, h₄, h₅, h₆, h₇]

theorem same_iff : Same q p ↔ q.sp_namp = p.sp_namp ∧ q.sp_pwdp.getD [] = p.sp_pwdp.getD [] ∧
    q.values = p.values := by
  unfold Same
  constructor
  · intro h
    have hnamp := congrArg (fun p : Spwd => p.sp_namp) h
    have hpwdp := congrArg (fun p : Spwd => p.sp_pwdp) h
    have hvalues := congrArg Spwd.values h
    exact ⟨hnamp, Option.some.inj hpwdp, hvalues⟩
  · rintro ⟨hnamp, hpwdp, hvalues⟩
    exact Spwd.eq_of_values hnamp (congrArg some hpwdp) hvalues

/-- What `fgetspent_r` makes of a line whose name is read from its first character on. -/
theorem fgetspent_r_line (fp : Str) (hb : Holds b name pwd) (hname : Clean name) (hhead : Head name)
    (hpwd : Clean pwd) (hlen : vs.length = 7) (hvs : ∀ v ∈ vs, Number v) : ∃ q,
      (∀ stream, skip false stream = some (name ++ COLON :: (pwd ++ COLON :: (numbersText vs ++
        NEWLINE :: fp))) → fgetspentR (some stream) b = some (.entry q, fp)) ∧
      skip false (name ++ COLON :: (pwd ++ COLON :: (numbersText vs ++ NEWLINE :: fp))) =
        some (name ++ COLON :: (pwd ++ COLON :: (numbersText vs ++ NEWLINE :: fp))) ∧
      q.sp_namp = some name ∧ q.sp_pwdp = some pwd ∧
      q.values = readWords b (name.length + 1 + (pwd.length + 1)) vs := by
  obtain ⟨st, hrun, hnamp, hpwdp, hvalues⟩ := frun_line fp hb hname hpwd hlen hvs
  have hchecked : b.checked = b := if_neg hb.address
  refine ⟨st.spwd b, fun stream hskip => ?_, ?_, hnamp, hpwdp, hvalues⟩
  · simp only [fgetspentR, hskip, hchecked, hrun, Option.map_some]
  · cases name with
    | nil => exact skip_entry (by decide) (by decide)
    | cons c name =>
      obtain ⟨hblank, hhash⟩ := hhead c rfl
      exact skip_entry hblank hhash

/-- The exact condition on the round trip; the agreement of the readers has none. -/
theorem putspent_getspent_iff (h : Valid p name) (hb : Holds b name (p.sp_pwdp.getD [])) :
    (RoundTrips p b ↔ Head name ∧
      Accident b (name.length + 1 + ((p.sp_pwdp.getD []).length + 1)) p.values) ∧
    (∀ b line junk, 0 ∉ line →
      sgetspentR (some (line ++ 0 :: junk)) b = (fgetspentR (some line) b).map Prod.fst) ∧
    ∀ b line junk, 0 ∉ line → Bare line → sgetspentR (some (line ++ 0 :: junk)) b =
      (fgetspentR (some (line ++ [NEWLINE])) b).map Prod.fst := by
  refine ⟨?_, fun b line junk h0 => readers_agree h0, fun b line junk => readers_agree_newline⟩
  have hput := putspent_eq h
  obtain ⟨h0, hbare⟩ := bare_line h
  set pwd := p.sp_pwdp.getD [] with hpwd
  set line := name ++ COLON :: (pwd ++ COLON :: numbersText p.values) with hline
  have htext : ∀ fp, line ++ NEWLINE :: fp =
      name ++ COLON :: (pwd ++ COLON :: (numbersText p.values ++ NEWLINE :: fp)) := by
    intro fp
    simp only [hline, List.append_assoc, List.cons_append]
  constructor
  · rintro ⟨line', hline', htrip⟩
    obtain rfl : line = line' := List.append_cancel_right (Option.some.inj (hput.symm.trans hline'))
    obtain ⟨q, hsame, -, hget⟩ := htrip [] []
    obtain ⟨hnamp, -, hvalues⟩ := same_iff.mp hsame
    have hskip : skip false (line ++ [NEWLINE]) = (skip false line).map (· ++ [NEWLINE]) :=
      skip_newline hbare
    -- the reader skips what stands in front of the name, or the whole line
    rcases skip_line hbare with hnone | ⟨name', hsuffix, hhead, hsome⟩
    · rw [hnone, Option.map_none] at hskip
      simp only [fgetspentR, hskip, Option.some.injEq, Prod.mk.injEq, reduceCtorEq,
        false_and] at hget
    · have hname' : Clean name' := ⟨fun hc => h.name.1 (hsuffix.subset hc),
        fun hc => h.name.2.1 (hsuffix.subset hc), fun hc => h.name.2.2 (hsuffix.subset hc)⟩
      have hb' : Holds b name' pwd := by
        have hle := hsuffix.length_le
        have hroom := hb.room
        exact ⟨hb.address, hb.bound, hb.space, by omega⟩
      obtain ⟨q', hget', -, hnamp', -, hvalues'⟩ := fgetspent_r_line [] hb' hname' hhead
        h.pwdp rfl h.numbers
      have heq := hget.symm.trans (hget' (line ++ [NEWLINE]) (by
        rw [hskip, hsome, Option.map_some]
        simp only [List.append_assoc, List.cons_append]))
      obtain rfl : q = q' := Result.entry.inj (Prod.mk.inj (Option.some.inj heq)).1
      have hnn : name' = name := by
        rw [hnamp, h.namp] at hnamp'
        exact (Option.some.inj hnamp').symm
      rw [hnn] at hhead hvalues'
      refine ⟨hhead, (readWords_eq_iff _).mp ?_⟩
      rw [← hvalues', hvalues]
  · rintro ⟨hhead, haccident⟩
    refine ⟨line, hput, fun junk rest => ?_⟩
    obtain ⟨q, hget, hskip, hnamp, hpwdp, hvalues⟩ := fgetspent_r_line rest hb h.name hhead
      h.pwdp rfl h.numbers
    obtain ⟨q', hget', hskip', hnamp', hpwdp', hvalues'⟩ := fgetspent_r_line [] hb h.name
      hhead h.pwdp rfl h.numbers
    rw [(readWords_eq_iff _).mpr haccident] at hvalues hvalues'
    have hsame : Same q p :=
      same_iff.mpr ⟨by rw [hnamp, h.namp], by rw [hpwdp, Option.getD_some], hvalues⟩
    have hqq : q' = q := Spwd.eq_of_values (hnamp'.trans hnamp.symm) (hpwdp'.trans hpwdp.symm)
      (hvalues'.trans hvalues.symm)
    refine ⟨q, hsame, ?_, ?_⟩
    · rw [readers_agree_newline h0 hbare, htext, hget' _ hskip', hqq]
      rfl
    · rw [htext, hget _ hskip]

/-- The entry of `root` with the password `x`, a last change on day `v` and no other number. -/
def demo (v : ℕ) : Spwd :=
  ⟨some [114, 111, 111, 116], some [120], v, ABSENT, ABSENT, ABSENT, ABSENT, ABSENT, ABSENT⟩

def demoBuffer : Buffer := ⟨65536, 100, 4096⟩

theorem demo_valid : Valid (demo 12345) [114, 111, 111, 116] where
  namp := rfl
  name := by decide
  pwdp := show Clean [120] by decide
  numbers v hv := by
    have hv' : v = 12345 ∨ v = ABSENT := by simpa [Spwd.values, demo] using hv
    rcases hv' with rfl | rfl
    · exact Or.inr (by decide)
    · exact Or.inl rfl

theorem demoBuffer_holds : Holds demoBuffer [114, 111, 111, 116] ((demo 12345).sp_pwdp.getD []) :=
  ⟨by decide, by decide, Or.inl (by decide), by decide⟩

theorem putspent_getspent_iff_demo :
    (RoundTrips (demo 12345) demoBuffer ↔ Head [114, 111, 111, 116] ∧
      Accident demoBuffer ([114, 111, 111, 116].length + 1 +
        (((demo 12345).sp_pwdp.getD []).length + 1)) (demo 12345).values) ∧
    (∀ b line junk, 0 ∉ line →
      sgetspentR (some (line ++ 0 :: junk)) b = (fgetspentR (some line) b).map Prod.fst) ∧
    ∀ b line junk, 0 ∉ line → Bare line → sgetspentR (some (line ++ 0 :: junk)) b =
      (fgetspentR (some (line ++ [NEWLINE])) b).map Prod.fst :=
  putspent_getspent_iff demo_valid demoBuffer_holds

/-- The number 12345 is read as the address of a byte of the buffer times 100000. -/
theorem numbers_lost : Valid (demo 12345) [114, 111, 111, 116] ∧
    Holds demoBuffer [114, 111, 111, 116] ((demo 12345).sp_pwdp.getD []) ∧
    ¬ RoundTrips (demo 12345) demoBuffer := by
  refine ⟨demo_valid, demoBuffer_holds, ?_⟩
  rintro ⟨line, hline, htrip⟩
  have hput : putspent (demo 12345) = some ([114, 111, 111, 116, 58, 120, 58, 49, 50, 51, 52, 53,
      58, 58, 58, 58, 58, 58] ++ [NEWLINE]) := by decide +kernel
  obtain rfl := List.append_cancel_right (Option.some.inj (hline.symm.trans hput))
  obtain ⟨q, hsame, hget, -⟩ := htrip [] []
  have hread : (sgetspentR (some ([114, 111, 111, 116, 58, 120, 58, 49, 50, 51, 52, 53, 58, 58,
      58, 58, 58, 58] ++ 0 :: [])) demoBuffer).map (fun r => match r with
        | .entry q => q.sp_lstchg
        | _ => 0) = some ((65536 + 7) * 100000 % 2 ^ 32) := by decide +kernel
  rw [hget] at hread
  have hvalues := congrArg (fun p : Spwd => p.sp_lstchg) hsame
  have hone : q.sp_lstchg = (65536 + 7) * 100000 % 2 ^ 32 := Option.some.inj hread
  rw [show q.sp_lstchg = 12345 from hvalues] at hone
  exact absurd hone (by decide)

end RoundTrip

end Mintlib.Shadow
