import Mintlib.Lib.Text
import Mintlib.Lib.Checked
import Mintlib.Posix

/-!
# Running a script: `interpret_script` in `spawn.c`

The arguments in the first line are moved together in the buffer that they were read into, each with
a NUL behind it, and are found there again for the vector of the interpreter.
-/

namespace Mintlib.Script

open Text Checked Posix

abbrev BANG : UInt8 := 33

/-- `sizeof (buf)`. -/
def BUF : ℕ := 1024

abbrev Local := { mem : Str // mem.length = BUF }

abbrev Text := { text : Str // text.length ≤ BUF - 1 }

def isBlank (c : UInt8) : Bool := c = TAB ∨ c = BLANK

def isEnd (c : UInt8) : Bool := c = 0 ∨ c = CR ∨ c = NEWLINE

def isWord (c : UInt8) : Bool := ¬ isBlank c ∧ ¬ isEnd c

/-- `while (P (*bufp)) bufp++`. -/
def skip (P : UInt8 → Bool) (buf : Str) : ℕ → ℕ → Except Stop ℕ
  | 0, _ => .error .steps
  | steps + 1, bufp => do
    let c ← load buf bufp
    if P c then skip P buf steps (bufp + 1) else .ok bufp

/-- The loop that moves one argument: the buffer, `bufp` and `argp` behind it. -/
def copyWord : ℕ → Str → ℕ → ℕ → Except Stop (Str × ℕ × ℕ)
  | 0, _, _, _ => .error .steps
  | steps + 1, buf, bufp, argp => do
    let c ← load buf bufp
    if isWord c then do
      let buf ← store buf argp c
      copyWord steps buf (bufp + 1) (argp + 1)
    else .ok (buf, bufp, argp)

/-- The loop over the arguments: the buffer, `argp` and `nargcount` behind it. -/
def argLoop : ℕ → Str → ℕ → ℕ → ℕ → Except Stop (Str × ℕ × ℕ)
  | 0, _, _, _, _ => .error .steps
  | steps + 1, buf, bufp, argp, nargcount => do
    let c ← load buf bufp
    if isEnd c then .ok (buf, argp, nargcount)
    else do
      let bufp ← skip isBlank buf (BUF + 1) bufp
      let c ← load buf bufp
      if c = CR ∨ c = NEWLINE then .ok (buf, argp, nargcount)
      else do
        let (buf, bufp, argp) ← copyWord (BUF + 1) buf bufp argp
        let buf ← store buf argp 0
        argLoop steps buf bufp (argp + 1) (nargcount + 1)

/-- The NUL behind the name of the interpreter, and where the arguments begin, if it stands in front
of a blank. -/
def cutShell (buf : Str) (bufp : ℕ) : Except Stop (Str × ℕ) := do
  let c ← load buf bufp
  if isEnd c then .ok (buf, bufp)
  else do
    let buf ← store buf bufp 0
    .ok (buf, bufp + 1)

/-- The buffer with all its NULs, `shell`, `shellargs` and `nargcount`. -/
structure Parsed where
  buf : Str
  shell : ℕ
  shellargs : ℕ
  nargcount : ℕ

def parse (buf : Str) : Except Stop Parsed := do
  let shell ← skip isBlank buf (BUF + 1) 2
  let bufp ← skip isWord buf (BUF + 1) shell
  let (buf, shellargs) ← cutShell buf bufp
  let (buf, argp, nargcount) ← argLoop (BUF + 1) buf shellargs shellargs 0
  let buf ← store buf argp 0
  .ok ⟨buf, shell, shellargs, nargcount⟩

/-- `shellargv[i++] = s`, in a vector with room for `room` pointers. -/
def push (room : ℕ) (shellargv : List Str) (s : Str) : Except Stop (List Str) :=
  if shellargv.length < room then .ok (shellargv ++ [s]) else .error .bounds

def collect (room : ℕ) (buf : Str) : ℕ → ℕ → List Str → Except Stop (List Str)
  | 0, _, _ => .error .steps
  | steps + 1, shellargs, shellargv => do
    let c ← load buf shellargs
    if c = 0 then .ok shellargv
    else do
      let shellargv ← push room shellargv (cstr (buf.drop shellargs))
      let next ← skip (· ≠ 0) buf (BUF + 1) shellargs
      collect room buf steps (next + 1) shellargv

/-- The loop over the old arguments, and the `NULL` behind them. -/
def pushAll (room : ℕ) : List Str → List Str → Except Stop (List Str)
  | [], shellargv => if shellargv.length < room then .ok shellargv else .error .bounds
  | a :: argv, shellargv => do
    let shellargv ← push room shellargv a
    pushAll room argv shellargv

/-- The whole vector; `_path` is the script. -/
def build (room : ℕ) (parsed : Parsed) (shell _path : Str) (argv : List Str) :
    Except Stop (List Str) := do
  let shellargv ← push room [] shell
  let shellargv ← collect room parsed.buf (BUF + 1) parsed.shellargs shellargv
  let shellargv ← push room shellargv _path
  match argv with
  | [] => .error .bounds
  | _ :: argv => pushAll room argv shellargv

/-- How it ends: with a call of `_spawnve`, or with an error. -/
inductive Answer
  | spawn (path : Str) (argv : List Str)
  | error (errno : ℤ)
deriving DecidableEq

/-- The pointers that there is room for when `n` of them were asked for. -/
def pointers (n : ℕ) : ℕ := (n * 4) % 2 ^ 32 / 4

/-- `interpret_script`: `file` is what `Fopen` and `Fread` give, `findfile` is `_buffindfile` with
the search path, and `malloc` says whether `Malloc` gives a block. -/
def interpretScript (findfile : Str → Option Str) (malloc : Bool) (file : Except ℤ Text)
    (junk : Local) (_path : Str) (argv : List Str) : Except Stop Answer :=
  match file with
  | .error errno => .ok (.error errno)
  | .ok text => do
    let buf := text.1 ++ 0 :: junk.1.drop (text.1.length + 1)
    if buf[0]? = some HASH ∧ buf[1]? = some BANG then do
      let parsed ← parse buf
      let name := cstr (parsed.buf.drop parsed.shell)
      if name = [] then .ok (.error ENOEXEC)
      else match findfile name with
        | none => .ok (.error ENOENT)
        | some shell =>
          if malloc then do
            let room := pointers (argv.length + parsed.nargcount + 2)
            let shellargv ← build room parsed shell _path argv
            .ok (.spawn shell shellargv)
          else .ok (.error ENOMEM)
    else .ok (.error ENOEXEC)

/-- A script: `#!`, blanks, the interpreter, arguments with blanks in front of each, more blanks if
the line has an end, and the rest, which begins with that. -/
structure Line where
  lead : Str
  interp : Str
  args : List (Str × Str)
  trail : Str
  rest : Str
  lead_blank : ∀ c ∈ lead, isBlank c
  interp_word : ∀ c ∈ interp, isWord c
  interp_ne : interp ≠ []
  gap_blank : ∀ p ∈ args, ∀ c ∈ p.1, isBlank c
  gap_ne : ∀ p ∈ args, p.1 ≠ []
  arg_word : ∀ p ∈ args, ∀ c ∈ p.2, isWord c
  arg_ne : ∀ p ∈ args, p.2 ≠ []
  trail_blank : ∀ c ∈ trail, isBlank c
  rest_end : (rest = [] ∧ trail = []) ∨ ∃ c ∈ rest.head?, c = CR ∨ c = NEWLINE

def spread (args : List (Str × Str)) : Str := args.flatMap fun p => p.1 ++ p.2

def packed (args : List (Str × Str)) : Str := args.flatMap fun p => p.2 ++ [0]

def Line.text (l : Line) : Str :=
  HASH :: BANG :: l.lead ++ l.interp ++ spread l.args ++ l.trail ++ l.rest

/-- A script of which no more is read than the buffer has room for. -/
structure Script extends Line where
  fits : toLine.text.length ≤ BUF - 1

/-- The vector that the interpreter is to have; `_path` is the script. -/
def Line.vector (l : Line) (shell _path : Str) (argv : List Str) : List Str :=
  shell :: l.args.map Prod.snd ++ _path :: argv.tail

section Scan

variable {buf A G M w : Str} {c d : UInt8} {i steps : ℕ} {P : UInt8 → Bool}

theorem load_at (hbuf : buf = A ++ c :: M) (hi : i = A.length) : load buf i = .ok c := by
  rw [hbuf, hi, load_append]

theorem store_at (hbuf : buf = A ++ c :: M) (hi : i = A.length) (d : UInt8) :
    store buf i d = .ok (A ++ d :: M) := by
  rw [hbuf, hi, store_append]

theorem skip_at (hc : P c = false) : ∀ (w A : Str) (i steps : ℕ), buf = A ++ w ++ c :: M →
    i = A.length → (∀ x ∈ w, P x = true) → w.length < steps →
    skip P buf steps i = .ok (i + w.length) := by
  intro w
  induction w with
  | nil =>
    intro A i steps hbuf hi _ hsteps
    obtain ⟨steps, rfl⟩ := Nat.exists_eq_succ_of_ne_zero (Nat.ne_zero_of_lt hsteps)
    rw [List.append_nil] at hbuf
    rw [skip, load_at hbuf hi, ok_bind, if_neg (by rw [hc]; exact Bool.false_ne_true)]
    rfl
  | cons x w ih =>
    intro A i steps hbuf hi hw hsteps
    obtain ⟨hx, hrest⟩ := List.forall_mem_cons.mp hw
    rw [List.length_cons] at hsteps
    obtain ⟨steps, rfl⟩ := Nat.exists_eq_succ_of_ne_zero (Nat.ne_zero_of_lt hsteps)
    have hhead : buf = A ++ x :: (w ++ c :: M) := by
      rw [hbuf, List.append_assoc, List.cons_append]
    have hnext : buf = A ++ [x] ++ w ++ c :: M := by
      rw [hhead, List.append_assoc, List.append_assoc, List.singleton_append]
    rw [skip, load_at hhead hi, ok_bind, if_pos hx,
      ih (A ++ [x]) (i + 1) steps hnext (by rw [hi, List.length_append]; rfl) hrest (by omega),
      List.length_cons, Nat.add_right_comm, Nat.add_assoc]

theorem copyWord_at (hc : isWord c = false) : ∀ (w A G : Str) (steps : ℕ),
    (∀ x ∈ w, isWord x = true) → w.length < steps → ∃ G', G'.length = G.length ∧
      copyWord steps (A ++ G ++ w ++ c :: M) (A.length + G.length) A.length =
        .ok (A ++ w ++ G' ++ c :: M, A.length + w.length + G.length, A.length + w.length) := by
  intro w
  induction w with
  | nil =>
    intro A G steps _ hsteps
    obtain ⟨steps, rfl⟩ := Nat.exists_eq_succ_of_ne_zero (Nat.ne_zero_of_lt hsteps)
    refine ⟨G, rfl, ?_⟩
    rw [List.append_nil, List.append_nil, copyWord,
      load_at rfl List.length_append.symm, ok_bind,
      if_neg (by rw [hc]; exact Bool.false_ne_true)]
    rfl
  | cons x w ih =>
    intro A G steps hw hsteps
    obtain ⟨hx, hrest⟩ := List.forall_mem_cons.mp hw
    rw [List.length_cons] at hsteps
    obtain ⟨steps, rfl⟩ := Nat.exists_eq_succ_of_ne_zero (Nat.ne_zero_of_lt hsteps)
    -- the first byte between the two places, or the one that is moved
    obtain ⟨y, Y, hY⟩ : ∃ y Y, G ++ [x] = y :: Y := by
      cases G with
      | nil => exact ⟨x, [], rfl⟩
      | cons g G => exact ⟨g, G ++ [x], rfl⟩
    have hlen : Y.length = G.length := by
      have hboth := congrArg List.length hY
      rw [List.length_append] at hboth
      exact (Nat.succ.inj hboth).symm
    have hload : A ++ G ++ x :: w ++ c :: M = (A ++ G) ++ x :: (w ++ c :: M) := by
      rw [List.append_assoc _ (x :: w), List.cons_append]
    have hput : A ++ G ++ x :: w ++ c :: M = A ++ y :: (Y ++ (w ++ c :: M)) := by
      rw [hload, List.append_assoc, List.append_cons, hY, List.cons_append]
    have hstored : A ++ x :: (Y ++ (w ++ c :: M)) = (A ++ [x]) ++ Y ++ w ++ c :: M := by
      simp only [List.append_assoc, List.cons_append, List.nil_append]
    obtain ⟨G', hG', hcopy⟩ := ih (A ++ [x]) Y steps hrest (by omega)
    refine ⟨G', hG'.trans hlen, ?_⟩
    have hA : (A ++ [x]).length = A.length + 1 := List.length_append
    have hbuf : (A ++ [x]) ++ w ++ G' ++ c :: M = A ++ x :: w ++ G' ++ c :: M := by
      rw [List.append_assoc A, List.singleton_append]
    have hbufp : A.length + G.length + 1 = (A ++ [x]).length + Y.length := by omega
    have hnext : (A ++ [x]).length + w.length + Y.length = A.length + (x :: w).length + G.length := by
      rw [List.length_cons]
      omega
    have hargp : (A ++ [x]).length + w.length = A.length + (x :: w).length := by
      rw [List.length_cons]
      omega
    rw [copyWord, load_at hload List.length_append.symm, ok_bind, if_pos hx,
      store_at hput rfl, ok_bind, hstored, hbufp, ← hA, hcopy, hbuf, hnext, hargp]

end Scan

section Args

variable {A G M g a : Str} {c e : UInt8} {steps n : ℕ}

theorem isEnd_of_isBlank (h : isBlank c = true) : isEnd c = false := by
  rw [isBlank, decide_eq_true_eq] at h
  rcases h with rfl | rfl <;> rfl

theorem isEnd_of_isWord (h : isWord c = true) : isEnd c = false := by
  rw [isWord, decide_eq_true_eq] at h
  exact Bool.eq_false_iff.mpr h.2

theorem isBlank_of_isWord (h : isWord c = true) : isBlank c = false := by
  rw [isWord, decide_eq_true_eq] at h
  exact Bool.eq_false_iff.mpr h.1

theorem isWord_of_isBlank (h : isBlank c = true) : isWord c = false := by
  rw [isWord, decide_eq_false_iff_not]
  exact fun hword => hword.1 h

theorem isWord_of_isEnd (h : isEnd c = true) : isWord c = false := by
  rw [isWord, decide_eq_false_iff_not]
  exact fun hword => hword.2 h

theorem isBlank_of_isEnd (h : isEnd c = true) : isBlank c = false := by
  by_contra hblank
  rw [isEnd_of_isBlank (Bool.eq_true_of_not_eq_false hblank)] at h
  exact Bool.false_ne_true h

variable (A G M n) in
theorem argLoop_end {trail : Str} (htrail : ∀ x ∈ trail, isBlank x = true) (hend : isEnd e = true)
    (hline : trail = [] ∨ e = CR ∨ e = NEWLINE) (hlen : trail.length ≤ BUF) (hsteps : 0 < steps) :
    argLoop steps (A ++ G ++ trail ++ e :: M) (A.length + G.length) A.length n =
      .ok (A ++ G ++ trail ++ e :: M, A.length, n) := by
  obtain ⟨steps, rfl⟩ := Nat.exists_eq_succ_of_ne_zero (Nat.ne_zero_of_lt hsteps)
  rw [argLoop]
  cases trail with
  | nil =>
    rw [List.append_nil, load_at rfl List.length_append.symm, ok_bind, if_pos hend]
  | cons b trail =>
    have hbreak : e = CR ∨ e = NEWLINE := hline.resolve_left (List.cons_ne_nil b trail)
    have hb : isEnd b = false := isEnd_of_isBlank (htrail b List.mem_cons_self)
    have hhead : A ++ G ++ b :: trail ++ e :: M = (A ++ G) ++ b :: (trail ++ e :: M) := by
      rw [List.append_assoc _ (b :: trail), List.cons_append]
    have hskip := skip_at (M := M) (isBlank_of_isEnd hend) (b :: trail) (A ++ G)
      (A.length + G.length) (BUF + 1) rfl List.length_append.symm htrail (Nat.lt_succ_of_le hlen)
    have hbufp : A.length + G.length + (b :: trail).length = (A ++ G ++ b :: trail).length := by
      rw [List.length_append, List.length_append]
    rw [load_at hhead List.length_append.symm, ok_bind, if_neg (by rw [hb]; exact Bool.false_ne_true),
      hskip, ok_bind, load_at rfl hbufp, ok_bind, if_pos hbreak]

variable (A G M steps n) in
theorem argLoop_word (hg : ∀ x ∈ g, isBlank x = true) (ha : ∀ x ∈ a, isWord x = true) (hne : a ≠ [])
    (hc : isWord c = false) (hlen : g.length + a.length ≤ BUF) :
    ∃ G', G'.length = G.length + g.length ∧
      argLoop (steps + 1) (A ++ G ++ g ++ a ++ c :: M) (A.length + G.length) A.length n =
        store (A ++ a ++ G' ++ c :: M) (A.length + a.length) 0 >>= fun buf =>
          argLoop steps buf (A.length + a.length + (G.length + g.length)) (A.length + a.length + 1)
            (n + 1) := by
  obtain ⟨x, a', rfl⟩ := List.exists_cons_of_ne_nil hne
  have hx : isWord x = true := ha x List.mem_cons_self
  obtain ⟨G', hG', hcopy⟩ := copyWord_at (M := M) hc (x :: a') A (G ++ g) (BUF + 1) ha (by omega)
  rw [List.length_append] at hG' hcopy
  refine ⟨G', hG', ?_⟩
  have hmem : A ++ (G ++ g) ++ x :: a' ++ c :: M = A ++ G ++ g ++ x :: (a' ++ c :: M) := by
    rw [← List.append_assoc A, List.append_assoc _ (x :: a'), List.cons_append]
  have hmem' : A ++ G ++ g ++ x :: a' ++ c :: M = A ++ (G ++ g) ++ x :: a' ++ c :: M := by
    rw [← List.append_assoc A]
  -- the first character is a blank or the first one of the argument
  obtain ⟨y, Y, hY, hy⟩ : ∃ y Y, g ++ x :: (a' ++ c :: M) = y :: Y ∧ isEnd y = false := by
    cases hgap : g with
    | nil => exact ⟨x, _, rfl, isEnd_of_isWord hx⟩
    | cons b g' => exact ⟨b, _, rfl, isEnd_of_isBlank (hg b (hgap ▸ List.mem_cons_self))⟩
  have hhead : A ++ (G ++ g) ++ x :: a' ++ c :: M = (A ++ G) ++ y :: Y := by
    rw [hmem, List.append_assoc (A ++ G), hY]
  have hskip := skip_at (isBlank_of_isWord hx) g (A ++ G)
    (A.length + G.length) (BUF + 1) hmem List.length_append.symm hg (by omega)
  have hbufp : A.length + G.length + g.length = (A ++ G ++ g).length := by
    rw [List.length_append, List.length_append]
  have hword : ¬ (x = CR ∨ x = NEWLINE) := by
    rintro (rfl | rfl)
    · exact absurd hx (by decide)
    · exact absurd hx (by decide)
  rw [argLoop, hmem', load_at hhead List.length_append.symm, ok_bind,
    if_neg (by rw [hy]; exact Bool.false_ne_true), hskip, ok_bind, load_at hmem hbufp, ok_bind,
    if_neg hword, Nat.add_assoc A.length G.length, hcopy]
  rfl

variable (A G M steps n) in
theorem argLoop_step (hg : ∀ x ∈ g, isBlank x = true) (ha : ∀ x ∈ a, isWord x = true) (hne : a ≠ [])
    (hc : isWord c = false) (hlen : g.length + a.length ≤ BUF) (hlag : 1 ≤ G.length + g.length) :
    ∃ G', G'.length + 1 = G.length + g.length ∧
      argLoop (steps + 1) (A ++ G ++ g ++ a ++ c :: M) (A.length + G.length) A.length n =
        argLoop steps ((A ++ (a ++ [0])) ++ G' ++ c :: M) ((A ++ (a ++ [0])).length + G'.length)
          (A ++ (a ++ [0])).length (n + 1) := by
  obtain ⟨G₁, hG₁, hword⟩ := argLoop_word A G M steps n hg ha hne hc hlen
  obtain ⟨y, G', rfl⟩ := List.exists_cons_of_length_pos (show 0 < G₁.length by omega)
  rw [List.length_cons] at hG₁
  refine ⟨G', hG₁, ?_⟩
  have hput : A ++ a ++ y :: G' ++ c :: M = (A ++ a) ++ y :: (G' ++ c :: M) := by
    rw [List.append_assoc _ (y :: G'), List.cons_append]
  have hstored : (A ++ a) ++ 0 :: (G' ++ c :: M) = (A ++ (a ++ [0])) ++ G' ++ c :: M := by
    simp only [List.append_assoc, List.cons_append, List.nil_append]
  have hargp : (A ++ (a ++ [0])).length = A.length + a.length + 1 := by
    rw [List.length_append, List.length_append, Nat.add_assoc]
    rfl
  have hbufp : A.length + a.length + (G.length + g.length) =
      A.length + a.length + 1 + G'.length := by omega
  rw [hword, store_at hput List.length_append.symm, ok_bind, hstored, hargp, hbufp]

variable (A M steps n) in
/-- Without blanks to spare the NUL is stored over the blank that is read next, which ends the
loop. -/
theorem argLoop_clobber (ha : ∀ x ∈ a, isWord x = true) (hne : a ≠ []) (hc : isWord c = false)
    (hlen : a.length ≤ BUF) (hsteps : 0 < steps) :
    argLoop (steps + 1) (A ++ a ++ c :: M) A.length A.length n =
      .ok ((A ++ (a ++ [0])) ++ M, (A ++ (a ++ [0])).length, n + 1) := by
  obtain ⟨steps, rfl⟩ := Nat.exists_eq_succ_of_ne_zero (Nat.ne_zero_of_lt hsteps)
  obtain ⟨G', hG', hword⟩ := argLoop_word (g := []) A [] M (steps + 1) n
    (fun x hx => absurd hx List.not_mem_nil) ha hne hc
    (by rw [List.length_nil]; omega)
  obtain rfl := List.eq_nil_of_length_eq_zero hG'
  simp only [List.append_nil, List.length_nil, Nat.add_zero] at hword
  have hstored : (A ++ a) ++ 0 :: M = (A ++ (a ++ [0])) ++ M := by
    simp only [List.append_assoc, List.cons_append, List.nil_append]
  have hargp : (A ++ (a ++ [0])).length = A.length + a.length + 1 := by
    rw [List.length_append, List.length_append, Nat.add_assoc]
    rfl
  rw [hword, store_at rfl List.length_append.symm, ok_bind, argLoop,
    load_at rfl List.length_append.symm, ok_bind, if_pos (show isEnd 0 = true from rfl), hstored,
    hargp]

def Words (args : List (Str × Str)) : Prop :=
  ∀ p ∈ args, (∀ x ∈ p.1, isBlank x = true) ∧ (∀ x ∈ p.2, isWord x = true) ∧ p.2 ≠ []

theorem behind_argument {trail : Str} (htrail : ∀ x ∈ trail, isBlank x = true)
    (hend : isEnd e = true) {args : List (Str × Str)} (hwords : Words args)
    (hgaps : ∀ p ∈ args, p.1 ≠ []) :
    ∃ c R, spread args ++ trail ++ e :: M = c :: R ∧ isWord c = false := by
  cases args with
  | nil =>
    cases trail with
    | nil => exact ⟨e, M, rfl, isWord_of_isEnd hend⟩
    | cons b trail => exact ⟨b, _, rfl, isWord_of_isBlank (htrail b List.mem_cons_self)⟩
  | cons p args =>
    obtain ⟨b, g, hb⟩ := List.exists_cons_of_ne_nil (hgaps p List.mem_cons_self)
    have hblank : isBlank b = true := (hwords p List.mem_cons_self).1 b (hb ▸ List.mem_cons_self)
    refine ⟨b, g ++ p.2 ++ spread args ++ trail ++ e :: M, ?_, isWord_of_isBlank hblank⟩
    rw [spread, List.flatMap_cons, hb]
    rfl

/-- As long as there is a blank to spare in front of the first argument, all of them are moved. -/
theorem argLoop_args {trail : Str} (htrail : ∀ x ∈ trail, isBlank x = true) (hend : isEnd e = true)
    (hline : trail = [] ∨ e = CR ∨ e = NEWLINE) : ∀ (args : List (Str × Str)) (A G : Str)
    (steps n : ℕ), Words args → (∀ p ∈ args.head?, 1 ≤ G.length + p.1.length) →
    (∀ p ∈ args.tail, p.1 ≠ []) → (spread args ++ trail).length ≤ BUF → args.length < steps →
    ∃ y Y, argLoop steps (A ++ G ++ (spread args ++ trail) ++ e :: M) (A.length + G.length) A.length n =
      .ok ((A ++ packed args) ++ y :: Y, (A ++ packed args).length, n + args.length) := by
  intro args
  induction args with
  | nil =>
    intro A G steps n _ _ _ hlen hsteps
    obtain ⟨y, Y, hY⟩ : ∃ y Y, G ++ trail ++ e :: M = y :: Y :=
      List.exists_cons_of_ne_nil (List.append_ne_nil_of_right_ne_nil _ (List.cons_ne_nil e M))
    refine ⟨y, Y, ?_⟩
    have hloop := argLoop_end A G M n htrail hend hline hlen hsteps
    rw [spread, packed, List.flatMap_nil, List.flatMap_nil, List.nil_append, List.append_nil, ← hY,
      hloop]
    simp only [List.append_assoc, List.length_nil, Nat.add_zero]
  | cons p args ih =>
    intro A G steps n hwords hfirst hgaps hlen hsteps
    obtain ⟨g, a⟩ := p
    obtain ⟨steps, rfl⟩ := Nat.exists_eq_succ_of_ne_zero (Nat.ne_zero_of_lt hsteps)
    obtain ⟨⟨hg, ha, hne⟩, hrest⟩ : ((∀ x ∈ g, isBlank x = true) ∧ (∀ x ∈ a, isWord x = true) ∧
      a ≠ []) ∧ Words args := List.forall_mem_cons.mp hwords
    have hlag : 1 ≤ G.length + g.length := hfirst (g, a) rfl
    have hspread : spread ((g, a) :: args) = g ++ a ++ spread args := List.flatMap_cons
    have hpacked : packed ((g, a) :: args) = a ++ [0] ++ packed args := List.flatMap_cons
    have hlen' : g.length + a.length + (spread args ++ trail).length ≤ BUF := by
      rw [hspread, List.append_assoc, List.length_append, List.length_append] at hlen
      exact hlen
    obtain ⟨c, R, hR, hc⟩ := behind_argument (M := M) htrail hend hrest hgaps
    obtain ⟨G', hG', hstep⟩ := argLoop_step A G R steps n hg ha hne hc (by omega) hlag
    have hfirst' : ∀ p ∈ args.head?, 1 ≤ G'.length + p.1.length := by
      intro p hp
      have hgap : 0 < p.1.length := List.length_pos_iff.mpr (hgaps p (List.mem_of_mem_head? hp))
      omega
    rw [List.length_cons] at hsteps
    obtain ⟨y, Y, hloop⟩ := ih (A ++ (a ++ [0])) G' steps (n + 1) hrest hfirst'
      (fun p hp => hgaps p (List.mem_of_mem_tail hp)) (by omega) (by omega)
    refine ⟨y, Y, ?_⟩
    have hmem : A ++ G ++ (spread ((g, a) :: args) ++ trail) ++ e :: M =
        A ++ G ++ g ++ a ++ c :: R := by
      rw [hspread, ← hR]
      simp only [List.append_assoc]
    have hmem' : (A ++ (a ++ [0])) ++ G' ++ c :: R =
        (A ++ (a ++ [0])) ++ G' ++ (spread args ++ trail) ++ e :: M := by
      rw [← hR]
      simp only [List.append_assoc]
    rw [hmem, hstep, hmem', hloop, hpacked, List.length_cons, List.append_assoc A,
      Nat.add_right_comm, Nat.add_assoc]

end Args

section Lines

variable {l : Line} {junk : Str} {args : List (Str × Str)}

def Line.head (l : Line) : Str := HASH :: BANG :: l.lead ++ l.interp

/-- No argument, two blanks in front of the first one, or only one argument, which ends in front of
the last byte of the buffer. -/
def Line.Keeps (l : Line) : Prop :=
  l.args = [] ∨ (∃ p ∈ l.args.head?, 2 ≤ p.1.length) ∨
    (l.args.length = 1 ∧ (l.head ++ spread l.args).length < BUF - 1)

theorem Line.words (l : Line) : Words l.args :=
  fun p hp => ⟨l.gap_blank p hp, l.arg_word p hp, l.arg_ne p hp⟩

theorem Line.end_eq (l : Line) (junk : Str) : ∃ e M, l.rest ++ 0 :: junk = e :: M ∧ isEnd e = true ∧
    (l.trail = [] ∨ e = CR ∨ e = NEWLINE) := by
  rcases l.rest_end with ⟨hrest, htrail⟩ | ⟨e, he, hline⟩
  · exact ⟨0, junk, by rw [hrest]; rfl, rfl, .inl htrail⟩
  · obtain ⟨M, hM⟩ := List.head?_eq_some_iff.mp he
    refine ⟨e, M ++ 0 :: junk, by rw [hM]; rfl, ?_, .inr hline⟩
    rcases hline with rfl | rfl <;> rfl

theorem Line.text_eq (l : Line) : l.text = l.head ++ (spread l.args ++ l.trail) ++ l.rest := by
  simp only [Line.text, Line.head, List.append_assoc, List.cons_append]

theorem parse_head {W M : Str} {e c : UInt8} {R : Str} (hmem : W ++ e :: M = c :: R)
    (hc : isWord c = false) (hlen : l.head.length ≤ BUF) :
    parse (l.head ++ W ++ e :: M) =
      cutShell (l.head ++ W ++ e :: M) l.head.length >>= fun p =>
        argLoop (BUF + 1) p.1 p.2 p.2 0 >>= fun q =>
          store q.1 q.2.1 0 >>= fun buf => .ok ⟨buf, l.lead.length + 2, p.2, q.2.2⟩ := by
  obtain ⟨x, interp, hx⟩ := List.exists_cons_of_ne_nil l.interp_ne
  have hxword : isWord x = true := l.interp_word x (hx ▸ List.mem_cons_self)
  have hhead : l.head.length = l.lead.length + 2 + l.interp.length := by
    rw [Line.head, List.length_append]
    rfl
  have hlead : l.head ++ W ++ e :: M = [HASH, BANG] ++ l.lead ++ x :: (interp ++ W ++ e :: M) := by
    rw [Line.head, hx]
    simp only [List.append_assoc, List.cons_append, List.nil_append]
  have hinterp : l.head ++ W ++ e :: M = ([HASH, BANG] ++ l.lead) ++ l.interp ++ c :: R := by
    rw [← hmem, Line.head]
    simp only [List.append_assoc, List.cons_append, List.nil_append]
  have hshell := skip_at (isBlank_of_isWord hxword) l.lead [HASH, BANG] 2 (BUF + 1) hlead rfl
    l.lead_blank (by omega)
  have hbufp := skip_at hc l.interp ([HASH, BANG] ++ l.lead) (2 + l.lead.length) (BUF + 1) hinterp
    (by rw [List.length_append]; rfl) l.interp_word (by omega)
  have hsum : 2 + l.lead.length + l.interp.length = l.head.length := by omega
  rw [parse, hshell, ok_bind, hbufp, ok_bind, hsum, Nat.add_comm 2]

theorem parse_tail {A Y : Str} {args : List (Str × Str)} {y : UInt8} {shell shellargs n : ℕ}
    {buf : Str} (hloop : argLoop (BUF + 1) buf shellargs shellargs 0 =
      .ok ((A ++ packed args) ++ y :: Y, (A ++ packed args).length, n)) :
    (argLoop (BUF + 1) buf shellargs shellargs 0 >>= fun q =>
      store q.1 q.2.1 0 >>= fun buf => .ok (Parsed.mk buf shell shellargs q.2.2)) =
      .ok ⟨A ++ packed args ++ 0 :: Y, shell, shellargs, n⟩ := by
  rw [hloop, ok_bind, store_at rfl rfl, ok_bind]

theorem parse_bare {e : UInt8} {M : Str} (hargs : l.args = []) (hend : isEnd e = true)
    (hlen : l.head.length ≤ BUF) :
    parse (l.head ++ [] ++ e :: M) =
      .ok ⟨l.head ++ packed l.args ++ 0 :: M, l.lead.length + 2, l.head.length, 0⟩ := by
  have hmem : l.head ++ [] ++ e :: M = l.head ++ e :: M := by rw [List.append_nil]
  have hloop : argLoop (BUF + 1) (l.head ++ e :: M) l.head.length l.head.length 0 =
      .ok (l.head ++ e :: M, l.head.length, 0) := by
    have hnil : ∀ x ∈ ([] : Str), isBlank x = true := fun x hx => absurd hx List.not_mem_nil
    have hend := argLoop_end l.head [] M 0 hnil hend (.inl rfl) (Nat.zero_le _) (Nat.succ_pos BUF)
    simp only [List.append_nil, List.length_nil, Nat.add_zero] at hend
    exact hend
  rw [parse_head (W := []) rfl (isWord_of_isEnd hend) hlen, cutShell, hmem,
    load_at rfl rfl, ok_bind, if_pos hend, ok_bind]
  simp only [hloop, ok_bind]
  rw [store_at rfl rfl, ok_bind, hargs, packed, List.flatMap_nil, List.append_nil]

theorem parse_blank {W M R : Str} {e b : UInt8} (hmem : W ++ e :: M = b :: R) (hb : isBlank b = true)
    (hlen : l.head.length ≤ BUF) :
    parse (l.head ++ W ++ e :: M) =
      argLoop (BUF + 1) ((l.head ++ [0]) ++ R) (l.head ++ [0]).length (l.head ++ [0]).length 0 >>=
        fun q => store q.1 q.2.1 0 >>= fun buf =>
          .ok ⟨buf, l.lead.length + 2, (l.head ++ [0]).length, q.2.2⟩ := by
  have hbuf : l.head ++ W ++ e :: M = l.head ++ b :: R := by rw [List.append_assoc, hmem]
  have hstored : l.head ++ 0 :: R = (l.head ++ [0]) ++ R := by
    rw [List.append_assoc, List.singleton_append]
  have hargs : l.head.length + 1 = (l.head ++ [0]).length := by
    rw [List.length_append, List.length_singleton]
  rw [parse_head hmem (isWord_of_isBlank hb) hlen, cutShell, load_at hbuf rfl, ok_bind,
    if_neg (by rw [isEnd_of_isBlank hb]; exact Bool.false_ne_true), store_at hbuf rfl, ok_bind, ok_bind,
    hstored, hargs]

/-- `parse` has found these arguments. -/
def Found (l : Line) (args : List (Str × Str)) (out : Except Stop Parsed) : Prop :=
  ∃ A Y Z, A ++ packed args ++ 0 :: Y = l.head ++ 0 :: Z ∧
    out = .ok ⟨A ++ packed args ++ 0 :: Y, l.lead.length + 2, A.length, args.length⟩

/-- Arguments that begin behind one blank, with a blank to spare in front of the first one. -/
theorem parse_args {M trail : Str} {e b : UInt8} (args : List (Str × Str)) (hb : isBlank b = true)
    (htrail : ∀ x ∈ trail, isBlank x = true) (hend : isEnd e = true)
    (hline : trail = [] ∨ e = CR ∨ e = NEWLINE) (hwords : Words args)
    (hgaps : ∀ p ∈ args, p.1 ≠ []) (hlen : (l.head ++ (spread args ++ trail)).length ≤ BUF)
    (hsteps : args.length ≤ BUF) :
    Found l args (parse (l.head ++ b :: (spread args ++ trail) ++ e :: M)) := by
  rw [List.length_append] at hlen
  have hfirst : ∀ p ∈ args.head?, 1 ≤ ([] : Str).length + p.1.length := by
    intro p hp
    rw [List.length_nil, Nat.zero_add]
    exact List.length_pos_iff.mpr (hgaps p (List.mem_of_mem_head? hp))
  obtain ⟨y, Y, hloop⟩ := argLoop_args (M := M) htrail hend hline args (l.head ++ [0]) [] (BUF + 1) 0
    hwords hfirst (fun p hp => hgaps p (List.mem_of_mem_tail hp)) (by omega) (by omega)
  rw [List.length_nil, Nat.add_zero, List.append_nil, List.append_assoc _ (spread args ++ trail),
    Nat.zero_add] at hloop
  refine ⟨l.head ++ [0], Y, packed args ++ 0 :: Y, ?_, ?_⟩
  · simp only [List.append_assoc, List.cons_append, List.nil_append]
  · rw [parse_blank (W := b :: (spread args ++ trail)) rfl hb (by omega)]
    exact parse_tail hloop

theorem length_le_spread (hwords : Words args) : args.length ≤ (spread args).length := by
  induction args with
  | nil => exact Nat.zero_le _
  | cons p args ih =>
    obtain ⟨⟨-, -, hne⟩, hrest⟩ : ((∀ x ∈ p.1, isBlank x = true) ∧ (∀ x ∈ p.2, isWord x = true) ∧
      p.2 ≠ []) ∧ Words args := List.forall_mem_cons.mp hwords
    have hcons : spread (p :: args) = p.1 ++ p.2 ++ spread args := List.flatMap_cons
    have hpos : 0 < p.2.length := List.length_pos_iff.mpr hne
    have hle := ih hrest
    rw [hcons, List.length_cons, List.length_append, List.length_append]
    omega

theorem parse_spare {M : Str} {e : UInt8} (hend : isEnd e = true)
    (hline : l.trail = [] ∨ e = CR ∨ e = NEWLINE)
    (hlen : (l.head ++ (spread l.args ++ l.trail)).length ≤ BUF)
    (hspare : ∀ p ∈ l.args.head?, 2 ≤ p.1.length) :
    Found l l.args (parse (l.head ++ (spread l.args ++ l.trail) ++ e :: M)) := by
  have hhead : l.head.length ≤ BUF := by
    rw [List.length_append] at hlen
    omega
  cases hargs : l.args with
  | nil =>
    rw [hargs] at hlen
    cases htrail : l.trail with
    | nil => exact ⟨l.head, M, M, by rw [packed, List.flatMap_nil, List.append_nil], by
        have hbare := parse_bare (M := M) hargs hend hhead
        rw [hargs] at hbare
        exact hbare⟩
    | cons b trail =>
      rw [htrail] at hlen hline
      have hblank : ∀ x ∈ b :: trail, isBlank x = true := htrail ▸ l.trail_blank
      refine parse_args [] (hblank b List.mem_cons_self)
        (fun x hx => hblank x (List.mem_cons_of_mem b hx)) hend
        (.inr (hline.resolve_left (List.cons_ne_nil b trail)))
        (fun p hp => absurd hp List.not_mem_nil) (fun p hp => absurd hp List.not_mem_nil) ?_
        (Nat.zero_le _)
      rw [List.length_append] at hlen ⊢
      exact le_trans (Nat.add_le_add_left (Nat.le_succ _) _) hlen
  | cons p args =>
    obtain ⟨g, a⟩ := p
    have hwords : Words ((g, a) :: args) := hargs ▸ l.words
    have hgaps : ∀ p ∈ (g, a) :: args, p.1 ≠ [] := hargs ▸ l.gap_ne
    have htwo : 2 ≤ g.length := hspare (g, a) (by rw [hargs]; rfl)
    -- one blank is taken, another one is left
    obtain ⟨b, c, g, rfl⟩ : ∃ b c g', g = b :: c :: g' := by
      match g, htwo with
      | b :: c :: g', _ => exact ⟨b, c, g', rfl⟩
    obtain ⟨⟨hg, ha, hne⟩, hrest⟩ : ((∀ x ∈ b :: c :: g, isBlank x = true) ∧
      (∀ x ∈ a, isWord x = true) ∧ a ≠ []) ∧ Words args := List.forall_mem_cons.mp hwords
    have hwords' : Words ((c :: g, a) :: args) := List.forall_mem_cons.mpr
      ⟨⟨fun x hx => hg x (List.mem_cons_of_mem b hx), ha, hne⟩, hrest⟩
    have hgaps' : ∀ p ∈ (c :: g, a) :: args, p.1 ≠ [] := List.forall_mem_cons.mpr
      ⟨List.cons_ne_nil c g, fun p hp => hgaps p (List.mem_cons_of_mem _ hp)⟩
    have hspread : spread ((b :: c :: g, a) :: args) ++ l.trail =
        b :: (spread ((c :: g, a) :: args) ++ l.trail) := rfl
    rw [hargs, hspread, List.length_append, List.length_cons] at hlen
    have hcount := length_le_spread hwords'
    rw [List.length_append] at hlen
    rw [hspread]
    refine parse_args ((c :: g, a) :: args) (hg b List.mem_cons_self) l.trail_blank hend hline
      hwords' hgaps' ?_ (by omega)
    rw [List.length_append, List.length_append]
    omega

/-- Only one blank: the second argument is cut off, or the last NUL is stored behind the buffer. -/
theorem parse_clobber {M a : Str} {e b : UInt8} (hargs : l.args = ([b], a) :: args)
    (hend : isEnd e = true) (hlen : (l.head ++ (spread l.args ++ l.trail) ++ e :: M).length = BUF) :
    if args = [] ∧ (l.head ++ spread l.args).length = BUF - 1 then
      parse (l.head ++ (spread l.args ++ l.trail) ++ e :: M) = .error .bounds
    else Found l [([b], a)] (parse (l.head ++ (spread l.args ++ l.trail) ++ e :: M)) := by
  have hwords : Words (([b], a) :: args) := hargs ▸ l.words
  have hgaps : ∀ p ∈ ([b], a) :: args, p.1 ≠ [] := hargs ▸ l.gap_ne
  obtain ⟨⟨hg, ha, hne⟩, hrest⟩ : ((∀ x ∈ [b], isBlank x = true) ∧ (∀ x ∈ a, isWord x = true) ∧
    a ≠ []) ∧ Words args := List.forall_mem_cons.mp hwords
  obtain ⟨c, R, hR, hc⟩ := behind_argument (M := M) l.trail_blank hend hrest
    (fun p hp => hgaps p (List.mem_cons_of_mem _ hp))
  have hspread : spread l.args ++ l.trail = b :: (a ++ (spread args ++ l.trail)) := by
    rw [hargs]
    exact congrArg (b :: ·) (List.append_assoc a _ _)
  have hmem : (spread l.args ++ l.trail) ++ e :: M = b :: (a ++ c :: R) := by
    rw [hspread, ← hR]
    simp only [List.cons_append, List.append_assoc]
  have hsize : l.head.length + (a.length + (R.length + 1) + 1) = BUF := by
    rw [List.append_assoc, hmem, List.length_append, List.length_cons, List.length_append,
      List.length_cons] at hlen
    exact hlen
  have hloop := argLoop_clobber (l.head ++ [0]) R BUF 0 ha hne hc
    (by omega) (by decide)
  have hparse := parse_blank (l := l) (W := spread l.args ++ l.trail) hmem (hg b (List.mem_singleton_self b))
    (by omega)
  rw [← List.append_assoc (l.head ++ [0]) a, hloop, ok_bind] at hparse
  have hend_arg : args = [] → (l.head ++ spread l.args).length = l.head.length + a.length + 1 := by
    intro hnil
    rw [hargs, hnil, List.length_append]
    show l.head.length + ([b] ++ a ++ []).length = _
    rw [List.append_nil, List.length_append, List.length_singleton]
    omega
  -- the NUL behind the last argument lies outside of the buffer, or inside it
  cases R with
  | nil =>
    have hnil : args = [] := by
      have hone := congrArg List.length hR
      rw [List.length_append, List.length_append, List.length_cons, List.length_singleton] at hone
      have hcount := length_le_spread hrest
      exact List.eq_nil_of_length_eq_zero (by omega)
    have hover : ∀ B : Str, store (B ++ []) B.length 0 = .error .bounds := by
      intro B
      rw [List.append_nil, store, if_neg (Nat.lt_irrefl _)]
    rw [List.length_nil] at hsize
    rw [if_pos ⟨hnil, by rw [hend_arg hnil]; omega⟩, hparse, hover]
    rfl
  | cons y Y =>
    rw [List.length_cons] at hsize
    rw [if_neg (fun h => by have := hend_arg h.1; omega), hparse, store_at rfl rfl, ok_bind]
    have hpacked : packed [([b], a)] = a ++ [0] := List.flatMap_singleton _ _
    refine ⟨l.head ++ [0], Y, a ++ [0] ++ 0 :: Y, ?_, ?_⟩
    · rw [hpacked]
      simp only [List.append_assoc, List.cons_append, List.nil_append]
    · rw [hpacked]
      rfl

end Lines

section Vectors

variable {room : ℕ} {args : List (Str × Str)} {A Y : Str}

theorem pushAll_eq (argv : List Str) : ∀ v : List Str, pushAll room argv v =
    if v.length + argv.length < room then .ok (v ++ argv) else .error .bounds := by
  induction argv with
  | nil =>
    intro v
    rw [pushAll, List.length_nil, Nat.add_zero, List.append_nil]
  | cons a argv ih =>
    intro v
    rw [pushAll, push, List.length_cons]
    by_cases h : v.length < room
    · rw [if_pos h, ok_bind, ih, List.length_append, List.length_singleton, List.append_assoc,
        List.singleton_append, Nat.add_assoc, Nat.add_comm 1]
    · rw [if_neg h, if_neg (by omega)]
      rfl

theorem collect_eq : ∀ (args : List (Str × Str)) (A : Str) (v : List Str) (steps : ℕ), Words args →
    (packed args).length ≤ BUF → args.length < steps → v.length ≤ room →
    collect room (A ++ packed args ++ 0 :: Y) steps A.length v =
      if v.length + args.length ≤ room then .ok (v ++ args.map Prod.snd) else .error .bounds := by
  intro args
  induction args with
  | nil =>
    intro A v steps _ _ hsteps hv
    obtain ⟨steps, rfl⟩ := Nat.exists_eq_succ_of_ne_zero (Nat.ne_zero_of_lt hsteps)
    have hbuf : A ++ packed [] ++ 0 :: Y = A ++ 0 :: Y := by
      rw [packed, List.flatMap_nil, List.append_nil]
    rw [collect, load_at hbuf rfl, ok_bind, if_pos rfl, List.length_nil, Nat.add_zero, if_pos hv,
      List.map_nil, List.append_nil]
  | cons p args ih =>
    intro A v steps hwords hlen hsteps hv
    obtain ⟨steps, rfl⟩ := Nat.exists_eq_succ_of_ne_zero (Nat.ne_zero_of_lt hsteps)
    obtain ⟨⟨-, ha, hne⟩, hrest⟩ : ((∀ x ∈ p.1, isBlank x = true) ∧ (∀ x ∈ p.2, isWord x = true) ∧
      p.2 ≠ []) ∧ Words args := List.forall_mem_cons.mp hwords
    have hpacked : packed (p :: args) = p.2 ++ [0] ++ packed args := List.flatMap_cons
    obtain ⟨x, a, hx⟩ := List.exists_cons_of_ne_nil hne
    have hxword : isWord x = true := ha x (hx ▸ List.mem_cons_self)
    have hzero : ∀ x, isWord x = true → x ≠ 0 := by
      rintro _ hword rfl
      exact absurd hword (by decide)
    have h0 : 0 ∉ p.2 := fun hmem => hzero 0 (ha 0 hmem) rfl
    have hbuf : A ++ packed (p :: args) ++ 0 :: Y = A ++ p.2 ++ 0 :: (packed args ++ 0 :: Y) := by
      rw [hpacked]
      simp only [List.append_assoc, List.cons_append, List.nil_append]
    have hhead : A ++ packed (p :: args) ++ 0 :: Y = A ++ x :: (a ++ 0 :: (packed args ++ 0 :: Y)) := by
      rw [hbuf, hx, List.append_assoc, List.cons_append]
    have hnext : A ++ packed (p :: args) ++ 0 :: Y = (A ++ p.2 ++ [0]) ++ packed args ++ 0 :: Y := by
      rw [hbuf]
      simp only [List.append_assoc, List.cons_append, List.nil_append]
    have hdrop : cstr ((A ++ packed (p :: args) ++ 0 :: Y).drop A.length) = p.2 := by
      rw [hbuf, List.append_assoc, List.drop_left, cstr_append h0]
    rw [hpacked, List.length_append, List.length_append, List.length_singleton] at hlen
    rw [List.length_cons] at hsteps
    have hskip := skip_at (P := (· ≠ 0)) (c := 0) (by decide) p.2 A A.length (BUF + 1) hbuf rfl
      (fun x hmem => decide_eq_true (hzero x (ha x hmem))) (by omega)
    have hlast : A.length + p.2.length + 1 = (A ++ p.2 ++ [0]).length := by
      rw [List.length_append, List.length_append, List.length_singleton]
    rw [collect, load_at hhead rfl, ok_bind, if_neg (hzero x hxword), hdrop, push, List.length_cons]
    by_cases hroom : v.length < room
    · rw [if_pos hroom, ok_bind, hskip, ok_bind, hlast, hnext, ih (A ++ p.2 ++ [0]) (v ++ [p.2]) steps
        hrest (by omega) (by omega) (by rw [List.length_append, List.length_singleton]; omega),
        List.length_append, List.length_singleton, Nat.add_assoc, Nat.add_comm 1, List.map_cons,
        List.append_assoc, List.singleton_append]
    · rw [if_neg hroom, if_neg (by omega)]
      rfl

theorem build_eq {shell _path argv0 : Str} {argv : List Str} {n k : ℕ} (hwords : Words args)
    (hlen : (packed args).length ≤ BUF) (hsteps : args.length ≤ BUF) :
    build room ⟨A ++ packed args ++ 0 :: Y, k, A.length, n⟩ shell _path (argv0 :: argv) =
      if args.length + argv.length + 3 ≤ room then
        .ok (shell :: args.map Prod.snd ++ _path :: argv)
      else .error .bounds := by
  rw [build, push, List.length_nil]
  by_cases hone : 0 < room
  · rw [if_pos hone, ok_bind, List.nil_append,
      collect_eq args A [shell] (BUF + 1) hwords hlen (by omega) hone, List.length_singleton]
    by_cases hargs : 1 + args.length ≤ room
    · have hall : ([shell] ++ args.map Prod.snd).length = 1 + args.length := by
        rw [List.length_append, List.length_map, List.length_singleton]
      rw [if_pos hargs, ok_bind, push, hall]
      by_cases hpath : 1 + args.length < room
      · rw [if_pos hpath, ok_bind]
        show pushAll room argv _ = _
        rw [pushAll_eq, List.length_append, hall, List.length_singleton]
        have hiff : 1 + args.length + 1 + argv.length < room ↔
            args.length + argv.length + 3 ≤ room := by omega
        simp only [hiff, List.append_assoc, List.nil_append, List.cons_append]
      · rw [if_neg hpath, if_neg (by omega)]
        rfl
    · rw [if_neg hargs, if_neg (by omega)]
      rfl
  · rw [if_neg hone, if_neg (by omega)]
    rfl

theorem le_pointers_iff {n : ℕ} : n ≤ pointers n ↔ n * 4 < 2 ^ 32 := by
  rw [pointers]
  omega

end Vectors

section Whole

variable {s : Script} {junk : Local} {findfile : Str → Option Str} {malloc : Bool}
  {_path argv0 : Str} {argv : List Str} {args : List (Str × Str)}

def Script.file (s : Script) : Text := ⟨s.text, s.fits⟩

def Script.buf (s : Script) (junk : Local) : Str :=
  s.text ++ 0 :: junk.1.drop (s.text.length + 1)

theorem Script.buf_eq (s : Script) (junk : Local) : ∃ e M,
    s.buf junk = s.head ++ (spread s.args ++ s.trail) ++ e :: M ∧ isEnd e = true ∧
      (s.trail = [] ∨ e = CR ∨ e = NEWLINE) ∧ (s.buf junk).length = BUF := by
  obtain ⟨e, M, hend, he, hline⟩ := s.end_eq (junk.1.drop (s.text.length + 1))
  refine ⟨e, M, ?_, he, hline, ?_⟩
  · rw [Script.buf, s.text_eq, List.append_assoc _ s.rest, ← s.text_eq, hend]
  · have hfits := s.fits
    have hlocal := junk.2
    rw [BUF] at hfits
    rw [Script.buf, List.length_append, List.length_cons, List.length_drop, hlocal, BUF]
    omega

theorem length_packed_le (hgaps : ∀ p ∈ args, p.1 ≠ []) :
    (packed args).length ≤ (spread args).length := by
  induction args with
  | nil => exact le_refl _
  | cons p args ih =>
    obtain ⟨hgap, hrest⟩ := List.forall_mem_cons.mp hgaps
    have hpos : 0 < p.1.length := List.length_pos_iff.mpr hgap
    have hle := ih hrest
    have hpacked : packed (p :: args) = p.2 ++ [0] ++ packed args := List.flatMap_cons
    have hspread : spread (p :: args) = p.1 ++ p.2 ++ spread args := List.flatMap_cons
    rw [hpacked, hspread]
    simp only [List.length_append, List.length_singleton]
    omega

theorem interp_zero_notMem (l : Line) : 0 ∉ l.interp :=
  fun h => absurd (l.interp_word 0 h) (by decide)

variable (findfile malloc _path argv0 argv) in
theorem interpret_found (hfound : Found s.toLine args (parse (s.buf junk))) (hwords : Words args)
    (hlen : (packed args).length ≤ BUF) (hcount : args.length ≤ BUF) :
    interpretScript findfile malloc (.ok s.file) junk _path (argv0 :: argv) =
      match findfile s.interp with
      | none => .ok (.error ENOENT)
      | some shell =>
        if malloc then
          if args.length + argv.length + 3 ≤ pointers (args.length + argv.length + 3) then
            .ok (.spawn shell (shell :: args.map Prod.snd ++ _path :: argv))
          else .error .bounds
        else .ok (.error ENOMEM) := by
  obtain ⟨A, Y, Z, hbuf, hparse⟩ := hfound
  have hbang : (s.buf junk)[0]? = some HASH ∧ (s.buf junk)[1]? = some BANG := ⟨rfl, rfl⟩
  have hname : cstr ((A ++ packed args ++ 0 :: Y).drop (s.lead.length + 2)) = s.interp := by
    have hhead : s.head ++ 0 :: Z = (HASH :: BANG :: s.lead) ++ (s.interp ++ 0 :: Z) := by
      rw [Line.head, List.append_assoc]
    have hcut : s.lead.length + 2 = (HASH :: BANG :: s.lead).length := rfl
    rw [hbuf, hhead, hcut, List.drop_left, cstr_append (interp_zero_notMem s.toLine)]
  have hroom : (argv0 :: argv).length + args.length + 2 = args.length + argv.length + 3 := by
    rw [List.length_cons]
    omega
  have hfile : s.file.1 ++ 0 :: junk.1.drop (s.file.1.length + 1) = s.buf junk := rfl
  rw [interpretScript]
  simp only [hfile, if_pos hbang, hparse, ok_bind, hname, if_neg s.interp_ne, hroom,
    build_eq hwords hlen hcount]
  cases findfile s.interp with
  | none => rfl
  | some shell =>
    cases malloc with
    | false => rfl
    | true =>
      simp only [if_true]
      split <;> rfl

theorem found_iff {shell : Str} (hfind : findfile s.interp = some shell)
    (hfound : Found s.toLine args (parse (s.buf junk))) (hwords : Words args)
    (hlen : (packed args).length ≤ BUF) (hcount : args.length ≤ BUF) :
    interpretScript findfile true (.ok s.file) junk _path (argv0 :: argv) =
        .ok (.spawn shell (s.vector shell _path (argv0 :: argv))) ↔
      args.map Prod.snd = s.args.map Prod.snd ∧ (args.length + argv.length + 3) * 4 < 2 ^ 32 := by
  have hcall := interpret_found findfile true _path argv0 argv hfound hwords hlen hcount
  rw [hcall, hfind, ← le_pointers_iff]
  show (if args.length + argv.length + 3 ≤ pointers (args.length + argv.length + 3) then
    Except.ok (Answer.spawn shell (shell :: args.map Prod.snd ++ _path :: argv)) else
      Except.error Stop.bounds) = .ok (.spawn shell (shell :: s.args.map Prod.snd ++ _path :: argv)) ↔ _
  split
  · next h =>
    rw [Except.ok.injEq, Answer.spawn.injEq, List.append_left_inj, List.cons.injEq]
    exact ⟨fun heq => ⟨heq.2.2, h⟩, fun heq => ⟨rfl, rfl, heq.1⟩⟩
  · next h =>
    exact iff_of_false (fun heq => nomatch heq) (fun heq => h heq.2)

theorem interpret_over {argv : List Str} (h : parse (s.buf junk) = .error .bounds) :
    interpretScript findfile malloc (.ok s.file) junk _path argv = .error .bounds := by
  have hbang : (s.buf junk)[0]? = some HASH ∧ (s.buf junk)[1]? = some BANG := ⟨rfl, rfl⟩
  have hfile : s.file.1 ++ 0 :: junk.1.drop (s.file.1.length + 1) = s.buf junk := rfl
  rw [interpretScript]
  simp only [hfile, if_pos hbang, h]
  rfl

theorem one_blank (h : ¬ ∀ p ∈ s.args.head?, 2 ≤ p.1.length) :
    ∃ b a args, s.args = ([b], a) :: args := by
  cases hargs : s.args with
  | nil => exact absurd (fun p hp => by rw [hargs] at hp; cases hp) h
  | cons p args =>
    have hshort : ¬ 2 ≤ p.1.length := fun hlong => h fun q hq => by
      rw [hargs] at hq
      cases hq
      exact hlong
    have hpos : 0 < p.1.length := List.length_pos_iff.mpr (s.gap_ne p (hargs ▸ List.mem_cons_self))
    obtain ⟨b, hb⟩ := List.length_eq_one_iff.mp (show p.1.length = 1 by omega)
    exact ⟨b, p.2, args, by rw [← hb]⟩

theorem first_words {b : UInt8} {a : Str} (hargs : s.args = ([b], a) :: args) :
    Words [([b], a)] ∧ (packed [([b], a)]).length ≤ (packed s.args).length := by
  refine ⟨fun p hp => s.words p (hargs ▸ (List.mem_singleton.mp hp) ▸ List.mem_cons_self), ?_⟩
  have hshort : packed [([b], a)] = a ++ [0] := List.flatMap_singleton _ _
  have hlong : packed s.args = a ++ [0] ++ packed args := by
    rw [hargs]
    exact List.flatMap_cons
  rw [hshort, hlong]
  exact (List.prefix_append (a ++ [0]) (packed args)).length_le

theorem Script.head_length (s : Script) : (s.head ++ (spread s.args ++ s.trail)).length < BUF := by
  obtain ⟨e, M, hbuf, -, -, hsize⟩ := s.buf_eq ⟨List.replicate BUF 0, List.length_replicate⟩
  rw [hbuf, List.length_append, List.length_cons] at hsize
  omega

/-- Arguments that end in front of the last byte of the buffer are all found, or the first one is. -/
theorem found_of_fits (s : Script) (junk : Local)
    (hfits : (s.head ++ spread s.args).length < BUF - 1) :
    ∃ args, Found s.toLine args (parse (s.buf junk)) ∧ Words args ∧ (packed args).length ≤ BUF := by
  obtain ⟨e, M, hbuf, hend, hline, hsize⟩ := s.buf_eq junk
  have hpacked := length_packed_le s.gap_ne
  have hlen := s.head_length
  have hspread : (spread s.args).length ≤ BUF := by
    rw [List.length_append, List.length_append] at hlen
    omega
  by_cases hspare : ∀ p ∈ s.args.head?, 2 ≤ p.1.length
  · refine ⟨s.args, ?_, s.words, by omega⟩
    rw [hbuf]
    exact parse_spare hend hline hlen.le hspare
  · obtain ⟨b, a, args, hargs⟩ := one_blank hspare
    obtain ⟨hwords, hshorter⟩ := first_words hargs
    have hclobber := parse_clobber (M := M) hargs hend (hbuf ▸ hsize)
    rw [← hbuf, if_neg (fun h => by omega)] at hclobber
    exact ⟨[([b], a)], hclobber, hwords, by omega⟩

theorem length_le_packed (args : List (Str × Str)) : args.length ≤ (packed args).length := by
  induction args with
  | nil => exact Nat.zero_le _
  | cons p args ih =>
    have hpacked : packed (p :: args) = p.2 ++ [0] ++ packed args := List.flatMap_cons
    rw [hpacked, List.length_append, List.length_append, List.length_singleton, List.length_cons]
    omega

variable (findfile malloc _path argv0) in
/-- Nothing is stored outside the buffer and the vector, and the interpreter is called with arguments
that have been in the buffer. -/
theorem interpret_fits (s : Script) (junk : Local)
    (hfits : (s.head ++ spread s.args).length < BUF - 1) (hroom : (BUF + argv.length + 3) * 4 < 2 ^ 32) :
    ∃ answer, interpretScript findfile malloc (.ok s.file) junk _path (argv0 :: argv) = .ok answer ∧
      ∀ shell shellargv, answer = .spawn shell shellargv → findfile s.interp = some shell ∧
        ∃ args, (packed args).length ≤ BUF ∧
          shellargv = shell :: args.map Prod.snd ++ _path :: argv := by
  obtain ⟨args, hfound, hwords, hlen⟩ := found_of_fits s junk hfits
  have hcount := length_le_packed args
  have hpointers : args.length + argv.length + 3 ≤ pointers (args.length + argv.length + 3) :=
    le_pointers_iff.mpr (by omega)
  rw [interpret_found findfile malloc _path argv0 argv hfound hwords hlen (by omega)]
  cases hfind : findfile s.interp with
  | none => exact ⟨_, rfl, fun shell shellargv heq => by cases heq⟩
  | some shell =>
    cases malloc with
    | false => exact ⟨_, rfl, fun shell shellargv heq => by cases heq⟩
    | true =>
      refine ⟨_, if_pos hpointers, fun shell' shellargv heq => ?_⟩
      injection heq with hshell hargv
      exact ⟨by rw [hshell], args, hlen, by rw [← hshell, hargv]⟩

/-- The call of `_spawnve` with the whole vector, for every script: it comes about exactly if there
are no arguments, or more than one blank in front of the first one, or only one argument that ends
in front of the last byte of the buffer. -/
theorem interpret_script_iff (s : Script) (junk : Local) (findfile : Str → Option Str) (shell : Str)
    (hfind : findfile s.interp = some shell) (_path argv0 : Str) (argv : List Str) :
    interpretScript findfile true (.ok s.file) junk _path (argv0 :: argv) =
        .ok (.spawn shell (s.vector shell _path (argv0 :: argv))) ↔
      s.Keeps ∧ (s.args.length + argv.length + 3) * 4 < 2 ^ 32 := by
  obtain ⟨e, M, hbuf, hend, hline, hsize⟩ := s.buf_eq junk
  have hlen := s.head_length
  have hspread : (spread s.args).length ≤ BUF := by
    rw [List.length_append, List.length_append] at hlen
    omega
  have hpacked := length_packed_le s.gap_ne
  have hcount := length_le_spread s.words
  by_cases hspare : ∀ p ∈ s.args.head?, 2 ≤ p.1.length
  · have hfound : Found s.toLine s.args (parse (s.buf junk)) := by
      rw [hbuf]
      exact parse_spare hend hline hlen.le hspare
    have hkeeps : s.Keeps := by
      cases hargs : s.args with
      | nil => exact .inl hargs
      | cons p args => exact .inr (.inl ⟨p, by rw [hargs]; rfl, hspare p (by rw [hargs]; rfl)⟩)
    rw [found_iff hfind hfound s.words (by omega) (by omega), and_iff_right rfl, and_iff_right hkeeps]
  · -- one blank in front of the first argument
    obtain ⟨b, a, args, hargs⟩ := one_blank hspare
    obtain ⟨hwords, hshorter⟩ := first_words hargs
    have hkeeps : s.Keeps ↔ args = [] ∧ (s.head ++ spread s.args).length ≠ BUF - 1 := by
      have hle : (s.head ++ spread s.args).length ≤ BUF - 1 := by
        rw [← List.append_assoc, List.length_append] at hlen
        omega
      have hnot : ¬ (s.args = [] ∨ ∃ p ∈ s.args.head?, 2 ≤ p.1.length) := by
        rw [hargs]
        rintro (h | ⟨p, hp, h⟩)
        · cases h
        · cases hp
          exact Nat.not_succ_le_self 1 h
      have hone : s.args.length = 1 ↔ args = [] := by
        rw [hargs, List.length_cons, Nat.add_eq_right, List.length_eq_zero_iff]
      rw [Line.Keeps, ← or_assoc, or_iff_right hnot, hone]
      exact and_congr_right fun _ => lt_iff_le_and_ne.trans (and_iff_right hle)
    have hclobber := parse_clobber (M := M) hargs hend (hbuf ▸ hsize)
    rw [← hbuf] at hclobber
    rw [hkeeps]
    by_cases hlast : args = [] ∧ (s.head ++ spread s.args).length = BUF - 1
    · rw [if_pos hlast] at hclobber
      rw [interpret_over hclobber]
      exact iff_of_false (fun heq => nomatch heq) (fun h => h.1.2 hlast.2)
    · rw [if_neg hlast] at hclobber
      rw [found_iff hfind hclobber hwords (by omega) (by rw [List.length_singleton]; decide), hargs]
      cases args with
      | nil =>
        rw [hargs] at hlast
        exact and_congr_left fun _ => iff_of_true rfl ⟨rfl, fun heq => hlast ⟨rfl, heq⟩⟩
      | cons p args =>
        refine iff_of_false (fun h => ?_) (fun h => nomatch h.1.1)
        have hboth := congrArg List.length h.1
        rw [List.length_map, List.length_map] at hboth
        exact absurd (Nat.succ.inj hboth).symm (Nat.succ_ne_zero _)

end Whole

/-- `"#!sh  -x -y\n"`. -/
def demoScript : Script where
  lead := []
  interp := [115, 104]
  args := [([BLANK, BLANK], [45, 120]), ([BLANK], [45, 121])]
  trail := []
  rest := [NEWLINE]
  lead_blank := by decide +kernel
  interp_word := by decide +kernel
  interp_ne := by decide +kernel
  gap_blank := by decide +kernel
  gap_ne := by decide +kernel
  arg_word := by decide +kernel
  arg_ne := by decide +kernel
  trail_blank := by decide +kernel
  rest_end := .inr ⟨NEWLINE, rfl, .inr rfl⟩
  fits := by decide +kernel

/-- `"#!sh -x -y\n"`. -/
def oneBlank : Script where
  lead := []
  interp := [115, 104]
  args := [([BLANK], [45, 120]), ([BLANK], [45, 121])]
  trail := []
  rest := [NEWLINE]
  lead_blank := by decide +kernel
  interp_word := by decide +kernel
  interp_ne := by decide +kernel
  gap_blank := by decide +kernel
  gap_ne := by decide +kernel
  arg_word := by decide +kernel
  arg_ne := by decide +kernel
  trail_blank := by decide +kernel
  rest_end := .inr ⟨NEWLINE, rfl, .inr rfl⟩
  fits := by decide +kernel

def zeros : Local := ⟨List.replicate BUF 0, List.length_replicate⟩

theorem interpret_script_iff_demo :
    interpretScript some true (.ok demoScript.file) zeros [115] [[115]] =
        .ok (.spawn [115, 104] (demoScript.vector [115, 104] [115] [[115]])) ↔
      demoScript.Keeps ∧ (demoScript.args.length + 0 + 3) * 4 < 2 ^ 32 :=
  interpret_script_iff demoScript zeros some [115, 104] rfl [115] [115] []

/-- With one blank in front of `-x` the interpreter is started without `-y`. -/
theorem second_argument_lost :
    interpretScript some true (.ok oneBlank.file) zeros [115] [[115]] =
        .ok (.spawn [115, 104] [[115, 104], [45, 120], [115]]) ∧
      interpretScript some true (.ok oneBlank.file) zeros [115] [[115]] ≠
        .ok (.spawn [115, 104] (oneBlank.vector [115, 104] [115] [[115]])) := by
  decide +kernel

end Mintlib.Script
