import Mintlib.Redirect
import Mintlib.Lib.Run
import Mintlib.Posix

/-!
# Streams to programs: `popen.c`

`popen` puts one end of a pipe on the handle 0 or 1 of the parent, starts the program and puts the
old file back. The streams that are open are kept in a list with their process ids.
-/

namespace Mintlib.Popen

open Text Redirect Posix

abbrev LETTER_R : UInt8 := 114
abbrev LETTER_W : UInt8 := 119
abbrev LETTER_A : UInt8 := 97

abbrev binSh : Str := [47, 98, 105, 110, 47, 115, 104]
abbrev dashC : Str := [45, 99]

/-- An entry of the list of pipes; a `FILE *` is a number. -/
structure Pipe where
  pid : ℤ
  pfile : ℕ
deriving DecidableEq

structure Stream where
  fd : ℤ
  write : Bool
deriving DecidableEq

/-- The process: its handles, its streams, the list of pipes and the processes that have been
waited for. -/
structure State where
  proc : Proc
  streams : List (ℕ × Stream)
  pipes : List Pipe
  waited : List ℤ

structure Env where
  free : Proc → ℤ
  free_new : ∀ p, 6 ≤ free p ∧ p.fds (free p) = none
  newstream : List (ℕ × Stream) → ℕ
  newstream_new : ∀ streams, newstream streams ∉ streams.map Prod.fst

def Env.kernel (env : Env) : Kernel :=
  ⟨env.free, env.free_new, none, none, none, none, none, fun _ => 0⟩

/-- What the calls inside of one `popen` find: whether there is memory for the entry and for the
stream, and which calls fail. -/
structure Replies where
  mint : ℕ
  SHELL : Option Str
  malloc : Bool
  dup : Option Error
  setfd : Option Error
  pipe : Option Error
  spawnlp : Str → List Str → ℤ
  getfl : Bool
  stream : Bool
  waitpid : Bool

/-- `Fpipe`: the end to read from, and the end to write to. -/
def Fpipe (env : Env) (fails : Option Error) (p : Proc) : Except Error (ℤ × ℤ) × Proc :=
  match fails with
  | some e => (.error e, p)
  | none =>
    let (pipfd0, p) := newFile env.kernel none p
    let (pipfd1, p) := newFile env.kernel none p
    (.ok (pipfd0, pipfd1), p)

/-- `__getmode`: whether the stream is read and written. -/
def getmode (mode : Str) : Option (Bool × Bool) :=
  match mode with
  | [] => none
  | c :: rest =>
    let plus := PLUS ∈ (rest.takeWhile fun c => c = PLUS ∨ c = 98 ∨ c = 120).take 3
    if c = LETTER_A ∨ c = LETTER_W then some (plus, true)
    else if c = LETTER_R then some (true, plus)
    else none

/-- `fdopen` for one end of a pipe. -/
def fdopen (env : Env) (replies : Replies) (fd : ℤ) (readEnd : Bool) (mode : Str)
    (streams : List (ℕ × Stream)) : Option (ℕ × List (ℕ × Stream)) := do
  let (read, write) ← getmode mode
  if ¬ replies.getfl then none
  else if readEnd ∧ ¬ read then none
  else if ¬ readEnd ∧ ¬ write then none
  else if ¬ replies.stream then none
  else
    let stream := env.newstream streams
    some (stream, (stream, ⟨fd, write⟩) :: streams)

def start (replies : Replies) (command : Str) : ℤ :=
  let shell := replies.SHELL.getD binSh
  replies.spawnlp shell [shell, dashC, command]

/-- From the pipe on: `outer` is the end for the parent. -/
def launch (env : Env) (replies : Replies) (command type : Str) (s : State) (kidfd : ℤ)
    (hkid : -3 ≤ kidfd) (savefd inner outer : ℤ) (p : Proc) : Option ℕ × State :=
  let p := Fclose (Fforce p kidfd hkid inner) inner
  let pid := start replies command
  let p := Fclose (Fforce p kidfd hkid savefd) savefd
  match if 0 < pid then fdopen env replies outer (kidfd = 1) type s.streams else none with
  | some (pipefile, streams) =>
    (some pipefile, ⟨p, streams, ⟨pid, pipefile⟩ :: s.pipes, s.waited⟩)
  | none =>
    (none, ⟨Fclose p outer, s.streams, s.pipes,
      if 0 < pid ∧ replies.waitpid then s.waited ++ [pid] else s.waited⟩)

def kidfd (type : Str) : ℤ := if type.head? = some LETTER_R then 1 else 0

theorem kidfd_valid (type : Str) : -3 ≤ kidfd type := by
  unfold kidfd
  split_ifs <;> decide

/-- `popen`: the stream, or `NULL` and the `errno` that it sets. -/
def popen (env : Env) (replies : Replies) (command type : Str) (s : State) :
    (Option ℕ × Option ℤ) × State :=
  if replies.mint = 0 then ((none, some ENOSYS), s)
  else if ¬ replies.malloc then ((none, none), s)
  else
    let (savefd, p) := Fdup env.kernel replies.dup s.proc (kidfd type)
    if savefd < 0 then ((none, some (-savefd)), { s with proc := p })
    else
      match replies.setfd with
      | some e => ((none, some (-e.val)), { s with proc := p })
      | none =>
        match Fpipe env replies.pipe p with
        | (.error e, p) => ((none, some (-e.val)), { s with proc := p })
        | (.ok (pipfd0, pipfd1), p) =>
          let (stream, s) :=
            if kidfd type = 1 then
              launch env replies command type s (kidfd type) (kidfd_valid type) savefd pipfd1
                pipfd0 p
            else
              launch env replies command type s (kidfd type) (kidfd_valid type) savefd pipfd0
                pipfd1 p
          ((stream, none), s)

/-- `fclose`: a stream whose last characters cannot be written stays open. -/
def fclose (flush : Bool) (fp : ℕ) (s : State) : State :=
  match s.streams.lookup fp with
  | none => s
  | some stream =>
    if stream.write ∧ ¬ flush then s
    else { s with
      proc := Fclose s.proc stream.fd
      streams := s.streams.filter fun entry => entry.1 ≠ fp }

def findPipe (fp : ℕ) : List Pipe → Option (Pipe × List Pipe)
  | [] => none
  | p :: pipes =>
    if p.pfile = fp then some (p, pipes)
    else (findPipe fp pipes).map fun found => (found.1, p :: found.2)

/-- `pclose`: `flush` says whether the last characters can be written, `waitpid` what is found out
of a process, if the call does not fail. -/
def pclose (flush : Bool) (waitpid : ℤ → Option ℤ) (fp : ℕ) (s : State) : ℤ × State :=
  match findPipe fp s.pipes with
  | none => (-1, s)
  | some (p, pipes) =>
    let s := { fclose flush fp s with pipes := pipes }
    match waitpid p.pid with
    -- nobody has waited for the process, and its entry is gone
    | none => (-1, s)
    | some status => (status, { s with waited := s.waited ++ [p.pid] })

inductive Call
  | popen (replies : Replies) (command type : Str)
  | pclose (flush : Bool) (waitpid : ℤ → Option ℤ) (fp : ℕ)

inductive Result
  | stream (pipefile : Option ℕ)
  | status (retval : ℤ)

def step (env : Env) : Call → State → Result × State
  | .popen replies command type, s =>
    let (r, s) := popen env replies command type s
    (.stream r.1, s)
  | .pclose flush waitpid fp, s =>
    let (retval, s) := pclose flush waitpid fp s
    (.status retval, s)

/-- No `Fcntl` or `Fpipe` of a `popen` fails behind an `Fdup` that works; what is left in the
buffer of a stream can be written when it is closed, and `waitpid` does not fail for its process. -/
def Avoids : Call → State → Prop
  | .popen replies _ type, s =>
    replies.mint ≠ 0 → replies.malloc → s.proc.fds (kidfd type) ≠ none → replies.dup = none →
      replies.setfd = none ∧ replies.pipe = none
  | .pclose flush waitpid fp, s =>
    ∀ p ∈ s.pipes, p.pfile = fp → waitpid p.pid ≠ none ∧
      ∀ stream, s.streams.lookup fp = some stream → stream.write → flush

def record (live : List Pipe) : Call × Result → List Pipe
  | (.popen replies command _, .stream (some fp)) => ⟨start replies command, fp⟩ :: live
  | (.pclose _ _ fp, _) => live.filter fun p => p.pfile ≠ fp
  | _ => live

/-- The streams that `popen` has returned and `pclose` was not called for, with the processes that
were started for them. -/
def live (events : List (Call × Result)) : List Pipe := events.foldl record []

def machine (env : Env) : Machine State (Call × Result) where
  init := fun s => s.pipes = []
  step := fun s event s' => Avoids event.1 s ∧ step env event.1 s = (event.2, s')

def fdOf (s : State) (fp : ℕ) : Option ℤ := (s.streams.lookup fp).map Stream.fd

/-- The descriptors are as before, but for the one of the stream that is returned or closed. -/
def Descriptors (s : State) (call : Call) (result : Result) (s' : State) : Prop :=
  match call, result with
  | .popen _ _ _, .stream (some fp) => s.streams.lookup fp = none ∧
      ∃ fd, fdOf s' fp = some fd ∧ s.proc.fds fd = none ∧ s'.proc.fds fd ≠ none ∧
        ∀ h, h ≠ fd → s'.proc.fds h = s.proc.fds h
  | .popen _ _ _, _ => s'.proc.fds = s.proc.fds
  | .pclose _ _ fp, _ =>
    (∀ p ∈ s.pipes, p.pfile = fp → ∃ fd, fdOf s fp = some fd ∧ s.proc.fds fd ≠ none ∧
        s'.proc.fds = Function.update s.proc.fds fd none) ∧
      ((∀ p ∈ s.pipes, p.pfile ≠ fp) → s'.proc.fds = s.proc.fds)

/-- `pclose` waits for the process of its stream. -/
def Waits (s : State) (call : Call) (s' : State) : Prop :=
  match call with
  | .popen _ _ _ => True
  | .pclose _ _ fp => ∀ p ∈ s.pipes, p.pfile = fp → s'.waited = s.waited ++ [p.pid]

/-- What a call is to do, after the calls `events`. -/
structure Right (events : List (Call × Result)) (s : State) (call : Call) (result : Result)
    (s' : State) : Prop where
  standard : s'.proc.fds 0 = s.proc.fds 0 ∧ s'.proc.fds 1 = s.proc.fds 1
  descriptors : Descriptors s call result s'
  pipes : s'.pipes = live (events ++ [(call, result)])
  waits : Waits s call s'

section Handles

variable {env : Env} {p p₀ q : Proc} {h savefd inner outer kid : ℤ} {f : ℕ}

theorem dup_ok (kernel : Kernel) (hf : p.fds h = some f) :
    ∃ q, Fdup kernel none p h = (kernel.free p, q) ∧
      q.fds = Function.update p.fds (kernel.free p) (some f) := by
  unfold Fdup
  split
  · rename_i hnone
    rw [hnone] at hf
    cases hf
  · rename_i g hg
    rw [hg] at hf
    rw [← Option.some.inj hf]
    exact ⟨_, rfl, rfl⟩

theorem dup_fails (kernel : Kernel) {fails : Option Error} (h : ¬ (p.fds kid ≠ none ∧ fails = none)) :
    ∃ e : Error, Fdup kernel fails p kid = (e.val, p) := by
  unfold Fdup
  split
  · exact ⟨EIHNDL, rfl⟩
  · rename_i g hg
    cases fails with
    | some e => exact ⟨e, rfl⟩
    | none => exact absurd ⟨by rw [hg]; exact Option.some_ne_none g, rfl⟩ h

/-- The old file of the handle `kid` is on `savefd` too, and the ends of the pipe are on handles of
their own. -/
structure Prepared (p₀ p : Proc) (kid savefd inner outer : ℤ) : Prop where
  low : kid < 6
  high : 6 ≤ savefd ∧ 6 ≤ inner ∧ 6 ≤ outer
  apart : savefd ≠ inner ∧ savefd ≠ outer ∧ inner ≠ outer
  free : p₀.fds savefd = none ∧ p₀.fds inner = none ∧ p₀.fds outer = none
  used : p₀.fds kid ≠ none
  saved : p.fds savefd = p₀.fds kid
  ends : p.fds inner ≠ none ∧ p.fds outer ≠ none
  rest : ∀ h, h ≠ savefd → h ≠ inner → h ≠ outer → p.fds h = p₀.fds h

theorem close_fds (p : Proc) (h : ℤ) : (Fclose p h).fds = Function.update p.fds h none := rfl

theorem Prepared.back (h : Prepared p₀ p kid savefd inner outer) (hkid : -3 ≤ kid) :
    (Fclose (Fforce (Fclose (Fforce p kid hkid inner) inner) kid hkid savefd) savefd).fds =
      Function.update p₀.fds outer (p.fds outer) := by
  have hlow := h.low
  obtain ⟨hhigh₁, hhigh₂, hhigh₃⟩ := h.high
  obtain ⟨hapart₁, hapart₂, hapart₃⟩ := h.apart
  obtain ⟨hfree₁, hfree₂, hfree₃⟩ := h.free
  obtain ⟨g, hg⟩ := Option.ne_none_iff_exists'.mp h.ends.1
  obtain ⟨f, hf⟩ := Option.ne_none_iff_exists'.mp h.used
  have hsaved : (Fclose (Fforce p kid hkid inner) inner).fds savefd = some f := by
    rw [close_fds, Function.update_of_ne hapart₁, force_some hkid hg,
      Function.update_of_ne (by omega), h.saved, hf]
  rw [close_fds, force_some hkid hsaved, close_fds, force_some hkid hg]
  funext i
  by_cases hi₁ : i = savefd
  · rw [hi₁, Function.update_self, Function.update_of_ne hapart₂, hfree₁]
  rw [Function.update_of_ne hi₁]
  by_cases hi₂ : i = kid
  · rw [hi₂, Function.update_self, Function.update_of_ne (by omega), hf]
  rw [Function.update_of_ne hi₂]
  by_cases hi₃ : i = inner
  · rw [hi₃, Function.update_self, Function.update_of_ne hapart₃, hfree₂]
  rw [Function.update_of_ne hi₃, Function.update_of_ne hi₂]
  by_cases hi₄ : i = outer
  · rw [hi₄, Function.update_self]
  · rw [Function.update_of_ne hi₄, h.rest i hi₁ hi₃ hi₄]

theorem new_ok (env : Env) (p : Proc) :
    ∃ fd q, newFile env.kernel none p = (fd, q) ∧ Opened p fd q :=
  ⟨(newFile env.kernel none p).1, (newFile env.kernel none p).2, rfl, newFile_none rfl⟩

theorem prepared (env : Env) (hkid : kid < 6) (hf : p₀.fds kid = some f) :
    ∃ savefd p, Fdup env.kernel none p₀ kid = (savefd, p) ∧ 6 ≤ savefd ∧
      ∃ pipfd0 pipfd1 q, Fpipe env none p = (.ok (pipfd0, pipfd1), q) ∧
        Prepared p₀ q kid savefd pipfd0 pipfd1 ∧ Prepared p₀ q kid savefd pipfd1 pipfd0 := by
  obtain ⟨p, hdup, hp⟩ := dup_ok env.kernel hf
  obtain ⟨hsave, hsaveNew⟩ := env.kernel.free_new p₀
  generalize env.kernel.free p₀ = savefd at *
  obtain ⟨pipfd0, p₁, hfirst, ⟨hhigh₀, hnew₀⟩, hfds₀, -⟩ := new_ok env p
  obtain ⟨pipfd1, p₂, hsecond, ⟨hhigh₁, hnew₁⟩, hfds₁, -⟩ := new_ok env p₁
  have hpipe : Fpipe env none p = (.ok (pipfd0, pipfd1), p₂) := by
    unfold Fpipe
    simp only [hfirst, hsecond]
  refine ⟨savefd, p, hdup, hsave, pipfd0, pipfd1, p₂, hpipe, ?_⟩
  have hne₀ : savefd ≠ pipfd0 := by
    intro heq
    rw [hp, ← heq, Function.update_self] at hnew₀
    cases hnew₀
  have hne₁ : pipfd0 ≠ pipfd1 := by
    intro heq
    rw [hfds₀, ← heq, Function.update_self] at hnew₁
    cases hnew₁
  have hne₂ : savefd ≠ pipfd1 := by
    intro heq
    rw [hfds₀, ← heq, Function.update_of_ne hne₀, hp, Function.update_self] at hnew₁
    cases hnew₁
  rw [hp, Function.update_of_ne hne₀.symm] at hnew₀
  rw [hfds₀, Function.update_of_ne hne₁.symm, hp, Function.update_of_ne hne₂.symm] at hnew₁
  have hused : p₀.fds kid ≠ none := by
    rw [hf]
    exact Option.some_ne_none f
  have hsaved : p₂.fds savefd = p₀.fds kid := by
    rw [hfds₁, Function.update_of_ne hne₂, hfds₀, Function.update_of_ne hne₀, hp,
      Function.update_self, hf]
  have hend₀ : p₂.fds pipfd0 ≠ none := by
    rw [hfds₁, Function.update_of_ne hne₁, hfds₀, Function.update_self]
    exact Option.some_ne_none _
  have hend₁ : p₂.fds pipfd1 ≠ none := by
    rw [hfds₁, Function.update_self]
    exact Option.some_ne_none _
  have hrest : ∀ h, h ≠ savefd → h ≠ pipfd0 → h ≠ pipfd1 → p₂.fds h = p₀.fds h := by
    intro i hi hi₀ hi₁
    rw [hfds₁, Function.update_of_ne hi₁, hfds₀, Function.update_of_ne hi₀, hp,
      Function.update_of_ne hi]
  constructor
  · exact ⟨hkid, ⟨hsave, hhigh₀, hhigh₁⟩, ⟨hne₀, hne₂, hne₁⟩, ⟨hsaveNew, hnew₀, hnew₁⟩, hused,
      hsaved, ⟨hend₀, hend₁⟩, hrest⟩
  · exact ⟨hkid, ⟨hsave, hhigh₁, hhigh₀⟩, ⟨hne₂, hne₀, hne₁.symm⟩, ⟨hsaveNew, hnew₁, hnew₀⟩,
      hused, hsaved, ⟨hend₁, hend₀⟩, fun h hs h₁ h₀ => hrest h hs h₀ h₁⟩

end Handles

section Calls

variable {env : Env} {s s' : State} {fp : ℕ}

/-- The list has the live streams, each with a descriptor of its own. -/
structure Listed (events : List (Call × Result)) (s : State) : Prop where
  pipes : s.pipes = live events
  nodup : (s.pipes.map Pipe.pfile).Nodup
  opened : ∀ p ∈ s.pipes, ∃ fd, fdOf s p.pfile = some fd ∧ 6 ≤ fd ∧ s.proc.fds fd ≠ none
  own : ∀ p ∈ s.pipes, ∀ p' ∈ s.pipes, fdOf s p.pfile = fdOf s p'.pfile → p.pfile = p'.pfile

structure Unchanged (s s' : State) : Prop where
  fds : s'.proc.fds = s.proc.fds
  streams : s'.streams = s.streams
  pipes : s'.pipes = s.pipes

structure Started (s : State) (pid : ℤ) (fp : ℕ) (s' : State) : Prop where
  new : s.streams.lookup fp = none
  descriptor : ∃ fd write, 6 ≤ fd ∧ s'.streams = (fp, ⟨fd, write⟩) :: s.streams ∧
    s.proc.fds fd = none ∧ s'.proc.fds fd ≠ none ∧
    ∀ h, h ≠ fd → s'.proc.fds h = s.proc.fds h
  pipes : s'.pipes = ⟨pid, fp⟩ :: s.pipes

/-- The two ways in which `popen` ends. -/
def Ended (s : State) (pid : ℤ) : Option ℕ → State → Prop
  | none, s' => Unchanged s s'
  | some fp, s' => Started s pid fp s'

theorem lookup_none {streams : List (ℕ × Stream)} (h : fp ∉ streams.map Prod.fst) :
    streams.lookup fp = none := by
  induction streams with
  | nil => rfl
  | cons entry streams ih =>
    rw [List.map_cons, List.mem_cons, not_or] at h
    rw [List.lookup_cons, beq_false_of_ne h.1]
    exact ih h.2

theorem fdopen_new {replies : Replies} {fd : ℤ} {readEnd : Bool} {mode : Str}
    {streams streams' : List (ℕ × Stream)}
    (h : fdopen env replies fd readEnd mode streams = some (fp, streams')) :
    streams.lookup fp = none ∧ ∃ write, streams' = (fp, ⟨fd, write⟩) :: streams := by
  unfold fdopen at h
  obtain ⟨⟨read, write⟩, -, h⟩ := Option.bind_eq_some_iff.mp h
  simp only at h
  split_ifs at h
  cases h
  exact ⟨lookup_none (env.newstream_new streams), write, rfl⟩

variable (env) in
theorem launch_ok {p : Proc} {kid savefd inner outer : ℤ}
    (h : Prepared s.proc p kid savefd inner outer) (hkid : -3 ≤ kid) (replies : Replies)
    (command type : Str) :
    Ended s (start replies command)
      (launch env replies command type s kid hkid savefd inner outer p).1
      (launch env replies command type s kid hkid savefd inner outer p).2 := by
  have hback := h.back hkid
  obtain ⟨-, -, hfree⟩ := h.free
  unfold launch
  simp only
  cases hopen : (if 0 < start replies command then
      fdopen env replies outer (kid = 1) type s.streams else none) with
  | none =>
    refine ⟨?_, rfl, rfl⟩
    show (Fclose _ outer).fds = s.proc.fds
    rw [close_fds, hback, Function.update_idem, ← hfree, Function.update_eq_self]
  | some made =>
    obtain ⟨fp, streams'⟩ := made
    have hmade : fdopen env replies outer (kid = 1) type s.streams = some (fp, streams') := by
      split_ifs at hopen
      exact hopen
    obtain ⟨hnew, write, hstreams⟩ := fdopen_new hmade
    refine ⟨hnew, ⟨outer, write, h.high.2.2, hstreams, hfree, ?_, ?_⟩, rfl⟩
    · show (Fclose _ savefd).fds outer ≠ none
      rw [hback, Function.update_self]
      exact h.ends.2
    · intro i hi
      show (Fclose _ savefd).fds i = _
      rw [hback, Function.update_of_ne hi]

variable (env) in
theorem popen_ok {replies : Replies} {command type : Str}
    (havoid : Avoids (.popen replies command type) s) :
    Ended s (start replies command) (popen env replies command type s).1.1
      (popen env replies command type s).2 := by
  have hsame : Unchanged s s := ⟨rfl, rfl, rfl⟩
  unfold popen
  by_cases hmint : replies.mint = 0
  · rw [if_pos hmint]
    exact hsame
  rw [if_neg hmint]
  by_cases hmalloc : replies.malloc
  · rw [if_neg (not_not.mpr hmalloc)]
    by_cases hdup : s.proc.fds (kidfd type) ≠ none ∧ replies.dup = none
    · obtain ⟨hsetfd, hpipe⟩ := havoid hmint hmalloc hdup.1 hdup.2
      obtain ⟨f, hf⟩ := Option.ne_none_iff_exists'.mp hdup.1
      have hlow : kidfd type < 6 := by
        unfold kidfd
        split_ifs <;> decide
      obtain ⟨savefd, p, hfdup, hsave, pipfd0, pipfd1, q, hfpipe, h₀, h₁⟩ :=
        prepared env hlow hf
      rw [hdup.2, hfdup, hsetfd, hpipe]
      simp only [if_neg (show ¬ savefd < 0 by omega), hfpipe]
      by_cases hkid : kidfd type = 1
      · rw [if_pos hkid]
        exact launch_ok env h₁ (kidfd_valid type) replies command type
      · rw [if_neg hkid]
        exact launch_ok env h₀ (kidfd_valid type) replies command type
    · obtain ⟨e, he⟩ := dup_fails env.kernel hdup
      have hneg : e.val < 0 := e.property.trans (by decide)
      rw [he]
      simp only [if_pos hneg]
      exact ⟨rfl, rfl, rfl⟩
  · rw [if_pos hmalloc]
    exact hsame

theorem findPipe_none {pipes : List Pipe} (h : findPipe fp pipes = none) :
    ∀ p ∈ pipes, p.pfile ≠ fp := by
  induction pipes with
  | nil => exact fun p hp => absurd hp List.not_mem_nil
  | cons p pipes ih =>
    rw [findPipe] at h
    by_cases heq : p.pfile = fp
    · rw [if_pos heq] at h
      cases h
    · rw [if_neg heq] at h
      exact List.forall_mem_cons.mpr ⟨heq, ih (Option.map_eq_none_iff.mp h)⟩

theorem findPipe_some {pipes rest : List Pipe} {p : Pipe} (hnodup : (pipes.map Pipe.pfile).Nodup)
    (h : findPipe fp pipes = some (p, rest)) :
    p ∈ pipes ∧ p.pfile = fp ∧ rest = pipes.filter fun p => p.pfile ≠ fp := by
  induction pipes generalizing rest with
  | nil => cases h
  | cons first pipes ih =>
    rw [List.map_cons, List.nodup_cons] at hnodup
    rw [findPipe] at h
    by_cases heq : first.pfile = fp
    · rw [if_pos heq] at h
      cases h
      refine ⟨List.mem_cons_self, heq, ?_⟩
      rw [List.filter_cons_of_neg (by simp [heq])]
      refine (List.filter_eq_self.mpr fun p' hp' => ?_).symm
      have hne : p'.pfile ≠ fp := by
        intro hsame
        rw [heq, ← hsame] at hnodup
        exact hnodup.1 (List.mem_map_of_mem hp')
      simp [hne]
    · rw [if_neg heq] at h
      obtain ⟨⟨p', rest'⟩, hfind, hpair⟩ := Option.map_eq_some_iff.mp h
      cases hpair
      obtain ⟨hmem, hpfile, hrest⟩ := ih hnodup.2 hfind
      refine ⟨List.mem_cons_of_mem _ hmem, hpfile, ?_⟩
      rw [List.filter_cons_of_pos (by simp [heq]), hrest]

theorem lookup_filter {streams : List (ℕ × Stream)} {fp' : ℕ} (hne : fp' ≠ fp) :
    (streams.filter fun entry => entry.1 ≠ fp).lookup fp' = streams.lookup fp' := by
  induction streams with
  | nil => rfl
  | cons entry streams ih =>
    by_cases heq : entry.1 = fp
    · rw [List.filter_cons_of_neg (by simp [heq]), ih, List.lookup_cons,
        beq_false_of_ne (by rw [heq]; exact hne)]
    · rw [List.filter_cons_of_pos (by simp [heq]), List.lookup_cons, List.lookup_cons, ih]

theorem live_snoc (events : List (Call × Result)) (event : Call × Result) :
    live (events ++ [event]) = record (live events) event := by
  rw [live, List.foldl_append]
  rfl

variable {events : List (Call × Result)}

theorem Listed.lookup (h : Listed events s) {p : Pipe} (hp : p ∈ s.pipes) :
    ∃ stream, s.streams.lookup p.pfile = some stream ∧ 6 ≤ stream.fd ∧
      s.proc.fds stream.fd ≠ none := by
  obtain ⟨fd, hfd, hsix, hopen⟩ := h.opened p hp
  obtain ⟨stream, hlookup, rfl⟩ := Option.map_eq_some_iff.mp hfd
  exact ⟨stream, hlookup, hsix, hopen⟩

theorem Listed.started {replies : Replies} {command type : Str} (h : Listed events s)
    (hstart : Started s (start replies command) fp s') :
    Listed (events ++ [(.popen replies command type, .stream (some fp))]) s' := by
  obtain ⟨fd, write, hsix, hstreams, hfree, hopen, hrest⟩ := hstart.descriptor
  have hnot : ∀ p ∈ s.pipes, p.pfile ≠ fp := by
    intro p hp heq
    obtain ⟨stream, hlookup, -⟩ := h.lookup hp
    rw [heq, hstart.new] at hlookup
    cases hlookup
  have hself : fdOf s' fp = some fd := by
    rw [fdOf, hstreams, List.lookup_cons_self]
    rfl
  have hother : ∀ p ∈ s.pipes, fdOf s' p.pfile = fdOf s p.pfile := by
    intro p hp
    rw [fdOf, hstreams, List.lookup_cons, beq_false_of_ne (hnot p hp)]
    rfl
  have hapart : ∀ p ∈ s.pipes, fdOf s p.pfile ≠ some fd := by
    intro p hp heq
    obtain ⟨fd', hfd', -, hopen'⟩ := h.opened p hp
    rw [hfd'] at heq
    rw [Option.some.inj heq] at hopen'
    exact hopen' hfree
  constructor
  · rw [hstart.pipes, live_snoc, h.pipes]
    rfl
  · rw [hstart.pipes, List.map_cons, List.nodup_cons]
    refine ⟨fun hmem => ?_, h.nodup⟩
    obtain ⟨p, hp, hpfile⟩ := List.mem_map.mp hmem
    exact hnot p hp hpfile
  · rw [hstart.pipes]
    refine List.forall_mem_cons.mpr ⟨⟨fd, hself, hsix, hopen⟩, fun p hp => ?_⟩
    obtain ⟨fd', hfd', hsix', hopen'⟩ := h.opened p hp
    refine ⟨fd', (hother p hp).trans hfd', hsix', ?_⟩
    rw [hrest fd' (fun heq => hapart p hp (by rw [hfd', heq]))]
    exact hopen'
  · rw [hstart.pipes]
    intro p hp p' hp' heq
    rcases List.mem_cons.mp hp with rfl | hp
    · rcases List.mem_cons.mp hp' with rfl | hp'
      · rfl
      · rw [hself, hother p' hp'] at heq
        exact absurd heq.symm (hapart p' hp')
    · rcases List.mem_cons.mp hp' with rfl | hp'
      · rw [hself, hother p hp] at heq
        exact absurd heq (hapart p hp)
      · rw [hother p hp, hother p' hp'] at heq
        exact h.own p hp p' hp' heq

theorem Listed.same {event : Call × Result} (h : Listed events s) (hsame : Unchanged s s')
    (hrecord : record (live events) event = live events) : Listed (events ++ [event]) s' := by
  have hfd : ∀ fp, fdOf s' fp = fdOf s fp := by
    intro fp
    rw [fdOf, hsame.streams, fdOf]
  constructor
  · rw [hsame.pipes, live_snoc, hrecord, h.pipes]
  · rw [hsame.pipes]
    exact h.nodup
  · rw [hsame.pipes]
    intro p hp
    rw [hfd, hsame.fds]
    exact h.opened p hp
  · rw [hsame.pipes]
    intro p hp p' hp' heq
    rw [hfd, hfd] at heq
    exact h.own p hp p' hp' heq

/-- What `pclose` leaves of the process, if the stream `p.pfile` is closed. -/
def closed (s : State) (p : Pipe) (fd : ℤ) : State :=
  { proc := Fclose s.proc fd
    streams := s.streams.filter fun entry => entry.1 ≠ p.pfile
    pipes := s.pipes.filter fun p' => p'.pfile ≠ p.pfile
    waited := s.waited ++ [p.pid] }

theorem Listed.closed {flush : Bool} {waitpid : ℤ → Option ℤ} {retval : ℤ} {p : Pipe} {stream : Stream}
    (h : Listed events s) (hp : p ∈ s.pipes)
    (hlookup : s.streams.lookup p.pfile = some stream) :
    Listed (events ++ [(.pclose flush waitpid p.pfile, .status retval)])
      (closed s p stream.fd) := by
  have hkeep : ∀ p' ∈ s.pipes.filter (fun p' => p'.pfile ≠ p.pfile),
      p' ∈ s.pipes ∧ p'.pfile ≠ p.pfile := by
    intro p' hp'
    obtain ⟨hmem, hne⟩ := List.mem_filter.mp hp'
    exact ⟨hmem, of_decide_eq_true hne⟩
  have hfd : ∀ {fp'}, fp' ≠ p.pfile → fdOf (Popen.closed s p stream.fd) fp' = fdOf s fp' := by
    intro fp' hne
    exact congrArg (Option.map Stream.fd) (lookup_filter hne)
  have hself : fdOf s p.pfile = some stream.fd := by
    rw [fdOf, hlookup]
    rfl
  constructor
  · rw [live_snoc, ← h.pipes]
    rfl
  · exact h.nodup.sublist (List.filter_sublist.map _)
  · intro p' hp'
    obtain ⟨hmem, hne⟩ := hkeep p' hp'
    obtain ⟨fd', hfd', hsix, hopen⟩ := h.opened p' hmem
    refine ⟨fd', (hfd hne).trans hfd', hsix, ?_⟩
    have hapart : fd' ≠ stream.fd := by
      intro heq
      rw [heq, ← hself] at hfd'
      exact hne (h.own p' hmem p hp hfd')
    show (Fclose s.proc stream.fd).fds fd' ≠ none
    rw [close_fds, Function.update_of_ne hapart]
    exact hopen
  · intro p₁ hp₁ p₂ hp₂ heq
    obtain ⟨hmem₁, hne₁⟩ := hkeep p₁ hp₁
    obtain ⟨hmem₂, hne₂⟩ := hkeep p₂ hp₂
    rw [hfd hne₁, hfd hne₂] at heq
    exact h.own p₁ hmem₁ p₂ hmem₂ heq

theorem pclose_unknown {flush : Bool} {waitpid : ℤ → Option ℤ} (h : findPipe fp s.pipes = none) :
    pclose flush waitpid fp s = (-1, s) := by
  rw [pclose, h]

theorem pclose_known {flush : Bool} {waitpid : ℤ → Option ℤ} {status : ℤ} {p : Pipe}
    {rest : List Pipe} {stream : Stream} (h : Listed events s)
    (hfind : findPipe fp s.pipes = some (p, rest))
    (hlookup : s.streams.lookup fp = some stream) (hflush : stream.write → flush)
    (hwait : waitpid p.pid = some status) :
    pclose flush waitpid fp s = (status, closed s p stream.fd) := by
  obtain ⟨-, hpfile, hrest⟩ := findPipe_some h.nodup hfind
  have hno : ¬ (stream.write ∧ ¬ flush) := fun hbad => hbad.2 (hflush hbad.1)
  have hclose : fclose flush fp s = { s with
      proc := Fclose s.proc stream.fd
      streams := s.streams.filter fun entry => entry.1 ≠ fp } := by
    rw [fclose, hlookup]
    exact if_neg hno
  rw [pclose, hfind]
  simp only [hwait, hclose]
  rw [closed, hrest, hpfile]

variable (env) in
/-- A call after which everything is as it should be leaves it so, and does what it should. -/
theorem step_right {call : Call} {result : Result} (h : Listed events s)
    (havoid : Avoids call s) (hstep : step env call s = (result, s')) :
    Listed (events ++ [(call, result)]) s' ∧ Right events s call result s' := by
  cases call with
  | popen replies command type =>
    have hended := popen_ok env havoid
    cases hpopen : popen env replies command type s with
    | mk r after =>
    obtain ⟨made, errno⟩ := r
    rw [hpopen] at hended
    have hresult : (Result.stream made, after) = (result, s') := by
      rw [← hstep, step, hpopen]
    obtain ⟨rfl, rfl⟩ := Prod.mk.inj hresult
    cases made with
    | none =>
      have hsame : Unchanged s after := hended
      have hlisted : Listed (events ++ [(.popen replies command type, .stream none)]) after :=
        h.same hsame rfl
      refine ⟨hlisted, ⟨?_, ?_⟩, hsame.fds, hlisted.pipes, trivial⟩
      · rw [hsame.fds]
      · rw [hsame.fds]
    | some fp =>
      have hstart : Started s (start replies command) fp after := hended
      have hlisted :
          Listed (events ++ [(.popen replies command type, .stream (some fp))]) after :=
        h.started hstart
      obtain ⟨fd, write, hsix, hstreams, hfree, hopen, hrest⟩ := hstart.descriptor
      refine ⟨hlisted, ⟨hrest 0 (by omega), hrest 1 (by omega)⟩, ⟨hstart.new, fd, ?_, hfree, hopen,
        hrest⟩, hlisted.pipes, trivial⟩
      rw [fdOf, hstreams, List.lookup_cons_self]
      rfl
  | pclose flush waitpid fp =>
    unfold step at hstep
    cases hfind : findPipe fp s.pipes with
    | none =>
      have hnot := findPipe_none hfind
      simp only [pclose_unknown hfind] at hstep
      obtain ⟨rfl, rfl⟩ := Prod.mk.inj hstep
      have hrecord : record (live events) (.pclose flush waitpid fp, .status (-1)) =
          live events := by
        rw [← h.pipes]
        exact List.filter_eq_self.mpr fun p hp => decide_eq_true (hnot p hp)
      have hunchanged : Unchanged s s := ⟨rfl, rfl, rfl⟩
      have hlisted := h.same hunchanged hrecord
      refine ⟨hlisted, ⟨rfl, rfl⟩, ⟨fun p hp heq => ?_, fun _ => rfl⟩, hlisted.pipes,
        fun p hp heq => ?_⟩
      · exact absurd heq (hnot p hp)
      · exact absurd heq (hnot p hp)
    | some found =>
      obtain ⟨p, rest⟩ := found
      obtain ⟨hp, hpfile, -⟩ := findPipe_some h.nodup hfind
      obtain ⟨stream, hlookup, hsix, hopen⟩ := h.lookup hp
      rw [hpfile] at hlookup
      obtain ⟨hworks, hflush⟩ := havoid p hp hpfile
      obtain ⟨status, hwait⟩ := Option.ne_none_iff_exists'.mp hworks
      simp only [pclose_known h hfind hlookup (hflush stream hlookup) hwait] at hstep
      obtain ⟨rfl, rfl⟩ := Prod.mk.inj hstep
      subst hpfile
      have hlisted : Listed (events ++ [(.pclose flush waitpid p.pfile, .status status)])
          (closed s p stream.fd) := h.closed hp hlookup
      -- the entries with this stream are this one
      have honly : ∀ p' ∈ s.pipes, p'.pfile = p.pfile → p' = p :=
        fun p' hp' heq => List.inj_on_of_nodup_map h.nodup hp' hp heq
      refine ⟨hlisted, ⟨?_, ?_⟩, ⟨fun p' hp' heq => ?_, fun hno => ?_⟩, hlisted.pipes,
        fun p' hp' heq => ?_⟩
      · exact Function.update_of_ne (by omega) _ _
      · exact Function.update_of_ne (by omega) _ _
      · refine ⟨stream.fd, ?_, hopen, rfl⟩
        rw [fdOf, hlookup]
        rfl
      · exact absurd rfl (hno p hp)
      · rw [honly p' hp' heq]
        rfl

variable (env) in
theorem run_listed {s : State} (h : (machine env).Run events s) : Listed events s := by
  induction h with
  | start hinit =>
    have hinit : _ = [] := hinit
    constructor
    · exact hinit
    · rw [hinit]
      exact List.nodup_nil
    · rw [hinit]
      exact fun p hp => absurd hp List.not_mem_nil
    · rw [hinit]
      exact fun p hp => absurd hp List.not_mem_nil
  | snoc _ hstep ih => exact (step_right env ih hstep.1 hstep.2).1

/-- In every run in which nothing fails behind an `Fdup` that works, no stream is closed whose
buffer cannot be written, and no `waitpid` of a `pclose` fails, each call leaves the handles 0 and 1,
adds or takes away the descriptor of its stream, keeps the list of the live streams, and waits for
the right process. -/
theorem run_right {call : Call} {result : Result} (h : (machine env).Run events s)
    (havoid : Avoids call s) (hstep : step env call s = (result, s')) :
    Right events s call result s' :=
  (step_right env (run_listed env h) havoid hstep).2

end Calls

def firstFree (streams : List (ℕ × Stream)) : ℕ := streams.foldr (fun entry n => max n (entry.1 + 1)) 0

theorem firstFree_lt {streams : List (ℕ × Stream)} {entry : ℕ × Stream} (h : entry ∈ streams) :
    entry.1 < firstFree streams := by
  induction streams with
  | nil => exact absurd h List.not_mem_nil
  | cons first streams ih =>
    show entry.1 < max (firstFree streams) (first.1 + 1)
    rcases List.mem_cons.mp h with rfl | h
    · exact lt_max_of_lt_right (Nat.lt_succ_self _)
    · exact lt_max_of_lt_left (ih h)

def behind : Env where
  free := fun p => max 6 p.limit
  free_new := noOutput.free_new
  newstream := firstFree
  newstream_new := by
    intro streams hmem
    obtain ⟨entry, hentry, heq⟩ := List.mem_map.mp hmem
    have hlt := firstFree_lt hentry
    rw [heq] at hlt
    exact Nat.lt_irrefl _ hlt

def fresh : State := ⟨console, [], [], []⟩

/-- Everything works but, perhaps, `Fpipe`. -/
def replies (pipe : Option Error) : Replies :=
  ⟨1, none, true, none, none, pipe, fun _ _ => 5, true, true, true⟩

/-- `popen ("ls", "r")`. -/
def ls (pipe : Option Error) : Call := .popen (replies pipe) [108, 115] [LETTER_R]

theorem run_right_demo :
    Right [(ls none, (step behind (ls none) fresh).1)] (step behind (ls none) fresh).2
      (.pclose true (fun _ => some 0) 0)
      (step behind (.pclose true (fun _ => some 0) 0) (step behind (ls none) fresh).2).1
      (step behind (.pclose true (fun _ => some 0) 0) (step behind (ls none) fresh).2).2 := by
  have hstart : (machine behind).Run [] fresh := .start rfl
  have hrun : (machine behind).Run [(ls none, (step behind (ls none) fresh).1)]
      (step behind (ls none) fresh).2 := hstart.snoc ⟨fun _ _ _ _ => ⟨rfl, rfl⟩, rfl⟩
  exact run_right hrun (fun _ _ _ => ⟨Option.some_ne_none 0, fun _ _ _ => rfl⟩) rfl

/-- If there is no pipe, the copy of the handle 1 stays open. -/
theorem copy_stays_open :
    (step behind (ls (some ⟨-35, by decide⟩)) fresh).1 = .stream none ∧
      fresh.proc.fds 6 = none ∧
      (step behind (ls (some ⟨-35, by decide⟩)) fresh).2.proc.fds 6 = some 0 ∧
      ¬ Right [] fresh (ls (some ⟨-35, by decide⟩))
        (step behind (ls (some ⟨-35, by decide⟩)) fresh).1
        (step behind (ls (some ⟨-35, by decide⟩)) fresh).2 := by
  have hbefore : fresh.proc.fds 6 = none := by decide
  have hafter : (step behind (ls (some ⟨-35, by decide⟩)) fresh).2.proc.fds 6 = some 0 := by
    decide +kernel
  refine ⟨rfl, hbefore, hafter, fun h => ?_⟩
  have hsame : (step behind (ls (some ⟨-35, by decide⟩)) fresh).2.proc.fds = fresh.proc.fds :=
    h.descriptors
  rw [hsame, hbefore] at hafter
  cases hafter

end Mintlib.Popen
