import Mintlib.Grp

/-!
# The emulation of `system`: `system.c`

`_parseargs` splits the command into words, and `system_hack` runs it with its input and
output redirected. `none` stands for a store outside of a buffer.
-/

namespace Mintlib.SystemHack

open Text
open Grp (isspace)

abbrev LT : UInt8 := 60
abbrev GT : UInt8 := 62

def isquote (c : UInt8) : Bool := c = 34 ∨ c = 39 ∨ c = 96

abbrev BUF : ℕ := 1024

/-- `*t++ = c`. -/
def put (t : Str) (c : UInt8) : Option Str := if t.length < BUF then some (t ++ [c]) else none

def copyQuoted (quote : UInt8) : Str → Str → Option (Str × Str)
  | [], t => some ([], t)
  | c :: s, t =>
    if c = quote then some (s, t)
    else do
      let t ← put t c
      copyQuoted quote s t

/-- The loop outside of quotes; `last` is `*(s-1)`. Whether it goes to `again`, what is left
of the command, and the word. -/
def copyPlain : Str → UInt8 → Str → Option (Bool × Str × Str)
  | [], _, t => some (false, [], t)
  | c :: s, last, t =>
    if isspace c then some (last = GT ∨ last = LT, c :: s, t)
    else do
      let t ← put t c
      if s.head?.any isquote then some (true, s, t) else copyPlain s c t

/-- `*t = 0`, and the word with what is left of the command. -/
def endWord (s t : Str) : Option (Option (Str × Str)) :=
  if t.length < BUF then some (some (t, s)) else none

/-- One word, from `again` on; it is `none` if the command ends first. -/
def word : ℕ → Str → Str → Option (Option (Str × Str))
  | turns, s, t =>
    match s.dropWhile isspace with
    | [] => some none
    | c :: s =>
      if isquote c then do
        let (s, t) ← copyQuoted c s t
        endWord s t
      else
        match turns with
        | 0 => none
        | turns + 1 => do
          let (again, s, t) ← copyPlain (c :: s) 0 t
          if again then word turns s t else endWord s t

/-- The loop over the words. The calls of `malloc` are numbered; `cur` says whether `cur` is an
entry: `ARG_ERR` is not, but it is not `NULL` either, and the next word is stored through it. -/
def words (malloc : ℕ → Bool) : ℕ → ℕ → Bool → Str → Option (List Str)
  | turns, calls, cur, s => do
    match ← word s.length s [] with
    | none => if cur then some [] else none
    | some (w, s) =>
      match turns with
      | 0 => none
      | turns + 1 =>
        if cur then do
          let al ← words malloc turns (calls + 1) (malloc calls) s
          some (w :: al)
        else none

/-- `_parseargs`; the first entry is the head of the list. -/
def parseargs (malloc : ℕ → Bool) (s : Str) : Option (List Str) :=
  words malloc s.length 1 (malloc 0) s

/-- What `system_hack` gets from the words. A pointer of `argv` is `none` for `NULL`. -/
structure Args where
  argv : List (Option Str)
  infile : Str
  outfile : Str
  append : Bool
deriving DecidableEq

/-- `argv[i++] = p`, in a vector of `argc` pointers. -/
def pushArg (argc : ℕ) (a : Args) (p : Option Str) : Option Args :=
  if a.argv.length < argc then some { a with argv := a.argv ++ [p] } else none

/-- A word that begins with `'>'`. -/
def outputTo (a : Args) : Str → Args
  | [] => { a with outfile := [], append := false }
  | c :: outfile =>
    if c = GT then { a with outfile := outfile, append := true }
    else { a with outfile := c :: outfile, append := false }

/-- The loop over the words, and `argv[i] = 0` behind it. -/
def sortArgs (argc : ℕ) : List Str → Args → Option Args
  | [], a => pushArg argc a none
  | [] :: al, a => do
    let a ← pushArg argc a (some [])
    sortArgs argc al a
  | (c :: p) :: al, a =>
    if c = GT then sortArgs argc al (outputTo a p)
    else if c = LT then sortArgs argc al { a with infile := p }
    else do
      let a ← pushArg argc a (some (c :: p))
      sortArgs argc al a

def arguments (al : List Str) : Option Args := sortArgs al.length al ⟨[], [], [], false⟩

/-- The first half of `system_hack`; the inner `none` is the return with `ENOMEM`. -/
def split (malloc : ℕ → Bool) (s : Str) : Option (Option Args) := do
  let al ← parseargs malloc s
  if malloc (al.length + 1) then (arguments al).map some else some none

def Plain (run : Str) : Prop := run ≠ [] ∧ ∀ c ∈ run, isspace c = false ∧ isquote c = false

def Redirects (run : Str) : Prop := run.getLast? = some GT ∨ run.getLast? = some LT

/-- `s` begins with the word `w`, and `rest` follows. At the end of the command a word may be
open: a redirection without a name, and blanks. -/
inductive Word : Str → Str → Bool → Str → Prop
  | quoted {q : UInt8} {body rest : Str} : isquote q → q ∉ body →
      Word (q :: body ++ q :: rest) body false rest
  | unbalanced {q : UInt8} {body : Str} : isquote q → q ∉ body → Word (q :: body) body false []
  | last {run : Str} : Plain run → Word run run false []
  | plain {run rest : Str} {c : UInt8} : Plain run → ¬ Redirects run → isspace c →
      Word (run ++ c :: rest) run false (c :: rest)
  | joined {run s w rest : Str} {q : UInt8} {dangling : Bool} : Plain run → isquote q →
      Word (q :: s) w dangling rest → Word (run ++ q :: s) (run ++ w) dangling rest
  | redirected {run blanks s w rest : Str} {c : UInt8} {dangling : Bool} : Plain run →
      Redirects run → blanks ≠ [] → (∀ c ∈ blanks, isspace c) → isspace c = false →
      Word (c :: s) w dangling rest → Word (run ++ blanks ++ c :: s) (run ++ w) dangling rest
  | dangling {run blanks : Str} : Plain run → Redirects run → blanks ≠ [] →
      (∀ c ∈ blanks, isspace c) → Word (run ++ blanks) run true []

/-- A word as `_parseargs` comes to it: `dangling` is open at the end of the command, and `glued`
is followed by another one without a blank, behind its closing quote. -/
structure Piece where
  text : Str
  dangling : Bool
  glued : Bool

def touches (rest : Str) : Bool := rest.head?.any fun c => !isspace c

/-- The words of a command, in order. -/
inductive Words : Str → List Piece → Prop
  | nil {blanks : Str} : (∀ c ∈ blanks, isspace c) → Words blanks []
  | cons {blanks s w rest : Str} {c : UInt8} {dangling : Bool} {ws : List Piece} :
      (∀ c ∈ blanks, isspace c) → isspace c = false → Word (c :: s) w dangling rest →
      Words rest ws → Words (blanks ++ c :: s) (⟨w, dangling, touches rest⟩ :: ws)

/-- The words if a closing quote ends one, as in the comment above `_parseargs`. -/
def ended (ws : List Piece) : List Str := ws.map Piece.text

def merged : List Piece → List Str
  | [] => []
  | p :: ws =>
    match p.glued, merged ws with
    | true, w :: al => (p.text ++ w) :: al
    | _, al => p.text :: al

section Split

variable {s t w run rest body : Str} {c q last : UInt8} {dangling : Bool} {ws : List Piece}

theorem put_eq (h : t.length < BUF) : put t c = some (t ++ [c]) := if_pos h

theorem copyQuoted_eq (tail : Str) (hbody : q ∉ body) (htail : tail = [] ∨ ∃ rest, tail = q :: rest) :
    ∀ t : Str, t.length ≤ BUF → copyQuoted q (body ++ tail) t =
      if (t ++ body).length ≤ BUF then some (tail.tail, t ++ body) else none := by
  induction body with
  | nil =>
    intro t ht
    rw [List.nil_append, List.append_nil, if_pos ht]
    rcases htail with rfl | ⟨rest, rfl⟩
    · rfl
    · rw [copyQuoted, if_pos rfl, List.tail_cons]
  | cons c body ih =>
    intro t ht
    obtain ⟨hc, hbody⟩ := not_or.mp (mt List.mem_cons.mpr hbody)
    rw [List.cons_append, copyQuoted, if_neg (Ne.symm hc)]
    by_cases hroom : t.length < BUF
    · have hlen : (t ++ [c]).length ≤ BUF := by
        rw [List.length_append]
        exact hroom
      rw [put_eq hroom]
      show copyQuoted q (body ++ tail) (t ++ [c]) = _
      rw [ih hbody _ hlen, List.append_assoc, List.singleton_append]
    · rw [put, if_neg hroom, if_neg]
      · rfl
      · rw [List.length_append, List.length_cons]
        omega

def Stops (tail : Str) : Prop :=
  tail = [] ∨ ∃ c rest, tail = c :: rest ∧ (isspace c = true ∨ isquote c = true)

theorem isspace_not_isquote (h : isquote c = true) : isspace c = false := by
  unfold isquote at h
  simp only [Bool.decide_or, Bool.or_eq_true, decide_eq_true_eq] at h
  rcases h with rfl | rfl | rfl <;> decide

def again (run tail : Str) : Bool :=
  tail.head?.any isquote || (tail != [] && (run.getLast? == some GT || run.getLast? == some LT))

theorem copyPlain_eq {tail : Str} (htail : Stops tail) : ∀ (run : Str) (last : UInt8) (t : Str),
    Plain run → t.length ≤ BUF → copyPlain (run ++ tail) last t =
      if (t ++ run).length ≤ BUF then some (again run tail, tail, t ++ run) else none := by
  intro run
  induction run with
  | nil => exact fun _ _ h => absurd rfl h.1
  | cons c run ih =>
    intro last t hrun ht
    obtain ⟨hspace, hquote⟩ := hrun.2 c List.mem_cons_self
    rw [List.cons_append, copyPlain, hspace, if_neg Bool.false_ne_true]
    by_cases hroom : t.length < BUF
    swap
    · rw [put, if_neg hroom, if_neg]
      · rfl
      · rw [List.length_append, List.length_cons]
        omega
    have hlen : (t ++ [c]).length ≤ BUF := by
      rw [List.length_append]
      exact hroom
    rw [put_eq hroom]
    show (if (run ++ tail).head?.any isquote then some (true, run ++ tail, t ++ [c])
      else copyPlain (run ++ tail) c (t ++ [c])) = _
    cases run with
    | cons d run =>
      have hd : isquote d = false := (hrun.2 d (List.mem_cons_of_mem _ List.mem_cons_self)).2
      have hno : ¬ (d :: run ++ tail).head?.any isquote = true := by
        show ¬ isquote d = true
        rw [hd]
        exact Bool.false_ne_true
      have hplain : Plain (d :: run) :=
        ⟨List.cons_ne_nil _ _, fun e he => hrun.2 e (List.mem_cons_of_mem _ he)⟩
      have hagain : again (c :: d :: run) tail = again (d :: run) tail := by
        rw [again, again, List.getLast?_cons_cons]
      rw [if_neg hno, ih c (t ++ [c]) hplain hlen, List.append_assoc, List.singleton_append, hagain]
    | nil =>
      rw [List.nil_append, if_pos hlen]
      rcases htail with rfl | ⟨d, rest, rfl, hd⟩
      · rfl
      · by_cases hq : isquote d = true
        · have hany : (d :: rest).head?.any isquote = true := hq
          rw [if_pos hany, again, hany]
          rfl
        · have hany : ¬ (d :: rest).head?.any isquote = true := hq
          rw [if_neg hany, copyPlain, if_pos (hd.resolve_right hq), again]
          rw [Bool.not_eq_true] at hany
          rw [hany, Bool.false_or]
          have hsign : decide (c = GT ∨ c = LT) = ([c].getLast? == some GT || [c].getLast? == some LT) :=
            Bool.decide_or (c = GT) (c = LT)
          rw [hsign]
          rfl

/-- What is left of a word when `t` has been copied already. -/
def found (t w : Str) (dangling : Bool) (rest : Str) : Option (Option (Str × Str)) :=
  if dangling then (if (t ++ w).length ≤ BUF then some none else none) else endWord rest (t ++ w)

theorem found_long (h : ¬ (t ++ run).length ≤ BUF) : found t (run ++ w) dangling rest = none := by
  have hlong : ¬ (t ++ (run ++ w)).length ≤ BUF := by
    rw [List.length_append, List.length_append]
    rw [List.length_append] at h
    omega
  unfold found endWord
  rw [if_neg hlong, if_neg (fun hlt => hlong (Nat.le_of_lt hlt))]
  split_ifs <;> rfl

theorem found_append : found (t ++ run) w dangling rest = found t (run ++ w) dangling rest := by
  rw [found, found, List.append_assoc]

theorem word_plain (turns : ℕ) {tail : Str} (hrun : Plain run) (htail : Stops tail)
    (ht : t.length ≤ BUF) : word (turns + 1) (run ++ tail) t =
      if (t ++ run).length ≤ BUF then
        (if again run tail then word turns tail (t ++ run) else endWord tail (t ++ run))
      else none := by
  obtain ⟨c, s, rfl⟩ := List.exists_cons_of_ne_nil hrun.1
  obtain ⟨hspace, hquote⟩ := hrun.2 c List.mem_cons_self
  have hdrop : (c :: s ++ tail).dropWhile isspace = c :: (s ++ tail) := by
    rw [List.cons_append, List.dropWhile_cons, hspace]
    rfl
  have hcopy := copyPlain_eq htail (c :: s) 0 t hrun ht
  rw [List.cons_append] at hcopy
  conv_lhs => unfold word
  simp only [hdrop, hquote, Bool.false_eq_true, if_false]
  rw [hcopy]
  by_cases hlen : (t ++ c :: s).length ≤ BUF
  · rw [if_pos hlen, if_pos hlen]
    rfl
  · rw [if_neg hlen, if_neg hlen]
    rfl

theorem word_quoted (turns : ℕ) (tail : Str) (hq : isquote q) (hbody : q ∉ body)
    (htail : tail = [] ∨ ∃ rest, tail = q :: rest) (ht : t.length ≤ BUF) :
    word turns (q :: body ++ tail) t = found t body false tail.tail := by
  have hdrop : (q :: body ++ tail).dropWhile isspace = q :: (body ++ tail) := by
    rw [List.cons_append, List.dropWhile_cons, isspace_not_isquote hq]
    rfl
  have hcopy := copyQuoted_eq tail hbody htail t ht
  unfold word
  simp only [hdrop, hq, if_true]
  rw [hcopy, found]
  by_cases hlen : (t ++ body).length ≤ BUF
  · rw [if_pos hlen]
    rfl
  · rw [if_neg hlen, endWord, if_neg (fun hlt => hlen (Nat.le_of_lt hlt))]
    rfl

theorem word_blanks (turns : ℕ) (t : Str) {blanks : Str} (hblanks : ∀ c ∈ blanks, isspace c)
    (s : Str) :
    word turns (blanks ++ s) t = word turns s t := by
  have hdrop : (blanks ++ s).dropWhile isspace = s.dropWhile isspace := by
    rw [List.dropWhile_append_of_pos hblanks]
  unfold word
  rw [hdrop]

theorem again_redirects {run blanks : Str} (s : Str) (hr : Redirects run) (hne : blanks ≠ [])
    : again run (blanks ++ s) = true := by
  obtain ⟨c, b, rfl⟩ := List.exists_cons_of_ne_nil hne
  rw [again]
  rcases hr with h | h <;> simp [h]

theorem again_stop (hr : ¬ Redirects run) (hc : isspace c = true) :
    again run (c :: rest) = false := by
  have hq : isquote c = false := by
    by_contra hno
    rw [Bool.not_eq_false] at hno
    rw [isspace_not_isquote hno] at hc
    exact Bool.false_ne_true hc
  obtain ⟨hgt, hlt⟩ := not_or.mp hr
  rw [again]
  simp [hq, hgt, hlt]

theorem word_eq (h : Word s w dangling rest) : ∀ (turns : ℕ) (t : Str), s.length ≤ turns →
    t.length ≤ BUF → word turns s t = found t w dangling rest := by
  -- along the grammar: each rule is what one turn of the loop does, and `t` is what the buffer has
  induction h with
  | @quoted q body rest hq hbody =>
    intro turns t _ ht
    exact word_quoted turns (q :: rest) hq hbody (Or.inr ⟨rest, rfl⟩) ht
  | @unbalanced q body hq hbody =>
    intro turns t _ ht
    have h := word_quoted turns [] hq hbody (Or.inl rfl) ht
    rwa [List.append_nil] at h
  | @last run hrun =>
    intro turns t hturns ht
    obtain ⟨turns, rfl⟩ := Nat.exists_eq_succ_of_ne_zero
      (fun h0 => hrun.1 (List.length_eq_zero_iff.mp (by omega)) : turns ≠ 0)
    have h := word_plain turns hrun (Or.inl rfl) ht
    rw [List.append_nil] at h
    rw [h]
    by_cases hlen : (t ++ run).length ≤ BUF
    · rw [if_pos hlen]
      rfl
    · rw [if_neg hlen, found, endWord, if_neg (fun hlt => hlen (Nat.le_of_lt hlt))]
      rfl
  | @plain run rest c hrun hr hc =>
    intro turns t hturns ht
    rw [List.length_append, List.length_cons] at hturns
    obtain ⟨turns, rfl⟩ := Nat.exists_eq_succ_of_ne_zero (by omega : turns ≠ 0)
    rw [word_plain turns hrun (Or.inr ⟨c, rest, rfl, Or.inl hc⟩) ht, again_stop hr hc]
    by_cases hlen : (t ++ run).length ≤ BUF
    · rw [if_pos hlen]
      rfl
    · rw [if_neg hlen, found, endWord, if_neg (fun hlt => hlen (Nat.le_of_lt hlt))]
      rfl
  | @joined run s w rest q dangling hrun hq _ ih =>
    intro turns t hturns ht
    rw [List.length_append, List.length_cons] at hturns
    obtain ⟨turns, rfl⟩ := Nat.exists_eq_succ_of_ne_zero (by omega : turns ≠ 0)
    have hpos := List.length_pos_iff.mpr hrun.1
    have hagain : again run (q :: s) = true := by
      rw [again]
      simp [hq]
    rw [word_plain turns hrun (Or.inr ⟨q, s, rfl, Or.inr hq⟩) ht, hagain, if_pos rfl]
    by_cases hlen : (t ++ run).length ≤ BUF
    · rw [if_pos hlen, ih turns _ (by rw [List.length_cons]; omega) hlen, found_append]
    · rw [if_neg hlen, found_long hlen]
  | @redirected run blanks s w rest c dangling hrun hr hne hblanks hc _ ih =>
    intro turns t hturns ht
    have hturns' : run.length + blanks.length + (c :: s).length ≤ turns := by
      rw [List.length_append, List.length_append] at hturns
      exact hturns
    have hpos := List.length_pos_iff.mpr hrun.1
    obtain ⟨turns, rfl⟩ := Nat.exists_eq_succ_of_ne_zero (by omega : turns ≠ 0)
    obtain ⟨b, bs, hb⟩ := List.exists_cons_of_ne_nil hne
    have htail : Stops (blanks ++ c :: s) := by
      refine Or.inr ⟨b, bs ++ c :: s, by rw [hb, List.cons_append], Or.inl (hblanks b ?_)⟩
      rw [hb]
      exact List.mem_cons_self
    rw [List.append_assoc, word_plain turns hrun htail ht, again_redirects _ hr hne, if_pos rfl]
    by_cases hlen : (t ++ run).length ≤ BUF
    · rw [if_pos hlen, word_blanks _ _ hblanks, ih turns _ (by omega) hlen, found_append]
    · rw [if_neg hlen, found_long hlen]
  | @dangling run blanks hrun hr hne hblanks =>
    intro turns t hturns ht
    have hpos := List.length_pos_iff.mpr hrun.1
    rw [List.length_append] at hturns
    obtain ⟨turns, rfl⟩ := Nat.exists_eq_succ_of_ne_zero (by omega : turns ≠ 0)
    obtain ⟨b, bs, hb⟩ := List.exists_cons_of_ne_nil hne
    have htail : Stops blanks := by
      refine Or.inr ⟨b, bs, hb, Or.inl (hblanks b ?_)⟩
      rw [hb]
      exact List.mem_cons_self
    have hagain := again_redirects [] hr hne
    rw [List.append_nil] at hagain
    rw [word_plain turns hrun htail ht, hagain, if_pos rfl]
    have hend : word turns blanks (t ++ run) = some none := by
      have h := word_blanks turns (t ++ run) hblanks []
      rw [List.append_nil] at h
      rw [h]
      unfold word
      rfl
    rw [hend]
    rfl

theorem Word.length_rest (h : Word s w dangling rest) : rest.length < s.length := by
  induction h with
  | quoted hq hbody =>
    simp only [List.length_append, List.length_cons]
    omega
  | unbalanced => exact Nat.succ_pos _
  | last hrun => exact List.length_pos_iff.mpr hrun.1
  | plain hrun =>
    have := List.length_pos_iff.mpr hrun.1
    rw [List.length_append]
    omega
  | joined hrun hq _ ih =>
    rw [List.length_append]
    omega
  | redirected hrun hr hne hblanks hc _ ih =>
    rw [List.length_append]
    omega
  | dangling hrun =>
    have := List.length_pos_iff.mpr hrun.1
    rw [List.length_append, List.length_nil]
    omega

/-- An open word is the last one, and not empty; nothing else is in front of the end. -/
def Shape : List Piece → Prop
  | [] => True
  | p :: ws => (p.dangling = true → p.text ≠ [] ∧ ws = []) ∧ (p.glued = true → ws ≠ []) ∧ Shape ws

theorem Word.dangling_end (h : Word s w dangling rest) (hd : dangling = true) :
    w ≠ [] ∧ rest = [] := by
  induction h with
  | quoted => cases hd
  | unbalanced => cases hd
  | last => cases hd
  | plain => cases hd
  | joined hrun _ _ ih => exact ⟨List.append_ne_nil_of_left_ne_nil hrun.1 _, (ih hd).2⟩
  | redirected hrun _ _ _ _ _ ih => exact ⟨List.append_ne_nil_of_left_ne_nil hrun.1 _, (ih hd).2⟩
  | dangling hrun => exact ⟨hrun.1, rfl⟩

theorem Words.shape (h : Words s ws) : Shape ws := by
  induction h with
  | nil => trivial
  | @cons blanks s w rest c dangling ws _ _ hword hrest ih =>
    refine ⟨fun hd => ?_, fun hglued => ?_, ih⟩
    · obtain ⟨hne, rfl⟩ := hword.dangling_end hd
      refine ⟨hne, ?_⟩
      generalize hnil : ([] : Str) = last at hrest
      cases hrest with
      | nil => rfl
      | cons => exact absurd hnil.symm (List.append_ne_nil_of_right_ne_nil _ (List.cons_ne_nil _ _))
    · rintro rfl
      cases hrest with
      | nil hblanks =>
        cases rest with
        | nil => exact absurd (show (false : Bool) = true from hglued) Bool.false_ne_true
        | cons d rest =>
          have hd : (!isspace d) = true := hglued
          rw [hblanks d List.mem_cons_self] at hd
          exact absurd hd (by decide)

/-- The words that `_parseargs` keeps: one that is open at the end is lost. -/
def kept : List Piece → Option (List Str)
  | [] => some []
  | p :: ws =>
    if p.dangling then (if p.text.length ≤ BUF then some [] else none)
    else if p.text.length < BUF then (kept ws).map (p.text :: ·)
    else none

/-- All allocations from `calls` on that the words need are granted. -/
def Granted (malloc : ℕ → Bool) (calls : ℕ) (ws : List Str) : Prop :=
  ∀ i < ws.length, malloc (calls + i) = true

/-- `_parseargs` walks over the words in order, and stores through `ARG_ERR` if there is no memory
for one of them. -/
theorem words_eq {malloc : ℕ → Bool} (h : Words s ws) : ∀ (turns calls : ℕ) (cur : Bool)
    (al : List Str), s.length ≤ turns → (words malloc turns calls cur s = some al ↔
      kept ws = some al ∧ cur = true ∧ Granted malloc calls al) := by
  induction h with
  | @nil blanks hblanks =>
    intro turns calls cur al _
    have hend : word blanks.length blanks [] = some none := by
      have h := word_blanks blanks.length [] hblanks []
      rw [List.append_nil] at h
      rw [h]
      unfold word
      rfl
    unfold words
    rw [hend, kept]
    simp only [Option.bind_eq_bind, Option.bind_some]
    cases cur with
    | false => simp only [Bool.false_eq_true, if_false, reduceCtorEq, false_and, and_false]
    | true =>
      rw [if_pos rfl]
      refine ⟨fun hal => ⟨hal, rfl, fun i hi => ?_⟩, fun hal => hal.1⟩
      rw [← Option.some.inj hal] at hi
      exact absurd hi (Nat.not_lt_zero i)
  | @cons blanks s w rest c dangling ws hblanks hc hword hrest ih =>
    intro turns calls cur al hturns
    have hless := hword.length_rest
    rw [List.length_append] at hturns
    obtain ⟨turns, rfl⟩ := Nat.exists_eq_succ_of_ne_zero (by omega : turns ≠ 0)
    have hfound : word (blanks ++ c :: s).length (blanks ++ c :: s) [] =
        found [] w dangling rest := by
      rw [word_blanks _ _ hblanks]
      refine word_eq hword _ [] ?_ (Nat.zero_le _)
      rw [List.length_append]
      exact Nat.le_add_left _ _
    rw [words, hfound, found, kept, List.nil_append]
    cases dangling with
    | true =>
      -- the loop is left without the word
      simp only [if_true]
      by_cases hlen : w.length ≤ BUF
      · simp only [if_pos hlen, Option.bind_eq_bind, Option.bind_some]
        cases cur with
        | false => simp only [Bool.false_eq_true, if_false, reduceCtorEq, false_and, and_false]
        | true =>
          rw [if_pos rfl]
          refine ⟨fun hal => ⟨hal, rfl, fun i hi => ?_⟩, fun hal => hal.1⟩
          rw [← Option.some.inj hal] at hi
          exact absurd hi (Nat.not_lt_zero i)
      · simp only [if_neg hlen, Option.bind_eq_bind, Option.bind_none, reduceCtorEq, false_and]
    | false =>
      simp only [Bool.false_eq_true, if_false, endWord]
      by_cases hlen : w.length < BUF
      · simp only [if_pos hlen, Option.bind_eq_bind, Option.bind_some]
        cases cur with
        | false => simp only [Bool.false_eq_true, if_false, reduceCtorEq, false_and, and_false]
        | true =>
          simp only [if_true, Option.bind_eq_some_iff, Option.map_eq_some_iff, Option.some.injEq,
            true_and]
          constructor
          · rintro ⟨al', hal, rfl⟩
            obtain ⟨hkept, hcur, hgranted⟩ :=
              (ih turns (calls + 1) (malloc calls) al' (by omega)).mp hal
            refine ⟨⟨al', hkept, rfl⟩, fun i hi => ?_⟩
            cases i with
            | zero => exact hcur
            | succ i =>
              have h := hgranted i (Nat.lt_of_succ_lt_succ hi)
              rwa [Nat.add_assoc, Nat.add_comm 1 i] at h
          · rintro ⟨⟨al', hkept, rfl⟩, hgranted⟩
            refine ⟨al', (ih turns (calls + 1) (malloc calls) al' (by omega)).mpr
              ⟨hkept, hgranted 0 (Nat.succ_pos _), fun i hi => ?_⟩, rfl⟩
            rw [Nat.add_assoc, Nat.add_comm 1 i]
            exact hgranted (i + 1) (Nat.succ_lt_succ hi)
      · simp only [if_neg hlen, Option.bind_eq_bind, Option.bind_none, reduceCtorEq, false_and]

def Closed (ws : List Piece) : Prop := ∀ p ∈ ws, p.text.length < BUF ∧ p.dangling = false

theorem kept_iff : kept ws = some (ended ws) ↔ Closed ws := by
  induction ws with
  | nil => exact iff_of_true rfl (List.forall_mem_nil _)
  | cons p ws ih =>
    rw [Closed, List.forall_mem_cons, ← Closed, ← ih, kept, ended, List.map_cons]
    cases hd : p.dangling with
    | true =>
      simp only [if_true]
      refine iff_of_false (fun h => ?_) (fun h => absurd h.1.2 (by decide))
      split_ifs at h
      exact List.cons_ne_nil _ _ (Option.some.inj h).symm
    | false =>
      simp only [Bool.false_eq_true, if_false]
      by_cases hlen : p.text.length < BUF
      · rw [if_pos hlen, Option.map_eq_some_iff]
        constructor
        · rintro ⟨al, hal, heq⟩
          rw [hal, (List.cons.inj heq).2]
          exact ⟨⟨hlen, trivial⟩, rfl⟩
        · rintro ⟨-, hal⟩
          exact ⟨_, hal, rfl⟩
      · rw [if_neg hlen]
        exact iff_of_false (fun h => by cases h) (fun h => hlen h.1.1)

theorem merged_glued {p : Piece} (hg : p.glued = true) (hne : merged ws ≠ []) :
    ∃ w al, merged ws = w :: al ∧ merged (p :: ws) = (p.text ++ w) :: al := by
  obtain ⟨w, al, hal⟩ := List.exists_cons_of_ne_nil hne
  refine ⟨w, al, hal, ?_⟩
  rw [merged, hg, hal]

theorem merged_apart {p : Piece} (hg : p.glued = false) : merged (p :: ws) = p.text :: merged ws := by
  rw [merged, hg]

theorem merged_ne_nil (hne : ws ≠ []) : merged ws ≠ [] := by
  obtain ⟨p, ws, rfl⟩ := List.exists_cons_of_ne_nil hne
  rw [merged]
  split <;> exact List.cons_ne_nil _ _

theorem kept_ne_merged (hshape : Shape ws) {al : List Str} (hkept : kept ws = some al) (n : ℕ) :
    merged ws ≠ List.replicate (n + 1) [] ++ al := by
  induction ws generalizing n al with
  | nil => exact fun h => List.cons_ne_nil _ _ h.symm
  | cons p ws ih =>
    obtain ⟨hdangling, hglued, hrest⟩ := hshape
    rw [kept] at hkept
    intro hmerged
    rw [List.replicate_succ, List.cons_append] at hmerged
    cases hd : p.dangling with
    | true =>
      obtain ⟨hne, rfl⟩ := hdangling hd
      have hg : p.glued = false := Bool.eq_false_iff.mpr fun hg => hglued hg rfl
      rw [merged_apart hg] at hmerged
      exact hne (List.cons.inj hmerged).1
    | false =>
      rw [hd, if_neg Bool.false_ne_true] at hkept
      by_cases hlen : p.text.length < BUF
      swap
      · rw [if_neg hlen] at hkept
        cases hkept
      rw [if_pos hlen, Option.map_eq_some_iff] at hkept
      obtain ⟨al', hal', rfl⟩ := hkept
      have hshift : ∀ m : ℕ, List.replicate m ([] : Str) ++ [] :: al' =
          List.replicate (m + 1) [] ++ al' := by
        intro m
        rw [List.replicate_succ', List.append_assoc, List.singleton_append]
      cases hg : p.glued with
      | false =>
        rw [merged_apart hg] at hmerged
        obtain ⟨htext, hmore⟩ := List.cons.inj hmerged
        rw [htext, hshift] at hmore
        exact ih hrest hal' n hmore
      | true =>
        obtain ⟨w, more, hws, hall⟩ := merged_glued hg (merged_ne_nil (hglued hg))
        rw [hall] at hmerged
        obtain ⟨hfirst, hmore⟩ := List.cons.inj hmerged
        obtain ⟨htext, hw⟩ := List.append_eq_nil_iff.mp hfirst
        rw [htext, hshift] at hmore
        refine ih hrest hal' (n + 1) ?_
        rw [hws, hw, hmore, List.replicate_succ (n := n + 1), List.cons_append]

def Apart (ws : List Piece) : Prop := ∀ p ∈ ws, p.glued = false

theorem kept_merged_iff (hshape : Shape ws) :
    kept ws = some (merged ws) ↔ Closed ws ∧ Apart ws := by
  induction ws with
  | nil => exact iff_of_true rfl ⟨List.forall_mem_nil _, List.forall_mem_nil _⟩
  | cons p ws ih =>
    obtain ⟨hdangling, hglued, hrest⟩ := hshape
    rw [Closed, Apart, List.forall_mem_cons, List.forall_mem_cons, ← Closed, ← Apart]
    cases hg : p.glued with
    | true =>
      refine iff_of_false (fun hkept => ?_) (fun h => absurd h.2.1 (by decide))
      obtain ⟨w, al, hws, hall⟩ := merged_glued hg (merged_ne_nil (hglued hg))
      rw [hall, kept] at hkept
      split_ifs at hkept with hd hroom hlen
      · cases hkept
      · rw [Option.map_eq_some_iff] at hkept
        obtain ⟨al', hal', heq⟩ := hkept
        obtain ⟨hfirst, rfl⟩ := List.cons.inj heq
        have hw : w = [] := List.append_cancel_left (hfirst.symm.trans (List.append_nil _).symm)
        refine kept_ne_merged hrest hal' 0 ?_
        rw [hws, hw]
        rfl
    | false =>
      rw [merged_apart hg, kept]
      cases hd : p.dangling with
      | true =>
        refine iff_of_false (fun hkept => ?_) (fun h => absurd h.1.1.2 (by decide))
        rw [if_pos rfl] at hkept
        split_ifs at hkept
        cases hkept
      | false =>
        rw [if_neg Bool.false_ne_true]
        by_cases hlen : p.text.length < BUF
        · rw [if_pos hlen, Option.map_eq_some_iff]
          have hih := ih hrest
          constructor
          · rintro ⟨al, hal, heq⟩
            obtain ⟨hclosed, hapart⟩ := hih.mp ((List.cons.inj heq).2 ▸ hal)
            exact ⟨⟨⟨hlen, rfl⟩, hclosed⟩, rfl, hapart⟩
          · rintro ⟨⟨-, hclosed⟩, -, hapart⟩
            exact ⟨_, hih.mpr ⟨hclosed, hapart⟩, rfl⟩
        · rw [if_neg hlen]
          exact iff_of_false (fun h => by cases h) (fun h => hlen h.1.1.1)

theorem split_blanks (s : Str) : ∃ blanks tail, s = blanks ++ tail ∧
    (∀ c ∈ blanks, isspace c = true) ∧ (tail = [] ∨ ∃ c rest, tail = c :: rest ∧ isspace c = false) := by
  refine ⟨s.takeWhile isspace, s.dropWhile isspace, List.takeWhile_append_dropWhile.symm,
    fun c hc => List.mem_takeWhile_imp hc, ?_⟩
  cases htail : s.dropWhile isspace with
  | nil => exact Or.inl rfl
  | cons c rest =>
    have hhead := List.head_dropWhile_not isspace (by rw [htail]; exact List.cons_ne_nil _ _)
    refine Or.inr ⟨c, rest, rfl, ?_⟩
    simpa only [htail, List.head_cons] using hhead

theorem split_plain {c : UInt8} (s : Str) (hc : isspace c = false) (hq : isquote c = false) :
    ∃ run tail, c :: s = run ++ tail ∧ Plain run ∧ Stops tail := by
  induction s generalizing c with
  | nil =>
    exact ⟨[c], [], rfl, ⟨List.cons_ne_nil _ _, List.forall_mem_singleton.mpr ⟨hc, hq⟩⟩, Or.inl rfl⟩
  | cons d s ih =>
    by_cases hstop : isspace d = true ∨ isquote d = true
    · exact ⟨[c], d :: s, rfl, ⟨List.cons_ne_nil _ _, List.forall_mem_singleton.mpr ⟨hc, hq⟩⟩,
        Or.inr ⟨d, s, rfl, hstop⟩⟩
    · rw [not_or, Bool.not_eq_true, Bool.not_eq_true] at hstop
      obtain ⟨run, tail, heq, hrun, htail⟩ := ih hstop.1 hstop.2
      refine ⟨c :: run, tail, by rw [heq, List.cons_append], ⟨List.cons_ne_nil _ _, ?_⟩, htail⟩
      exact List.forall_mem_cons.mpr ⟨⟨hc, hq⟩, hrun.2⟩

theorem word_exists (n : ℕ) : ∀ (c : UInt8) (s : Str), s.length < n → isspace c = false →
    ∃ w dangling rest, Word (c :: s) w dangling rest := by
  induction n with
  | zero => exact fun c s hs => absurd hs (Nat.not_lt_zero _)
  | succ n ih =>
    intro c s hs hc
    by_cases hq : isquote c = true
    · by_cases hin : c ∈ s
      · obtain ⟨body, rest, rfl, hbody⟩ := List.eq_append_cons_of_mem hin
        exact ⟨_, _, _, .quoted hq hbody⟩
      · exact ⟨_, _, _, .unbalanced hq hin⟩
    · rw [Bool.not_eq_true] at hq
      obtain ⟨run, tail, heq, hrun, htail⟩ := split_plain s hc hq
      have hpos := List.length_pos_iff.mpr hrun.1
      have hlen : s.length + 1 = run.length + tail.length := by
        rw [← List.length_cons (a := c), heq, List.length_append]
      rw [heq]
      rcases htail with rfl | ⟨d, rest, rfl, hd⟩
      · rw [List.append_nil]
        exact ⟨_, _, _, .last hrun⟩
      rw [List.length_cons] at hlen
      by_cases hdq : isquote d = true
      · obtain ⟨w, dangling, rest', hword⟩ := ih d rest (by omega) (isspace_not_isquote hdq)
        exact ⟨_, _, _, .joined hrun hdq hword⟩
      have hblank := hd.resolve_right hdq
      by_cases hr : Redirects run
      · obtain ⟨blanks, tail, hsplit, hblanks, htail⟩ := split_blanks (d :: rest)
        have hne : blanks ≠ [] := by
          rintro rfl
          rw [List.nil_append] at hsplit
          rcases htail with rfl | ⟨e, s', rfl, he⟩
          · exact List.cons_ne_nil _ _ hsplit
          · rw [← (List.cons.inj hsplit).1, hblank] at he
            exact absurd he (by decide)
        have hlen' := congrArg List.length hsplit
        rw [List.length_cons, List.length_append] at hlen'
        rw [hsplit]
        rcases htail with rfl | ⟨e, s', rfl, he⟩
        · rw [List.append_nil]
          exact ⟨_, _, _, .dangling hrun hr hne hblanks⟩
        · rw [List.length_cons] at hlen'
          obtain ⟨w, dangling, rest', hword⟩ := ih e s' (by omega) he
          rw [← List.append_assoc]
          exact ⟨_, _, _, .redirected hrun hr hne hblanks he hword⟩
      · exact ⟨_, _, _, .plain hrun hr hblank⟩

theorem words_exist (n : ℕ) : ∀ s : Str, s.length < n → ∃ ws, Words s ws := by
  induction n with
  | zero => exact fun s hs => absurd hs (Nat.not_lt_zero _)
  | succ n ih =>
    intro s hs
    obtain ⟨blanks, tail, rfl, hblanks, htail⟩ := split_blanks s
    rcases htail with rfl | ⟨c, rest, rfl, hc⟩
    · rw [List.append_nil]
      exact ⟨[], .nil hblanks⟩
    · obtain ⟨w, dangling, rest', hword⟩ := word_exists _ c rest (Nat.lt_succ_self _) hc
      have hless := hword.length_rest
      rw [List.length_append] at hs
      obtain ⟨ws, hws⟩ := ih rest' (by omega)
      exact ⟨_, .cons hblanks hc hword hws⟩

/-- `system_hack` takes the word for a redirection. -/
def IsRedirection (w : Str) : Prop := w.head? = some GT ∨ w.head? = some LT

instance (w : Str) : Decidable (IsRedirection w) := inferInstanceAs (Decidable (_ ∨ _))

def plainWords (al : List Str) : List Str := al.filter fun w => ¬ IsRedirection w

theorem pushArg_eq {argc : ℕ} {a : Args} {p : Option Str} (h : a.argv.length < argc) :
    pushArg argc a p = some { a with argv := a.argv ++ [p] } := if_pos h

theorem sortArgs_ok (argc : ℕ) (al : List Str) : ∀ a : Args, a.argv.length ≤ argc →
    ((∃ a', sortArgs argc al a = some a' ∧
        a'.argv = a.argv ++ (plainWords al).map some ++ [none]) ↔
      a.argv.length + (plainWords al).length < argc) := by
  induction al with
  | nil =>
    intro a ha
    show _ ↔ a.argv.length + 0 < argc
    rw [sortArgs, Nat.add_zero]
    by_cases hroom : a.argv.length < argc
    · rw [pushArg_eq hroom]
      refine iff_of_true ⟨_, rfl, ?_⟩ hroom
      show a.argv ++ [none] = a.argv ++ [] ++ [none]
      rw [List.append_nil]
    · rw [pushArg, if_neg hroom]
      exact iff_of_false (fun ⟨_, h, _⟩ => by cases h) hroom
  | cons p al ih =>
    intro a ha
    -- a word is stored if there is room for one more, and a redirection is not stored
    have hpush : ∀ p : Str, ¬ IsRedirection p →
        ((∃ a', (pushArg argc a (some p) >>= sortArgs argc al) = some a' ∧
          a'.argv = a.argv ++ (plainWords (p :: al)).map some ++ [none]) ↔
        a.argv.length + (plainWords (p :: al)).length < argc) := by
      intro p hp
      have hfilter : plainWords (p :: al) = p :: plainWords al :=
        List.filter_cons_of_pos (by simpa using hp)
      rw [hfilter, List.length_cons, List.map_cons]
      by_cases hroom : a.argv.length < argc
      · have hlen : (a.argv ++ [some p]).length = a.argv.length + 1 := List.length_append
        have hrest := ih { a with argv := a.argv ++ [some p] } (by rw [hlen]; exact hroom)
        simp only [hlen, List.append_assoc, List.singleton_append, Nat.add_assoc] at hrest
        rw [pushArg_eq hroom, Option.bind_eq_bind, Option.bind_some, Nat.add_comm _ 1,
          List.append_assoc]
        exact hrest
      · rw [pushArg, if_neg hroom]
        exact iff_of_false (fun ⟨_, h, _⟩ => by cases h) (by omega)
    have hskip : ∀ (p : Str) (b : Args), IsRedirection p → b.argv = a.argv →
        ((∃ a', sortArgs argc al b = some a' ∧
          a'.argv = a.argv ++ (plainWords (p :: al)).map some ++ [none]) ↔
        a.argv.length + (plainWords (p :: al)).length < argc) := by
      intro p b hp hb
      have hfilter : plainWords (p :: al) = plainWords al :=
        List.filter_cons_of_neg (by simpa using hp)
      rw [hfilter, ← hb]
      exact ih b (by rw [hb]; exact ha)
    cases p with
    | nil =>
      refine hpush [] ?_
      rintro (h | h) <;> cases h
    | cons c p =>
      by_cases hgt : c = GT
      · subst hgt
        rw [sortArgs, if_pos rfl]
        refine hskip (GT :: p) _ (Or.inl rfl) ?_
        cases p with
        | nil => rfl
        | cons d p =>
          rw [outputTo]
          split_ifs <;> rfl
      by_cases hlt : c = LT
      · subst hlt
        rw [sortArgs, if_neg hgt, if_pos rfl]
        exact hskip (LT :: p) _ (Or.inr rfl) rfl
      · rw [sortArgs, if_neg hgt, if_neg hlt]
        refine hpush (c :: p) ?_
        rintro (h | h)
        · exact hgt (Option.some.inj h)
        · exact hlt (Option.some.inj h)

/-- The vector of a command has room for its terminator if one of the words is no argument. -/
theorem arguments_iff (al : List Str) :
    (∃ a, arguments al = some a ∧ a.argv = (plainWords al).map some ++ [none]) ↔
      ∃ w ∈ al, IsRedirection w := by
  have h := sortArgs_ok al.length al ⟨[], [], [], false⟩ (Nat.zero_le _)
  simp only [List.nil_append, List.length_nil, Nat.zero_add] at h
  rw [arguments, h, plainWords, List.length_filter_lt_length_iff_exists]
  simp only [decide_not, Bool.not_eq_true, Bool.not_eq_false', decide_eq_true_eq]

/-- The command is split into its words, inside of the buffers; if there is no memory for the
vector the call ends there. -/
def SplitInside (tokens : List Piece → List Str) (malloc : ℕ → Bool) (s : Str) : Prop :=
  ∃ ws, Words s ws ∧ parseargs malloc s = some (tokens ws) ∧
    (split malloc s = some none ∨ ∃ a, split malloc s = some (some a) ∧
      a.argv = (plainWords (tokens ws)).map some ++ [none])

/-- The condition: there is memory for the list of words, no word is longer than 1023 characters or
open at the end, and one of them is a redirection or there is no memory for the vector. -/
def Splits (malloc : ℕ → Bool) (ws : List Piece) : Prop :=
  malloc 0 = true ∧ Granted malloc 1 (ended ws) ∧ Closed ws ∧
    (malloc (ws.length + 1) = false ∨ ∃ w ∈ ended ws, IsRedirection w)

theorem split_eq {malloc : ℕ → Bool} {al : List Str} (h : parseargs malloc s = some al) :
    (split malloc s = some none ∨ ∃ a, split malloc s = some (some a) ∧
        a.argv = (plainWords al).map some ++ [none]) ↔
      malloc (al.length + 1) = false ∨ ∃ w ∈ al, IsRedirection w := by
  rw [split, h]
  simp only [Option.bind_eq_bind, Option.bind_some]
  cases hmalloc : malloc (al.length + 1) with
  | false => exact iff_of_true (Or.inl rfl) (Or.inl rfl)
  | true =>
    have hno : ¬ (arguments al).map some = some none := by
      intro hmap
      obtain ⟨a, -, ha⟩ := Option.map_eq_some_iff.mp hmap
      cases ha
    rw [if_pos rfl, or_iff_right hno, or_iff_right Bool.noConfusion, ← arguments_iff]
    simp only [Option.map_eq_some_iff, Option.some.injEq, exists_eq_right]

theorem merged_of_apart (h : Apart ws) : merged ws = ended ws := by
  induction ws with
  | nil => rfl
  | cons p ws ih =>
    obtain ⟨hg, hrest⟩ := List.forall_mem_cons.mp h
    rw [merged_apart hg, ih hrest]
    rfl

/-- Every command has words. Where a closing quote ends a word the split is right under the
condition only; where it does not, no closing quote may have a character other than a blank behind
it either. -/
theorem split_iff (malloc : ℕ → Bool) (s : Str) :
    (∃ ws, Words s ws) ∧
    (SplitInside ended malloc s ↔ ∃ ws, Words s ws ∧ Splits malloc ws) ∧
    (SplitInside merged malloc s ↔ ∃ ws, Words s ws ∧ Splits malloc ws ∧ Apart ws) := by
  have hparse : ∀ {ws : List Piece} (al : List Str), Words s ws → (parseargs malloc s = some al ↔
      kept ws = some al ∧ malloc 0 = true ∧ Granted malloc 1 al) :=
    fun al hws => words_eq hws s.length 1 (malloc 0) al le_rfl
  refine ⟨words_exist _ s (Nat.lt_succ_self _), ?_, ?_⟩
  · refine exists_congr fun ws => and_congr_right fun hws => ?_
    have hlen : (ended ws).length = ws.length := List.length_map _
    constructor
    · rintro ⟨hok, hrest⟩
      obtain ⟨hkept, hhead, hgranted⟩ := (hparse _ hws).mp hok
      have hvector := (split_eq hok).mp hrest
      rw [hlen] at hvector
      exact ⟨hhead, hgranted, kept_iff.mp hkept, hvector⟩
    · rintro ⟨hhead, hgranted, hclosed, hvector⟩
      have hok := (hparse _ hws).mpr ⟨kept_iff.mpr hclosed, hhead, hgranted⟩
      exact ⟨hok, (split_eq hok).mpr (hlen.symm ▸ hvector)⟩
  · refine exists_congr fun ws => and_congr_right fun hws => ?_
    have hlen : (ended ws).length = ws.length := List.length_map _
    constructor
    · rintro ⟨hok, hrest⟩
      obtain ⟨hkept, hhead, hgranted⟩ := (hparse _ hws).mp hok
      obtain ⟨hclosed, hapart⟩ := (kept_merged_iff hws.shape).mp hkept
      rw [merged_of_apart hapart] at hok hrest hgranted
      have hvector := (split_eq hok).mp hrest
      rw [hlen] at hvector
      exact ⟨⟨hhead, hgranted, hclosed, hvector⟩, hapart⟩
    · rintro ⟨⟨hhead, hgranted, hclosed, hvector⟩, hapart⟩
      rw [merged_of_apart hapart]
      have hok := (hparse _ hws).mpr ⟨kept_iff.mpr hclosed, hhead, hgranted⟩
      exact ⟨hok, (split_eq hok).mpr (hlen.symm ▸ hvector)⟩

/-- `ls` is split into one word, and the vector has room for one pointer; without memory for the
word it is stored through `ARG_ERR`. -/
theorem no_room_for_null : ¬ SplitInside ended (fun _ => true) [108, 115] ∧
    ¬ SplitInside merged (fun _ => true) [108, 115] ∧
    parseargs (fun call => call ≠ 1) [108, 115] = none := by
  have hsplit : split (fun _ => true) [108, 115] = none := by decide +kernel
  have hnone : ∀ tokens, ¬ SplitInside tokens (fun _ => true) [108, 115] := by
    rintro tokens ⟨ws, -, -, h | ⟨a, h, -⟩⟩
    · rw [hsplit] at h
      cases h
    · rw [hsplit] at h
      cases h
  exact ⟨hnone _, hnone _, by decide +kernel⟩

end Split

end Mintlib.SystemHack
