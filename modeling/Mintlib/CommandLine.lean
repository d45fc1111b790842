import Mintlib.Lib.Text

/-!
# The command line of the base page: `parseargs` in `crtinit.c`

Without an `ARGV` variable the arguments are the blank-separated parts of `p_cmdlin`,
and on a line that begins with a quote the parts between quotes. `parseargs` writes them
behind the bss segment, in memory that it reserves by adding to `count` as it goes on:
first the array `environ`, then the characters, then the array `argv`.
-/

namespace Mintlib.CommandLine

open Mintlib.Text

/-- The macro of `crtinit.c`. -/
def isspace (c : UInt8) : Bool := c = BLANK ∨ c = TAB

/-- A new entry of `environ`: a string without `'='` continues an entry that ends with it. -/
def pushEnv (entries : List Str) (from_ : Str) : List Str :=
  match entries.getLast? with
  | none => entries ++ [from_]
  | some q =>
    if EQ ∉ from_ ∧ q.getLast? = some EQ then entries.dropLast ++ [q ++ from_]
    else entries ++ [from_]

/-- `(p_bbase + p_blen + 4) & ~3`. -/
def environAt (bss : ℕ) : ℕ := (bss + 4) / 4 * 4

/-- `envp` and `count` behind the `NULL` of `environ`. -/
def environment (bss : ℕ) (env : List Str) : ℕ × ℕ :=
  (environAt bss + 4 * ((env.foldl pushEnv []).length + 1), 4 + 4 * env.length + 4)

/-- `*to++ = c`, in the room between `from` and `argv`. -/
def put (room : ℕ) (out : Str) (c : UInt8) : Option Str :=
  if out.length < room then some (out ++ [c]) else none

/-- The loop over a line that does not begin with a quote; the list is what `i` counts. -/
def unquoted (room : ℕ) : Str → Str → Option Str
  | [], out => some out
  | c :: cmdln, out =>
    if isspace c then do
      let out ← put room out 0
      unquoted room (cmdln.dropWhile isspace) out
    else do
      let out ← put room out c
      if c = 0 then some out else unquoted room cmdln out
termination_by cmdln => cmdln.length
decreasing_by
  · exact Nat.lt_succ_of_le (List.length_dropWhile_le _ _)
  · exact Nat.lt_succ_self _

/-- The loop over a line that begins with a quote; `next` is the byte behind the line. -/
def quoted (room : ℕ) (next : UInt8) : Bool → Str → Str → Option Str
  | _, [], out => some out
  | in_quote, c :: cmdln, out =>
    if c = QUOTE then
      if in_quote then
        match cmdln with
        | [] => put room out (if next = QUOTE then QUOTE else 0)
        | d :: cmdln => do
          if d = QUOTE then
            let out ← put room out QUOTE
            quoted room next true cmdln out
          else
            let out ← put room out 0
            quoted room next false cmdln out
      else quoted room next true cmdln out
    else if c = BLANK then do
      let out ← put room out (if in_quote then BLANK else 0)
      quoted room next in_quote cmdln out
    else do
      let out ← put room out c
      quoted room next in_quote cmdln out

/-- `while (*from++);` over bytes that have been written. -/
def skipString : Str → Option Str
  | [] => none
  | c :: mem => if c = 0 then some mem else skipString mem

/-- `*arg++ = from` and `count += 4`, until `from` is at an empty string. A pointer is kept
as the bytes that it points to. -/
def collect (bss : ℕ) : ℕ → Str → ℕ → ℕ → List Str → Option (List Str × ℕ × ℕ)
  | 0, _, _, _, _ => none
  | _ + 1, [], _, _, _ => none
  | fuel + 1, c :: mem, arg, count, argv =>
    if c = 0 then some (argv, arg, count)
    else do
      let next ← skipString (c :: mem)
      if arg + 4 ≤ bss + (count + 4) then
        collect bss fuel next (arg + 4) (count + 4) (argv ++ [c :: mem])
      else none

/-- `i = *cmdln++`, a signed character. -/
def lineLength (p_cmdlin : ℕ → UInt8) : ℤ :=
  if (p_cmdlin 0).toNat < 128 then (p_cmdlin 0).toNat else (p_cmdlin 0).toNat - 256

/-- The `i` bytes of the command line. -/
def line (p_cmdlin : ℕ → UInt8) : Str :=
  (List.range (lineLength p_cmdlin).toNat).map fun k => p_cmdlin (k + 1)

def behind (p_cmdlin : ℕ → UInt8) : UInt8 := p_cmdlin ((lineLength p_cmdlin).toNat + 1)

/-- `(i & ~3)` bytes and two pointers for the characters. -/
def room (p_cmdlin : ℕ → UInt8) : ℕ := (line p_cmdlin).length / 4 * 4 + 8

/-- The loop for this command line, after the blanks that it begins with. -/
def scan (p_cmdlin : ℕ → UInt8) : Option Str :=
  let cmdln := (line p_cmdlin).dropWhile isspace
  if cmdln.head?.getD (behind p_cmdlin) ≠ QUOTE then unquoted (room p_cmdlin) cmdln []
  else quoted (room p_cmdlin) (behind p_cmdlin) false cmdln []

/-- `argv[1..]`, and the bytes that `parseargs` returns. -/
structure Parsed where
  argv : List Str
  count : ℕ

/-- `parseargs` without an `ARGV` variable; `none` stands for a store outside of the memory
that `count` reserves, or a read of what has not been written. -/
def parseargs (bss : ℕ) (env : List Str) (p_cmdlin : ℕ → UInt8) : Option Parsed := do
  let (from_, count) := environment bss env
  let room := room p_cmdlin
  let count := count + room
  if from_ + room ≤ bss + count then
    let arg := from_ + room
    -- `*arg++ = ""`
    let count := count + 4
    let arg := arg + 4
    let out ← scan p_cmdlin
    let out ← put room out 0
    let out ← put room out 0
    let (argv, arg, count) ← collect bss out.length out arg count []
    if arg + 4 ≤ bss + (count + 4) then some ⟨argv.map cstr, count + 4⟩ else none
  else none

section Stored

variable {roomy : ℕ} {next c : UInt8} {in_quote : Bool}
  {cmdln out mem l : Str} {argv : List Str}

/-- The bytes that `unquoted` stores. -/
def unquotedOut : Str → Str
  | [] => []
  | c :: cmdln =>
    if isspace c then 0 :: unquotedOut (cmdln.dropWhile isspace)
    else if c = 0 then [0] else c :: unquotedOut cmdln
termination_by cmdln => cmdln.length
decreasing_by
  · exact Nat.lt_succ_of_le (List.length_dropWhile_le _ _)
  · exact Nat.lt_succ_self _

/-- The bytes that `quoted` stores. -/
def quotedOut (next : UInt8) : Bool → Str → Str
  | _, [] => []
  | in_quote, c :: cmdln =>
    if c = QUOTE then
      if in_quote then
        match cmdln with
        | [] => [if next = QUOTE then QUOTE else 0]
        | d :: cmdln =>
          if d = QUOTE then QUOTE :: quotedOut next true cmdln
          else 0 :: quotedOut next false cmdln
      else quotedOut next true cmdln
    else if c = BLANK then (if in_quote then BLANK else 0) :: quotedOut next in_quote cmdln
    else c :: quotedOut next in_quote cmdln

theorem quotedOut_cons (next : UInt8) (in_quote : Bool) (c : UInt8) (cmdln : Str) :
    quotedOut next in_quote (c :: cmdln) =
      if c = QUOTE then
        if in_quote then
          match cmdln with
          | [] => [if next = QUOTE then QUOTE else 0]
          | d :: cmdln =>
            if d = QUOTE then QUOTE :: quotedOut next true cmdln
            else 0 :: quotedOut next false cmdln
        else quotedOut next true cmdln
      else if c = BLANK then (if in_quote then BLANK else 0) :: quotedOut next in_quote cmdln
      else c :: quotedOut next in_quote cmdln := by
  rw [quotedOut.eq_def]
  rfl

theorem put_eq (c : UInt8) (h : out.length < roomy) : put roomy out c = some (out ++ [c]) := by
  rw [put, if_pos h]

theorem unquoted_eq (cmdln : Str) : ∀ out : Str, out.length + cmdln.length ≤ roomy →
    unquoted roomy cmdln out = some (out ++ unquotedOut cmdln) ∧
      (unquotedOut cmdln).length ≤ cmdln.length := by
  induction hn : cmdln.length using Nat.strong_induction_on generalizing cmdln with
  | _ n ih =>
    intro out hroom
    subst hn
    cases cmdln with
    | nil => simp [unquoted, unquotedOut]
    | cons c cmdln =>
      rw [List.length_cons] at hroom
      have hlt : out.length < roomy := by omega
      unfold unquoted unquotedOut
      simp only [put_eq _ hlt, Option.bind_eq_bind, Option.bind_some]
      by_cases hc : isspace c
      · rw [if_pos hc, if_pos hc]
        have hdrop := List.length_dropWhile_le isspace cmdln
        obtain ⟨heq, hlen⟩ := ih _ (Nat.lt_succ_of_le hdrop) (cmdln.dropWhile isspace) rfl
          (out ++ [0]) (by rw [List.length_append, List.length_singleton]; omega)
        refine ⟨by rw [heq, List.append_assoc, List.singleton_append], ?_⟩
        rw [List.length_cons, List.length_cons]
        omega
      · rw [if_neg hc, if_neg hc]
        by_cases h0 : c = 0
        · rw [if_pos h0, if_pos h0, h0]
          exact ⟨rfl, by simp⟩
        · rw [if_neg h0, if_neg h0]
          obtain ⟨heq, hlen⟩ := ih _ (Nat.lt_succ_self _) cmdln rfl (out ++ [c])
            (by rw [List.length_append, List.length_singleton]; omega)
          refine ⟨by rw [heq, List.append_assoc, List.singleton_append], ?_⟩
          rw [List.length_cons, List.length_cons]
          omega

/-- The same for a quoted line, where a closing quote takes the byte behind it away. -/
theorem quoted_eq (cmdln : Str) : ∀ (in_quote : Bool) (out : Str),
    out.length + cmdln.length ≤ roomy →
    quoted roomy next in_quote cmdln out = some (out ++ quotedOut next in_quote cmdln) ∧
      (quotedOut next in_quote cmdln).length ≤ cmdln.length := by
  induction hn : cmdln.length using Nat.strong_induction_on generalizing cmdln with
  | _ n ih =>
    intro in_quote out hroom
    subst hn
    cases cmdln with
    | nil => simp [quoted, quotedOut]
    | cons c cmdln =>
      rw [List.length_cons] at hroom
      have hlt : out.length < roomy := by omega
      -- one byte is stored, and the loop goes on with the rest of the line
      have hstep : ∀ (q : Bool) (x : UInt8),
          quoted roomy next q cmdln (out ++ [x]) = some (out ++ x :: quotedOut next q cmdln) ∧
            (x :: quotedOut next q cmdln).length ≤ (c :: cmdln).length := by
        intro q x
        obtain ⟨heq, hlen⟩ := ih _ (Nat.lt_succ_self _) cmdln rfl q (out ++ [x])
          (by rw [List.length_append, List.length_singleton]; omega)
        refine ⟨by rw [heq, List.append_assoc, List.singleton_append], ?_⟩
        rw [List.length_cons, List.length_cons]
        omega
      unfold quoted quotedOut
      simp only [put_eq _ hlt, Option.bind_eq_bind, Option.bind_some]
      by_cases hc : c = QUOTE
      · rw [if_pos hc, if_pos hc]
        cases in_quote with
        | false =>
          obtain ⟨heq, hlen⟩ := ih _ (Nat.lt_succ_self _) cmdln rfl true out (by omega)
          simp only [Bool.false_eq_true, if_false]
          exact ⟨heq, hlen.trans (Nat.le_succ _)⟩
        | true =>
          cases cmdln with
          | nil => exact ⟨rfl, le_refl _⟩
          | cons d cmdln =>
            have hrest : ∀ (q : Bool) (x : UInt8),
                quoted roomy next q cmdln (out ++ [x]) =
                  some (out ++ x :: quotedOut next q cmdln) ∧
                  (x :: quotedOut next q cmdln).length ≤ (c :: d :: cmdln).length := by
              intro q x
              rw [List.length_cons] at hroom
              obtain ⟨heq, hlen⟩ := ih cmdln.length (by rw [List.length_cons, List.length_cons]; omega)
                cmdln rfl q (out ++ [x])
                (by rw [List.length_append, List.length_singleton]; omega)
              refine ⟨by rw [heq, List.append_assoc, List.singleton_append], ?_⟩
              rw [List.length_cons, List.length_cons, List.length_cons]
              omega
            simp only [if_true]
            by_cases hd : d = QUOTE
            · rw [if_pos hd, if_pos hd]
              exact hrest true QUOTE
            · rw [if_neg hd, if_neg hd]
              exact hrest false 0
      · rw [if_neg hc, if_neg hc]
        by_cases hb : c = BLANK
        · rw [if_pos hb, if_pos hb]
          exact hstep in_quote _
        · rw [if_neg hb, if_neg hb]
          exact hstep in_quote c

/-- What `collect` finds: the strings up to the first empty one. -/
def strings (mem : Str) : List Str := (mem.splitOnP (· = 0)).takeWhile (· ≠ [])

theorem strings_nil : strings [] = [] := rfl

theorem strings_zero (mem : Str) : strings (0 :: mem) = [] := by
  unfold strings
  rw [List.splitOnP_cons_eq_if_modifyHead, if_pos (by decide)]
  rfl

theorem strings_word {t : Str} (h0 : 0 ∉ t) (ht : t ≠ []) : strings t = [t] := by
  unfold strings
  have hno : ∀ c ∈ t, decide (c = 0) = false := fun c hc => decide_eq_false fun h => h0 (h ▸ hc)
  rw [List.splitOnP_eq_singleton hno]
  rw [List.takeWhile_cons_of_pos (by simpa using ht)]
  rfl

theorem strings_cons {t : Str} (h0 : 0 ∉ t) (ht : t ≠ []) (mem : Str) :
    strings (t ++ 0 :: mem) = t :: strings mem := by
  unfold strings
  have hno : ∀ c ∈ t, decide (c = 0) = false := fun c hc => decide_eq_false fun h => h0 (h ▸ hc)
  rw [List.splitOnP_append_cons_of_forall_mem hno 0 (by decide)]
  rw [List.takeWhile_cons_of_pos (by simpa using ht)]

theorem skipString_append {t : Str} (h0 : 0 ∉ t) (mem : Str) :
    skipString (t ++ 0 :: mem) = some mem := by
  induction t with
  | nil => rfl
  | cons c t ih =>
    obtain ⟨hc, ht⟩ := not_or.mp (mt List.mem_cons.mpr h0)
    rw [List.cons_append, skipString, if_neg (Ne.symm hc), ih ht]

/-- `collect` ends at the two NULs behind the stored bytes, and every pointer that it
stores lies in the memory that `count` reserves. -/
theorem collect_eq (bss : ℕ) (l : Str) : ∀ (fuel arg count : ℕ) (argv : List Str), l.length + 2 ≤ fuel →
    arg ≤ bss + count → ∃ argv', collect bss fuel (l ++ [0, 0]) arg count argv =
        some (argv', arg + 4 * (strings l).length, count + 4 * (strings l).length) ∧
      argv'.map cstr = argv.map cstr ++ strings l := by
  induction hn : l.length using Nat.strong_induction_on generalizing l with
  | _ n ih =>
    intro fuel arg count argv hfuel harg
    subst hn
    obtain ⟨fuel, rfl⟩ : ∃ f, fuel = f + 1 := ⟨fuel - 1, by omega⟩
    by_cases hmem : (0 : UInt8) ∈ l
    · obtain ⟨t, rest, rfl, ht⟩ := List.eq_append_cons_of_mem hmem
      cases t with
      | nil =>
        rw [List.nil_append, List.cons_append, collect, if_pos rfl, strings_zero]
        exact ⟨argv, rfl, (List.append_nil _).symm⟩
      | cons c t =>
        have hc : c ≠ 0 := fun h => ht (h ▸ List.mem_cons_self)
        have hne : c :: t ≠ [] := List.cons_ne_nil c t
        have hskip := skipString_append ht (rest ++ [0, 0])
        have hroom : arg + 4 ≤ bss + (count + 4) := by omega
        obtain ⟨argv', hcol, hargv⟩ := ih rest.length
          (by rw [List.length_append, List.length_cons, List.length_cons]; omega) rest rfl fuel
          (arg + 4) (count + 4) (argv ++ [c :: t ++ 0 :: (rest ++ [0, 0])])
          (by rw [List.length_append, List.length_cons, List.length_cons] at hfuel; omega)
          (by omega)
        refine ⟨argv', ?_, ?_⟩
        · rw [List.append_assoc, List.cons_append (a := 0), List.cons_append, collect, if_neg hc]
          rw [← List.cons_append, hskip, Option.bind_eq_bind, Option.bind_some, if_pos hroom, hcol,
            strings_cons ht hne, List.length_cons]
          congr 2
          congr 1 <;> ring
        · rw [hargv, List.map_append, List.map_singleton, cstr_append ht, strings_cons ht hne,
            List.append_assoc, List.singleton_append]
    · cases l with
      | nil =>
        rw [List.nil_append, collect, if_pos rfl, strings_nil]
        exact ⟨argv, rfl, (List.append_nil _).symm⟩
      | cons c t =>
        have hc : c ≠ 0 := fun h => hmem (h ▸ List.mem_cons_self)
        have hne : c :: t ≠ [] := List.cons_ne_nil c t
        have hskip := skipString_append hmem [0]
        have hroom : arg + 4 ≤ bss + (count + 4) := by omega
        obtain ⟨fuel, rfl⟩ : ∃ f, fuel = f + 1 := ⟨fuel - 1, by rw [List.length_cons] at hfuel; omega⟩
        refine ⟨argv ++ [c :: t ++ [0, 0]], ?_, ?_⟩
        · rw [List.cons_append, collect, if_neg hc, ← List.cons_append, hskip,
            Option.bind_eq_bind, Option.bind_some, if_pos hroom, collect, if_pos rfl,
            strings_word hmem hne]
          rfl
        · rw [List.map_append, List.map_singleton, cstr_append hmem, strings_word hmem hne]

end Stored

section Safe

theorem pushEnv_length (entries : List Str) (s : Str) :
    (pushEnv entries s).length ≤ entries.length + 1 := by
  unfold pushEnv
  cases h : entries.getLast? with
  | none => simp
  | some q =>
    have hne : entries ≠ [] := by
      rintro rfl
      simp at h
    have hpos := List.length_pos_iff.mpr hne
    simp only
    by_cases hjoin : EQ ∉ s ∧ q.getLast? = some EQ
    · rw [if_pos hjoin, List.length_append, List.length_dropLast, List.length_singleton]
      omega
    · rw [if_neg hjoin, List.length_append, List.length_singleton]

theorem foldl_pushEnv_length (env entries : List Str) :
    (env.foldl pushEnv entries).length ≤ entries.length + env.length := by
  induction env generalizing entries with
  | nil => exact le_refl _
  | cons s env ih =>
    have hone := pushEnv_length entries s
    have hall := ih (pushEnv entries s)
    rw [List.foldl_cons, List.length_cons]
    omega

theorem environment_le (bss : ℕ) (env : List Str) :
    (environment bss env).1 ≤ bss + (environment bss env).2 := by
  have hlen := foldl_pushEnv_length env []
  rw [List.length_nil] at hlen
  unfold environment environAt
  simp only
  omega

def storedOut (p_cmdlin : ℕ → UInt8) : Str :=
  let cmdln := (line p_cmdlin).dropWhile isspace
  if cmdln.head?.getD (behind p_cmdlin) ≠ QUOTE then unquotedOut cmdln
  else quotedOut (behind p_cmdlin) false cmdln

theorem parseargs_eq (bss : ℕ) (env : List Str) (p_cmdlin : ℕ → UInt8) :
    ∃ count, parseargs bss env p_cmdlin = some ⟨strings (storedOut p_cmdlin), count⟩ := by
  set cmdln := (line p_cmdlin).dropWhile isspace with hcmdln
  have hdrop : cmdln.length ≤ (line p_cmdlin).length := List.length_dropWhile_le _ _
  have hroom : (line p_cmdlin).length + 2 ≤ room p_cmdlin := by
    unfold room
    omega
  have hloop : scan p_cmdlin = some (storedOut p_cmdlin) ∧
      (storedOut p_cmdlin).length ≤ cmdln.length := by
    unfold scan storedOut
    simp only [← hcmdln]
    by_cases hq : cmdln.head?.getD (behind p_cmdlin) ≠ QUOTE
    · rw [if_pos hq, if_pos hq]
      exact unquoted_eq cmdln [] (by rw [List.length_nil]; omega)
    · rw [if_neg hq, if_neg hq]
      exact quoted_eq cmdln false [] (by rw [List.length_nil]; omega)
  obtain ⟨hloop, hlen⟩ := hloop
  have henv := environment_le bss env
  have hput : put (room p_cmdlin) (storedOut p_cmdlin) 0 = some (storedOut p_cmdlin ++ [0]) :=
    put_eq 0 (by omega)
  have hput' : put (room p_cmdlin) (storedOut p_cmdlin ++ [0]) 0 =
      some (storedOut p_cmdlin ++ [0] ++ [0]) :=
    put_eq 0 (by rw [List.length_append, List.length_singleton]; omega)
  rw [List.append_assoc, List.singleton_append] at hput'
  set from_ := (environment bss env).1 with hfrom
  set count := (environment bss env).2 with hcount
  obtain ⟨argv, hcol, hargv⟩ := collect_eq bss (storedOut p_cmdlin)
    (storedOut p_cmdlin ++ [0, 0]).length (from_ + room p_cmdlin + 4) (count + room p_cmdlin + 4)
    [] (by rw [List.length_append]; rfl) (by omega)
  have hlast : from_ + room p_cmdlin + 4 + 4 * (strings (storedOut p_cmdlin)).length + 4 ≤
      bss + (count + room p_cmdlin + 4 + 4 * (strings (storedOut p_cmdlin)).length + 4) := by
    omega
  refine ⟨count + room p_cmdlin + 4 + 4 * (strings (storedOut p_cmdlin)).length + 4, ?_⟩
  unfold parseargs
  simp only [← hfrom, ← hcount]
  rw [if_pos (by omega), hloop]
  simp only [Option.bind_eq_bind, Option.bind_some, hput, hput', hcol, if_pos hlast]
  rw [hargv]
  rfl

end Safe

structure Token where
  quoted : Bool
  text : Str

def Token.written (w : Token) : Str :=
  if w.quoted then QUOTE :: (w.text.flatMap fun c => if c = QUOTE then [QUOTE, QUOTE] else [c]) ++
    [QUOTE]
  else w.text

structure Token.Ok (w : Token) : Prop where
  ne_nil : w.text ≠ []
  zero : 0 ∉ w.text
  plain : w.quoted = false → ∀ c ∈ w.text, isspace c = false ∧ c ≠ QUOTE

def written : List (Token × Str) → Str
  | [] => []
  | (w, gap) :: ws => w.written ++ (gap ++ written ws)

def texts (ws : List (Token × Str)) : List Str := ws.map fun x => x.1.text

def Separated : List (Token × Str) → Prop
  | [] => True
  | (w, gap) :: ws => w.Ok ∧ (∀ c ∈ gap, isspace c) ∧ (ws ≠ [] → gap ≠ []) ∧ Separated ws

/-- A command line made of tokens, with blanks in front and behind if there are any: all
plain, or the first in quotes. -/
structure Tokens where
  lead : Str
  words : List (Token × Str)
  lead_blank : ∀ c ∈ lead, isspace c
  separated : Separated words
  quotes : (∃ x ∈ words.head?, x.1.quoted) ∨ ∀ x ∈ words, x.1.quoted = false

def Tokens.line (T : Tokens) : Str := T.lead ++ written T.words

def Token.EndedBy (w : Token) (gap : Str) : Prop :=
  ∃ b, gap = [b] ∧ (w.quoted = false → b = BLANK)

/-- The blanks behind the last token are no argument of their own, and a quote that ends
the line is not doubled by the byte behind it. -/
def Token.LastEndedBy (next : UInt8) (w : Token) (gap : Str) : Prop :=
  (gap = [] ∧ (w.quoted → next ≠ QUOTE)) ∨
    ∃ b rest, gap = b :: rest ∧ (w.quoted = false → b = BLANK) ∧ rest.head? ≠ some TAB

/-- Every token of a line that begins with a quote is ended by one blank. -/
def OneBlank (next : UInt8) : List (Token × Str) → Prop
  | [] => True
  | [(w, gap)] => w.LastEndedBy next gap
  | (w, gap) :: ws => w.EndedBy gap ∧ OneBlank next ws

/-- The line does not begin with a quote, or has one blank behind each token. -/
def Tokens.Clean (next : UInt8) (T : Tokens) : Prop :=
  (∀ x ∈ T.words, x.1.quoted = false) ∨ OneBlank next T.words

section Written

variable {next : UInt8} {w : Token} {ws : List (Token × Str)} {gap rest t mem : Str}

theorem isspace_iff {c : UInt8} : isspace c ↔ c = BLANK ∨ c = TAB := by simp [isspace]

theorem quotedOut_plain (h : ∀ c ∈ t, isspace c = false ∧ c ≠ QUOTE) (rest : Str) :
    quotedOut next false (t ++ rest) = t ++ quotedOut next false rest := by
  induction t with
  | nil => rfl
  | cons c t ih =>
    obtain ⟨hc, hq⟩ := h c List.mem_cons_self
    have hb : c ≠ BLANK := fun h => by rw [isspace_iff.mpr (Or.inl h)] at hc; exact Bool.noConfusion hc
    rw [List.cons_append, quotedOut_cons, if_neg hq, if_neg hb,
      ih fun c hc => h c (List.mem_cons_of_mem _ hc), List.cons_append]

theorem quotedOut_double (t rest : Str) : quotedOut next true
    ((t.flatMap fun c => if c = QUOTE then [QUOTE, QUOTE] else [c]) ++ rest) =
      t ++ quotedOut next true rest := by
  induction t with
  | nil => rfl
  | cons c t ih =>
    rw [List.flatMap_cons, List.append_assoc]
    by_cases hq : c = QUOTE
    · rw [if_pos hq, hq, List.cons_append, List.cons_append, List.nil_append, quotedOut_cons]
      simp only [if_true]
      rw [ih, List.cons_append]
    · rw [if_neg hq, List.singleton_append, quotedOut_cons, if_neg hq]
      by_cases hb : c = BLANK
      · rw [if_pos hb, if_pos rfl, ih, hb, List.cons_append]
      · rw [if_neg hb, ih, List.cons_append]

def gapOut (gap : Str) : Str := gap.map fun c => if c = BLANK then 0 else c

theorem quotedOut_gap (h : ∀ c ∈ gap, isspace c) (rest : Str) :
    quotedOut next false (gap ++ rest) = gapOut gap ++ quotedOut next false rest := by
  induction gap with
  | nil => rfl
  | cons c gap ih =>
    have hq : c ≠ QUOTE := by
      rintro rfl
      exact absurd (h QUOTE List.mem_cons_self) (by decide)
    rw [List.cons_append, quotedOut_cons, if_neg hq, ih fun c hc => h c (List.mem_cons_of_mem _ hc)]
    by_cases hb : c = BLANK
    · have hcons : gapOut (c :: gap) = 0 :: gapOut gap := by rw [gapOut, List.map_cons, if_pos hb]; rfl
      rw [if_pos hb, hcons]
      rfl
    · have hcons : gapOut (c :: gap) = c :: gapOut gap := by rw [gapOut, List.map_cons, if_neg hb]; rfl
      rw [if_neg hb, hcons, List.cons_append]

/-- What is stored for a token with the line that follows: the closing quote takes the next
byte with it. -/
theorem quotedOut_written (hw : w.Ok) (rest : Str) :
    quotedOut next false (w.written ++ rest) = w.text ++
      if w.quoted then
        match rest with
        | [] => [if next = QUOTE then QUOTE else 0]
        | d :: rest =>
          if d = QUOTE then QUOTE :: quotedOut next true rest
          else 0 :: quotedOut next false rest
      else quotedOut next false rest := by
  unfold Token.written
  by_cases hq : w.quoted
  · rw [if_pos hq, if_pos hq, List.append_assoc, List.cons_append, quotedOut_cons, if_pos rfl]
    simp only [Bool.false_eq_true, if_false]
    rw [quotedOut_double, List.singleton_append, quotedOut_cons, if_pos rfl, if_pos rfl]
  · rw [if_neg hq, if_neg hq]
    exact quotedOut_plain (hw.plain (by simpa using hq)) rest

/-- Nothing behind a token that is ended by more than one blank: an empty string, or one
that begins with a tab. -/
theorem cstr_gapOut (h : ∀ c ∈ gap, isspace c) (mem : Str) :
    (∀ c ∈ cstr (gapOut gap ++ mem), c = TAB) ∨
      cstr (gapOut gap ++ mem) = gap ++ cstr mem := by
  induction gap with
  | nil => exact Or.inr rfl
  | cons c gap ih =>
    have hgap : gapOut (c :: gap) ++ mem =
        (if c = BLANK then 0 else c) :: (gapOut gap ++ mem) := rfl
    rw [hgap]
    rcases isspace_iff.mp (h c List.mem_cons_self) with hc | hc
    · rw [if_pos hc, cstr, if_pos rfl]
      exact Or.inl fun c hc => absurd hc List.not_mem_nil
    · have hne : ¬ TAB = BLANK := by decide
      have h0 : ¬ TAB = 0 := by decide
      rw [hc, if_neg hne, cstr, if_neg h0]
      refine (ih fun c hc => h c (List.mem_cons_of_mem _ hc)).imp (fun hall => ?_) fun heq => ?_
      · exact List.forall_mem_cons.mpr ⟨rfl, hall⟩
      · rw [heq, List.cons_append]

theorem cstr_of_strings {ts : List Str} (h : strings mem = t :: ts) : cstr mem = t := by
  by_cases hmem : (0 : UInt8) ∈ mem
  · obtain ⟨s, rest, rfl, hs⟩ := List.eq_append_cons_of_mem hmem
    by_cases hne : s = []
    · rw [hne, List.nil_append, strings_zero] at h
      exact absurd h (List.cons_ne_nil _ _).symm
    · rw [strings_cons hs hne] at h
      rw [cstr_append hs]
      exact (List.cons.inj h).1
  · by_cases hne : mem = []
    · rw [hne, strings_nil] at h
      exact absurd h (List.cons_ne_nil _ _).symm
    · rw [strings_word hmem hne] at h
      rw [cstr_of_clean hmem]
      exact (List.cons.inj h).1

theorem strings_ended {b : UInt8} (hw : w.Ok) (hgap : ∀ c ∈ b :: gap, isspace c)
    (hb : w.quoted = false → b = BLANK) (rest : Str) :
    strings (quotedOut next false (w.written ++ (b :: gap ++ rest))) =
      w.text :: strings (gapOut gap ++ quotedOut next false rest) := by
  have hgap' : ∀ c ∈ gap, isspace c := fun c hc => hgap c (List.mem_cons_of_mem _ hc)
  have hout : quotedOut next false (w.written ++ (b :: gap ++ rest)) =
      w.text ++ 0 :: (gapOut gap ++ quotedOut next false rest) := by
    rw [quotedOut_written hw]
    by_cases hq : w.quoted
    · have hbq : b ≠ QUOTE := by
        rintro rfl
        exact absurd (hgap QUOTE List.mem_cons_self) (by decide)
      simp only [hq, if_true, List.cons_append, if_neg hbq]
      rw [quotedOut_gap hgap']
    · rw [if_neg hq, quotedOut_gap hgap, hb (by simpa using hq)]
      rfl
  rw [hout, strings_cons hw.zero hw.ne_nil]

theorem strings_tab (hw : w.Ok) (hq : w.quoted = false) (hgap : ∀ c ∈ TAB :: gap, isspace c)
    (rest : Str) (ts : List Str) :
    strings (quotedOut next false (w.written ++ (TAB :: gap ++ rest))) ≠ w.text :: ts := by
  intro h
  have hout : quotedOut next false (w.written ++ (TAB :: gap ++ rest)) =
      w.text ++ TAB :: (gapOut gap ++ quotedOut next false rest) := by
    rw [quotedOut_written hw, if_neg (by rw [hq]; decide), quotedOut_gap hgap]
    rfl
  have hcstr := cstr_of_strings h
  have h0 : ¬ TAB = 0 := by decide
  rw [hout, cstr_append_left hw.zero, cstr, if_neg h0] at hcstr
  have hlen := congrArg List.length hcstr
  rw [List.length_append, List.length_cons] at hlen
  omega

theorem strings_gapOut (hgap : ∀ c ∈ gap, isspace c) :
    strings (gapOut gap) = [] ↔ gap.head? ≠ some TAB := by
  cases gap with
  | nil => exact iff_of_true rfl (by decide)
  | cons c gap =>
    have hcons : gapOut (c :: gap) = (if c = BLANK then 0 else c) :: gapOut gap := rfl
    rw [hcons, List.head?_cons]
    rcases isspace_iff.mp (hgap c List.mem_cons_self) with hc | hc
    · rw [if_pos hc, strings_zero, hc]
      exact iff_of_true rfl (by decide)
    · have hne : ¬ TAB = BLANK := by decide
      rw [hc, if_neg hne]
      refine iff_of_false (fun h => ?_) fun h => h rfl
      have hpos : strings (TAB :: gapOut gap) ≠ [] := by
        unfold strings
        rw [List.splitOnP_cons_eq_if_modifyHead, if_neg (by decide)]
        obtain ⟨x, l, hx⟩ := List.exists_cons_of_ne_nil (List.splitOnP_ne_nil (fun c => decide (c = 0)) (gapOut gap))
        rw [hx, List.modifyHead_cons, List.takeWhile_cons_of_pos (by simp)]
        exact List.cons_ne_nil _ _
      exact hpos h

/-- A line that begins with a quote is read as its tokens when one blank ends each of them,
and otherwise only if a token consists of tabs. -/
theorem strings_quoted (next : UInt8) (h : Separated ws) :
    (OneBlank next ws → strings (quotedOut next false (written ws)) = texts ws) ∧
    (strings (quotedOut next false (written ws)) = texts ws →
      OneBlank next ws ∨ ∃ x ∈ ws, ∀ c ∈ x.1.text, c = TAB) := by
  induction ws with
  | nil => exact ⟨fun _ => rfl, fun _ => Or.inl trivial⟩
  | cons x ws ih =>
    obtain ⟨w, gap⟩ := x
    obtain ⟨hw, hgap, hne, hsep⟩ := h
    cases hgapeq : gap with
    | nil =>
      have hws : ws = [] := by
        by_contra hws
        exact hne hws hgapeq
      subst hws
      have hout : quotedOut next false (w.written ++ ([] ++ written [])) =
          w.text ++ if w.quoted then [if next = QUOTE then QUOTE else 0] else [] := by
        rw [List.nil_append, quotedOut_written hw]
        rfl
      show (w.LastEndedBy next [] → strings (quotedOut next false (w.written ++ ([] ++ written []))) =
          [w.text]) ∧ (strings (quotedOut next false (w.written ++ ([] ++ written []))) = [w.text] →
          w.LastEndedBy next [] ∨ _)
      rw [hout]
      by_cases hbad : w.quoted ∧ next = QUOTE
      · obtain ⟨hq, hnext⟩ := hbad
        rw [if_pos hq, if_pos hnext]
        constructor
        · rintro (⟨-, hn⟩ | ⟨b, rest, hnil, -⟩)
          · exact absurd hnext (hn hq)
          · exact absurd hnil.symm (List.cons_ne_nil _ _)
        · intro heq
          have h0 : (0 : UInt8) ∉ w.text ++ [QUOTE] := by
            rw [List.mem_append, not_or]
            exact ⟨hw.zero, by decide⟩
          have hword := cstr_of_strings heq
          rw [cstr_of_clean h0] at hword
          have hlen := congrArg List.length hword
          rw [List.length_append, List.length_singleton] at hlen
          omega
      · have hstr : strings (w.text ++ if w.quoted then [if next = QUOTE then QUOTE else 0]
            else []) = [w.text] := by
          by_cases hq : w.quoted
          · rw [if_pos hq, if_neg fun hn => hbad ⟨hq, hn⟩, strings_cons hw.zero hw.ne_nil,
              strings_nil]
          · rw [if_neg hq, List.append_nil, strings_word hw.zero hw.ne_nil]
        exact ⟨fun _ => hstr, fun _ => Or.inl (Or.inl ⟨rfl, fun hq hn => hbad ⟨hq, hn⟩⟩)⟩
    | cons b gap' =>
      rw [hgapeq] at hgap hne
      have hgap' : ∀ c ∈ gap', isspace c := fun c hc => hgap c (List.mem_cons_of_mem _ hc)
      show (OneBlank next ((w, b :: gap') :: ws) →
          strings (quotedOut next false (w.written ++ (b :: gap' ++ written ws))) =
            w.text :: texts ws) ∧
        (strings (quotedOut next false (w.written ++ (b :: gap' ++ written ws))) =
            w.text :: texts ws → OneBlank next ((w, b :: gap') :: ws) ∨ _)
      by_cases htab : w.quoted = false ∧ b = TAB
      · obtain ⟨hq, rfl⟩ := htab
        have hne' : ¬ TAB = BLANK := by decide
        refine ⟨fun hone => ?_, fun heq => absurd heq (strings_tab hw hq hgap _ _)⟩
        cases ws with
        | nil =>
          rcases hone with ⟨hnil, -⟩ | ⟨b, rest, heq, hb, -⟩
          · exact absurd hnil (List.cons_ne_nil _ _)
          · exact absurd ((List.cons.inj heq).1.trans (hb hq)) hne'
        | cons y ws =>
          obtain ⟨b, heq, hb⟩ := hone.1
          exact absurd ((List.cons.inj heq).1.trans (hb hq)) hne'
      have hb : w.quoted = false → b = BLANK := fun hq =>
        (isspace_iff.mp (hgap b List.mem_cons_self)).resolve_right fun h => htab ⟨hq, h⟩
      rw [strings_ended hw hgap hb]
      cases ws with
      | nil =>
        have hrest : gapOut gap' ++ quotedOut next false (written []) = gapOut gap' :=
          List.append_nil _
        rw [hrest]
        constructor
        · rintro (⟨hnil, -⟩ | ⟨b', rest, heq, -, hhead⟩)
          · exact absurd hnil (List.cons_ne_nil _ _)
          · rw [← (List.cons.inj heq).2] at hhead
            rw [(strings_gapOut hgap').mpr hhead]
            rfl
        · intro heq
          exact Or.inl (Or.inr ⟨b, gap', rfl, hb,
            (strings_gapOut hgap').mp (List.cons.inj heq).2⟩)
      | cons y ws =>
        obtain ⟨w₂, gap₂⟩ := y
        have hw₂ : w₂.Ok := hsep.1
        constructor
        · rintro ⟨⟨b', heq, -⟩, hone⟩
          rw [(List.cons.inj heq).2, gapOut, List.map_nil, List.nil_append, (ih hsep).1 hone]
        · intro heq
          have htail := (List.cons.inj heq).2
          cases hgapeq' : gap' with
          | nil =>
            rw [hgapeq', gapOut, List.map_nil, List.nil_append] at htail
            rcases (ih hsep).2 htail with hone | ⟨x, hx, hall⟩
            · exact Or.inl ⟨⟨b, rfl, hb⟩, hone⟩
            · exact Or.inr ⟨x, List.mem_cons_of_mem _ hx, hall⟩
          | cons d gap'' =>
            have hcstr : cstr _ = w₂.text := cstr_of_strings htail
            rcases cstr_gapOut hgap' (quotedOut next false (written ((w₂, gap₂) :: ws))) with
              hall | hlong
            · rw [hcstr] at hall
              exact Or.inr ⟨(w₂, gap₂), List.mem_cons_of_mem _ List.mem_cons_self, hall⟩
            · rw [hlong] at hcstr
              have hout : quotedOut next false (written ((w₂, gap₂) :: ws)) = w₂.text ++ _ :=
                quotedOut_written hw₂ (gap₂ ++ written ws)
              rw [hout, cstr_append_left hw₂.zero, hgapeq'] at hcstr
              have hlen := congrArg List.length hcstr
              simp only [List.length_append, List.length_cons] at hlen
              omega

theorem dropWhile_written (h : Separated ws) : (written ws).dropWhile isspace = written ws := by
  cases ws with
  | nil => rfl
  | cons x ws =>
    obtain ⟨w, gap⟩ := x
    have hw : w.Ok := h.1
    obtain ⟨c, t, ht⟩ := List.exists_cons_of_ne_nil hw.ne_nil
    show (w.written ++ (gap ++ written ws)).dropWhile isspace = w.written ++ (gap ++ written ws)
    unfold Token.written
    by_cases hq : w.quoted
    · rw [if_pos hq]
      rfl
    · have hc := (hw.plain (by simpa using hq) c (by rw [ht]; exact List.mem_cons_self)).1
      rw [if_neg hq, ht, List.cons_append, List.dropWhile_cons_of_neg (by rw [hc]; decide)]

theorem dropWhile_blanks (h : ∀ c ∈ gap, isspace c) (rest : Str) :
    (gap ++ rest).dropWhile isspace = rest.dropWhile isspace := by
  induction gap with
  | nil => rfl
  | cons c gap ih =>
    rw [List.cons_append, List.dropWhile_cons_of_pos (h c List.mem_cons_self),
      ih fun c hc => h c (List.mem_cons_of_mem _ hc)]

theorem unquotedOut_plain (h0 : 0 ∉ t) (h : ∀ c ∈ t, isspace c = false) (rest : Str) :
    unquotedOut (t ++ rest) = t ++ unquotedOut rest := by
  induction t with
  | nil => rfl
  | cons c t ih =>
    obtain ⟨hc0, h0⟩ := not_or.mp (mt List.mem_cons.mpr h0)
    rw [List.cons_append, unquotedOut, if_neg (by rw [h c List.mem_cons_self]; decide),
      if_neg (Ne.symm hc0), ih h0 fun c hc => h c (List.mem_cons_of_mem _ hc), List.cons_append]

theorem strings_unquoted (h : Separated ws) (hplain : ∀ x ∈ ws, x.1.quoted = false) :
    strings (unquotedOut (written ws)) = texts ws := by
  induction ws with
  | nil =>
    show strings (unquotedOut []) = []
    rw [unquotedOut, strings_nil]
  | cons x ws ih =>
    obtain ⟨w, gap⟩ := x
    obtain ⟨hw, hgap, hne, hsep⟩ := h
    have hq : w.quoted = false := hplain (w, gap) List.mem_cons_self
    have hwritten : w.written = w.text := by rw [Token.written, if_neg (by rw [hq]; decide)]
    show strings (unquotedOut (w.written ++ (gap ++ written ws))) = w.text :: texts ws
    rw [hwritten, unquotedOut_plain hw.zero fun c hc => (hw.plain hq c hc).1]
    cases hgapeq : gap with
    | nil =>
      have hws : ws = [] := by
        by_contra hws
        exact hne hws hgapeq
      rw [hws, List.nil_append, written, unquotedOut, List.append_nil,
        strings_word hw.zero hw.ne_nil]
      rfl
    | cons b gap' =>
      rw [hgapeq] at hgap
      rw [List.cons_append, unquotedOut, if_pos (hgap b List.mem_cons_self),
        dropWhile_blanks fun c hc => hgap c (List.mem_cons_of_mem _ hc), dropWhile_written hsep,
        strings_cons hw.zero hw.ne_nil,
        ih hsep fun x hx => hplain x (List.mem_cons_of_mem _ hx)]

theorem storedOut_tokens {p_cmdlin : ℕ → UInt8} (T : Tokens) (h : line p_cmdlin = T.line) :
    storedOut p_cmdlin =
      if ∀ x ∈ T.words, x.1.quoted = false then unquotedOut (written T.words)
      else quotedOut (behind p_cmdlin) false (written T.words) := by
  have hdrop : (line p_cmdlin).dropWhile isspace = written T.words := by
    rw [h, Tokens.line, dropWhile_blanks T.lead_blank, dropWhile_written T.separated]
  unfold storedOut
  simp only [hdrop]
  have hsep := T.separated
  have hquotes := T.quotes
  cases hws : T.words with
  | nil =>
    have hnil : unquotedOut [] = [] := by rw [unquotedOut]
    rw [if_pos fun x hx => absurd hx List.not_mem_nil, written, hnil]
    exact ite_self _
  | cons x ws =>
    obtain ⟨w, gap⟩ := x
    rw [hws] at hsep hquotes
    have hw : w.Ok := hsep.1
    obtain ⟨c, t, ht⟩ := List.exists_cons_of_ne_nil hw.ne_nil
    by_cases hq : w.quoted
    · have hhead : (written ((w, gap) :: ws)).head? = some QUOTE := by
        rw [written, Token.written, if_pos hq]
        rfl
      have hall : ¬ ∀ x ∈ (w, gap) :: ws, x.1.quoted = false := by
        intro hall
        rw [hall (w, gap) List.mem_cons_self] at hq
        exact absurd hq (by decide)
      rw [hhead, Option.getD_some, if_neg (by decide), if_neg hall]
    · have hhead : (written ((w, gap) :: ws)).head? = some c := by
        rw [written, Token.written, if_neg hq, ht]
        rfl
      have hc := (hw.plain (by simpa using hq) c (by rw [ht]; exact List.mem_cons_self)).2
      have hall : ∀ x ∈ (w, gap) :: ws, x.1.quoted = false := by
        refine hquotes.resolve_left ?_
        rintro ⟨x, hx, hxq⟩
        rw [← Option.some.inj hx] at hxq
        exact hq hxq
      rw [hhead, Option.getD_some, if_pos hall, if_pos hc]

end Written

/-- `parseargs` ends with every store in memory that it has reserved. A line of tokens is
read as these tokens when it does not begin with a quote or one blank ends each of them,
and otherwise only if a token consists of tabs. -/
theorem argv_of_line (bss : ℕ) (env : List Str) (p_cmdlin : ℕ → UInt8) :
    ∃ p, parseargs bss env p_cmdlin = some p ∧ ∀ T : Tokens, line p_cmdlin = T.line →
      (T.Clean (behind p_cmdlin) → p.argv = texts T.words) ∧
      (p.argv = texts T.words →
        T.Clean (behind p_cmdlin) ∨ ∃ x ∈ T.words, ∀ c ∈ x.1.text, c = TAB) := by
  obtain ⟨count, hparse⟩ := parseargs_eq bss env p_cmdlin
  refine ⟨_, hparse, fun T hline => ?_⟩
  show (_ → strings (storedOut p_cmdlin) = _) ∧ (strings (storedOut p_cmdlin) = _ → _)
  rw [storedOut_tokens T hline]
  by_cases hplain : ∀ x ∈ T.words, x.1.quoted = false
  · rw [if_pos hplain, strings_unquoted T.separated hplain]
    exact ⟨fun _ => rfl, fun _ => Or.inl (Or.inl hplain)⟩
  · rw [if_neg hplain]
    obtain ⟨hclean, hback⟩ := strings_quoted (behind p_cmdlin) T.separated
    exact ⟨fun h => hclean (h.resolve_left hplain), fun h => (hback h).imp_left Or.inr⟩

/-- The tokens `a` and `b` in quotes, with two spaces between them. -/
def twoBlanks : Tokens where
  lead := []
  words := [(⟨true, [97]⟩, [BLANK, BLANK]), (⟨true, [98]⟩, [])]
  lead_blank := by simp
  separated := by
    refine ⟨⟨by decide, by decide, by simp⟩, by simp [isspace], by simp,
      ⟨by decide, by decide, by simp⟩, by simp, by simp, trivial⟩
  quotes := Or.inl ⟨_, rfl, rfl⟩

def twoBlanksLine (k : ℕ) : UInt8 := (8 :: twoBlanks.line).getD k 0

theorem second_token_lost : line twoBlanksLine = twoBlanks.line ∧
    ∃ p, parseargs 0 [] twoBlanksLine = some p ∧ p.argv = [[97]] ∧ p.argv ≠ texts twoBlanks.words := by
  have hstored : storedOut twoBlanksLine = [97, 0, 0, 98, 0] := by decide
  have hstrings : strings [97, 0, 0, 98, 0] = [[97]] := by decide
  have hne : [[97]] ≠ texts twoBlanks.words := by decide
  obtain ⟨count, hparse⟩ := parseargs_eq 0 [] twoBlanksLine
  rw [hstored, hstrings] at hparse
  exact ⟨by decide, _, hparse, rfl, hne⟩

end Mintlib.CommandLine
