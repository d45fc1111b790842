import Mintlib.Stores
import Mintlib.StartUp
import Mintlib.NameRoom

/-!
# The environment of a child: the block that `_spawnve` builds

The variables come first, those that `PCONVERT` names (or `PATH`) with their lists in DOS form; then
`ARGV` with the places of the empty arguments, and the arguments. When the block turns out to be too
small, it is given back and a larger one is filled, from the variable on that had no room.
-/

namespace Mintlib.Spawn

open Text Unx2dos Stores Checked
open StartUp (PATH pconvert names)
open NameRoom (IsDevice)

abbrev ARGV : Str := [65, 82, 71, 86, 61]
abbrev NULL : Str := [78, 85, 76, 76, 58]

def TOS_ARGS : ℕ := 126

/-- Whether `Malloc` has a block of a size when it is asked for the `n`th time. A `long` is its
argument, and what is negative is no size. -/
structure Memory where
  malloc : ℕ → ℕ → Bool
  signed : ∀ n size, malloc n size = true → size < 2 ^ 31

/-- `*s++ = c`: what stands in front of `s` has been written. -/
def put (enlen : ℕ) (out : Str) (c : UInt8) : Except Stop Str :=
  if out.length < enlen then .ok (out ++ [c]) else .error .bounds

def puts (enlen : ℕ) : Str → Str → Except Stop Str
  | [], out => .ok out
  | c :: text, out => do
    let out ← put enlen out c
    puts enlen text out

def putsIf (cond : Bool) (enlen : ℕ) (text out : Str) : Except Stop Str :=
  if cond then puts enlen text out else .ok out

/-- `strlen + 1` of all strings. -/
def total (strings : List CStr) : ℕ := (strings.map fun s => s.1.length + 1).sum

def minLeft (argv : List CStr) : ℕ := (total argv + 64) % 2 ^ 32

/-- `enlen` at first. -/
def firstSize (argv envp : List CStr) : ℕ := (minLeft argv + total envp + 1024) % 2 ^ 32

/-- How many characters of a variable stand in front of a list that is to be converted. -/
def listed (pconv : Option Str) (p : Str) : Option ℕ :=
  match pconv with
  | some pconv => ((names pconv).find? fun name => Named name p).map fun name => name.length + 1
  | none => if PATH <+: p then some 5 else none

/-- `strlen (p) + cnt * 2 + 1`. Without `PCONVERT` the name has been passed when this is taken from
`left`, and is missing in both. -/
def estimate (p : Str) (len : ℕ) : ℕ :=
  (p.length + (1 + (p.drop len).countP isUnxSep) * 2 + 1) % 2 ^ 32

structure Filled where
  out : Str
  left : ℕ

/-- How far `_unx2dos` writes: a device is padded with zeros. -/
def reachOne (σ : Sys) (unx t : Str) (len : ℕ) : ℕ :=
  if IsDevice σ unx then max (t.length + 1) (less len 1) else t.length + 1

/-- How far `_path_unx2dos` writes. -/
def reach (σ : Sys) : ℕ → List Str → ℕ
  | _, [] => 1
  | len, e :: es =>
    match unx2dos σ (e.take (PATH_MAX - 1)) len with
    | none => 0
    | some (t, _) =>
      max (reachOne σ (e.take (PATH_MAX - 1)) t len)
        (if less len t.length ≤ 10 ∨ es = [] then t.length + 1
        else t.length + 1 + reach σ (less (less len t.length) 1) es)

/-- `_path_unx2dos` into the block. -/
def convert (σ : Sys) (enlen : ℕ) (out value : Str) (len : ℕ) : Except Stop Str :=
  match pathUnx2dos σ value len with
  | none => .error .bounds
  | some t =>
    if out.length + reach σ len (elements isUnxSep value) ≤ enlen then .ok (out ++ t ++ [0])
    else .error .bounds

/-- A variable with a list behind its first `len` characters; `none` stands for
`goto need_more_core`. -/
def convertVar (σ : Sys) (early : Bool) (enlen min_left : ℕ) (p : Str) (len : ℕ) (f : Filled) :
    Except Stop (Option Filled) := do
  -- without `PCONVERT` the name is there before the room is looked at
  let named ← putsIf early enlen (p.take len) f.out
  if less f.left (estimate p len) < min_left then .ok none
  else
    let named ← putsIf (!early) enlen (p.take len) named
    let out ← convert σ enlen named (p.drop len) (less f.left len)
    .ok (some ⟨out, less f.left (out.length - f.out.length)⟩)

def copyVar (enlen min_left : ℕ) : Str → Filled → Except Stop (Option Filled)
  | [], f => do
    let out ← put enlen f.out 0
    .ok (some ⟨out, less f.left 1⟩)
  | c :: p, f => do
    let out ← put enlen f.out c
    if less f.left 1 ≤ min_left then .ok none else copyVar enlen min_left p ⟨out, less f.left 1⟩

def copyOne (σ : Sys) (pconv : Option Str) (enlen min_left : ℕ) (p : Str) (f : Filled) :
    Except Stop (Option Filled) :=
  match listed pconv p with
  | some len => convertVar σ pconv.isNone enlen min_left p len f
  | none => copyVar enlen min_left p f

/-- How a pass ends: with all of a section, or with `goto need_more_core` and these variables left. -/
inductive Pass (α : Type)
  | done (a : α)
  | more (envp : List CStr)

def envLoop (σ : Sys) (pconv : Option Str) (enlen min_left : ℕ) :
    List CStr → Filled → Except Stop (Pass Filled)
  | [], f => .ok (.done f)
  | p :: envp, f =>
    match copyOne σ pconv enlen min_left p.1 f with
    | .error stop => .error stop
    | .ok none => .ok (.more (p :: envp))
    | .ok (some f) => envLoop σ pconv enlen min_left envp f

def digitLoop : ℕ → ℕ → Str → Str
  | 0, _, ds => ds
  | steps + 1, val, ds => if val = 0 then ds else digitLoop steps (val / 10) (digit (val % 10) :: ds)

def place (idx : ℕ) : Str := if idx = 0 then [48] else digitLoop idx idx []

/-- What stands in front of a place: `","`, or `"NULL:"` over the NUL of `"ARGV="`; `s` is at the NUL
behind it then. -/
def beginPlace (enlen : ℕ) (any : Bool) (out : Str) : Except Stop Str :=
  if any then put enlen out COMMA
  else (puts enlen (NULL ++ [0]) out.dropLast).map fun out => out.dropLast

def listEmpty (enlen idx : ℕ) (any : Bool) (f : Filled) : Except Stop Filled := do
  let out ← beginPlace enlen any f.out
  let out ← puts enlen (place idx) out
  .ok ⟨out, less (if any then f.left else less f.left 6) ((place idx).length + 2)⟩

/-- The loop over the arguments, for the empty ones; `any` stands for `null_params`. -/
def nullLoop (enlen min_left : ℕ) : List CStr → ℕ → Bool → Filled →
    Except Stop (Pass (Bool × Filled))
  | [], _, any, f => .ok (.done (any, f))
  | a :: ap, idx, any, f =>
    if a.1 = [] then
      match listEmpty enlen idx any f with
      | .error stop => .error stop
      | .ok f =>
        if f.left < min_left then .ok (.more []) else nullLoop enlen min_left ap (idx + 1) true f
    else nullLoop enlen min_left ap (idx + 1) any f

def shown (a : Str) : Str := if a = [] then [BLANK] else a

def argText (a : Str) : Str := shown a ++ [0]

def putArgs (enlen : ℕ) : List CStr → Str → Except Stop Str
  | [], out => .ok out
  | a :: argv, out => do
    let out ← puts enlen (argText a.1) out
    putArgs enlen argv out

/-- From `"ARGV="` on. -/
def argSection (enlen min_left : ℕ) (argv : List CStr) (f : Filled) : Except Stop (Pass Str) := do
  let out ← puts enlen (ARGV ++ [0]) f.out
  match ← nullLoop enlen min_left argv 0 false ⟨out, f.left⟩ with
  | .more envp => .ok (.more envp)
  | .done (any, f) => do
    let out ← putsIf any enlen [0] f.out
    let out ← putArgs enlen argv out
    let out ← puts enlen [0, 0] out
    .ok (.done out)

/-- What follows `try_again`, with a block of `enlen` bytes. -/
def pass (σ : Sys) (pconv : Option Str) (argv : List CStr) (enlen : ℕ) (envp : List CStr) :
    Except Stop (Pass Str) :=
  match envLoop σ pconv enlen (minLeft argv) envp ⟨[], enlen⟩ with
  | .error stop => .error stop
  | .ok (.more envp) => .ok (.more envp)
  | .ok (.done f) => argSection enlen (minLeft argv) argv f

/-- The loop over `try_again`; `none` stands for `ENOMEM`. -/
def build (σ : Sys) (memory : Memory) (pconv : Option Str) (argv : List CStr) :
    ℕ → ℕ → ℕ → List CStr → Except Stop (Option Str)
  | 0, _, _, _ => .error .steps
  | steps + 1, n, enlen, envp =>
    if memory.malloc n enlen then
      match pass σ pconv argv enlen envp with
      | .error stop => .error stop
      | .ok (.done block) => .ok (some block)
      | .ok (.more envp) => build σ memory pconv argv steps (n + 1) ((enlen + 1024) % 2 ^ 32) envp
    else .ok none

/-- The block for these arguments and variables. A size that is negative ends the loop. -/
def block (σ : Sys) (memory : Memory) (argv envp : List CStr) : Except Stop (Option Str) :=
  build σ memory (pconvert (envp.map fun p => p.1)) argv (2 ^ 21 + 1) 0 (firstSize argv envp) envp

/-- The loop over the arguments behind the first, for the command line. -/
def commandTail : List CStr → Str → Str
  | [], t => t
  | a :: argv, t =>
    let t := (t ++ if a.1 = [] then [QUOTE, QUOTE] else a.1).take TOS_ARGS
    commandTail argv ((if argv = [] then t else t ++ [BLANK]).take TOS_ARGS)

/-- `cmd`: the mark of the extended passing, and as much of the arguments as there is room for. -/
def commandLine (argv : List CStr) : Str :=
  let t := commandTail argv.tail []
  0x7f :: t ++ List.replicate (TOS_ARGS - t.length) 0

def flat (strings : List Str) : Str := strings.flatMap fun s => s ++ [0]

/-- The places of the empty arguments, from `idx` on. -/
def empties : ℕ → List CStr → List ℕ
  | _, [] => []
  | idx, a :: argv => if a.1 = [] then idx :: empties (idx + 1) argv else empties (idx + 1) argv

/-- The value of `ARGV`. -/
def nullList (argv : List CStr) : Str :=
  if empties 0 argv = [] then [] else NULL ++ [COMMA].intercalate ((empties 0 argv).map place)

/-- The block from `"ARGV="` on. -/
def argBlock (argv : List CStr) : Str :=
  ARGV ++ nullList argv ++ [0] ++ argv.flatMap (fun a => argText a.1) ++ [0, 0]

def Passed (σ : Sys) (pconv : Option Str) (p : CStr) (v : Str) : Prop :=
  match listed pconv p.1 with
  | none => v = p.1
  | some len => ∃ left t, pathUnx2dos σ (p.1.drop len) left = some t ∧ v = p.1.take len ++ t

section Shape

variable {σ : Sys} {pconv : Option Str} {enlen min_left : ℕ} {out out' text : Str}

theorem put_shape {c : UInt8} (h : put enlen out c = .ok out') :
    out' = out ++ [c] ∧ out'.length ≤ enlen := by
  rw [put] at h
  by_cases hroom : out.length < enlen
  · rw [if_pos hroom] at h
    rw [← Except.ok.inj h]
    exact ⟨rfl, by rw [List.length_append, List.length_singleton]; omega⟩
  · rw [if_neg hroom] at h
    exact absurd h (by simp)

theorem puts_length (hne : text ≠ []) (h : puts enlen text out = .ok out') :
    out'.length ≤ enlen := by
  induction text generalizing out with
  | nil => exact absurd rfl hne
  | cons c text ih =>
    obtain ⟨out₁, hput, hputs⟩ := bind_eq_ok h
    by_cases hnil : text = []
    · rw [hnil] at hputs
      rw [← Except.ok.inj hputs]
      exact (put_shape hput).2
    · exact ih hnil hputs

theorem puts_shape (h : puts enlen text out = .ok out') : out' = out ++ text := by
  induction text generalizing out with
  | nil =>
    rw [List.append_nil]
    exact (Except.ok.inj h).symm
  | cons c text ih =>
    obtain ⟨out₁, hput, hputs⟩ := bind_eq_ok h
    rw [ih hputs, (put_shape hput).1, List.append_assoc, List.singleton_append]

theorem convert_shape {value : Str} {len : ℕ} (h : convert σ enlen out value len = .ok out') :
    ∃ t, pathUnx2dos σ value len = some t ∧ out' = out ++ t ++ [0] := by
  rw [convert] at h
  cases ht : pathUnx2dos σ value len with
  | none =>
    rw [ht] at h
    exact absurd h (by simp)
  | some t =>
    rw [ht] at h
    simp only at h
    split at h
    · exact ⟨t, rfl, (Except.ok.inj h).symm⟩
    · exact absurd h (by simp)

theorem copyVar_shape {p : Str} {f f' : Filled} (h : copyVar enlen min_left p f = .ok (some f')) :
    f'.out = f.out ++ p ++ [0] := by
  induction p generalizing f with
  | nil =>
    obtain ⟨out, hput, hf⟩ := bind_eq_ok h
    rw [← Option.some.inj (Except.ok.inj hf), List.append_nil]
    exact (put_shape hput).1
  | cons c p ih =>
    obtain ⟨out, hput, hf⟩ := bind_eq_ok h
    split at hf
    · exact absurd (Except.ok.inj hf) (by simp)
    · rw [ih hf]
      show out ++ p ++ [0] = _
      rw [(put_shape hput).1, List.append_assoc, List.append_assoc, List.append_assoc,
        List.singleton_append, List.cons_append]

theorem convertVar_shape {early : Bool} {p : Str} {len : ℕ} {f f' : Filled}
    (h : convertVar σ early enlen min_left p len f = .ok (some f')) :
    ∃ t, pathUnx2dos σ (p.drop len) (less f.left len) = some t ∧
      f'.out = f.out ++ (p.take len ++ t) ++ [0] ∧
      f'.left = less f.left (f'.out.length - f.out.length) := by
  rw [convertVar] at h
  obtain ⟨named, hnamed, hrest⟩ := bind_eq_ok h
  split at hrest
  · exact absurd (Except.ok.inj hrest) (by simp)
  obtain ⟨named', hnamed', hrest⟩ := bind_eq_ok hrest
  obtain ⟨out, hconvert, hrest⟩ := bind_eq_ok hrest
  have hf := Option.some.inj (Except.ok.inj hrest)
  have hname : named' = f.out ++ p.take len := by
    cases early with
    | true => rw [← Except.ok.inj hnamed', puts_shape hnamed]
    | false => rw [puts_shape hnamed', ← Except.ok.inj hnamed]
  obtain ⟨t, ht, hout⟩ := convert_shape hconvert
  refine ⟨t, ht, ?_, ?_⟩
  · rw [← hf]
    show out = _
    rw [hout, hname, List.append_assoc f.out]
  · rw [← hf]

theorem copyOne_shape {p : CStr} {f f' : Filled}
    (h : copyOne σ pconv enlen min_left p.1 f = .ok (some f')) :
    ∃ v, Passed σ pconv p v ∧ f'.out = f.out ++ v ++ [0] := by
  rw [copyOne] at h
  cases hlisted : listed pconv p.1 with
  | none =>
    rw [hlisted] at h
    refine ⟨p.1, ?_, copyVar_shape h⟩
    rw [Passed, hlisted]
  | some len =>
    rw [hlisted] at h
    obtain ⟨t, ht, hout, -⟩ := convertVar_shape h
    refine ⟨p.1.take len ++ t, ?_, hout⟩
    rw [Passed, hlisted]
    exact ⟨_, t, ht, rfl⟩

theorem flat_cons (v : Str) (vs : List Str) : flat (v :: vs) = v ++ [0] ++ flat vs :=
  List.flatMap_cons

theorem envLoop_shape {envp : List CStr} {f f' : Filled}
    (h : envLoop σ pconv enlen min_left envp f = .ok (.done f')) :
    ∃ vs, List.Forall₂ (Passed σ pconv) envp vs ∧ f'.out = f.out ++ flat vs := by
  induction envp generalizing f with
  | nil =>
    rw [envLoop] at h
    cases h
    exact ⟨[], List.Forall₂.nil, (List.append_nil _).symm⟩
  | cons p envp ih =>
    rw [envLoop] at h
    cases hone : copyOne σ pconv enlen min_left p.1 f with
    | error stop =>
      rw [hone] at h
      exact absurd h (by simp)
    | ok one =>
      rw [hone] at h
      cases one with
      | none => exact absurd h (by simp)
      | some f₁ =>
        obtain ⟨v, hv, hout⟩ := copyOne_shape hone
        obtain ⟨vs, hvs, hout'⟩ := ih h
        refine ⟨v :: vs, List.Forall₂.cons hv hvs, ?_⟩
        rw [hout', hout, flat_cons, List.append_assoc f.out, List.append_assoc f.out]

/-- The value of `ARGV` as far as it has been written, with the NUL of `"ARGV="` at first. -/
def listText (places : List ℕ) : Str :=
  if places = [] then [0] else NULL ++ [COMMA].intercalate (places.map place)

theorem intercalate_snoc {sep : Str} {texts : List Str} (hne : texts ≠ []) (text : Str) :
    sep.intercalate (texts ++ [text]) = sep.intercalate texts ++ sep ++ text := by
  induction texts with
  | nil => exact absurd rfl hne
  | cons t texts ih =>
    by_cases hnil : texts = []
    · rw [hnil, List.singleton_append, List.intercalate_cons_of_ne_nil (List.cons_ne_nil _ _),
        List.intercalate_singleton, List.intercalate_singleton]
    · rw [List.cons_append, List.intercalate_cons_of_ne_nil (by simp),
        List.intercalate_cons_of_ne_nil hnil, ih hnil]
      simp only [List.append_assoc]

theorem listEmpty_shape {idx : ℕ} {base : Str} {places : List ℕ} {f f' : Filled}
    (hout : f.out = base ++ listText places)
    (h : listEmpty enlen idx (decide (places ≠ [])) f = .ok f') :
    f'.out = base ++ listText (places ++ [idx]) ∧
      f'.left = less (if places = [] then less f.left 6 else f.left) ((place idx).length + 2) := by
  rw [listEmpty] at h
  obtain ⟨out₁, hbegin, hrest⟩ := bind_eq_ok h
  obtain ⟨out₂, hplace, hrest⟩ := bind_eq_ok hrest
  have hf := Except.ok.inj hrest
  have happend : places ++ [idx] ≠ [] := by simp
  have hout₂ : out₂ = base ++ listText (places ++ [idx]) := by
    rw [puts_shape hplace, listText, if_neg happend]
    rw [beginPlace] at hbegin
    by_cases hnone : places = []
    · rw [hnone, if_neg (by simp)] at hbegin
      cases hputs : puts enlen (NULL ++ [0]) f.out.dropLast with
      | error stop =>
        rw [hputs] at hbegin
        exact absurd hbegin (by simp [Except.map])
      | ok out =>
        rw [hputs] at hbegin
        have hcut : out₁ = base ++ NULL := by
          rw [← Except.ok.inj hbegin, puts_shape hputs, hout, hnone, listText, if_pos rfl,
            List.dropLast_concat, ← List.append_assoc]
          exact List.dropLast_concat
        rw [hcut, hnone, List.nil_append, List.map_singleton, List.intercalate_singleton,
          List.append_assoc]
    · rw [if_pos (by simpa using hnone)] at hbegin
      rw [(put_shape hbegin).1, hout, listText, if_neg hnone, List.map_append,
        List.map_singleton, intercalate_snoc (by simpa using hnone)]
      simp only [List.append_assoc]
  rw [← hf]
  refine ⟨hout₂, ?_⟩
  by_cases hnone : places = []
  · rw [if_pos hnone, if_neg (by simpa using hnone)]
  · rw [if_neg hnone, if_pos (by simpa using hnone)]

theorem nullLoop_shape {base : Str} {argv : List CStr} {idx : ℕ} (places : List ℕ)
    {f f' : Filled} {any : Bool} (hout : f.out = base ++ listText places)
    (h : nullLoop enlen min_left argv idx (decide (places ≠ [])) f = .ok (.done (any, f'))) :
    any = decide (places ++ empties idx argv ≠ []) ∧
      f'.out = base ++ listText (places ++ empties idx argv) := by
  induction argv generalizing idx places f with
  | nil =>
    rw [nullLoop] at h
    cases h
    rw [empties, List.append_nil]
    exact ⟨rfl, hout⟩
  | cons a argv ih =>
    rw [nullLoop] at h
    rw [empties]
    by_cases hempty : a.1 = []
    · rw [if_pos hempty] at h ⊢
      cases hlist : listEmpty enlen idx (decide (places ≠ [])) f with
      | error stop =>
        rw [hlist] at h
        exact absurd h (by simp)
      | ok f₁ =>
        rw [hlist] at h
        simp only at h
        split at h
        · exact absurd h (by simp)
        have hmore : (true : Bool) = decide (places ++ [idx] ≠ []) := by simp
        rw [hmore] at h
        have hdone := ih _ (listEmpty_shape hout hlist).1 h
        rw [List.append_assoc, List.singleton_append] at hdone
        exact hdone
    · rw [if_neg hempty] at h ⊢
      exact ih places hout h

theorem putArgs_shape {argv : List CStr} (h : putArgs enlen argv out = .ok out') :
    out' = out ++ argv.flatMap fun a => argText a.1 := by
  induction argv generalizing out with
  | nil =>
    rw [List.flatMap_nil, List.append_nil]
    exact (Except.ok.inj h).symm
  | cons a argv ih =>
    obtain ⟨out₁, hputs, hrest⟩ := bind_eq_ok h
    rw [ih hrest, puts_shape hputs, List.flatMap_cons, List.append_assoc]

theorem argSection_shape {argv : List CStr} {f : Filled} {b : Str}
    (h : argSection enlen min_left argv f = .ok (.done b)) :
    b = f.out ++ argBlock argv ∧ b.length ≤ enlen := by
  rw [argSection] at h
  obtain ⟨out₁, hputs, hrest⟩ := bind_eq_ok h
  obtain ⟨listing, hnull, hrest⟩ := bind_eq_ok hrest
  cases listing with
  | more envp => exact absurd hrest (by simp)
  | done t =>
    obtain ⟨any, f'⟩ := t
    obtain ⟨out₂, hzero, hrest⟩ := bind_eq_ok hrest
    obtain ⟨out₃, hargs, hrest⟩ := bind_eq_ok hrest
    obtain ⟨out₄, hend, hrest⟩ := bind_eq_ok hrest
    have hb : out₄ = b := by
      injection Except.ok.inj hrest
    have hstart : out₁ = (f.out ++ ARGV) ++ listText [] := by
      rw [puts_shape hputs, listText, if_pos rfl, List.append_assoc]
    obtain ⟨hany, hout⟩ := nullLoop_shape [] hstart hnull
    rw [List.nil_append] at hany hout
    have hlist : out₂ = f.out ++ ARGV ++ nullList argv ++ [0] := by
      by_cases hnone : empties 0 argv = []
      · rw [hany, hnone] at hzero
        rw [hnone] at hout
        rw [← Except.ok.inj hzero]
        show f'.out = _
        rw [hout, nullList, if_pos hnone, listText, if_pos rfl, List.append_nil]
      · rw [hany, putsIf, if_pos (by simpa using hnone)] at hzero
        rw [puts_shape hzero]
        show f'.out ++ _ = _
        rw [hout, nullList, if_neg hnone, listText, if_neg hnone]
    rw [← hb]
    refine ⟨?_, puts_length (by simp) hend⟩
    rw [puts_shape hend, putArgs_shape hargs, hlist, argBlock]
    simp only [List.append_assoc]

/-- A pass that comes to its end writes a string for each of its variables, and the arguments. -/
theorem pass_shape {argv envp : List CStr} {b : Str}
    (h : pass σ pconv argv enlen envp = .ok (.done b)) :
    ∃ vs, List.Forall₂ (Passed σ pconv) envp vs ∧ b = flat vs ++ argBlock argv ∧
      b.length ≤ enlen := by
  rw [pass] at h
  cases hloop : envLoop σ pconv enlen (minLeft argv) envp ⟨[], enlen⟩ with
  | error stop =>
    rw [hloop] at h
    exact absurd h (by simp)
  | ok p =>
    rw [hloop] at h
    cases p with
    | more envp => exact absurd h (by simp)
    | done f =>
      obtain ⟨vs, hvs, hout⟩ := envLoop_shape hloop
      obtain ⟨hb, hlength⟩ := argSection_shape h
      refine ⟨vs, hvs, ?_, hlength⟩
      rw [hb, hout, List.nil_append]

theorem envLoop_more {envp rest : List CStr} {f : Filled}
    (h : envLoop σ pconv enlen min_left envp f = .ok (.more rest)) : rest <:+ envp := by
  induction envp generalizing f with
  | nil => exact absurd h (by simp [envLoop])
  | cons p envp ih =>
    rw [envLoop] at h
    cases hone : copyOne σ pconv enlen min_left p.1 f with
    | error stop =>
      rw [hone] at h
      exact absurd h (by simp)
    | ok one =>
      rw [hone] at h
      cases one with
      | none =>
        have hrest : p :: envp = rest := by injection Except.ok.inj h
        rw [hrest]
      | some f₁ => exact (ih h).trans (List.suffix_cons p envp)

theorem nullLoop_more {argv rest : List CStr} {idx : ℕ} {any : Bool} {f : Filled}
    (h : nullLoop enlen min_left argv idx any f = .ok (.more rest)) : rest = [] := by
  induction argv generalizing idx any f with
  | nil => exact absurd h (by simp [nullLoop])
  | cons a argv ih =>
    rw [nullLoop] at h
    by_cases hempty : a.1 = []
    · rw [if_pos hempty] at h
      cases hlist : listEmpty enlen idx any f with
      | error stop =>
        rw [hlist] at h
        exact absurd h (by simp)
      | ok f₁ =>
        rw [hlist] at h
        simp only at h
        split at h
        · injection Except.ok.inj h with hrest
          exact hrest.symm
        · exact ih h
    · rw [if_neg hempty] at h
      exact ih h

theorem argSection_more {argv rest : List CStr} {f : Filled}
    (h : argSection enlen min_left argv f = .ok (.more rest)) : rest = [] := by
  rw [argSection] at h
  obtain ⟨out₁, -, hrest⟩ := bind_eq_ok h
  obtain ⟨listing, hnull, hrest⟩ := bind_eq_ok hrest
  cases listing with
  | more envp =>
    injection Except.ok.inj hrest with henvp
    rw [← henvp]
    exact nullLoop_more hnull
  | done t =>
    obtain ⟨out₂, -, hrest⟩ := bind_eq_ok hrest
    obtain ⟨out₃, -, hrest⟩ := bind_eq_ok hrest
    obtain ⟨out₄, -, hrest⟩ := bind_eq_ok hrest
    exact absurd (Except.ok.inj hrest) (by simp)

theorem pass_more {argv envp rest : List CStr}
    (h : pass σ pconv argv enlen envp = .ok (.more rest)) : rest <:+ envp := by
  rw [pass] at h
  cases hloop : envLoop σ pconv enlen (minLeft argv) envp ⟨[], enlen⟩ with
  | error stop =>
    rw [hloop] at h
    exact absurd h (by simp)
  | ok p =>
    rw [hloop] at h
    cases p with
    | more left =>
      injection Except.ok.inj h with hleft
      rw [← hleft]
      exact envLoop_more hloop
    | done f =>
      rw [argSection_more h]
      exact List.nil_suffix

theorem build_shape {memory : Memory} {argv envp : List CStr} {steps n : ℕ} {b : Str}
    (h : build σ memory pconv argv steps n enlen envp = .ok (some b)) :
    ∃ n' enlen' rest, rest <:+ envp ∧ memory.malloc n' enlen' = true ∧
      pass σ pconv argv enlen' rest = .ok (.done b) := by
  induction steps generalizing n enlen envp with
  | zero => exact absurd h (by simp [build])
  | succ steps ih =>
    rw [build] at h
    by_cases hmalloc : memory.malloc n enlen = true
    · rw [if_pos hmalloc] at h
      cases hpass : pass σ pconv argv enlen envp with
      | error stop =>
        rw [hpass] at h
        exact absurd h (by simp)
      | ok p =>
        rw [hpass] at h
        cases p with
        | done b' =>
          have hb : b' = b := Option.some.inj (Except.ok.inj h)
          rw [hb] at hpass
          exact ⟨n, enlen, envp, List.suffix_rfl, hmalloc, hpass⟩
        | more rest =>
          obtain ⟨n', enlen', rest', hsuffix, hgot, hlast⟩ := ih h
          exact ⟨n', enlen', rest', hsuffix.trans (pass_more hpass), hgot, hlast⟩
    · rw [if_neg hmalloc] at h
      exact absurd (Except.ok.inj h) (by simp)

end Shape

end Mintlib.Spawn
