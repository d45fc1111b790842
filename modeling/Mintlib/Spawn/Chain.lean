import Mintlib.Spawn.Retry
import Mintlib.Script
import Mintlib.Symlink
import Mintlib.Posix

/-!
# From script to interpreter: `_spawnve` and `interpret_script`

`_spawnve` calls `interpret_script` for a file that is no program, and is called by it for the
interpreter, which may be a script again, or the same. Nothing counts the scripts; but every one of
them makes the arguments longer, and all of them have to be in the block.
-/

namespace Mintlib.Spawn

open Text Unx2dos Stores Posix Checked
open StartUp (PATH pconvert names)
open Script (interpretScript)

inductive Mode
  | P_WAIT
  | P_NOWAIT
  | P_OVERLAY
  | unknown
deriving DecidableEq

/-- The mode for `Pexec`. -/
def Mode.number : Mode → ℤ
  | .P_NOWAIT => 100
  | .P_OVERLAY => 200
  | _ => 0

/-- What does not change from one file to the next: the names, `getenv("UNIXMODE")` and the
variables. -/
structure Setting where
  names : Sys
  unixNames : Bool
  unixmode : Option Str
  envp : List CStr

/-- What is met on the way: what `_buffindfile` finds, what `Fopen` and `Fread` give, the bytes in
`buf` before, whether there is memory for the block and for the vector, and what `Pexec` answers. -/
structure Replies where
  findfile : Str → Option CStr
  file : Str → Except ℤ Script.Text
  junk : Script.Local
  memory : Memory
  vector : Bool
  Pexec : ℤ → Str → Str → Str → ℤ

structure Call where
  path : CStr
  argv : List CStr

/-- How it ends: with a result and `errno`, or with the process. -/
inductive Ended
  | returned (rv : ℤ) (errno : Option ℤ)
  | exited (rv : ℤ)

/-- Scripts are run unless `UNIXMODE` has no `s`. -/
def Setting.RunsScripts (setting : Setting) : Prop := ∀ unixmode ∈ setting.unixmode, 115 ∈ unixmode

instance (setting : Setting) : Decidable setting.RunsScripts := by
  unfold Setting.RunsScripts
  exact inferInstance

def string (s : Str) : CStr := ⟨cstr s, cstr_clean s⟩

/-- `interpret_script` up to its call of `_spawnve`. -/
def interpret (replies : Replies) (path : Str) (call : Call) : Except Stop (Ended ⊕ Call) := do
  match ← interpretScript (fun name => (replies.findfile name).map Subtype.val) replies.vector
      (replies.file path) replies.junk call.path.1 (call.argv.map Subtype.val) with
  | .error errno => .ok (.inl (.returned (-1) (some errno)))
  | .spawn shell shellargv => .ok (.inr ⟨string shell, shellargv.map string⟩)

/-- `_spawnve`, up to the next call of itself. -/
def spawnve (setting : Setting) (replies : Replies) (mode : Mode) (call : Call) :
    Except Stop (Ended ⊕ Call) :=
  if mode = .unknown then .ok (.inl (.returned (-1) (some EINVAL)))
  else
    match Symlink.kernelPath setting.names setting.unixNames call.path.1 with
    | none => .error .bounds
    | some path => do
      match ← block setting.names replies.memory call.argv setting.envp with
      | none => .ok (.inl (.returned (-1) (some ENOMEM)))
      | some env =>
        let rval := replies.Pexec mode.number path (commandLine call.argv) env
        if rval < 0 then
          if rval = -ENOEXEC ∧ setting.RunsScripts then interpret replies path call
          else .ok (.inl (.returned (-1) (some (-rval))))
        else if mode = .P_OVERLAY then .ok (.inl (.exited rval))
        else .ok (.inl (.returned rval none))

/-- All of the calls, one inside the other, from the `n`th on; there is one `Pexec` in each. -/
def resolve (setting : Setting) (replies : ℕ → Replies) (mode : Mode) :
    ℕ → ℕ → Call → Except Stop Ended
  | 0, _, _ => .error .steps
  | steps + 1, n, call => do
    match ← spawnve setting (replies n) mode call with
    | .inl ended => .ok ended
    | .inr call => resolve setting replies mode steps (n + 1) call

/-- It does not go on for ever: it comes to its end, or a store outside the memory ends it. -/
def Ends {α : Type} (x : Except Stop α) : Prop := x ≠ .error .steps

theorem Ends.ok {α : Type} (a : α) : Ends (Except.ok a : Except Stop α) := fun h => nomatch h

theorem Ends.bounds {α : Type} : Ends (Except.error .bounds : Except Stop α) := fun h => nomatch h

theorem Ends.bind {α β : Type} {x : Except Stop α} {f : α → Except Stop β} (hx : Ends x)
    (hf : ∀ a, x = .ok a → Ends (f a)) : Ends (x >>= f) := by
  cases x with
  | error stop =>
    intro h
    exact hx (congrArg Except.error (Except.error.inj h))
  | ok a => exact hf a rfl

section Block

variable {σ : Sys} {pconv : Option Str} {enlen min_left : ℕ} {out : Str}

theorem put_ends (enlen : ℕ) (out : Str) (c : UInt8) : Ends (put enlen out c) := by
  unfold put
  split
  · exact Ends.ok _
  · exact Ends.bounds

theorem puts_ends (enlen : ℕ) (text out : Str) : Ends (puts enlen text out) := by
  induction text generalizing out with
  | nil => exact Ends.ok _
  | cons c text ih => exact (put_ends enlen out c).bind fun out _ => ih out

theorem putsIf_ends (cond : Bool) (enlen : ℕ) (text out : Str) :
    Ends (putsIf cond enlen text out) := by
  unfold putsIf
  split
  · exact puts_ends enlen text out
  · exact Ends.ok _

theorem convert_ends (σ : Sys) (enlen : ℕ) (out value : Str) (len : ℕ) :
    Ends (convert σ enlen out value len) := by
  unfold convert
  split
  · exact Ends.bounds
  · split
    · exact Ends.ok _
    · exact Ends.bounds

theorem convertVar_ends (σ : Sys) (early : Bool) (enlen min_left : ℕ) (p : Str) (len : ℕ)
    (f : Filled) : Ends (convertVar σ early enlen min_left p len f) := by
  unfold convertVar
  refine (putsIf_ends _ _ _ _).bind fun named _ => ?_
  split
  · exact Ends.ok _
  · refine (putsIf_ends _ _ _ _).bind fun named _ => ?_
    exact (convert_ends σ enlen named _ _).bind fun out _ => Ends.ok _

theorem copyVar_ends (enlen min_left : ℕ) (p : Str) (f : Filled) :
    Ends (copyVar enlen min_left p f) := by
  induction p generalizing f with
  | nil => exact (put_ends enlen f.out 0).bind fun out _ => Ends.ok _
  | cons c p ih =>
    refine (put_ends enlen f.out c).bind fun out _ => ?_
    split
    · exact Ends.ok _
    · exact ih _

theorem copyOne_ends (σ : Sys) (pconv : Option Str) (enlen min_left : ℕ) (p : Str) (f : Filled) :
    Ends (copyOne σ pconv enlen min_left p f) := by
  unfold copyOne
  split
  · exact convertVar_ends σ _ enlen min_left p _ f
  · exact copyVar_ends enlen min_left p f

theorem envLoop_ends (σ : Sys) (pconv : Option Str) (enlen min_left : ℕ) (envp : List CStr)
    (f : Filled) : Ends (envLoop σ pconv enlen min_left envp f) := by
  induction envp generalizing f with
  | nil => exact Ends.ok _
  | cons p envp ih =>
    have hone := copyOne_ends σ pconv enlen min_left p.1 f
    rw [envLoop]
    cases hcopy : copyOne σ pconv enlen min_left p.1 f with
    | error stop =>
      rw [hcopy] at hone
      intro h
      exact hone (congrArg Except.error (Except.error.inj h))
    | ok copied =>
      cases copied with
      | none => exact Ends.ok _
      | some f => exact ih f

theorem beginPlace_ends (enlen : ℕ) (any : Bool) (out : Str) : Ends (beginPlace enlen any out) := by
  unfold beginPlace
  split
  · exact put_ends enlen out COMMA
  · have hputs := puts_ends enlen (NULL ++ [0]) out.dropLast
    cases h : puts enlen (NULL ++ [0]) out.dropLast with
    | error stop =>
      rw [h] at hputs
      intro hmap
      exact hputs (congrArg Except.error (Except.error.inj hmap))
    | ok out => exact Ends.ok _

theorem listEmpty_ends (enlen idx : ℕ) (any : Bool) (f : Filled) :
    Ends (listEmpty enlen idx any f) := by
  unfold listEmpty
  refine (beginPlace_ends enlen any f.out).bind fun out _ => ?_
  exact (puts_ends enlen (place idx) out).bind fun out _ => Ends.ok _

theorem nullLoop_ends (enlen min_left : ℕ) (argv : List CStr) (idx : ℕ) (any : Bool) (f : Filled) :
    Ends (nullLoop enlen min_left argv idx any f) := by
  induction argv generalizing idx any f with
  | nil => exact Ends.ok _
  | cons a argv ih =>
    rw [nullLoop]
    by_cases hempty : a.1 = []
    · rw [if_pos hempty]
      have hlist := listEmpty_ends enlen idx any f
      cases h : listEmpty enlen idx any f with
      | error stop =>
        rw [h] at hlist
        intro heq
        exact hlist (congrArg Except.error (Except.error.inj heq))
      | ok f =>
        dsimp only
        split
        · exact Ends.ok _
        · exact ih _ _ _
    · rw [if_neg hempty]
      exact ih _ _ _

theorem putArgs_ends (enlen : ℕ) (argv : List CStr) (out : Str) :
    Ends (putArgs enlen argv out) := by
  induction argv generalizing out with
  | nil => exact Ends.ok _
  | cons a argv ih => exact (puts_ends enlen (argText a.1) out).bind fun out _ => ih out

theorem argSection_ends (enlen min_left : ℕ) (argv : List CStr) (f : Filled) :
    Ends (argSection enlen min_left argv f) := by
  unfold argSection
  refine (puts_ends enlen _ _).bind fun out _ => ?_
  refine (nullLoop_ends enlen min_left argv 0 false _).bind fun listing _ => ?_
  cases listing with
  | more envp => exact Ends.ok _
  | done t =>
    refine (putsIf_ends _ _ _ _).bind fun out _ => ?_
    refine (putArgs_ends enlen argv out).bind fun out _ => ?_
    exact (puts_ends enlen _ out).bind fun out _ => Ends.ok _

theorem pass_ends (σ : Sys) (pconv : Option Str) (argv : List CStr) (enlen : ℕ)
    (envp : List CStr) : Ends (pass σ pconv argv enlen envp) := by
  have hloop := envLoop_ends σ pconv enlen (minLeft argv) envp ⟨[], enlen⟩
  unfold pass
  cases h : envLoop σ pconv enlen (minLeft argv) envp ⟨[], enlen⟩ with
  | error stop =>
    rw [h] at hloop
    intro heq
    exact hloop (congrArg Except.error (Except.error.inj heq))
  | ok p =>
    cases p with
    | more envp => exact Ends.ok _
    | done f => exact argSection_ends enlen (minLeft argv) argv f

theorem build_ends (memory : Memory) (argv : List CStr) {steps : ℕ} (n : ℕ) (envp : List CStr)
    (hpos : 0 < steps) (hsteps : 2 ^ 31 ≤ enlen + (steps - 1) * 1024) :
    Ends (build σ memory pconv argv steps n enlen envp) := by
  induction steps generalizing n enlen envp with
  | zero => exact absurd hpos (lt_irrefl 0)
  | succ steps ih =>
    rw [build]
    by_cases hmalloc : memory.malloc n enlen = true
    · have hsize := memory.signed n enlen hmalloc
      rw [if_pos hmalloc]
      have hpass := pass_ends σ pconv argv enlen envp
      cases h : pass σ pconv argv enlen envp with
      | error stop =>
        rw [h] at hpass
        intro heq
        exact hpass (congrArg Except.error (Except.error.inj heq))
      | ok p =>
        cases p with
        | done b => exact Ends.ok _
        | more envp =>
          have hnext : (enlen + 1024) % 2 ^ 32 = enlen + 1024 := Nat.mod_eq_of_lt (by omega)
          dsimp only
          rw [hnext]
          refine ih (n + 1) envp ?_ ?_ <;> omega
    · rw [if_neg hmalloc]
      exact Ends.ok _

theorem block_ends (σ : Sys) (memory : Memory) (argv envp : List CStr) :
    Ends (block σ memory argv envp) := by
  unfold block
  refine build_ends memory argv 0 envp (Nat.succ_pos _) ?_
  have hsteps : (2 ^ 21 + 1 - 1) * 1024 = 2 ^ 31 := by norm_num
  rw [hsteps]
  exact Nat.le_add_left _ _

end Block

section Line

variable {P : UInt8 → Bool} {buf buf' : Str} {c : UInt8} {i j steps : ℕ}

theorem load_ends (buf : Str) (i : ℕ) : Ends (load buf i) := by
  unfold load
  split
  · exact Ends.ok _
  · exact Ends.bounds

theorem load_lt (h : load buf i = .ok c) : i < buf.length := by
  unfold load at h
  split at h
  · next hget => exact (List.getElem?_eq_some_iff.mp hget).1
  · cases h

theorem store_ends (buf : Str) (i : ℕ) (c : UInt8) : Ends (store buf i c) := by
  unfold store
  split
  · exact Ends.ok _
  · exact Ends.bounds

theorem store_length (h : store buf i c = .ok buf') : buf'.length = buf.length := by
  unfold store at h
  split at h
  · rw [← Except.ok.inj h, List.length_set]
  · cases h

theorem skip_ends (P : UInt8 → Bool) (hi : i ≤ buf.length) (hsteps : buf.length < i + steps) :
    Ends (Script.skip P buf steps i) := by
  induction steps generalizing i with
  | zero => omega
  | succ steps ih =>
    refine (load_ends buf i).bind fun c hc => ?_
    have hlt := load_lt hc
    split
    · exact ih (by omega) (by omega)
    · exact Ends.ok _

theorem skip_ok (h : Script.skip P buf steps i = .ok j) :
    i ≤ j ∧ j < buf.length ∧ ∀ c, load buf i = .ok c → P c = true → i < j := by
  induction steps generalizing i with
  | zero => cases h
  | succ steps ih =>
    obtain ⟨c, hc, h⟩ := bind_eq_ok h
    have hlt := load_lt hc
    split at h
    · obtain ⟨hle, hj, -⟩ := ih h
      exact ⟨by omega, hj, fun d _ _ => by omega⟩
    · next hP =>
      rw [← Except.ok.inj h]
      refine ⟨le_rfl, hlt, fun d hd hPd => ?_⟩
      rw [hc] at hd
      rw [Except.ok.inj hd] at hP
      exact absurd hPd hP

theorem copyWord_ends {argp : ℕ} (hi : i ≤ buf.length) (hsteps : buf.length < i + steps) :
    Ends (Script.copyWord steps buf i argp) := by
  induction steps generalizing i buf argp with
  | zero => omega
  | succ steps ih =>
    refine (load_ends buf i).bind fun c hc => ?_
    have hlt := load_lt hc
    split
    · refine (store_ends buf argp c).bind fun buf' hput => ?_
      have hlength := store_length hput
      exact ih (by omega) (by omega)
    · exact Ends.ok _

theorem copyWord_ok {argp argp' : ℕ} (h : Script.copyWord steps buf i argp = .ok (buf', j, argp')) :
    buf'.length = buf.length ∧ i ≤ j ∧ j < buf.length ∧
      ∀ c, load buf i = .ok c → Script.isWord c = true → i < j := by
  induction steps generalizing i buf argp with
  | zero => cases h
  | succ steps ih =>
    obtain ⟨c, hc, h⟩ := bind_eq_ok h
    have hlt := load_lt hc
    split at h
    · obtain ⟨buf₁, hput, h⟩ := bind_eq_ok h
      have hlength := store_length hput
      obtain ⟨hlength', hle, hj, -⟩ := ih h
      exact ⟨by omega, by omega, by omega, fun d _ _ => by omega⟩
    · next hword =>
      cases h
      refine ⟨rfl, le_rfl, hlt, fun d hd hwordd => ?_⟩
      rw [hc] at hd
      rw [Except.ok.inj hd] at hword
      exact absurd hwordd hword

/-- The end of one argument lies behind its beginning: blanks are skipped, or a word is moved. -/
theorem argument_progress {bufp argp argp' : ℕ} (hc : load buf i = .ok c)
    (hend : ¬ Script.isEnd c = true) (hskip : Script.skip Script.isBlank buf (Script.BUF + 1) i = .ok j)
    (hcopy : Script.copyWord (Script.BUF + 1) buf j argp = .ok (buf', bufp, argp')) : i < bufp := by
  obtain ⟨hle, -, hblank⟩ := skip_ok hskip
  obtain ⟨-, hle', -, hword⟩ := copyWord_ok hcopy
  by_cases hc' : Script.isBlank c = true
  · have := hblank c hc hc'
    omega
  · rcases Nat.lt_or_ge i j with hlt | hge
    · omega
    · have heq : j = i := by omega
      have hisWord : Script.isWord c = true := decide_eq_true ⟨hc', hend⟩
      have := hword c (heq ▸ hc) hisWord
      omega

theorem argLoop_ends {argp n : ℕ} (hsize : buf.length = Script.BUF) (hi : i ≤ buf.length)
    (hsteps : buf.length < i + steps) : Ends (Script.argLoop steps buf i argp n) := by
  induction steps generalizing i buf argp n with
  | zero => omega
  | succ steps ih =>
    refine (load_ends buf i).bind fun c hc => ?_
    have hlt := load_lt hc
    split
    · exact Ends.ok _
    · next hend =>
      refine (skip_ends _ hi (by omega)).bind fun j hskip => ?_
      obtain ⟨-, hj, -⟩ := skip_ok hskip
      refine (load_ends buf j).bind fun d _ => ?_
      split
      · exact Ends.ok _
      · refine (copyWord_ends hj.le (by omega)).bind fun moved hcopy => ?_
        obtain ⟨buf₁, bufp, argp₁⟩ := moved
        obtain ⟨hlength, -, hbufp, -⟩ := copyWord_ok hcopy
        have hprogress := argument_progress hc hend hskip hcopy
        refine (store_ends buf₁ argp₁ 0).bind fun buf₂ hput => ?_
        have hlength₂ := store_length hput
        exact ih (by omega) (by omega) (by omega)

theorem argLoop_length {argp argp' n n' : ℕ}
    (h : Script.argLoop steps buf i argp n = .ok (buf', argp', n')) : buf'.length = buf.length := by
  induction steps generalizing i buf argp n with
  | zero => cases h
  | succ steps ih =>
    obtain ⟨c, -, h⟩ := bind_eq_ok h
    split at h
    · cases h
      rfl
    · obtain ⟨j, -, h⟩ := bind_eq_ok h
      obtain ⟨d, -, h⟩ := bind_eq_ok h
      split at h
      · cases h
        rfl
      · obtain ⟨⟨buf₁, bufp, argp₁⟩, hcopy, h⟩ := bind_eq_ok h
        obtain ⟨buf₂, hput, h⟩ := bind_eq_ok h
        rw [ih h, store_length hput, (copyWord_ok hcopy).1]

theorem cutShell_ends (buf : Str) (i : ℕ) : Ends (Script.cutShell buf i) := by
  refine (load_ends buf i).bind fun c _ => ?_
  split
  · exact Ends.ok _
  · exact (store_ends buf i 0).bind fun buf _ => Ends.ok _

theorem cutShell_ok (h : Script.cutShell buf i = .ok (buf', j)) :
    buf'.length = buf.length ∧ j ≤ buf.length := by
  obtain ⟨c, hc, h⟩ := bind_eq_ok h
  have hlt := load_lt hc
  split at h
  · cases h
    exact ⟨rfl, hlt.le⟩
  · obtain ⟨buf₁, hput, h⟩ := bind_eq_ok h
    cases h
    exact ⟨store_length hput, hlt⟩

theorem parse_ends (hsize : buf.length = Script.BUF) : Ends (Script.parse buf) := by
  have hbuf : Script.BUF = 1024 := rfl
  refine (skip_ends _ (by omega) (by omega)).bind fun shell hshell => ?_
  obtain ⟨-, hlt, -⟩ := skip_ok hshell
  refine (skip_ends _ hlt.le (by omega)).bind fun bufp _ => ?_
  refine (cutShell_ends buf bufp).bind fun cut hcut => ?_
  obtain ⟨buf₁, shellargs⟩ := cut
  obtain ⟨hlength, hargs⟩ := cutShell_ok hcut
  refine (argLoop_ends (hlength.trans hsize) (by omega) (by omega)).bind fun moved _ => ?_
  exact (store_ends moved.1 moved.2.1 0).bind fun buf _ => Ends.ok _

theorem parse_ok {parsed : Script.Parsed} (hsize : buf.length = Script.BUF)
    (h : Script.parse buf = .ok parsed) :
    parsed.buf.length = Script.BUF ∧ parsed.shellargs ≤ Script.BUF := by
  obtain ⟨shell, -, h⟩ := bind_eq_ok h
  obtain ⟨bufp, -, h⟩ := bind_eq_ok h
  obtain ⟨⟨buf₁, shellargs⟩, hcut, h⟩ := bind_eq_ok h
  obtain ⟨⟨buf₂, argp, n⟩, hloop, h⟩ := bind_eq_ok h
  obtain ⟨buf₃, hput, h⟩ := bind_eq_ok h
  obtain ⟨hlength, hargs⟩ := cutShell_ok hcut
  cases h
  refine ⟨?_, hsize ▸ hargs⟩
  show buf₃.length = Script.BUF
  rw [store_length hput, argLoop_length hloop, hlength, hsize]

theorem push_ends (room : ℕ) (v : List Str) (a : Str) : Ends (Script.push room v a) := by
  unfold Script.push
  split
  · exact Ends.ok _
  · exact Ends.bounds

theorem push_ok {room : ℕ} {v v' : List Str} {a : Str} (h : Script.push room v a = .ok v') :
    v' = v ++ [a] := by
  unfold Script.push at h
  split at h
  · exact (Except.ok.inj h).symm
  · cases h

theorem pushAll_ends (room : ℕ) (argv v : List Str) : Ends (Script.pushAll room argv v) := by
  induction argv generalizing v with
  | nil =>
    unfold Script.pushAll
    split
    · exact Ends.ok _
    · exact Ends.bounds
  | cons a argv ih => exact (push_ends room v a).bind fun v _ => ih v

theorem pushAll_ok {room : ℕ} {argv v v' : List Str} (h : Script.pushAll room argv v = .ok v') :
    v' = v ++ argv := by
  induction argv generalizing v with
  | nil =>
    unfold Script.pushAll at h
    split at h
    · rw [← Except.ok.inj h, List.append_nil]
    · cases h
  | cons a argv ih =>
    obtain ⟨v₁, hpush, h⟩ := bind_eq_ok h
    rw [ih h, push_ok hpush, List.append_assoc, List.singleton_append]

theorem collect_ends {room : ℕ} {v : List Str} (hsize : buf.length = Script.BUF)
    (hi : i ≤ buf.length) (hsteps : buf.length < i + steps) :
    Ends (Script.collect room buf steps i v) := by
  induction steps generalizing i v with
  | zero => omega
  | succ steps ih =>
    refine (load_ends buf i).bind fun c _ => ?_
    split
    · exact Ends.ok _
    · refine (push_ends room v _).bind fun v _ => ?_
      refine (skip_ends _ hi (by omega)).bind fun next hskip => ?_
      obtain ⟨hle, hnext, -⟩ := skip_ok hskip
      exact ih (by omega) (by omega)

theorem collect_ok {room : ℕ} {v v' : List Str} (h : Script.collect room buf steps i v = .ok v') :
    ∃ args, v' = v ++ args := by
  induction steps generalizing i v with
  | zero => cases h
  | succ steps ih =>
    obtain ⟨c, -, h⟩ := bind_eq_ok h
    split at h
    · exact ⟨[], by rw [← Except.ok.inj h, List.append_nil]⟩
    · obtain ⟨v₁, hpush, h⟩ := bind_eq_ok h
      obtain ⟨next, -, h⟩ := bind_eq_ok h
      obtain ⟨args, hargs⟩ := ih h
      refine ⟨cstr (buf.drop i) :: args, ?_⟩
      rw [hargs, push_ok hpush, List.append_assoc, List.singleton_append]

theorem vector_ends {room : ℕ} {parsed : Script.Parsed} {shell path : Str} {argv : List Str}
    (hsize : parsed.buf.length = Script.BUF) (hargs : parsed.shellargs ≤ Script.BUF) :
    Ends (Script.build room parsed shell path argv) := by
  refine (push_ends room [] shell).bind fun v _ => ?_
  refine (collect_ends hsize (by omega) (by omega)).bind fun v _ => ?_
  refine (push_ends room v path).bind fun v _ => ?_
  cases argv with
  | nil => exact Ends.bounds
  | cons a argv => exact pushAll_ends room argv v

theorem vector_ok {room : ℕ} {parsed : Script.Parsed} {shell path : Str} {argv v : List Str}
    (h : Script.build room parsed shell path argv = .ok v) :
    ∃ args, v = shell :: args ++ path :: argv.tail := by
  obtain ⟨v₁, hshell, h⟩ := bind_eq_ok h
  obtain ⟨v₂, hcollect, h⟩ := bind_eq_ok h
  obtain ⟨v₃, hpath, h⟩ := bind_eq_ok h
  obtain ⟨args, hargs⟩ := collect_ok hcollect
  cases argv with
  | nil => cases h
  | cons a argv =>
    refine ⟨args, ?_⟩
    rw [pushAll_ok h, push_ok hpath, hargs, push_ok hshell, List.tail_cons]
    simp only [List.nil_append, List.append_assoc, List.cons_append]

end Line

section Calls

variable {setting : Setting} {replies : Replies} {mode : Mode} {call call' : Call}

theorem string_val (s : CStr) : string s.1 = s := Subtype.ext (cstr_of_clean s.2)

theorem interpret_ends (replies : Replies) (path : Str) (call : Call) :
    Ends (interpret replies path call) := by
  have hscript : Ends (interpretScript (fun name => (replies.findfile name).map Subtype.val)
      replies.vector (replies.file path) replies.junk call.path.1 (call.argv.map Subtype.val)) := by
    unfold interpretScript
    cases replies.file path with
    | error errno => exact Ends.ok _
    | ok text =>
      have hsize : (text.1 ++ 0 :: replies.junk.1.drop (text.1.length + 1)).length = Script.BUF := by
        have htext := text.2
        have hjunk := replies.junk.2
        have hbuf : Script.BUF = 1024 := rfl
        rw [List.length_append, List.length_cons, List.length_drop]
        omega
      dsimp only
      split
      · refine (parse_ends hsize).bind fun parsed hparse => ?_
        obtain ⟨hbuf, hargs⟩ := parse_ok hsize hparse
        split
        · exact Ends.ok _
        · split
          · exact Ends.ok _
          · split
            · exact (vector_ends hbuf hargs).bind fun v _ => Ends.ok _
            · exact Ends.ok _
      · exact Ends.ok _
  unfold interpret
  refine hscript.bind fun answer _ => ?_
  cases answer with
  | error errno => exact Ends.ok _
  | spawn shell shellargv => exact Ends.ok _

/-- The next call is for the interpreter; the script and all that came behind it are among the
arguments. -/
theorem interpret_next {path : Str} (h : interpret replies path call = .ok (.inr call')) :
    ∃ args, call'.argv = call'.path :: args ++ call.path :: call.argv.tail := by
  unfold interpret at h
  obtain ⟨answer, hanswer, h⟩ := bind_eq_ok h
  cases answer with
  | error errno => cases h
  | spawn shell shellargv =>
    have hcall : call' = ⟨string shell, shellargv.map string⟩ := Sum.inr.inj (Except.ok.inj h).symm
    have hvector : ∃ args,
        shellargv = shell :: args ++ call.path.1 :: (call.argv.map Subtype.val).tail := by
      unfold interpretScript at hanswer
      split at hanswer
      · cases hanswer
      · dsimp only at hanswer
        split at hanswer
        · obtain ⟨parsed, -, hanswer⟩ := bind_eq_ok hanswer
          split at hanswer
          · cases hanswer
          · split at hanswer
            · cases hanswer
            · split at hanswer
              · obtain ⟨v, hv, hanswer⟩ := bind_eq_ok hanswer
                cases hanswer
                exact vector_ok hv
              · cases hanswer
        · cases hanswer
    obtain ⟨args, hargs⟩ := hvector
    refine ⟨args.map string, ?_⟩
    have hback : ∀ l : List CStr, (l.map Subtype.val).map string = l := by
      intro l
      rw [List.map_map]
      exact List.map_id'' (f := string ∘ Subtype.val) string_val l
    rw [hcall, hargs]
    show (shell :: args ++ call.path.1 :: (call.argv.map Subtype.val).tail).map string = _
    rw [← List.map_tail, List.map_append, List.map_cons, List.map_cons, string_val, hback]

theorem spawnve_ends (setting : Setting) (replies : Replies) (mode : Mode) (call : Call) :
    Ends (spawnve setting replies mode call) := by
  unfold spawnve
  split
  · exact Ends.ok _
  · split
    · exact Ends.bounds
    · refine (block_ends _ _ _ _).bind fun env _ => ?_
      cases env with
      | none => exact Ends.ok _
      | some env =>
        dsimp only
        split
        · split
          · exact interpret_ends _ _ _
          · exact Ends.ok _
        · split
          · exact Ends.ok _
          · exact Ends.ok _

theorem total_cons (a : CStr) (argv : List CStr) :
    total (a :: argv) = a.1.length + 1 + total argv := List.sum_cons

theorem total_append (argv argv' : List CStr) : total (argv ++ argv') = total argv + total argv' := by
  rw [total, List.map_append, List.sum_append]
  rfl

theorem total_le_argBlock (argv : List CStr) : total argv ≤ (argBlock argv).length := by
  have htexts : total argv ≤ (argv.flatMap fun a => argText a.1).length := by
    induction argv with
    | nil => exact Nat.zero_le _
    | cons a argv ih =>
      have hshown : a.1.length ≤ (shown a.1).length := by
        unfold shown
        split
        · next h => rw [h]; exact Nat.zero_le _
        · exact le_rfl
      rw [total_cons, List.flatMap_cons, List.length_append, argText, List.length_append,
        List.length_singleton]
      omega
  rw [argBlock]
  simp only [List.length_append]
  omega

theorem block_malloc {σ : Sys} {memory : Memory} {argv envp : List CStr} {env : Str}
    (h : block σ memory argv envp = .ok (some env)) :
    ∃ n size, memory.malloc n size = true ∧ total argv ≤ size := by
  obtain ⟨n, enlen, rest, -, hmalloc, hpass⟩ := build_shape h
  obtain ⟨vs, -, henv, hlength⟩ := pass_shape hpass
  have htotal := total_le_argBlock argv
  rw [henv, List.length_append] at hlength
  exact ⟨n, enlen, hmalloc, by omega⟩

theorem spawnve_next (h : spawnve setting replies mode call = .ok (.inr call')) :
    (∃ n size, replies.memory.malloc n size = true ∧ total call.argv ≤ size) ∧
      ∃ args, call'.argv = call'.path :: args ++ call.path :: call.argv.tail := by
  unfold spawnve at h
  split at h
  · cases h
  · split at h
    · cases h
    · next path _ =>
      obtain ⟨env, hblock, h⟩ := bind_eq_ok h
      cases env with
      | none => cases h
      | some env =>
        dsimp only at h
        split at h
        · split at h
          · exact ⟨block_malloc hblock, interpret_next h⟩
          · cases h
        · split at h
          · cases h
          · cases h

end Calls

def Call.Interprets (call : Call) : Prop := call.argv.head? = some call.path

theorem longer {setting : Setting} {replies : Replies} {mode : Mode} {call call' : Call}
    (hcall : call.Interprets) (h : spawnve setting replies mode call = .ok (.inr call')) :
    total call.argv < 2 ^ 31 ∧ call'.Interprets ∧ total call.argv < total call'.argv := by
  obtain ⟨⟨n, size, hmalloc, hle⟩, args, hargs⟩ := spawnve_next h
  obtain ⟨argv, hargv⟩ := List.head?_eq_some_iff.mp hcall
  refine ⟨lt_of_le_of_lt hle (replies.memory.signed n size hmalloc), ?_, ?_⟩
  · unfold Call.Interprets
    rw [hargs]
    rfl
  · rw [hargs, hargv, List.tail_cons, List.cons_append, total_cons, total_cons, total_append,
      total_cons]
    omega

theorem resolve_ends (setting : Setting) (replies : ℕ → Replies) (mode : Mode) {steps : ℕ} (n : ℕ)
    {call : Call} (hcall : call.Interprets) (hpos : 0 < steps)
    (hsteps : 2 ^ 31 < steps + total call.argv) :
    Ends (resolve setting replies mode steps n call) := by
  induction steps generalizing n call with
  | zero => exact absurd hpos (lt_irrefl 0)
  | succ steps ih =>
    rw [resolve]
    refine (spawnve_ends setting (replies n) mode call).bind fun next hnext => ?_
    cases next with
    | inl ended => exact Ends.ok _
    | inr call' =>
      obtain ⟨hsmall, hcall', hmore⟩ := longer hcall hnext
      exact ih (n + 1) hcall' (by omega) (by omega)

/-- A file that is no script, or one whose arguments end in front of the last byte of the buffer. -/
def FirstLineFits (text : Script.Text) : Prop :=
  ¬ (text.1[0]? = some HASH ∧ text.1[1]? = some Script.BANG) ∨
    ∃ s : Script.Script, s.text = text.1 ∧ (s.head ++ Script.spread s.args).length < Script.BUF - 1

/-- Files whose first lines fit, names that fit in the buffer for them, lists of names that grow no
more than the block allows for, and no block of 2^29 bytes. -/
structure Fits (setting : Setting) (replies : ℕ → Replies) : Prop where
  lines : ∀ n path text, (replies n).file path = .ok text → FirstLineFits text
  names : ∀ n name found, (replies n).findfile name = some found → found.1.length < PATH_MAX ∧
    Symlink.kernelPath setting.names setting.unixNames found.1 ≠ none
  blocks : ∀ n k size, (replies n).memory.malloc k size = true → size < 2 ^ 29
  envp : total setting.envp < 2 ^ 31
  growth : (setting.envp.map fun p => growth (pconvert (setting.envp.map fun p => p.1)) p.1).sum ≤ 1024

/-- A call with arguments, of a file whose name fits. -/
structure Call.Fits (setting : Setting) (call : Call) : Prop where
  argv : call.argv ≠ []
  small : total call.argv < 2 ^ 30
  short : call.path.1.length < PATH_MAX
  path : Symlink.kernelPath setting.names setting.unixNames call.path.1 ≠ none

section Inside

variable {setting : Setting} {replies : ℕ → Replies} {call : Call}

theorem total_map_string (args : List (Str × Str)) :
    total ((args.map Prod.snd).map string) ≤ (Script.packed args).length := by
  induction args with
  | nil => exact Nat.zero_le _
  | cons p args ih =>
    have hpacked : Script.packed (p :: args) = p.2 ++ [0] ++ Script.packed args := List.flatMap_cons
    have hcut : (cstr p.2).length ≤ p.2.length := length_cstr_le p.2
    rw [List.map_cons, List.map_cons, total_cons, hpacked, List.length_append, List.length_append,
      List.length_singleton]
    show (cstr p.2).length + 1 + _ ≤ _
    omega

/-- The interpreter is called as the script was: with a name that fits, and with at most as many bytes
more as the buffer and the two names have. -/
theorem interpret_inside (hfits : Fits setting replies) (n : ℕ) (path : Str) (hargv : call.argv ≠ [])
    (hsmall : total call.argv < 2 ^ 29) (hshort : call.path.1.length < PATH_MAX) :
    ∃ r, interpret (replies n) path call = .ok r ∧
      ∀ call', r = .inr call' → call'.Fits setting := by
  have hbuf : Script.BUF = 1024 := rfl
  have hmax : PATH_MAX = 1024 := rfl
  obtain ⟨argv0, argv, hcons⟩ := List.exists_cons_of_ne_nil hargv
  have hlist : call.argv.map Subtype.val = argv0.1 :: argv.map Subtype.val := by
    rw [hcons, List.map_cons]
  unfold interpret
  rw [hlist]
  cases hfile : (replies n).file path with
  | error errno => exact ⟨_, rfl, fun call' heq => by cases heq⟩
  | ok text =>
    -- what was read does not begin with `#!`, or is a line that fits
    rcases hfits.lines n path text hfile with hnone | ⟨s, hs, hline⟩
    · have hother : ¬ ((text.1 ++ 0 :: (replies n).junk.1.drop (text.1.length + 1))[0]? =
          some HASH ∧ (text.1 ++ 0 :: (replies n).junk.1.drop (text.1.length + 1))[1]? =
          some Script.BANG) := by
        rintro ⟨hhash, hbang⟩
        rcases htext : text.1 with _ | ⟨c, _ | ⟨d, rest⟩⟩
        · rw [htext] at hhash
          cases hhash
        · rw [htext] at hbang
          cases hbang
        · rw [htext] at hhash hbang hnone
          exact hnone ⟨hhash, hbang⟩
      rw [Script.interpretScript]
      dsimp only
      rw [if_neg hother, ok_bind]
      exact ⟨_, rfl, fun call' heq => by cases heq⟩
    · have htext : text = s.file := Subtype.ext hs.symm
      have hlength := length_le_total call.argv
      rw [hcons, List.length_cons] at hlength
      have hroom : (Script.BUF + (argv.map Subtype.val).length + 3) * 4 < 2 ^ 32 := by
        rw [List.length_map]
        rw [hcons] at hsmall
        omega
      obtain ⟨answer, hanswer, hspawn⟩ := Script.interpret_fits
        (fun name => ((replies n).findfile name).map Subtype.val) (replies n).vector call.path.1 argv0.1
        s (replies n).junk hline hroom
      rw [htext, hanswer, ok_bind]
      cases answer with
      | error errno => exact ⟨_, rfl, fun call' heq => by cases heq⟩
      | spawn shell shellargv =>
        obtain ⟨hfind, args, hpacked, hvector⟩ := hspawn shell shellargv rfl
        obtain ⟨found, hfound, hshell⟩ := Option.map_eq_some_iff.mp hfind
        obtain ⟨hname, hpath⟩ := hfits.names n _ found hfound
        have hstring : string shell = found := by
          rw [← hshell, string_val]
        refine ⟨_, rfl, fun call' heq => ?_⟩
        rw [← Sum.inr.inj heq, hvector, hstring]
        have htail : (argv.map Subtype.val).map string = argv := by
          rw [List.map_map]
          exact List.map_id'' (f := string ∘ Subtype.val) string_val argv
        have hnew : ((shell :: args.map Prod.snd ++ call.path.1 :: argv.map Subtype.val).map string) =
            found :: ((args.map Prod.snd).map string ++ call.path :: argv) := by
          rw [List.cons_append, List.map_cons, List.map_append, List.map_cons, hstring, string_val, htail]
        have hargs := total_map_string args
        have hsum : total call.argv = argv0.1.length + 1 + total argv := by
          rw [hcons, total_cons]
        rw [hnew]
        refine ⟨List.cons_ne_nil _ _, ?_, hname, hpath⟩
        rw [total_cons, total_append, total_cons]
        omega

theorem spawnve_inside (hfits : Fits setting replies) (mode : Mode) (n : ℕ)
    (hcall : call.Fits setting) :
    ∃ r, spawnve setting (replies n) mode call = .ok r ∧
      ∀ call', r = .inr call' → call'.Fits setting := by
  have hvariables := hfits.envp
  have hsmall := hcall.small
  have htotal : total call.argv + total setting.envp + 1088 < 2 ^ 32 := by omega
  obtain ⟨env, hblock⟩ := block_ok setting.names (replies n).memory call.argv setting.envp htotal
    (allGuarded_of_growth htotal hfits.growth)
  obtain ⟨path, hpath⟩ := Option.ne_none_iff_exists'.mp hcall.path
  rw [spawnve, hpath]
  dsimp only
  by_cases hmode : mode = .unknown
  · rw [if_pos hmode]
    exact ⟨_, rfl, fun call' heq => by cases heq⟩
  · rw [if_neg hmode, hblock, ok_bind]
    cases env with
    | none => exact ⟨_, rfl, fun call' heq => by cases heq⟩
    | some env =>
      dsimp only
      obtain ⟨k, size, hmalloc, hle⟩ := block_malloc hblock
      have hlimit := hfits.blocks n k size hmalloc
      split
      · split
        · exact interpret_inside hfits n path hcall.argv (by omega) hcall.short
        · exact ⟨_, rfl, fun call' heq => by cases heq⟩
      · split
        · exact ⟨_, rfl, fun call' heq => by cases heq⟩
        · exact ⟨_, rfl, fun call' heq => by cases heq⟩

theorem resolve_inside (hfits : Fits setting replies) (mode : Mode) (steps n : ℕ)
    (hcall : call.Fits setting) : resolve setting replies mode steps n call ≠ .error .bounds := by
  induction steps generalizing n call with
  | zero =>
    intro heq
    cases heq
  | succ steps ih =>
    obtain ⟨r, hr, hnext⟩ := spawnve_inside hfits mode n hcall
    rw [resolve, hr, ok_bind]
    cases r with
    | inl ended =>
      intro heq
      cases heq
    | inr call' => exact ih (n + 1) (hnext call' rfl)

end Inside

/-- However scripts name each other, or themselves, there are no more than 2^31 + 2 attempts. When
what is read and the names fit in their buffers, the last one returns, or is the child itself. -/
theorem interpreters_end (setting : Setting) (replies : ℕ → Replies) (mode : Mode) (call : Call) :
    Ends (resolve setting replies mode (2 ^ 31 + 2) 0 call) ∧
      (Fits setting replies → call.Fits setting →
        ∃ ended, resolve setting replies mode (2 ^ 31 + 2) 0 call = .ok ended) := by
  have hends : Ends (resolve setting replies mode (2 ^ 31 + 2) 0 call) := by
    rw [resolve]
    refine (spawnve_ends setting (replies 0) mode call).bind fun next hnext => ?_
    cases next with
    | inl ended => exact Ends.ok _
    | inr call' =>
      obtain ⟨-, args, hargs⟩ := spawnve_next hnext
      have hcall' : call'.Interprets := by
        unfold Call.Interprets
        rw [hargs]
        rfl
      exact resolve_ends setting replies mode 1 hcall' (Nat.succ_pos _) (by omega)
  refine ⟨hends, fun hfits hcall => ?_⟩
  have hinside := resolve_inside hfits mode (2 ^ 31 + 2) 0 hcall
  cases hrun : resolve setting replies mode (2 ^ 31 + 2) 0 call with
  | ok ended => exact ⟨ended, rfl⟩
  | error stop =>
    cases stop with
    | bounds => exact absurd hrun hinside
    | steps => exact absurd hrun hends

end Mintlib.Spawn
