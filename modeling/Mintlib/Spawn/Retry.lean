import Mintlib.Spawn.Room

/-!
# The retry of `_spawnve`

When a pass runs out of room, the next one begins at the variable that the last one stood in front
of. Only a pass that runs out at its first variable leaves the child what a larger block would have
held from the beginning.
-/

namespace Mintlib.Spawn

open Text Unx2dos Stores Checked
open StartUp (PATH pconvert names)

/-- Where the loop over the variables comes to: how many blocks there were before, the size of this
one, the variables that are left, and what has been written. -/
inductive At (σ : Sys) (memory : Memory) (argv envp : List CStr) :
    ℕ → ℕ → List CStr → Filled → Prop
  | start : memory.malloc 0 (firstSize argv envp) = true →
      At σ memory argv envp 0 (firstSize argv envp) envp ⟨[], firstSize argv envp⟩
  | next {n enlen : ℕ} {p : CStr} {rest : List CStr} {f f' : Filled} :
      At σ memory argv envp n enlen (p :: rest) f →
      copyOne σ (pconvert (envp.map fun p => p.1)) enlen (minLeft argv) p.1 f = .ok (some f') →
      At σ memory argv envp n enlen rest f'
  | again {n enlen : ℕ} {p : CStr} {rest : List CStr} {f : Filled} :
      At σ memory argv envp n enlen (p :: rest) f →
      copyOne σ (pconvert (envp.map fun p => p.1)) enlen (minLeft argv) p.1 f = .ok none →
      memory.malloc (n + 1) ((enlen + 1024) % 2 ^ 32) = true →
      At σ memory argv envp (n + 1) ((enlen + 1024) % 2 ^ 32) (p :: rest)
        ⟨[], (enlen + 1024) % 2 ^ 32⟩
  | behind {n enlen : ℕ} {f : Filled} :
      At σ memory argv envp n enlen [] f →
      argSection enlen (minLeft argv) argv f = .ok (.more []) →
      memory.malloc (n + 1) ((enlen + 1024) % 2 ^ 32) = true →
      At σ memory argv envp (n + 1) ((enlen + 1024) % 2 ^ 32) [] ⟨[], (enlen + 1024) % 2 ^ 32⟩

/-- All variables of a run are met with what is to hold in front of them. -/
def AllGuarded (σ : Sys) (memory : Memory) (argv envp : List CStr) : Prop :=
  ∀ n enlen p rest f, At σ memory argv envp n enlen (p :: rest) f →
    Guarded (pconvert (envp.map fun p => p.1)) (minLeft argv) p.1 f

section Runs

variable {σ : Sys} {memory : Memory} {argv envp rest : List CStr} {n enlen steps : ℕ} {f : Filled}

theorem envLoop_ok (hall : AllGuarded σ memory argv envp) (hlen : enlen < 2 ^ 32)
    (hpos : 64 ≤ minLeft argv) (hat : At σ memory argv envp n enlen rest f)
    (hf : Between enlen (minLeft argv) f) :
    ∃ r, envLoop σ (pconvert (envp.map fun p => p.1)) enlen (minLeft argv) rest f = .ok r ∧
      (∀ f', r = .done f' →
        At σ memory argv envp n enlen [] f' ∧ Between enlen (minLeft argv) f') ∧
      ∀ left, r = .more left → ∃ p left' f', left = p :: left' ∧
        At σ memory argv envp n enlen left f' ∧
        copyOne σ (pconvert (envp.map fun p => p.1)) enlen (minLeft argv) p.1 f' = .ok none := by
  induction rest generalizing f with
  | nil =>
    refine ⟨_, rfl, fun f' hdone => ?_, fun left hmore => absurd hmore (by simp)⟩
    injection hdone with hsame
    rw [← hsame]
    exact ⟨hat, hf⟩
  | cons p rest ih =>
    obtain ⟨next, hone, hnext⟩ := copyOne_goes (σ := σ) hlen hpos hf (hall n enlen p rest f hat)
    rw [envLoop, hone]
    cases next with
    | none =>
      refine ⟨_, rfl, fun f' hdone => absurd hdone (by simp), fun left hmore => ?_⟩
      injection hmore with hsame
      rw [← hsame]
      exact ⟨p, rest, f, rfl, hat, hone⟩
    | some f₁ => exact ih (hat.next hone) (hnext f₁ rfl)

theorem build_ok (hall : AllGuarded σ memory argv envp) (htotal : total argv + 64 < 2 ^ 32)
    (hpos : 0 < steps) (hsteps : 2 ^ 31 ≤ enlen + (steps - 1) * 1024)
    (hleast : total argv + 64 ≤ enlen)
    (hat : memory.malloc n enlen = true → At σ memory argv envp n enlen rest ⟨[], enlen⟩) :
    ∃ r, build σ memory (pconvert (envp.map fun p => p.1)) argv steps n enlen rest = .ok r := by
  have hmin : minLeft argv = total argv + 64 := Nat.mod_eq_of_lt htotal
  induction steps generalizing n enlen rest with
  | zero => exact absurd hpos (Nat.lt_irrefl 0)
  | succ steps ih =>
    rw [build]
    by_cases hmalloc : memory.malloc n enlen = true
    · have hsize := memory.signed n enlen hmalloc
      have hnext : (enlen + 1024) % 2 ^ 32 = enlen + 1024 := Nat.mod_eq_of_lt (by omega)
      have hstart : Between enlen (minLeft argv) ⟨[], enlen⟩ := by
        refine ⟨Nat.zero_add _, ?_⟩
        rw [hmin]
        exact hleast
      obtain ⟨r, hloop, hdone, hmore⟩ := envLoop_ok hall (by omega) (by omega) (hat hmalloc) hstart
      rw [if_pos hmalloc, pass, hloop]
      cases r with
      | more left =>
        obtain ⟨p, left', f', rfl, hleft, hone⟩ := hmore left rfl
        dsimp only
        rw [hnext]
        refine ih (by omega) (by omega) (by omega) (fun hgot => ?_)
        rw [← hnext] at hgot ⊢
        exact hleft.again hone hgot
      | done f' =>
        obtain ⟨hbehind, hf'⟩ := hdone f' rfl
        rw [hmin] at hf' ⊢
        obtain ⟨r, hsection⟩ := argSection_ok argv (by omega) htotal hf'
        dsimp only
        rw [hsection]
        cases r with
        | done b => exact ⟨_, rfl⟩
        | more left =>
          have hnil := argSection_more hsection
          rw [hnil] at hsection ⊢
          dsimp only
          rw [hnext]
          refine ih (by omega) (by omega) (by omega) (fun hgot => ?_)
          rw [← hnext] at hgot ⊢
          rw [← hmin] at hsection
          exact hbehind.behind hsection hgot
    · rw [if_neg hmalloc]
      exact ⟨_, rfl⟩

/-- With 1024 bytes for what the lists grow there is room at every place for what is left. -/
theorem At.enough (hsize : total argv + total envp + 1088 < 2 ^ 32)
    (hgrowth : (envp.map fun p => growth (pconvert (envp.map fun p => p.1)) p.1).sum ≤ 1024)
    (hat : At σ memory argv envp n enlen rest f) :
    enlen < 2 ^ 31 ∧ Between enlen (minLeft argv) f ∧ (rest ≠ [] → minLeft argv + total rest +
      (rest.map fun p => growth (pconvert (envp.map fun p => p.1)) p.1).sum ≤ f.left) := by
  have hmin : minLeft argv = total argv + 64 := Nat.mod_eq_of_lt (by omega)
  have hfirst : firstSize argv envp = total argv + 64 + total envp + 1024 := by
    rw [firstSize, hmin]
    exact Nat.mod_eq_of_lt (by omega)
  have hvariable : ∀ {enlen p rest} {f : Filled}, enlen < 2 ^ 31 → Between enlen (minLeft argv) f →
      minLeft argv + total (p :: rest) +
        ((p :: rest).map fun p => growth (pconvert (envp.map fun p => p.1)) p.1).sum ≤ f.left →
      ∃ f', copyOne σ (pconvert (envp.map fun p => p.1)) enlen (minLeft argv) p.1 f =
        .ok (some f') ∧ Between enlen (minLeft argv) f' ∧ minLeft argv + total rest +
        (rest.map fun p => growth (pconvert (envp.map fun p => p.1)) p.1).sum ≤ f'.left := by
    intro enlen p rest f hlen hf hroom
    have htotal : total (p :: rest) = p.1.length + 1 + total rest := List.sum_cons
    rw [List.map_cons, List.sum_cons, htotal] at hroom
    obtain ⟨f', hone, hf', -, hleft⟩ := copyOne_through σ
      (pconvert (envp.map fun p => p.1)) p.1 (by omega) (by omega) hf (by omega)
    exact ⟨f', hone, hf', by omega⟩
  induction hat with
  | start hmalloc =>
    have hlen := memory.signed _ _ hmalloc
    refine ⟨hlen, ⟨Nat.zero_add _, ?_⟩, fun _ => ?_⟩
    · show minLeft argv ≤ firstSize argv envp
      omega
    · show _ ≤ firstSize argv envp
      omega
  | next _ hone ih =>
    obtain ⟨hlen, hf, hroom⟩ := ih
    obtain ⟨f', hone', hf', hroom'⟩ := hvariable hlen hf (hroom (List.cons_ne_nil _ _))
    rw [hone] at hone'
    rw [Option.some.inj (Except.ok.inj hone')]
    exact ⟨hlen, hf', fun _ => hroom'⟩
  | again _ hone _ ih =>
    obtain ⟨hlen, hf, hroom⟩ := ih
    obtain ⟨f', hone', -, -⟩ := hvariable hlen hf (hroom (List.cons_ne_nil _ _))
    rw [hone] at hone'
    exact absurd (Except.ok.inj hone') (by simp)
  | behind _ _ hmalloc ih =>
    obtain ⟨hlen, hf, -⟩ := ih
    have hleast := hf.least
    have hall := hf.all
    refine ⟨memory.signed _ _ hmalloc, ⟨Nat.zero_add _, ?_⟩, fun hne => absurd rfl hne⟩
    show minLeft argv ≤ (_ + 1024) % 2 ^ 32
    rw [Nat.mod_eq_of_lt (by omega)]
    omega

theorem allGuarded_of_growth (hsize : total argv + total envp + 1088 < 2 ^ 32)
    (hgrowth : (envp.map fun p => growth (pconvert (envp.map fun p => p.1)) p.1).sum ≤ 1024) :
    AllGuarded σ memory argv envp := by
  intro n enlen p rest f hat
  obtain ⟨-, -, hroom⟩ := hat.enough hsize hgrowth
  have hleft := hroom (List.cons_ne_nil _ _)
  have htotal : total (p :: rest) = p.1.length + 1 + total rest := List.sum_cons
  rw [List.map_cons, List.sum_cons, htotal, growth] at hleft
  rw [Guarded]
  cases hlisted : listed (pconvert (envp.map fun p => p.1)) p.1 with
  | none =>
    intro _
    show minLeft argv < f.left
    omega
  | some len =>
    rw [hlisted] at hleft
    dsimp only at hleft
    exact Or.inr (by omega)

end Runs

theorem block_ok (σ : Sys) (memory : Memory) (argv envp : List CStr)
    (hsize : total argv + total envp + 1088 < 2 ^ 32) (hall : AllGuarded σ memory argv envp) :
    ∃ r, block σ memory argv envp = .ok r := by
  have hmin : minLeft argv = total argv + 64 := Nat.mod_eq_of_lt (by omega)
  have hfirst : firstSize argv envp = total argv + 64 + total envp + 1024 := by
    rw [firstSize, hmin]
    exact Nat.mod_eq_of_lt (by omega)
  rw [block]
  refine build_ok hall (by omega) (Nat.succ_pos _) ?_ (by omega) At.start
  have hsteps : (2 ^ 21 + 1 - 1) * 1024 = 2 ^ 31 := by norm_num
  rw [hsteps]
  exact Nat.le_add_left _ _

/-- A run in which every variable is guarded stores nothing outside its blocks and comes to an end. -/
theorem block_in_room (σ : Sys) (memory : Memory) (argv envp : List CStr)
    (hsize : total argv + total envp + 1088 < 2 ^ 32) (hall : AllGuarded σ memory argv envp) :
    ∃ r, block σ memory argv envp = .ok r :=
  block_ok σ memory argv envp hsize hall

/-- `"PATH=/a:/b"` and `"B=1"`. -/
def demoLists : List CStr :=
  [⟨[80, 65, 84, 72, 61, 47, 97, 58, 47, 98], by decide⟩, ⟨[66, 61, 49], by decide⟩]

theorem block_in_room_demo : ∃ r, block ⟨117, 1⟩ ample demoArgv demoLists = .ok r :=
  block_in_room ⟨117, 1⟩ ample demoArgv demoLists (by decide)
    (allGuarded_of_growth (by decide) (by decide))

def wholeBlock (σ : Sys) (argv envp : List CStr) : Str :=
  flat (envp.map fun p => whole σ (pconvert (envp.map fun p => p.1)) p.1) ++ argBlock argv

/-- A pass runs out in front of these variables, or in the list of the empty arguments. -/
def RunsOut (σ : Sys) (pconv : Option Str) (enlen : ℕ) (argv : List CStr) :
    List CStr → Filled → Prop
  | [], f => argSection enlen (minLeft argv) argv f = .ok (.more [])
  | p :: _, f => copyOne σ pconv enlen (minLeft argv) p.1 f = .ok none

def NonePassed (σ : Sys) (memory : Memory) (argv envp : List CStr) : Prop :=
  ∀ n enlen rest f, At σ memory argv envp n enlen rest f →
    RunsOut σ (pconvert (envp.map fun p => p.1)) enlen argv rest f → rest = envp

/-- A string has one NUL at least in the block, and one only if there is none in it. -/
theorem count_flat (vs : List Str) : vs.length ≤ (flat vs).count 0 ∧
    ((∀ v ∈ vs, (0 : UInt8) ∉ v) → (flat vs).count 0 = vs.length) := by
  induction vs with
  | nil => exact ⟨Nat.le_refl 0, fun _ => rfl⟩
  | cons v vs ih =>
    rw [flat_cons, List.count_append, List.count_append, List.count_singleton_self, List.length_cons]
    refine ⟨by omega, fun hclean => ?_⟩
    rw [ih.2 fun u hu => hclean u (List.mem_cons_of_mem v hu),
      List.count_eq_zero.mpr (hclean v List.mem_cons_self)]
    omega

section Retry

variable {σ : Sys} {memory : Memory} {argv envp rest : List CStr} {n enlen steps : ℕ} {f : Filled}

theorem At.suffix (hat : At σ memory argv envp n enlen rest f) : rest <:+ envp := by
  induction hat with
  | start _ => exact List.suffix_rfl
  | next _ _ ih => exact (List.suffix_cons _ _).trans ih
  | again _ _ _ ih => exact ih
  | behind _ _ _ ih => exact ih

def resume (σ : Sys) (memory : Memory) (pconv : Option Str) (argv : List CStr)
    (steps n enlen : ℕ) (rest : List CStr) (f : Filled) : Except Stop (Option Str) :=
  match envLoop σ pconv enlen (minLeft argv) rest f with
  | .error stop => .error stop
  | .ok (.more left) => build σ memory pconv argv steps (n + 1) ((enlen + 1024) % 2 ^ 32) left
  | .ok (.done f') =>
    match argSection enlen (minLeft argv) argv f' with
    | .error stop => .error stop
    | .ok (.more left) => build σ memory pconv argv steps (n + 1) ((enlen + 1024) % 2 ^ 32) left
    | .ok (.done b) => .ok (some b)

theorem build_resume {pconv : Option Str} (hmalloc : memory.malloc n enlen = true) :
    build σ memory pconv argv (steps + 1) n enlen rest =
      resume σ memory pconv argv steps n enlen rest ⟨[], enlen⟩ := by
  rw [build, if_pos hmalloc, pass, resume]
  cases envLoop σ pconv enlen (minLeft argv) rest ⟨[], enlen⟩ with
  | error stop => rfl
  | ok r =>
    cases r with
    | more left => rfl
    | done f' =>
      dsimp only
      cases argSection enlen (minLeft argv) argv f' with
      | error stop => rfl
      | ok r => cases r <;> rfl

theorem At.resumed {b : Str} (hat : At σ memory argv envp n enlen rest f)
    (hblock : block σ memory argv envp = .ok (some b)) :
    ∃ steps, resume σ memory (pconvert (envp.map fun p => p.1)) argv steps n enlen rest f =
      .ok (some b) := by
  induction hat with
  | start hmalloc =>
    rw [block, build_resume hmalloc] at hblock
    exact ⟨_, hblock⟩
  | next _ hone ih =>
    obtain ⟨steps, hsteps⟩ := ih
    rw [resume, envLoop, hone] at hsteps
    exact ⟨steps, hsteps⟩
  | again _ hone hmalloc ih =>
    obtain ⟨steps, hsteps⟩ := ih
    rw [resume, envLoop, hone] at hsteps
    cases steps with
    | zero => exact absurd hsteps (by simp [build])
    | succ steps =>
      dsimp only at hsteps
      rw [build_resume hmalloc] at hsteps
      exact ⟨steps, hsteps⟩
  | behind _ hsection hmalloc ih =>
    obtain ⟨steps, hsteps⟩ := ih
    rw [resume, envLoop] at hsteps
    dsimp only at hsteps
    rw [hsection] at hsteps
    cases steps with
    | zero => exact absurd hsteps (by simp [build])
    | succ steps =>
      dsimp only at hsteps
      rw [build_resume hmalloc] at hsteps
      exact ⟨steps, hsteps⟩

theorem At.shorter {b : Str} (hat : At σ memory argv envp n enlen rest f)
    (hblock : block σ memory argv envp = .ok (some b))
    (hout : RunsOut σ (pconvert (envp.map fun p => p.1)) enlen argv rest f) :
    ∃ vs, b = flat vs ++ argBlock argv ∧ vs.length ≤ rest.length ∧ ∀ v ∈ vs, (0 : UInt8) ∉ v := by
  obtain ⟨steps, hsteps⟩ := hat.resumed hblock
  have hbuild : ∃ steps n enlen, build σ memory (pconvert (envp.map fun p => p.1)) argv steps n
      enlen rest = .ok (some b) := by
    cases rest with
    | nil =>
      rw [resume, envLoop] at hsteps
      dsimp only at hsteps
      rw [show argSection enlen (minLeft argv) argv f = .ok (.more []) from hout] at hsteps
      exact ⟨_, _, _, hsteps⟩
    | cons p rest =>
      rw [resume, envLoop, show copyOne σ _ enlen (minLeft argv) p.1 f = .ok none from hout]
        at hsteps
      exact ⟨_, _, _, hsteps⟩
  obtain ⟨steps, n', enlen', hbuild⟩ := hbuild
  obtain ⟨n'', enlen'', left, hsuffix, -, hpass⟩ := build_shape hbuild
  obtain ⟨vs, hvs, hb, -⟩ := pass_shape hpass
  refine ⟨vs, hb, ?_, fun v hv => ?_⟩
  · rw [← hvs.length_eq]
    exact hsuffix.length_le
  · obtain ⟨i, hi, rfl⟩ := List.getElem_of_mem hv
    have hlength := hvs.length_eq
    exact (hvs.get (i := i) (by omega) hi).clean

theorem envLoop_whole (hall : AllGuarded σ memory argv envp) (hlen : enlen < 2 ^ 32)
    (hpos : 64 ≤ minLeft argv) (hat : At σ memory argv envp n enlen rest f)
    (hf : Between enlen (minLeft argv) f) {f' : Filled}
    (h : envLoop σ (pconvert (envp.map fun p => p.1)) enlen (minLeft argv) rest f =
      .ok (.done f')) :
    f'.out = f.out ++ flat (rest.map fun p => whole σ (pconvert (envp.map fun p => p.1)) p.1) := by
  induction rest generalizing f with
  | nil =>
    rw [envLoop] at h
    injection Except.ok.inj h with hsame
    rw [hsame]
    exact (List.append_nil _).symm
  | cons p rest ih =>
    have hguard := hall n enlen p rest f hat
    obtain ⟨next, hone, hnext⟩ := copyOne_goes (σ := σ) hlen hpos hf hguard
    rw [envLoop, hone] at h
    cases next with
    | none => exact absurd h (by simp)
    | some f₁ =>
      rw [ih (hat.next hone) (hnext f₁ rfl) h, copyOne_whole hlen hpos hf hguard hone, List.map_cons,
        flat_cons, List.append_assoc f.out, List.append_assoc f.out]

/-- When no pass that runs out has come past a variable, all variables are in the block. -/
theorem build_whole {b : Str} (hall : AllGuarded σ memory argv envp)
    (hnone : NonePassed σ memory argv envp) (htotal : total argv + 64 < 2 ^ 32)
    (hleast : total argv + 64 ≤ enlen)
    (hat : memory.malloc n enlen = true → At σ memory argv envp n enlen envp ⟨[], enlen⟩)
    (hb : build σ memory (pconvert (envp.map fun p => p.1)) argv steps n enlen envp =
      .ok (some b)) : b = wholeBlock σ argv envp := by
  have hmin : minLeft argv = total argv + 64 := Nat.mod_eq_of_lt htotal
  -- a retry has more memory and the same variables, so the same holds of it
  induction steps generalizing n enlen with
  | zero => exact absurd hb (by simp [build])
  | succ steps ih =>
    by_cases hmalloc : memory.malloc n enlen = true
    · have hsize := memory.signed n enlen hmalloc
      have hnext : (enlen + 1024) % 2 ^ 32 = enlen + 1024 := Nat.mod_eq_of_lt (by omega)
      have hstart : Between enlen (minLeft argv) ⟨[], enlen⟩ := by
        refine ⟨Nat.zero_add _, ?_⟩
        rw [hmin]
        exact hleast
      obtain ⟨r, hloop, hdone, hmore⟩ :=
        envLoop_ok hall (by omega) (by omega) (hat hmalloc) hstart
      rw [build_resume hmalloc, resume, hloop] at hb
      cases r with
      | more left =>
        obtain ⟨p, left', f', rfl, hleft, hone⟩ := hmore left rfl
        have hsame := hnone n enlen (p :: left') f' hleft hone
        dsimp only at hb
        rw [hsame, hnext] at hb
        refine ih (by omega) (fun hgot => ?_) hb
        rw [← hnext] at hgot ⊢
        rw [hsame] at hleft
        cases envp with
        | nil => exact absurd hsame (List.cons_ne_nil _ _)
        | cons q envp =>
          obtain ⟨rfl, -⟩ := List.cons.inj hsame
          exact hleft.again hone hgot
      | done f' =>
        obtain ⟨hbehind, hf'⟩ := hdone f' rfl
        have hout := envLoop_whole hall (by omega) (by omega) (hat hmalloc) hstart hloop
        dsimp only at hb
        cases hsection : argSection enlen (minLeft argv) argv f' with
        | error stop =>
          rw [hsection] at hb
          exact absurd hb (by simp)
        | ok r =>
          rw [hsection] at hb
          cases r with
          | done b' =>
            have hsame : b' = b := Option.some.inj (Except.ok.inj hb)
            rw [← hsame, (argSection_shape hsection).1, hout]
            rfl
          | more left =>
            have hnil := argSection_more hsection
            rw [hnil] at hsection hb
            have hsame := hnone n enlen [] f' hbehind hsection
            dsimp only at hb
            rw [hsame, hnext] at hb
            refine ih (by omega) (fun hgot => ?_) hb
            rw [← hnext] at hgot ⊢
            have hstarted := hbehind.behind hsection hgot
            rwa [hsame] at hstarted
    · rw [build, if_neg hmalloc] at hb
      exact absurd (Except.ok.inj hb) (by simp)

end Retry

/-- The block of a guarded run is the one that a single pass with room enough makes, if and only if no
pass that ran out had come past a variable. -/
theorem block_whole_iff (σ : Sys) (memory : Memory) (argv envp : List CStr) (b : Str)
    (hsize : total argv + total envp + 1088 < 2 ^ 32) (hall : AllGuarded σ memory argv envp)
    (hblock : block σ memory argv envp = .ok (some b)) :
    b = wholeBlock σ argv envp ↔ NonePassed σ memory argv envp := by
  constructor
  · intro hwhole n enlen rest f hat hout
    obtain ⟨vs, hb, hshort, hclean⟩ := hat.shorter hblock hout
    have hflat : flat vs =
        flat (envp.map fun p => whole σ (pconvert (envp.map fun p => p.1)) p.1) :=
      List.append_cancel_right (hb.symm.trans hwhole)
    have hcount := (count_flat vs).2 hclean
    rw [hflat] at hcount
    have hlong := (count_flat (envp.map fun p =>
      whole σ (pconvert (envp.map fun p => p.1)) p.1)).1
    rw [List.length_map] at hlong
    exact hat.suffix.eq_of_length_le (by omega)
  · intro hnone
    have hmin : minLeft argv = total argv + 64 := Nat.mod_eq_of_lt (by omega)
    have hfirst : firstSize argv envp = total argv + 64 + total envp + 1024 := by
      rw [firstSize, hmin]
      exact Nat.mod_eq_of_lt (by omega)
    exact build_whole hall hnone (by omega) (by omega) At.start hblock

theorem block_whole_iff_demo :
    flat [[80, 65, 84, 72, 61, 117, 58, 92, 97, 44, 117, 58, 92, 98], [66, 61, 49]] ++
        argBlock demoArgv = wholeBlock ⟨117, 1⟩ demoArgv demoLists ↔
      NonePassed ⟨117, 1⟩ ample demoArgv demoLists :=
  block_whole_iff ⟨117, 1⟩ ample demoArgv demoLists _ (by decide)
    (allGuarded_of_growth (by decide) (by decide)) (by decide +kernel)

end Mintlib.Spawn
