import Mintlib.Setmode.Commands

/-!
# The text of a mode: `setmode`

Clauses with a comma between them, each with those whose permissions are meant and with what is to be
done to them. `setmode` makes commands of it while it reads, in an array that grows.
-/

namespace Mintlib.Setmode

open Text Checked

/-- A character as an `int`. -/
def int (c : UInt8) : Mode := BitVec.ofNat 32 c.toNat

/-- `who ? who : mask`. -/
def given (who mask : Mode) : Mode := if who ≠ 0 then who else mask

/-- The commands that `addcmd` stores; `cmd2` of the first three kinds is never read. -/
def addcmd (op : UInt8) (who oparg mask : Mode) : List BitCmd :=
  if op = EQ then
    [⟨.minus, {}, given who STANDARD_BITS⟩, ⟨.plus, {}, given who mask &&& oparg⟩]
  else if op = PLUS then [⟨.plus, {}, given who mask &&& oparg⟩]
  else if op = MINUS then [⟨.minus, {}, given who mask &&& oparg⟩]
  else if op = 88 then [⟨.X, {}, given who mask &&& oparg⟩]
  else
    let cmd := if op = 117 then .u else if op = 103 then .g else .o
    let cmd2 : Cmd2 :=
      { clr := oparg = int MINUS ∨ oparg = int EQ
        set := oparg = int PLUS ∨ oparg = int EQ
        ubits := who = 0 ∨ who &&& 0o400 ≠ 0
        gbits := who = 0 ∨ who &&& 0o040 ≠ 0
        obits := who = 0 ∨ who &&& 0o004 ≠ 0 }
    [⟨cmd, cmd2, if who ≠ 0 then BitVec.allOnes 32 else mask⟩]

/-- `umask`, and whether there is memory when it is asked for the `n`th time. -/
structure Env where
  umask : Mode
  memory : ℕ → Bool

def Env.mask (E : Env) : Mode := ~~~E.umask

/-- The commands so far, the length of their array, and how often memory has been asked for. -/
structure Saved where
  cmds : List BitCmd
  setlen : ℕ
  asked : ℕ

/-- `*set = …; set++`. -/
def push (setlen : ℕ) : List BitCmd → List BitCmd → Except Stop (List BitCmd)
  | [], cmds => .ok cmds
  | c :: new, cmds =>
    if cmds.length < setlen then push setlen new (cmds ++ [c]) else .error .bounds

/-- What follows a call, unless `NULL` is returned then. -/
def andThen {α β : Type} (x : Except Stop (Option α)) (f : α → Except Stop (Option β)) :
    Except Stop (Option β) :=
  match x with
  | .error stop => .error stop
  | .ok none => .ok none
  | .ok (some a) => f a

/-- `ADDCMD`; `none` stands for a return of `NULL`. -/
def ADDCMD (E : Env) (s : Saved) (op : UInt8) (who oparg : Mode) : Except Stop (Option Saved) :=
  if s.setlen - 2 ≤ s.cmds.length then
    if E.memory s.asked then do
      let cmds ← push (s.setlen + 4) (addcmd op who oparg E.mask) s.cmds
      .ok (some ⟨cmds, s.setlen + 4, s.asked + 1⟩)
    else .ok none
  else do
    let cmds ← push s.setlen (addcmd op who oparg E.mask) s.cmds
    .ok (some { s with cmds := cmds })

/-- `who`, `perm`, `permXbits` and `equalopdone`. -/
structure Local where
  who : Mode
  perm : Mode
  permXbits : Mode
  equalopdone : Bool
deriving DecidableEq

def whoLoop : Str → Mode → Mode × Str
  | [], who => (who, [])
  | c :: p, who =>
    if c = 97 then whoLoop p (who ||| STANDARD_BITS)
    else if c = 117 then whoLoop p (who ||| (S_ISUID ||| S_IRWXU))
    else if c = 103 then whoLoop p (who ||| (S_ISGID ||| S_IRWXG))
    else if c = 111 then whoLoop p (who ||| S_IRWXO)
    else (who, c :: p)

def MaySet (who : Mode) : Prop := who = 0 ∨ who &&& ~~~S_IRWXO ≠ 0

instance (who : Mode) : Decidable (MaySet who) := inferInstanceAs (Decidable (_ ∨ _))

def permChar (c : UInt8) (q : Local) : Option Local :=
  if c = 114 then some { q with perm := q.perm ||| READ }
  else if c = 115 then
    some (if MaySet q.who then { q with perm := q.perm ||| (S_ISUID ||| S_ISGID) } else q)
  else if c = 116 then
    some (if MaySet q.who then { q with who := q.who ||| S_ISTXT, perm := q.perm ||| S_ISTXT }
      else q)
  else if c = 119 then some { q with perm := q.perm ||| WRITE }
  else if c = 88 then some { q with permXbits := EXEC }
  else if c = 120 then some { q with perm := q.perm ||| EXEC }
  else none

/-- `'u'`, `'g'` and `'o'` among the permissions: the bits are copied. -/
def copyChar (E : Env) (op c : UInt8) (q : Local) (s : Saved) :
    Except Stop (Option (Local × Saved)) :=
  andThen (if q.perm ≠ 0 then ADDCMD E s op q.who q.perm else .ok (some s)) fun s =>
    let q := { q with perm := 0, equalopdone := q.equalopdone || op = EQ }
    if op = PLUS ∧ q.permXbits ≠ 0 then
      andThen (ADDCMD E s 88 q.who q.permXbits) fun s =>
        andThen (ADDCMD E s c q.who (int op)) fun s => .ok (some ({ q with permXbits := 0 }, s))
    else andThen (ADDCMD E s c q.who (int op)) fun s => .ok (some (q, s))

/-- `X` when the permissions end. -/
def finishX (E : Env) (q : Local) (s : Saved) : Except Stop (Option (Local × Saved)) :=
  if q.permXbits ≠ 0 then
    andThen (ADDCMD E s 88 q.who q.permXbits) fun s => .ok (some ({ q with permXbits := 0 }, s))
  else .ok (some (q, s))

def finish (E : Env) (op : UInt8) (q : Local) (s : Saved) :
    Except Stop (Option (Local × Saved)) :=
  if q.perm ≠ 0 ∨ op = EQ ∧ q.equalopdone = false then
    andThen (ADDCMD E s op q.who q.perm) fun s =>
      finishX E { q with perm := 0, equalopdone := q.equalopdone || op = EQ } s
  else finishX E q s

def permLoop (E : Env) (op : UInt8) :
    Str → Local → Saved → Except Stop (Option (Str × Local × Saved))
  | [], q, s => andThen (finish E op q s) fun t => .ok (some ([], t))
  | c :: p, q, s =>
    match permChar c q with
    | some q => permLoop E op p q s
    | none =>
      if c = 117 ∨ c = 103 ∨ c = 111 then
        andThen (copyChar E op c q s) fun t => permLoop E op p t.1 t.2
      else andThen (finish E op q s) fun t => .ok (some (c :: p, t))

/-- From `getop` on. -/
def clauseLoop (E : Env) : ℕ → Str → Mode → Bool → Saved → Except Stop (Option Saved)
  | 0, _, _, _, _ => .error .steps
  | _ + 1, [], _, _, _ => .ok none
  | steps + 1, op :: p, who, equalopdone, s =>
    if op = PLUS ∨ op = MINUS ∨ op = EQ then
      let q : Local := ⟨who &&& ~~~S_ISTXT, 0, 0, if op = EQ then false else equalopdone⟩
      andThen (permLoop E op p q s) fun t =>
        match t.1 with
        | [] => .ok (some t.2.2)
        | c :: p =>
          if c ≠ COMMA then clauseLoop E steps (c :: p) t.2.1.who t.2.1.equalopdone t.2.2
          else clauseLoop E steps (whoLoop p 0).2 (whoLoop p 0).1 t.2.1.equalopdone t.2.2
    else .ok none

/-- `strtol` for octal digits: a number that is too large is `LONG_MAX`. -/
def strtol8 (p : Str) : ℕ × Str :=
  let digits := p.takeWhile fun c => 48 ≤ c ∧ c ≤ 55
  (min (digits.foldl (fun n c => 8 * n + (c.toNat - 48)) 0) (2 ^ 31 - 1), p.drop digits.length)

/-- `set->cmd = 0`. -/
def Saved.ended (s : Saved) : Except Stop (List BitCmd) := push s.setlen [⟨.stop, {}, 0⟩] s.cmds

def setmode (E : Env) (p : Str) : Except Stop (Option (List BitCmd)) :=
  match p with
  | [] => .ok none
  | c :: p =>
    if E.memory 0 = false then .ok none
    else if IsDigit c then
      let (perm, ep) := strtol8 (c :: p)
      if ep ≠ [] ∨ BitVec.ofNat 32 perm &&& ~~~(STANDARD_BITS ||| S_ISTXT) ≠ 0 then .ok none
      else
        andThen (ADDCMD E ⟨[], 8, 1⟩ EQ (STANDARD_BITS ||| S_ISTXT) (BitVec.ofNat 32 perm))
          fun s => s.ended.map some
    else
      let (who, rest) := whoLoop (c :: p) 0
      andThen (clauseLoop E (p.length + 2) rest who false ⟨[], 8, 1⟩) fun s => do
        let cmds ← s.ended
        let cmds ← compressMode cmds
        .ok (some cmds)

/-- There is room for an end behind the commands, and there is none yet. -/
structure Sound (s : Saved) : Prop where
  least : 8 ≤ s.setlen
  room : s.cmds.length + 1 ≤ s.setlen
  open_ : ∀ c ∈ s.cmds, c.cmd ≠ .stop

/-- A call that returns, with `P`, or without memory. -/
def Gives {α : Type} (E : Env) (P : α → Prop) (r : Except Stop (Option α)) : Prop :=
  ∃ a, r = .ok a ∧ (∀ x ∈ a, P x) ∧ ((∀ n, E.memory n = true) → a ≠ none)

section Gives

variable {E : Env} {α β : Type} {P : α → Prop} {Q : β → Prop}

theorem Gives.some {a : α} (h : P a) : Gives E P (.ok (some a)) := by
  refine ⟨_, rfl, fun x hx => ?_, fun _ => by simp⟩
  rw [← Option.mem_some.mp hx]
  exact h

theorem Gives.andThen {x : Except Stop (Option α)} {f : α → Except Stop (Option β)}
    (hx : Gives E P x) (hf : ∀ a, P a → Gives E Q (f a)) : Gives E Q (andThen x f) := by
  obtain ⟨t, rfl, hP, hmemory⟩ := hx
  cases t with
  | none => exact ⟨none, rfl, fun x hx => absurd hx (by simp), fun hall => absurd rfl (hmemory hall)⟩
  | some a => exact hf a (hP a rfl)

theorem Gives.mono {x : Except Stop (Option α)} {P' : α → Prop} (hx : Gives E P x)
    (h : ∀ a, P a → P' a) : Gives E P' x := by
  obtain ⟨t, ht, hP, hmemory⟩ := hx
  exact ⟨t, ht, fun a ha => h a (hP a ha), hmemory⟩

end Gives

section Sound

variable {E : Env} {s : Saved} {op c : UInt8} {who oparg mask : Mode} {q : Local} {p : Str}

theorem push_ok {setlen : ℕ} {new cmds : List BitCmd} (h : cmds.length + new.length ≤ setlen) :
    push setlen new cmds = .ok (cmds ++ new) := by
  induction new generalizing cmds with
  | nil => rw [push, List.append_nil]
  | cons c new ih =>
    rw [List.length_cons] at h
    have hlength : (cmds ++ [c]).length = cmds.length + 1 := List.length_append
    rw [push, if_pos (by omega), ih (by omega), List.append_assoc, List.singleton_append]

theorem addcmd_spec (op : UInt8) (who oparg mask : Mode) :
    (addcmd op who oparg mask).length ≤ 2 ∧
      ∀ c ∈ addcmd op who oparg mask, c.cmd ≠ .stop := by
  unfold addcmd
  split_ifs
  all_goals
    refine ⟨by simp, fun c hc => ?_⟩
    simp only [List.mem_cons, List.not_mem_nil, or_false] at hc
    rcases hc with rfl | rfl <;> simp

theorem ADDCMD_gives (h : Sound s) (op : UInt8) (who oparg : Mode) :
    Gives E (fun s' => Sound s' ∧ s'.cmds = s.cmds ++ addcmd op who oparg E.mask)
      (ADDCMD E s op who oparg) := by
  obtain ⟨hfew, hcmds⟩ := addcmd_spec op who oparg E.mask
  have hleast := h.least
  have hroom := h.room
  have hopen : ∀ c ∈ s.cmds ++ addcmd op who oparg E.mask, c.cmd ≠ .stop := by
    intro c hc
    rcases List.mem_append.mp hc with hc | hc
    · exact h.open_ c hc
    · exact hcmds c hc
  have hlength : (s.cmds ++ addcmd op who oparg E.mask).length =
      s.cmds.length + (addcmd op who oparg E.mask).length := List.length_append
  rw [ADDCMD]
  by_cases hfull : s.setlen - 2 ≤ s.cmds.length
  · rw [if_pos hfull]
    by_cases hmemory : E.memory s.asked = true
    · rw [if_pos hmemory, push_ok (by omega), ok_bind]
      have hroom' : (s.cmds ++ addcmd op who oparg E.mask).length + 1 ≤ s.setlen + 4 := by omega
      exact Gives.some ⟨⟨Nat.le_add_right_of_le hleast, hroom', hopen⟩, rfl⟩
    · rw [if_neg hmemory]
      exact ⟨none, rfl, fun x hx => absurd hx (by simp), fun hall => absurd (hall s.asked) hmemory⟩
  · rw [if_neg hfull, push_ok (by omega), ok_bind]
    have hroom' : (s.cmds ++ addcmd op who oparg E.mask).length + 1 ≤ s.setlen := by omega
    exact Gives.some ⟨⟨hleast, hroom', hopen⟩, rfl⟩

theorem copyChar_gives (h : Sound s) (op c : UInt8) (q : Local) :
    Gives E (fun t => Sound t.2) (copyChar E op c q s) := by
  have hfirst : Gives E Sound
      (if q.perm ≠ 0 then ADDCMD E s op q.who q.perm else .ok (some s)) := by
    split
    · exact (ADDCMD_gives h op q.who q.perm).mono fun _ h => h.1
    · exact Gives.some h
  refine hfirst.andThen fun s₁ h₁ => ?_
  dsimp only
  split
  · refine (ADDCMD_gives h₁ 88 q.who q.permXbits).andThen fun s₂ h₂ => ?_
    exact (ADDCMD_gives h₂.1 c q.who (int op)).andThen fun s₃ h₃ => Gives.some h₃.1
  · exact (ADDCMD_gives h₁ c q.who (int op)).andThen fun s₂ h₂ => Gives.some h₂.1

/-- What `finish` adds. -/
def finishCmds (E : Env) (op : UInt8) (q : Local) : List BitCmd :=
  (if q.perm ≠ 0 ∨ op = EQ ∧ q.equalopdone = false then addcmd op q.who q.perm E.mask else []) ++
    (if q.permXbits ≠ 0 then addcmd 88 q.who q.permXbits E.mask else [])

theorem finishX_gives (h : Sound s) (q : Local) :
    Gives E (fun t => Sound t.2 ∧ t.2.cmds = s.cmds ++
      (if q.permXbits ≠ 0 then addcmd 88 q.who q.permXbits E.mask else []) ∧ t.1.who = q.who)
      (finishX E q s) := by
  rw [finishX]
  split
  · exact (ADDCMD_gives h 88 q.who q.permXbits).andThen fun s₁ h₁ => Gives.some ⟨h₁.1, h₁.2, rfl⟩
  · exact Gives.some ⟨h, (List.append_nil _).symm, rfl⟩

theorem finish_gives (h : Sound s) (op : UInt8) (q : Local) :
    Gives E (fun t => Sound t.2 ∧ t.2.cmds = s.cmds ++ finishCmds E op q ∧ t.1.who = q.who)
      (finish E op q s) := by
  rw [finish, finishCmds]
  split
  · refine (ADDCMD_gives h op q.who q.perm).andThen fun s₁ h₁ => ?_
    refine (finishX_gives h₁.1 _).mono fun t ht => ⟨ht.1, ?_, ht.2.2⟩
    rw [ht.2.1, h₁.2, List.append_assoc]
  · exact (finishX_gives h q).mono fun t ht => ht

theorem permLoop_gives (h : Sound s) (op : UInt8) (p : Str) (q : Local) :
    Gives E (fun t => Sound t.2.2 ∧ t.1 <:+ p) (permLoop E op p q s) := by
  induction p generalizing q s with
  | nil => exact (finish_gives h op q).andThen fun t ht => Gives.some ⟨ht.1, List.suffix_rfl⟩
  | cons c p ih =>
    rw [permLoop]
    cases hperm : permChar c q with
    | some q' => exact (ih h q').mono fun t ht => ⟨ht.1, ht.2.trans (List.suffix_cons c p)⟩
    | none =>
      dsimp only
      split
      · refine (copyChar_gives h op c q).andThen fun t ht => ?_
        exact (ih ht t.1).mono fun t ht => ⟨ht.1, ht.2.trans (List.suffix_cons c p)⟩
      · exact (finish_gives h op q).andThen fun t ht => Gives.some ⟨ht.1, List.suffix_rfl⟩

theorem whoLoop_suffix (p : Str) (who : Mode) : (whoLoop p who).2 <:+ p := by
  induction p generalizing who with
  | nil => exact List.suffix_rfl
  | cons c p ih =>
    rw [whoLoop]
    split_ifs
    all_goals first
      | exact (ih _).trans (List.suffix_cons c p)
      | exact List.suffix_rfl

theorem clauseLoop_ok {steps : ℕ} (hsteps : p.length < steps) (h : Sound s) (who : Mode)
    (equalopdone : Bool) : ∃ r, clauseLoop E steps p who equalopdone s = .ok r ∧
      ∀ s' ∈ r, Sound s' := by
  induction steps generalizing p who equalopdone s with
  | zero => exact absurd hsteps (Nat.not_lt_zero _)
  | succ steps ih =>
    have hnone : ∃ r : Option Saved, (Except.ok none : Except Stop (Option Saved)) = .ok r ∧
        ∀ s' ∈ r, Sound s' := ⟨none, rfl, fun s' hs' => absurd hs' (by simp)⟩
    cases p with
    | nil => exact hnone
    | cons op p =>
      rw [List.length_cons] at hsteps
      rw [clauseLoop]
      split
      · obtain ⟨t, ht, hP, -⟩ := permLoop_gives (E := E) h op p
          ⟨who &&& ~~~S_ISTXT, 0, 0, if op = EQ then false else equalopdone⟩
        dsimp only
        rw [ht]
        cases t with
        | none => exact hnone
        | some t =>
          obtain ⟨rest, q, s'⟩ := t
          obtain ⟨hs', hsuffix⟩ := hP _ rfl
          have hshort := hsuffix.length_le
          cases rest with
          | nil =>
            refine ⟨_, rfl, fun s'' hs'' => ?_⟩
            rw [← Option.mem_some.mp hs'']
            exact hs'
          | cons c rest =>
            rw [List.length_cons] at hshort
            rw [andThen]
            dsimp only
            split
            · refine ih ?_ hs' q.who q.equalopdone
              rw [List.length_cons]
              omega
            · refine ih ?_ hs' _ q.equalopdone
              have hwho := (whoLoop_suffix rest 0).length_le
              omega
      · exact hnone

theorem Saved.ended_ok (h : Sound s) :
    s.ended = .ok (s.cmds ++ [⟨.stop, {}, 0⟩]) := by
  rw [Saved.ended]
  exact push_ok h.room

theorem sound_start : Sound ⟨[], 8, 1⟩ :=
  ⟨Nat.le_refl 8, by decide, fun c hc => absurd hc List.not_mem_nil⟩

end Sound

/-- For every text `setmode` stores inside its array and ends, and the commands that it returns have an
end, so that `getmode` finds a mode. -/
theorem setmode_ok (E : Env) (p : Str) : ∃ r, setmode E p = .ok r ∧
    ∀ cmds ∈ r, ∀ omode, ∃ mode, getmode cmds omode = some mode := by
  have hnone : ∃ r : Option (List BitCmd),
      (Except.ok none : Except Stop (Option (List BitCmd))) = .ok r ∧
      ∀ cmds ∈ r, ∀ omode, ∃ mode, getmode cmds omode = some mode :=
    ⟨none, rfl, fun cmds hcmds => absurd hcmds (by simp)⟩
  have hends : ∀ s : Saved, Ends (s.cmds ++ [⟨.stop, {}, 0⟩]) := fun s =>
    ⟨_, List.mem_append_right _ (List.mem_singleton_self _), rfl⟩
  cases p with
  | nil => exact hnone
  | cons c p =>
    rw [setmode]
    split_ifs with hmemory hdigit
    · exact hnone
    · dsimp only
      split
      · exact hnone
      · obtain ⟨t, ht, hP, -⟩ := ADDCMD_gives (E := E) sound_start EQ (STANDARD_BITS ||| S_ISTXT)
          (BitVec.ofNat 32 (strtol8 (c :: p)).1)
        rw [ht]
        cases t with
        | none => exact hnone
        | some s =>
          rw [andThen, Saved.ended_ok (hP s rfl).1]
          refine ⟨_, rfl, fun cmds hcmds omode => ?_⟩
          rw [← Option.mem_some.mp hcmds]
          exact getmodeLoop_ends omode (hends s) omode
    · have hshort := (whoLoop_suffix (c :: p) 0).length_le
      rw [List.length_cons] at hshort
      have hsteps : (whoLoop (c :: p) 0).2.length < p.length + 2 := by omega
      obtain ⟨t, ht, hP⟩ := clauseLoop_ok (E := E) hsteps sound_start (whoLoop (c :: p) 0).1 false
      dsimp only
      rw [ht]
      cases t with
      | none => exact hnone
      | some s =>
        rw [andThen, Saved.ended_ok (hP s rfl), ok_bind]
        obtain ⟨a', hcompress, hsame⟩ := compress_mode_keeps _ (hends s)
        rw [hcompress, ok_bind]
        refine ⟨_, rfl, fun cmds hcmds omode => ?_⟩
        rw [← Option.mem_some.mp hcmds, hsame]
        exact getmodeLoop_ends omode (hends s) omode

end Mintlib.Setmode
