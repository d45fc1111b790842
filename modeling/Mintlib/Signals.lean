import Mintlib.Lib.Bits
import Mintlib.Lib.Run
import Mintlib.Posix

/-!
# Signals without kernel support: `kill.c`, `sigsetmask.c` and `sigblock.c`

On TOS the kernel calls answer `-ENOSYS` and the library keeps the signal mask and
the set of pending signals itself. Handlers are arbitrary programs that make the same
calls. What they interrupt is a stack: each handler that runs, and below it the rest
of the loop in `checksigs` if that is where it was called.
-/

namespace Mintlib.Signals

open Posix

abbrev NSIG : ℕ := 32
abbrev SIGKILL : ℕ := 9
abbrev SIGCONT : ℕ := 19
abbrev SIGCHLD : ℕ := 20

inductive Disposition
  | SIG_DFL | SIG_IGN | handler
deriving DecidableEq

/-- What is to be done when the code that runs now returns. -/
inductive Frame
  /-- A handler for the signal runs. -/
  | handler (sig : ℕ)
  /-- `checksigs` has the signals `rest` to go through; then `sigsetmask` returns `omask`. -/
  | loop (send : BitVec 32) (rest : List ℕ) (omask : BitVec 32)

structure Proc where
  sigmask : BitVec 32
  sigpending : BitVec 32
  stack : List Frame
  exited : Option ℕ
  /-- What the last call that returned has returned, and `errno`. -/
  rval : BitVec 32
  errno : ℕ
  /-- Signals that were sent while not pending, and deliveries, so far. -/
  accepted : ℕ → ℕ
  delivered : ℕ → ℕ

abbrev bit (sig : ℕ) : BitVec 32 := BitVec.twoPow 32 sig

/-- `sig != SIGKILL && (_sigmask & (1L << sig))`. -/
def Blocked (p : Proc) (sig : ℕ) : Prop := sig ≠ SIGKILL ∧ p.sigmask &&& bit sig ≠ 0

instance (p : Proc) (sig : ℕ) : Decidable (Blocked p sig) := inferInstanceAs (Decidable (_ ∧ _))

def Pending (p : Proc) (sig : ℕ) : Prop := p.sigpending &&& bit sig ≠ 0

instance (p : Proc) (sig : ℕ) : Decidable (Pending p sig) := inferInstanceAs (Decidable (_ ≠ _))

/-- How `kill` ends: it returns, a handler starts, or the process exits. -/
inductive Killed
  | returned (p : Proc)
  | handler (p : Proc)
  | exited (p : Proc)

def Killed.proc : Killed → Proc
  | .returned p => p
  | .handler p => p
  | .exited p => p

def deliver (sig : ℕ) (p : Proc) : Proc :=
  { p with sigpending := p.sigpending &&& ~~~bit sig
           delivered := Function.update p.delivered sig (p.delivered sig + 1) }

/-- `kill` of the process itself with a valid signal. -/
def killSelf (H : ℕ → Disposition) (sig : ℕ) (p : Proc) : Killed :=
  if H sig = .SIG_IGN then .returned p
  else if Blocked p sig then .returned { p with sigpending := p.sigpending ||| bit sig }
  else if H sig = .SIG_DFL then
    if sig = SIGCONT ∨ sig = SIGCHLD then .returned (deliver sig p)
    else .exited { deliver sig p with exited := some (sig <<< 8) }
  else .handler (deliver sig p)

/-- The loop of `checksigs` over the signals that are left, up to the next handler. -/
def checksigs (H : ℕ → Disposition) (send omask : BitVec 32) : List ℕ → Proc → Proc
  | [], p => { p with rval := omask }
  | sig :: rest, p =>
    if send &&& bit sig ≠ 0 then
      match killSelf H sig p with
      | .returned p => checksigs H send omask rest p
      | .handler p => { p with stack := .handler sig :: .loop send rest omask :: p.stack }
      | .exited p => p
    else checksigs H send omask rest p

def sigsetmask (H : ℕ → Disposition) (mask : BitVec 32) (p : Proc) : Proc :=
  let omask := p.sigmask
  let p := { p with sigmask := mask }
  let send := p.sigpending &&& ~~~p.sigmask
  if send ≠ 0 then checksigs H send omask (List.range NSIG) p else { p with rval := omask }

def sigblock (mask : BitVec 32) (p : Proc) : Proc :=
  { p with sigmask := p.sigmask ||| mask, rval := p.sigmask }

def accept (H : ℕ → Disposition) (sig : ℕ) (p : Proc) : Proc :=
  if H sig = .SIG_IGN ∨ Pending p sig then p
  else { p with accepted := Function.update p.accepted sig (p.accepted sig + 1) }

/-- `kill (pid, sig)` by the program, in the process `getpid`. -/
def kill (H : ℕ → Disposition) (getpid pid sig : ℤ) (p : Proc) : Proc :=
  if sig < 0 ∨ (NSIG : ℤ) ≤ sig ∨ (pid ≠ 0 ∧ pid ≠ getpid) then
    { p with rval := BitVec.allOnes 32, errno := EINVAL }
  else
    match killSelf H sig.toNat (accept H sig.toNat p) with
    | .returned p => { p with rval := 0 }
    | .handler p => { p with stack := .handler sig.toNat :: p.stack }
    | .exited p => p

/-- What the code that runs now does: a call, or the return of a handler. -/
inductive Event
  | kill (pid sig : ℤ)
  | sigblock (mask : BitVec 32)
  | sigsetmask (mask : BitVec 32)
  | ret

/-- A handler returns, to `checksigs` or to the program's own call of `kill`. -/
def handlerReturns (H : ℕ → Disposition) (p : Proc) : Option Proc :=
  match p.stack with
  | .handler _ :: .loop send rest omask :: st =>
    some (checksigs H send omask rest { p with stack := st })
  | .handler _ :: st => some { p with stack := st, rval := 0 }
  | _ => none

def step (H : ℕ → Disposition) (getpid : ℤ) (p : Proc) (e : Event) : Option Proc :=
  if p.exited.isSome then none
  else
    match e with
    | .kill pid sig => some (kill H getpid pid sig p)
    | .sigblock mask => some (sigblock mask p)
    | .sigsetmask mask => some (sigsetmask H mask p)
    | .ret => handlerReturns H p

/-- Whenever the loop comes to a signal of its snapshot, the signal is still pending. -/
def LoopOk (H : ℕ → Disposition) (send : BitVec 32) : List ℕ → Proc → Prop
  | [], _ => True
  | sig :: rest, p =>
    if send &&& bit sig ≠ 0 then
      Pending p sig ∧
        match killSelf H sig p with
        | .returned p => LoopOk H send rest p
        | _ => True
    else LoopOk H send rest p

/-- The condition on a step: a handler that returns to the loop has not had a signal
delivered that the loop comes to next. -/
def StepOk (H : ℕ → Disposition) (p : Proc) : Event → Prop
  | .ret =>
    match p.stack with
    | .handler _ :: .loop send rest _ :: st => LoopOk H send rest { p with stack := st }
    | _ => True
  | _ => True

/-- Programs and handlers that start with no signal blocked or pending. -/
def process (H : ℕ → Disposition) (getpid : ℤ) (ok : Proc → Event → Prop) : Machine Proc Event where
  init p := p.sigmask = 0 ∧ p.sigpending = 0 ∧ p.stack = [] ∧ p.exited = none ∧
    p.accepted = 0 ∧ p.delivered = 0
  step p e p' := ok p e ∧ step H getpid p e = some p'

def Frame.Todo : Frame → ℕ → Prop
  | .handler _, _ => False
  | .loop send rest _, sig => sig ∈ rest ∧ send &&& bit sig ≠ 0

/-- The invariant, while the signals in `todo` are still to be looked at. -/
structure Sound (H : ℕ → Disposition) (todo : ℕ → Prop) (p : Proc) : Prop where
  books : ∀ sig < NSIG,
    p.delivered sig + (if Pending p sig then 1 else 0) = p.accepted sig
  live : ∀ sig < NSIG, Pending p sig → H sig ≠ .SIG_IGN ∧ sig ≠ SIGKILL
  covered : p.exited = none → ∀ sig < NSIG, Pending p sig → ¬ Blocked p sig →
    todo sig ∨ ∃ f ∈ p.stack, f.Todo sig

section Lemmas

variable {H : ℕ → Disposition} {getpid : ℤ} {p p' : Proc} {sig x : ℕ} {todo : ℕ → Prop}
  {send omask : BitVec 32} {rest : List ℕ} {e : Event}

theorem pending_iff (hx : x < NSIG) : Pending p x ↔ p.sigpending.getLsbD x = true :=
  Bits.and_twoPow_ne_zero _ hx

theorem pending_deliver (hx : x < NSIG) : Pending (deliver sig p) x ↔ Pending p x ∧ x ≠ sig := by
  rw [pending_iff hx, pending_iff hx]
  simp only [deliver, bit, BitVec.getLsbD_and, BitVec.getLsbD_not, BitVec.getLsbD_twoPow]
  by_cases hxs : x = sig
  · subst hxs
    simp [hx]
  · simp [hx, hxs, Ne.symm hxs]

theorem pending_record (hx : x < NSIG) :
    Pending { p with sigpending := p.sigpending ||| bit sig } x ↔ Pending p x ∨ x = sig := by
  rw [pending_iff hx, pending_iff hx]
  simp only [bit, BitVec.getLsbD_or, BitVec.getLsbD_twoPow]
  by_cases hxs : x = sig
  · subst hxs
    simp [hx]
  · simp [hxs, Ne.symm hxs]

/-- What is known of `kill` before it looks at the mask: the signal is one that was
accepted and is not delivered yet. -/
structure Due (H : ℕ → Disposition) (todo : ℕ → Prop) (sig : ℕ) (p : Proc) : Prop where
  books : ∀ x < NSIG, x ≠ sig → p.delivered x + (if Pending p x then 1 else 0) = p.accepted x
  due : p.delivered sig + 1 = p.accepted sig
  heard : H sig ≠ .SIG_IGN
  live : ∀ x < NSIG, Pending p x → H x ≠ .SIG_IGN ∧ x ≠ SIGKILL
  covered : p.exited = none → ∀ x < NSIG, x ≠ sig → Pending p x → ¬ Blocked p x →
    todo x ∨ ∃ f ∈ p.stack, f.Todo x

theorem Due.delivered (h : Due H todo sig p) : Sound H todo (deliver sig p) where
  books x hx := by
    by_cases hxs : x = sig
    · subst hxs
      rw [if_neg (by rw [pending_deliver hx]; simp)]
      have hd : (deliver x p).delivered x = p.delivered x + 1 := Function.update_self _ _ _
      rw [hd]
      exact h.due
    · have hd : (deliver sig p).delivered x = p.delivered x := Function.update_of_ne hxs _ _
      have ha : (deliver sig p).accepted x = p.accepted x := rfl
      rw [hd, ha, ← h.books x hx hxs]
      simp only [pending_deliver hx, hxs, ne_eq, not_false_eq_true, and_true]
  live x hx hp := h.live x hx ((pending_deliver hx).mp hp).1
  covered he x hx hp hb := by
    obtain ⟨hpx, hxs⟩ := (pending_deliver hx).mp hp
    exact h.covered he x hx hxs hpx hb

theorem Due.recorded (h : Due H todo sig p) (hb : Blocked p sig) :
    Sound H todo { p with sigpending := p.sigpending ||| bit sig } where
  books x hx := by
    by_cases hxs : x = sig
    · subst hxs
      rw [if_pos ((pending_record hx).mpr (Or.inr rfl))]
      exact h.due
    · show p.delivered x + _ = p.accepted x
      rw [← h.books x hx hxs]
      simp only [pending_record hx, hxs, or_false]
  live x hx hp := by
    rcases (pending_record hx).mp hp with hp | rfl
    · exact h.live x hx hp
    · exact ⟨h.heard, hb.1⟩
  covered he x hx hp hbx := by
    have hxs : x ≠ sig := by
      rintro rfl
      exact hbx hb
    exact h.covered he x hx hxs (((pending_record hx).mp hp).resolve_right hxs) hbx

/-- What `kill` does, whichever way it ends. -/
structure KillOk (H : ℕ → Disposition) (todo : ℕ → Prop) (p : Proc) (k : Killed) : Prop where
  sound : Sound H todo k.proc
  stack : k.proc.stack = p.stack
  mask : k.proc.sigmask = p.sigmask
  quiet : ∀ x, Blocked p x → k.proc.delivered x = p.delivered x
  exited : ∀ q, k = .exited q → q.exited ≠ none

theorem Due.killSelf (h : Due H todo sig p) : KillOk H todo p (killSelf H sig p) := by
  have hquiet : ¬ Blocked p sig → ∀ x, Blocked p x →
      (deliver sig p).delivered x = p.delivered x := by
    intro hb x hbx
    have hne : x ≠ sig := by
      rintro rfl
      exact hb hbx
    exact Function.update_of_ne hne _ _
  unfold Signals.killSelf
  rw [if_neg h.heard]
  by_cases hb : Blocked p sig
  · rw [if_pos hb]
    exact ⟨h.recorded hb, rfl, rfl, fun _ _ => rfl, fun _ hq => by simp at hq⟩
  rw [if_neg hb]
  have hs := h.delivered
  by_cases hd : H sig = .SIG_DFL
  · rw [if_pos hd]
    by_cases hc : sig = SIGCONT ∨ sig = SIGCHLD
    · rw [if_pos hc]
      exact ⟨hs, rfl, rfl, hquiet hb, fun _ hq => by simp at hq⟩
    · rw [if_neg hc]
      refine ⟨⟨hs.books, hs.live, fun he => ?_⟩, rfl, rfl, hquiet hb, fun q hq => ?_⟩
      · simp [Killed.proc] at he
      · rw [← Killed.exited.inj hq]
        exact Option.some_ne_none _
  · rw [if_neg hd]
    exact ⟨hs, rfl, rfl, hquiet hb, fun _ hq => by simp at hq⟩

theorem Sound.due (h : Sound H (fun x => x ∈ sig :: rest ∧ send &&& bit x ≠ 0) p)
    (hsig : sig < NSIG) (hp : Pending p sig) :
    Due H (fun x => x ∈ rest ∧ send &&& bit x ≠ 0) sig p where
  books x hx _ := h.books x hx
  due := by
    have hb := h.books sig hsig
    rwa [if_pos hp] at hb
  heard := (h.live sig hsig hp).1
  live := h.live
  covered he x hx hxs hpx hb := by
    refine (h.covered he x hx hpx hb).imp_left fun ⟨hmem, hsend⟩ => ?_
    exact ⟨(List.mem_cons.mp hmem).resolve_left hxs, hsend⟩

structure LoopDone (H : ℕ → Disposition) (p p' : Proc) : Prop where
  sound : Sound H (fun _ => False) p'
  mask : p'.sigmask = p.sigmask
  quiet : ∀ x, Blocked p x → p'.delivered x = p.delivered x

theorem checksigs_sound (omask : BitVec 32) (hok : LoopOk H send rest p)
    (h : Sound H (fun x => x ∈ rest ∧ send &&& bit x ≠ 0) p) :
    LoopDone H p (checksigs H send omask rest p) := by
  induction rest generalizing p with
  | nil =>
    refine ⟨⟨h.books, h.live, fun he x hx hp hb => ?_⟩, rfl, fun _ _ => rfl⟩
    exact (h.covered he x hx hp hb).imp_left fun hmem => List.not_mem_nil hmem.1
  | cons sig rest ih =>
    unfold checksigs
    unfold LoopOk at hok
    by_cases hsend : send &&& bit sig ≠ 0
    · rw [if_pos hsend] at hok ⊢
      obtain ⟨hp, hok⟩ := hok
      have hkill := (h.due (Bits.lt_of_and_twoPow hsend) hp).killSelf
      revert hok hkill
      cases killSelf H sig p with
      | returned q =>
        intro hok hkill
        obtain ⟨hs, hm, hq⟩ := ih hok hkill.sound
        have hmask : q.sigmask = p.sigmask := hkill.mask
        refine ⟨hs, hm.trans hmask, fun x hb => (hq x ?_).trans (hkill.quiet x hb)⟩
        rwa [Blocked, hmask]
      | handler q =>
        intro _ hkill
        have hs : Sound H (fun x => x ∈ rest ∧ send &&& bit x ≠ 0) q := hkill.sound
        refine ⟨⟨hs.books, hs.live, fun he x hx hp hb => Or.inr ?_⟩, hkill.mask, hkill.quiet⟩
        -- what the loop has left is now on the stack
        rcases hs.covered he x hx hp hb with htodo | ⟨f, hf, hft⟩
        · exact ⟨.loop send rest omask, by simp, htodo⟩
        · exact ⟨f, by simp [hf], hft⟩
      | exited q =>
        intro _ hkill
        have hs : Sound H (fun x => x ∈ rest ∧ send &&& bit x ≠ 0) q := hkill.sound
        refine ⟨⟨hs.books, hs.live, fun he => ?_⟩, hkill.mask, hkill.quiet⟩
        exact absurd he (hkill.exited q rfl)
    · rw [if_neg hsend] at hok ⊢
      refine ih hok ⟨h.books, h.live, fun he x hx hp hb => ?_⟩
      refine (h.covered he x hx hp hb).imp_left fun ⟨hmem, hs⟩ => ⟨?_, hs⟩
      rcases List.mem_cons.mp hmem with rfl | hmem
      · exact absurd hs hsend
      · exact hmem

theorem pending_killSelf {q : Proc} (hx : x < NSIG) (hne : x ≠ sig)
    (hk : killSelf H sig p = .returned q) : Pending q x ↔ Pending p x := by
  unfold killSelf at hk
  by_cases hi : H sig = .SIG_IGN
  · rw [if_pos hi] at hk
    rw [Killed.returned.inj hk]
  rw [if_neg hi] at hk
  by_cases hb : Blocked p sig
  · rw [if_pos hb] at hk
    rw [← Killed.returned.inj hk, pending_record hx]
    exact or_iff_left hne
  rw [if_neg hb] at hk
  by_cases hd : H sig = .SIG_DFL
  · rw [if_pos hd] at hk
    by_cases hc : sig = SIGCONT ∨ sig = SIGCHLD
    · rw [if_pos hc] at hk
      rw [← Killed.returned.inj hk, pending_deliver hx]
      exact and_iff_left hne
    · rw [if_neg hc] at hk
      simp at hk
  · rw [if_neg hd] at hk
    simp at hk

theorem loopOk_of_pending (hrest : ∀ x ∈ rest, x < NSIG) (hnd : rest.Nodup)
    (h : ∀ x ∈ rest, send &&& bit x ≠ 0 → Pending p x) : LoopOk H send rest p := by
  induction rest generalizing p with
  | nil => exact trivial
  | cons sig rest ih =>
    have hrest' : ∀ x ∈ rest, x < NSIG := fun x hx => hrest x (List.mem_cons_of_mem _ hx)
    obtain ⟨hsig, hnd'⟩ := List.nodup_cons.mp hnd
    unfold LoopOk
    by_cases hsend : send &&& bit sig ≠ 0
    · rw [if_pos hsend]
      refine ⟨h sig List.mem_cons_self hsend, ?_⟩
      cases hk : killSelf H sig p with
      | returned q =>
        refine ih hrest' hnd' fun x hx hs => ?_
        have hne : x ≠ sig := fun he => hsig (he ▸ hx)
        exact (pending_killSelf (hrest' x hx) hne hk).mpr (h x (List.mem_cons_of_mem _ hx) hs)
      | handler q => exact trivial
      | exited q => exact trivial
    · rw [if_neg hsend]
      exact ih hrest' hnd' fun x hx => h x (List.mem_cons_of_mem _ hx)

theorem mem_send (hx : x < NSIG) :
    (p.sigpending &&& ~~~p.sigmask) &&& bit x ≠ 0 ↔ Pending p x ∧ ¬ p.sigmask &&& bit x ≠ 0 := by
  rw [pending_iff hx]
  have h1 := Bits.and_twoPow_ne_zero (p.sigpending &&& ~~~p.sigmask) hx
  have h2 := Bits.and_twoPow_ne_zero p.sigmask hx
  simp only [BitVec.getLsbD_and, BitVec.getLsbD_not, hx, decide_true, Bool.true_and,
    Bool.and_eq_true, Bool.not_eq_true'] at h1
  rw [show (0 : BitVec 32) = 0#32 from rfl, h1, h2, Bool.not_eq_true]

theorem sigsetmask_sound (mask : BitVec 32) (h : Sound H (fun _ => False) p) :
    LoopDone H { p with sigmask := mask } (sigsetmask H mask p) := by
  set q : Proc := { p with sigmask := mask } with hq
  have hsend : ∀ x < NSIG, Pending q x → ¬ Blocked q x →
      (q.sigpending &&& ~~~q.sigmask) &&& bit x ≠ 0 := by
    intro x hx hp hb
    have hkill := (h.live x hx hp).2
    exact (mem_send hx).mpr ⟨hp, fun hm => hb ⟨hkill, hm⟩⟩
  show LoopDone H q (if q.sigpending &&& ~~~q.sigmask ≠ 0 then
    checksigs H (q.sigpending &&& ~~~q.sigmask) p.sigmask (List.range NSIG) q
    else { q with rval := p.sigmask })
  by_cases hne : q.sigpending &&& ~~~q.sigmask ≠ 0
  · rw [if_pos hne]
    have hrange : ∀ x ∈ List.range NSIG, x < NSIG := fun x hx => List.mem_range.mp hx
    refine checksigs_sound _ (loopOk_of_pending hrange List.nodup_range fun x hx hs =>
      ((mem_send (hrange x hx)).mp hs).1) ⟨h.books, h.live, fun _ x hx hp hb => Or.inl ?_⟩
    exact ⟨List.mem_range.mpr hx, hsend x hx hp hb⟩
  · rw [if_neg hne]
    rw [not_not] at hne
    refine ⟨⟨h.books, h.live, fun _ x hx hp hb => ?_⟩, rfl, fun _ _ => rfl⟩
    have hbit := hsend x hx hp hb
    rw [hne] at hbit
    simp at hbit

theorem Sound.accept (h : Sound H todo p) (hsig : sig < NSIG) (hi : H sig ≠ .SIG_IGN) :
    Due H todo sig (accept H sig p) := by
  unfold Signals.accept
  have hb := h.books sig hsig
  by_cases hp : Pending p sig
  · rw [if_pos (Or.inr hp)]
    rw [if_pos hp] at hb
    exact ⟨fun x hx _ => h.books x hx, hb, hi, h.live, fun he x hx _ => h.covered he x hx⟩
  · rw [if_neg (not_or.mpr ⟨hi, hp⟩)]
    rw [if_neg hp, Nat.add_zero] at hb
    refine ⟨fun x hx hne => ?_, ?_, hi, h.live, fun he x hx _ => h.covered he x hx⟩
    · show p.delivered x + _ = Function.update p.accepted sig (p.accepted sig + 1) x
      rw [Function.update_of_ne hne]
      exact h.books x hx
    · show p.delivered sig + 1 = Function.update p.accepted sig (p.accepted sig + 1) sig
      rw [Function.update_self, hb]

theorem accept_mask : (accept H sig p).sigmask = p.sigmask := by
  unfold accept
  by_cases h : H sig = .SIG_IGN ∨ Pending p sig
  · rw [if_pos h]
  · rw [if_neg h]

theorem accept_delivered : (accept H sig p).delivered = p.delivered := by
  unfold accept
  by_cases h : H sig = .SIG_IGN ∨ Pending p sig
  · rw [if_pos h]
  · rw [if_neg h]

theorem kill_sound {pid n : ℤ} (h : Sound H (fun _ => False) p) :
    LoopDone H p (kill H getpid pid n p) := by
  unfold kill
  by_cases hbad : n < 0 ∨ (NSIG : ℤ) ≤ n ∨ (pid ≠ 0 ∧ pid ≠ getpid)
  · rw [if_pos hbad]
    exact ⟨⟨h.books, h.live, h.covered⟩, rfl, fun _ _ => rfl⟩
  rw [if_neg hbad]
  have hsig : n.toNat < NSIG := by omega
  by_cases hi : H n.toNat = .SIG_IGN
  · have hacc : accept H n.toNat p = p := if_pos (Or.inl hi)
    rw [hacc, killSelf, if_pos hi]
    exact ⟨⟨h.books, h.live, h.covered⟩, rfl, fun _ _ => rfl⟩
  have hkill := (h.accept hsig hi).killSelf
  have hmask : (accept H n.toNat p).sigmask = p.sigmask := accept_mask
  have hquiet : ∀ x, Blocked p x →
      (killSelf H n.toNat (accept H n.toNat p)).proc.delivered x = p.delivered x := by
    intro x hb
    rw [hkill.quiet x (by rwa [Blocked, hmask]), accept_delivered]
  revert hkill hquiet
  cases killSelf H n.toNat (accept H n.toNat p) with
  | returned q =>
    intro hkill hquiet
    have hs : Sound H (fun _ => False) q := hkill.sound
    exact ⟨⟨hs.books, hs.live, hs.covered⟩, hkill.mask.trans hmask, hquiet⟩
  | handler q =>
    intro hkill hquiet
    have hs : Sound H (fun _ => False) q := hkill.sound
    refine ⟨⟨hs.books, hs.live, fun he x hx hp hb => ?_⟩, hkill.mask.trans hmask, hquiet⟩
    rcases hs.covered he x hx hp hb with hf | ⟨f, hf, hft⟩
    · exact Or.inl hf
    · exact Or.inr ⟨f, List.mem_cons_of_mem _ hf, hft⟩
  | exited q =>
    intro hkill hquiet
    exact ⟨hkill.sound, hkill.mask.trans hmask, hquiet⟩

theorem sigblock_sound {mask : BitVec 32} (h : Sound H (fun _ => False) p) :
    Sound H (fun _ => False) (sigblock mask p) := by
  refine ⟨h.books, h.live, fun he x hx hp hb => h.covered he x hx hp fun hbp => hb ⟨hbp.1, ?_⟩⟩
  have hbit := (Bits.and_twoPow_ne_zero p.sigmask hx).mp hbp.2
  apply (Bits.and_twoPow_ne_zero _ hx).mpr
  simp [sigblock, hbit]

theorem handlerReturns_sound (h : Sound H (fun _ => False) p) (hok : StepOk H p .ret)
    (hret : handlerReturns H p = some p') : LoopDone H p p' := by
  have hpop : ∀ {n : ℕ} {st : List Frame}, p.stack = .handler n :: st →
      Sound H (fun _ => False) { p with stack := st, rval := 0 } := by
    intro n st hst
    refine ⟨h.books, h.live, fun he x hx hp hb => Or.inr ?_⟩
    obtain ⟨f, hf, hft⟩ := (h.covered he x hx hp hb).resolve_left id
    rw [hst] at hf
    rcases List.mem_cons.mp hf with rfl | hf
    · exact absurd hft id
    · exact ⟨f, hf, hft⟩
  unfold handlerReturns at hret
  unfold StepOk at hok
  cases hst : p.stack with
  | nil => simp [hst] at hret
  | cons f st =>
    cases f with
    | loop send rest omask => simp [hst] at hret
    | handler n =>
      rw [hst] at hret hok
      cases st with
      | nil =>
        rw [← Option.some.inj hret]
        exact ⟨hpop hst, rfl, fun _ _ => rfl⟩
      | cons g st =>
        cases g with
        | handler k =>
          rw [← Option.some.inj hret]
          exact ⟨hpop hst, rfl, fun _ _ => rfl⟩
        | loop send rest omask =>
          rw [← Option.some.inj hret]
          have hs : Sound H (fun x => x ∈ rest ∧ send &&& bit x ≠ 0) { p with stack := st } := by
            refine ⟨h.books, h.live, fun he x hx hp hb => ?_⟩
            obtain ⟨f, hf, hft⟩ := (h.covered he x hx hp hb).resolve_left id
            rw [hst] at hf
            rcases List.mem_cons.mp hf with rfl | hf
            · exact absurd hft id
            rcases List.mem_cons.mp hf with rfl | hf
            · exact Or.inl hft
            · exact Or.inr ⟨f, hf, hft⟩
          obtain ⟨hs', hm, hq⟩ := checksigs_sound omask hok hs
          exact ⟨hs', hm, hq⟩

/-- What one step does: the invariant stays, what is blocked is not delivered, and a
blocked signal that the process sends itself is recorded. -/
structure Lawful (H : ℕ → Disposition) (p : Proc) (e : Event) (p' : Proc) : Prop where
  sound : Sound H (fun _ => False) p'
  quiet : ∀ sig, Blocked p' sig → p'.delivered sig = p.delivered sig
  recorded : ∀ sig < NSIG, e = .kill 0 sig → H sig ≠ .SIG_IGN → Blocked p sig →
    Pending p' sig ∧ p'.delivered sig = p.delivered sig

theorem LoopDone.lawful (h : LoopDone H p p')
    (hrec : ∀ sig < NSIG, e = .kill 0 sig → H sig ≠ .SIG_IGN → Blocked p sig →
      Pending p' sig ∧ p'.delivered sig = p.delivered sig) : Lawful H p e p' := by
  refine ⟨h.sound, fun sig hb => h.quiet sig ?_, hrec⟩
  rwa [Blocked, ← h.mask]

theorem kill_recorded (hsig : sig < NSIG) (hi : H sig ≠ .SIG_IGN) (hb : Blocked p sig) :
    Pending (kill H getpid 0 sig p) sig ∧ (kill H getpid 0 sig p).delivered sig = p.delivered sig := by
  have hb' : Blocked (accept H sig p) sig := by rwa [Blocked, accept_mask]
  unfold kill
  rw [if_neg (by omega), Int.toNat_natCast, killSelf, if_neg hi, if_pos hb']
  exact ⟨(pending_record (p := accept H sig p) hsig).mpr (Or.inr rfl),
    congrFun accept_delivered sig⟩

theorem step_lawful (h : Sound H (fun _ => False) p) (hok : StepOk H p e)
    (hstep : step H getpid p e = some p') : Lawful H p e p' := by
  unfold step at hstep
  by_cases hex : p.exited.isSome
  · rw [if_pos hex] at hstep
    simp at hstep
  rw [if_neg hex] at hstep
  cases e with
  | kill pid n =>
    rw [← Option.some.inj hstep]
    refine (kill_sound h).lawful fun sig hsig he hi hb => ?_
    obtain ⟨rfl, rfl⟩ := Event.kill.inj he
    exact kill_recorded hsig hi hb
  | sigblock mask =>
    rw [← Option.some.inj hstep]
    exact ⟨sigblock_sound h, fun _ _ => rfl, fun _ _ he => by simp at he⟩
  | sigsetmask mask =>
    rw [← Option.some.inj hstep]
    obtain ⟨hs, hm, hq⟩ := sigsetmask_sound mask h
    refine ⟨hs, fun sig hb => hq sig ?_, fun _ _ he => by simp at he⟩
    rwa [Blocked, ← hm]
  | ret => exact (handlerReturns_sound h hok hstep).lawful fun _ _ he => by simp at he

end Lemmas

section Runs

variable {H : ℕ → Disposition} {getpid : ℤ} {p : Proc} {es : List Event}

/-- Programs and handlers under which the loop finds its signals still pending. -/
abbrev careful (H : ℕ → Disposition) (getpid : ℤ) : Machine Proc Event :=
  process H getpid (StepOk H)

theorem sound_of_run (hrun : (careful H getpid).Run es p) : Sound H (fun _ => False) p := by
  refine hrun.invariant (P := Sound H fun _ => False) ?_ ?_
  · rintro p ⟨-, hp, -, -, ha, hd⟩
    have hnone : ∀ sig, ¬ Pending p sig := by
      intro sig
      rw [Pending, hp]
      simp
    exact ⟨fun sig _ => by rw [if_neg (hnone sig), ha, hd]; rfl,
      fun sig _ h => absurd h (hnone sig), fun _ sig _ h => absurd h (hnone sig)⟩
  · rintro p e p' h ⟨hok, hstep⟩
    exact (step_lawful h hok hstep).sound

/-- When every call has returned, no signal is pending and not blocked. -/
def Settled (p : Proc) : Prop :=
  p.stack = [] → p.exited = none → ∀ sig < NSIG, Pending p sig → Blocked p sig

/-- In every run of such programs each signal that was sent is pending or was delivered
exactly once, nothing blocked is delivered, and when every call has returned what is
pending is blocked. -/
theorem signals_delivered_once (hrun : (careful H getpid).Run es p) :
    (∀ sig < NSIG, p.delivered sig + (if Pending p sig then 1 else 0) = p.accepted sig) ∧
    Settled p ∧
    ∀ e p', StepOk H p e → step H getpid p e = some p' → Lawful H p e p' ∧ Settled p' := by
  have hsettled : ∀ {p : Proc}, Sound H (fun _ => False) p → Settled p := by
    intro p hs hst he sig hsig hp
    by_contra hb
    obtain ⟨f, hf, -⟩ := (hs.covered he sig hsig hp hb).resolve_left id
    rw [hst] at hf
    exact absurd hf List.not_mem_nil
  have hs := sound_of_run hrun
  refine ⟨hs.books, hsettled hs, fun e p' hok hstep => ?_⟩
  have hl := step_lawful hs hok hstep
  exact ⟨hl, hsettled hl.sound⟩

def demoHandlers : ℕ → Disposition := fun sig => if sig = 1 ∨ sig = 2 then .handler else .SIG_DFL

def demoProc : Proc := ⟨0, 0, [], none, 0, 0, 0, 0⟩

def demoRun (es : List Event) : Option Proc := es.foldlM (step demoHandlers 1) demoProc

/-- Both signals are sent while they are blocked, then the mask is cleared. -/
def demoEvents : List Event := [.sigblock 6, .kill 0 1, .kill 0 2, .sigsetmask 0]

theorem demoProc_init {ok : Proc → Event → Prop} : (process demoHandlers 1 ok).Run [] demoProc :=
  .start ⟨rfl, rfl, rfl, rfl, rfl, rfl⟩

theorem some_getD {α : Type*} {o : Option α} (d : α) (h : o.isSome = true) :
    o = some (o.getD d) := by
  cases o with
  | none => simp at h
  | some a => rfl

theorem signals_delivered_once_demo : ∃ p, demoRun demoEvents = some p ∧
    (∀ sig < NSIG, p.delivered sig + (if Pending p sig then 1 else 0) = p.accepted sig) ∧
    Settled p ∧ ∀ e p', StepOk demoHandlers p e → step demoHandlers 1 p e = some p' →
      Lawful demoHandlers p e p' ∧ Settled p' := by
  have hrun : demoRun demoEvents = some ((demoRun demoEvents).getD demoProc) :=
    some_getD _ (by decide +kernel)
  refine ⟨_, hrun, signals_delivered_once (demoProc_init.foldlM ?_ hrun)⟩
  intro e he s s' hstep
  refine ⟨?_, hstep⟩
  simp only [demoEvents, List.mem_cons, List.not_mem_nil, or_false] at he
  rcases he with rfl | rfl | rfl | rfl <;> trivial

/-- The handler of signal 1 clears the mask itself: signal 2 is delivered there, and
once more when the handler of signal 1 has returned. -/
theorem signal_delivered_twice : ∃ p,
    (process demoHandlers 1 fun _ _ => True).Run
      (demoEvents ++ [.sigsetmask 0, .ret, .ret, .ret]) p ∧
    p.stack = [] ∧ p.accepted 2 = 1 ∧ p.delivered 2 = 2 ∧
    ¬ ∀ sig < NSIG, p.delivered sig + (if Pending p sig then 1 else 0) = p.accepted sig := by
  have hrun : demoRun (demoEvents ++ [.sigsetmask 0, .ret, .ret, .ret]) =
      some ((demoRun (demoEvents ++ [.sigsetmask 0, .ret, .ret, .ret])).getD demoProc) :=
    some_getD _ (by decide +kernel)
  set p := (demoRun (demoEvents ++ [.sigsetmask 0, .ret, .ret, .ret])).getD demoProc with hp
  have hacc : p.accepted 2 = 1 := by decide +kernel
  have hdel : p.delivered 2 = 2 := by decide +kernel
  have hstack : p.stack.length = 0 := by decide +kernel
  refine ⟨p, demoProc_init.foldlM (fun e _ s s' h => ⟨trivial, h⟩) hrun,
    List.length_eq_zero_iff.mp hstack, hacc, hdel, fun h => ?_⟩
  have h2 := h 2 (by decide)
  rw [hacc, hdel] at h2
  omega

end Runs

end Mintlib.Signals
