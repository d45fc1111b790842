import Mintlib.Lib.Run
import Mintlib.Posix

/-!
# Semaphores: `sem_waitcommon.c` and `sem_post.c`

A call runs until it returns or until a wait that finds the counter at zero yields
to other threads; then other calls run, and the wait tests the counter again. The
kernel's answers (`Psemaphore`) and the clock's are inputs of each such piece.
-/

namespace Mintlib.Semaphore

open Posix (Timespec)

abbrev SEM_VALUE_MAX : ℤ := 32767

inductive Errno
  | EINVAL | EAGAIN | ETIMEDOUT | EOVERFLOW
deriving DecidableEq

/-- `sem_t`: the counter, and the four characters that name the kernel's semaphore. -/
structure Sem where
  max_count : ℤ
  sem_id : Option (Fin 4 → UInt8)

/-- What the kernel and the clock answer. `none` is a failing `clock_gettime`. -/
structure Answers where
  Psemaphore : ℕ → UInt32 → ℤ → ℤ
  clock₁ : Option Timespec
  clock₂ : Option Timespec

/-- A wait that spins: its deadline, if it has one, and the milliseconds left at the call. -/
structure Waiter where
  abs_timeout : Option Timespec
  timeout_ms : ℤ

/-- A call has returned, or it has come to `sched_yield`. -/
inductive Outcome
  | returned (ret : ℤ) (errno : Option Errno)
  | yielded (w : Waiter)

/-- `(int32_t)c` for a `char`, which has a sign. -/
def extend (c : UInt8) : UInt32 := if c < 128 then c.toUInt32 else c.toUInt32 ||| 0xffffff00

def semId (c : Fin 4 → UInt8) : UInt32 :=
  (extend (c 0) <<< 24) ||| (extend (c 1) <<< 16) ||| (extend (c 2) <<< 8) ||| extend (c 3)

/-- The deadline `t` has passed at `now`. -/
def past (now t : Timespec) : Bool :=
  decide (t.tv_sec < now.tv_sec) || (now.tv_sec == t.tv_sec && decide (t.tv_nsec ≤ now.tv_nsec))

/-- The milliseconds until `t`, as an `int`. -/
def timeoutMs (now t : Timespec) : ℤ :=
  Int.bmod ((t.tv_sec - now.tv_sec) * 1000 + (t.tv_nsec - now.tv_nsec).tdiv 1000000) (2 ^ 32)

/-- The blocking case from the test of the counter on: once around the loop, or out of it. -/
def spin (ans : Answers) (id : UInt32) (w : Waiter) (sem : Sem) : Outcome × Sem :=
  if sem.max_count ≤ 0 then
    match w.abs_timeout with
    | none => (.yielded w, sem)
    | some t =>
      match ans.clock₂ with
      | none => (.returned (-1) (some .EINVAL), sem)
      | some now =>
        if past now t then (.returned (-1) (some .ETIMEDOUT), sem) else (.yielded w, sem)
  else
    let sem := { sem with max_count := sem.max_count - 1 }
    if ans.Psemaphore 2 id w.timeout_ms < 0 then (.returned (-1) none, sem)
    else (.returned 0 none, sem)

def take (ans : Answers) (id : UInt32) (sem : Sem) : Outcome × Sem :=
  if sem.max_count ≤ 0 then (.returned (-1) (some .EAGAIN), sem)
  else if ans.Psemaphore 2 id 0 < 0 then (.returned (-1) none, sem)
  else (.returned 0 none, { sem with max_count := sem.max_count - 1 })

def semWaitcommon (ans : Answers) (sem : Sem) (blocking : Bool) (abs_timeout : Option Timespec) :
    Outcome × Sem :=
  match sem.sem_id with
  | none => (.returned (-1) (some .EINVAL), sem)
  | some c =>
    match abs_timeout with
    | none => if blocking then spin ans (semId c) ⟨none, -1⟩ sem else take ans (semId c) sem
    | some t =>
      match ans.clock₁ with
      | none => (.returned (-1) (some .EINVAL), sem)
      | some now =>
        if past now t then (.returned (-1) (some .ETIMEDOUT), sem)
        else if blocking then spin ans (semId c) ⟨some t, timeoutMs now t⟩ sem
        else take ans (semId c) sem

def semWait (ans : Answers) (sem : Sem) : Outcome × Sem := semWaitcommon ans sem true none

def semTrywait (ans : Answers) (sem : Sem) : Outcome × Sem := semWaitcommon ans sem false none

def semTimedwait (ans : Answers) (sem : Sem) (t : Timespec) : Outcome × Sem :=
  semWaitcommon ans sem true (some t)

def semPost (ans : Answers) (sem : Sem) : Outcome × Sem :=
  match sem.sem_id with
  | none => (.returned (-1) (some .EINVAL), sem)
  | some c =>
    if SEM_VALUE_MAX ≤ sem.max_count then (.returned (-1) (some .EOVERFLOW), sem)
    else
      let sem := { sem with max_count := sem.max_count + 1 }
      if ans.Psemaphore 3 (semId c) 0 < 0 then
        (.returned (-1) none, { sem with max_count := sem.max_count - 1 })
      else (.returned 0 none, sem)

/-- A thread makes a call, or the waiter at place `i` gets to run again. -/
inductive Event
  | wait
  | trywait
  | timedwait (t : Timespec)
  | post
  | resume (i : ℕ)

/-- The semaphore, the waits that spin, and how many posts and waits have returned 0. -/
structure Sys where
  sem : Sem
  spinning : List Waiter
  posts : ℕ
  waits : ℕ

def settle (s : Sys) : Outcome × Sem → Outcome × Sys
  | (.yielded w, sem) => (.yielded w, { s with sem := sem, spinning := w :: s.spinning })
  | (.returned r e, sem) =>
    (.returned r e, { s with sem := sem, waits := if r = 0 then s.waits + 1 else s.waits })

def step (ans : Answers) (s : Sys) : Event → Option (Outcome × Sys)
  | .wait => some (settle s (semWait ans s.sem))
  | .trywait => some (settle s (semTrywait ans s.sem))
  | .timedwait t => some (settle s (semTimedwait ans s.sem t))
  | .post =>
    match semPost ans s.sem with
    | (.returned r e, sem) =>
      some (.returned r e, { s with sem := sem, posts := if r = 0 then s.posts + 1 else s.posts })
    | (.yielded _, _) => none
  | .resume i =>
    match s.spinning[i]?, s.sem.sem_id with
    | some w, some c =>
      some (settle { s with spinning := s.spinning.eraseIdx i } (spin ans (semId c) w s.sem))
    | _, _ => none

def KernelOk (ans : Answers) (s : Sys) : Event → Prop
  | .post => True
  | .trywait => True
  | _ => 0 < s.sem.max_count → ∀ c ∈ s.sem.sem_id, ∀ ms, 0 ≤ ans.Psemaphore 2 (semId c) ms

/-- Threads on one semaphore that starts at `v`. -/
def threads (v : ℤ) : Machine Sys (Event × Answers × Outcome) where
  init s := s.sem.max_count = v ∧ 0 ≤ v ∧ v ≤ SEM_VALUE_MAX ∧ s.posts = 0 ∧ s.waits = 0 ∧
    s.spinning = []
  step s l s' := KernelOk l.2.1 s l.1 ∧ step l.2.1 s l.1 = some (l.2.2, s')

/-- The counter is what the calls that returned 0 make of the initial value. -/
structure Counted (v : ℤ) (s : Sys) : Prop where
  count : s.sem.max_count = v + s.posts - s.waits
  nonneg : 0 ≤ s.sem.max_count
  le_max : s.sem.max_count ≤ SEM_VALUE_MAX

/-- How one piece of a wait leaves the counter. -/
inductive Waited (sem : Sem) : Outcome → Sem → Prop
  | yielded (w : Waiter) : Waited sem (.yielded w) sem
  | failed (e : Option Errno) : Waited sem (.returned (-1) e) sem
  | taken (h : 0 < sem.max_count) :
      Waited sem (.returned 0 none) { sem with max_count := sem.max_count - 1 }

section Steps

variable {ans : Answers} {sem : Sem} {s s' : Sys} {v : ℤ} {out : Outcome} {ev : Event}

theorem spin_waited {id : UInt32} (w : Waiter)
    (hk : 0 < sem.max_count → 0 ≤ ans.Psemaphore 2 id w.timeout_ms) :
    Waited sem (spin ans id w sem).1 (spin ans id w sem).2 := by
  unfold spin
  by_cases hc : sem.max_count ≤ 0
  · rw [if_pos hc]
    cases w.abs_timeout with
    | none => exact .yielded w
    | some t =>
      cases ans.clock₂ with
      | none => exact .failed _
      | some now =>
        simp only
        by_cases hp : past now t
        · rw [if_pos hp]
          exact .failed _
        · rw [if_neg hp]
          exact .yielded w
  · rw [if_neg hc]
    simp only
    rw [if_neg (not_lt.mpr (hk (not_le.mp hc)))]
    exact .taken (not_le.mp hc)

theorem take_waited (id : UInt32) : Waited sem (take ans id sem).1 (take ans id sem).2 := by
  unfold take
  by_cases hc : sem.max_count ≤ 0
  · rw [if_pos hc]
    exact .failed _
  · rw [if_neg hc]
    by_cases hk : ans.Psemaphore 2 id 0 < 0
    · rw [if_pos hk]
      exact .failed _
    · rw [if_neg hk]
      exact .taken (not_le.mp hc)

theorem semWaitcommon_waited {blocking : Bool} {abs_timeout : Option Timespec}
    (hk : blocking = true → 0 < sem.max_count →
      ∀ c ∈ sem.sem_id, ∀ ms, 0 ≤ ans.Psemaphore 2 (semId c) ms) :
    Waited sem (semWaitcommon ans sem blocking abs_timeout).1
      (semWaitcommon ans sem blocking abs_timeout).2 := by
  unfold semWaitcommon
  cases hid : sem.sem_id with
  | none => exact .failed _
  | some c =>
    have hcase : ∀ w, Waited sem
        (if blocking = true then spin ans (semId c) w sem else take ans (semId c) sem).1
        (if blocking = true then spin ans (semId c) w sem else take ans (semId c) sem).2 := by
      intro w
      by_cases hb : blocking = true
      · rw [if_pos hb]
        exact spin_waited w fun hc => hk hb hc c hid _
      · rw [if_neg hb]
        exact take_waited _
    cases abs_timeout with
    | none => exact hcase _
    | some t =>
      cases ans.clock₁ with
      | none => exact .failed _
      | some now =>
        simp only
        by_cases hp : past now t
        · rw [if_pos hp]
          exact .failed _
        · rw [if_neg hp]
          exact hcase _

/-- What a step must keep: the books, and the counter of a call that failed. -/
def Good (v : ℤ) (s : Sys) (out : Outcome) (s' : Sys) : Prop :=
  Counted v s' ∧ ∀ e, out = .returned (-1) e → s'.sem.max_count = s.sem.max_count

theorem settle_good {r : Outcome × Sem} (hw : Waited s.sem r.1 r.2) (hc : Counted v s) :
    Good v s (settle s r).1 (settle s r).2 := by
  obtain ⟨out, sem'⟩ := r
  have hcount := hc.count
  cases hw with
  | yielded w => exact ⟨⟨hcount, hc.nonneg, hc.le_max⟩, fun e _ => rfl⟩
  | failed e => exact ⟨⟨hcount, hc.nonneg, hc.le_max⟩, fun e _ => rfl⟩
  | taken hpos =>
    refine ⟨⟨?_, ?_, ?_⟩, fun e he => ?_⟩
    · show s.sem.max_count - 1 = v + s.posts - ((s.waits + 1 : ℕ) : ℤ)
      push_cast
      omega
    · show 0 ≤ s.sem.max_count - 1
      omega
    · show s.sem.max_count - 1 ≤ SEM_VALUE_MAX
      have := hc.le_max
      omega
    · simp [settle] at he

theorem semPost_good (hc : Counted v s) (hstep : step ans s .post = some (out, s')) :
    Good v s out s' := by
  have hcount := hc.count
  have hmax := hc.le_max
  have hnonneg := hc.nonneg
  have hsame : ∀ e, Good v s (.returned (-1) e) s := fun e => ⟨hc, fun _ _ => rfl⟩
  simp only [step, semPost] at hstep
  cases hid : s.sem.sem_id with
  | none =>
    simp only [hid, Option.some.injEq, Prod.mk.injEq] at hstep
    obtain ⟨rfl, rfl⟩ := hstep
    exact hsame _
  | some c =>
    simp only [hid] at hstep
    by_cases hfull : SEM_VALUE_MAX ≤ s.sem.max_count
    · simp only [if_pos hfull, Option.some.injEq, Prod.mk.injEq] at hstep
      obtain ⟨rfl, rfl⟩ := hstep
      exact hsame _
    simp only [if_neg hfull] at hstep
    by_cases hk : ans.Psemaphore 3 (semId c) 0 < 0
    · -- the counter goes up and down again
      simp only [if_pos hk, Option.some.injEq, Prod.mk.injEq, add_sub_cancel_right] at hstep
      obtain ⟨rfl, rfl⟩ := hstep
      exact ⟨⟨hcount, hnonneg, hmax⟩, fun _ _ => rfl⟩
    · simp only [if_neg hk, if_true, Option.some.injEq, Prod.mk.injEq] at hstep
      obtain ⟨rfl, rfl⟩ := hstep
      refine ⟨⟨?_, ?_, ?_⟩, fun e he => by simp at he⟩
      · show s.sem.max_count + 1 = v + ((s.posts + 1 : ℕ) : ℤ) - s.waits
        push_cast
        omega
      · show 0 ≤ s.sem.max_count + 1
        omega
      · show s.sem.max_count + 1 ≤ SEM_VALUE_MAX
        omega

/-- One call, or one turn of a waiter, keeps the books if the kernel's part of a
blocking wait does not fail. -/
theorem step_good (hc : Counted v s) (hk : KernelOk ans s ev)
    (hstep : step ans s ev = some (out, s')) : Good v s out s' := by
  have hwait : ∀ {r : Outcome × Sem}, Waited s.sem r.1 r.2 →
      some (settle s r) = some (out, s') → Good v s out s' := by
    intro r hw h
    have hg := settle_good hw hc
    rw [Option.some.inj h] at hg
    exact hg
  cases ev with
  | wait => exact hwait (semWaitcommon_waited fun _ => hk) hstep
  | trywait => exact hwait (semWaitcommon_waited fun h => by simp at h) hstep
  | timedwait t => exact hwait (semWaitcommon_waited fun _ => hk) hstep
  | post => exact semPost_good hc hstep
  | resume i =>
    simp only [step] at hstep
    cases hw : s.spinning[i]? with
    | none => simp [hw] at hstep
    | some w =>
      cases hid : s.sem.sem_id with
      | none => simp [hw, hid] at hstep
      | some c =>
        simp only [hw, hid] at hstep
        have hspin : Waited s.sem (spin ans (semId c) w s.sem).1 (spin ans (semId c) w s.sem).2 :=
          spin_waited w fun hpos => hk hpos c hid _
        have hc' : Counted v { s with spinning := s.spinning.eraseIdx i } :=
          ⟨hc.count, hc.nonneg, hc.le_max⟩
        have hg := settle_good (s := { s with spinning := s.spinning.eraseIdx i }) hspin hc'
        rw [Option.some.inj hstep] at hg
        exact hg

end Steps

theorem counted_of_run {v : ℤ} {es : List (Event × Answers × Outcome)} {s : Sys}
    (hrun : (threads v).Run es s) : Counted v s := by
  refine hrun.invariant (P := Counted v) ?_ ?_
  · rintro s ⟨hv, h0, hmax, hp, hw, -⟩
    exact ⟨by rw [hv, hp, hw]; simp, by rw [hv]; exact h0, by rw [hv]; exact hmax⟩
  · rintro s ⟨ev, ans, out⟩ s' hc ⟨hk, hstep⟩
    exact (step_good hc hk hstep).1

/-- In every run in which the kernel's part of no blocking wait fails, the counter is
the initial value plus the posts minus the waits that returned 0, within its bounds,
and a call that returns -1 leaves it alone. -/
theorem semaphore_counts {v : ℤ} {es : List (Event × Answers × Outcome)} {s : Sys}
    (hrun : (threads v).Run es s) :
    Counted v s ∧ ∀ ev ans out s', KernelOk ans s ev → step ans s ev = some (out, s') →
      Good v s out s' :=
  ⟨counted_of_run hrun, fun _ _ _ _ hk hstep => step_good (counted_of_run hrun) hk hstep⟩

/-- A semaphore with one unit, named `aaaa`. -/
def demoSem : Sem := ⟨1, some fun _ => 97⟩

def demoSys : Sys := ⟨demoSem, [], 0, 0⟩

/-- A kernel in which every call gives `r`. -/
def demoKernel (r : ℤ) : Answers := ⟨fun _ _ _ => r, none, none⟩

theorem semaphore_counts_demo : Counted 1 ⟨⟨0, some fun _ => 97⟩, [], 0, 1⟩ ∧
    ∀ ev ans out s', KernelOk ans ⟨⟨0, some fun _ => 97⟩, [], 0, 1⟩ ev →
      step ans ⟨⟨0, some fun _ => 97⟩, [], 0, 1⟩ ev = some (out, s') →
      Good 1 ⟨⟨0, some fun _ => 97⟩, [], 0, 1⟩ out s' := by
  have hstart : (threads 1).Run [] demoSys := .start ⟨rfl, by decide, by decide, rfl, rfl, rfl⟩
  have hkernel : KernelOk (demoKernel 0) demoSys .wait := fun _ _ _ _ => le_rfl
  exact semaphore_counts (hstart.snoc (e := (.wait, demoKernel 0, .returned 0 none)) ⟨hkernel, rfl⟩)

/-- A blocking wait whose `Psemaphore` fails returns -1 and keeps the unit. -/
theorem semWait_loses_unit : (threads 1).Run [] demoSys ∧
    ∃ s', step (demoKernel (-1)) demoSys .wait = some (.returned (-1) none, s') ∧
      s'.sem.max_count = 0 ∧ ¬ Good 1 demoSys (.returned (-1) none) s' := by
  refine ⟨.start ⟨rfl, by decide, by decide, rfl, rfl, rfl⟩, _, rfl, rfl, fun h => ?_⟩
  have hsame := h.2 none rfl
  exact absurd hsame (by decide)

end Mintlib.Semaphore
