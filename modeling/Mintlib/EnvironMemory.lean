import Mintlib.Environ
import Mintlib.Posix

/-!
# The environment when memory runs out: `putenv.c` and `setenv.c`

The same calls as in `Mintlib.Environ`, with an answer of `malloc` and `realloc` for
each allocation. `putenv` takes the old entry out before it allocates, and `setenv`
allocates twice, the second time when `realloc` may have moved the array away.
-/

namespace Mintlib.Environ

open Posix Text

/-- What `realloc` does: it fails, moves the array or makes it larger where it is. -/
inductive Realloc
  | fails
  | moves
  | inPlace
  deriving DecidableEq

structure Alloc where
  realloc : Realloc
  malloc : Bool

def putenvWith (k : Alloc) (E : Env) (strng : Str) : Option (Ret × Env) := do
  let E ← delEnv E strng
  match E.environ with
  | none =>
    if k.malloc then
      let (e, E) := E.malloc [strng]
      some ((0, none), { E with environ := some e })
    else some ((-1, none), E)
  | some a =>
    let arr ← E.read a
    if k.malloc then
      let (e, E) := E.malloc (arr ++ [strng])
      let E ← E.free a
      some ((0, none), { E with environ := some e })
    else some ((-1, none), E)

/-- `realloc (last_environ, …)`: the array, with what it held in its first `size` places. -/
def Env.realloc (E : Env) (how : Realloc) (size : ℕ) : Option (Option ℕ × Env) :=
  match E.last_environ with
  | none =>
    match how with
    | .fails => some (none, E)
    | _ =>
      let (new, E) := E.malloc []
      some (some new, E)
  | some l =>
    -- `realloc` of an array that is not there, or that `malloc` has not made
    if l = startup then none
    else do
      let old ← E.read l
      match how with
      | .fails => some (none, E)
      | .inPlace => some (some l, E.write l (old.take size))
      | .moves =>
        let (new, E) := E.malloc (old.take size)
        let E ← E.free l
        some (some new, E)

def appendWith (k : Alloc) (E : Env) (arr : List Str) (entry : Str) : Option (Ret × Env) := do
  match ← E.realloc k.realloc arr.length with
  | (none, E) => some ((-1, none), E)
  | (some new, E) =>
    if k.malloc then
      let old ← E.read new
      let E' := E.write new ((if E.environ ≠ E.last_environ then arr else old) ++ [entry])
      some ((0, none), { E' with environ := some new, last_environ := some new })
    else some ((-1, some ENOMEM), E)

def addToEnvironWith (k : Alloc) (E : Env) (name value : Str) (replace : Bool) :
    Option (Ret × Env) :=
  let entry := name ++ EQ :: value
  match E.environ with
  | none => appendWith k E [] entry
  | some a => do
    let arr ← E.read a
    match find name arr with
    | none => appendWith k E arr entry
    | some _ =>
      if replace then
        if k.malloc then some ((0, none), E.write a (replaceFirst name entry arr))
        else some ((-1, none), E)
      else some ((0, none), E)

def setenvWith (k : Alloc) (E : Env) (name value : Str) (replace : Bool) : Option (Ret × Env) :=
  if BadName name then some ((-1, some EINVAL), E) else addToEnvironWith k E name value replace

def execWith (k : Alloc) (E : Env) : Call → Option (Ret × Env)
  | .putenv strng => putenvWith k E strng
  | .setenv name value replace => setenvWith k E name value replace
  | c => exec E c

/-- `environ` is live if it was there, and `getenv` gives what it gave. -/
structure Unchanged (E E' : Env) : Prop where
  there : E'.environ.isSome = E.environ.isSome
  live : ∀ a ∈ E'.environ, (E'.arrays a).isSome
  values : ∀ n, getenv E' n = getenv E n

def Kept (k : Alloc) (E : Env) (c : Call) : Prop :=
  ∃ r E', execWith k E c = some (r, E') ∧ (r.1 = -1 → Unchanged E E')

def Doubled (tag : Str) (arr : List Str) : Prop :=
  (arr.filter fun s => decide (Named tag s))[0]? =
    (arr.filter fun s => decide (Named tag s))[1]?

/-- `putenv` has no failing allocation or no single entry to take out; `setenv` does not
move the array that `environ` points to before an allocation that fails. -/
def FailOk (k : Alloc) (E : Env) : Call → Prop
  | .putenv strng => k.malloc = true ∨
      ∀ a ∈ E.environ, ∀ arr ∈ E.arrays a, Doubled (tagOf strng) arr
  | .setenv name _ _ => BadName name ∨
      (∃ a ∈ E.environ, ∃ arr ∈ E.arrays a, find name arr ≠ none) ∨
      ∀ l ∈ E.last_environ, l ≠ startup ∧ (E.arrays l).isSome ∧
        (k.realloc = .moves → k.malloc = false → E.environ ≠ some l)
  | _ => True

/-- `environ` is `NULL` or points to an array, and `malloc` gives what nothing points to. -/
structure Live (E : Env) : Prop where
  environ : ∀ a ∈ E.environ, (E.arrays a).isSome
  fresh : E.arrays E.fresh = none

section Loops

variable {n tag s v : Str} {arr : List Str}

theorem named_of_common (hn : EQ ∉ tag) (hs : Named n s) (ht : Named tag s) {s' : Str}
    (h : Named n s') : Named tag s' := by
  rcases List.prefix_or_prefix_of_prefix ht hs with hpre | hpre
  · exact hpre.trans h
  · rcases List.prefix_concat_iff.mp hpre with heq | hpre
    · unfold Named at h
      rw [heq] at h
      exact h
    · exact absurd (hpre.subset (List.mem_append_right n (List.mem_singleton.mpr rfl))) hn

theorem find_eq_some : find n arr = some v ↔
    (arr.filter fun s => decide (Named n s))[0]? = some (n ++ EQ :: v) := by
  induction arr with
  | nil => simp [find]
  | cons s arr ih =>
    unfold find
    by_cases h : Named n s
    · rw [if_pos h, List.filter_cons_of_pos (by simpa using h), List.getElem?_cons_zero,
        Option.some.injEq, Option.some.injEq]
      obtain ⟨w, rfl⟩ := named_iff.mp h
      rw [drop_entry]
      constructor
      · intro hw
        rw [hw]
      · intro hw
        exact List.cons.inj (List.append_cancel_left hw) |>.2
    · rw [if_neg h, List.filter_cons_of_neg (by simpa using h), ih]

theorem find_of_first (hn : EQ ∉ tag) (hs : Named n s) (ht : Named tag s)
    (h : (arr.filter fun s => decide (Named tag s))[0]? = some s) :
    find n arr = some (s.drop (n.length + 1)) := by
  induction arr with
  | nil => simp at h
  | cons x arr ih =>
    unfold find
    by_cases hx : Named tag x
    · rw [List.filter_cons_of_pos (by simpa using hx), List.getElem?_cons_zero,
        Option.some.injEq] at h
      rw [h, if_pos hs]
    · rw [List.filter_cons_of_neg (by simpa using hx)] at h
      rw [if_neg fun hnx => hx (named_of_common hn hs ht hnx)]
      exact ih h

theorem find_delFirst_doubled (hn : EQ ∉ tag) (h : Doubled tag arr) (n : Str) :
    find n (delFirst tag arr) = find n arr := by
  induction arr with
  | nil => rfl
  | cons s arr ih =>
    unfold Doubled at h
    unfold delFirst
    by_cases hs : Named tag s
    · rw [List.filter_cons_of_pos (by simpa using hs), List.getElem?_cons_zero,
        List.getElem?_cons_succ] at h
      rw [if_pos hs, find]
      by_cases hns : Named n s
      · rw [if_pos hns]
        exact find_of_first hn hns hs h.symm
      · rw [if_neg hns]
    · rw [List.filter_cons_of_neg (by simpa using hs)] at h
      rw [if_neg hs, find, find, ih h]

theorem doubled_of_find (h : find tag (delFirst tag arr) = find tag arr) : Doubled tag arr := by
  induction arr with
  | nil => rfl
  | cons s arr ih =>
    unfold Doubled
    unfold delFirst at h
    by_cases hs : Named tag s
    · rw [if_pos hs, find, if_pos hs, find_eq_some] at h
      rw [List.filter_cons_of_pos (by simpa using hs), List.getElem?_cons_zero,
        List.getElem?_cons_succ, h]
      obtain ⟨v, rfl⟩ := named_iff.mp hs
      rw [drop_entry]
    · rw [if_neg hs, find, find, if_neg hs, if_neg hs] at h
      rw [List.filter_cons_of_neg (by simpa using hs)]
      exact ih h

end Loops

section Calls

variable {E : Env} {k : Alloc} {a l size : ℕ} {arr old : List Str}
  {strng name value entry : Str} {replace : Bool}

theorem getenv_of (ha : E.environ = some a) (harr : E.arrays a = some arr) (n : Str) :
    getenv E n = some (find n arr) := by
  simp only [getenv, ha, Env.read, harr, Option.map_some]

theorem Unchanged.of_arrays {E' : Env} (hE : Live E) (henv : E'.environ = E.environ)
    (h : ∀ a ∈ E.environ, E'.arrays a = E.arrays a) : Unchanged E E' where
  there := by rw [henv]
  live a ha := by
    rw [henv] at ha
    rw [h a ha]
    exact hE.environ a ha
  values n := by
    unfold getenv
    rw [henv]
    cases ha : E.environ with
    | none => rfl
    | some a => simp only [Env.read, h a ha]

theorem putenvWith_none (h : E.environ = none) : putenvWith k E strng =
    if k.malloc then some ((0, none),
      { (E.malloc [strng]).2 with environ := some (E.malloc [strng]).1 })
    else some ((-1, none), E) := by
  simp only [putenvWith, delEnv, h, Option.bind_eq_bind, Option.bind_some]

theorem putenvWith_some (k : Alloc) (strng : Str) (ha : E.environ = some a) (harr : E.arrays a = some arr) :
    if k.malloc then ∃ E', putenvWith k E strng = some ((0, none), E')
    else putenvWith k E strng = some ((-1, none), E.write a (delFirst (tagOf strng) arr)) := by
  have hput : putenvWith k E strng = if k.malloc then
      (Env.free ((E.write a (delFirst (tagOf strng) arr)).malloc
        (delFirst (tagOf strng) arr ++ [strng])).2 a).bind fun E' =>
          some ((0, none), { E' with environ := some E.fresh })
      else some ((-1, none), E.write a (delFirst (tagOf strng) arr)) := by
    simp only [putenvWith, delEnv, ha, Env.read, harr, Option.map_some, Option.bind_eq_bind,
      Option.bind_some, Env.write, Env.malloc, Function.update_self]
  rw [hput]
  by_cases hk : k.malloc
  · rw [if_pos hk, if_pos hk]
    by_cases hst : a = startup
    · exact ⟨_, by rw [Env.free, if_pos hst, Option.bind_some]⟩
    · have hlive : (((E.write a (delFirst (tagOf strng) arr)).malloc
          (delFirst (tagOf strng) arr ++ [strng])).2.arrays a).isSome := by
        simp only [Env.malloc, Env.write]
        by_cases haf : a = E.fresh
        · rw [haf, Function.update_self]
          rfl
        · rw [Function.update_of_ne haf, Function.update_self]
          rfl
      exact ⟨_, by rw [Env.free, if_neg hst, if_pos hlive, Option.bind_some]⟩
  · rw [if_neg hk, if_neg hk]

theorem putenv_kept (hE : Live E) :
    Kept k E (.putenv strng) ↔ FailOk k E (.putenv strng) := by
  show (∃ r E', putenvWith k E strng = some (r, E') ∧ _) ↔
    (k.malloc = true ∨ ∀ a ∈ E.environ, ∀ arr ∈ E.arrays a, Doubled (tagOf strng) arr)
  cases ha : E.environ with
  | none =>
    refine iff_of_true ?_ (Or.inr fun a h => by simp at h)
    rw [putenvWith_none ha]
    by_cases hk : k.malloc
    · rw [if_pos hk]
      exact ⟨_, _, rfl, fun h => absurd h (by decide)⟩
    · rw [if_neg hk]
      exact ⟨_, E, rfl, fun _ => .of_arrays hE rfl fun _ _ => rfl⟩
  | some a =>
    obtain ⟨arr, harr⟩ := Option.isSome_iff_exists.mp (hE.environ a ha)
    have hput := putenvWith_some k strng ha harr
    by_cases hk : k.malloc
    · rw [if_pos hk] at hput
      obtain ⟨E', hput⟩ := hput
      exact iff_of_true ⟨_, E', hput, fun h => absurd h (by decide)⟩ (Or.inl hk)
    · rw [if_neg hk] at hput
      have hwrite : (E.write a (delFirst (tagOf strng) arr)).arrays a =
          some (delFirst (tagOf strng) arr) := Function.update_self _ _ _
      constructor
      · rintro ⟨r, E', hex, hkept⟩
        rw [hput] at hex
        obtain ⟨rfl, rfl⟩ := Prod.mk.inj (Option.some.inj hex)
        refine Or.inr fun b hb arr' harr' => ?_
        obtain rfl := Option.some.inj hb
        obtain rfl := Option.some.inj (harr.symm.trans harr')
        have hval := (hkept rfl).values (tagOf strng)
        rw [getenv_of ha harr, getenv_of (E := E.write a _) ha hwrite] at hval
        exact doubled_of_find (Option.some.inj hval)
      · intro h
        have hdoubled := h.resolve_left hk a rfl arr harr
        refine ⟨_, _, hput, fun _ => ⟨rfl, fun b hb => ?_, fun n => ?_⟩⟩
        · obtain rfl := Option.some.inj (ha.symm.trans hb)
          rw [hwrite]
          rfl
        · rw [getenv_of ha harr, getenv_of (E := E.write a _) ha hwrite,
            find_delFirst_doubled (EQ_notMem_tagOf strng) hdoubled]

theorem realloc_none (hl : E.last_environ = none) (how : Realloc) :
    E.realloc how size = if how = .fails then some (none, E) else
      some (some (E.malloc []).1, (E.malloc []).2) := by
  cases how <;> simp [Env.realloc, hl]

theorem realloc_some (hl : E.last_environ = some l) (hst : l ≠ startup)
    (hold : E.arrays l = some old) (how : Realloc) :
    E.realloc how size = match how with
      | .fails => some (none, E)
      | .inPlace => some (some l, E.write l (old.take size))
      | .moves => some (some E.fresh, { E with
          arrays := Function.update (Function.update E.arrays E.fresh (some (old.take size)))
            l none
          fresh := E.fresh + 1 }) := by
  have hlive : ((E.malloc (old.take size)).2.arrays l).isSome := by
    simp only [Env.malloc]
    by_cases hlf : l = E.fresh
    · rw [hlf, Function.update_self]
      rfl
    · rw [Function.update_of_ne hlf, hold]
      rfl
  cases how with
  | fails => simp only [Env.realloc, hl, if_neg hst, Env.read, hold, Option.bind_eq_bind,
      Option.bind_some]
  | inPlace => simp only [Env.realloc, hl, if_neg hst, Env.read, hold, Option.bind_eq_bind,
      Option.bind_some]
  | moves =>
    simp only [Env.realloc, hl, if_neg hst, Env.read, hold, Option.bind_eq_bind,
      Option.bind_some]
    rw [Env.free, if_neg hst, if_pos hlive]
    simp only [Env.malloc, hl, Option.bind_some]

theorem Live.ne_fresh (hE : Live E) (ha : (E.arrays a).isSome) : a ≠ E.fresh := by
  rintro rfl
  rw [hE.fresh] at ha
  exact absurd ha (by decide)

theorem append_kept_none (hE : Live E) (hl : E.last_environ = none) :
    ∃ r E', appendWith k E arr entry = some (r, E') ∧ (r.1 = -1 → Unchanged E E') := by
  unfold appendWith
  rw [realloc_none hl]
  by_cases hf : k.realloc = .fails
  · rw [if_pos hf]
    exact ⟨_, E, rfl, fun _ => .of_arrays hE rfl fun _ _ => rfl⟩
  · rw [if_neg hf]
    have hread : (E.malloc []).2.read (E.malloc []).1 = some [] := Function.update_self _ _ _
    by_cases hk : k.malloc
    · simp only [Option.bind_eq_bind, Option.bind_some, if_pos hk, hread]
      exact ⟨_, _, rfl, fun h => absurd h (by decide)⟩
    · simp only [Option.bind_eq_bind, Option.bind_some, if_neg hk]
      refine ⟨_, _, rfl, fun _ => .of_arrays hE rfl fun a ha => ?_⟩
      exact Function.update_of_ne (hE.ne_fresh (hE.environ a ha)) _ _

/-- `setenv` of a new name when `last_environ` points to an array: the array may be moved
before the allocation that fails. -/
theorem append_kept_some (hE : Live E) (hl : E.last_environ = some l) (hst : l ≠ startup)
    (hold : E.arrays l = some old) (harr : ∀ a ∈ E.environ, E.arrays a = some arr) :
    (∃ r E', appendWith k E arr entry = some (r, E') ∧ (r.1 = -1 → Unchanged E E')) ↔
      (k.realloc = .moves → k.malloc = false → E.environ ≠ some l) := by
  have hlf : l ≠ E.fresh := hE.ne_fresh (by rw [hold]; rfl)
  unfold appendWith
  rw [realloc_some hl hst hold]
  cases hr : k.realloc with
  | fails =>
    exact iff_of_true ⟨_, E, rfl, fun _ => .of_arrays hE rfl fun _ _ => rfl⟩
      fun h => absurd h (by decide)
  | inPlace =>
    refine iff_of_true ?_ fun h => absurd h (by decide)
    have hread : (E.write l (old.take arr.length)).read l = some (old.take arr.length) :=
      Function.update_self _ _ _
    by_cases hk : k.malloc
    · simp only [Option.bind_eq_bind, Option.bind_some, if_pos hk, hread]
      exact ⟨_, _, rfl, fun h => absurd h (by decide)⟩
    · simp only [Option.bind_eq_bind, Option.bind_some, if_neg hk]
      refine ⟨_, _, rfl, fun _ => .of_arrays hE rfl fun a ha => ?_⟩
      show Function.update E.arrays l (some (old.take arr.length)) a = E.arrays a
      by_cases hal : a = l
      · have heq : old = arr := Option.some.inj (hold.symm.trans (hal ▸ harr a ha))
        rw [hal, Function.update_self, hold, heq, List.take_length]
      · rw [Function.update_of_ne hal]
  | moves =>
    set arrays := Function.update (Function.update E.arrays E.fresh
      (some (old.take arr.length))) l none with harrays
    by_cases hk : k.malloc
    · have hread : arrays E.fresh = some (old.take arr.length) := by
        rw [harrays, Function.update_of_ne hlf.symm, Function.update_self]
      simp only [Option.bind_eq_bind, Option.bind_some, if_pos hk, Env.read, hread]
      exact iff_of_true ⟨_, _, rfl, fun h => absurd h (by decide)⟩
        fun _ hk' => absurd hk (by rw [hk']; decide)
    · simp only [Option.bind_eq_bind, Option.bind_some, if_neg hk]
      constructor
      · rintro ⟨r, E', hex, hkept⟩ - - henv
        obtain ⟨rfl, rfl⟩ := Prod.mk.inj (Option.some.inj hex)
        have hlive : (arrays l).isSome := (hkept rfl).live l henv
        rw [harrays, Function.update_self] at hlive
        exact absurd hlive (by decide)
      · intro h
        refine ⟨_, _, rfl, fun _ => .of_arrays hE rfl fun a ha => ?_⟩
        have hal : a ≠ l := by
          rintro rfl
          exact h trivial (by simpa using hk) ha
        show arrays a = E.arrays a
        rw [harrays, Function.update_of_ne hal,
          Function.update_of_ne (hE.ne_fresh (hE.environ a ha))]

theorem append_kept (hE : Live E) (harr : ∀ a ∈ E.environ, E.arrays a = some arr) :
    (∃ r E', appendWith k E arr entry = some (r, E') ∧ (r.1 = -1 → Unchanged E E')) ↔
      ∀ l ∈ E.last_environ, l ≠ startup ∧ (E.arrays l).isSome ∧
        (k.realloc = .moves → k.malloc = false → E.environ ≠ some l) := by
  cases hl : E.last_environ with
  | none => exact iff_of_true (append_kept_none hE hl) fun l h => by simp at h
  | some l =>
    have hundef : E.realloc k.realloc arr.length = none →
        ¬ ∃ r E', appendWith k E arr entry = some (r, E') ∧ (r.1 = -1 → Unchanged E E') := by
      rintro hnone ⟨r, E', hex, -⟩
      unfold appendWith at hex
      rw [hnone] at hex
      simp at hex
    simp only [Option.mem_some_iff, forall_eq']
    by_cases hst : l = startup
    · refine iff_of_false (hundef ?_) fun h => h.1 hst
      simp only [Env.realloc, hl, if_pos hst]
    · cases hold : E.arrays l with
      | none =>
        refine iff_of_false (hundef ?_) fun h => absurd h.2.1 (by decide)
        simp only [Env.realloc, hl, if_neg hst, Env.read, hold, Option.bind_eq_bind,
          Option.bind_none]
      | some old =>
        rw [append_kept_some hE hl hst hold harr]
        exact ⟨fun h => ⟨hst, rfl, h⟩, fun h => h.2.2⟩

theorem setenv_kept (hE : Live E) : Kept k E (.setenv name value replace) ↔
    FailOk k E (.setenv name value replace) := by
  show (∃ r E', setenvWith k E name value replace = some (r, E') ∧ _) ↔ (BadName name ∨ _)
  by_cases hbad : BadName name
  · refine iff_of_true ⟨_, E, by rw [setenvWith, if_pos hbad], fun _ => ?_⟩ (Or.inl hbad)
    exact .of_arrays hE rfl fun _ _ => rfl
  rw [setenvWith, if_neg hbad]
  cases ha : E.environ with
  | none =>
    have hadd : addToEnvironWith k E name value replace =
        appendWith k E [] (name ++ EQ :: value) := by
      simp only [addToEnvironWith, ha]
    rw [hadd, append_kept hE fun a h => by rw [ha] at h; simp at h, ha]
    simp [hbad]
  | some a =>
    obtain ⟨arr, harr⟩ := Option.isSome_iff_exists.mp (hE.environ a ha)
    cases hfind : find name arr with
    | none =>
      have hadd : addToEnvironWith k E name value replace =
          appendWith k E arr (name ++ EQ :: value) := by
        simp only [addToEnvironWith, ha, Env.read, harr, Option.bind_eq_bind, Option.bind_some,
          hfind]
      rw [hadd, append_kept hE fun b h => by rw [ha] at h; rw [← Option.some.inj h, harr], ha]
      simp [hbad, harr, hfind]
    | some v =>
      have hthere : ∃ b ∈ some a, ∃ arr ∈ E.arrays b, find name arr ≠ none :=
        ⟨a, rfl, arr, harr, by rw [hfind]; exact Option.some_ne_none _⟩
      refine iff_of_true ?_ (Or.inr (Or.inl hthere))
      simp only [addToEnvironWith, ha, Env.read, harr, Option.bind_eq_bind, Option.bind_some,
        hfind]
      cases replace with
      | false => exact ⟨_, E, rfl, fun h => absurd h (by decide)⟩
      | true =>
        rw [if_pos rfl]
        by_cases hk : k.malloc
        · rw [if_pos hk]
          exact ⟨_, _, rfl, fun h => absurd h (by decide)⟩
        · rw [if_neg hk]
          exact ⟨_, E, rfl, fun _ => .of_arrays hE rfl fun _ _ => rfl⟩

theorem unsetenv_kept (hE : Live E) : Kept k E (.unsetenv name) := by
  show ∃ r E', unsetenv E name = some (r, E') ∧ _
  by_cases hbad : BadName name
  · exact ⟨_, E, by rw [unsetenv, if_pos hbad], fun _ => .of_arrays hE rfl fun _ _ => rfl⟩
  cases ha : E.environ with
  | none =>
    exact ⟨(0, none), E, by simp only [unsetenv, if_neg hbad, ha], fun h => absurd h (by decide)⟩
  | some a =>
    obtain ⟨arr, harr⟩ := Option.isSome_iff_exists.mp (hE.environ a ha)
    refine ⟨(0, none), E.write a (delAll name arr), ?_, fun h => absurd h (by decide)⟩
    simp only [unsetenv, if_neg hbad, ha, Env.read, harr, Option.map_some]

theorem clearenv_kept (hE : Live E) : Kept k E .clearenv := by
  have hdef : ∃ E', clearenv E = some E' := by
    cases ha : E.environ with
    | none =>
      exact ⟨{ E with environ := none },
        by simp only [clearenv, ha, Option.bind_eq_bind, Option.bind_some]⟩
    | some a =>
      obtain ⟨E₁, hfree⟩ : ∃ E₁, E.free a = some E₁ := by
        unfold Env.free
        by_cases hst : a = startup
        · exact ⟨_, if_pos hst⟩
        · exact ⟨_, by rw [if_neg hst, if_pos (hE.environ a ha)]⟩
      by_cases hl : E.environ = E.last_environ
      · refine ⟨{ E₁ with environ := none, last_environ := none }, ?_⟩
        simp only [clearenv, ← hl, ha, hfree, if_true, Option.map_some, Option.bind_eq_bind,
          Option.bind_some]
      · rw [ha] at hl
        exact ⟨{ E with environ := none },
          by simp only [clearenv, ha, if_neg hl, Option.bind_eq_bind, Option.bind_some]⟩
  obtain ⟨E', hclear⟩ := hdef
  exact ⟨(0, none), E', by simp only [execWith, exec, hclear, Option.map_some],
    fun h => absurd h (by decide)⟩

/-- A call that returns -1 leaves the environment as it was exactly when `putenv` has
nothing to take out and `setenv` has not moved the array away. -/
theorem kept_iff_failOk (k : Alloc) (E : Env) (c : Call) (hE : Live E) :
    Kept k E c ↔ FailOk k E c := by
  cases c with
  | putenv strng => exact putenv_kept hE
  | setenv name value replace => exact setenv_kept hE
  | unsetenv name => exact iff_of_true (unsetenv_kept hE) trivial
  | clearenv => exact iff_of_true (clearenv_kept hE) trivial

/-- The array `A=1` that the start-up code has laid out. -/
def demoOne : Env :=
  ⟨Function.update (fun _ => none) startup (some [[65, 61, 49]]), 1, some startup, none⟩

theorem demoOne_live : Live demoOne := by
  refine ⟨fun a ha => ?_, rfl⟩
  obtain rfl := Option.some.inj ha
  rfl

theorem demoSet_live : Live demoSet.env := by
  refine ⟨fun a ha => ?_, rfl⟩
  obtain rfl := Option.some.inj ha
  rfl

theorem kept_iff_failOk_demo :
    Kept ⟨.moves, true⟩ demoSet.env (.setenv [66] [50] true) ↔
      FailOk ⟨.moves, true⟩ demoSet.env (.setenv [66] [50] true) :=
  kept_iff_failOk ⟨.moves, true⟩ demoSet.env (.setenv [66] [50] true) demoSet_live

/-- `putenv ("A=2")` without memory removes `A=1`; `setenv ("B", "2", 1)` with memory for
the array only leaves `environ` at the array that `realloc` has freed. -/
theorem failing_calls_change :
    (Live demoOne ∧ ¬ Kept ⟨.fails, false⟩ demoOne (.putenv [65, 61, 50])) ∧
    (Live demoSet.env ∧ ¬ Kept ⟨.moves, false⟩ demoSet.env (.setenv [66] [50] true)) := by
  refine ⟨⟨demoOne_live, ?_⟩, demoSet_live, ?_⟩
  · rintro ⟨r, E', hex, hkept⟩
    have hcall : execWith ⟨.fails, false⟩ demoOne (.putenv [65, 61, 50]) =
        some ((-1, none), demoOne.write startup []) := rfl
    obtain ⟨rfl, rfl⟩ := Prod.mk.inj (Option.some.inj (hcall.symm.trans hex))
    exact absurd ((hkept rfl).values [65]) (by decide)
  · rintro ⟨r, E', hex, hkept⟩
    have hcall : execWith ⟨.moves, false⟩ demoSet.env (.setenv [66] [50] true) =
        some ((-1, some ENOMEM), { demoSet.env with
          arrays := Function.update (Function.update demoSet.env.arrays 2
            (some [[65, 61, 49]])) 1 none
          fresh := 3 }) := rfl
    obtain ⟨rfl, rfl⟩ := Prod.mk.inj (Option.some.inj (hcall.symm.trans hex))
    have hlive := (hkept rfl).live 1 rfl
    exact absurd hlive (by decide)

theorem putenvWith_ok (h : k.malloc = true) :
    putenvWith k E strng = (putenv E strng).map fun E' => ((0, none), E') := by
  unfold putenvWith putenv
  rw [h]
  cases hdel : delEnv E strng with
  | none => rfl
  | some E₁ =>
    simp only [Option.bind_eq_bind, Option.bind_some, if_true]
    cases ha : E₁.environ with
    | none => rfl
    | some a =>
      cases harr : E₁.read a with
      | none => simp only [Option.bind_none, harr, Option.map_none]
      | some arr =>
        simp only [Option.bind_some, harr]
        cases (E₁.malloc (arr ++ [strng])).2.free a with
        | none => rfl
        | some E₂ => rfl

theorem appendWith_ok (hE : Live E) (hlast : ∀ l ∈ E.last_environ, l ≠ startup ∧ (E.arrays l).isSome)
    (harr : (E.environ = none ∧ arr = []) ∨ ∃ a, E.environ = some a ∧ E.arrays a = some arr) :
    appendWith ⟨.moves, true⟩ E arr entry =
      (append E arr entry).map fun E' => ((0, none), E') := by
  cases hl : E.last_environ with
  | none =>
    unfold appendWith append
    rw [realloc_none hl, if_neg (by decide)]
    simp only [Env.malloc, hl, Env.read, Env.write, Option.bind_eq_bind, Option.bind_some,
      Function.update_self, if_true, Function.update_idem, Option.map_some]
  | some l =>
    obtain ⟨hst, hsome⟩ := hlast l hl
    obtain ⟨old, hold⟩ := Option.isSome_iff_exists.mp hsome
    have hlf : l ≠ E.fresh := hE.ne_fresh hsome
    have hsame : (if E.environ ≠ some l then arr else old.take arr.length) =
        if E.environ ≠ some l then arr else old := by
      by_cases henv : E.environ = some l
      · rcases harr with ⟨hnone, -⟩ | ⟨a, ha, harr⟩
        · rw [hnone] at henv
          simp at henv
        · obtain rfl := Option.some.inj (ha.symm.trans henv)
          have heq : old = arr := Option.some.inj (hold.symm.trans harr)
          rw [heq, List.take_length]
      · rw [if_pos henv, if_pos henv]
    have hlive : ∀ x, (Function.update E.arrays E.fresh (some x) l).isSome := by
      intro x
      rw [Function.update_of_ne hlf, hold]
      rfl
    unfold appendWith append
    rw [realloc_some hl hst hold]
    simp only [Env.malloc, hl, Env.read, Env.write, hold, Option.bind_eq_bind, Option.bind_some,
      Function.update_of_ne hlf.symm, Function.update_self, if_true]
    rw [Env.free, if_neg hst, if_pos (hlive _)]
    simp only [Option.bind_some, Option.map_some]
    rw [hsame, Function.update_comm hlf, Function.update_idem, Function.update_comm hlf.symm]

/-- A call that gets all its memory is the call whose memory never fails. -/
theorem execWith_ok (hE : Live E)
    (hlast : ∀ l ∈ E.last_environ, l ≠ startup ∧ (E.arrays l).isSome) (c : Call) :
    execWith ⟨.moves, true⟩ E c = exec E c := by
  cases c with
  | putenv strng => exact putenvWith_ok rfl
  | unsetenv name => rfl
  | clearenv => rfl
  | setenv name value replace =>
    show setenvWith _ E name value replace = setenv E name value replace
    unfold setenvWith setenv
    by_cases hbad : BadName name
    · rw [if_pos hbad, if_pos hbad]
    rw [if_neg hbad, if_neg hbad]
    unfold addToEnvironWith addToEnviron
    cases ha : E.environ with
    | none => exact appendWith_ok hE hlast (Or.inl ⟨ha, rfl⟩)
    | some a =>
      obtain ⟨arr, harr⟩ := Option.isSome_iff_exists.mp (hE.environ a ha)
      simp only [Env.read, harr, Option.bind_eq_bind, Option.bind_some]
      cases find name arr with
      | none => exact appendWith_ok hE hlast (Or.inr ⟨a, ha, harr⟩)
      | some v => cases replace <;> rfl

end Calls

end Mintlib.Environ
