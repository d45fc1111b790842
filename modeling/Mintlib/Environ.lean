import Mintlib.Lib.Run
import Mintlib.Lib.Text
import Mintlib.Posix

/-!
# The environment: `putenv.c`, `setenv.c` and `getenv.c`

`environ` points to an array of strings. Arrays are named by numbers; `malloc` gives
a new one and `free` takes one away. Two families of functions manage the array:
`putenv` copies it and frees the old one, `setenv` reallocates the one that it
remembers in `last_environ`. `none` stands for a read or a `free` of an array that has
been freed.
-/

namespace Mintlib.Environ

open Posix Text

structure Env where
  /-- The arrays that have not been freed, as the strings before their `NULL`. -/
  arrays : ℕ → Option (List Str)
  fresh : ℕ
  environ : Option ℕ
  last_environ : Option ℕ

/-- The array that the start-up code has laid out, which `malloc` knows nothing of. -/
abbrev startup : ℕ := 0

/-- The loop of `getenv`. -/
def find (name : Str) : List Str → Option Str
  | [] => none
  | s :: arr => if Named name s then some (s.drop (name.length + 1)) else find name arr

/-- The loop of `del_env`: the first match is taken out. -/
def delFirst (name : Str) : List Str → List Str
  | [] => []
  | s :: arr => if Named name s then arr else s :: delFirst name arr

/-- `*ep = np` for the first match. -/
def replaceFirst (name np : Str) : List Str → List Str
  | [] => []
  | s :: arr => if Named name s then np :: arr else s :: replaceFirst name np arr

/-- The loop of `unsetenv`: every match is taken out. -/
def delAll (name : Str) : List Str → List Str
  | [] => []
  | s :: arr => if Named name s then delAll name arr else s :: delAll name arr

def Env.read (E : Env) (a : ℕ) : Option (List Str) := E.arrays a

def Env.write (E : Env) (a : ℕ) (arr : List Str) : Env :=
  { E with arrays := Function.update E.arrays a (some arr) }

/-- `malloc` of an array, filled with `arr`. -/
def Env.malloc (E : Env) (arr : List Str) : ℕ × Env :=
  (E.fresh, { E with arrays := Function.update E.arrays E.fresh (some arr), fresh := E.fresh + 1 })

/-- `free`, which does nothing to what `malloc` has not made. -/
def Env.free (E : Env) (a : ℕ) : Option Env :=
  if a = startup then some E
  else if (E.arrays a).isSome then some { E with arrays := Function.update E.arrays a none }
  else none

def getenv (E : Env) (tag : Str) : Option (Option Str) :=
  match E.environ with
  | none => some none
  | some a => (E.read a).map (find tag)

/-- The name in front of `'='`. -/
def tagOf : Str → Str
  | [] => []
  | c :: strng => if c = EQ then [] else c :: tagOf strng

def delEnv (E : Env) (strng : Str) : Option Env :=
  match E.environ with
  | none => some E
  | some a => (E.read a).map fun arr => E.write a (delFirst (tagOf strng) arr)

def putenv (E : Env) (strng : Str) : Option Env := do
  let E ← delEnv E strng
  match E.environ with
  | none =>
    let (e, E) := E.malloc [strng]
    some { E with environ := some e }
  | some a =>
    let arr ← E.read a
    let (e, E) := E.malloc (arr ++ [strng])
    let E ← E.free a
    some { E with environ := some e }

/-- `name == NULL || *name == '\0' || strchr (name, '=') != NULL`. -/
def BadName (name : Str) : Prop := name = [] ∨ EQ ∈ name

instance (name : Str) : Decidable (BadName name) := inferInstanceAs (Decidable (_ ∨ _))

/-- `__add_to_environ` with a new entry: `last_environ` is made larger, and gets the
strings of `environ` if that is another array. -/
def append (E : Env) (arr : List Str) (entry : Str) : Option Env := do
  let old ← match E.last_environ with
    | none => some []
    | some l => E.read l
  let (new, E') := E.malloc ((if E.environ ≠ E.last_environ then arr else old) ++ [entry])
  let E' ← match E.last_environ with
    | none => some E'
    | some l => E'.free l
  some { E' with environ := some new, last_environ := some new }

def addToEnviron (E : Env) (name value : Str) (replace : Bool) : Option Env :=
  let entry := name ++ EQ :: value
  match E.environ with
  | none => append E [] entry
  | some a => do
    let arr ← E.read a
    match find name arr with
    | none => append E arr entry
    | some _ => some (if replace then E.write a (replaceFirst name entry arr) else E)

abbrev Ret := ℤ × Option ℕ

def setenv (E : Env) (name value : Str) (replace : Bool) : Option (Ret × Env) :=
  if BadName name then some ((-1, some EINVAL), E)
  else (addToEnviron E name value replace).map fun E => ((0, none), E)

def unsetenv (E : Env) (name : Str) : Option (Ret × Env) :=
  if BadName name then some ((-1, some EINVAL), E)
  else
    match E.environ with
    | none => some ((0, none), E)
    | some a => (E.read a).map fun arr => ((0, none), E.write a (delAll name arr))

def clearenv (E : Env) : Option Env := do
  let E ← match E.environ with
    | some a =>
      if E.environ = E.last_environ then (E.free a).map fun E => { E with last_environ := none }
      else some E
    | none => some E
  some { E with environ := none }

inductive Call
  | putenv (strng : Str)
  | setenv (name value : Str) (replace : Bool)
  | unsetenv (name : Str)
  | clearenv

def exec (E : Env) : Call → Option (Ret × Env)
  | .putenv strng => (putenv E strng).map fun E => ((0, none), E)
  | .setenv name value replace => setenv E name value replace
  | .unsetenv name => unsetenv E name
  | .clearenv => (clearenv E).map fun E => ((0, none), E)

def assign (values : Str → Option Str) : Call → Str → Option Str
  | .putenv strng =>
    Function.update values (tagOf strng)
      (if EQ ∈ strng then some (strng.drop ((tagOf strng).length + 1)) else none)
  | .setenv name value replace =>
    if BadName name ∨ (replace = false ∧ values name ≠ none) then values
    else Function.update values name (some value)
  | .unsetenv name => if BadName name then values else Function.update values name none
  | .clearenv => fun _ => none

/-- The environment and the values that the calls so far have assigned. -/
structure Sys where
  env : Env
  values : Str → Option Str

/-- The condition on `putenv`: the array is not the one that `setenv` remembers, and
the name occurs at most once in it. -/
def PutOk (E : Env) : Call → Prop
  | .putenv strng => ∀ a, E.environ = some a → E.last_environ ≠ some a ∧
      ∀ arr, E.arrays a = some arr →
        arr.countP (fun s => decide (Named (tagOf strng) s)) ≤ 1
  | _ => True

def program (ok : Env → Call → Prop) : Machine Sys (Call × Ret) where
  init s := 0 < s.env.fresh ∧ (∀ a, s.env.fresh ≤ a → s.env.arrays a = none) ∧
    s.env.last_environ = none ∧
    ((s.env.environ = none ∧ ∀ n, s.values n = none) ∨
      ∃ arr, s.env.environ = some startup ∧ s.env.arrays startup = some arr ∧
        ∀ n, EQ ∉ n → s.values n = find n arr)
  step s l s' := ok s.env l.1 ∧ exec s.env l.1 = some (l.2, s'.env) ∧
    s'.values = assign s.values l.1

/-- `environ` and `last_environ` are `NULL` or live, and `getenv` gives the assigned values. -/
structure EnvOk (s : Sys) : Prop where
  environ : ∀ a ∈ s.env.environ, ∃ arr, s.env.arrays a = some arr
  last : ∀ a ∈ s.env.last_environ, ∃ arr, s.env.arrays a = some arr
  values : ∀ n, EQ ∉ n → getenv s.env n = some (s.values n)

section Loops

variable {n m s np v : Str} {arr : List Str}

theorem named_iff : Named n s ↔ ∃ v, s = n ++ EQ :: v := by
  constructor
  · rintro ⟨v, rfl⟩
    exact ⟨v, by simp⟩
  · rintro ⟨v, rfl⟩
    exact ⟨v, by simp⟩

theorem drop_entry (n v : Str) : (n ++ EQ :: v).drop (n.length + 1) = v := by simp

theorem tagOf_entry (hn : EQ ∉ n) : tagOf (n ++ EQ :: v) = n := by
  induction n with
  | nil => rfl
  | cons c n ih =>
    obtain ⟨hc, hn⟩ := not_or.mp (mt List.mem_cons.mpr hn)
    rw [List.cons_append, tagOf, if_neg (Ne.symm hc), ih hn]

theorem named_tag (hn : EQ ∉ n) (h : Named n s) : tagOf s = n := by
  obtain ⟨v, rfl⟩ := named_iff.mp h
  exact tagOf_entry hn

theorem EQ_notMem_tagOf (s : Str) : EQ ∉ tagOf s := by
  induction s with
  | nil => exact List.not_mem_nil
  | cons c s ih =>
    unfold tagOf
    by_cases hc : c = EQ
    · rw [if_pos hc]
      exact List.not_mem_nil
    · rw [if_neg hc]
      exact fun h => (List.mem_cons.mp h).elim (Ne.symm hc) ih

theorem named_tagOf (h : EQ ∈ s) : Named (tagOf s) s := by
  induction s with
  | nil => exact absurd h List.not_mem_nil
  | cons c s ih =>
    unfold tagOf
    by_cases hc : c = EQ
    · rw [if_pos hc, hc]
      exact named_iff.mpr ⟨s, rfl⟩
    · rw [if_neg hc]
      obtain ⟨v, hv⟩ := named_iff.mp (ih ((List.mem_cons.mp h).resolve_left (Ne.symm hc)))
      exact named_iff.mpr ⟨v, by rw [List.cons_append, ← hv]⟩

theorem not_named (hn : EQ ∉ n) (hm : EQ ∉ m) (hne : n ≠ m) (h : Named m s) : ¬ Named n s :=
  fun h' => hne ((named_tag hn h').symm.trans (named_tag hm h))

theorem find_eq_none : find n arr = none ↔ ∀ s ∈ arr, ¬ Named n s := by
  induction arr with
  | nil => simp [find]
  | cons s arr ih =>
    unfold find
    by_cases h : Named n s
    · rw [if_pos h]
      exact iff_of_false (by simp) fun hall => hall s List.mem_cons_self h
    · rw [if_neg h, ih, List.forall_mem_cons, and_iff_right h]

theorem find_append (arr' : List Str) : find n (arr ++ arr') = (find n arr).or (find n arr') := by
  induction arr with
  | nil => simp [find]
  | cons s arr ih =>
    rw [List.cons_append, find, find]
    by_cases h : Named n s
    · rw [if_pos h, if_pos h, Option.some_or]
    · rw [if_neg h, if_neg h, ih]

theorem find_delFirst_of_ne (hn : EQ ∉ n) (hm : EQ ∉ m) (hne : n ≠ m) :
    find n (delFirst m arr) = find n arr := by
  induction arr with
  | nil => rfl
  | cons s arr ih =>
    unfold delFirst
    by_cases h : Named m s
    · rw [if_pos h, find, if_neg (not_named hn hm hne h)]
    · rw [if_neg h, find, find, ih]

theorem find_delFirst_self (h : arr.countP (fun s => decide (Named n s)) ≤ 1) :
    find n (delFirst n arr) = none := by
  induction arr with
  | nil => rfl
  | cons s arr ih =>
    unfold delFirst
    by_cases hs : Named n s
    · rw [if_pos hs]
      rw [List.countP_cons_of_pos (by simpa using hs)] at h
      have h0 : arr.countP (fun s => decide (Named n s)) = 0 := by omega
      rw [List.countP_eq_zero] at h0
      exact find_eq_none.mpr fun s hs => by simpa using h0 s hs
    · rw [if_neg hs, find, if_neg hs]
      rw [List.countP_cons_of_neg (by simpa using hs)] at h
      exact ih h

theorem find_delAll_of_ne (hn : EQ ∉ n) (hm : EQ ∉ m) (hne : n ≠ m) :
    find n (delAll m arr) = find n arr := by
  induction arr with
  | nil => rfl
  | cons s arr ih =>
    unfold delAll
    by_cases h : Named m s
    · rw [if_pos h, find, if_neg (not_named hn hm hne h), ih]
    · rw [if_neg h, find, find, ih]

theorem find_delAll_self : find n (delAll n arr) = none := by
  induction arr with
  | nil => rfl
  | cons s arr ih =>
    unfold delAll
    by_cases h : Named n s
    · rw [if_pos h, ih]
    · rw [if_neg h, find, if_neg h, ih]

theorem find_replaceFirst_of_ne (hn : EQ ∉ n) (hm : EQ ∉ m) (hne : n ≠ m) :
    find n (replaceFirst m (m ++ EQ :: v) arr) = find n arr := by
  have hv : Named m (m ++ EQ :: v) := named_iff.mpr ⟨v, rfl⟩
  induction arr with
  | nil => rfl
  | cons s arr ih =>
    unfold replaceFirst
    by_cases h : Named m s
    · rw [if_pos h, find, find, if_neg (not_named hn hm hne h),
        if_neg (not_named hn hm hne hv)]
    · rw [if_neg h, find, find, ih]

theorem find_replaceFirst_self (h : find n arr ≠ none) :
    find n (replaceFirst n (n ++ EQ :: v) arr) = some v := by
  have hv : Named n (n ++ EQ :: v) := named_iff.mpr ⟨v, rfl⟩
  induction arr with
  | nil => exact absurd rfl h
  | cons s arr ih =>
    unfold replaceFirst
    unfold find at h
    by_cases hs : Named n s
    · rw [if_pos hs, find, if_pos hv, drop_entry]
    · rw [if_neg hs] at h ⊢
      rw [find, if_neg hs]
      exact ih h

theorem find_singleton : find n [s] =
    if Named n s then some (s.drop (n.length + 1)) else none := rfl

end Loops

section Calls

variable {E E' : Env} {s s' : Sys} {c : Call} {r : Ret} {arr : List Str} {a : ℕ}
  {n name value strng : Str}

/-- The state that every call keeps: `environ` is live, `setenv` remembers it or nothing. -/
structure Inv (s : Sys) : Prop where
  pos : 0 < s.env.fresh
  unused : ∀ a, s.env.fresh ≤ a → s.env.arrays a = none
  last : s.env.last_environ = none ∨
    (s.env.last_environ = s.env.environ ∧ s.env.last_environ ≠ some startup)
  values : (s.env.environ = none ∧ ∀ n, EQ ∉ n → s.values n = none) ∨
    ∃ a arr, s.env.environ = some a ∧ s.env.arrays a = some arr ∧
      ∀ n, EQ ∉ n → s.values n = find n arr

theorem Inv.ok (h : Inv s) : EnvOk s := by
  rcases h.values with ⟨hnone, hv⟩ | ⟨a, arr, ha, harr, hv⟩
  · refine ⟨fun a ha => ?_, fun a ha => ?_, fun n hn => ?_⟩
    · rw [hnone] at ha
      simp at ha
    · rcases h.last with hl | ⟨hl, -⟩
      · rw [hl] at ha
        simp at ha
      · rw [hl, hnone] at ha
        simp at ha
    · rw [getenv, hnone, hv n hn]
  · have hlive : ∀ b ∈ s.env.environ, ∃ arr, s.env.arrays b = some arr := by
      intro b hb
      rw [ha, Option.mem_some_iff] at hb
      exact ⟨arr, hb ▸ harr⟩
    refine ⟨hlive, fun b hb => ?_, fun n hn => ?_⟩
    · rcases h.last with hl | ⟨hl, -⟩
      · rw [hl] at hb
        simp at hb
      · exact hlive b (hl ▸ hb)
    · rw [getenv, ha]
      simp only [Env.read, harr, Option.map_some, hv n hn]

theorem Inv.lt_fresh (h : Inv s) (ha : s.env.arrays a = some arr) : a < s.env.fresh := by
  by_contra hle
  rw [h.unused a (not_lt.mp hle)] at ha
  simp at ha

theorem Inv.write {values : Str → Option Str} {arr' : List Str} (h : Inv s)
    (ha : s.env.environ = some a) (harr : s.env.arrays a = some arr)
    (hv : ∀ n, EQ ∉ n → values n = find n arr') : Inv ⟨s.env.write a arr', values⟩ where
  pos := h.pos
  unused b hb := by
    have hne : b ≠ a := by
      have := h.lt_fresh harr
      show b ≠ a
      have hb' : s.env.fresh ≤ b := hb
      omega
    show Function.update s.env.arrays a (some arr') b = none
    rw [Function.update_of_ne hne]
    exact h.unused b hb
  last := h.last
  values := Or.inr ⟨a, arr', ha, Function.update_self _ _ _, hv⟩

theorem Inv.renew {values : Str → Option Str} (arrays : ℕ → Option (List Str))
    (last : Option ℕ) (arr' : List Str) (h : Inv s)
    (hnew : arrays s.env.fresh = some arr') (hunused : ∀ b, s.env.fresh < b → arrays b = none)
    (hlast : last = none ∨ last = some s.env.fresh) (hv : ∀ n, EQ ∉ n → values n = find n arr') :
    Inv ⟨⟨arrays, s.env.fresh + 1, some s.env.fresh, last⟩, values⟩ where
  pos := Nat.succ_pos _
  unused b hb := hunused b hb
  last := by
    refine hlast.imp_right fun hl => ⟨hl, fun heq => ?_⟩
    have hst : some s.env.fresh = some startup := Eq.trans (Eq.symm hl) heq
    have hpos := h.pos
    rw [Option.some.inj hst] at hpos
    exact absurd hpos (by decide)
  values := Or.inr ⟨s.env.fresh, arr', rfl, hnew, hv⟩

theorem find_entry {values : Str → Option Str} (hn : EQ ∉ n) (hname : EQ ∉ name)
    (hnone : find name arr = none) (hothers : n ≠ name → values n = find n arr) :
    Function.update values name (some value) n = find n (arr ++ [name ++ EQ :: value]) := by
  rw [find_append, find_singleton]
  have hm : Named name (name ++ EQ :: value) := named_iff.mpr ⟨value, rfl⟩
  by_cases hne : n = name
  · subst hne
    rw [Function.update_self, hnone, Option.none_or, if_pos hm, drop_entry]
  · rw [Function.update_of_ne hne, if_neg (not_named hn hname hne hm), Option.or_none]
    exact hothers hne

theorem find_strng {values : Str → Option Str} (hn : EQ ∉ n)
    (hnone : find (tagOf strng) arr = none) (hothers : n ≠ tagOf strng → values n = find n arr) :
    assign values (.putenv strng) n = find n (arr ++ [strng]) := by
  show Function.update values (tagOf strng)
    (if EQ ∈ strng then some (strng.drop ((tagOf strng).length + 1)) else none) n = _
  by_cases hEQ : EQ ∈ strng
  · obtain ⟨v, hv⟩ := named_iff.mp (named_tagOf hEQ)
    rw [if_pos hEQ]
    have hdrop : strng.drop ((tagOf strng).length + 1) = v := by
      conv_lhs => rw [hv, tagOf_entry (EQ_notMem_tagOf strng)]
      exact drop_entry _ _
    rw [hdrop]
    conv_rhs => rw [hv]
    exact find_entry hn (EQ_notMem_tagOf strng) hnone hothers
  · rw [if_neg hEQ, find_append, find_singleton]
    have hno : ¬ Named n strng := by
      intro h
      obtain ⟨v, rfl⟩ := named_iff.mp h
      exact hEQ (by simp)
    rw [if_neg hno, Option.or_none]
    by_cases hne : n = tagOf strng
    · rw [hne, Function.update_self, hnone]
    · rw [Function.update_of_ne hne]
      exact hothers hne

theorem putenv_inv (h : Inv s) (hok : PutOk s.env (.putenv strng)) :
    ∃ E', putenv s.env strng = some E' ∧ Inv ⟨E', assign s.values (.putenv strng)⟩ := by
  -- there is no environment yet, or the variable is taken out of it first
  rcases h.values with ⟨hnone, hv⟩ | ⟨a, arr, ha, harr, hv⟩
  · have hl : s.env.last_environ = none := by
      rcases h.last with hl | ⟨hl, -⟩
      · exact hl
      · rw [hl, hnone]
    refine ⟨_, ?_, h.renew
      (Function.update s.env.arrays s.env.fresh (some [strng])) none [strng]
      (Function.update_self _ _ _) (fun b hb => ?_) (Or.inl rfl) fun n hn => ?_⟩
    · simp only [putenv, delEnv, hnone, Option.bind_eq_bind, Option.bind_some, Env.malloc, hl]
    · rw [Function.update_of_ne (by omega)]
      exact h.unused b (by omega)
    · have hnil : find (tagOf strng) [] = none := rfl
      exact find_strng hn hnil fun _ => hv n hn
  · obtain ⟨hne, hcount⟩ := hok a ha
    have hl : s.env.last_environ = none := by
      rcases h.last with hl | ⟨hl, -⟩
      · exact hl
      · rw [hl] at hne
        exact absurd ha hne
    have hlt := h.lt_fresh harr
    set arr' := delFirst (tagOf strng) arr with harr'
    set arrays₁ := Function.update (Function.update s.env.arrays a (some arr')) s.env.fresh
      (some (arr' ++ [strng])) with harrays₁
    have hnew₁ : arrays₁ s.env.fresh = some (arr' ++ [strng]) := Function.update_self _ _ _
    have hunused₁ : ∀ b, s.env.fresh < b → arrays₁ b = none := by
      intro b hb
      rw [harrays₁, Function.update_of_ne (by omega), Function.update_of_ne (by omega)]
      exact h.unused b (by omega)
    have hvalues : ∀ n, EQ ∉ n →
        assign s.values (.putenv strng) n = find n (arr' ++ [strng]) := by
      intro n hn
      refine find_strng hn (find_delFirst_self (hcount arr harr)) fun hnt => ?_
      rw [harr', find_delFirst_of_ne hn (EQ_notMem_tagOf strng) hnt]
      exact hv n hn
    have hput : putenv s.env strng =
        (Env.free ⟨arrays₁, s.env.fresh + 1, some a, none⟩ a).bind fun E =>
          some { E with environ := some s.env.fresh } := by
      simp only [putenv, delEnv, ha, Env.read, harr, Option.map_some, Option.bind_eq_bind,
        Option.bind_some, Env.write, Env.malloc, Function.update_self, hl]
      rfl
    -- the array of the start is not freed
    by_cases hst : a = startup
    · refine ⟨_, ?_, h.renew _ _ _ hnew₁ hunused₁ (Or.inl rfl) hvalues⟩
      rw [hput, Env.free, if_pos hst, Option.bind_some]
    · have hlive : (arrays₁ a).isSome := by
        rw [harrays₁, Function.update_of_ne (by omega), Function.update_self]
        rfl
      refine ⟨_, ?_, h.renew (Function.update arrays₁ a none) _ _ ?_ ?_ (Or.inl rfl) hvalues⟩
      · rw [hput, Env.free, if_neg hst, if_pos hlive, Option.bind_some]
      · rw [Function.update_of_ne (by omega)]
        exact hnew₁
      · intro b hb
        rw [Function.update_of_ne (by omega)]
        exact hunused₁ b hb

theorem append_inv {values : Str → Option Str} {entry : Str} (h : Inv s)
    (harr : (s.env.environ = none ∧ arr = []) ∨
      ∃ a, s.env.environ = some a ∧ s.env.arrays a = some arr)
    (hv : ∀ n, EQ ∉ n → values n = find n (arr ++ [entry])) :
    ∃ E', append s.env arr entry = some E' ∧ Inv ⟨E', values⟩ := by
  rcases h.last with hl | ⟨hl, hst⟩
  · refine ⟨_, ?_, h.renew
      (Function.update s.env.arrays s.env.fresh (some (arr ++ [entry])))
      (some s.env.fresh) (arr ++ [entry])
      (Function.update_self _ _ _) (fun b hb => ?_) (Or.inr rfl) hv⟩
    · rcases harr with ⟨hnone, rfl⟩ | ⟨a, ha, -⟩
      · simp only [append, hl, hnone, Option.bind_eq_bind, Option.bind_some, Env.malloc, ne_eq,
          not_true_eq_false, if_false]
      · simp only [append, hl, ha, Option.bind_eq_bind, Option.bind_some, Env.malloc, ne_eq,
          reduceCtorEq, not_false_eq_true, if_true]
    · rw [Function.update_of_ne (by omega)]
      exact h.unused b (by omega)
  · rcases harr with ⟨hnone, rfl⟩ | ⟨a, ha, harr⟩
    · refine ⟨_, ?_, h.renew
        (Function.update s.env.arrays s.env.fresh (some [entry])) (some s.env.fresh) [entry]
        (Function.update_self _ _ _) (fun b hb => ?_) (Or.inr rfl) hv⟩
      · rw [hnone] at hl
        simp only [append, hl, hnone, Option.bind_eq_bind, Option.bind_some, Env.malloc, ne_eq,
          not_true_eq_false, if_false, List.nil_append]
      · rw [Function.update_of_ne (by omega)]
        exact h.unused b (by omega)
    · have hlt := h.lt_fresh harr
      have hla : s.env.last_environ = some a := by rw [hl, ha]
      have hsta : a ≠ startup := fun he => hst (by rw [hla, he])
      set arrays₁ := Function.update s.env.arrays s.env.fresh (some (arr ++ [entry])) with harrays₁
      have hlive : (arrays₁ a).isSome := by
        rw [harrays₁, Function.update_of_ne (by omega), harr]
        rfl
      refine ⟨_, ?_, h.renew (Function.update arrays₁ a none) (some s.env.fresh)
        (arr ++ [entry]) ?_ (fun b hb => ?_) (Or.inr rfl) hv⟩
      · simp only [append, hla, ha, Env.read, harr, Option.bind_eq_bind, Option.bind_some,
          Env.malloc, ne_eq, not_true_eq_false, if_false]
        rw [Env.free, if_neg hsta, if_pos hlive]
        rfl
      · rw [Function.update_of_ne (by omega), harrays₁, Function.update_self]
      · rw [Function.update_of_ne (by omega), harrays₁, Function.update_of_ne (by omega)]
        exact h.unused b (by omega)

theorem setenv_inv {replace : Bool} (h : Inv s) : ∃ r E',
    setenv s.env name value replace = some (r, E') ∧
      Inv ⟨E', assign s.values (.setenv name value replace)⟩ := by
  have hassign : assign s.values (.setenv name value replace) =
      if BadName name ∨ (replace = false ∧ s.values name ≠ none) then s.values
      else Function.update s.values name (some value) := rfl
  rw [hassign]
  by_cases hbad : BadName name
  · exact ⟨_, s.env, by rw [setenv, if_pos hbad], by rw [if_pos (Or.inl hbad)]; exact h⟩
  have hname : EQ ∉ name := fun hEQ => hbad (Or.inr hEQ)
  have hset : ∀ {E'}, addToEnviron s.env name value replace = some E' →
      setenv s.env name value replace = some ((0, none), E') := by
    intro E' hadd
    rw [setenv, if_neg hbad, hadd]
    rfl
  rcases h.values with ⟨hnone, hv⟩ | ⟨a, arr, ha, harr, hv⟩
  · rw [if_neg (by rw [hv name hname]; simp [hbad])]
    have hnil : find name [] = none := rfl
    obtain ⟨E', happ, hinv⟩ := append_inv h (Or.inl ⟨hnone, rfl⟩)
      fun n hn => find_entry hn hname hnil fun _ => hv n hn
    refine ⟨_, E', hset ?_, hinv⟩
    simp only [addToEnviron, hnone]
    exact happ
  · cases hfind : find name arr with
    | none =>
      rw [if_neg (by rw [hv name hname, hfind]; simp [hbad])]
      obtain ⟨E', happ, hinv⟩ := append_inv h (Or.inr ⟨a, ha, harr⟩)
        fun n hn => find_entry hn hname hfind fun _ => hv n hn
      refine ⟨_, E', hset ?_, hinv⟩
      simp only [addToEnviron, ha, Env.read, harr, Option.bind_eq_bind, Option.bind_some, hfind]
      exact happ
    | some old =>
      have hadd : addToEnviron s.env name value replace = some (if replace then
          s.env.write a (replaceFirst name (name ++ EQ :: value) arr) else s.env) := by
        simp only [addToEnviron, ha, Env.read, harr, Option.bind_eq_bind, Option.bind_some, hfind]
      refine ⟨_, _, hset hadd, ?_⟩
      cases replace with
      | false =>
        rw [if_pos (Or.inr ⟨rfl, by rw [hv name hname, hfind]; exact Option.some_ne_none _⟩)]
        exact h
      | true =>
        have hcond : ¬ (BadName name ∨ (true = false ∧ s.values name ≠ none)) := by
          rintro (hb | ⟨ht, -⟩)
          · exact hbad hb
          · exact Bool.noConfusion ht
        rw [if_neg hcond]
        refine h.write ha harr fun n hn => ?_
        by_cases hne : n = name
        · rw [hne, Function.update_self, find_replaceFirst_self (by rw [hfind]; simp)]
        · rw [Function.update_of_ne hne, find_replaceFirst_of_ne hn hname hne]
          exact hv n hn

theorem unsetenv_inv (h : Inv s) : ∃ r E', unsetenv s.env name = some (r, E') ∧
    Inv ⟨E', assign s.values (.unsetenv name)⟩ := by
  have hassign : assign s.values (.unsetenv name) =
      if BadName name then s.values else Function.update s.values name none := rfl
  rw [hassign]
  by_cases hbad : BadName name
  · exact ⟨_, s.env, by rw [unsetenv, if_pos hbad], by rw [if_pos hbad]; exact h⟩
  have hname : EQ ∉ name := fun hEQ => hbad (Or.inr hEQ)
  rw [if_neg hbad]
  rcases h.values with ⟨hnone, hv⟩ | ⟨a, arr, ha, harr, hv⟩
  · refine ⟨(0, none), s.env, by simp only [unsetenv, if_neg hbad, hnone], ⟨h.pos, h.unused, h.last, ?_⟩⟩
    refine Or.inl ⟨hnone, fun n hn => ?_⟩
    show Function.update s.values name none n = none
    by_cases hne : n = name
    · rw [hne, Function.update_self]
    · rw [Function.update_of_ne hne]
      exact hv n hn
  · refine ⟨(0, none), s.env.write a (delAll name arr), ?_, h.write ha harr fun n hn => ?_⟩
    · simp only [unsetenv, if_neg hbad, ha, Env.read, harr, Option.map_some]
    · by_cases hne : n = name
      · rw [hne, Function.update_self, find_delAll_self]
      · rw [Function.update_of_ne hne, find_delAll_of_ne hn hname hne]
        exact hv n hn

theorem clearenv_inv (h : Inv s) : ∃ E', clearenv s.env = some E' ∧
    Inv ⟨E', assign s.values .clearenv⟩ := by
  rcases h.values with ⟨hnone, -⟩ | ⟨a, arr, ha, harr, -⟩
  · refine ⟨{ s.env with environ := none },
      by simp only [clearenv, hnone, Option.bind_eq_bind, Option.bind_some], ?_⟩
    refine ⟨h.pos, h.unused, ?_, Or.inl ⟨rfl, fun _ _ => rfl⟩⟩
    exact h.last.imp_right fun hl => ⟨by rw [hl.1, hnone], hl.2⟩
  · rcases h.last with hl | ⟨hl, hst⟩
    · refine ⟨{ s.env with environ := none }, ?_, ?_⟩
      · simp only [clearenv, ha, hl, Option.bind_eq_bind, reduceCtorEq, if_false, Option.bind_some]
      · exact ⟨h.pos, h.unused, Or.inl hl, Or.inl ⟨rfl, fun _ _ => rfl⟩⟩
    · have hla : s.env.last_environ = some a := by rw [hl, ha]
      have hsta : a ≠ startup := fun he => hst (by rw [hla, he])
      refine ⟨⟨Function.update s.env.arrays a none, s.env.fresh, none, none⟩, ?_, ?_⟩
      · simp only [clearenv, ha, hla, Option.bind_eq_bind, if_true, Env.free, if_neg hsta, harr,
          Option.isSome_some, Option.map_some, Option.bind_some]
      · refine ⟨h.pos, fun b hb => ?_, Or.inl rfl, Or.inl ⟨rfl, fun _ _ => rfl⟩⟩
        have hlt := h.lt_fresh harr
        have hb' : s.env.fresh ≤ b := hb
        show Function.update s.env.arrays a none b = none
        rw [Function.update_of_ne (by omega)]
        exact h.unused b hb'

/-- One call that meets the condition is defined, and keeps the environment in order. -/
theorem exec_inv (h : Inv s) (hok : PutOk s.env c) :
    ∃ r E', exec s.env c = some (r, E') ∧ Inv ⟨E', assign s.values c⟩ := by
  cases c with
  | putenv strng =>
    obtain ⟨E', hput, hinv⟩ := putenv_inv h hok
    exact ⟨_, E', by rw [exec, hput]; rfl, hinv⟩
  | setenv name value replace => exact setenv_inv h
  | unsetenv name => exact unsetenv_inv h
  | clearenv =>
    obtain ⟨E', hclear, hinv⟩ := clearenv_inv h
    exact ⟨_, E', by rw [exec, hclear]; rfl, hinv⟩

end Calls

section Runs

variable {s : Sys} {es : List (Call × Ret)}

theorem inv_of_run (hrun : (program PutOk).Run es s) : Inv s := by
  refine hrun.invariant (P := Inv) ?_ ?_
  · rintro s ⟨hpos, hunused, hlast, hstart⟩
    refine ⟨hpos, hunused, Or.inl hlast, ?_⟩
    rcases hstart with ⟨hnone, hv⟩ | ⟨arr, ha, harr, hv⟩
    · exact Or.inl ⟨hnone, fun n _ => hv n⟩
    · exact Or.inr ⟨startup, arr, ha, harr, hv⟩
  · rintro s ⟨c, r⟩ s' h ⟨hok, hex, hval⟩
    obtain ⟨r', E', hex', hinv⟩ := exec_inv h hok
    have heq : (r', E') = (r, s'.env) := Option.some.inj (hex'.symm.trans hex)
    rw [(Prod.mk.inj heq).2, ← hval] at hinv
    exact hinv

/-- In every run whose `putenv` calls meet the condition no array is used after it has
been freed, and `getenv` gives what was assigned last. -/
theorem env_ok_of_run (hrun : (program PutOk).Run es s) :
    EnvOk s ∧ ∀ c, PutOk s.env c → ∃ r E', exec s.env c = some (r, E') ∧
      EnvOk ⟨E', assign s.values c⟩ := by
  have h := inv_of_run hrun
  refine ⟨h.ok, fun c hok => ?_⟩
  obtain ⟨r, E', hex, hinv⟩ := exec_inv h hok
  exact ⟨r, E', hex, hinv.ok⟩

def demoStart : Sys := ⟨⟨fun _ => none, 1, none, none⟩, fun _ => none⟩

theorem demoStart_init {ok : Env → Call → Prop} : (program ok).Run [] demoStart :=
  .start ⟨by decide, fun _ _ => rfl, rfl, Or.inl ⟨rfl, fun _ => rfl⟩⟩

/-- After `setenv ("A", "1", 1)`. -/
def demoSet : Sys :=
  ⟨⟨Function.update (fun _ => none) 1 (some [[65, 61, 49]]), 2, some 1, some 1⟩,
    assign (fun _ => none) (.setenv [65] [49] true)⟩

theorem env_ok_of_run_demo : EnvOk demoSet ∧ ∀ c, PutOk demoSet.env c →
    ∃ r E', exec demoSet.env c = some (r, E') ∧ EnvOk ⟨E', assign demoSet.values c⟩ := by
  have hok : PutOk demoStart.env (.setenv [65] [49] true) := trivial
  have hstep : (program PutOk).step demoStart (.setenv [65] [49] true, (0, none)) demoSet :=
    ⟨hok, rfl, rfl⟩
  exact env_ok_of_run (demoStart_init.snoc hstep)

/-- `putenv` frees the array that `setenv` remembers; the next `setenv` uses it. -/
theorem putenv_frees_last : ∃ s, (program fun _ _ => True).Run
      [(.setenv [65] [49] true, (0, none)), (.putenv [66, 61, 50], (0, none))] s ∧
    s.env.last_environ = some 1 ∧ s.env.arrays 1 = none ∧
    exec s.env (.setenv [67] [51] true) = none ∧ ¬ EnvOk s := by
  have hset : (program fun _ _ => True).Run [(.setenv [65] [49] true, (0, none))] demoSet :=
    demoStart_init.snoc ⟨trivial, rfl, rfl⟩
  set s' : Sys := ⟨((exec demoSet.env (.putenv [66, 61, 50])).getD
    ((0, none), demoSet.env)).2, assign demoSet.values (.putenv [66, 61, 50])⟩
  have hput : (program fun _ _ => True).step demoSet (.putenv [66, 61, 50], (0, none)) s' :=
    ⟨trivial, rfl, rfl⟩
  refine ⟨s', hset.snoc hput, rfl, rfl, rfl, fun h => ?_⟩
  obtain ⟨arr, harr⟩ := h.last 1 rfl
  exact Option.some_ne_none _ (harr.symm.trans rfl)

end Runs

end Mintlib.Environ
