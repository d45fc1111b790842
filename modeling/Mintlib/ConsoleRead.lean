import Mathlib.Tactic

/-!
# Keys of the console: `read.c` under TOS

In raw and cbreak mode `__read` takes keystrokes one by one from the BIOS. A key without an
ASCII code is two bytes, and the second may have to wait for the next call. What happens to
every keystroke is recorded: it is accepted, and then it is returned, kept for later, a
signal, or lost.
-/

namespace Mintlib.ConsoleRead

/-- What the BIOS delivers for a key: the ASCII code in bits 0 to 7, the scan code in bits
16 to 23. -/
abbrev Key := BitVec 32

inductive Signal where
  | SIGINT
  | SIGQUIT
deriving DecidableEq

/-- The flags of the terminal and the characters of `__tchars`, which are signed. -/
structure Settings where
  RAW : Bool
  CBREAK : Bool
  ECHO : Bool
  CRMOD : Bool
  t_intrc : ℤ
  t_quitc : ℤ

/-- `key & 0x00ff` and the low byte of `key >> 16`. -/
def ascii (key : Key) : ℕ := (key &&& 0xff#32).toNat
def scan (key : Key) : ℕ := ((key.sshiftRight 16) &&& 0xff#32).toNat

/-- The static variable of `read.c`, and what has become of the keystrokes. -/
structure Console where
  scancode : ℤ
  accepted : List Key
  returned : List ℕ
  signals : List Signal
  echoed : List ℕ
deriving DecidableEq

def Console.start : Console := ⟨-1, [], [], [], []⟩

/-- `r` after `CRMOD`. -/
def Settings.conv (c : Settings) (r : ℕ) : ℕ := if c.CRMOD ∧ r = 13 then 10 else r

def Settings.signal (c : Settings) (r : ℕ) : Option Signal :=
  if c.RAW then none
  else if (r : ℤ) = c.t_intrc then some .SIGINT
  else if (r : ℤ) = c.t_quitc then some .SIGQUIT
  else none

def Console.accept (s : Console) (key : Key) : Console := { s with accepted := s.accepted ++ [key] }

def Console.echo (c : Settings) (r : ℕ) (s : Console) : Console :=
  if c.ECHO then { s with echoed := s.echoed ++ [r] } else s

def Console.raise (s : Console) (sig : Signal) : Console :=
  { s with signals := s.signals ++ [sig] }

def Console.deliver (s : Console) : Console :=
  { s with scancode := -1, returned := s.returned ++ [s.scancode.toNat] }

/-- The end of a call: the bytes for a character `r` and its key. -/
def Console.store (s : Console) (size r : ℕ) (key : Key) : Console :=
  if r ≠ 0 then { s with returned := s.returned ++ [r] }
  else if 1 < size then { s with returned := s.returned ++ [0o34, scan key] }
  else { s with scancode := scan key, returned := s.returned ++ [0o34] }

/-- The part of `__read` behind `again:`, with the keystrokes still to come. Those that
are left when the call returns, or `none` if it waits for another one. -/
def again (c : Settings) (size : ℕ) (s : Console) : List Key → Console × Option (List Key)
  | [] => (s, none)
  | first :: keys =>
    -- the character of the first key is overwritten
    let s := s.accept first
    if 0 < s.scancode ∧ size = 1 then (s.deliver, some keys)
    else
      match keys with
      | [] => (s, none)
      | key :: keys =>
        let s := (s.accept key).echo c (ascii key)
        let r := c.conv (ascii key)
        match c.signal r with
        | some sig => again c size (s.raise sig) keys
        | none => (s.store size r key, some keys)

/-- `__read` on the console, unless echo without raw and cbreak mode leaves it to `Fread`. -/
def read (c : Settings) (size : ℕ) (s : Console) (keys : List Key) : Console × Option (List Key) :=
  again c (if 4096 < size then 4096 else size) s keys

/-- A sequence of calls with the given sizes. It ends with a call that does not return. -/
def reads (c : Settings) : List ℕ → Console → List Key → Console
  | [], s, _ => s
  | size :: sizes, s, keys =>
    match read c size s keys with
    | (s, some keys) => reads c sizes s keys
    | (s, none) => s

def Settings.encode (c : Settings) (key : Key) : List ℕ :=
  let r := c.conv (ascii key)
  if (c.signal r).isSome then [] else if r = 0 then [0o34, scan key] else [r]

def Console.carried (s : Console) : List ℕ :=
  if s.scancode < 0 then [] else [s.scancode.toNat]

/-- Of the accepted keystrokes nothing is lost: their bytes are returned in order or kept,
and their signals have been raised. -/
def Lossless (c : Settings) (s : Console) : Prop :=
  s.returned ++ s.carried = s.accepted.flatMap c.encode ∧
    s.signals = s.accepted.filterMap fun key => c.signal (c.conv (ascii key))

instance (c : Settings) (s : Console) : Decidable (Lossless c s) :=
  inferInstanceAs (Decidable (_ ∧ _))

section Count

variable {c : Settings} {s : Console} {size r n : ℕ} {key : Key} {keys : List Key}

def Settings.weight (c : Settings) (key : Key) : ℕ :=
  (c.encode key).length + (c.signal (c.conv (ascii key))).toList.length

def Console.output (s : Console) : ℕ :=
  s.returned.length + s.carried.length + s.signals.length

theorem weight_pos (c : Settings) (key : Key) : 0 < c.weight key := by
  by_cases h : (c.signal (c.conv (ascii key))).isSome
  · obtain ⟨sig, hsig⟩ := Option.isSome_iff_exists.mp h
    rw [Settings.weight, hsig]
    exact Nat.lt_add_left _ Nat.one_pos
  · have hbytes : 0 < (c.encode key).length := by
      simp only [Settings.encode, if_neg h]
      split
      · exact Nat.two_pos
      · exact Nat.one_pos
    exact Nat.add_pos_left hbytes _

/-- At least `n` of what the accepted keys count for is lost. -/
def Lost (c : Settings) (n : ℕ) (s : Console) : Prop :=
  s.output + n ≤ (s.accepted.map c.weight).sum

theorem Lossless.not_lost (h : Lossless c s) (hn : 0 < n) : ¬ Lost c n s := by
  have hbytes : s.returned.length + s.carried.length =
      (s.accepted.map fun key => (c.encode key).length).sum := by
    rw [← List.length_append, h.1, List.length_flatMap]
  have hsignals : s.signals.length =
      (s.accepted.map fun key => (c.signal (c.conv (ascii key))).toList.length).sum := by
    rw [h.2, ← List.length_flatMap, List.filterMap_eq_flatMap_toList]
  have hsum : (s.accepted.map c.weight).sum = s.output := by
    rw [Console.output, hbytes, hsignals, ← List.sum_map_add]
    rfl
  intro hlost
  rw [Lost, hsum] at hlost
  omega

theorem Lost.accept (h : Lost c n s) (key : Key) : Lost c (n + 1) (s.accept key) := by
  have hpos := weight_pos c key
  have houtput : (s.accept key).output = s.output := rfl
  unfold Lost at h ⊢
  rw [houtput, Console.accept, List.map_append, List.sum_append, List.map_singleton,
    List.sum_singleton]
  omega

theorem Lost.mono {m : ℕ} (h : Lost c n s) (hm : m ≤ n) : Lost c m s := by
  unfold Lost at h ⊢
  omega

theorem sum_accept (key : Key) : ((s.accept key).accepted.map c.weight).sum =
    (s.accepted.map c.weight).sum + c.weight key := by
  rw [Console.accept, List.map_append, List.sum_append, List.map_singleton, List.sum_singleton]

theorem Lost.step {s' : Console} (h : Lost c n s)
    (haccepted : s'.accepted = (s.accept key).accepted)
    (houtput : s'.output ≤ s.output + c.weight key) : Lost c n s' := by
  unfold Lost at h ⊢
  rw [haccepted, sum_accept]
  omega

theorem accepted_echo : (s.echo c r).accepted = s.accepted := by
  unfold Console.echo
  split <;> rfl

theorem output_echo : (s.echo c r).output = s.output := by
  unfold Console.echo
  split <;> rfl

theorem length_carried_le : s.carried.length ≤ 1 := by
  unfold Console.carried
  split
  · exact Nat.zero_le 1
  · exact le_refl _

theorem output_raise (sig : Signal) : (s.raise sig).output = s.output + 1 := by
  show s.returned.length + s.carried.length + (s.signals ++ [sig]).length = _
  rw [List.length_append, List.length_singleton, Console.output, Nat.add_assoc, Nat.add_assoc,
    Nat.add_assoc]

theorem output_deliver (h : 0 < s.scancode) : s.deliver.output = s.output := by
  have hkept : s.carried = [s.scancode.toNat] := if_neg (by omega)
  have hnone : s.deliver.carried = [] := if_pos (show (-1 : ℤ) < 0 by decide)
  rw [Console.output, Console.output, hkept, hnone]
  show (s.returned ++ [s.scancode.toNat]).length + 0 + s.signals.length = _
  rw [List.length_append, Nat.add_zero]

theorem Lost.signal (key : Key) (sig : Signal) (h : Lost c n s) :
    Lost c n (((s.accept key).echo c r).raise sig) := by
  have hweight : 1 ≤ c.weight key := weight_pos c key
  have hecho : ((s.accept key).echo c r).output = s.output :=
    output_echo (s := s.accept key)
  refine h.step (accepted_echo (s := s.accept key)) ?_
  rw [output_raise, hecho]
  omega

theorem Lost.store (h : Lost c n s) (hsig : c.signal (c.conv (ascii key)) = none) :
    Lost c n (((s.accept key).echo c r).store size (c.conv (ascii key)) key) := by
  have hecho : ((s.accept key).echo c r).output = s.output :=
    output_echo (s := s.accept key)
  have hweight : c.weight key = if c.conv (ascii key) = 0 then 2 else 1 := by
    simp only [Settings.weight, Settings.encode, hsig, Option.isSome_none, Bool.false_eq_true,
      if_false]
    split <;> rfl
  have haccepted : ∀ t : Console, (t.store size (c.conv (ascii key)) key).accepted = t.accepted := by
    intro t
    unfold Console.store
    split_ifs <;> rfl
  refine h.step ((haccepted _).trans (accepted_echo (s := s.accept key))) ?_
  rw [hweight]
  generalize (s.accept key).echo c r = t at hecho
  unfold Console.store
  unfold Console.output at hecho ⊢
  by_cases hzero : c.conv (ascii key) = 0
  · rw [if_neg (not_not.mpr hzero), if_pos hzero]
    by_cases hsize : 1 < size
    · rw [if_pos hsize, List.length_append]
      show t.returned.length + 2 + t.carried.length + t.signals.length ≤ _
      omega
    · have hone := length_carried_le (s := { t with
        scancode := (scan key : ℤ), returned := t.returned ++ [0o34] })
      rw [if_neg hsize, List.length_append]
      show t.returned.length + 1 + _ + t.signals.length ≤ _
      omega
  · rw [if_pos hzero, if_neg hzero, List.length_append]
    show t.returned.length + 1 + t.carried.length + t.signals.length ≤ _
    omega

end Count

section Calls

variable {c : Settings}

theorem again_lost (size : ℕ) : ∀ (keys : List Key) (s : Console) (n : ℕ), Lost c n s →
    keys ≠ [] → Lost c (n + 1) (again c size s keys).1
  | [], _, _, _, hkeys => absurd rfl hkeys
  | first :: keys, s, n, h, _ => by
    have haccept := h.accept first
    unfold again
    by_cases hscan : 0 < (s.accept first).scancode ∧ size = 1
    · -- the byte that was kept is returned, and counts as before
      rw [if_pos hscan]
      unfold Lost at haccept ⊢
      rw [output_deliver hscan.1]
      exact haccept
    · rw [if_neg hscan]
      cases keys with
      | nil => exact haccept
      | cons key keys =>
        cases hsig : c.signal (c.conv (ascii key)) with
        | none =>
          simp only [hsig]
          exact haccept.store hsig
        | some sig =>
          simp only [hsig]
          have hsignal := haccept.signal key sig (r := ascii key)
          by_cases hnil : keys = []
          · subst hnil
            exact hsignal
          · exact (again_lost size keys _ _ hsignal hnil).mono (Nat.le_succ _)

theorem reads_lost (sizes : List ℕ) : ∀ (keys : List Key) (s : Console) (n : ℕ), Lost c n s →
    Lost c n (reads c sizes s keys) := by
  induction sizes with
  | nil => exact fun keys s n h => h
  | cons size sizes ih =>
    intro keys s n h
    have hcall : Lost c n (read c size s keys).1 := by
      by_cases hkeys : keys = []
      · subst hkeys
        exact h
      · exact (again_lost _ keys s n h hkeys).mono (Nat.le_succ n)
    unfold reads
    generalize read c size s keys = result at hcall
    obtain ⟨s', _ | keys'⟩ := result
    · exact hcall
    · exact ih keys' s' n hcall

end Calls

/-- As soon as a call gets a key, keys are lost: the bytes that are returned and the signals
are those of the accepted keys exactly when no call is made or no key arrives. -/
theorem lossless_iff (c : Settings) (sizes : List ℕ) (keys : List Key) :
    ((reads c sizes .start keys).returned <+: keys.flatMap c.encode ∧
        Lossless c (reads c sizes .start keys)) ↔ sizes = [] ∨ keys = [] := by
  constructor
  · rintro ⟨-, h⟩
    by_contra hnot
    obtain ⟨hsizes, hkeys⟩ := not_or.mp hnot
    obtain ⟨size, sizes, rfl⟩ := List.exists_cons_of_ne_nil hsizes
    have hstart : Lost c 0 Console.start := Nat.zero_le _
    have hcall : Lost c 1 (read c size .start keys).1 := again_lost _ keys _ 0 hstart hkeys
    have hlost : Lost c 1 (reads c (size :: sizes) .start keys) := by
      unfold reads
      generalize read c size .start keys = result at hcall
      obtain ⟨s', _ | keys'⟩ := result
      · exact hcall
      · exact reads_lost sizes keys' s' 1 hcall
    exact h.not_lost Nat.one_pos hlost
  · have hstart : Console.start.returned <+: keys.flatMap c.encode ∧ Lossless c Console.start :=
      ⟨List.nil_prefix, rfl, rfl⟩
    rintro (rfl | rfl)
    · exact hstart
    · cases sizes with
      | nil => exact hstart
      | cons size sizes => exact hstart

/-- Raw mode with `^C` and `^\`. -/
def rawMode : Settings := ⟨true, false, false, false, 3, 28⟩

/-- Of the keys `a` and `b` a call returns the second. -/
theorem first_key_lost :
    ¬ ∀ (c : Settings) (sizes : List ℕ) (keys : List Key),
      (reads c sizes .start keys).returned <+: keys.flatMap c.encode ∧
        Lossless c (reads c sizes .start keys) := by
  intro h
  exact absurd (h rawMode [1] [97#32, 98#32]).1 (by decide)

end Mintlib.ConsoleRead
