import Mintlib.Lib.Text
import Mintlib.Lib.Checked

/-!
# Modes of files: `setmode.c`

`setmode` translates the text of a mode into commands, `compress_mode` puts what follows one another
together, in the place where it stands, and `getmode` carries the commands out.
-/

namespace Mintlib.Setmode

open Text Checked

abbrev Mode := BitVec 32

abbrev S_ISUID : Mode := 0o4000
abbrev S_ISGID : Mode := 0o2000
abbrev S_ISTXT : Mode := 0o1000
abbrev S_IRWXU : Mode := 0o700
abbrev S_IRWXG : Mode := 0o070
abbrev S_IRWXO : Mode := 0o007
abbrev S_IFDIR : Mode := 0o040000

/-- The bits of all three for reading, for writing and for executing. -/
abbrev READ : Mode := 0o444
abbrev WRITE : Mode := 0o222
abbrev EXEC : Mode := 0o111

abbrev STANDARD_BITS : Mode := 0o6777

/-- `cmd`: everything else ends the commands. -/
inductive Cmd
  | u
  | g
  | o
  | plus
  | minus
  | X
  | stop
deriving DecidableEq

structure Cmd2 where
  clr : Bool := false
  set : Bool := false
  gbits : Bool := false
  obits : Bool := false
  ubits : Bool := false
deriving DecidableEq

structure BitCmd where
  cmd : Cmd
  cmd2 : Cmd2
  bits : Mode
deriving DecidableEq

/-- What follows `common`: bits that are copied. -/
def common (c : BitCmd) (value newmode : Mode) : Mode :=
  let newmode :=
    if c.cmd2.clr then
      let clrval := if c.cmd2.set then S_IRWXO else value
      let newmode := if c.cmd2.ubits then newmode &&& ~~~((clrval <<< 6) &&& c.bits) else newmode
      let newmode := if c.cmd2.gbits then newmode &&& ~~~((clrval <<< 3) &&& c.bits) else newmode
      if c.cmd2.obits then newmode &&& ~~~(clrval &&& c.bits) else newmode
    else newmode
  if c.cmd2.set then
    let newmode := if c.cmd2.ubits then newmode ||| ((value <<< 6) &&& c.bits) else newmode
    let newmode := if c.cmd2.gbits then newmode ||| ((value <<< 3) &&& c.bits) else newmode
    if c.cmd2.obits then newmode ||| (value &&& c.bits) else newmode
  else newmode

/-- Whether `X` sets its bits. -/
def Executable (omode : Mode) : Prop := omode &&& (S_IFDIR ||| EXEC) ≠ 0

instance (omode : Mode) : Decidable (Executable omode) := inferInstanceAs (Decidable (_ ≠ _))

def apply (omode : Mode) (c : BitCmd) (newmode : Mode) : Mode :=
  match c.cmd with
  | .u => common c ((newmode &&& S_IRWXU) >>> 6) newmode
  | .g => common c ((newmode &&& S_IRWXG) >>> 3) newmode
  | .o => common c (newmode &&& S_IRWXO) newmode
  | .plus => newmode ||| c.bits
  | .minus => newmode &&& ~~~c.bits
  | .X => if Executable omode then newmode ||| c.bits else newmode
  | .stop => newmode

/-- The loop of `getmode`; `none` stands for commands without an end. -/
def getmodeLoop (omode : Mode) : List BitCmd → Mode → Option Mode
  | [], _ => none
  | c :: set, newmode =>
    if c.cmd = .stop then some newmode else getmodeLoop omode set (apply omode c newmode)

def getmode (bbox : List BitCmd) (omode : Mode) : Option Mode := getmodeLoop omode bbox omode

def Ends (cmds : List BitCmd) : Prop := ∃ c ∈ cmds, c.cmd = .stop

def Merges (c : BitCmd) : Prop := c.cmd = .plus ∨ c.cmd = .minus ∨ c.cmd = .X

instance (c : BitCmd) : Decidable (Merges c) := inferInstanceAs (Decidable (_ ∨ _))

/-- The first inner loop copies what is not put together. It gives `set` and `nset`, unless the end
has been copied. -/
def copyOver : ℕ → List BitCmd → ℕ → ℕ → Except Stop (List BitCmd × Option (ℕ × ℕ))
  | 0, _, _, _ => .error .steps
  | steps + 1, a, set, nset => do
    let c ← load a nset
    if Merges c then .ok (a, some (set, nset))
    else
      let a ← store a set c
      if c.cmd = .stop then .ok (a, none) else copyOver steps a (set + 1) (nset + 1)

structure Bits where
  setbits : Mode := 0
  clrbits : Mode := 0
  Xbits : Mode := 0
deriving DecidableEq

def Bits.merge (b : Bits) (c : BitCmd) : Bits :=
  match c.cmd with
  | .minus => ⟨b.setbits &&& ~~~c.bits, b.clrbits ||| c.bits, b.Xbits &&& ~~~c.bits⟩
  | .plus => ⟨b.setbits ||| c.bits, b.clrbits &&& ~~~c.bits, b.Xbits &&& ~~~c.bits⟩
  | _ => ⟨b.setbits, b.clrbits, b.Xbits ||| (c.bits &&& ~~~b.setbits)⟩

def gather : ℕ → List BitCmd → ℕ → Bits → Except Stop (ℕ × Bits)
  | 0, _, _, _ => .error .steps
  | steps + 1, a, nset, b => do
    let c ← load a nset
    if Merges c then gather steps a (nset + 1) (b.merge c) else .ok (nset, b)

def Bits.commands (b : Bits) : List BitCmd :=
  (if b.clrbits ≠ 0 then [⟨.minus, {}, b.clrbits⟩] else []) ++
    ((if b.setbits ≠ 0 then [⟨.plus, {}, b.setbits⟩] else []) ++
      (if b.Xbits ≠ 0 then [⟨.X, {}, b.Xbits⟩] else []))

def storeAll : List BitCmd → List BitCmd → ℕ → Except Stop (List BitCmd × ℕ)
  | [], a, set => .ok (a, set)
  | c :: cs, a, set => do
    let a ← store a set c
    storeAll cs a (set + 1)

def compressLoop : ℕ → List BitCmd → ℕ → ℕ → Except Stop (List BitCmd)
  | 0, _, _, _ => .error .steps
  | steps + 1, a, set, nset => do
    let (a, places) ← copyOver (a.length + 1) a set nset
    match places with
    | none => .ok a
    | some (set, nset) => do
      let (nset, b) ← gather (a.length + 1) a nset {}
      let (a, set) ← storeAll b.commands a set
      compressLoop steps a set nset

def compressMode (a : List BitCmd) : Except Stop (List BitCmd) :=
  compressLoop (a.length + 1) a 0 0

/-- The commands with what follows one another put together, `b` being what has been met so far. -/
def squeeze : Bits → List BitCmd → List BitCmd
  | b, [] => b.commands
  | b, c :: cs =>
    if Merges c then squeeze (b.merge c) cs
    else if c.cmd = .stop then b.commands ++ [c]
    else b.commands ++ c :: squeeze {} cs

def Bits.apply (b : Bits) (omode newmode : Mode) : Mode :=
  (newmode &&& ~~~b.clrbits) ||| b.setbits ||| (if Executable omode then b.Xbits else 0)

section Squeeze

variable {omode : Mode} {b : Bits} {c : BitCmd} {cs : List BitCmd}

theorem and_not_zero (m : Mode) : m &&& ~~~(0 : Mode) = m := by
  have hones : ~~~(0 : Mode) = BitVec.allOnes 32 := by decide
  rw [hones, BitVec.and_allOnes]

theorem or_zero (m : Mode) : m ||| (0 : Mode) = m := BitVec.or_zero

theorem zero_or (m : Mode) : (0 : Mode) ||| m = m := BitVec.zero_or

theorem and_zero (m : Mode) : m &&& (0 : Mode) = 0 := BitVec.and_zero

theorem apply_none (omode newmode : Mode) : ({} : Bits).apply omode newmode = newmode := by
  rw [Bits.apply, and_not_zero, or_zero]
  split <;> exact or_zero newmode

theorem apply_merge (h : Merges c) (newmode : Mode) :
    (b.merge c).apply omode newmode = apply omode c (b.apply omode newmode) := by
  rw [Bits.merge, apply]
  by_cases hx : Executable omode
  · rcases h with h | h | h
    all_goals
      rw [h]
      simp only [Bits.apply, if_pos hx]
      ext i hi
      simp only [BitVec.getElem_or, BitVec.getElem_and, BitVec.getElem_not]
      grind
  · rcases h with h | h | h
    · rw [h]
      simp only [Bits.apply, if_neg hx, or_zero]
      ext i hi
      simp only [BitVec.getElem_or, BitVec.getElem_and, BitVec.getElem_not]
      grind
    · rw [h]
      simp only [Bits.apply, if_neg hx, or_zero]
      ext i hi
      simp only [BitVec.getElem_or, BitVec.getElem_and, BitVec.getElem_not]
      grind
    · rw [h]
      simp only [Bits.apply, if_neg hx]

theorem not_ends_nil : ¬ Ends [] := fun ⟨_, hc, _⟩ => List.not_mem_nil hc

theorem Ends.tail (h : Ends (c :: cs)) (hc : c.cmd ≠ .stop) : Ends cs := by
  obtain ⟨d, hd, hend⟩ := h
  rcases List.mem_cons.mp hd with rfl | hd
  · exact absurd hend hc
  · exact ⟨d, hd, hend⟩

theorem getmodeLoop_cons (h : c.cmd ≠ .stop) (newmode : Mode) :
    getmodeLoop omode (c :: cs) newmode = getmodeLoop omode cs (apply omode c newmode) := if_neg h

theorem getmodeLoop_commands (omode : Mode) (b : Bits) (cs : List BitCmd) (newmode : Mode) :
    getmodeLoop omode (b.commands ++ cs) newmode =
      getmodeLoop omode cs (b.apply omode newmode) := by
  have hone : ∀ (cmd : Cmd) (bits : Mode) (cs : List BitCmd) (newmode : Mode), cmd ≠ .stop →
      apply omode ⟨cmd, {}, 0⟩ newmode = newmode →
      getmodeLoop omode ((if bits ≠ 0 then [⟨cmd, {}, bits⟩] else []) ++ cs) newmode =
        getmodeLoop omode cs (apply omode ⟨cmd, {}, bits⟩ newmode) := by
    intro cmd bits cs newmode hcmd hzero
    by_cases hbits : bits = 0
    · rw [if_neg (not_not.mpr hbits), hbits, hzero, List.nil_append]
    · rw [if_pos hbits, List.singleton_append, getmodeLoop_cons hcmd]
  rw [Bits.commands, List.append_assoc, List.append_assoc,
    hone .minus _ _ _ (by decide) (and_not_zero _), hone .plus _ _ _ (by decide) (or_zero _),
    hone .X _ _ _ (by decide) (by show (if _ then _ else _) = _; rw [or_zero, ite_self])]
  congr 1
  simp only [apply, Bits.apply]
  by_cases hx : Executable omode
  · rw [if_pos hx, if_pos hx]
  · rw [if_neg hx, if_neg hx, or_zero]

theorem getmodeLoop_squeeze (b : Bits) (cs : List BitCmd) (newmode : Mode) :
    getmodeLoop omode (squeeze b cs) newmode = getmodeLoop omode cs (b.apply omode newmode) := by
  induction cs generalizing b newmode with
  | nil =>
    have hend := getmodeLoop_commands omode b [] newmode
    rwa [List.append_nil] at hend
  | cons c cs ih =>
    rw [squeeze]
    by_cases hmerges : Merges c
    · have hcmd : c.cmd ≠ .stop := by
        rcases hmerges with h | h | h
        all_goals rw [h]; decide
      rw [if_pos hmerges, ih, apply_merge hmerges, getmodeLoop_cons hcmd]
    · rw [if_neg hmerges]
      by_cases hstop : c.cmd = .stop
      · rw [if_pos hstop, getmodeLoop_commands, getmodeLoop, if_pos hstop, getmodeLoop,
          if_pos hstop]
      · rw [if_neg hstop, getmodeLoop_commands, getmodeLoop_cons hstop, ih, apply_none,
          getmodeLoop_cons hstop]

theorem getmodeLoop_append {junk : List BitCmd} {newmode r : Mode}
    (h : getmodeLoop omode cs newmode = some r) :
    getmodeLoop omode (cs ++ junk) newmode = some r := by
  induction cs generalizing newmode with
  | nil => exact absurd h (by simp [getmodeLoop])
  | cons c cs ih =>
    rw [getmodeLoop] at h
    rw [List.cons_append, getmodeLoop]
    by_cases hstop : c.cmd = .stop
    · rw [if_pos hstop] at h ⊢
      exact h
    · rw [if_neg hstop] at h ⊢
      exact ih h

theorem getmodeLoop_ends (omode : Mode) (h : Ends cs) (newmode : Mode) :
    ∃ r, getmodeLoop omode cs newmode = some r := by
  induction cs generalizing newmode with
  | nil => exact absurd h not_ends_nil
  | cons c cs ih =>
    rw [getmodeLoop]
    by_cases hstop : c.cmd = .stop
    · exact ⟨newmode, if_pos hstop⟩
    · rw [if_neg hstop]
      exact ih (h.tail hstop) _

end Squeeze

/-- The commands in front of `set` are done, those from `nset` on are still to be read. -/
structure Place (a : List BitCmd) (set nset : ℕ) (done rest : List BitCmd) : Prop where
  front : a.take set = done
  count : done.length = set
  back : a.drop nset = rest
  order : set ≤ nset

section InPlace

variable {a done rest : List BitCmd} {set nset steps : ℕ} {b : Bits} {c : BitCmd}

theorem not_merges_of_stop (h : c.cmd = .stop) : ¬ Merges c := by
  rw [Merges, h]
  decide

theorem Place.load (h : Place a set nset done (c :: rest)) : load a nset = .ok c := by
  have hget : a[nset]? = some c := by
    rw [← List.head?_drop, h.back]
    rfl
  exact load_ok hget

theorem Place.next (h : Place a set nset done (c :: rest)) :
    Place a set (nset + 1) done rest := by
  refine ⟨h.front, h.count, ?_, Nat.le_succ_of_le h.order⟩
  rw [← List.drop_drop, h.back]
  rfl

theorem Place.store (h : Place a set nset done rest) (hroom : set < nset) (hin : set < a.length)
    (c : BitCmd) : store a set c = .ok (a.set set c) ∧
      Place (a.set set c) (set + 1) nset (done ++ [c]) rest := by
  refine ⟨if_pos hin, ?_, ?_, ?_, hroom⟩
  · rw [List.take_succ_eq_append_getElem (by rwa [List.length_set]), List.take_set_of_le (le_refl _),
      List.getElem_set_self, h.front]
  · rw [List.length_append, h.count, List.length_singleton]
  · rw [List.drop_set_of_lt hroom, h.back]

theorem Place.storeAll (h : Place a set nset done rest) (cs : List BitCmd)
    (hroom : set + cs.length ≤ nset) (hin : nset ≤ a.length) :
    ∃ a', storeAll cs a set = .ok (a', set + cs.length) ∧ a'.length = a.length ∧
      Place a' (set + cs.length) nset (done ++ cs) rest := by
  induction cs generalizing a set done with
  | nil =>
    rw [List.append_nil]
    exact ⟨a, rfl, rfl, h⟩
  | cons c cs ih =>
    rw [List.length_cons] at hroom
    obtain ⟨hstore, hplace⟩ := h.store (by omega) (by omega) c
    obtain ⟨a', hall, hlength, hplace'⟩ := ih hplace (by omega) (by rwa [List.length_set])
    have hcount : set + 1 + cs.length = set + (c :: cs).length := by
      rw [List.length_cons]
      omega
    rw [hcount] at hall hplace'
    rw [List.append_assoc, List.singleton_append] at hplace'
    refine ⟨a', ?_, by rw [hlength, List.length_set], hplace'⟩
    rw [Setmode.storeAll, hstore, ok_bind, hall]

theorem Place.le_length (h : Place a set nset done (c :: rest)) : nset < a.length := by
  have hlength := congrArg List.length h.back
  rw [List.length_drop, List.length_cons] at hlength
  omega

theorem copyOver_ok (hsteps : rest.length < steps) (hend : Ends rest)
    (h : Place a set nset done rest) :
    ∃ a' places, copyOver steps a set nset = .ok (a', places) ∧ a'.length = a.length ∧
      (places = none → done ++ squeeze {} rest <+: a') ∧
      ∀ set' nset', places = some (set', nset') → ∃ done' c rest',
        Place a' set' nset' done' (c :: rest') ∧ Merges c ∧ rest'.length < rest.length ∧
        (Ends (c :: rest')) ∧
        done' ++ squeeze {} (c :: rest') = done ++ squeeze {} rest := by
  induction rest generalizing a set nset done steps with
  | nil => exact absurd hend not_ends_nil
  | cons c rest ih =>
    obtain ⟨steps, rfl⟩ := Nat.exists_eq_add_of_le' (Nat.succ_le_of_lt (Nat.zero_lt_of_lt hsteps))
    rw [List.length_cons] at hsteps
    rw [copyOver, h.load, ok_bind]
    by_cases hmerges : Merges c
    · rw [if_pos hmerges]
      refine ⟨a, _, rfl, rfl, fun hnone => absurd hnone (by simp), ?_⟩
      intro set' nset' hplaces
      obtain ⟨rfl, rfl⟩ := Prod.mk.inj (Option.some.inj hplaces)
      exact ⟨done, c, rest, h, hmerges, by rw [List.length_cons]; omega, hend, rfl⟩
    · have hin := h.le_length
      obtain ⟨hstore, hplace⟩ := h.next.store (Nat.lt_succ_of_le h.order)
        (lt_of_le_of_lt h.order hin) c
      rw [if_neg hmerges, hstore, ok_bind]
      by_cases hstop : c.cmd = .stop
      · rw [if_pos hstop]
        refine ⟨_, _, rfl, List.length_set, fun _ => ?_, fun _ _ hplaces => absurd hplaces (by simp)⟩
        rw [squeeze, if_neg hmerges, if_pos hstop]
        show done ++ [c] <+: _
        rw [← hplace.front]
        exact List.take_prefix _ _
      · rw [if_neg hstop]
        have hfewer : rest.length < steps := by omega
        obtain ⟨a', places, hcopy, hlength, hnone, hsome⟩ := ih hfewer (hend.tail hstop) hplace
        have hsqueeze : done ++ [c] ++ squeeze {} rest = done ++ squeeze {} (c :: rest) := by
          rw [squeeze, if_neg hmerges, if_neg hstop, List.append_assoc, List.singleton_append]
          rfl
        rw [hsqueeze] at hnone hsome
        refine ⟨a', places, hcopy, by rw [hlength, List.length_set], hnone, ?_⟩
        intro set' nset' hplaces
        obtain ⟨done', d, rest', hplace', hd, hshort, hend', hsame⟩ := hsome set' nset' hplaces
        exact ⟨done', d, rest', hplace', hd, by rw [List.length_cons]; omega, hend', hsame⟩

def one (bits : Mode) : ℕ := if bits ≠ 0 then 1 else 0

theorem one_le (bits : Mode) : one bits ≤ 1 := by
  rw [one]
  split <;> omega

theorem one_and_le (x y : Mode) : one (x &&& y) ≤ one x := by
  by_cases hx : x = 0
  · rw [hx]
    have hzero : (0 : Mode) &&& y = 0 := BitVec.zero_and
    rw [hzero]
  · have hone : one x = 1 := if_pos hx
    rw [hone]
    exact one_le _

theorem length_commands (b : Bits) :
    b.commands.length = one b.clrbits + (one b.setbits + one b.Xbits) := by
  have hlist : ∀ (cmd : Cmd) (bits : Mode),
      (if bits ≠ 0 then [(⟨cmd, {}, bits⟩ : BitCmd)] else []).length = one bits := by
    intro cmd bits
    rw [one]
    split <;> rfl
  rw [Bits.commands, List.length_append, List.length_append, hlist, hlist, hlist]

theorem length_merge (h : Merges c) :
    (b.merge c).commands.length ≤ b.commands.length + 1 := by
  rw [length_commands, length_commands, Bits.merge]
  have hset := one_and_le b.setbits (~~~c.bits)
  have hclr := one_and_le b.clrbits (~~~c.bits)
  have hX := one_and_le b.Xbits (~~~c.bits)
  rcases h with h | h | h
  · rw [h]
    have hone := one_le (b.setbits ||| c.bits)
    dsimp only
    omega
  · rw [h]
    have hone := one_le (b.clrbits ||| c.bits)
    dsimp only
    omega
  · rw [h]
    have hone := one_le (b.Xbits ||| (c.bits &&& ~~~b.setbits))
    dsimp only
    omega

theorem gather_ok (hsteps : rest.length < steps) (hend : Ends rest)
    (h : Place a set nset done rest) (hroom : set + b.commands.length ≤ nset) :
    ∃ nset' b' c rest', gather steps a nset b = .ok (nset', b') ∧
      Place a set nset' done (c :: rest') ∧ ¬ Merges c ∧ (c :: rest').length ≤ rest.length ∧
      (Ends (c :: rest')) ∧ set + b'.commands.length ≤ nset' ∧
      squeeze b rest = b'.commands ++ squeeze {} (c :: rest') := by
  induction rest generalizing nset b steps with
  | nil => exact absurd hend not_ends_nil
  | cons c rest ih =>
    obtain ⟨steps, rfl⟩ := Nat.exists_eq_add_of_le' (Nat.succ_le_of_lt (Nat.zero_lt_of_lt hsteps))
    rw [List.length_cons] at hsteps
    rw [gather, h.load, ok_bind]
    by_cases hmerges : Merges c
    · rw [if_pos hmerges]
      have hgo : c.cmd ≠ .stop := fun hstop => not_merges_of_stop hstop hmerges
      have hcount := length_merge (b := b) hmerges
      have hfewer : rest.length < steps := by omega
      have hmore : set + (b.merge c).commands.length ≤ nset + 1 := by omega
      obtain ⟨nset', b', d, rest', hgather, hplace, hd, hshort, hend', hroom', hsame⟩ :=
        ih hfewer (hend.tail hgo) h.next hmore
      refine ⟨nset', b', d, rest', hgather, hplace, hd, ?_, hend', hroom', ?_⟩
      · have hlength : (c :: rest).length = rest.length + 1 := List.length_cons
        omega
      · rw [squeeze, if_pos hmerges]
        exact hsame
    · rw [if_neg hmerges]
      refine ⟨nset, b, c, rest, rfl, h, hmerges, le_refl _, hend, hroom, ?_⟩
      rw [squeeze, squeeze, if_neg hmerges, if_neg hmerges]
      by_cases hstop : c.cmd = .stop
      · rw [if_pos hstop, if_pos hstop]
        rfl
      · rw [if_neg hstop, if_neg hstop]
        rfl

theorem compressLoop_ok (hsteps : rest.length < steps) (hend : Ends rest)
    (h : Place a set nset done rest) :
    ∃ a', compressLoop steps a set nset = .ok a' ∧ a'.length = a.length ∧
      done ++ squeeze {} rest <+: a' := by
  induction steps generalizing a set nset done rest with
  | zero => exact absurd hsteps (Nat.not_lt_zero _)
  | succ steps ih =>
    have hlong : rest.length < a.length + 1 := by
      rw [← h.back, List.length_drop]
      omega
    obtain ⟨a₁, places, hcopy, hlength₁, hnone, hsome⟩ := copyOver_ok hlong hend h
    rw [compressLoop, hcopy, ok_bind]
    cases places with
    | none => exact ⟨a₁, rfl, hlength₁, hnone rfl⟩
    | some places =>
      obtain ⟨set₁, nset₁⟩ := places
      obtain ⟨done₁, c, rest₁, hplace₁, hmerges, hshort, hend₁, hsame₁⟩ := hsome _ _ rfl
      have hlong₁ : (c :: rest₁).length < a₁.length + 1 := by
        rw [← hplace₁.back, List.length_drop]
        omega
      obtain ⟨nset₂, b, d, rest₂, hgather, hplace₂, hd, hshort₂, hend₂, hroom, hsame₂⟩ :=
        gather_ok (b := {}) hlong₁ hend₁ hplace₁ hplace₁.order
      obtain ⟨a₃, hall, hlength₃, hplace₃⟩ :=
        hplace₂.storeAll b.commands hroom hplace₂.le_length.le
      dsimp only
      rw [hgather, ok_bind]
      dsimp only
      rw [hall, ok_bind]
      -- at least the first command has been put together
      have hfewer : (d :: rest₂).length < (c :: rest₁).length := by
        rcases Nat.lt_or_eq_of_le hshort₂ with hlt | heq
        · exact hlt
        · exfalso
          have hdrop₁ := hplace₁.back
          have hdrop₂ := hplace₂.back
          have hlen₁ := congrArg List.length hdrop₁
          have hlen₂ := congrArg List.length hdrop₂
          have hin₁ := hplace₁.le_length
          have hin₂ := hplace₂.le_length
          rw [List.length_drop] at hlen₁ hlen₂
          have hplaces : nset₁ = nset₂ := by omega
          rw [← hplaces, hdrop₁] at hdrop₂
          exact hd ((List.cons.inj hdrop₂).1 ▸ hmerges)
      have hlength₂ : (c :: rest₁).length = rest₁.length + 1 := List.length_cons
      have hless : (d :: rest₂).length < steps := by omega
      obtain ⟨a', hloop, hlength', hprefix⟩ := ih hless hend₂ hplace₃
      refine ⟨a', hloop, by rw [hlength', hlength₃, hlength₁], ?_⟩
      rw [List.append_assoc, ← hsame₂, hsame₁] at hprefix
      exact hprefix

end InPlace

theorem compress_mode_squeeze (a : List BitCmd) (h : Ends a) :
    ∃ a', compressMode a = .ok a' ∧ a'.length = a.length ∧ squeeze {} a <+: a' := by
  have hplace : Place a 0 0 [] a := ⟨rfl, rfl, rfl, Nat.le_refl 0⟩
  obtain ⟨a', hloop, hlength, hprefix⟩ := compressLoop_ok (Nat.lt_succ_self _) h hplace
  rw [List.nil_append] at hprefix
  exact ⟨a', hloop, hlength, hprefix⟩

theorem compress_mode_keeps (a : List BitCmd) (h : Ends a) :
    ∃ a', compressMode a = .ok a' ∧ ∀ omode, getmode a' omode = getmode a omode := by
  obtain ⟨a', hloop, -, junk, hjunk⟩ := compress_mode_squeeze a h
  refine ⟨a', hloop, fun omode => ?_⟩
  obtain ⟨r, hr⟩ := getmodeLoop_ends omode h omode
  have hsqueezed : getmodeLoop omode (squeeze {} a) omode = some r := by
    rw [getmodeLoop_squeeze, apply_none, hr]
  rw [getmode, getmode, hr, ← hjunk]
  exact getmodeLoop_append hsqueezed

def Cmd.rank : Cmd → ℕ
  | .minus => 0
  | .plus => 1
  | _ => 2

/-- Of commands that are put together there is one of a kind, in their order. -/
def Apart (c d : BitCmd) : Prop := Merges c → Merges d → c.cmd.rank < d.cmd.rank

section Apart

variable {b : Bits} {c : BitCmd} {cs : List BitCmd}

theorem commands_apart (b : Bits) : b.commands.IsChain Apart := by
  have hfirst : ∀ v w : Mode, Apart ⟨.minus, {}, v⟩ ⟨.plus, {}, w⟩ :=
    fun _ _ _ _ => by simp [Cmd.rank]
  have hsecond : ∀ v w : Mode, Apart ⟨.minus, {}, v⟩ ⟨.X, {}, w⟩ :=
    fun _ _ _ _ => by simp [Cmd.rank]
  have hthird : ∀ v w : Mode, Apart ⟨.plus, {}, v⟩ ⟨.X, {}, w⟩ :=
    fun _ _ _ _ => by simp [Cmd.rank]
  rw [Bits.commands]
  split_ifs
  all_goals simp [hfirst, hsecond, hthird]

theorem Apart.cons (hc : ¬ Merges c) (h : cs.IsChain Apart) : (c :: cs).IsChain Apart :=
  List.isChain_cons.mpr ⟨fun _ _ hmerges => absurd hmerges hc, h⟩

theorem Apart.commands (hc : ¬ Merges c) (h : cs.IsChain Apart) :
    (b.commands ++ c :: cs).IsChain Apart := by
  refine (commands_apart b).append (Apart.cons hc h) fun x _ y hy _ hmerges => ?_
  have hyc : c = y := Option.some.inj hy
  rw [← hyc] at hmerges
  exact absurd hmerges hc

theorem squeeze_tidy (b : Bits) (h : Ends cs) :
    ∃ front last, squeeze b cs = front ++ [last] ∧ last.cmd = .stop ∧
      (∀ c ∈ front, c.cmd ≠ .stop) ∧ (squeeze b cs).IsChain Apart := by
  have hopen : ∀ (b : Bits), ∀ c ∈ b.commands, c.cmd ≠ .stop := by
    intro b c hc
    rw [Bits.commands] at hc
    rcases List.mem_append.mp hc with hc | hc
    · split at hc <;> simp_all
    · rcases List.mem_append.mp hc with hc | hc
      all_goals split at hc <;> simp_all
  induction cs generalizing b with
  | nil => exact absurd h not_ends_nil
  | cons c cs ih =>
    rw [squeeze]
    by_cases hmerges : Merges c
    · have hgo : c.cmd ≠ .stop := fun hstop => not_merges_of_stop hstop hmerges
      rw [if_pos hmerges]
      exact ih (b.merge c) (h.tail hgo)
    · rw [if_neg hmerges]
      by_cases hstop : c.cmd = .stop
      · rw [if_pos hstop]
        exact ⟨b.commands, c, rfl, hstop, hopen b, Apart.commands hmerges List.IsChain.nil⟩
      · rw [if_neg hstop]
        obtain ⟨front, last, hsame, hlast, hfront, hchain⟩ := ih {} (h.tail hstop)
        refine ⟨b.commands ++ c :: front, last, ?_, hlast, fun d hd => ?_,
          Apart.commands hmerges hchain⟩
        · rw [hsame, List.append_assoc, List.cons_append]
        · rcases List.mem_append.mp hd with hd | hd
          · exact hopen b d hd
          · rcases List.mem_cons.mp hd with rfl | hd
            · exact hstop
            · exact hfront d hd

end Apart

/-- `compress_mode` stays inside the commands that it is given. What it leaves does the same to every
mode, and of the commands that follow one another up to its end none could be put together still. -/
theorem compress_mode_tidy (a : List BitCmd) (h : Ends a) :
    ∃ front last junk, compressMode a = .ok (front ++ [last] ++ junk) ∧
      (front ++ [last] ++ junk).length = a.length ∧ last.cmd = .stop ∧
      (∀ c ∈ front, c.cmd ≠ .stop) ∧ (front ++ [last]).IsChain Apart ∧
      ∀ omode, getmode (front ++ [last]) omode = getmode a omode := by
  obtain ⟨a', hloop, hlength, junk, hjunk⟩ := compress_mode_squeeze a h
  obtain ⟨front, last, hsame, hlast, hfront, hchain⟩ := squeeze_tidy {} h
  rw [← hjunk] at hloop hlength
  rw [hsame] at hloop hlength hchain
  refine ⟨front, last, junk, hloop, hlength, hlast, hfront, hchain, fun omode => ?_⟩
  rw [← hsame, getmode, getmodeLoop_squeeze, apply_none, getmode]

theorem compress_mode_tidy_demo : ∃ front last junk,
    compressMode [⟨.plus, {}, 0o555⟩, ⟨.minus, {}, 0o222⟩, ⟨.X, {}, 0o111⟩, ⟨.stop, {}, 0⟩] =
      .ok (front ++ [last] ++ junk) ∧
    (front ++ [last] ++ junk).length = 4 ∧ last.cmd = .stop ∧
    (∀ c ∈ front, c.cmd ≠ .stop) ∧ (front ++ [last]).IsChain Apart ∧
    ∀ omode, getmode (front ++ [last]) omode =
      getmode [⟨.plus, {}, 0o555⟩, ⟨.minus, {}, 0o222⟩, ⟨.X, {}, 0o111⟩, ⟨.stop, {}, 0⟩] omode :=
  compress_mode_tidy _ ⟨⟨.stop, {}, 0⟩, by simp, rfl⟩

end Mintlib.Setmode
