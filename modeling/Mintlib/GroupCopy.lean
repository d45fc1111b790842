import Mintlib.GroupReader
import Mintlib.Lib.ByteMemory
import Mintlib.Posix

/-!
# Copies of group entries: `getgrnam_r.c` and `getgrgid_r.c`

An entry of the static reader is copied into a buffer of the caller: the vector of the member
pointers in front, then the strings. Pointers are addresses, and 0 is `NULL`.
-/

namespace Mintlib.GroupCopy

open Text ByteMemory Grp Posix
open GroupReader (length_fgets_le members_keeps)

def search (wanted : Group → Bool) : ℕ → List UInt8 → List UInt8 → Option (Option Group)
  | 0, _, _ => none
  | calls + 1, savbuf, fp => do
    let (gr, savbuf, fp) ← nextent savbuf fp
    match gr with
    | none => some none
    | some gr => if wanted gr then some (some gr) else search wanted calls savbuf fp

/-- `file` is `none` if the group file cannot be opened. -/
def lookup (wanted : Group → Bool) (savbuf : List UInt8) (file : Option (List UInt8)) :
    Option (Option Group) :=
  match file with
  | none => some none
  | some fp => search wanted (fp.length + 1) savbuf fp

def getgrgid (gid : ℕ) : List UInt8 → Option (List UInt8) → Option (Option Group) :=
  lookup fun gr => gr.gr_gid = gid

def getgrnam (name : Str) : List UInt8 → Option (List UInt8) → Option (Option Group) :=
  lookup fun gr => gr.gr_name = some name

structure GroupPointers where
  gr_name : ℕ
  gr_gid : ℕ
  gr_mem : ℕ
  gr_passwd : ℕ
deriving DecidableEq

/-- What the caller sees of a call: the memory, `*grp`, `*result` and `errno`. -/
structure Caller where
  mem : Mem
  grp : GroupPointers
  result : ℕ
  errno : ℕ

structure Buffer where
  buf : ℕ
  buflen : ℕ
  inside : buf ≠ 0 → buf + buflen ≤ 2 ^ 32

def memberSizes (gr_size : ℕ) (mem : List Str) : ℕ :=
  mem.foldl (fun gr_size m => (gr_size + (m.length + 1)) % 2 ^ 32) gr_size

/-- `gr_size`, an unsigned 32-bit number. -/
def neededSize (name passwd : Str) (mem : List Str) : ℕ :=
  let gr_size := (name.length + 1) % 2 ^ 32
  let gr_size := (gr_size + (passwd.length + 1)) % 2 ^ 32
  (memberSizes gr_size mem + (mem.length + 1) * 4) % 2 ^ 32

/-- The loop that copies the members to `dst` and behind it. -/
def copyMembers (gr_mem : ℕ) : Mem → ℕ → ℕ → List Str → Mem
  | m, mem_array_pos, _, [] => store32 m (gr_mem + mem_array_pos * 4) 0
  | m, mem_array_pos, dst, s :: mem =>
    let m := write m dst (s ++ [0])
    let m := store32 m (gr_mem + mem_array_pos * 4) dst
    copyMembers gr_mem m (mem_array_pos + 1) (dst + (s.length + 1)) mem

/-- What both functions do with the entry that they look for; `grp` is an address. -/
def copyGroup (look : Option (Option Group)) (grp : ℕ) (b : Buffer) (c : Caller) :
    Option (ℤ × Caller) :=
  if grp = 0 ∨ b.buf = 0 then some (-1, { c with errno := EINVAL, result := 0 })
  else do
    match ← look with
    | none => some (-1, { c with result := 0 })
    | some g => do
      let name ← g.gr_name
      let passwd ← g.gr_passwd
      let mem ← g.gr_mem
      if neededSize name passwd mem > b.buflen then
        some (-1, { c with errno := ERANGE, result := 0 })
      else
        let gr_mem := b.buf
        let gr_name := b.buf + (mem.length + 1) * 4
        let gr_passwd := gr_name + (name.length + 1)
        let m := write c.mem gr_name (name ++ [0])
        let m := write m gr_passwd (passwd ++ [0])
        let m := copyMembers gr_mem m 0 (gr_passwd + (passwd.length + 1)) mem
        some (0, { c with
          mem := m
          grp := ⟨gr_name, g.gr_gid, gr_mem, gr_passwd⟩
          result := grp })

section Functions

variable (savbuf : List UInt8) (file : Option (List UInt8))

def getgrnamR (name : Str) : ℕ → Buffer → Caller → Option (ℤ × Caller) :=
  copyGroup (getgrnam name savbuf file)

def getgrgidR (gid : ℕ) : ℕ → Buffer → Caller → Option (ℤ × Caller) :=
  copyGroup (getgrgid gid savbuf file)

end Functions

/-- What `curentry` holds: strings without a NUL, in a buffer of 512 bytes. -/
structure Entry where
  gr_name : Str
  gr_gid : ℕ
  gr_mem : List Str
  gr_passwd : Str
  terminated : ∀ s ∈ gr_name :: gr_passwd :: gr_mem, 0 ∉ s
  short : ∀ s ∈ gr_name :: gr_passwd :: gr_mem, s.length ≤ SAVBUF
  few : gr_mem.length < MAX_MEMBERS

def Entry.group (e : Entry) : Group := ⟨some e.gr_name, e.gr_gid, some e.gr_mem, some e.gr_passwd⟩

def Entry.strings (e : Entry) : List Str := e.gr_name :: e.gr_passwd :: e.gr_mem

def total (strs : List Str) : ℕ := (strs.map fun s => s.length + 1).sum

def Entry.space (e : Entry) : ℕ := (e.gr_mem.length + 1) * 4 + total e.strings

section Reader

variable {savbuf savbuf' fp fp' l : List UInt8} {file : Option (List UInt8)} {gr g : Group}
  {wanted : Group → Bool} {n cp : ℕ} {memb : List ℕ}

theorem nextent_entry (hlen : savbuf.length = SAVBUF)
    (h : nextent savbuf fp = some (some gr, savbuf', fp')) :
    savbuf'.length = SAVBUF ∧ ∃ e : Entry, gr = e.group := by
  unfold nextent at h
  have hline := length_fgets_le (SAVBUF - 1) fp
  simp only at h
  by_cases hnil : (fgets (SAVBUF - 1) fp).1 = []
  · rw [if_pos hnil] at h
    cases h
  · rw [if_neg hnil] at h
    simp only [Option.bind_eq_bind, Option.bind_eq_some_iff] at h
    obtain ⟨c₁, -, c₂, -, c₃, -, ⟨buf, memb⟩, hmembers, hpair⟩ := h
    simp only at hpair
    obtain ⟨hbuf, -, hfew⟩ := members_keeps (j := 0) hmembers
    simp only [List.length_set, List.length_append, List.length_cons, List.length_drop, hlen] at hbuf
    have hsize : buf.length = SAVBUF := by
      have : SAVBUF = 512 := rfl
      omega
    have hstr : ∀ p, (cstr (buf.drop p)).length ≤ SAVBUF := by
      intro p
      have := length_cstr_le (buf.drop p)
      rw [List.length_drop] at this
      omega
    cases hpair
    refine ⟨hsize, ⟨_, _, _, _, ?_, ?_, ?_⟩, rfl⟩
    · intro s hs
      simp only [List.mem_cons, List.mem_map] at hs
      rcases hs with rfl | rfl | ⟨p, -, rfl⟩
      all_goals exact cstr_clean _
    · intro s hs
      simp only [List.mem_cons, List.mem_map] at hs
      rcases hs with rfl | rfl | ⟨p, -, rfl⟩
      all_goals exact hstr _
    · rw [List.length_map]
      have : MAX_MEMBERS = 128 := rfl
      omega

theorem search_entry {calls : ℕ} (hlen : savbuf.length = SAVBUF)
    (h : search wanted calls savbuf fp = some (some g)) :
    wanted g = true ∧ ∃ e : Entry, g = e.group := by
  induction calls generalizing savbuf fp with
  | zero => cases h
  | succ calls ih =>
    simp only [search, Option.bind_eq_bind, Option.bind_eq_some_iff] at h
    obtain ⟨⟨entry, buf, rest⟩, hnext, hrun⟩ := h
    cases entry with
    | none => cases hrun
    | some gr =>
      obtain ⟨hbuf, hentry⟩ := nextent_entry hlen hnext
      simp only at hrun
      by_cases hwanted : wanted gr = true
      · rw [if_pos hwanted] at hrun
        cases hrun
        exact ⟨hwanted, hentry⟩
      · rw [if_neg hwanted] at hrun
        exact ih hbuf hrun

theorem lookup_entry (hlen : savbuf.length = SAVBUF)
    (h : lookup wanted savbuf file = some (some g)) :
    wanted g = true ∧ ∃ e : Entry, g = e.group := by
  cases file with
  | none => cases h
  | some fp => exact search_entry hlen h

end Reader

/-- The words from `a` on. -/
def WordsAt (m : Mem) (a : ℕ) (ws : List ℕ) : Prop :=
  ∀ i, (h : i < ws.length) → load32 m (a + i * 4) = ws[i]

/-- A terminated string at `a`. -/
def StringAt (m : Mem) (a : ℕ) (s : Str) : Prop := Holds m a (s ++ [0])

/-- The addresses of strings that follow each other from `a` on. -/
def places : ℕ → List Str → List ℕ
  | _, [] => []
  | a, s :: strs => a :: places (a + (s.length + 1)) strs

def blocks (ps : List ℕ) (strs : List Str) : List Extent :=
  List.zipWith (fun p s => ⟨p, s.length + 1⟩) ps strs

section Layout

variable {m m' : Mem} {a : ℕ} {s : Str} {strs : List Str}

theorem total_cons (s : Str) (strs : List Str) : total (s :: strs) = s.length + 1 + total strs := by
  rw [total, List.map_cons, List.sum_cons, total]

theorem length_places (a : ℕ) (strs : List Str) : (places a strs).length = strs.length := by
  induction strs generalizing a with
  | nil => rfl
  | cons s strs ih => rw [places, List.length_cons, ih, List.length_cons]

theorem places_ge (a : ℕ) (strs : List Str) : ∀ p ∈ places a strs, a ≤ p := by
  induction strs generalizing a with
  | nil =>
    intro p hp
    exact absurd hp List.not_mem_nil
  | cons s strs ih =>
    intro p hp
    rcases List.mem_cons.mp hp with rfl | hp
    · exact le_refl _
    · exact (Nat.le_add_right a _).trans (ih _ p hp)

theorem blocks_apart (a : ℕ) (strs : List Str) :
    (blocks (places a strs) strs).Pairwise Extent.Apart ∧
      ∀ e ∈ blocks (places a strs) strs, e.Within ⟨a, total strs⟩ := by
  induction strs generalizing a with
  | nil => exact ⟨List.Pairwise.nil, fun e he => absurd he List.not_mem_nil⟩
  | cons s strs ih =>
    obtain ⟨hpair, hwithin⟩ := ih (a + (s.length + 1))
    have hcons : blocks (places a (s :: strs)) (s :: strs) =
        ⟨a, s.length + 1⟩ :: blocks (places (a + (s.length + 1)) strs) strs := rfl
    rw [hcons, total_cons]
    refine ⟨List.pairwise_cons.mpr ⟨fun e he => ?_, hpair⟩, fun e he => ?_⟩
    · have h := hwithin e he
      simp only [Extent.Within, Extent.Apart, Extent.fin] at h ⊢
      exact Or.inl h.1
    · rcases List.mem_cons.mp he with rfl | he
      · simp only [Extent.Within, Extent.fin]
        omega
      · have h := hwithin e he
        simp only [Extent.Within, Extent.fin] at h ⊢
        omega

theorem StringAt.write (m : Mem) (a : ℕ) (s : Str) : StringAt (write m a (s ++ [0])) a s :=
  holds_write m a (s ++ [0])

theorem StringAt.kept {es : List Extent} (h : StringAt m a s) (hchanges : ChangesIn m m' es)
    (hapart : ∀ e ∈ es, Extent.Apart ⟨a, s.length + 1⟩ e) : StringAt m' a s := by
  refine Holds.congr h (hchanges.agreeOn fun e he => ?_)
  rw [List.length_append, List.length_singleton]
  exact hapart e he

theorem copyMembers_spec (gr_mem : ℕ) (m : Mem) (pos dst : ℕ) (strs : List Str)
    (hvector : gr_mem + (pos + strs.length + 1) * 4 ≤ dst) (hfit : dst + total strs ≤ 2 ^ 32) :
    WordsAt (copyMembers gr_mem m pos dst strs) (gr_mem + pos * 4) (places dst strs ++ [0]) ∧
      List.Forall₂ (StringAt (copyMembers gr_mem m pos dst strs)) (places dst strs) strs ∧
      ChangesIn m (copyMembers gr_mem m pos dst strs)
        [⟨gr_mem + pos * 4, (strs.length + 1) * 4⟩, ⟨dst, total strs⟩] := by
  induction strs generalizing m pos dst with
  | nil =>
    refine ⟨?_, List.Forall₂.nil, ?_⟩
    · intro i hi
      have hzero : i = 0 := by
        simp only [places, List.nil_append, List.length_singleton] at hi
        omega
      subst hzero
      show load32 (store32 m (gr_mem + pos * 4) 0) (gr_mem + pos * 4 + 0 * 4) = 0
      rw [Nat.zero_mul, Nat.add_zero, load32_store32_self, Nat.zero_mod]
    · exact (ChangesIn.store32 m (gr_mem + pos * 4) 0).subset fun e he => by
        rw [List.mem_singleton.mp he]
        exact List.mem_cons_self
  | cons s strs ih =>
    rw [total_cons] at hfit
    rw [List.length_cons] at hvector
    obtain ⟨hwords, hstrings, hchanges⟩ :=
      ih (store32 (ByteMemory.write m dst (s ++ [0])) (gr_mem + pos * 4) dst) (pos + 1)
        (dst + (s.length + 1)) (by omega) (by omega)
    have hone : ChangesIn m (store32 (ByteMemory.write m dst (s ++ [0])) (gr_mem + pos * 4) dst)
        [⟨dst, s.length + 1⟩, ⟨gr_mem + pos * 4, 4⟩] := by
      have hwrite := ChangesIn.write m dst (s ++ [0])
      rw [List.length_append, List.length_singleton] at hwrite
      refine (hwrite.subset fun e he => ?_).step (List.mem_cons_of_mem _ List.mem_cons_self)
        (Extent.Within.refl _)
      rw [List.mem_singleton.mp he]
      exact List.mem_cons_self
    -- the pointers, the first string, and what has been written to
    refine ⟨?_, List.Forall₂.cons ?_ hstrings, ?_⟩
    · intro i hi
      cases i with
      | zero =>
        have hword : load32 (store32 (ByteMemory.write m dst (s ++ [0])) (gr_mem + pos * 4) dst)
            (gr_mem + pos * 4) = dst := by
          rw [load32_store32_self, Nat.mod_eq_of_lt (by omega)]
        rw [Nat.zero_mul, Nat.add_zero]
        refine (load32_congr (hchanges.agreeOn fun e he => ?_)).trans hword
        simp only [List.mem_cons, List.not_mem_nil, or_false] at he
        rcases he with rfl | rfl
        · simp only [Extent.Apart, Extent.fin]
          omega
        · simp only [Extent.Apart, Extent.fin]
          omega
      | succ i =>
        have hlt : i < (places (dst + (s.length + 1)) strs ++ [0]).length := by
          simpa only [places, List.cons_append, List.length_cons, Nat.add_lt_add_iff_right] using hi
        have h := hwords i hlt
        have haddress : gr_mem + pos * 4 + (i + 1) * 4 = gr_mem + (pos + 1) * 4 + i * 4 := by ring
        rw [haddress]
        exact h
    · have hwritten : StringAt
          (store32 (ByteMemory.write m dst (s ++ [0])) (gr_mem + pos * 4) dst) dst s := by
        refine (StringAt.write m dst s).kept (ChangesIn.store32 _ _ _) fun e he => ?_
        rw [List.mem_singleton.mp he]
        simp only [Extent.Apart, Extent.fin]
        omega
      refine hwritten.kept hchanges fun e he => ?_
      simp only [List.mem_cons, List.not_mem_nil, or_false] at he
      rcases he with rfl | rfl
      · simp only [Extent.Apart, Extent.fin]
        omega
      · simp only [Extent.Apart, Extent.fin]
        omega
    · refine ChangesIn.trans (hone.mono fun e he => ?_) (hchanges.mono fun e he => ?_)
      all_goals
        simp only [List.mem_cons, List.not_mem_nil, or_false] at he
        rw [List.length_cons, total_cons]
        rcases he with rfl | rfl
      · refine ⟨_, List.mem_cons_of_mem _ List.mem_cons_self, ?_⟩
        simp only [Extent.Within, Extent.fin]
        omega
      · refine ⟨_, List.mem_cons_self, ?_⟩
        simp only [Extent.Within, Extent.fin]
        omega
      · refine ⟨_, List.mem_cons_self, ?_⟩
        simp only [Extent.Within, Extent.fin]
        omega
      · refine ⟨_, List.mem_cons_of_mem _ List.mem_cons_self, ?_⟩
        simp only [Extent.Within, Extent.fin]
        omega

end Layout

/-- The copy of `e` at the pointers `p`, inside of the buffer. -/
structure Copied (e : Entry) (b : Buffer) (m : Mem) (p : GroupPointers) : Prop where
  gid : p.gr_gid = e.gr_gid
  pointers : ∃ ps, 0 ∉ ps ∧ WordsAt m p.gr_mem (ps ++ [0]) ∧
    List.Forall₂ (StringAt m) (p.gr_name :: p.gr_passwd :: ps) e.strings ∧
    (⟨p.gr_mem, (ps.length + 1) * 4⟩ ::
      blocks (p.gr_name :: p.gr_passwd :: ps) e.strings).Pairwise Extent.Apart ∧
    ∀ r ∈ (⟨p.gr_mem, (ps.length + 1) * 4⟩ : Extent) ::
      blocks (p.gr_name :: p.gr_passwd :: ps) e.strings, r.Within ⟨b.buf, b.buflen⟩

/-- What a call answers for an entry that is found. -/
structure Answer (e : Entry) (grp : ℕ) (b : Buffer) (c : Caller) (r : Option (ℤ × Caller)) :
    Prop where
  short : b.buflen < e.space → r = some (-1, { c with errno := ERANGE, result := 0 })
  room : e.space ≤ b.buflen → ∃ c', r = some (0, c') ∧ Copied e b c'.mem c'.grp ∧
    ChangesIn c.mem c'.mem [⟨b.buf, b.buflen⟩] ∧ c'.result = grp ∧ c'.errno = c.errno

section Copy

variable {e : Entry} {grp : ℕ} {b : Buffer} {c : Caller}

theorem memberSizes_eq (n : ℕ) (mem : List Str) (hfit : n + total mem < 2 ^ 32) :
    memberSizes n mem = n + total mem := by
  induction mem generalizing n with
  | nil => rfl
  | cons m mem ih =>
    rw [total_cons] at hfit ⊢
    have hmod : (n + (m.length + 1)) % 2 ^ 32 = n + (m.length + 1) :=
      Nat.mod_eq_of_lt (by omega)
    show memberSizes ((n + (m.length + 1)) % 2 ^ 32) mem = _
    rw [hmod, ih _ (by omega)]
    omega

theorem Entry.space_lt (e : Entry) : e.space < 2 ^ 31 := by
  have hsum : total e.strings ≤ e.strings.length * (SAVBUF + 1) := by
    have h := List.sum_le_card_nsmul (e.strings.map fun s => s.length + 1) (SAVBUF + 1)
      fun n hn => by
        obtain ⟨s, hs, rfl⟩ := List.mem_map.mp hn
        exact Nat.succ_le_succ (e.short s hs)
    rwa [List.length_map, smul_eq_mul] at h
  have hlen : e.strings.length = e.gr_mem.length + 2 := rfl
  have hfew := e.few
  rw [space]
  rw [hlen] at hsum
  simp only [SAVBUF, MAX_MEMBERS] at hsum hfew
  omega

theorem neededSize_eq (e : Entry) : neededSize e.gr_name e.gr_passwd e.gr_mem = e.space := by
  have hlt := e.space_lt
  rw [Entry.space, Entry.strings, total_cons, total_cons] at hlt ⊢
  simp only [neededSize]
  rw [Nat.mod_eq_of_lt (show e.gr_name.length + 1 < 2 ^ 32 by omega),
    Nat.mod_eq_of_lt (show e.gr_name.length + 1 + (e.gr_passwd.length + 1) < 2 ^ 32 by omega),
    memberSizes_eq _ _ (by omega), Nat.mod_eq_of_lt (by omega)]
  omega

theorem copyGroup_answer (hgrp : grp ≠ 0) (hbuf : b.buf ≠ 0) :
    Answer e grp b c (copyGroup (some (some e.group)) grp b c) := by
  have hpass : ¬ (grp = 0 ∨ b.buf = 0) := not_or.mpr ⟨hgrp, hbuf⟩
  constructor
  · intro hshort
    rw [← neededSize_eq] at hshort
    rw [copyGroup, if_neg hpass]
    exact if_pos hshort
  · intro hroom
    have hroom' : ¬ neededSize e.gr_name e.gr_passwd e.gr_mem > b.buflen := by
      rw [neededSize_eq]
      omega
    refine ⟨_, by rw [copyGroup, if_neg hpass]; exact if_neg hroom', ?_⟩
    have hinside := b.inside hbuf
    rw [Entry.space, Entry.strings, total_cons, total_cons] at hroom
    generalize hname : b.buf + (e.gr_mem.length + 1) * 4 = gr_name
    generalize hpasswd : gr_name + (e.gr_name.length + 1) = gr_passwd
    have hspec := copyMembers_spec b.buf
      (write (write c.mem gr_name (e.gr_name ++ [0])) gr_passwd (e.gr_passwd ++ [0])) 0
      (gr_passwd + (e.gr_passwd.length + 1)) e.gr_mem (by omega) (by omega)
    rw [Nat.zero_mul, Nat.add_zero] at hspec
    obtain ⟨hwords, hstrings, hchanges⟩ := hspec
    have hkept : ∀ {a : ℕ} {s : Str}, gr_name ≤ a →
        a + (s.length + 1) ≤ gr_passwd + (e.gr_passwd.length + 1) →
        ∀ x ∈ ([⟨b.buf, (e.gr_mem.length + 1) * 4⟩,
          ⟨gr_passwd + (e.gr_passwd.length + 1), total e.gr_mem⟩] : List Extent),
          Extent.Apart ⟨a, s.length + 1⟩ x := by
      intro a s hlow hhigh x hx
      simp only [List.mem_cons, List.not_mem_nil, or_false] at hx
      rcases hx with rfl | rfl
      · simp only [Extent.Apart, Extent.fin]
        omega
      · simp only [Extent.Apart, Extent.fin]
        omega
    have hfirst : StringAt
        (write (write c.mem gr_name (e.gr_name ++ [0])) gr_passwd (e.gr_passwd ++ [0]))
        gr_name e.gr_name := by
      refine (StringAt.write c.mem gr_name e.gr_name).kept (ChangesIn.write _ _ _) fun x hx => ?_
      rw [List.mem_singleton.mp hx]
      simp only [Extent.Apart, Extent.fin]
      omega
    have hblocks := blocks_apart gr_name e.strings
    rw [Entry.strings, total_cons, total_cons] at hblocks
    have hsecond := StringAt.write (write c.mem gr_name (e.gr_name ++ [0])) gr_passwd e.gr_passwd
    have hall : ∀ r ∈ (⟨b.buf, (e.gr_mem.length + 1) * 4⟩ : Extent) ::
        blocks (places gr_name (e.gr_name :: e.gr_passwd :: e.gr_mem))
          (e.gr_name :: e.gr_passwd :: e.gr_mem), r.Within ⟨b.buf, b.buflen⟩ := by
      intro r hr
      rcases List.mem_cons.mp hr with rfl | hr
      · simp only [Extent.Within, Extent.fin]
        omega
      · refine (hblocks.2 r hr).trans ?_
        simp only [Extent.Within, Extent.fin]
        omega
    have hvector : ∀ r ∈ blocks (places gr_name (e.gr_name :: e.gr_passwd :: e.gr_mem))
        (e.gr_name :: e.gr_passwd :: e.gr_mem),
        Extent.Apart ⟨b.buf, (e.gr_mem.length + 1) * 4⟩ r := by
      intro r hr
      have h := hblocks.2 r hr
      simp only [Extent.Within, Extent.Apart, Extent.fin] at h ⊢
      omega
    subst hpasswd
    refine ⟨⟨rfl, places _ e.gr_mem, ?_, hwords, ?_, ?_, ?_⟩, ?_, rfl, rfl⟩
    · intro hzero
      have := places_ge _ _ 0 hzero
      omega
    · refine List.Forall₂.cons (hfirst.kept hchanges (hkept (le_refl _) (by omega)))
        (List.Forall₂.cons (hsecond.kept hchanges (hkept (by omega) (le_refl _))) hstrings)
    · rw [length_places]
      exact List.pairwise_cons.mpr ⟨hvector, hblocks.1⟩
    · rw [length_places]
      exact hall
    · have hname' := ChangesIn.write c.mem gr_name (e.gr_name ++ [0])
      have hpasswd' := ChangesIn.write (write c.mem gr_name (e.gr_name ++ [0]))
        (gr_name + (e.gr_name.length + 1)) (e.gr_passwd ++ [0])
      rw [List.length_append, List.length_singleton] at hname' hpasswd'
      refine ((hname'.mono ?_).trans (hpasswd'.mono ?_)).trans (hchanges.mono ?_)
      all_goals
        intro x hx
        refine ⟨_, List.mem_cons_self, ?_⟩
        simp only [List.mem_cons, List.not_mem_nil, or_false] at hx
        simp only [Extent.Within, Extent.fin]
      · subst hx
        simp only
        omega
      · subst hx
        simp only
        omega
      · rcases hx with rfl | rfl
        · simp only
          omega
        · simp only
          omega

end Copy

/-- A call with a place for the entry: what it answers if the search finds one. -/
def Answers (look : Option (Option Group)) (grp : ℕ) (b : Buffer) (c : Caller)
    (r : Option (ℤ × Caller)) : Prop :=
  grp ≠ 0 → b.buf ≠ 0 → ∀ g, look = some (some g) → ∃ e : Entry, g = e.group ∧ Answer e grp b c r

theorem copyGroup_answers {wanted : Group → Bool} {savbuf : List UInt8}
    {file : Option (List UInt8)} (hlen : savbuf.length = SAVBUF) (grp : ℕ) (b : Buffer)
    (c : Caller) : Answers (lookup wanted savbuf file) grp b c
      (copyGroup (lookup wanted savbuf file) grp b c) := by
  intro hgrp hbuf g hg
  obtain ⟨-, e, rfl⟩ := lookup_entry hlen hg
  rw [hg]
  exact ⟨e, rfl, copyGroup_answer hgrp hbuf⟩

/-- Both functions return -1 with `ERANGE` and change nothing, exactly if the buffer is too
small; if it is not, they return a copy inside of the buffer. -/
theorem copies_answer (savbuf : List.Vector UInt8 SAVBUF) (file : Option (List UInt8)) (grp : ℕ)
    (b : Buffer) (c : Caller) :
    (∀ name, Answers (getgrnam name savbuf.toList file) grp b c
      (getgrnamR savbuf.toList file name grp b c)) ∧
    ∀ gid, Answers (getgrgid gid savbuf.toList file) grp b c
      (getgrgidR savbuf.toList file gid grp b c) :=
  ⟨fun _ => copyGroup_answers savbuf.toList_length grp b c,
    fun _ => copyGroup_answers savbuf.toList_length grp b c⟩

/-- The group `a`, without a password and with the gid 5. -/
def demo : Entry where
  gr_name := [97]
  gr_gid := 5
  gr_mem := [[98]]
  gr_passwd := []
  terminated := by decide
  short := by decide
  few := by decide

def demoBuffer : Buffer where
  buf := 8192
  buflen := 64
  inside := by decide

def demoCaller : Caller := ⟨fun _ => 0, ⟨0, 0, 0, 0⟩, 0, 0⟩

theorem copies_answer_demo : ∃ e : Entry, demo.group = e.group ∧ ∃ c',
    getgrnamR (List.Vector.replicate SAVBUF 0).toList (some [97, 58, 58, 53, 58, 98, 10]) [97] 4096
      demoBuffer demoCaller = some (0, c') ∧ Copied e demoBuffer c'.mem c'.grp := by
  obtain ⟨e, he, hanswer⟩ := (copies_answer (List.Vector.replicate SAVBUF 0)
    (some [97, 58, 58, 53, 58, 98, 10]) 4096 demoBuffer demoCaller).1 [97] (by decide) (by decide)
    demo.group (by decide +kernel)
  have hspace : e.space = demo.space := by
    simp only [Entry.group, Group.mk.injEq, Option.some.injEq] at he
    obtain ⟨hname, -, hmem, hpasswd⟩ := he
    rw [Entry.space, Entry.space, Entry.strings, Entry.strings, hname, hmem, hpasswd]
  obtain ⟨c', hcall, hcopied, -⟩ := hanswer.room (by rw [hspace]; decide)
  exact ⟨e, he, c', hcall, hcopied⟩

/-- Without room for its copy the functions do not return `ERANGE`. -/
theorem range_not_returned :
    ¬ ∀ (savbuf : List.Vector UInt8 SAVBUF) file name grp b c (e : Entry), grp ≠ 0 → b.buf ≠ 0 →
      getgrnam name savbuf.toList file = some (some e.group) →
      ((getgrnamR savbuf.toList file name grp b c).map Prod.fst = some (ERANGE : ℤ) ↔
        b.buflen < e.space) := by
  intro hall
  have h := hall (List.Vector.replicate SAVBUF 0) (some [97, 58, 58, 53, 58, 98, 10]) [97] 4096
    ⟨8192, 0, fun _ => by decide⟩ ⟨fun _ => 0, ⟨0, 0, 0, 0⟩, 0, 0⟩ demo (by decide) (by decide)
    (by decide +kernel)
  have hrun := h.mpr (by decide)
  revert hrun
  decide +kernel

end Mintlib.GroupCopy
