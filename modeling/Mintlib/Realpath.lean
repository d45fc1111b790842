import Mintlib.Basename
import Mintlib.Symlink
import Mintlib.Posix

/-!
# The name of a file without detours: `canonicalize.c`

`__realpath` walks along a name and keeps in `rpath` the way it has come. `..` cuts a component
off, and the target of a link takes the place of the link in front of the rest of the name. Both
`/` and `\` separate components; but a name is relative to the current directory unless its first
character is a `/`.
-/

namespace Mintlib.Realpath

open Text Unx2dos NameRoom Dirname Basename Stores Posix Checked

abbrev MAXSYMLINKS : ℕ := 4

inductive Kind
  | directory
  | link
  | other
deriving DecidableEq

/-- The components, each behind a `/`. -/
def body (comps : List Str) : Str := comps.flatMap fun comp => SLASH :: comp

def render (comps : List Str) : Str := if comps = [] then [SLASH] else body comps

/-- A component that stands for an entry of a directory. -/
structure Plain (comp : Str) : Prop where
  ne_nil : comp ≠ []
  clean : (0 : UInt8) ∉ comp
  separators : ∀ c ∈ comp, isSep c = false
  ne_dot : comp ≠ [DOT]
  ne_dots : comp ≠ [DOT, DOT]

/-- What is written for these components while the walk goes on: a `/` may be behind them. -/
def IsPath (front : Str) (comps : List Str) : Prop :=
  front = body comps ++ [SLASH] ∨ comps ≠ [] ∧ front = body comps

/-- The files with the links between them, and what `getcwd` asks for. -/
structure System where
  lstat : Str → Except ℤ Kind
  readlink : Str → Except ℤ CStr
  names : Sys
  kernel : Kernel

/-- The memory that is left; a block that grows keeps what is in it. -/
structure Heap where
  malloc : ℕ → Option Str
  realloc : Str → ℕ → Option Str
  malloc_length : ∀ n b, malloc n = some b → b.length = n
  realloc_length : ∀ b n b', realloc b n = some b' → b'.length = n
  keeps : ∀ b n b', realloc b n = some b' → b.take n <+: b'

abbrev Buffer := {b : Str // b.length = PATH_MAX}

/-- `rpath` up to `rpath_limit`, and where `dest` points. -/
structure State where
  rpath : Str
  dest : ℕ
  num_links : ℕ

/-- What is left at the end: with `errno` in it `NULL` is returned, else the string in `rpath`. -/
structure Ended where
  errno : Option ℤ
  rpath : Str

def Ended.name (e : Ended) : Option Str := if e.errno = none then some (cstr e.rpath) else none

/-- `dest[-1]`. -/
def before (rpath : Str) : ℕ → Except Stop UInt8
  | 0 => .error .bounds
  | dest + 1 => load rpath dest

/-- `while ((--dest)[-1] != '/' && dest[-1] != '\\')`. -/
def backLoop (rpath : Str) : ℕ → Except Stop ℕ
  | 0 => .error .bounds
  | dest + 1 => do
    let c ← before rpath dest
    if isSep c then .ok dest else backLoop rpath dest

def backUp (rpath : Str) (dest : ℕ) : Except Stop ℕ :=
  if 1 < dest then backLoop rpath dest else .ok dest

/-- `if (dest[-1] != '/' && dest[-1] != '\\') *dest++ = '/'`. -/
def slash (rpath : Str) (dest : ℕ) : Except Stop (Str × ℕ) := do
  let c ← before rpath dest
  if isSep c then .ok (rpath, dest)
  else do
    let rpath ← store rpath dest SLASH
    .ok (rpath, dest + 1)

/-- `new_size` for a component of `len` characters. -/
def newSize (size len : ℕ) : ℕ := size + if PATH_MAX < len + 1 then len + 1 else PATH_MAX

/-- Room for `len` characters and the end: `given` says that the buffer is the caller's. -/
def room (heap : Heap) (given : Bool) (rpath : Str) (dest len : ℕ) :
    Except Stop (Except Ended Str) :=
  if dest + len < rpath.length then .ok (.ok rpath)
  else if given then do
    let rpath ← store rpath (if 1 < dest then dest - 1 else dest) 0
    .ok (.error ⟨some ENAMETOOLONG, rpath⟩)
  else
    match heap.realloc rpath (newSize rpath.length len) with
    | none => .ok (.error ⟨some ENOMEM, rpath⟩)
    | some rpath => .ok (.ok rpath)

def enter (heap : Heap) (given : Bool) (st : State) (comp : Str) :
    Except Stop (Except Ended State) := do
  let (rpath, dest) ← slash st.rpath st.dest
  match ← room heap given rpath dest comp.length with
  | .error e => .ok (.error e)
  | .ok rpath =>
    let (dest, rpath) ← copyText comp dest rpath
    let rpath ← store rpath dest 0
    .ok (.ok ⟨rpath, dest, st.num_links⟩)

def targetDest (st : State) (buf : Str) : Except Stop ℕ :=
  if isSep (buf.headD 0) then .ok 1 else backUp st.rpath st.dest

/-- A link: its target, of which no more than fits in `buf` is read, comes in front of `rest`. -/
def follow (s : System) (st : State) (rest : Str) : Except Stop (Except Ended (State × Str)) :=
  let num_links := st.num_links + 1
  if MAXSYMLINKS < num_links then .ok (.error ⟨some ELOOP, st.rpath⟩)
  else
    match s.readlink (cstr st.rpath) with
    | .error errno => .ok (.error ⟨some errno, st.rpath⟩)
    | .ok target =>
      let buf := target.1.take (PATH_MAX - 1)
      -- the sum is a `long`: there is no string on the machine with which it would overflow
      if PATH_MAX ≤ buf.length + rest.length then .ok (.error ⟨some ENAMETOOLONG, st.rpath⟩)
      else do
        let dest ← targetDest st buf
        .ok (.ok (⟨st.rpath, dest, num_links⟩, buf ++ rest))

/-- What to do with the file that has been reached, `rest` being what `end` points to: the text to
go on with. -/
def arrive (s : System) (st : State) (rest : Str) : Except Stop (Except Ended (State × Str)) :=
  match s.lstat (cstr st.rpath) with
  | .error errno => .ok (.error ⟨some errno, st.rpath⟩)
  | .ok .link => follow s st rest
  | .ok .directory => .ok (.ok (st, rest))
  | .ok .other =>
    if rest = [] then .ok (.ok (st, rest)) else .ok (.error ⟨some ENOTDIR, st.rpath⟩)

def strip (rpath : Str) (dest : ℕ) : Except Stop ℕ :=
  if 1 < dest then do
    let c ← before rpath dest
    .ok (if isSep c then dest - 1 else dest)
  else .ok dest

def finish (st : State) : Except Stop Ended := do
  let dest ← strip st.rpath st.dest
  let rpath ← store st.rpath dest 0
  .ok ⟨none, rpath⟩

/-- The component at `start`, and what is behind it. -/
def component (start : Str) : Str := (start.dropWhile isSep).takeWhile fun c => !isSep c

def behind (start : Str) : Str := (start.dropWhile isSep).dropWhile fun c => !isSep c

def step (s : System) (heap : Heap) (given : Bool) (st : State) (start : Str) :
    Except Stop (Except Ended (State × Str)) :=
  let comp := component start
  let rest := behind start
  if comp = [] then do
    let e ← finish st
    .ok (.error e)
  else if comp = [DOT] then .ok (.ok (st, rest))
  else if comp = [DOT, DOT] then do
    let dest ← backUp st.rpath st.dest
    .ok (.ok ({ st with dest := dest }, rest))
  else do
    match ← enter heap given st comp with
    | .error e => .ok (.error e)
    | .ok st => arrive s st rest

section Step

variable {s : System} {heap : Heap} {given : Bool} {st st' : State} {comp start rest text : Str}

theorem enter_links (h : enter heap given st comp = .ok (.ok st')) :
    st'.num_links = st.num_links := by
  unfold enter at h
  obtain ⟨⟨rpath, dest⟩, -, h⟩ := bind_eq_ok h
  obtain ⟨roomy, -, h⟩ := bind_eq_ok h
  cases roomy with
  | error e => cases h
  | ok rpath =>
    obtain ⟨⟨dest, rpath⟩, -, h⟩ := bind_eq_ok h
    obtain ⟨rpath, -, h⟩ := bind_eq_ok h
    cases h
    rfl

theorem arrive_progress (h : arrive s st rest = .ok (.ok (st', text))) :
    st' = st ∧ text = rest ∨
      st.num_links < st'.num_links ∧ st'.num_links ≤ MAXSYMLINKS := by
  unfold arrive at h
  split at h
  · cases h
  · right
    unfold follow at h
    simp only at h
    by_cases hlinks : MAXSYMLINKS < st.num_links + 1
    · rw [if_pos hlinks] at h
      cases h
    · rw [if_neg hlinks] at h
      split at h
      · cases h
      · split_ifs at h
        · cases h
        · obtain ⟨dest, -, h⟩ := bind_eq_ok h
          cases h
          exact ⟨Nat.lt_succ_self _, not_lt.mp hlinks⟩
  · cases h
    exact Or.inl ⟨rfl, rfl⟩
  · split_ifs at h
    · cases h
      exact Or.inl ⟨rfl, rfl⟩
    · cases h

theorem behind_length (h : component start ≠ []) : (behind start).length < start.length := by
  have hsplit := List.takeWhile_append_dropWhile (p := fun c => !isSep c)
    (l := start.dropWhile isSep)
  have hlength := congrArg List.length hsplit
  rw [List.length_append] at hlength
  have hpos := List.length_pos_iff.mpr h
  have hdrop := (List.dropWhile_suffix isSep (l := start)).length_le
  unfold component at hpos
  unfold behind
  omega

theorem step_progress (h : step s heap given st start = .ok (.ok (st', text))) :
    st'.num_links = st.num_links ∧ text.length < start.length ∨
      st.num_links < st'.num_links ∧ st'.num_links ≤ MAXSYMLINKS := by
  unfold step at h
  simp only at h
  split_ifs at h with hnil hdot hdots
  · obtain ⟨e, -, h⟩ := bind_eq_ok h
    cases h
  · cases h
    exact Or.inl ⟨rfl, behind_length hnil⟩
  · obtain ⟨dest, -, h⟩ := bind_eq_ok h
    cases h
    exact Or.inl ⟨rfl, behind_length hnil⟩
  · obtain ⟨entered, henter, h⟩ := bind_eq_ok h
    cases entered with
    | error e => cases h
    | ok st₁ =>
      have hlinks := enter_links henter
      rcases arrive_progress h with ⟨rfl, rfl⟩ | ⟨hmore, hmost⟩
      · exact Or.inl ⟨hlinks, behind_length hnil⟩
      · exact Or.inr ⟨hlinks ▸ hmore, hmost⟩

end Step

/-- The loop: it ends, since no more than `MAXSYMLINKS` links are followed. -/
def loop (s : System) (heap : Heap) (given : Bool) (st : State) (start : Str) :
    Except Stop Ended :=
  match h : step s heap given st start with
  | .error stop => .error stop
  | .ok (.error e) => .ok e
  | .ok (.ok (st', text)) => loop s heap given st' text
termination_by (MAXSYMLINKS - st.num_links, start.length)
decreasing_by
  rcases step_progress h with ⟨hlinks, hlength⟩ | ⟨hmore, hmost⟩
  · rw [hlinks]
    exact Prod.Lex.right _ hlength
  · exact Prod.Lex.left _ _ (by omega)

/-- The buffer after `getcwd`, and where its string ends. -/
def currentDirectory (s : System) (rpath : Str) : Except Stop (Except Ended State) := do
  let (written, err) := getcwd s.names s.kernel true PATH_MAX
  let rpath ← match written with
    | none => Except.ok rpath
    | some (t, _) => strcpy rpath 0 t
  match err with
  | some errno => do
    let rpath ← store rpath 0 0
    .ok (.error ⟨some errno, rpath⟩)
  | none => .ok (.ok ⟨rpath, (cstr rpath).length, 0⟩)

def begin (s : System) (rpath name : Str) : Except Stop (Except Ended State) :=
  if name.headD 0 ≠ SLASH ∨ name.headD 0 = BACKSLASH then currentDirectory s rpath
  else do
    let rpath ← store rpath 0 SLASH
    .ok (.ok ⟨rpath, 1, 0⟩)

/-- `__realpath`; a buffer that is not the caller's is freed when there is an error. -/
def realpath (s : System) (heap : Heap) (name : Option Str) (resolved : Option Buffer) :
    Except Stop Ended :=
  let untouched := (resolved.map Subtype.val).getD []
  match name with
  | none => .ok ⟨some EINVAL, untouched⟩
  | some name =>
    if name = [] then .ok ⟨some ENOENT, untouched⟩
    else
      match (resolved.map Subtype.val).or (heap.malloc PATH_MAX) with
      | none => .ok ⟨some ENOMEM, []⟩
      | some rpath => do
        match ← begin s rpath name with
        | .error e => .ok e
        | .ok st => loop s heap resolved.isSome st name

/-- In `rpath` stands the way along these components, and there is room for its end. -/
structure Rep (given : Bool) (st : State) (comps : List Str) : Prop where
  plain : ∀ comp ∈ comps, Plain comp
  path : ∃ front, IsPath front comps ∧ front <+: st.rpath ∧ st.dest = front.length
  inside : st.dest < st.rpath.length
  size : given = true → st.rpath.length = PATH_MAX

/-- There was no room for a name of `len` characters. -/
def NoRoom (heap : Heap) (given : Bool) (e : Ended) (len : ℕ) : Prop :=
  given = true ∧ e.errno = some ENAMETOOLONG ∧ PATH_MAX ≤ len ∨
    given = false ∧ e.errno = some ENOMEM ∧ ∃ b n, heap.realloc b n = none

theorem body_append (comps : List Str) (comp : Str) :
    body (comps ++ [comp]) = body comps ++ SLASH :: comp := by
  rw [body, List.flatMap_append, List.flatMap_singleton]
  rfl

theorem body_clean {comps : List Str} (h : ∀ comp ∈ comps, Plain comp) : 0 ∉ body comps := by
  intro hmem
  obtain ⟨comp, hcomp, h0⟩ := List.mem_flatMap.mp hmem
  rcases List.mem_cons.mp h0 with h0 | h0
  · exact absurd h0 (by decide)
  · exact (h comp hcomp).clean h0

theorem body_ends {comps : List Str} (h : ∀ comp ∈ comps, Plain comp) (hne : comps ≠ []) :
    ∃ a c, body comps = a ++ [c] ∧ a ≠ [] ∧ isSep c = false := by
  obtain ⟨cs, comp, rfl⟩ : ∃ cs comp, comps = cs ++ [comp] :=
    ⟨_, _, (List.dropLast_append_getLast hne).symm⟩
  have hplain := h comp (List.mem_append_right _ (List.mem_singleton_self comp))
  obtain ⟨d, c, rfl⟩ : ∃ d c, comp = d ++ [c] :=
    ⟨_, _, (List.dropLast_append_getLast hplain.ne_nil).symm⟩
  refine ⟨body cs ++ SLASH :: d, c, ?_, ?_, ?_⟩
  · rw [body_append, List.append_assoc, List.cons_append]
  · exact List.append_ne_nil_of_right_ne_nil _ (List.cons_ne_nil _ _)
  · exact hplain.separators c (List.mem_append_right _ (List.mem_singleton_self c))

section Buffer

variable {rpath front : Str}

theorem before_prefix {a : Str} {c : UInt8} (h : a ++ [c] <+: rpath) :
    before rpath (a ++ [c]).length = .ok c := by
  obtain ⟨t, rfl⟩ := h
  rw [List.length_append, List.length_singleton, before, List.append_assoc, List.singleton_append,
    load_append]

theorem cstr_prefix (h : front ++ [0] <+: rpath) (hclean : (0 : UInt8) ∉ front) :
    cstr rpath = front := by
  obtain ⟨t, rfl⟩ := h
  rw [List.append_assoc]
  exact cstr_append hclean t

theorem store_prefix (h : front <+: rpath) (hin : front.length < rpath.length) (c : UInt8) :
    ∃ b, store rpath front.length c = .ok b ∧ front ++ [c] <+: b ∧ b.length = rpath.length := by
  have hwritten : Written rpath rpath front rpath.length := ⟨rfl, h, rfl⟩
  obtain ⟨b, hstore, hb⟩ := hwritten.store hin le_rfl c
  exact ⟨b, hstore, hb.head, hb.length⟩

theorem backLoop_eq {p w : Str} {c : UInt8} (hc : isSep c = true)
    (hw : ∀ d ∈ w, isSep d = false) (x : UInt8) (t : Str) :
    backLoop (p ++ [c] ++ w ++ x :: t) ((p ++ [c] ++ w).length + 1) =
      .ok (p ++ [c]).length := by
  induction w using List.reverseRecOn generalizing x t with
  | nil =>
    rw [List.append_nil, backLoop, before_prefix (List.prefix_append _ _)]
    show (if isSep c then _ else _) = _
    rw [if_pos hc]
  | append_singleton w y ih =>
    obtain ⟨hw, hy⟩ := List.forall_mem_append.mp hw
    have hlast : p ++ [c] ++ (w ++ [y]) = p ++ [c] ++ w ++ [y] := (List.append_assoc _ _ _).symm
    have hlength : (p ++ [c] ++ w ++ [y]).length = (p ++ [c] ++ w).length + 1 := by
      rw [List.length_append, List.length_singleton]
    rw [hlast, backLoop, before_prefix (List.prefix_append _ _)]
    show (if isSep y then _ else _) = _
    rw [if_neg (Bool.eq_false_iff.mp (hy y (List.mem_singleton_self y))), hlength,
      List.append_assoc (p ++ [c] ++ w), List.singleton_append]
    exact ih hw y (x :: t)

end Buffer

section Rep

variable {s : System} {heap : Heap} {given : Bool} {st : State} {comps : List Str}

theorem Rep.root (h : Rep given st comps) (n : ℕ) : Rep given ⟨st.rpath, 1, n⟩ [] := by
  obtain ⟨front, hpath, hprefix, hdest⟩ := h.path
  have hinside := h.inside
  have hslash : [SLASH] <+: front := by
    rcases hpath with rfl | ⟨hne, rfl⟩
    · cases comps with
      | nil => exact List.prefix_rfl
      | cons comp comps => exact ⟨comp ++ body comps ++ [SLASH], rfl⟩
    · obtain ⟨comp, comps, rfl⟩ := List.exists_cons_of_ne_nil hne
      exact ⟨comp ++ body comps, rfl⟩
  have hlength := hslash.length_le
  refine ⟨fun comp hcomp => absurd hcomp List.not_mem_nil,
    ⟨[SLASH], Or.inl rfl, hslash.trans hprefix, rfl⟩, ?_, h.size⟩
  show 1 < st.rpath.length
  rw [List.length_singleton] at hlength
  omega

theorem Rep.back (h : Rep given st comps) (n : ℕ) :
    ∃ dest, backUp st.rpath st.dest = .ok dest ∧
      Rep given ⟨st.rpath, dest, n⟩ comps.dropLast := by
  obtain ⟨front, hpath, hprefix, hdest⟩ := h.path
  have hinside := h.inside
  by_cases hne : comps = []
  · subst hne
    rcases hpath with rfl | ⟨hne, -⟩
    · refine ⟨1, ?_, h.root n⟩
      rw [backUp, hdest]
      rfl
    · exact absurd rfl hne
  · obtain ⟨cs, comp, rfl⟩ : ∃ cs comp, comps = cs ++ [comp] :=
      ⟨_, _, (List.dropLast_append_getLast hne).symm⟩
    have hplain := h.plain comp (List.mem_append_right _ (List.mem_singleton_self comp))
    obtain ⟨d, c, hd⟩ : ∃ d c, comp = d ++ [c] :=
      ⟨_, _, (List.dropLast_append_getLast hplain.ne_nil).symm⟩
    obtain ⟨t, ht⟩ := hprefix
    have hwhere : ∃ w x, (∀ y ∈ w, isSep y = false) ∧ front = body cs ++ [SLASH] ++ w ++ [x] := by
      rcases hpath with rfl | ⟨-, rfl⟩
      · refine ⟨comp, SLASH, hplain.separators, ?_⟩
        rw [body_append, List.append_assoc (body cs) [SLASH] comp]
        rfl
      · refine ⟨d, c, fun y hy => hplain.separators y (hd ▸ List.mem_append_left _ hy), ?_⟩
        rw [body_append, hd]
        simp only [List.append_assoc, List.cons_append, List.nil_append]
    obtain ⟨w, x, hw, hfront⟩ := hwhere
    have hlength : front.length = (body cs ++ [SLASH] ++ w).length + 1 := by
      rw [hfront, List.length_append, List.length_singleton]
    have hslash : isSep SLASH = true := rfl
    have hmem : st.rpath = body cs ++ [SLASH] ++ w ++ x :: t := by
      rw [← ht, hfront, List.append_assoc, List.singleton_append]
    have hback := backLoop_eq (p := body cs) hslash hw x t
    have hmore : 1 < st.dest := by
      rw [hdest, hlength, List.length_append, List.length_append, List.length_singleton]
      omega
    refine ⟨(body cs ++ [SLASH]).length, ?_, ?_, ?_, ?_, h.size⟩
    · rw [backUp, if_pos hmore, hdest, hlength, hmem, hback]
    · intro comp hcomp
      rw [List.dropLast_concat] at hcomp
      exact h.plain comp (List.mem_append_left _ hcomp)
    · refine ⟨body cs ++ [SLASH], Or.inl (by rw [List.dropLast_concat]), ?_, rfl⟩
      rw [hmem, List.append_assoc (body cs ++ [SLASH])]
      exact List.prefix_append _ _
    · show (body cs ++ [SLASH]).length < st.rpath.length
      have hpos : 0 < (w ++ x :: t).length := by simp
      have hlong : (body cs ++ [SLASH] ++ (w ++ x :: t)).length =
          (body cs ++ [SLASH]).length + (w ++ x :: t).length := List.length_append
      rw [hmem, List.append_assoc (body cs ++ [SLASH]), hlong]
      omega

theorem Rep.slash (h : Rep given st comps) :
    ∃ rpath, slash st.rpath st.dest = .ok (rpath, (body comps ++ [SLASH]).length) ∧
      body comps ++ [SLASH] <+: rpath ∧ rpath.length = st.rpath.length := by
  obtain ⟨front, hpath, hprefix, hdest⟩ := h.path
  have hinside := h.inside
  rcases hpath with rfl | ⟨hne, rfl⟩
  · refine ⟨st.rpath, ?_, hprefix, rfl⟩
    rw [Realpath.slash, hdest, before_prefix hprefix]
    rfl
  · obtain ⟨a, c, ha, -, hc⟩ := body_ends h.plain hne
    rw [hdest] at hinside
    obtain ⟨b, hstore, hb, hlength⟩ := store_prefix hprefix hinside SLASH
    refine ⟨b, ?_, hb, hlength⟩
    have hbefore : before st.rpath st.dest = .ok c := by
      rw [hdest, ha]
      exact before_prefix (ha ▸ hprefix)
    rw [Realpath.slash, hbefore, ok_bind, if_neg (Bool.eq_false_iff.mp hc), hdest, hstore,
      List.length_append, List.length_singleton]
    rfl

theorem Rep.finish (h : Rep given st comps) :
    ∃ e, finish st = .ok e ∧ e.errno = none ∧ cstr e.rpath = render comps ∧
      (given = true → (render comps).length < PATH_MAX) := by
  obtain ⟨front, hpath, hprefix, hdest⟩ := h.path
  have hinside := h.inside
  have hstrip : strip st.rpath st.dest = .ok (render comps).length ∧ render comps <+: front := by
    by_cases hne : comps = []
    · subst hne
      rcases hpath with rfl | ⟨hne, -⟩
      · refine ⟨?_, List.prefix_rfl⟩
        rw [strip, hdest]
        rfl
      · exact absurd rfl hne
    · obtain ⟨a, c, ha, hane, hc⟩ := body_ends h.plain hne
      have hpos := List.length_pos_iff.mpr hane
      have hlength : (body comps).length = a.length + 1 := by
        rw [ha, List.length_append, List.length_singleton]
      rw [render, if_neg hne]
      rcases hpath with rfl | ⟨-, rfl⟩
      · refine ⟨?_, List.prefix_append _ _⟩
        rw [List.length_append, List.length_singleton] at hdest
        have hbefore : before st.rpath st.dest = .ok SLASH := by
          rw [hdest, ← List.length_singleton, ← List.length_append]
          exact before_prefix hprefix
        have hslash : isSep SLASH = true := rfl
        rw [strip, if_pos (by omega), hbefore, ok_bind, if_pos hslash, hdest, Nat.add_sub_cancel]
      · refine ⟨?_, List.prefix_rfl⟩
        have hbefore : before st.rpath st.dest = .ok c := by
          rw [hdest, ha]
          exact before_prefix (ha ▸ hprefix)
        rw [strip, if_pos (by omega), hbefore, ok_bind, if_neg (Bool.eq_false_iff.mp hc), hdest]
  obtain ⟨hstrip, hfront⟩ := hstrip
  have hless : (render comps).length < st.rpath.length :=
    lt_of_le_of_lt (hdest ▸ hfront.length_le) hinside
  obtain ⟨b, hstore, hb, -⟩ := store_prefix (hfront.trans hprefix) hless 0
  have hclean : (0 : UInt8) ∉ render comps := by
    rw [render]
    split_ifs
    · decide
    · exact body_clean h.plain
  refine ⟨⟨none, b⟩, ?_, rfl, cstr_prefix hb hclean, fun hgiven => h.size hgiven ▸ hless⟩
  rw [Realpath.finish, hstrip, ok_bind, hstore]
  rfl

theorem room_cases (heap : Heap) {rpath front : Str} (len : ℕ) (hfront : front <+: rpath)
    (hsize : given = true → rpath.length = PATH_MAX) (hone : front.length ≤ rpath.length)
    (hsmall : 1 < rpath.length) (hlen : 0 < front.length) :
    (∃ e, room heap given rpath front.length len = .ok (.error e) ∧
        NoRoom heap given e (front.length + len)) ∨
      ∃ b, room heap given rpath front.length len = .ok (.ok b) ∧ front <+: b ∧
        front.length + len < b.length ∧ (given = true → b.length = PATH_MAX) := by
  by_cases hroom : front.length + len < rpath.length
  · right
    exact ⟨rpath, if_pos hroom, hfront, hroom, hsize⟩
  · rw [room, if_neg hroom]
    cases given with
    | true =>
      left
      have hin : (if 1 < front.length then front.length - 1 else front.length) < rpath.length := by
        split_ifs <;> omega
      have hstore : store rpath (if 1 < front.length then front.length - 1 else front.length) 0 =
          .ok (rpath.set (if 1 < front.length then front.length - 1 else front.length) 0) :=
        if_pos hin
      rw [if_pos rfl, hstore]
      refine ⟨_, rfl, Or.inl ⟨rfl, rfl, ?_⟩⟩
      have := hsize rfl
      omega
    | false =>
      rw [if_neg Bool.false_ne_true]
      cases hrealloc : heap.realloc rpath (newSize rpath.length len) with
      | none =>
        left
        exact ⟨_, rfl, Or.inr ⟨rfl, rfl, _, _, hrealloc⟩⟩
      | some b =>
        right
        have hlength := heap.realloc_length _ _ _ hrealloc
        have hkeeps := heap.keeps _ _ _ hrealloc
        have hmore : rpath.length ≤ newSize rpath.length len := Nat.le_add_right _ _
        rw [List.take_of_length_le hmore] at hkeeps
        refine ⟨b, rfl, hfront.trans hkeeps, ?_, fun h => absurd h Bool.false_ne_true⟩
        rw [hlength, newSize]
        split_ifs <;> omega

theorem Rep.enter (heap : Heap) {comp : Str} (h : Rep given st comps) (hcomp : Plain comp) :
    (∃ e, enter heap given st comp = .ok (.error e) ∧
        NoRoom heap given e (body (comps ++ [comp])).length) ∨
      ∃ st', enter heap given st comp = .ok (.ok st') ∧ Rep given st' (comps ++ [comp]) ∧
        cstr st'.rpath = render (comps ++ [comp]) := by
  obtain ⟨rpath, hslash, hprefix, hlength⟩ := h.slash
  have hinside := h.inside
  have hpos : 0 < (body comps ++ [SLASH]).length := by simp
  have hdest : 0 < st.dest := by
    obtain ⟨front, hpath, -, hdest⟩ := h.path
    rw [hdest, List.length_pos_iff]
    rcases hpath with rfl | ⟨hne, rfl⟩
    · exact List.append_ne_nil_of_right_ne_nil _ (List.cons_ne_nil _ _)
    · obtain ⟨a, c, ha, -⟩ := body_ends h.plain hne
      rw [ha]
      exact List.append_ne_nil_of_right_ne_nil _ (List.cons_ne_nil _ _)
  have hbody : body (comps ++ [comp]) = body comps ++ [SLASH] ++ comp := by
    rw [body_append, List.append_assoc]
    rfl
  have hlong : (body comps ++ [SLASH] ++ comp).length =
      (body comps ++ [SLASH]).length + comp.length := List.length_append
  rw [Realpath.enter, hslash, ok_bind]
  dsimp only
  -- the buffer has no room, or has it now
  rcases room_cases heap comp.length hprefix
    (fun hgiven => hlength.trans (h.size hgiven)) hprefix.length_le (by omega) hpos with
    ⟨e, hroom, hno⟩ | ⟨b, hroom, hb, hmore, hsize⟩
  · left
    rw [hbody, hlong]
    exact ⟨e, by rw [hroom]; rfl, hno⟩
  · right
    have hwritten : Written b b (body comps ++ [SLASH]) b.length := ⟨rfl, hb, rfl⟩
    obtain ⟨b₁, hcopy, h₁⟩ := Written.copyText le_rfl comp hwritten hmore.le
    have hplain : ∀ c ∈ comps ++ [comp], Plain c :=
      List.forall_mem_append.mpr ⟨h.plain, fun c hc => List.mem_singleton.mp hc ▸ hcomp⟩
    have hin : (body comps ++ [SLASH] ++ comp).length < b₁.length := by
      rw [h₁.length, hlong]
      exact hmore
    obtain ⟨b₂, hstore, hend, hlength₂⟩ := store_prefix h₁.head hin 0
    rw [hlong] at hstore hin
    have hne : comps ++ [comp] ≠ [] := List.append_ne_nil_of_right_ne_nil _ (List.cons_ne_nil _ _)
    refine ⟨⟨b₂, (body comps ++ [SLASH]).length + comp.length, st.num_links⟩, ?_,
      ⟨hplain, ⟨body (comps ++ [comp]), Or.inr ⟨hne, rfl⟩, ?_, ?_⟩, ?_, ?_⟩, ?_⟩
    · rw [hroom, ok_bind]
      dsimp only
      rw [hcopy, ok_bind]
      dsimp only
      rw [hstore]
      rfl
    · rw [hbody]
      exact (List.prefix_append _ _).trans hend
    · rw [hbody, hlong]
    · rw [hlength₂]
      exact hin
    · intro hgiven
      rw [hlength₂, h₁.length, hsize hgiven]
    · rw [render, if_neg hne, hbody]
      exact cstr_prefix hend (hbody ▸ body_clean hplain)

end Rep

def Barren (s : System) (comps : List Str) : Prop :=
  ∀ comp, Plain comp → ∀ kind, s.lstat (render (comps ++ [comp])) = .ok kind → kind = .link

/-- The files along the components are no links, and directories; only the last may be another
file, when no text is left or nothing is below it. -/
def Found (s : System) (comps : List Str) (text : Str) : Prop :=
  ∀ front, front <+: comps → front ≠ [] →
    ∃ kind, s.lstat (render front) = .ok kind ∧ kind ≠ .link ∧
      (kind = .directory ∨ front = comps ∧ (text = [] ∨ Barren s comps))

/-- What `getcwd` gives is a name of components. -/
def Named (s : System) : Prop :=
  ∀ t room, getcwd s.names s.kernel true PATH_MAX = (some (t, room), none) →
    ∃ comps, IsPath t comps ∧ ∀ comp ∈ comps, Plain comp

/-- What `getcwd` gives leads through directories to a directory. -/
def Settled (s : System) : Prop :=
  ∀ t room, getcwd s.names s.kernel true PATH_MAX = (some (t, room), none) →
    ∃ comps, IsPath t comps ∧ (∀ comp ∈ comps, Plain comp) ∧ ∀ text, Found s comps text

/-- Where the walk is, with `text` before it. -/
structure Walk (s : System) (given : Bool) (st : State) (comps : List Str) (text : Str) : Prop where
  rep : Rep given st comps
  found : Found s comps text
  clean : (0 : UInt8) ∉ text

def Refuses (s : System) (heap : Heap) (given : Bool) : Prop :=
  given = true ∨ (∃ b n, heap.realloc b n = none) ∨ ∃ path, s.lstat path ≠ .ok .directory

def Leads (s : System) (given : Bool) (e : Ended) : Prop :=
  ∃ comps, (∀ comp ∈ comps, Plain comp) ∧ Found s comps [] ∧ cstr e.rpath = render comps ∧
    (given = true → (render comps).length < PATH_MAX)

theorem NoRoom.refuses {heap : Heap} {given : Bool} {e : Ended} {len : ℕ} (s : System)
    (h : NoRoom heap given e len) : e.errno ≠ none ∧ Refuses s heap given := by
  rcases h with ⟨hgiven, herrno, -⟩ | ⟨-, herrno, hrealloc⟩
  · exact ⟨by rw [herrno]; exact Option.some_ne_none _, Or.inl hgiven⟩
  · exact ⟨by rw [herrno]; exact Option.some_ne_none _, Or.inr (Or.inl hrealloc)⟩

section Walk

variable {s : System} {heap : Heap} {given : Bool} {st : State} {comps : List Str}
  {comp start rest text : Str}

theorem Found.mono {comps' : List Str} (h : Found s comps text) (htext : text ≠ [])
    (hcomps : comps' <+: comps) (rest : Str) : Found s comps' rest := by
  intro front hfront hne
  obtain ⟨kind, hlstat, hlink, hkind⟩ := h front (hfront.trans hcomps) hne
  refine ⟨kind, hlstat, hlink, hkind.imp_right ?_⟩
  rintro ⟨rfl, hlast⟩
  have hsame : front = comps' := hfront.eq_of_length_le hcomps.length_le
  rw [← hsame]
  exact ⟨rfl, Or.inr (hlast.resolve_left htext)⟩

theorem Found.more {kind : Kind} (h : Found s comps text) (htext : text ≠ []) (hcomp : Plain comp)
    (hlstat : s.lstat (render (comps ++ [comp])) = .ok kind) (hlink : kind ≠ .link)
    (hkind : kind = .directory ∨ rest = []) : Found s (comps ++ [comp]) rest := by
  intro front hfront hne
  rcases List.prefix_concat_iff.mp hfront with rfl | hfront
  · exact ⟨kind, hlstat, hlink, hkind.imp_right fun hrest => ⟨rfl, Or.inl hrest⟩⟩
  · obtain ⟨kind', hlstat', hlink', hkind'⟩ := h front hfront hne
    refine ⟨kind', hlstat', hlink', Or.inl (hkind'.resolve_right ?_)⟩
    rintro ⟨rfl, hlast⟩
    exact hlink (hlast.resolve_left htext comp hcomp kind hlstat)

theorem component_plain (hclean : (0 : UInt8) ∉ start) (hne : component start ≠ [])
    (hdot : component start ≠ [DOT]) (hdots : component start ≠ [DOT, DOT]) :
    Plain (component start) := by
  refine ⟨hne, fun h => hclean ?_, fun c hc => ?_, hdot, hdots⟩
  · exact (List.dropWhile_suffix _).mem ((List.takeWhile_prefix _).mem h)
  · have h := List.mem_takeWhile_imp hc
    rw [Bool.not_eq_true'] at h
    exact h

theorem behind_clean (hclean : (0 : UInt8) ∉ start) : (0 : UInt8) ∉ behind start := fun h =>
  hclean ((List.dropWhile_suffix _).mem ((List.dropWhile_suffix _).mem h))

theorem start_ne_nil (h : component start ≠ []) : start ≠ [] := by
  rintro rfl
  exact h rfl

/-- What is done with the file that has been reached: it is refused; it is kept; or it is a link,
and the walk goes on from the root or the directory before. -/
theorem arrive_cases (h : Rep given st (comps ++ [comp]))
    (hname : cstr st.rpath = render (comps ++ [comp])) (hrest : (0 : UInt8) ∉ rest) :
    (∃ e, arrive s st rest = .ok (.error e) ∧ e.errno ≠ none ∧
        ∃ path, s.lstat path ≠ .ok .directory) ∨
      (∃ kind, s.lstat (render (comps ++ [comp])) = .ok kind ∧ kind ≠ .link ∧
        (kind = .directory ∨ rest = []) ∧ arrive s st rest = .ok (.ok (st, rest))) ∨
      ∃ st' text comps', arrive s st rest = .ok (.ok (st', text)) ∧ (0 : UInt8) ∉ text ∧
        Rep given st' comps' ∧ comps' <+: comps := by
  rw [arrive, hname]
  cases hlstat : s.lstat (render (comps ++ [comp])) with
  | error errno =>
    left
    refine ⟨_, rfl, Option.some_ne_none _, render (comps ++ [comp]), ?_⟩
    rw [hlstat]
    intro h
    cases h
  | ok kind =>
    -- a directory is entered, another file ends the name, and a link goes back to its directory
    cases kind with
    | directory =>
      right; left
      exact ⟨_, rfl, by decide, Or.inl rfl, rfl⟩
    | other =>
      by_cases hnil : rest = []
      · right; left
        exact ⟨_, rfl, by decide, Or.inr hnil, if_pos hnil⟩
      · left
        refine ⟨_, if_neg hnil, Option.some_ne_none _, render (comps ++ [comp]), ?_⟩
        rw [hlstat]
        decide
    | link =>
      have hnot : ∃ path, s.lstat path ≠ .ok .directory := by
        refine ⟨render (comps ++ [comp]), ?_⟩
        rw [hlstat]
        decide
      show (∃ e, follow s st rest = .ok (.error e) ∧ _) ∨ _
      rw [follow]
      dsimp only
      by_cases hlinks : MAXSYMLINKS < st.num_links + 1
      · left
        exact ⟨_, if_pos hlinks, Option.some_ne_none _, hnot⟩
      · rw [if_neg hlinks]
        cases htarget : s.readlink (cstr st.rpath) with
        | error errno =>
          left
          exact ⟨_, rfl, Option.some_ne_none _, hnot⟩
        | ok target =>
          dsimp only
          by_cases hlong : PATH_MAX ≤ (target.1.take (PATH_MAX - 1)).length + rest.length
          · left
            exact ⟨_, if_pos hlong, Option.some_ne_none _, hnot⟩
          · right; right
            rw [if_neg hlong]
            have hclean : (0 : UInt8) ∉ target.1.take (PATH_MAX - 1) ++ rest := by
              intro hmem
              rcases List.mem_append.mp hmem with hmem | hmem
              · exact target.2 (List.mem_of_mem_take hmem)
              · exact hrest hmem
            rw [targetDest]
            by_cases hroot : isSep ((target.1.take (PATH_MAX - 1)).headD 0)
            · rw [if_pos hroot]
              exact ⟨_, _, [], rfl, hclean, h.root _, List.nil_prefix⟩
            · obtain ⟨dest, hback, hrep⟩ := h.back (st.num_links + 1)
              rw [List.dropLast_concat] at hrep
              rw [if_neg hroot, hback]
              exact ⟨_, _, comps, rfl, hclean, hrep, List.prefix_rfl⟩

theorem step_end {e : Ended} (hnil : component start = []) (h : finish st = .ok e) :
    step s heap given st start = .ok (.error e) := by
  unfold step
  rw [if_pos hnil, h]
  rfl

theorem step_file (s : System) (heap : Heap) (given : Bool) (st : State)
    (h : Plain (component start)) :
    step s heap given st start = (enter heap given st (component start) >>= fun entered =>
      match entered with
      | .error e => .ok (.error e)
      | .ok st => arrive s st (behind start)) := by
  unfold step
  rw [if_neg h.ne_nil, if_neg h.ne_dot, if_neg h.ne_dots]

theorem step_cases (heap : Heap) (h : Walk s given st comps start) :
    (∃ e, step s heap given st start = .ok (.error e) ∧
        (e.errno ≠ none → Refuses s heap given) ∧ (e.errno = none → Leads s given e)) ∨
      ∃ st' text comps', step s heap given st start = .ok (.ok (st', text)) ∧
        Walk s given st' comps' text := by
  by_cases hnil : component start = []
  · left
    obtain ⟨e, hfinish, herrno, hname, hlength⟩ := h.rep.finish
    refine ⟨e, step_end hnil hfinish, fun herr => absurd herrno herr,
      fun _ => ⟨comps, h.rep.plain, ?_, hname, hlength⟩⟩
    intro front hfront hne
    obtain ⟨kind, hlstat, hlink, hkind⟩ := h.found front hfront hne
    exact ⟨kind, hlstat, hlink, hkind.imp_right fun hlast => ⟨hlast.1, Or.inl rfl⟩⟩
  · have htext := start_ne_nil hnil
    have hrest := behind_clean h.clean
    by_cases hdot : component start = [DOT]
    · right
      unfold step
      rw [if_neg hnil, if_pos hdot]
      exact ⟨st, _, comps, rfl, h.rep, h.found.mono htext List.prefix_rfl _, hrest⟩
    · by_cases hdots : component start = [DOT, DOT]
      · right
        obtain ⟨dest, hback, hrep⟩ := h.rep.back st.num_links
        unfold step
        rw [if_neg hnil, if_neg hdot, if_pos hdots, hback]
        exact ⟨_, _, _, rfl, hrep, h.found.mono htext (List.dropLast_prefix _) _, hrest⟩
      · have hplain := component_plain h.clean hnil hdot hdots
        rw [step_file s heap given st hplain]
        rcases h.rep.enter heap hplain with
          ⟨e, henter, hno⟩ | ⟨st', henter, hrep, hname⟩
        · left
          obtain ⟨herrno, hrefuses⟩ := hno.refuses s
          rw [henter]
          exact ⟨e, rfl, fun _ => hrefuses, fun herr => absurd herr herrno⟩
        · rw [henter, ok_bind]
          dsimp only
          rcases arrive_cases (s := s) hrep hname hrest with
            ⟨e, harrive, herrno, hnot⟩ | ⟨kind, hlstat, hlink, hkind, harrive⟩ |
              ⟨st'', text, comps', harrive, hclean, hrep', hcomps⟩
          · left
            exact ⟨e, harrive, fun _ => Or.inr (Or.inr hnot), fun herr => absurd herr herrno⟩
          · right
            exact ⟨st', _, _, harrive, hrep, h.found.more htext hplain hlstat hlink hkind,
              hrest⟩
          · right
            exact ⟨st'', text, comps', harrive, hrep', h.found.mono htext hcomps _, hclean⟩

end Walk

section Loop

variable {s : System} {heap : Heap} {given : Bool} {st st' : State} {start text : Str} {e : Ended}

theorem loop_ends (h : step s heap given st start = .ok (.error e)) :
    loop s heap given st start = .ok e := by
  rw [loop]
  split
  · next stop hstep => rw [h] at hstep; cases hstep
  · next e' hstep => rw [h] at hstep; cases hstep; rfl
  · next st' text hstep => rw [h] at hstep; cases hstep

theorem loop_stops {stop : Stop} (h : step s heap given st start = .error stop) :
    loop s heap given st start = .error stop := by
  rw [loop]
  split
  · next stop' hstep => rw [h] at hstep; cases hstep; rfl
  · next e' hstep => rw [h] at hstep; cases hstep
  · next st' text hstep => rw [h] at hstep; cases hstep

theorem loop_goes_on (h : step s heap given st start = .ok (.ok (st', text))) :
    loop s heap given st start = loop s heap given st' text := by
  rw [loop]
  split
  · next stop hstep => rw [h] at hstep; cases hstep
  · next e' hstep => rw [h] at hstep; cases hstep
  · next st'' text' hstep => rw [h] at hstep; cases hstep; rfl

/-- The walk stays in the buffer and comes to an end; when it does not fail, its way is the name
of a file, and when it does, there was a reason. -/
theorem loop_total (heap : Heap) {comps : List Str} (h : Walk s given st comps start) :
    ∃ e, loop s heap given st start = .ok e ∧ (e.errno ≠ none → Refuses s heap given) ∧
      (e.errno = none → Leads s given e) := by
  induction st, start using loop.induct s heap given generalizing comps with
  | case1 st start stop hstep =>
    rcases step_cases heap h with ⟨e, hcase, -⟩ | ⟨st', text, comps', hcase, -⟩
    · rw [hstep] at hcase
      cases hcase
    · rw [hstep] at hcase
      cases hcase
  | case2 st start e hstep =>
    rcases step_cases heap h with ⟨e', hcase, hended⟩ | ⟨st', text, comps', hcase, -⟩
    · rw [hstep] at hcase
      cases hcase
      exact ⟨e, loop_ends hstep, hended⟩
    · rw [hstep] at hcase
      cases hcase
  | case3 st start st' text hstep ih =>
    rcases step_cases heap h with ⟨e', hcase, -⟩ | ⟨st'', text', comps', hcase, hwalk⟩
    · rw [hstep] at hcase
      cases hcase
    · rw [hstep] at hcase
      cases hcase
      rw [loop_goes_on hstep]
      exact ih hwalk

end Loop

section Fixed

variable {s : System} {heap : Heap} {given : Bool} {st : State} {comps : List Str}
  {comp rest : Str}

theorem body_cons (comp : Str) (comps : List Str) :
    body (comp :: comps) = SLASH :: (comp ++ body comps) := rfl

theorem component_body (hcomp : Plain comp) (comps : List Str) :
    component (body (comp :: comps)) = comp ∧ behind (body (comp :: comps)) = body comps := by
  obtain ⟨c, t, hc⟩ := List.exists_cons_of_ne_nil hcomp.ne_nil
  have hsep : isSep c = false := hcomp.separators c (hc ▸ List.mem_cons_self)
  have hdrop : (body (comp :: comps)).dropWhile isSep = comp ++ body comps := by
    have hslash : isSep SLASH = true := rfl
    rw [body_cons, List.dropWhile_cons_of_pos hslash, hc, List.cons_append,
      List.dropWhile_cons_of_neg (Bool.eq_false_iff.mp hsep)]
  have hall : ∀ d ∈ comp, (!isSep d) = true := fun d hd => by rw [hcomp.separators d hd]; rfl
  have hstop : (body comps).takeWhile (fun d => !isSep d) = [] ∧
      (body comps).dropWhile (fun d => !isSep d) = body comps := by
    cases comps with
    | nil => exact ⟨rfl, rfl⟩
    | cons comp comps => exact ⟨rfl, rfl⟩
  refine ⟨?_, ?_⟩
  · rw [component, hdrop, List.takeWhile_append_of_pos hall, hstop.1, List.append_nil]
  · rw [behind, hdrop, List.dropWhile_append_of_pos hall, hstop.2]

theorem arrive_kept {kind : Kind} (hlstat : s.lstat (cstr st.rpath) = .ok kind)
    (hlink : kind ≠ .link) (hkind : kind = .directory ∨ rest = []) :
    arrive s st rest = .ok (.ok (st, rest)) := by
  rw [arrive, hlstat]
  cases kind with
  | directory => rfl
  | link => exact absurd rfl hlink
  | other => exact if_pos (hkind.resolve_left (by decide))

theorem name_of (e : Ended) (h : e.errno = none) : e.name = some (cstr e.rpath) := if_pos h

theorem loop_found (heap : Heap) {todo : List Str} (hrep : Rep given st comps)
    (htodo : ∀ comp ∈ todo, Plain comp) (hfound : Found s (comps ++ todo) [])
    (hfits : given = true → (render (comps ++ todo)).length < PATH_MAX) :
    ∃ e, loop s heap given st (body todo) = .ok e ∧
      (e.name = some (render (comps ++ todo)) ∨ given = false ∧ e.errno = some ENOMEM) := by
  induction todo generalizing st comps with
  | nil =>
    obtain ⟨e, hfinish, herrno, hname, -⟩ := hrep.finish
    have hnil : component (body []) = [] := rfl
    refine ⟨e, loop_ends (step_end hnil hfinish), Or.inl ?_⟩
    rw [name_of e herrno, hname, List.append_nil]
  | cons comp todo ih =>
    obtain ⟨hcomp, htodo⟩ := List.forall_mem_cons.mp htodo
    obtain ⟨hcomponent, hbehind⟩ := component_body hcomp todo
    have hsplit : comps ++ comp :: todo = comps ++ [comp] ++ todo := by
      rw [List.append_assoc, List.singleton_append]
    rw [hsplit] at hfound hfits ⊢
    have hunfold := step_file s heap given st (hcomponent.symm ▸ hcomp)
    rw [hcomponent, hbehind] at hunfold
    rcases hrep.enter heap hcomp with ⟨e, henter, hno⟩ | ⟨st', henter, hrep', hname⟩
    · rw [henter] at hunfold
      refine ⟨e, loop_ends hunfold, Or.inr ?_⟩
      rcases hno with ⟨hgiven, -, hlong⟩ | ⟨hgiven, herrno, -⟩
      · have hne : comps ++ [comp] ++ todo ≠ [] := by simp
        have hfits := hfits hgiven
        rw [render, if_neg hne, body, List.flatMap_append, List.length_append] at hfits
        rw [body] at hlong
        omega
      · exact ⟨hgiven, herrno⟩
    · obtain ⟨kind, hlstat, hlink, hkind⟩ := hfound (comps ++ [comp]) (List.prefix_append _ _)
        (List.append_ne_nil_of_right_ne_nil _ (List.cons_ne_nil _ _))
      have hrest : kind = .directory ∨ body todo = [] := by
        refine hkind.imp_right fun hlast => ?_
        rw [List.self_eq_append_right.mp hlast.1]
        rfl
      rw [henter, ok_bind] at hunfold
      dsimp only at hunfold
      rw [arrive_kept (hname ▸ hlstat) hlink hrest] at hunfold
      rw [loop_goes_on hunfold]
      exact ih hrep' htodo hfound hfits

theorem loop_along (heap : Heap) {todo : List Str} (hrep : Rep given st comps)
    (htodo : ∀ comp ∈ todo, Plain comp)
    (hfiles : ∀ front, front <+: todo → front ≠ [] →
      ∃ kind, s.lstat (render (comps ++ front)) = .ok kind ∧ kind ≠ .link) :
    ∃ e, loop s heap given st (body todo) = .ok e ∧
      ((∃ len, NoRoom heap given e len) ∨ e.errno = some ENOTDIR ∨
        ∀ front, front <+: todo → front ≠ [] → front ≠ todo →
          s.lstat (render (comps ++ front)) = .ok .directory) := by
  -- no link among the components, so that the name that is left only gets shorter
  induction todo generalizing st comps with
  | nil =>
    obtain ⟨e, hfinish, -⟩ := hrep.finish
    have hnil : component (body []) = [] := rfl
    refine ⟨e, loop_ends (step_end hnil hfinish), Or.inr (Or.inr fun front hfront hne => ?_)⟩
    exact absurd (List.prefix_nil.mp hfront) hne
  | cons comp todo ih =>
    obtain ⟨hcomp, htodo⟩ := List.forall_mem_cons.mp htodo
    obtain ⟨hcomponent, hbehind⟩ := component_body hcomp todo
    have hsplit : ∀ front, comps ++ comp :: front = comps ++ [comp] ++ front := by
      intro front
      rw [List.append_assoc, List.singleton_append]
    have hunfold := step_file s heap given st (hcomponent.symm ▸ hcomp)
    rw [hcomponent, hbehind] at hunfold
    rcases hrep.enter heap hcomp with ⟨e, henter, hno⟩ | ⟨st', henter, hrep', hname⟩
    · rw [henter] at hunfold
      exact ⟨e, loop_ends hunfold, Or.inl ⟨_, hno⟩⟩
    · rw [henter, ok_bind] at hunfold
      dsimp only at hunfold
      obtain ⟨kind, hlstat, hlink⟩ := hfiles [comp]
        (List.cons_prefix_cons.mpr ⟨rfl, List.nil_prefix⟩) (List.cons_ne_nil _ _)
      -- the walk goes on below a directory, or the name ends here
      by_cases hkind : kind = .directory ∨ body todo = []
      · rw [arrive_kept (hname ▸ hlstat) hlink hkind] at hunfold
        have hmore : ∀ front, front <+: todo → front ≠ [] →
            ∃ kind, s.lstat (render (comps ++ [comp] ++ front)) = .ok kind ∧ kind ≠ .link := by
          intro front hfront _
          rw [← hsplit]
          exact hfiles _ (List.cons_prefix_cons.mpr ⟨rfl, hfront⟩) (List.cons_ne_nil _ _)
        obtain ⟨e, hloop, hend⟩ := ih hrep' htodo hmore
        refine ⟨e, (loop_goes_on hunfold).trans hloop, hend.imp_right (Or.imp_right ?_)⟩
        intro hrest front hfront hne hnot
        obtain ⟨first, front, rfl⟩ := List.exists_cons_of_ne_nil hne
        obtain ⟨rfl, htail⟩ := List.cons_prefix_cons.mp hfront
        by_cases hfirst : front = []
        · subst hfirst
          have hmore : todo ≠ [] := fun h => hnot (by rw [h])
          have hbody : body todo ≠ [] := by
            obtain ⟨next, todo, rfl⟩ := List.exists_cons_of_ne_nil hmore
            exact List.cons_ne_nil _ _
          rw [hlstat, hkind.resolve_right hbody]
        · rw [hsplit]
          exact hrest front htail hfirst fun h => hnot (by rw [h])
      · obtain ⟨hdir, hrest⟩ := not_or.mp hkind
        have hother : kind = .other := by
          cases kind with
          | directory => exact absurd rfl hdir
          | link => exact absurd rfl hlink
          | other => rfl
        have harrive : arrive s st' (body todo) = .ok (.error ⟨some ENOTDIR, st'.rpath⟩) := by
          rw [arrive, hname, hlstat, hother]
          exact if_neg hrest
        rw [harrive] at hunfold
        exact ⟨_, loop_ends hunfold, Or.inr (Or.inl rfl)⟩

theorem render_inj {comps' : List Str} (h : ∀ comp ∈ comps, Plain comp)
    (h' : ∀ comp ∈ comps', Plain comp) (heq : render comps = render comps') : comps = comps' := by
  have hbody : ∀ comps comps' : List Str, (∀ comp ∈ comps, Plain comp) →
      (∀ comp ∈ comps', Plain comp) → body comps = body comps' → comps = comps' := by
    intro comps
    induction comps with
    | nil =>
      intro comps' _ _ heq
      cases comps' with
      | nil => rfl
      | cons comp comps' => cases heq
    | cons comp comps ih =>
      intro comps' h h' heq
      cases comps' with
      | nil => cases heq
      | cons comp' comps' =>
        obtain ⟨hcomp, hcomps⟩ := List.forall_mem_cons.mp h
        obtain ⟨hcomp', hcomps'⟩ := List.forall_mem_cons.mp h'
        obtain ⟨hfirst, hrest⟩ := component_body hcomp comps
        obtain ⟨hfirst', hrest'⟩ := component_body hcomp' comps'
        rw [heq] at hfirst hrest
        rw [hfirst'] at hfirst
        rw [hrest'] at hrest
        rw [hfirst, ih comps' hcomps hcomps' hrest.symm]
  have hroot : ∀ comps : List Str, (∀ comp ∈ comps, Plain comp) → body comps ≠ [SLASH] := by
    intro comps h heq
    cases comps with
    | nil => cases heq
    | cons comp comps =>
      obtain ⟨-, htail⟩ := List.cons.inj heq
      exact (List.forall_mem_cons.mp h).1.ne_nil (List.append_eq_nil_iff.mp htail).1
  unfold render at heq
  split_ifs at heq with hnil hnil' hnil'
  · rw [hnil, hnil']
  · exact absurd heq.symm (hroot comps' h')
  · exact absurd heq (hroot comps h)
  · exact hbody comps comps' h h' heq

end Fixed

section Begin

variable {s : System} {given : Bool} {rpath name : Str}

theorem getcwd_room {σ : Sys} {k : NameRoom.Kernel} {written : Option (Str × ℕ)}
    {err : Option ℤ} (h : getcwd σ k true PATH_MAX = (written, err)) :
    (written = none → err ≠ none) ∧ ∀ t room, written = some (t, room) → t.length < PATH_MAX := by
  unfold getcwd at h
  by_cases hmalloc : k.malloc (pathLength PATH_MAX) = false
  · rw [if_pos hmalloc] at h
    cases h
    exact ⟨fun _ => Option.some_ne_none _, fun t room ht => nomatch ht⟩
  · rw [if_neg hmalloc] at h
    dsimp only at h
    have hbuf : ∀ p : Prop, ¬ (true = false ∧ p) := fun p h => Bool.false_ne_true h.1.symm
    rw [if_neg (hbuf _), if_neg (hbuf _)] at h
    cases hcwd : k.cwd (pathLength PATH_MAX - 2) with
    | error r =>
      rw [hcwd] at h
      cases h
      exact ⟨fun _ => Option.some_ne_none _, fun t room ht => nomatch ht⟩
    | ok path =>
      rw [hcwd] at h
      dsimp only at h
      obtain ⟨rfl, -⟩ := Prod.mk.inj h
      refine ⟨fun hnone => absurd hnone (Option.some_ne_none _), fun t room ht => ?_⟩
      obtain ⟨rfl, -⟩ := Prod.mk.inj (Option.some.inj ht)
      have hmax : PATH_MAX = 1024 := rfl
      rw [Symlink.dos2unx_take (by omega) (by omega), List.length_take]
      omega

theorem currentDirectory_rep {t : Str} {room : ℕ} {comps : List Str}
    (hsize : rpath.length = PATH_MAX)
    (hcall : getcwd s.names s.kernel true PATH_MAX = (some (t, room), none))
    (hpath : IsPath t comps) (hplain : ∀ comp ∈ comps, Plain comp) (given : Bool) :
    ∃ st, currentDirectory s rpath = .ok (.ok st) ∧ Rep given st comps := by
  have hshort := (getcwd_room hcall).2 t room rfl
  have hfit : ([] : Str).length + t.length < rpath.length := by
    rw [List.length_nil, hsize]
    omega
  obtain ⟨b, hcopy, hb⟩ := (Written.start rpath rpath.length).strcpy t hfit le_rfl
  rw [List.length_nil] at hcopy
  rw [List.nil_append] at hb
  have hlong : b.length = PATH_MAX := hb.length.trans hsize
  have hclean : (0 : UInt8) ∉ t := by
    rcases hpath with rfl | ⟨-, rfl⟩
    · intro hmem
      rcases List.mem_append.mp hmem with hmem | hmem
      · exact body_clean hplain hmem
      · exact absurd hmem (by decide)
    · exact body_clean hplain
  have hcstr : cstr b = t := cstr_prefix hb.head hclean
  refine ⟨⟨b, t.length, 0⟩, ?_, hplain, ⟨t, hpath, ?_, rfl⟩, ?_, fun _ => hlong⟩
  · rw [currentDirectory, hcall]
    dsimp only
    rw [hcopy, ok_bind, hcstr]
  · exact (List.prefix_append _ _).trans hb.head
  · show t.length < b.length
    omega

theorem currentDirectory_cases (hsettled : Settled s) (hsize : rpath.length = PATH_MAX)
    (given : Bool) (text : Str) :
    (∃ e, currentDirectory s rpath = .ok (.error e) ∧ e.errno ≠ none) ∨
      ∃ st comps, currentDirectory s rpath = .ok (.ok st) ∧ Rep given st comps ∧
        Found s comps text := by
  cases hcall : getcwd s.names s.kernel true PATH_MAX with
  | mk written err =>
    obtain ⟨hnone, hlength⟩ := getcwd_room hcall
    have hmax : 0 < PATH_MAX := by decide
    cases written with
    | none =>
      left
      obtain ⟨errno, rfl⟩ := Option.ne_none_iff_exists'.mp (hnone rfl)
      have hstore : store rpath 0 0 = .ok (rpath.set 0 0) := if_pos (hsize ▸ hmax)
      refine ⟨⟨some errno, rpath.set 0 0⟩, ?_, Option.some_ne_none _⟩
      rw [currentDirectory, hcall]
      dsimp only
      rw [ok_bind, hstore]
      rfl
    | some p =>
      obtain ⟨t, room⟩ := p
      cases err with
      | some errno =>
        left
        have hfit : ([] : Str).length + t.length < rpath.length := by
          rw [List.length_nil, hsize, Nat.zero_add]
          exact hlength t room rfl
        obtain ⟨b, hcopy, hb⟩ := (Written.start rpath rpath.length).strcpy t hfit le_rfl
        rw [List.length_nil] at hcopy
        have hstore : store b 0 0 = .ok (b.set 0 0) := if_pos (hb.length.trans hsize ▸ hmax)
        refine ⟨⟨some errno, b.set 0 0⟩, ?_, Option.some_ne_none _⟩
        rw [currentDirectory, hcall]
        dsimp only
        rw [hcopy, ok_bind, hstore]
        rfl
      | none =>
        right
        obtain ⟨comps, hpath, hplain, hfound⟩ := hsettled t room hcall
        obtain ⟨st, hcwd, hrep⟩ := currentDirectory_rep hsize hcall hpath hplain given
        exact ⟨st, comps, hcwd, hrep, hfound text⟩

theorem begin_root (hsize : rpath.length = PATH_MAX) (h : name.headD 0 = SLASH) (given : Bool) :
    ∃ st, begin s rpath name = .ok (.ok st) ∧ Rep given st [] := by
  have hmax : PATH_MAX = 1024 := rfl
  have hpos : ([] : Str).length < rpath.length := by
    rw [List.length_nil, hsize]
    omega
  obtain ⟨b, hstore, hb, hlength⟩ := store_prefix List.nil_prefix hpos SLASH
  have hslash : ¬ (name.headD 0 ≠ SLASH ∨ name.headD 0 = BACKSLASH) := by
    rw [h]
    decide
  refine ⟨⟨b, 1, 0⟩, ?_, ⟨fun comp hcomp => absurd hcomp List.not_mem_nil,
    ⟨[SLASH], Or.inl rfl, hb, rfl⟩, ?_, fun _ => hlength.trans hsize⟩⟩
  · rw [begin, if_neg hslash, show store rpath 0 SLASH = .ok b from hstore]
    rfl
  · show 1 < b.length
    omega

end Begin

def SameChar (c d : UInt8) : Prop := c = d ∨ isSep c = true ∧ isSep d = true

def Alike (a b : Str) : Prop := List.Forall₂ SameChar a b

section Alike

variable {a b : Str} {s : System} {heap : Heap} {given : Bool} {st : State}

theorem SameChar.isSep_eq {c d : UInt8} (h : SameChar c d) : isSep c = isSep d := by
  rcases h with rfl | ⟨hc, hd⟩
  · rfl
  · rw [hc, hd]

theorem Alike.refl (a : Str) : Alike a a := by
  induction a with
  | nil => exact .nil
  | cons c a ih => exact .cons (Or.inl rfl) ih

theorem Alike.append {c d : Str} (h : Alike a b) (h' : Alike c d) : Alike (a ++ c) (b ++ d) := by
  induction h with
  | nil => exact h'
  | cons hc _ ih => exact .cons hc ih

theorem Alike.nil_iff (h : Alike a b) : a = [] ↔ b = [] := by
  rw [← List.length_eq_zero_iff, ← List.length_eq_zero_iff, h.length_eq]

theorem Alike.dropSeps (h : Alike a b) : Alike (a.dropWhile isSep) (b.dropWhile isSep) := by
  induction h with
  | nil => exact .nil
  | @cons c d a b hc hrest ih =>
    have hsep := hc.isSep_eq
    by_cases hd : isSep d = true
    · rw [List.dropWhile_cons_of_pos (hsep.trans hd), List.dropWhile_cons_of_pos hd]
      exact ih
    · rw [List.dropWhile_cons_of_neg (hsep ▸ hd), List.dropWhile_cons_of_neg hd]
      exact .cons hc hrest

theorem Alike.first (h : Alike a b) :
    a.takeWhile (fun c => !isSep c) = b.takeWhile (fun c => !isSep c) ∧
      Alike (a.dropWhile fun c => !isSep c) (b.dropWhile fun c => !isSep c) := by
  induction h with
  | nil => exact ⟨rfl, .nil⟩
  | @cons c d a b hc hrest ih =>
    rcases hc with rfl | ⟨hc, hd⟩
    · cases hsep : isSep c with
      | true => simp only [List.takeWhile_cons, List.dropWhile_cons, hsep, Bool.not_true,
          Bool.false_eq_true, if_false, true_and]; exact .cons (Or.inl rfl) hrest
      | false => simp only [List.takeWhile_cons, List.dropWhile_cons, hsep, Bool.not_false,
          if_true, List.cons.injEq, true_and]; exact ih
    · simp only [List.takeWhile_cons, List.dropWhile_cons, hc, hd, Bool.not_true,
        Bool.false_eq_true, if_false, true_and]
      exact .cons (Or.inr ⟨hc, hd⟩) hrest

/-- The loop goes on with names that are alike, or comes to the same end. -/
def SameStep (x y : Except Stop (Except Ended (State × Str))) : Prop :=
  (∃ st t t', x = .ok (.ok (st, t)) ∧ y = .ok (.ok (st, t')) ∧ Alike t t') ∨
    x = y ∧ ∀ next, x ≠ .ok (.ok next)

theorem arrive_alike (s : System) (st : State) (h : Alike a b) :
    SameStep (arrive s st a) (arrive s st b) := by
  unfold arrive
  cases s.lstat (cstr st.rpath) with
  | error errno => exact Or.inr ⟨rfl, fun next heq => nomatch heq⟩
  | ok kind =>
    cases kind with
    | directory => exact Or.inl ⟨st, a, b, rfl, rfl, h⟩
    | other =>
      by_cases hnil : a = []
      · left
        exact ⟨st, a, b, if_pos hnil, if_pos (h.nil_iff.mp hnil), h⟩
      · right
        dsimp only
        rw [if_neg hnil, if_neg (mt h.nil_iff.mpr hnil)]
        exact ⟨rfl, fun next heq => nomatch heq⟩
    | link =>
      dsimp only
      unfold follow
      dsimp only
      rw [h.length_eq]
      by_cases hlinks : MAXSYMLINKS < st.num_links + 1
      · rw [if_pos hlinks, if_pos hlinks]
        exact Or.inr ⟨rfl, fun next heq => nomatch heq⟩
      · rw [if_neg hlinks, if_neg hlinks]
        cases s.readlink (cstr st.rpath) with
        | error errno => exact Or.inr ⟨rfl, fun next heq => nomatch heq⟩
        | ok target =>
          dsimp only
          by_cases hlong : PATH_MAX ≤ (target.1.take (PATH_MAX - 1)).length + b.length
          · rw [if_pos hlong, if_pos hlong]
            exact Or.inr ⟨rfl, fun next heq => nomatch heq⟩
          · rw [if_neg hlong, if_neg hlong]
            cases targetDest st (target.1.take (PATH_MAX - 1)) with
            | error stop => exact Or.inr ⟨rfl, fun next heq => nomatch heq⟩
            | ok dest => exact Or.inl ⟨_, _, _, rfl, rfl, (Alike.refl _).append h⟩

theorem step_alike (s : System) (heap : Heap) (given : Bool) (st : State) (h : Alike a b) :
    SameStep (step s heap given st a) (step s heap given st b) := by
  obtain ⟨hcomponent, hbehind⟩ := h.dropSeps.first
  have hsame : component a = component b := hcomponent
  have hrest : Alike (behind a) (behind b) := hbehind
  unfold step
  rw [hsame]
  by_cases hnil : component b = []
  · rw [if_pos hnil, if_pos hnil]
    cases finish st with
    | error stop => exact Or.inr ⟨rfl, fun next heq => nomatch heq⟩
    | ok e => exact Or.inr ⟨rfl, fun next heq => nomatch heq⟩
  · rw [if_neg hnil, if_neg hnil]
    by_cases hdot : component b = [DOT]
    · rw [if_pos hdot, if_pos hdot]
      exact Or.inl ⟨st, _, _, rfl, rfl, hrest⟩
    · rw [if_neg hdot, if_neg hdot]
      by_cases hdots : component b = [DOT, DOT]
      · rw [if_pos hdots, if_pos hdots]
        cases backUp st.rpath st.dest with
        | error stop => exact Or.inr ⟨rfl, fun next heq => nomatch heq⟩
        | ok dest => exact Or.inl ⟨_, _, _, rfl, rfl, hrest⟩
      · rw [if_neg hdots, if_neg hdots]
        cases enter heap given st (component b) with
        | error stop => exact Or.inr ⟨rfl, fun next heq => nomatch heq⟩
        | ok entered =>
          cases entered with
          | error e => exact Or.inr ⟨rfl, fun next heq => nomatch heq⟩
          | ok st => exact arrive_alike s st hrest

theorem loop_alike (h : Alike a b) : loop s heap given st a = loop s heap given st b := by
  induction st, a using loop.induct s heap given generalizing b with
  | case1 st a stop hstep =>
    rcases step_alike s heap given st h with ⟨st', t, t', ha, -⟩ | ⟨hsame, -⟩
    · rw [hstep] at ha
      cases ha
    · rw [loop_stops hstep, loop_stops (hsame ▸ hstep)]
  | case2 st a e hstep =>
    rcases step_alike s heap given st h with ⟨st', t, t', ha, -⟩ | ⟨hsame, -⟩
    · rw [hstep] at ha
      cases ha
    · rw [loop_ends hstep, loop_ends (hsame ▸ hstep)]
  | case3 st a st' text hstep ih =>
    rcases step_alike s heap given st h with ⟨st'', t, t', ha, hb, halike⟩ | ⟨-, hnone⟩
    · rw [hstep] at ha
      cases ha
      rw [loop_goes_on hstep, loop_goes_on hb]
      exact ih halike
    · exact absurd hstep (hnone _)

end Alike

/-- `realpath` returns this string for a name. -/
def Gives (s : System) (heap : Heap) (resolved : Option Buffer) (name r : Str) : Prop :=
  ∃ e, realpath s heap (some name) resolved = .ok e ∧ e.name = some r

/-- `realpath` allocates the buffer itself, and there is not enough memory. -/
def OutOfMemory (s : System) (heap : Heap) (resolved : Option Buffer) (name : Str) : Prop :=
  resolved = none ∧ ∃ e, realpath s heap (some name) resolved = .ok e ∧ e.errno = some ENOMEM

/-- An absolute name without empty components, `.` and `..`, without a separator at its end unless
it is the root, and without a link on the way to the file or in its place. -/
def Canonical (s : System) (r : Str) : Prop :=
  ∃ comps, r = render comps ∧ (∀ comp ∈ comps, Plain comp) ∧
    ∀ front, front <+: comps → front ≠ [] →
      ∃ kind, s.lstat (render front) = .ok kind ∧ kind ≠ .link

/-- What is promised for one name: the call ends without a store outside the buffer; what is
returned is canonical, and for it the same is returned, in any buffer that is large enough. -/
structure Sound (s : System) (heap : Heap) (resolved : Option Buffer) (name : Str) : Prop where
  ends : ∃ e, realpath s heap (some name) resolved = .ok e
  canonical : ∀ r, Gives s heap resolved name r → Canonical s r
  fits : ∀ r, Gives s heap resolved name r → resolved.isSome = true → r.length < PATH_MAX
  fixed : ∀ r, Gives s heap resolved name r → ∀ heap' resolved',
    (resolved'.isSome = true → r.length < PATH_MAX) →
      Gives s heap' resolved' r r ∨ OutOfMemory s heap' resolved' r

/-- All that is promised: and the choice of the separators makes no difference. -/
def Promise (s : System) (name : Str) : Prop :=
  ∀ heap resolved, Sound s heap resolved name ∧
    ∀ name', Alike name name' → ∀ r, Gives s heap resolved name' r ↔ Gives s heap resolved name r

section Result

variable {s : System} {heap : Heap} {resolved : Option Buffer} {name : Str}

theorem buffer_length {rpath : Str}
    (h : (resolved.map Subtype.val).or (heap.malloc PATH_MAX) = some rpath) :
    rpath.length = PATH_MAX := by
  cases resolved with
  | none => exact heap.malloc_length _ _ h
  | some b =>
    rw [← Option.some.inj h]
    exact b.2

theorem realpath_none (hne : name ≠ [])
    (h : (resolved.map Subtype.val).or (heap.malloc PATH_MAX) = none) :
    realpath s heap (some name) resolved = .ok ⟨some ENOMEM, []⟩ := by
  unfold realpath
  dsimp only
  rw [if_neg hne, h]

theorem realpath_some {rpath : Str} (hne : name ≠ [])
    (h : (resolved.map Subtype.val).or (heap.malloc PATH_MAX) = some rpath) :
    realpath s heap (some name) resolved = (begin s rpath name >>= fun begun => match begun with
      | .error e => .ok e
      | .ok st => loop s heap resolved.isSome st name) := by
  unfold realpath
  dsimp only
  rw [if_neg hne, h]

theorem begin_cases {rpath : Str} (hfrom : name.headD 0 = SLASH ∨ Settled s)
    (hsize : rpath.length = PATH_MAX) (given : Bool)
    (hclean : (0 : UInt8) ∉ name) :
    (∃ e, begin s rpath name = .ok (.error e) ∧ e.errno ≠ none ∧ name.headD 0 ≠ SLASH) ∨
      ∃ st comps, begin s rpath name = .ok (.ok st) ∧ Walk s given st comps name := by
  by_cases hslash : name.headD 0 = SLASH
  · right
    obtain ⟨st, hbegin, hrep⟩ := begin_root (s := s) hsize hslash given
    refine ⟨st, [], hbegin, hrep, ?_, hclean⟩
    intro front hfront hne
    exact absurd (List.prefix_nil.mp hfront) hne
  · have hbegin : begin s rpath name = currentDirectory s rpath := if_pos (Or.inl hslash)
    rw [hbegin]
    rcases currentDirectory_cases (hfrom.resolve_left hslash) hsize given name with
      ⟨e, hcwd, herrno⟩ | ⟨st, comps, hcwd, hrep, hfound⟩
    · exact Or.inl ⟨e, hcwd, herrno, hslash⟩
    · exact Or.inr ⟨st, comps, hcwd, hrep, hfound, hclean⟩

/-- The call ends; when a name is returned, it leads to a file, and when none is for a name that
begins with a `/`, there was a reason. -/
theorem realpath_total (s : System) (heap : Heap) (resolved : Option Buffer)
    (hfrom : name.headD 0 = SLASH ∨ Settled s) (hclean : (0 : UInt8) ∉ name) :
    ∃ e, realpath s heap (some name) resolved = .ok e ∧
      (e.errno = none → Leads s resolved.isSome e) ∧
      (e.errno ≠ none → name.headD 0 = SLASH →
        heap.malloc PATH_MAX = none ∨ Refuses s heap resolved.isSome) := by
  by_cases hne : name = []
  · refine ⟨⟨some ENOENT, (resolved.map Subtype.val).getD []⟩, ?_,
      fun h => absurd h (Option.some_ne_none _), fun _ h => ?_⟩
    · unfold realpath
      dsimp only
      rw [if_pos hne]
    · rw [hne] at h
      exact absurd h (by decide)
  · cases hbuffer : (resolved.map Subtype.val).or (heap.malloc PATH_MAX) with
    | none =>
      refine ⟨_, realpath_none hne hbuffer, fun h => absurd h (Option.some_ne_none _),
        fun _ _ => Or.inl ?_⟩
      exact (Option.or_eq_none_iff.mp hbuffer).2
    | some rpath =>
      rw [realpath_some hne hbuffer]
      rcases begin_cases hfrom (buffer_length hbuffer) resolved.isSome hclean with
        ⟨e, hbegin, herrno, hslash⟩ | ⟨st, comps, hbegin, hwalk⟩
      · rw [hbegin]
        exact ⟨e, rfl, fun h => absurd h herrno, fun _ h => absurd h hslash⟩
      · obtain ⟨e, hloop, hrefuses, hleads⟩ := loop_total heap hwalk
        rw [hbegin]
        exact ⟨e, hloop, hleads, fun h _ => Or.inr (hrefuses h)⟩

theorem gives_iff {e : Ended} {r : Str} (h : realpath s heap (some name) resolved = .ok e) :
    Gives s heap resolved name r ↔ e.errno = none ∧ cstr e.rpath = r := by
  constructor
  · rintro ⟨e', he', hname⟩
    rw [h] at he'
    cases he'
    unfold Ended.name at hname
    split_ifs at hname with herrno
    exact ⟨herrno, Option.some.inj hname⟩
  · rintro ⟨herrno, rfl⟩
    exact ⟨e, h, name_of e herrno⟩

theorem render_ne_nil (comps : List Str) : render comps ≠ [] ∧ (render comps).headD 0 = SLASH := by
  cases comps with
  | nil => exact ⟨List.cons_ne_nil _ _, rfl⟩
  | cons comp comps => exact ⟨List.cons_ne_nil _ _, rfl⟩

theorem render_fixed (s : System) (heap : Heap) (resolved : Option Buffer) {comps : List Str}
    (hplain : ∀ comp ∈ comps, Plain comp) (hfound : Found s comps [])
    (hfits : resolved.isSome = true → (render comps).length < PATH_MAX) :
    Gives s heap resolved (render comps) (render comps) ∨
      OutOfMemory s heap resolved (render comps) := by
  obtain ⟨hne, hslash⟩ := render_ne_nil comps
  cases hbuffer : (resolved.map Subtype.val).or (heap.malloc PATH_MAX) with
  | none =>
    right
    refine ⟨?_, _, realpath_none hne hbuffer, rfl⟩
    exact Option.map_eq_none_iff.mp (Option.or_eq_none_iff.mp hbuffer).1
  | some rpath =>
    obtain ⟨st, hbegin, hrep⟩ :=
      begin_root (s := s) (buffer_length hbuffer) hslash resolved.isSome
    have hloop : ∃ e, loop s heap resolved.isSome st (render comps) = .ok e ∧
        (e.name = some (render comps) ∨ resolved.isSome = false ∧ e.errno = some ENOMEM) := by
      by_cases hnil : comps = []
      · subst hnil
        obtain ⟨e, hfinish, herrno, hname, -⟩ := hrep.finish
        have hroot : component (render []) = [] := rfl
        refine ⟨e, loop_ends (step_end hroot hfinish), Or.inl ?_⟩
        rw [name_of e herrno, hname]
      · have hbody : render comps = body comps := if_neg hnil
        rw [hbody] at hfits ⊢
        have h := loop_found heap hrep hplain hfound (by rwa [List.nil_append, hbody])
        rwa [List.nil_append, hbody] at h
    obtain ⟨e, hloop, hend⟩ := hloop
    have hcall : realpath s heap (some (render comps)) resolved = .ok e := by
      rw [realpath_some hne hbuffer, hbegin]
      exact hloop
    rcases hend with hname | ⟨hgiven, herrno⟩
    · exact Or.inl ⟨e, hcall, hname⟩
    · have hnone := Option.not_isSome_iff_eq_none.mp (Bool.eq_false_iff.mp hgiven)
      exact Or.inr ⟨hnone, e, hcall, herrno⟩

theorem sound (s : System) (heap : Heap) (resolved : Option Buffer)
    (hfrom : name.headD 0 = SLASH ∨ Settled s) (hclean : (0 : UInt8) ∉ name) :
    Sound s heap resolved name := by
  obtain ⟨e, hcall, hleads, -⟩ := realpath_total s heap resolved hfrom hclean
  have hresult : ∀ r, Gives s heap resolved name r → ∃ comps, (∀ comp ∈ comps, Plain comp) ∧
      Found s comps [] ∧ r = render comps ∧
      (resolved.isSome = true → (render comps).length < PATH_MAX) := by
    intro r hr
    obtain ⟨herrno, rfl⟩ := (gives_iff hcall).mp hr
    exact hleads herrno
  refine ⟨⟨e, hcall⟩, ?_, ?_, ?_⟩
  · intro r hr
    obtain ⟨comps, hplain, hfound, rfl, -⟩ := hresult r hr
    refine ⟨comps, rfl, hplain, fun front hfront hne => ?_⟩
    obtain ⟨kind, hlstat, hlink, -⟩ := hfound front hfront hne
    exact ⟨kind, hlstat, hlink⟩
  · intro r hr hgiven
    obtain ⟨comps, -, -, rfl, hfits⟩ := hresult r hr
    exact hfits hgiven
  · intro r hr heap' resolved' hfits
    obtain ⟨comps, hplain, hfound, rfl, -⟩ := hresult r hr
    exact render_fixed s heap' resolved' hplain hfound hfits

theorem realpath_alike {name' : Str} (h : Alike name name')
    (hfirst : name.headD 0 = SLASH ↔ name'.headD 0 = SLASH) :
    realpath s heap (some name) resolved = realpath s heap (some name') resolved := by
  by_cases hne : name = []
  · rw [hne, h.nil_iff.mp hne]
  · have hne' : name' ≠ [] := mt h.nil_iff.mpr hne
    cases hbuffer : (resolved.map Subtype.val).or (heap.malloc PATH_MAX) with
    | none => rw [realpath_none hne hbuffer, realpath_none hne' hbuffer]
    | some rpath =>
      have hbegin : begin s rpath name = begin s rpath name' := by
        unfold begin
        by_cases hslash : name.headD 0 = SLASH
        · rw [hslash, hfirst.mp hslash]
        · rw [if_pos (Or.inl hslash), if_pos (Or.inl (mt hfirst.mpr hslash))]
      rw [realpath_some hne hbuffer, realpath_some hne' hbuffer, hbegin]
      congr 1
      funext begun
      cases begun with
      | error e => rfl
      | ok st => exact loop_alike h

end Result

def removedKernel : NameRoom.Kernel where
  drv := 117
  dgetcwd := fun _ => .error ENOENT
  dgetpath := []
  malloc := fun _ => true

def removed : System where
  lstat := fun _ => .ok .directory
  readlink := fun _ => .error EINVAL
  names := ⟨117, 0⟩
  kernel := removedKernel

theorem removed_call : getcwd removed.names removed.kernel true PATH_MAX = (none, some ENOENT) := rfl

theorem removed_settled : Settled removed := by
  intro t room h
  rw [removed_call] at h
  cases h

def plenty : Heap where
  malloc := fun n => some (List.replicate n 0)
  realloc := fun b n => some ((b ++ List.replicate n 0).take n)
  malloc_length := fun n b h => by
    rw [← Option.some.inj h, List.length_replicate]
  realloc_length := fun b n b' h => by
    rw [← Option.some.inj h, List.length_take, List.length_append, List.length_replicate]
    omega
  keeps := fun b n b' h => by
    rw [← Option.some.inj h, List.take_append]
    exact List.prefix_append _ _

theorem removed_gives {name : Str} (hclean : (0 : UInt8) ∉ name) (h : name.headD 0 = SLASH) :
    ∃ r, Gives removed plenty none name r := by
  obtain ⟨e, hcall, -, hrefuses⟩ := realpath_total removed plenty none (Or.inl h) hclean
  by_cases herrno : e.errno = none
  · exact ⟨_, (gives_iff hcall).mpr ⟨herrno, rfl⟩⟩
  · rcases hrefuses herrno h with hmalloc | hgiven | ⟨b, n, hrealloc⟩ | ⟨path, hlstat⟩
    · cases hmalloc
    · cases hgiven
    · cases hrealloc
    · exact absurd rfl hlstat

theorem removed_fails {name : Str} (h : name.headD 0 ≠ SLASH) (r : Str) :
    ¬ Gives removed plenty none name r := by
  by_cases hne : name = []
  · intro hgives
    obtain ⟨herrno, -⟩ := (gives_iff (e := ⟨some ENOENT, []⟩) (by rw [hne]; rfl)).mp hgives
    cases herrno
  · have hbuffer : (Option.map Subtype.val (none : Option Buffer)).or (plenty.malloc PATH_MAX) =
        some (List.replicate PATH_MAX 0) := rfl
    have hpos : 0 < (List.replicate PATH_MAX (0 : UInt8)).length := by
      rw [List.length_replicate]
      decide
    have hstore : store (List.replicate PATH_MAX (0 : UInt8)) 0 0 =
        .ok ((List.replicate PATH_MAX 0).set 0 0) := store_ok hpos 0
    have hcall : realpath removed plenty (some name) none =
        .ok ⟨some ENOENT, (List.replicate PATH_MAX 0).set 0 0⟩ := by
      rw [realpath_some hne hbuffer, begin, if_pos (Or.inl h), currentDirectory, removed_call]
      dsimp only
      rw [ok_bind, hstore]
      rfl
    intro hgives
    obtain ⟨herrno, -⟩ := (gives_iff hcall).mp hgives
    cases herrno

/-- Names that are alike give the same everywhere just if both begin with a `/`, or none. -/
theorem same_iff {name name' : Str} (hclean : (0 : UInt8) ∉ name) (hclean' : (0 : UInt8) ∉ name')
    (h : Alike name name') :
    (∀ s, Settled s → ∀ heap resolved r,
        Gives s heap resolved name' r ↔ Gives s heap resolved name r) ↔
      (name.headD 0 = SLASH ↔ name'.headD 0 = SLASH) := by
  constructor
  · intro hsame
    constructor
    · intro hslash
      by_contra hslash'
      obtain ⟨r, hr⟩ := removed_gives hclean hslash
      exact removed_fails hslash' r ((hsame _ removed_settled _ _ r).mpr hr)
    · intro hslash'
      by_contra hslash
      obtain ⟨r, hr⟩ := removed_gives hclean' hslash'
      exact removed_fails hslash r ((hsame _ removed_settled _ _ r).mp hr)
  · intro hfirst s _ heap resolved r
    unfold Gives
    rw [realpath_alike h hfirst]

theorem Alike.clean {a b : Str} (h : Alike a b) (hclean : (0 : UInt8) ∉ a) : (0 : UInt8) ∉ b := by
  induction h with
  | nil => exact List.not_mem_nil
  | @cons c d a b hc _ ih =>
    obtain ⟨hne, ha⟩ := not_or.mp (mt List.mem_cons.mpr hclean)
    intro hmem
    rcases List.mem_cons.mp hmem with rfl | hmem
    · rcases hc with rfl | ⟨-, hd⟩
      · exact hne rfl
      · exact absurd hd (by decide)
    · exact ih ha hmem

/-- Of a name that is not absolute all that is promised is kept, if the current directory is settled. -/
theorem promise_of_settled {s : System} {name : Str} (hsettled : Settled s)
    (hclean : (0 : UInt8) ∉ name) (hrelative : ¬ Absolute name) : Promise s name := by
  intro heap resolved
  refine ⟨sound s heap resolved (Or.inr hsettled) hclean, fun name' halike r => ?_⟩
  have hfirst : name.headD 0 = SLASH ↔ name'.headD 0 = SLASH := by
    cases halike with
    | nil => rfl
    | @cons c d a b hc hrest =>
      rcases hc with rfl | ⟨hc, -⟩
      · rfl
      · exact absurd ⟨c, a, rfl, hc⟩ hrelative
  exact (same_iff hclean (halike.clean hclean) halike).mpr hfirst s hsettled heap resolved r

section Current

variable {s : System} {comps : List Str} {t : Str} {room : ℕ}

theorem realpath_plenty {name : Str} (hne : name ≠ []) {st : State}
    (hbegin : begin s (List.replicate PATH_MAX 0) name = .ok (.ok st)) :
    realpath s plenty (some name) none = loop s plenty false st name := by
  have hbuffer : (Option.map Subtype.val (none : Option Buffer)).or (plenty.malloc PATH_MAX) =
      some (List.replicate PATH_MAX 0) := rfl
  rw [realpath_some hne hbuffer, hbegin]
  rfl

theorem plenty_room {e : Ended} {len : ℕ} : ¬ NoRoom plenty false e len := by
  rintro (⟨hgiven, -⟩ | ⟨-, -, b, n, hrealloc⟩)
  · cases hgiven
  · cases hrealloc

theorem begin_relative {name : Str} (hslash : name.headD 0 ≠ SLASH)
    (hcall : getcwd s.names s.kernel true PATH_MAX = (some (t, room), none))
    (hpath : IsPath t comps) (hplain : ∀ comp ∈ comps, Plain comp) :
    ∃ st, begin s (List.replicate PATH_MAX 0) name = .ok (.ok st) ∧ Rep false st comps := by
  obtain ⟨st, hcwd, hrep⟩ :=
    currentDirectory_rep (s := s) List.length_replicate hcall hpath hplain false
  exact ⟨st, (if_pos (Or.inl hslash)).trans hcwd, hrep⟩

theorem gives_dot (hcall : getcwd s.names s.kernel true PATH_MAX = (some (t, room), none))
    (hpath : IsPath t comps) (hplain : ∀ comp ∈ comps, Plain comp) :
    Gives s plenty none [DOT] (render comps) := by
  have hslash : ([DOT] : Str).headD 0 ≠ SLASH := by decide
  obtain ⟨st, hbegin, hrep⟩ := begin_relative hslash hcall hpath hplain
  obtain ⟨e, hfinish, herrno, hname, -⟩ := hrep.finish
  have hstep : step s plenty false st [DOT] = .ok (.ok (st, [])) := rfl
  have hnil : component [] = [] := rfl
  refine ⟨e, ?_, by rw [name_of e herrno, hname]⟩
  rw [realpath_plenty (List.cons_ne_nil _ _) hbegin, loop_goes_on hstep]
  exact loop_ends (step_end hnil hfinish)

theorem plain_relative {comp : Str} (h : Plain comp) : ¬ Absolute comp := by
  rintro ⟨c, rest, rfl, hc⟩
  rw [h.separators c List.mem_cons_self] at hc
  cases hc

theorem gives_file {comp : Str} {kind : Kind}
    (hcall : getcwd s.names s.kernel true PATH_MAX = (some (t, room), none))
    (hpath : IsPath t comps) (hplain : ∀ comp ∈ comps, Plain comp) (hcomp : Plain comp)
    (hlstat : s.lstat (render (comps ++ [comp])) = .ok kind) (hlink : kind ≠ .link) :
    Gives s plenty none comp (render (comps ++ [comp])) := by
  have hslash : comp.headD 0 ≠ SLASH := by
    intro h
    obtain ⟨c, rest, rfl⟩ := List.exists_cons_of_ne_nil hcomp.ne_nil
    have hc : c = SLASH := h
    exact plain_relative hcomp ⟨c, rest, rfl, by rw [hc]; rfl⟩
  obtain ⟨st, hbegin, hrep⟩ := begin_relative hslash hcall hpath hplain
  have hdrop : comp.dropWhile isSep = comp := by
    obtain ⟨c, rest, rfl⟩ := List.exists_cons_of_ne_nil hcomp.ne_nil
    have hsep := hcomp.separators c List.mem_cons_self
    exact List.dropWhile_cons_of_neg (Bool.eq_false_iff.mp hsep)
  have hall : ∀ d ∈ comp, (!isSep d) = true := fun d hd => by rw [hcomp.separators d hd]; rfl
  have hcomponent : component comp = comp := by
    rw [component, hdrop]
    exact List.takeWhile_eq_self_iff.mpr hall
  have hbehind : behind comp = [] := by
    rw [behind, hdrop]
    exact List.dropWhile_eq_nil_iff.mpr hall
  have hunfold := step_file s plenty false st (hcomponent.symm ▸ hcomp)
  rw [hcomponent, hbehind] at hunfold
  rcases hrep.enter plenty hcomp with ⟨e, henter, hno⟩ | ⟨st', henter, hrep', hname⟩
  · exact absurd hno plenty_room
  rw [henter, ok_bind] at hunfold
  dsimp only at hunfold
  rw [arrive_kept (hname ▸ hlstat) hlink (Or.inr rfl)] at hunfold
  obtain ⟨e, hfinish, herrno, hresult, -⟩ := hrep'.finish
  have hnil : component [] = [] := rfl
  refine ⟨e, ?_, by rw [name_of e herrno, hresult]⟩
  rw [realpath_plenty hcomp.ne_nil hbegin, loop_goes_on hunfold]
  exact loop_ends (step_end hnil hfinish)

theorem through_directories {name : Str} (hsound : Sound s plenty none name)
    (hplain : ∀ comp ∈ comps, Plain comp) (hgives : Gives s plenty none name (render comps)) :
    (∀ front, front <+: comps → front ≠ [] →
      ∃ kind, s.lstat (render front) = .ok kind ∧ kind ≠ .link) ∧
    ∀ front, front <+: comps → front ≠ [] → front ≠ comps →
      s.lstat (render front) = .ok .directory := by
  obtain ⟨comps', hsame, hplain', hfiles⟩ := hsound.canonical _ hgives
  obtain rfl := render_inj hplain hplain' hsame
  refine ⟨hfiles, ?_⟩
  by_cases hnil : comps = []
  · intro front hfront hne
    rw [hnil] at hfront
    exact absurd (List.prefix_nil.mp hfront) hne
  obtain ⟨hne, hslash⟩ := render_ne_nil comps
  have hroom : (List.replicate PATH_MAX 0 : Str).length = PATH_MAX := List.length_replicate
  obtain ⟨st, hbegin, hrep⟩ := begin_root (s := s) hroom hslash false
  obtain ⟨e, hloop, hend⟩ := loop_along plenty hrep hplain hfiles
  have hbody : render comps = body comps := if_neg hnil
  have hcall : realpath s plenty (some (render comps)) none = .ok e := by
    rw [realpath_plenty hne hbegin, hbody]
    exact hloop
  have herrno : e.errno ≠ some ENOTDIR := by
    intro herr
    rcases hsound.fixed _ hgives plenty none (fun h => nomatch h) with hagain | ⟨-, e', hcall', hno⟩
    · obtain ⟨hnone, -⟩ := (gives_iff hcall).mp hagain
      rw [herr] at hnone
      cases hnone
    · rw [hcall] at hcall'
      cases hcall'
      rw [herr] at hno
      cases hno
  rcases hend with ⟨len, hno⟩ | hnot | hdirs
  · exact absurd hno plenty_room
  · exact absurd hnot herrno
  · exact hdirs

end Current

/-- If everything is kept for the names that are not absolute, the current directory is settled. -/
theorem settled_of_promise {s : System} (hnamed : Named s)
    (h : ∀ name : CStr, ¬ Absolute name.1 → Promise s name.1) : Settled s := by
  intro t room hcall
  obtain ⟨comps, hpath, hplain⟩ := hnamed t room hcall
  refine ⟨comps, hpath, hplain, fun text front hfront hne => ?_⟩
  have hdot : ¬ Absolute [DOT] := by
    rintro ⟨c, rest, heq, hc⟩
    cases heq
    cases hc
  obtain ⟨hfiles, hdirs⟩ := through_directories (h ⟨[DOT], by decide⟩ hdot plenty none).1 hplain
    (gives_dot hcall hpath hplain)
  obtain ⟨kind, hlstat, hlink⟩ := hfiles front hfront hne
  refine ⟨kind, hlstat, hlink, ?_⟩
  by_cases hlast : front = comps
  · by_cases hbarren : Barren s comps
    · exact Or.inr ⟨hlast, Or.inr hbarren⟩
    · -- the name of a file below it has been found
      unfold Barren at hbarren
      push Not at hbarren
      obtain ⟨comp, hcomp, kind', hlstat', hlink'⟩ := hbarren
      have hmore : ∀ comp' ∈ comps ++ [comp], Plain comp' := by
        intro comp' hmem
        rcases List.mem_append.mp hmem with hmem | hmem
        · exact hplain comp' hmem
        · rw [List.mem_singleton.mp hmem]
          exact hcomp
      obtain ⟨-, hdirs'⟩ := through_directories
        (h ⟨comp, hcomp.clean⟩ (plain_relative hcomp) plenty none).1 hmore
        (gives_file hcall hpath hplain hcomp hlstat' hlink')
      left
      have hdirectory := hdirs' front (by rw [hlast]; exact List.prefix_append _ _) hne
        (by rw [hlast]; simp)
      rw [hdirectory] at hlstat
      exact (Except.ok.inj hlstat).symm
  · have hdirectory := hdirs front hfront hne hlast
    rw [hdirectory] at hlstat
    exact Or.inl (Except.ok.inj hlstat).symm

/-- With a settled current directory `realpath` keeps all that is promised just for the names that
do not begin with a separator: one that begins with a `\` counts as relative. And it keeps it for
all of these just where the current directory is settled, if this has a name of components. For a
name that begins with a `/`, and in a settled directory for every name, the call ends without a
store outside the buffer, and what is returned is canonical and a fixed point. -/
theorem realpath_iff (s : System) (name : CStr) :
    ((∀ s, Settled s → Promise s name.1) ↔ ¬ Absolute name.1) ∧
      ((Named s ∧ ∀ name : CStr, ¬ Absolute name.1 → Promise s name.1) ↔ Settled s) ∧
      ∀ heap resolved, name.1.headD 0 = SLASH ∨ Settled s → Sound s heap resolved name.1 := by
  refine ⟨⟨fun hpromise => ?_, fun hrelative s hsettled => ?_⟩,
    ⟨fun h => settled_of_promise h.1 h.2, fun hsettled => ⟨?_, ?_⟩⟩,
    fun heap resolved hfrom => sound s heap resolved hfrom name.2⟩
  · obtain ⟨name, hclean⟩ := name
    rintro ⟨c, t, rfl, hc⟩
    have hother : ∀ d, isSep d = true → Alike (c :: t) (d :: t) := fun d hd =>
      .cons (Or.inr ⟨hc, hd⟩) (Alike.refl t)
    have hfirst : ∀ d, isSep d = true → (c = SLASH ↔ d = SLASH) := by
      intro d hd
      exact (same_iff hclean ((hother d hd).clean hclean) (hother d hd)).mp
        fun s hsettled heap resolved => (hpromise s hsettled heap resolved).2 _ (hother d hd)
    exact absurd ((hfirst BACKSLASH rfl).mp ((hfirst SLASH rfl).mpr rfl)) (by decide)
  · exact promise_of_settled hsettled name.2 hrelative
  · intro t room hcall
    obtain ⟨comps, hpath, hplain, -⟩ := hsettled t room hcall
    exact ⟨comps, hpath, hplain⟩
  · exact fun name hrelative => promise_of_settled hsettled name.2 hrelative

/-- The current directory is `"/a"`. -/
def insideKernel : NameRoom.Kernel where
  drv := 117
  dgetcwd := fun _ => .ok [BACKSLASH, 97]
  dgetpath := []
  malloc := fun _ => true

theorem plain_a : Plain [97] := by
  refine ⟨by decide, by decide, ?_, by decide, by decide⟩
  intro c hc
  rw [List.mem_singleton.mp hc]
  rfl

theorem inside_call :
    getcwd ⟨117, 0⟩ insideKernel true PATH_MAX = (some ([SLASH, 97], PATH_MAX), none) := rfl

def inside : System where
  lstat := fun _ => .ok .directory
  readlink := fun _ => .error EINVAL
  names := ⟨117, 0⟩
  kernel := insideKernel

theorem gives_begin {s : System} {heap : Heap} {st : State} {comps : List Str} {rpath name : Str}
    (hne : name ≠ []) (hnil : component name = []) (hmalloc : heap.malloc PATH_MAX = some rpath)
    (hbegin : begin s rpath name = .ok (.ok st)) (hrep : Rep false st comps) :
    Gives s heap none name (render comps) := by
  obtain ⟨e, hfinish, herrno, hname, -⟩ := hrep.finish
  refine ⟨e, ?_, by rw [name_of e herrno, hname]⟩
  have hbuffer : (Option.map Subtype.val (none : Option Buffer)).or (heap.malloc PATH_MAX) =
      some rpath := hmalloc
  rw [realpath_some hne hbuffer, hbegin]
  exact loop_ends (step_end hnil hfinish)

/-- `"/"` is the root, but `"\\"` is the current directory. -/
theorem backslash_is_relative : ¬ ∀ s, ∀ name : CStr, name.1 ≠ [] → Promise s name.1 := by
  intro h
  have hsize : (List.replicate PATH_MAX (0 : UInt8)).length = PATH_MAX := List.length_replicate
  have hslash : Gives inside plenty none [SLASH] (render []) := by
    have hfirst : ([SLASH] : Str).headD 0 = SLASH := rfl
    obtain ⟨st, hbegin, hrep⟩ := begin_root (s := inside) hsize hfirst false
    exact gives_begin (List.cons_ne_nil _ _) rfl rfl hbegin hrep
  have hbackslash : Gives inside plenty none [BACKSLASH] (render [[97]]) := by
    have hplain : ∀ comp ∈ [[97]], Plain comp := fun comp hcomp =>
      List.mem_singleton.mp hcomp ▸ plain_a
    obtain ⟨st, hcwd, hrep⟩ := currentDirectory_rep (s := inside) hsize inside_call
      (Or.inr ⟨List.cons_ne_nil _ _, rfl⟩) hplain false
    have hbegin : begin inside (List.replicate PATH_MAX 0) [BACKSLASH] = .ok (.ok st) := hcwd
    exact gives_begin (List.cons_ne_nil _ _) rfl rfl hbegin hrep
  have halike : Alike [SLASH] [BACKSLASH] := .cons (Or.inr ⟨rfl, rfl⟩) .nil
  have hpromise := (h inside ⟨[SLASH], by decide⟩ (List.cons_ne_nil _ _) plenty none).2 _ halike
  obtain ⟨e, hcall, hname⟩ := (hpromise (render [[97]])).mp hbackslash
  obtain ⟨e', hcall', hname'⟩ := hslash
  rw [hcall] at hcall'
  cases hcall'
  rw [hname] at hname'
  exact absurd (Option.some.inj hname') (by decide)

end Mintlib.Realpath
