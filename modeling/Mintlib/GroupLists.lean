import Mintlib.Grp

/-!
# The groups of a user: `initgroups.c` and `getgrouplist.c`

Both walk over the entries that `getgrent` delivers and store the gid once for each time the
user is listed. `none` stands for a store behind the end of the array.
-/

namespace Mintlib.GroupLists

open Text Grp

abbrev NGROUPS_MAX : ℕ := 8

/-- What `getgrent` delivers from the open group file until it returns `NULL`. -/
def getgrents : ℕ → List UInt8 → List UInt8 → Option (List Group)
  | 0, _, _ => none
  | calls + 1, savbuf, fp => do
    let (gr, savbuf, fp) ← nextent savbuf fp
    match gr with
    | none => some []
    | some gr => do
      let grs ← getgrents calls savbuf fp
      some (gr :: grs)

/-- `groups[n++] = gid`, in an array of `unsigned short`. -/
def push (groups : List ℕ) (gid : ℕ) : Option (List ℕ) :=
  if groups.length < NGROUPS_MAX then some (groups ++ [gid % 2 ^ 16]) else none

/-- The loop over `gr_mem`. -/
def initMembers (user : Str) (gid : ℕ) : List Str → List ℕ → Option (List ℕ)
  | [], groups => some groups
  | m :: mem, groups => do
    let groups ← if m = user then push groups gid else some groups
    initMembers user gid mem groups

def initLoop (user : Str) (group : ℕ) : List Group → List ℕ → Option (List ℕ)
  | [], groups => some groups
  | g :: gs, groups =>
    if groups.length < NGROUPS_MAX then do
      let groups ←
        if g.gr_gid ≠ group then initMembers user g.gr_gid (g.gr_mem.getD []) groups
        else some groups
      initLoop user group gs groups
    else some groups

/-- `initgroups`: the array that is handed to `Psetgroups`, and what it returns for it:
nothing if it succeeds, or `errno`. -/
def initgroups (Psetgroups : List ℕ → ℤ) (user : Str) (group : ℕ) (gs : List Group) :
    Option (List ℕ × Option ℤ) := do
  let groups ← push [] group
  let groups ← initLoop user group gs groups
  let r := Psetgroups groups
  some (groups, if r < 0 then some (-r) else none)

/-- `if (n < sz) groups[n] = gid; n++`. -/
def store (sz : ℤ) (gid : ℕ) (groups : List ℕ) (n : ℕ) : Option (List ℕ × ℕ) :=
  if (n : ℤ) < sz then
    if n < groups.length then some (groups.set n gid, n + 1) else none
  else some (groups, n + 1)

/-- The loop over `gr_mem`. -/
def listMembers (sz : ℤ) (user : Str) (gid : ℕ) :
    List Str → List ℕ → ℕ → Option (List ℕ × ℕ)
  | [], groups, n => some (groups, n)
  | m :: mem, groups, n => do
    let (groups, n) ← if m = user then store sz gid groups n else some (groups, n)
    listMembers sz user gid mem groups n

def listLoop (sz : ℤ) (user : Str) (group : ℕ) :
    List Group → List ℕ → ℕ → Option (List ℕ × ℕ)
  | [], groups, n => some (groups, n)
  | g :: gs, groups, n => do
    let (groups, n) ←
      if g.gr_gid ≠ group then listMembers sz user g.gr_gid (g.gr_mem.getD []) groups n
      else some (groups, n)
    listLoop sz user group gs groups n

/-- `getgrouplist`: the result, the caller's array and `*ngroups`. -/
def getgrouplist (user : Str) (group : ℕ) (groups : List ℕ) (ngroups : ℤ) (gs : List Group) :
    Option (ℤ × List ℕ × ℕ) := do
  let sz := ngroups
  let (groups, n) ← store sz group groups 0
  let (groups, n) ← listLoop sz user group gs groups n
  let sz := if (n : ℤ) < sz then (n : ℤ) else sz
  let sz := if sz < n then -1 else sz
  some (sz, groups, n)

section Lists

variable {user : Str} {group gid : ℕ} {gs : List Group} {groups : List ℕ} {sz : ℤ} {n : ℕ}

/-- A gid for each time that the user is listed in a group, the primary group apart. -/
def listed (user : Str) (group : ℕ) (gs : List Group) : List ℕ :=
  gs.flatMap fun g =>
    if g.gr_gid ≠ group then List.replicate ((g.gr_mem.getD []).count user) g.gr_gid else []

def Lists (user : Str) (g : Group) : Prop := user ∈ g.gr_mem.getD []

instance (user : Str) (g : Group) : Decidable (Lists user g) :=
  inferInstanceAs (Decidable (_ ∈ _))

theorem mem_listed {g : Group} (hg : g ∈ gs) (h : Lists user g) :
    g.gr_gid ∈ group :: listed user group gs := by
  by_cases hgid : g.gr_gid = group
  · rw [hgid]
    exact List.mem_cons_self
  · refine List.mem_cons_of_mem _ (List.mem_flatMap.mpr ⟨g, hg, ?_⟩)
    rw [if_pos hgid, List.mem_replicate]
    exact ⟨(List.count_pos_iff.mpr h).ne', rfl⟩

theorem listed_cons (g : Group) (gs : List Group) : listed user group (g :: gs) =
    (if g.gr_gid ≠ group then List.replicate ((g.gr_mem.getD []).count user) g.gr_gid else []) ++
      listed user group gs := rfl

theorem push_eq (gid : ℕ) (h : groups.length < NGROUPS_MAX) :
    push groups gid = some (groups ++ [gid % 2 ^ 16]) := if_pos h

/-- The array has room for one gid for each time that the user is a member, or it is
overrun. -/
theorem initMembers_eq (mem : List Str) : ∀ groups : List ℕ,
    initMembers user gid mem groups =
      if mem.count user = 0 ∨ groups.length + mem.count user ≤ NGROUPS_MAX then
        some (groups ++ List.replicate (mem.count user) (gid % 2 ^ 16))
      else none := by
  induction mem with
  | nil =>
    intro groups
    rw [List.count_nil, if_pos (Or.inl rfl), List.replicate_zero, List.append_nil]
    rfl
  | cons m mem ih =>
    intro groups
    rw [initMembers]
    by_cases hm : m = user
    · rw [if_pos hm, hm, List.count_cons_self]
      by_cases hroom : groups.length < NGROUPS_MAX
      · rw [push_eq gid hroom, Option.bind_eq_bind, Option.bind_some]
        have hlen : (groups ++ [gid % 2 ^ 16]).length = groups.length + 1 := List.length_append
        have hiff : (mem.count user = 0 ∨
            (groups ++ [gid % 2 ^ 16]).length + mem.count user ≤ NGROUPS_MAX) ↔
            (mem.count user + 1 = 0 ∨ groups.length + (mem.count user + 1) ≤ NGROUPS_MAX) := by
          rw [hlen]
          omega
        simp only [ih, hiff, List.replicate_succ, List.append_assoc, List.singleton_append]
      · rw [push, if_neg hroom, if_neg (by omega)]
        rfl
    · rw [if_neg hm, List.count_cons_of_ne hm, Option.bind_eq_bind, Option.bind_some]
      exact ih groups

theorem initLoop_cons {g : Group} (gs : List Group) (hroom : groups.length < NGROUPS_MAX) :
    initLoop user group (g :: gs) groups =
      if (listed user group [g]).length = 0 ∨
          groups.length + (listed user group [g]).length ≤ NGROUPS_MAX then
        initLoop user group gs (groups ++ (listed user group [g]).map (· % 2 ^ 16))
      else none := by
  have hone : listed user group [g] = if g.gr_gid ≠ group then
      List.replicate ((g.gr_mem.getD []).count user) g.gr_gid else [] := List.append_nil _
  rw [initLoop, if_pos hroom, hone]
  by_cases hgid : g.gr_gid ≠ group
  · rw [if_pos hgid, if_pos hgid, List.length_replicate, List.map_replicate, initMembers_eq]
    split_ifs <;> rfl
  · rw [if_neg hgid, if_neg hgid, List.length_nil, if_pos (Or.inl rfl), List.map_nil,
      List.append_nil]
    rfl

theorem listed_cons_length (g : Group) (gs : List Group) :
    (listed user group (g :: gs)).length =
      (listed user group [g]).length + (listed user group gs).length := by
  rw [listed_cons, listed_cons g [], List.length_append, List.length_append]
  rfl

theorem initLoop_total (user : Str) (group : ℕ) (gs : List Group) : ∀ groups : List ℕ,
    groups.length + (listed user group gs).length ≤ NGROUPS_MAX →
      initLoop user group gs groups =
        some (groups ++ (listed user group gs).map (· % 2 ^ 16)) := by
  induction gs with
  | nil =>
    intro groups _
    rw [show listed user group [] = [] from rfl, List.map_nil, List.append_nil]
    rfl
  | cons g gs ih =>
    intro groups hfit
    have hcons : listed user group (g :: gs) = listed user group [g] ++ listed user group gs := by
      rw [listed_cons, listed_cons g []]
      exact congrArg (· ++ _) (List.append_nil _).symm
    by_cases hroom : groups.length < NGROUPS_MAX
    · rw [listed_cons_length] at hfit
      rw [initLoop_cons gs hroom, if_pos (Or.inr (by omega)), ih, hcons, List.map_append,
        List.append_assoc]
      rw [List.length_append, List.length_map]
      omega
    · have hrest : listed user group (g :: gs) = [] := List.length_eq_zero_iff.mp (by omega)
      rw [initLoop, if_neg hroom, hrest, List.map_nil, List.append_nil]

/-- The array is not overrun if and only if the gids fit, or the last one of some entry
fills it. -/
theorem initLoop_isSome (user : Str) (group : ℕ) (gs : List Group) :
    ∀ groups : List ℕ, groups.length ≤ NGROUPS_MAX →
    ((∃ groups', initLoop user group gs groups = some groups') ↔
      groups.length + (listed user group gs).length ≤ NGROUPS_MAX ∨
        ∃ k, groups.length + (listed user group (gs.take k)).length = NGROUPS_MAX) := by
  induction gs with
  | nil =>
    intro groups hle
    exact iff_of_true ⟨groups, rfl⟩ (Or.inl hle)
  | cons g gs ih =>
    intro groups hle
    by_cases hroom : groups.length < NGROUPS_MAX
    · have htake : (∃ k, groups.length + (listed user group ((g :: gs).take k)).length =
          NGROUPS_MAX) ↔ ∃ k, groups.length + ((listed user group [g]).length +
            (listed user group (gs.take k)).length) = NGROUPS_MAX := by
        constructor
        · rintro ⟨k, hk⟩
          cases k with
          | zero =>
            change groups.length + 0 = NGROUPS_MAX at hk
            omega
          | succ k =>
            rw [List.take_succ_cons, listed_cons_length] at hk
            exact ⟨k, hk⟩
        · rintro ⟨k, hk⟩
          refine ⟨k + 1, ?_⟩
          rw [List.take_succ_cons, listed_cons_length]
          exact hk
      rw [initLoop_cons gs hroom, listed_cons_length g gs, htake]
      by_cases hfit : (listed user group [g]).length = 0 ∨
          groups.length + (listed user group [g]).length ≤ NGROUPS_MAX
      · rw [if_pos hfit, ih _ (by rw [List.length_append, List.length_map]; omega),
          List.length_append, List.length_map]
        simp only [Nat.add_assoc]
      · rw [if_neg hfit]
        refine iff_of_false (fun ⟨_, h⟩ => (by cases h)) ?_
        rintro (hall | ⟨k, hk⟩)
        · omega
        · omega
    · refine iff_of_true ⟨groups, ?_⟩ (Or.inr ⟨0, ?_⟩)
      · rw [initLoop, if_neg hroom]
      · show groups.length + 0 = NGROUPS_MAX
        omega

/-- The caller's array when `n` gids have been met, the first of them `all`. -/
structure Holds (sz : ℤ) (all groups groups' : List ℕ) : Prop where
  length : groups'.length = groups.length
  stored : groups'.take all.length = all.take groups.length

theorem store_ok (hsz : groups.length = sz.toNat) {all groups' : List ℕ}
    (h : Holds sz all groups groups') (gid : ℕ) : ∃ groups'',
      store sz gid groups' all.length = some (groups'', (all ++ [gid]).length) ∧
        Holds sz (all ++ [gid]) groups groups'' := by
  have hlen : (all ++ [gid]).length = all.length + 1 := List.length_append
  by_cases hroom : (all.length : ℤ) < sz
  · have hin : all.length < groups.length := by omega
    have hin' : all.length < groups'.length := by rw [h.length]; exact hin
    refine ⟨groups'.set all.length gid, ?_, ?_, ?_⟩
    · rw [store, if_pos hroom, if_pos hin', hlen]
    · rw [List.length_set, h.length]
    · have hall : all.take groups.length = all := List.take_of_length_le (Nat.le_of_lt hin)
      have hall' : (all ++ [gid]).take groups.length = all ++ [gid] := by
        refine List.take_of_length_le ?_
        rw [hlen]
        exact hin
      have hset := h.stored
      rw [hall] at hset
      rw [hall', hlen, List.take_succ_eq_append_getElem (by rw [List.length_set]; exact hin'),
        List.take_set_of_le (le_refl _), hset, List.getElem_set_self]
  · have hout : groups.length ≤ all.length := by omega
    refine ⟨groups', ?_, h.length, ?_⟩
    · rw [store, if_neg hroom, hlen]
    · have hset := h.stored
      rw [List.take_of_length_le (by rw [h.length]; exact hout)] at hset
      rw [hlen, List.take_of_length_le (by rw [h.length]; omega), hset,
        List.take_append_of_le_length hout]

theorem listMembers_ok (user : Str) (hsz : groups.length = sz.toNat) (mem : List Str) :
    ∀ {all groups' : List ℕ}, Holds sz all groups groups' → ∃ groups'',
      listMembers sz user gid mem groups' all.length =
        some (groups'', (all ++ List.replicate (mem.count user) gid).length) ∧
      Holds sz (all ++ List.replicate (mem.count user) gid) groups groups'' := by
  induction mem with
  | nil =>
    intro all groups' h
    refine ⟨groups', ?_, ?_⟩
    · rw [List.count_nil, List.replicate_zero, List.append_nil]
      rfl
    · rw [List.count_nil, List.replicate_zero, List.append_nil]
      exact h
  | cons m mem ih =>
    intro all groups' h
    by_cases hm : m = user
    · obtain ⟨g₁, hstore, h₁⟩ := store_ok hsz h gid
      obtain ⟨g₂, hrest, h₂⟩ := ih h₁
      rw [hm, List.count_cons_self]
      rw [List.append_assoc, List.singleton_append, ← List.replicate_succ] at hrest h₂
      refine ⟨g₂, ?_, h₂⟩
      rw [listMembers, if_pos rfl, hstore]
      exact hrest
    · rw [List.count_cons_of_ne hm]
      obtain ⟨g₂, hrest, h₂⟩ := ih h
      refine ⟨g₂, ?_, h₂⟩
      rw [listMembers, if_neg hm]
      exact hrest

theorem listLoop_ok (user : Str) (group : ℕ) (hsz : groups.length = sz.toNat) (gs : List Group) :
    ∀ {all groups' : List ℕ}, Holds sz all groups groups' → ∃ groups'',
      listLoop sz user group gs groups' all.length =
        some (groups'', (all ++ listed user group gs).length) ∧
      Holds sz (all ++ listed user group gs) groups groups'' := by
  induction gs with
  | nil =>
    intro all groups' h
    rw [show listed user group [] = [] from rfl, List.append_nil]
    exact ⟨groups', rfl, h⟩
  | cons g gs ih =>
    intro all groups' h
    rw [listed_cons, ← List.append_assoc]
    by_cases hgid : g.gr_gid ≠ group
    · obtain ⟨g₁, hmem, h₁⟩ := listMembers_ok user hsz (g.gr_mem.getD []) h
      obtain ⟨g₂, hrest, h₂⟩ := ih h₁
      rw [if_pos hgid]
      refine ⟨g₂, ?_, h₂⟩
      rw [listLoop, if_pos hgid, hmem]
      exact hrest
    · obtain ⟨g₂, hrest, h₂⟩ := ih h
      rw [if_neg hgid, List.append_nil]
      refine ⟨g₂, ?_, h₂⟩
      rw [listLoop, if_neg hgid]
      exact hrest

theorem getgrouplist_eq (user : Str) (group : ℕ) (gs : List Group)
    (hsz : groups.length = sz.toNat) : ∃ groups',
    getgrouplist user group groups sz gs =
        some (if sz < ((group :: listed user group gs).length : ℤ) then -1
          else ((group :: listed user group gs).length : ℤ), groups',
          (group :: listed user group gs).length) ∧
      Holds sz (group :: listed user group gs) groups groups' := by
  have hstart : Holds sz [] groups groups := ⟨rfl, by rw [List.take_nil]; rfl⟩
  obtain ⟨g₁, hfirst, h₁⟩ := store_ok hsz hstart group
  obtain ⟨g₂, hloop, h₂⟩ := listLoop_ok user group hsz gs h₁
  refine ⟨g₂, ?_, h₂⟩
  change store sz group groups 0 = _ at hfirst
  rw [getgrouplist, hfirst, Option.bind_eq_bind, Option.bind_some]
  simp only
  rw [hloop]
  set n := (group :: listed user group gs).length with hn
  change some (if (if (n : ℤ) < sz then (n : ℤ) else sz) < n then -1
    else (if (n : ℤ) < sz then (n : ℤ) else sz), g₂, n) = _
  by_cases hlt : (n : ℤ) < sz
  · rw [if_pos hlt, if_neg (lt_irrefl _), if_neg (not_lt.mpr hlt.le)]
  · rw [if_neg hlt]
    by_cases hshort : sz < n
    · rw [if_pos hshort, if_pos hshort]
    · rw [if_neg hshort, if_neg hshort, le_antisymm (not_lt.mp hlt) (not_lt.mp hshort)]

/-- `initgroups` keeps to its array, and stores the gid of every group of the user when the
gids fit. -/
def InitKept (user : Str) (group : ℕ) (gs : List Group) : Prop :=
  ∀ Psetgroups, ∃ stored r, initgroups Psetgroups user group gs = some (stored, r) ∧
    stored.length ≤ NGROUPS_MAX ∧
    ((group :: listed user group gs).length ≤ NGROUPS_MAX →
      ∀ g ∈ gs, Lists user g → g.gr_gid ∈ stored)

/-- `getgrouplist` keeps to the caller's array, says how many gids there are, fails if they
do not fit, and succeeds when it is called again with that number. -/
def ListKept (user : Str) (group : ℕ) (gs : List Group) : Prop :=
  ∃ n : ℕ, n = (group :: listed user group gs).length ∧
    (∀ groups (ngroups : ℤ), groups.length = ngroups.toNat → ∃ ret groups',
      getgrouplist user group groups ngroups gs = some (ret, groups', n) ∧
      (ret = -1 ↔ ngroups < n) ∧
      (n ≤ ngroups → ret = n ∧ groups'.take n = group :: listed user group gs ∧
        ∀ g ∈ gs, Lists user g → g.gr_gid ∈ groups'.take n)) ∧
    ∀ groups, groups.length = n → ∃ groups',
      getgrouplist user group groups n gs = some ((n : ℤ), groups', n)

theorem list_kept (user : Str) (group : ℕ) (gs : List Group) : ListKept user group gs := by
  refine ⟨_, rfl, fun groups ngroups hlen => ?_, fun groups hlen => ?_⟩
  · obtain ⟨groups', hcall, hholds⟩ := getgrouplist_eq user group gs hlen
    refine ⟨_, groups', hcall, ?_, fun hfit => ?_⟩
    · by_cases hshort : ngroups < ((group :: listed user group gs).length : ℤ)
      · rw [if_pos hshort]
        exact iff_of_true rfl hshort
      · rw [if_neg hshort]
        refine iff_of_false (fun hno => ?_) hshort
        have hnonneg := Int.natCast_nonneg (group :: listed user group gs).length
        omega
    · have hroom : (group :: listed user group gs).length ≤ groups.length := by omega
      have hall := hholds.stored
      rw [List.take_of_length_le hroom] at hall
      rw [if_neg (not_lt.mpr hfit), hall]
      exact ⟨rfl, rfl, fun g hg hlists => mem_listed hg hlists⟩
  · have hlen' : groups.length = (((group :: listed user group gs).length : ℕ) : ℤ).toNat := by
      rw [hlen, Int.toNat_natCast]
    obtain ⟨groups', hcall, -⟩ := getgrouplist_eq user group gs hlen'
    refine ⟨groups', ?_⟩
    rw [hcall, if_neg (lt_irrefl _)]

/-- The gids fit and are 16 bits wide, or the last gid of some entry fills the array. -/
def Room (user : Str) (group : ℕ) (gs : List Group) : Prop :=
  if (group :: listed user group gs).length ≤ NGROUPS_MAX then
    ∀ g ∈ gs, Lists user g → g.gr_gid < 2 ^ 16
  else ∃ k, (group :: listed user group (gs.take k)).length = NGROUPS_MAX

theorem initLoop_length (gs : List Group) : ∀ {groups groups' : List ℕ},
    groups.length ≤ NGROUPS_MAX → initLoop user group gs groups = some groups' →
      groups'.length ≤ NGROUPS_MAX := by
  induction gs with
  | nil =>
    intro groups groups' hle h
    obtain rfl := Option.some.inj h
    exact hle
  | cons g gs ih =>
    intro groups groups' hle h
    by_cases hroom : groups.length < NGROUPS_MAX
    · rw [initLoop_cons gs hroom] at h
      split_ifs at h with hfit
      refine ih ?_ h
      rw [List.length_append, List.length_map]
      omega
    · rw [initLoop, if_neg hroom] at h
      obtain rfl := Option.some.inj h
      exact hle

theorem initgroups_eq (user : Str) (group : ℕ) (gs : List Group) (Psetgroups : List ℕ → ℤ) :
    initgroups Psetgroups user group gs =
    (initLoop user group gs [group % 2 ^ 16]).map fun groups =>
      (groups, if Psetgroups groups < 0 then some (-Psetgroups groups) else none) := by
  rw [initgroups, push_eq group (by decide), Option.map_eq_bind]
  rfl

theorem init_kept_iff : InitKept user group gs ↔ Room user group gs := by
  have hone : [group % 2 ^ 16].length ≤ NGROUPS_MAX := by
    show 1 ≤ 8
    decide
  have hcount : [group % 2 ^ 16].length + (listed user group gs).length =
      (group :: listed user group gs).length := Nat.add_comm _ _
  have hcut : ∀ k, [group % 2 ^ 16].length + (listed user group (gs.take k)).length =
      (group :: listed user group (gs.take k)).length := fun k => Nat.add_comm _ _
  have hsome := initLoop_isSome user group gs _ hone
  rw [hcount] at hsome
  simp only [hcut] at hsome
  unfold Room
  by_cases hfit : (group :: listed user group gs).length ≤ NGROUPS_MAX
  · have hrun := initLoop_total user group gs [group % 2 ^ 16]
      (by rw [hcount]; exact hfit)
    have hstored : [group % 2 ^ 16] ++ (listed user group gs).map (· % 2 ^ 16) =
        (group :: listed user group gs).map (· % 2 ^ 16) := rfl
    rw [hstored] at hrun
    rw [if_pos hfit]
    constructor
    · intro h g hg hlists
      obtain ⟨stored, r, hinit, -, hall⟩ := h fun _ => 0
      rw [initgroups_eq, hrun] at hinit
      obtain ⟨rfl, -⟩ := Prod.mk.inj (Option.some.inj hinit)
      obtain ⟨gid, -, hgid⟩ := List.mem_map.mp (hall hfit g hg hlists)
      rw [← hgid]
      exact Nat.mod_lt _ (by decide)
    · intro h Psetgroups
      have hinit := initgroups_eq user group gs Psetgroups
      rw [hrun] at hinit
      refine ⟨_, _, hinit, ?_, fun _ g hg hlists => ?_⟩
      · rw [List.length_map]
        exact hfit
      · refine List.mem_map.mpr ⟨g.gr_gid, mem_listed hg hlists, ?_⟩
        exact Nat.mod_eq_of_lt (h g hg hlists)
  · rw [if_neg hfit]
    rw [or_iff_right hfit] at hsome
    rw [← hsome]
    constructor
    · intro h
      obtain ⟨stored, r, hinit, -⟩ := h fun _ => 0
      rw [initgroups_eq] at hinit
      obtain ⟨groups', hrun, -⟩ := Option.map_eq_some_iff.mp hinit
      exact ⟨groups', hrun⟩
    · rintro ⟨groups', hrun⟩ Psetgroups
      have hinit := initgroups_eq user group gs Psetgroups
      rw [hrun] at hinit
      exact ⟨groups', _, hinit, initLoop_length gs hone hrun, fun hno => absurd hno hfit⟩

/-- The arrays are kept to and filled if and only if the array of `initgroups` has room. -/
theorem group_lists_iff : InitKept user group gs ∧ ListKept user group gs ↔
    Room user group gs := by
  rw [init_kept_iff, and_iff_left (list_kept user group gs)]

/-- `a:x:1:u,u,u,u,u,u,u,u`: the user is listed eight times in one group. -/
theorem eight_times_overrun : ∃ gs,
    getgrents 2 (List.replicate 512 0) [97, 58, 120, 58, 49, 58, 117, 44, 117, 44, 117, 44, 117, 44,
      117, 44, 117, 44, 117, 44, 117, 10] = some gs ∧
    ¬ (InitKept [117] 5 gs ∧ ListKept [117] 5 gs) := by
  have hread : getgrents 2 (List.replicate 512 0) [97, 58, 120, 58, 49, 58, 117, 44, 117, 44, 117,
      44, 117, 44, 117, 44, 117, 44, 117, 44, 117, 10] =
        some [⟨some [97], 1, some (List.replicate 8 [117]), some [120]⟩] := by
    decide +kernel
  refine ⟨_, hread, fun h => ?_⟩
  obtain ⟨stored, r, hinit, -⟩ := h.1 fun _ => 0
  have hover : initgroups (fun _ => 0) [117] 5
      [⟨some [97], 1, some (List.replicate 8 [117]), some [120]⟩] = none := by
    decide +kernel
  rw [hover] at hinit
  cases hinit

end Lists

end Mintlib.GroupLists
