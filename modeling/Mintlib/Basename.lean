import Mintlib.Dirname
import Mintlib.Stores

/-!
# The last component of a path: `xpg_basename.c`

`__xpg_basename` looks for the last separator as `dirname` does, and works in place too: it cuts
off separators at the end. Together with the directory part the last component names the file.
-/

namespace Mintlib.Basename

open Text Unx2dos Dirname Stores Checked

/-- `while (p > filename && p[-1] != '/' && p[-1] != '\\') --p`. -/
def nameBack (mem : Str) : ℕ → Except Stop ℕ
  | 0 => .ok 0
  | i + 1 => do
    let c ← load mem i
    if isSep c then .ok (i + 1) else nameBack mem i

/-- `while (p[1] != '\0') ++p`, from the beginning of the memory: how far `p` goes. -/
def lastOf : Str → Except Stop ℕ
  | _ :: c :: mem => if c = 0 then .ok 0 else (lastOf (c :: mem)).map (· + 1)
  | _ => .error .bounds

/-- The string at `p`. -/
def stringAt (mem : Str) (p : ℕ) : Str := cstr (mem.drop p)

/-- `__xpg_basename` for a last separator at `p` that ends the path. -/
def trailing (mem : Str) (p : ℕ) : Except Stop Str := do
  let p ← skipBack mem p
  if 0 < p then
    let mem ← store mem p 0
    let p ← nameBack mem (p - 1)
    .ok (stringAt mem p)
  else
    let p ← lastOf mem
    .ok (stringAt mem p)

def xpgBasename : Option Str → Except Stop Str
  | none => .ok [DOT]
  | some filename => do
    let mem := filename ++ [0]
    if (← load mem 0) = 0 then .ok [DOT]
    else
      let s := strrchr filename SLASH
      let b := strrchr filename BACKSLASH
      match if ptr b < ptr s then s else b with
      | none => .ok (stringAt mem 0)
      | some p =>
        if (← load mem (p + 1)) = 0 then trailing mem p else .ok (stringAt mem (p + 1))

section Scan

variable {front comp t s : Str} {c : UInt8}

theorem later_eq (s : Str) :
    (if ptr (strrchr s BACKSLASH) < ptr (strrchr s SLASH) then strrchr s SLASH
      else strrchr s BACKSLASH) = lastSep s := by
  apply ptr_inj
  rw [ptr_lastSep]
  split_ifs with hlt
  · exact (max_eq_left hlt.le).symm
  · exact (max_eq_right (not_lt.mp hlt)).symm

theorem nameBack_eq (hfront : front = [] ∨ ∃ a c, front = a ++ [c] ∧ isSep c = true)
    (hcomp : ∀ c ∈ comp, isSep c = false) (t : Str) :
    nameBack (front ++ (comp ++ t)) (front.length + comp.length) = .ok front.length := by
  induction comp using List.reverseRecOn generalizing t with
  | nil =>
    rw [List.length_nil, Nat.add_zero, List.nil_append]
    rcases hfront with rfl | ⟨a, c, rfl, hc⟩
    · rfl
    · rw [List.length_append, List.length_singleton, nameBack, List.append_assoc,
        List.singleton_append, load_append]
      exact if_pos hc
  | append_singleton comp c ih =>
    obtain ⟨hcomp, hc⟩ := List.forall_mem_append.mp hcomp
    have hlen : front.length + (comp ++ [c]).length = (front ++ comp).length + 1 := by
      rw [List.length_append, List.length_append, List.length_singleton, Nat.add_assoc]
    have hmem : front ++ (comp ++ [c] ++ t) = (front ++ comp) ++ c :: t := by
      simp only [List.append_assoc, List.singleton_append]
    rw [hlen, nameBack, hmem, load_append]
    show (if isSep c then _ else _) = _
    rw [if_neg (Bool.eq_false_iff.mp (hc c (List.mem_singleton_self c))), List.append_assoc,
      List.length_append]
    exact ih hcomp (c :: t)

theorem lastOf_eq (h0 : (0 : UInt8) ∉ s) (c : UInt8) (t : Str) :
    lastOf (c :: (s ++ 0 :: t)) = .ok s.length := by
  induction s generalizing c with
  | nil => rfl
  | cons d s ih =>
    have hd : d ≠ 0 := fun h => h0 (h ▸ List.mem_cons_self)
    rw [List.cons_append, lastOf, if_neg hd, ih (fun h => h0 (List.mem_cons_of_mem _ h))]
    rfl

theorem stringAt_append (front : Str) (h0 : (0 : UInt8) ∉ comp) (t : Str) :
    stringAt (front ++ (comp ++ 0 :: t)) front.length = comp := by
  rw [stringAt, List.drop_left, cstr_append h0]

end Scan

theorem xpg_basename_of_some {s : Str} {c : UInt8} {t : Str} (hs : s = c :: t) (hc : c ≠ 0) {p : ℕ}
    (hp : lastSep s = some p) {d : UInt8} (hd : load (s ++ [0]) (p + 1) = .ok d) :
    xpgBasename (some s) =
      if d = 0 then trailing (s ++ [0]) p else .ok (stringAt (s ++ [0]) (p + 1)) := by
  have hfirst : load (s ++ [0]) 0 = .ok c := by
    rw [hs]
    rfl
  rw [xpgBasename]
  simp only [bind, Except.bind]
  rw [hfirst]
  simp only
  rw [if_neg hc, later_eq, hp]
  simp only
  rw [hd]

theorem xpg_basename_of_none {s : Str} {c : UInt8} {t : Str} (hs : s = c :: t)
    (h0 : (0 : UInt8) ∉ s) (hp : lastSep s = none) : xpgBasename (some s) = .ok s := by
  have hc : c ≠ 0 := fun h => h0 (by rw [hs, h]; exact List.mem_cons_self)
  have hfirst : load (s ++ [0]) 0 = .ok c := by
    rw [hs]
    rfl
  have hwhole : stringAt (s ++ [0]) 0 = s := by
    rw [stringAt, List.drop_zero, cstr_append h0]
  rw [xpgBasename]
  simp only [bind, Except.bind]
  rw [hfirst]
  simp only
  rw [if_neg hc, later_eq, hp]
  simp only
  rw [hwhole]

theorem basename_seps {a : Str} {c : UInt8} (h0 : (0 : UInt8) ∉ a ++ [c])
    (hall : ∀ d ∈ a ++ [c], isSep d = true) : xpgBasename (some (a ++ [c])) = .ok [c] := by
  have hc : isSep c = true := hall c (List.mem_append_right _ (List.mem_singleton_self c))
  have hlast : lastSep (a ++ [c]) = some a.length :=
    lastSep_append a hc fun d hd => absurd hd List.not_mem_nil
  obtain ⟨d, t, hs⟩ : ∃ d t, a ++ [c] = d :: t := List.exists_cons_of_ne_nil (by simp)
  have hd : d ≠ 0 := fun h => h0 (by rw [hs, h]; exact List.mem_cons_self)
  have hend : load (a ++ [c] ++ [0]) (a.length + 1) = .ok 0 := by
    have hlength : a.length + 1 = (a ++ [c]).length := by
      rw [List.length_append, List.length_singleton]
    rw [hlength, load_append]
  have hskip : skipBack (a ++ [c] ++ [0]) a.length = .ok 0 := by
    have h := skipBack_eq (a := []) rfl (List.forall_mem_append.mp hall).1 ([c] ++ [0])
    rwa [List.nil_append, List.length_nil, Nat.zero_add, ← List.append_assoc] at h
  have hforward : lastOf (a ++ [c] ++ [0]) = .ok a.length := by
    have h0t : (0 : UInt8) ∉ t := fun h => h0 (by rw [hs]; exact List.mem_cons_of_mem _ h)
    have hlength := congrArg List.length hs
    rw [List.length_append, List.length_singleton, List.length_cons] at hlength
    rw [hs, List.cons_append, lastOf_eq h0t]
    congr 1
    omega
  have hc0 : (0 : UInt8) ∉ [c] := fun h => h0 (List.mem_append_right _ h)
  rw [xpg_basename_of_some hs hd hlast hend, if_pos rfl, trailing, hskip]
  simp only [bind, Except.bind]
  rw [if_neg (lt_irrefl 0), hforward]
  simp only
  rw [List.append_assoc, stringAt_append a hc0]

theorem basename_comp {s seps comp trail : Str} (h0 : (0 : UInt8) ∉ s)
    (h : Parts s seps comp trail) (hne : comp ≠ []) : xpgBasename (some s) = .ok comp := by
  have hs := h.eq
  have hcomp := h.component
  have hcomp0 : (0 : UInt8) ∉ comp := fun h => h0 (by rw [hs]; simp [h])
  obtain ⟨c, t, hcons⟩ : ∃ c t, s = c :: t := List.exists_cons_of_ne_nil (by
    rw [hs]
    simp [hne])
  have hc : c ≠ 0 := fun h => h0 (by rw [hcons, h]; exact List.mem_cons_self)
  have hfront : parent s ++ seps = [] ∨ ∃ a c, parent s ++ seps = a ++ [c] ∧ isSep c = true := by
    rcases List.eq_nil_or_concat' seps with hnil | ⟨seps', c, hseps⟩
    · left
      rw [hnil, h.below hnil]
      rfl
    · right
      exact ⟨parent s ++ seps', c, by rw [hseps, List.append_assoc],
        h.separators c (by rw [hseps]; simp)⟩
  rcases List.eq_nil_or_concat' trail with htrail | ⟨trail', e, htrail⟩
  · rw [htrail, List.append_nil] at hs
    rcases hfront with hnil | ⟨a, e, ha, he⟩
    · -- no separator at all
      rw [← List.append_assoc, hnil, List.nil_append] at hs
      rw [xpg_basename_of_none hcons h0 (by rw [hs]; exact lastSep_none hcomp), hs]
    · have hs' : s = a ++ e :: comp := by
        rw [hs, ← List.append_assoc, ha, List.append_assoc]
        rfl
      have hlast : lastSep s = some a.length := by
        rw [hs']
        exact lastSep_append a he hcomp
      obtain ⟨d, comp', hd⟩ := List.exists_cons_of_ne_nil hne
      have hlength : a.length + 1 = (a ++ [e]).length := by
        rw [List.length_append, List.length_singleton]
      have hmem : s ++ [0] = (a ++ [e]) ++ (comp ++ 0 :: []) := by
        rw [hs']
        simp only [List.append_assoc, List.cons_append, List.nil_append]
      have hbyte : load (s ++ [0]) (a.length + 1) = .ok d := by
        rw [hmem, hlength, hd, List.cons_append, load_append]
      have hd0 : d ≠ 0 := fun h => hcomp0 (by rw [hd, h]; exact List.mem_cons_self)
      rw [xpg_basename_of_some hcons hc hlast hbyte, if_neg hd0, hmem, hlength,
        stringAt_append _ hcomp0]
  · -- the separators behind the component are cut off first
    obtain ⟨htrail', he⟩ := List.forall_mem_append.mp (htrail ▸ h.trailing)
    obtain ⟨comp', g, hg⟩ : ∃ comp' g, comp = comp' ++ [g] :=
      ⟨_, _, (List.dropLast_append_getLast hne).symm⟩
    have hbody : (parent s ++ seps ++ comp).rdropWhile isSep = parent s ++ seps ++ comp :=
      ends_comp _ hcomp hne
    have hs' : s = (parent s ++ seps ++ comp ++ trail') ++ [e] := by
      conv_lhs => rw [hs, htrail]
      simp only [List.append_assoc]
    have hlast : lastSep s = some (parent s ++ seps ++ comp ++ trail').length := by
      conv_lhs => rw [hs']
      exact lastSep_append _ (he e (List.mem_singleton_self e))
        fun d hd => absurd hd List.not_mem_nil
    have hbyte : load (s ++ [0]) ((parent s ++ seps ++ comp ++ trail').length + 1) = .ok 0 := by
      have hlength : (parent s ++ seps ++ comp ++ trail').length + 1 = s.length := by
        have h := congrArg List.length hs'
        rw [List.length_append, List.length_singleton] at h
        exact h.symm
      rw [hlength, load_append]
    obtain ⟨f, rest, hrest⟩ : ∃ f rest, trail' ++ ([e] ++ [0]) = f :: rest :=
      List.exists_cons_of_ne_nil (by simp)
    have hmem : s ++ [0] = parent s ++ seps ++ comp ++ f :: rest := by
      rw [← hrest]
      conv_lhs => rw [hs']
      simp only [List.append_assoc]
    have hskip : skipBack (s ++ [0]) (parent s ++ seps ++ comp ++ trail').length =
        .ok (parent s ++ seps ++ comp).length := by
      rw [hmem, ← hrest, List.length_append]
      exact skipBack_eq hbody htrail' _
    have hpos : 0 < (parent s ++ seps ++ comp).length := by
      rw [List.length_append]
      have := List.length_pos_iff.mpr hne
      omega
    have hname : nameBack (parent s ++ seps ++ comp ++ 0 :: rest)
        ((parent s ++ seps ++ comp).length - 1) = .ok (parent s ++ seps).length := by
      have hlength : (parent s ++ seps ++ comp).length - 1 =
          (parent s ++ seps).length + comp'.length := by
        rw [hg, List.length_append, List.length_append, List.length_append, List.length_singleton]
        omega
      have hsplit : parent s ++ seps ++ comp ++ 0 :: rest =
          (parent s ++ seps) ++ (comp' ++ ([g] ++ 0 :: rest)) := by
        rw [hg]
        simp only [List.append_assoc]
      rw [hlength, hsplit]
      exact nameBack_eq hfront (fun d hd => hcomp d (by rw [hg]; simp [hd])) _
    rw [xpg_basename_of_some hcons hc hlast hbyte, if_pos rfl, trailing, hskip]
    simp only [bind, Except.bind]
    rw [if_pos hpos, hmem, store_append]
    simp only
    rw [hname]
    simp only
    rw [List.append_assoc (parent s ++ seps), stringAt_append _ hcomp0]

/-- The components of a path, without the empty ones and `.`. -/
def components (s : Str) : List Str :=
  (s.splitOnP isSep).filter fun comp => comp ≠ [] ∧ comp ≠ [DOT]

def Absolute (s : Str) : Prop := ∃ c t, s = c :: t ∧ isSep c = true

section Components

variable {a b seps : Str} {c : UInt8}

theorem components_append (a b : Str) (hc : isSep c = true) :
    components (a ++ c :: b) = components a ++ components b := by
  rw [components, List.splitOnP_append_cons _ _ hc, List.filter_append]
  rfl

theorem components_seps (hseps : ∀ c ∈ seps, isSep c = true) : components seps = [] := by
  induction seps with
  | nil => rfl
  | cons c seps ih =>
    obtain ⟨hc, hseps⟩ := List.forall_mem_cons.mp hseps
    have h := components_append [] seps hc
    rw [List.nil_append] at h
    rw [h, ih hseps]
    rfl

theorem components_seps_append (hseps : ∀ c ∈ seps, isSep c = true) (b : Str) :
    components (seps ++ b) = components b := by
  induction seps with
  | nil => rfl
  | cons c seps ih =>
    obtain ⟨hc, hseps⟩ := List.forall_mem_cons.mp hseps
    have h := components_append [] (seps ++ b) hc
    rw [List.nil_append] at h
    rw [List.cons_append, h, ih hseps]
    rfl

theorem components_append_seps (a : Str) (hseps : ∀ c ∈ seps, isSep c = true) :
    components (a ++ seps) = components a := by
  cases seps with
  | nil => rw [List.append_nil]
  | cons c seps =>
    obtain ⟨hc, hseps⟩ := List.forall_mem_cons.mp hseps
    rw [components_append _ _ hc, components_seps hseps, List.append_nil]

end Components

section Absolute

variable {a b seps : Str} {c : UInt8}

theorem absolute_cons (c : UInt8) (t : Str) : Absolute (c :: t) ↔ isSep c = true := by
  constructor
  · rintro ⟨d, t', heq, hd⟩
    rw [(List.cons.inj heq).1]
    exact hd
  · intro hc
    exact ⟨c, t, rfl, hc⟩

theorem absolute_append (ha : a ≠ []) (b : Str) : Absolute (a ++ b) ↔ Absolute a := by
  obtain ⟨c, t, rfl⟩ := List.exists_cons_of_ne_nil ha
  rw [List.cons_append, absolute_cons, absolute_cons]

theorem root_seps (hseps : ∀ c ∈ seps, isSep c = true) (hne : seps ≠ []) :
    (∀ c ∈ root seps, isSep c = true) ∧ root seps ≠ [] := by
  rw [root]
  split_ifs
  · exact ⟨hseps, hne⟩
  · refine ⟨fun c hc => hseps c (List.mem_of_mem_take hc), ?_⟩
    obtain ⟨c, t, rfl⟩ := List.exists_cons_of_ne_nil hne
    exact List.cons_ne_nil _ _

theorem absolute_seps (hseps : ∀ c ∈ seps, isSep c = true) (hne : seps ≠ []) (b : Str) :
    Absolute (seps ++ b) := by
  obtain ⟨c, t, rfl⟩ := List.exists_cons_of_ne_nil hne
  rw [List.cons_append, absolute_cons]
  exact hseps c List.mem_cons_self

end Absolute

theorem plain_joined {s seps comp trail : Str} (h : Parts s seps comp trail) (hne : comp ≠ []) :
    components (plain s ++ SLASH :: comp) = components s ∧
      (Absolute (plain s ++ SLASH :: comp) ↔ Absolute s) := by
  have hs := h.eq
  have hslash : isSep SLASH = true := rfl
  have hcomponents : components s = components (parent s) ++ components comp := by
    conv_lhs => rw [hs]
    cases hseps : seps with
    | nil =>
      rw [h.below hseps, List.nil_append, List.nil_append, components_append_seps _ h.trailing]
      rfl
    | cons c seps' =>
      obtain ⟨hc, hseps'⟩ := List.forall_mem_cons.mp (hseps ▸ h.separators)
      rw [List.cons_append, components_append _ _ hc, components_seps_append hseps',
        components_append_seps _ h.trailing]
  rw [hcomponents, components_append _ _ hslash, plain]
  by_cases hparent : parent s = []
  · rw [if_neg (not_not_intro hparent), hparent]
    rw [hparent, List.nil_append] at hs
    by_cases hseps : seps = []
    · -- a single component
      rw [hseps, List.nil_append] at hs
      obtain ⟨c, comp', hc⟩ := List.exists_cons_of_ne_nil hne
      have hsep : isSep c = false := h.component c (by rw [hc]; exact List.mem_cons_self)
      have hleading : leading s = [] := by
        rw [hs, hc, List.cons_append]
        exact List.takeWhile_cons_of_neg (Bool.eq_false_iff.mp hsep)
      rw [hleading, if_neg (not_not_intro rfl)]
      refine ⟨rfl, ?_⟩
      rw [List.cons_append, absolute_cons, hs, hc, List.cons_append, absolute_cons, hsep]
      decide
    · have hleading : leading s = seps := by
        rw [hs]
        exact leading_append h.separators h.component hne trail
      obtain ⟨hroot, hrootne⟩ := root_seps h.separators hseps
      rw [hleading, if_pos hseps, components_seps hroot]
      refine ⟨rfl, iff_of_true (absolute_seps hroot hrootne _) ?_⟩
      rw [hs]
      exact absolute_seps h.separators hseps _
  · rw [if_pos hparent]
    refine ⟨rfl, ?_⟩
    rw [absolute_append hparent]
    conv_rhs => rw [hs]
    rw [absolute_append hparent]

/-- The last component has no separator in it unless the path has nothing else, and joined to the
directory part it names the same file. -/
theorem basename_dirname (mint : Bool) (path : CStr) (hne : path.1 ≠ [])
    (hcolon : path.1[1]? ≠ some COLON) :
    ∃ base dir, xpgBasename (some path.1) = .ok base ∧ dirname mint (some path.1) = .ok dir ∧
      ((∃ c ∈ path.1, isSep c = false) → ∀ c ∈ base, isSep c = false) ∧
      components (dir ++ SLASH :: base) = components path.1 ∧
      (Absolute (dir ++ SLASH :: base) ↔ Absolute path.1) := by
  obtain ⟨s, h0⟩ := path
  simp only at hne hcolon ⊢
  obtain ⟨seps, comp, trail, h⟩ := exists_parts s
  have hdirname : dirname mint (some s) = .ok (plain s) := by
    apply dirname_long h0 hne
    rintro x rfl
    exact hcolon rfl
  by_cases hcomp : comp = []
  · have hseps := h.named hcomp
    have hs := h.eq
    rw [h.below hseps, hseps, hcomp] at hs
    simp only [List.nil_append] at hs
    have hall : ∀ c ∈ s, isSep c = true := hs ▸ h.trailing
    obtain ⟨a, c, rfl⟩ : ∃ a c, s = a ++ [c] :=
      ⟨_, _, (List.dropLast_append_getLast hne).symm⟩
    have hplain : plain (a ++ [c]) = root (a ++ [c]) := by
      rw [plain, h.below hseps, if_neg (not_not_intro rfl), leading_of_all hall, if_pos hne]
    obtain ⟨hroot, hrootne⟩ := root_seps hall hne
    have hc : ∀ d ∈ [c], isSep d = true := fun d hd => hall d (List.mem_append_right _ hd)
    refine ⟨[c], _, basename_seps h0 hall, hdirname, ?_, ?_, ?_⟩
    · rintro ⟨d, hd, hsep⟩
      rw [hall d hd] at hsep
      exact absurd hsep (by decide)
    · rw [hplain, components_append _ _ (show isSep SLASH = true from rfl), components_seps hroot,
        components_seps hc, components_seps hall]
      rfl
    · rw [hplain]
      refine iff_of_true (absolute_seps hroot hrootne _) ?_
      have habsolute := absolute_seps hall hne []
      rwa [List.append_nil] at habsolute
  · obtain ⟨hcomponents, habsolute⟩ := plain_joined h hcomp
    exact ⟨comp, _, basename_comp h0 h hcomp, hdirname, fun _ => h.component, hcomponents,
      habsolute⟩

theorem basename_dirname_demo :
    ∃ base dir, xpgBasename (some [92, 117, 115, 114, 47, 47, 108, 105, 98, 47]) = .ok base ∧
      dirname true (some [92, 117, 115, 114, 47, 47, 108, 105, 98, 47]) = .ok dir ∧
      ((∃ c ∈ ([92, 117, 115, 114, 47, 47, 108, 105, 98, 47] : Str), isSep c = false) →
        ∀ c ∈ base, isSep c = false) ∧
      components (dir ++ SLASH :: base) = components [92, 117, 115, 114, 47, 47, 108, 105, 98, 47] ∧
      (Absolute (dir ++ SLASH :: base) ↔ Absolute [92, 117, 115, 114, 47, 47, 108, 105, 98, 47]) :=
  basename_dirname true ⟨[92, 117, 115, 114, 47, 47, 108, 105, 98, 47], by decide⟩ (by decide)
    (by decide)

end Mintlib.Basename
