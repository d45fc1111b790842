import Mintlib.Stores
import Mintlib.Dirname

/-!
# Looking for a file: `buffindf.c`

`_buffindfile` tries a name with each extension, as it is and then in each directory of a list.
All the names are made in one buffer, in which the extension is written again and again.
-/

namespace Mintlib.Buffindfile

open Text Stores Checked
open Dirname (isSep)

/-- The first loop: the name is copied, and it is seen whether it has a path or an extension. -/
def copyName : Str → ℕ → Bool → Bool → Str → Except Stop (ℕ × Bool × Bool × Str)
  | [], s, haspath, hasext, try_ => .ok (s, haspath, hasext, try_)
  | c :: t, s, haspath, hasext, try_ => do
    let try_ ← store try_ s c
    if isSep c then copyName t (s + 1) true false try_
    else if c = DOT then copyName t (s + 1) haspath true try_
    else copyName t (s + 1) haspath hasext try_

/-- The loop over the extensions, which are written behind the dot: whether a file was found. -/
def tryExts (EXISTS : Str → Bool) (extplace : ℕ) :
    List CStr → Str → Except Stop (Bool × Str)
  | [], try_ => .ok (false, try_)
  | ext :: nextext, try_ => do
    let try_ ← strcpy try_ (extplace + 1) ext
    if EXISTS (cstr try_) then .ok (true, try_) else tryExts EXISTS extplace nextext try_

/-- The loop that copies an element of the list, and leaves out the separator behind it. -/
def copyElement : Str → ℕ → Str → Except Stop (ℕ × Str × Str)
  | [], s, try_ => .ok (s, [], try_)
  | c :: fpath, s, try_ =>
    if c = COLON ∨ c = COMMA then .ok (s, fpath, try_)
    else do
      let try_ ← store try_ s c
      copyElement fpath (s + 1) try_

/-- The list begins with a drive: a character, a colon and a directory separator. -/
def isDrive : Str → Bool
  | x :: y :: z :: _ => y = COLON ∧ isSep z ∧ x ≠ DOT ∧ x ≠ COLON
  | _ => false

/-- The next element, with its drive, at the beginning of the buffer. -/
def nextElement (fpath try_ : Str) : Except Stop (ℕ × Str × Str) :=
  if isDrive fpath then do
    let (s, try_) ← copyText (fpath.take 3) 0 try_
    copyElement (fpath.drop 3) s try_
  else copyElement fpath 0 try_

def addSep (try_ : Str) (s : ℕ) : Except Stop (ℕ × Str) :=
  if s = 0 ∨ ¬ isSep (try_.getD (s - 1) 0) then do
    let try_ ← store try_ s BACKSLASH
    .ok (s + 1, try_)
  else .ok (s, try_)

/-- The terminators where the extension was, if it is not a part of the name. -/
def clearExt (hasext : Bool) (extplace : ℕ) (try_ : Str) : Except Stop Str :=
  if hasext then .ok try_
  else do
    let try_ ← store try_ extplace 0
    store try_ (extplace + 1) 0

/-- The loop over the places; the name behind the element is copied as `strcpy` would. -/
def search (EXISTS : Str → Bool) (fname : Str) (fext : List CStr) (hasext : Bool) :
    ℕ → Str → ℕ → Str → Except Stop (Option Str)
  | 0, _, _, _ => .error .steps
  | steps + 1, fpath, extplace, try_ => do
    let try_ ← clearExt hasext extplace try_
    if EXISTS (cstr try_) then .ok (some (cstr try_))
    else do
      let try_ ← store try_ extplace DOT
      let (found, try_) ← tryExts EXISTS extplace fext try_
      if found then .ok (some (cstr try_))
      else if fpath = [] then .ok none
      else do
        let (s, fpath, try_) ← nextElement fpath try_
        let (s, try_) ← addSep try_ s
        let try_ ← strcpy try_ s fname
        search EXISTS fname fext hasext steps fpath (s + fname.length) try_

/-- `_buffindfile`: the name in the buffer, or `NULL`. -/
def buffindfile (EXISTS : Str → Bool) (fname fpath : Option CStr) (fext : Option (List CStr))
    (try_ : Str) : Except Stop (Option Str) :=
  match fname with
  | none => .ok none
  | some fname =>
    if fname.1 = [] then .ok none
    else do
      let (s, haspath, hasext, try_) ← copyName fname 0 false false try_
      let try_ ← store try_ s 0
      let fpath : Str := if haspath then [] else fpath.elim [] Subtype.val
      let fext := if hasext then [] else fext.getD []
      search EXISTS fname fext hasext (fpath.length + 1) fpath s try_

def HasPath (fname : Str) : Prop := ∃ c ∈ fname, isSep c

instance (fname : Str) : Decidable (HasPath fname) :=
  inferInstanceAs (Decidable (∃ c ∈ fname, isSep c))

def afterSep (fname : Str) : Str := (fname.reverse.takeWhile fun c => ¬ isSep c).reverse

def HasExt (fname : Str) : Prop := DOT ∈ afterSep fname

instance (fname : Str) : Decidable (HasExt fname) := inferInstanceAs (Decidable (_ ∈ _))

def elementLength (fpath : Str) : ℕ :=
  let drive := if isDrive fpath then 3 else 0
  drive + ((fpath.drop drive).takeWhile fun c => ¬ (c = COLON ∨ c = COMMA)).length

/-- The elements of a list of places. What is behind the last separator is none if it is empty. -/
def elements (fpath : Str) : List Str :=
  match fpath with
  | [] => []
  | c :: rest =>
    (c :: rest).take (elementLength (c :: rest)) ::
      elements (rest.drop (elementLength (c :: rest)))
termination_by fpath.length
decreasing_by
  rw [List.length_drop, List.length_cons]
  omega

theorem elements_nil : elements [] = [] := by
  rw [elements]

theorem elements_cons (c : UInt8) (rest : Str) : elements (c :: rest) =
    (c :: rest).take (elementLength (c :: rest)) ::
      elements (rest.drop (elementLength (c :: rest))) := by
  rw [elements]

def inPlace (fname element : Str) : Str :=
  if element.getLast?.any isSep then element ++ fname else element ++ BACKSLASH :: fname

def withExts (fext : List CStr) (name : Str) : List Str :=
  name :: fext.map fun ext => name ++ DOT :: ext.1

def placed (fname : Str) (fext : List CStr) (places : List Str) : List Str :=
  places.flatMap fun element => withExts fext (inPlace fname element)

def candidates (fname : Str) (fpath : Option CStr) (fext : Option (List CStr)) : List Str :=
  let fext := if HasExt fname then [] else fext.getD []
  withExts fext fname ++
    placed fname fext (elements (if HasPath fname then [] else fpath.elim [] Subtype.val))

section Loops

variable {EXISTS : Str → Bool} {buf b base : Str}

theorem hasPath_snoc (front : Str) (c : UInt8) :
    HasPath (front ++ [c]) ↔ HasPath front ∨ isSep c := by
  unfold HasPath
  simp only [List.mem_append, List.mem_singleton, or_and_right, exists_or, exists_eq_left]

theorem hasExt_snoc (front : Str) (c : UInt8) :
    HasExt (front ++ [c]) ↔ ¬ isSep c ∧ (HasExt front ∨ c = DOT) := by
  unfold HasExt afterSep
  rw [List.reverse_append, List.reverse_singleton, List.singleton_append, List.takeWhile_cons]
  by_cases hsep : isSep c
  · simp [hsep]
  · simp only [hsep, Bool.false_eq_true, not_false_eq_true, decide_true, if_true,
      List.reverse_cons, List.mem_append, List.mem_singleton, true_and]
    exact or_congr_right eq_comm

/-- The name is copied, and what is said of it is right for as much as has been copied. -/
theorem copyName_ok (t : Str) : ∀ {b front : Str}, Written buf b front buf.length →
    front.length + t.length ≤ buf.length →
    ∃ b', copyName t front.length (decide (HasPath front)) (decide (HasExt front)) b =
        .ok (front.length + t.length, decide (HasPath (front ++ t)),
          decide (HasExt (front ++ t)), b') ∧
      Written buf b' (front ++ t) buf.length := by
  induction t with
  | nil =>
    intro b front h _
    rw [List.append_nil]
    exact ⟨b, rfl, h⟩
  | cons c t ih =>
    intro b front h hroom
    rw [List.length_cons] at hroom
    obtain ⟨b₁, hstore, h₁⟩ := h.store (by omega) le_rfl c
    have hlength : (front ++ [c]).length = front.length + 1 := List.length_append
    obtain ⟨b', hcopy, h'⟩ := ih h₁ (by omega)
    have hcount : front.length + 1 + t.length = front.length + (t.length + 1) := by omega
    rw [hlength, List.append_assoc, List.singleton_append, hcount] at hcopy
    rw [List.append_assoc, List.singleton_append] at h'
    refine ⟨b', ?_, h'⟩
    rw [copyName, hstore, ok_bind, List.length_cons, ← hcopy]
    by_cases hsep : isSep c
    · have hpath : HasPath (front ++ [c]) := (hasPath_snoc front c).mpr (Or.inr hsep)
      have hext : ¬ HasExt (front ++ [c]) := fun h => ((hasExt_snoc front c).mp h).1 hsep
      rw [if_pos hsep, decide_eq_true hpath, decide_eq_false hext]
    · have hpath : HasPath (front ++ [c]) ↔ HasPath front := by
        rw [hasPath_snoc, or_iff_left hsep]
      rw [if_neg hsep, decide_eq_decide.mpr hpath]
      by_cases hdot : c = DOT
      · have hext : HasExt (front ++ [c]) := (hasExt_snoc front c).mpr ⟨hsep, Or.inr hdot⟩
        rw [if_pos hdot, decide_eq_true hext]
      · have hext : HasExt (front ++ [c]) ↔ HasExt front := by
          rw [hasExt_snoc, or_iff_left hdot, and_iff_right hsep]
        rw [if_neg hdot, decide_eq_decide.mpr hext]

theorem tryExts_ok (hclean : (0 : UInt8) ∉ base) (fext : List CStr) : ∀ {b : Str},
    Written buf b (base ++ [DOT]) buf.length →
    (∀ ext ∈ fext, base.length + ext.1.length + 2 ≤ buf.length) →
    ∃ found b', tryExts EXISTS base.length fext b = .ok (found, b') ∧
      Written buf b' (base ++ [DOT]) buf.length ∧
      (fext.map fun ext => base ++ DOT :: ext.1).find? EXISTS =
        if found then some (cstr b') else none := by
  induction fext with
  | nil =>
    intro b h _
    exact ⟨false, b, rfl, h, rfl⟩
  | cons ext fext ih =>
    intro b h hroom
    obtain ⟨hext, hrest⟩ := List.forall_mem_cons.mp hroom
    have hlength : (base ++ [DOT]).length = base.length + 1 := List.length_append
    obtain ⟨b₁, hcopy, h₁⟩ := h.strcpy ext.1 (by omega) le_rfl
    rw [hlength] at hcopy
    have hname : base ++ [DOT] ++ ext.1 = base ++ DOT :: ext.1 := by
      rw [List.append_assoc, List.singleton_append]
    have hcstr : cstr b₁ = base ++ DOT :: ext.1 := by
      rw [hname] at h₁
      refine h₁.cstr fun hmem => ?_
      rcases List.mem_append.mp hmem with hmem | hmem
      · exact hclean hmem
      rcases List.mem_cons.mp hmem with h | hmem
      · exact absurd h (by decide)
      · exact ext.2 hmem
    have hdot := h₁.of_prefix
      ((List.prefix_append (base ++ [DOT]) ext.1).trans (List.prefix_append _ [0]))
    rw [tryExts, hcopy, ok_bind, hcstr, List.map_cons]
    cases hexists : EXISTS (base ++ DOT :: ext.1) with
    | true =>
      refine ⟨true, b₁, rfl, hdot, ?_⟩
      rw [List.find?_cons_of_pos hexists, if_pos rfl, hcstr]
    | false =>
      obtain ⟨found, b', htry, h', hfind⟩ := ih hdot hrest
      refine ⟨found, b', ?_, h', ?_⟩
      · rw [if_neg Bool.false_ne_true, htry]
      · rw [List.find?_cons_of_neg (by rw [hexists]; exact Bool.false_ne_true), hfind]

theorem copyElement_ok (fpath : Str) : ∀ {b head : Str}, Written buf b head buf.length →
    head.length + (fpath.takeWhile fun c => ¬ (c = COLON ∨ c = COMMA)).length ≤ buf.length →
    ∃ b', copyElement fpath head.length b =
        .ok (head.length + (fpath.takeWhile fun c => ¬ (c = COLON ∨ c = COMMA)).length,
          fpath.drop ((fpath.takeWhile fun c => ¬ (c = COLON ∨ c = COMMA)).length + 1), b') ∧
      Written buf b' (head ++ fpath.takeWhile fun c => ¬ (c = COLON ∨ c = COMMA))
        buf.length := by
  induction fpath with
  | nil =>
    intro b head h _
    rw [List.takeWhile_nil, List.append_nil]
    exact ⟨b, rfl, h⟩
  | cons c fpath ih =>
    intro b head h hroom
    rw [List.takeWhile_cons] at hroom ⊢
    by_cases hsep : c = COLON ∨ c = COMMA
    · rw [copyElement, if_pos hsep, if_neg (by simp [hsep]), List.append_nil]
      exact ⟨b, rfl, h⟩
    · rw [if_pos (by simp [hsep])] at hroom ⊢
      rw [List.length_cons] at hroom ⊢
      obtain ⟨b₁, hstore, h₁⟩ := h.store (by omega) le_rfl c
      have hlength : (head ++ [c]).length = head.length + 1 := List.length_append
      obtain ⟨b', hcopy, h'⟩ := ih h₁ (by omega)
      rw [hlength, Nat.add_assoc, Nat.add_comm 1] at hcopy
      rw [List.append_assoc, List.singleton_append] at h'
      refine ⟨b', ?_, h'⟩
      rw [copyElement, if_neg hsep, hstore, ok_bind, hcopy, List.drop_succ_cons]

theorem elementLength_drive {fpath : Str} (h : isDrive fpath) : elementLength fpath =
    3 + ((fpath.drop 3).takeWhile fun c => ¬ (c = COLON ∨ c = COMMA)).length := by
  unfold elementLength
  rw [if_pos h]

theorem elementLength_plain {fpath : Str} (h : ¬ isDrive fpath) : elementLength fpath =
    (fpath.takeWhile fun c => ¬ (c = COLON ∨ c = COMMA)).length := by
  unfold elementLength
  rw [if_neg h]
  show 0 + ((fpath.drop 0).takeWhile _).length = _
  rw [List.drop_zero, Nat.zero_add]

theorem elementLength_le (fpath : Str) : elementLength fpath ≤ fpath.length := by
  by_cases hdrive : isDrive fpath
  · have hthree : 3 ≤ fpath.length := by
      unfold isDrive at hdrive
      split at hdrive
      · simp only [List.length_cons]
        omega
      · exact absurd hdrive Bool.false_ne_true
    have htake := (List.takeWhile_prefix (l := fpath.drop 3)
      fun c => ¬ (c = COLON ∨ c = COMMA)).length_le
    rw [List.length_drop] at htake
    rw [elementLength_drive hdrive]
    omega
  · rw [elementLength_plain hdrive]
    exact (List.takeWhile_prefix _).length_le

/-- The element is at the beginning of the buffer, and the rest of the list is left. -/
theorem nextElement_ok (fpath : Str) (h : Written buf b [] buf.length)
    (hroom : (fpath.take (elementLength fpath)).length ≤ buf.length) :
    ∃ b', nextElement fpath b = .ok ((fpath.take (elementLength fpath)).length,
        fpath.drop (elementLength fpath + 1), b') ∧
      Written buf b' (fpath.take (elementLength fpath)) buf.length := by
  have hlength : (fpath.take (elementLength fpath)).length = elementLength fpath :=
    List.length_take_of_le (elementLength_le fpath)
  rw [hlength] at hroom ⊢
  have hsplit : ∀ drive : ℕ, (fpath.drop drive).takeWhile (fun c => ¬ (c = COLON ∨ c = COMMA)) =
      (fpath.drop drive).take
        ((fpath.drop drive).takeWhile fun c => ¬ (c = COLON ∨ c = COMMA)).length :=
    fun drive => List.prefix_iff_eq_take.mp (List.takeWhile_prefix _)
  unfold nextElement
  by_cases hdrive : isDrive fpath
  · have heq := elementLength_drive hdrive
    have hthree : (fpath.take 3).length = 3 := by
      have hle := elementLength_le fpath
      rw [List.length_take]
      omega
    obtain ⟨b₁, hcopy, h₁⟩ := Written.copyText le_rfl (fpath.take 3) h
      (by rw [hthree, List.length_nil]; omega)
    rw [List.nil_append] at h₁
    rw [List.length_nil, Nat.zero_add, hthree] at hcopy
    obtain ⟨b', helement, h'⟩ := copyElement_ok (fpath.drop 3) h₁ (by rw [hthree]; omega)
    rw [hthree, List.drop_drop, ← heq, ← Nat.add_assoc, ← heq] at helement
    refine ⟨b', ?_, ?_⟩
    · rw [if_pos hdrive, hcopy, ok_bind]
      exact helement
    · rw [heq, List.take_add, ← hsplit]
      exact h'
  · have heq := elementLength_plain hdrive
    obtain ⟨b', helement, h'⟩ := copyElement_ok fpath h
      (by rw [List.length_nil, ← heq]; omega)
    rw [List.length_nil, Nat.zero_add, ← heq] at helement
    refine ⟨b', ?_, ?_⟩
    · rw [if_neg hdrive]
      exact helement
    · have hwhole := hsplit 0
      rw [List.drop_zero, ← heq] at hwhole
      rw [List.nil_append, hwhole] at h'
      exact h'

def withSep (element : Str) : Str :=
  if element.getLast?.any isSep then element else element ++ [BACKSLASH]

theorem inPlace_eq (fname element : Str) : inPlace fname element = withSep element ++ fname := by
  unfold inPlace withSep
  by_cases hlast : element.getLast?.any isSep
  · rw [if_pos hlast, if_pos hlast]
  · rw [if_neg hlast, if_neg hlast, List.append_assoc, List.singleton_append]

theorem addSep_ok {element : Str} (h : Written buf b element buf.length)
    (hroom : (withSep element).length ≤ buf.length) :
    ∃ b', addSep b element.length = .ok ((withSep element).length, b') ∧
      Written buf b' (withSep element) buf.length := by
  have hlast : element.getLast?.any isSep = true ↔
      ¬ (element.length = 0 ∨ ¬ isSep (b.getD (element.length - 1) 0)) := by
    obtain ⟨rest, hrest⟩ := h.head
    cases hcase : element.getLast? with
    | none =>
      have hnil := List.getLast?_eq_none_iff.mp hcase
      rw [hnil]
      simp
    | some c =>
      obtain ⟨front, rfl⟩ := List.getLast?_eq_some_iff.mp hcase
      have hlength : (front ++ [c]).length = front.length + 1 := List.length_append
      have hget : b.getD (front.length + 1 - 1) 0 = c := by
        rw [← hrest, Nat.add_sub_cancel, List.append_assoc,
          List.getD_append_right _ _ _ _ le_rfl, Nat.sub_self, List.singleton_append,
          List.getD_cons_zero]
      rw [hlength, hget]
      simp
  unfold addSep
  by_cases hsep : element.getLast?.any isSep
  · have heq : withSep element = element := if_pos hsep
    rw [if_neg (hlast.mp hsep), heq]
    exact ⟨b, rfl, h⟩
  · have heq : withSep element = element ++ [BACKSLASH] := if_neg hsep
    rw [heq, List.length_append, List.length_singleton] at hroom
    obtain ⟨b', hstore, h'⟩ := h.store (by omega) le_rfl BACKSLASH
    rw [if_pos (not_not.mp fun hno => hsep (hlast.mpr hno)), hstore, ok_bind, heq,
      List.length_append]
    exact ⟨b', rfl, h'⟩

/-- The loop finds the first name that there is, if the buffer is large enough for them all. -/
theorem search_ok {fname : CStr} {fext : List CStr} {hasext : Bool} (steps : ℕ) :
    ∀ {b fpath base : Str}, fpath.length < steps → Written buf b (base ++ [0]) buf.length →
    (0 : UInt8) ∉ base → (0 : UInt8) ∉ fpath →
    (∀ name ∈ withExts fext base ++ placed fname fext (elements fpath),
      name.length + 2 ≤ buf.length) →
    search EXISTS fname fext hasext steps fpath base.length b =
      .ok ((withExts fext base ++ placed fname fext (elements fpath)).find? EXISTS) := by
  induction steps with
  | zero =>
    intro b fpath base hsteps
    exact absurd hsteps (Nat.not_lt_zero _)
  | succ steps ih =>
    intro b fpath base hsteps h hbase hfpath hroom
    have hroomBase : base.length + 2 ≤ buf.length :=
      hroom base (List.mem_append_left _ List.mem_cons_self)
    have hroomExt : ∀ ext ∈ fext, base.length + ext.1.length + 2 ≤ buf.length := by
      intro ext hext
      have hname := hroom (base ++ DOT :: ext.1) (List.mem_append_left _
        (List.mem_cons_of_mem _ (List.mem_map_of_mem hext)))
      rw [List.length_append, List.length_cons] at hname
      omega
    -- the terminators
    obtain ⟨b₁, hclear, h₁⟩ : ∃ b₁, clearExt hasext base.length b = .ok b₁ ∧
        Written buf b₁ (base ++ [0]) buf.length := by
      unfold clearExt
      cases hasext with
      | true => exact ⟨b, rfl, h⟩
      | false =>
        have hlength : (base ++ [(0 : UInt8)]).length = base.length + 1 := List.length_append
        obtain ⟨b₁, hstore₁, h₁⟩ :=
          (h.of_prefix (List.prefix_append base [0])).store (by omega) le_rfl 0
        obtain ⟨b₂, hstore₂, h₂⟩ := h₁.store (by omega) le_rfl 0
        rw [hlength] at hstore₂
        refine ⟨b₂, ?_, h₂.of_prefix (List.prefix_append _ _)⟩
        rw [if_neg Bool.false_ne_true, hstore₁, ok_bind, hstore₂]
    rw [search, hclear, ok_bind, h₁.cstr hbase]
    cases hexists : EXISTS base with
    | true =>
      rw [if_pos rfl, withExts, List.cons_append, List.find?_cons_of_pos hexists]
    | false =>
      obtain ⟨b₂, hdot, h₂⟩ :=
        (h₁.of_prefix (List.prefix_append base [0])).store (by omega) le_rfl DOT
      obtain ⟨found, b₃, htry, h₃, hfind⟩ := tryExts_ok hbase fext h₂ hroomExt
      rw [if_neg Bool.false_ne_true, hdot, ok_bind, htry, ok_bind, withExts, List.cons_append,
        List.find?_cons_of_neg (by rw [hexists]; exact Bool.false_ne_true), List.find?_append,
        hfind]
      cases found with
      | true => rfl
      | false =>
        simp only [Bool.false_eq_true, if_false, Option.none_or]
        cases fpath with
        | nil =>
          rw [if_pos rfl, elements_nil]
          rfl
        | cons c rest =>
          have hplaces : elements (c :: rest) =
              (c :: rest).take (elementLength (c :: rest)) ::
                elements ((c :: rest).drop (elementLength (c :: rest) + 1)) := by
            rw [elements_cons, List.drop_succ_cons]
          generalize hfp : c :: rest = fpath at *
          have hplaced : placed fname fext (elements fpath) =
              withExts fext (inPlace fname (fpath.take (elementLength fpath))) ++
                placed fname fext (elements (fpath.drop (elementLength fpath + 1))) := by
            rw [hplaces]
            exact List.flatMap_cons
          rw [hplaced]
          rw [hplaced] at hroom
          have hroomPlace := hroom (inPlace fname (fpath.take (elementLength fpath)))
            (List.mem_append_right _ (List.mem_append_left _ List.mem_cons_self))
          rw [inPlace_eq, List.length_append] at hroomPlace
          have hsepLe : (fpath.take (elementLength fpath)).length ≤
              (withSep (fpath.take (elementLength fpath))).length := by
            unfold withSep
            split_ifs
            · exact le_rfl
            · rw [List.length_append]
              exact Nat.le_add_right _ _
          obtain ⟨b₄, hnext, h₄⟩ := nextElement_ok fpath (h₃.of_prefix List.nil_prefix) (by omega)
          obtain ⟨b₅, hsep, h₅⟩ := addSep_ok h₄ (by omega)
          obtain ⟨b₆, hcopy, h₆⟩ := h₅.strcpy fname.1 (by omega) le_rfl
          have hne : ¬ fpath = [] := by
            rw [← hfp]
            exact List.cons_ne_nil _ _
          rw [if_neg hne, hnext, ok_bind]
          simp only [hsep]
          rw [ok_bind]
          simp only [hcopy]
          rw [ok_bind, ← List.length_append, ← inPlace_eq]
          rw [← inPlace_eq] at h₆
          refine ih ?_ h₆ ?_ ?_ ?_
          · rw [List.length_drop]
            have hpos : 0 < fpath.length := List.length_pos_of_ne_nil hne
            omega
          · rw [inPlace_eq]
            intro hmem
            rcases List.mem_append.mp hmem with hmem | hmem
            · unfold withSep at hmem
              split_ifs at hmem
              · exact hfpath (List.mem_of_mem_take hmem)
              · rcases List.mem_append.mp hmem with hmem | hmem
                · exact hfpath (List.mem_of_mem_take hmem)
                · exact absurd (List.mem_singleton.mp hmem) (by decide)
            · exact fname.2 hmem
          · exact fun hmem => hfpath (List.mem_of_mem_drop hmem)
          · exact fun name hname => hroom name (List.mem_append_right _ hname)

end Loops

section Find

variable {EXISTS : Str → Bool} {fpath : Option CStr} {fext : Option (List CStr)} {try_ : Str}

/-- What `_buffindfile` is to return. -/
def wanted (EXISTS : Str → Bool) (fname fpath : Option CStr) (fext : Option (List CStr)) :
    Option Str :=
  match fname with
  | none => none
  | some fname =>
    if fname.1 = [] then none else (candidates fname fpath fext).find? EXISTS

/-- For every name that is not empty the first candidate that exists is found, and there is no
other way to return `NULL`. -/
theorem buffindfile_eq {fname : Option CStr}
    (hroom : ∀ file ∈ fname, ∀ name ∈ candidates file.1 fpath fext,
      name.length + 2 ≤ try_.length) :
    buffindfile EXISTS fname fpath fext try_ = .ok (wanted EXISTS fname fpath fext) := by
  cases fname with
  | none => rfl
  | some fname =>
    unfold buffindfile wanted
    by_cases hempty : fname.1 = []
    · simp only [if_pos hempty]
    · have hroom := hroom fname rfl
      have hname : fname.1.length + 2 ≤ try_.length :=
        hroom fname.1 (List.mem_append_left _ List.mem_cons_self)
      have hnoPath : ¬ HasPath [] := by
        rintro ⟨c, hc, -⟩
        exact absurd hc List.not_mem_nil
      have hnoExt : ¬ HasExt [] := List.not_mem_nil
      obtain ⟨b₁, hcopy, h₁⟩ := copyName_ok fname.1 (Written.start try_ try_.length)
        (by rw [List.length_nil]; omega)
      rw [decide_eq_false hnoPath, decide_eq_false hnoExt, List.length_nil, Nat.zero_add,
        List.nil_append] at hcopy
      rw [List.nil_append] at h₁
      obtain ⟨b₂, hstore, h₂⟩ := h₁.store (by omega) le_rfl 0
      simp only [if_neg hempty]
      rw [hcopy, ok_bind]
      simp only [decide_eq_true_eq]
      rw [hstore, ok_bind]
      unfold candidates at hroom ⊢
      refine search_ok _ (Nat.lt_succ_self _) h₂ fname.2 ?_ hroom
      intro hmem
      split_ifs at hmem
      · exact absurd hmem List.not_mem_nil
      · cases fpath with
        | none => exact absurd hmem List.not_mem_nil
        | some path => exact path.2 hmem

/-- `x` is looked for in `/a` and `/b`, and is in `/b`. -/
theorem buffindfile_eq_demo :
    buffindfile (fun name => name = [47, 98, 92, 120]) (some ⟨[120], by decide⟩)
        (some ⟨[47, 97, 44, 47, 98], by decide⟩) none (List.replicate 16 0) =
      .ok (wanted (fun name => name = [47, 98, 92, 120]) (some ⟨[120], by decide⟩)
        (some ⟨[47, 97, 44, 47, 98], by decide⟩) none) := by
  refine buffindfile_eq fun file hfile => ?_
  have hsplit : elements [47, 97, 44, 47, 98] = [[47, 97], [47, 98]] := by
    rw [elements_cons]
    show [47, 97] :: elements [47, 98] = _
    rw [elements_cons]
    show [47, 97] :: [47, 98] :: elements [] = _
    rw [elements_nil]
  cases hfile
  show ∀ name ∈ withExts [] [120] ++ placed [120] [] (elements [47, 97, 44, 47, 98]), _
  rw [hsplit]
  decide

/-- The empty name is not found although it exists, and in the list `:` the empty element stands
for the root directory. -/
theorem empty_ones :
    (buffindfile (fun _ => true) (some ⟨[], by decide⟩) none none (List.replicate 8 0) =
        .ok none ∧
      (candidates [] none none).find? (fun _ => true) = some []) ∧
    buffindfile (fun name => name = [92, 120]) (some ⟨[120], by decide⟩)
        (some ⟨[58], by decide⟩) none (List.replicate 8 0) = .ok (some [92, 120]) ∧
      (withExts [] [120] ++ placed [120] [] ((elements [58]).filter (· ≠ []))).find?
        (fun name => name = [92, 120]) = none := by
  refine ⟨⟨rfl, rfl⟩, rfl, ?_⟩
  have hsplit : elements [58] = [[]] := by
    rw [elements_cons]
    show [] :: elements [] = _
    rw [elements_nil]
  rw [hsplit]
  rfl

end Find

end Mintlib.Buffindfile
