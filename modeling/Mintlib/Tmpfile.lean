import Mintlib.Stdio.File

/-!
# Temporary files: `tmpfile.c`

The streams and the names of their files are kept in a list that grows by one record for each call;
`numtmps` is the index of the last one. What `exit` does with them goes by the list and the index
alone, whether the program has closed them or not.
-/

namespace Mintlib.Tmpfile

open Text
open Stdio (EOF)

/-- Why a run stops: what has been used is not there, or is not what it was. -/
inductive Fault
  | null
  | freed
  | uninitialised
deriving DecidableEq

/-- What `file_to_delete` points to. A record that has not been stored is `none`. -/
inductive Block (α : Type)
  | null
  | freed
  | block (records : List (Option α))

/-- `FILE_RECORD`; a name that is `none` is `NULL`. -/
structure Record where
  name : Option Str
  fp : ℕ

/-- The statics of the file, whether `delete_tmpfiles` is registered, the open streams with the
names of their files, and the files there are. -/
structure State where
  file_to_delete : Block Record
  numtmps : ℤ
  registered : Bool
  opened : List (ℕ × Str)
  files : List Str

/-- `file_to_delete[i]`. -/
def State.record (s : State) (i : ℕ) : Except Fault Record :=
  match s.file_to_delete with
  | .null => .error .null
  | .freed => .error .freed
  | .block records =>
    match records[i]? with
    | some (some r) => .ok r
    | _ => .error .uninitialised

/-- `fclose` of a stream that nothing has been written to: a stream that is not open is left alone. -/
def fclose (fp : ℕ) (s : State) : ℤ × State :=
  if fp ∈ s.opened.map (·.1) then (0, { s with opened := s.opened.eraseP (·.1 = fp) })
  else (EOF, s)

/-- `remove`: the file of an open stream stays. -/
def remove (name : Option Str) (s : State) : Except Fault (ℤ × State) :=
  match name with
  | none => .error .null
  | some name =>
    if name ∈ s.opened.map (·.2) then .ok (-1, s)
    else if name ∈ s.files then .ok (0, { s with files := s.files.erase name })
    else .ok (-1, s)

/-- The loop of `delete_tmpfiles` from `i` on. -/
def deleteLoop : ℕ → ℕ → State → Except Fault State
  | 0, _, s => .ok s
  | k + 1, i, s =>
    match s.record i with
    | .error fault => .error fault
    | .ok r =>
      let (_, s) := fclose r.fp s
      match remove r.name s with
      | .error fault => .error fault
      | .ok (_, s) => deleteLoop k (i + 1) s

def deleteTmpfiles (s : State) : Except Fault State := deleteLoop (s.numtmps + 1).toNat 0 s

structure Answers where
  /-- Whether `malloc` has a block for the name. -/
  malloc : Bool
  /-- The name that `tmpnam_r` finds. -/
  tmpnam_r : Option Str
  /-- The stream that `fopen` opens. -/
  fopen : Option ℕ
  /-- Whether `realloc` has a block for the name. -/
  shrink : Bool
  /-- Whether `malloc` or `realloc` has a block for the list. -/
  grow : Bool
  /-- Whether `atexit` has room. -/
  atexit : Bool

/-- The list with room for `numtmps + 1` records. -/
def State.grow (numtmps : ℤ) (ok : Bool) (s : State) : Except Fault (Block Record) :=
  if ok = false then .ok .null
  else if numtmps = 0 then .ok (.block [none])
  else
    match s.file_to_delete with
    | .freed => .error .freed
    | .null => .ok (.block (List.replicate (numtmps + 1).toNat none))
    | .block records =>
      .ok (.block ((List.range (numtmps + 1).toNat).map fun i => records.getD i none))

/-- `tmpfile` from the first record on, when `delete_tmpfiles` is to be registered. -/
def register (atexit : Bool) (fp : ℕ) (s : State) : Except Fault (Option ℕ × State) :=
  if atexit = false then
    match deleteTmpfiles s with
    | .error fault => .error fault
    | .ok s => .ok (none, { s with numtmps := -1, file_to_delete := .freed })
  else .ok (some fp, { s with registered := true })

/-- `tmpfile` behind the attempt to remove the file. -/
def install (answers : Answers) (fp : ℕ) (junknam : Option Str) (s : State) :
    Except Fault (Option ℕ × State) :=
  let numtmps := s.numtmps + 1
  match s.grow numtmps answers.grow with
  | .error fault => .error fault
  | .ok (.block records) =>
    let s := { s with
      file_to_delete := .block (records.set numtmps.toNat (some ⟨junknam, fp⟩))
      numtmps := numtmps }
    if numtmps = 0 then register answers.atexit fp s else .ok (some fp, s)
  | .ok _ =>
    let (_, s) := fclose fp { s with file_to_delete := .null, numtmps := numtmps }
    match remove junknam s with
    | .error fault => .error fault
    | .ok (_, s) => .ok (none, { s with numtmps := s.numtmps - 1 })

/-- `fopen` has opened a stream on a new file. -/
def State.added (fp : ℕ) (name : Str) (s : State) : State :=
  { s with opened := s.opened ++ [(fp, name)], files := s.files ++ [name] }

/-- `tmpfile` with its file open. -/
def withFile (mint : ℤ) (answers : Answers) (fp : ℕ) (name : Str) (s : State) :
    Except Fault (Option ℕ × State) :=
  let s := s.added fp name
  let junknam := if answers.shrink then some name else none
  if 9 ≤ mint then
    match remove junknam s with
    | .error fault => .error fault
    | .ok (status, s) => if status = 0 then .ok (some fp, s) else install answers fp junknam s
  else install answers fp junknam s

/-- `tmpfile`: `tmpnam_r` takes no `NULL`. -/
def tmpfile (mint : ℤ) (answers : Answers) (s : State) : Except Fault (Option ℕ × State) :=
  match if answers.malloc then answers.tmpnam_r else none with
  | none => .ok (none, s)
  | some name =>
    match answers.fopen with
    | none => .ok (none, s)
    | some fp => withFile mint answers fp name s

/-- What a program does: it makes a temporary file, or it closes a stream. -/
inductive Event
  | tmpfile (answers : Answers)
  | fclose (fp : ℕ)

def step (mint : ℤ) : Event → State → Except Fault State
  | .tmpfile answers, s => (tmpfile mint answers s).map (·.2)
  | .fclose fp, s => .ok (fclose fp s).2

def run (mint : ℤ) : List Event → State → Except Fault State
  | [], s => .ok s
  | event :: events, s =>
    match step mint event s with
    | .error fault => .error fault
    | .ok s => run mint events s

/-- What `exit` does with the temporary files. -/
def exit (s : State) : Except Fault State := if s.registered then deleteTmpfiles s else .ok s

def State.init : State := ⟨.null, -1, false, [], []⟩

/-- The run comes to its end, where `exit` leaves no stream open and no file behind. -/
def Safe (mint : ℤ) (events : List Event) (s : State) : Prop :=
  ∃ s₁ s₂, run mint events s = .ok s₁ ∧ exit s₁ = .ok s₂ ∧ s₂.opened = [] ∧ s₂.files = []

/-- A stream that is opened is not open yet, and `tmpnam_r` finds a name that no file has. -/
def Possible : Event → State → Prop
  | .tmpfile answers, s =>
    (∀ fp ∈ answers.fopen, fp ∉ s.opened.map (·.1)) ∧ ∀ name ∈ answers.tmpnam_r, name ∉ s.files
  | .fclose _, _ => True

def Along (P : Event → State → Prop) (mint : ℤ) : List Event → State → Prop
  | [], _ => True
  | event :: events, s =>
    P event s ∧ ∀ s', step mint event s = .ok s' → Along P mint events s'

/-- No `realloc` fails that is reached. -/
def Good : Event → State → Prop
  | .tmpfile answers, s =>
    answers.malloc = true → answers.tmpnam_r ≠ none → answers.fopen ≠ none →
      answers.shrink = true ∧ (0 ≤ s.numtmps → answers.grow = true)
  | .fclose _, _ => True

def recordOf (stream : ℕ × Str) : Option Record := some ⟨some stream.2, stream.1⟩

/-- The list holds the streams `made` with their files, and those that are open are among them. -/
structure Inv (made : List (ℕ × Str)) (s : State) : Prop where
  fps : (s.opened.map (·.1)).Nodup
  opened : ∀ stream ∈ s.opened, stream ∈ made
  files : s.files = made.map (·.2)
  names : (made.map (·.2)).Nodup
  count : s.numtmps + 1 = made.length
  registered : s.registered = true ↔ 0 ≤ s.numtmps
  list : 0 ≤ s.numtmps → s.file_to_delete = .block (made.map recordOf)

theorem inv_init : Inv [] State.init where
  fps := List.nodup_nil
  opened := fun _ h => absurd h List.not_mem_nil
  files := rfl
  names := List.nodup_nil
  count := rfl
  registered := by decide
  list := fun h => absurd h (by decide)

theorem fclose_frame (fp : ℕ) (s : State) :
    (fclose fp s).2 = { s with opened := s.opened.eraseP (·.1 = fp) } := by
  rw [fclose]
  split_ifs with hin
  · rfl
  · have hnone : ∀ stream ∈ s.opened, ¬ decide (stream.1 = fp) = true := by
      intro stream hstream heq
      rw [← of_decide_eq_true heq] at hin
      exact hin (List.mem_map_of_mem hstream)
    rw [List.eraseP_of_forall_not hnone]

theorem mem_closed {fp : ℕ} {stream : ℕ × Str} {opened : List (ℕ × Str)}
    (hfps : (opened.map (·.1)).Nodup) (h : stream ∈ opened.eraseP (·.1 = fp)) :
    stream ∈ opened ∧ stream.1 ≠ fp := by
  induction opened with
  | nil => exact absurd h List.not_mem_nil
  | cons first opened ih =>
    rw [List.map_cons, List.nodup_cons] at hfps
    by_cases heq : first.1 = fp
    · rw [List.eraseP_cons_of_pos (by simpa using heq)] at h
      refine ⟨List.mem_cons_of_mem _ h, fun hsame => ?_⟩
      rw [heq, ← hsame] at hfps
      exact hfps.1 (List.mem_map_of_mem h)
    · rw [List.eraseP_cons_of_neg (by simpa using heq)] at h
      rcases List.mem_cons.mp h with rfl | h
      · exact ⟨List.mem_cons_self, heq⟩
      · obtain ⟨hmem, hne⟩ := ih hfps.2 h
        exact ⟨List.mem_cons_of_mem _ hmem, hne⟩

theorem closed_fps {fp : ℕ} {opened : List (ℕ × Str)} (h : (opened.map (·.1)).Nodup) :
    ((opened.eraseP (·.1 = fp)).map (·.1)).Nodup := h.sublist (List.eraseP_sublist.map _)

/-- Closing a stream and removing its file: the stream may have been closed, or stand for another
file by now. -/
theorem close_remove {s : State} {fp : ℕ} {name : Str} {rest : List (ℕ × Str)}
    (hfps : (s.opened.map (·.1)).Nodup) (hopened : ∀ stream ∈ s.opened, stream ∈ (fp, name) :: rest)
    (hfiles : s.files = name :: rest.map (·.2)) (hname : name ∉ rest.map (·.2)) :
    remove (some name) (fclose fp s).2 =
        .ok (0, { s with opened := s.opened.eraseP (·.1 = fp), files := rest.map (·.2) }) ∧
      ∀ stream ∈ s.opened.eraseP (·.1 = fp), stream ∈ rest := by
  have hrest : ∀ stream ∈ s.opened.eraseP (·.1 = fp), stream ∈ rest := by
    intro stream hstream
    obtain ⟨hmem, hne⟩ := mem_closed hfps hstream
    rcases List.mem_cons.mp (hopened stream hmem) with rfl | hmem
    · exact absurd rfl hne
    · exact hmem
  refine ⟨?_, hrest⟩
  have hclosed : name ∉ (s.opened.eraseP (·.1 = fp)).map (·.2) := by
    intro hin
    obtain ⟨stream, hstream, heq⟩ := List.mem_map.mp hin
    rw [← heq] at hname
    exact hname (List.mem_map_of_mem (hrest stream hstream))
  rw [fclose_frame, remove]
  simp only
  rw [if_neg hclosed, if_pos (by rw [hfiles]; exact List.mem_cons_self), hfiles,
    List.erase_cons_head]

theorem deleteLoop_ok (done : List (Option Record)) {rest : List (ℕ × Str)} {s : State}
    (hlist : s.file_to_delete = .block (done ++ rest.map recordOf))
    (hfps : (s.opened.map (·.1)).Nodup) (hopened : ∀ stream ∈ s.opened, stream ∈ rest)
    (hfiles : s.files = rest.map (·.2)) (hnames : (rest.map (·.2)).Nodup) :
    deleteLoop rest.length done.length s = .ok { s with opened := [], files := [] } := by
  induction rest generalizing done s with
  | nil =>
    have hnone : s.opened = [] := List.eq_nil_iff_forall_not_mem.mpr
      fun stream hstream => List.not_mem_nil (hopened stream hstream)
    rw [List.length_nil, deleteLoop]
    congr 1
    rw [← hnone, show ([] : List Str) = s.files from hfiles.symm]
  | cons stream rest ih =>
    obtain ⟨fp, name⟩ := stream
    rw [List.map_cons, List.nodup_cons] at hnames
    obtain ⟨hremove, hrest⟩ := close_remove hfps hopened hfiles hnames.1
    have hrecord : s.record done.length = .ok ⟨some name, fp⟩ := by
      rw [State.record, hlist]
      simp only
      rw [List.getElem?_append_right le_rfl, Nat.sub_self]
      rfl
    rw [List.length_cons, deleteLoop, hrecord]
    simp only
    rw [hremove]
    simp only
    have hlength : (done ++ [recordOf (fp, name)]).length = done.length + 1 := List.length_append
    rw [← hlength]
    exact ih _ (by rw [hlist, List.append_assoc]; rfl) (closed_fps hfps) hrest rfl hnames.2

theorem delete_tmpfiles_ok {s : State} {made : List (ℕ × Str)}
    (hcount : s.numtmps + 1 = made.length) (hlist : s.file_to_delete = .block (made.map recordOf))
    (hfps : (s.opened.map (·.1)).Nodup) (hopened : ∀ stream ∈ s.opened, stream ∈ made)
    (hfiles : s.files = made.map (·.2)) (hnames : (made.map (·.2)).Nodup) :
    deleteTmpfiles s = .ok { s with opened := [], files := [] } := by
  rw [deleteTmpfiles, hcount, Int.toNat_natCast]
  exact deleteLoop_ok [] hlist hfps hopened hfiles hnames

theorem grow_records (records : List (Option Record)) (r : Option Record) :
    ((List.range (records.length + 1)).map fun i => records.getD i none).set records.length r =
      records ++ [r] := by
  have hrange : (List.range records.length).map (fun i => records.getD i none) = records := by
    apply List.ext_getElem
    · rw [List.length_map, List.length_range]
    · intro i h₁ h₂
      rw [List.getElem_map, List.getElem_range, List.getD_eq_getElem _ _ h₂]
  rw [List.range_succ, List.map_append, hrange, List.set_append_right _ _ le_rfl, Nat.sub_self]
  rfl

section Good

variable {s : State} {fp : ℕ} {name : Str} {made : List (ℕ × Str)}

theorem Inv.added_fps (h : Inv made s) (hfp : fp ∉ s.opened.map (·.1)) :
    ((s.added fp name).opened.map (·.1)).Nodup := by
  rw [State.added, List.map_append, List.map_singleton, ← List.concat_eq_append]
  exact h.fps.concat hfp

theorem Inv.added_opened (h : Inv made s) :
    ∀ stream ∈ (s.added fp name).opened, stream ∈ made ++ [(fp, name)] := by
  intro stream hstream
  rcases List.mem_append.mp hstream with hold | hnew
  · exact List.mem_append_left _ (h.opened stream hold)
  · exact List.mem_append_right _ hnew

theorem Inv.added_names (h : Inv made s) (hname : name ∉ s.files) :
    ((made ++ [(fp, name)]).map (·.2)).Nodup := by
  rw [h.files] at hname
  rw [List.map_append, List.map_singleton, ← List.concat_eq_append]
  exact h.names.concat hname

theorem Inv.added_files (h : Inv made s) :
    (s.added fp name).files = (made ++ [(fp, name)]).map (·.2) := by
  rw [State.added, List.map_append, List.map_singleton, h.files]

theorem Inv.empty (h : Inv made s) (hneg : s.numtmps < 0) :
    s.numtmps = -1 ∧ made = [] ∧ s.opened = [] ∧ s.files = [] ∧ s.registered = false := by
  have hcount := h.count
  obtain rfl : made = [] := List.eq_nil_of_length_eq_zero (by omega)
  have hopened : s.opened = [] := List.eq_nil_iff_forall_not_mem.mpr
    fun stream hstream => List.not_mem_nil (h.opened stream hstream)
  refine ⟨by omega, rfl, hopened, h.files, ?_⟩
  exact Bool.eq_false_iff.mpr (mt h.registered.mp (by omega))

theorem install_refused {answers : Answers} (h : Inv made s) (hneg : s.numtmps < 0)
    (hgrow : answers.grow = false) :
    ∃ r s', install answers fp (some name) (s.added fp name) = .ok (r, s') ∧ Inv [] s' := by
  obtain ⟨hnum, rfl, hopened, hfiles, hregistered⟩ := h.empty hneg
  refine ⟨none, { s with file_to_delete := .null }, ?_, ?_⟩
  · have hadded : (s.added fp name).opened = [(fp, name)] := by rw [State.added, hopened]; rfl
    obtain ⟨hremove, -⟩ := close_remove
      (s := { s.added fp name with file_to_delete := .null, numtmps := s.numtmps + 1 })
      (by rw [hadded]; exact List.nodup_singleton _)
      (show ∀ stream ∈ (s.added fp name).opened, stream ∈ [(fp, name)] by
        rw [hadded]
        exact fun _ hstream => hstream)
      (by rw [State.added, hfiles]; rfl) List.not_mem_nil
    rw [install]
    simp only
    rw [State.grow, if_pos hgrow]
    simp only
    rw [show (s.added fp name).numtmps = s.numtmps from rfl, hremove]
    simp only [hadded, List.map_nil, add_sub_cancel_right]
    rw [List.eraseP_cons_of_pos (by simp), State.added, hopened, hfiles]
  · exact ⟨h.fps, h.opened, h.files, h.names, h.count, h.registered,
      fun hn => absurd hn (by simp only; omega)⟩

theorem install_good {answers : Answers} (h : Inv made s) (hfp : fp ∉ s.opened.map (·.1))
    (hname : name ∉ s.files) (hgrow : 0 ≤ s.numtmps → answers.grow = true) :
    ∃ r s' made', install answers fp (some name) (s.added fp name) = .ok (r, s') ∧
      Inv made' s' := by
  by_cases hok : answers.grow = false
  · have hneg : s.numtmps < 0 := by
      by_contra hpos
      rw [hgrow (by omega)] at hok
      exact absurd hok (by decide)
    obtain ⟨r, s', hinstall, hinv⟩ :
        ∃ r s', install answers fp (some name) (s.added fp name) = .ok (r, s') ∧ Inv [] s' :=
      install_refused h hneg hok
    exact ⟨r, s', [], hinstall, hinv⟩
  have hcount := h.count
  -- the list is as long as `made`, and gets the record of the new one
  have hblock : ∃ records,
      (s.added fp name).grow (s.numtmps + 1) answers.grow = .ok (.block records) ∧
      records.set (s.numtmps + 1).toNat (some ⟨some name, fp⟩) =
        (made ++ [(fp, name)]).map recordOf := by
    rw [State.grow, if_neg hok]
    by_cases hzero : s.numtmps + 1 = 0
    · obtain ⟨-, rfl, -⟩ := h.empty (by omega)
      refine ⟨[none], if_pos hzero, ?_⟩
      rw [hzero]
      rfl
    · have hnum : (s.numtmps + 1).toNat = (made.map recordOf).length := by
        rw [List.length_map]
        omega
      have hnext : (s.numtmps + 1 + 1).toNat = (made.map recordOf).length + 1 := by
        rw [List.length_map]
        omega
      refine ⟨(List.range (s.numtmps + 1 + 1).toNat).map
        fun i => (made.map recordOf).getD i none, ?_, ?_⟩
      · rw [if_neg hzero, State.added]
        simp only
        rw [h.list (by omega)]
      · rw [hnext, hnum, grow_records, List.map_append]
        rfl
  obtain ⟨records, hrecords, hset⟩ := hblock
  have hlength : (made ++ [(fp, name)]).length = made.length + 1 := List.length_append
  rw [install]
  simp only
  rw [show (s.added fp name).numtmps = s.numtmps from rfl, hrecords]
  simp only
  rw [hset]
  by_cases hzero : s.numtmps + 1 = 0
  · rw [if_pos hzero, register]
    by_cases hatexit : answers.atexit = false
    · have hdelete := delete_tmpfiles_ok (s := { s.added fp name with
        file_to_delete := .block ((made ++ [(fp, name)]).map recordOf)
        numtmps := s.numtmps + 1 })
        (by simp only; omega) rfl (h.added_fps hfp) h.added_opened h.added_files
        (h.added_names hname)
      rw [if_pos hatexit, hdelete]
      have hnone : ¬ (0 : ℤ) ≤ -1 := by decide
      have hunregistered : s.registered = false := (h.empty (by omega)).2.2.2.2
      exact ⟨_, _, [], rfl, List.nodup_nil, fun _ hstream => hstream, rfl, List.nodup_nil, rfl,
        ⟨fun hr => absurd (hunregistered.symm.trans hr) (by decide), fun hn => absurd hn hnone⟩,
        fun hn => absurd hn hnone⟩
    · rw [if_neg hatexit]
      exact ⟨_, _, made ++ [(fp, name)], rfl, h.added_fps hfp, h.added_opened, h.added_files,
        h.added_names hname, by simp only; omega, ⟨fun _ => by simp only; omega, fun _ => rfl⟩,
        fun _ => rfl⟩
  · rw [if_neg hzero]
    have hregistered : s.registered = true := h.registered.mpr (by omega)
    exact ⟨_, _, made ++ [(fp, name)], rfl, h.added_fps hfp, h.added_opened, h.added_files,
      h.added_names hname, by simp only; omega,
      ⟨fun _ => by simp only; omega, fun _ => hregistered⟩, fun _ => rfl⟩

theorem withFile_good (mint : ℤ) {answers : Answers} (h : Inv made s)
    (hfp : fp ∉ s.opened.map (·.1)) (hname : name ∉ s.files) (hshrink : answers.shrink = true)
    (hgrow : 0 ≤ s.numtmps → answers.grow = true) :
    ∃ r s' made', withFile mint answers fp name s = .ok (r, s') ∧ Inv made' s' := by
  have hin : name ∈ (s.added fp name).opened.map (·.2) := by
    rw [State.added, List.map_append]
    exact List.mem_append_right _ (List.mem_singleton_self _)
  have hjunknam : (if answers.shrink then some name else none) = some name := if_pos hshrink
  simp only [withFile, hjunknam]
  by_cases hmint : 9 ≤ mint
  · have hremove : remove (some name) (s.added fp name) = .ok (-1, s.added fp name) := if_pos hin
    rw [if_pos hmint, hremove]
    simp only
    rw [if_neg (by decide)]
    exact install_good h hfp hname hgrow
  · rw [if_neg hmint]
    exact install_good h hfp hname hgrow

end Good

theorem step_good (mint : ℤ) {event : Event} {s : State} {made : List (ℕ × Str)}
    (h : Inv made s) (hpossible : Possible event s) (hgood : Good event s) :
    ∃ s' made', step mint event s = .ok s' ∧ Inv made' s' := by
  cases event with
  | fclose fp =>
    refine ⟨(fclose fp s).2, made, rfl, ?_⟩
    rw [fclose_frame]
    exact ⟨closed_fps h.fps, fun stream hstream => h.opened stream (mem_closed h.fps hstream).1,
      h.files, h.names, h.count, h.registered, h.list⟩
  | tmpfile answers =>
    rw [step, tmpfile]
    by_cases hmalloc : answers.malloc = true
    · rw [if_pos hmalloc]
      cases hname : answers.tmpnam_r with
      | none => exact ⟨s, made, rfl, h⟩
      | some name =>
        cases hfopen : answers.fopen with
        | none => exact ⟨s, made, rfl, h⟩
        | some fp =>
          obtain ⟨hshrink, hgrow⟩ := hgood hmalloc (by rw [hname]; exact Option.some_ne_none _)
            (by rw [hfopen]; exact Option.some_ne_none _)
          obtain ⟨r, s', made', hfile, hinv⟩ := withFile_good mint h (hpossible.1 fp hfopen)
            (hpossible.2 name hname) hshrink hgrow
          simp only
          rw [hfile]
          exact ⟨s', made', rfl, hinv⟩
    · rw [if_neg hmalloc]
      exact ⟨s, made, rfl, h⟩

theorem exit_good {s : State} {made : List (ℕ × Str)} (h : Inv made s) :
    ∃ s', exit s = .ok s' ∧ s'.opened = [] ∧ s'.files = [] := by
  by_cases hnum : 0 ≤ s.numtmps
  · have hdelete := delete_tmpfiles_ok h.count (h.list hnum) h.fps h.opened h.files h.names
    rw [exit, if_pos (h.registered.mpr hnum), hdelete]
    exact ⟨_, rfl, rfl, rfl⟩
  · obtain ⟨-, -, hopened, hfiles, hregistered⟩ := h.empty (by omega)
    rw [exit, hregistered]
    exact ⟨s, rfl, hopened, hfiles⟩

theorem safe_of_good {mint : ℤ} {events : List Event} {s : State} {made : List (ℕ × Str)}
    (h : Inv made s)
    (hpossible : Along Possible mint events s) (hgood : Along Good mint events s) :
    Safe mint events s := by
  induction events generalizing s made with
  | nil =>
    obtain ⟨s', hexit, hopened, hfiles⟩ := exit_good h
    exact ⟨s, s', rfl, hexit, hopened, hfiles⟩
  | cons event events ih =>
    obtain ⟨s', made', hstep, hinv⟩ := step_good mint h hpossible.1 hgood.1
    obtain ⟨s₁, s₂, hrun, hsafe⟩ := ih hinv (hpossible.2 s' hstep) (hgood.2 s' hstep)
    refine ⟨s₁, s₂, ?_, hsafe⟩
    rw [run, hstep]
    exact hrun

/-- The records that `exit` goes by are there. -/
def Sound (s : State) : Prop :=
  ∀ i : ℕ, (i : ℤ) ≤ s.numtmps → ∃ name fp, s.record i = .ok ⟨some name, fp⟩

/-- `exit` will run into a fault. -/
def Doomed (s : State) : Prop := s.registered = true ∧ 0 ≤ s.numtmps ∧ ¬ Sound s

theorem record_congr {s s' : State} (h : s.file_to_delete = s'.file_to_delete) (i : ℕ) :
    s.record i = s'.record i := by
  rw [State.record, State.record, h]

theorem remove_frame {name : Option Str} {status : ℤ} {s s' : State}
    (h : remove name s = .ok (status, s')) : s' = { s with files := s'.files } ∧ name ≠ none := by
  cases name with
  | none => exact absurd h (by simp [remove])
  | some name =>
    refine ⟨?_, Option.some_ne_none _⟩
    rw [remove] at h
    split_ifs at h
    all_goals
      cases h
      rfl

theorem deleteLoop_sound {k i : ℕ} {s s' : State} (h : deleteLoop k i s = .ok s') :
    ∀ j < k, ∃ name fp, s.record (i + j) = .ok ⟨some name, fp⟩ := by
  induction k generalizing i s with
  | zero => exact fun j hj => absurd hj (Nat.not_lt_zero j)
  | succ k ih =>
    rw [deleteLoop] at h
    cases hrecord : s.record i with
    | error fault =>
      rw [hrecord] at h
      exact absurd h (by simp)
    | ok r =>
      rw [hrecord] at h
      simp only [fclose_frame] at h
      cases hremove : remove r.name { s with opened := s.opened.eraseP (·.1 = r.fp) } with
      | error fault =>
        rw [hremove] at h
        exact absurd h (by simp)
      | ok result =>
        obtain ⟨status, s₁⟩ := result
        rw [hremove] at h
        obtain ⟨hframe, hname⟩ := remove_frame hremove
        have hlist : s₁.file_to_delete = s.file_to_delete := by rw [hframe]
        intro j hj
        cases j with
        | zero =>
          obtain ⟨name, hname⟩ := Option.ne_none_iff_exists'.mp hname
          refine ⟨name, r.fp, ?_⟩
          rw [Nat.add_zero, hrecord, ← hname]
        | succ j =>
          have hj' := ih h j (by omega)
          rw [record_congr hlist, Nat.add_assoc, Nat.add_comm 1] at hj'
          exact hj'

theorem delete_tmpfiles_sound {s s' : State} (h : deleteTmpfiles s = .ok s') : Sound s := by
  intro i hi
  have hrecord := deleteLoop_sound h i (by omega)
  rw [Nat.zero_add] at hrecord
  exact hrecord

theorem not_safe_of_doomed {s s' : State} (h : Doomed s) : exit s ≠ .ok s' := by
  intro hexit
  rw [exit, if_pos h.1] at hexit
  exact h.2.2 (delete_tmpfiles_sound hexit)

theorem grow_sound {s : State} {records : List (Option Record)} {ok : Bool} {numtmps : ℤ}
    (hnum : 0 ≤ numtmps) (h : s.grow (numtmps + 1) ok = .ok (.block records)) :
    ok = true ∧ records.length = (numtmps + 1 + 1).toNat ∧
      ∀ (i : ℕ) r, records[i]? = some (some r) → s.record i = .ok r := by
  rw [State.grow] at h
  split_ifs at h with hok hzero
  · exact absurd h (by simp)
  · omega
  refine ⟨by simpa using hok, ?_⟩
  cases hlist : s.file_to_delete with
  | freed =>
    rw [hlist] at h
    exact absurd h (by simp)
  | null =>
    rw [hlist] at h
    cases h
    refine ⟨List.length_replicate, ?_⟩
    intro i r hr
    rw [List.getElem?_replicate] at hr
    split_ifs at hr
    exact absurd hr (by simp)
  | block old =>
    rw [hlist] at h
    cases h
    refine ⟨by rw [List.length_map, List.length_range], ?_⟩
    intro i r hr
    rw [List.getElem?_map, Option.map_eq_some_iff] at hr
    obtain ⟨j, hj, hr⟩ := hr
    obtain ⟨hi, rfl⟩ := List.getElem?_eq_some_iff.mp hj
    rw [List.getElem_range] at hr
    have hold : old[i]? = some (some r) := by
      rw [List.getD_eq_getElem?_getD] at hr
      cases hold : old[i]? with
      | none =>
        rw [hold] at hr
        exact absurd hr (by simp)
      | some entry =>
        rw [hold] at hr
        rw [← hr]
        rfl
    rw [State.record, hlist]
    simp only
    rw [hold]

theorem install_sound {answers : Answers} {fp : ℕ} {junknam : Option Str} {s s' : State}
    {r : Option ℕ} (hnum : 0 ≤ s.numtmps) (h : install answers fp junknam s = .ok (r, s')) :
    s'.registered = s.registered ∧ 0 ≤ s'.numtmps ∧
      (Sound s' → answers.grow = true ∧ junknam ≠ none ∧ Sound s) := by
  rw [install] at h
  simp only at h
  cases hgrow : s.grow (s.numtmps + 1) answers.grow with
  | error fault =>
    rw [hgrow] at h
    exact absurd h (by simp)
  | ok block =>
    rw [hgrow] at h
    cases block with
    | block records =>
      obtain ⟨hok, hlength, hrecords⟩ := grow_sound hnum hgrow
      simp only at h
      rw [if_neg (by omega)] at h
      cases h
      refine ⟨rfl, by simp only; omega, ?_⟩
      intro hsound
      unfold Sound at hsound
      simp only at hsound
      refine ⟨hok, ?_, ?_⟩
      · -- the new record is the last one
        obtain ⟨name, fp', hlast⟩ := hsound (s.numtmps + 1).toNat (by omega)
        rw [State.record] at hlast
        simp only at hlast
        rw [List.getElem?_set_self (by omega)] at hlast
        cases hlast
        exact Option.some_ne_none _
      · intro i hi
        obtain ⟨name, fp', hrecord⟩ := hsound i (by omega)
        rw [State.record] at hrecord
        simp only at hrecord
        rw [List.getElem?_set_ne (by omega)] at hrecord
        refine ⟨name, fp', hrecords i _ ?_⟩
        cases hentry : records[i]? with
        | none =>
          rw [hentry] at hrecord
          exact absurd hrecord (by simp)
        | some entry =>
          rw [hentry] at hrecord
          cases entry with
          | none => exact absurd hrecord (by simp)
          | some entry =>
            cases hrecord
            rfl
    | _ =>
      -- without a list there is nothing to go by
      simp only [fclose_frame] at h
      cases hremove : remove junknam { s with
          file_to_delete := .null
          numtmps := s.numtmps + 1
          opened := s.opened.eraseP (·.1 = fp) } with
      | error fault =>
        rw [hremove] at h
        exact absurd h (by simp)
      | ok result =>
        obtain ⟨status, s₁⟩ := result
        rw [hremove] at h
        have hframe := (remove_frame hremove).1
        have hnum₁ : s₁.numtmps = s.numtmps + 1 := by rw [hframe]
        have hlist₁ : s₁.file_to_delete = .null := by rw [hframe]
        have hregistered₁ : s₁.registered = s.registered := by rw [hframe]
        cases h
        refine ⟨hregistered₁, by simp only; omega, ?_⟩
        intro hsound
        obtain ⟨name, fp', hrecord⟩ := hsound 0 (by simp only; omega)
        rw [State.record] at hrecord
        simp only at hrecord
        rw [hlist₁] at hrecord
        exact absurd hrecord (by simp)

theorem install_nameless {answers : Answers} {fp : ℕ} {s s' : State} {r : Option ℕ}
    (hnum : s.numtmps = -1) (h : install answers fp none s = .ok (r, s')) : Doomed s' := by
  have hzero : s.numtmps + 1 = 0 := by omega
  rw [install] at h
  simp only at h
  rw [hzero, State.grow] at h
  by_cases hok : answers.grow = false
  · rw [if_pos hok] at h
    simp only at h
    exact absurd h (by simp [remove])
  · rw [if_neg hok, if_pos rfl] at h
    simp only [if_true] at h
    rw [register] at h
    have hunsound : ∀ registered, ¬ Sound { s with
        file_to_delete := .block [some ⟨none, fp⟩], numtmps := 0, registered := registered } := by
      intro registered hsound
      obtain ⟨name, fp', hrecord⟩ := hsound 0 le_rfl
      exact absurd hrecord (by simp [State.record])
    by_cases hatexit : answers.atexit = false
    · rw [if_pos hatexit] at h
      cases hdelete : deleteTmpfiles { s with
          file_to_delete := .block [some ⟨none, fp⟩], numtmps := 0 } with
      | error fault =>
        rw [show ([none] : List (Option Record)).set (0 : ℤ).toNat (some ⟨none, fp⟩) =
          [some ⟨none, fp⟩] from rfl, hdelete] at h
        exact absurd h (by simp)
      | ok s₁ =>
        exact absurd (delete_tmpfiles_sound hdelete) (hunsound _)
    · rw [if_neg hatexit] at h
      cases h
      exact ⟨rfl, le_rfl, hunsound true⟩

theorem withFile_install {mint : ℤ} {answers : Answers} {fp : ℕ} {name : Str} {s s' : State}
    {r : Option ℕ} (h : withFile mint answers fp name s = .ok (r, s')) :
    install answers fp (if answers.shrink then some name else none) (s.added fp name) =
      .ok (r, s') := by
  have hin : name ∈ (s.added fp name).opened.map (·.2) := by
    rw [State.added, List.map_append]
    exact List.mem_append_right _ (List.mem_singleton_self _)
  simp only [withFile] at h
  by_cases hmint : 9 ≤ mint
  · rw [if_pos hmint] at h
    by_cases hshrink : answers.shrink = true
    · have hremove : remove (some name) (s.added fp name) = .ok (-1, s.added fp name) := if_pos hin
      rw [if_pos hshrink, hremove] at h
      simp only at h
      rw [if_neg (by decide)] at h
      rw [if_pos hshrink]
      exact h
    · rw [if_neg hshrink] at h
      exact absurd h (by simp [remove])
  · rw [if_neg hmint] at h
    exact h

theorem withFile_sound {mint : ℤ} {answers : Answers} {fp : ℕ} {name : Str} {s s' : State}
    {r : Option ℕ} (hnum : 0 ≤ s.numtmps) (h : withFile mint answers fp name s = .ok (r, s')) :
    s'.registered = s.registered ∧ 0 ≤ s'.numtmps ∧
      (Sound s' → answers.grow = true ∧ answers.shrink = true ∧ Sound s) := by
  obtain ⟨hregistered, hnum', hsound⟩ :=
    install_sound (s := s.added fp name) hnum (withFile_install h)
  refine ⟨hregistered, hnum', ?_⟩
  intro hs'
  obtain ⟨hgrow, hname, hrecords⟩ := hsound hs'
  refine ⟨hgrow, ?_, hrecords⟩
  by_contra hshrink
  exact hname (if_neg hshrink)

theorem step_doomed {mint : ℤ} {event : Event} {s s' : State} (h : Doomed s)
    (hstep : step mint event s = .ok s') : Doomed s' := by
  obtain ⟨hregistered, hnum, hunsound⟩ := h
  cases event with
  | fclose fp =>
    rw [step, fclose_frame] at hstep
    cases hstep
    exact ⟨hregistered, hnum, hunsound⟩
  | tmpfile answers =>
    rw [step, tmpfile] at hstep
    cases hname : (if answers.malloc = true then answers.tmpnam_r else none) with
    | none =>
      rw [hname] at hstep
      cases hstep
      exact ⟨hregistered, hnum, hunsound⟩
    | some name =>
      rw [hname] at hstep
      cases hfopen : answers.fopen with
      | none =>
        rw [hfopen] at hstep
        cases hstep
        exact ⟨hregistered, hnum, hunsound⟩
      | some fp =>
        rw [hfopen] at hstep
        simp only at hstep
        cases hfile : withFile mint answers fp name s with
        | error fault =>
          rw [hfile] at hstep
          exact absurd hstep (by simp [Except.map])
        | ok result =>
          obtain ⟨r, s₁⟩ := result
          rw [hfile] at hstep
          cases hstep
          obtain ⟨hregistered', hnum', hsound⟩ := withFile_sound hnum hfile
          exact ⟨hregistered'.trans hregistered, hnum', fun hs => hunsound (hsound hs).2.2⟩

theorem not_safe_of_doomed_run {mint : ℤ} {events : List Event} {s : State} (h : Doomed s) :
    ¬ Safe mint events s := by
  induction events generalizing s with
  | nil =>
    rintro ⟨s₁, s₂, hrun, hexit, -⟩
    cases hrun
    exact not_safe_of_doomed h hexit
  | cons event events ih =>
    rintro ⟨s₁, s₂, hrun, hsafe⟩
    rw [run] at hrun
    cases hstep : step mint event s with
    | error fault =>
      rw [hstep] at hrun
      exact absurd hrun (by simp)
    | ok s' =>
      rw [hstep] at hrun
      exact ih (step_doomed h hstep) ⟨s₁, s₂, hrun, hsafe⟩

theorem step_bad {mint : ℤ} {event : Event} {s s' : State} {made : List (ℕ × Str)}
    (h : Inv made s) (hbad : ¬ Good event s) (hstep : step mint event s = .ok s') :
    Doomed s' := by
  have hcount := h.count
  cases event with
  | fclose fp =>
    exact absurd trivial hbad
  | tmpfile answers =>
    rw [Good] at hbad
    push Not at hbad
    obtain ⟨hmalloc, htmpnam, hfopen, hshort⟩ := hbad
    obtain ⟨name, hname⟩ := Option.ne_none_iff_exists'.mp htmpnam
    obtain ⟨fp, hfp⟩ := Option.ne_none_iff_exists'.mp hfopen
    rw [step, tmpfile, if_pos hmalloc, hname] at hstep
    simp only at hstep
    rw [hfp] at hstep
    simp only at hstep
    cases hfile : withFile mint answers fp name s with
    | error fault =>
      rw [hfile] at hstep
      exact absurd hstep (by simp [Except.map])
    | ok result =>
      obtain ⟨r, s₁⟩ := result
      rw [hfile] at hstep
      cases hstep
      by_cases hnum : 0 ≤ s.numtmps
      · obtain ⟨hregistered', hnum', hsound⟩ := withFile_sound hnum hfile
        refine ⟨hregistered'.trans (h.registered.mpr hnum), hnum', fun hs => ?_⟩
        obtain ⟨hgrow, hshrink, -⟩ := hsound hs
        exact (hshort hshrink).2 hgrow
      · have hshrink : ¬ answers.shrink = true := fun hok => hnum (hshort hok).1
        have hinstall := withFile_install hfile
        rw [if_neg hshrink] at hinstall
        exact install_nameless (s := s.added fp name) (show s.numtmps = -1 by omega) hinstall

/-- A run ends well exactly when no `realloc` that is reached in it fails, whichever streams the
program closes itself. -/
theorem tmpfiles_removed_iff (mint : ℤ) (events : List Event)
    (hpossible : Along Possible mint events State.init) :
    Safe mint events State.init ↔ Along Good mint events State.init := by
  constructor
  · have hall : ∀ events made s, Inv made s → Along Possible mint events s →
        Safe mint events s → Along Good mint events s := by
      intro events
      induction events with
      | nil => exact fun _ _ _ _ _ => trivial
      | cons event events ih =>
        rintro made s h hpossible ⟨s₁, s₂, hrun, hsafe⟩
        rw [run] at hrun
        cases hstep : step mint event s with
        | error fault =>
          rw [hstep] at hrun
          exact absurd hrun (by simp)
        | ok s' =>
          rw [hstep] at hrun
          have hrest : Safe mint events s' := ⟨s₁, s₂, hrun, hsafe⟩
          have hgood : Good event s := by
            by_contra hbad
            exact not_safe_of_doomed_run (step_bad h hbad hstep) hrest
          obtain ⟨s'', made', hstep', hinv⟩ := step_good mint h hpossible.1 hgood
          obtain rfl : s' = s'' := by
            rw [hstep] at hstep'
            exact Except.ok.inj hstep'
          refine ⟨hgood, ?_⟩
          rintro t ht
          obtain rfl : s' = t := by
            rw [hstep] at ht
            exact Except.ok.inj ht
          exact ih made' s' hinv (hpossible.2 s' hstep) hrest
    exact hall events [] State.init inv_init hpossible
  · exact safe_of_good inv_init hpossible

def answered (name : Str) (fp : ℕ) : Answers := ⟨true, some name, some fp, true, true, true⟩

/-- The program closes the second stream itself, and its number stands for the third file then. -/
theorem tmpfiles_removed_demo :
    Safe 10 [.tmpfile (answered [97] 3), .tmpfile (answered [98] 4), .fclose 4,
      .tmpfile (answered [99] 4)] State.init := by
  have hfirst : step 10 (.tmpfile (answered [97] 3)) State.init =
      .ok ⟨.block [some ⟨some [97], 3⟩], 0, true, [(3, [97])], [[97]]⟩ := rfl
  have hsecond : step 10 (.tmpfile (answered [98] 4))
      ⟨.block [some ⟨some [97], 3⟩], 0, true, [(3, [97])], [[97]]⟩ =
      .ok ⟨.block [some ⟨some [97], 3⟩, some ⟨some [98], 4⟩], 1, true, [(3, [97]), (4, [98])],
        [[97], [98]]⟩ := rfl
  have hthird : step 10 (.fclose 4)
      ⟨.block [some ⟨some [97], 3⟩, some ⟨some [98], 4⟩], 1, true, [(3, [97]), (4, [98])],
        [[97], [98]]⟩ =
      .ok ⟨.block [some ⟨some [97], 3⟩, some ⟨some [98], 4⟩], 1, true, [(3, [97])],
        [[97], [98]]⟩ := rfl
  have hgood : Along Good 10 [.tmpfile (answered [97] 3), .tmpfile (answered [98] 4), .fclose 4,
      .tmpfile (answered [99] 4)] State.init :=
    ⟨fun _ _ _ => ⟨rfl, fun _ => rfl⟩, fun _ _ => ⟨fun _ _ _ => ⟨rfl, fun _ => rfl⟩, fun _ _ =>
      ⟨trivial, fun _ _ => ⟨fun _ _ _ => ⟨rfl, fun _ => rfl⟩, fun _ _ => trivial⟩⟩⟩⟩
  have hpossible : Along Possible 10 [.tmpfile (answered [97] 3), .tmpfile (answered [98] 4),
      .fclose 4, .tmpfile (answered [99] 4)] State.init := by
    refine ⟨⟨fun fp _ => List.not_mem_nil, fun name _ => List.not_mem_nil⟩, ?_⟩
    intro s hs
    rw [hfirst] at hs
    cases hs
    refine ⟨⟨?_, ?_⟩, ?_⟩
    · rintro fp hfp
      cases hfp
      decide
    · rintro name hname
      cases hname
      decide
    intro s hs
    rw [hsecond] at hs
    cases hs
    refine ⟨trivial, ?_⟩
    intro s hs
    rw [hthird] at hs
    cases hs
    refine ⟨⟨?_, ?_⟩, fun _ _ => trivial⟩
    · rintro fp hfp
      cases hfp
      decide
    · rintro name hname
      cases hname
      decide
  exact (tmpfiles_removed_iff 10 _ hpossible).mpr hgood

/-- The list is lost with the second call, and `exit` goes by its index. -/
theorem exit_without_list :
    ∃ s, run 10 [.tmpfile (answered [97] 3), .tmpfile { answered [98] 4 with grow := false }]
      State.init = .ok s ∧ exit s = .error .null :=
  ⟨_, rfl, rfl⟩

end Mintlib.Tmpfile
