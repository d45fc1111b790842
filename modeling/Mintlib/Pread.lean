import Mintlib.Lseek
import Mintlib.Posix

/-!
# Reading somewhere else in a file: `pread.c`

`pread` seeks with `lseek`, reads and seeks back. If the kernel does not let the position be
past the end of the file, `lseek` extends it, so a read there does too.
-/

namespace Mintlib.Pread

open Text Stdio Lseek Posix

/-- `read`: it fails, or takes what there is up to the end of the file. -/
def read (fails : Handle → ℕ → Option ℕ+) (handle : Handle) (nbyte : ℕ) :
    Except (Option ℕ) Str × Handle :=
  match fails handle nbyte with
  | some errno => (.error (some errno), handle)
  | none =>
    let bytes := (handle.content.drop handle.pos).take nbyte
    (.ok bytes, { handle with pos := handle.pos + bytes.length })

/-- `__pread`: the bytes or `errno`. -/
def pread (kernel : Kernel) (fails : Handle → ℕ → Option ℕ+) (handle : Handle) (nbyte : ℕ)
    (offset : ℤ) : Option (Except (Option ℕ) Str × Handle) :=
  match lseek kernel handle 0 .SEEK_CUR with
  | none => none
  | some (.error errno, handle) => some (.error errno, handle)
  | some (.ok old_offset, handle) =>
    match lseek kernel handle offset .SEEK_SET with
    | none => none
    -- the position stays where this left it
    | some (.error errno, handle) => some (.error errno, handle)
    | some (.ok _, handle) =>
      let (result, handle) := read fails handle nbyte
      match lseek kernel handle old_offset .SEEK_SET, result with
      | none, _ => none
      | some (.error _, handle), .error save_errno => some (.error save_errno, handle)
      | some (.error errno, handle), .ok _ => some (.error errno, handle)
      | some (.ok _, handle), result => some (result, handle)

section Seeks

variable (kernel : Kernel) (handle : Handle) {offset : ℤ}

theorem lseek_cur (h : Open kernel handle handle.pos) :
    lseek kernel handle 0 .SEEK_CUR = some (.ok (handle.pos : ℤ), handle) := by
  rw [lseek, if_pos (Or.inr le_rfl), fseek_cur h]
  simp only [if_neg (not_lt.mpr (Int.natCast_nonneg handle.pos))]

/-- A position that the kernel does not let be: the kernel rejects the seek or goes to the end. -/
theorem lseek_closed {handle : Handle} (hpos : ¬ Open kernel handle handle.pos) :
    lseek kernel handle 0 .SEEK_CUR =
      match kernel.past handle handle.pos with
      | some e => some (.error (seekError (-(e : ℤ))), handle)
      | none => some (.ok (handle.content.length : ℤ), atEnd handle) := by
  have hto : target handle 0 .SEEK_CUR = handle.pos := add_zero _
  have hseek := @fseek_past kernel handle 0 .SEEK_CUR
    (by rw [hto]; exact Int.natCast_nonneg _) (by rw [hto]; exact hpos)
  rw [hto] at hseek
  rw [lseek, if_pos (Or.inr le_rfl), hseek]
  cases kernel.past handle handle.pos with
  | none => simp only [if_neg (not_lt.mpr (Int.natCast_nonneg handle.content.length))]
  | some e =>
    have he : -(e : ℤ) < 0 := by
      have hpos := e.pos
      omega
    simp only [if_pos he]

theorem lseek_negative (h : offset < 0) :
    lseek kernel handle offset .SEEK_SET = some (.error (some EINVAL), handle) := by
  have hseek : Fseek kernel offset handle .SEEK_SET = (-(EBADARG : ℤ), handle) := if_pos h
  rw [lseek, if_pos (Or.inr h.le), hseek]
  rfl

theorem lseek_set (hpos : Open kernel handle handle.pos) (h : Open kernel handle offset) :
    lseek kernel handle offset .SEEK_SET =
      some (.ok offset, { handle with pos := offset.toNat }) :=
  lseek_open (by decide) hpos (fun hmode => absurd hmode (by decide)) h

theorem lseek_beyond (hlt : offset < 2 ^ 31) (hpos : Open kernel handle handle.pos)
    (hnonneg : 0 ≤ offset) (h : ¬ Open kernel handle offset) :
    (handle.content.length : ℤ) < offset ∧ lseek kernel handle offset .SEEK_SET =
      extend kernel offset (offset - handle.content.length).toNat handle.content.length
        (atEnd handle) := by
  have hout : (handle.content.length : ℤ) < offset := not_le.mp fun hin => h ⟨hnonneg, Or.inl hin⟩
  exact ⟨hout, lseek_past (by decide) hpos (by omega) hlt hnonneg h⟩

def FirstTaken (offset : ℤ) : Prop :=
  ∃ n, kernel.write (atEnd handle)
    (List.replicate (min 256 (offset - handle.content.length).toNat) 0) = .ok n ∧ 0 < n

theorem write_taken {n m : ℕ} (hm : 0 < m) (hn : 0 < n)
    (h : kernel.write (atEnd handle) (List.replicate m 0) = .ok n) :
    ∃ (k : ℕ) (handle' : Handle),
      write kernel (atEnd handle) (List.replicate m 0) = ((k : ℤ), none, handle') ∧
      0 < k ∧ k ≤ m ∧ handle'.content = handle.content ++ List.replicate k 0 ∧
      handle'.pos = handle'.content.length := by
  have hbytes : (List.replicate m (0 : UInt8)).take n = List.replicate (min n m) 0 :=
    List.take_replicate
  have hput : (atEnd handle).put (List.replicate (min n m) 0) =
      handle.content ++ List.replicate (min n m) 0 := put_end rfl
  unfold write
  rw [h]
  simp only [hbytes, List.length_replicate]
  refine ⟨min n m, _, rfl, lt_min hn hm, Nat.min_le_right _ _, hput, ?_⟩
  show handle.content.length + min n m = ((atEnd handle).put _).length
  rw [hput, List.length_append, List.length_replicate]

theorem write_refused {buf : Str}
    (h : ∀ n, kernel.write (atEnd handle) buf = .ok n → n = 0) :
    ∃ k errno handle', write kernel (atEnd handle) buf = (k, errno, handle') ∧ k ≤ 0 ∧
      handle'.content = handle.content ∧ handle'.pos = handle.content.length := by
  unfold write
  cases hwrite : kernel.write (atEnd handle) buf with
  | error e => exact ⟨-1, some e, _, rfl, by decide, rfl, rfl⟩
  | ok n =>
    have hn : n = 0 := h n hwrite
    subst hn
    refine ⟨0, none, _, rfl, le_rfl, ?_, rfl⟩
    show (atEnd handle).put [] = handle.content
    rw [put_end rfl]
    exact List.append_nil _

/-- Nothing happens to the file if the first write takes nothing, but the position is at the
end. -/
theorem lseek_refused (hlt : offset < 2 ^ 31) (hpos : Open kernel handle handle.pos)
    (hnonneg : 0 ≤ offset) (hno : ¬ Open kernel handle offset)
    (h : ¬ FirstTaken kernel handle offset) :
    ∃ errno handle', lseek kernel handle offset .SEEK_SET = some (.error errno, handle') ∧
      handle'.content = handle.content ∧ handle'.pos = handle.content.length := by
  obtain ⟨hout, hseek⟩ := lseek_beyond kernel handle hlt hpos hnonneg hno
  obtain ⟨turns, hturns⟩ : ∃ turns, (offset - handle.content.length).toNat = turns + 1 :=
    Nat.exists_eq_succ_of_ne_zero (by omega)
  obtain ⟨k, errno, handle', hwrite, hk, hcontent, hend⟩ := write_refused kernel handle
    (fun n hn => Nat.eq_zero_of_not_pos fun hpos => h ⟨n, hn, hpos⟩)
  have hne : k ≠ ((min 256 (offset - handle.content.length).toNat : ℕ) : ℤ) := by omega
  refine ⟨errno.map (↑), handle', ?_, hcontent, hend⟩
  rw [hseek, hturns, extend, if_pos hout]
  simp only [chunk_eq hout (show offset - handle.content.length < 2 ^ 31 by omega),
    Int.toNat_natCast, hwrite]
  rw [if_pos hne, if_neg (not_lt.mpr hk)]

/-- The file grows if the first write takes something, and the position is at its end if `lseek`
succeeds. -/
theorem lseek_grows (hlt : offset < 2 ^ 31) (hpos : Open kernel handle handle.pos)
    (hnonneg : 0 ≤ offset) (hno : ¬ Open kernel handle offset)
    (h : FirstTaken kernel handle offset) :
    ∃ result handle', lseek kernel handle offset .SEEK_SET = some (result, handle') ∧
      handle.content.length < handle'.content.length ∧
      ∀ r, result = .ok r → Open kernel handle' handle'.pos := by
  obtain ⟨hout, hseek⟩ := lseek_beyond kernel handle hlt hpos hnonneg hno
  obtain ⟨turns, hturns⟩ : ∃ turns, (offset - handle.content.length).toNat = turns + 1 :=
    Nat.exists_eq_succ_of_ne_zero (by omega)
  obtain ⟨n, hn, hn0⟩ := h
  obtain ⟨k, grown, hwrite, hk, hkm, hcontent, hend⟩ :=
    write_taken kernel handle (m := min 256 (offset - handle.content.length).toNat)
      (by omega) hn0 hn
  have hlength : grown.content.length = handle.content.length + k := by
    rw [hcontent, List.length_append, List.length_replicate]
  rw [hseek, hturns, extend, if_pos hout]
  simp only [chunk_eq hout (show offset - handle.content.length < 2 ^ 31 by omega),
    Int.toNat_natCast, hwrite]
  by_cases hfull : (k : ℤ) ≠ ((min 256 (offset - handle.content.length).toNat : ℕ) : ℤ)
  · rw [if_pos hfull]
    exact ⟨_, _, rfl, by omega, fun _ _ => open_inside hend.le⟩
  · rw [if_neg hfull]
    rw [not_not] at hfull
    rw [long_eq (by omega) (by omega)]
    have hself : Extended grown grown :=
      ⟨⟨0, by rw [List.replicate_zero, List.append_nil]⟩, hend⟩
    have hat : (handle.content.length : ℤ) + (min 256 (offset - handle.content.length).toNat : ℕ) =
        grown.pos := by
      rw [hend, hlength]
      omega
    obtain ⟨⟨result, handle'⟩, hfound, hsought⟩ :
        ∃ found, extend kernel offset turns _ grown = some found ∧
          Sought kernel grown offset found :=
      extend_ok turns hself hat (by omega) hlt (by omega)
    refine ⟨result, handle', hfound, ?_⟩
    cases result with
    | error errno =>
      have hlonger : grown.content.length ≤ handle'.content.length := hsought.1.length_le
      exact ⟨by omega, fun r hr => by cases hr⟩
    | ok r =>
      obtain ⟨hr, -, hcontent'⟩ := hsought
      have hlength' : handle'.content.length = max grown.content.length r.toNat := by
        rw [hcontent', List.length_append, List.length_replicate]
        omega
      exact ⟨by omega, fun _ _ => open_inside (by omega)⟩

end Seeks

section Reads

variable (kernel : Kernel) (fails : Handle → ℕ → Option ℕ+)

/-- The file and the position are as before, and what is read stands at the offset. -/
def Kept (handle : Handle) (nbyte : ℕ) (offset : ℤ) :
    Except (Option ℕ) Str × Handle → Prop
  | (result, handle') => handle'.content = handle.content ∧ handle'.pos = handle.pos ∧
      ∀ bytes, result = .ok bytes → bytes = (handle.content.drop offset.toNat).take nbyte

theorem read_content (handle : Handle) (nbyte : ℕ) :
    (read fails handle nbyte).2.content = handle.content := by
  unfold read
  cases fails handle nbyte <;> rfl

theorem read_bytes {handle : Handle} {nbyte : ℕ} {bytes : Str}
    (h : (read fails handle nbyte).1 = .ok bytes) :
    bytes = (handle.content.drop handle.pos).take nbyte := by
  unfold read at h
  cases hfails : fails handle nbyte with
  | some errno =>
    rw [hfails] at h
    cases h
  | none =>
    rw [hfails] at h
    exact (Except.ok.inj h).symm

theorem read_open {handle : Handle} (nbyte : ℕ) (h : Open kernel handle handle.pos) :
    Open kernel (read fails handle nbyte).2 (read fails handle nbyte).2.pos := by
  unfold read
  cases fails handle nbyte with
  | some errno => exact h
  | none =>
    refine ⟨Int.natCast_nonneg _, ?_⟩
    simp only
    rcases h.2 with hin | haccept
    · refine Or.inl (Int.ofNat_le.mpr ?_)
      rw [List.length_take, List.length_drop]
      omega
    · by_cases hin : handle.pos ≤ handle.content.length
      · refine Or.inl (Int.ofNat_le.mpr ?_)
        rw [List.length_take, List.length_drop]
        omega
      · rw [List.drop_of_length_le (not_le.mp hin).le, List.take_nil, List.length_nil, Nat.add_zero]
        exact Or.inr haccept

theorem pread_sought {handle handle' : Handle} (nbyte : ℕ) {offset r : ℤ}
    (hpos : Open kernel handle handle.pos)
    (hseek : lseek kernel handle offset .SEEK_SET = some (.ok r, handle'))
    (hpos' : Open kernel handle' handle'.pos)
    (hlength : handle.content.length ≤ handle'.content.length) :
    ∃ handle'', pread kernel fails handle nbyte offset =
        some ((read fails handle' nbyte).1, handle'') ∧
      handle''.content = handle'.content ∧ handle''.pos = handle.pos := by
  have hback := lseek_set kernel (read fails handle' nbyte).2 (read_open kernel fails nbyte hpos')
    (hpos.grown (by rw [read_content]; exact hlength))
  refine ⟨{ (read fails handle' nbyte).2 with pos := handle.pos }, ?_, ?_, rfl⟩
  · rw [pread, lseek_cur kernel handle hpos]
    simp only [hseek, hback, Int.toNat_natCast]
  · exact read_content fails handle' nbyte

theorem pread_error {handle handle' : Handle} {nbyte : ℕ} {offset : ℤ} {errno : Option ℕ}
    (hpos : Open kernel handle handle.pos)
    (hseek : lseek kernel handle offset .SEEK_SET = some (.error errno, handle')) :
    pread kernel fails handle nbyte offset = some (.error errno, handle') := by
  rw [pread, lseek_cur kernel handle hpos]
  simp only [hseek]

/-- `pread` from a position that the kernel lets be: everything stays if the offset is one as
well or negative; else the file grows, or the position is at its end. -/
theorem pread_open {handle : Handle} (nbyte : ℕ) {offset : ℤ} (hoffset : offset < 2 ^ 31)
    (hpos : Open kernel handle handle.pos) :
    ∃ result handle', pread kernel fails handle nbyte offset = some (result, handle') ∧
      (offset < 0 ∨ Open kernel handle offset → Kept handle nbyte offset (result, handle')) ∧
      (0 ≤ offset → ¬ Open kernel handle offset → FirstTaken kernel handle offset →
        handle.content.length < handle'.content.length) ∧
      (0 ≤ offset → ¬ Open kernel handle offset → ¬ FirstTaken kernel handle offset →
        handle'.content = handle.content ∧ handle'.pos = handle.content.length ∧
          ∀ bytes, result ≠ .ok bytes) := by
  by_cases hneg : offset < 0
  · refine ⟨_, _, pread_error kernel fails hpos (lseek_negative kernel handle hneg),
      fun _ => ⟨rfl, rfl, fun bytes hbytes => ?_⟩, fun h => absurd hneg (not_lt.mpr h),
      fun h => absurd hneg (not_lt.mpr h)⟩
    cases hbytes
  rw [not_lt] at hneg
  by_cases hopen : Open kernel handle offset
  · have hseek := lseek_set kernel handle hpos hopen
    have hmoved : Open kernel { handle with pos := offset.toNat } offset.toNat :=
      (Int.toNat_of_nonneg hneg).symm ▸ hopen
    obtain ⟨handle', hread, hcontent, hback⟩ :=
      pread_sought kernel fails nbyte hpos hseek hmoved le_rfl
    refine ⟨_, handle', hread, fun _ => ⟨hcontent, hback, fun bytes hbytes => ?_⟩,
      fun _ hno => absurd hopen hno, fun _ hno => absurd hopen hno⟩
    exact read_bytes fails hbytes
  have hno : ¬ (offset < 0 ∨ Open kernel handle offset) := by
    rintro (h | h)
    · exact absurd h (not_lt.mpr hneg)
    · exact hopen h
  by_cases htaken : FirstTaken kernel handle offset
  · obtain ⟨result, handle', hseek, hgrown, hend⟩ :=
      lseek_grows kernel handle hoffset hpos hneg hopen htaken
    cases result with
    | error errno =>
      exact ⟨_, _, pread_error kernel fails hpos hseek, fun h => absurd h hno,
        fun _ _ _ => hgrown, fun _ _ h => absurd htaken h⟩
    | ok r =>
      obtain ⟨handle'', hread, hcontent, -⟩ :=
        pread_sought kernel fails nbyte hpos hseek (hend r rfl) hgrown.le
      exact ⟨_, _, hread, fun h => absurd h hno, fun _ _ _ => hcontent ▸ hgrown,
        fun _ _ h => absurd htaken h⟩
  · obtain ⟨errno, handle', hseek, hcontent, hend⟩ :=
      lseek_refused kernel handle hoffset hpos hneg hopen htaken
    refine ⟨_, _, pread_error kernel fails hpos hseek, fun h => absurd h hno,
      fun _ _ h => absurd h htaken, fun _ _ _ => ⟨hcontent, hend, fun bytes hbytes => ?_⟩⟩
    cases hbytes

/-- A position that the kernel does not let be is moved to the end of the file, or the first
`lseek` fails. -/
theorem pread_closed {handle : Handle} (nbyte : ℕ) (offset : ℤ)
    (hpos : ¬ Open kernel handle handle.pos) : pread kernel fails handle nbyte offset =
      match kernel.past handle handle.pos with
      | some e => some (.error (seekError (-(e : ℤ))), handle)
      | none => pread kernel fails (atEnd handle) nbyte offset := by
  have hend : Open kernel (atEnd handle) (atEnd handle).pos := open_inside le_rfl
  have hcur := lseek_closed kernel hpos
  cases hpast : kernel.past handle handle.pos with
  | some e =>
    rw [hpast] at hcur
    rw [pread, hcur]
  | none =>
    rw [hpast] at hcur
    simp only
    rw [pread, pread, hcur, lseek_cur kernel _ hend]
    rfl

/-- Where `pread` leaves everything as it was: from a position that the kernel lets be, if the
offset is one as well, or if the position is at the end and nothing can be written; from another
one, if the kernel rejects a seek to it. -/
theorem pread_iff {handle : Handle} {nbyte : ℕ} {offset : ℤ} (hoffset : offset < 2 ^ 31) :
    (∃ found, pread kernel fails handle nbyte offset = some found ∧
      Kept handle nbyte offset found) ↔
      (Open kernel handle handle.pos ∧ (offset < 0 ∨ Open kernel handle offset ∨
        (handle.pos = handle.content.length ∧ ¬ FirstTaken kernel handle offset))) ∨
      (¬ Open kernel handle handle.pos ∧ kernel.past handle handle.pos ≠ none) := by
  by_cases hopen : Open kernel handle handle.pos
  · rw [and_iff_right hopen, or_iff_left fun h => h.1 hopen, ← or_assoc]
    obtain ⟨result, handle', hread, hkept, hgrown, hmoved⟩ :=
      pread_open kernel fails nbyte hoffset hopen
    by_cases hin : offset < 0 ∨ Open kernel handle offset
    · exact iff_of_true ⟨_, hread, hkept hin⟩ (Or.inl hin)
    rw [or_iff_right hin]
    rw [not_or, not_lt] at hin
    by_cases htaken : FirstTaken kernel handle offset
    · -- the file has grown whatever happens afterwards
      refine iff_of_false ?_ fun h => h.2 htaken
      rintro ⟨found, hfound, hsame⟩
      obtain rfl := Option.some.inj (hread.symm.trans hfound)
      have h := hgrown hin.1 hin.2 htaken
      rw [hsame.1] at h
      exact Nat.lt_irrefl _ h
    · obtain ⟨hcontent, hend, hnone⟩ := hmoved hin.1 hin.2 htaken
      constructor
      · rintro ⟨found, hfound, hsame⟩
        obtain rfl := Option.some.inj (hread.symm.trans hfound)
        exact ⟨hsame.2.1.symm.trans hend, htaken⟩
      · rintro ⟨hat, -⟩
        exact ⟨_, hread, hcontent, hend.trans hat.symm, fun bytes hbytes =>
          absurd hbytes (hnone bytes)⟩
  · rw [or_iff_right fun h => hopen h.1, and_iff_right hopen]
    have hout : handle.content.length < handle.pos := by
      refine not_le.mp fun hin => hopen (open_inside hin)
    rw [pread_closed kernel fails nbyte offset hopen]
    cases hpast : kernel.past handle handle.pos with
    | some e =>
      refine iff_of_true ⟨_, rfl, rfl, rfl, fun bytes hbytes => ?_⟩ (Option.some_ne_none e)
      cases hbytes
    | none =>
      refine iff_of_false ?_ fun h => h rfl
      have hend : Open kernel (atEnd handle) (atEnd handle).pos := open_inside le_rfl
      obtain ⟨result, handle', hread, hkept, hgrown, hmoved⟩ :=
        pread_open kernel fails nbyte hoffset hend
      rintro ⟨found, hfound, hsame⟩
      simp only [hread] at hfound
      obtain rfl := Option.some.inj hfound
      have hplace : handle'.pos = handle.pos := hsame.2.1
      have hlonger : ¬ handle.content.length < handle'.content.length := by
        rw [hsame.1]
        exact Nat.lt_irrefl _
      by_cases hin : offset < 0 ∨ Open kernel (atEnd handle) offset
      · have hback : handle'.pos = handle.content.length := (hkept hin).2.1
        omega
      · rw [not_or, not_lt] at hin
        by_cases htaken : FirstTaken kernel (atEnd handle) offset
        · exact hlonger (hgrown hin.1 hin.2 htaken)
        · have hback : handle'.pos = handle.content.length :=
            (hmoved hin.1 hin.2 htaken).2.1
          omega

def rejecting : Kernel := ⟨fun _ => false, fun _ _ => some 64, fun _ buf => .ok buf.length⟩

/-- A read behind three bytes, from the middle of them. -/
theorem pread_iff_demo :
    (∃ found, pread rejecting (fun _ _ => none) ⟨[1, 2, 3], 1, 0⟩ 4 5 = some found ∧
      Kept ⟨[1, 2, 3], 1, 0⟩ 4 5 found) ↔
      (Open rejecting ⟨[1, 2, 3], 1, 0⟩ (1 : ℕ) ∧ ((5 : ℤ) < 0 ∨
        Open rejecting ⟨[1, 2, 3], 1, 0⟩ 5 ∨
        ((1 : ℕ) = 3 ∧ ¬ FirstTaken rejecting ⟨[1, 2, 3], 1, 0⟩ 5))) ∨
      (¬ Open rejecting ⟨[1, 2, 3], 1, 0⟩ (1 : ℕ) ∧
        rejecting.past ⟨[1, 2, 3], 1, 0⟩ (1 : ℕ) ≠ none) :=
  pread_iff rejecting _ (by decide)

/-- Where the kernel accepts the seek, a read behind the end gives nothing and changes nothing. -/
example : (pread { rejecting with accepts := fun _ => true } (fun _ _ => none) ⟨[1, 2, 3], 1, 0⟩
    4 5).map (fun found => (found.2.content, found.2.pos)) = some ([1, 2, 3], 1) := by
  decide +kernel

/-- One byte read at offset ten makes three bytes ten. -/
theorem three_bytes_grow :
    ∃ found, pread rejecting (fun _ _ => none) ⟨[1, 2, 3], 1, 0⟩ 1 10 = some found ∧
      found.2.content = [1, 2, 3, 0, 0, 0, 0, 0, 0, 0] ∧
      ¬ Kept ⟨[1, 2, 3], 1, 0⟩ 1 10 found := by
  have hread : (pread rejecting (fun _ _ => none) ⟨[1, 2, 3], 1, 0⟩ 1 10).map
      (fun found => found.2.content) = some [1, 2, 3, 0, 0, 0, 0, 0, 0, 0] := by
    decide +kernel
  obtain ⟨found, hfound, hcontent⟩ := Option.map_eq_some_iff.mp hread
  refine ⟨found, hfound, hcontent, fun hkept => ?_⟩
  have h := hkept.1
  rw [hcontent] at h
  exact absurd h (by decide)

end Reads

end Mintlib.Pread
