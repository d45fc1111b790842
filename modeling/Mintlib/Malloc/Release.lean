import Mintlib.Malloc.FreeList

/-!
# What `free` does to the free list

`absorbUp` and `Released` are the abstract `free`: the chunk is merged upwards,
then linked in, merged downwards, handed to our own heap, or dropped together
with its region. `free_spec` shows that the code does one of these.
-/

namespace Mintlib.Malloc

open ByteMemory

/-- The chunk `r` swallows the free chunk right behind it. -/
def absorbUp (r : Chunk) : List Chunk → Chunk × List Chunk
  | [] => (r, [])
  | c :: C =>
    if c.border = none ∧ r.addr + r.size = c.addr then (⟨r.addr, r.size + c.size, none⟩, C)
    else (r, c :: C)

/-- What `free` does besides editing the list. -/
inductive Effect where
  | keep
  | toHeap (c : Chunk)
  | mfree (p : ℕ)

def Effect.apply : Effect → Heap → Heap
  | keep, h => h
  | toHeap c, h => { h with heapbase := c.addr, stksize := h.stksize + c.size }
  | mfree p, h => Mfree p h

/-- `Released own hb A r C L e`: freeing the chunk `r` between the entries `A` and
`C` gives the list `L`. Nothing is merged downwards at the upper end of the list. -/
inductive Released (own : Bool) (hb : ℕ) :
    List Chunk → Chunk → List Chunk → List Chunk → Effect → Prop
  | link {A C : List Chunk} {r : Chunk}
      (hfar : C = [] ∨ ∀ p ∈ A.getLast?, p.addr + p.size ≠ r.addr)
      (hown : ¬ (own = true ∧ r.addr + r.size = hb)) :
      Released own hb A r C (A ++ r :: C) .keep
  | toHeap {A C : List Chunk} {r : Chunk}
      (hfar : C = [] ∨ ∀ p ∈ A.getLast?, p.addr + p.size ≠ r.addr)
      (hown : own = true ∧ r.addr + r.size = hb) :
      Released own hb A r C (A ++ C) (.toHeap r)
  | behindBorder {A C : List Chunk} {p r : Chunk} {a : ℕ} (hp : p.border = some a)
      (hj : p.addr + p.size = r.addr) (hC : C ≠ []) (ha : a ≠ r.size) :
      Released own hb (A ++ [p]) r C (A ++ p :: r :: C) .keep
  | drop {A C : List Chunk} {p r : Chunk} (hp : p.border = some r.size)
      (hj : p.addr + p.size = r.addr) (hC : C ≠ []) :
      Released own hb (A ++ [p]) r C (A ++ C) (.mfree p.addr)
  | merge {A C : List Chunk} {p r : Chunk} (hp : p.border = none)
      (hj : p.addr + p.size = r.addr) (hC : C ≠ [])
      (hown : ¬ (own = true ∧ p.addr + (p.size + r.size) = hb))
      (hopen : ∀ o ∈ A.getLast?, o.border ≠ some (p.size + r.size)) :
      Released own hb (A ++ [p]) r C (A ++ ⟨p.addr, p.size + r.size, none⟩ :: C) .keep
  | mergeToHeap {A C : List Chunk} {p r : Chunk} (hp : p.border = none)
      (hj : p.addr + p.size = r.addr) (hC : C ≠ [])
      (hown : own = true ∧ p.addr + (p.size + r.size) = hb) :
      Released own hb (A ++ [p]) r C (A ++ C) (.toHeap ⟨p.addr, p.size + r.size, none⟩)
  | mergeDrop {A C : List Chunk} {o p r : Chunk} (hp : p.border = none)
      (hj : p.addr + p.size = r.addr) (hC : C ≠ []) (ho : o.border = some (p.size + r.size)) :
      Released own hb (A ++ [o] ++ [p]) r C (A ++ C) (.mfree o.addr)

section Geometry

variable {E : Layout} {rs : List Extent} {hb st : ℕ} {A C L : List Chunk} {B : List Block}
  {r : Chunk}

theorem absorbUp_geo (h : Geo E rs hb st (A ++ r :: C) B) (hr : r.border = none) :
    Geo E rs hb st (A ++ (absorbUp r C).1 :: (absorbUp r C).2) B ∧
      (absorbUp r C).1.border = none ∧ (absorbUp r C).1.addr = r.addr := by
  cases C with
  | nil => exact ⟨h, hr, rfl⟩
  | cons c C =>
    rw [absorbUp]
    split_ifs with hc
    · exact ⟨h.merge hr hc.1 hc.2, rfl, rfl⟩
    · exact ⟨h, hr, rfl⟩

/-- Every outcome of `free` keeps the layout invariant. -/
theorem Released.geo {h : Heap} {e : Effect} (hr : r.border = none)
    (hrel : Released (ownHeap h) h.heapbase A r C L e)
    (hg : Geo E h.regions h.heapbase h.stksize (A ++ r :: C) B) :
    Geo E (e.apply h).regions (e.apply h).heapbase (e.apply h).stksize L B := by
  have hne : ownHeap h = true → h.heapbase ≠ 0 := by
    intro ho
    simp only [ownHeap, Bool.and_eq_true, bne_iff_ne] at ho
    exact ho.2
  cases hrel with
  | link hfar hown => exact hg
  | toHeap hfar hown => exact hg.toHeap (hne hown.1) hr hown.2
  | @behindBorder A C p r a hp hj hC ha => simpa [Effect.apply] using hg
  | @drop A C p r hp hj hC =>
    have hg' : Geo E h.regions h.heapbase h.stksize (A ++ p :: r :: C) B := by simpa using hg
    exact hg'.dropRegion hp hr rfl
  | @merge A C p r hp hj hC hown hopen =>
    have hg' : Geo E h.regions h.heapbase h.stksize (A ++ p :: r :: C) B := by simpa using hg
    exact hg'.merge hp hr hj
  | @mergeToHeap A C p r hp hj hC hown =>
    have hg' : Geo E h.regions h.heapbase h.stksize (A ++ p :: r :: C) B := by simpa using hg
    exact (hg'.merge hp hr hj).toHeap (hne hown.1) rfl hown.2
  | @mergeDrop A C o p r hp hj hC ho =>
    have hg' : Geo E h.regions h.heapbase h.stksize (A ++ [o] ++ p :: r :: C) B := by
      simpa using hg
    have hm : Geo E h.regions h.heapbase h.stksize
        (A ++ o :: ⟨p.addr, p.size + r.size, none⟩ :: C) B := by
      simpa using hg'.merge hp hr hj
    exact hm.dropRegion ho rfl rfl

theorem Released.mfree_region {own : Bool} {p : ℕ} {L' : List Chunk} (hr : r.border = none) (hrel : Released own hb A r C L' (.mfree p))
    (hg : Geo E rs hb st (A ++ r :: C) B) :
    ∃ R ∈ rs, R.base = p ∧ ∀ b ∈ B, b.ext.Apart R := by
  cases hrel with
  | @drop A C o r hp hj hC =>
    have hg' : Geo E rs hb st (A ++ o :: r :: C) B := by simpa using hg
    refine ⟨_, ((hg'.chunk o (by simp)).region _ hp).2, rfl, fun b hb => ?_⟩
    exact hg'.filled_region_apart hp hr rfl hb
  | @mergeDrop A C o d r hp hj hC ho =>
    have hg' : Geo E rs hb st (A ++ [o] ++ d :: r :: C) B := by simpa using hg
    have hm : Geo E rs hb st (A ++ o :: ⟨d.addr, d.size + r.size, none⟩ :: C) B := by
      simpa using hg'.merge hp hr hj
    refine ⟨_, ((hm.chunk o (by simp)).region _ ho).2, rfl, fun b hb => ?_⟩
    exact hm.filled_region_apart ho rfl rfl hb

end Geometry

section Memory

variable {E : Layout} {rs : List Extent} {hb st : ℕ} {m m' : Mem} {A C L : List Chunk}
  {B : List Block} {r c p : Chunk}

theorem mergeAfter_spec (hp : Parts E m A C B) (hr : ChunkAt m r) (hn : r.border = none)
    (hs : Clear E (A ++ r :: C) B) :
    ∃ m', mergeAfter m r.addr (headAddr C) = some (m', headAddr (absorbUp r C).2) ∧
      Parts E (setNext m' r.addr (headAddr (absorbUp r C).2)) A
        ((absorbUp r C).1 :: (absorbUp r C).2) B ∧
      ChangesIn m (setNext m' r.addr (headAddr (absorbUp r C).2)) ((r :: C).map Chunk.ext) := by
  have hrw := (hs.chunk r (by simp)).1
  have hrb := (hs.chunk r (by simp)).2.2
  have hsC : Clear E ((A ++ [r]) ++ C) B := by simpa using hs
  have hrs : size m r.addr = r.size := hr.size
  -- nothing to merge: only the link is written
  have hplain : Parts E (setNext m r.addr (headAddr C)) A (r :: C) B ∧
      ChangesIn m (setNext m r.addr (headAddr C)) ((r :: C).map Chunk.ext) := by
    have hch : ChangesIn m (setNext m r.addr (headAddr C)) ([r].map Chunk.ext) :=
      (ChangesIn.refl m _).setNext (by simp) hrw.hdr_within
    refine ⟨?_, hch.mono fun e he => ⟨e, by simp at he ⊢; exact Or.inl he, Extent.Within.refl e⟩⟩
    exact (hp.frame_mid (M := [r]) (by simpa using hs) hch).cons (hr.setNext _)
      (next_setNext_self m hsC.headAddr_lt)
  cases C with
  | nil => exact ⟨m, by simp [mergeAfter, absorbUp], hplain⟩
  | cons c C =>
    have hcw := (hs.chunk c (by simp)).1
    have hcb := (hs.chunk c (by simp)).2.2
    have hcs : size m c.addr = c.size := (hp.chunk c (by simp)).size
    have hrc : r.addr + r.size ≤ c.addr := (Geo.asc_around hs.asc).2 c (by simp)
    have h12 := hrw.size
    have h12' := hcw.size
    have hend : add32 r.addr (size m r.addr) = r.addr + r.size := by
      rw [hrs, add32, Nat.mod_eq_of_lt]
      simp only [chunkSize] at *
      omega
    by_cases hc : c.border = none ∧ r.addr + r.size = c.addr
    · have hcv : valid m c.addr = VAL_FREE := by
        rw [(hp.chunk c (by simp)).valid, Chunk.tag, if_pos hc.1]
      have hsC' : Clear E ((A ++ [r, c]) ++ C) B := by simpa using hs
      have habs : absorbUp r (c :: C) = (⟨r.addr, r.size + c.size, none⟩, C) := if_pos hc
      have hnx : next (setSize m r.addr (add32 r.size c.size)) c.addr = headAddr C := by
        rw [← hp.next_head]
        apply load32_store32_of_apart
        simp only [chunkSize] at *
        omega
      refine ⟨setNext (setSize (setSize m r.addr (add32 r.size c.size)) c.addr 0) c.addr 0,
        ?_, ?_, ?_⟩
      · have hmeet : add32 r.addr r.size = c.addr := by rw [← hrs, hend, hc.2]
        simp only [mergeAfter, headAddr_cons, hrs, hcs, hmeet, hcv, habs, hnx]
        rw [if_pos ⟨by omega, le_rfl, by decide⟩, if_neg (by simp)]
      all_goals
        rw [habs]
        have hch : ChangesIn m (setNext (setNext (setSize (setSize m r.addr
            (add32 r.size c.size)) c.addr 0) c.addr 0) r.addr (headAddr C))
            ([r, c].map Chunk.ext) :=
          ((((ChangesIn.refl m _).setSize (by simp) hrw.hdr_within).setSize (by simp)
            hcw.hdr_within).setNext (by simp) hcw.hdr_within).setNext (by simp) hrw.hdr_within
      · have hsum : (r.size + c.size) % 2 ^ 32 = r.size + c.size := Nat.mod_eq_of_lt (by omega)
        refine (hp.tail.frame_mid (M := [r, c]) (by simpa using hs) hch).cons ?_
          (next_setNext_self _ hsC'.headAddr_lt)
        refine ⟨?_, ?_, by simp⟩
        · have hv := hr.valid
          simp only [Chunk.tag, hn, if_true] at hv ⊢
          rw [← hv]
          simp only [valid, setNext, setSize]
          simp (disch := (simp only [chunkSize] at *; omega)) only [load32_store32_of_apart]
        · simp only [size, setNext, setSize]
          simp (disch := (simp only [chunkSize] at *; omega)) only [load32_store32_of_apart,
            load32_store32_self, add32, hsum]
      · exact hch.mono fun e he => ⟨e, by simp at he ⊢; tauto, Extent.Within.refl e⟩
    · have habs : absorbUp r (c :: C) = (r, c :: C) := if_neg hc
      refine ⟨m, ?_, by rw [habs]; exact hplain⟩
      rw [habs, mergeAfter]
      simp only [headAddr_cons, hend]
      rw [if_neg]
      rintro ⟨-, hle, hv⟩
      refine hc ⟨?_, by omega⟩
      by_contra hb
      apply hv
      rw [(hp.chunk c (by simp)).valid, Chunk.tag, if_neg hb]

/-- The four stores that make `p` and `r` one chunk. -/
def joined (m : Mem) (p r : ℕ) : Mem :=
  let m := setSize m p (add32 (size m p) (size m r))
  let m := setNext m p (next m r)
  let m := setSize m r 0
  setNext m r 0

theorem joined_spec (hp : Parts E m (A ++ [p]) (r :: C) B) (hs : Clear E (A ++ p :: r :: C) B)
    (hpn : p.border = none) (hj : p.addr + p.size = r.addr) :
    Parts E (joined m p.addr r.addr) A (⟨p.addr, p.size + r.size, none⟩ :: C) B ∧
      next (joined m p.addr r.addr) (lastAddr E A) = p.addr ∧
      ChangesIn m (joined m p.addr r.addr) ([p, r].map Chunk.ext) := by
  have hpw := (hs.chunk p (by simp)).1
  have hrw := (hs.chunk r (by simp)).1
  have hpb := (hs.chunk p (by simp)).2.2
  have hrb := (hs.chunk r (by simp)).2.2
  have h12 := hpw.size
  have h12' := hrw.size
  have hpc := hp.chunk p (by simp)
  have hps : size m p.addr = p.size := hpc.size
  have hrs : size m r.addr = r.size := (hp.chunk r (by simp)).size
  have hsC : Clear E ((A ++ [p, r]) ++ C) B := by simpa using hs
  have hch : ChangesIn m (joined m p.addr r.addr) ([p, r].map Chunk.ext) :=
    ((((ChangesIn.refl m _).setSize (by simp) hpw.hdr_within).setNext (by simp)
      hpw.hdr_within).setSize (by simp) hrw.hdr_within).setNext (by simp) hrw.hdr_within
  have hnr : next (setSize m p.addr (add32 (size m p.addr) (size m r.addr))) r.addr =
      headAddr C := by
    rw [← hp.next_head]
    apply load32_store32_of_apart
    simp only [chunkSize] at *
    omega
  have hsum : (p.size + r.size) % 2 ^ 32 = p.size + r.size := Nat.mod_eq_of_lt (by omega)
  refine ⟨?_, ?_, hch⟩
  · refine (hp.tail.narrow.frame_mid (M := [p, r]) (by simpa using hs) hch).cons ?_ ?_
    · refine ⟨?_, ?_, by simp⟩
      · have hv := hpc.valid
        simp only [Chunk.tag, hpn, if_true] at hv ⊢
        rw [← hv]
        simp only [joined, valid, setNext, setSize]
        simp (disch := (simp only [chunkSize] at *; omega)) only [load32_store32_of_apart]
      · simp only [joined, hps, hrs]
        simp only [size, setNext, setSize]
        simp (disch := (simp only [chunkSize] at *; omega)) only [load32_store32_of_apart,
          load32_store32_self, add32, hsum]
    · have hmod := Nat.mod_eq_of_lt hsC.headAddr_lt
      simp only [joined, hnr]
      simp only [next, setNext, setSize]
      simp (disch := (simp only [chunkSize] at *; omega)) only [load32_store32_of_apart,
        load32_store32_self, hmod]
  · rw [next_last_frame_mid (M := [p, r]) (by simpa using hs) hch]
    exact hp.next_prev

theorem mem_around {α : Type*} {A C : List α} (M : List α) {x : α} (hx : x ∈ A ++ C) :
    x ∈ A ++ (M ++ C) :=
  (List.Sublist.append_left (List.sublist_append_right M C) A).subset hx

theorem changes_mid {M : List Chunk} (hch : ChangesIn m m' (M.map Chunk.ext)) :
    ChangesIn m m' (E.freeExts (A ++ (M ++ C))) :=
  hch.mono fun e he => ⟨e, by
    rw [Layout.freeExts, List.map_append, List.map_append]
    simp [he], Extent.Within.refl e⟩

theorem ownHeap_ne {h : Heap} (ho : ownHeap h = true) : h.heapbase ≠ 0 := by
  simp only [ownHeap, Bool.and_eq_true, bne_iff_ne] at ho
  exact ho.2

theorem inReserve_iff {h : Heap} (hg : Geo E h.regions h.heapbase h.stksize L B) (hc : c ∈ L)
    (hn : c.border = none) : inReserve (add32 c.addr c.size) h = true ↔
      ownHeap h = true ∧ c.addr + c.size = h.heapbase := by
  have hb := hg.bounds hc
  have hw := (hg.chunk c hc).wf.size
  simp only [inReserve, Bool.and_eq_true, decide_eq_true_eq]
  by_cases ho : ownHeap h = true
  · have hne := ownHeap_ne ho
    have hres := hg.reserve hne
    have hfin := hres.fin
    have hpos := hres.pos
    have hap := ((hg.chunk c hc).home hn).reserve hne
    simp only [Chunk.ext, Extent.Apart, Extent.fin, add32, chunkSize] at *
    constructor
    · intro hin
      refine ⟨ho, ?_⟩
      omega
    · intro heq
      refine ⟨⟨ho, ?_⟩, ?_⟩ <;> omega
  · simp [ho]

theorem Clear.changes_link {D L : List Chunk} {v : ℕ} (hs : Clear E (A ++ D) B)
    (hL : ∀ x ∈ A ++ D, x ∈ L) (hch : ChangesIn m m' (E.freeExts L)) :
    ChangesIn m (setNext m' (lastAddr E A) v) (E.freeExts L) := by
  obtain ⟨e, he, hw⟩ := hs.last_within
  refine hch.setNext ?_ hw
  rw [Layout.freeExts, List.mem_cons, List.mem_map] at he ⊢
  rcases he with he | ⟨x, hx, hxe⟩
  · exact Or.inl he
  · exact Or.inr ⟨x, hL x hx, hxe⟩

theorem toHeap_words {h : Heap} (hg : Geo E h.regions h.heapbase h.stksize (A ++ c :: C) B)
    (hn : c.border = none) (hown : ownHeap h = true) (hend : c.addr + c.size = h.heapbase) :
    add32 c.addr c.size = h.heapbase ∧ add32 h.stksize c.size = h.stksize + c.size := by
  have hfin := (hg.reserve (ownHeap_ne hown)).fin
  have hpos := (hg.bounds (c := c) (by simp)).1
  have hfin' := ((hg.toHeap (ownHeap_ne hown) hn hend).reserve (by omega)).fin
  constructor
  · rw [add32_of_lt (by omega), hend]
  · exact add32_of_lt (by omega)

theorem mergeBefore_spec {h : Heap} (hp : Parts E h.mem (A ++ [p]) (r :: C) B)
    (hg : Geo E h.regions h.heapbase h.stksize (A ++ p :: r :: C) B) (hC : C ≠ [])
    (hpn : p.border = none) (hrn : r.border = none) (hj : p.addr + p.size = r.addr) :
    ∃ L e m', mergeBefore E (lastAddr E A) p.addr r.addr h = some (e.apply { h with mem := m' }) ∧
      Released (ownHeap h) h.heapbase (A ++ [p]) r C L e ∧ Rep E m' L B ∧
      ChangesIn h.mem m' (E.freeExts (A ++ p :: r :: C)) := by
  obtain ⟨hq, hlink, hch⟩ := joined_spec hp hg.clearance hpn hj
  have hgm := hg.merge hpn hrn hj
  have hch' : ChangesIn h.mem (joined h.mem p.addr r.addr) (E.freeExts (A ++ p :: r :: C)) :=
    changes_mid (M := [p, r]) hch
  set m₁ := joined h.mem p.addr r.addr with hm₁
  set pr : Chunk := ⟨p.addr, p.size + r.size, none⟩ with hpr
  have hrep : Rep E m₁ (A ++ pr :: C) B := hq.rep (by rw [hlink]; rfl)
  have hprs : size m₁ p.addr = pr.size := (hq.chunk pr (by simp)).size
  have hprn : next m₁ p.addr = headAddr C := hq.next_head
  have hsub : ∀ x ∈ A ++ C, x ∈ A ++ p :: r :: C := fun x hx => mem_around [p, r] hx
  have hunfold : mergeBefore E (lastAddr E A) p.addr r.addr h =
      if inReserve (add32 p.addr pr.size) h then
        if add32 p.addr pr.size ≠ h.heapbase then some { h with mem := m₁ }
        else some { h with mem := setNext m₁ (lastAddr E A) (headAddr C), heapbase := p.addr,
                           stksize := add32 h.stksize pr.size }
      else if valid m₁ (lastAddr E A) = VAL_BORDER ∧ allocSize m₁ (lastAddr E A) = pr.size then
        (walkFree E m₁ fun x => decide (x < lastAddr E A)).bind fun found =>
          if found.2.2 ≠ 0 then
            if found.2.2 ≠ lastAddr E A then some { h with mem := m₁ }
            else some (Mfree (lastAddr E A) { h with mem := setNext m₁ found.2.1 (headAddr C) })
          else some { h with mem := m₁ }
      else some { h with mem := m₁ } := by
    rw [← hprs, ← hprn]
    rfl
  rw [hunfold]
  by_cases hin : inReserve (add32 p.addr pr.size) h = true
  · -- the joined chunk goes back to our own heap
    obtain ⟨hown, hend⟩ := (inReserve_iff hgm (c := pr) (by simp) rfl).mp hin
    have hres := hgm.toHeap (ownHeap_ne hown) rfl hend
    obtain ⟨hpend, hst⟩ := toHeap_words hgm rfl hown hend
    rw [if_pos hin, if_neg (not_not.mpr hpend), hst]
    refine ⟨A ++ C, .toHeap pr, setNext m₁ (lastAddr E A) (headAddr C), rfl,
      .mergeToHeap hpn hj hC ⟨hown, hend⟩, hq.tail.join hres.clearance, ?_⟩
    exact hres.clearance.changes_link hsub hch'
  · have hno : ¬ (ownHeap h = true ∧ p.addr + (p.size + r.size) = h.heapbase) := fun hc =>
      hin ((inReserve_iff hgm (c := pr) (by simp) rfl).mpr hc)
    rw [if_neg hin]
    have hkeep : (∀ o ∈ A.getLast?, o.border ≠ some (p.size + r.size)) → ∃ L e m',
        some ({ h with mem := m₁ } : Heap) = some (e.apply { h with mem := m' }) ∧
        Released (ownHeap h) h.heapbase (A ++ [p]) r C L e ∧ Rep E m' L B ∧
        ChangesIn h.mem m' (E.freeExts (A ++ p :: r :: C)) := fun hopen =>
      ⟨_, .keep, m₁, rfl, .merge hpn hj hC hno hopen, hrep, hch'⟩
    rcases lastAddr_cases E A with ⟨hA, hl⟩ | ⟨A', o, hA, hl⟩
    · rw [if_neg]
      · exact hkeep (by simp [hA])
      · rw [hl, hrep.head]
        simp
    · have hok : ChunkAt m₁ o := hrep.chunk o (by simp [hA])
      by_cases hfull : o.border = some pr.size
      · -- the region is free as a whole
        have hmark : valid m₁ o.addr = VAL_BORDER ∧ allocSize m₁ o.addr = pr.size := by
          refine ⟨?_, hok.alloc _ hfull⟩
          rw [hok.valid, Chunk.tag, if_neg (by simp [hfull])]
        have hcl : Clear E (A' ++ o :: pr :: C) B := by
          have := hgm.clearance
          rw [hA] at this
          simpa using this
        have hlow := (Geo.asc_around hcl.asc).1
        have hhigh := (Geo.asc_around hcl.asc).2
        have hwalk := walkFree_to (r := o.addr) (A := A') (C := o :: pr :: C)
          (by simpa [hA] using hrep) hcl
          (fun x hx => by
            have h1 := hlow x hx
            have h2 := (hcl.chunk x (by simp [hx])).1.size
            simp only [chunkSize] at h2
            omega)
          (fun x hx => by
            rcases List.mem_cons.mp hx with rfl | hx
            · exact le_rfl
            · have h1 := hhigh x hx
              omega)
        have hopos := (hcl.chunk o (by simp)).2.2.1
        rw [hl, if_pos hmark, hwalk]
        simp only [Option.bind_some, headAddr_cons]
        rw [if_pos (by omega), if_neg (by simp)]
        have hgo : Geo E h.regions h.heapbase h.stksize (A' ++ o :: pr :: C) B := by
          rw [hA] at hgm
          simpa using hgm
        have hdrop := (hgo.dropRegion hfull rfl rfl).clearance
        refine ⟨A' ++ C, .mfree o.addr, setNext m₁ (lastAddr E A') (headAddr C), rfl, ?_, ?_, ?_⟩
        · rw [hA]
          exact .mergeDrop hpn hj hC hfull
        · have hq' : Parts E m₁ A' C B := (hA ▸ hq.tail).narrow
          exact hq'.join hdrop
        · apply hdrop.changes_link _ hch'
          intro x hx
          rw [hA, List.append_assoc]
          exact mem_around [o, p, r] hx
      · rw [hl, if_neg]
        · apply hkeep
          intro x hx
          obtain rfl : o = x := by simpa [hA] using hx
          exact hfull
        · rintro ⟨hv, ha⟩
          apply hfull
          rw [hok.valid, Chunk.tag] at hv
          cases hob : o.border with
          | none => simp [hob] at hv
          | some a => rw [← ha, hok.alloc a hob]

theorem linkIn_spec {h : Heap} (hp : Parts E h.mem A (r :: C) B)
    (hg : Geo E h.regions h.heapbase h.stksize (A ++ r :: C) B) (hrn : r.border = none) :
    ∃ L e m', linkIn E (prevAddr E A) (lastAddr E A) (headAddr C) r.addr h =
        some (e.apply { h with mem := m' }) ∧
      Released (ownHeap h) h.heapbase A r C L e ∧ Rep E m' L B ∧
      ChangesIn h.mem m' (E.freeExts (A ++ r :: C)) := by
  have hs := hg.clearance
  have hrs : size h.mem r.addr = r.size := (hp.chunk r (by simp)).size
  have hrx : next h.mem r.addr = headAddr C := hp.next_head
  have hrb := hg.bounds (c := r) (by simp)
  have hrw := (hs.chunk r (by simp)).1.size
  -- the last branch of the source: `r` is linked in, or our own heap takes it back
  have hlast : (C = [] ∨ ∀ p ∈ A.getLast?, p.addr + p.size ≠ r.addr) → ∃ L e m',
      (if inReserve (add32 r.addr (size h.mem r.addr)) h then
        if add32 r.addr (size h.mem r.addr) ≠ h.heapbase then some h
        else some { h with mem := setNext h.mem (lastAddr E A) (next h.mem r.addr),
                           heapbase := r.addr, stksize := add32 h.stksize (size h.mem r.addr) }
      else some { h with mem := setNext h.mem (lastAddr E A) r.addr }) =
        some (e.apply { h with mem := m' }) ∧
      Released (ownHeap h) h.heapbase A r C L e ∧ Rep E m' L B ∧
      ChangesIn h.mem m' (E.freeExts (A ++ r :: C)) := by
    intro hfar
    rw [hrs, hrx]
    by_cases hin : inReserve (add32 r.addr r.size) h = true
    · obtain ⟨hown, hend⟩ := (inReserve_iff hg (c := r) (by simp) hrn).mp hin
      have hheap := hg.toHeap (ownHeap_ne hown) hrn hend
      obtain ⟨hrend, hst⟩ := toHeap_words hg hrn hown hend
      rw [if_pos hin, if_neg (not_not.mpr hrend), hst]
      refine ⟨A ++ C, .toHeap r, setNext h.mem (lastAddr E A) (headAddr C), rfl,
        .toHeap hfar ⟨hown, hend⟩, hp.tail.join hheap.clearance, ?_⟩
      exact hheap.clearance.changes_link (fun x hx => mem_around [r] hx) (ChangesIn.refl _ _)
    · rw [if_neg hin]
      refine ⟨A ++ r :: C, .keep, setNext h.mem (lastAddr E A) r.addr, rfl, .link hfar ?_,
        hp.join hs, hs.changes_link (fun x hx => hx) (ChangesIn.refl _ _)⟩
      exact fun hc => hin ((inReserve_iff hg (c := r) (by simp) hrn).mpr hc)
  rcases lastAddr_cases E A with ⟨hA, hl⟩ | ⟨A', p, hA, hl⟩
  · -- `r` comes first: there is nothing to merge with
    rw [linkIn, if_neg (fun hc => hc.2.2 hl)]
    exact hlast (Or.inr (by simp [hA]))
  · subst hA
    have hs' : Clear E (A' ++ p :: r :: C) B := by simpa using hs
    have hpk : ChunkAt h.mem p := hp.chunk p (by simp)
    have hps : size h.mem p.addr = p.size := hpk.size
    have hpr : p.addr + p.size ≤ r.addr := (Geo.asc_around hs'.asc).2 r (by simp)
    have hpend : add32 p.addr p.size = p.addr + p.size := by
      simp only [chunkSize] at hrw
      exact add32_of_lt (by omega)
    have hne : p.addr ≠ E.mchunk_free_list := by
      have h1 := (hs'.chunk p (by simp)).2.1
      have h2 := (hs'.chunk p (by simp)).1.size
      simp only [Chunk.ext, Extent.Apart, Extent.fin, chunkSize] at *
      omega
    rw [linkIn, hl, hps, hpend, prevAddr_concat]
    by_cases hcond : headAddr C ≠ 0 ∧ r.addr ≤ p.addr + p.size ∧ p.addr ≠ E.mchunk_free_list
    · have hj : p.addr + p.size = r.addr := by omega
      have hC : C ≠ [] := by
        rintro rfl
        exact hcond.1 rfl
      have hv := hpk.valid
      rw [if_pos hcond, if_neg (not_not.mpr hj)]
      cases hpb : p.border with
      | none =>
        rw [Chunk.tag, if_pos hpb] at hv
        rw [hv, if_neg (by decide)]
        have hg' : Geo E h.regions h.heapbase h.stksize (A' ++ p :: r :: C) B := by simpa using hg
        obtain ⟨L, e, m', h1, h2, h3, h4⟩ := mergeBefore_spec hp hg' hC hpb hrn hj
        exact ⟨L, e, m', h1, h2, h3, by simpa using h4⟩
      | some a =>
        rw [Chunk.tag, if_neg (by simp [hpb])] at hv
        rw [if_pos hv, hpk.alloc a hpb, hrs]
        by_cases ha : a = r.size
        · subst ha
          have hg' : Geo E h.regions h.heapbase h.stksize (A' ++ p :: r :: C) B := by
            simpa using hg
          have hdrop := (hg'.dropRegion hpb hrn rfl).clearance
          rw [if_pos rfl, hrx]
          refine ⟨A' ++ C, .mfree p.addr, setNext h.mem (lastAddr E A') (headAddr C), rfl,
            .drop hpb hj hC, hp.tail.narrow.join hdrop, ?_⟩
          refine hdrop.changes_link (fun x hx => ?_) (ChangesIn.refl _ _)
          rw [List.append_assoc]
          exact mem_around [p, r] hx
        · rw [if_neg ha]
          refine ⟨A' ++ p :: r :: C, .keep, setNext h.mem p.addr r.addr, rfl,
            .behindBorder hpb hj hC ha, ?_, ?_⟩
          · have := hp.join hs
            rw [hl] at this
            simpa using this
          · have := hs.changes_link (v := r.addr) (fun x hx => hx) (ChangesIn.refl h.mem _)
            rwa [hl] at this
    · rw [if_neg hcond]
      rw [hl] at hlast
      apply hlast
      by_cases hC : C = []
      · exact Or.inl hC
      · refine Or.inr fun x hx => ?_
        obtain rfl : p = x := by simpa using hx
        intro hj
        apply hcond
        refine ⟨?_, by omega, hne⟩
        cases C with
        | nil => exact absurd rfl hC
        | cons c C =>
          have := (hs'.chunk c (by simp)).2.2.1
          simp only [headAddr_cons]
          omega

theorem absorbUp_mem {x : ℕ} (hj : x ∈ (absorbUp r C).1.ext) :
    x ∈ r.ext ∨ ∃ c ∈ C, x ∈ c.ext := by
  cases C with
  | nil => exact Or.inl hj
  | cons c C =>
    rw [absorbUp] at hj
    split_ifs at hj with hc
    · simp only [Chunk.ext, Extent.mem_iff] at hj ⊢
      by_cases hlt : x < r.addr + r.size
      · exact Or.inl ⟨hj.1, hlt⟩
      · exact Or.inr ⟨c, by simp, by omega⟩
    · exact Or.inl hj

theorem absorbUp_covers {x : ℕ} (hx : x ∈ r.ext) : x ∈ (absorbUp r C).1.ext := by
  cases C with
  | nil => exact hx
  | cons c C =>
    rw [absorbUp]
    split_ifs with hc
    · simp only [Chunk.ext, Extent.mem_iff] at hx ⊢
      omega
    · exact hx

theorem absorbUp_subset {x : Chunk} (hx : x ∈ (absorbUp r C).2) : x ∈ C := by
  cases C with
  | nil => simp [absorbUp] at hx
  | cons c C =>
    rw [absorbUp] at hx
    split_ifs at hx
    · exact List.mem_cons_of_mem _ hx
    · exact hx

theorem free_spec {h : Heap} {b : Block} (hr : Rep E h.mem L (b :: B))
    (hg : Geo E h.regions h.heapbase h.stksize L (b :: B)) (hplain : b.moved = false) :
    ∃ A C L' e m', L = A ++ C ∧ (∀ x ∈ A, x.addr < b.base) ∧ (∀ x ∈ C, b.base ≤ x.addr) ∧
      free E b.ptr h = some (e.apply { h with mem := m' }) ∧
      Released (ownHeap h) h.heapbase A (absorbUp b.chunk C).1 (absorbUp b.chunk C).2 L' e ∧
      Rep E m' L' B ∧ ChangesIn h.mem m' (b.ext :: E.freeExts L) := by
  have hs := hg.clearance
  obtain ⟨A, C, rfl, hA, hC⟩ := hs.split_at b.base
  have hbk := hg.block b (by simp)
  have hbw := hbk.wf
  have hb12 := hbw.size
  have hbpos := hbk.home.pos
  have hbm := hr.block b (by simp)
  simp only [Block.ext, Extent.fin] at hbpos
  have hlink : Geo E h.regions h.heapbase h.stksize (A ++ b.chunk :: C) B := hg.link hA hC
  obtain ⟨hhdr, hhsize, -⟩ := hbw.plain hplain
  have hptr : sub32 b.ptr chunkSize = b.base := by rw [Block.ptr, sub32_add_cancel, hhdr]
  have hvalid : valid h.mem b.base = VAL_ALLOC := by
    rw [← hhdr, hbm.valid, hplain]
    rfl
  have hsize : size h.mem b.base = b.size := by rw [← hhsize, ← hhdr, hbm.size]
  -- the block is marked free, joined with what is above it, and then put into the list
  set m₁ := setValid h.mem b.base VAL_FREE with hm₁
  have hin : Extent.Within ⟨b.base, chunkSize⟩ b.ext := ⟨le_rfl, Nat.add_le_add_left hb12 _⟩
  have hch₁ : ChangesIn h.mem m₁ [b.ext] := (ChangesIn.refl _ _).setValid (by simp) hin
  have hrep₁ : Rep E m₁ (A ++ C) B := hr.frame_block hg hch₁ (Extent.Within.refl _)
  have hchunk : ChunkAt m₁ b.chunk := by
    refine ⟨?_, ?_, by simp [Block.chunk]⟩
    · rw [valid, hm₁, setValid, Block.chunk, load32_store32_self]
      rfl
    · show size m₁ b.base = b.size
      rw [← hsize]
      exact load32_store32_of_apart _ _ (by omega)
  have hwalk := walkFree_to hrep₁ hg.forget.clearance hA hC
  obtain ⟨m₂, hma, hparts, hch₂⟩ := mergeAfter_spec hrep₁.parts hchunk rfl hlink.clearance
  obtain ⟨habs, hnone, haddr⟩ := absorbUp_geo hlink rfl
  obtain ⟨L', e, m', hli, hrel, hrep, hch₃⟩ :=
    linkIn_spec (h := { h with mem := setNext m₂ b.base (headAddr (absorbUp b.chunk C).2) })
      hparts habs hnone
  -- the run of `free`, and what it has changed
  refine ⟨A, C, L', e, m', rfl, hA, hC, ?_, hrel, hrep, ?_⟩
  · have hma' : mergeAfter m₁ b.base (headAddr C) =
        some (m₂, headAddr (absorbUp b.chunk C).2) := hma
    have haddr' : (absorbUp b.chunk C).1.addr = b.base := haddr
    have hne : b.ptr ≠ 0 := b.ptr_ne_zero
    rw [haddr'] at hli
    rw [free, if_neg hne, hptr, if_neg (not_not.mpr hvalid)]
    simp only [← hm₁, hwalk, Option.bind_eq_bind, Option.bind_some, hma']
    exact hli
  · have hsub : ∀ c ∈ A ++ C, c.ext ∈ b.ext :: E.freeExts (A ++ C) := fun c hc =>
      List.mem_cons_of_mem _ (List.mem_cons_of_mem _ (List.mem_map_of_mem hc))
    refine ((hch₁.subset (by simp)).trans (hch₂.subset ?_)).trans (hch₃.cover ?_)
    · intro e he
      obtain ⟨c, hc, rfl⟩ := List.mem_map.mp he
      rcases List.mem_cons.mp hc with rfl | hc
      · exact List.mem_cons_self
      · exact hsub c (by simp [hc])
    · intro e he x hx
      rcases List.mem_cons.mp he with rfl | he
      · exact ⟨E.headExt, by simp [Layout.freeExts], hx⟩
      obtain ⟨c, hc, rfl⟩ := List.mem_map.mp he
      rcases List.mem_append.mp hc with hc | hc
      · exact ⟨_, hsub c (by simp [hc]), hx⟩
      rcases List.mem_cons.mp hc with rfl | hc
      · rcases absorbUp_mem hx with hx | ⟨d, hd, hx⟩
        · exact ⟨b.ext, by simp, hx⟩
        · exact ⟨_, hsub d (by simp [hd]), hx⟩
      · exact ⟨_, hsub c (by simp [absorbUp_subset hc]), hx⟩

theorem free_moved {h : Heap} {b : Block} (hr : BlockAt h.mem b) (hmoved : b.moved = true) :
    free E b.ptr h = some h := by
  have hv := hr.valid
  have hptr : sub32 b.ptr chunkSize = b.hdr := sub32_add_cancel _ _
  have hne : b.ptr ≠ 0 := b.ptr_ne_zero
  rw [free, if_neg hne, hptr, if_pos]
  rw [hv, hmoved]
  decide

end Memory

end Mintlib.Malloc
