import Mintlib.Malloc.Words
import Mintlib.Posix

/-!
# Aligned blocks

`posix_memalign` asks `malloc` for more bytes and moves the pointer up to the
alignment. `free` takes the memory back only if the pointer did not have to move:
`aligned_not_returned` is a block that stays allocated.
-/

namespace Mintlib.Malloc

open ByteMemory Posix

theorem dvd_alignDown (x k : ℕ) : 2 ^ k ∣ alignDown x (2 ^ k) := by
  rw [alignDown_two_pow]
  exact Nat.dvd_sub_mod _

theorem and_eq_zero_iff_dvd (x k : ℕ) : x &&& (2 ^ k - 1) = 0 ↔ 2 ^ k ∣ x := by
  rw [Nat.and_two_pow_sub_one_eq_mod]
  exact Nat.dvd_iff_mod_eq_zero.symm

/-- `posix_memalign` accepts every power of two that is a multiple of `sizeof (void *)`. -/
theorem check_two_pow (k : ℕ) :
    ¬ (2 ^ (k + 2) % 4 ≠ 0 ∨ powerof2 (2 ^ (k + 2) / 4) = false ∨ 2 ^ (k + 2) = 0) := by
  have hpow : 2 ^ (k + 2) = 2 ^ k * 4 := by ring
  have hpos : 0 < 2 ^ k := Nat.two_pow_pos k
  have hcheck : powerof2 (2 ^ k) = true := by
    rw [powerof2, sub32_of_le hpos, Nat.and_comm, Nat.and_two_pow_sub_one_eq_mod]
    simp
  rw [hpow, Nat.mul_mod_left, Nat.mul_div_cancel _ (by norm_num), hcheck]
  simp

/-- `F` are the entries of the free list, in order. -/
def FreeList (E : Layout) (m : Mem) (F : List ℕ) : Prop :=
  Linked (next m) E.mchunk_free_list F 0 ∧ 0 ∉ F

/-- The header in front of a pointer that is held, and the bytes asked for. -/
def held (q : ℕ × ℕ) : Extent := ⟨q.1 - chunkSize, chunkSize + q.2⟩

/-- The free list ascends, its chunks are separate from each other and from what the
program holds, and each is marked as free or as a border. -/
def ListOk (E : Layout) (s : Sys) : Prop :=
  ∃ F, FreeList E s.heap.mem F ∧ F.Pairwise (· < ·) ∧
    F.Pairwise (fun a b => (chunkAt s.heap.mem a).Apart (chunkAt s.heap.mem b)) ∧
    ∀ a ∈ F, (valid s.heap.mem a = VAL_FREE ∨ valid s.heap.mem a = VAL_BORDER) ∧
      ∀ q ∈ s.live, (chunkAt s.heap.mem a).Apart (held q)

/-- Every byte of `e` is in a free chunk, in our own heap or in a region that has
been handed back. -/
def Returned (E : Layout) (h h' : Heap) (e : Extent) : Prop :=
  ∀ x ∈ e, (∃ F, FreeList E h'.mem F ∧ ∃ a ∈ F, valid h'.mem a = VAL_FREE ∧ x ∈ chunkAt h'.mem a) ∨
    (h'.heapbase ≠ 0 ∧ x ∈ (⟨h'.heapbase, h'.stksize⟩ : Extent)) ∨
    ∃ R ∈ h.regions, R ∉ h'.regions ∧ x ∈ R

/-- The `n` bytes at `r` are a block with the alignment `a` in the chunk `e`, and
nothing else has changed but the free chunk that `e` is a part of. -/
structure Placed (E : Layout) (s s' : Sys) (a n r : ℕ) (e : Extent) : Prop where
  aligned : MALLOC_ALIGNMENT < a → a ∣ r
  inside : Extent.Within ⟨r, n⟩ e
  apart : ∀ q ∈ s.live, e.Apart (held q)
  kept : ∀ q ∈ s.live, AgreeOn s.heap.mem s'.heap.mem (held q)
  entries : ∀ F, FreeList E s.heap.mem F → ∀ x ∈ F, ¬ e.Within (chunkAt s.heap.mem x) →
    (∃ F', FreeList E s'.heap.mem F' ∧ x ∈ F') ∧ valid s'.heap.mem x = valid s.heap.mem x ∧
      size s'.heap.mem x = size s.heap.mem x
  list : ListOk E s'

section Abstract

variable {E : Layout} {rs rs' : List Extent} {hb hb' st st' : ℕ} {m : Mem}
  {L L' A C : List Chunk} {B : List Block} {b : Block} {c r : Chunk} {e : Extent} {n : ℕ}
  {F : List ℕ} {s : Sys}

theorem Rep.freeList (hr : Rep E m L B) (hs : Clear E L B) : FreeList E m (L.map Chunk.addr) := by
  refine ⟨hr.links, fun hz => ?_⟩
  obtain ⟨c, hc, hz⟩ := List.mem_map.mp hz
  have := (hs.chunk c hc).2.2.1
  omega

theorem FreeList.eq_map (hF : FreeList E m F) (hr : Rep E m L B) (hs : Clear E L B) :
    F = L.map Chunk.addr :=
  hF.1.unique hr.links hF.2 (hr.freeList hs).2

theorem Block.Wf.held_within (hw : b.Wf) : (held b.entry).Within b.ext := by
  have hbase := hw.base_le
  have hptr : b.ptr - chunkSize = b.hdr := Nat.add_sub_cancel _ _
  simp only [held, Block.entry, hptr, Extent.Within, Extent.fin, Block.ext]
  cases hm : b.moved with
  | false =>
    have := hw.plain hm
    omega
  | true =>
    have := hw.moved hm
    omega

theorem Holds.listOk (hh : Holds E s L B) : ListOk E s := by
  refine ⟨L.map Chunk.addr, hh.inv.rep.freeList hh.inv.geo.clearance, hh.entries.1, hh.entries.2,
    fun a ha => ⟨?_, fun q hq => ?_⟩⟩
  · obtain ⟨c, hc, rfl⟩ := List.mem_map.mp ha
    rw [(hh.inv.rep.chunk c hc).valid, Chunk.tag]
    split_ifs
    · exact Or.inl rfl
    · exact Or.inr rfl
  · obtain ⟨c, hc, rfl⟩ := List.mem_map.mp ha
    obtain ⟨b, hb, rfl⟩ := List.mem_map.mp (hh.live.mem_iff.mp hq)
    rw [chunkAt_eq (hh.inv.rep.chunk c hc)]
    exact (hh.inv.geo.clear c hc b hb).mono (Extent.Within.refl _)
      (hh.inv.geo.block b hb).wf.held_within

theorem Carved.stays (hcv : Carved n L e L') (hc : c ∈ L) : c ∈ L' ∨ e.Within c.ext := by
  cases hcv with
  | @split A C k hk hlt =>
    simp only [List.mem_append, List.mem_cons] at hc ⊢
    rcases hc with hc | rfl | hc
    · exact Or.inl (Or.inl hc)
    · right
      simp only [Extent.Within, Extent.fin, Chunk.ext]
      omega
    · exact Or.inl (Or.inr (Or.inr hc))
  | @take A C k hk hlt hle =>
    simp only [List.mem_append, List.mem_cons] at hc ⊢
    rcases hc with hc | rfl | hc
    · exact Or.inl (Or.inl hc)
    · exact Or.inr (Extent.Within.refl _)
    · exact Or.inl (Or.inr hc)

theorem Supplied.stays (hsup : Supplied E rs hb st L rs' hb' st' L') (hc : c ∈ L) : c ∈ L' := by
  cases hsup with
  | nothing => exact hc
  | region hz hL hq hsz hA hC => exact mem_around [_, _] (hL ▸ hc)
  | chunk hne hL hq hsz hA hC => exact mem_around [_] (hL ▸ hc)
  | heap hne hL hst hsz hA hC => exact mem_around [_] (hL ▸ hc)

theorem Released.covers {h : Heap} {f : Effect} (hn : r.border = none)
    (hrel : Released (ownHeap h) h.heapbase A r C L f)
    (hg : Geo E h.regions h.heapbase h.stksize (A ++ r :: C) B) {x : ℕ} (hx : x ∈ r.ext) :
    (∃ c ∈ L, c.border = none ∧ x ∈ c.ext) ∨
    ((f.apply h).heapbase ≠ 0 ∧ x ∈ (⟨(f.apply h).heapbase, (f.apply h).stksize⟩ : Extent)) ∨
    ∃ R ∈ h.regions, R ∉ (f.apply h).regions ∧ x ∈ R := by
  simp only [Chunk.ext, Extent.mem_iff] at hx
  cases hrel with
  | link hfar hno => exact Or.inl ⟨r, by simp, hn, hx⟩
  | toHeap hfar hyes =>
    right; left
    have hpos := (hg.bounds (c := r) (by simp)).1
    refine ⟨by simp only [Effect.apply]; omega, ?_⟩
    simp only [Effect.apply, Extent.mem_iff]
    omega
  | @behindBorder A C p r a hp hj hC ha => exact Or.inl ⟨r, by simp, hn, hx⟩
  | @drop A C p r hp hj hC =>
    right; right
    have hk := hg.chunk p (by simp)
    have hps := hk.wf.border (by simp [hp])
    refine ⟨_, (hk.region _ hp).2, by simp [Effect.apply, Mfree], ?_⟩
    simp only [Extent.mem_iff]
    omega
  | @merge A C p r hp hj hC hno hopen =>
    refine Or.inl ⟨⟨p.addr, p.size + r.size, none⟩, by simp, rfl, ?_⟩
    simp only [Chunk.ext, Extent.mem_iff]
    omega
  | @mergeToHeap A C p r hp hj hC hyes =>
    right; left
    have hpos := (hg.bounds (c := p) (by simp)).1
    refine ⟨by simp only [Effect.apply]; omega, ?_⟩
    simp only [Effect.apply, Extent.mem_iff]
    omega
  | @mergeDrop A C o p r hp hj hC ho =>
    right; right
    have hk := hg.chunk o (by simp)
    have hgm : Geo E h.regions h.heapbase h.stksize (A ++ o :: ⟨p.addr, p.size + r.size, none⟩ :: C)
        B := by
      have hg' : Geo E h.regions h.heapbase h.stksize (A ++ [o] ++ p :: r :: C) B := by
        simpa using hg
      simpa using hg'.merge hp hn hj
    have hin := hgm.behind_border ho rfl
    refine ⟨_, (hk.region _ ho).2, by simp [Effect.apply, Mfree], ?_⟩
    simp only [Extent.mem_iff] at hin ⊢
    omega

end Abstract

section Runs

variable {E : Layout} {os : Os} {s s' : Sys} {L : List Chunk} {B : List Block} {b : Block}
  {h h₁ : Heap} {m' : Mem} {e : Extent} {es : List (Call × Os × ℕ)} {k n sz : ℕ}

theorem Shifted.aligned (hs : Shifted (2 ^ k) sz e b) (hk : MALLOC_ALIGNMENT < 2 ^ k) :
    2 ^ k ∣ b.ptr := by
  cases hm : b.moved with
  | false =>
    obtain ⟨hptr, hsmall | hand⟩ := hs.plain hm
    · omega
    · rw [hptr]
      exact (and_eq_zero_iff_dvd _ _).mp hand
  | true =>
    rw [(hs.moved hm).1]
    exact dvd_alignDown _ _

theorem Shifted.moved_iff (hs : Shifted (2 ^ k) sz e b) :
    b.moved = true ↔ b.ptr ≠ e.base + chunkSize := by
  constructor
  · intro hm heq
    obtain ⟨-, hbig, hand⟩ := hs.moved hm
    apply hand
    rw [and_eq_zero_iff_dvd, ← heq]
    exact hs.aligned hbig
  · intro hne
    by_contra hm
    exact hne (hs.plain (by simpa using hm)).1

theorem Shifted.placed (hs : Shifted (2 ^ k) n e b) (hh : Holds E s L B)
    (hall : Allocated E s.heap L B (alignedBytes (2 ^ k) n) e h₁ L')
    (hh' : Holds E ⟨{ h₁ with mem := m' }, (b.ptr, n) :: s.live⟩ L' (b :: B))
    (hch : ChangesIn h₁.mem m' [e]) :
    Placed E s ⟨{ h₁ with mem := m' }, (b.ptr, n) :: s.live⟩ (2 ^ k) n b.ptr e := by
  have hg := hh'.inv.geo
  have hblock : ∀ q ∈ s.live, ∃ a ∈ B, (held q).Within a.ext := by
    intro q hq
    obtain ⟨a, ha, rfl⟩ := List.mem_map.mp (hh.live.mem_iff.mp hq)
    exact ⟨a, ha, (hh.inv.geo.block a ha).wf.held_within⟩
  refine ⟨hs.aligned, ?_, fun q hq => ?_, fun q hq => ?_, fun F hF x hx hout => ?_, hh'.listOk⟩
  · have hin := (hg.block b List.mem_cons_self).wf.contents_within
    rw [Block.contents, hs.req, hs.ext] at hin
    exact hin
  · obtain ⟨a, ha, hin⟩ := hblock q hq
    rw [← hs.ext]
    exact ((List.pairwise_cons.mp hg.apart).1 a ha).mono (Extent.Within.refl _) hin
  · obtain ⟨a, ha, hin⟩ := hblock q hq
    intro x hx
    have h1 := hall.kept hh.inv.geo a ha x (hin.mem hx)
    have h2 := hs.kept hh'.inv hch a ha x (hin.mem hx)
    exact h2.trans h1
  · rw [hF.eq_map hh.inv.rep hh.inv.geo.clearance] at hx
    obtain ⟨c, hc, rfl⟩ := List.mem_map.mp hx
    have hold := hh.inv.rep.chunk c hc
    rw [chunkAt_eq hold] at hout
    obtain ⟨L₁, hsup, hcv, -⟩ := hall.path
    have hc' : c ∈ L' := (hcv.stays (hsup.stays hc)).resolve_right hout
    have hnew := hh'.inv.rep.chunk c hc'
    exact ⟨⟨_, hh'.inv.rep.freeList hg.clearance, List.mem_map_of_mem hc'⟩,
      hnew.valid.trans hold.valid.symm, hnew.size.trans hold.size.symm⟩

theorem free_returned (hh : Holds E ⟨h, b.entry :: s.live⟩ L (b :: B)) :
    ∃ h', free E b.ptr h = some h' ∧ ListOk E ⟨h', s.live⟩ ∧
      (b.moved = false → Returned E h h' b.ext) ∧ (b.moved = true → h' = h) := by
  have hlive : s.live.Perm (B.map Block.entry) := List.Perm.cons_inv hh.live
  cases hm : b.moved with
  | true =>
    have hrest : Holds E ⟨h, s.live⟩ L B :=
      ⟨⟨hh.inv.rep.forget, hh.inv.geo.forget, hh.inv.hunk⟩, hlive⟩
    exact ⟨h, free_moved (hh.inv.rep.block b List.mem_cons_self) hm, hrest.listOk,
      fun hf => absurd hf (by simp), fun _ => rfl⟩
  | false =>
    obtain ⟨A, C, L', f, m', hf⟩ := free_steps hh.inv hm
    have hrest : Holds E ⟨f.apply { h with mem := m' }, s.live⟩ L' B := ⟨hf.inv, hlive⟩
    refine ⟨_, hf.result, hrest.listOk, fun _ x hx => ?_, fun ht => absurd ht (by simp)⟩
    have hcov := Released.covers (h := { h with mem := m' }) hf.border hf.released hf.geo
      (absorbUp_covers (r := b.chunk) hx)
    refine hcov.imp ?_ id
    rintro ⟨c, hc, hcn, hxc⟩
    have hck := hf.inv.rep.chunk c hc
    refine ⟨_, hf.inv.rep.freeList hf.inv.geo.clearance, c.addr, List.mem_map_of_mem hc,
      hck.free_iff.mpr hcn, ?_⟩
    rw [chunkAt_eq hck]
    exact hxc

/-- In every run of careful calls `posix_memalign` of a power of two that is a
multiple of `sizeof (void *)` returns; if it returns 0 the block is placed in the
chunk that `malloc` returned for it, at a multiple of four if the system's memory begins at
such, and `free` gives the chunk back if the pointer is the one of `malloc`, and does nothing
otherwise. -/
theorem posix_memalign_of_run (hrun : (carefulProgram E).Run es s)
    (hf : Fits E s (.posixMemalign (2 ^ (k + 2)) n))
    (ho : OsFits E s (.posixMemalign (2 ^ (k + 2)) n) os) :
    ∃ res h', posixMemalign E os (2 ^ (k + 2)) n s.heap = some (res, h') ∧
      (res = (ENOMEM, none) ∨ ∃ r p h₁, res = (0, some r) ∧
        malloc E os (alignedBytes (2 ^ (k + 2)) n) s.heap = some (p, h₁) ∧
        Placed E s ⟨h', (r, n) :: s.live⟩ (2 ^ (k + 2)) n r (blockAt h₁.mem p) ∧
        ((wordProgram E).Run es s → os.Words → 4 ∣ r) ∧
        ∃ h'', free E r h' = some h'' ∧ ListOk E ⟨h'', s.live⟩ ∧
          (r = p → Returned E h' h'' (blockAt h₁.mem p)) ∧ (r ≠ p → h'' = h')) := by
  obtain ⟨L, B, hh⟩ := program_holds (fun s c os h => h) hrun
  have hok := check_two_pow k
  have hw := hf.request
  simp only [OsFits, request, if_neg hok, Option.mem_def, Option.some.injEq, forall_eq'] at hw ho
  rcases libcMemalign_steps hh.inv (alignment_of_check hok) hw ho with ⟨j, t, hmem, -, -⟩ |
    ⟨e, h₁, L', b, m', hmal, hall, hmem, hs, hinv, hch⟩
  · refine ⟨(ENOMEM, none), { s.heap with MINHUNK := j, split_mem := t }, ?_, Or.inl rfl⟩
    rw [posixMemalign, if_neg hok, hmem]
    rfl
  · have hchunk : blockAt h₁.mem (plainBlock e (alignedBytes (2 ^ (k + 2)) n)).ptr = e :=
      blockAt_eq (hall.inv.rep.block _ List.mem_cons_self)
        (hall.inv.geo.block _ List.mem_cons_self).wf rfl
    have hentry : b.entry = (b.ptr, n) := by rw [Block.entry, hs.req]
    have hh' : Holds E ⟨{ h₁ with mem := m' }, (b.ptr, n) :: s.live⟩ L' (b :: B) :=
      ⟨hinv, hentry ▸ hh.live.cons b.entry⟩
    obtain ⟨h'', hfree, hlist, hback, hsame⟩ := free_returned (s := s) (b := b) (hentry ▸ hh')
    refine ⟨(0, some b.ptr), { h₁ with mem := m' }, ?_, Or.inr ⟨b.ptr, _, h₁, rfl, hmal, ?_,
      fun hwords h4 => posixMemalign_word hwords hok hw ho h4 hmem, h'', hfree, hlist,
      fun heq => ?_, fun hne => hsame (hs.moved_iff.mpr hne)⟩⟩
    · rw [posixMemalign, if_neg hok, hmem]
      simp only [Option.bind_eq_bind, Option.bind_some, if_pos b.ptr_ne_zero]
    · rw [hchunk]
      exact hs.placed hh hall hh' hch
    · rw [hchunk, ← hs.ext]
      apply hback
      by_contra hm
      exact hs.moved_iff.mp (by simpa using hm) heq

theorem posix_memalign_of_run_demo :
    ∃ res h', posixMemalign demoLayout demoOs (2 ^ (4 + 2)) 64 demoStart.heap = some (res, h') ∧
      (res = (ENOMEM, none) ∨ ∃ r p h₁, res = (0, some r) ∧
        malloc demoLayout demoOs (alignedBytes (2 ^ (4 + 2)) 64) demoStart.heap = some (p, h₁) ∧
        Placed demoLayout demoStart ⟨h', (r, 64) :: demoStart.live⟩ (2 ^ (4 + 2)) 64 r
          (blockAt h₁.mem p) ∧
        4 ∣ r ∧
        ∃ h'', free demoLayout r h' = some h'' ∧ ListOk demoLayout ⟨h'', demoStart.live⟩ ∧
          (r = p → Returned demoLayout h' h'' (blockAt h₁.mem p)) ∧ (r ≠ p → h'' = h')) := by
  have hreq : ∀ j ∈ request (.posixMemalign (2 ^ (4 + 2)) 64), j = 127 := by
    intro j hj
    have h127 : request (.posixMemalign (2 ^ (4 + 2)) 64) = some 127 := by decide
    rw [h127] at hj
    simpa using hj.symm
  have hfits : Fits demoLayout demoStart (.posixMemalign (2 ^ (4 + 2)) 64) := by
    refine ⟨fun j hj => ?_, by simp⟩
    rw [hreq j hj]
    exact ⟨by decide, fun _ => by decide, fun h => absurd rfl h⟩
  have hos : OsFits demoLayout demoStart (.posixMemalign (2 ^ (4 + 2)) 64) demoOs := by
    intro j hj
    rw [hreq j hj]
    exact ⟨Or.inr (demo_fresh (by decide)), Or.inl rfl, fun h => absurd rfl h⟩
  have hbase : 4 ∣ demoStart.heap.heapbase := Nat.dvd_zero 4
  have hrun : (wordProgram demoLayout).Run [] demoStart := .start ⟨demoStart_start, hbase⟩
  have hwords : demoOs.Words := ⟨by decide, by decide⟩
  obtain ⟨res, h', hcall, hres⟩ := posix_memalign_of_run (.start demoStart_start) hfits hos
  refine ⟨res, h', hcall, hres.imp_right ?_⟩
  rintro ⟨r, p, h₁, hr, hmal, hplaced, h4, hfree⟩
  exact ⟨r, p, h₁, hr, hmal, hplaced, h4 hrun hwords, hfree⟩

/-- The alignment 8 is left to `malloc`, whose pointers are 4 off; and a block with the
alignment 64 that had to move stays allocated when it is freed. -/
theorem aligned_not_returned :
    (∃ h', posixMemalign demoLayout demoOs 8 100 demoStart.heap = some ((0, some demoPtr), h') ∧
      ¬ 8 ∣ demoPtr) ∧
    ∃ h' h'', posixMemalign demoLayout demoOs 64 64 demoStart.heap = some ((0, some 0x21f80), h') ∧
      free demoLayout 0x21f80 h' = some h'' ∧ ¬ Returned demoLayout h' h'' ⟨0x21f80, 64⟩ := by
  constructor
  · have hex : (posixMemalign demoLayout demoOs 8 100 demoStart.heap).map Prod.fst =
        some (0, some demoPtr) := by decide +kernel
    exact ⟨_, getD_of_fst ((0, none), demoStart.heap) hex, by decide⟩
  · have hmem : posixMemalign demoLayout demoOs 64 64 demoStart.heap =
        some ((0, some 0x21f80), demoAligned.heap) := by
      have hex := demo_aligned_step.2.2.2.2
      simp only [exec, Option.map_eq_some_iff, Prod.mk.injEq] at hex
      obtain ⟨⟨r, h'⟩, hlibc, rfl, hs⟩ := hex
      rw [posixMemalign, if_neg (by decide), hlibc, ← hs]
      rfl
    have hfree : free demoLayout 0x21f80 demoAligned.heap = some demoAligned.heap := by
      rw [free, if_neg (by decide), if_pos (by decide +kernel)]
    refine ⟨_, _, hmem, hfree, fun hback => ?_⟩
    have hlist : Linked (next demoAligned.heap.mem) demoLayout.mchunk_free_list
        [0x20000, 0x20010] 0 :=
      ⟨by decide +kernel, by decide +kernel, Linked.nil_iff.mpr (by decide +kernel)⟩
    rcases hback 0x21f80 (by decide) with ⟨F, hF, a, ha, hfree, hin⟩ | ⟨hne, -⟩ | ⟨R, hR, hgone, -⟩
    · rw [hF.1.unique hlist hF.2 (by decide)] at ha
      rcases List.mem_pair.mp ha with rfl | rfl
      · exact absurd hfree (by decide +kernel)
      · exact absurd hin (by decide +kernel)
    · exact absurd hne (by decide +kernel)
    · exact absurd hR hgone

end Runs

end Mintlib.Malloc
