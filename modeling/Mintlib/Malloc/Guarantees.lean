import Mintlib.Malloc.Program

/-!
# What a program may rely on

The free list and the blocks stay separate in every run, a block is as large as
was asked for, and `realloc` keeps the contents, under the conditions that the
code needs for each.
-/

namespace Mintlib.Malloc

open ByteMemory

/-- The chunk in front of the pointer `p`. -/
def blockAt (m : Mem) (p : ℕ) : Extent := chunkAt m (p - chunkSize)

/-- The heap as memory shows it: an ascending free list of separate chunks, and
separate live blocks with room for what was asked. -/
structure HeapOk (E : Layout) (s : Sys) : Prop where
  free_list : ∃ F : List ℕ, Linked (next s.heap.mem) E.mchunk_free_list F 0 ∧
    F.Pairwise (· < ·) ∧
    F.Pairwise (fun a b => (chunkAt s.heap.mem a).Apart (chunkAt s.heap.mem b)) ∧
    ∀ a ∈ F, ∀ e ∈ s.live, (chunkAt s.heap.mem a).Apart (blockAt s.heap.mem e.1)
  live_apart : s.live.Pairwise fun e f =>
    (blockAt s.heap.mem e.1).Apart (blockAt s.heap.mem f.1)
  room : ∀ e ∈ s.live, chunkSize ≤ e.1 ∧ e.2 + chunkSize ≤ (blockAt s.heap.mem e.1).len

/-- A call hands at most one region back, and no live block is in it. -/
def MfreeSafe (s s' : Sys) : Prop :=
  s'.heap.mfrees = s.heap.mfrees ∨ ∃ R ∈ s.heap.regions,
    s'.heap.mfrees = R.base :: s.heap.mfrees ∧ ∀ e ∈ s'.live, (blockAt s'.heap.mem e.1).Apart R

/-- The head of the free list at `0x10000`, in a program of 4096 bytes. -/
def demoLayout : Layout where
  mchunk_free_list := 0x10000
  tpa := ⟨0x10000, 0x1000⟩
  page_size := 8192
  head_pos := by decide
  head_mem := by decide
  tpa_fin := by decide
  page_pow := ⟨13, by decide, by decide, by decide⟩

def demoStart : Sys where
  heap :=
    { mem := store32 (fun _ => 0) 0x10000 VAL_FREE, MINHUNK := 8192, MAXHUNK := 32768,
      zeroMallocs := false, heapbase := 0, stksize := 0, split_mem := false, regions := [],
      mfrees := [] }
  live := []

theorem demoStart_start : Start demoLayout demoStart where
  live := rfl
  regions := rfl
  next := by decide +kernel
  valid := by decide +kernel
  hunk := ⟨by decide, by decide⟩
  reserve h := absurd rfl h

/-- The system has its next region at `0x20000`. -/
def demoOs : Os := ⟨0x20000, 0, 0⟩

def demoHeld : Sys := ((exec demoLayout demoOs (.malloc 100) demoStart).getD (0, demoStart)).2

/-- The pointer that `malloc (100)` returns. -/
abbrev demoPtr : ℕ := 0x21f9c

theorem getD_of_fst {α β : Type*} {o : Option (α × β)} {a : α} (d : α × β)
    (h : o.map Prod.fst = some a) : o = some (a, (o.getD d).2) := by
  cases o with
  | none => simp at h
  | some x => rw [← show x.1 = a by simpa using h]; rfl

theorem exec_demo : exec demoLayout demoOs (.malloc 100) demoStart = some (demoPtr, demoHeld) :=
  getD_of_fst _ (by decide +kernel)

theorem demo_fresh {n : ℕ} (hn : 0 < n ∧ n ≤ 0x10000000) :
    Fresh demoLayout [] ⟨0x20000, n⟩ where
  apart := List.pairwise_singleton _ _
  tpa R hR := by
    rw [List.mem_singleton.mp hR]
    exact Or.inr (show 0x11000 ≤ 0x20000 by decide)
  pos R hR := by
    rw [List.mem_singleton.mp hR]
    simp only [Extent.fin]
    omega

theorem demo_step : (program demoLayout fun _ c _ => c.Basic).step demoStart
    (.malloc 100, demoOs, demoPtr) demoHeld := by
  refine ⟨trivial, ⟨?_, by simp⟩, ?_, trivial, exec_demo⟩
  · intro n hn
    obtain rfl : 100 = n := by simpa [request] using hn
    exact ⟨by decide, fun _ => by decide, fun h => absurd rfl h⟩
  · intro n hn
    obtain rfl : 100 = n := by simpa [request] using hn
    exact ⟨Or.inr (demo_fresh (by decide)), Or.inl rfl, fun h => absurd rfl h⟩

section Runs

variable {E : Layout} {os : Os} {s s' : Sys} {c : Call} {L : List Chunk} {B : List Block}
  {es : List (Call × Os × ℕ)} {p n sz old r : ℕ}

/-- Programs that use the four calls of the C standard. -/
abbrev basicProgram (E : Layout) : Machine Sys (Call × Os × ℕ) := program E fun _ c _ => c.Basic

theorem blockAt_eq {m : Mem} {b : Block} (hb : BlockAt m b) (hw : b.Wf) (hm : b.moved = false) :
    blockAt m b.ptr = b.ext := by
  obtain ⟨hhdr, hhs, -⟩ := hw.plain hm
  have hp : b.ptr - chunkSize = b.hdr := Nat.add_sub_cancel _ _
  rw [blockAt, hp, chunkAt, hb.size, hhdr, hhs]
  rfl

theorem chunkAt_eq {m : Mem} {c : Chunk} (hc : ChunkAt m c) : chunkAt m c.addr = c.ext := by
  rw [chunkAt, hc.size]
  rfl

theorem Holds.blockAt_entry (hh : Holds E s L B) (hpl : ∀ b ∈ B, b.moved = false) {e : ℕ × ℕ}
    (he : e ∈ s.live) : ∃ b ∈ B, b.entry = e ∧ blockAt s.heap.mem e.1 = b.ext := by
  obtain ⟨b, hb, rfl⟩ := List.mem_map.mp (hh.live.mem_iff.mp he)
  exact ⟨b, hb, rfl, blockAt_eq (hh.inv.rep.block b hb) (hh.inv.geo.block b hb).wf (hpl b hb)⟩

theorem Holds.entries (hh : Holds E s L B) : (L.map Chunk.addr).Pairwise (· < ·) ∧
    (L.map Chunk.addr).Pairwise fun a b =>
      (chunkAt s.heap.mem a).Apart (chunkAt s.heap.mem b) := by
  constructor
  · rw [List.pairwise_map]
    refine hh.inv.geo.asc.imp_of_mem fun {c d} hc _ hcd => ?_
    have := (hh.inv.geo.chunk c hc).wf.size
    simp only [chunkSize] at this
    omega
  · rw [List.pairwise_map]
    refine hh.inv.geo.asc.imp_of_mem fun {c d} hc hd hcd => ?_
    rw [chunkAt_eq (hh.inv.rep.chunk c hc), chunkAt_eq (hh.inv.rep.chunk d hd)]
    exact Or.inl hcd

theorem Holds.heapOk (hh : Holds E s L B) (hpl : ∀ b ∈ B, b.moved = false) : HeapOk E s where
  free_list := by
    refine ⟨L.map Chunk.addr, hh.inv.rep.links, hh.entries.1, hh.entries.2, fun a ha e he => ?_⟩
    obtain ⟨c, hc, rfl⟩ := List.mem_map.mp ha
    obtain ⟨b, hb, -, hbe⟩ := hh.blockAt_entry hpl he
    rw [chunkAt_eq (hh.inv.rep.chunk c hc), hbe]
    exact hh.inv.geo.clear c hc b hb
  live_apart := by
    rw [hh.live.pairwise_iff fun h => h.symm, List.pairwise_map]
    refine hh.inv.geo.apart.imp_of_mem fun {a b} ha hb hab => ?_
    have hat := fun b hb => blockAt_eq (hh.inv.rep.block b hb) (hh.inv.geo.block b hb).wf (hpl b hb)
    show (blockAt s.heap.mem a.ptr).Apart (blockAt s.heap.mem b.ptr)
    rw [hat a ha, hat b hb]
    exact hab
  room e he := by
    obtain ⟨b, hb, rfl, hbe⟩ := hh.blockAt_entry hpl he
    have hw := (hh.inv.geo.block b hb).wf
    rw [hbe]
    exact ⟨Nat.le_add_left _ _, (hw.plain (hpl b hb)).2.2⟩

theorem MfreeOk.safe (h : MfreeOk s.heap s'.heap B) (hh : Holds E s' L B)
    (hpl : ∀ b ∈ B, b.moved = false) : MfreeSafe s s' := by
  rcases h with h | ⟨R, hR, hmf, hap⟩
  · exact Or.inl h
  · refine Or.inr ⟨R, hR, hmf, fun e he => ?_⟩
    obtain ⟨b, hb, -, hbe⟩ := hh.blockAt_entry hpl he
    rw [hbe]
    exact hap b hb

theorem Holds.copySafe (hh : Holds E s L B) (hpl : ∀ b ∈ B, b.moved = false) :
    CopySafe E os s c := by
  intro p n old _ _ hm
  left
  obtain ⟨b, hb, hbe⟩ := List.mem_map.mp (hh.live.mem_iff.mp hm)
  rw [Block.entry, Prod.mk.injEq] at hbe
  have hp : p - chunkSize = b.hdr := by
    rw [← hbe.1]
    exact Nat.add_sub_cancel _ _
  rw [hp, (hh.inv.rep.block b hb).valid, hpl b hb]
  rfl

/-- The invariant of the runs without aligned allocators. -/
theorem basic_holds (hrun : (basicProgram E).Run es s) :
    ∃ L B, Holds E s L B ∧ ∀ b ∈ B, b.moved = false := by
  refine hrun.invariant (P := fun s => ∃ L B, Holds E s L B ∧ ∀ b ∈ B, b.moved = false) ?_ ?_
  · exact fun s h => ⟨[], [], h.holds, by simp⟩
  · rintro s ⟨c, os, r⟩ s' ⟨L, B, hh, hpl⟩ ⟨hp, hf, ho, hb, hex⟩
    obtain ⟨r', t, L', B', hex', hd⟩ := exec_spec hh hp hf ho (hh.copySafe hpl)
    obtain rfl : t = s' := by
      rw [hex] at hex'
      simpa using (congrArg (Option.map Prod.snd) hex').symm
    exact ⟨L', B', hd.holds, hd.plain hb hpl⟩

/-- In every run of calls whose size arithmetic does not wrap, every call returns,
the heap stays well formed, and no region that holds a live block goes back. -/
theorem heap_ok_of_run (hrun : (basicProgram E).Run es s) :
    HeapOk E s ∧ ∀ c os, c.Basic → Proper s c → Fits E s c → OsFits E s c os →
      ∃ r s', exec E os c s = some (r, s') ∧ HeapOk E s' ∧ MfreeSafe s s' := by
  obtain ⟨L, B, hh, hpl⟩ := basic_holds hrun
  refine ⟨hh.heapOk hpl, fun c os hb hp hf ho => ?_⟩
  obtain ⟨r, s', L', B', hex, hd⟩ := exec_spec hh hp hf ho (hh.copySafe hpl)
  have hpl' := hd.plain hb hpl
  exact ⟨r, s', hex, hd.holds.heapOk hpl', hd.mfree.safe hd.holds hpl'⟩

theorem heap_ok_of_run_demo : HeapOk demoLayout demoHeld ∧
    ∀ c os, c.Basic → Proper demoHeld c → Fits demoLayout demoHeld c →
      OsFits demoLayout demoHeld c os → ∃ r s', exec demoLayout os c demoHeld = some (r, s') ∧
        HeapOk demoLayout s' ∧ MfreeSafe demoHeld s' :=
  heap_ok_of_run (.snoc (.start demoStart_start) demo_step)

/-- What `malloc`, `calloc` and `realloc` promise about the size of the block at `r`. -/
def SizeOk (r : ℕ) (s' : Sys) : Call → Prop
  | .malloc n => r ≠ 0 → n + chunkSize ≤ (blockAt s'.heap.mem r).len
  | .calloc n sz => r ≠ 0 → n * sz + chunkSize ≤ (blockAt s'.heap.mem r).len ∧
      ∀ x ∈ (⟨r, n * sz⟩ : Extent), s'.heap.mem x = 0
  | .realloc _ n => r ≠ 0 → n + chunkSize ≤ (blockAt s'.heap.mem r).len
  | _ => True

/-- In a run whose calls do not wrap, every block that a call returns is large enough. -/
theorem size_ok_of_run (hrun : (basicProgram E).Run es s)
    (hstep : (basicProgram E).step s (c, os, r) s') : SizeOk r s' c := by
  obtain ⟨L, B, hh, hpl⟩ := basic_holds hrun
  obtain ⟨hp, hf, ho, hb, hex⟩ := hstep
  obtain ⟨r', t, L', B', hex', hd⟩ := exec_spec hh hp hf ho (hh.copySafe hpl)
  have heq : (r', t) = (r, s') := by
    have h := hex'.symm.trans hex
    simpa using h
  rw [Prod.mk.injEq] at heq
  obtain ⟨rfl, rfl⟩ := heq
  have hroom := (hd.holds.heapOk (hd.plain hb hpl)).room
  have hres := hd.result
  cases c with
  | malloc n => exact fun hr => (hroom _ (hres hr)).2
  | calloc n sz => exact fun hr => ⟨(hroom _ (hres hr).1).2, (hres hr).2⟩
  | realloc p n => exact fun hr => (hroom _ (hres.1 hr).1).2
  | _ => trivial

theorem size_ok_of_run_demo : SizeOk demoPtr demoHeld (.malloc 100) :=
  size_ok_of_run (.start demoStart_start) demo_step

/-- The sum `n + 19` wraps for the largest request: `malloc` returns a chunk of 16 bytes. -/
theorem malloc_size_wraps : Start demoLayout demoStart ∧
    OsFits demoLayout demoStart (.malloc 0xffffffff) demoOs ∧
    ∃ r s', exec demoLayout demoOs (.malloc 0xffffffff) demoStart = some (r, s') ∧
      (blockAt s'.heap.mem r).len = 16 ∧ ¬ SizeOk r s' (.malloc 0xffffffff) := by
  refine ⟨demoStart_start, ?_, ?_⟩
  · intro n hn
    obtain rfl : 0xffffffff = n := by simpa [request] using hn
    exact ⟨Or.inr (demo_fresh (by decide)), Or.inl rfl, fun h => absurd rfl h⟩
  · have hex : (exec demoLayout demoOs (.malloc 0xffffffff) demoStart).map
        (fun r => (r.1, (blockAt r.2.heap.mem r.1).len)) = some (0x21ffc, 16) := by decide +kernel
    obtain ⟨⟨r, s'⟩, hr, heq⟩ := Option.map_eq_some_iff.mp hex
    rw [Prod.mk.injEq] at heq
    refine ⟨r, s', hr, heq.2, fun hs => ?_⟩
    have hne : r ≠ 0 := by
      have h1 : r = 0x21ffc := heq.1
      rw [h1]
      decide
    have hlen : (blockAt s'.heap.mem r).len = 16 := heq.2
    have hbig := hs hne
    rw [hlen] at hbig
    exact absurd hbig (by decide)

/-- Programs that use every allocator, with `realloc` of aligned blocks only where
the header tells the truth. -/
abbrev carefulProgram (E : Layout) : Machine Sys (Call × Os × ℕ) :=
  program E fun s c os => CopySafe E os s c

/-- What `realloc (p, n)` promises about contents when `p` has `old` bytes. -/
structure ReallocKeeps (s : Sys) (p old n r : ℕ) (s' : Sys) : Prop where
  moved : r ≠ 0 → ∀ i < min old n, s'.heap.mem (r + i) = s.heap.mem (p + i)
  others : ∀ e ∈ s.live, e.1 ≠ p → e ∈ s'.live ∧ AgreeOn s.heap.mem s'.heap.mem ⟨e.1, e.2⟩
  failed : r = 0 → n ≠ 0 → (p, old) ∈ s'.live ∧ AgreeOn s.heap.mem s'.heap.mem ⟨p, old⟩

/-- In a run of careful calls, `realloc` of a live pointer returns and keeps the contents. -/
theorem realloc_keeps_of_run (hrun : (carefulProgram E).Run es s) (hm : (p, old) ∈ s.live)
    (hf : Fits E s (.realloc p n)) (ho : OsFits E s (.realloc p n) os)
    (hc : CopySafe E os s (.realloc p n)) :
    ∃ r s', exec E os (.realloc p n) s = some (r, s') ∧ ReallocKeeps s p old n r s' := by
  obtain ⟨L, B, hh⟩ := program_holds (fun s c os h => h) hrun
  have hp : Proper s (.realloc p n) := Or.inr ⟨old, hm⟩
  obtain ⟨r, s', L', B', hex, hd⟩ := exec_spec hh hp hf ho hc
  obtain ⟨hok, hfail⟩ := hd.result
  exact ⟨r, s', hex, fun hr => (hok hr).2 old hm, hd.others, fun hr hn => hfail hr hn old hm⟩

theorem demo_careful : (carefulProgram demoLayout).Run [(.malloc 100, demoOs, demoPtr)] demoHeld :=
  .snoc (.start demoStart_start) ⟨demo_step.1, demo_step.2.1, demo_step.2.2.1,
    fun _ _ _ h => by simp at h, exec_demo⟩

def demoFull : Os := ⟨0, 0, 0⟩

theorem realloc_keeps_of_run_demo : ∃ r s',
    exec demoLayout demoFull (.realloc demoPtr 200) demoHeld = some (r, s') ∧
      ReallocKeeps demoHeld demoPtr 100 200 r s' := by
  refine realloc_keeps_of_run demo_careful (by decide +kernel) ⟨?_, fun _ _ h _ _ => ?_⟩ ?_ ?_
  · intro n hn
    obtain rfl : 200 = n := by simpa [request] using hn
    exact ⟨by decide, fun _ => by decide, fun h => absurd h (by decide +kernel)⟩
  · obtain ⟨-, rfl⟩ := Call.realloc.inj h
    decide
  · intro n hn
    exact ⟨Or.inl rfl, Or.inl rfl, fun h => absurd h (by decide +kernel)⟩
  · intro p n old h _ _
    obtain ⟨rfl, -⟩ := Call.realloc.inj h
    exact Or.inl (by decide +kernel)

/-- A program that holds 64 bytes from `memalign (64, 64)`. -/
def demoAligned : Sys := ((exec demoLayout demoOs (.memalign 64 64) demoStart).getD (0, demoStart)).2

def demoStored : Sys := { demoAligned with
  heap := { demoAligned.heap with mem := fill demoAligned.heap.mem (0x21f80 + 60) 1 1 } }

theorem demo_aligned_step : (program demoLayout fun _ _ _ => True).step demoStart
    (.memalign 64 64, demoOs, 0x21f80) demoAligned := by
  have hex : exec demoLayout demoOs (.memalign 64 64) demoStart = some (0x21f80, demoAligned) :=
    getD_of_fst _ (by decide +kernel)
  refine ⟨Or.inr (by decide), ⟨?_, by simp⟩, ?_, trivial, hex⟩
  · intro n hn
    obtain rfl : alignedBytes 64 64 = n := by simpa [request] using hn
    exact ⟨by decide, fun _ => by decide, fun h => absurd rfl h⟩
  · intro n hn
    obtain rfl : alignedBytes 64 64 = n := by simpa [request] using hn
    exact ⟨Or.inr (demo_fresh (by decide)), Or.inl rfl, fun h => absurd rfl h⟩

theorem demo_store_step : (program demoLayout fun _ _ _ => True).step demoAligned
    (.store 0x21f80 60 1, demoFull, 0) demoStored :=
  ⟨⟨64, by decide +kernel, by decide⟩, ⟨by simp [request], by simp⟩, by simp [OsFits, request],
    trivial, rfl⟩

/-- `realloc` of an aligned block copies 12 bytes too few: the byte is lost. -/
theorem realloc_loses_bytes : (program demoLayout fun _ _ _ => True).Run
      [(.memalign 64 64, demoOs, 0x21f80), (.store 0x21f80 60 1, demoFull, 0)] demoStored ∧
    (0x21f80, 64) ∈ demoStored.live ∧
    Fits demoLayout demoStored (.realloc 0x21f80 200) ∧
    OsFits demoLayout demoStored (.realloc 0x21f80 200) demoFull ∧
    ∃ r s', exec demoLayout demoFull (.realloc 0x21f80 200) demoStored = some (r, s') ∧
      ¬ ReallocKeeps demoStored 0x21f80 64 200 r s' := by
  refine ⟨.snoc (.snoc (.start demoStart_start) demo_aligned_step) demo_store_step,
    by decide +kernel, ⟨?_, fun _ _ h _ _ => ?_⟩, ?_, ?_⟩
  · intro n hn
    obtain rfl : 200 = n := by simpa [request] using hn
    exact ⟨by decide, fun _ => by decide, fun h => absurd h (by decide +kernel)⟩
  · obtain ⟨-, rfl⟩ := Call.realloc.inj h
    decide
  · intro n hn
    exact ⟨Or.inl rfl, Or.inl rfl, fun h => absurd h (by decide +kernel)⟩
  · have hex : (exec demoLayout demoFull (.realloc 0x21f80 200) demoStored).map
        (fun r => (decide (r.1 ≠ 0), r.2.heap.mem (r.1 + 60))) = some (true, 0) := by
      decide +kernel
    obtain ⟨⟨r, s'⟩, hr, heq⟩ := Option.map_eq_some_iff.mp hex
    rw [Prod.mk.injEq, decide_eq_true_eq] at heq
    refine ⟨r, s', hr, fun hk => ?_⟩
    have hbyte := hk.moved heq.1 60 (by decide)
    rw [heq.2] at hbyte
    exact absurd hbyte (by decide +kernel)

end Runs

end Mintlib.Malloc
