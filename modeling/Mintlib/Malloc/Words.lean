import Mintlib.Malloc.Guarantees

/-!
# Multiples of four

Where the system's memory begins at multiples of four, all chunks do, and so does what is left of
our own heap. A pointer of `malloc` is 12 bytes further up, and a multiple of four too.
-/

namespace Mintlib.Malloc

open ByteMemory

def Os.Words (os : Os) : Prop := 4 ∣ os.malloc₁ ∧ 4 ∣ os.malloc₂

/-- All chunks and blocks begin at multiples of four and have such sizes. -/
structure Words (hb : ℕ) (L : List Chunk) (B : List Block) : Prop where
  base : 4 ∣ hb
  chunk : ∀ c ∈ L, 4 ∣ c.addr ∧ 4 ∣ c.size
  block : ∀ b ∈ B, b.moved = false → 4 ∣ b.base ∧ 4 ∣ b.size

/-- What the system has added between two states begins at a multiple of four. -/
structure Grows (h h' : Heap) : Prop where
  heapbase : 4 ∣ h.heapbase → 4 ∣ h'.heapbase
  regions : ∀ R, h'.regions = R :: h.regions → 4 ∣ R.base ∧ 4 ∣ R.len

section Supply

variable {E : Layout} {os : Os} {h h' h'' : Heap} {n p q sz a : ℕ} {x : ℕ × Heap}

theorem Grows.of_same (hr : h'.regions = h.regions) (hb : h'.heapbase = h.heapbase) :
    Grows h h' where
  heapbase h4 := hb ▸ h4
  regions R hR := by
    rw [hr] at hR
    have hlen := congrArg List.length hR
    rw [List.length_cons] at hlen
    omega

theorem Grows.then (hg : Grows h h') (hr : h''.regions = h'.regions)
    (hb : h''.heapbase = h'.heapbase) : Grows h h'' where
  heapbase h4 := hb ▸ hg.heapbase h4
  regions R hR := hg.regions R (hr ▸ hR)

theorem Grows.after (hg : Grows h' h'') (hr : h'.regions = h.regions)
    (hb : h'.heapbase = h.heapbase) : Grows h h'' where
  heapbase h4 := hg.heapbase (hb ▸ h4)
  regions R hR := hg.regions R (hr ▸ hR)

theorem four_dvd_add32 {x y : ℕ} (hx : 4 ∣ x) (hy : 4 ∣ y) : 4 ∣ add32 x y :=
  (Nat.dvd_mod_iff (by decide : 4 ∣ 2 ^ 32)).mpr (Nat.dvd_add hx hy)

theorem sbrkSource_grows (os : Os) (ha : 4 ∣ a) (hn : 4 ∣ n) (h : Heap) :
    Grows h (sbrkSource os a n h).2 ∧
      ((sbrkSource os a n h).1 = 0 → (sbrkSource os a n h).2 = h) := by
  unfold sbrkSource
  split_ifs with ho hz
  · unfold HeapAlloc
    simp only
    split_ifs
    · exact ⟨Grows.of_same rfl rfl, fun _ => rfl⟩
    · refine ⟨⟨fun h4 => four_dvd_add32 h4 ?_, fun R hR => ?_⟩, fun hzero => ?_⟩
      · rw [alignDown_eight]
        omega
      · have hsame : Grows h h := Grows.of_same rfl rfl
        exact hsame.regions R hR
      · exact absurd hzero (ownHeap_ne ho)
  · exact ⟨Grows.of_same rfl rfl, fun _ => rfl⟩
  · unfold gemMalloc
    split_ifs with hzero
    · exact ⟨Grows.of_same rfl rfl, fun _ => rfl⟩
    · refine ⟨⟨id, fun R hR => ?_⟩, fun h0 => absurd h0 hzero⟩
      obtain ⟨rfl, -⟩ := List.cons.inj hR
      exact ⟨ha, hn⟩

theorem sbrk_grows (hos : os.Words) (hn : 4 ∣ n) (h : Heap) : Grows h (sbrk os n h).2 := by
  obtain ⟨hfirst, hsame⟩ := sbrkSource_grows os hos.1 hn h
  have hsecond := (sbrkSource_grows os hos.2 hn
    { (sbrkSource os os.malloc₁ n h).2 with split_mem := false }).1
  unfold sbrk
  simp only
  by_cases hzero : (sbrkSource os os.malloc₁ n h).1 = 0
  · have hback := hsame hzero
    have hagain : Grows h
        (sbrkSource os os.malloc₂ n
          { (sbrkSource os os.malloc₁ n h).2 with split_mem := false }).2 :=
      hsecond.after (by simp only [hback]) (by simp only [hback])
    split_ifs
    · exact hagain
    · exact hagain
    · exact hfirst
  · rw [if_neg hzero]
    exact hfirst

theorem linkHunk_same (hl : linkHunk E q sz h = some (p, n, h')) :
    h'.regions = h.regions ∧ h'.heapbase = h.heapbase := by
  rw [linkHunk, Option.bind_eq_bind, Option.bind_eq_some_iff] at hl
  obtain ⟨w, -, hl⟩ := hl
  simp only at hl
  by_cases hz : h.heapbase = 0
  · rw [if_pos hz] at hl
    cases hl
    exact ⟨rfl, rfl⟩
  · rw [if_neg hz] at hl
    cases hl
    exact ⟨rfl, rfl⟩

theorem malloc_grows (hh : HunkOk h) (hw : NoWrap E h n) (hos : os.Words)
    (hm : malloc E os n h = some x) : Grows h x.2 := by
  obtain ⟨k, hask, -, -, -, hdvd, -⟩ := hunk_spec hh hw
  rw [malloc, Option.bind_eq_bind, Option.bind_eq_some_iff] at hm
  obtain ⟨w, -, hm⟩ := hm
  have hgrows : Grows h (sbrk os (hunk E (chunkBytes n) h).1 (hunk E (chunkBytes n) h).2).2 := by
    rw [hask]
    exact (sbrk_grows hos (by omega) { h with MINHUNK := k }).after rfl rfl
  simp only at hm
  split_ifs at hm
  · cases hm
    exact hgrows
  · rw [Option.bind_eq_bind, Option.bind_eq_some_iff] at hm
    obtain ⟨y, hl, hm⟩ := hm
    cases hm
    obtain ⟨hr, hb⟩ := linkHunk_same hl
    exact hgrows.then hr hb
  · cases hm
    exact Grows.of_same rfl rfl

theorem calloc_grows (hh : HunkOk h) (hw : NoWrap E h (n * sz)) (hos : os.Words)
    (hc : calloc E os n sz h = some x) : Grows h x.2 := by
  have hmod : n * sz % 2 ^ 32 = n * sz := Nat.mod_eq_of_lt (by have := hw.chunk; omega)
  rw [calloc, hmod, Option.bind_eq_bind, Option.bind_eq_some_iff] at hc
  obtain ⟨y, hmal, hc⟩ := hc
  have hgrows := malloc_grows hh hw hos hmal
  cases hc
  simp only
  split_ifs
  · exact hgrows.then rfl rfl
  · exact hgrows

end Supply

section Lists

variable {E : Layout} {rs rs' : List Extent} {hb hb' st st' n req : ℕ} {L L' A C : List Chunk}
  {B : List Block} {b : Block} {c r : Chunk} {e : Extent} {h h' : Heap} {f : Effect}

theorem Words.perm {B' : List Block} (hw : Words hb L B) (hp : B.Perm B') : Words hb L B' :=
  ⟨hw.base, hw.chunk, fun b hb => hw.block b (hp.mem_iff.mpr hb)⟩

theorem Words.insert (hw : Words hb (A ++ C) B) (hc : 4 ∣ c.addr ∧ 4 ∣ c.size) :
    Words hb (A ++ c :: C) B := by
  refine ⟨hw.base, fun d hd => ?_, hw.block⟩
  rcases List.mem_append.mp hd with hd | hd
  · exact hw.chunk d (List.mem_append_left _ hd)
  rcases List.mem_cons.mp hd with rfl | hd
  · exact hc
  · exact hw.chunk d (List.mem_append_right _ hd)

theorem Words.sub (hw : Words hb L B) (hsub : ∀ c ∈ L', c ∈ L) : Words hb L' B :=
  ⟨hw.base, fun c hc => hw.chunk c (hsub c hc), hw.block⟩

theorem Words.supplied (hw : Words hb L B) (hsup : Supplied E rs hb st L rs' hb' st' L')
    (hbase : 4 ∣ hb') (hnew : ∀ R, rs' = R :: rs → 4 ∣ R.base ∧ 4 ∣ R.len) : Words hb' L' B := by
  cases hsup with
  | nothing => exact hw
  | @region A C q sz hz hL hq hsz hA hC =>
    obtain ⟨hq4, hsz4⟩ := hnew _ rfl
    subst hL
    have hborder : 4 ∣ BORDER_EXTRA := by decide
    have hfree : Words hb (A ++ ⟨q + BORDER_EXTRA, sz - BORDER_EXTRA, none⟩ :: C) B :=
      hw.insert ⟨Nat.dvd_add hq4 hborder, Nat.dvd_sub hsz4 hborder⟩
    exact hfree.insert ⟨hq4, hborder⟩
  | @chunk A C q sz hne hL hq hsz hA hC =>
    obtain ⟨hq4, hsz4⟩ := hnew _ rfl
    subst hL
    exact hw.insert ⟨hq4, hsz4⟩
  | @heap A C sz hne hL hst hsz hA hC =>
    subst hL
    have hsz4 : 4 ∣ sz := (Nat.dvd_add_right hw.base).mp hbase
    have hold : Words (hb + sz) (A ++ C) B := ⟨hbase, hw.chunk, hw.block⟩
    exact hold.insert ⟨hw.base, hsz4⟩

theorem Words.carved (hw : Words hb L B) (hcv : Carved n L e L') (hn : 4 ∣ n) (req : ℕ) :
    Words hb L' (plainBlock e req :: B) := by
  have hblock : ∀ {e : Extent}, (4 ∣ e.base ∧ 4 ∣ e.len) → ∀ b ∈ plainBlock e req :: B,
      b.moved = false → 4 ∣ b.base ∧ 4 ∣ b.size := by
    intro e he b hb hm
    rcases List.mem_cons.mp hb with rfl | hb
    · exact he
    · exact hw.block b hb hm
  cases hcv with
  | @split A C c hc hlt =>
    obtain ⟨haddr, hsize⟩ := hw.chunk c (by simp)
    have hrest : 4 ∣ c.size - n := Nat.dvd_sub hsize hn
    have hkept : Words hb (A ++ ⟨c.addr, c.size - n, none⟩ :: C) B :=
      (hw.sub fun d hd => mem_around [c] hd).insert ⟨haddr, hrest⟩
    exact ⟨hkept.base, hkept.chunk, hblock ⟨Nat.dvd_add haddr hrest, hn⟩⟩
  | @take A C c hc hlt hle =>
    exact ⟨hw.base, (hw.sub fun d hd => mem_around [c] hd).chunk, hblock (hw.chunk c (by simp))⟩

theorem Words.absorbUp (hw : Words hb (A ++ r :: C) B) :
    Words hb (A ++ (absorbUp r C).1 :: (absorbUp r C).2) B := by
  cases C with
  | nil => exact hw
  | cons c C =>
    rw [Malloc.absorbUp]
    split_ifs
    · obtain ⟨hr, hsize⟩ := hw.chunk r (by simp)
      obtain ⟨-, hmore⟩ := hw.chunk c (by simp)
      exact (hw.sub fun d hd => mem_around [r, c] hd).insert ⟨hr, Nat.dvd_add hsize hmore⟩
    · exact hw

theorem Words.released {own : Bool} (hw : Words h.heapbase (A ++ r :: C) B)
    (hrel : Released own h.heapbase A r C L' f) : Words (f.apply h).heapbase L' B := by
  obtain ⟨hr, hsize⟩ := hw.chunk r (by simp)
  cases hrel with
  | link hfar hown => exact hw
  | toHeap hfar hown =>
    have hrest := hw.sub fun d hd => mem_around [r] hd
    exact ⟨hr, hrest.chunk, hrest.block⟩
  | behindBorder hp hj hC ha => exact hw.sub fun d hd => by simpa using hd
  | drop hp hj hC => exact hw.sub fun d hd => by simpa using mem_around [_, r] hd
  | @merge A C p r hp hj hC hown hopen =>
    obtain ⟨haddr, hlow⟩ := hw.chunk p (by simp)
    have hrest : Words h.heapbase (A ++ C) B :=
      hw.sub fun d hd => by simpa using mem_around [p, r] hd
    exact hrest.insert ⟨haddr, Nat.dvd_add hlow hsize⟩
  | @mergeToHeap A C p r hp hj hC hown =>
    obtain ⟨haddr, -⟩ := hw.chunk p (by simp)
    have hrest : Words h.heapbase (A ++ C) B :=
      hw.sub fun d hd => by simpa using mem_around [p, r] hd
    exact ⟨haddr, hrest.chunk, hrest.block⟩
  | @mergeDrop A C o p r hp hj hC ho =>
    exact hw.sub fun d hd => by simpa using mem_around [o, p, r] hd

theorem free_words (hi : Inv E h L (b :: B)) (hw : Words h.heapbase L (b :: B)) :
    ∃ h' L', free E b.ptr h = some h' ∧ Inv E h' L' B ∧ Words h'.heapbase L' B := by
  have hrest : Words h.heapbase L B :=
    ⟨hw.base, hw.chunk, fun a ha => hw.block a (List.mem_cons_of_mem _ ha)⟩
  cases hm : b.moved with
  | true =>
    refine ⟨h, L, free_moved (hi.rep.block b List.mem_cons_self) hm, ?_, hrest⟩
    exact ⟨hi.rep.forget, hi.geo.forget, hi.hunk⟩
  | false =>
    obtain ⟨A, C, L', f, m', hf⟩ := free_steps hi hm
    have hlink : Words h.heapbase (A ++ b.chunk :: C) B :=
      (hf.split ▸ hrest).insert (hw.block b List.mem_cons_self hm)
    exact ⟨_, L', hf.result, hf.inv,
      Words.released (h := { h with mem := m' }) hlink.absorbUp hf.released⟩

end Lists

section Calls

variable {E : Layout} {os : Os} {s s' : Sys} {c : Call} {L : List Chunk} {B : List Block}
  {b : Block} {e : Extent} {h₁ : Heap} {L₁ : List Chunk} {es : List (Call × Os × ℕ)}
  {a n p r sz : ℕ}

theorem Allocated.words (hall : Allocated E s.heap L B n e h₁ L₁) (hw : Words s.heap.heapbase L B)
    (hn : n + 19 < 2 ^ 32) (hgrows : Grows s.heap h₁) :
    Words h₁.heapbase L₁ (plainBlock e n :: B) := by
  obtain ⟨L₂, hsup, hcv, -⟩ := hall.path
  have hsupplied := hw.supplied hsup (hgrows.heapbase hw.base) hgrows.regions
  have h8 := (chunkBytes_bounds hn).2.2.2
  exact hsupplied.carved hcv (by omega) n

def KeepsWords (E : Layout) (os : Os) (c : Call) (s : Sys) : Prop :=
  ∃ r s' L' B', exec E os c s = some (r, s') ∧ Holds E s' L' B' ∧ Words s'.heap.heapbase L' B'

theorem malloc_words (hh : Holds E s L B) (hw : Words s.heap.heapbase L B)
    (hwrap : NoWrap E s.heap n) (hos : OsOk E s.heap n os) (h4 : os.Words) :
    KeepsWords E os (.malloc n) s := by
  rcases malloc_spec hh.inv hwrap hos with ⟨k, t, hmal, hk⟩ | ⟨e, h', L', hmal, hall⟩
  · refine ⟨0, ⟨{ s.heap with MINHUNK := k, split_mem := t }, s.live⟩, L, B, ?_,
      ⟨hh.inv.settings hk, hh.live⟩, hw⟩
    rw [exec, hmal]
    rfl
  · have hgrows := malloc_grows hh.inv.hunk hwrap h4 hmal
    refine ⟨(plainBlock e n).ptr, _, L', _, ?_, hh.hold hall.inv,
      hall.words hw hwrap.chunk hgrows⟩
    rw [exec, hmal]
    rfl

theorem calloc_words (hh : Holds E s L B) (hw : Words s.heap.heapbase L B)
    (hwrap : NoWrap E s.heap (n * sz)) (hos : OsOk E s.heap (n * sz) os) (h4 : os.Words) :
    KeepsWords E os (.calloc n sz) s := by
  rcases calloc_steps hh.inv hwrap hos with ⟨k, t, hcal, hk⟩ | ⟨e, h₁, L', hall, hcal, hinv⟩
  · refine ⟨0, ⟨{ s.heap with MINHUNK := k, split_mem := t }, s.live⟩, L, B, ?_,
      ⟨hh.inv.settings hk, hh.live⟩, hw⟩
    rw [exec, hcal]
    rfl
  · have hgrows : Grows s.heap h₁ := (calloc_grows hh.inv.hunk hwrap h4 hcal).then rfl rfl
    refine ⟨(plainBlock e (n * sz)).ptr, _, L', _, ?_, hh.hold hinv,
      hall.words hw hwrap.chunk hgrows⟩
    rw [exec, hcal]
    rfl

theorem Shifted.words {k : ℕ} (hs : Shifted (2 ^ (k + 2)) sz e b) (h4 : 4 ∣ e.base) : 4 ∣ b.ptr := by
  cases hm : b.moved with
  | false =>
    rw [(hs.plain hm).1]
    exact Nat.dvd_add h4 (by decide)
  | true =>
    rw [(hs.moved hm).1, alignDown_two_pow]
    have hfour : 4 ∣ 2 ^ (k + 2) := Dvd.intro_left (2 ^ k) (by ring)
    exact hfour.trans (Nat.dvd_sub_mod _)

theorem memalign_words (hh : Holds E s L B) (hw : Words s.heap.heapbase L B)
    (ha : a ≤ MALLOC_ALIGNMENT ∨ 8 ∣ a) (hwrap : NoWrap E s.heap (alignedBytes a n))
    (hos : OsOk E s.heap (alignedBytes a n) os) (h4 : os.Words) :
    KeepsWords E os (.memalign a n) s := by
  rcases libcMemalign_steps hh.inv ha hwrap hos with ⟨k, t, hmem, -, hk⟩ |
    ⟨e, h₁, L', b, m', hmal, hall, hmem, hs, hinv, -⟩
  · refine ⟨0, ⟨{ s.heap with MINHUNK := k, split_mem := t }, s.live⟩, L, B, ?_,
      ⟨hh.inv.settings hk, hh.live⟩, hw⟩
    rw [exec, hmem]
    rfl
  · have hplain := hall.words hw hwrap.chunk (malloc_grows hh.inv.hunk hwrap h4 hmal)
    have hwords : Words h₁.heapbase L' (b :: B) := by
      refine ⟨hplain.base, hplain.chunk, fun d hd hm => ?_⟩
      rcases List.mem_cons.mp hd with rfl | hd
      · have hext : (⟨d.base, d.size⟩ : Extent) = e := hs.ext
        have he := hplain.block (plainBlock e (alignedBytes a n)) List.mem_cons_self rfl
        rw [← hext] at he
        exact he
      · exact hplain.block d (List.mem_cons_of_mem _ hd) hm
    refine ⟨b.ptr, ⟨{ h₁ with mem := m' }, hold b.ptr n s.live⟩, L', _, ?_, ?_, hwords⟩
    · rw [exec, hmem]
      rfl
    · rw [← hs.req]
      exact hh.hold hinv

theorem posixMemalign_words (hh : Holds E s L B) (hw : Words s.heap.heapbase L B)
    (hwrap : ∀ k ∈ request (.posixMemalign a n), NoWrap E s.heap k)
    (hos : ∀ k ∈ request (.posixMemalign a n), OsOk E s.heap k os) (h4 : os.Words) :
    KeepsWords E os (.posixMemalign a n) s := by
  by_cases hbad : a % 4 ≠ 0 ∨ powerof2 (a / 4) = false ∨ a = 0
  · refine ⟨0, s, L, B, ?_, hh, hw⟩
    rw [exec, posixMemalign, if_pos hbad]
    rfl
  · simp only [request, if_neg hbad, Option.mem_def, Option.some.injEq, forall_eq'] at hwrap hos
    -- it is `memalign` with another way to return the pointer
    obtain ⟨r, s', L', B', hex, hh', hw'⟩ :=
      memalign_words (n := n) hh hw (alignment_of_check hbad) hwrap hos h4
    rw [exec, Option.map_eq_some_iff] at hex
    obtain ⟨⟨r', h'⟩, hmem, heq⟩ := hex
    rw [Prod.mk.injEq] at heq
    obtain ⟨rfl, rfl⟩ := heq
    by_cases hz : r' = 0
    · refine ⟨0, ⟨h', hold 0 n s.live⟩, L', B', ?_, hz ▸ hh', hw'⟩
      rw [exec, posixMemalign, if_neg hbad, hmem, hz]
      rfl
    · refine ⟨r', ⟨h', hold r' n s.live⟩, L', B', ?_, hh', hw'⟩
      rw [exec, posixMemalign, if_neg hbad, hmem]
      simp only [Option.bind_eq_bind, Option.bind_some, if_pos hz, Option.map_some,
        Option.getD_some]

theorem free_call_words (os : Os) (hh : Holds E s L B) (hw : Words s.heap.heapbase L B)
    (hp : Proper s (.free p)) : KeepsWords E os (.free p) s := by
  rcases hp with rfl | ⟨old, hm⟩
  · obtain ⟨r, s', L', B', hex, hd⟩ := exec_free os hh (Or.inl rfl)
    have hfree : exec E os (.free 0) s = some (0, ⟨s.heap, drop 0 s.live⟩) := by
      rw [exec, free, if_pos rfl]
      rfl
    rw [hfree, Option.some.injEq, Prod.mk.injEq] at hex
    obtain ⟨rfl, rfl⟩ := hex
    have hlive : drop 0 s.live = s.live := by
      rw [drop, List.filter_eq_self]
      intro e he
      obtain ⟨a, ha, rfl⟩ := List.mem_map.mp (hh.live.mem_iff.mp he)
      exact decide_eq_true a.ptr_ne_zero
    refine ⟨0, _, L, B, hfree, ?_, hw⟩
    rw [hlive]
    exact hh
  · obtain ⟨b, B', rfl, -, hperm, hb⟩ := hh.find hm
    obtain ⟨h', L', hfree, hinv, hw'⟩ := free_words hb.inv (hw.perm hperm)
    refine ⟨0, ⟨h', drop b.ptr s.live⟩, L', B', ?_, ⟨hinv, hb.drop_perm⟩, hw'⟩
    rw [exec, hfree]
    rfl

theorem Resized.words {L' : List Chunk} {B' : List Block} {h' : Heap}
    (hres : Resized E os s.heap L b B n r h' L' B') (hi : Inv E s.heap L (b :: B))
    (hi' : Inv E h' L' B') (hw : Words s.heap.heapbase L (b :: B)) (hwrap : NoWrap E s.heap n)
    (h4 : os.Words) : ∃ L'', Inv E h' L'' B' ∧ Words h'.heapbase L'' B' := by
  have hrest : ∀ a ∈ B, a.moved = false → 4 ∣ a.base ∧ 4 ∣ a.size :=
    fun a ha => hw.block a (List.mem_cons_of_mem _ ha)
  cases hres with
  | kept k t =>
    refine ⟨L, hi', hw.base, hw.chunk, fun a ha hm => ?_⟩
    rcases List.mem_cons.mp ha with rfl | ha
    · exact hw.block b List.mem_cons_self hm
    · exact hrest a ha hm
  | failed k t => exact ⟨L, hi', hw⟩
  | @grown A C c m' hL hc hj hm hhdr =>
    subst hL
    obtain ⟨hbase, hsize⟩ := hw.block b List.mem_cons_self hm
    have hmore := (hw.chunk c (by simp)).2
    refine ⟨A ++ C, hi', hw.base, fun d hd => hw.chunk d (mem_around [c] hd), fun a ha hma => ?_⟩
    rcases List.mem_cons.mp ha with rfl | ha
    · exact ⟨hbase, Nat.dvd_add hsize hmore⟩
    · exact hrest a ha hma
  | @moved e h₁ h' L₁ L' m₂ hmv hall hmal hinv hfree =>
    have hgrows := malloc_grows hi.hunk hwrap h4 hmal
    have hwords := (hall.words hw hwrap.chunk hgrows).perm (List.Perm.swap b (plainBlock e n) B)
    obtain ⟨h₂, L₂, hfree₂, hinv₂, hw₂⟩ := free_words hinv hwords
    obtain rfl : h' = h₂ := Option.some.inj (hfree.symm.trans hfree₂)
    exact ⟨L₂, hinv₂, hw₂⟩

theorem realloc_words (hh : Holds E s L B) (hw : Words s.heap.heapbase L B)
    (hp : Proper s (.realloc p n)) (hf : Fits E s (.realloc p n))
    (ho : OsFits E s (.realloc p n) os) (hc : CopySafe E os s (.realloc p n)) (h4 : os.Words) :
    KeepsWords E os (.realloc p n) s := by
  rcases hp with rfl | ⟨old, hm⟩
  · -- `realloc (NULL, n)` is `malloc (n)`
    have hreq : n ∈ request (.realloc 0 n) := by simp [request]
    obtain ⟨r, s', L', B', hex, hh', hw'⟩ :=
      malloc_words hh hw (hf.request n hreq) (ho n hreq) h4
    refine ⟨r, s', L', B', ?_, hh', hw'⟩
    rw [← hex, exec, exec, realloc, if_pos rfl]
    rfl
  obtain ⟨b, B₀, rfl, -, hperm, hb⟩ := hh.find hm
  have hwb := hw.perm hperm
  by_cases hn : n = 0
  · -- `realloc (p, 0)` is `free (p)`
    obtain ⟨h', L', hfree, hinv, hw'⟩ := free_words hb.inv hwb
    refine ⟨0, ⟨h', drop b.ptr s.live⟩, L', B₀, ?_, ⟨hinv, hb.drop_perm⟩, hw'⟩
    rw [exec, realloc, if_neg b.ptr_ne_zero, if_pos hn, hfree]
    simp only [Option.bind_eq_bind, Option.bind_some, Option.map_some, heldAfter,
      if_neg b.ptr_ne_zero, if_pos hn]
  · have hreq : n ∈ request (.realloc b.ptr n) := by simp [request, hn]
    obtain ⟨r, h', L', B', hre, hres, hinv, -⟩ := realloc_spec hb.inv hn
      (hf.request n hreq) (hf.slack b.ptr n rfl b.ptr_ne_zero hn) (ho n hreq) (hc.block hb hn)
    obtain ⟨L'', hinv', hw'⟩ := hres.words hb.inv hinv hwb (hf.request n hreq) h4
    refine ⟨r, ⟨h', heldAfter b.ptr n r s.live⟩, L'', B', ?_, ⟨hinv', hres.live hb hn⟩, hw'⟩
    rw [exec, hre]
    rfl

theorem keeps_words (hh : Holds E s L B) (hw : Words s.heap.heapbase L B) (hp : Proper s c)
    (hf : Fits E s c) (ho : OsFits E s c os) (hc : CopySafe E os s c) (h4 : os.Words) :
    KeepsWords E os c s := by
  cases c with
  | malloc n => exact malloc_words hh hw (hf.request n rfl) (ho n rfl) h4
  | calloc n sz => exact calloc_words hh hw (hf.request _ rfl) (ho _ rfl) h4
  | realloc p n => exact realloc_words hh hw hp hf ho hc h4
  | free p => exact free_call_words os hh hw hp
  | memalign a n => exact memalign_words hh hw hp (hf.request _ rfl) (ho _ rfl) h4
  | posixMemalign a n => exact posixMemalign_words hh hw hf.request ho h4
  | store p i v =>
    obtain ⟨old, hm, hi⟩ := hp
    obtain ⟨b, B', rfl, rfl, hperm, hb⟩ := hh.find hm
    obtain ⟨hch, hin⟩ := store_changes (v := v) hb hi
    exact ⟨0, _, L, b :: B', rfl, ⟨hb.inv.write hch hin, hb.live⟩, hw.perm hperm⟩

/-- Careful programs on a system whose memory begins at multiples of four. -/
def wordProgram (E : Layout) : Machine Sys (Call × Os × ℕ) where
  init s := Start E s ∧ 4 ∣ s.heap.heapbase
  step s l s' := (carefulProgram E).step s l s' ∧ l.2.1.Words

theorem words_of_run (hrun : (wordProgram E).Run es s) :
    ∃ L B, Holds E s L B ∧ Words s.heap.heapbase L B := by
  refine hrun.invariant (P := fun s => ∃ L B, Holds E s L B ∧ Words s.heap.heapbase L B) ?_ ?_
  · rintro s ⟨hstart, hbase⟩
    exact ⟨[], [], hstart.holds, hbase, by simp, by simp⟩
  · rintro s ⟨c, os, r⟩ s' ⟨L, B, hh, hw⟩ ⟨⟨hp, hf, ho, hc, hex⟩, h4⟩
    obtain ⟨r', t, L', B', hex', hh', hw'⟩ := keeps_words hh hw hp hf ho hc h4
    obtain rfl : t = s' := by
      rw [hex] at hex'
      simpa using (congrArg (Option.map Prod.snd) hex').symm
    exact ⟨L', B', hh', hw'⟩

theorem posixMemalign_word {k : ℕ} {h' : Heap} (hrun : (wordProgram E).Run es s)
    (hok : ¬ (2 ^ (k + 2) % 4 ≠ 0 ∨ powerof2 (2 ^ (k + 2) / 4) = false ∨ 2 ^ (k + 2) = 0))
    (hwrap : NoWrap E s.heap (alignedBytes (2 ^ (k + 2)) n))
    (hos : OsOk E s.heap (alignedBytes (2 ^ (k + 2)) n) os) (h4 : os.Words)
    (hmem : libcMemalign E os (2 ^ (k + 2)) n s.heap = some (r, h')) : 4 ∣ r := by
  obtain ⟨L, B, hh, hw⟩ := words_of_run hrun
  rcases libcMemalign_steps hh.inv (alignment_of_check hok) hwrap hos with ⟨j, t, hmem', -⟩ |
    ⟨e, h₁, L', b, m', hmal, hall, hmem', hs, -⟩
  · rw [hmem, Option.some.injEq, Prod.mk.injEq] at hmem'
    rw [hmem'.1]
    exact Nat.dvd_zero 4
  · rw [hmem, Option.some.injEq, Prod.mk.injEq] at hmem'
    rw [hmem'.1]
    have hplain := hall.words hw hwrap.chunk (malloc_grows hh.inv.hunk hwrap h4 hmal)
    exact hs.words (hplain.block _ List.mem_cons_self rfl).1

end Calls

end Mintlib.Malloc
