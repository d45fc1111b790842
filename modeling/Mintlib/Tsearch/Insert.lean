import Mintlib.Tsearch.Rounds

/-!
# Searching with a place for a new node: `tsearch`

The new node is red. The last call for two red edges in a row is made for it.
-/

namespace Mintlib.Tsearch

open NodeTree NTree Compare Checked

variable {κ : Type}

/-- The new node is linked to the old one; `q` is what `malloc` returned. -/
def link (m : Mem κ) (nextp : Loc) (key : κ) (q : Option ℕ) : Except Stop (Mem κ) :=
  match q with
  | none => .ok m
  | some a => do
    let m ← m.set nextp (some a)
    .ok { m with node := Function.update m.node a (some ⟨key, none, none, true⟩) }

def settle (key : κ) (q : Option ℕ) : Reached κ → Except Stop (Mem κ × Option ℕ)
  | .found m root => .ok (m, some root)
  | .place m nextp rootp parentp r p_r => do
    let m ← link m nextp key q
    if nextp ≠ rootp then do
      let m ← maybeSplitForInsert m nextp (some rootp) parentp r p_r true
      .ok (m, q)
    else .ok (m, q)

/-- The memory, and the node for the key; `q` is what `malloc` returns if it is called. -/
def tsearch (cmp : κ → κ → ℤ) (steps : ℕ) (m : Mem κ) (key : κ) (q : Option ℕ) :
    Except Stop (Mem κ × Option ℕ) := do
  let m ← m.blacken m.root
  let reached ← searchLoop cmp key steps m .root none none 0 0 0
  settle key q reached

def Arrived (cmp : κ → κ → ℤ) (key : κ) (m : Mem κ) (t : NTree κ) : Reached κ → Prop
  | .found m' root => (∃ k, (root, k) ∈ t.entries ∧ cmp key k = 0) ∧
      ∃ t', Stands m' t' ∧ t'.entries = t.entries ∧ Balanced t' ∧ Outside t m m'
  | .place m' nextp rootp parentp r p_r => ∃ f ctx, nextp = locOf (f :: ctx) ∧ rootp = locOf ctx ∧
      Round cmp key m m' t f ctx .nil ∧ Went r f.side ∧ Above f ctx parentp p_r

section Search

variable {cmp : κ → κ → ℤ} {key : κ} {m m' : Mem κ} {ctx : List (Frame κ)} {t t' : NTree κ}
  {f : Frame κ} {a : ℕ} {parentp gparentp : Option Loc} {p_r gp_r r : ℤ} {reached : Reached κ}

theorem outside_of_entries {m'' : Mem κ} (h : t'.entries = t.entries) (hout : Outside t m m')
    (hout' : Outside t' m' m'') : Outside t m m'' :=
  hout.trans hout' (by rw [addrs_eq_of_entries h])

theorem Arrived.after (h : Arrived cmp key m' t' reached) (hentries : t'.entries = t.entries)
    (hout : Outside t m m') : Arrived cmp key m t reached := by
  cases reached with
  | found m'' root =>
    obtain ⟨hfound, t'', hstands, hsame, hbal, hout'⟩ := h
    rw [hentries] at hfound hsame
    exact ⟨hfound, t'', hstands, hsame, hbal, outside_of_entries hentries hout hout'⟩
  | place m'' nextp rootp parentp r p_r =>
    obtain ⟨f, ctx, hnextp, hrootp, hround, hwent, habove⟩ := h
    refine ⟨f, ctx, hnextp, hrootp, ⟨hround.stands, ?_, hround.balanced, hround.toward, ?_⟩, hwent,
      habove⟩
    · rw [hround.entries, hentries]
    · exact outside_of_entries hentries hout hround.outside

theorem Ready.cost_pos {cost : ℕ} (h : Ready cmp key parentp gparentp p_r gp_r ctx t cost) :
    0 < cost := by
  cases h with
  | safe hne _ =>
    have hpos := height_pos hne
    omega
  | calm h =>
    have hpos := height_pos h.ne_nil
    omega
  | turned => exact Nat.succ_pos _

theorem went_sideOf (h : r ≠ 0) : Went r (sideOf r) := ⟨h, rfl⟩

theorem searchLoop_ok : ∀ (steps : ℕ) (m : Mem κ) (ctx : List (Frame κ)) (t : NTree κ)
    (parentp gparentp : Option Loc) (r p_r gp_r : ℤ) (cost : ℕ), Stands m (fill ctx t) →
    Balanced (fill ctx t) → Toward cmp key ctx →
    Ready cmp key parentp gparentp p_r gp_r ctx t cost → cost ≤ steps →
    ∃ reached, searchLoop cmp key steps m (locOf ctx) parentp gparentp r p_r gp_r = .ok reached ∧
      Arrived cmp key m (fill ctx t) reached := by
  intro steps
  induction steps with
  | zero =>
    intro m ctx t parentp gparentp r p_r gp_r cost _ _ _ hready hsteps
    have hpos := hready.cost_pos
    omega
  | succ steps ih =>
    intro m ctx t parentp gparentp r p_r gp_r cost h hbal htoward hready hsteps
    cases t with
    | nil => exact absurd rfl hready.ne_nil
    | node a k c left right =>
      obtain ⟨hctx, ⟨ha, -, -⟩, -⟩ := h.split
      rw [searchLoop, get_locOf hctx, ok_bind, NTree.addr]
      dsimp only
      rw [load_ok ha, ok_bind]
      dsimp only
      by_cases hzero : cmp key k = 0
      · rw [if_pos hzero]
        refine ⟨_, rfl, ⟨k, ?_, hzero⟩, _, h, rfl, hbal, Outside.refl _ _⟩
        rw [entries_fill]
        simp [entries]
      · rw [if_neg hzero]
        obtain ⟨x, y, hmk⟩ := node_eq_mk (sideOf (cmp key k)) a k c left right
        obtain ⟨m', f, ctx', t', hm', hside, haddr, hround, hnext⟩ :=
          round_ok h hbal htoward hmk (went_sideOf hzero) hready
        have hloc : Loc.child (sideOf (cmp key k)) a = locOf (f :: ctx') := by
          rw [locOf, hside, haddr]
        have hget : m'.get (locOf (f :: ctx')) = .ok t'.addr := get_locOf hround.stands.split.1
        rw [hm', ok_bind, hloc, hget, ok_bind]
        rcases hnext with ⟨rfl, rfl, habove⟩ | ⟨cost', hless, hready'⟩
        · refine ⟨_, rfl, f, ctx', rfl, rfl, hround, ?_, habove⟩
          rw [hside]
          exact went_sideOf hzero
        · obtain ⟨reached, hloop, harrived⟩ := ih m' (f :: ctx') t' (some (locOf ctx)) parentp
            (cmp key k) (cmp key k) p_r cost' hround.stands hround.balanced hround.toward hready'
            (by omega)
          obtain ⟨b, hb⟩ : ∃ b, t'.addr = some b := by
            cases t' with
            | nil => exact absurd rfl hready'.ne_nil
            | node b => exact ⟨b, rfl⟩
          rw [hb]
          exact ⟨reached, hloop, harrived.after hround.entries hround.outside⟩

def OutsideBut (t : NTree κ) (a : ℕ) (m m' : Mem κ) : Prop :=
  ∀ b, b ≠ a → b ∉ t.addrs → m'.node b = m.node b

theorem link_ok (key : κ) (h : Stands m (fill ctx .nil)) (hfresh : a ∉ (fill ctx .nil).addrs) :
    ∃ m', link m (locOf ctx) key (some a) = .ok m' ∧
      Stands m' (fill ctx (.node a key true .nil .nil)) ∧ OutsideBut (fill ctx .nil) a m m' := by
  obtain ⟨hctx, -, hnodup⟩ := h.split
  have hnil : (NTree.nil : NTree κ).addrs = [] := rfl
  rw [hnil, List.append_nil] at hnodup
  rw [mem_addrs_fill, hnil] at hfresh
  have hnew : a ∉ ctxAddrs ctx := fun hmem => hfresh (Or.inl hmem)
  obtain ⟨m₁, hm₁, hctx₁, hkeep⟩ := set_locOf hctx hnodup (some a)
  have hother : ∀ b, b ≠ a → Function.update m₁.node a (some ⟨key, none, none, true⟩) b = m₁.node b :=
    fun b hb => Function.update_of_ne hb _ _
  refine ⟨_, by rw [link, hm₁, ok_bind], Stands.join ?_ ⟨?_, trivial, trivial⟩ ?_, fun b hb hout => ?_⟩
  · refine hctx₁.congr fun b hb => hother b ?_
    rintro rfl
    exact hnew hb
  · exact Function.update_self _ _ _
  · have haddrs : (NTree.node a key true .nil .nil).addrs = [a] := rfl
    rw [haddrs, List.nodup_append]
    refine ⟨hnodup, List.nodup_singleton a, fun b hb c hc => ?_⟩
    rw [List.mem_singleton.mp hc]
    rintro rfl
    exact hnew hb
  · dsimp only
    rw [hother b hb, hkeep b (fun hmem => hout (mem_addrs_fill.mpr (Or.inl hmem)))]

theorem locOf_ne (h : Stands m (fill (f :: ctx) t)) : locOf (f :: ctx) ≠ locOf ctx := by
  obtain ⟨-, -, hnodup⟩ := h.split
  cases ctx with
  | nil =>
    rw [locOf, locOf]
    exact Loc.noConfusion
  | cons f₁ ctx =>
    rw [locOf, locOf]
    intro heq
    have haddr : f.addr = f₁.addr := (Loc.child.inj heq).2
    have hcons : ctxAddrs (f :: f₁ :: ctx) =
        f.addr :: (f.other.addrs ++ f₁.addr :: (f₁.other.addrs ++ ctxAddrs ctx)) := rfl
    have hall := List.Nodup.of_append_left hnodup
    rw [hcons, haddr, List.nodup_cons] at hall
    exact hall.1 (by simp)

def Entered (ctx : List (Frame κ)) (a : ℕ) (key : κ) (t : NTree κ) : Prop :=
  t.entries = before ctx ++ (a, key) :: after ctx

theorem settle_place {t₀ : NTree κ} (hround : Round cmp key m m' t₀ f ctx .nil)
    (hwent : Went r f.side) (habove : Above f ctx parentp p_r) (hfresh : a ∉ t₀.addrs) :
    ∃ m₂ t, settle key (some a) (.place m' (locOf (f :: ctx)) (locOf ctx) parentp r p_r) =
        .ok (m₂, some a) ∧ Stands m₂ t ∧ Balanced t ∧ Entered (f :: ctx) a key t ∧
      OutsideBut t₀ a m m₂ := by
  have hsame := addrs_eq_of_entries hround.entries
  obtain ⟨m₁, hm₁, h₁, hout₁⟩ := link_ok key hround.stands (by rwa [hsame])
  have hentries : Entered (f :: ctx) a key (fill (f :: ctx) (.node a key true .nil .nil)) := by
    rw [Entered, entries_fill, entries, entries]
    simp
  obtain ⟨n, hnil, hctx⟩ := (rb_fill _ _).mp hround.balanced
  obtain rfl : n = 0 := hnil
  have hred : (NTree.node a key true .nil .nil).RB 0 := ⟨rfl, rfl, rfl, rfl⟩
  -- what is left is a call that rotates if the parent is red
  have hfinish : ∀ t m₂, maybeSplitForInsert m₁ (locOf (f :: ctx)) (some (locOf ctx)) parentp r p_r
        true = .ok m₂ → Stands m₂ t → Balanced t → t.entries =
        (fill (f :: ctx) (.node a key true .nil .nil)).entries →
      Outside (fill (f :: ctx) (.node a key true .nil .nil)) m₁ m₂ →
      ∃ m₂ t, settle key (some a) (.place m' (locOf (f :: ctx)) (locOf ctx) parentp r p_r) =
        .ok (m₂, some a) ∧ Stands m₂ t ∧ Balanced t ∧ Entered (f :: ctx) a key t ∧
        OutsideBut t₀ a m m₂ := by
    intro t m₂ hm₂ h₂ hbal hsame₂ hout₂
    refine ⟨m₂, t, ?_, h₂, hbal, by rw [Entered, hsame₂]; exact hentries, fun b hb hout => ?_⟩
    · rw [settle, hm₁, ok_bind, if_pos (locOf_ne hround.stands), hm₂, ok_bind]
    · have hplace : b ∉ (fill (f :: ctx) .nil).addrs := by rwa [hsame]
      rw [hout₂ b, hout₁ b hb hplace, hround.outside b hout]
      intro hmem
      rw [mem_addrs_fill] at hmem hplace
      rcases hmem with hmem | hmem
      · exact hplace (Or.inl hmem)
      · exact hb (List.mem_singleton.mp hmem)
  obtain ⟨s₁, p, k₁, c₁, o₁⟩ := f
  have hdo : (true || ((NTree.nil : NTree κ).isRed && (NTree.nil : NTree κ).isRed)) = true := rfl
  cases c₁ with
  | false =>
    have hsplit : ∃ m₂, maybeSplitForInsert m₁ (locOf (⟨s₁, p, k₁, false, o₁⟩ :: ctx))
        (some (locOf ctx)) parentp r p_r true = .ok m₂ ∧
        Stands m₂ (fill (⟨s₁, p, k₁, false, o₁⟩ :: ctx) (.node a key true .nil .nil)) ∧
        Outside (fill (⟨s₁, p, k₁, false, o₁⟩ :: ctx) (.node a key true .nil .nil)) m₁ m₂ :=
      maybe_split_recolor h₁ hdo (Or.inr ⟨_, ctx, rfl, rfl, rfl⟩)
    obtain ⟨m₂, hm₂, h₂, hout₂⟩ := hsplit
    exact hfinish _ m₂ hm₂ h₂ ((rb_fill _ _).mpr ⟨0, hred, hctx.any fun g hg => by
      rw [← Option.some.inj hg]⟩) rfl hout₂
  | true =>
    obtain ⟨f₂, rest, rfl, rfl, hgp, hother⟩ := habove rfl
    obtain ⟨s₂, g, k₂, c₂, o₂⟩ := f₂
    obtain ⟨ho₁, hrb₁, hrb₂, hrest⟩ := heights_above hctx
    have hnilrb : (NTree.nil : NTree κ).RB 0 := rfl
    have hheights : ∀ (s₃ : Side) (b : ℕ) (k₃ : κ) (o : NTree κ), o.isRed = false → o.RB 0 →
        (mk s₃ b k₃ true .nil o).RB 0 :=
      fun s₃ b k₃ o ho hrb => (rb_mk_red _ _ _ _ _ _).mpr ⟨rfl, ho, hnilrb, hrb⟩
    have h₁' : Stands m₁ (fill (⟨s₁, p, k₁, true, o₁⟩ :: ⟨s₂, g, k₂, c₂, o₂⟩ :: rest)
        (mk .left a key true .nil .nil)) := h₁
    rcases side_eq_or s₁ s₂ with rfl | rfl
    · obtain ⟨m₂, hm₂, h₂, hout₂⟩ := split_zigzig h₁' hdo hwent hgp
      refine hfinish _ m₂ hm₂ h₂ ((rb_fill _ _).mpr ⟨1, ?_, ?_⟩)
        (entries_zigzig .left s₂ rest a p g key k₁ k₂ true true true false c₂ true .nil .nil o₁ o₂)
        hout₂
      · exact (rb_mk_black _ _ _ _ _ _).mpr ⟨0, rfl, hred,
          (rb_mk_red _ _ _ _ _ _).mpr ⟨ho₁, hother, hrb₁, hrb₂⟩⟩
      · rw [isRed_mk]
        exact hrest
    · have huv : mk .left a key true ((NTree.nil : NTree κ).paint false) ((NTree.nil : NTree κ).paint false) =
          mk s₁ a key true .nil .nil := by
        cases s₁ <;> rfl
      obtain ⟨m₂, hm₂, h₂, hout₂⟩ := split_zigzag h₁' hdo hwent hgp huv
      refine hfinish _ m₂ hm₂ h₂ ((rb_fill _ _).mpr ⟨1, ?_, ?_⟩) ?_ hout₂
      · exact (rb_mk_black _ _ _ _ _ _).mpr ⟨0, rfl, hheights _ _ _ _ hother hrb₂,
          hheights _ _ _ _ ho₁ hrb₁⟩
      · rw [isRed_mk]
        exact hrest
      · exact entries_zigzag .left s₁ rest a p g key k₁ k₂ true true false true true c₂ true .nil .nil
          o₁ o₂ _ _ huv

/-- A tree of nodes in memory: balanced, with its keys in order. -/
structure SearchTree (cmp : κ → κ → ℤ) (m : Mem κ) (t : NTree κ) : Prop where
  stands : Stands m t
  balanced : Balanced t
  ordered : t.entries.Pairwise fun e e' => cmp e.2 e'.2 < 0

theorem toward_sides (hcmp : Consistent cmp)
    (hordered : (fill ctx t).entries.Pairwise fun e e' => cmp e.2 e'.2 < 0)
    (htoward : Toward cmp key ctx) :
    (∀ e ∈ before ctx, 0 < cmp key e.2) ∧ ∀ e ∈ after ctx, cmp key e.2 < 0 := by
  induction ctx generalizing t with
  | nil =>
    constructor
    · intro e he
      exact absurd he List.not_mem_nil
    · intro e he
      exact absurd he List.not_mem_nil
  | cons f ctx ih =>
    obtain ⟨hbefore, hafter⟩ := ih hordered htoward.tail
    obtain ⟨s, p, k, c, o⟩ := f
    have hwent : Went (cmp key k) s := htoward _ List.mem_cons_self
    rw [fill, entries_fill] at hordered
    have hmiddle := (List.pairwise_append.mp (List.pairwise_append.mp hordered).1).2.1
    cases s with
    | left =>
      have hkey : cmp key k < 0 := hwent.neg.mpr rfl
      obtain ⟨hright, -⟩ := List.pairwise_cons.mp (List.pairwise_append.mp hmiddle).2.1
      refine ⟨hbefore, fun e he => ?_⟩
      rcases List.mem_append.mp he with he | he
      · rcases List.mem_cons.mp he with rfl | he
        · exact hkey
        · exact hcmp.lt_of_lt_of_le hkey (hright e he).le
      · exact hafter e he
    | right =>
      have hkey : 0 < cmp key k := hwent.pos.mpr rfl
      obtain ⟨-, -, hleft⟩ := List.pairwise_append.mp hmiddle
      refine ⟨fun e he => ?_, hafter⟩
      rcases List.mem_append.mp he with he | he
      · rcases List.mem_append.mp he with he | he
        · exact hbefore e he
        · have hless := hleft e he (p, k) List.mem_cons_self
          rw [← hcmp.sign] at hkey ⊢
          exact hcmp.lt_of_lt_of_le hless hkey.le
      · rw [List.mem_singleton.mp he]
        exact hkey

theorem entered_ordered (hcmp : Consistent cmp)
    (hordered : (fill ctx .nil).entries.Pairwise fun e e' => cmp e.2 e'.2 < 0)
    (htoward : Toward cmp key ctx) (a : ℕ) :
    (before ctx ++ (a, key) :: after ctx).Pairwise fun e e' => cmp e.2 e'.2 < 0 := by
  obtain ⟨hbefore, hafter⟩ := toward_sides hcmp hordered htoward
  rw [entries_fill, entries, List.append_nil] at hordered
  obtain ⟨hb, ha, hba⟩ := List.pairwise_append.mp hordered
  refine List.pairwise_append.mpr ⟨hb, List.pairwise_cons.mpr ⟨hafter, ha⟩, fun e he e' he' => ?_⟩
  rcases List.mem_cons.mp he' with rfl | he'
  · rw [hcmp.sign]
    exact hbefore e he
  · exact hba e he e' he'

theorem toward_absent (hcmp : Consistent cmp)
    (hordered : (fill ctx .nil).entries.Pairwise fun e e' => cmp e.2 e'.2 < 0)
    (htoward : Toward cmp key ctx) : ∀ e ∈ (fill ctx .nil).entries, cmp key e.2 ≠ 0 := by
  obtain ⟨hbefore, hafter⟩ := toward_sides hcmp hordered htoward
  rw [entries_fill, entries, List.append_nil]
  intro e he
  rcases List.mem_append.mp he with he | he
  · exact (hbefore e he).ne'
  · exact (hafter e he).ne

/-- What a call of `tsearch` does: the node is there, or it is made. -/
inductive Searched (cmp : κ → κ → ℤ) (key : κ) (a : ℕ) (m m' : Mem κ) (t t' : NTree κ) : ℕ → Prop
  | there {p : ℕ} (k : κ) (hmem : (p, k) ∈ t.entries) (hkey : cmp key k = 0)
      (hsame : t'.entries = t.entries) (hout : Outside t m m') : Searched cmp key a m m' t t' p
  | made (habsent : ∀ e ∈ t.entries, cmp key e.2 ≠ 0) (l r : List (ℕ × κ))
      (hold : t.entries = l ++ r) (hnew : t'.entries = l ++ (a, key) :: r)
      (hout : OutsideBut t a m m') : Searched cmp key a m m' t t' a

theorem search_arrived (h : SearchTree cmp m t) (hne : t ≠ .nil) {steps : ℕ}
    (hsteps : 2 * t.height ≤ steps) (q : Option ℕ) :
    ∃ reached, tsearch cmp steps m key q = settle key q reached ∧ Arrived cmp key m t reached := by
  have hstands : Stands m (fill [] t) := h.stands
  obtain ⟨m₀, hm₀, h₀, hout₀⟩ := blacken_ok hstands
  have hroot : m.blacken m.root = .ok m₀ := by
    rw [h.stands.root]
    exact hm₀
  have hblack : Balanced (t.paint false) := by
    obtain ⟨n, hrb⟩ := h.balanced
    exact hrb.black_root
  have hne₀ : t.paint false ≠ .nil := by
    rw [ne_eq, ← addr_eq_none, addr_paint, addr_eq_none]
    exact hne
  have hready : Ready cmp key none none 0 0 [] (t.paint false) (2 * (t.paint false).height) :=
    Ready.safe hne₀ ⟨rfl, isRed_paint_false t⟩
  obtain ⟨reached, hloop, harrived⟩ := searchLoop_ok steps m₀ [] (t.paint false) none none 0 0 0 _ h₀
    hblack (fun f hf => absurd hf List.not_mem_nil) hready (by rw [height_paint]; exact hsteps)
  have hloop' : searchLoop cmp key steps m₀ .root none none 0 0 0 = .ok reached := hloop
  refine ⟨reached, ?_, harrived.after (entries_paint false t) hout₀⟩
  rw [tsearch, hroot, ok_bind, hloop', ok_bind]

theorem search_empty (h : SearchTree cmp m .nil) {steps : ℕ} (hsteps : 0 < steps) (q : Option ℕ) :
    tsearch cmp steps m key q = settle key q (.place m .root .root none 0 0) := by
  obtain ⟨steps, rfl⟩ : ∃ n, steps = n + 1 := ⟨steps - 1, by omega⟩
  have hroot : m.root = none := h.stands.root
  have hblacken : m.blacken m.root = .ok m := by
    rw [hroot, Mem.blacken]
  rw [tsearch, hblacken, ok_bind, searchLoop, Mem.get, hroot, ok_bind, ok_bind]

theorem settle_found {m' : Mem κ} {root : ℕ} (h : SearchTree cmp m t) (q : Option ℕ)
    (harrived : Arrived cmp key m t (.found m' root)) :
    ∃ t', settle key q (.found m' root) = .ok (m', some root) ∧ SearchTree cmp m' t' ∧
      t'.entries = t.entries ∧ Outside t m m' ∧ ∃ k, (root, k) ∈ t.entries ∧ cmp key k = 0 := by
  obtain ⟨hfound, t', hstands, hsame, hbal, hout⟩ := harrived
  refine ⟨t', rfl, ⟨hstands, hbal, ?_⟩, hsame, hout, hfound⟩
  rw [hsame]
  exact h.ordered

theorem tsearch_step (key : κ) (hcmp : Consistent cmp) {steps : ℕ} (h : SearchTree cmp m t)
    (hfresh : a ∉ t.addrs) (hsteps : 2 * t.height < steps) :
    ∃ m' t' p, tsearch cmp steps m key (some a) = .ok (m', some p) ∧ SearchTree cmp m' t' ∧
      Searched cmp key a m m' t t' p := by
  by_cases hne : t = .nil
  · -- the first node
    subst hne
    have hstands : Stands m (fill [] .nil) := h.stands
    obtain ⟨m', hm', h', hout⟩ := link_ok key hstands hfresh
    have hlink : link m .root key (some a) = .ok m' := hm'
    refine ⟨m', _, a, ?_, ⟨h', ⟨0, rfl, rfl, rfl, rfl⟩, List.pairwise_singleton _ _⟩,
      Searched.made (fun e he => absurd he List.not_mem_nil) [] [] rfl rfl hout⟩
    rw [search_empty h (by omega), settle, hlink, ok_bind, if_neg (by simp)]
  · obtain ⟨reached, hsettle, harrived⟩ := search_arrived h hne hsteps.le (some a)
    rw [hsettle]
    cases reached with
    | found m' root =>
      obtain ⟨t', hok, h', hsame, hout, k, hmem, hkey⟩ := settle_found h (some a) harrived
      exact ⟨m', t', root, hok, h', Searched.there k hmem hkey hsame hout⟩
    | place m' nextp rootp parentp r p_r =>
      obtain ⟨f, ctx, rfl, rfl, hround, hwent, habove⟩ := harrived
      obtain ⟨m₂, t', hm₂, hstands, hbal, hentered, hout⟩ := settle_place hround hwent habove hfresh
      have hordered := h.ordered
      rw [← hround.entries] at hordered
      have habsent := toward_absent hcmp hordered hround.toward
      rw [hround.entries] at habsent
      refine ⟨m₂, t', a, hm₂, ⟨hstands, hbal, ?_⟩, Searched.made habsent (before (f :: ctx))
        (after (f :: ctx)) ?_ hentered hout⟩
      · rw [hentered]
        exact entered_ordered hcmp hordered hround.toward a
      · rw [← hround.entries, entries_fill, entries, List.append_nil]

/-- Without memory the call for the last check writes through the null pointer that has been
returned, unless the node is there or would have been the first one. -/
theorem tsearch_no_memory (hcmp : Consistent cmp) {steps : ℕ} (h : SearchTree cmp m t)
    (hsteps : 2 * t.height < steps) :
    ((∃ m' p, tsearch cmp steps m key none = .ok (m', p)) ↔
      t = .nil ∨ ∃ e ∈ t.entries, cmp key e.2 = 0) ∧
    (¬ (t = .nil ∨ ∃ e ∈ t.entries, cmp key e.2 = 0) →
      tsearch cmp steps m key none = .error .bounds) := by
  by_cases hne : t = .nil
  · subst hne
    rw [search_empty h (by omega), settle, link, ok_bind, if_neg (by simp)]
    exact ⟨⟨fun _ => Or.inl rfl, fun _ => ⟨m, none, rfl⟩⟩, fun hnot => absurd (Or.inl rfl) hnot⟩
  · obtain ⟨reached, hsettle, harrived⟩ := search_arrived h hne hsteps.le none
    rw [hsettle]
    cases reached with
    | found m' root =>
      obtain ⟨-, hok, -, -, -, k, hmem, hkey⟩ := settle_found h none harrived
      have hthere : t = .nil ∨ ∃ e ∈ t.entries, cmp key e.2 = 0 := Or.inr ⟨(root, k), hmem, hkey⟩
      exact ⟨⟨fun _ => hthere, fun _ => ⟨m', some root, hok⟩⟩, fun hnot => absurd hthere hnot⟩
    | place m' nextp rootp parentp r p_r =>
      obtain ⟨f, ctx, rfl, rfl, hround, -, -⟩ := harrived
      have hordered := h.ordered
      rw [← hround.entries] at hordered
      have habsent := toward_absent hcmp hordered hround.toward
      rw [hround.entries] at habsent
      have hget : m'.get (locOf (f :: ctx)) = .ok none := get_locOf hround.stands.split.1
      have hnull : m'.deref (locOf (f :: ctx)) = .error .bounds := by
        rw [Mem.deref, hget, ok_bind]
      have hfault : settle key none
          (.place m' (locOf (f :: ctx)) (locOf ctx) parentp r p_r) = .error .bounds := by
        rw [settle, link, ok_bind, if_pos (locOf_ne hround.stands), maybeSplitForInsert, hnull]
        rfl
      rw [hfault]
      constructor
      · constructor
        · rintro ⟨m₂, p, hok⟩
          cases hok
        · rintro (hnil | ⟨e, he, hkey⟩)
          · exact absurd hnil hne
          · exact absurd hkey (habsent e he)
      · exact fun _ => rfl

end Search

def fourNodes : Mem ℤ :=
  ⟨some 0, fun a =>
    match a with
    | 0 => some ⟨3, some 1, some 2, false⟩
    | 1 => some ⟨1, none, some 3, false⟩
    | 2 => some ⟨5, none, none, false⟩
    | 3 => some ⟨2, none, none, true⟩
    | _ => none⟩

def fourTree : NTree ℤ :=
  .node 0 3 false (.node 1 1 false .nil (.node 3 2 true .nil .nil)) (.node 2 5 false .nil .nil)

theorem fourNodes_tree : SearchTree (fun x y : ℤ => x - y) fourNodes fourTree := by
  refine ⟨⟨rfl, ⟨rfl, ⟨rfl, trivial, rfl, trivial, trivial⟩, rfl, trivial, trivial⟩, by decide⟩,
    ⟨2, 1, rfl, ⟨0, rfl, rfl, rfl, rfl, rfl, rfl⟩, 0, rfl, rfl, rfl⟩, ?_⟩
  simp [fourTree, entries]

theorem tsearch_no_memory_demo :
    tsearch (fun x y : ℤ => x - y) 7 fourNodes 4 none = .error .bounds := by
  have hcmp : Consistent fun x y : ℤ => x - y :=
    ⟨fun x y => by omega, fun x y z hxy hyz => by omega⟩
  refine (tsearch_no_memory hcmp fourNodes_tree (by decide)).2 ?_
  simp [fourTree, entries]

end Mintlib.Tsearch
