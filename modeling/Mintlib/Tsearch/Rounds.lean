import Mintlib.Tsearch.Split
import Mintlib.Lib.Compare

/-!
# The loop of `tsearch`

The loop goes down to the key and splits nodes on its way, so that the tree stays balanced when a red
node is hung at its end. After a rotation the pointers to the parents are wrong; the nodes that come
next are black or have black successors, so that nothing is done with them.
-/

namespace Mintlib.Tsearch

open NodeTree NTree Compare Checked

variable {κ : Type}

inductive Reached (κ : Type)
  | found (m : Mem κ) (root : ℕ)
  | place (m : Mem κ) (nextp rootp : Loc) (parentp : Option Loc) (r p_r : ℤ)

/-- The loop of `tsearch`; `*rootp` is `*nextp` at its head. -/
def searchLoop (cmp : κ → κ → ℤ) (key : κ) :
    ℕ → Mem κ → Loc → Option Loc → Option Loc → ℤ → ℤ → ℤ → Except Stop (Reached κ)
  | 0, _, _, _, _, _, _, _ => .error .steps
  | steps + 1, m, rootp, parentp, gparentp, r, p_r, gp_r => do
    let p ← m.get rootp
    match p with
    | none => .ok (.place m rootp rootp parentp r p_r)
    | some root => do
      let n ← m.load root
      let r := cmp key n.key
      if r = 0 then .ok (.found m root)
      else do
        let m ← maybeSplitForInsert m rootp parentp gparentp p_r gp_r false
        let nextp := Loc.child (sideOf r) root
        let p ← m.get nextp
        match p with
        | none => .ok (.place m nextp rootp parentp r p_r)
        | some _ => searchLoop cmp key steps m nextp (some rootp) parentp r r p_r

def Toward (cmp : κ → κ → ℤ) (key : κ) (ctx : List (Frame κ)) : Prop :=
  ∀ f ∈ ctx, Went (cmp key f.key) f.side

/-- What a rotation at a node below `f` needs: if `f` is red, a black node above it that has been
reached by the pointer. -/
def Above (f : Frame κ) (rest : List (Frame κ)) (gparentp : Option Loc) (gp_r : ℤ) : Prop :=
  f.red = true → ∃ f₂ rest₂, rest = f₂ :: rest₂ ∧ gparentp = some (locOf rest₂) ∧
    Went gp_r f₂.side ∧ f₂.other.isRed = false

/-- The pointers to the parents are right, and no node above has two red successors. -/
def Safe (ctx : List (Frame κ)) (t : NTree κ) (parentp gparentp : Option Loc) (p_r gp_r : ℤ) :
    Prop :=
  match ctx with
  | [] => parentp = none ∧ t.isRed = false
  | f :: rest => parentp = some (locOf rest) ∧ Went p_r f.side ∧ Above f rest gparentp gp_r ∧
      (t.isRed = true → f.other.isRed = false)

def Calm : NTree κ → Prop
  | .nil => False
  | .node _ _ c l r => c = false ∧ l.isRed = false ∧ r.isRed = false

/-- What is known at the head of the loop, and how many rounds there are at most. -/
inductive Ready (cmp : κ → κ → ℤ) (key : κ) (parentp gparentp : Option Loc) (p_r gp_r : ℤ)
    (ctx : List (Frame κ)) : NTree κ → ℕ → Prop
  | safe {t : NTree κ} (hne : t ≠ .nil) (h : Safe ctx t parentp gparentp p_r gp_r) :
      Ready cmp key parentp gparentp p_r gp_r ctx t (2 * t.height)
  | calm {t : NTree κ} (h : Calm t) : Ready cmp key parentp gparentp p_r gp_r ctx t (2 * t.height)
  | turned {s : Side} {a : ℕ} {k : κ} {z w : NTree κ} (hk : Went (cmp key k) s) (h : Calm z) :
      Ready cmp key parentp gparentp p_r gp_r ctx (mk s a k true z w) (2 * z.height + 1)

def Balanced (t : NTree κ) : Prop := ∃ n, t.RB n

/-- What a round leaves: the place where it goes on. -/
structure Round (cmp : κ → κ → ℤ) (key : κ) (m m' : Mem κ) (t₀ : NTree κ) (f : Frame κ)
    (ctx : List (Frame κ)) (t : NTree κ) : Prop where
  stands : Stands m' (fill (f :: ctx) t)
  entries : (fill (f :: ctx) t).entries = t₀.entries
  balanced : Balanced (fill (f :: ctx) t)
  toward : Toward cmp key (f :: ctx)
  outside : Outside t₀ m m'

section Round

variable {cmp : κ → κ → ℤ} {key : κ} {m : Mem κ} {ctx rest : List (Frame κ)} {t x y : NTree κ}
  {f : Frame κ} {s : Side} {a : ℕ} {k : κ} {c : Bool} {parentp gparentp : Option Loc}
  {p_r gp_r r : ℤ} {mode : Bool}

theorem calm_mk : Calm (mk s a k c x y) ↔ c = false ∧ x.isRed = false ∧ y.isRed = false := by
  cases s with
  | left => exact Iff.rfl
  | right =>
    constructor
    · rintro ⟨hc, hy, hx⟩
      exact ⟨hc, hx, hy⟩
    · rintro ⟨hc, hx, hy⟩
      exact ⟨hc, hy, hx⟩

theorem Calm.ne_nil (h : Calm t) : t ≠ .nil := by
  rintro rfl
  exact h

theorem Ready.ne_nil {cost : ℕ} (h : Ready cmp key parentp gparentp p_r gp_r ctx t cost) :
    t ≠ .nil := by
  cases h with
  | safe hne _ => exact hne
  | calm h => exact h.ne_nil
  | turned =>
    intro heq
    have haddr := congrArg NTree.addr heq
    rw [addr_mk] at haddr
    exact Option.some_ne_none _ haddr

theorem calm_paint {n : ℕ} (h : t.RB n) (hred : t.isRed = true) : Calm (t.paint false) := by
  obtain ⟨b, k', l, r', rfl⟩ := exists_of_isRed hred
  exact ⟨rfl, h.1, h.2.1⟩

theorem Toward.cons (h : Toward cmp key ctx) (hf : Went (cmp key f.key) f.side) :
    Toward cmp key (f :: ctx) := by
  intro g hg
  rcases List.mem_cons.mp hg with rfl | hg
  · exact hf
  · exact h g hg

theorem Toward.tail (h : Toward cmp key (f :: ctx)) : Toward cmp key ctx :=
  fun g hg => h g (List.mem_cons_of_mem _ hg)

theorem Safe.above (h : Safe ctx (mk s a k c x y) parentp gparentp p_r gp_r) :
    Above ⟨s, a, k, c, y⟩ ctx parentp p_r := by
  intro hred
  cases ctx with
  | nil =>
    have hblack := h.2
    rw [isRed_mk] at hblack
    exact absurd (hred.symm.trans hblack) (by decide)
  | cons f₁ rest =>
    obtain ⟨hparent, hwent, -, hother⟩ := h
    exact ⟨f₁, rest, rfl, hparent, hwent, hother ((isRed_mk s a k c x y).trans hred)⟩

theorem round_none (h : Stands m (fill ctx (mk s a k c x y)))
    (hbal : Balanced (fill ctx (mk s a k c x y))) (htoward : Toward cmp key ctx)
    (hk : Went (cmp key k) s) (hboth : (x.isRed && y.isRed) = false) :
    maybeSplitForInsert m (locOf ctx) parentp gparentp p_r gp_r false = .ok m ∧
      Round cmp key m m (fill ctx (mk s a k c x y)) ⟨s, a, k, c, y⟩ ctx x := by
  refine ⟨?_, h, rfl, hbal, htoward.cons hk, Outside.refl _ _⟩
  cases s with
  | left => exact maybe_split_none h hboth
  | right => exact maybe_split_none h (by rw [Bool.and_comm]; exact hboth)

theorem heights_of_both (hbal : Balanced (fill ctx (mk s a k c x y)))
    (hboth : (x.isRed && y.isRed) = true) :
    c = false ∧ ∃ n, x.RB n ∧ y.RB n ∧ CtxRB ctx false (n + 1) := by
  obtain ⟨n, h, hctx⟩ := (rb_fill ctx _).mp hbal
  rw [isRed_mk] at hctx
  rw [Bool.and_eq_true] at hboth
  cases c with
  | true =>
    have hblack := ((rb_mk_red s a k x y n).mp h).1
    exact absurd (hboth.1.symm.trans hblack) (by decide)
  | false =>
    obtain ⟨b, rfl, hx, hy⟩ := (rb_mk_black s a k x y n).mp h
    exact ⟨rfl, b, hx, hy, hctx⟩

theorem round_recolor (h : Stands m (fill ctx (mk s a k c x y)))
    (hbal : Balanced (fill ctx (mk s a k c x y))) (htoward : Toward cmp key ctx)
    (hk : Went (cmp key k) s) (hboth : (x.isRed && y.isRed) = true)
    (hparent : ctx = [] ∧ parentp = none ∨
      ∃ f rest, ctx = f :: rest ∧ parentp = some (locOf rest) ∧ f.red = false) :
    ∃ m', maybeSplitForInsert m (locOf ctx) parentp gparentp p_r gp_r false = .ok m' ∧
      Round cmp key m m' (fill ctx (mk s a k c x y)) ⟨s, a, k, true, y.paint false⟩ ctx
        (x.paint false) := by
  have hsplit : ∃ m', maybeSplitForInsert m (locOf ctx) parentp gparentp p_r gp_r false = .ok m' ∧
      Stands m' (fill ctx (mk s a k true (x.paint false) (y.paint false))) ∧
      Outside (fill ctx (mk s a k c x y)) m m' := by
    cases s with
    | left => exact maybe_split_recolor h hboth hparent
    | right => exact maybe_split_recolor h (by rw [Bool.false_or, Bool.and_comm]; exact hboth) hparent
  obtain ⟨m', hm', h', hout⟩ := hsplit
  obtain ⟨-, n, hx, hy, hctx⟩ := heights_of_both hbal hboth
  rw [Bool.and_eq_true] at hboth
  have hblack : ∀ f ∈ ctx.head?, f.red = false := by
    rcases hparent with ⟨rfl, -⟩ | ⟨f, rest, rfl, -, hf⟩
    · intro f hf
      exact absurd hf (by simp)
    · intro g hg
      rw [← Option.some.inj hg]
      exact hf
  refine ⟨m', hm', h', ?_, ?_, htoward.cons hk, hout⟩
  · rw [fill, entries_fill, entries_fill]
    congr 2
    cases s with
    | left =>
      show (x.paint false).entries ++ (a, k) :: (y.paint false).entries = x.entries ++ (a, k) :: y.entries
      rw [entries_paint, entries_paint]
    | right =>
      show (y.paint false).entries ++ (a, k) :: (x.paint false).entries = y.entries ++ (a, k) :: x.entries
      rw [entries_paint, entries_paint]
  · refine (rb_fill _ _).mpr ⟨n + 1, hx.blacken hboth.1, ?_⟩
    rw [CtxRB, if_pos rfl]
    exact ⟨isRed_paint_false x, isRed_paint_false y, hy.blacken hboth.2, hctx.any hblack⟩

theorem entries_zigzig (s s₁ : Side) (rest : List (Frame κ)) (a p g : ℕ) (k k₁ k₂ : κ)
    (c c' c₁ c₁' c₂ c₂' : Bool) (x y o₁ o₂ : NTree κ) :
    (fill rest (mk s₁ p k₁ c₁' (mk s a k c' (x.paint false) (y.paint false)) (mk s₁ g k₂ c₂' o₁ o₂))).entries =
      (fill (⟨s₁, p, k₁, c₁, o₁⟩ :: ⟨s₁, g, k₂, c₂, o₂⟩ :: rest) (mk s a k c x y)).entries := by
  rw [fill, fill, entries_fill, entries_fill]
  cases s <;> cases s₁ <;> simp [mk, entries]

theorem entries_zigzag (s s₁ : Side) (rest : List (Frame κ)) (a p g : ℕ) (k k₁ k₂ : κ)
    (c c' c'' c₁ c₁' c₂ c₂' : Bool) (x y o₁ o₂ u v : NTree κ)
    (huv : mk s a k c' (x.paint false) (y.paint false) = mk s₁ a k c' u v) :
    (fill rest (mk s₁ a k c'' (mk s₁.other g k₂ c₂' u o₂) (mk s₁ p k₁ c₁' v o₁))).entries =
      (fill (⟨s₁, p, k₁, c₁, o₁⟩ :: ⟨s₁.other, g, k₂, c₂, o₂⟩ :: rest) (mk s a k c x y)).entries := by
  have hentries : (mk s₁ a k c' u v).entries = (mk s a k c x y).entries := by
    rw [← huv]
    cases s <;> simp [mk, entries]
  rw [fill, fill, entries_fill, entries_fill]
  dsimp only
  congr 2
  revert hentries
  cases s₁ with
  | left =>
    intro hentries
    show (o₂.entries ++ (g, k₂) :: u.entries) ++ (a, k) :: (v.entries ++ (p, k₁) :: o₁.entries) =
      o₂.entries ++ (g, k₂) :: ((mk s a k c x y).entries ++ (p, k₁) :: o₁.entries)
    rw [← hentries]
    simp [mk, entries]
  | right =>
    intro hentries
    show (o₁.entries ++ (p, k₁) :: v.entries) ++ (a, k) :: (u.entries ++ (g, k₂) :: o₂.entries) =
      (o₁.entries ++ (p, k₁) :: (mk s a k c x y).entries) ++ (g, k₂) :: o₂.entries
    rw [← hentries]
    simp [mk, entries]

variable {s₁ : Side} {p g : ℕ} {k₁ k₂ : κ} {c₂ : Bool} {o₁ o₂ u v : NTree κ}

theorem split_zigzig
    (h : Stands m (fill (⟨s₁, p, k₁, true, o₁⟩ :: ⟨s₁, g, k₂, c₂, o₂⟩ :: rest) (mk s a k c x y)))
    (hdo : (mode || (x.isRed && y.isRed)) = true) (hp : Went p_r s₁) (hgp : Went gp_r s₁) :
    ∃ m', maybeSplitForInsert m (locOf (⟨s₁, p, k₁, true, o₁⟩ :: ⟨s₁, g, k₂, c₂, o₂⟩ :: rest))
        (some (locOf (⟨s₁, g, k₂, c₂, o₂⟩ :: rest))) (some (locOf rest)) p_r gp_r mode = .ok m' ∧
      Stands m' (fill rest (mk s₁ p k₁ false (mk s a k true (x.paint false) (y.paint false))
        (mk s₁ g k₂ true o₁ o₂))) ∧
      Outside (fill (⟨s₁, p, k₁, true, o₁⟩ :: ⟨s₁, g, k₂, c₂, o₂⟩ :: rest) (mk s a k c x y)) m m' := by
  cases s with
  | left => exact (maybe_split_rotate h hdo hp hgp).1 rfl
  | right => exact (maybe_split_rotate h (by rwa [Bool.and_comm y.isRed]) hp hgp).1 rfl

theorem split_zigzag
    (h : Stands m (fill (⟨s₁, p, k₁, true, o₁⟩ :: ⟨s₁.other, g, k₂, c₂, o₂⟩ :: rest)
      (mk s a k c x y)))
    (hdo : (mode || (x.isRed && y.isRed)) = true) (hp : Went p_r s₁) (hgp : Went gp_r s₁.other)
    (huv : mk s a k true (x.paint false) (y.paint false) = mk s₁ a k true u v) :
    ∃ m', maybeSplitForInsert m
        (locOf (⟨s₁, p, k₁, true, o₁⟩ :: ⟨s₁.other, g, k₂, c₂, o₂⟩ :: rest))
        (some (locOf (⟨s₁.other, g, k₂, c₂, o₂⟩ :: rest))) (some (locOf rest)) p_r gp_r mode = .ok m' ∧
      Stands m' (fill rest (mk s₁ a k false (mk s₁.other g k₂ true u o₂) (mk s₁ p k₁ true v o₁))) ∧
      Outside (fill (⟨s₁, p, k₁, true, o₁⟩ :: ⟨s₁.other, g, k₂, c₂, o₂⟩ :: rest)
        (mk s a k c x y)) m m' := by
  cases s with
  | left => exact (maybe_split_rotate h hdo hp hgp).2 rfl u v huv
  | right => exact (maybe_split_rotate h (by rwa [Bool.and_comm y.isRed]) hp hgp).2 rfl u v huv

theorem heights_above {n : ℕ} {s₂ : Side}
    (h : CtxRB (⟨s₁, p, k₁, true, o₁⟩ :: ⟨s₂, g, k₂, c₂, o₂⟩ :: rest) false n) :
    o₁.isRed = false ∧ o₁.RB n ∧ o₂.RB n ∧ CtxRB rest false (n + 1) := by
  rw [CtxRB, if_pos rfl] at h
  obtain ⟨-, ho₁, hrb₁, h⟩ := h
  rw [CtxRB] at h
  cases c₂ with
  | true =>
    rw [if_pos rfl] at h
    exact absurd h.1 (by decide)
  | false =>
    rw [if_neg Bool.false_ne_true] at h
    exact ⟨ho₁, hrb₁, h⟩

theorem round_zigzig
    (h : Stands m (fill (⟨s₁, p, k₁, true, o₁⟩ :: ⟨s₁, g, k₂, c₂, o₂⟩ :: rest) (mk s a k c x y)))
    (hbal : Balanced (fill (⟨s₁, p, k₁, true, o₁⟩ :: ⟨s₁, g, k₂, c₂, o₂⟩ :: rest) (mk s a k c x y)))
    (htoward : Toward cmp key (⟨s₁, p, k₁, true, o₁⟩ :: ⟨s₁, g, k₂, c₂, o₂⟩ :: rest))
    (hk : Went (cmp key k) s) (hboth : (x.isRed && y.isRed) = true) (ho₂ : o₂.isRed = false)
    (hp : Went p_r s₁) (hgp : Went gp_r s₁) :
    ∃ m', maybeSplitForInsert m (locOf (⟨s₁, p, k₁, true, o₁⟩ :: ⟨s₁, g, k₂, c₂, o₂⟩ :: rest))
        (some (locOf (⟨s₁, g, k₂, c₂, o₂⟩ :: rest))) (some (locOf rest)) p_r gp_r false = .ok m' ∧
      Round cmp key m m'
        (fill (⟨s₁, p, k₁, true, o₁⟩ :: ⟨s₁, g, k₂, c₂, o₂⟩ :: rest) (mk s a k c x y))
        ⟨s, a, k, true, y.paint false⟩ (⟨s₁, p, k₁, false, mk s₁ g k₂ true o₁ o₂⟩ :: rest)
        (x.paint false) := by
  have hdo : (false || (x.isRed && y.isRed)) = true := hboth
  obtain ⟨m', hm', h', hout⟩ := split_zigzig h hdo hp hgp
  obtain ⟨-, n, hx, hy, hctx⟩ := heights_of_both hbal hboth
  obtain ⟨ho₁, hrb₁, hrb₂, hrest⟩ := heights_above hctx
  rw [Bool.and_eq_true] at hboth
  refine ⟨m', hm', h', ?_, ?_, ?_, hout⟩
  · exact entries_zigzig s s₁ rest a p g k k₁ k₂ c true true false c₂ true x y o₁ o₂
  · refine (rb_fill _ _).mpr ⟨n + 1, hx.blacken hboth.1, ?_⟩
    rw [CtxRB, if_pos rfl, CtxRB, if_neg Bool.false_ne_true]
    exact ⟨isRed_paint_false x, isRed_paint_false y, hy.blacken hboth.2,
      (rb_mk_red _ _ _ _ _ _).mpr ⟨ho₁, ho₂, hrb₁, hrb₂⟩, hrest⟩
  · have hpk : Went (cmp key k₁) s₁ := htoward _ List.mem_cons_self
    exact (htoward.tail.tail.cons (f := ⟨s₁, p, k₁, false, mk s₁ g k₂ true o₁ o₂⟩) hpk).cons hk

/-- A round with a split and a rotation of two edges of different kinds; what comes next is the old
grandparent or the old parent, now a successor. -/
theorem round_zigzag
    (h : Stands m (fill (⟨s₁, p, k₁, true, o₁⟩ :: ⟨s₁.other, g, k₂, c₂, o₂⟩ :: rest)
      (mk s a k c x y)))
    (hbal : Balanced (fill (⟨s₁, p, k₁, true, o₁⟩ :: ⟨s₁.other, g, k₂, c₂, o₂⟩ :: rest)
      (mk s a k c x y)))
    (htoward : Toward cmp key (⟨s₁, p, k₁, true, o₁⟩ :: ⟨s₁.other, g, k₂, c₂, o₂⟩ :: rest))
    (hk : Went (cmp key k) s) (hboth : (x.isRed && y.isRed) = true) (ho₂ : o₂.isRed = false)
    (hp : Went p_r s₁) (hgp : Went gp_r s₁.other) :
    ∃ m' other s₃ b k₃ w, maybeSplitForInsert m
        (locOf (⟨s₁, p, k₁, true, o₁⟩ :: ⟨s₁.other, g, k₂, c₂, o₂⟩ :: rest))
        (some (locOf (⟨s₁.other, g, k₂, c₂, o₂⟩ :: rest))) (some (locOf rest)) p_r gp_r false =
          .ok m' ∧
      Went (cmp key k₃) s₃ ∧ Round cmp key m m'
        (fill (⟨s₁, p, k₁, true, o₁⟩ :: ⟨s₁.other, g, k₂, c₂, o₂⟩ :: rest) (mk s a k c x y))
        ⟨s, a, k, false, other⟩ rest (mk s₃ b k₃ true (x.paint false) w) := by
  have hdo : (false || (x.isRed && y.isRed)) = true := hboth
  obtain ⟨hc, n, hx, hy, hctx⟩ := heights_of_both hbal hboth
  obtain ⟨ho₁, hrb₁, hrb₂, hrest⟩ := heights_above hctx
  rw [Bool.and_eq_true] at hboth
  have hpk : Went (cmp key k₁) s₁ := htoward _ List.mem_cons_self
  have hgk : Went (cmp key k₂) s₁.other := htoward _ (List.mem_cons_of_mem _ List.mem_cons_self)
  -- both successors are as high as before, and so is the node that is now at the top
  have hheights : ∀ (s₃ : Side) (b : ℕ) (k₃ : κ) (z o : NTree κ), z.isRed = true → z.RB n →
      o.isRed = false → o.RB (n + 1) → (mk s₃ b k₃ true (z.paint false) o).RB (n + 1) := by
    intro s₃ b k₃ z o hz hzrb ho horb
    exact (rb_mk_red _ _ _ _ _ _).mpr ⟨isRed_paint_false z, ho, hzrb.blacken hz, horb⟩
  have hfits : ∀ f : Frame κ, f.red = false → f.other.RB (n + 1) → CtxRB (f :: rest) true (n + 1) := by
    intro f hf hother
    rw [CtxRB, hf, if_neg Bool.false_ne_true]
    exact ⟨hother, hrest⟩
  rcases side_eq_or s₁ s with rfl | rfl
  · obtain ⟨m', hm', h', hout⟩ := split_zigzag h hdo hp hgp rfl
    refine ⟨m', mk s p k₁ true (y.paint false) o₁, s.other, g, k₂, o₂, hm', hgk, h', ?_, ?_,
      htoward.tail.tail.cons hk, hout⟩
    · rw [hc]
      exact entries_zigzag s s rest a p g k k₁ k₂ false true false true true c₂ true x y o₁ o₂ _ _ rfl
    · refine (rb_fill _ _).mpr ⟨n + 1, hheights _ _ _ _ _ hboth.1 hx ho₂ hrb₂, ?_⟩
      rw [isRed_mk]
      exact hfits _ rfl (hheights _ _ _ _ _ hboth.2 hy ho₁ hrb₁)
  · have huv : mk s₁.other a k true (x.paint false) (y.paint false) =
        mk s₁ a k true (y.paint false) (x.paint false) := mk_other s₁ a k true _ _
    obtain ⟨m', hm', h', hout⟩ := split_zigzag h hdo hp hgp huv
    have hfill : fill (⟨s₁.other, a, k, false, mk s₁.other g k₂ true (y.paint false) o₂⟩ :: rest)
        (mk s₁ p k₁ true (x.paint false) o₁) =
        fill rest (mk s₁ a k false (mk s₁.other g k₂ true (y.paint false) o₂)
          (mk s₁ p k₁ true (x.paint false) o₁)) := by
      rw [fill, mk_other]
    refine ⟨m', mk s₁.other g k₂ true (y.paint false) o₂, s₁, p, k₁, o₁, hm', hpk, ?_, ?_, ?_,
      htoward.tail.tail.cons hk, hout⟩
    · rw [hfill]
      exact h'
    · rw [hfill, hc]
      exact entries_zigzag s₁.other s₁ rest a p g k k₁ k₂ false true false true true c₂ true x y o₁ o₂ _ _
        huv
    · refine (rb_fill _ _).mpr ⟨n + 1, hheights _ _ _ _ _ hboth.1 hx ho₁ hrb₁, ?_⟩
      rw [isRed_mk]
      exact hfits _ rfl (hheights _ _ _ _ _ hboth.2 hy ho₂ hrb₂)

theorem round_quiet (h : Stands m (fill ctx (mk s a k c x y)))
    (hbal : Balanced (fill ctx (mk s a k c x y))) (htoward : Toward cmp key ctx)
    (hk : Went (cmp key k) s) (hboth : (x.isRed && y.isRed) = false)
    (habove : Above ⟨s, a, k, c, y⟩ ctx parentp p_r) :
    ∃ m' f ctx' t', maybeSplitForInsert m (locOf ctx) parentp gparentp p_r gp_r false = .ok m' ∧
      f.side = s ∧ f.addr = a ∧ Round cmp key m m' (fill ctx (mk s a k c x y)) f ctx' t' ∧
      (t' = .nil ∧ ctx' = ctx ∧ Above f ctx parentp p_r ∨
        ∃ cost', cost' < 2 * (mk s a k c x y).height ∧
          Ready cmp key (some (locOf ctx)) parentp (cmp key k) p_r (f :: ctx') t' cost') := by
  obtain ⟨hm, hround⟩ := round_none h hbal htoward hk hboth
  refine ⟨m, _, ctx, x, hm, rfl, rfl, hround, ?_⟩
  by_cases hx : x = .nil
  · exact Or.inl ⟨hx, rfl, habove⟩
  · refine Or.inr ⟨_, ?_, Ready.safe hx ⟨rfl, hk, habove, fun hred => ?_⟩⟩
    · rw [height_mk]
      have hle := Nat.le_max_left x.height y.height
      omega
    · rw [hred, Bool.true_and] at hboth
      exact hboth

theorem round_ok {cost : ℕ} (h : Stands m (fill ctx t)) (hbal : Balanced (fill ctx t))
    (htoward : Toward cmp key ctx) (ht : t = mk s a k c x y) (hk : Went (cmp key k) s)
    (hready : Ready cmp key parentp gparentp p_r gp_r ctx t cost) :
    ∃ m' f ctx' t', maybeSplitForInsert m (locOf ctx) parentp gparentp p_r gp_r false = .ok m' ∧
      f.side = s ∧ f.addr = a ∧ Round cmp key m m' (fill ctx t) f ctx' t' ∧
      (t' = .nil ∧ ctx' = ctx ∧ Above f ctx parentp p_r ∨
        ∃ cost', cost' < cost ∧
          Ready cmp key (some (locOf ctx)) parentp (cmp key k) p_r (f :: ctx') t' cost') := by
  have hless : 2 * (x.paint false).height < 2 * (mk s a k c x y).height := by
    rw [height_paint, height_mk]
    have hle := Nat.le_max_left x.height y.height
    omega
  cases hready with
  | calm hcalm =>
    subst ht
    obtain ⟨hc, hx, hy⟩ := calm_mk.mp hcalm
    refine round_quiet h hbal htoward hk (by rw [hx]; rfl) fun hred => ?_
    exact absurd (hred.symm.trans hc) (by decide)
  | @turned s₃ b k₃ z w hk₃ hz =>
    -- the node is red, and the way goes on to its black successor
    obtain ⟨-, hkey, hc, hsame⟩ := mk_inj ht
    have hside : s₃ = s := by
      rw [← hk.2, ← hk₃.2, hkey]
    obtain ⟨hzx, -⟩ := hsame hside
    rw [ht] at h hbal ⊢
    rw [hzx] at hz ⊢
    obtain ⟨n, hrb, -⟩ := (rb_fill ctx _).mp hbal
    have hxblack : x.isRed = false := by
      rw [← hc] at hrb
      exact ((rb_mk_red s a k x y n).mp hrb).1
    obtain ⟨hm, hround⟩ := round_none h hbal htoward hk (by rw [hxblack]; rfl)
    exact ⟨m, _, ctx, x, hm, rfl, rfl, hround, Or.inr ⟨_, Nat.lt_succ_self _, Ready.calm hz⟩⟩
  | safe hne hsafe =>
    subst ht
    cases hboth : x.isRed && y.isRed with
    | false => exact round_quiet h hbal htoward hk hboth hsafe.above
    | true =>
      obtain ⟨-, n, hx, -, -⟩ := heights_of_both hbal hboth
      have hxred : x.isRed = true := (Bool.and_eq_true _ _ ▸ hboth).1
      have hcalm := calm_paint hx hxred
      -- the parent is black, or there are two nodes above that can be rotated
      have hcases : (ctx = [] ∧ parentp = none ∨
          ∃ f rest, ctx = f :: rest ∧ parentp = some (locOf rest) ∧ f.red = false) ∨
          ∃ s₁ p k₁ o₁ s₂ g k₂ c₂ o₂ rest, ctx = ⟨s₁, p, k₁, true, o₁⟩ :: ⟨s₂, g, k₂, c₂, o₂⟩ :: rest ∧
            parentp = some (locOf (⟨s₂, g, k₂, c₂, o₂⟩ :: rest)) ∧ gparentp = some (locOf rest) ∧
            Went p_r s₁ ∧ Went gp_r s₂ ∧ o₂.isRed = false := by
        cases ctx with
        | nil => exact Or.inl (Or.inl ⟨rfl, hsafe.1⟩)
        | cons f ctx =>
          obtain ⟨hparent, hwent, habove, -⟩ := hsafe
          cases hred : f.red with
          | false => exact Or.inl (Or.inr ⟨f, ctx, rfl, hparent, hred⟩)
          | true =>
            obtain ⟨f₂, rest, rfl, hgparent, hgwent, hother⟩ := habove hred
            obtain ⟨s₁, p, k₁, c₁, o₁⟩ := f
            obtain ⟨s₂, g, k₂, c₂, o₂⟩ := f₂
            obtain rfl : c₁ = true := hred
            exact Or.inr ⟨s₁, p, k₁, o₁, s₂, g, k₂, c₂, o₂, rest, rfl, hparent, hgparent, hwent,
              hgwent, hother⟩
      rcases hcases with hparent | ⟨s₁, p, k₁, o₁, s₂, g, k₂, c₂, o₂, rest, rfl, rfl, rfl, hp, hgp, ho₂⟩
      · obtain ⟨m', hm', hround⟩ := round_recolor h hbal htoward hk hboth hparent
        exact ⟨m', _, _, _, hm', rfl, rfl, hround, Or.inr ⟨_, hless, Ready.calm hcalm⟩⟩
      · rcases side_eq_or s₁ s₂ with rfl | rfl
        · obtain ⟨m', hm', hround⟩ := round_zigzig h hbal htoward hk hboth ho₂ hp hgp
          exact ⟨m', _, _, _, hm', rfl, rfl, hround, Or.inr ⟨_, hless, Ready.calm hcalm⟩⟩
        · obtain ⟨m', other, s₃, b, k₃, w, hm', hk₃, hround⟩ :=
            round_zigzag h hbal htoward hk hboth ho₂ hp hgp
          refine ⟨m', _, _, _, hm', rfl, rfl, hround, Or.inr ⟨_, ?_, Ready.turned hk₃ hcalm⟩⟩
          omega

end Round

end Mintlib.Tsearch
