import Mathlib.Data.List.Basic
import Mathlib.Data.List.Nodup
import Mathlib.Tactic

/-!
# Trees of nodes in memory

A node has a key, a colour and two children, and stands at an address. A tree says which nodes hang
together in memory; a context is a tree with one subtree taken out, and its frames lead from there up
to the root. Red-black trees are balanced by their colours.
-/

namespace Mintlib.NodeTree

inductive Side
  | left
  | right
deriving DecidableEq

def Side.other : Side → Side
  | .left => .right
  | .right => .left

@[simp] theorem Side.other_ne (s : Side) : s.other ≠ s := by
  cases s <;> decide

/-- What stands in memory at the address of a node. -/
structure Node (κ : Type*) where
  key : κ
  left : Option ℕ
  right : Option ℕ
  red : Bool

variable {κ : Type*}

def Node.child (n : Node κ) : Side → Option ℕ
  | .left => n.left
  | .right => n.right

def Node.setChild (n : Node κ) (v : Option ℕ) : Side → Node κ
  | .left => { n with left := v }
  | .right => { n with right := v }

def Node.mk' (s : Side) (key : κ) (red : Bool) (x y : Option ℕ) : Node κ :=
  match s with
  | .left => ⟨key, x, y, red⟩
  | .right => ⟨key, y, x, red⟩

section Node

variable (s : Side) (key : κ) (red : Bool) (x y v : Option ℕ)

@[simp] theorem Node.mk'_red : (Node.mk' s key red x y).red = red := by
  cases s <;> rfl

@[simp] theorem Node.mk'_child : (Node.mk' s key red x y).child s = x := by
  cases s <;> rfl

@[simp] theorem Node.mk'_child_other : (Node.mk' s key red x y).child s.other = y := by
  cases s <;> rfl

@[simp] theorem Node.mk'_setChild :
    (Node.mk' s key red x y).setChild v s = Node.mk' s key red v y := by
  cases s <;> rfl

@[simp] theorem Node.mk'_setChild_other :
    (Node.mk' s key red x y).setChild v s.other = Node.mk' s key red x v := by
  cases s <;> rfl

@[simp] theorem Node.mk'_setRed (c : Bool) :
    { Node.mk' s key red x y with red := c } = Node.mk' s key c x y := by
  cases s <;> rfl

end Node

/-- Nodes that hang together, with their addresses. -/
inductive NTree (κ : Type*)
  | nil
  | node (addr : ℕ) (key : κ) (red : Bool) (left right : NTree κ)

namespace NTree

/-- A tree whose subtree on one side, and then on the other, is given. -/
def mk (s : Side) (addr : ℕ) (key : κ) (red : Bool) (x y : NTree κ) : NTree κ :=
  match s with
  | .left => .node addr key red x y
  | .right => .node addr key red y x

theorem mk_other (s : Side) (addr : ℕ) (key : κ) (red : Bool) (x y : NTree κ) :
    mk s.other addr key red x y = mk s addr key red y x := by
  cases s <;> rfl

def addr : NTree κ → Option ℕ
  | nil => none
  | node a _ _ _ _ => some a

def isRed : NTree κ → Bool
  | nil => false
  | node _ _ c _ _ => c

def entries : NTree κ → List (ℕ × κ)
  | nil => []
  | node a k _ l r => l.entries ++ (a, k) :: r.entries

def addrs (t : NTree κ) : List ℕ := t.entries.map Prod.fst

def paint (c : Bool) : NTree κ → NTree κ
  | nil => nil
  | node a k _ l r => node a k c l r

@[simp] theorem addr_mk (s : Side) (a : ℕ) (k : κ) (c : Bool) (x y : NTree κ) :
    (mk s a k c x y).addr = some a := by
  cases s <;> rfl

@[simp] theorem isRed_mk (s : Side) (a : ℕ) (k : κ) (c : Bool) (x y : NTree κ) :
    (mk s a k c x y).isRed = c := by
  cases s <;> rfl

@[simp] theorem addr_paint (c : Bool) (t : NTree κ) : (t.paint c).addr = t.addr := by
  cases t <;> rfl

@[simp] theorem entries_paint (c : Bool) (t : NTree κ) : (t.paint c).entries = t.entries := by
  cases t <;> rfl

@[simp] theorem isRed_paint_false (t : NTree κ) : (t.paint false).isRed = false := by
  cases t <;> rfl

theorem paint_mk (s : Side) (a : ℕ) (k : κ) (c c' : Bool) (x y : NTree κ) :
    (mk s a k c x y).paint c' = mk s a k c' x y := by
  cases s <;> rfl

theorem paint_eq {c : Bool} {t : NTree κ} (h : t.isRed = c) : t.paint c = t := by
  cases t with
  | nil => rfl
  | node a k c' l r =>
    have hc : c' = c := h
    rw [hc]
    rfl

theorem addr_eq_none {t : NTree κ} : t.addr = none ↔ t = nil := by
  cases t <;> simp [addr]

theorem exists_of_isRed {t : NTree κ} (h : t.isRed = true) :
    ∃ a k l r, t = node a k true l r := by
  cases t with
  | nil => exact absurd h (by simp [isRed])
  | node a k c l r =>
    have hc : c = true := h
    exact ⟨a, k, l, r, by rw [hc]⟩

theorem mk_cases (s : Side) (t : NTree κ) (h : t ≠ nil) : ∃ a k c x y, t = mk s a k c x y := by
  cases t with
  | nil => exact absurd rfl h
  | node a k c l r =>
    cases s with
    | left => exact ⟨a, k, c, l, r, rfl⟩
    | right => exact ⟨a, k, c, r, l, rfl⟩

theorem node_eq_mk (s : Side) (a : ℕ) (k : κ) (c : Bool) (l r : NTree κ) :
    ∃ x y, node a k c l r = mk s a k c x y := by
  cases s with
  | left => exact ⟨l, r, rfl⟩
  | right => exact ⟨r, l, rfl⟩

theorem mk_inj {s s' : Side} {a a' : ℕ} {k k' : κ} {c c' : Bool} {x x' y y' : NTree κ}
    (h : mk s a k c x y = mk s' a' k' c' x' y') :
    a = a' ∧ k = k' ∧ c = c' ∧ (s = s' → x = x' ∧ y = y') := by
  cases s <;> cases s' <;> simp only [mk, NTree.node.injEq] at h <;> simp [h]

theorem addrs_eq_of_entries {t t' : NTree κ} (h : t'.entries = t.entries) : t'.addrs = t.addrs := by
  rw [addrs, addrs, h]

theorem entries_mk_congr {s : Side} {x x' y y' : NTree κ} (a : ℕ) (k : κ) (c c' : Bool)
    (hx : x'.entries = x.entries) (hy : y'.entries = y.entries) :
    (mk s a k c' x' y').entries = (mk s a k c x y).entries := by
  cases s with
  | left =>
    show x'.entries ++ (a, k) :: y'.entries = x.entries ++ (a, k) :: y.entries
    rw [hx, hy]
  | right =>
    show y'.entries ++ (a, k) :: x'.entries = y.entries ++ (a, k) :: x.entries
    rw [hx, hy]

theorem entries_turn (s : Side) (p q : ℕ) (kp kq : κ) (c c' d d' : Bool) (x y z : NTree κ) :
    (mk s q kq d' (mk s p kp c' x y) z).entries = (mk s p kp c x (mk s q kq d y z)).entries := by
  cases s <;> simp [mk, entries]

theorem entries_turn_twice (s : Side) (g p a : ℕ) (k₂ k₁ k : κ) (c₂ c₁ c c₂' c₁' c' : Bool)
    (x u v z : NTree κ) :
    (mk s a k c' (mk s g k₂ c₂' x u) (mk s p k₁ c₁' v z)).entries =
      (mk s g k₂ c₂ x (mk s p k₁ c₁ (mk s a k c u v) z)).entries := by
  cases s <;> simp [mk, entries]

/-- As many black nodes, `n`, on every way down, and no red node below a red one. -/
def RB : NTree κ → ℕ → Prop
  | nil, n => n = 0
  | node _ _ true l r, n => l.isRed = false ∧ r.isRed = false ∧ l.RB n ∧ r.RB n
  | node _ _ false l r, n => ∃ m, n = m + 1 ∧ l.RB m ∧ r.RB m

theorem rb_mk_red (s : Side) (a : ℕ) (k : κ) (x y : NTree κ) (n : ℕ) :
    (mk s a k true x y).RB n ↔ x.isRed = false ∧ y.isRed = false ∧ x.RB n ∧ y.RB n := by
  cases s with
  | left => exact Iff.rfl
  | right =>
    constructor
    · rintro ⟨hy, hx, hry, hrx⟩
      exact ⟨hx, hy, hrx, hry⟩
    · rintro ⟨hx, hy, hrx, hry⟩
      exact ⟨hy, hx, hry, hrx⟩

theorem rb_mk_black (s : Side) (a : ℕ) (k : κ) (x y : NTree κ) (n : ℕ) :
    (mk s a k false x y).RB n ↔ ∃ m, n = m + 1 ∧ x.RB m ∧ y.RB m := by
  cases s with
  | left => exact Iff.rfl
  | right =>
    constructor
    · rintro ⟨m, hn, hy, hx⟩
      exact ⟨m, hn, hx, hy⟩
    · rintro ⟨m, hn, hx, hy⟩
      exact ⟨m, hn, hy, hx⟩

theorem RB.blacken {t : NTree κ} {n : ℕ} (h : t.RB n) (hred : t.isRed = true) :
    (t.paint false).RB (n + 1) := by
  obtain ⟨a, k, l, r, rfl⟩ := exists_of_isRed hred
  obtain ⟨-, -, hl, hr⟩ := h
  exact ⟨n, rfl, hl, hr⟩

theorem RB.black_root {t : NTree κ} {n : ℕ} (h : t.RB n) : ∃ m, (t.paint false).RB m := by
  by_cases hred : t.isRed = true
  · exact ⟨n + 1, h.blacken hred⟩
  · rw [paint_eq (by simpa using hred)]
    exact ⟨n, h⟩

def height : NTree κ → ℕ
  | nil => 0
  | node _ _ _ l r => max l.height r.height + 1

theorem height_mk (s : Side) (a : ℕ) (k : κ) (c : Bool) (x y : NTree κ) :
    (mk s a k c x y).height = max x.height y.height + 1 := by
  cases s with
  | left => rfl
  | right =>
    show max y.height x.height + 1 = max x.height y.height + 1
    rw [Nat.max_comm]

theorem height_paint (c : Bool) (t : NTree κ) : (t.paint c).height = t.height := by
  cases t <;> rfl

theorem height_pos {t : NTree κ} (h : t ≠ .nil) : 0 < t.height := by
  cases t with
  | nil => exact absurd rfl h
  | node => exact Nat.succ_pos _

def size (t : NTree κ) : ℕ := t.entries.length

theorem size_node (a : ℕ) (k : κ) (c : Bool) (l r : NTree κ) :
    (node a k c l r).size = l.size + r.size + 1 := by
  rw [size, entries, List.length_append, List.length_cons]
  exact (Nat.add_assoc _ _ 1).symm

theorem RB.size_ge {t : NTree κ} {n : ℕ} (h : t.RB n) : 2 ^ n ≤ t.size + 1 := by
  induction t generalizing n with
  | nil =>
    have hn : n = 0 := h
    rw [hn]
    exact Nat.le_refl 1
  | node a k c l r ihl ihr =>
    rw [size_node]
    cases c with
    | true =>
      obtain ⟨-, -, hl, hr⟩ := h
      have hle := ihl hl
      omega
    | false =>
      obtain ⟨m, rfl, hl, hr⟩ := h
      have hlel := ihl hl
      have hler := ihr hr
      rw [Nat.pow_succ]
      omega

/-- No way is longer than twice as many nodes as are black, and one more if the root is red. -/
theorem RB.height_le {t : NTree κ} {n : ℕ} (h : t.RB n) :
    t.height ≤ 2 * n + (if t.isRed then 1 else 0) := by
  induction t generalizing n with
  | nil => exact Nat.zero_le _
  | node a k c l r ihl ihr =>
    rw [height, isRed]
    cases c with
    | true =>
      obtain ⟨hlred, hrred, hl, hr⟩ := h
      have hlel := ihl hl
      have hler := ihr hr
      rw [hlred, if_neg Bool.false_ne_true] at hlel
      rw [hrred, if_neg Bool.false_ne_true] at hler
      rw [if_pos rfl]
      omega
    | false =>
      obtain ⟨m, rfl, hl, hr⟩ := h
      have hlel := ihl hl
      have hler := ihr hr
      have hone : ∀ b : Bool, (if b then 1 else 0) ≤ 1 := by decide
      have hlone := hone l.isRed
      have hrone := hone r.isRed
      rw [if_neg Bool.false_ne_true]
      omega

end NTree

/-- A node on the way to a subtree that has been taken out: the side it was on, and what is on the
other side. -/
structure Frame (κ : Type*) where
  side : Side
  addr : ℕ
  key : κ
  red : Bool
  other : NTree κ

open NTree

/-- The tree with a subtree put in; the innermost frame is the first one. -/
def fill : List (Frame κ) → NTree κ → NTree κ
  | [], t => t
  | f :: ctx, t => fill ctx (mk f.side f.addr f.key f.red t f.other)

theorem fill_other (s : Side) (a : ℕ) (k : κ) (c : Bool) (x y : NTree κ) (ctx : List (Frame κ)) :
    fill (⟨s.other, a, k, c, x⟩ :: ctx) y = fill ctx (mk s a k c x y) := by
  rw [fill, mk_other]

def before : List (Frame κ) → List (ℕ × κ)
  | [] => []
  | f :: ctx =>
    match f.side with
    | .left => before ctx
    | .right => before ctx ++ f.other.entries ++ [(f.addr, f.key)]

def after : List (Frame κ) → List (ℕ × κ)
  | [] => []
  | f :: ctx =>
    match f.side with
    | .left => (f.addr, f.key) :: f.other.entries ++ after ctx
    | .right => after ctx

theorem entries_fill (ctx : List (Frame κ)) (t : NTree κ) :
    (fill ctx t).entries = before ctx ++ t.entries ++ after ctx := by
  induction ctx generalizing t with
  | nil => exact (List.append_nil _).symm
  | cons f ctx ih =>
    obtain ⟨s, a, k, c, o⟩ := f
    rw [fill, ih]
    cases s with
    | left =>
      show before ctx ++ (t.entries ++ (a, k) :: o.entries) ++ after ctx =
        before ctx ++ t.entries ++ ((a, k) :: o.entries ++ after ctx)
      simp only [List.append_assoc, List.cons_append]
    | right =>
      show before ctx ++ (o.entries ++ (a, k) :: t.entries) ++ after ctx =
        before ctx ++ o.entries ++ [(a, k)] ++ t.entries ++ after ctx
      simp only [List.append_assoc, List.cons_append, List.nil_append]

theorem entries_fill_congr (rest : List (Frame κ)) {t t' : NTree κ} (h : t'.entries = t.entries) :
    (fill rest t').entries = (fill rest t).entries := by
  rw [entries_fill, entries_fill, h]

theorem fill_append (ctx rest : List (Frame κ)) (t : NTree κ) :
    fill (ctx ++ rest) t = fill rest (fill ctx t) := by
  induction ctx generalizing t with
  | nil => rfl
  | cons f ctx ih => exact ih _

theorem height_fill (ctx : List (Frame κ)) (t : NTree κ) :
    ctx.length + t.height ≤ (fill ctx t).height := by
  induction ctx generalizing t with
  | nil => exact (Nat.zero_add _).le
  | cons f ctx ih =>
    have hrest := ih (mk f.side f.addr f.key f.red t f.other)
    rw [height_mk] at hrest
    have hle := Nat.le_max_left t.height f.other.height
    rw [fill, List.length_cons]
    omega

/-- A tree with a root that is red or not, and of a black height, fits in. -/
def CtxRB : List (Frame κ) → Bool → ℕ → Prop
  | [], _, _ => True
  | f :: ctx, c, n =>
    if f.red then c = false ∧ f.other.isRed = false ∧ f.other.RB n ∧ CtxRB ctx true n
    else f.other.RB n ∧ CtxRB ctx false (n + 1)

theorem CtxRB.of_red {ctx : List (Frame κ)} {c : Bool} {n : ℕ} (h : CtxRB ctx c n) :
    CtxRB ctx false n := by
  cases ctx with
  | nil => trivial
  | cons f ctx =>
    rw [CtxRB] at h ⊢
    split
    · next hred =>
      rw [if_pos hred] at h
      exact ⟨rfl, h.2⟩
    · next hred =>
      rwa [if_neg hred] at h

theorem CtxRB.any {ctx : List (Frame κ)} {c c' : Bool} {n : ℕ} (h : CtxRB ctx c n)
    (hblack : ∀ f ∈ ctx.head?, f.red = false) : CtxRB ctx c' n := by
  cases ctx with
  | nil => trivial
  | cons f ctx =>
    have hf : f.red = false := hblack f rfl
    rw [CtxRB, hf, if_neg Bool.false_ne_true] at h ⊢
    exact h

theorem rb_fill (ctx : List (Frame κ)) (t : NTree κ) :
    (∃ n, (fill ctx t).RB n) ↔ ∃ n, t.RB n ∧ CtxRB ctx t.isRed n := by
  induction ctx generalizing t with
  | nil =>
    constructor
    · rintro ⟨n, h⟩
      exact ⟨n, h, trivial⟩
    · rintro ⟨n, h, -⟩
      exact ⟨n, h⟩
  | cons f ctx ih =>
    obtain ⟨s, a, k, c, o⟩ := f
    rw [fill, ih, isRed_mk]
    cases c with
    | true =>
      constructor
      · rintro ⟨n, h, hctx⟩
        obtain ⟨ht, ho, hrt, hro⟩ := (rb_mk_red s a k t o n).mp h
        refine ⟨n, hrt, ?_⟩
        rw [CtxRB, if_pos rfl]
        exact ⟨ht, ho, hro, hctx⟩
      · rintro ⟨n, h, hctx⟩
        rw [CtxRB, if_pos rfl] at hctx
        obtain ⟨ht, ho, hro, hctx⟩ := hctx
        exact ⟨n, (rb_mk_red s a k t o n).mpr ⟨ht, ho, h, hro⟩, hctx⟩
    | false =>
      constructor
      · rintro ⟨n, h, hctx⟩
        obtain ⟨m, rfl, hrt, hro⟩ := (rb_mk_black s a k t o n).mp h
        refine ⟨m, hrt, ?_⟩
        rw [CtxRB, if_neg Bool.false_ne_true]
        exact ⟨hro, hctx⟩
      · rintro ⟨n, h, hctx⟩
        rw [CtxRB, if_neg Bool.false_ne_true] at hctx
        exact ⟨n + 1, (rb_mk_black s a k t o (n + 1)).mpr ⟨n, rfl, h, hctx.1⟩, hctx.2⟩

def Holds (mem : ℕ → Option (Node κ)) : NTree κ → Prop
  | .nil => True
  | .node a k c l r => mem a = some ⟨k, l.addr, r.addr, c⟩ ∧ Holds mem l ∧ Holds mem r

theorem holds_mk {mem : ℕ → Option (Node κ)} (s : Side) (a : ℕ) (k : κ) (c : Bool) (x y : NTree κ) :
    Holds mem (mk s a k c x y) ↔
      mem a = some (Node.mk' s k c x.addr y.addr) ∧ Holds mem x ∧ Holds mem y := by
  cases s with
  | left => exact Iff.rfl
  | right =>
    constructor
    · rintro ⟨ha, hy, hx⟩
      exact ⟨ha, hx, hy⟩
    · rintro ⟨ha, hx, hy⟩
      exact ⟨ha, hy, hx⟩

theorem Holds.node_at {mem : ℕ → Option (Node κ)} {t : NTree κ} (h : Holds mem t) {b : ℕ}
    (hb : b ∈ t.addrs) : ∃ n, mem b = some n := by
  induction t with
  | nil => exact absurd hb List.not_mem_nil
  | node a k c l r ihl ihr =>
    obtain ⟨ha, hl, hr⟩ := h
    rw [addrs, entries, List.map_append, List.map_cons] at hb
    rcases List.mem_append.mp hb with hb | hb
    · exact ihl hl hb
    · rcases List.mem_cons.mp hb with rfl | hb
      · exact ⟨_, ha⟩
      · exact ihr hr hb

theorem Holds.congr {mem mem' : ℕ → Option (Node κ)} {t : NTree κ} (h : Holds mem t)
    (hsame : ∀ a ∈ t.addrs, mem' a = mem a) : Holds mem' t := by
  induction t with
  | nil => trivial
  | node a k c l r ihl ihr =>
    obtain ⟨ha, hl, hr⟩ := h
    have hmem : ∀ b, b ∈ (node a k c l r).addrs ↔ b ∈ l.addrs ∨ b = a ∨ b ∈ r.addrs := by
      intro b
      simp [addrs, entries]
    refine ⟨?_, ihl hl fun b hb => ?_, ihr hr fun b hb => ?_⟩
    · rw [hsame a ((hmem a).mpr (Or.inr (Or.inl rfl))), ha]
    · exact hsame b ((hmem b).mpr (Or.inl hb))
    · exact hsame b ((hmem b).mpr (Or.inr (Or.inr hb)))

/-- The frames stand in memory, `x` being where the subtree is, or the root if there is no frame. -/
def CtxHolds (mem : ℕ → Option (Node κ)) (root : Option ℕ) : Option ℕ → List (Frame κ) → Prop
  | x, [] => root = x
  | x, f :: ctx => mem f.addr = some (Node.mk' f.side f.key f.red x f.other.addr) ∧
      Holds mem f.other ∧ CtxHolds mem root (some f.addr) ctx

def ctxAddrs (ctx : List (Frame κ)) : List ℕ := ctx.flatMap fun f => f.addr :: f.other.addrs

theorem CtxHolds.congr {mem mem' : ℕ → Option (Node κ)} {root x : Option ℕ}
    {ctx : List (Frame κ)} (h : CtxHolds mem root x ctx)
    (hsame : ∀ a ∈ ctxAddrs ctx, mem' a = mem a) : CtxHolds mem' root x ctx := by
  induction ctx generalizing x with
  | nil => exact h
  | cons f ctx ih =>
    obtain ⟨ha, ho, hctx⟩ := h
    have hmem : ∀ b, b ∈ ctxAddrs (f :: ctx) ↔ b = f.addr ∨ b ∈ f.other.addrs ∨ b ∈ ctxAddrs ctx := by
      intro b
      simp [ctxAddrs]
    refine ⟨?_, ho.congr fun b hb => ?_, ih hctx fun b hb => ?_⟩
    · rw [hsame f.addr ((hmem _).mpr (Or.inl rfl)), ha]
    · exact hsame b ((hmem b).mpr (Or.inr (Or.inl hb)))
    · exact hsame b ((hmem b).mpr (Or.inr (Or.inr hb)))

theorem holds_fill {mem : ℕ → Option (Node κ)} {root : Option ℕ} (ctx : List (Frame κ)) (t : NTree κ) :
    (root = (fill ctx t).addr ∧ Holds mem (fill ctx t)) ↔
      CtxHolds mem root t.addr ctx ∧ Holds mem t := by
  induction ctx generalizing t with
  | nil => exact Iff.rfl
  | cons f ctx ih =>
    rw [fill, ih, addr_mk, holds_mk, CtxHolds]
    constructor
    · rintro ⟨hctx, ha, ht, ho⟩
      exact ⟨⟨ha, ho, hctx⟩, ht⟩
    · rintro ⟨⟨ha, ho, hctx⟩, ht⟩
      exact ⟨hctx, ha, ht, ho⟩

theorem addrs_mk (s : Side) (a : ℕ) (k : κ) (c : Bool) (x y : NTree κ) :
    (mk s a k c x y).addrs.Perm (a :: (x.addrs ++ y.addrs)) := by
  have hnode : ∀ l r : NTree κ, (node a k c l r).addrs.Perm (a :: (l.addrs ++ r.addrs)) := by
    intro l r
    rw [addrs, entries, List.map_append, List.map_cons]
    exact List.perm_middle
  cases s with
  | left => exact hnode x y
  | right => exact (hnode y x).trans (List.Perm.cons a List.perm_append_comm)

theorem addrs_fill (ctx : List (Frame κ)) (t : NTree κ) :
    (fill ctx t).addrs.Perm (ctxAddrs ctx ++ t.addrs) := by
  induction ctx generalizing t with
  | nil => exact List.Perm.refl _
  | cons f ctx ih =>
    have hnode := addrs_mk f.side f.addr f.key f.red t f.other
    have hcons : ctxAddrs (f :: ctx) = f.addr :: (f.other.addrs ++ ctxAddrs ctx) := rfl
    have hmove : (ctxAddrs ctx ++ (t.addrs ++ f.other.addrs)).Perm
        (f.other.addrs ++ ctxAddrs ctx ++ t.addrs) := by
      rw [← List.append_assoc, List.append_assoc f.other.addrs]
      exact List.perm_append_comm
    rw [fill, hcons, List.cons_append]
    refine (ih _).trans ((hnode.append_left _).trans (List.perm_middle.trans ?_))
    exact List.Perm.cons f.addr hmove

end Mintlib.NodeTree
