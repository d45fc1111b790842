import Mintlib.Lib.NodeTree
import Mintlib.Lib.Checked

/-!
# Search trees: the nodes of `tsearch.c`

Nodes are linked by pointers to nodes, and the functions work on pointers to these pointers. A
pointer to a pointer is the place where a subtree hangs.
-/

namespace Mintlib.Tsearch

open NodeTree NTree Checked

variable {κ : Type}

/-- The pointer to the root, and what stands in the memory for nodes. -/
structure Mem (κ : Type) where
  root : Option ℕ
  node : ℕ → Option (Node κ)

inductive Loc
  | root
  | child (s : Side) (a : ℕ)
deriving DecidableEq

def Mem.load (m : Mem κ) (a : ℕ) : Except Stop (Node κ) :=
  match m.node a with
  | some n => .ok n
  | none => .error .bounds

def Mem.get (m : Mem κ) : Loc → Except Stop (Option ℕ)
  | .root => .ok m.root
  | .child s a => do
    let n ← m.load a
    .ok (n.child s)

def Mem.deref (m : Mem κ) (l : Loc) : Except Stop ℕ := do
  let p ← m.get l
  match p with
  | some a => .ok a
  | none => .error .bounds

def Mem.modify (m : Mem κ) (a : ℕ) (f : Node κ → Node κ) : Except Stop (Mem κ) := do
  let n ← m.load a
  .ok { m with node := Function.update m.node a (some (f n)) }

def Mem.set (m : Mem κ) (l : Loc) (v : Option ℕ) : Except Stop (Mem κ) :=
  match l with
  | .root => .ok { m with root := v }
  | .child s a => m.modify a fun n => n.setChild v s

/-- `n->red = c`. -/
def Mem.paint (m : Mem κ) (a : ℕ) (c : Bool) : Except Stop (Mem κ) :=
  m.modify a fun n => { n with red := c }

/-- `if (p) p->red = 0;` -/
def Mem.blacken (m : Mem κ) : Option ℕ → Except Stop (Mem κ)
  | some a => m.paint a false
  | none => .ok m

/-- `p != NULL && p->red`. -/
def Mem.isRed (m : Mem κ) : Option ℕ → Except Stop Bool
  | some a => do
    let n ← m.load a
    .ok n.red
  | none => .ok false

structure Stands (m : Mem κ) (t : NTree κ) : Prop where
  root : m.root = t.addr
  holds : Holds m.node t
  nodup : t.addrs.Nodup

def Outside (t : NTree κ) (m m' : Mem κ) : Prop := ∀ a, a ∉ t.addrs → m'.node a = m.node a

def locOf : List (Frame κ) → Loc
  | [] => .root
  | f :: _ => .child f.side f.addr

section Memory

variable {m m' : Mem κ} {ctx : List (Frame κ)} {t t' : NTree κ} {a : ℕ} {n : Node κ} {x y : Option ℕ}

theorem load_ok (h : m.node a = some n) : m.load a = .ok n := by
  rw [Mem.load, h]

theorem modify_ok (h : m.node a = some n) (f : Node κ → Node κ) :
    m.modify a f = .ok { m with node := Function.update m.node a (some (f n)) } := by
  rw [Mem.modify, load_ok h, ok_bind]

theorem modify_at (h : m.node a = some n) (f : Node κ → Node κ) :
    ∃ m', m.modify a f = .ok m' ∧ m'.root = m.root ∧ m'.node a = some (f n) ∧
      ∀ b, b ≠ a → m'.node b = m.node b :=
  ⟨_, modify_ok h f, rfl, Function.update_self _ _ _, fun _ hb => Function.update_of_ne hb _ _⟩

theorem Stands.split (h : Stands m (fill ctx t)) :
    CtxHolds m.node m.root t.addr ctx ∧ Holds m.node t ∧ (ctxAddrs ctx ++ t.addrs).Nodup := by
  obtain ⟨hctx, ht⟩ := (holds_fill ctx t).mp ⟨h.root, h.holds⟩
  exact ⟨hctx, ht, (addrs_fill ctx t).nodup_iff.mp h.nodup⟩

theorem Stands.join (hctx : CtxHolds m.node m.root t.addr ctx) (ht : Holds m.node t)
    (hnodup : (ctxAddrs ctx ++ t.addrs).Nodup) : Stands m (fill ctx t) := by
  obtain ⟨hroot, hfill⟩ := (holds_fill ctx t).mpr ⟨hctx, ht⟩
  exact ⟨hroot, hfill, (addrs_fill ctx t).nodup_iff.mpr hnodup⟩

theorem mem_addrs_fill : a ∈ (fill ctx t).addrs ↔ a ∈ ctxAddrs ctx ∨ a ∈ t.addrs := by
  rw [(addrs_fill ctx t).mem_iff, List.mem_append]

theorem mem_addrs_mk {s : Side} {b : ℕ} {k : κ} {c : Bool} {u v : NTree κ} :
    a ∈ (NTree.mk s b k c u v).addrs ↔ a = b ∨ a ∈ u.addrs ∨ a ∈ v.addrs := by
  rw [(addrs_mk s b k c u v).mem_iff, List.mem_cons, List.mem_append]

theorem mem_ctxAddrs_cons {f : Frame κ} :
    a ∈ ctxAddrs (f :: ctx) ↔ a = f.addr ∨ a ∈ f.other.addrs ∨ a ∈ ctxAddrs ctx := by
  simp [ctxAddrs]

theorem get_locOf (h : CtxHolds m.node m.root x ctx) : m.get (locOf ctx) = .ok x := by
  cases ctx with
  | nil =>
    have hroot : m.root = x := h
    rw [locOf, Mem.get, hroot]
  | cons f ctx =>
    rw [locOf, Mem.get, load_ok h.1, ok_bind, Node.mk'_child]

theorem deref_locOf (h : CtxHolds m.node m.root (some a) ctx) : m.deref (locOf ctx) = .ok a := by
  rw [Mem.deref, get_locOf h, ok_bind]

theorem set_locOf (h : CtxHolds m.node m.root x ctx) (hnodup : (ctxAddrs ctx).Nodup)
    (y : Option ℕ) : ∃ m', m.set (locOf ctx) y = .ok m' ∧ CtxHolds m'.node m'.root y ctx ∧
      ∀ b, b ∉ ctxAddrs ctx → m'.node b = m.node b := by
  cases ctx with
  | nil => exact ⟨{ m with root := y }, rfl, rfl, fun _ _ => rfl⟩
  | cons f ctx =>
    obtain ⟨hf, ho, hctx⟩ := h
    have hcons : ctxAddrs (f :: ctx) = f.addr :: (f.other.addrs ++ ctxAddrs ctx) := rfl
    rw [hcons, List.nodup_cons] at hnodup
    have hother : ∀ b, b ≠ f.addr → Function.update m.node f.addr
        (some ((Node.mk' f.side f.key f.red x f.other.addr).setChild y f.side)) b = m.node b :=
      fun b hb => Function.update_of_ne hb _ _
    refine ⟨_, modify_ok hf _, ⟨?_, ho.congr fun b hb => hother b ?_,
      hctx.congr fun b hb => hother b ?_⟩, fun b hb => hother b ?_⟩
    · dsimp only
      rw [Function.update_self, Node.mk'_setChild]
    · rintro rfl
      exact hnodup.1 (List.mem_append_left _ hb)
    · rintro rfl
      exact hnodup.1 (List.mem_append_right _ hb)
    · rintro rfl
      exact hb (mem_ctxAddrs_cons.mpr (Or.inl rfl))

theorem modify_root_ok {k k' : κ} {c c' : Bool} {l r : NTree κ} (f : Node κ → Node κ)
    (h : Stands m (fill ctx (.node a k c l r)))
    (hf : f ⟨k, l.addr, r.addr, c⟩ = ⟨k', l.addr, r.addr, c'⟩) :
    ∃ m', m.modify a f = .ok m' ∧ Stands m' (fill ctx (.node a k' c' l r)) ∧
      Outside (fill ctx (.node a k c l r)) m m' := by
  obtain ⟨hctx, ⟨ha, hl, hr⟩, hnodup⟩ := h.split
  have hsame : (NTree.node a k' c' l r).addrs = (NTree.node a k c l r).addrs := by
    rw [addrs, addrs, entries, entries, List.map_append, List.map_append, List.map_cons, List.map_cons]
  obtain ⟨-, htree, happart⟩ := List.nodup_append.mp hnodup
  have hperm := (addrs_mk .left a k c l r).nodup_iff.mp htree
  rw [List.nodup_cons] at hperm
  have hother : ∀ d, d ≠ a →
      Function.update m.node a (some (f ⟨k, l.addr, r.addr, c⟩)) d = m.node d :=
    fun d hd => Function.update_of_ne hd _ _
  refine ⟨_, modify_ok ha f, Stands.join ?_ ⟨?_, ?_, ?_⟩ ?_, fun d hd => hother d ?_⟩
  · refine hctx.congr fun d hd => hother d ?_
    rintro rfl
    exact happart _ hd _ (mem_addrs_mk (s := .left).mpr (Or.inl rfl)) rfl
  · rw [← hf]
    exact Function.update_self _ _ _
  · refine hl.congr fun d hd => hother d ?_
    rintro rfl
    exact hperm.1 (List.mem_append_left _ hd)
  · refine hr.congr fun d hd => hother d ?_
    rintro rfl
    exact hperm.1 (List.mem_append_right _ hd)
  · rwa [hsame]
  · rintro rfl
    exact hd (mem_addrs_fill.mpr (Or.inr (mem_addrs_mk (s := .left).mpr (Or.inl rfl))))

theorem paint_ok (h : Stands m (fill ctx t)) (ha : t.addr = some a) (c : Bool) :
    ∃ m', m.paint a c = .ok m' ∧ Stands m' (fill ctx (t.paint c)) ∧
      Outside (fill ctx t) m m' := by
  cases t with
  | nil => exact absurd ha (by simp [NTree.addr])
  | node b k c' l r =>
    obtain rfl : b = a := Option.some.inj ha
    exact modify_root_ok (fun n => { n with red := c }) h rfl

theorem blacken_ok (h : Stands m (fill ctx t)) :
    ∃ m', m.blacken t.addr = .ok m' ∧ Stands m' (fill ctx (t.paint false)) ∧
      Outside (fill ctx t) m m' := by
  cases ha : t.addr with
  | none =>
    rw [addr_eq_none.mp ha] at h ⊢
    exact ⟨m, rfl, h, fun _ _ => rfl⟩
  | some a => exact paint_ok h ha false

theorem isRed_ok (h : Holds m.node t) : m.isRed t.addr = .ok t.isRed := by
  cases t with
  | nil => rfl
  | node a k c l r =>
    rw [NTree.addr, Mem.isRed, load_ok h.1]
    rfl

theorem Outside.refl (t : NTree κ) (m : Mem κ) : Outside t m m := fun _ _ => rfl

theorem Outside.trans {m'' : Mem κ} (h : Outside t m m') (h' : Outside t' m' m'')
    (hsame : t'.addrs.Perm t.addrs) : Outside t m m'' := by
  intro a ha
  rw [h' a (fun hmem => ha (hsame.mem_iff.mp hmem)), h a ha]

theorem addrs_fill_perm (ctx : List (Frame κ)) (h : t'.addrs.Perm t.addrs) :
    (fill ctx t').addrs.Perm (fill ctx t).addrs :=
  (addrs_fill ctx t').trans ((h.append_left _).trans (addrs_fill ctx t).symm)

theorem hang_ok {m₀ : Mem κ} (h : Stands m₀ (fill ctx t)) (hroot : m.root = m₀.root)
    (hrest : ∀ b, b ∉ t.addrs → m.node b = m₀.node b) (ht' : Holds m.node t')
    (hperm : t'.addrs.Perm t.addrs) :
    ∃ m', m.set (locOf ctx) t'.addr = .ok m' ∧ Stands m' (fill ctx t') ∧
      Outside (fill ctx t) m₀ m' := by
  obtain ⟨hctx, -, hnodup⟩ := h.split
  obtain ⟨hnctx, -, happart⟩ := List.nodup_append.mp hnodup
  have hctx' : CtxHolds m.node m.root t.addr ctx := by
    rw [hroot]
    exact hctx.congr fun b hb => hrest b fun hmem => happart b hb b hmem rfl
  obtain ⟨m', hm', hctx'', hkeep⟩ := set_locOf hctx' hnctx t'.addr
  refine ⟨m', hm', Stands.join hctx'' ?_ ?_, fun b hb => ?_⟩
  · refine ht'.congr fun b hb => hkeep b fun hmem => ?_
    exact happart b hmem b (hperm.mem_iff.mp hb) rfl
  · exact (hperm.append_left _).nodup_iff.mpr hnodup
  · rw [mem_addrs_fill, not_or] at hb
    rw [hkeep b hb.1, hrest b hb.2]

end Memory

end Mintlib.Tsearch
