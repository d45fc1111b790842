import Mathlib.Data.Finset.Card
import Mathlib.Data.Finset.Image
import Mathlib.Tactic

/-!
# Tables with open addressing

A key is looked for at one place after the other, until it is met or a place is free. The places of a
key are all different, and together they are all places of the table.
-/

namespace Mintlib

/-- The places `slots` of a table, and where a key is looked for at the `j`th try. -/
structure Probing (K : Type*) where
  slots : Finset ℕ
  place : K → ℕ → ℕ
  mem : ∀ k j, j < slots.card → place k j ∈ slots
  inj : ∀ k i j, i < slots.card → j < slots.card → place k i = place k j → i = j

namespace Probing

abbrev Table (K V : Type*) := ℕ → Option (K × V)

inductive Outcome
  | found (i : ℕ)
  | free (i : ℕ)
  | full
deriving DecidableEq

variable {K V : Type*} [DecidableEq K] {P : Probing K} {T : Table K V} {k : K} {v : V} {i : ℕ}

/-- The search from the `j`th try on, with so many tries left. -/
def lookFrom (P : Probing K) (T : Table K V) (k : K) : ℕ → ℕ → Outcome
  | 0, _ => .full
  | left + 1, j =>
    match T (P.place k j) with
    | none => .free (P.place k j)
    | some (k', _) => if k' = k then .found (P.place k j) else lookFrom P T k left (j + 1)

def look (P : Probing K) (T : Table K V) (k : K) : Outcome := P.lookFrom T k P.slots.card 0

def Other (T : Table K V) (k : K) (i : ℕ) : Prop := ∃ k' v, T i = some (k', v) ∧ k' ≠ k

/-- The place of the `j`th try, and other keys at the places of the tries before. -/
structure Met (P : Probing K) (T : Table K V) (k : K) (j i : ℕ) : Prop where
  lt : j < P.slots.card
  place : P.place k j = i
  before : ∀ j' < j, Other T k (P.place k j')

def Reached (P : Probing K) (T : Table K V) : Prop :=
  ∀ i k v, T i = some (k, v) → ∃ j, P.Met T k j i

section Look

omit [DecidableEq K] in
theorem not_other_none (h : T i = none) : ¬ Other T k i := by
  rintro ⟨k', v, hsome, -⟩
  rw [h] at hsome
  exact absurd hsome (by simp)

omit [DecidableEq K] in
theorem not_other_self (h : T i = some (k, v)) : ¬ Other T k i := by
  rintro ⟨k', v', hsome, hne⟩
  rw [h] at hsome
  exact hne (congrArg Prod.fst (Option.some.inj hsome)).symm

omit [DecidableEq K] in
/-- The first place of a key that another does not stand at is the only one that is met so. -/
theorem Met.unique {j j' i' : ℕ} (h : P.Met T k j i) (h' : P.Met T k j' i')
    (hi : ¬ Other T k i) (hi' : ¬ Other T k i') : j = j' ∧ i = i' := by
  have hj : j = j' := by
    rcases Nat.lt_trichotomy j j' with hlt | heq | hlt
    · have hbefore := h'.before j hlt
      rw [h.place] at hbefore
      exact absurd hbefore hi
    · exact heq
    · have hbefore := h.before j' hlt
      rw [h'.place] at hbefore
      exact absurd hbefore hi'
  refine ⟨hj, ?_⟩
  rw [← h.place, ← h'.place, hj]

omit [DecidableEq K] in
theorem Reached.unique {i' : ℕ} {v' : V} (h : P.Reached T) (hi : T i = some (k, v))
    (hi' : T i' = some (k, v')) : i = i' := by
  obtain ⟨j, hj⟩ := h i k v hi
  obtain ⟨j', hj'⟩ := h i' k v' hi'
  exact (hj.unique hj' (not_other_self hi) (not_other_self hi')).2

theorem lookFrom_spec {left j : ℕ} (hcount : j + left = P.slots.card)
    (hbefore : ∀ j' < j, Other T k (P.place k j')) :
    match P.lookFrom T k left j with
    | .found i => (∃ v, T i = some (k, v)) ∧ ∃ j, P.Met T k j i
    | .free i => T i = none ∧ ∃ j, P.Met T k j i
    | .full => ∀ j < P.slots.card, Other T k (P.place k j) := by
  induction left generalizing j with
  | zero =>
    rw [Nat.add_zero] at hcount
    rw [lookFrom, ← hcount]
    exact hbefore
  | succ left ih =>
    have hlt : j < P.slots.card := by omega
    rw [lookFrom]
    cases hT : T (P.place k j) with
    | none => exact ⟨hT, j, hlt, rfl, hbefore⟩
    | some e =>
      obtain ⟨k', v⟩ := e
      dsimp only
      by_cases hk : k' = k
      · rw [if_pos hk]
        rw [hk] at hT
        exact ⟨⟨v, hT⟩, j, hlt, rfl, hbefore⟩
      · rw [if_neg hk]
        refine ih (by omega) fun j' hj' => ?_
        rcases Nat.lt_succ_iff_lt_or_eq.mp hj' with hless | rfl
        · exact hbefore j' hless
        · exact ⟨k', v, hT, hk⟩

theorem look_spec (P : Probing K) (T : Table K V) (k : K) :
    match P.look T k with
    | .found i => (∃ v, T i = some (k, v)) ∧ ∃ j, P.Met T k j i
    | .free i => T i = none ∧ ∃ j, P.Met T k j i
    | .full => ∀ j < P.slots.card, Other T k (P.place k j) :=
  lookFrom_spec (Nat.zero_add _) fun _ h => absurd h (Nat.not_lt_zero _)

theorem look_found (h : P.look T k = .found i) : ∃ v, T i = some (k, v) := by
  have hspec := look_spec P T k
  rw [h] at hspec
  exact hspec.1

theorem look_free (h : P.look T k = .free i) : T i = none ∧ ∃ j, P.Met T k j i := by
  have hspec := look_spec P T k
  rw [h] at hspec
  exact hspec

theorem look_full (h : P.look T k = .full) : ∀ j < P.slots.card, Other T k (P.place k j) := by
  have hspec := look_spec P T k
  rw [h] at hspec
  exact hspec

theorem Reached.look (h : P.Reached T) (hi : T i = some (k, v)) : P.look T k = .found i := by
  obtain ⟨j, hj⟩ := h i k v hi
  have hspec := look_spec P T k
  cases hlook : P.look T k with
  | found i' =>
    rw [hlook] at hspec
    obtain ⟨⟨v', hv'⟩, -⟩ := hspec
    rw [h.unique hi hv']
  | free i' =>
    rw [hlook] at hspec
    obtain ⟨hnone, j', hj'⟩ := hspec
    have hsame := hj.unique hj' (not_other_self hi) (not_other_none hnone)
    rw [← hsame.2, hi] at hnone
    exact absurd hnone (by simp)
  | full =>
    rw [hlook] at hspec
    have hother := hspec j hj.lt
    rw [hj.place] at hother
    exact absurd hother (not_other_self hi)

end Look

section Store

omit [DecidableEq K] in
theorem other_update {e : K × V} {i' : ℕ} (h : Other T k i') (hne : i' ≠ i) :
    Other (Function.update T i (some e)) k i' := by
  rw [Other, Function.update_of_ne hne]
  exact h

theorem Reached.insert (h : P.Reached T) (hlook : P.look T k = .free i) (v : V) :
    P.Reached (Function.update T i (some (k, v))) := by
  obtain ⟨hnone, j, hj⟩ := look_free hlook
  have hkeep : ∀ {k' : K} {i' : ℕ}, Other T k' i' →
      Other (Function.update T i (some (k, v))) k' i' := by
    intro k' i' hother
    refine other_update hother fun heq => ?_
    rw [heq] at hother
    exact not_other_none hnone hother
  intro i' k' v' hi'
  by_cases heq : i' = i
  · rw [heq, Function.update_self] at hi'
    have hk : k = k' := congrArg Prod.fst (Option.some.inj hi')
    rw [heq, ← hk]
    exact ⟨j, hj.lt, hj.place, fun j' hj' => hkeep (hj.before j' hj')⟩
  · rw [Function.update_of_ne heq] at hi'
    obtain ⟨j', hj'⟩ := h i' k' v' hi'
    exact ⟨j', hj'.lt, hj'.place, fun l hl => hkeep (hj'.before l hl)⟩

omit [DecidableEq K] in
theorem Reached.replace (h : P.Reached T) (hi : T i = some (k, v)) (v' : V) :
    P.Reached (Function.update T i (some (k, v'))) := by
  have hkeep : ∀ {k' : K} {i' : ℕ}, Other T k' i' →
      Other (Function.update T i (some (k, v'))) k' i' := by
    intro k' i' hother
    by_cases heq : i' = i
    · rw [heq] at hother ⊢
      obtain ⟨k'', v'', hsome, hne⟩ := hother
      rw [hi] at hsome
      have hk : k = k'' := congrArg Prod.fst (Option.some.inj hsome)
      rw [Other, Function.update_self]
      exact ⟨k, v', rfl, by rwa [hk]⟩
    · exact other_update hother heq
  intro i' k' w hi'
  by_cases heq : i' = i
  · rw [heq, Function.update_self] at hi'
    have hk : k = k' := congrArg Prod.fst (Option.some.inj hi')
    obtain ⟨j, hj⟩ := h i k v hi
    rw [heq, ← hk]
    exact ⟨j, hj.lt, hj.place, fun j' hj' => hkeep (hj.before j' hj')⟩
  · rw [Function.update_of_ne heq] at hi'
    obtain ⟨j', hj'⟩ := h i' k' w hi'
    exact ⟨j', hj'.lt, hj'.place, fun l hl => hkeep (hj'.before l hl)⟩

end Store

section Occupied

def occupied (P : Probing K) (T : Table K V) : Finset ℕ := P.slots.filter fun i => (T i).isSome

omit [DecidableEq K] in
theorem image_place (P : Probing K) (k : K) :
    (Finset.range P.slots.card).image (P.place k) = P.slots := by
  have hinj : Set.InjOn (P.place k) (Finset.range P.slots.card) := by
    intro i hi j hj heq
    exact P.inj k i j (Finset.mem_range.mp hi) (Finset.mem_range.mp hj) heq
  refine Finset.eq_of_subset_of_card_le ?_ ?_
  · intro i hi
    obtain ⟨j, hj, rfl⟩ := Finset.mem_image.mp hi
    exact P.mem k j (Finset.mem_range.mp hj)
  · rw [Finset.card_image_of_injOn hinj, Finset.card_range]

theorem card_of_full (h : P.look T k = .full) : (P.occupied T).card = P.slots.card := by
  have hall := look_full h
  have hsame : P.occupied T = P.slots := by
    refine Finset.filter_true_of_mem fun i hi => ?_
    rw [← P.image_place k] at hi
    obtain ⟨j, hj, rfl⟩ := Finset.mem_image.mp hi
    obtain ⟨k', v, hsome, -⟩ := hall j (Finset.mem_range.mp hj)
    rw [hsome]
    rfl
  rw [hsame]

theorem free_mem (h : P.look T k = .free i) : i ∈ P.slots ∧ i ∉ P.occupied T := by
  obtain ⟨hnone, j, hj⟩ := look_free h
  refine ⟨?_, fun hmem => ?_⟩
  · rw [← hj.place]
    exact P.mem k j hj.lt
  · have hsome := (Finset.mem_filter.mp hmem).2
    rw [hnone] at hsome
    exact absurd hsome (by simp)

theorem card_of_free (h : P.look T k = .free i) : (P.occupied T).card < P.slots.card := by
  obtain ⟨hmem, hout⟩ := free_mem h
  refine Finset.card_lt_card ((Finset.filter_subset _ _).ssubset_of_ne fun heq => ?_)
  rw [occupied, heq] at hout
  exact hout hmem

theorem card_insert (h : P.look T k = .free i) (e : K × V) :
    (P.occupied (Function.update T i (some e))).card = (P.occupied T).card + 1 := by
  obtain ⟨hmem, hout⟩ := free_mem h
  have hsame : P.occupied (Function.update T i (some e)) = insert i (P.occupied T) := by
    ext l
    rw [Finset.mem_insert, occupied, occupied, Finset.mem_filter, Finset.mem_filter]
    by_cases heq : l = i
    · rw [heq, Function.update_self]
      simp [hmem]
    · rw [Function.update_of_ne heq]
      simp [heq]
  rw [hsame, Finset.card_insert_of_notMem hout]

omit [DecidableEq K] in
theorem card_replace (hi : T i = some (k, v)) (e : K × V) :
    (P.occupied (Function.update T i (some e))).card = (P.occupied T).card := by
  have hsame : P.occupied (Function.update T i (some e)) = P.occupied T := by
    ext l
    rw [occupied, occupied, Finset.mem_filter, Finset.mem_filter]
    by_cases heq : l = i
    · rw [heq, Function.update_self, hi]
      simp
    · rw [Function.update_of_ne heq]
  rw [hsame]

end Occupied

end Probing

end Mintlib
