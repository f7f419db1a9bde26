import RcppRedis.Lib.KeyedLists
import Mathlib.Data.Finset.Sort
import Mathlib.Data.Prod.Lex

/-!
# Sorted sets

A sorted set has members, each with a score.  They are listed by score, and where scores are
equal by an order of the members themselves.  `Action` has what a store of sorted sets does
with one of them.

`ofScores f S` has the members `S`, with scores that a function `f` of the member gives.  A set
that is built with such scores only is of this form.

* `add_ofScores`, `select_ofScores` — the actions keep the form.
* `pairwise_list_iff` — when the list is in the order of another score.
-/

/-- Members with scores, no member twice. -/
structure SortedSet (K α : Type) where
  entries : Finset (K ×ₗ α)
  unique : ∀ e ∈ entries, ∀ e' ∈ entries, (ofLex e).2 = (ofLex e').2 → e = e'

namespace SortedSet

@[ext] theorem ext {K α : Type} {s t : SortedSet K α} (h : s.entries = t.entries) : s = t := by
  cases s
  cases t
  congr

/-- No members. -/
def empty {K α : Type} : SortedSet K α := ⟨∅, by simp⟩

variable {K L α : Type} [LinearOrder K] [LinearOrder L] [LinearOrder α]

/-! ## Operations -/

/-- The members, by their scores. -/
def list (s : SortedSet K α) : List α := s.entries.sort.map fun e => (ofLex e).2

/-- How many members there are. -/
def card (s : SortedSet K α) : ℕ := s.entries.card

@[simp] theorem length_list (s : SortedSet K α) : s.list.length = s.card := by
  rw [list, List.length_map, Finset.length_sort, card]

/-- The members whose scores have a property. -/
def select (p : K → Prop) [DecidablePred p] (s : SortedSet K α) : SortedSet K α :=
  ⟨s.entries.filter fun e => p (ofLex e).1, fun e he e' he' =>
    s.unique e (Finset.mem_of_mem_filter e he) e' (Finset.mem_of_mem_filter e' he')⟩

/-- The set without a member. -/
def erase (x : α) (s : SortedSet K α) : SortedSet K α :=
  ⟨s.entries.filter fun e => (ofLex e).2 ≠ x, fun e he e' he' =>
    s.unique e (Finset.mem_of_mem_filter e he) e' (Finset.mem_of_mem_filter e' he')⟩

/-- Give a member a score. -/
def add (score : K) (x : α) (s : SortedSet K α) : SortedSet K α where
  entries := insert (toLex (score, x)) (s.erase x).entries
  unique := by
    have hne : ∀ e ∈ (s.erase x).entries, (ofLex e).2 ≠ x := fun e he =>
      (Finset.mem_filter.mp he).2
    simp only [Finset.forall_mem_insert]
    refine ⟨⟨fun _ => trivial, fun e he h => absurd h.symm (hne e he)⟩, fun e he => ⟨fun h =>
      absurd h (hne e he), fun e' he' => (s.erase x).unique e he e' he'⟩⟩

/-! ## Actions -/

/-- What is done with one sorted set. -/
inductive Action (K α : Type) where
  | add (score : K) (x : α)
  | range (start stop : ℤ)
  | between (lo hi : K)
  | count (lo hi : K)
  | remove (lo hi : K)
  | card

/-- What an action answers. -/
inductive Answer (α : Type) where
  | count (n : ℕ)
  | elements (l : List α)

/-- The answer of an action, and the set after it. -/
def Action.run : Action K α → SortedSet K α → Answer α × SortedSet K α
  | add score x, s => (.count (if (s.erase x).card = s.card then 1 else 0), s.add score x)
  | range start stop, s => (.elements (KeyedLists.slice start stop s.list), s)
  | between lo hi, s => (.elements (s.select fun k => lo ≤ k ∧ k ≤ hi).list, s)
  | count lo hi, s => (.count (s.select fun k => lo ≤ k ∧ k ≤ hi).card, s)
  | remove lo hi, s =>
      (.count (s.select fun k => lo ≤ k ∧ k ≤ hi).card, s.select fun k => ¬ (lo ≤ k ∧ k ≤ hi))
  | card, s => (.count s.card, s)

/-! ## Scores that the member gives -/

/-- The members `S`, with the scores that `f` gives. -/
def ofScores (f : α → K) (S : Finset α) : SortedSet K α where
  entries := S.image fun x => toLex (f x, x)
  unique := by
    intro e he e' he' h
    obtain ⟨x, -, rfl⟩ := Finset.mem_image.mp he
    obtain ⟨x', -, rfl⟩ := Finset.mem_image.mp he'
    have hx : x = x' := h
    rw [hx]

variable {f : α → K} {S : Finset α}

@[simp] theorem ofScores_empty : ofScores f ∅ = empty := rfl

theorem mem_ofScores {e : K ×ₗ α} :
    e ∈ (ofScores f S).entries ↔ (ofLex e).2 ∈ S ∧ e = toLex (f (ofLex e).2, (ofLex e).2) := by
  constructor
  · intro he
    obtain ⟨x, hx, rfl⟩ := Finset.mem_image.mp he
    exact ⟨hx, rfl⟩
  · rintro ⟨hx, he⟩
    rw [he]
    exact Finset.mem_image_of_mem _ hx

@[simp] theorem card_ofScores : (ofScores f S).card = S.card :=
  Finset.card_image_of_injective S fun _ _ h => congrArg (fun e : K ×ₗ α => (ofLex e).2) h

theorem select_ofScores (p : K → Prop) [DecidablePred p] :
    (ofScores f S).select p = ofScores f (S.filter fun x => p (f x)) := by
  ext e
  rw [select, Finset.mem_filter, mem_ofScores, mem_ofScores, Finset.mem_filter]
  constructor
  · rintro ⟨⟨hx, he⟩, hp⟩
    rw [he] at hp
    exact ⟨⟨hx, hp⟩, he⟩
  · rintro ⟨⟨hx, hp⟩, he⟩
    refine ⟨⟨hx, he⟩, ?_⟩
    rw [he]
    exact hp

theorem erase_ofScores (x : α) : (ofScores f S).erase x = ofScores f (S.erase x) := by
  ext e
  rw [erase, Finset.mem_filter, mem_ofScores, mem_ofScores, Finset.mem_erase]
  constructor
  · rintro ⟨⟨hx, he⟩, hne⟩
    exact ⟨⟨hne, hx⟩, he⟩
  · rintro ⟨⟨hne, hx⟩, he⟩
    exact ⟨⟨hx, he⟩, hne⟩

/-- A member is added with the score that it gives. -/
theorem add_ofScores (x : α) : (ofScores f S).add (f x) x = ofScores f (insert x S) := by
  ext e
  rw [add, Finset.mem_insert, erase, Finset.mem_filter, mem_ofScores, mem_ofScores,
    Finset.mem_insert]
  constructor
  · rintro (rfl | ⟨⟨hx, he⟩, -⟩)
    · exact ⟨.inl rfl, rfl⟩
    · exact ⟨.inr hx, he⟩
  · rintro ⟨hx, he⟩
    by_cases hex : (ofLex e).2 = x
    · rw [hex] at he
      exact .inl he
    · exact .inr ⟨⟨hx.resolve_left hex, he⟩, hex⟩

/-- Adding a member counts it unless it was there. -/
theorem run_add_ofScores (x : α) : (Action.add (f x) x).run (ofScores f S) =
    (.count (if x ∈ S then 0 else 1), ofScores f (insert x S)) := by
  rw [Action.run, add_ofScores, erase_ofScores, card_ofScores, card_ofScores]
  by_cases hx : x ∈ S
  · have hlt := Finset.card_erase_lt_of_mem hx
    rw [if_neg hlt.ne, if_pos hx]
  · rw [Finset.erase_eq_of_notMem hx, if_pos rfl, if_neg hx]

/-! ## The list -/

@[simp] theorem mem_list_ofScores {x : α} : x ∈ (ofScores f S).list ↔ x ∈ S := by
  rw [list, List.mem_map]
  constructor
  · rintro ⟨e, he, rfl⟩
    exact (mem_ofScores.mp ((Finset.mem_sort _).mp he)).1
  · intro hx
    exact ⟨toLex (f x, x), (Finset.mem_sort _).mpr (mem_ofScores.mpr ⟨hx, rfl⟩), rfl⟩

/-- The members are in strict order of their scores and themselves. -/
theorem pairwise_list_ofScores :
    (ofScores f S).list.Pairwise fun x y => toLex (f x, x) < toLex (f y, y) := by
  rw [list, List.pairwise_map]
  refine (Finset.sortedLT_sort (ofScores f S).entries).pairwise.imp_of_mem
    fun {e e'} he he' h => ?_
  rw [Finset.mem_sort, mem_ofScores] at he he'
  rwa [← he.2, ← he'.2]

theorem nodup_list_ofScores : (ofScores f S).list.Nodup :=
  pairwise_list_ofScores.imp fun h heq => h.ne (by rw [heq])

/-- **The list is in the order of another score** exactly when a greater such score is listed
later. -/
theorem pairwise_list_iff (g : α → L) :
    (ofScores f S).list.Pairwise (fun x y => g x ≤ g y) ↔
      ∀ x ∈ S, ∀ y ∈ S, g x < g y → f x ≤ f y ∧ (f x = f y → x < y) := by
  have hlist := pairwise_list_ofScores (f := f) (S := S)
  constructor
  · intro hg x hx y hy hxy
    have hforward : (ofScores f S).list.Pairwise fun x y =>
        g x < g y → toLex (f x, x) < toLex (f y, y) := by
      refine hlist.imp ?_
      intro x y h _
      exact h
    have hbackward : (ofScores f S).list.Pairwise (flip fun x y =>
        g x < g y → toLex (f x, x) < toLex (f y, y)) := hg.imp fun h hlt => absurd h hlt.not_ge
    have hall := List.Pairwise.forall_of_forall_of_flip
      (fun x _ (h : g x < g x) => absurd h (lt_irrefl _)) hforward hbackward
    exact Prod.Lex.toLex_lt_toLex'.mp
      (hall (mem_list_ofScores.mpr hx) (mem_list_ofScores.mpr hy) hxy)
  · intro h
    refine hlist.imp_of_mem fun {x y} hx hy hlt => ?_
    by_contra! hyx
    have hback := h y (mem_list_ofScores.mp hy) x (mem_list_ofScores.mp hx) hyx
    exact lt_asymm hlt (Prod.Lex.toLex_lt_toLex'.mpr hback)

end SortedSet
