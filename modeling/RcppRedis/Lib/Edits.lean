import Mathlib.Data.Finset.Lattice.Lemmas
import Mathlib.Data.Finset.SDiff
import Mathlib.Data.Finset.Dedup

/-!
# Sets that are edited

A sequence of edits adds finite sets of elements to a set and removes others from it.  An
element is in the set at the end if the last edit that names it adds it.

* `mem_run` — what is there at the end was there at the start, or was added.
* `run_eq_union_named_iff` — when the removals have no effect on the result.
-/

namespace Edits

variable {α : Type} [DecidableEq α]

/-- An edit of a set. -/
inductive Edit (α : Type) where
  | add (s : Finset α)
  | remove (s : Finset α)

namespace Edit

/-- The set after an edit. -/
def apply : Edit α → Finset α → Finset α
  | add s, t => t ∪ s
  | remove s, t => t \ s

/-- The elements that an edit names. -/
def named : Edit α → Finset α
  | add s => s
  | remove s => s

end Edit

/-- The set after a sequence of edits. -/
def run (edits : List (Edit α)) (t : Finset α) : Finset α :=
  edits.foldl (fun t e => e.apply t) t

/-- The elements that a sequence of edits names. -/
def named (edits : List (Edit α)) : Finset α := edits.foldr (fun e s => e.named ∪ s) ∅

@[simp] theorem run_nil (t : Finset α) : run [] t = t := rfl
@[simp] theorem run_cons (e : Edit α) (edits : List (Edit α)) (t : Finset α) :
    run (e :: edits) t = run edits (e.apply t) := rfl
@[simp] theorem named_nil : named ([] : List (Edit α)) = ∅ := rfl
@[simp] theorem named_cons (e : Edit α) (edits : List (Edit α)) :
    named (e :: edits) = e.named ∪ named edits := rfl

/-- An element of the result was there before, or was added. -/
theorem mem_run {edits : List (Edit α)} {t : Finset α} {a : α} (h : a ∈ run edits t) :
    a ∈ t ∨ ∃ s, .add s ∈ edits ∧ a ∈ s := by
  induction edits generalizing t with
  | nil => exact .inl h
  | cons e edits ih =>
      rcases ih h with ha | ⟨s, hs, ha⟩
      · cases e with
        | add s =>
            rcases Finset.mem_union.mp ha with ha | ha
            · exact .inl ha
            · exact .inr ⟨s, List.mem_cons_self, ha⟩
        | remove s => exact .inl (Finset.mem_sdiff.mp ha).1
      · exact .inr ⟨s, List.mem_cons_of_mem _ hs, ha⟩

theorem mem_named_of_add {edits : List (Edit α)} {s : Finset α} (hs : .add s ∈ edits) {a : α}
    (ha : a ∈ s) : a ∈ named edits := by
  induction edits with
  | nil => cases hs
  | cons e edits ih =>
      rw [named_cons, Finset.mem_union]
      rcases List.mem_cons.mp hs with rfl | hs
      · exact .inl ha
      · exact .inr (ih hs)

theorem named_eq_empty_iff (edits : List (Edit α)) :
    named edits = ∅ ↔ ∀ e ∈ edits, e.named = ∅ := by
  induction edits with
  | nil => simp
  | cons e edits ih => rw [named_cons, Finset.union_eq_empty, ih, List.forall_mem_cons]

theorem run_subset (edits : List (Edit α)) (t : Finset α) : run edits t ⊆ t ∪ named edits := by
  intro a ha
  rcases mem_run ha with ha | ⟨s, hs, ha⟩
  · exact Finset.mem_union_left _ ha
  · exact Finset.mem_union_right _ (mem_named_of_add hs ha)

/-- Every element that is removed is added again afterwards. -/
def Restored : List (Edit α) → Prop
  | [] => True
  | .add _ :: edits => Restored edits
  | .remove s :: edits => (∀ a ∈ s, ∃ t, .add t ∈ edits ∧ a ∈ t) ∧ Restored edits

/-- **When removals leave no trace**: the result holds all that was ever named exactly when
whatever is removed is added again later. -/
theorem run_eq_union_named_iff (edits : List (Edit α)) (t : Finset α) :
    run edits t = t ∪ named edits ↔ Restored edits := by
  induction edits generalizing t with
  | nil => simp [Restored]
  | cons e edits ih =>
      cases e with
      | add s =>
          rw [run_cons, named_cons, Edit.apply, Edit.named, ← Finset.union_assoc]
          exact ih (t ∪ s)
      | remove s =>
          rw [run_cons, named_cons, Edit.apply, Edit.named, Restored, ← ih (t \ s)]
          constructor
          · intro h
            refine ⟨fun a ha => ?_, ?_⟩
            · have hrun : a ∈ run edits (t \ s) := by simp [h, ha]
              rcases mem_run hrun with hold | hadd
              · exact absurd ha (Finset.mem_sdiff.mp hold).2
              · exact hadd
            · refine (run_subset _ _).antisymm ?_
              rw [h]
              exact Finset.union_subset_union Finset.sdiff_subset Finset.subset_union_right
          · rintro ⟨hadded, h⟩
            have hs : s ⊆ named edits := by
              intro a ha
              obtain ⟨u, hu, hau⟩ := hadded a ha
              exact mem_named_of_add hu hau
            rw [h]
            ext a
            by_cases ha : a ∈ s
            · simp [ha, hs ha]
            · simp [ha]

end Edits
