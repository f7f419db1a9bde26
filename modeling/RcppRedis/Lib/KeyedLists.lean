import Mathlib.Data.Set.Function
import Mathlib.Data.List.Basic
import Mathlib.Logic.Function.Basic

/-!
# Lists under keys

A store of lists, one under each key.  A key under which nothing is stored has the empty
list, so a list that becomes empty is an absent key.  `Op` has the operations of a list
store: push and pop at both ends, read and trim a range, remove equal elements, move an
element to another list.

An index counts from the end where it is negative, and a range is cut to the list.

* `run_map` — a store of encodings does what the store of the elements does, if the
  encoding is injective on the elements in use.
* `Op.within_run` — the elements in use stay the same.
-/

namespace KeyedLists

/-- An end of a list. -/
inductive Side where
  | left
  | right
  deriving DecidableEq, Repr

/-- The lists under all keys. -/
abbrev Store (K α : Type) : Type := K → List α

variable {K L α β : Type}

/-! ## One list -/

/-- Add an element at an end. -/
def push : Side → α → List α → List α
  | .left, x, l => x :: l
  | .right, x, l => l ++ [x]

/-- The element at an end. -/
def front : Side → List α → Option α
  | .left, l => l.head?
  | .right, l => l.getLast?

/-- The list without the element at an end. -/
def rest : Side → List α → List α
  | .left, l => l.tail
  | .right, l => l.dropLast

/-- A negative index counts from the end. -/
def fromEnd (n : ℕ) (i : ℤ) : ℤ := if i < 0 then n + i else i

/-- The elements from one index to another, both included. -/
def slice (start stop : ℤ) (l : List α) : List α :=
  (l.take (fromEnd l.length stop + 1).toNat).drop (fromEnd l.length start).toNat

/-- Remove the first `n` elements that are equal to `x`. -/
def removeFirst [DecidableEq α] (x : α) : ℕ → List α → List α
  | 0, l => l
  | _ + 1, [] => []
  | n + 1, y :: l => if y = x then removeFirst x n l else y :: removeFirst x (n + 1) l

/-- Remove the first `count` elements that are equal to `x`; the last ones where `count` is
negative, and all where it is zero. -/
def remove [DecidableEq α] (count : ℤ) (x : α) (l : List α) : List α :=
  if 0 < count then removeFirst x count.natAbs l
  else if count < 0 then (removeFirst x count.natAbs l.reverse).reverse
  else l.filter (· ≠ x)

/-! ## Operations -/

/-- An operation of the store. -/
inductive Op (K α : Type) where
  | push (side : Side) (key : K) (x : α)
  | pop (side : Side) (key : K)
  | range (key : K) (start stop : ℤ)
  | trim (key : K) (start stop : ℤ)
  | remove (key : K) (count : ℤ) (x : α)
  | move (src dest : K) (wherefrom whereto : Side)
  | length (key : K)

/-- What an operation answers. -/
inductive Answer (α : Type) where
  | count (n : ℕ)
  | element (x : Option α)
  | elements (l : List α)
  | done

namespace Answer

/-- The answer about encoded elements. -/
def map (g : α → β) : Answer α → Answer β
  | count n => count n
  | element x => element (x.map g)
  | elements l => elements (l.map g)
  | done => done

/-- All elements of the answer are in a set. -/
def Within (S : Set α) : Answer α → Prop
  | element x => ∀ y ∈ x, y ∈ S
  | elements l => ∀ y ∈ l, y ∈ S
  | _ => True

end Answer

namespace Store

/-- The store of the encoded elements. -/
def map (g : α → β) (m : Store K α) : Store K β := fun k => (m k).map g

/-- All elements of the store are in a set. -/
def Within (S : Set α) (m : Store K α) : Prop := ∀ k, ∀ x ∈ m k, x ∈ S

@[simp] theorem map_apply (g : α → β) (m : Store K α) (k : K) : m.map g k = (m k).map g := rfl

theorem map_update [DecidableEq K] (g : α → β) (m : Store K α) (k : K) (l : List α) :
    Store.map g (Function.update m k l) = Function.update (m.map g) k (l.map g) := by
  funext k'
  by_cases h : k' = k
  · subst h
    simp
  · simp [h]

theorem Within.update [DecidableEq K] {S : Set α} {m : Store K α} (h : m.Within S) {k : K}
    {l : List α} (hl : ∀ x ∈ l, x ∈ S) : Within S (Function.update m k l) := by
  intro k' x hx
  by_cases hk : k' = k
  · subst hk
    rw [Function.update_self] at hx
    exact hl x hx
  · rw [Function.update_of_ne hk] at hx
    exact h k' x hx

end Store

namespace Op

/-- The operation on other keys. -/
def mapKeys (f : K → L) : Op K α → Op L α
  | push side key x => push side (f key) x
  | pop side key => pop side (f key)
  | range key start stop => range (f key) start stop
  | trim key start stop => trim (f key) start stop
  | remove key count x => remove (f key) count x
  | move src dest wherefrom whereto => move (f src) (f dest) wherefrom whereto
  | length key => length (f key)

/-- The operation on encoded elements. -/
def map (g : α → β) : Op K α → Op K β
  | push side key x => push side key (g x)
  | pop side key => pop side key
  | range key start stop => range key start stop
  | trim key start stop => trim key start stop
  | remove key count x => remove key count (g x)
  | move src dest wherefrom whereto => move src dest wherefrom whereto
  | length key => length key

/-- The element that an operation is given. -/
def argument : Op K α → Option α
  | push _ _ x => some x
  | remove _ _ x => some x
  | _ => none

/-- The operation's element is in a set. -/
def Within (S : Set α) (op : Op K α) : Prop := ∀ x ∈ op.argument, x ∈ S

variable [DecidableEq K] [DecidableEq α]

/-- The answer of an operation, and the store after it.  A move takes its element out before it
puts it in, which matters where source and destination are the same. -/
def run : Op K α → Store K α → Answer α × Store K α
  | push side key x, m =>
      (.count (m key).length.succ, Function.update m key (KeyedLists.push side x (m key)))
  | pop side key, m =>
      (.element (front side (m key)), Function.update m key (rest side (m key)))
  | range key start stop, m => (.elements (slice start stop (m key)), m)
  | trim key start stop, m => (.done, Function.update m key (slice start stop (m key)))
  | remove key count x, m =>
      (.count ((m key).length - (KeyedLists.remove count x (m key)).length),
        Function.update m key (KeyedLists.remove count x (m key)))
  | move src dest wherefrom whereto, m =>
      match front wherefrom (m src) with
      | none => (.element none, m)
      | some x =>
          let taken := Function.update m src (rest wherefrom (m src))
          (.element (some x),
            Function.update taken dest (KeyedLists.push whereto x (taken dest)))
  | length key, m => (.count (m key).length, m)

end Op

/-! ## Encoded elements -/

theorem map_push (g : α → β) (side : Side) (x : α) (l : List α) :
    (push side x l).map g = push side (g x) (l.map g) := by
  cases side <;> simp [push]

theorem map_front (g : α → β) (side : Side) (l : List α) :
    front side (l.map g) = (front side l).map g := by
  cases side <;> simp [front]

theorem map_rest (g : α → β) (side : Side) (l : List α) :
    (rest side l).map g = rest side (l.map g) := by
  cases side <;> simp [rest]

/-- From the first element to the last. -/
theorem slice_all (l : List α) : slice 0 (-1) l = l := by
  have hfirst : (fromEnd l.length 0).toNat = 0 := rfl
  have hlast : (fromEnd l.length (-1) + 1).toNat = l.length := by
    rw [fromEnd, if_pos (by decide)]
    omega
  rw [slice, hfirst, hlast, List.take_length, List.drop_zero]

theorem map_slice (g : α → β) (start stop : ℤ) (l : List α) :
    (slice start stop l).map g = slice start stop (l.map g) := by
  simp [slice]

section Remove

variable [DecidableEq α] [DecidableEq β] {g : α → β} {S : Set α}

theorem map_removeFirst (hg : S.InjOn g) {x : α} (hx : x ∈ S) (n : ℕ) {l : List α}
    (hl : ∀ y ∈ l, y ∈ S) : (removeFirst x n l).map g = removeFirst (g x) n (l.map g) := by
  induction l generalizing n with
  | nil => cases n <;> rfl
  | cons y l ih =>
      obtain ⟨hy, hl⟩ := List.forall_mem_cons.mp hl
      cases n with
      | zero => rfl
      | succ n =>
          rw [removeFirst, List.map_cons, removeFirst]
          by_cases hxy : y = x
          · rw [if_pos hxy, if_pos (congrArg g hxy), ih n hl]
          · rw [if_neg hxy, if_neg fun h => hxy (hg hy hx h), List.map_cons, ih (n + 1) hl]

theorem map_remove (hg : S.InjOn g) (count : ℤ) {x : α} (hx : x ∈ S) {l : List α}
    (hl : ∀ y ∈ l, y ∈ S) : (remove count x l).map g = remove count (g x) (l.map g) := by
  have hrev : ∀ y ∈ l.reverse, y ∈ S := fun y hy => hl y (List.mem_reverse.mp hy)
  rw [remove, remove]
  split_ifs
  · exact map_removeFirst hg hx _ hl
  · rw [List.map_reverse, map_removeFirst hg hx _ hrev, List.map_reverse]
  · rw [List.filter_map]
    refine congrArg (List.map g) (List.filter_congr fun y hy => ?_)
    have hiff : g y = g x ↔ y = x := hg.eq_iff (hl y hy) hx
    simp [hiff]

end Remove

/-- **The store of encodings does what the store does.** -/
theorem run_map [DecidableEq K] [DecidableEq α] [DecidableEq β] {g : α → β} {S : Set α}
    (hg : S.InjOn g) {op : Op K α} (hop : op.Within S) {m : Store K α} (hm : m.Within S) :
    (op.map g).run (m.map g) = ((op.run m).1.map g, (op.run m).2.map g) := by
  cases op with
  | push side key x => simp [Op.map, Op.run, Answer.map, Store.map_update, map_push]
  | pop side key => simp [Op.map, Op.run, Answer.map, Store.map_update, map_front, map_rest]
  | range key start stop => simp [Op.map, Op.run, Answer.map, map_slice]
  | trim key start stop => simp [Op.map, Op.run, Answer.map, Store.map_update, map_slice]
  | remove key count x =>
      have hmap := map_remove hg count (hop x rfl) (hm key)
      have hlen := congrArg List.length hmap
      rw [List.length_map] at hlen
      simp [Op.map, Op.run, Answer.map, Store.map_update, hmap, hlen]
  | move src dest wherefrom whereto =>
      simp only [Op.map, Op.run, Store.map_apply, map_front]
      cases front wherefrom (m src) with
      | none => rfl
      | some x =>
          have htaken := Store.map_update g m src (rest wherefrom (m src))
          rw [map_rest] at htaken
          simp only [Option.map_some, Answer.map, Store.map_update, map_push, map_rest]
          rw [← htaken, Store.map_apply]
  | length key => simp [Op.map, Op.run, Answer.map]

/-! ## The elements in use -/

theorem mem_of_mem_removeFirst [DecidableEq α] {x y : α} {n : ℕ} {l : List α}
    (h : y ∈ removeFirst x n l) : y ∈ l := by
  induction l generalizing n with
  | nil => cases n <;> exact h
  | cons z l ih =>
      cases n with
      | zero => exact h
      | succ n =>
          rw [removeFirst] at h
          split_ifs at h
          · exact List.mem_cons_of_mem z (ih h)
          · rcases List.mem_cons.mp h with rfl | h
            · exact List.mem_cons_self
            · exact List.mem_cons_of_mem z (ih h)

theorem mem_of_mem_remove [DecidableEq α] {x y : α} {count : ℤ} {l : List α}
    (h : y ∈ remove count x l) : y ∈ l := by
  rw [remove] at h
  split_ifs at h
  · exact mem_of_mem_removeFirst h
  · exact List.mem_reverse.mp (mem_of_mem_removeFirst (List.mem_reverse.mp h))
  · exact List.mem_of_mem_filter h

theorem mem_of_mem_slice {start stop : ℤ} {y : α} {l : List α} (h : y ∈ slice start stop l) :
    y ∈ l := List.mem_of_mem_take (List.mem_of_mem_drop h)

theorem mem_of_mem_rest {side : Side} {y : α} {l : List α} (h : y ∈ rest side l) : y ∈ l := by
  cases side with
  | left => exact List.mem_of_mem_tail h
  | right => exact (List.dropLast_sublist l).subset h

theorem mem_of_front {side : Side} {y : α} {l : List α} (h : y ∈ front side l) : y ∈ l := by
  cases side with
  | left => exact List.mem_of_mem_head? h
  | right => exact List.mem_of_mem_getLast? h

theorem mem_push_iff {side : Side} {x y : α} {l : List α} :
    y ∈ push side x l ↔ y = x ∨ y ∈ l := by
  cases side with
  | left => exact List.mem_cons
  | right => simp [push, or_comm]

/-- **An operation adds no element** but the one it is given, and answers with no other. -/
theorem Op.within_run [DecidableEq K] [DecidableEq α] {S : Set α} {op : Op K α}
    (hop : op.Within S) {m : Store K α} (hm : m.Within S) :
    (op.run m).1.Within S ∧ (op.run m).2.Within S := by
  cases op with
  | push side key x =>
      refine ⟨trivial, hm.update fun y hy => ?_⟩
      rcases mem_push_iff.mp hy with rfl | hy
      · exact hop y rfl
      · exact hm key y hy
  | pop side key =>
      exact ⟨fun y hy => hm key y (mem_of_front hy),
        hm.update fun y hy => hm key y (mem_of_mem_rest hy)⟩
  | range key start stop => exact ⟨fun y hy => hm key y (mem_of_mem_slice hy), hm⟩
  | trim key start stop =>
      exact ⟨trivial, hm.update fun y hy => hm key y (mem_of_mem_slice hy)⟩
  | remove key count x =>
      exact ⟨trivial, hm.update fun y hy => hm key y (mem_of_mem_remove hy)⟩
  | move src dest wherefrom whereto =>
      rw [Op.run]
      cases hfront : front wherefrom (m src) with
      | none => exact ⟨by rintro y ⟨⟩, hm⟩
      | some x =>
          have hx : x ∈ S := hm src x (mem_of_front hfront)
          have htaken : Store.Within S (Function.update m src (rest wherefrom (m src))) :=
            hm.update fun y hy => hm src y (mem_of_mem_rest hy)
          refine ⟨?_, htaken.update fun y hy => ?_⟩
          · rintro y ⟨⟩
            exact hx
          · rcases mem_push_iff.mp hy with rfl | hy
            · exact hx
            · exact htaken dest y hy
  | length key => exact ⟨trivial, hm⟩

end KeyedLists
