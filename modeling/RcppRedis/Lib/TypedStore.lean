import RcppRedis.Lib.KeyedLists
import Mathlib.Data.List.Nodup
import Mathlib.Data.List.Perm.Basic

/-!
# A store of strings, lists, hashes and sets

Under each key stands nothing, or a value of one of four kinds.  A hash lists its fields once
each, in an order that an update may change and a read does not; a set lists its members once
each, in any order.  `Action.Step` says what an action on one key may answer and leave behind.

* `Encoded` — a value and the same value with its fields and elements encoded.
* `step_of_encoded` — an action on encoded values is an action on the values, if fields are
  encoded injectively and so are the elements in use.
* `Action.run_step` — a deterministic store that keeps insertion order is one of the allowed
  ones.
-/

namespace TypedStore

open KeyedLists (Side slice)

variable {F G α β : Type}

/-! ## Values -/

/-- The kinds of values. -/
inductive Kind where
  | string
  | list
  | hash
  | set
  deriving DecidableEq, Repr

/-- What stands under a key. -/
inductive Value (F α : Type) where
  | absent
  | string (x : α)
  | list (l : List α)
  | hash (h : List (F × α)) (nodup : (h.map Prod.fst).Nodup)
  | set (s : List α) (nodup : s.Nodup)

namespace Value

/-- Nothing, or a value of the kind. -/
def OfKind : Kind → Value F α → Prop
  | _, absent => True
  | .string, string _ => True
  | .list, list _ => True
  | .hash, hash _ _ => True
  | .set, set _ _ => True
  | _, _ => False

/-- The kind of a value that is there. -/
def kind? : Value F α → Option Kind
  | absent => none
  | string _ => some .string
  | list _ => some .list
  | hash _ _ => some .hash
  | set _ _ => some .set

theorem ofKind_iff {k : Kind} {v : Value F α} : v.OfKind k ↔ ∀ k' ∈ v.kind?, k' = k := by
  cases v <;> cases k <;> simp [OfKind, kind?]

instance (k : Kind) (v : Value F α) :
    Decidable (v.OfKind k) := decidable_of_iff _ ofKind_iff.symm

def text : Value F α → Option α
  | string x => some x
  | _ => none

def items : Value F α → List α
  | list l => l
  | _ => []

def entries : Value F α → List (F × α)
  | hash h _ => h
  | _ => []

def members : Value F α → List α
  | set s _ => s
  | _ => []

/-- The fields of a hash. -/
def names (v : Value F α) : List F := v.entries.map Prod.fst

theorem nodup_names (v : Value F α) : v.names.Nodup := by
  cases v with
  | hash h nodup => exact nodup
  | _ => exact List.nodup_nil

theorem nodup_members (v : Value F α) : v.members.Nodup := by
  cases v with
  | set s nodup => exact nodup
  | _ => exact List.nodup_nil

end Value

/-! ## Fields -/

/-- The value of a field. -/
def find [DecidableEq F] (f : F) (h : List (F × α)) : Option α :=
  (h.find? fun e => e.1 = f).map Prod.snd

/-- The entries without a field. -/
def erase [DecidableEq F] (f : F) (h : List (F × α)) :
    List (F × α) := h.filter fun e => e.1 ≠ f

/-- The entries with a field set. -/
def upsert [DecidableEq F] (f : F) (x : α) (h : List (F × α)) :
    List (F × α) := (f, x) :: erase f h

section Fields

variable [DecidableEq F]

theorem find_isSome_iff {f : F} {h : List (F × α)} :
    (find f h).isSome ↔ f ∈ h.map Prod.fst := by
  simp [find]

/-- Each entry is what its field has. -/
theorem find_of_mem {h : List (F × α)} (hn : (h.map Prod.fst).Nodup) {f : F} {x : α}
    (hmem : (f, x) ∈ h) : find f h = some x := by
  induction h with
  | nil => cases hmem
  | cons e h ih =>
      rw [List.map_cons, List.nodup_cons] at hn
      rw [find, List.find?_cons]
      by_cases he : e.1 = f
      · have hhead : e = (f, x) := by
          rcases List.mem_cons.mp hmem with heq | htail
          · exact heq.symm
          · exact absurd (he ▸ List.mem_map_of_mem htail) hn.1
        simp [hhead]
      · have htail : (f, x) ∈ h := by
          rcases List.mem_cons.mp hmem with heq | htail
          · exact absurd (congrArg Prod.fst heq).symm he
          · exact htail
        simp only [he, decide_false]
        exact ih hn.2 htail

theorem nodup_erase {h : List (F × α)} (hn : (h.map Prod.fst).Nodup) (f : F) :
    ((erase f h).map Prod.fst).Nodup :=
  hn.sublist (List.filter_sublist.map Prod.fst)

theorem nodup_upsert {h : List (F × α)} (hn : (h.map Prod.fst).Nodup) (f : F) (x : α) :
    ((upsert f x h).map Prod.fst).Nodup := by
  rw [upsert, List.map_cons, List.nodup_cons]
  refine ⟨?_, nodup_erase hn f⟩
  simp [erase]

end Fields

/-! ## Actions -/

/-- What is done to the value under a key. -/
inductive Action (F α : Type) where
  | set (x : α)
  | get
  | push (side : Side) (x : α)
  | range (start stop : ℤ)
  | hset (f : F) (x : α)
  | hget (f : F)
  | hexists (f : F)
  | hdel (f : F)
  | hlen
  | hkeys
  | hgetall
  | sadd (x : α)
  | srem (x : α)
  | smembers

/-- What an action answers. -/
inductive Answer (F α : Type) where
  | done
  | count (n : ℕ)
  | element (x : Option α)
  | elements (l : List α)
  | fields (l : List F)
  | entries (l : List (F × α))

namespace Action

/-- The kind of value an action is for. -/
def kind : Action F α → Kind
  | set _ | get => .string
  | push _ _ | range _ _ => .list
  | sadd _ | srem _ | smembers => .set
  | _ => .hash

/-- Setting a string replaces whatever there is. -/
def replaces : Action F α → Bool
  | set _ => true
  | _ => false

/-- The action is for such a value. -/
def Accepts (act : Action F α) (v : Value F α) : Prop := act.replaces = true ∨
  v.OfKind act.kind

instance (act : Action F α) (v : Value F α) : Decidable (act.Accepts v) :=
  inferInstanceAs (Decidable (_ ∨ _))

/-- The element that an action is given. -/
def argument : Action F α → Option α
  | set x | push _ x | hset _ x | sadd x | srem x => some x
  | _ => none

/-- The action on encoded fields and elements. -/
def map (f : F → G) (g : α → β) : Action F α → Action G β
  | set x => set (g x)
  | get => get
  | push side x => push side (g x)
  | range start stop => range start stop
  | hset fld x => hset (f fld) (g x)
  | hget fld => hget (f fld)
  | hexists fld => hexists (f fld)
  | hdel fld => hdel (f fld)
  | hlen => hlen
  | hkeys => hkeys
  | hgetall => hgetall
  | sadd x => sadd (g x)
  | srem x => srem (g x)
  | smembers => smembers

variable [DecidableEq F] [DecidableEq α]

/-- What an action on a value may answer, and what it may leave.  An update of a hash or a set
leaves its fields or members in any order, and members are listed in any order. -/
def Step : Action F α → Value F α → Answer F α → Value F α → Prop
  | set x, _, a, v' => a = .done ∧ v' = .string x
  | get, v, a, v' => a = .element v.text ∧ v' = v
  | push side x, v, a, v' =>
      a = .count (v.items.length + 1) ∧ v' = .list (KeyedLists.push side x v.items)
  | range start stop, v, a, v' => a = .elements (slice start stop v.items) ∧ v' = v
  | hset f x, v, a, v' =>
      a = .count (if f ∈ v.names then 0 else 1) ∧ v'.OfKind .hash ∧
        v'.entries.Perm (upsert f x v.entries)
  | hget f, v, a, v' => a = .element (find f v.entries) ∧ v' = v
  | hexists f, v, a, v' => a = .count (if f ∈ v.names then 1 else 0) ∧ v' = v
  | hdel f, v, a, v' =>
      a = .count (if f ∈ v.names then 1 else 0) ∧ v'.OfKind .hash ∧
        v'.entries.Perm (erase f v.entries)
  | hlen, v, a, v' => a = .count v.entries.length ∧ v' = v
  | hkeys, v, a, v' => a = .fields v.names ∧ v' = v
  | hgetall, v, a, v' => a = .entries v.entries ∧ v' = v
  | sadd x, v, a, v' =>
      a = .count (if x ∈ v.members then 0 else 1) ∧ v'.OfKind .set ∧
        v'.members.Perm (v.members.insert x)
  | srem x, v, a, v' =>
      a = .count (if x ∈ v.members then 1 else 0) ∧ v'.OfKind .set ∧
        v'.members.Perm (v.members.filter (· ≠ x))
  | smembers, v, a, v' => (∃ l, a = .elements l ∧ l.Perm v.members) ∧ v' = v

end Action

/-- The answer about encoded fields and elements. -/
def Answer.map (f : F → G) (g : α → β) : Answer F α → Answer G β
  | done => done
  | count n => count n
  | element x => element (x.map g)
  | elements l => elements (l.map g)
  | fields l => fields (l.map f)
  | entries l => entries (l.map (Prod.map f g))

/-- All elements of the answer are in a set. -/
def Answer.Within (S : Set α) : Answer F α → Prop
  | element x => ∀ y ∈ x, y ∈ S
  | elements l => ∀ y ∈ l, y ∈ S
  | entries l => ∀ e ∈ l, e.2 ∈ S
  | _ => True

/-! ## Encoded values -/

/-- The second value is the first one with its fields and elements encoded, and the elements of
the first are in a set. -/
inductive Encoded (S : Set α) (f : F → G) (g : α → β) : Value F α → Value G β → Prop where
  | absent : Encoded S f g .absent .absent
  | string (x : α) (hx : x ∈ S) : Encoded S f g (.string x) (.string (g x))
  | list (l : List α) (hl : ∀ x ∈ l, x ∈ S) : Encoded S f g (.list l) (.list (l.map g))
  | hash (h : List (F × α)) (hn : (h.map Prod.fst).Nodup)
      (hn' : ((h.map (Prod.map f g)).map Prod.fst).Nodup) (hh : ∀ e ∈ h, e.2 ∈ S) :
      Encoded S f g (.hash h hn) (.hash (h.map (Prod.map f g)) hn')
  | set (s : List α) (hn : s.Nodup) (hn' : (s.map g).Nodup) (hs : ∀ x ∈ s, x ∈ S) :
      Encoded S f g (.set s hn) (.set (s.map g) hn')

namespace Encoded

variable {S : Set α} {f : F → G} {g : α → β} {v : Value F α} {w : Value G β}

theorem ofKind_iff (h : Encoded S f g v w) (k : Kind) : w.OfKind k ↔ v.OfKind k := by
  cases h <;> cases k <;> exact Iff.rfl

theorem text_eq (h : Encoded S f g v w) : w.text = v.text.map g := by cases h <;> rfl
theorem items_eq (h : Encoded S f g v w) : w.items = v.items.map g := by cases h <;> rfl
theorem entries_eq (h : Encoded S f g v w) : w.entries = v.entries.map (Prod.map f g) := by
  cases h <;> rfl
theorem members_eq (h : Encoded S f g v w) : w.members = v.members.map g := by cases h <;> rfl

theorem names_eq (h : Encoded S f g v w) : w.names = v.names.map f := by
  rw [Value.names, h.entries_eq, Value.names, List.map_map, List.map_map]
  rfl

theorem mem_text (h : Encoded S f g v w) : ∀ x ∈ v.text, x ∈ S := by
  cases h with
  | string x hx =>
      rintro y ⟨⟩
      exact hx
  | _ => rintro y ⟨⟩

theorem mem_items (h : Encoded S f g v w) : ∀ x ∈ v.items, x ∈ S := by
  cases h with
  | list l hl => exact hl
  | _ => rintro y ⟨⟩

theorem mem_entries (h : Encoded S f g v w) : ∀ e ∈ v.entries, e.2 ∈ S := by
  cases h with
  | hash l hn hn' hh => exact hh
  | _ => rintro y ⟨⟩

theorem mem_members (h : Encoded S f g v w) : ∀ x ∈ v.members, x ∈ S := by
  cases h with
  | set s hn hn' hs => exact hs
  | _ => rintro y ⟨⟩

/-- Values are their own encodings. -/
theorem refl (v : Value F α) : Encoded Set.univ id id v v := by
  cases v with
  | absent => exact .absent
  | string x => exact .string x (Set.mem_univ x)
  | list l =>
      have h := Encoded.list (f := (id : F → F)) (g := id) l fun x _ => Set.mem_univ x
      rwa [List.map_id] at h
  | hash h hn =>
      have hid : h.map (Prod.map id id) = h := by simp
      have hself := Encoded.hash (f := id) (g := id) h hn (by rwa [hid]) fun e _ =>
        Set.mem_univ e.2
      simpa only [hid] using hself
  | set s hn =>
      have hid : s.map id = s := List.map_id s
      have hself := Encoded.set (f := (id : F → F)) (g := id) s hn (by rwa [hid])
        fun x _ => Set.mem_univ x
      simpa only [hid] using hself

theorem eq_of_id {v w : Value F α} (h : Encoded Set.univ id id v w) : w = v := by
  cases h <;> simp

end Encoded

theorem Encoded.accepts_iff {S : Set α} {f : F → G} {g : α → β} {v : Value F α} {w : Value G β}
    (h : Encoded S f g v w) (act : Action F α) : (act.map f g).Accepts w ↔ act.Accepts v := by
  have hreplaces : (act.map f g).replaces = act.replaces := by cases act <;> rfl
  have hkind : (act.map f g).kind = act.kind := by cases act <;> rfl
  rw [Action.Accepts, Action.Accepts, hreplaces, hkind, h.ofKind_iff]

/-- A rearrangement of encoded elements encodes a rearrangement. -/
theorem exists_of_perm_map {γ δ : Type} {e : γ → δ} {l' : List δ} {l : List γ}
    (h : l'.Perm (l.map e)) : ∃ l₀ : List γ, l₀.Perm l ∧ l' = l₀.map e := by
  generalize hm : l.map e = m at h
  induction h generalizing l with
  | nil => exact ⟨l, .refl l, hm.symm⟩
  | cons d _ ih =>
      obtain ⟨c, l, rfl, rfl, hl⟩ := List.map_eq_cons_iff.mp hm
      obtain ⟨l₀, hperm, rfl⟩ := ih hl
      exact ⟨c :: l₀, hperm.cons c, rfl⟩
  | swap d d' t =>
      obtain ⟨c, l, rfl, rfl, hl⟩ := List.map_eq_cons_iff.mp hm
      obtain ⟨c', l, rfl, rfl, rfl⟩ := List.map_eq_cons_iff.mp hl
      exact ⟨c' :: c :: l, .swap c c' l, rfl⟩
  | trans _ _ ih ih' =>
      obtain ⟨l₁, hperm, hl₁⟩ := ih' hm
      obtain ⟨l₀, hperm', rfl⟩ := ih hl₁.symm
      exact ⟨l₀, hperm'.trans hperm, rfl⟩

/-- A hash with encoded entries, in any order, encodes a hash with the entries. -/
theorem exists_encoded_hash {S : Set α} {f : F → G} {g : α → β} {w : Value G β}
    (hw : w.OfKind .hash) {h : List (F × α)} (hperm : w.entries.Perm (h.map (Prod.map f g)))
    (hh : ∀ e ∈ h, e.2 ∈ S) :
    ∃ v : Value F α, v.OfKind .hash ∧ v.entries.Perm h ∧ Encoded S f g v w := by
  obtain ⟨h₀, hperm₀, hentries⟩ := exists_of_perm_map hperm
  have hh₀ : ∀ e ∈ h₀, e.2 ∈ S := fun e he => hh e (hperm₀.subset he)
  cases w with
  | absent =>
      obtain rfl : h₀ = [] := List.map_eq_nil_iff.mp hentries.symm
      exact ⟨.absent, trivial, hperm₀, .absent⟩
  | hash h' hn' =>
      obtain rfl : h' = h₀.map (Prod.map f g) := hentries
      have hn : (h₀.map Prod.fst).Nodup := by
        rw [List.map_map] at hn'
        have hcomp : Prod.fst ∘ Prod.map f g = f ∘ (Prod.fst : F × α → F) := rfl
        rw [hcomp, ← List.map_map] at hn'
        exact hn'.of_map f
      exact ⟨.hash h₀ hn, trivial, hperm₀, .hash h₀ hn hn' hh₀⟩
  | string | list | set => exact hw.elim

/-- A set with encoded members, in any order, encodes a set with the members. -/
theorem exists_encoded_set {S : Set α} {f : F → G} {g : α → β} {w : Value G β}
    (hw : w.OfKind .set) {s : List α} (hperm : w.members.Perm (s.map g))
    (hs : ∀ x ∈ s, x ∈ S) :
    ∃ v : Value F α, v.OfKind .set ∧ v.members.Perm s ∧ Encoded S f g v w := by
  obtain ⟨s₀, hperm₀, hmembers⟩ := exists_of_perm_map hperm
  cases w with
  | absent =>
      obtain rfl : s₀ = [] := List.map_eq_nil_iff.mp hmembers.symm
      exact ⟨.absent, trivial, hperm₀, .absent⟩
  | set s' hn' =>
      obtain rfl : s' = s₀.map g := hmembers
      exact ⟨.set s₀ (hn'.of_map g), trivial, hperm₀,
        .set s₀ (hn'.of_map g) hn' fun x hx => hs x (hperm₀.subset hx)⟩
  | string | list | hash => exact hw.elim

section Reflect

variable [DecidableEq F] [DecidableEq G] {S : Set α} {f : F → G} {g : α → β}

theorem map_find (hf : Function.Injective f) (fld : F) (h : List (F × α)) :
    find (f fld) (h.map (Prod.map f g)) = (find fld h).map g := by
  have hsame : (fun e : G × β => decide (e.1 = f fld)) ∘ Prod.map f g =
      fun e => decide (e.1 = fld) := by
    funext e
    simp [hf.eq_iff]
  rw [find, find, List.find?_map, hsame, Option.map_map, Option.map_map]
  rfl

theorem map_erase (hf : Function.Injective f) (fld : F) (h : List (F × α)) :
    erase (f fld) (h.map (Prod.map f g)) = (erase fld h).map (Prod.map f g) := by
  rw [erase, erase, List.filter_map]
  refine congrArg (List.map _) (List.filter_congr fun e _ => ?_)
  simp [hf.eq_iff]

theorem map_upsert (hf : Function.Injective f) (fld : F) (x : α) (h : List (F × α)) :
    upsert (f fld) (g x) (h.map (Prod.map f g)) = (upsert fld x h).map (Prod.map f g) := by
  rw [upsert, map_erase hf, upsert, List.map_cons]
  rfl

theorem mem_of_mem_erase {fld : F} {h : List (F × α)} {e : F × α} (he : e ∈ erase fld h) :
    e ∈ h :=
  List.mem_of_mem_filter he

theorem mem_map_iff_of_injOn (hg : S.InjOn g) {x : α} (hx : x ∈ S) {s : List α}
    (hs : ∀ y ∈ s, y ∈ S) : g x ∈ s.map g ↔ x ∈ s := by
  rw [List.mem_map]
  constructor
  · rintro ⟨y, hy, hyx⟩
    rwa [← hg (hs y hy) hx hyx]
  · exact fun h => ⟨x, h, rfl⟩

variable [DecidableEq α] [DecidableEq β]

theorem map_insert (hg : S.InjOn g) {x : α} (hx : x ∈ S) {s : List α} (hs : ∀ y ∈ s, y ∈ S) :
    (s.map g).insert (g x) = (s.insert x).map g := by
  have hmem := mem_map_iff_of_injOn hg hx hs
  by_cases h : x ∈ s
  · rw [List.insert_of_mem h, List.insert_of_mem (hmem.mpr h)]
  · rw [List.insert_of_not_mem h, List.insert_of_not_mem (mt hmem.mp h), List.map_cons]

theorem map_filter_ne (hg : S.InjOn g) {x : α} (hx : x ∈ S) {s : List α}
    (hs : ∀ y ∈ s, y ∈ S) : (s.map g).filter (· ≠ g x) = (s.filter (· ≠ x)).map g := by
  rw [List.filter_map]
  refine congrArg (List.map g) (List.filter_congr fun y hy => ?_)
  have hiff : g y = g x ↔ y = x := hg.eq_iff (hs y hy) hx
  simp [hiff]

/-- **An action on encoded values is an action on the values.** -/
theorem step_of_encoded (hf : Function.Injective f) (hg : S.InjOn g) {act : Action F α}
    (hact : ∀ x ∈ act.argument, x ∈ S) {v : Value F α} {w w' : Value G β} {b : Answer G β}
    (hvw : Encoded S f g v w) (h : (act.map f g).Step w b w') :
    ∃ a v', act.Step v a v' ∧ b = a.map f g ∧ a.Within S ∧ Encoded S f g v' w' := by
  cases act with
  | set x =>
      obtain ⟨rfl, rfl⟩ := h
      exact ⟨_, _, ⟨rfl, rfl⟩, rfl, trivial, .string x (hact x rfl)⟩
  | get =>
      obtain ⟨rfl, rfl⟩ := h
      exact ⟨_, v, ⟨rfl, rfl⟩, by rw [hvw.text_eq]; rfl, hvw.mem_text, hvw⟩
  | push side x =>
      obtain ⟨rfl, rfl⟩ := h
      refine ⟨_, _, ⟨rfl, rfl⟩, ?_, trivial, ?_⟩
      · rw [hvw.items_eq, List.length_map]
        rfl
      · rw [hvw.items_eq, ← KeyedLists.map_push]
        refine .list _ fun y hy => ?_
        rcases KeyedLists.mem_push_iff.mp hy with rfl | hy
        · exact hact y rfl
        · exact hvw.mem_items y hy
  | range start stop =>
      obtain ⟨rfl, rfl⟩ := h
      refine ⟨_, v, ⟨rfl, rfl⟩, ?_,
        fun y hy => hvw.mem_items y (KeyedLists.mem_of_mem_slice hy), hvw⟩
      rw [hvw.items_eq, ← KeyedLists.map_slice]
      rfl
  | hset fld x =>
      obtain ⟨rfl, hkind, hperm⟩ := h
      rw [hvw.entries_eq, map_upsert hf] at hperm
      obtain ⟨v', hkind', hperm', hv'⟩ := exists_encoded_hash hkind hperm fun e he => by
        rcases List.mem_cons.mp he with rfl | he
        · exact hact x rfl
        · exact hvw.mem_entries e (mem_of_mem_erase he)
      refine ⟨_, v', ⟨rfl, hkind', hperm'⟩, ?_, trivial, hv'⟩
      simp only [hvw.names_eq, List.mem_map_of_injective hf]
      rfl
  | hget fld =>
      obtain ⟨rfl, rfl⟩ := h
      refine ⟨_, v, ⟨rfl, rfl⟩, by rw [hvw.entries_eq, map_find hf]; rfl, fun x hx => ?_, hvw⟩
      obtain ⟨e, he, rfl⟩ := Option.map_eq_some_iff.mp hx
      exact hvw.mem_entries e (List.mem_of_find?_eq_some he)
  | hexists fld =>
      obtain ⟨rfl, rfl⟩ := h
      refine ⟨_, v, ⟨rfl, rfl⟩, ?_, trivial, hvw⟩
      simp only [hvw.names_eq, List.mem_map_of_injective hf]
      rfl
  | hdel fld =>
      obtain ⟨rfl, hkind, hperm⟩ := h
      rw [hvw.entries_eq, map_erase hf] at hperm
      obtain ⟨v', hkind', hperm', hv'⟩ := exists_encoded_hash hkind hperm fun e he =>
        hvw.mem_entries e (mem_of_mem_erase he)
      refine ⟨_, v', ⟨rfl, hkind', hperm'⟩, ?_, trivial, hv'⟩
      simp only [hvw.names_eq, List.mem_map_of_injective hf]
      rfl
  | hlen =>
      obtain ⟨rfl, rfl⟩ := h
      exact ⟨_, v, ⟨rfl, rfl⟩, by rw [hvw.entries_eq, List.length_map]; rfl, trivial, hvw⟩
  | hkeys =>
      obtain ⟨rfl, rfl⟩ := h
      exact ⟨_, v, ⟨rfl, rfl⟩, by rw [hvw.names_eq]; rfl, trivial, hvw⟩
  | hgetall =>
      obtain ⟨rfl, rfl⟩ := h
      exact ⟨_, v, ⟨rfl, rfl⟩, by rw [hvw.entries_eq]; rfl, hvw.mem_entries, hvw⟩
  | sadd x =>
      obtain ⟨rfl, hkind, hperm⟩ := h
      have hx : x ∈ S := hact x rfl
      rw [hvw.members_eq, map_insert hg hx hvw.mem_members] at hperm
      obtain ⟨v', hkind', hperm', hv'⟩ :=
        exists_encoded_set (f := f) hkind hperm fun y hy => by
        rcases List.mem_insert_iff.mp hy with rfl | hy
        · exact hx
        · exact hvw.mem_members y hy
      refine ⟨_, v', ⟨rfl, hkind', hperm'⟩, ?_, trivial, hv'⟩
      rw [hvw.members_eq]
      simp only [mem_map_iff_of_injOn hg hx hvw.mem_members]
      rfl
  | srem x =>
      obtain ⟨rfl, hkind, hperm⟩ := h
      have hx : x ∈ S := hact x rfl
      rw [hvw.members_eq, map_filter_ne hg hx hvw.mem_members] at hperm
      obtain ⟨v', hkind', hperm', hv'⟩ := exists_encoded_set (f := f) hkind hperm fun y hy =>
        hvw.mem_members y (List.mem_of_mem_filter hy)
      refine ⟨_, v', ⟨rfl, hkind', hperm'⟩, ?_, trivial, hv'⟩
      rw [hvw.members_eq]
      simp only [mem_map_iff_of_injOn hg hx hvw.mem_members]
      rfl
  | smembers =>
      obtain ⟨⟨l, rfl, hperm⟩, rfl⟩ := h
      rw [hvw.members_eq] at hperm
      obtain ⟨l', hperm', rfl⟩ := exists_of_perm_map hperm
      exact ⟨_, v, ⟨⟨l', rfl, hperm'⟩, rfl⟩, rfl,
        fun y hy => hvw.mem_members y (hperm'.subset hy), hvw⟩

end Reflect

/-! ## Stores -/

variable {K : Type}

/-- What stands under all keys. -/
abbrev Store (K F α : Type) : Type := K → Value F α

namespace Store

/-- An action on the value under a key.  What stands under the other keys stays. -/
def Step [DecidableEq F] [DecidableEq α] (key : K) (act : Action F α) (m : Store K F α)
    (a : Answer F α) (m' : Store K F α) : Prop :=
  act.Step (m key) a (m' key) ∧ ∀ k ≠ key, m' k = m k

/-- The second store is the first one encoded. -/
def Encoded (S : Set α) (f : F → G) (g : α → β) (m : Store K F α) (n : Store K G β) : Prop :=
  ∀ k, TypedStore.Encoded S f g (m k) (n k)

/-- Each key has values of one kind. -/
def Follows (usage : K → Kind) (m : Store K F α) : Prop := ∀ k, (m k).OfKind (usage k)

theorem step_of_encoded [DecidableEq F] [DecidableEq G] [DecidableEq α] [DecidableEq β]
    [DecidableEq K] {S : Set α} {f : F → G} {g : α → β} (hf : Function.Injective f)
    (hg : S.InjOn g) {act : Action F α} (hact : ∀ x ∈ act.argument, x ∈ S) {m : Store K F α}
    {n n' : Store K G β} {key : K} {b : Answer G β} (hmn : Encoded S f g m n)
    (h : Step key (act.map f g) n b n') :
    ∃ a m', Step key act m a m' ∧ b = a.map f g ∧ a.Within S ∧ Encoded S f g m' n' := by
  obtain ⟨a, v', hstep, hb, ha, hv'⟩ := TypedStore.step_of_encoded hf hg hact (hmn key) h.1
  refine ⟨a, Function.update m key v', ⟨?_, fun k hk => Function.update_of_ne hk v' m⟩, hb, ha,
    fun k => ?_⟩
  · rwa [Function.update_self]
  · by_cases hk : k = key
    · subst hk
      rwa [Function.update_self]
    · rw [Function.update_of_ne hk, h.2 k hk]
      exact hmn k

end Store

section Kinds

variable [DecidableEq F] [DecidableEq α]

/-- An action leaves a value of its kind. -/
theorem Action.ofKind_of_step {act : Action F α} {v v' : Value F α} {a : Answer F α}
    (hv : v.OfKind act.kind) (h : act.Step v a v') : v'.OfKind act.kind := by
  cases act with
  | set | push =>
      obtain ⟨-, rfl⟩ := h
      trivial
  | hset | hdel | sadd | srem => exact h.2.1
  | _ =>
      obtain ⟨-, rfl⟩ := h
      exact hv

theorem Store.Follows.step {usage : K → Kind} {m m' : Store K F α} {key : K} {act : Action F α}
    {a : Answer F α} (hm : m.Follows usage) (hkey : usage key = act.kind)
    (h : Store.Step key act m a m') : m'.Follows usage := by
  intro k
  by_cases hk : k = key
  · subst hk
    rw [hkey]
    exact act.ofKind_of_step (hkey ▸ hm k) h.1
  · rw [h.2 k hk]
    exact hm k

end Kinds

/-! ## A deterministic store -/

namespace Value

/-- The hash with these entries, if there are any. -/
def ofEntries (h : List (F × α)) (hn : (h.map Prod.fst).Nodup) : Value F α :=
  if h.isEmpty then absent else hash h hn

/-- The set with these members, if there are any. -/
def ofMembers (s : List α) (hn : s.Nodup) : Value F α := if s.isEmpty then absent else set s hn

theorem entries_ofEntries (h : List (F × α)) (hn : (h.map Prod.fst).Nodup) :
    (ofEntries h hn).OfKind .hash ∧ (ofEntries h hn).entries = h := by
  rw [ofEntries]
  split_ifs with hempty
  · exact ⟨trivial, (List.isEmpty_iff.mp hempty).symm⟩
  · exact ⟨trivial, rfl⟩

theorem members_ofMembers (s : List α) (hn : s.Nodup) :
    (ofMembers (F := F) s hn).OfKind .set ∧ (ofMembers (F := F) s hn).members = s := by
  rw [ofMembers]
  split_ifs with hempty
  · exact ⟨trivial, (List.isEmpty_iff.mp hempty).symm⟩
  · exact ⟨trivial, rfl⟩

end Value

namespace Action

variable [DecidableEq F] [DecidableEq α]

/-- An action of a store in which what was written last stands first. -/
def run : Action F α → Value F α → Answer F α × Value F α
  | set x, _ => (.done, .string x)
  | get, v => (.element v.text, v)
  | push side x, v => (.count (v.items.length + 1), .list (KeyedLists.push side x v.items))
  | range start stop, v => (.elements (slice start stop v.items), v)
  | hset f x, v =>
      (.count (if f ∈ v.names then 0 else 1),
        .ofEntries (upsert f x v.entries) (nodup_upsert v.nodup_names f x))
  | hget f, v => (.element (find f v.entries), v)
  | hexists f, v => (.count (if f ∈ v.names then 1 else 0), v)
  | hdel f, v =>
      (.count (if f ∈ v.names then 1 else 0),
        .ofEntries (erase f v.entries) (nodup_erase v.nodup_names f))
  | hlen, v => (.count v.entries.length, v)
  | hkeys, v => (.fields v.names, v)
  | hgetall, v => (.entries v.entries, v)
  | sadd x, v =>
      (.count (if x ∈ v.members then 0 else 1),
        .ofMembers (v.members.insert x) (v.nodup_members.insert))
  | srem x, v =>
      (.count (if x ∈ v.members then 1 else 0),
        .ofMembers (v.members.filter (· ≠ x)) (v.nodup_members.filter _))
  | smembers, v => (.elements v.members, v)

/-- **A deterministic store** does what a store may do. -/
theorem run_step (act : Action F α) (v : Value F α) :
    act.Step v (act.run v).1 (act.run v).2 := by
  cases act with
  | hset f x =>
      obtain ⟨hkind, hentries⟩ := Value.entries_ofEntries _ (nodup_upsert v.nodup_names f x)
      exact ⟨rfl, hkind, .of_eq hentries⟩
  | hdel f =>
      obtain ⟨hkind, hentries⟩ := Value.entries_ofEntries _ (nodup_erase v.nodup_names f)
      exact ⟨rfl, hkind, .of_eq hentries⟩
  | sadd x =>
      obtain ⟨hkind, hmembers⟩ :=
        Value.members_ofMembers (F := F) _ (v.nodup_members.insert (a := x))
      exact ⟨rfl, hkind, .of_eq hmembers⟩
  | srem x =>
      obtain ⟨hkind, hmembers⟩ :=
        Value.members_ofMembers (F := F) _ (v.nodup_members.filter fun y => y ≠ x)
      exact ⟨rfl, hkind, .of_eq hmembers⟩
  | smembers => exact ⟨⟨_, rfl, .refl _⟩, rfl⟩
  | _ => exact ⟨rfl, rfl⟩

end Action

end TypedStore
