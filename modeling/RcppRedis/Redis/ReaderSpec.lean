import RcppRedis.Redis.DecodeSpec

/-!
# When a reader returns

`Reader.Reads` says for each reader which replies it returns a value for.  The condition
is about the reply alone: its type, the types of its elements, the lengths of its
strings, and what the serialization package makes of their bytes.

* `returns_value_iff` — a reader returns exactly on the replies it reads.
* `leaf_value` — every reader but the extraction of a tree calls nothing.
-/

namespace RcppRedis

open Bytes Hiredis Interact Code Prog

variable {O : Type} {R : Runtime O}

/-- A string whose first `cols` bytes fill whole doubles and are there to be copied.  One
byte more than the string has may be copied: the NUL behind it. -/
def FillsRow (cols : ℕ) (r : Reply) : Prop := cols = 0 ∨ (8 ∣ cols ∧ cols ≤ r.len + 1)

/-- Rows that are at least as long as the first of them, which there is. -/
def FirstShortest : List (List Double) → Prop
  | [] => False
  | first :: rest => ∀ row ∈ rest, first.length ≤ row.length

/-- The rows of a reply whose elements are msgpack vectors. -/
def msgPackVectors (R : Runtime O) (r : Reply) : Option (List (List Double)) :=
  r.element.mapM fun e => R.msgpackRow e.bytes

/-- The replies that a reader returns a value for. -/
def Reader.Reads (R : Runtime O) : Reader → Reply → Prop
  | .extract, r => r.Extractable
  | .string, r => r.str?.isSome = true
  | .int, r => r.isInteger = true
  | .double, r => r.isInteger = true
  | .strings, r => ∀ e ∈ r.element, e.str?.isSome = true
  | .objects, r => ∀ e ∈ r.element, Decodes R e
  | .pop, r => r = .nil ∨ (r.isString = true ∧ Decodes R r)
  | .ignore, _ => True
  | .rows, r => r.isArray = true ∧ r.elements % 0x100000000 < 0x80000000 ∧
      ∃ first ∈ r.element.head?, ∀ e ∈ r.element.take (r.elements % 0x100000000),
        e.isString = true ∧ FillsRow (first.len % 0x100000000) e
  | .get, r => r = .nil ∨ Decodes R r
  | .hget, r => Decodes R r
  | .hgetall, r => r.elements / 2 ≤ 2 ^ 30 ∧ ∀ i < r.elements / 2,
      (∃ name ∈ r.element[2 * i]?, name.str?.isSome = true) ∧
      ∃ value ∈ r.element[2 * i + 1]?, Decodes R value
  | .vector, r => WholeDoubles r
  | .listRange, r => r.isArray = true ∧ ∀ e ∈ r.element, e.isString = true ∧ WholeDoubles e
  | .listLPop, r => r = .nil ∨ r.isString = true
  | .listRangeAsStrings, r => r.isArray = true ∧ ∀ e ∈ r.element, e.isString = true
  | .msgPackMatrix, r => r.isArray = true ∧ (∀ e ∈ r.element, e.isString = true) ∧
      ∃ vecs ∈ msgPackVectors R r, FirstShortest vecs
  | .msgPackZMatrix, r => ∃ vecs ∈ msgPackVectors R r, FirstShortest vecs

/-! ## Loops over the elements -/

theorem returns_mapM_children_iff {α : Type} {p : Pointer} {f : Pointer → Code α}
    {P : Reply → Prop} (h : ∀ q, Returns (f q) ↔ P q.node) :
    Returns (p.children.mapM f) ↔ ∀ r ∈ p.node.element, P r := by
  rw [returns_mapM_iff, ← Pointer.forall_children_iff]
  exact forall₂_congr fun q _ => h q

/-- A value made of the result of a loop. -/
theorem returns_mapM_children_bind_iff {α β : Type} {p : Pointer} {f : Pointer → Code α}
    {P : Reply → Prop} (h : ∀ q, Returns (f q) ↔ P q.node) (g : List α → β) :
    Returns (p.children.mapM f >>= fun x => pure (g x)) ↔ ∀ r ∈ p.node.element, P r := by
  rw [returns_bind_pure_iff, returns_mapM_children_iff h]

/-! ## Single readers -/

theorem returns_stringValue_iff {p : Pointer} :
    Returns (stringValue (O := O) p) ↔ p.node.str?.isSome = true := by
  rw [stringValue, returns_bind_pure_iff, returns_stringOf_iff]

theorem leaf_stringValue (p : Pointer) : Leaf (stringValue (O := O) p) :=
  (leaf_stringOf p).bind fun _ => .ret _

theorem returns_doubleOf_iff {p : Pointer} :
    Returns (doubleOf p) ↔ p.node.isInteger = true := by
  rw [doubleOf, returns_checkReplyType_bind, replyTypeToInteger_eq_integer_iff]
  simp

theorem leaf_doubleOf (p : Pointer) : Leaf (doubleOf p) :=
  (leaf_checkReplyType p .integer).bind fun _ => .ret _

theorem returns_vectorValue_iff {p : Pointer} :
    Returns (vectorValue (O := O) p) ↔ WholeDoubles p.node := by
  rw [vectorValue, returns_bind_pure_iff, returns_numericOf_iff]

theorem leaf_vectorValue (p : Pointer) : Leaf (vectorValue (O := O) p) :=
  (leaf_numericOf p).bind fun _ => .ret _

theorem returns_popValue_iff {p : Pointer} :
    Returns (popValue R p) ↔ p.node = .nil ∨ (p.node.isString = true ∧ Decodes R p.node) := by
  rw [popValue]
  by_cases h : p.node = .nil
  · simp [h, replyTypeToInteger]
  · rw [if_neg (mt replyTypeToInteger_eq_nil_iff.mp h), returns_checkReplyType_bind,
      replyTypeToInteger_eq_string_iff, returns_objectOf_iff]
    simp [h]

theorem leaf_popValue (p : Pointer) : Leaf (popValue R p) := by
  rw [popValue]
  split_ifs
  · exact .ret _
  · exact (leaf_checkReplyType p .string).bind fun _ => leaf_objectOf p

theorem returns_getValue_iff {p : Pointer} :
    Returns (getValue R p) ↔ p.node = .nil ∨ Decodes R p.node := by
  rw [getValue]
  by_cases h : p.node = .nil
  · simp [h, replyTypeToInteger]
  · rw [if_neg (mt replyTypeToInteger_eq_nil_iff.mp h), returns_objectOf_iff]
    simp [h]

theorem leaf_getValue (p : Pointer) : Leaf (getValue R p) := by
  rw [getValue]
  split_ifs
  · exact .ret _
  · exact leaf_objectOf p

theorem returns_listLPopValue_iff {p : Pointer} :
    Returns (listLPopValue (O := O) p) ↔ p.node = .nil ∨ p.node.isString = true := by
  rw [listLPopValue]
  by_cases h : p.node = .nil
  · simp [h, replyTypeToInteger]
  · rw [if_neg (mt replyTypeToInteger_eq_nil_iff.mp h), returns_checkReplyType_bind,
      replyTypeToInteger_eq_string_iff, returns_stringValue_iff]
    have hstr := str?_isSome_of_isString (r := p.node)
    simp only [h, false_or]
    exact ⟨fun hs => hs.1, fun hs => ⟨hs, hstr hs⟩⟩

theorem leaf_listLPopValue (p : Pointer) : Leaf (listLPopValue (O := O) p) := by
  rw [listLPopValue]
  split_ifs
  · exact .ret _
  · exact (leaf_checkReplyType p .string).bind fun _ => leaf_stringValue p

/-! ## Rows of a matrix -/

theorem returns_memcpy_row_iff {cols : ℕ} {p : Pointer} (h : p.node.isString = true) :
    Returns (memcpy (8 * (cols / 8)) p cols) ↔ FillsRow cols p.node := by
  obtain ⟨str, hnode⟩ : ∃ str, p.node = .string str := by
    unfold Reply.isString at h
    split at h
    · exact ⟨_, by assumption⟩
    · cases h
  rw [memcpy, FillsRow, hnode]
  by_cases hcols : cols = 0
  · simp [hcols]
  · simp only [hcols, if_false, Reply.str?, Reply.len, false_or]
    split_ifs <;> simp <;> omega

theorem returns_rowsValue_iff {p : Pointer} :
    Returns (rowsValue (O := O) p) ↔ Reader.Reads R .rows p.node := by
  rw [rowsValue, returns_checkReplyType_bind, replyTypeToInteger_eq_array_iff, Reader.Reads]
  refine and_congr_right fun _ => ?_
  rcases he : p.node.element with _ | ⟨first, rest⟩
  · simp [elementAt, he]
  · have hfirst : elementAt p 0 = .ret ⟨p.id, p.path ++ [0], first⟩ := by
      simp [elementAt, he]
    rw [hfirst, ret_bind]
    dsimp only
    split_ifs with hrows
    · refine iff_of_false ?_ fun h => absurd h.1 (not_lt.mpr hrows)
      rintro ⟨x, ⟨⟩⟩
    · rw [returns_bind_pure_iff, returns_mapM_iff, and_iff_right (not_le.mp hrows)]
      simp only [List.head?_cons, Option.mem_some_iff, exists_eq_left']
      rw [← he, ← forall_take_children_iff]
      refine forall₂_congr fun q _ => ?_
      rw [returns_checkReplyType_bind, replyTypeToInteger_eq_string_iff]
      refine and_congr_right fun hq => ?_
      rw [returns_bind_pure_iff, returns_memcpy_row_iff hq]

theorem leaf_rowsValue (p : Pointer) : Leaf (rowsValue (O := O) p) := by
  refine (leaf_checkReplyType p .array).bind fun _ => Leaf.bind ?_ fun first => ?_
  · rw [elementAt]
    split_ifs
    · split
      · exact .fault _
      · exact .ret _
    · exact .fault _
  · dsimp only
    split_ifs
    · exact .raise _
    · refine (Leaf.mapM (fun q => ?_) _).bind fun _ => .ret _
      exact (leaf_checkReplyType q .string).bind fun _ => (leaf_memcpy _ _ _).bind fun _ =>
        .ret _

/-! ## Names and values of a hash -/

theorem elementAt_natCast (p : Pointer) (i : ℕ) :
    elementAt p i =
      match p.node.element[i]? with
      | none => .fault .elementRange
      | some node => .ret ⟨p.id, p.path ++ [i], node⟩ := by
  rw [elementAt, if_pos (by omega), Int.toNat_natCast]
  rfl

theorem leaf_elementAt (p : Pointer) (i : ℤ) : Leaf (elementAt p i) := by
  rw [elementAt]
  split_ifs
  · split
    · exact .fault _
    · exact .ret _
  · exact .fault _

theorem returns_elementAt_bind_iff {α : Type} {p : Pointer} {i : ℕ} {f : Pointer → Code α} :
    Returns (elementAt p i >>= f) ↔
      ∃ r ∈ p.node.element[i]?, Returns (f ⟨p.id, p.path ++ [i], r⟩) := by
  rw [elementAt_natCast]
  cases p.node.element[i]? <;> simp

/-- The index of a value is an `int`, which every index below `2 ^ 31` is. -/
theorem returns_hgetallEntry_iff {p : Pointer} {i : ℕ} (h : 2 * i + 1 < 2 ^ 31) :
    Returns (hgetallEntry R p i) ↔
      (∃ name ∈ p.node.element[2 * i]?, name.str?.isSome = true) ∧
      ∃ value ∈ p.node.element[2 * i + 1]?, Decodes R value := by
  have hidx : toInt32 ((2 * i + 1 : ℕ) : ℤ) = (2 * i + 1 : ℕ) :=
    toInt32_eq_self (by omega) (by omega)
  rw [hgetallEntry, returns_elementAt_bind_iff, ← exists_and_right]
  refine exists_congr fun name => ?_
  rw [and_assoc]
  refine and_congr_right fun _ => ?_
  rcases hs : name.str? with _ | str
  · rw [stringOf_of_none hs]
    simp
  · rw [stringOf_of_some hs, ret_bind, hidx, returns_elementAt_bind_iff]
    simp only [Option.isSome_some, true_and]
    refine exists_congr fun value => and_congr_right fun _ => ?_
    rw [returns_bind_pure_iff, returns_objectOf_iff]

/-- At the first index that is no `int` any more the loop leaves the elements. -/
theorem not_returns_hgetallEntry (p : Pointer) : ¬ Returns (hgetallEntry R p (2 ^ 30)) := by
  have hidx : toInt32 ((2 * 2 ^ 30 + 1 : ℕ) : ℤ) = -(2 ^ 31) + 1 := by
    rw [toInt32_eq_bmod]
    decide
  rw [hgetallEntry, returns_elementAt_bind_iff]
  rintro ⟨name, -, hname⟩
  rw [returns_bind_iff] at hname
  obtain ⟨key, -, hvalue⟩ := hname
  rw [hidx, elementAt, if_neg (by omega)] at hvalue
  exact not_returns_fault _ hvalue

theorem returns_hgetallValue_iff {p : Pointer} :
    Returns (hgetallValue R p) ↔ Reader.Reads R .hgetall p.node := by
  rw [hgetallValue, returns_bind_pure_iff, returns_mapM_iff, Reader.Reads]
  simp only [List.mem_range]
  constructor
  · intro h
    have hsmall : p.node.elements / 2 ≤ 2 ^ 30 := by
      by_contra hlarge
      exact not_returns_hgetallEntry p (h (2 ^ 30) (by omega))
    exact ⟨hsmall, fun i hi => (returns_hgetallEntry_iff (by omega)).mp (h i hi)⟩
  · rintro ⟨hsmall, h⟩ i hi
    exact (returns_hgetallEntry_iff (by omega)).mpr (h i hi)

theorem leaf_hgetallValue (p : Pointer) : Leaf (hgetallValue R p) := by
  refine (Leaf.mapM (fun i => ?_) _).bind fun _ => .ret _
  refine (leaf_elementAt _ _).bind fun _ => (leaf_stringOf _).bind fun _ => ?_
  exact (leaf_elementAt _ _).bind fun _ => (leaf_objectOf _).bind fun _ => .ret _

/-! ## Msgpack rows -/

theorem leaf_msgpackRowOf (p : Pointer) : Leaf (msgpackRowOf R p) := by
  rw [msgpackRowOf]
  split
  · exact .raise _
  · exact .ret _

theorem leaf_msgPackRows (vecs : List (List Double)) : Leaf (msgPackRows (O := O) vecs) := by
  unfold msgPackRows
  split
  · exact .fault _
  · refine (Leaf.mapM (fun row => ?_) _).bind fun _ => .ret _
    rw [firstColumns]
    split_ifs
    · exact .ret _
    · exact .fault _

theorem returns_msgPackRows_iff {vecs : List (List Double)} :
    Returns (msgPackRows (O := O) vecs) ↔ FirstShortest vecs := by
  unfold msgPackRows FirstShortest
  split
  · simp
  · rename_i first rest
    rw [returns_bind_pure_iff, returns_mapM_iff]
    have hrow (row : List Double) :
        Returns (firstColumns first.length row) ↔ first.length ≤ row.length := by
      rw [firstColumns]
      split_ifs with h <;> simp [h]
    simp [hrow]

/-- The unpacking loop computes the rows, or ends. -/
theorem returns_mapM_msgpackRowOf_bind_iff {p : Pointer}
    (f : List (List Double) → Code (SEXP O)) :
    Returns (p.children.mapM (msgpackRowOf R) >>= f) ↔
      ∃ vecs ∈ msgPackVectors R p.node, Returns (f vecs) := by
  rw [msgPackVectors, ← p.map_node_children]
  generalize p.children = l
  induction l generalizing f with
  | nil => simp
  | cons q l ih =>
      rw [List.map_cons, List.mapM_cons, List.mapM_cons, msgpackRowOf, ← Reply.bytes]
      cases R.msgpackRow q.node.bytes with
      | none => simp
      | some row =>
          have hnext := ih fun rows => f (row :: rows)
          simp only [pure_eq, ret_bind, Prog.bind_assoc] at hnext ⊢
          rw [hnext]
          cases (l.map Pointer.node).mapM fun e => R.msgpackRow e.bytes <;> simp

/-- With a type check in each round. -/
theorem returns_checked_msgpackRows_bind_iff {p : Pointer}
    (f : List (List Double) → Code (SEXP O)) :
    Returns ((p.children.mapM fun node => do
        checkReplyType node .string
        msgpackRowOf R node) >>= f) ↔
      (∀ e ∈ p.node.element, e.isString = true) ∧
        ∃ vecs ∈ msgPackVectors R p.node, Returns (f vecs) := by
  by_cases h : ∀ e ∈ p.node.element, e.isString = true
  · have hchecked : (p.children.mapM fun node => do
        checkReplyType node .string
        msgpackRowOf R node) = p.children.mapM (msgpackRowOf R) := by
      refine Prog.mapM_congr fun q hq => ?_
      have hstr := Pointer.forall_children_iff.mpr h q hq
      rw [checkReplyType_of_eq (replyTypeToInteger_eq_string_iff.mpr hstr)]
      rfl
    rw [hchecked, returns_mapM_msgpackRowOf_bind_iff]
    exact (and_iff_right h).symm
  · refine iff_of_false (fun hret => h ?_) fun hr => h hr.1
    rw [returns_bind_iff] at hret
    obtain ⟨rows, hrows, -⟩ := hret
    have hall := (returns_mapM_iff _).mp ⟨rows, hrows⟩
    refine Pointer.forall_children_iff.mp fun q hq => ?_
    have hq := hall q hq
    rw [returns_checkReplyType_bind, replyTypeToInteger_eq_string_iff] at hq
    exact hq.1

/-! ## All readers -/

/-- **A reader returns exactly on the replies it reads.** -/
theorem returns_value_iff (rd : Reader) (p : Pointer) :
    Returns (rd.value R p) ↔ rd.Reads R p.node := by
  cases rd with
  | extract =>
      rcases extractReply_ends (O := O) p with ⟨hr, hp⟩ | ⟨str, hr, hp⟩ | ⟨hr, -, hp⟩
      · exact iff_of_true hp hr
      · refine iff_of_false ?_ ?_
        · rw [Reader.value, hp]
          rintro ⟨x, ⟨⟩⟩
        · rw [Reader.Reads, hr]
          rintro ⟨⟩
      · refine iff_of_false ?_ hr
        rintro ⟨x, hx⟩
        rw [Reader.value] at hx
        rw [hx] at hp
        cases hp
  | string => exact returns_stringValue_iff
  | int =>
      rw [Reader.value, intValue, returns_checkReplyType_bind,
        replyTypeToInteger_eq_integer_iff]
      simp [Reader.Reads]
  | double => exact returns_bind_pure_iff.trans returns_doubleOf_iff
  | strings => exact returns_mapM_children_bind_iff (fun _ => returns_stringOf_iff) _
  | objects => exact returns_mapM_children_bind_iff (fun _ => returns_objectOf_iff) _
  | pop => exact returns_popValue_iff
  | ignore => simp [Reader.value, Reader.Reads]
  | rows => exact returns_rowsValue_iff
  | get => exact returns_getValue_iff
  | hget => exact returns_objectOf_iff
  | hgetall => exact returns_hgetallValue_iff
  | vector => exact returns_vectorValue_iff
  | listRange =>
      rw [Reader.value, listRangeValue, returns_checkReplyType_bind,
        replyTypeToInteger_eq_array_iff, returns_mapM_children_bind_iff
          (P := fun e => e.isString = true ∧ WholeDoubles e) fun q => ?_]
      · rfl
      · rw [returns_checkReplyType_bind, replyTypeToInteger_eq_string_iff,
          returns_vectorValue_iff]
  | listLPop => exact returns_listLPopValue_iff
  | listRangeAsStrings =>
      rw [Reader.value, listRangeAsStringsValue, returns_checkReplyType_bind,
        replyTypeToInteger_eq_array_iff, returns_mapM_children_bind_iff
          (P := fun e => e.isString = true) fun q => ?_]
      · rfl
      · have hstr := str?_isSome_of_isString (r := q.node)
        rw [returns_checkReplyType_bind, replyTypeToInteger_eq_string_iff,
          returns_stringOf_iff]
        exact ⟨fun h => h.1, fun h => ⟨h, hstr h⟩⟩
  | msgPackMatrix =>
      rw [Reader.value, msgPackMatrixValue, returns_checkReplyType_bind,
        replyTypeToInteger_eq_array_iff, returns_checked_msgpackRows_bind_iff]
      simp only [returns_msgPackRows_iff, Reader.Reads]
  | msgPackZMatrix =>
      rw [Reader.value, msgPackZMatrixValue, returns_mapM_msgpackRowOf_bind_iff]
      simp only [returns_msgPackRows_iff, Reader.Reads]

/-- Every reader but the extraction of a tree calls nothing. -/
theorem leaf_value {rd : Reader} (h : rd ≠ .extract) (p : Pointer) : Leaf (rd.value R p) := by
  cases rd with
  | extract => exact absurd rfl h
  | string => exact leaf_stringValue p
  | int => exact (leaf_checkReplyType p .integer).bind fun _ => .ret _
  | double => exact (leaf_doubleOf p).bind fun _ => .ret _
  | strings => exact (Leaf.mapM leaf_stringOf _).bind fun _ => .ret _
  | objects => exact (Leaf.mapM leaf_objectOf _).bind fun _ => .ret _
  | pop => exact leaf_popValue p
  | ignore => exact .ret _
  | rows => exact leaf_rowsValue p
  | get => exact leaf_getValue p
  | hget => exact leaf_objectOf p
  | hgetall => exact leaf_hgetallValue p
  | vector => exact leaf_vectorValue p
  | listRange =>
      refine (leaf_checkReplyType p .array).bind fun _ =>
        (Leaf.mapM (fun q => ?_) _).bind fun _ => .ret _
      exact (leaf_checkReplyType q .string).bind fun _ => leaf_vectorValue q
  | listLPop => exact leaf_listLPopValue p
  | listRangeAsStrings =>
      refine (leaf_checkReplyType p .array).bind fun _ =>
        (Leaf.mapM (fun q => ?_) _).bind fun _ => .ret _
      exact (leaf_checkReplyType q .string).bind fun _ => leaf_stringOf q
  | msgPackMatrix =>
      refine (leaf_checkReplyType p .array).bind fun _ =>
        (Leaf.mapM (fun q => ?_) _).bind leaf_msgPackRows
      exact (leaf_checkReplyType q .string).bind fun _ => leaf_msgpackRowOf q
  | msgPackZMatrix => exact (Leaf.mapM leaf_msgpackRowOf _).bind leaf_msgPackRows

end RcppRedis
