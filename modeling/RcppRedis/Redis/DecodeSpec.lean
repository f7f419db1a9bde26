import RcppRedis.Redis.Method
import RcppRedis.Hiredis.FormatSpec

/-!
# What the readers do with a reply

One specification for each way of reading a reply: whether it returns, and how it ends
when it does not.  All readers but the extraction of a tree call nothing, so each is one
of its leaves; the extraction frees a nested error node before it raises.

* `rawOf_eq`, `objectOf_eq` — the bytes and the object in a node.
* `extractReplyAt_ends` — a tree with no error and no unknown node in it is returned,
  every other one ends in an R error.
* `leaf_value` — no other reader calls anything.
-/

namespace Hiredis

namespace Reply

/-- The bytes that `str` and `len` describe. -/
def bytes (r : Reply) : Bytes := (r.str?.getD []).take r.len

@[simp] theorem length_bytes (r : Reply) : r.bytes.length = r.len := by
  unfold bytes
  cases r with
  | text type str => cases type <;> simp [str?, len]
  | _ => simp [len]

/-- A node whose `str` is null has length zero. -/
theorem len_eq_zero {r : Reply} (h : r.str? = none) : r.len = 0 := by
  cases r <;> simp_all [str?, len]

theorem len_le_length {r : Reply} {str : Bytes} (h : r.str? = some str) :
    r.len ≤ str.length := by
  cases r with
  | text type s =>
      simp only [str?, Option.some.injEq] at h
      subst h
      cases type <;> simp [len]
  | _ => simp [str?] at h

/-- A node of type string. -/
def isString : Reply → Bool
  | .string _ => true
  | _ => false

/-- A node of type integer. -/
def isInteger : Reply → Bool
  | .integer _ => true
  | _ => false

/-- A node of type array. -/
def isArray : Reply → Bool
  | .array _ => true
  | _ => false

/-- A node of type error. -/
def isError : Reply → Bool
  | .error _ => true
  | _ => false

/-- A tree of strings, status lines, integers and nils only. -/
inductive Extractable : Reply → Prop where
  | string (str : Bytes) : Extractable (.string str)
  | status (str : Bytes) : Extractable (.status str)
  | integer (n : ℤ) : Extractable (.integer n)
  | nil : Extractable .nil
  | array (element : List Reply) (h : ∀ r ∈ element, Extractable r) :
      Extractable (.array element)

end Reply
end Hiredis

namespace RcppRedis

open Bytes Hiredis Interact Code Prog

variable {O : Type} {R : Runtime O}

/-! ## Children -/

theorem Pointer.map_node_childrenFrom (p : Pointer) (i : ℕ) (element : List Reply) :
    (p.childrenFrom i element).map Pointer.node = element := by
  induction element generalizing i with
  | nil => rfl
  | cons r rs ih => rw [childrenFrom, List.map_cons, ih]

/-- The node is an element of the other one's. -/
def Pointer.IsChild (q p : Pointer) : Prop := ∃ i, q.id = p.id ∧ q.path = p.path ++ [i]

theorem Pointer.isChild_of_mem_childrenFrom {p q : Pointer} {i : ℕ} {element : List Reply}
    (h : q ∈ p.childrenFrom i element) : q.IsChild p := by
  induction element generalizing i with
  | nil => simp [childrenFrom] at h
  | cons r rs ih =>
      rw [childrenFrom, List.mem_cons] at h
      rcases h with rfl | h
      · exact ⟨i, rfl, rfl⟩
      · exact ih h

/-- The children's nodes are the elements. -/
@[simp] theorem Pointer.map_node_children (p : Pointer) :
    p.children.map Pointer.node = p.node.element := p.map_node_childrenFrom 0 _

/-- The children of an array of strings. -/
theorem forall₂_children {p : Pointer} {bs : List Bytes}
    (hp : p.node = .array (bs.map Reply.string)) :
    List.Forall₂ (fun q b => q.node = Reply.string b) p.children bs := by
  have hnodes : p.children.map Pointer.node = bs.map Reply.string := by
    rw [Pointer.map_node_children, hp]
    rfl
  rw [← List.forall₂_map_left_iff (f := Pointer.node) (R := fun r b => r = Reply.string b),
    hnodes, List.forall₂_map_left_iff]
  exact List.forall₂_same.mpr fun b _ => rfl

/-- A loop over the children of an array of strings. -/
theorem mapM_children_eq_ret {α β : Type} {read : Pointer → Code β} {b : α → Bytes} {y : α → β}
    {l : List α} {p : Pointer} (hp : p.node = .array ((l.map b).map Reply.string))
    (hread : ∀ x ∈ l, ∀ q : Pointer, q.node = .string (b x) → read q = .ret (y x)) :
    p.children.mapM read = .ret (l.map y) := by
  have hchildren := forall₂_children hp
  rw [List.forall₂_map_right_iff] at hchildren
  rw [mapM_eq_ret_iff, List.forall₂_map_right_iff]
  apply List.Forall₂.flip
  refine ((List.forall₂_and_left l p.children).mpr ⟨hread, hchildren.flip⟩).imp fun x q hq =>
    ?_
  exact hq.1 q hq.2

theorem Pointer.forall_children_iff {p : Pointer} {P : Reply → Prop} :
    (∀ q ∈ p.children, P q.node) ↔ ∀ r ∈ p.node.element, P r := by
  rw [← p.map_node_children, List.forall_mem_map]

theorem forall_take_children_iff {p : Pointer} {P : Reply → Prop} (n : ℕ) :
    (∀ q ∈ p.children.take n, P q.node) ↔ ∀ r ∈ p.node.element.take n, P r := by
  rw [← p.map_node_children, ← List.map_take, List.forall_mem_map]

/-! ## Type checks -/

theorem replyTypeToInteger_eq_string_iff {r : Reply} :
    replyTypeToInteger r = some .string ↔ r.isString = true := by
  unfold replyTypeToInteger Reply.isString
  split <;> simp_all

theorem replyTypeToInteger_eq_integer_iff {r : Reply} :
    replyTypeToInteger r = some .integer ↔ r.isInteger = true := by
  unfold replyTypeToInteger Reply.isInteger
  split <;> simp_all

theorem isInteger_iff {r : Reply} : r.isInteger = true ↔ ∃ n, r = .integer n := by
  unfold Reply.isInteger
  split <;> simp_all

theorem replyTypeToInteger_eq_array_iff {r : Reply} :
    replyTypeToInteger r = some .array ↔ r.isArray = true := by
  unfold replyTypeToInteger Reply.isArray
  split <;> simp_all

theorem replyTypeToInteger_eq_error_iff {r : Reply} :
    replyTypeToInteger r = some .error ↔ r.isError = true := by
  unfold replyTypeToInteger Reply.isError
  split <;> simp_all

theorem replyTypeToInteger_eq_nil_iff {r : Reply} :
    replyTypeToInteger r = some .nil ↔ r = .nil := by
  unfold replyTypeToInteger
  split <;> simp_all

/-- A failed type check is an R error. -/
theorem checkReplyType_eq (p : Pointer) (t : ReplyType) :
    checkReplyType p t = .ret () ∧ replyTypeToInteger p.node = some t ∨
      (∃ e, checkReplyType p t = .raise e) ∧ replyTypeToInteger p.node ≠ some t := by
  unfold checkReplyType
  by_cases h : replyTypeToInteger p.node = some t
  · exact .inl ⟨if_pos h, h⟩
  · exact .inr ⟨⟨_, if_neg h⟩, h⟩

theorem checkReplyType_of_eq {p : Pointer} {t : ReplyType}
    (h : replyTypeToInteger p.node = some t) : checkReplyType p t = .ret () := if_pos h

theorem leaf_checkReplyType (p : Pointer) (t : ReplyType) : Leaf (checkReplyType p t) := by
  rcases checkReplyType_eq p t with ⟨h, -⟩ | ⟨⟨e, h⟩, -⟩
  · rw [h]; exact .ret ()
  · rw [h]; exact .raise e

theorem returns_checkReplyType_bind {α : Type} {p : Pointer} {t : ReplyType}
    {f : Unit → Code α} :
    Returns (checkReplyType p t >>= f) ↔ replyTypeToInteger p.node = some t ∧
    Returns (f ()) := by
  rcases checkReplyType_eq p t with ⟨h, ht⟩ | ⟨⟨e, h⟩, ht⟩
  · simp [h, ht]
  · simp [h, ht]

/-! ## Strings -/

theorem leaf_stringOf (p : Pointer) : Leaf (stringOf p) := by
  unfold stringOf
  split
  · exact .fault _
  · exact .ret _

theorem stringOf_of_some {p : Pointer} {str : Bytes} (h : p.node.str? = some str) :
    stringOf p = .ret (.ofBuffer str) := by simp [stringOf, h]

theorem stringOf_of_none {p : Pointer} (h : p.node.str? = none) :
    stringOf p = .fault .nullStr := by simp [stringOf, h]

theorem stringsValue_of_strings {l : List Bytes} {p : Pointer}
    (hp : p.node = .array (l.map .string)) :
    stringsValue (O := O) p = .ret (.str (l.map CStr.ofBuffer)) := by
  have hread : p.children.mapM stringOf = .ret (l.map CStr.ofBuffer) := by
    refine mapM_children_eq_ret (b := id) (by rw [List.map_id, hp]) fun b _ q hq => ?_
    exact stringOf_of_some (by rw [hq]; rfl)
  rw [stringsValue, hread]
  rfl

theorem returns_stringOf_iff {p : Pointer} :
    Returns (stringOf p) ↔ p.node.str?.isSome = true := by
  rcases h : p.node.str? with _ | str
  · simp [stringOf_of_none h]
  · simp [stringOf_of_some h]

theorem str?_isSome_of_isString {r : Reply} (h : r.isString = true) :
    r.str?.isSome = true := by
  unfold Reply.isString at h
  split at h
  · rfl
  · cases h

/-! ## Copies -/

theorem leaf_memcpy (size : ℕ) (p : Pointer) (n : ℕ) : Leaf (memcpy size p n) := by
  rw [memcpy]
  by_cases hn : n = 0
  · rw [if_pos hn]
    exact .ret _
  · rw [if_neg hn]
    cases p.node.str? with
    | none => exact .fault _
    | some str =>
        dsimp only
        split_ifs
        · exact .fault _
        · exact .fault _
        · exact .ret _

/-- A copy that stays inside its source and its destination. -/
theorem memcpy_eq {size n : ℕ} {p : Pointer} (hlen : n ≤ p.node.len) (hsize : n ≤ size) :
    memcpy size p n = .ret (p.node.bytes.take n) := by
  rw [memcpy]
  by_cases hn : n = 0
  · simp [hn]
  · rw [if_neg hn]
    rcases h : p.node.str? with _ | str
    · have := Reply.len_eq_zero h
      omega
    · have hle := Reply.len_le_length h
      have hsource : ¬ str.length + 1 < n := by omega
      have hdest : ¬ size < n := by omega
      simp only [if_neg hsource, if_neg hdest]
      rw [Reply.bytes, h, Option.getD_some, List.take_take, Nat.min_eq_left hlen,
        List.take_append_of_le_length (by omega)]
      rfl

theorem toSize_natCast (n : ℕ) : toSize n = n := by simp [toSize]

/-- The length of a node, read as an `int`, is never more than its length. -/
theorem toInt32_natCast_le (n : ℕ) : toInt32 n ≤ n := by
  rw [toInt32_eq_bmod, Int.bmod_def]
  split_ifs <;> omega

theorem rawOf_eq (p : Pointer) :
    rawOf p = if toInt32 p.node.len < 0 then .raise .allocation
      else .ret (p.node.bytes.take (toInt32 p.node.len).toNat) := by
  unfold rawOf
  simp only
  split_ifs with h
  · rfl
  · obtain ⟨nc, hnc⟩ := Int.eq_ofNat_of_zero_le (not_lt.mp h)
    have hle := toInt32_natCast_le p.node.len
    rw [hnc, toSize_natCast, Int.natAbs_natCast, Int.toNat_natCast]
    exact memcpy_eq (by omega) le_rfl

/-- Up to `2 ^ 31` bytes all of a node is copied. -/
theorem rawOf_of_lt {p : Pointer} (h : p.node.len < 2 ^ 31) : rawOf p = .ret p.node.bytes := by
  have hself : toInt32 p.node.len = p.node.len := toInt32_eq_self (by omega) (by omega)
  rw [rawOf_eq, hself, if_neg (by omega), Int.toNat_natCast, List.take_of_length_le (by simp)]

theorem leaf_rawOf (p : Pointer) : Leaf (rawOf p) := by
  rw [rawOf_eq]
  split_ifs
  · exact .raise _
  · exact .ret _

/-- The object in a node: the `unserializeFromRaw` of as many bytes as an `int` says. -/
def Runtime.decode (R : Runtime O) (r : Reply) : Except RError (SEXP O) :=
  if toInt32 r.len < 0 then .error .allocation
  else
    match R.unserializeFromRaw (r.bytes.take (toInt32 r.len).toNat) with
    | none => .error .unserialize
    | some obj => .ok obj

/-- A node that holds an object. -/
def Decodes (R : Runtime O) (r : Reply) : Prop := ∃ obj, R.decode r = .ok obj

theorem Runtime.decode_of_lt {r : Reply} {obj : SEXP O} (h : r.len < 2 ^ 31)
    (hobj : R.unserializeFromRaw r.bytes = some obj) : R.decode r = .ok obj := by
  have hself : toInt32 r.len = r.len := toInt32_eq_self (by omega) (by omega)
  rw [decode, hself, if_neg (by omega), Int.toNat_natCast, List.take_of_length_le (by simp),
    hobj]

theorem objectOf_eq (p : Pointer) :
    objectOf R p =
      match R.decode p.node with
      | .ok obj => .ret obj
      | .error e => .raise e := by
  rw [objectOf, rawOf_eq, Runtime.decode]
  split_ifs
  · rfl
  · rw [ret_bind, unserializeFromRaw]
    cases R.unserializeFromRaw (p.node.bytes.take (toInt32 p.node.len).toNat) <;> rfl

theorem leaf_objectOf (p : Pointer) : Leaf (objectOf R p) := by
  rw [objectOf_eq]
  split
  · exact .ret _
  · exact .raise _

theorem returns_objectOf_iff {p : Pointer} : Returns (objectOf R p) ↔ Decodes R p.node := by
  rw [objectOf_eq, Decodes]
  split
  · rename_i obj h
    simp [h]
  · rename_i e h
    simp [h]

theorem objectOf_ne_fault (p : Pointer) (f : Fault) : objectOf R p ≠ .fault f := by
  rw [objectOf_eq]
  split <;> simp

/-! ## Vectors of doubles -/

theorem leaf_numericOf (p : Pointer) : Leaf (numericOf p) :=
  (leaf_memcpy _ _ _).bind fun _ => .ret _

/-- The length of a node holds a whole number of doubles, as far as an `int` tells. -/
def WholeDoubles (r : Reply) : Prop := 0 ≤ toInt32 r.len ∧ 8 ∣ toInt32 r.len

theorem numericOf_of_wholeDoubles {p : Pointer} (h : WholeDoubles p.node) :
    numericOf p = .ret (Double.vectorOfBytes
      (p.node.bytes.take (toInt32 p.node.len).toNat)) := by
  obtain ⟨h0, hdvd⟩ := h
  obtain ⟨nc, hnc⟩ := Int.eq_ofNat_of_zero_le h0
  have hle := toInt32_natCast_le p.node.len
  have hlt := toInt32_lt p.node.len
  have hmod : ((nc : ℤ) % 0x100000000).toNat = nc := by omega
  rw [numericOf]
  simp only [hnc, toSize_natCast, hmod, Int.toNat_natCast] at hle hdvd ⊢
  rw [memcpy_eq (by omega) (by omega)]
  rfl

/-- Every other length makes the copy leave its source or its destination. -/
theorem numericOf_of_not_wholeDoubles {p : Pointer} (h : ¬ WholeDoubles p.node) :
    numericOf p = .fault .memcpySource ∨ numericOf p = .fault .memcpyDestination := by
  have hlt := toInt32_lt p.node.len
  have hge := toInt32_ge p.node.len
  have hlen : p.node.len ≠ 0 := by
    rintro h0
    exact h (by simp [WholeDoubles, h0, toInt32_eq_self])
  obtain ⟨str, hstr⟩ : ∃ str, p.node.str? = some str := by
    rcases hs : p.node.str? with _ | str
    · exact absurd (Reply.len_eq_zero hs) hlen
    · exact ⟨str, rfl⟩
  have hsize : 8 * ((toInt32 p.node.len % 0x100000000).toNat / 8) <
      toSize (toInt32 p.node.len) := by
    rw [toSize]
    simp only [WholeDoubles, not_and_or, not_le] at h
    rcases h with h | h <;> split_ifs <;> omega
  rw [numericOf]
  simp only [memcpy, hstr, if_pos hsize,
    if_neg (show ¬ toSize (toInt32 p.node.len) = 0 by omega)]
  split_ifs
  · exact .inl rfl
  · exact .inr rfl

theorem returns_numericOf_iff {p : Pointer} : Returns (numericOf p) ↔ WholeDoubles p.node := by
  by_cases h : WholeDoubles p.node
  · simp [numericOf_of_wholeDoubles h, h]
  · rcases numericOf_of_not_wholeDoubles h with hf | hf <;> simp [hf, h]

/-! ## Extraction -/

/-- The extraction of a tree is left below its root: at a node of an unknown type, or at
an error node, which is freed first. -/
inductive Stops (id : ℕ) (path : List ℕ) {α : Type} : Code α → Prop where
  | raise (e : RError) : Stops id path (.raise e)
  | free (i : ℕ) (sub : List ℕ) (str : Bytes) (e : RError) :
      Stops id path
        (.call (.freeReplyObject ⟨id, path ++ i :: sub, .error str⟩) fun _ => .raise e)

theorem Stops.bind {id : ℕ} {path : List ℕ} {α β : Type} {p : Code α} (h : Stops id path p)
    (f : α → Code β) : Stops id path (p >>= f) := by
  cases h with
  | raise e => exact .raise e
  | free i sub str e => exact .free i sub str e

theorem Stops.child {id : ℕ} {path : List ℕ} {i : ℕ} {α : Type} {p : Code α}
    (h : Stops id (path ++ [i]) p) : Stops id path p := by
  cases h with
  | raise e => exact .raise e
  | free j sub str e =>
      rw [List.append_assoc, List.singleton_append]
      exact .free i (j :: sub) str e

/-- How the extraction of a node ends. -/
def ExtractEnds (id : ℕ) (path : List ℕ) (r : Reply) (p : Code (SEXP O)) : Prop :=
  (r.Extractable ∧ Returns p) ∨
  (∃ str, r = .error str ∧
    p = .call (.freeReplyObject ⟨id, path, r⟩) fun _ => .raise (.stop (cString str))) ∨
  (¬ r.Extractable ∧ r.isError = false ∧ Stops id path p)

theorem extractArrayAt_ends (id : ℕ) (path : List ℕ) (i : ℕ) (element : List Reply)
    (h : ∀ r ∈ element, ∀ path, ExtractEnds id path r (extractReplyAt (O := O) id path r)) :
    ((∀ r ∈ element, r.Extractable) ∧ Returns (extractArrayAt (O := O) id path i element)) ∨
    ((¬ ∀ r ∈ element, r.Extractable) ∧
      Stops id path (extractArrayAt (O := O) id path i element)) := by
  induction element generalizing i with
  | nil =>
      refine .inl ⟨by simp, ?_⟩
      rw [extractArrayAt]
      exact ⟨_, rfl⟩
  | cons r rest ih =>
      rw [extractArrayAt]
      rcases h r List.mem_cons_self (path ++ [i]) with ⟨hr, x, hx⟩ | ⟨str, rfl, hx⟩ |
        ⟨hr, -, hx⟩
      · rcases ih (i + 1) fun s hs => h s (List.mem_cons_of_mem r hs) with ⟨hrest, xs, hxs⟩ |
          ⟨hrest, hxs⟩
        · refine .inl ⟨List.forall_mem_cons.mpr ⟨hr, hrest⟩, ?_⟩
          rw [hx, ret_bind, hxs]
          exact ⟨_, rfl⟩
        · refine .inr ⟨fun hall => hrest (List.forall_mem_cons.mp hall).2, ?_⟩
          rw [hx, ret_bind]
          exact hxs.bind _
      · have herror : ¬ (Reply.error str).Extractable := by rintro ⟨⟩
        refine .inr ⟨fun hall => herror (List.forall_mem_cons.mp hall).1, ?_⟩
        rw [hx]
        exact .free i [] str _
      · refine .inr ⟨fun hall => hr (List.forall_mem_cons.mp hall).1, ?_⟩
        exact hx.child.bind _

/-- **The extraction of a tree** returns when no node is an error or of an unknown type.
A root of type error is freed; below a root of another type it is left early. -/
theorem extractReplyAt_ends (id : ℕ) (path : List ℕ) (r : Reply) :
    ExtractEnds id path r (extractReplyAt (O := O) id path r) := by
  induction r generalizing path with
  | text type str =>
      cases type with
      | string => exact .inl ⟨.string str, by rw [extractReplyAt]; exact ⟨_, rfl⟩⟩
      | status => exact .inl ⟨.status str, by rw [extractReplyAt]; exact ⟨_, rfl⟩⟩
      | error => exact .inr (.inl ⟨str, rfl, by rw [extractReplyAt]; rfl⟩)
      | double =>
          refine .inr (.inr ⟨by rintro ⟨⟩, rfl, ?_⟩)
          rw [extractReplyAt]
          exact .raise _
      | verb =>
          refine .inr (.inr ⟨by rintro ⟨⟩, rfl, ?_⟩)
          rw [extractReplyAt]
          exact .raise _
  | number type n =>
      cases type with
      | integer => exact .inl ⟨.integer n, by rw [extractReplyAt]; exact ⟨_, rfl⟩⟩
      | bool =>
          refine .inr (.inr ⟨by rintro ⟨⟩, rfl, ?_⟩)
          rw [extractReplyAt]
          exact .raise _
  | nil => exact .inl ⟨.nil, by rw [extractReplyAt]; exact ⟨_, rfl⟩⟩
  | aggregate type element ih =>
      cases type with
      | array =>
          rw [extractReplyAt]
          rcases extractArrayAt_ends (O := O) id path 0 element fun r hr path =>
            ih r hr path with
            ⟨hall, xs, hxs⟩ | ⟨hall, hstop⟩
          · refine .inl ⟨.array element hall, ?_⟩
            rw [hxs]
            exact ⟨_, rfl⟩
          · refine .inr (.inr ⟨fun h => ?_, rfl, hstop.bind _⟩)
            cases h with
            | array element h => exact hall h
      | map =>
          refine .inr (.inr ⟨by rintro ⟨⟩, rfl, ?_⟩)
          rw [extractReplyAt]
          exact .raise _
      | set =>
          refine .inr (.inr ⟨by rintro ⟨⟩, rfl, ?_⟩)
          rw [extractReplyAt]
          exact .raise _
      | push =>
          refine .inr (.inr ⟨by rintro ⟨⟩, rfl, ?_⟩)
          rw [extractReplyAt]
          exact .raise _

theorem extractReply_ends (p : Pointer) :
    ExtractEnds p.id p.path p.node (extractReply (O := O) p) := extractReplyAt_ends _ _ _

end RcppRedis
