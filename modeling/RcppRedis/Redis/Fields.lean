import RcppRedis.Redis.Errors

/-!
# Fields that a reply does not carry

Which fields of a `redisReply` are set depends on its type.  A method that reads a field
without looking at the type may dereference a null `str`, index `element` beyond `elements`, or
read a reply that was never set.  `Method.Carried` says for which answers none of this happens.

* `Reader.Carries` — the replies whose fields a reader finds set.
* `no_unset_field_iff_carried` — a run ends without such an access exactly when the answer to
  its request carries what the method reads.
-/

namespace RcppRedis

open Bytes Hiredis Interact Code Prog

variable {O : Type} {R : Runtime O} {σ α β : Type} (E : Env σ)

/-- An access to a field that is not set. -/
def Fault.OnField : Fault → Prop
  | .unsetReply | .nullStr | .elementRange => True
  | _ => False

/-- The replies that carry every field that the reader reads. -/
def Reader.Carries (R : Runtime O) : Reader → Reply → Prop
  | .string, r => r.str?.isSome = true
  | .strings, r => ∀ e ∈ r.element, e.str?.isSome = true
  | .rows, r => r.isArray = true → r.element ≠ []
  | .hgetall, r => ∀ i < r.elements / 2,
      (∀ j < i, ∃ value ∈ r.element[2 * j + 1]?, Decodes R value) →
        2 * i + 1 < 2 ^ 31 ∧ ∃ name ∈ r.element[2 * i]?, name.str?.isSome = true
  | _, _ => True

/-- The replies that carry what `listen` reads: in string mode it reads `str` of the third
element, if the first two can be extracted. -/
def ListenCarries (type : CStr) (r : Reply) : Prop :=
  type = stringMode → (∀ e ∈ r.element.take 2, e.Extractable) →
    ∀ e ∈ r.element[2]?, e.str?.isSome = true

/-- The answers that carry what the plan reads; no answer at all is `none`. -/
def Plan.Carried (R : Runtime O) : Plan O → Option Reply → Prop
  | .command _ rd, some r => rd.Carries R r
  | .listen type, some r => ListenCarries type r
  | .listen _, none => False
  | _, _ => True

/-- The answers that carry what the method reads. -/
def Method.Carried (R : Runtime O) (m : Method O) (answer : Option Reply) : Prop :=
  (m.plan R).Carried R answer

/-! ## Single accesses -/

/-- A program that ends in an access to an unset field. -/
abbrev FieldFault (p : Code α) : Prop := FaultsWith Fault.OnField p

theorem fieldFault_stringOf_iff {p : Pointer} :
    FieldFault (stringOf p) ↔ ¬ p.node.str?.isSome = true := by
  rcases h : p.node.str? with _ | str
  · simp [stringOf_of_none h, Fault.OnField]
  · simp [stringOf_of_some h]

theorem not_fieldFault_checkReplyType (p : Pointer) (t : ReplyType) :
    ¬ FieldFault (checkReplyType p t) := by
  rcases checkReplyType_eq p t with ⟨h, -⟩ | ⟨⟨e, h⟩, -⟩ <;> simp [FieldFault, h]

theorem fieldFault_checkReplyType_bind_iff {p : Pointer} {t : ReplyType} {f : Unit → Code α} :
    FieldFault (checkReplyType p t >>= f) ↔
      replyTypeToInteger p.node = some t ∧ FieldFault (f ()) := by
  rcases checkReplyType_eq p t with ⟨h, ht⟩ | ⟨⟨e, h⟩, ht⟩ <;> simp [FieldFault, h, ht]

theorem not_fieldFault_objectOf (p : Pointer) : ¬ FieldFault (objectOf R p) := by
  rintro ⟨f, -, hf⟩
  exact objectOf_ne_fault p f hf

theorem not_fieldFault_numericOf (p : Pointer) : ¬ FieldFault (numericOf p) := by
  by_cases h : WholeDoubles p.node
  · simp [FieldFault, numericOf_of_wholeDoubles h]
  · rcases numericOf_of_not_wholeDoubles h with hf |
      hf <;> simp [FieldFault, hf, Fault.OnField]

theorem not_fieldFault_vectorValue (p : Pointer) : ¬ FieldFault (vectorValue (O := O) p) := by
  rw [vectorValue, FieldFault, faultsWith_bind_pure_iff]
  exact not_fieldFault_numericOf p

/-- A copy out of a string node may leave its source, but it has one. -/
theorem not_fieldFault_memcpy {size n : ℕ} {p : Pointer} (h : p.node.isString = true) :
    ¬ FieldFault (memcpy size p n) := by
  obtain ⟨str, hstr⟩ := Option.isSome_iff_exists.mp (str?_isSome_of_isString h)
  rw [memcpy, hstr]
  dsimp only
  split_ifs <;> simp [FieldFault, Fault.OnField]

theorem fieldFault_elementAt_bind_iff {p : Pointer} {i : ℕ} (h : i < p.node.elements)
    {f : Pointer → Code α} :
    FieldFault (elementAt p i >>= f) ↔
      ∃ r ∈ p.node.element[i]?, FieldFault (f ⟨p.id, p.path ++ [i], r⟩) := by
  rw [elementAt_natCast, List.getElem?_eq_getElem h]
  simp [FieldFault]

/-! ## Readers -/

/-- The rows of a matrix: only the first element of an empty array is not there. -/
theorem fieldFault_rowsValue_iff {p : Pointer} :
    FieldFault (rowsValue (O := O) p) ↔ ¬ Reader.Carries R .rows p.node := by
  rw [rowsValue, fieldFault_checkReplyType_bind_iff, replyTypeToInteger_eq_array_iff,
    Reader.Carries]
  by_cases harray : p.node.isArray = true
  · rcases he : p.node.element with _ | ⟨first, rest⟩
    · simp [harray, elementAt, he, FieldFault, Fault.OnField]
    · have hfirst : elementAt p 0 = .ret ⟨p.id, p.path ++ [0], first⟩ := by
        simp [elementAt, he]
      refine iff_of_false ?_ (by simp [harray])
      rw [hfirst, ret_bind]
      dsimp only
      split_ifs with hrows
      · simp [FieldFault]
      rw [FieldFault, faultsWith_bind_pure_iff]
      refine fun hfault => not_faultsWith_mapM (fun q _ => ?_) hfault.2
      change ¬ FieldFault _
      rw [fieldFault_checkReplyType_bind_iff, replyTypeToInteger_eq_string_iff]
      rintro ⟨hq, hcopy⟩
      exact not_fieldFault_memcpy hq (faultsWith_bind_pure_iff.mp hcopy)
  · simp [harray]

/-- A name without `str` is read, or the index of its value is no `int` any more. -/
theorem fieldFault_hgetallEntry_iff {p : Pointer} {i : ℕ} (hi : i < p.node.elements / 2)
    (hsmall : i ≤ 2 ^ 30) :
    FieldFault (hgetallEntry R p i) ↔
      ¬ (2 * i + 1 < 2 ^ 31 ∧ ∃ name ∈ p.node.element[2 * i]?, name.str?.isSome = true) := by
  have hlt : 2 * i < p.node.elements := by omega
  rw [hgetallEntry, fieldFault_elementAt_bind_iff hlt, List.getElem?_eq_getElem hlt]
  simp only [Option.mem_some_iff, exists_eq_left']
  generalize p.node.element[2 * i] = name
  rcases hs : name.str? with _ | str
  · rw [stringOf_of_none hs]
    simp [FieldFault, Fault.OnField]
  · rw [stringOf_of_some hs, ret_bind]
    by_cases hint : 2 * i + 1 < 2 ^ 31
    · have hidx : toInt32 ((2 * i + 1 : ℕ) : ℤ) = (2 * i + 1 : ℕ) :=
        toInt32_eq_self (by omega) (by omega)
      refine iff_of_false ?_ (not_not_intro ⟨hint, rfl⟩)
      rw [hidx, fieldFault_elementAt_bind_iff (by omega)]
      rintro ⟨value, -, hvalue⟩
      exact not_fieldFault_objectOf _ (faultsWith_bind_pure_iff.mp hvalue)
    · obtain rfl : i = 2 ^ 30 := by omega
      have hidx : toInt32 ((2 * 2 ^ 30 + 1 : ℕ) : ℤ) = -(2 ^ 31) + 1 := by
        rw [toInt32_eq_bmod]
        decide
      refine iff_of_true ?_ (by simp)
      rw [hidx, elementAt, if_neg (by omega), fault_bind]
      exact ⟨.elementRange, trivial, rfl⟩

theorem fieldFault_hgetallValue_iff {p : Pointer} :
    FieldFault (hgetallValue R p) ↔ ¬ Reader.Carries R .hgetall p.node := by
  rw [hgetallValue, FieldFault, faultsWith_bind_pure_iff, faultsWith_mapM_range_iff,
    Reader.Carries]
  constructor
  · rintro ⟨i, hi, hpre, hfault⟩ hcarries
    have hsmall : i ≤ 2 ^ 30 := by
      by_contra hlarge
      exact not_returns_hgetallEntry p (hpre (2 ^ 30) (by omega))
    refine (fieldFault_hgetallEntry_iff hi hsmall).mp hfault (hcarries i hi fun j hj => ?_)
    exact ((returns_hgetallEntry_iff (by omega)).mp (hpre j hj)).2
  · intro hcarries
    -- the first index at which the condition fails
    have hex : ∃ i, i < p.node.elements / 2 ∧
        (∀ j < i, ∃ value ∈ p.node.element[2 * j + 1]?, Decodes R value) ∧
        ¬ (2 * i + 1 < 2 ^ 31 ∧ ∃ name ∈ p.node.element[2 * i]?, name.str?.isSome = true) := by
      by_contra hnone
      push Not at hnone
      exact hcarries fun i hi hdec => hnone i hi hdec
    classical
    obtain ⟨hi, hdec, hbad⟩ := Nat.find_spec hex
    have hleast := fun j hj => Nat.find_min hex (m := j) hj
    generalize Nat.find hex = i at hi hdec hbad hleast
    have hgood (j : ℕ) (hj : j < i) :
        2 * j + 1 < 2 ^ 31 ∧ ∃ name ∈ p.node.element[2 * j]?, name.str?.isSome = true := by
      by_contra hj'
      exact hleast j hj ⟨by omega, fun k hk => hdec k (by omega), hj'⟩
    have hsmall : i ≤ 2 ^ 30 := by
      by_contra hlarge
      have := (hgood (2 ^ 30) (by omega)).1
      omega
    refine ⟨i, hi, fun j hj => ?_, (fieldFault_hgetallEntry_iff hi hsmall).mpr hbad⟩
    obtain ⟨hint, hname⟩ := hgood j hj
    exact (returns_hgetallEntry_iff hint).mpr ⟨hname, hdec j hj⟩

theorem fieldFault_stringsValue_iff {p : Pointer} :
    FieldFault (stringsValue (O := O) p) ↔ ¬ ∀ e ∈ p.node.element, e.str?.isSome = true := by
  rw [stringsValue, FieldFault, faultsWith_bind_pure_iff, ← Pointer.forall_children_iff]
  constructor
  · rw [faultsWith_mapM_iff]
    rintro ⟨pre, q, post, hl, -, hq⟩ hall
    exact fieldFault_stringOf_iff.mp hq (hall q (by simp [hl]))
  · intro hnot
    -- `stringOf` either returns or reads a null pointer, so what does not return faults
    have hret : ¬ Returns (p.children.mapM stringOf) := by
      rw [returns_mapM_iff]
      exact fun h => hnot fun q hq => returns_stringOf_iff.mp (h q hq)
    rw [faultsWith_mapM_iff]
    revert hret
    induction p.children with
    | nil => exact fun h => absurd ⟨[], rfl⟩ h
    | cons q l ih =>
        intro hret
        by_cases hq : q.node.str?.isSome = true
        · obtain ⟨pre, r, post, rfl, hpre, hr⟩ := ih fun hl => hret (by
            rw [returns_mapM_iff] at hl ⊢
            exact List.forall_mem_cons.mpr ⟨returns_stringOf_iff.mpr hq, hl⟩)
          exact ⟨q :: pre, r, post, rfl,
            List.forall_mem_cons.mpr ⟨returns_stringOf_iff.mpr hq, hpre⟩, hr⟩
        · exact ⟨[], q, l, rfl, by simp, fieldFault_stringOf_iff.mpr hq⟩

theorem not_fieldFault_msgpackRowOf (p : Pointer) : ¬ FieldFault (msgpackRowOf R p) := by
  rw [msgpackRowOf]
  split <;> simp [FieldFault]

theorem not_fieldFault_msgPackRows (vecs : List (List Double)) :
    ¬ FieldFault (msgPackRows (O := O) vecs) := by
  unfold msgPackRows
  split
  · simp [FieldFault, Fault.OnField]
  · rw [FieldFault, faultsWith_bind_pure_iff]
    refine not_faultsWith_mapM fun row _ => ?_
    rw [firstColumns]
    split_ifs <;> simp [Fault.OnField]

/-- A program that checks an array and then reads its string elements. -/
theorem not_fieldFault_checked {p : Pointer} {f : Pointer → Code α} {g : List α → Code β}
    (hf : ∀ q, q.node.isString = true → ¬ FieldFault (f q)) (hg : ∀ x, ¬ FieldFault (g x)) :
    ¬ FieldFault (do
      checkReplyType p .array
      let x ← p.children.mapM fun node => do
        checkReplyType node .string
        f node
      g x) := by
  rw [fieldFault_checkReplyType_bind_iff, FieldFault, faultsWith_bind_iff]
  rintro ⟨-, hloop | ⟨x, -, hx⟩⟩
  · refine not_faultsWith_mapM (fun q _ => ?_) hloop
    change ¬ FieldFault _
    rw [fieldFault_checkReplyType_bind_iff, replyTypeToInteger_eq_string_iff]
    exact fun h => hf q h.1 h.2
  · exact hg x hx

theorem not_fieldFault_extractReply (p : Pointer) :
    ¬ FieldFault (extractReply (O := O) p) := by
  rintro ⟨f, -, hf⟩
  rcases extractReply_ends (O := O) p with ⟨-, x, hx⟩ | ⟨str, -, hx⟩ | ⟨-, -, hx⟩
  · rw [hf] at hx
    cases hx
  · rw [hf] at hx
    cases hx
  · rw [hf] at hx
    cases hx

/-- **A reader accesses an unset field** exactly when the reply does not carry it. -/
theorem fieldFault_value_iff (rd : Reader) (p : Pointer) :
    FieldFault (rd.value R p) ↔ ¬ rd.Carries R p.node := by
  cases rd with
  | extract => exact iff_of_false (not_fieldFault_extractReply p) (not_not_intro trivial)
  | string => exact faultsWith_bind_pure_iff.trans fieldFault_stringOf_iff
  | int =>
      refine iff_of_false (fun h => ?_) (not_not_intro trivial)
      exact not_fieldFault_checkReplyType p .integer (faultsWith_bind_pure_iff.mp h)
  | double =>
      refine iff_of_false (fun h => ?_) (not_not_intro trivial)
      exact not_fieldFault_checkReplyType p .integer
        (faultsWith_bind_pure_iff.mp (faultsWith_bind_pure_iff.mp h))
  | strings => exact fieldFault_stringsValue_iff
  | objects =>
      refine iff_of_false (fun h => ?_) (not_not_intro trivial)
      exact not_faultsWith_mapM (fun q _ => not_fieldFault_objectOf q)
        (faultsWith_bind_pure_iff.mp h)
  | pop =>
      refine iff_of_false ?_ (not_not_intro trivial)
      rw [Reader.value, popValue]
      split_ifs
      · simp [FieldFault]
      · rw [fieldFault_checkReplyType_bind_iff]
        exact fun h => not_fieldFault_objectOf p h.2
  | ignore => exact iff_of_false (by simp [Reader.value, FieldFault]) (not_not_intro trivial)
  | rows => exact fieldFault_rowsValue_iff
  | get =>
      refine iff_of_false ?_ (not_not_intro trivial)
      rw [Reader.value, getValue]
      split_ifs
      · simp [FieldFault]
      · exact not_fieldFault_objectOf p
  | hget => exact iff_of_false (not_fieldFault_objectOf p) (not_not_intro trivial)
  | hgetall => exact fieldFault_hgetallValue_iff
  | vector => exact iff_of_false (not_fieldFault_vectorValue p) (not_not_intro trivial)
  | listRange =>
      refine iff_of_false ?_ (not_not_intro trivial)
      exact not_fieldFault_checked (fun q _ => not_fieldFault_vectorValue q)
        (fun x => by simp [FieldFault])
  | listLPop =>
      refine iff_of_false ?_ (not_not_intro trivial)
      rw [Reader.value, listLPopValue]
      split_ifs
      · simp [FieldFault]
      · rw [fieldFault_checkReplyType_bind_iff, replyTypeToInteger_eq_string_iff]
        rintro ⟨hp, h⟩
        exact fieldFault_stringOf_iff.mp (faultsWith_bind_pure_iff.mp h)
          (str?_isSome_of_isString hp)
  | listRangeAsStrings =>
      refine iff_of_false ?_ (not_not_intro trivial)
      refine not_fieldFault_checked (fun q hq h => ?_) (fun x => by simp [FieldFault])
      exact fieldFault_stringOf_iff.mp h (str?_isSome_of_isString hq)
  | msgPackMatrix =>
      refine iff_of_false ?_ (not_not_intro trivial)
      exact not_fieldFault_checked (fun q _ => not_fieldFault_msgpackRowOf q)
        not_fieldFault_msgPackRows
  | msgPackZMatrix =>
      refine iff_of_false ?_ (not_not_intro trivial)
      rw [Reader.value, msgPackZMatrixValue, FieldFault, faultsWith_bind_iff]
      rintro (h | ⟨x, -, h⟩)
      · exact not_faultsWith_mapM (fun q _ => not_fieldFault_msgpackRowOf q) h
      · exact not_fieldFault_msgPackRows x h

/-! ## Runs -/

/-- A value that was read and freed faults where the reading did. -/
theorem run_thenFree_fault_iff {x : Code α} (hx : Leaf x) (p : Pointer) (w : World σ)
    (f : Fault) : (run E.handler (thenFree p x) w).1 = .fault f ↔ x = .fault f := by
  cases hx with
  | ret a => simp [run_thenFree_ret]
  | raise e => simp [run_thenFree_raise]
  | fault f' => simp [run_thenFree_fault]

theorem run_hget_ne_fault (p : Pointer) (w : World σ) (f : Fault) :
    (run E.handler (Reader.code R .hget p) w).1 ≠ .fault f := by
  rw [Reader.code, rawOf_eq]
  split_ifs
  · rintro ⟨⟩
  · rw [run_thenFree_ret_bind, unserializeFromRaw]
    split <;> rintro ⟨⟩

/-- A reader's run ends in an unset field exactly when its value does. -/
theorem run_code_fieldFault_iff (rd : Reader) (p : Pointer) (w : World σ) :
    (∃ f, f.OnField ∧ (run E.handler (rd.code R p) w).1 = .fault f) ↔
      FieldFault (rd.value R p) := by
  by_cases hextract : rd = .extract
  · subst hextract
    refine iff_of_false ?_ (not_fieldFault_extractReply p)
    rintro ⟨f, -, hf⟩
    exact run_extract_ne_fault E p w f hf
  · by_cases hget : rd = .hget
    · subst hget
      refine iff_of_false ?_ (not_fieldFault_objectOf p)
      rintro ⟨f, -, hf⟩
      exact run_hget_ne_fault E p w f hf
    · rw [Reader.code_of_ne hget]
      exact exists_congr fun f => and_congr_right fun _ =>
        run_thenFree_fault_iff E (leaf_value hextract p) p w f

/-! ## `listen` -/

theorem not_fieldFault_rawOf (p : Pointer) : ¬ FieldFault (rawOf p) := by
  rw [rawOf_eq]
  split_ifs <;> simp [FieldFault]

theorem not_fieldFault_listenObject (type : CStr) (res : Bytes) :
    ¬ FieldFault (listenObject R type res) := by
  rw [listenObject, unserializeFromRaw]
  split_ifs
  · simp [FieldFault]
  · split <;> simp [FieldFault]

/-- In the binary modes a null `str` has length zero and is not read. -/
theorem not_fieldFault_listenPayload {type : CStr} (htype : type ≠ stringMode)
    (l : List Pointer) : ¬ FieldFault (listenPayload R type l) := by
  induction l with
  | nil => simp [listenPayload, FieldFault]
  | cons q l ih =>
      rw [listenPayload, if_neg htype, FieldFault, faultsWith_bind_iff]
      rintro (h | ⟨res, -, h⟩)
      · exact not_fieldFault_rawOf q h
      rw [faultsWith_bind_iff] at h
      rcases h with h | ⟨x, -, h⟩
      · exact not_fieldFault_listenObject type res h
      · exact ih (faultsWith_bind_pure_iff.mp h)

/-- In string mode the first payload element is read as a string, whatever it is. -/
theorem fieldFault_listenPayload_iff (type : CStr) (l : List Pointer) :
    FieldFault (listenPayload R type l) ↔
      type = stringMode ∧ ∃ q ∈ l.head?, ¬ q.node.str?.isSome = true := by
  by_cases htype : type = stringMode
  · cases l with
    | nil => simp [listenPayload, FieldFault]
    | cons q l =>
        rw [listenPayload, if_pos htype, FieldFault, faultsWith_bind_pure_iff]
        exact fieldFault_stringOf_iff.trans (by simp [htype])
  · exact iff_of_false (not_fieldFault_listenPayload htype l) (fun h => htype h.1)

/-- The first payload element is the third element of the push. -/
theorem exists_head_drop_children_iff {p : Pointer} {P : Reply → Prop} (n : ℕ) :
    (∃ q ∈ (p.children.drop n).head?, P q.node) ↔ ∃ r ∈ p.node.element[n]?, P r := by
  rw [← p.map_node_children, List.head?_drop, List.getElem?_map]
  cases p.children[n]? <;> simp

theorem isChild_of_mem_take {p q : Pointer} {n : ℕ} (h : q ∈ p.children.take n) :
    q.IsChild p := Pointer.isChild_of_mem_childrenFrom (List.mem_of_mem_take h)

theorem run_listenValue_fieldFault_iff (type : CStr) (p : Pointer) (w : World σ) :
    (∃ f, f.OnField ∧ (run E.handler (thenFree p (listenValue R type p)) w).1 = .fault f) ↔
      ¬ ListenCarries type p.node := by
  rw [thenFree, listenValue, Prog.bind_assoc, ListenCarries]
  rcases run_mapM_extractReply_bind (O := O) E p (fun q => isChild_of_mem_take (n := 2))
    (fun header => (listenPayload R type (p.children.drop 2) >>=
      fun rest => pure (SEXP.list (header ++ rest) none)) >>= fun x =>
        freeReplyObject p >>= fun _ => pure x) w with
    ⟨hall, header, -, hrun⟩ | ⟨hnot, e, w', hrun, -⟩
  · have hleaf : Leaf (listenPayload R type (p.children.drop 2) >>=
        fun rest => pure (SEXP.list (header ++ rest) none)) :=
      (leaf_listenPayload type _).bind fun _ => .ret _
    have hiff : (∃ f, f.OnField ∧ (run E.handler (thenFree p
        (listenPayload R type (p.children.drop 2) >>=
          fun rest => pure (SEXP.list (header ++ rest) none))) w).1 = .fault f) ↔
        FieldFault (listenPayload R type (p.children.drop 2)) :=
      (exists_congr fun f => and_congr_right fun _ =>
        run_thenFree_fault_iff E hleaf p w f).trans faultsWith_bind_pure_iff
    rw [thenFree] at hiff
    rw [hrun, hiff, fieldFault_listenPayload_iff,
      exists_head_drop_children_iff (P := fun r => ¬ r.str?.isSome = true)]
    rw [forall_take_children_iff (P := Reply.Extractable)] at hall
    push Not
    exact and_congr_right fun _ => (and_iff_right hall).symm
  · rw [forall_take_children_iff (P := Reply.Extractable)] at hnot
    rw [hrun]
    refine iff_of_false ?_ (not_not_intro fun _ h => absurd h hnot)
    rintro ⟨f, -, ⟨⟩⟩

/-! ## All methods -/

/-- A request whose reader reads only what is there. -/
theorem runsClear_request {q : Request} {k : Pointer → Code α}
    (hk : ∀ p, RunsClear scripted.handler Fault.OnField (k p)) :
    RunsClear scripted.handler Fault.OnField (requestNULLSafe q >>= k) := by
  intro w f
  rw [run_requestNULLSafe_bind, afterRequest_scripted]
  split
  · rintro ⟨⟩
  · rintro ⟨⟩
  · exact hk _ _ f

theorem runsClear_thenFree {x : Code α} (hx : Leaf x) (hfield : ¬ FieldFault x) (p : Pointer) :
    RunsClear scripted.handler Fault.OnField (thenFree p x) := by
  intro w f hf hon
  exact hfield ⟨f, hon, (run_thenFree_fault_iff scripted hx p w f).mp hf⟩

theorem not_fieldFault_doubleOf (p : Pointer) : ¬ FieldFault (doubleOf p) := by
  rw [doubleOf, fieldFault_checkReplyType_bind_iff]
  rintro ⟨-, h⟩
  exact not_faultsWith_ret _ h

theorem runsClear_zaddRow (key : CStr) (res : Double) (y : List Double) :
    RunsClear scripted.handler Fault.OnField (zaddRow key res y) := by
  cases y with
  | nil =>
      rintro w f ⟨⟩
      exact id
  | cons score y =>
      refine runsClear_request fun p =>
        runsClear_thenFree ((leaf_doubleOf p).bind fun _ => .ret _) ?_ p
      exact fun h => not_fieldFault_doubleOf p (faultsWith_bind_pure_iff.mp h)

theorem runsClear_zremrangebyscoreKey (min max : Double) (key : CStr) :
    RunsClear scripted.handler Fault.OnField (zremrangebyscoreKey min max key) :=
  runsClear_request fun p => runsClear_thenFree (leaf_doubleOf p) (not_fieldFault_doubleOf p) p

theorem runsClear_subscribeChannel (type : Bytes) (key : CStr) :
    RunsClear scripted.handler Fault.OnField (subscribeChannel (O := O) type key) :=
  runsClear_request fun p w f hf _ => run_extract_ne_fault scripted p w f hf

theorem not_fieldFault_of_plan_done {m : Method O} {p : Code (SEXP O)}
    (h : m.plan R = .done p) : ¬ FieldFault p := by
  rcases Method.eq_of_plan_done h with ⟨Z, -, rfl⟩ | ⟨e, rfl⟩ | ⟨x, rfl⟩
  · cases Z with
    | nil => simp [listToMatrix, FieldFault, Fault.OnField]
    | cons first Z =>
        rw [listToMatrix, FieldFault, faultsWith_bind_pure_iff]
        refine not_faultsWith_mapM fun z _ => ?_
        split_ifs <;> simp [stop]
  · exact not_faultsWith_raise e
  · exact not_faultsWith_ret x

/-- **Which runs access an unset field.**  For every method and every script of answers,
the run ends without such an access exactly when the answer to the method's request
carries what the method reads.  Methods with several commands never do such an access. -/
theorem no_unset_field_iff_carried (m : Method O) (s : Script) :
    (∀ f, (scripted.run (m.code R) s).1 = .fault f → ¬ f.OnField) ↔
      m.Carried R (s.answers.headD none) := by
  have hclear {p : Code (SEXP O)} (hp : RunsClear scripted.handler Fault.OnField p) :
      ∀ f, (run scripted.handler p ⟨s, {}⟩).1 = .fault f → ¬ f.OnField := fun f => hp _ f
  have hfault (o : Outcome RError Fault (SEXP O)) :
      (∀ f, o = .fault f → ¬ f.OnField) ↔ ¬ ∃ f, f.OnField ∧ o = .fault f := by
    push Not
    exact forall_congr' fun f => imp_not_comm
  rw [Method.Carried, Env.run, Method.code_eq]
  cases hplan : m.plan R with
  | done p =>
      refine iff_of_true (fun f hf hon => not_fieldFault_of_plan_done hplan ⟨f, hon, ?_⟩)
        trivial
      rw [Plan.code] at hf
      rcases leaf_of_plan_done hplan with a | e | f'
      · cases hf
      · cases hf
      · cases hf
        rfl
  | command q rd =>
      rw [Plan.code, run_requestNULLSafe_bind, afterRequest_scripted]
      rcases s.answers with _ | ⟨_ | r, rest⟩
      · exact iff_of_true (by rintro f ⟨⟩) trivial
      · exact iff_of_true (by rintro f ⟨⟩) trivial
      · rw [hfault]
        dsimp only
        rw [run_code_fieldFault_iff, fieldFault_value_iff, not_not]
        rfl
  | rows key x =>
      refine iff_of_true (hclear ?_) trivial
      exact RunsClear.bind (.foldlM (runsClear_zaddRow key) _ _) fun _ => runsClear_ret _
  | ranges keyvec min max =>
      refine iff_of_true (hclear ?_) trivial
      exact RunsClear.bind (.mapM (runsClear_zremrangebyscoreKey min max) _) fun _ =>
        runsClear_ret _
  | channels cs type =>
      refine iff_of_true (hclear ?_) trivial
      exact RunsClear.bind (.mapM (runsClear_subscribeChannel type) _) fun _ => runsClear_ret _
  | listen type =>
      rw [Plan.code, run_listen, hfault]
      simp only [scripted]
      rcases s.answers with _ | ⟨_ | r, rest⟩
      · exact iff_of_false (not_not_intro ⟨.unsetReply, trivial, rfl⟩) id
      · exact iff_of_false (not_not_intro ⟨.unsetReply, trivial, rfl⟩) id
      · dsimp only
        rw [run_listenValue_fieldFault_iff, not_not]
        rfl

/-- `zrange` on no members reads the first element of an empty array. -/
theorem zrange_empty_reads_element :
    ¬ ∀ f, (scripted.run (Method.code Runtime.onlyNull (.zrange (.ofAscii "k") 0 (-1)))
      { answers := [some (.array [])] }).1 = .fault f → ¬ f.OnField :=
  fun h => h .elementRange rfl trivial

end RcppRedis
