import RcppRedis.Redis.Connection
import RcppRedis.Redis.Lists
import RcppRedis.Lib.Binary64Bytes

/-!
# The numeric readers

`getVector`, `listRange`, `zrange` and `zrangebyscore` copy the bytes of strings into vectors
of doubles.  How many bytes are copied, how large the destination is and how long the source is
come from three expressions.

* `copies_iff_whole` — exactly when the copies stay in bounds and the vectors hold the strings.
-/

namespace RcppRedis

open Bytes Resp Hiredis Interact Code Prog

variable {O : Type} {R : Runtime O} {σ : Type}

/-! ## Readers of binary vectors -/

/-- A call of a numeric reader. -/
inductive VectorCall where
  | getVector (key : CStr)
  | listRange (key : CStr) (start stop : Int32)
  | zrange (key : CStr) (min max : Int32)
  | zrangebyscore (key : CStr) (min max : Double)

namespace VectorCall

/-- The method that is called. -/
def method : VectorCall → Method O
  | getVector key => .getVector key
  | listRange key start stop => .listRange key start stop
  | zrange key min max => .zrange key min max
  | zrangebyscore key min max => .zrangebyscore key min max

/-- How the call reads its reply. -/
def reader : VectorCall → Reader
  | getVector _ => .vector
  | listRange _ _ _ => .listRange
  | zrange _ _ _ => .rows
  | zrangebyscore _ _ _ => .rows

/-- A reply to the call that is made of byte strings. -/
def reply : VectorCall → List Bytes → Option Reply
  | getVector _, [b] => some (.string b)
  | getVector _, _ => none
  | _, bs => some (.array (bs.map Reply.string))

/-- The value holds the words of the strings, all of them and in their order. -/
def Words (c : VectorCall) (bs : List Bytes) (v : SEXP O) : Prop :=
  match c.reader with
  | .vector => ∃ x, bs = [Double.bytesOfVector x] ∧ v = .real x
  | .listRange => ∃ xs : List (List Double), bs = xs.map Double.bytesOfVector ∧
      v = .list (xs.map SEXP.real) none
  | _ => ∃ ncol rows, (∀ row ∈ rows, row.length = ncol) ∧ bs = rows.map Double.bytesOfVector ∧
      v = .matrix ncol rows

/-- The strings hold whole words and an `int` can tell how many bytes.  As the rows of a matrix
they have one length, and there is at least one, and not more than an `int` can tell. -/
def Whole (c : VectorCall) (bs : List Bytes) : Prop :=
  match c.reader with
  | .rows => bs ≠ [] ∧ bs.length < 2 ^ 31 ∧ ∃ n, 8 * n < 2 ^ 32 ∧ ∀ b ∈ bs, b.length = 8 * n
  | _ => ∀ b ∈ bs, 8 ∣ b.length ∧ b.length < 2 ^ 31

/-- R refuses a matrix whose number of rows is negative as an `int`. -/
def Refused (c : VectorCall) (bs : List Bytes) : Prop :=
  match c.reader with
  | .rows => 2 ^ 31 ≤ bs.length % 2 ^ 32
  | _ => False

end VectorCall

/-- An R error, or a value that holds the words of the strings.  A copy out of bounds is
neither. -/
def Copies (c : VectorCall) (bs : List Bytes) (o : Outcome RError Fault (SEXP O)) : Prop :=
  (∃ e, o = .raise e) ∨ ∃ x, o = .ret x ∧ c.Words bs x

/-! ## One vector -/

theorem not_raises_memcpy (size : ℕ) (p : Pointer) (n : ℕ) : ¬ Raises (memcpy size p n) := by
  rw [memcpy]
  by_cases hn : n = 0
  · rw [if_pos hn]
    exact not_raises_ret []
  · rw [if_neg hn]
    cases p.node.str? with
    | none => exact not_raises_fault _
    | some str =>
        dsimp only
        split_ifs
        · exact not_raises_fault _
        · exact not_raises_fault _
        · exact not_raises_ret _

theorem not_raises_numericOf (p : Pointer) : ¬ Raises (numericOf p) :=
  not_raises_bind (not_raises_memcpy _ _ _) fun _ => not_raises_ret _

/-- **One vector** is read whole exactly when its string holds whole words and an `int` can
tell its length. -/
theorem numericOf_eq_ret_iff {p : Pointer} {b : Bytes} (hp : p.node = .string b)
    (x : List Double) : numericOf p = .ret x ∧ Double.bytesOfVector x = b ↔
      (8 ∣ b.length ∧ b.length < 2 ^ 31) ∧ x = Double.vectorOfBytes b := by
  have hlen : p.node.len = b.length := by
    rw [hp]
    rfl
  have hbytes : p.node.bytes = b := by
    rw [hp]
    exact List.take_length
  constructor
  · rintro ⟨hx, rfl⟩
    have hwhole : WholeDoubles p.node := returns_numericOf_iff.mp ⟨x, hx⟩
    rw [numericOf_of_wholeDoubles hwhole, hlen, hbytes] at hx
    have hlength := congrArg List.length (Prog.ret.inj hx)
    obtain ⟨hnonneg, hdvd⟩ := hwhole
    have hle := toInt32_natCast_le (Double.bytesOfVector x).length
    have hlt := toInt32_lt (Double.bytesOfVector x).length
    rw [hlen] at hnonneg hdvd
    simp only [Double.vectorOfBytes, List.length_map, List.length_range,
      List.length_take] at hlength
    rw [Double.length_bytesOfVector] at hlength hle hlt hnonneg hdvd ⊢
    refine ⟨⟨⟨x.length, rfl⟩, by omega⟩, (Double.vectorOfBytes_bytesOfVector x).symm⟩
  · rintro ⟨⟨hdvd, hlt⟩, rfl⟩
    have hself : toInt32 b.length = b.length := toInt32_eq_self (by omega) (by omega)
    refine ⟨?_, Double.bytesOfVector_vectorOfBytes hdvd⟩
    have hwhole : WholeDoubles p.node := by
      rw [WholeDoubles, hlen, hself]
      omega
    rw [numericOf_of_wholeDoubles hwhole, hlen, hself, Int.toNat_natCast, hbytes,
      List.take_length]

theorem vectorValue_eq_ret_iff {p : Pointer} {v : SEXP O} :
    vectorValue p = .ret v ↔ ∃ x, numericOf p = .ret x ∧ v = .real x := by
  rw [vectorValue]
  cases numericOf p <;> simp [eq_comm]

theorem not_raises_vectorValue (p : Pointer) : ¬ Raises (vectorValue (O := O) p) :=
  not_raises_bind (not_raises_numericOf p) fun _ => not_raises_ret _

/-! ## Strings as children -/

theorem isString_of_mem_children {p q : Pointer} {bs : List Bytes}
    (hp : p.node = .array (bs.map Reply.string)) (hq : q ∈ p.children) :
    replyTypeToInteger q.node = some .string := by
  have hmem : q.node ∈ p.children.map Pointer.node := List.mem_map_of_mem hq
  rw [Pointer.map_node_children, hp] at hmem
  obtain ⟨b, -, hb⟩ := List.mem_map.mp hmem
  rw [← hb]
  rfl

/-! ## `listRange` -/

theorem listRangeValue_eq {p : Pointer} {bs : List Bytes}
    (hp : p.node = .array (bs.map Reply.string)) :
    listRangeValue (O := O) p = p.children.mapM (vectorValue (O := O)) >>= fun x =>
      pure (.list x none) := by
  have hchildren : (p.children.mapM fun node => do
      checkReplyType node .string
      vectorValue (O := O) node) = p.children.mapM (vectorValue (O := O)) := by
    refine mapM_congr fun q hq => ?_
    rw [checkReplyType_of_eq (isString_of_mem_children hp hq)]
    rfl
  rw [listRangeValue, checkReplyType_of_eq (by rw [hp]; rfl), ← hchildren]
  rfl

theorem mapM_vectorValue_iff {qs : List Pointer} {bs : List Bytes}
    (h : List.Forall₂ (fun q b => q.node = Reply.string b) qs bs) :
    (∃ xs : List (List Double), qs.mapM (vectorValue (O := O)) = .ret (xs.map SEXP.real) ∧
      xs.map Double.bytesOfVector = bs) ↔ ∀ b ∈ bs, 8 ∣ b.length ∧ b.length < 2 ^ 31 := by
  induction h with
  | nil => exact iff_of_true ⟨[], rfl, rfl⟩ (by simp)
  | @cons q b qs bs hq h ih =>
      rw [List.forall_mem_cons, ← ih]
      constructor
      · rintro ⟨xs, hxs, hbytes⟩
        cases xs with
        | nil => cases hbytes
        | cons x xs =>
            rw [List.map_cons, List.cons.injEq] at hbytes
            rw [mapM_eq_ret_iff, List.map_cons, List.forall₂_cons, ← mapM_eq_ret_iff] at hxs
            obtain ⟨y, hy, hxy⟩ := vectorValue_eq_ret_iff.mp hxs.1
            obtain rfl : x = y := by simpa using hxy
            exact ⟨((numericOf_eq_ret_iff hq x).mp ⟨hy, hbytes.1⟩).1, xs, hxs.2, hbytes.2⟩
      · rintro ⟨hb, xs, hxs, hbytes⟩
        obtain ⟨hread, hword⟩ := (numericOf_eq_ret_iff hq _).mpr ⟨hb, rfl⟩
        refine ⟨Double.vectorOfBytes b :: xs, ?_, ?_⟩
        · rw [mapM_eq_ret_iff, List.map_cons, List.forall₂_cons, ← mapM_eq_ret_iff]
          exact ⟨vectorValue_eq_ret_iff.mpr ⟨_, hread, rfl⟩, hxs⟩
        · rw [List.map_cons, hword, hbytes]

/-! ## Rows -/

/-- The rows of a matrix, when the first element is there. -/
theorem rowsValue_eq {p : Pointer} {b : Bytes} {bs : List Bytes}
    (hp : p.node = .array ((b :: bs).map Reply.string)) :
    rowsValue (O := O) p =
      if 2 ^ 31 ≤ (b :: bs).length % 2 ^ 32 then .raise .allocation
      else ((p.children.take ((b :: bs).length % 2 ^ 32)).mapM fun node =>
          memcpy (8 * (b.length % 0x100000000 / 8)) node (b.length % 0x100000000) >>= fun v =>
            pure (Double.vectorOfBytes v)) >>= fun x =>
        pure (.matrix (b.length % 0x100000000 / 8) x) := by
  have hfirst : elementAt p 0 = .ret ⟨p.id, p.path ++ [0], .string b⟩ := by
    simp [elementAt, hp, Reply.element]
  have hrows : p.node.elements = (b :: bs).length := by
    rw [hp]
    exact List.length_map _
  have hchildren (size cols n : ℕ) : ((p.children.take n).mapM fun node => do
      checkReplyType node .string
      let v ← memcpy size node cols
      pure (Double.vectorOfBytes v)) = (p.children.take n).mapM fun node =>
        memcpy size node cols >>= fun v => pure (Double.vectorOfBytes v) := by
    refine mapM_congr fun q hq => ?_
    rw [checkReplyType_of_eq (isString_of_mem_children hp (List.mem_of_mem_take hq))]
    rfl
  rw [rowsValue, checkReplyType_of_eq (by rw [hp]; rfl), ret_bind, hfirst, ret_bind]
  dsimp only
  rw [hchildren, hrows]
  rfl

theorem rowsValue_nil {p : Pointer} (hp : p.node = .array []) :
    rowsValue (O := O) p = .fault .elementRange := by
  have hfirst : elementAt p 0 = .fault .elementRange := by
    simp [elementAt, hp, Reply.element]
  rw [rowsValue, checkReplyType_of_eq (by rw [hp]; rfl), ret_bind, hfirst]
  rfl

/-- Only the number of rows makes a matrix raise. -/
theorem raises_rowsValue_iff {p : Pointer} {bs : List Bytes}
    (hp : p.node = .array (bs.map Reply.string)) :
    Raises (rowsValue (O := O) p) ↔ 2 ^ 31 ≤ bs.length % 2 ^ 32 := by
  cases bs with
  | nil =>
      rw [rowsValue_nil hp]
      exact iff_of_false (not_raises_fault _) (by simp)
  | cons b bs =>
      rw [rowsValue_eq hp]
      split_ifs with hrows
      · exact iff_of_true ⟨_, rfl⟩ hrows
      · refine iff_of_false (not_raises_bind (not_raises_mapM fun q _ => ?_) fun _ => ?_) hrows
        · exact not_raises_bind (not_raises_memcpy _ _ _) fun _ => not_raises_ret _
        · exact not_raises_ret _

/-- Rows of one length are copied whole. -/
theorem mapM_rows_eq {n : ℕ} {qs : List Pointer} {bs : List Bytes}
    (h : List.Forall₂ (fun q b => q.node = Reply.string b) qs bs)
    (hbs : ∀ b ∈ bs, b.length = 8 * n) :
    (qs.mapM fun node => memcpy (8 * n) node (8 * n) >>= fun v =>
      pure (Double.vectorOfBytes v)) = .ret (bs.map Double.vectorOfBytes) := by
  rw [mapM_eq_ret_iff]
  induction h with
  | nil => exact .nil
  | @cons q b qs bs hq h ih =>
      obtain ⟨hb, hbs⟩ := List.forall_mem_cons.mp hbs
      refine .cons ?_ (ih hbs)
      have hlen : q.node.len = b.length := by
        rw [hq]
        rfl
      have hbytes : q.node.bytes = b := by
        rw [hq]
        exact List.take_length
      rw [memcpy_eq (by omega) le_rfl, hbytes, ret_bind, ← hb, List.take_length]
      rfl

theorem matrix_of_bind_eq_ret {ncol cols : ℕ} {read : Code (List (List Double))}
    {rows : List (List Double)}
    (h : (read >>= fun x => pure (.matrix cols x)) =
      (.ret (.matrix ncol rows) : Code (SEXP O))) : cols = ncol ∧ read = .ret rows := by
  cases read with
  | ret x =>
      obtain ⟨hcols, rfl⟩ := SEXP.matrix.inj (Prog.ret.inj h)
      exact ⟨hcols, rfl⟩
  | raise e => cases h
  | fault f => cases h
  | call i k => cases h

/-- A matrix that is returned has as many rows as an `int` can tell. -/
theorem length_lt_of_rowsValue {bs : List Bytes} {p : Pointer}
    (hp : p.node = .array (bs.map Reply.string)) {ncol : ℕ} {rows : List (List Double)}
    (h : rowsValue (O := O) p = .ret (.matrix ncol rows)) :
    rows.length ≤ bs.length % 2 ^ 32 ∧ bs.length % 2 ^ 32 < 2 ^ 31 := by
  cases bs with
  | nil =>
      rw [rowsValue_nil hp] at h
      cases h
  | cons b bs =>
      rw [rowsValue_eq hp] at h
      split_ifs at h with hmany
      have hall := (mapM_eq_ret_iff.mp (matrix_of_bind_eq_ret h).2).length_eq
      rw [List.length_take] at hall
      omega

theorem rows_words_iff {bs : List Bytes} {p : Pointer}
    (hp : p.node = .array (bs.map Reply.string)) :
    (∃ x, rowsValue (O := O) p = .ret x ∧ ∃ ncol rows, (∀ row ∈ rows, row.length = ncol) ∧
      bs = rows.map Double.bytesOfVector ∧ x = .matrix ncol rows) ↔
      bs ≠ [] ∧ bs.length < 2 ^ 31 ∧ ∃ n, 8 * n < 2 ^ 32 ∧ ∀ b ∈ bs, b.length = 8 * n := by
  constructor
  · rintro ⟨x, hx, ncol, rows, hrows, rfl, rfl⟩
    cases rows with
    | nil =>
        rw [List.map_nil] at hp
        rw [rowsValue_nil hp] at hx
        cases hx
    | cons row rows =>
        have hlen : (Double.bytesOfVector row).length = 8 * ncol := by
          rw [Double.length_bytesOfVector, hrows row List.mem_cons_self]
        rw [List.map_cons] at hp ⊢
        have hsmall := length_lt_of_rowsValue (O := O) hp hx
        rw [rowsValue_eq hp, hlen] at hx
        split_ifs at hx with hmany
        obtain ⟨hncol, -⟩ := matrix_of_bind_eq_ret hx
        simp only [List.length_cons, List.length_map] at hsmall ⊢
        refine ⟨List.cons_ne_nil _ _, by omega, ncol, by omega, ?_⟩
        rw [← List.map_cons, List.forall_mem_map]
        intro row' hrow'
        rw [Double.length_bytesOfVector, hrows row' hrow']
  · rintro ⟨hne, hsmall, n, hn, hbs⟩
    obtain ⟨b, bs, rfl⟩ := List.exists_cons_of_ne_nil hne
    have hb := hbs b List.mem_cons_self
    have hlength := (forall₂_children hp).length_eq
    have hmod : b.length % 0x100000000 = 8 * n := by omega
    have hdiv : 8 * n / 8 = n := by omega
    have hrows : ((b :: bs).map Double.vectorOfBytes).map Double.bytesOfVector = b :: bs := by
      rw [List.map_map, List.map_congr_left (g := id), List.map_id]
      intro a ha
      exact Double.bytesOfVector_vectorOfBytes ⟨n, hbs a ha⟩
    refine ⟨.matrix n ((b :: bs).map Double.vectorOfBytes), ?_, n, _, ?_, hrows.symm, rfl⟩
    · rw [rowsValue_eq hp, if_neg (by omega), List.take_of_length_le (by omega), hmod, hdiv,
        mapM_rows_eq (forall₂_children hp) hbs]
      rfl
    · rw [List.forall_mem_map]
      intro a ha
      have hlen := hbs a ha
      simp only [Double.vectorOfBytes, List.length_map, List.length_range]
      omega

/-! ## The readers -/

/-- What the reader makes of strings, when it copies them. -/
theorem VectorCall.reads_iff (c : VectorCall) {bs : List Bytes} {r : Reply}
    (hr : c.reply bs = some r) {p : Pointer} (hp : p.node = r) :
    (∃ x, c.reader.value R p = .ret x ∧ c.Words bs x) ↔ c.Whole bs := by
  cases c with
  | getVector key =>
      obtain ⟨b, rfl⟩ : ∃ b, bs = [b] := by
        rcases bs with _ | ⟨b, _ | ⟨b', bs⟩⟩
        · cases hr
        · exact ⟨b, rfl⟩
        · cases hr
      obtain rfl : Reply.string b = r := Option.some.inj hr
      have hwhole : (VectorCall.getVector key).Whole [b] ↔ 8 ∣ b.length ∧ b.length < 2 ^ 31 :=
        List.forall_mem_singleton
      rw [hwhole]
      constructor
      · rintro ⟨v, hv, x, hx, rfl⟩
        obtain rfl : b = Double.bytesOfVector x := by simpa using hx
        obtain ⟨y, hy, hxy⟩ := vectorValue_eq_ret_iff.mp hv
        obtain rfl : x = y := by simpa using hxy
        exact ((numericOf_eq_ret_iff hp x).mp ⟨hy, rfl⟩).1
      · intro h
        obtain ⟨hread, hword⟩ := (numericOf_eq_ret_iff hp _).mpr ⟨h, rfl⟩
        exact ⟨_, vectorValue_eq_ret_iff.mpr ⟨_, hread, rfl⟩, _, by rw [hword], rfl⟩
  | listRange key start stop =>
      obtain rfl : Reply.array (bs.map Reply.string) = r := Option.some.inj hr
      have hvalue : Reader.value R (VectorCall.listRange key start stop).reader p =
          p.children.mapM (vectorValue (O := O)) >>= fun x => pure (.list x none) :=
        listRangeValue_eq hp
      rw [hvalue]
      refine Iff.trans ?_ (mapM_vectorValue_iff (O := O) (forall₂_children hp))
      constructor
      · rintro ⟨v, hv, xs, rfl, rfl⟩
        refine ⟨xs, ?_, rfl⟩
        cases hread : p.children.mapM (vectorValue (O := O)) <;> simp_all
      · rintro ⟨xs, hxs, rfl⟩
        exact ⟨.list (xs.map SEXP.real) none, by rw [hxs]; rfl, xs, rfl, rfl⟩
  | zrange key min max | zrangebyscore key min max =>
      obtain rfl : Reply.array (bs.map Reply.string) = r := Option.some.inj hr
      exact rows_words_iff hp

theorem VectorCall.raises_value_iff (c : VectorCall) {bs : List Bytes} {r : Reply}
    (hr : c.reply bs = some r) {p : Pointer} (hp : p.node = r) :
    Raises (c.reader.value R p) ↔ c.Refused bs := by
  cases c with
  | getVector key => exact iff_of_false (not_raises_vectorValue p) id
  | listRange key start stop =>
      obtain rfl : Reply.array (bs.map Reply.string) = r := Option.some.inj hr
      have hvalue : Reader.value R (VectorCall.listRange key start stop).reader p =
          p.children.mapM (vectorValue (O := O)) >>= fun x => pure (.list x none) :=
        listRangeValue_eq hp
      rw [hvalue]
      refine iff_of_false ?_ id
      exact not_raises_bind (not_raises_mapM fun q _ => not_raises_vectorValue q)
        fun _ => not_raises_ret _
  | zrange key min max | zrangebyscore key min max =>
      obtain rfl : Reply.array (bs.map Reply.string) = r := Option.some.inj hr
      exact raises_rowsValue_iff hp

theorem VectorCall.code_eq (c : VectorCall) : ∃ q, c.method.requests R = [q] ∧
    c.method.code R = requestNULLSafe q >>= c.reader.code R := by
  cases c <;> exact ⟨_, rfl, rfl⟩

/-- **The numeric readers copy in bounds and lose no bytes** exactly when their strings are
whole, or R refuses so many rows. -/
theorem copies_iff_whole (E : Env σ) (c : VectorCall) {bs : List Bytes} {r : Reply}
    (hr : c.reply bs = some r) {s : σ}
    (hs : ∀ q ∈ c.method.requests R, (E.request q s).1 = .answer (some r)) :
    Copies c bs (E.run (c.method.code R) s).1 ↔ c.Whole bs ∨ c.Refused bs := by
  obtain ⟨q, hq, hcode⟩ := c.code_eq (R := R)
  have hget : c.reader ≠ .hget := by cases c <;> rintro ⟨⟩
  have hextract : c.reader ≠ .extract := by cases c <;> rintro ⟨⟩
  obtain ⟨w, hrun⟩ := run_request_reader (R := R) E (hs q (by simp [hq])) hget hextract
  have hleaf := leaf_value (R := R) hextract (⟨0, [], r⟩ : Pointer)
  rw [hcode, hrun, ← c.reads_iff (R := R) (p := ⟨0, [], r⟩) hr rfl,
    ← c.raises_value_iff (R := R) (p := ⟨0, [], r⟩) hr rfl]
  generalize c.reader.value R ⟨0, [], r⟩ = value at hleaf ⊢
  cases hleaf with
  | ret x => simp [Copies]
  | raise e => simp [Copies, Raises]
  | fault f => simp [Copies]

/-- Two rows of two words are copied. -/
theorem copies_two_rows :
    Copies (.zrange (.ofAscii "k") 0 1) [List.replicate 16 1, List.replicate 16 2]
      (scripted.run (Method.code Runtime.onlyNull (.zrange (.ofAscii "k") 0 1))
        { answers := [some (.array [.string (List.replicate 16 1),
          .string (List.replicate 16 2)])] }).1 :=
  (copies_iff_whole scripted (.zrange (.ofAscii "k") 0 1) rfl fun _ _ => rfl).mpr <|
    .inl ⟨List.cons_ne_nil _ _, by simp, 2, by norm_num, by simp⟩

/-- A string of nine bytes is copied past the end of a vector of one double; and a matrix takes
the width of its first row for all, which cuts the second. -/
theorem nine_bytes_overrun :
    ¬ Copies (.getVector (.ofAscii "k")) [List.replicate 9 1]
        (scripted.run (Method.code Runtime.onlyNull (.getVector (.ofAscii "k")))
          { answers := [some (.string (List.replicate 9 1))] }).1 ∧
      ¬ Copies (.zrange (.ofAscii "k") 0 1) [List.replicate 8 1, List.replicate 16 2]
        (scripted.run (Method.code Runtime.onlyNull (.zrange (.ofAscii "k") 0 1))
          { answers := [some (.array [.string (List.replicate 8 1),
            .string (List.replicate 16 2)])] }).1 := by
  constructor
  · rintro (⟨e, he⟩ | ⟨x, hx, -⟩)
    · cases he
    · cases hx
  · rintro (⟨e, he⟩ | ⟨v, -, ncol, rows, hrows, hbytes, -⟩)
    · cases he
    · have hlen : ∀ b ∈ [List.replicate 8 (1 : UInt8), List.replicate 16 2], b.length =
          8 * ncol := by
        rw [hbytes, List.forall_mem_map]
        intro row hrow
        rw [Double.length_bytesOfVector, hrows row hrow]
      have hfirst := hlen (List.replicate 8 1) (by simp)
      have hsecond := hlen (List.replicate 16 2) (by simp)
      simp only [List.length_replicate] at hfirst hsecond
      omega

end RcppRedis
