import RcppRedis.Redis.Pops
import RcppRedis.Lib.TypedStore

/-!
# Absent values

Seven methods read a single value.  Six of them have a marker for a value that is not there:
NULL, or the text `(nil)`.

* `typedKeys_reply` — what a server with values of all kinds replies.
* `reports_iff` — exactly when the marker stands for an absent value, and for nothing else.
-/

namespace RcppRedis

open Bytes Resp Hiredis Interact Prog KeyedLists TypedStore

variable {O : Type} {R : Runtime O}

/-! ## Values of all kinds -/

/-- Strings, lists, hashes and sets under their keys. -/
abbrev TypedKeys : Type := Bytes → Value Bytes Bytes

/-- What a read finds: a value, nothing, or a reason why there can be none. -/
inductive Finding where
  | value (b : Bytes)
  | nothing
  | error (str : Bytes)

namespace Finding

def ofOption : Option Bytes → Finding
  | some b => value b
  | none => nothing

/-- The reply that tells it. -/
def reply : Finding → Reply
  | value b => .string b
  | nothing => .nil
  | error str => .error str

def wrongType : Finding :=
  error (ascii "WRONGTYPE Operation against a key holding the wrong kind of value")

end Finding

def findString : Value Bytes Bytes → Finding
  | .absent => .nothing
  | .string b => .value b
  | _ => .wrongType

def findField (field : Bytes) : Value Bytes Bytes → Finding
  | .absent => .nothing
  | .hash h _ => .ofOption (find field h)
  | _ => .wrongType

def findEnd (side : Side) : Value Bytes Bytes → Finding
  | .absent => .nothing
  | .list l => .ofOption (front side l)
  | _ => .wrongType

/-- What a move finds: also the key that it moves to has to hold a list. -/
def findMoved (side : Side) (src dest : Value Bytes Bytes) : Finding :=
  match findEnd side src with
  | .value b => if dest.OfKind .list then .value b else .wrongType
  | found => found

/-- A list that is kept only while it has elements. -/
def listValue (l : List Bytes) : Value Bytes Bytes := if l = [] then .absent else .list l

/-- The keys after an element was taken out of a list, if one was found. -/
def afterPop (side : Side) (key : Bytes) (db : TypedKeys) : Finding → TypedKeys
  | .value _ => Function.update db key (listValue (rest side (db key).items))
  | _ => db

/-- The keys after an element was moved. -/
def afterMove (side side' : Side) (src dest : Bytes) (db : TypedKeys) : Finding → TypedKeys
  | .value b =>
      let db' := afterPop side src db (.value b)
      Function.update db' dest (.list (push side' b (db' dest).items))
  | _ => db

/-- A server of values of all kinds, for the commands that read one of them. -/
def typedKeys : Server TypedKeys
  | [w, key], db =>
      if w = ascii "GET" then ((findString (db key)).reply, db)
      else if w = ascii "LPOP" then
        ((findEnd .left (db key)).reply, afterPop .left key db (findEnd .left (db key)))
      else if w = ascii "RPOP" then
        ((findEnd .right (db key)).reply, afterPop .right key db (findEnd .right (db key)))
      else (.error (ascii "ERR unknown command"), db)
  | [w, key, field], db =>
      if w = ascii "HGET" then ((findField field (db key)).reply, db)
      else (.error (ascii "ERR unknown command"), db)
  | [w, src, dest, wherefrom, whereto], db =>
      if w = ascii "LMOVE" then
        match parseSide wherefrom, parseSide whereto with
        | some side, some side' =>
            ((findMoved side (db src) (db dest)).reply,
              afterMove side side' src dest db (findMoved side (db src) (db dest)))
        | _, _ => (.error (ascii "ERR syntax error"), db)
      else (.error (ascii "ERR unknown command"), db)
  | _, db => (.error (ascii "ERR unknown command"), db)

/-! ## Reads of a single value -/

/-- A read of a single value. -/
inductive SingleRead where
  | get (key : CStr)
  | getString (key : CStr)
  | hget (key field : CStr)
  | pop (c : PopCall)

namespace SingleRead

def method : SingleRead → Method O
  | get key => .get key
  | getString key => .getString key
  | hget key field => .hget key field
  | pop c => c.method

/-- The words of its command. -/
def words : SingleRead → List Bytes
  | get key | getString key => [ascii "GET", key.bytes]
  | hget key field => [ascii "HGET", key.bytes, field.bytes]
  | pop c => c.words

/-- How it reads its reply. -/
def reader : SingleRead → Reader
  | get _ => .get
  | getString _ => .string
  | hget _ _ => .hget
  | pop c => c.reader

/-- What it finds. -/
def finds (db : TypedKeys) : SingleRead → Finding
  | get key | getString key => findString (db key.bytes)
  | hget key field => findField field.bytes (db key.bytes)
  | pop (.lpop key) | pop (.listLPop key) => findEnd .left (db key.bytes)
  | pop (.rpop key) => findEnd .right (db key.bytes)
  | pop (.lmove src dest wherefrom whereto) =>
      match parseSide wherefrom.bytes, parseSide whereto.bytes with
      | some side, some _ => findMoved side (db src.bytes) (db dest.bytes)
      | _, _ => .error (ascii "ERR syntax error")

/-- The value that is returned for an absent one; `getString` has none. -/
def marker : SingleRead → Option (SEXP O)
  | getString _ => none
  | pop (.listLPop _) => some (.str [nilText])
  | _ => some .null

/-- **The server's reply** tells what the read finds. -/
theorem typedKeys_reply (c : SingleRead) (db : TypedKeys) :
    (typedKeys c.words db).1 = (c.finds db).reply := by
  rcases c with key | key | ⟨key, field⟩ | c
  · rfl
  · rfl
  · rfl
  · rcases c with key | key | key | ⟨src, dest, wherefrom, whereto⟩
    · rfl
    · rfl
    · rfl
    · simp only [words, PopCall.words, finds, typedKeys, if_true]
      cases parseSide wherefrom.bytes with
      | none => rfl
      | some side =>
          cases parseSide whereto.bytes with
          | none => rfl
          | some side' => rfl

/-! ## What the methods promise -/

/-- What the method answers. -/
def answer (R : Runtime O) (c : SingleRead) (db : TypedKeys) : Outcome RError Fault (SEXP O) :=
  ((Conn.env typedKeys).run (c.method.code R) { server := db }).1

/-- An absent value is answered with the marker, or with an R error where there is none; and
the marker is the answer for an absent value only. -/
structure Reports (R : Runtime O) (c : SingleRead) (db : TypedKeys) : Prop where
  absent : c.finds db = .nothing →
    match c.marker with
    | some v => c.answer R db = .ret v
    | none => ∃ e, c.answer R db = .raise e
  present : c.finds db ≠ .nothing → ∀ v, c.marker = some v → c.answer R db ≠ .ret v

/-- The frame of the command fits. -/
def Fits (c : SingleRead) : Prop := (encodeCommand c.words).length + 1 < 2 ^ 31

/-- The method makes its marker of nil.  `hget` unserializes no bytes at all; `getString` reads
a null pointer, and raises only if its frame is so long that no buffer is allocated. -/
def Notices (R : Runtime O) : SingleRead → Prop
  | getString key => toInt32 (encodeCommand [ascii "GET", key.bytes]).length + 1 < 0
  | hget key field => (hget key field).Fits ∧ R.unserializeFromRaw [] = some .null
  | c => c.Fits

/-- The method makes its marker of another reply: of a value that is the serialization of NULL
or that has the text of the marker, or of an error that unserializes to NULL. -/
def Confuses (R : Runtime O) : SingleRead → Reply → Prop
  | getString _, _ => False
  | pop (.listLPop _), r => ∃ b, r = .string b ∧ CStr.ofBuffer b = nilText
  | pop _, r => ∃ b, r = .string b ∧ R.decode r = .ok .null
  | _, r => R.decode r = .ok .null

/-- The method notices that a value is absent, and confuses nothing that it finds with that. -/
def Tells (R : Runtime O) (c : SingleRead) (db : TypedKeys) : Prop :=
  match c.finds db with
  | .nothing => c.Notices R
  | found => c.Fits → ¬ c.Confuses R found.reply

/-! ## Runs -/

theorem code_eq (c : SingleRead) : ∃ items :
    List Item, items ≠ [] ∧ items.map Item.text = c.words ∧
    c.method.code R =
      requestNULLSafe (.format (template items) (items.map Item.args).flatten) >>=
        c.reader.code R := by
  cases c with
  | get key | getString key => exact ⟨[keyword "GET", .str key], by simp, rfl, rfl⟩
  | hget key field => exact ⟨[keyword "HGET", .str key, .str field], by simp, rfl, rfl⟩
  | pop c => exact c.code_eq

theorem words_ne_nil (c : SingleRead) : c.words ≠ [] := by
  cases c with
  | pop c => exact c.words_ne_nil
  | _ => exact List.cons_ne_nil _ _

/-- A read whose frame fits reads the server's reply. -/
theorem answer_of_fits {c : SingleRead} (h : c.Fits) (db : TypedKeys) :
    ∃ p w, p.node = (c.finds db).reply ∧
      c.answer R db = (run (Conn.env typedKeys).handler (c.reader.code R p) w).1 := by
  obtain ⟨items, hne, hitems, hcode⟩ := c.code_eq (R := R)
  have hexact : Request.Exact (.format (template items) (items.map Item.args).flatten)
      c.words := by
    rw [Fits, ← hitems] at h
    rw [← hitems]
    exact (Request.Encodes.format items hne).exact_iff_fits.mpr h
  rw [answer, Env.run, hcode, run_command typedKeys hexact c.words_ne_nil _ rfl]
  exact ⟨_, _, c.typedKeys_reply db, rfl⟩

/-- A read whose frame does not fit raises or faults. -/
theorem answer_of_not_fits {c : SingleRead} (h : ¬ c.Fits) (db : TypedKeys) :
    (toInt32 (encodeCommand c.words).length + 1 < 0 ∧ ∃ e, c.answer R db = .raise e) ∨
    (¬ toInt32 (encodeCommand c.words).length + 1 < 0 ∧ ∃ f, c.answer R db = .fault f) := by
  obtain ⟨items, hne, hitems, hcode⟩ := c.code_eq (R := R)
  rw [Fits, ← hitems] at h
  rw [answer, Env.run, hcode, ← hitems]
  rcases run_not_fits typedKeys items hne h (c.reader.code R) ⟨{ server := db }, {}⟩ with
    ⟨hneg, e, w, hrun, -⟩ | ⟨hneg, f, w, hrun⟩
  · rw [hrun]
    exact .inl ⟨hneg, e, rfl⟩
  · rw [hrun]
    exact .inr ⟨hneg, f, rfl⟩

end SingleRead

/-! ## Readers -/

section Readers

variable {σ : Type} {E : Env σ} {w : World σ} {p : Pointer}

/-- A decoded reply as the outcome of a method. -/
def decoded : Except RError (SEXP O) → Outcome RError Fault (SEXP O)
  | .ok obj => .ret obj
  | .error e => .raise e

theorem decoded_eq_ret_iff {x : Except RError (SEXP O)} {v : SEXP O} :
    decoded x = .ret v ↔ x = .ok v := by
  cases x <;> simp [decoded]

theorem run_thenFree_objectOf : (run E.handler (thenFree p (objectOf R p)) w).1 =
    decoded (R.decode p.node) := by
  rw [objectOf_eq]
  cases R.decode p.node with
  | ok obj => rw [run_thenFree_ret]; rfl
  | error e => rw [run_thenFree_raise]; rfl

theorem run_thenFree_ofDecoded (x : Except RError (SEXP O)) :
    (run E.handler (thenFree p (PopCall.ofDecoded x)) w).1 = decoded x := by
  cases x with
  | ok obj => exact congrArg Prod.fst (run_thenFree_ret E obj p w)
  | error e => exact congrArg Prod.fst (run_thenFree_raise E e p w)

/-- `hget` frees the reply in between, and ends alike. -/
theorem run_hget : (run E.handler (Reader.code R .hget p) w).1 =
    decoded (R.decode p.node) := by
  rw [← run_thenFree_objectOf (E := E) (w := w), Reader.code, objectOf]
  have hleaf := leaf_rawOf p
  generalize rawOf p = res at hleaf ⊢
  rcases hleaf with b | e | f
  · rw [run_thenFree_ret_bind, ret_bind, unserializeFromRaw]
    cases R.unserializeFromRaw b with
    | none => rfl
    | some obj => exact (congrArg Prod.fst (run_thenFree_ret E obj p w)).symm
  · rfl
  · rfl

theorem run_pop (hp : p.node = .nil) :
    (run E.handler (Reader.code R .pop p) w).1 = .ret .null := by
  have hnil : replyTypeToInteger p.node = some .nil := by rw [hp]; rfl
  have hvalue : Reader.value R .pop p = .ret .null := if_pos hnil
  rw [Reader.code_of_ne (by decide), hvalue, run_thenFree_ret]

/-- A reader of a nil reply. -/
theorem run_nil (c : SingleRead) (hp : p.node = .nil) :
    (run E.handler (c.reader.code R p) w).1 =
      match c with
      | .getString _ => .fault .nullStr
      | .hget _ _ => decoded (R.decode .nil)
      | .pop (.listLPop _) => .ret (.str [nilText])
      | _ => .ret .null := by
  have hnil : replyTypeToInteger p.node = some .nil := by rw [hp]; rfl
  rcases c with key | key | ⟨key, field⟩ | c
  · have hvalue : Reader.value R .get p = .ret .null := if_pos hnil
    rw [SingleRead.reader, Reader.code_of_ne (by decide), hvalue, run_thenFree_ret]
  · have hvalue : Reader.value R .string p = .fault .nullStr := by
      rw [Reader.value, stringValue, stringOf, hp]
      rfl
    rw [SingleRead.reader, Reader.code_of_ne (by decide), hvalue, run_thenFree_fault]
  · rw [SingleRead.reader, run_hget, hp]
  · rcases c with key | key | key | ⟨src, dest, wherefrom, whereto⟩
    · exact run_pop hp
    · exact run_pop hp
    · have hvalue : Reader.value R .listLPop p = .ret (.str [nilText]) := if_pos hnil
      rw [SingleRead.reader, PopCall.reader, Reader.code_of_ne (by decide), hvalue,
        run_thenFree_ret]
    · exact run_pop hp

/-- A pop of an element returns what the element is decoded to; an error is raised. -/
theorem run_popCall_iff (c : PopCall) {found : Finding} (hfound : found ≠ .nothing)
    (hp : p.node = found.reply) {v : SEXP O} (hv : (SingleRead.pop c).marker = some v) :
    (run E.handler (c.reader.code R p) w).1 = .ret v ↔
      (SingleRead.pop c).Confuses R found.reply := by
  have hne : c.reader ≠ .hget := by cases c <;> rintro ⟨⟩
  rw [Reader.code_of_ne hne]
  cases found with
  | nothing => exact absurd rfl hfound
  | error str =>
      obtain ⟨e, he⟩ := c.value_error (R := R) hp
      rw [he, run_thenFree_raise]
      refine iff_of_false (by rintro ⟨⟩) ?_
      cases c <;> rintro ⟨b, ⟨⟩, -⟩
  | value b =>
      rw [c.value_string (R := R) hp]
      cases c with
      | listLPop key =>
          obtain rfl : SEXP.str [nilText] = v := Option.some.inj hv
          rw [run_thenFree_ret]
          constructor
          · intro h
            exact ⟨b, rfl, (List.cons.inj (SEXP.str.inj (Outcome.ret.inj h))).1⟩
          · rintro ⟨b', hb, htext⟩
            rw [← htext, (Reply.text.inj hb).2]
      | _ =>
          obtain rfl : SEXP.null = v := Option.some.inj hv
          rw [run_thenFree_ofDecoded, decoded_eq_ret_iff]
          constructor
          · intro h
            exact ⟨b, rfl, h⟩
          · rintro ⟨-, -, h⟩
            exact h

/-- A reader of another reply returns its marker exactly if it confuses the two. -/
theorem run_found_iff (c : SingleRead) {found : Finding} (hfound : found ≠ .nothing)
    (hp : p.node = found.reply) {v : SEXP O} (hv : c.marker = some v) :
    (run E.handler (c.reader.code R p) w).1 = .ret v ↔ c.Confuses R found.reply := by
  cases c with
  | get key =>
      have hnil : ¬ replyTypeToInteger p.node = some .nil := by
        rw [hp]
        cases found with
        | nothing => exact absurd rfl hfound
        | value b => rintro ⟨⟩
        | error str => rintro ⟨⟩
      have hvalue : Reader.value R .get p = objectOf R p := if_neg hnil
      cases hv
      rw [SingleRead.reader, Reader.code_of_ne (by decide), hvalue, run_thenFree_objectOf,
        decoded_eq_ret_iff, hp]
      rfl
  | getString key => cases hv
  | hget key field =>
      cases hv
      rw [SingleRead.reader, run_hget, decoded_eq_ret_iff, hp]
      rfl
  | pop c => exact run_popCall_iff c hfound hp hv

end Readers

/-! ## All reads -/

namespace SingleRead

/-- A read that returns fits. -/
theorem fits_of_answer {c : SingleRead} {db : TypedKeys} {v : SEXP O}
    (h : c.answer R db = .ret v) : c.Fits := by
  by_contra hfits
  rcases answer_of_not_fits (R := R) hfits db with ⟨-, e, he⟩ | ⟨-, f, hf⟩
  · cases h.symm.trans he
  · cases h.symm.trans hf

theorem decode_nil_iff : R.decode .nil = .ok .null ↔ R.unserializeFromRaw [] = some .null := by
  cases hobj : R.unserializeFromRaw [] with
  | none =>
      have herror : R.decode .nil = .error .unserialize := by
        rw [Runtime.decode, if_neg (by decide)]
        simp only [Reply.bytes, Reply.str?, Option.getD_none, List.take_nil, hobj]
      simp [herror]
  | some obj =>
      have hok : R.decode .nil = .ok obj := Runtime.decode_of_lt (by decide) hobj
      simp [hok]

/-- The marker is the answer to nil if the method makes it of nil. -/
theorem answer_nothing_iff (c : SingleRead) {db : TypedKeys} (hfinds : c.finds db = .nothing)
    {v : SEXP O} (hv : c.marker = some v) : c.answer R db = .ret v ↔ c.Notices R := by
  by_cases hfits : c.Fits
  · obtain ⟨p, w, hp, hrun⟩ := answer_of_fits (R := R) hfits db
    rw [hfinds] at hp
    rw [hrun, run_nil c hp]
    rcases c with key | key | ⟨key, field⟩ | c
    · obtain rfl : SEXP.null = v := Option.some.inj hv
      exact iff_of_true rfl hfits
    · cases hv
    · obtain rfl : SEXP.null = v := Option.some.inj hv
      dsimp only
      rw [decoded_eq_ret_iff, decode_nil_iff]
      exact (and_iff_right hfits).symm
    · refine iff_of_true ?_ hfits
      cases c with
      | listLPop key => exact congrArg Outcome.ret (Option.some.inj hv)
      | _ => exact congrArg Outcome.ret (Option.some.inj hv)
  · refine iff_of_false (fun h => hfits (fits_of_answer h)) fun h => ?_
    rcases c with key | key | ⟨key, field⟩ | c
    · exact hfits h
    · cases hv
    · exact hfits h.1
    · exact hfits h

theorem getString_nothing_iff {key : CStr} {db : TypedKeys}
    (hfinds : (getString key).finds db = .nothing) :
    (∃ e, (getString key).answer R db = .raise e) ↔ (getString key).Notices R := by
  by_cases hfits : (getString key).Fits
  · obtain ⟨p, w, hp, hrun⟩ := answer_of_fits (R := R) hfits db
    rw [hfinds] at hp
    rw [hrun, run_nil _ hp]
    refine iff_of_false (by rintro ⟨e, ⟨⟩⟩) ?_
    rw [Fits, words] at hfits
    rw [Notices, toInt32_eq_self (by omega) (by omega)]
    omega
  · rcases answer_of_not_fits (R := R) hfits db with ⟨hneg, he⟩ | ⟨hneg, f, hf⟩
    · exact iff_of_true he hneg
    · rw [hf]
      exact iff_of_false (by rintro ⟨e, ⟨⟩⟩) hneg

/-- What is absent is reported exactly if the method notices it. -/
theorem reports_nothing_iff {c : SingleRead} {db : TypedKeys}
    (hfinds : c.finds db = .nothing) : c.Reports R db ↔ c.Notices R := by
  have hreports : c.Reports R db ↔
      match c.marker with
      | some v => c.answer R db = .ret v
      | none => ∃ e, c.answer R db = .raise e :=
    ⟨fun h => h.absent hfinds, fun h => ⟨fun _ => h, fun hne => absurd hfinds hne⟩⟩
  rw [hreports]
  cases hmarker : c.marker (O := O) with
  | some v => exact answer_nothing_iff c hfinds hmarker
  | none =>
      rcases c with key | key | ⟨key, field⟩ | c
      · cases hmarker
      · exact getString_nothing_iff hfinds
      · cases hmarker
      · cases c <;> cases hmarker

/-- What is found is not reported as absent exactly if the method does not confuse the two. -/
theorem reports_found_iff {c : SingleRead} {db : TypedKeys} (hfinds : c.finds db ≠ .nothing) :
    c.Reports R db ↔ (c.Fits → ¬ c.Confuses R (c.finds db).reply) := by
  have hreports : c.Reports R db ↔ ∀ v, c.marker = some v → c.answer R db ≠ .ret v :=
    ⟨fun h => h.present hfinds, fun h => ⟨fun heq => absurd heq hfinds, fun _ => h⟩⟩
  rw [hreports]
  by_cases hfits : c.Fits
  · obtain ⟨p, w, hp, hrun⟩ := answer_of_fits (R := R) hfits db
    rw [hrun, forall_prop_of_true hfits]
    constructor
    · intro h hconfuses
      cases hmarker : c.marker (O := O) with
      | some v => exact h v hmarker ((run_found_iff c hfinds hp hmarker).mpr hconfuses)
      | none =>
          rcases c with key | key | ⟨key, field⟩ | c
          · cases hmarker
          · exact hconfuses
          · cases hmarker
          · cases c <;> cases hmarker
    · intro h v hv heq
      exact h ((run_found_iff c hfinds hp hv).mp heq)
  · exact iff_of_true (fun v _ h => hfits (fits_of_answer h)) fun h => absurd h hfits

/-- **Absence** is reported, and nothing else is reported as absent, exactly if the method
notices it and confuses no value and no error with it. -/
theorem reports_iff (R : Runtime O) (c : SingleRead) (db : TypedKeys) :
    c.Reports R db ↔ c.Tells R db := by
  rw [Tells]
  cases hfinds : c.finds db with
  | nothing => exact reports_nothing_iff hfinds
  | value b =>
      have hne : c.finds db ≠ .nothing := by rw [hfinds]; rintro ⟨⟩
      rw [reports_found_iff hne, hfinds]
  | error str =>
      have hne : c.finds db ≠ .nothing := by rw [hfinds]; rintro ⟨⟩
      rw [reports_found_iff hne, hfinds]

/-- A reader of objects confuses the serialization of NULL with absence, and that of no other
object. -/
theorem reports_stored_iff {c : SingleRead} {db : TypedKeys} {x : SEXP O}
    (hc : c.marker (O := O) = some .null)
    (hx : R.unserializeFromRaw (R.serializeToRaw x) = some x)
    (hlt : (R.serializeToRaw x).length < 2 ^ 31)
    (hfinds : c.finds db = .value (R.serializeToRaw x)) (hfits : c.Fits) :
    c.Reports R db ↔ x ≠ .null := by
  have hne : c.finds db ≠ .nothing := by rw [hfinds]; rintro ⟨⟩
  have hbytes : (Reply.string (R.serializeToRaw x)).bytes = R.serializeToRaw x :=
    List.take_length
  have hdecode : R.decode (.string (R.serializeToRaw x)) = .ok x :=
    Runtime.decode_of_lt hlt (hbytes.symm ▸ hx)
  have hnull : R.decode (.string (R.serializeToRaw x)) = .ok .null ↔ x = .null := by
    rw [hdecode, Except.ok.injEq]
  rw [reports_found_iff hne, hfinds, forall_prop_of_true hfits, Finding.reply]
  apply not_congr
  rcases c with key | key | ⟨key, field⟩ | c
  · exact hnull
  · cases hc
  · exact hnull
  · cases c with
    | listLPop key => cases hc
    | _ =>
        constructor
        · rintro ⟨b, -, h⟩
          exact hnull.mp h
        · intro h
          exact ⟨_, rfl, hnull.mpr h⟩

end SingleRead

/-- **Absence.**  A method answers with its marker for an absent value, and for nothing else,
exactly if it notices nil and confuses no value and no error with it.  So an object that is
stored as its serialization is told from an absent one exactly if it is not NULL. -/
theorem absence_iff (R : Runtime O) :
    (∀ (c : SingleRead) (db : TypedKeys), c.Reports R db ↔ c.Tells R db) ∧
    ∀ (c : SingleRead) (db : TypedKeys) (x : SEXP O), c.marker (O := O) = some .null →
      R.unserializeFromRaw (R.serializeToRaw x) = some x →
      (R.serializeToRaw x).length < 2 ^ 31 →
      c.finds db = .value (R.serializeToRaw x) → c.Fits → (c.Reports R db ↔ x ≠ .null) :=
  ⟨SingleRead.reports_iff R, fun _ _ _ hc hx hlt hfinds hfits =>
    SingleRead.reports_stored_iff hc hx hlt hfinds hfits⟩

/-- `get` reports a missing key, and a number as none. -/
theorem get_reports :
    SingleRead.Reports Runtime.numbers (.get (.ofAscii "k")) (fun _ => .absent) ∧
      SingleRead.Reports Runtime.numbers (.get (.ofAscii "k")) fun _ =>
        .string (Runtime.numbers.serializeToRaw (.real [.ofInt 7])) := by
  have hfits : (SingleRead.get (.ofAscii "k")).Fits := by
    unfold SingleRead.Fits
    decide
  obtain ⟨hreports, hstored⟩ := absence_iff Runtime.numbers
  refine ⟨(hreports _ _).mpr hfits,
    (hstored _ _ (.real [.ofInt 7]) rfl ?_ ?_ rfl hfits).mpr ?_⟩
  · exact Runtime.numbers_recovers _
  · decide
  · rintro ⟨⟩

/-- A missing field is not reported by `hget`. -/
theorem missing_field_not_reported :
    ¬ SingleRead.Reports Runtime.onlyNull (.hget (.ofAscii "k") (.ofAscii "f")) fun _ =>
      .absent := by
  rw [SingleRead.reports_nothing_iff rfl]
  rintro ⟨-, hempty⟩
  have hnone : Runtime.onlyNull.unserializeFromRaw [] = none := rfl
  rw [hnone] at hempty
  cases hempty

end RcppRedis
