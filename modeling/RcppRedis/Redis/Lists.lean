import RcppRedis.Redis.Connection
import RcppRedis.Lib.KeyedLists

/-!
# The serialized-list methods

`lists` is a server of byte string lists: it reads a list command and carries out the operation
on its `KeyedLists.Store`.  The list methods of the class are operations on lists of R objects,
each object stored as its serialization.

* `listCommand_words` — the words of a method are the operation, encoded.
* `run_listCall` — one call.
* `lists_refine` — a session of calls is the run of the operations on R objects.
-/

namespace RcppRedis

open Bytes Resp Hiredis Interact Prog KeyedLists

variable {O : Type} {R : Runtime O}

/-! ## The server -/

/-- A byte with small letters made capitals. -/
def upper (c : UInt8) : UInt8 := if 97 ≤ c ∧ c ≤ 122 then c - 32 else c

/-- `LEFT` or `RIGHT`, in any case. -/
def parseSide (w : Bytes) : Option Side :=
  if w.map upper = ascii "LEFT" then some .left
  else if w.map upper = ascii "RIGHT" then some .right
  else none

/-- The operation that a list command asks for. -/
def listCommand : List Bytes → Option (Op Bytes Bytes)
  | [w, key] =>
      if w = ascii "LPOP" then some (.pop .left key)
      else if w = ascii "RPOP" then some (.pop .right key)
      else if w = ascii "LLEN" then some (.length key)
      else none
  | [w, key, x] =>
      if w = ascii "LPUSH" then some (.push .left key x)
      else if w = ascii "RPUSH" then some (.push .right key x)
      else none
  | [w, key, a, b] =>
      if w = ascii "LRANGE" then do
        let start ← parseDecimalInt a
        let stop ← parseDecimalInt b
        pure (.range key start stop)
      else if w = ascii "LTRIM" then do
        let start ← parseDecimalInt a
        let stop ← parseDecimalInt b
        pure (.trim key start stop)
      else if w = ascii "LREM" then do
        let count ← parseDecimalInt a
        pure (.remove key count b)
      else none
  | [w, src, dest, wherefrom, whereto] =>
      if w = ascii "LMOVE" then do
        let wherefrom ← parseSide wherefrom
        let whereto ← parseSide whereto
        pure (.move src dest wherefrom whereto)
      else none
  | _ => none

/-- The reply with an answer. -/
def listReply : Answer Bytes → Reply
  | .count n => .integer n
  | .element none => .nil
  | .element (some x) => .string x
  | .elements l => .array (l.map Reply.string)
  | .done => .status (ascii "OK")

/-- A server of lists under keys. -/
def lists : Server (Store Bytes Bytes) := fun words m =>
  match listCommand words with
  | none => (.error (ascii "ERR syntax error"), m)
  | some op => (listReply (op.run m).1, (op.run m).2)

theorem lists_of_listCommand {words : List Bytes} {op : Op Bytes Bytes}
    (h : listCommand words = some op) (m : Store Bytes Bytes) :
    lists words m = (listReply (op.run m).1, (op.run m).2) := by
  rw [lists, h]

/-! ## The calls -/

/-- A call of one of the nine list methods. -/
inductive ListCall (O : Type) where
  | lpush (key : CStr) (x : SEXP O)
  | rpush (key : CStr) (x : SEXP O)
  | lpop (key : CStr)
  | rpop (key : CStr)
  | lrange (key : CStr) (start stop : Int32)
  | ltrim (key : CStr) (start stop : Int32)
  | lrem (key : CStr) (count : Int32) (x : SEXP O)
  | lmove (src dest : CStr) (wherefrom whereto : Side)
  | llen (key : CStr)

/-- The word for an end of a list. -/
def sideWord : Side → CStr
  | .left => .ofAscii "LEFT"
  | .right => .ofAscii "RIGHT"

/-- What a method makes of an answer. -/
def answerValue : Answer (SEXP O) → SEXP O
  | .count n => .real [.ofInt n]
  | .element none => .null
  | .element (some x) => x
  | .elements l => .list l none
  | .done => .str [.ofAscii "OK"]

namespace ListCall

/-- The method that is called. -/
def method : ListCall O → Method O
  | lpush key x => .lpush key x
  | rpush key x => .rpush key x
  | lpop key => .lpop key
  | rpop key => .rpop key
  | lrange key start stop => .lrange key start stop
  | ltrim key start stop => .ltrim key start stop
  | lrem key count x => .lrem key count x
  | lmove src dest wherefrom whereto => .lmove src dest (sideWord wherefrom) (sideWord whereto)
  | llen key => .llen key

/-- The operation on lists of R objects that the call stands for. -/
def op : ListCall O → Op CStr (SEXP O)
  | lpush key x => .push .left key x
  | rpush key x => .push .right key x
  | lpop key => .pop .left key
  | rpop key => .pop .right key
  | lrange key start stop => .range key start.toInt stop.toInt
  | ltrim key start stop => .trim key start.toInt stop.toInt
  | lrem key count x => .remove key count.toInt x
  | lmove src dest wherefrom whereto => .move src dest wherefrom whereto
  | llen key => .length key

/-- How the call reads its reply. -/
def reader : ListCall O → Reader
  | lpop _ | rpop _ | lmove _ _ _ _ => .pop
  | lrange _ _ _ => .objects
  | llen _ => .double
  | _ => .extract

/-- The object that is passed is not raw, and its serialization can be read back. -/
def Storable (R : Runtime O) (c : ListCall O) : Prop :=
  ∀ x ∈ c.op.argument, x.isRaw = false ∧ R.unserializeFromRaw (R.serializeToRaw x) = some x

/-- The frame of the call's command fits in an `int`, and its terminator too. -/
def Fits (R : Runtime O) (c : ListCall O) : Prop :=
  ∀ words ∈ c.method.commands R, (encodeCommand words).length + 1 < 2 ^ 31

end ListCall

theorem parseSide_sideWord (side : Side) : parseSide (sideWord side).bytes = some side := by
  cases side <;> decide

theorem payload_of_not_raw {x : SEXP O} (h : x.isRaw = false) :
    payload R x = R.serializeToRaw x := by
  cases x <;> first | rfl | cases h

/-- **The words of a call are its operation**, with the object serialized. -/
theorem listCommand_words {c : ListCall O} (h : c.Storable R) :
    ∃ words, c.method.commands R = [words] ∧
      listCommand words = some ((c.op.mapKeys CStr.bytes).map R.serializeToRaw) := by
  have hpayload {x : SEXP O} (hx : x ∈ c.op.argument) : payload R x = R.serializeToRaw x :=
    payload_of_not_raw (h x hx).1
  cases c with
  | lpush key x => exact ⟨_, rfl, by rw [hpayload rfl]; rfl⟩
  | rpush key x => exact ⟨_, rfl, by rw [hpayload rfl]; rfl⟩
  | lpop key => exact ⟨_, rfl, rfl⟩
  | rpop key => exact ⟨_, rfl, rfl⟩
  | lrange key start stop => exact ⟨_, rfl, by simp [listCommand]; rfl⟩
  | ltrim key start stop => exact ⟨_, rfl, by simp [listCommand]; rfl⟩
  | lrem key count x => exact ⟨_, rfl, by rw [hpayload rfl]; simp [listCommand]; rfl⟩
  | lmove src dest wherefrom whereto =>
      exact ⟨_, rfl, by simp [listCommand, parseSide_sideWord]; rfl⟩
  | llen key => exact ⟨_, rfl, rfl⟩

/-- A call sends one command and reads its reply. -/
theorem ListCall.code_eq (c : ListCall O) : ∃ q, c.method.requests R = [q] ∧
    c.method.code R = requestNULLSafe q >>= c.reader.code R := by
  cases c <;> exact ⟨_, rfl, rfl⟩

theorem ListCall.templated (c : ListCall O) : c.method.Templated := by
  cases c <;> trivial

/-! ## Objects in the store -/

/-- The objects that can be stored and read back. -/
def stored (R : Runtime O) : Set (SEXP O) :=
  {x | R.unserializeFromRaw (R.serializeToRaw x) = some x ∧
    (R.serializeToRaw x).length < 2 ^ 31}

/-- Equal bytes are equal objects. -/
theorem injOn_serializeToRaw : (stored R).InjOn R.serializeToRaw := by
  intro x hx y hy h
  have hxy := hy.1
  rw [← h, hx.1] at hxy
  exact Option.some.inj hxy

/-- The serialization of an object is shorter than a frame that it is sent in. -/
theorem length_serialize_lt {x : SEXP O} (hx : x.isRaw = false) {words : List Bytes}
    (hfits : (encodeCommand words).length + 1 < 2 ^ 31) (hmem : payload R x ∈ words) :
    (R.serializeToRaw x).length < 2 ^ 31 := by
  have hle := length_le_of_mem hmem
  rw [payload_of_not_raw hx] at hle
  omega

theorem ListCall.within_stored {c : ListCall O} (hc : c.Storable R) (hfits : c.Fits R) :
    (c.op.mapKeys CStr.bytes).Within (stored R) := by
  cases c with
  | lpush key x | rpush key x | lrem key count x =>
      rintro y ⟨⟩
      obtain ⟨hraw, hround⟩ := hc x rfl
      exact ⟨hround, length_serialize_lt hraw (hfits _ List.mem_cons_self) (by simp)⟩
  | _ => rintro y ⟨⟩

/-! ## Reading the replies -/

theorem objectOf_of_stored {x : SEXP O} (hx : x ∈ stored R) {p : Pointer}
    (hp : p.node = .string (R.serializeToRaw x)) : objectOf R p = .ret x := by
  have hdecode : R.decode p.node = .ok x := by
    refine Runtime.decode_of_lt ?_ ?_
    · rw [hp]
      exact hx.2
    · rw [hp]
      simpa [Reply.bytes, Reply.str?, Reply.len] using hx.1
  rw [objectOf_eq, hdecode]

theorem popValue_of_stored {x : Option (SEXP O)} (hx : ∀ y ∈ x, y ∈ stored R) {p : Pointer}
    (hp : p.node = listReply ((Answer.element x).map R.serializeToRaw)) :
    popValue R p = .ret (answerValue (.element x)) := by
  cases x with
  | none =>
      rw [popValue, if_pos (by rw [hp]; rfl)]
      rfl
  | some x =>
      have hstring : replyTypeToInteger p.node = some .string := by rw [hp]; rfl
      rw [popValue, if_neg (by rw [hstring]; simp), checkReplyType_of_eq hstring, ret_bind,
        objectOf_of_stored (hx x rfl) hp]
      rfl

theorem objectsValue_of_stored {l : List (SEXP O)} (hl : ∀ y ∈ l, y ∈ stored R) {p : Pointer}
    (hp : p.node = listReply ((Answer.elements l).map R.serializeToRaw)) :
    objectsValue R p = .ret (.list l none) := by
  have hread : p.children.mapM (objectOf R) = .ret (l.map id) :=
    mapM_children_eq_ret hp fun x hx q hq => objectOf_of_stored (hl x hx) hq
  rw [objectsValue, hread, List.map_id]
  rfl

section Classical

open scoped Classical

/-- The operation of a call, on the lists of R objects. -/
noncomputable def ListCall.step (c : ListCall O) (m : Store Bytes (SEXP O)) :
    Answer (SEXP O) × Store Bytes (SEXP O) := (c.op.mapKeys CStr.bytes).run m

/-- **What a call makes of its reply** is the value of its answer. -/
theorem reader_value (c : ListCall O) {m : Store Bytes (SEXP O)}
    (hans : (c.step m).1.Within (stored R)) {p : Pointer}
    (hp : p.node = listReply ((c.step m).1.map R.serializeToRaw)) :
    c.reader.value R p = .ret (answerValue (c.step m).1) := by
  obtain ⟨id, path, node⟩ := p
  simp only at hp
  subst hp
  cases c with
  | lpop key | rpop key => exact popValue_of_stored hans rfl
  | lrange key start stop => exact objectsValue_of_stored hans rfl
  | lmove src dest wherefrom whereto =>
      obtain ⟨x, hx⟩ : ∃ x, (ListCall.step (.lmove src dest wherefrom whereto) m).1 =
        .element x := by
        simp only [ListCall.step, ListCall.op, Op.mapKeys, Op.run]
        split
        · exact ⟨_, rfl⟩
        · exact ⟨_, rfl⟩
      rw [hx] at hans ⊢
      exact popValue_of_stored hans rfl
  | _ => rfl

/-- **One call** does its operation on the stored objects and returns the value of the
answer. -/
theorem run_listCall {c : ListCall O} (hc : c.Storable R) (hfits : c.Fits R)
    {m : Store Bytes (SEXP O)} (hm : m.Within (stored R)) :
    ∃ w, (Conn.env lists).run (c.method.code R) { server := m.map R.serializeToRaw } =
        (.ret (answerValue (c.step m).1), w) ∧
      w.env = { server := (c.step m).2.map R.serializeToRaw } ∧
      (c.step m).2.Within (stored R) := by
  obtain ⟨q, hq, hcode⟩ := c.code_eq (R := R)
  obtain ⟨words, hwords, hcommand⟩ := listCommand_words hc
  have hencodes := Method.encodes_commands (R := R) c.templated
  rw [hq, hwords] at hencodes
  obtain ⟨hencodes, -⟩ := List.forall₂_cons.mp hencodes
  have hlt := hfits words (by simp [hwords])
  have hexact : q.Exact words := by
    refine hencodes.exact_iff_fits.mpr ?_
    cases q with
    | argv _ => exact Nat.lt_of_succ_lt hlt
    | _ => exact hlt
  have hop := ListCall.within_stored hc hfits
  obtain ⟨hans, hnext⟩ := Op.within_run hop hm
  have hserver : lists words (m.map R.serializeToRaw) =
      (listReply ((c.step m).1.map R.serializeToRaw), (c.step m).2.map R.serializeToRaw) := by
    rw [lists_of_listCommand hcommand, KeyedLists.run_map injOn_serializeToRaw hop hm]
    rfl
  have hne : c.reader ≠ .hget := by cases c <;> rintro ⟨⟩
  rw [Env.run, hcode, run_command lists hexact hencodes.ne_nil _ rfl, hserver,
    Reader.code_of_ne hne, reader_value c hans rfl, run_thenFree_ret]
  exact ⟨_, rfl, rfl, hnext⟩

/-- The operations of a session, each with its answer and the lists after it. -/
noncomputable def listTrace : List (ListCall O) → Store Bytes (SEXP O) →
    List (Answer (SEXP O) × Store Bytes (SEXP O))
  | [], _ => []
  | c :: cs, m => c.step m :: listTrace cs (c.step m).2

theorem session_lists {calls : List (ListCall O)}
    (hcalls : ∀ c ∈ calls, c.Storable R ∧ c.Fits R) {m : Store Bytes (SEXP O)}
    (hm : m.Within (stored R)) : (Conn.env lists).session (calls.map fun c => c.method.code R)
        { server := m.map R.serializeToRaw } =
      (listTrace calls m).map fun (a, m') =>
        (.ret (answerValue a), { server := m'.map R.serializeToRaw }) := by
  induction calls generalizing m with
  | nil => rfl
  | cons c cs ih =>
      obtain ⟨⟨hc, hfits⟩, hcs⟩ := List.forall_mem_cons.mp hcalls
      obtain ⟨w, hrun, hw, hnext⟩ := run_listCall hc hfits hm
      rw [List.map_cons, session_cons_ret hrun, hw, ih hcs hnext]
      rfl

/-- **The list methods refine lists of R objects.**  From absent keys, every call of a session
returns the value of its operation's answer, and the stored bytes are at every step the
serializations of the lists of objects. -/
theorem lists_refine {calls : List (ListCall O)}
    (hcalls : ∀ c ∈ calls, c.Storable R ∧ c.Fits R) :
    (Conn.env lists).session (calls.map fun c => c.method.code R) { server := fun _ => [] } =
      (listTrace calls fun _ => []).map fun (a, m) =>
        (.ret (answerValue a), { server := m.map R.serializeToRaw }) :=
  session_lists (m := fun _ => []) hcalls (by rintro k x ⟨⟩)

/-- A number is pushed, NULL behind it; both are listed, and the number is popped again. -/
def pushAndPop : List (ListCall Empty) :=
  [.lpush (.ofAscii "k") (.real [.ofInt 7]), .rpush (.ofAscii "k") .null,
    .lrange (.ofAscii "k") 0 (-1), .lpop (.ofAscii "k")]

theorem pushAndPop_answers :
    (Conn.env lists).session (pushAndPop.map fun c => c.method.code Runtime.numbers)
        { server := fun _ => [] } =
      (listTrace pushAndPop fun _ => []).map fun (a, m) =>
        (.ret (answerValue a), { server := m.map Runtime.numbers.serializeToRaw }) := by
  refine lists_refine ?_
  simp only [pushAndPop, List.forall_mem_cons, ListCall.Fits, ListCall.method, Method.commands,
    List.mem_singleton, forall_eq]
  refine ⟨⟨?_, by decide⟩, ⟨?_, by decide⟩, ⟨?_, by decide⟩, ?_, by decide⟩
  · rintro x ⟨⟩
    exact ⟨rfl, Runtime.numbers_recovers _⟩
  · rintro x ⟨⟩
    exact ⟨rfl, rfl⟩
  · rintro x ⟨⟩
  · rintro x ⟨⟩

/-- A key whose frame does not fit is not sent. -/
theorem run_llen_ne_ret {key : CStr} (hkey : 2 ^ 31 ≤ key.bytes.length + 1)
    (s : Store Bytes Bytes) (x : SEXP O) :
    ((Conn.env lists).run (Method.code R (.llen key)) { server := s }).1 ≠ .ret x := by
  have hcode : Method.code R (.llen key) =
      requestNULLSafe (.format (template [keyword "LLEN", .str key])
        ([keyword "LLEN", .str key].map Item.args).flatten) >>= Reader.code R .double := rfl
  have hmem : key.bytes ∈ [keyword "LLEN", .str key].map Item.text := by simp [Item.text]
  rw [Env.run, hcode]
  exact run_long_ne_ret lists [keyword "LLEN", .str key] hmem hkey (Reader.code R .double)
    ⟨{ server := s }, {}⟩ x

/-- No command with a key of `2 ^ 31 - 1` bytes, the longest string that R has, is sent. -/
theorem llen_longest_key_fails :
    ¬ ∀ calls : List (ListCall Empty), (∀ c ∈ calls, c.Storable Runtime.onlyNull) →
      (Conn.env lists).session (calls.map fun c => c.method.code Runtime.onlyNull)
          { server := fun _ => [] } =
        (listTrace calls fun _ => []).map fun (a, m) =>
          (.ret (answerValue a), { server := m.map Runtime.onlyNull.serializeToRaw }) := by
  intro h
  obtain ⟨key, hlen⟩ : ∃ key : CStr, key.bytes.length = 0x7fffffff :=
    ⟨Method.longKey 0x7fffffff, Method.length_longKey _⟩
  have hcall := h [.llen key] (by
    intro c hc x hx
    rw [List.mem_singleton.mp hc] at hx
    cases hx)
  have hfails := run_llen_ne_ret (R := Runtime.onlyNull)
    (show 2 ^ 31 ≤ key.bytes.length + 1 by omega) fun _ => []
  have hhead := congrArg (fun l => l.head?.map Prod.fst) hcall
  rw [List.map_singleton, Env.session] at hhead
  rcases hrun : (Conn.env lists).run (Method.code Runtime.onlyNull (.llen key))
    { server := fun _ => [] } with ⟨x | e | f | _, w⟩
  · exact hfails x (by rw [hrun])
  all_goals
    simp only [ListCall.method, hrun] at hhead
    cases hhead

end Classical

end RcppRedis
