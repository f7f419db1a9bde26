import RcppRedis.Redis.Lists

/-!
# Popping

`lpop`, `rpop`, `listLPop` and `lmove` take an element out of a list before the client looks at
it.  `PopCall.Keeps` says that nothing is lost by a call: it returns all of the element, or it
raises with the lists as they were.

* `keeps_iff_recovers` — exactly when a call keeps what it pops, over any lists.
-/

namespace RcppRedis

open Bytes Resp Hiredis Interact Prog KeyedLists

variable {O : Type} {R : Runtime O}

/-! ## The calls -/

/-- A call that pops.  The words for the ends of a move are passed on as they are. -/
inductive PopCall where
  | lpop (key : CStr)
  | rpop (key : CStr)
  | listLPop (key : CStr)
  | lmove (src dest wherefrom whereto : CStr)

namespace PopCall

/-- The method that is called. -/
def method : PopCall → Method O
  | lpop key => .lpop key
  | rpop key => .rpop key
  | listLPop key => .listLPop key
  | lmove src dest wherefrom whereto => .lmove src dest wherefrom whereto

/-- The words of its command. -/
def words : PopCall → List Bytes
  | lpop key | listLPop key => [ascii "LPOP", key.bytes]
  | rpop key => [ascii "RPOP", key.bytes]
  | lmove src dest wherefrom whereto =>
      [ascii "LMOVE", src.bytes, dest.bytes, wherefrom.bytes, whereto.bytes]

/-- How it reads its reply. -/
def reader : PopCall → Reader
  | listLPop _ => .listLPop
  | _ => .pop

/-- The element that is popped. -/
def popped (m : Store Bytes Bytes) : PopCall → Option Bytes
  | lpop key | listLPop key => front .left (m key.bytes)
  | rpop key => front .right (m key.bytes)
  | lmove src _ wherefrom whereto =>
      match parseSide wherefrom.bytes, parseSide whereto.bytes with
      | some side, some _ => front side (m src.bytes)
      | _, _ => none

/-- A value that holds all of an element: its bytes, or the object that they unserialize to. -/
def Holds (R : Runtime O) (c : PopCall) (v : SEXP O) (b : Bytes) : Prop :=
  match c with
  | listLPop _ => ∃ s : CStr, v = .str [s] ∧ s.bytes = b
  | _ => R.unserializeFromRaw b = some v

/-- The call returns all of what it has popped, or it raises and the lists are as before. -/
def Keeps (R : Runtime O) (c : PopCall) (m : Store Bytes Bytes) : Prop :=
  (∃ v w, (Conn.env lists).run (c.method.code R) { server := m } = (.ret v, w) ∧
    ∀ b ∈ c.popped m, c.Holds R v b) ∨
  ∃ e w, (Conn.env lists).run (c.method.code R) { server := m } = (.raise e, w) ∧
  w.env.server = m

/-- The client reads all of an element. -/
def Readable (R : Runtime O) (c : PopCall) (b : Bytes) : Prop :=
  match c with
  | listLPop _ => (0 : UInt8) ∉ b
  | _ => ∃ obj, R.decode (.string b) = .ok obj ∧ R.unserializeFromRaw b = some obj

/-- The client finds no object in an element that a move has put back where it was. -/
def Unmoved (R : Runtime O) (c : PopCall) (m : Store Bytes Bytes) (b : Bytes) : Prop :=
  match c with
  | lmove _ _ _ _ => ¬ Decodes R (.string b) ∧ (lists c.words m).2 = m
  | _ => False

/-- The frame fits, and the element is readable or was moved to where it was; or the frame is
so long that no buffer is allocated for it. -/
def Recovers (R : Runtime O) (c : PopCall) (m : Store Bytes Bytes) : Prop :=
  ((encodeCommand c.words).length + 1 < 2 ^ 31 ∧ ∀ b ∈ c.popped m,
    c.Readable R b ∨ c.Unmoved R m b) ∨
  toInt32 (encodeCommand c.words).length + 1 < 0

theorem words_ne_nil (c : PopCall) : c.words ≠ [] := by cases c <;> simp [words]

/-- A call sends one command and reads its reply. -/
theorem code_eq (c : PopCall) : ∃ items :
    List Item, items ≠ [] ∧ items.map Item.text = c.words ∧
    c.method.code R =
      requestNULLSafe (.format (template items) (items.map Item.args).flatten) >>=
        c.reader.code R := by
  cases c with
  | lpop key | listLPop key => exact ⟨[keyword "LPOP", .str key], by simp, rfl, rfl⟩
  | rpop key => exact ⟨[keyword "RPOP", .str key], by simp, rfl, rfl⟩
  | lmove src dest wherefrom whereto =>
      exact ⟨[keyword "LMOVE", .str src, .str dest, .str wherefrom, .str whereto],
        by simp, rfl, rfl⟩

/-! ## What the server replies -/

theorem lists_pop (side : Side) (w key : Bytes)
    (h : listCommand [w, key] = some (.pop side key)) (m : Store Bytes Bytes) :
    (lists [w, key] m).1 = listReply (.element (front side (m key))) := by
  rw [lists_of_listCommand h]
  rfl

/-- The reply to a pop: the element, nil, or an error that leaves the lists alone. -/
theorem lists_reply (c : PopCall) (m : Store Bytes Bytes) :
    (∃ b, c.popped m = some b ∧ (lists c.words m).1 = .string b) ∨
    (c.popped m = none ∧ ((lists c.words m).1 = .nil ∨
      (∃ str, (lists c.words m).1 = .error str) ∧ (lists c.words m).2 = m)) := by
  have hside (side : Side) (key : Bytes) {reply : Reply}
      (hreply : reply = listReply (.element (front side (m key)))) :
      (∃ b, front side (m key) = some b ∧ reply = .string b) ∨
        (front side (m key) = none ∧ reply = .nil) := by
    rw [hreply]
    cases front side (m key) with
    | none => exact .inr ⟨rfl, rfl⟩
    | some b => exact .inl ⟨b, rfl, rfl⟩
  cases c with
  | lpop key | listLPop key =>
      exact (hside .left key.bytes (lists_pop .left _ _ rfl m)).imp_right fun h =>
        ⟨h.1, .inl h.2⟩
  | rpop key =>
      exact (hside .right key.bytes (lists_pop .right _ _ rfl m)).imp_right fun h =>
        ⟨h.1, .inl h.2⟩
  | lmove src dest wherefrom whereto =>
      simp only [popped, words]
      rcases hfrom : parseSide wherefrom.bytes with _ | side
      · refine .inr ⟨rfl, .inr ?_⟩
        simp [lists, listCommand, hfrom]
      rcases hto : parseSide whereto.bytes with _ | side'
      · refine .inr ⟨rfl, .inr ?_⟩
        simp [lists, listCommand, hfrom, hto]
      have hcommand : listCommand [ascii "LMOVE", src.bytes, dest.bytes, wherefrom.bytes,
          whereto.bytes] = some (.move src.bytes dest.bytes side side') := by
        simp [listCommand, hfrom, hto]
      rw [lists_of_listCommand hcommand]
      dsimp only
      cases hfront : front side (m src.bytes) with
      | none => exact .inr ⟨rfl, .inl (by simp [Op.run, hfront, listReply])⟩
      | some b => exact .inl ⟨b, rfl, by simp [Op.run, hfront, listReply]⟩

/-- A pop from a list that is not empty changes it. -/
theorem lists_pop_ne (side : Side) {w key : Bytes}
    (h : listCommand [w, key] = some (.pop side key)) {m : Store Bytes Bytes} {b : Bytes}
    (hb : front side (m key) = some b) :
    (lists [w, key] m).2 ≠ m := by
  intro heq
  rw [lists_of_listCommand h] at heq
  have hkey := congrArg List.length (congrFun heq key)
  have hpos := List.length_pos_of_mem (mem_of_front hb)
  cases side with
  | left =>
      simp only [Op.run, Function.update_self, rest, List.length_tail] at hkey
      omega
  | right =>
      simp only [Op.run, Function.update_self, rest, List.length_dropLast] at hkey
      omega

/-! ## What a call makes of it -/

/-- A decoded element as the end of a method. -/
def ofDecoded : Except RError (SEXP O) → Code (SEXP O)
  | .ok obj => .ret obj
  | .error e => .raise e

theorem popValue_string {p : Pointer} {b : Bytes} (hp : p.node = .string b) :
    popValue R p = ofDecoded (R.decode (.string b)) := by
  have hstring : replyTypeToInteger p.node = some .string := by rw [hp]; rfl
  rw [popValue, if_neg (by rw [hstring]; simp), checkReplyType_of_eq hstring, ret_bind,
    objectOf_eq, hp]
  cases R.decode (.string b) with
  | ok obj => rfl
  | error e => rfl

theorem value_string (c : PopCall) {p : Pointer} {b : Bytes} (hp : p.node = .string b) :
    c.reader.value R p =
      match c with
      | listLPop _ => .ret (.str [.ofBuffer b])
      | _ => ofDecoded (R.decode (.string b)) := by
  have hstring : replyTypeToInteger p.node = some .string := by rw [hp]; rfl
  have hnil : ¬ replyTypeToInteger p.node = some .nil := by rw [hstring]; simp
  have hstr : p.node.str? = some b := by rw [hp]; rfl
  cases c with
  | listLPop key =>
      rw [reader, Reader.value, listLPopValue, if_neg hnil, checkReplyType_of_eq hstring,
        ret_bind, stringValue, stringOf_of_some hstr]
      rfl
  | _ => exact popValue_string hp

theorem value_nil (c : PopCall) {p : Pointer} (hp : p.node = .nil) :
    ∃ v, c.reader.value R p = .ret v := by
  have hnil : replyTypeToInteger p.node = some .nil := by rw [hp]; rfl
  cases c with
  | listLPop key => exact ⟨_, by rw [reader, Reader.value, listLPopValue, if_pos hnil]; rfl⟩
  | _ => exact ⟨_, by simp only [reader, Reader.value]; rw [popValue, if_pos hnil]; rfl⟩

theorem value_error (c : PopCall) {p : Pointer} {str : Bytes} (hp : p.node = .error str) :
    ∃ e, c.reader.value R p = .raise e := by
  obtain ⟨id, path, node⟩ := p
  cases hp
  cases c <;> exact ⟨_, rfl⟩

/-- A call whose frame fits reads the server's reply, after the lists have changed. -/
theorem run_of_fits {c : PopCall} (h : (encodeCommand c.words).length + 1 < 2 ^ 31)
    (m : Store Bytes Bytes) :
    ∃ p w, p.node = (lists c.words m).1 ∧ w.env.server = (lists c.words m).2 ∧
      (Conn.env lists).run (c.method.code R) { server := m } =
        run (Conn.env lists).handler (thenFree p (c.reader.value R p)) w := by
  obtain ⟨items, hne, hitems, hcode⟩ := c.code_eq (R := R)
  have hexact : Request.Exact (.format (template items) (items.map Item.args).flatten)
      c.words := by
    rw [← hitems] at h ⊢
    exact (Request.Encodes.format items hne).exact_iff_fits.mpr h
  have hget : c.reader ≠ .hget := by cases c <;> rintro ⟨⟩
  rw [Env.run, hcode, run_command lists hexact c.words_ne_nil _ rfl, Reader.code_of_ne hget]
  exact ⟨_, _, rfl, rfl, rfl⟩

/-- A call whose frame does not fit sends nothing: it raises if no buffer is allocated, and
else it writes past its buffer. -/
theorem run_of_not_fits {c : PopCall} (h : ¬ (encodeCommand c.words).length + 1 < 2 ^ 31)
    (m : Store Bytes Bytes) :
    (toInt32 (encodeCommand c.words).length + 1 < 0 ∧ ∃ e w,
      (Conn.env lists).run (c.method.code R) { server := m } = (.raise e, w) ∧
      w.env.server = m) ∨
    (¬ toInt32 (encodeCommand c.words).length + 1 < 0 ∧ ∃ f w,
      (Conn.env lists).run (c.method.code R) { server := m } = (.fault f, w)) := by
  obtain ⟨items, hne, hitems, hcode⟩ := c.code_eq (R := R)
  rw [← hitems] at h ⊢
  rw [Env.run, hcode]
  exact run_not_fits lists items hne h _ _

/-- A call that reads an object keeps the element exactly when it finds the object that the
element stands for, or finds none and the lists are as before. -/
theorem keeps_object {c : PopCall} {m : Store Bytes Bytes} {b : Bytes}
    (hholds : ∀ v, c.Holds R v b ↔ R.unserializeFromRaw b = some v)
    (hpopped : c.popped m = some b) {p : Pointer} {w : World (Conn (Store Bytes Bytes))}
    (hw : w.env.server = (lists c.words m).2)
    (hrun : (Conn.env lists).run (c.method.code R) { server := m } =
      run (Conn.env lists).handler (thenFree p (ofDecoded (R.decode (.string b)))) w) :
    c.Keeps R m ↔
      (∃ obj, R.decode (.string b) = .ok obj ∧ R.unserializeFromRaw b = some obj) ∨
        (¬ Decodes R (.string b) ∧ (lists c.words m).2 = m) := by
  rw [Keeps, hrun, hpopped, Decodes]
  simp only [Option.mem_def, Option.some.injEq, forall_eq', hholds]
  rcases R.decode (.string b) with e | obj
  · rw [ofDecoded, run_thenFree_raise]
    simp [hw]
  · rw [ofDecoded, run_thenFree_ret]
    simp

/-- A call that has popped an element keeps it exactly when it reads it, or has not moved
it. -/
theorem keeps_of_popped {c : PopCall} {m : Store Bytes Bytes} {b : Bytes}
    (hfits : (encodeCommand c.words).length + 1 < 2 ^ 31) (hpopped : c.popped m = some b)
    (hreply : (lists c.words m).1 = .string b) :
    c.Keeps R m ↔ c.Readable R b ∨ c.Unmoved R m b := by
  obtain ⟨p, w, hp, hw, hrun⟩ := run_of_fits (R := R) hfits m
  rw [hreply] at hp
  rw [value_string (R := R) c hp] at hrun
  cases c with
  | listLPop key =>
      simp only at hrun
      rw [Keeps, hrun, hpopped, run_thenFree_ret]
      simp only [Option.mem_def, Option.some.injEq, forall_eq', Holds, Readable,
        Unmoved, or_false, Prod.mk.injEq, Outcome.ret.injEq, reduceCtorEq, false_and,
        exists_false]
      constructor
      · rintro ⟨v, w', ⟨rfl, -⟩, s, hs, rfl⟩
        exact s.nulFree
      · intro hnul
        exact ⟨_, _, ⟨rfl, rfl⟩, _, rfl, cString_eq_self hnul⟩
  | lpop key =>
      have hchanged : (lists [ascii "LPOP", key.bytes] m).2 ≠ m :=
        lists_pop_ne .left rfl hpopped
      rw [keeps_object (fun _ => Iff.rfl) hpopped hw hrun]
      exact or_congr_right (iff_false_intro fun h => hchanged h.2)
  | rpop key =>
      have hchanged : (lists [ascii "RPOP", key.bytes] m).2 ≠ m :=
        lists_pop_ne .right rfl hpopped
      rw [keeps_object (fun _ => Iff.rfl) hpopped hw hrun]
      exact or_congr_right (iff_false_intro fun h => hchanged h.2)
  | lmove src dest wherefrom whereto => exact keeps_object (fun _ => Iff.rfl) hpopped hw hrun

end PopCall

/-- **What is popped is kept** exactly when the client can read it, over any lists. -/
theorem PopCall.keeps_iff (c : PopCall) (m : Store Bytes Bytes) :
    c.Keeps R m ↔ c.Recovers R m := by
  by_cases hfits : (encodeCommand c.words).length + 1 < 2 ^ 31
  · have hsize : ¬ toInt32 (encodeCommand c.words).length + 1 < 0 := by
      rw [toInt32_eq_self (by omega) (by omega)]
      omega
    rcases c.lists_reply m with ⟨b, hb, hreply⟩ | ⟨hnone, hreply⟩
    · rw [keeps_of_popped hfits hb hreply, Recovers, hb]
      simp only [Option.mem_def, Option.some.injEq, forall_eq', hsize, or_false,
        and_iff_right hfits]
    · refine iff_of_true ?_ (.inl ⟨hfits, by rw [hnone]; rintro b ⟨⟩⟩)
      obtain ⟨p, w, hp, hw, hrun⟩ := run_of_fits (R := R) hfits m
      rw [Keeps, hrun, hnone]
      rcases hreply with hnil | ⟨⟨str, herror⟩, hsame⟩
      · obtain ⟨v, hv⟩ := c.value_nil (R := R) (hp.trans hnil)
        rw [hv, run_thenFree_ret]
        exact .inl ⟨v, _, rfl, by rintro b ⟨⟩⟩
      · obtain ⟨e, he⟩ := c.value_error (R := R) (hp.trans herror)
        rw [he, run_thenFree_raise]
        exact .inr ⟨e, w, rfl, hw.trans hsame⟩
  · rcases run_of_not_fits (R := R) hfits m with ⟨hsize, hraise⟩ | ⟨hsize, f, w, hfault⟩
    · exact iff_of_true (.inr hraise) (.inr hsize)
    · refine iff_of_false ?_ ?_
      · rw [Keeps, hfault]
        rintro (⟨v, w', ⟨⟩, -⟩ | ⟨e, w', ⟨⟩, -⟩)
      · rintro (h | h)
        · exact hfits h.1
        · exact hsize h

/-! ## Numeric vectors -/

/-- A vector that is pushed comes back whole. -/
def PushPops (R : Runtime O) (key : CStr) (x : List Double) (m : Store Bytes Bytes) : Prop :=
  ∃ s : CStr, s.bytes = Double.bytesOfVector x ∧
    ((Conn.env lists).session [Method.code R (.listLPush key x), Method.code R (.listLPop key)]
      { server := m }).map Prod.fst = [.ret (.str [noText]), .ret (.str [s])]

/-- The words that push a vector. -/
def pushWords (key : CStr) (x : List Double) : List Bytes :=
  [ascii "LPUSH", key.bytes, Double.bytesOfVector x]

theorem length_pop_le (key : CStr) (x : List Double) :
    (encodeCommand (PopCall.listLPop key).words).length ≤
      (encodeCommand (pushWords key x)).length := by
  have h2 : countDigits 2 = 1 := rfl
  have h3 : countDigits 3 = 1 := rfl
  have hword : bulklen (ascii "LPOP").length ≤ bulklen (ascii "LPUSH").length := by decide
  simp only [length_encodeCommand, PopCall.words, pushWords, List.map_cons, List.map_nil,
    List.sum_cons, List.sum_nil, List.length_cons, List.length_nil, Nat.zero_add,
      Nat.reduceAdd, h2, h3]
  omega

theorem listLPush_code (key : CStr) (x : List Double) : Method.code R (.listLPush key x) =
    requestNULLSafe (.format
      (template [keyword "LPUSH", .str key, .bin (Double.bytesOfVector x)])
      ([keyword "LPUSH", .str key, .bin (Double.bytesOfVector x)].map Item.args).flatten) >>=
        Reader.code R .ignore := rfl

theorem run_listLPush {key : CStr} {x : List Double}
    (h : (encodeCommand (pushWords key x)).length + 1 < 2 ^ 31) (m : Store Bytes Bytes) :
    ∃ w, (Conn.env lists).run (Method.code R (.listLPush key x)) { server := m } =
        (.ret (.str [noText]), w) ∧
      w.env =
        { server := Function.update m key.bytes (Double.bytesOfVector x :: m key.bytes) } := by
  have hexact := (Request.Encodes.format
    [keyword "LPUSH", .str key, .bin (Double.bytesOfVector x)] (by simp)).exact_iff_fits.mpr h
  rw [Env.run, listLPush_code, run_command lists hexact (by simp) _ rfl,
    Reader.code_of_ne (by simp)]
  exact ⟨_, run_thenFree_ret _ _ _ _, rfl⟩

/-- **A pushed vector comes back whole** exactly when it has no zero byte and its frame
fits. -/
theorem pushPops_iff (key : CStr) (x : List Double) (m : Store Bytes Bytes) :
    PushPops R key x m ↔ (encodeCommand (pushWords key x)).length + 1 < 2 ^ 31 ∧
      (0 : UInt8) ∉ Double.bytesOfVector x := by
  rw [PushPops]
  by_cases hfits : (encodeCommand (pushWords key x)).length + 1 < 2 ^ 31
  · rw [and_iff_right hfits]
    obtain ⟨w, hpush, hw⟩ := run_listLPush (R := R) hfits m
    have hle := length_pop_le key x
    obtain ⟨p, w', hp, -, hpop⟩ := PopCall.run_of_fits (R := R) (c := .listLPop key) (by omega)
      (Function.update m key.bytes (Double.bytesOfVector x :: m key.bytes))
    have hreply : p.node = .string (Double.bytesOfVector x) := by
      rw [hp, PopCall.words, PopCall.lists_pop .left _ _ rfl, Function.update_self]
      rfl
    have hvalue := PopCall.value_string (R := R) (.listLPop key) hreply
    simp only at hvalue
    have hpop' : (Conn.env lists).run (Method.code R (.listLPop key))
        { server := Function.update m key.bytes (Double.bytesOfVector x :: m key.bytes) } =
          (.ret (.str [.ofBuffer (Double.bytesOfVector x)]), w'.release p) := by
      rw [← run_thenFree_ret (Conn.env lists), ← hvalue]
      exact hpop
    rw [session_cons_ret hpush, hw, session_cons_ret hpop']
    simp only [Env.session, List.map_cons, List.map_nil, List.cons.injEq, Outcome.ret.injEq,
      SEXP.str.injEq, true_and, and_true]
    constructor
    · rintro ⟨s, hs, -⟩
      rw [← hs]
      exact s.nulFree
    · intro hnul
      exact ⟨.ofBuffer (Double.bytesOfVector x), cString_eq_self hnul, rfl⟩
  · refine iff_of_false ?_ fun h => hfits h.1
    rintro ⟨s, -, hsession⟩
    have hnot := run_not_fits lists [keyword "LPUSH", .str key,
      .bin (Double.bytesOfVector x)] (by simp) hfits (Reader.code R .ignore)
        ⟨{ server := m }, {}⟩
    rw [← listLPush_code] at hnot
    rw [Env.session, Env.run] at hsession
    rcases hnot with ⟨-, e, w, hrun, -⟩ | ⟨-, f, w, hrun⟩
    · rw [hrun] at hsession
      cases hsession
    · rw [hrun] at hsession
      cases hsession

/-- **Popping.**  Over any lists, a call keeps what it pops exactly when the client can read
it, and a pushed vector comes back whole exactly when it has no zero byte. -/
theorem keeps_iff_recovers :
    (∀ (c : PopCall) (m : Store Bytes Bytes), c.Keeps R m ↔ c.Recovers R m) ∧
    ∀ (key : CStr) (x : List Double) (m : Store Bytes Bytes), PushPops R key x m ↔
      (encodeCommand (pushWords key x)).length + 1 < 2 ^ 31 ∧
        (0 : UInt8) ∉ Double.bytesOfVector x :=
  ⟨PopCall.keeps_iff, pushPops_iff⟩

/-- `listLPop` returns the bytes of an element up to its first zero byte, and the rest is
lost. -/
theorem listLPop_zero_byte_lost :
    ¬ (PopCall.listLPop (.ofAscii "k")).Keeps Runtime.onlyNull fun _ => [[97, 0, 98]] := by
  intro h
  rcases h with ⟨v, w, hrun, hholds⟩ | ⟨e, w, hrun, -⟩
  · obtain ⟨s, -, hs⟩ := hholds [97, 0, 98] rfl
    exact s.nulFree (by rw [hs]; simp)
  · have hret : ((Conn.env lists).run (Method.code Runtime.onlyNull (.listLPop (.ofAscii "k")))
        { server := fun _ => [[97, 0, 98]] }).1 = .ret (.str [.ofAscii "a"]) := rfl
    have hraise := congrArg Prod.fst hrun
    rw [PopCall.method, hret] at hraise
    cases hraise

end RcppRedis
