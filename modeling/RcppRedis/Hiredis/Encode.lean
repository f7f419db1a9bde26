import RcppRedis.Hiredis.Grammar
import RcppRedis.Lib.Resp

/-!
# Replies on the wire

Every reply that can be read has a spelling, `encode`, as a server writes it.  A stream of
these is read in any pieces, and a reader that was fed a part of it knows how far it is.

* `exists_spells_iff` — the replies that can be read are the ones that can be written.
* `feedPieces_encode` — the round trip, in any pieces.
* `Holds` — what a reader has been fed since its last reply.
-/

namespace Hiredis

open Bytes Pieces Preorder Resp

variable {strtod : Bytes → Double × Bytes} {maxelements : ℤ}

/-! ## How a server writes a reply -/

/-- The type byte of an aggregate. -/
def AggregateType.byte : AggregateType → UInt8
  | .array => 42
  | .map => 37
  | .set => 126
  | .push => 62

theorem itemType_byte (type : AggregateType) :
    itemType type.byte = some (.aggregate type) := by
  cases type <;> rfl

/-- The number that the head of an aggregate with so many elements has. -/
def AggregateType.announced (type : AggregateType) (elements : ℕ) : ℕ :=
  if type = .map then elements / 2 else elements

/-- The spelling of a reply without elements. -/
def encodeText : TextType → Bytes → Bytes
  | .status, str => 43 :: (str ++ crlf)
  | .error, str => 45 :: (str ++ crlf)
  | .double, str => 44 :: (str ++ crlf)
  | .string, str => bulk str
  | .verb, str => header 61 (str.length + 4) ++ (ascii "txt:" ++ str ++ crlf)

/-- The spelling of a number. -/
def encodeNumber : NumberType → ℤ → Bytes
  | .integer, n => 58 :: (decimalInt n ++ crlf)
  | .bool, n => 35 :: ((if n = 0 then ascii "f" else ascii "t") ++ crlf)

mutual

/-- **How a server writes a reply.** -/
def encode : Reply → Bytes
  | .text type str => encodeText type str
  | .number type n => encodeNumber type n
  | .nil => ascii "$-1" ++ crlf
  | .aggregate type element =>
      header type.byte (type.announced element.length) ++ encodeAll element

/-- Replies one after the other. -/
def encodeAll : List Reply → Bytes
  | [] => []
  | r :: rs => encode r ++ encodeAll rs

end

theorem encodeAll_eq (rs : List Reply) : encodeAll rs = (rs.map encode).flatten := by
  induction rs with
  | nil => rfl
  | cons r rs ih => rw [encodeAll, ih, List.map_cons, List.flatten_cons]

/-- What a text must be to be written. -/
def TextWritable (strtod : Bytes → Double × Bytes) : TextType → Bytes → Prop
  | .status, str => IsLine str
  | .error, str => IsLine str
  | .double, str => IsLine str ∧ lineReply strtod .double str = .ok (.text .double str)
  | .string, str => str.length < 2 ^ 63
  | .verb, str => str.length + 4 < 2 ^ 63

/-- What a number must be to be written. -/
def NumberWritable : NumberType → ℤ → Prop
  | .integer, n => -(2 ^ 63) ≤ n ∧ n < 2 ^ 63
  | .bool, n => n = 0 ∨ n = 1

/-- An aggregate that the reader takes: the elements of a map come in pairs. -/
def AggregateWritable (maxelements : ℤ) (type : AggregateType) (elements : ℕ) : Prop :=
  ∃ n, elements = type.children n ∧ (0 < maxelements → n ≤ maxelements) ∧ 8 * elements < 2 ^ 64

mutual

/-- A reply that can be written for the reader. -/
def Writable (strtod : Bytes → Double × Bytes) (maxelements : ℤ) : Reply → Prop
  | .text type str => TextWritable strtod type str
  | .number type n => NumberWritable type n
  | .nil => True
  | .aggregate type element =>
      AggregateWritable maxelements type element.length ∧
      AllWritable strtod maxelements element

/-- Replies that can. -/
def AllWritable (strtod : Bytes → Double × Bytes) (maxelements : ℤ) : List Reply → Prop
  | [] => True
  | r :: rs => Writable strtod maxelements r ∧ AllWritable strtod maxelements rs

end

theorem allWritable_iff {rs : List Reply} :
    AllWritable strtod maxelements rs ↔ ∀ r ∈ rs, Writable strtod maxelements r := by
  induction rs with
  | nil => simp [AllWritable]
  | cons r rs ih => rw [AllWritable, ih, List.forall_mem_cons]

/-! ## The replies that can be read -/

theorem spells_line {byte : UInt8} {type : LineType} {line : Bytes} {t : Reply}
    (hbyte : itemType byte = some (.line type)) (hline : IsLine line)
    (ht : lineReply strtod type line = .ok t) :
    Spells Reply.aggregate (scanItem strtod maxelements) (byte :: (line ++ crlf)) t :=
  .leaf (IsItem.line hbyte hline ht).scan

theorem isLine_of_notMem {line : Bytes} (h : (13 : UInt8) ∉ line) : IsLine line := by
  rintro ⟨s, t, rfl⟩
  exact h (by simp [crlf])

theorem scanItem_bulk {str : Bytes} (h : str.length < 2 ^ 63) :
    scanItem strtod maxelements (bulk str) = .token (.leaf (.text .string str)) [] := by
  have hitem : IsItem strtod maxelements (36 :: (decimal str.length ++ crlf ++ (str ++ crlf)))
      (.leaf (bulkReply .string str)) := .bulk rfl h (fun hverb => nomatch hverb) length_crlf
  rw [bulk, header, List.append_assoc]
  exact hitem.scan

theorem spells_encodeText {type : TextType} {str : Bytes} (h : TextWritable strtod type str) :
    Spells Reply.aggregate (scanItem strtod maxelements) (encodeText type str)
      (.text type str) := by
  cases type with
  | status => exact spells_line rfl h rfl
  | error => exact spells_line rfl h rfl
  | double => exact spells_line rfl h.1 h.2
  | string => exact .leaf (scanItem_bulk h)
  | verb =>
      have hlen : (ascii "txt:" ++ str).length = str.length + 4 := by
        rw [List.length_append, Nat.add_comm]
        rfl
      have hitem : IsItem strtod maxelements
          (61 :: (decimal (ascii "txt:" ++ str).length ++ crlf ++
          (ascii "txt:" ++ str ++ crlf))) (.leaf (bulkReply .verb (ascii "txt:" ++ str))) :=
        .bulk rfl (hlen ▸ h) (fun _ => ⟨by omega, rfl⟩) length_crlf
      rw [hlen] at hitem
      rw [encodeText, header]
      exact .leaf hitem.scan

theorem notMem_decimalInt (n : ℤ) : (13 : UInt8) ∉ decimalInt n := by
  rw [decimalInt]
  split_ifs
  · exact List.not_mem_cons_of_ne_of_not_mem (by decide) (notMem_decimal (by decide) _)
  · exact notMem_decimal (by decide) _

theorem spells_encodeNumber {type : NumberType} {n : ℤ} (h : NumberWritable type n) :
    Spells Reply.aggregate (scanItem strtod maxelements) (encodeNumber type n)
      (.number type n) := by
  cases type with
  | integer =>
      refine spells_line rfl (isLine_of_notMem (notMem_decimalInt n)) ?_
      rw [lineReply, string2ll_eq_some_iff.mpr ⟨rfl, h.1, h.2⟩]
  | bool =>
      obtain rfl | rfl := h
      · exact spells_line rfl (isLine_of_notMem (by decide)) rfl
      · exact spells_line rfl (isLine_of_notMem (by decide)) rfl

theorem announced_children (type : AggregateType) (n : ℕ) :
    type.announced (type.children n) = n := by
  rw [AggregateType.announced, AggregateType.children]
  split_ifs
  · omega
  · rfl

/-- **What can be written is read as what it is.** -/
theorem spells_encode {t : Reply} (h : Writable strtod maxelements t) :
    Spells Reply.aggregate (scanItem strtod maxelements) (encode t) t := by
  induction t with
  | text type str => exact spells_encodeText h
  | number type n => exact spells_encodeNumber h
  | nil =>
      have hitem : IsItem strtod maxelements (36 :: (ascii "-1" ++ crlf)) (.leaf .nil) :=
        .nil rfl fun t => nofun
      exact .leaf hitem.scan
  | aggregate type element ih =>
      obtain ⟨⟨n, hn, hmax, hsize⟩, hall⟩ := h
      have hspells : SpellsAll Reply.aggregate (scanItem strtod maxelements)
          (encodeAll element)
          element := by
        rw [allWritable_iff] at hall
        clear hn hsize
        induction element with
        | nil => exact .nil
        | cons r rs ihrs =>
            exact .cons (ih r List.mem_cons_self (hall r List.mem_cons_self))
              (ihrs (fun r hr => ih r (List.mem_cons_of_mem _ hr))
                fun r hr => hall r (List.mem_cons_of_mem _ hr))
      have hbyte := itemType_byte type
      rw [encode, hn, announced_children, header]
      obtain rfl | hpos := n.eq_zero_or_pos
      · have hnone : element = [] := by
          rw [AggregateType.children] at hn
          exact List.length_eq_zero_iff.mp (by split_ifs at hn <;> omega)
        have hitem : IsItem strtod maxelements _ _ := .empty hbyte
        rw [hnone, encodeAll, List.append_nil]
        exact .leaf hitem.scan
      · have hchildren : 0 < type.children n := by
          rw [AggregateType.children]
          split_ifs <;> omega
        have hitem : IsItem strtod maxelements _ _ := .aggregate hbyte hpos hmax (hn ▸ hsize)
        exact .parent hitem.scan hspells (by omega)

theorem textWritable_of_lineReply {type : LineType} {line : Bytes} {t : Reply}
    (hline : IsLine line) (h : lineReply strtod type line = .ok t) :
    Writable strtod maxelements t := by
  cases type with
  | error =>
      cases h
      exact hline
  | status =>
      cases h
      exact hline
  | integer =>
      rw [lineReply] at h
      cases hn : string2ll line with
      | none =>
          rw [hn] at h
          cases h
      | some n =>
          rw [hn] at h
          cases h
          exact (string2ll_eq_some_iff.mp hn).2
  | double =>
      have ht : t = .text .double line := by
        rw [lineReply] at h
        split_ifs at h
        · cases h
          rfl
        · cases h
          rfl
      subst ht
      exact ⟨hline, h⟩
  | nil =>
      cases h
      trivial
  | bool =>
      rw [lineReply] at h
      cases h
      show _ ∨ _
      split_ifs
      · exact .inr rfl
      · exact .inl rfl

theorem writable_of_isItem {w : Bytes} {t : Reply}
    (h : IsItem strtod maxelements w (.leaf t)) : Writable strtod maxelements t := by
  generalize hx : Node.leaf t = x at h
  cases h with
  | line hbyte hline ht =>
      cases hx
      exact textWritable_of_lineReply hline ht
  | @bulk byte type str ending hbyte hlen hverb hending =>
      cases hx
      cases type with
      | string => exact hlen
      | verb =>
          have hle := (hverb rfl).1
          show (str.drop 4).length + 4 < 2 ^ 63
          rw [List.length_drop]
          omega
  | aggregate => cases hx
  | @empty byte type hbyte =>
      cases hx
      exact ⟨⟨0, (children_eq_zero.mpr rfl).symm, fun h => h.le, by decide⟩, trivial⟩
  | nil =>
      cases hx
      trivial

/-- **The replies that can be read** are the ones that can be written. -/
theorem exists_spells_iff {t : Reply} :
    (∃ w, Spells Reply.aggregate (scanItem strtod maxelements) w t) ↔
      Writable strtod maxelements t := by
  refine ⟨?_, fun h => ⟨encode t, spells_encode h⟩⟩
  rintro ⟨w, hw⟩
  refine (spells_induction (P := fun _ t => Writable strtod maxelements t)
    (Q := fun _ ts => AllWritable strtod maxelements ts) ?leaf ?parent ?nil ?cons).1 w t hw
  case leaf =>
    intro w t h
    exact writable_of_isItem (isItem_of_scan h)
  case parent =>
    intro w ws type others ts h hlen hts
    generalize hx : Node.parent type others = x at h
    cases isItem_of_scan h with
    | @aggregate byte type n hbyte hn hmax hsize =>
        cases hx
        have hchildren := children_pos type hn
        exact ⟨⟨n, by omega, hmax, by omega⟩, hts⟩
    | line | bulk | empty | nil => cases hx
  case nil => trivial
  case cons =>
    intro w ws t ts _ ht hts
    exact ⟨ht, hts⟩

/-! ## The round trip -/

theorem spellsAll_encode {ts : List Reply} (h : ∀ t ∈ ts, Writable strtod maxelements t) :
    SpellsAll Reply.aggregate (scanItem strtod maxelements) (ts.map encode).flatten ts := by
  induction ts with
  | nil => exact .nil
  | cons t ts ih =>
      obtain ⟨ht, hts⟩ := List.forall_mem_cons.mp h
      exact .cons (spells_encode ht) (ih hts)

/-- **What a server writes is read**, in whatever pieces it comes: the same replies, and the
reader is between two replies. -/
theorem feedPieces_encode {k m : ℕ} {ts : List Reply} {pieces : List Bytes}
    (hts : ∀ t ∈ ts, Writable strtod (2 ^ 32 - 1) t ∧ (encode t).length ≤ k)
    (hflat : pieces.flatten = (ts.map encode).flatten) (hm : ∀ c ∈ pieces, c.length ≤ m)
    (hkm : k + m ≤ 2 ^ 31 + 1) :
    (feedPieces strtod pieces {}).1 = ts.map Reply.object ∧
      AtRest (2 ^ 32 - 1) (feedPieces strtod pieces {}).2 [] [] := by
  have hstable := stable_scanItem strtod (2 ^ 32 - 1)
  have hshort : ShortReplies strtod (2 ^ 32 - 1) k pieces.flatten := by
    rw [hflat]
    refine short_of_spells hstable fun w hw => ?_
    obtain ⟨t, ht, rfl⟩ := List.mem_map.mp hw
    exact ⟨(hts t ht).2, t, spells_encode (hts t ht).1⟩
  have hreads : (replyMachine strtod (2 ^ 32 - 1)).Reads [] pieces.flatten ts
      (.waits [] []) := by
    have hspells := spellsAll_encode fun t ht => (hts t ht).1
    have hread := hspells.reads hstable reads_nil
    rwa [List.append_nil, List.append_nil, ← hflat] at hread
  exact feedPieces_fresh hshort hm hkm hreads

example : (feedPieces noNumber [ascii "+OK\r", ascii "\n$-1\r\n"] {}).1 =
    [.text .status (ascii "OK"), .nil].map Reply.object := rfl

theorem object_injective : Function.Injective Reply.object := fun t t' h => by
  have hreply := congrArg Object.reply h
  rw [reply_object, reply_object] at hreply
  exact Option.some.inj hreply

/-- **The replies that are handed out**, of streams that `int` can count, are the ones that can
be written: no element is missing, a map has pairs, a number fits in 64 bits. -/
theorem exists_feedPieces_iff {t : Reply} (ht : (encode t).length ≤ 2 ^ 30) :
    (∃ pieces, pieces.flatten.length ≤ 2 ^ 30 ∧ t.object ∈ (feedPieces strtod pieces {}).1) ↔
      Writable strtod (2 ^ 32 - 1) t := by
  constructor
  · rintro ⟨pieces, hlen, hmem⟩
    have hpieces : ∀ c ∈ pieces, c.length ≤ pieces.flatten.length :=
      fun c hc => (List.sublist_flatten_of_mem hc).length_le
    obtain ⟨w, u, ts, -, hos, hspells, -⟩ :=
      (feedPieces_eq_iff (short_length _) hpieces (by omega) _ _).mp ⟨rfl, rfl⟩
    rw [hos] at hmem
    obtain ⟨t', ht', hobject⟩ := List.mem_map.mp hmem
    obtain rfl := object_injective hobject
    exact exists_spells_iff.mp (hspells.exists_spells ht')
  · intro hwritable
    refine ⟨[encode t], by rwa [List.flatten_singleton], ?_⟩
    have hall : ∀ t' ∈ [t], Writable strtod (2 ^ 32 - 1) t' ∧ (encode t').length ≤ 2 ^ 30 := by
      simpa using ⟨hwritable, ht⟩
    have hpieces : ∀ c ∈ [encode t], c.length ≤ 2 ^ 30 := by simpa using ht
    rw [(feedPieces_encode hall (by simp) hpieces (by omega)).1]
    exact List.mem_singleton.mpr rfl

/-- A status may be handed out. -/
theorem status_handed_out :
    ∃ pieces, pieces.flatten.length ≤ 2 ^ 30 ∧
      (Reply.text .status (ascii "OK")).object ∈ (feedPieces noNumber pieces {}).1 :=
  (exists_feedPieces_iff
    (show (encode (.text .status (ascii "OK"))).length ≤ 2 ^ 30 by decide)).mpr
    (isLine_of_notMem (by decide))

/-! ## A reader and the bytes that it holds -/

/-- A reader that was fed the given bytes since its last reply. -/
def Holds (strtod : Bytes → Double × Bytes) (maxelements : ℤ) (r : RedisReader)
    (x : Bytes) : Prop :=
  ∃ fs v b, x = v ++ b ∧ AtRest maxelements r fs b ∧
    Opens Reply.aggregate (scanItem strtod maxelements) v fs ∧ x.length ≤ 2 ^ 31 + 1

/-- The bytes are the beginning of a reply, and not all of it. -/
def Begins (strtod : Bytes → Double × Bytes) (maxelements : ℤ) (u : Bytes) : Prop :=
  ∃ more t, more ≠ [] ∧ Spells Reply.aggregate (scanItem strtod maxelements) (u ++ more) t

theorem encode_ne_nil {t : Reply} (h : Writable strtod maxelements t) : encode t ≠ [] := by
  have hpos := (length_of_spells (stable_scanItem strtod maxelements)).1 _ t (spells_encode h)
  exact List.ne_nil_of_length_pos hpos

namespace Holds

variable {r : RedisReader} {x : Bytes}

theorem err (h : Holds strtod maxelements r x) : r.err = none := by
  obtain ⟨fs, v, b, -, hr, -⟩ := h
  exact hr.works.err

/-- Without a task, a reader that has read all of its bytes holds none. -/
theorem eq_nil (h : Holds strtod maxelements r x) (hstack : r.stack = [])
    (hrest : r.rest = []) : x = [] := by
  obtain ⟨fs, v, b, rfl, hr, hv, -⟩ := h
  cases hr with
  | idle h =>
      cases hv
      rw [List.nil_append, ← h.rest, hrest]
  | inReply h =>
      obtain ⟨cur, hcur, -⟩ := h.stack
      rw [hstack] at hcur
      cases hcur

/-- The reader is fed. -/
theorem feed (h : Holds strtod maxelements r x) {c : Bytes}
    (hc : (x ++ c).length ≤ 2 ^ 31 + 1) :
    Holds strtod maxelements (redisReaderFeed r c).2 (x ++ c) := by
  obtain ⟨fs, v, b, rfl, hr, hv, -⟩ := h
  exact ⟨fs, v, b ++ c, List.append_assoc .., hr.feed c, hv, hc⟩

/-- What comes next, from where the reader is. -/
theorem hands (h : Holds strtod maxelements r x)
    {o : Event UInt8 Failure (List ReplyFrame) Reply}
    (ho : (replyMachine strtod maxelements).Next [] x o) :
    Hands maxelements (redisReaderGetReply strtod r) o ∧
      ∀ fs b, o = .stop (.waits fs b) →
        ∃ v, x = v ++ b ∧ Opens Reply.aggregate (scanItem strtod maxelements) v fs := by
  obtain ⟨fs, v, b, rfl, hr, hv, hlen⟩ := h
  have hstable := stable_scanItem strtod maxelements
  obtain ⟨o', ho'⟩ := Machine.exists_next (stable_replyMachine strtod maxelements) fs b
  obtain rfl := (hv.next hstable ho').unique ho
  rw [List.length_append] at hlen
  have hroom : Room fs b.length :=
    ⟨by omega, fun f hf => by have hdone := hv.length_done_lt hstable f hf; omega⟩
  refine ⟨redisReaderGetReply_next ho' hr hroom, ?_⟩
  rintro fs' b' rfl
  obtain ⟨w, rfl, hw, -⟩ := hv.shows hstable ho'
  exact ⟨v ++ w, (List.append_assoc ..).symm, hw⟩

/-- **A whole reply** is handed out. -/
theorem getReply {w y : Bytes} {t : Reply} (h : Holds strtod maxelements r (w ++ y))
    (hw : Spells Reply.aggregate (scanItem strtod maxelements) w t) :
    ∃ r', redisReaderGetReply strtod r = (some (some t.object), r') ∧
      Holds strtod maxelements r' y := by
  have hnext : (replyMachine strtod maxelements).Next [] (w ++ y) (.result t y) :=
    hw.next (stable_scanItem strtod maxelements) rfl
  obtain ⟨⟨hreply, hrest⟩, -⟩ := h.hands hnext
  obtain ⟨fs, v, b, hx, -, -, hlen⟩ := h
  refine ⟨_, Prod.ext hreply rfl, [], [], y, rfl, hrest, .nil, ?_⟩
  rw [List.length_append] at hlen
  omega

/-- **The beginning of a reply** is kept. -/
theorem getReply_none (h : Holds strtod maxelements r x)
    (hx : x = [] ∨ Begins strtod maxelements x) :
    ∃ r', redisReaderGetReply strtod r = (some none, r') ∧ Holds strtod maxelements r' x := by
  have hstable := stable_replyMachine strtod maxelements
  obtain ⟨o, ho⟩ := Machine.exists_next hstable [] x
  obtain ⟨fs, b, rfl⟩ : ∃ fs b, o = .stop (.waits fs b) := by
    rcases hx with rfl | ⟨more, t, hmore, hspells⟩
    · exact ⟨[], [], ho.unique (.waits rfl)⟩
    · have hall : (replyMachine strtod maxelements).Next [] (x ++ more ++ []) (.result t []) :=
        hspells.next (stable_scanItem strtod maxelements) rfl
      rw [List.append_nil] at hall
      rcases o with ⟨t', rest⟩ | ⟨⟨fs, b⟩ | e⟩
      · -- a reply would leave the rest unread
        obtain ⟨-, hnil⟩ := Event.result.inj ((ho.result_append hstable more).unique hall)
        exact absurd (List.append_eq_nil_iff.mp hnil).2 hmore
      · exact ⟨fs, b, rfl⟩
      · cases (ho.fails_append hstable more).unique hall
  obtain ⟨⟨hreply, hrest⟩, hopens⟩ := h.hands ho
  obtain ⟨v, hv, hopen⟩ := hopens fs b rfl
  obtain ⟨-, -, -, -, -, -, hlen⟩ := h
  exact ⟨_, Prod.ext hreply rfl, fs, v, b, hv, hrest, hopen, hlen⟩

end Holds

end Hiredis
