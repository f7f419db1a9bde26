import RcppRedis.Hiredis.ReaderStream

/-!
# The grammar of items

Which bytes the reader takes as an item.  The grammar is wider than the protocol asks: the two
bytes after a bulk string may be any, as may the line of a null or a boolean.  It is strict
with numbers: a length has no leading zero and no sign but a minus.

* `IsItem` — the items.
* `scanItem_eq_token_iff` — they are what is scanned.
* `processItem_iff_isItem` — and what is processed.
-/

namespace Hiredis

open Bytes Pieces Preorder

variable {strtod : Bytes → Double × Bytes} {maxelements : ℤ}

/-! ## Lines -/

/-- A line: no line end stands in it. -/
def IsLine (line : Bytes) : Prop := ¬ crlf <:+: line

theorem splitLine_of_isLine {line : Bytes} (h : IsLine line) (rest : Bytes) :
    splitLine (line ++ crlf ++ rest) = some (line, rest) := by
  induction line with
  | nil => rfl
  | cons c line ih =>
      rw [IsLine, List.infix_cons_iff, not_or] at h
      have hrest := ih h.2
      cases line with
      | nil => rw [show [c] ++ crlf ++ rest = c :: 13 :: 10 :: rest from rfl, splitLine,
          if_neg (by rintro ⟨-, h⟩; exact absurd h (by decide))]; rfl
      | cons d line =>
          simp only [List.cons_append] at hrest ⊢
          rw [splitLine, if_neg (by rintro ⟨rfl, rfl⟩; exact h.1 ⟨line, rfl⟩), hrest,
            Option.map_some]

theorem isLine_of_splitLine {b line rest : Bytes} (h : splitLine b = some (line, rest)) :
    IsLine line := by
  induction b using splitLine.induct generalizing line with
  | case1 => cases h
  | case2 c => cases h
  | case3 c d b hcd =>
      rw [splitLine, if_pos hcd] at h
      cases h
      simp [IsLine, crlf]
  | case4 c d b hcd ih =>
      rw [splitLine, if_neg hcd, Option.map_eq_some_iff] at h
      obtain ⟨⟨line', rest'⟩, hsplit, heq⟩ := h
      obtain ⟨rfl, rfl⟩ := Prod.mk.inj heq
      rw [IsLine, List.infix_cons_iff, not_or]
      refine ⟨?_, ih hsplit⟩
      rintro ⟨t, ht⟩
      obtain ⟨rfl, rfl⟩ : 13 = c ∧ 10 :: t = line' := List.cons.inj ht
      have happ : d :: b = 10 :: (t ++ crlf ++ rest') := (splitLine_eq_some hsplit).1
      exact hcd ⟨rfl, (List.cons.inj happ).1⟩

theorem splitLine_eq_some_iff {b line rest : Bytes} :
    splitLine b = some (line, rest) ↔ b = line ++ crlf ++ rest ∧ IsLine line := by
  constructor
  · intro h
    exact ⟨(splitLine_eq_some h).1, isLine_of_splitLine h⟩
  · rintro ⟨rfl, h⟩
    exact splitLine_of_isLine h rest

/-! ## Items -/

/-- How many elements the head of an aggregate with the given number announces. -/
def AggregateType.children (type : AggregateType) (n : ℕ) :
    ℕ := if type = .map then n * 2 else n

theorem children_pos (type : AggregateType) {n : ℕ} (hn : 0 < n) : 0 < type.children n := by
  rw [AggregateType.children]
  split_ifs <;> omega

theorem children_eq_zero {type : AggregateType} {n : ℕ} : type.children n = 0 ↔ n = 0 := by
  rw [AggregateType.children]
  split_ifs <;> omega

/-- **The items**, and the nodes that they are. -/
inductive IsItem (strtod : Bytes → Double × Bytes) (maxelements : ℤ) :
    Bytes → ReplyNode → Prop where
  | line {byte : UInt8} {type : LineType} {line : Bytes} {t : Reply}
      (hbyte : itemType byte = some (.line type)) (hline : IsLine line)
      (ht : lineReply strtod type line = .ok t) :
      IsItem strtod maxelements (byte :: (line ++ crlf)) (.leaf t)
  | bulk {byte : UInt8} {type : BulkType} {str ending : Bytes}
      (hbyte : itemType byte = some (.bulk type)) (hlen : str.length < 2 ^ 63)
      (hverb : type = .verb → 4 ≤ str.length ∧ str[3]? = some 58)
      (hending : ending.length = 2) :
      IsItem strtod maxelements (byte :: (decimal str.length ++ crlf ++ (str ++ ending)))
        (.leaf (bulkReply type str))
  | aggregate {byte : UInt8} {type : AggregateType} {n : ℕ}
      (hbyte : itemType byte = some (.aggregate type)) (hn : 0 < n)
      (hmax : 0 < maxelements → n ≤ maxelements) (hsize : 8 * type.children n < 2 ^ 64) :
      IsItem strtod maxelements (byte :: (decimal n ++ crlf))
        (.parent type (type.children n - 1))
  | empty {byte : UInt8} {type : AggregateType}
      (hbyte : itemType byte = some (.aggregate type)) :
      IsItem strtod maxelements (byte :: (ascii "0" ++ crlf)) (.leaf (.aggregate type []))
  | nil {byte : UInt8} {type : ItemType} (hbyte : itemType byte = some type)
      (htype : ∀ t, type ≠ .line t) : IsItem strtod maxelements (byte :: (ascii "-1" ++ crlf))
      (.leaf .nil)

theorem scanItem_cons {byte : UInt8} {type : ItemType} (h : itemType byte = some type)
    (b : Bytes) :
    scanItem strtod maxelements (byte :: b) = scanTyped strtod maxelements type b := by
  rw [scanItem, Scanner.after, Scanner.uncons]
  simp only [h]

theorem splitLine_decimal (n : ℕ) (rest : Bytes) :
    splitLine (decimal n ++ crlf ++ rest) = some (decimal n, rest) :=
  splitLine_append (notMem_decimal (by decide) n) rest

theorem decimalInt_natCast (n : ℕ) : decimalInt n = decimal n := by
  rw [decimalInt, if_neg (by omega), Int.natAbs_natCast]

/-- How many elements an aggregate has, as the reader computes it. -/
theorem cast_children (type : AggregateType) (n : ℕ) :
    (if type = .map then (n : ℤ) * 2 else n) = (type.children n : ℕ) := by
  rw [AggregateType.children]
  split_ifs <;> simp

theorem IsItem.scan {w : Bytes} {x : ReplyNode} (h : IsItem strtod maxelements w x) :
    scanItem strtod maxelements w = .token x [] := by
  cases h with
  | @line byte type line t hbyte hline ht =>
      have hsplit := splitLine_of_isLine hline []
      rw [List.append_nil] at hsplit
      rw [scanItem_cons hbyte, scanTyped, Scanner.after_of_split hsplit, ht]
      rfl
  | @bulk byte type str ending hbyte hlen hverb hending =>
      have hbad : ¬ (type = .verb ∧
          ((str.length : ℤ) < 4 ∨ (str ++ ending)[3]? ≠ some 58)) := by
        rintro ⟨htype, hshort | hcolon⟩
        · have hle := (hverb htype).1
          omega
        · obtain ⟨hle, hget⟩ := hverb htype
          rw [List.getElem?_append_left (by omega)] at hcolon
          exact hcolon hget
      rw [scanItem_cons hbyte, scanTyped, Scanner.after_of_split (splitLine_decimal _ _),
        scanBulk, string2ll_decimal hlen]
      simp only
      rw [if_neg (by omega), if_neg (by omega), Scanner.block, Int.toNat_natCast,
        if_pos (by rw [List.length_append, hending]),
          List.take_of_length_le (by simp [hending]),
        List.drop_of_length_le (by simp [hending]), bulkNode, if_neg hbad, Int.toNat_natCast,
        List.take_left]
  | @aggregate byte type n hbyte hn hmax hsize =>
      have hlt : 0 < type.children n ∧ n < 2 ^ 63 := by
        rw [AggregateType.children] at hsize ⊢
        split_ifs at hsize ⊢ <;> omega
      have hsplit := splitLine_decimal n []
      rw [List.append_nil] at hsplit
      rw [scanItem_cons hbyte, scanTyped, Scanner.after_of_split hsplit, Scanner.block,
        if_pos (Nat.zero_le _), aggregateNode, string2ll_decimal hlt.2]
      simp only [cast_children]
      rw [if_neg (by omega), if_neg (by omega), if_neg (by omega), if_pos (by omega),
        Int.toNat_natCast]
      rfl
  | @empty byte type hbyte =>
      have hsplit : splitLine (ascii "0" ++ crlf) = some (ascii "0", []) := by decide
      have hchildren : (if type = .map then (0 : ℤ) * 2 else 0) = 0 := by split_ifs <;> rfl
      rw [scanItem_cons hbyte, scanTyped, Scanner.after_of_split hsplit, Scanner.block,
        if_pos (Nat.zero_le _), aggregateNode, show string2ll (ascii "0") = some 0 by decide]
      simp only [hchildren]
      rw [if_neg (by omega), if_neg (by decide), if_neg (by decide), if_neg (by decide)]
      rfl
  | @nil byte type hbyte htype =>
      have hsplit : splitLine (ascii "-1" ++ crlf) = some (ascii "-1", []) := by decide
      have hnumber : string2ll (ascii "-1") = some (-1) := by decide
      rw [scanItem_cons hbyte]
      cases type with
      | line t => exact absurd rfl (htype t)
      | bulk type =>
          rw [scanTyped, Scanner.after_of_split hsplit, scanBulk, hnumber]
          rfl
      | aggregate type =>
          rw [scanTyped, Scanner.after_of_split hsplit, Scanner.block, if_pos (Nat.zero_le _),
            aggregateNode, hnumber]
          simp only
          rw [if_neg (by omega), if_pos trivial]
          rfl

theorem isItem_of_scanTyped {byte : UInt8} {type : ItemType} {b : Bytes} {x : ReplyNode}
    (hbyte : itemType byte = some type)
    (h : scanTyped strtod maxelements type b = .token x []) :
    IsItem strtod maxelements (byte :: b) x := by
  cases type with
  | line type =>
      obtain ⟨line, rest, hsplit, hblock⟩ := Scanner.of_after_eq h
      obtain ⟨rfl, hline⟩ := splitLine_eq_some_iff.mp hsplit
      obtain ⟨hrest, hx⟩ := Scanner.of_block_eq hblock
      obtain rfl := List.length_eq_zero_iff.mp hrest
      cases ht : lineReply strtod type line with
      | error e =>
          rw [ht] at hx
          cases hx
      | ok t =>
          rw [ht] at hx
          cases hx
          rw [List.append_nil]
          exact .line hbyte hline ht
  | bulk type =>
      obtain ⟨line, rest, hsplit, hbulk⟩ := Scanner.of_after_eq h
      obtain ⟨rfl, -⟩ := splitLine_eq_some_iff.mp hsplit
      rw [scanBulk] at hbulk
      cases hlen : string2ll line with
      | none =>
          rw [hlen] at hbulk
          cases hbulk
      | some len =>
          rw [hlen] at hbulk
          obtain ⟨rfl, -, hlt⟩ := string2ll_eq_some_iff.mp hlen
          simp only at hbulk
          split_ifs at hbulk with hrange hnil
          · cases hbulk
          · obtain ⟨hrest, hx⟩ := Scanner.of_block_eq hbulk
            obtain rfl := List.length_eq_zero_iff.mp hrest
            cases hx
            rw [List.append_nil, hnil]
            exact .nil hbyte fun t ht => ItemType.noConfusion ht
          · obtain ⟨n, rfl⟩ := Int.eq_ofNat_of_zero_le (show 0 ≤ len by omega)
            obtain ⟨hrest, hx⟩ := Scanner.of_block_eq hbulk
            rw [Int.toNat_natCast] at hrest
            rw [bulkNode] at hx
            split_ifs at hx with hbad
            cases hx
            have hstr : (rest.take n).length = n := List.length_take_of_le (by omega)
            have hending : (rest.drop n).length = 2 := by
              rw [List.length_drop]
              omega
            have hitem : IsItem strtod maxelements
                (byte :: (decimal (rest.take n).length ++ crlf ++
                (rest.take n ++ rest.drop n))) (.leaf (bulkReply type (rest.take n))) := by
              refine .bulk hbyte (by rw [hstr]; omega) ?_ hending
              rintro rfl
              rw [hstr]
              obtain ⟨hn, hcolon⟩ := not_or.mp fun h => hbad ⟨rfl, h⟩
              rw [List.getElem?_take_of_lt (by omega)]
              exact ⟨by omega, not_not.mp hcolon⟩
            rwa [hstr, List.take_append_drop, ← decimalInt_natCast] at hitem
  | aggregate type =>
      obtain ⟨line, rest, hsplit, hblock⟩ := Scanner.of_after_eq h
      obtain ⟨rfl, -⟩ := splitLine_eq_some_iff.mp hsplit
      obtain ⟨hrest, hx⟩ := Scanner.of_block_eq hblock
      obtain rfl := List.length_eq_zero_iff.mp hrest
      rw [aggregateNode] at hx
      cases hlen : string2ll line with
      | none =>
          rw [hlen] at hx
          cases hx
      | some elements =>
          rw [hlen] at hx
          obtain ⟨rfl, -, hlt⟩ := string2ll_eq_some_iff.mp hlen
          rw [List.append_nil]
          simp only at hx
          by_cases hrange : elements < -1 ∨ 0 < maxelements ∧ maxelements < elements
          · rw [if_pos hrange] at hx
            cases hx
          rw [if_neg hrange] at hx
          by_cases hnil : elements = -1
          · rw [if_pos hnil] at hx
            cases hx
            rw [hnil]
            exact .nil hbyte fun t ht => ItemType.noConfusion ht
          rw [if_neg hnil] at hx
          obtain ⟨n, rfl⟩ := Int.eq_ofNat_of_zero_le (show 0 ≤ elements by omega)
          rw [decimalInt_natCast]
          simp only [cast_children] at hx
          split_ifs at hx with hlarge hpos
          · cases hx
            have hn : 0 < n := Nat.pos_of_ne_zero fun hn => by
              rw [children_eq_zero.mpr hn] at hpos
              exact hpos.false
            rw [Int.toNat_natCast]
            exact .aggregate hbyte hn (by omega) (by omega)
          · cases hx
            have hzero : type.children n = 0 := by omega
            obtain rfl := children_eq_zero.mp hzero
            exact .empty hbyte

theorem isItem_of_scan {w : Bytes} {x : ReplyNode}
    (h : scanItem strtod maxelements w = .token x []) : IsItem strtod maxelements w x := by
  obtain ⟨byte, b, hsplit, hx⟩ := Scanner.of_after_eq h
  obtain rfl : w = byte :: b := by
    cases w with
    | nil => cases hsplit
    | cons _ _ => cases hsplit; rfl
  cases hbyte : itemType byte with
  | none =>
      rw [hbyte] at hx
      cases hx
  | some type =>
      rw [hbyte] at hx
      exact isItem_of_scanTyped hbyte hx

/-- **What the reader takes as an item.** -/
theorem scanItem_eq_token_iff {b rest : Bytes} {x : ReplyNode} :
    scanItem strtod maxelements b = .token x rest ↔
      ∃ w, b = w ++ rest ∧ IsItem strtod maxelements w x := by
  have hstable := stable_scanItem strtod maxelements
  constructor
  · intro h
    obtain ⟨w, -, rfl, hw⟩ := hstable.exists_token h
    exact ⟨w, rfl, isItem_of_scan hw⟩
  · rintro ⟨w, rfl, hw⟩
    exact hstable.token hw.scan rest

/-- **Which items are processed**: in the middle of a reply, those that the bytes in the buffer
start with, and then the reader goes on after the item. -/
theorem processItem_iff_isItem {r : RedisReader} {fs : List ReplyFrame} {b : Bytes}
    (hr : InReply maxelements r fs b) (hroom : Room fs b.length) :
    (processItem strtod r).1 = true ↔
      ∃ w rest x, b = w ++ rest ∧ IsItem strtod maxelements w x ∧
        Steps maxelements (processItem strtod r).2 rest (step Reply.aggregate x fs) := by
  have hfollows := processItem_follows strtod hr hroom
  constructor
  · intro htrue
    cases hscan : scanItem strtod maxelements b with
    | token x rest =>
        rw [hscan] at hfollows
        obtain ⟨w, rfl, hw⟩ := scanItem_eq_token_iff.mp hscan
        exact ⟨w, rest, x, rfl, hw, hfollows.2⟩
    | more | fail e =>
        rw [hscan] at hfollows
        rw [hfollows.1] at htrue
        cases htrue
  · rintro ⟨w, rest, x, hb, hw, -⟩
    rw [scanItem_eq_token_iff.mpr ⟨w, hb, hw⟩] at hfollows
    exact hfollows.1

/-- A status is processed. -/
theorem status_processed :
    ∃ w rest x, ascii "+OK\r\n" = w ++ rest ∧ IsItem noNumber (2 ^ 32 - 1) w x ∧
      Steps (2 ^ 32 - 1)
        (processItem noNumber { buf := ascii "+OK\r\n", stack := [{ idx := -1 }] }).2 rest
        (step Reply.aggregate x []) := by
  have hreading : InReply (2 ^ 32 - 1)
      { buf := ascii "+OK\r\n", stack := [{ idx := -1 }] } [] (ascii "+OK\r\n") :=
    ⟨⟨rfl, Nat.zero_le _, by decide, rfl⟩, rfl, ⟨_, rfl, rfl, rfl⟩, by decide⟩
  exact (processItem_iff_isItem hreading ⟨by decide, by simp⟩).mp rfl

end Hiredis
