import RcppRedis.Hiredis.Encode

/-!
# The longest bulk string

A bulk string stays in the buffer until all of it is there, and every time that more has come
its length is read again.  `seekNewline` counts the bytes in the buffer with an `int`, so with
more than `2 ^ 31` of them it finds no line, and the reader waits for more.

* `redisReaderGetReply_long` — a reader that waits.
* `feedPieces_bulk` — which bulk strings are handed out.
-/

namespace Hiredis

open Bytes Pieces Preorder Resp

variable {strtod : Bytes → Double × Bytes} {maxelements : ℤ}

/-! ## A reader that waits -/

section Long

variable {r : RedisReader} {fs : List ReplyFrame} {b : Bytes}

variable (strtod) in
/-- No line is found. -/
theorem processTypedItem_long {cur : ReadTask} (hr : InReply maxelements r fs b)
    (hstack : r.stack = cur :: frameTasks fs) (hlo : 2 ^ 31 < r.rest.length)
    (hhi : r.rest.length ≤ 2 ^ 32) (type : ItemType) :
    ∃ r', processTypedItem strtod type cur (frameTasks fs) r = (false, r') ∧
      InReply maxelements r' fs b := by
  have hline : seekNewline r.rest = none := seekNewline_eq_none hlo hhi
  cases type with
  | line type => exact ⟨r, by rw [processTypedItem, processLineItem, readLine, hline], hr⟩
  | bulk type => exact ⟨r, by rw [processTypedItem, processBulkItem, hline], hr⟩
  | aggregate type =>
      refine ⟨redisReaderGrow r, ?_, (hr.grow hstack).1⟩
      rw [processTypedItem, processAggregateItem]
      simp only [readLine, redisReaderGrow_rest, hline]

variable (strtod) in
/-- **A reader with too many bytes in its buffer waits for more.** -/
theorem redisReaderGetReply_long (hr : AtRest maxelements r fs b) {byte : UInt8} {rest : Bytes}
    (hb : b = byte :: rest) {type : ItemType} (hbyte : itemType byte = some type)
    (hlo : 2 ^ 31 < rest.length) (hhi : rest.length ≤ 2 ^ 32) :
    ∃ r', redisReaderGetReply strtod r = (some none, r') ∧ AtRest maxelements r' fs b := by
  obtain ⟨cur, r', hitem, hr', hstack, -, -, hb'⟩ := processItem_typed strtod hr.begin hb hbyte
  obtain rfl : rest = r'.rest := (List.cons.inj (hb.symm.trans hb')).2
  obtain ⟨r'', htyped, hr''⟩ := processTypedItem_long strtod hr' hstack hlo hhi type
  rw [htyped] at hitem
  have hbuf : r.buf ≠ [] := by
    intro hnil
    have hle := hr.length_le
    rw [RedisReader.rest, hnil, List.drop_nil, hb, List.length_cons] at hle
    simp only [List.length_nil] at hle
    omega
  have hdiscard := hr''.discard
  obtain ⟨cur', hstack', -, -⟩ := hdiscard.stack
  refine ⟨r''.discard, ?_, .inReply hdiscard⟩
  rw [redisReaderGetReply, if_neg (by rw [hr.works.err]; exact Bool.false_ne_true),
    if_neg hbuf]
  simp only [processItems_succ hr.begin, hitem, Bool.false_eq_true, if_false]
  rw [if_neg (by rw [hr''.err]; exact Bool.false_ne_true), ← RedisReader.discard,
    if_neg (by rw [hstack']; exact List.cons_ne_nil _ _)]

end Long

/-! ## Bulk strings -/

section Bulk

variable {r : RedisReader} {str b : Bytes}

variable (strtod) in
/-- A reader that has no whole bulk string, or cannot see that it has one. -/
theorem redisReaderGetReplies_bulk (hr : AtRest maxelements r [] b) {more : Bytes}
    (h : b ++ more = bulk str) (hstr : str.length < 2 ^ 63)
    (hhi : (bulk str).length ≤ 2 ^ 32 + 1) (hopen : more ≠ [] ∨ 2 ^ 31 + 1 < b.length)
    (fuel : ℕ) :
    ∃ r', redisReaderGetReplies strtod fuel r = ([], r') ∧ AtRest maxelements r' [] b := by
  cases fuel with
  | zero => exact ⟨r, rfl, hr⟩
  | succ fuel =>
      rw [redisReaderGetReplies]
      by_cases hlong : 2 ^ 31 + 1 < b.length
      · obtain ⟨byte, rest, rfl⟩ :=
          List.exists_cons_of_ne_nil (List.ne_nil_of_length_pos (by omega : 0 < b.length))
        obtain ⟨rfl, -⟩ : byte = 36 ∧ _ := List.cons.inj h
        have hle := congrArg List.length h
        rw [List.length_append] at hle
        rw [List.length_cons] at hlong hle
        obtain ⟨r', hreply, hr'⟩ := redisReaderGetReply_long strtod hr rfl
          (show itemType 36 = some (.bulk .string) from rfl) (by omega) (by omega)
        exact ⟨r', by rw [hreply], hr'⟩
      · have hscan : scanItem strtod maxelements b = .more :=
          (stable_scanItem strtod maxelements).more_of_token
            (by rw [h]; exact scanItem_bulk hstr) (hopen.resolve_right hlong)
        have hnext : (replyMachine strtod maxelements).Next [] b (.stop (.waits [] b)) :=
          .waits hscan
        obtain ⟨hreply, hr'⟩ := redisReaderGetReply_next hnext hr (.start (by omega))
        rcases hres : redisReaderGetReply strtod r with ⟨reply, r'⟩
        rw [hres] at hreply hr'
        obtain rfl : reply = some none := hreply
        exact ⟨r', rfl, hr'⟩

variable (strtod) in
/-- A reader that has a whole bulk string. -/
theorem redisReaderGetReplies_whole (hr : AtRest maxelements r [] (bulk str))
    (hstr : str.length < 2 ^ 63) (hlo : (bulk str).length ≤ 2 ^ 31 + 1) {fuel : ℕ}
    (hfuel : (bulk str).length ≤ fuel) :
    ∃ r', redisReaderGetReplies strtod fuel r = ([.text .string str], r') ∧
      AtRest maxelements r' [] [] := by
  have hreads : (replyMachine strtod maxelements).Reads [] (bulk str) [.text .string str]
      (.waits [] []) :=
    have hscan : scanItem strtod maxelements (bulk str) =
        .token (.leaf (.text .string str)) [] :=
      scanItem_bulk hstr
    .result (.result hscan rfl) reads_nil
  obtain ⟨hreplies, hr'⟩ := redisReaderGetReplies_reads hreads hr (.start hlo) hfuel
  exact ⟨_, Prod.ext hreplies rfl, hr'⟩

variable (strtod) in
/-- Nothing comes of nothing. -/
theorem feedPieces_of_flatten_nil (hr : AtRest maxelements r [] []) {pieces : List Bytes}
    (h : pieces.flatten = []) :
    (feedPieces strtod pieces r).1 = [] ∧ (feedPieces strtod pieces r).2.err = none := by
  have hshort : ShortReplies strtod maxelements 0 ([] ++ pieces.flatten) := by
    rw [h]
    exact short_length []
  have hpieces : ∀ c ∈ pieces, c.length ≤ 0 := by
    intro c hc
    rw [List.flatten_eq_nil_iff.mp h c hc]
    exact le_rfl
  obtain ⟨us, hus, hreplies, hrests⟩ := feedPieces_reads hshort hpieces (by omega) reads_nil hr
    (by rw [h]; exact reads_nil)
  obtain rfl : us = [] := hus.symm
  exact ⟨hreplies, hrests.err⟩

/-- A bulk string in pieces, from where it was left. -/
theorem feedPieces_bulk_of_atRest (hstr : str.length < 2 ^ 63)
    (hhi : (bulk str).length ≤ 2 ^ 32 + 1) {pieces : List Bytes}
    (hr : AtRest maxelements r [] b) (h : b ++ pieces.flatten = bulk str)
    (hopen : pieces.flatten ≠ [] ∨ 2 ^ 31 + 1 < b.length) :
    (feedPieces strtod pieces r).1 =
        (if (bulk str).length ≤ 2 ^ 31 + 1 then [.text .string str] else []) ∧
      (feedPieces strtod pieces r).2.err = none := by
  induction pieces generalizing r b with
  | nil =>
      have hlong := hopen.resolve_left (not_not_intro rfl)
      rw [List.flatten_nil, List.append_nil] at h
      rw [if_neg (by rw [← h]; omega)]
      exact ⟨rfl, hr.works.err⟩
  | cons c pieces ih =>
      rw [List.flatten_cons, ← List.append_assoc] at h
      have hfeed := hr.feed c
      have hlen := congrArg List.length h
      rw [List.length_append] at hlen
      rw [feedPieces]
      by_cases hdone : pieces.flatten = [] ∧ (b ++ c).length ≤ 2 ^ 31 + 1
      · obtain ⟨hnil, hshort⟩ := hdone
        rw [hnil, List.append_nil] at h
        rw [h] at hfeed hshort
        obtain ⟨r', hreplies, hr'⟩ :=
          redisReaderGetReplies_whole strtod hfeed hstr hshort hfeed.length_le
        obtain ⟨hrest, herr⟩ := feedPieces_of_flatten_nil strtod hr' hnil
        rw [hreplies, if_pos hshort]
        simp only [hrest, herr, List.append_nil, and_self]
      · have hopen' : pieces.flatten ≠ [] ∨ 2 ^ 31 + 1 < (b ++ c).length :=
          (not_and_or.mp hdone).imp_right not_le.mp
        obtain ⟨r', hreplies, hr'⟩ := redisReaderGetReplies_bulk strtod hfeed h hstr hhi hopen'
          ((redisReaderFeed r c).2.rest.length + 1)
        rw [hreplies]
        exact ih hr' h hopen'

end Bulk

variable (strtod) in
/-- **Which bulk strings are handed out**: those whose spelling has at most `2 ^ 31 + 1` bytes.
A longer one, up to `2 ^ 32 + 1` bytes, is never complete for the reader. -/
theorem feedPieces_bulk {str : Bytes} (hhi : (bulk str).length ≤ 2 ^ 32 + 1)
    {pieces : List Bytes} (hflat : pieces.flatten = bulk str) :
    (feedPieces strtod pieces {}).1 =
        (if (bulk str).length ≤ 2 ^ 31 + 1 then [.text .string str] else []) ∧
      (feedPieces strtod pieces {}).2.err = none := by
  have hstr : str.length < 2 ^ 63 := by
    rw [length_bulk] at hhi
    omega
  refine feedPieces_bulk_of_atRest hstr hhi atRest_fresh (by rw [hflat]; rfl) (.inl ?_)
  rw [hflat, bulk, header]
  exact List.cons_ne_nil _ _

/-- A bulk string of two gibibytes is never complete. -/
theorem gibibytes_wait :
    (feedPieces noNumber [bulk (List.replicate (2 ^ 31) 0)] {}).1 = [] := by
  have hdigits : (decimal (2 ^ 31)).length = 10 := by decide
  have hlen : (bulk (List.replicate (2 ^ 31) 0)).length = 2 ^ 31 + 15 := by
    rw [length_bulk, List.length_replicate, hdigits]
    omega
  have hbulk := feedPieces_bulk noNumber (by rw [hlen]; decide)
    List.flatten_singleton
  rw [hlen, if_neg (by decide)] at hbulk
  exact hbulk.1

end Hiredis
