import RcppRedis.Redis.Vectors
import RcppRedis.Lib.Binary64Decimal
import RcppRedis.Lib.SortedSets
import Mathlib.Data.List.Lex

/-!
# Scores of sorted sets

`zadd` stores the rows of a matrix as members of a sorted set, each under its first element as
the score.  The score goes over the wire as `%f` has it, with six decimals, and so do the
bounds of the three methods that select by score.

* `Stores.stored` — what a run of `zadd` calls leaves on the server.
* `filter_score` — which of it the server selects.
-/

namespace RcppRedis

open Bytes Resp Hiredis Interact Prog

variable {O : Type} {R : Runtime O}

/-! ## The server -/

/-- A member of a sorted set. -/
structure Member where
  bytes : Bytes

namespace Member

/-- A row as it is stored. -/
def ofRow (row : List Double) : Member := ⟨Double.bytesOfVector row⟩

def toRow (x : Member) : List Double := Double.vectorOfBytes x.bytes

@[simp] theorem toRow_ofRow (row : List Double) : (ofRow row).toRow = row :=
  Double.vectorOfBytes_bytesOfVector row

theorem ofRow_injective :
    Function.Injective ofRow := Function.LeftInverse.injective toRow_ofRow

theorem bytes_injective : Function.Injective bytes := by
  rintro ⟨b⟩ ⟨c⟩ rfl
  rfl

/-- Members in the order of their bytes, as `memcmp` has it. -/
abbrev lexicographic : LinearOrder Member :=
  LinearOrder.lift' (fun x => x.bytes.map UInt8.toNat)
    ((List.map_injective_iff.mpr fun _ _ => UInt8.toNat_inj.mp).comp bytes_injective)

end Member

/-- The sorted sets under all keys. -/
abbrev Scores : Type := Bytes → SortedSet ℚ Member

/-- The action that a command on a sorted set asks for, and its key. -/
def scoreCommand (ρ : Double.Rounding) :
    List Bytes → Option (Bytes × SortedSet.Action ℚ Member)
  | [w, key] => if w = ascii "ZCARD" then some (key, .card) else none
  | [w, key, a, b] =>
      if w = ascii "ZADD" then do
        let score ← Double.parseFixed a
        pure (key, .add (ρ.value score) ⟨b⟩)
      else if w = ascii "ZRANGE" then do
        let start ← parseDecimalInt a
        let stop ← parseDecimalInt b
        pure (key, .range start stop)
      else do
        let lo ← Double.parseFixed a
        let hi ← Double.parseFixed b
        if w = ascii "ZRANGEBYSCORE" then pure (key, .between (ρ.value lo) (ρ.value hi))
        else if w = ascii "ZCOUNT" then pure (key, .count (ρ.value lo) (ρ.value hi))
        else if w = ascii "ZREMRANGEBYSCORE" then pure (key, .remove (ρ.value lo) (ρ.value hi))
        else none
  | _ => none

/-- The reply with an answer. -/
def scoreReply : SortedSet.Answer Member → Reply
  | .count n => .integer n
  | .elements l => .array (l.map fun x => .string x.bytes)

/-! ## Storing a row -/

variable {ρ : Double.Rounding}

/-- The score that the server has for a member. -/
def Member.score (ρ : Double.Rounding) (x : Member) : ℚ := ρ.reread (x.toRow.headD 0)

/-- The first element is there and finite. -/
def HasScore (row : List Double) : Prop := ∃ d rest, row = d :: rest ∧ d.isFinite = true

/-- A row of `zadd` as a command. -/
def rowItems (key : CStr) (row : List Double) : List Item :=
  [keyword "ZADD", .str key, .double (row.headD 0), .bin (Double.bytesOfVector row)]

theorem rowItems_ne_nil (key : CStr) (row : List Double) : rowItems key row ≠ [] := by
  simp [rowItems]

/-- The frame of a row fits in an `int`, and its terminator too. -/
def RowFits (key : CStr) (row : List Double) : Prop :=
  (encodeCommand ((rowItems key row).map Item.text)).length + 1 < 2 ^ 31

theorem zaddRow_eq (key : CStr) (res d : Double) (rest : List Double) :
    zaddRow key res (d :: rest) =
      requestNULLSafe (.format (template (rowItems key (d :: rest)))
        ((rowItems key (d :: rest)).map Item.args).flatten) >>= fun reply =>
          thenFree reply (doubleOf reply >>= fun n => pure (Double.addWhole res n)) := rfl

theorem zadd_eq (key : CStr) (x : NumericMatrix) : Method.code R (.zadd key x) =
    x.rows.foldlM (zaddRow key) (.ofInt 0) >>= fun res => .ret (.real [res]) := rfl

theorem doubleOf_of_integer {p : Pointer} {n : ℤ} (hp : p.node = .integer n) :
    doubleOf p = .ret (.ofInt n) := by
  rw [doubleOf, checkReplyType_of_eq (by rw [hp]; rfl), ret_bind, hp]
  rfl

/-- The command of a row asks to add it under the score that is printed of it. -/
theorem scoreCommand_row (key : CStr) {row : List Double} (hrow : HasScore row) :
    scoreCommand ρ ((rowItems key row).map Item.text) =
      some (key.bytes, .add (Member.score ρ (.ofRow row)) (.ofRow row)) := by
  obtain ⟨d, rest, rfl, hd⟩ := hrow
  have hwords : scoreCommand ρ ((rowItems key (d :: rest)).map Item.text) =
      (Double.parseFixed d.formatF).bind fun q =>
        some (key.bytes, .add (ρ.value q) (.ofRow (d :: rest))) := rfl
  rw [hwords, Double.parseFixed_formatF hd, Option.bind_some, Member.score, Member.toRow_ofRow]
  rfl

/-- The server's score of a row. -/
theorem score_ofRow (row : List Double) :
    Member.score ρ (.ofRow row) = ρ.reread (row.headD 0) := by
  rw [Member.score, Member.toRow_ofRow]

/-! ## Selecting by score -/

/-- The score that a row has. -/
def scoreOf (row : List Double) : ℚ := (row.headD 0).toRat

/-- The score that is printed, in millionths. -/
def printed (row : List Double) : ℤ := (row.headD 0).millionths

/-- The rows of matrices. -/
def rowsOf (xs : List NumericMatrix) : Finset (List Double) :=
  (xs.flatMap NumericMatrix.rows).toFinset

theorem rowsOf_cons (x : NumericMatrix) (xs : List NumericMatrix) :
    rowsOf (x :: xs) = x.rows.toFinset ∪ rowsOf xs := by
  rw [rowsOf, List.flatMap_cons, List.toFinset_append, rowsOf]

theorem HasScore.isFinite {row : List Double} (h : HasScore row) :
    (row.headD 0).isFinite = true := by
  obtain ⟨d, rest, rfl, hd⟩ := h
  exact hd

/-- The rows whose scores are in a range. -/
def within (min max : Double) (rows : Finset (List Double)) : Finset (List Double) :=
  rows.filter fun row => min.toRat ≤ scoreOf row ∧ scoreOf row ≤ max.toRat

/-- The rows whose printed scores are in the printed range. -/
def shown (min max : Double) (rows : Finset (List Double)) : Finset (List Double) :=
  rows.filter fun row => min.millionths ≤ printed row ∧ printed row ≤ max.millionths

theorem within_subset_shown (min max : Double) (rows : Finset (List Double)) :
    within min max rows ⊆ shown min max rows := by
  intro row hrow
  obtain ⟨hmem, hmin, hmax⟩ := Finset.mem_filter.mp hrow
  exact Finset.mem_filter.mpr ⟨hmem, Double.millionths_mono hmin, Double.millionths_mono hmax⟩

/-- The printed range has the rows of the range and no others. -/
theorem within_eq_shown_iff {min max : Double} {rows : Finset (List Double)} :
    within min max rows = shown min max rows ↔ shown min max rows ⊆ within min max rows := by
  constructor
  · intro h
    exact h.ge
  · intro h
    exact (within_subset_shown min max rows).antisymm h

/-- A command with two bounds. -/
def boundItems (word : Item) (key : CStr) (min max : Double) : List Item :=
  [word, .str key, .double min, .double max]

theorem scoreCommand_bounds {min max : Double} (hmin : min.isFinite = true)
    (hmax : max.isFinite = true) (key : CStr) :
    scoreCommand ρ ((boundItems (keyword "ZRANGEBYSCORE") key min max).map Item.text) =
        some (key.bytes, .between (ρ.reread min) (ρ.reread max)) ∧
      scoreCommand ρ ((boundItems (keyword "ZCOUNT") key min max).map Item.text) =
        some (key.bytes, .count (ρ.reread min) (ρ.reread max)) ∧
      scoreCommand ρ ((boundItems (keyword "ZREMRANGEBYSCORE") key min max).map Item.text) =
        some (key.bytes, .remove (ρ.reread min) (ρ.reread max)) := by
  have hbounds (act : ℚ → ℚ → SortedSet.Action ℚ Member) :
      ((Double.parseFixed min.formatF).bind fun lo =>
        (Double.parseFixed max.formatF).bind fun hi =>
        some (key.bytes, act (ρ.value lo) (ρ.value hi))) =
          some (key.bytes, act (ρ.reread min) (ρ.reread max)) := by
    rw [Double.parseFixed_formatF hmin, Double.parseFixed_formatF hmax]
    rfl
  exact ⟨hbounds .between, hbounds .count, hbounds .remove⟩

/-- The server selects the rows whose printed scores are in the printed range. -/
theorem filter_score [DecidableEq Member] {rows : Finset (List Double)}
    (hrows : ∀ row ∈ rows, HasScore row) {min max : Double} (hmin : min.isFinite = true)
    (hmax : max.isFinite = true) :
    ((rows.image Member.ofRow).filter fun x =>
      ρ.reread min ≤ Member.score ρ x ∧ Member.score ρ x ≤ ρ.reread max) =
        (shown min max rows).image Member.ofRow := by
  rw [Finset.filter_image, shown]
  congr 1
  refine Finset.filter_congr fun row hrow => ?_
  have hfinite := (hrows row hrow).isFinite
  rw [score_ofRow, ρ.le_iff hmin hfinite, ρ.le_iff hfinite hmax]
  rfl

/-! ## Frames -/

theorem length_encodeCommand_four (a b c d : Bytes) : (encodeCommand [a, b, c, d]).length =
    4 + (bulklen a.length + bulklen b.length + bulklen c.length + bulklen d.length) := by
  rw [length_encodeCommand]
  simp only [List.map_cons, List.map_nil, List.sum_cons, List.sum_nil, List.length_cons,
    List.length_nil]
  have hcount : countDigits (0 + 1 + 1 + 1 + 1) = 1 := rfl
  omega

/-- The command that asks for all rows. -/
def allItems (key : CStr) : List Item :=
  [keyword "ZRANGE", .str key, .int (0 : Int32).toInt, .int (-1 : Int32).toInt]

theorem scoreCommand_all (key : CStr) :
    scoreCommand ρ ((allItems key).map Item.text) = some (key.bytes, .range 0 (-1)) := rfl

/-- Where a row's frame fits, that of the command for all rows does. -/
theorem RowFits.all {key : CStr} {row : List Double} (hrow : HasScore row)
    (h : RowFits key row) :
    (encodeCommand ((allItems key).map Item.text)).length + 1 < 2 ^ 31 := by
  obtain ⟨d, rest, rfl, -⟩ := hrow
  have hall : ∀ n, bulklen n = 1 + countDigits n + 2 + n + 2 := fun n => rfl
  have hlen : (Double.bytesOfVector (d :: rest)).length = 8 * (rest.length + 1) :=
    Double.length_bytesOfVector _
  have hword : bulklen (ascii "ZRANGE").length = 12 := rfl
  have hzadd : bulklen (ascii "ZADD").length = 10 := rfl
  have hzero : bulklen (decimalInt (0 : Int32).toInt).length = 7 := rfl
  have hone : bulklen (decimalInt (-1 : Int32).toInt).length = 8 := rfl
  simp only [RowFits, rowItems, allItems, List.map_cons, List.map_nil, Item.text, keyword,
    length_encodeCommand_four, hword, hzadd, hzero, hone, hlen, List.headD_cons] at h ⊢
  have hscore := hall d.formatF.length
  have hmember := hall (8 * (rest.length + 1))
  omega

/-- A row whose frame fits has fewer than `2 ^ 31` bytes. -/
theorem RowFits.length_lt {key : CStr} {row : List Double} (h : RowFits key row) :
    8 * row.length < 2 ^ 31 := by
  have hle : (Double.bytesOfVector row).length ≤
      (encodeCommand ((rowItems key row).map Item.text)).length :=
    length_le_of_mem (by simp [rowItems, Item.text])
  rw [Double.length_bytesOfVector] at hle
  have hlt : (encodeCommand ((rowItems key row).map Item.text)).length + 1 < 2 ^ 31 := h
  omega

theorem RowFits.key_lt {key : CStr} {row : List Double} (h : RowFits key row) :
    key.bytes.length + 1 < 2 ^ 31 := by
  have hle : key.bytes.length ≤ (encodeCommand ((rowItems key row).map Item.text)).length :=
    length_le_of_mem (by simp [rowItems, Item.text])
  have hlt : (encodeCommand ((rowItems key row).map Item.text)).length + 1 < 2 ^ 31 := h
  omega

/-- Rows of one width are short enough for an `unsigned int`. -/
theorem exists_width {key : CStr} {rows : Finset (List Double)}
    (hfits : ∀ row ∈ rows, RowFits key row) {k : ℕ} (hk : ∀ row ∈ rows, row.length = k) :
    ∃ n, 8 * n < 2 ^ 32 ∧ ∀ row ∈ rows, row.length = n := by
  rcases rows.eq_empty_or_nonempty with rfl | ⟨row, hrow⟩
  · exact ⟨0, by norm_num, by simp⟩
  · have hlt := (hfits row hrow).length_lt
    rw [hk row hrow] at hlt
    exact ⟨k, by omega, hk⟩

/-- The frames of the three commands with these bounds fit. -/
def BoundsFit (key : CStr) (min max : Double) : Prop :=
  (encodeCommand ((boundItems (keyword "ZREMRANGEBYSCORE") key min max).map
    Item.text)).length + 1 < 2 ^ 31

/-- What a word of moderate length adds to a frame. -/
theorem bulklen_le {len : ℕ} (h : len < 10 ^ 8) : bulklen len ≤ len + 13 := by
  have hdigits := length_decimal_le h (by norm_num)
  rw [bulklen, countDigits_eq]
  omega

theorem bulklen_formatF_le {d : Double} (hd : d.isFinite = true) :
    bulklen d.formatF.length ≤ 363 := by
  have hle := Double.length_formatF_le hd
  have hbulk : bulklen d.formatF.length ≤ d.formatF.length + 13 := bulklen_le (by omega)
  omega

/-- Rows and keys of moderate length fit. -/
theorem rowFits_of_length {key : CStr} {row : List Double} (hrow : HasScore row)
    (hkey : key.bytes.length < 10 ^ 8) (hlen : 8 * row.length < 10 ^ 8) : RowFits key row := by
  have hword : bulklen (ascii "ZADD").length = 10 := rfl
  have hscore := bulklen_formatF_le hrow.isFinite
  have hkey' := bulklen_le hkey
  have hlen' := bulklen_le hlen
  simp only [RowFits, rowItems, List.map_cons, List.map_nil, Item.text, keyword,
    length_encodeCommand_four, hword, Double.length_bytesOfVector]
  omega

theorem boundsFit_of_length {key : CStr} {min max : Double} (hmin : min.isFinite = true)
    (hmax : max.isFinite = true) (hkey : key.bytes.length < 10 ^ 8) :
    BoundsFit key min max := by
  have hword : bulklen (ascii "ZREMRANGEBYSCORE").length = 23 := rfl
  have hmin' := bulklen_formatF_le hmin
  have hmax' := bulklen_formatF_le hmax
  have hkey' := bulklen_le hkey
  simp only [BoundsFit, boundItems, List.map_cons, List.map_nil, Item.text, keyword,
    length_encodeCommand_four, hword]
  omega

theorem BoundsFit.shorter {key : CStr} {min max : Double} (h : BoundsFit key min max) :
    (encodeCommand ((boundItems (keyword "ZRANGEBYSCORE") key min max).map
      Item.text)).length + 1 <
        2 ^ 31 ∧
      (encodeCommand ((boundItems (keyword "ZCOUNT") key min max).map Item.text)).length + 1 <
        2 ^ 31 := by
  have hremove : bulklen (ascii "ZREMRANGEBYSCORE").length = 23 := rfl
  have hrange : bulklen (ascii "ZRANGEBYSCORE").length = 20 := rfl
  have hcount : bulklen (ascii "ZCOUNT").length = 12 := rfl
  simp only [BoundsFit, boundItems, List.map_cons, List.map_nil, Item.text, keyword,
    length_encodeCommand_four, hremove, hrange, hcount] at h ⊢
  omega

section Server

variable [LinearOrder Member]

/-- A server of sorted sets.  It reads a score as `ρ` rounds it, and lists members with one
score in the order of their type. -/
def scores (ρ : Double.Rounding) : Server Scores := fun words m =>
  match scoreCommand ρ words with
  | none => (.error (ascii "ERR syntax error"), m)
  | some (key, act) =>
      (scoreReply (act.run (m key)).1, Function.update m key (act.run (m key)).2)

/-- The server with the given members under a key. -/
def withMembers (ρ : Double.Rounding) (key : CStr) (S : Finset Member) (m : Scores) : Scores :=
  Function.update m key.bytes (.ofScores (Member.score ρ) S)

theorem withMembers_empty {key : CStr} {m : Scores} (hm : m key.bytes = .empty) :
    withMembers ρ key ∅ m = m := by
  rw [withMembers, SortedSet.ofScores_empty, ← hm, Function.update_eq_self]

/-- What a command on these members does. -/
theorem scores_withMembers {words : List Bytes} {key : CStr} {act : SortedSet.Action ℚ Member}
    (h : scoreCommand ρ words = some (key.bytes, act)) (S : Finset Member) (m : Scores) :
    scores ρ words (withMembers ρ key S m) =
      (scoreReply (act.run (.ofScores (Member.score ρ) S)).1,
        Function.update m key.bytes (act.run (.ofScores (Member.score ρ) S)).2) := by
  rw [scores, h]
  dsimp only
  rw [withMembers, Function.update_self, Function.update_idem]

/-- **A command on these members** is answered, and the method goes on. -/
theorem run_scoreCommand {items : List Item} {key : CStr} {act : SortedSet.Action ℚ Member}
    (hcommand : scoreCommand ρ (items.map Item.text) = some (key.bytes, act))
    (hne : items ≠ []) (hfits : (encodeCommand (items.map Item.text)).length + 1 < 2 ^ 31)
    {α : Type} (k : Pointer → Code α) {S : Finset Member} {m : Scores}
    {w : World (Conn Scores)} (hw : w.env = { server := withMembers ρ key S m }) :
    ∃ p w', p.node = scoreReply (act.run (.ofScores (Member.score ρ) S)).1 ∧
      w'.env =
        { server := Function.update m key.bytes (act.run (.ofScores (Member.score ρ) S)).2 } ∧
      run (Conn.env (scores ρ)).handler
        (requestNULLSafe (.format (template items) (items.map Item.args).flatten) >>= k) w =
          run (Conn.env (scores ρ)).handler (k p) w' := by
  have hexact := (Request.Encodes.format items hne).exact_iff_fits.mpr hfits
  rw [run_command (scores ρ) hexact (by simpa using hne) k (by rw [hw]), hw]
  dsimp only
  rw [scores_withMembers hcommand]
  exact ⟨_, _, rfl, rfl, rfl⟩

/-- A command whose frame does not fit does not return. -/
theorem not_returned_of_not_fits {items : List Item} (hne : items ≠ [])
    (hfits : ¬ (encodeCommand (items.map Item.text)).length + 1 < 2 ^ 31) {α : Type}
    (k : Pointer → Code α) (w : World (Conn Scores)) :
    ¬ (run (Conn.env (scores ρ)).handler
      (requestNULLSafe (.format (template items) (items.map Item.args).flatten) >>= k)
        w).1.Returned := by
  rcases run_not_fits (scores ρ) items hne hfits k w with ⟨-, e, w', hrun, -⟩ |
    ⟨-, f, w', hrun⟩
  · rw [hrun]
    exact not_returned_raise e
  · rw [hrun]
    exact not_returned_fault f

/-! ## Storing rows -/

/-- A row that is added returns only if its frame fits. -/
theorem fits_of_returned {key : CStr} {row : List Double} (hrow : HasScore row) {res : Double}
    {w : World (Conn Scores)}
    (h : (run (Conn.env (scores ρ)).handler (zaddRow key res row) w).1.Returned) :
    RowFits key row := by
  obtain ⟨d, rest, rfl, -⟩ := hrow
  by_contra hfits
  rw [zaddRow_eq] at h
  exact not_returned_of_not_fits (rowItems_ne_nil _ _) hfits _ w h

/-- **One row** is added to the members, and counted unless it was one. -/
theorem run_zaddRow {key : CStr} {row : List Double} (hrow : HasScore row)
    (hfits : RowFits key row) (res : Double) {m : Scores} {S : Finset Member}
    {w : World (Conn Scores)} (hw : w.env = { server := withMembers ρ key S m }) :
    ∃ w', run (Conn.env (scores ρ)).handler (zaddRow key res row) w =
        (.ret (.addWhole res (.ofInt (if Member.ofRow row ∈ S then 0 else 1 : ℕ))), w') ∧
      w'.env = { server := withMembers ρ key (insert (.ofRow row) S) m } := by
  have hcommand := scoreCommand_row (ρ := ρ) key hrow
  obtain ⟨d, rest, rfl, -⟩ := hrow
  obtain ⟨p, w', hp, hw', hrun⟩ := run_scoreCommand hcommand (rowItems_ne_nil _ _) hfits
    (fun reply => thenFree reply (doubleOf reply >>= fun n => pure (Double.addWhole res n))) hw
  rw [SortedSet.run_add_ofScores] at hp hw'
  rw [zaddRow_eq, hrun, doubleOf_of_integer hp, ret_bind, pure_eq, run_thenFree_ret]
  exact ⟨_, rfl, hw'⟩

/-- **The loop of `zadd`**, when it returns, has added all rows. -/
theorem run_rows {key : CStr} {rows : List (List Double)} (hrows : ∀ row ∈ rows, HasScore row)
    {res : Double} {m : Scores} {S : Finset Member} {w : World (Conn Scores)}
    (hw : w.env = { server := withMembers ρ key S m })
    (h : (run (Conn.env (scores ρ)).handler (rows.foldlM (zaddRow key) res) w).1.Returned) :
    (∀ row ∈ rows, RowFits key row) ∧ ∃ r w',
      run (Conn.env (scores ρ)).handler (rows.foldlM (zaddRow key) res) w = (.ret r, w') ∧
        w'.env = { server := withMembers ρ key (S ∪ rows.toFinset.image Member.ofRow) m } := by
  induction rows generalizing res S w with
  | nil =>
      refine ⟨by simp, res, w, rfl, ?_⟩
      rw [List.toFinset_nil, Finset.image_empty, Finset.union_empty]
      exact hw
  | cons row rows ih =>
      obtain ⟨hrow, hrows⟩ := List.forall_mem_cons.mp hrows
      rw [List.foldlM_cons] at h ⊢
      have hfits := fits_of_returned hrow (returned_of_bind _ h)
      obtain ⟨w', hrun, hw'⟩ := run_zaddRow hrow hfits res hw
      rw [run_bind, hrun, andThen_ret] at h ⊢
      obtain ⟨hrest, r', w'', hrun', hw''⟩ := ih hrows hw' h
      refine ⟨List.forall_mem_cons.mpr ⟨hfits, hrest⟩, r', w'', hrun', ?_⟩
      rw [hw'', List.toFinset_cons, Finset.image_insert, Finset.union_insert,
        Finset.insert_union]

/-- Rows whose frames fit are added, and the loop returns. -/
theorem returned_rows {key : CStr} {rows : List (List Double)}
    (hrows : ∀ row ∈ rows, HasScore row) (hfits : ∀ row ∈ rows, RowFits key row)
    (res : Double) {m : Scores} {S : Finset Member} {w : World (Conn Scores)}
    (hw : w.env = { server := withMembers ρ key S m }) :
    (run (Conn.env (scores ρ)).handler (rows.foldlM (zaddRow key) res) w).1.Returned := by
  induction rows generalizing res S w with
  | nil => exact returned_ret res
  | cons row rows ih =>
      obtain ⟨hrow, hrows⟩ := List.forall_mem_cons.mp hrows
      obtain ⟨hfirst, hfits⟩ := List.forall_mem_cons.mp hfits
      obtain ⟨w', hrun, hw'⟩ := run_zaddRow hrow hfirst res hw
      rw [List.foldlM_cons, run_bind, hrun, andThen_ret]
      exact ih hrows hfits _ hw'

/-- Calls of `zadd` that all return, and the connection after them. -/
def Stores (R : Runtime O) (ρ : Double.Rounding) (key : CStr) :
    List NumericMatrix → Conn Scores → Conn Scores → Prop
  | [], c, c' => c' = c
  | x :: xs, c, c' => ∃ v w, (Conn.env (scores ρ)).run (Method.code R (.zadd key x)) c =
      (.ret v, w) ∧
      Stores R ρ key xs w.env c'

/-- **A run of `zadd` calls** leaves the rows of their matrices. -/
theorem Stores.stored {key : CStr} {xs : List NumericMatrix}
    (hrows : ∀ x ∈ xs, ∀ row ∈ x.rows, HasScore row) {S : Finset Member} {m : Scores}
    {c : Conn Scores} (h : Stores R ρ key xs { server := withMembers ρ key S m } c) :
    (∀ x ∈ xs, ∀ row ∈ x.rows, RowFits key row) ∧
      c = { server := withMembers ρ key (S ∪ (rowsOf xs).image Member.ofRow) m } := by
  induction xs generalizing S with
  | nil =>
      refine ⟨by simp, ?_⟩
      rw [rowsOf, List.flatMap_nil, List.toFinset_nil, Finset.image_empty, Finset.union_empty]
      exact h
  | cons x xs ih =>
      obtain ⟨hx, hxs⟩ := List.forall_mem_cons.mp hrows
      obtain ⟨v, w, hrun, hrest⟩ := h
      rw [Env.run, zadd_eq] at hrun
      have hreturned := returned_of_bind (Conn.env (scores ρ)).handler
        ⟨v, congrArg Prod.fst hrun⟩
      obtain ⟨hfits, r, w', hloop, hw⟩ := run_rows hx rfl hreturned
      rw [run_bind, hloop, andThen_ret, run_ret, Prod.mk.injEq] at hrun
      obtain ⟨-, rfl⟩ := hrun
      rw [hw] at hrest
      obtain ⟨hfits', hc⟩ := ih hxs hrest
      refine ⟨List.forall_mem_cons.mpr ⟨hfits, hfits'⟩, ?_⟩
      rw [hc, rowsOf, rowsOf, List.flatMap_cons, List.toFinset_append, Finset.image_union,
        Finset.union_assoc]

/-- Rows whose frames fit can be stored. -/
theorem exists_stores (R : Runtime O) {key : CStr} {xs : List NumericMatrix}
    (hrows : ∀ x ∈ xs, ∀ row ∈ x.rows, HasScore row)
    (hfits : ∀ x ∈ xs, ∀ row ∈ x.rows, RowFits key row) (S : Finset Member) (m : Scores) :
    ∃ c, Stores R ρ key xs { server := withMembers ρ key S m } c := by
  induction xs generalizing S with
  | nil => exact ⟨_, rfl⟩
  | cons x xs ih =>
      obtain ⟨hx, hxs⟩ := List.forall_mem_cons.mp hrows
      obtain ⟨hfirst, hfits⟩ := List.forall_mem_cons.mp hfits
      have hreturned := returned_rows (ρ := ρ) (S := S) (m := m)
        (w := ⟨{ server := withMembers ρ key S m }, {}⟩) hx hfirst (.ofInt 0) rfl
      obtain ⟨-, r, w, hloop, hw⟩ := run_rows hx rfl hreturned
      obtain ⟨c, hc⟩ := ih hxs hfits (S ∪ x.rows.toFinset.image Member.ofRow)
      refine ⟨c, .real [r], w, ?_, ?_⟩
      · rw [Env.run, zadd_eq, run_bind, hloop, andThen_ret, run_ret]
      · rwa [hw]

end Server

end RcppRedis
