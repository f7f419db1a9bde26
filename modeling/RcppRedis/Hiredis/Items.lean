import RcppRedis.Hiredis.Numerals
import RcppRedis.Lib.Preorder

/-!
# Items and tasks

What one round of the reader does.  `scanItem` says which node of a reply tree the bytes start
with, and a reader in the middle of a reply is described by the frames of the aggregates that
are not complete: they determine its tasks and the object built so far.

* `stable_scanItem` — what is scanned does not depend on what has not come yet.
* `InReply` — the reader is in the middle of a reply.
* `processItem_follows` — an item is processed as it is scanned.
-/

namespace Hiredis

open Bytes Pieces Preorder

/-- A node of a reply tree. -/
abbrev ReplyNode : Type := Node AggregateType Reply

/-- An aggregate that is not complete. -/
abbrev ReplyFrame : Type := Frame AggregateType Reply

/-! ## Scanning an item -/

section Scan

variable (strtod : Bytes → Double × Bytes) (maxelements : ℤ)

/-- The node of a bulk string that is there with its line end. -/
def bulkNode (type : BulkType) (len : ℤ) (str : Bytes) : Except Failure ReplyNode :=
  if type = .verb ∧ (len < 4 ∨ str[3]? ≠ some 58) then
    .error (protocolError
      "Verbatim string 4 bytes of content type are missing or incorrectly encoded.")
  else .ok (.leaf (bulkReply type (str.take len.toNat)))

/-- The node of an aggregate whose head line is there. -/
def aggregateNode (type : AggregateType) (line : Bytes) : Except Failure ReplyNode :=
  match string2ll line with
  | none => .error (protocolError "Bad multi-bulk length")
  | some elements =>
      if elements < -1 ∨ 0 < maxelements ∧ maxelements < elements then
        .error (protocolError "Multi-bulk length out of range")
      else if elements = -1 then .ok (.leaf .nil)
      else
        let elements := if type = .map then elements * 2 else elements
        if (2 ^ 64 - 1) / 8 < elements then .error oomError
        else if 0 < elements then .ok (.parent type (elements.toNat - 1))
        else .ok (.leaf (.aggregate type []))

/-- A bulk string after the line with its length. -/
def scanBulk (type : BulkType) (line : Bytes) : Scanner UInt8 ReplyNode Failure :=
  match string2ll line with
  | none => .block 0 fun _ => .error (protocolError "Bad bulk string length")
  | some len =>
      if len < -1 then .block 0 fun _ =>
        .error (protocolError "Bulk string length out of range")
      else if len = -1 then .block 0 fun _ => .ok (.leaf .nil)
      else .block (len.toNat + 2) (bulkNode type len)

/-- An item after its type byte. -/
def scanTyped : ItemType → Scanner UInt8 ReplyNode Failure
  | .line type => .after splitLine fun line => .block 0 fun _ =>
      (lineReply strtod type line).map .leaf
  | .bulk type => .after splitLine (scanBulk type)
  | .aggregate type => .after splitLine fun line => .block 0 fun _ =>
      aggregateNode maxelements type line

/-- An item. -/
def scanItem : Scanner UInt8 ReplyNode Failure :=
  .after Scanner.uncons fun byte =>
    match itemType byte with
    | none => .block 0 fun _ => .error (protocolByteError byte)
    | some type => scanTyped strtod maxelements type

theorem steady_scanBulk (type : BulkType) (line : Bytes) :
    Scanner.Steady (scanBulk type line) := by
  rw [scanBulk]
  split
  · exact Scanner.steady_block _ _
  · split_ifs <;> exact Scanner.steady_block _ _

theorem stable_scanTyped (type : ItemType) :
    Scanner.Stable (scanTyped strtod maxelements type) := by
  cases type with
  | line type =>
      exact Scanner.stable_after splits_splitLine fun line => Scanner.steady_block _ _
  | bulk type => exact Scanner.stable_after splits_splitLine (steady_scanBulk type)
  | aggregate type =>
      exact Scanner.stable_after splits_splitLine fun line => Scanner.steady_block _ _

/-- **What is scanned does not depend on what has not come yet.** -/
theorem stable_scanItem : Scanner.Stable (scanItem strtod maxelements) := by
  refine Scanner.stable_after Scanner.splits_uncons fun byte => ?_
  split
  · exact Scanner.steady_block _ _
  · exact (stable_scanTyped strtod maxelements _).toSteady

/-- The reader of reply trees. -/
abbrev replyMachine : Machine UInt8 ReplyNode Failure (List ReplyFrame) Reply :=
  machine Reply.aggregate (scanItem strtod maxelements)

end Scan

/-! ## Frames and tasks -/

/-- The index of the current task in its parent. -/
def position : List ReplyFrame → ℤ
  | [] => -1
  | f :: _ => f.done.length

/-- The path to the object of the current task. -/
def path : List ReplyFrame → List ℤ
  | [] => []
  | f :: fs => path fs ++ [(f.done.length : ℤ)]

/-- The tasks of the aggregates that are not complete. -/
def frameTasks : List ReplyFrame → List ReadTask
  | [] => []
  | f :: fs =>
      { type := some (.aggregate f.label)
        elements := f.done.length + 1 + f.left
        idx := position fs
        obj := path fs } :: frameTasks fs

/-- The object built so far, with the given one in the place of the current task's. -/
def plug : List ReplyFrame → Option Object → Option Object
  | [], o => o
  | f :: fs, o =>
      plug fs (some (.aggregate f.label
        (f.done.map (fun r => some r.object) ++ o :: List.replicate f.left none)))

@[simp] theorem length_frameTasks (fs : List ReplyFrame) :
    (frameTasks fs).length = fs.length := by
  induction fs with
  | nil => rfl
  | cons f fs ih => rw [frameTasks, List.length_cons, ih, List.length_cons]

theorem objectPath_frameTasks {cur : ReadTask} {fs : List ReplyFrame}
    (hidx : cur.idx = position fs) : objectPath cur (frameTasks fs) = path fs := by
  cases fs with
  | nil => rfl
  | cons f fs => rw [frameTasks, objectPath, hidx, path, position]

theorem modify_append_cons {γ : Type} (l r : List γ) (x : γ) (f : γ → γ) :
    (l ++ x :: r).modify l.length f = l ++ f x :: r := by
  induction l with
  | nil => rfl
  | cons y l ih =>
      rw [List.cons_append, List.length_cons, List.modify_succ_cons, ih, List.cons_append]

/-- The path of the current task leads to its place. -/
theorem put_plug (fs : List ReplyFrame) (p : List ℤ) (o : Object) (x : Option Object) :
    Object.put (path fs ++ p) o (plug fs x) = plug fs (Object.put p o x) := by
  induction fs generalizing p x with
  | nil => rfl
  | cons f fs ih =>
      have hmodify :
          (f.done.map (fun r => some r.object) ++ x :: List.replicate f.left none).modify
              f.done.length (Object.put p o) =
            f.done.map (fun r => some r.object) ++
              Object.put p o x :: List.replicate f.left none := by
        have hmod := modify_append_cons (f.done.map fun r => some r.object)
          (List.replicate f.left none) x (Object.put p o)
        rwa [List.length_map] at hmod
      rw [path, List.append_assoc, plug, ih, List.singleton_append, Object.put,
        if_neg (by omega), Int.toNat_natCast, hmodify, plug]

/-- Where the current task goes when its object is complete. -/
theorem moveToNextTask_frameTasks {cur : ReadTask} {fs : List ReplyFrame} (t : Reply)
    (hidx : cur.idx = position fs) (hroom : ∀ f ∈ fs, f.done.length + 1 < 2 ^ 31) :
    match close Reply.aggregate t fs with
    | .inl _ => moveToNextTask (cur :: frameTasks fs) = []
    | .inr fs' => ∃ cur', moveToNextTask (cur :: frameTasks fs) = cur' :: frameTasks fs' ∧
        cur'.type = none ∧ cur'.idx = position fs' ∧ fs'.length ≤ fs.length := by
  induction fs generalizing cur t with
  | nil => rfl
  | cons f fs ih =>
      obtain ⟨hf, hfs⟩ := List.forall_mem_cons.mp hroom
      rw [close, frameTasks, moveToNextTask, hidx, position]
      simp only
      by_cases hleft : f.left = 0
      · rw [if_pos hleft, if_pos (by omega)]
        have hparent : (ReadTask.mk (some (.aggregate f.label)) (f.done.length + 1 + f.left)
            (position fs) (path fs)).idx = position fs := rfl
        have hnext := ih (.aggregate f.label (f.done ++ [t])) hparent hfs
        split at hnext
        · exact hnext
        · obtain ⟨cur', h, htype, hidx', hle⟩ := hnext
          exact ⟨cur', h, htype, hidx', by rw [List.length_cons]; omega⟩
      · rw [if_neg hleft, if_neg (by omega)]
        refine ⟨{ cur with type := none, elements := -1, idx := toInt32 (f.done.length + 1) },
          ?_, rfl,
          ?_, le_rfl⟩
        · rw [frameTasks]
          congr 2
          simp only [List.length_append, List.length_singleton]
          congr 1
          omega
        · simp only [position, List.length_append, List.length_singleton]
          rw [toInt32_eq_self (by omega) (by omega)]
          rfl

/-- The object built so far when another one is complete. -/
theorem plug_close (t : Reply) (fs : List ReplyFrame) :
    match close Reply.aggregate t fs with
    | .inl t' => plug fs (some t.object) = some t'.object
    | .inr fs' => plug fs (some t.object) = plug fs' none := by
  induction fs generalizing t with
  | nil => rfl
  | cons f fs ih =>
      rw [close]
      by_cases hleft : f.left = 0
      · rw [if_pos hleft]
        have hnext := ih (.aggregate f.label (f.done ++ [t]))
        have hobject : (Reply.aggregate f.label (f.done ++ [t])).object = .aggregate f.label
            (f.done.map (fun r => some r.object) ++ [some t.object]) := by
          rw [Reply.object, Reply.objects_eq_map, List.map_append, List.map_singleton]
        rw [hobject] at hnext
        rw [plug, hleft, List.replicate_zero]
        exact hnext
      · obtain ⟨left, hsucc⟩ := Nat.exists_eq_add_one_of_ne_zero hleft
        rw [if_neg hleft]
        simp only [plug, hsucc, List.replicate_succ, List.map_append, List.append_assoc,
          List.map_singleton, List.singleton_append, Nat.add_sub_cancel]

/-! ## A reader in the middle of a reply -/

/-- What holds of a reader at any time, until it has an error. -/
structure RedisReader.Works (r : RedisReader) (maxelements : ℤ) : Prop where
  err : r.err = none
  pos : r.pos ≤ r.buf.length
  tasks : 0 < r.tasks
  maxelements : r.maxelements = maxelements

/-- What the current task has read of an item, and what the buffer has of it. -/
def ReadTask.Unread (cur : ReadTask) (rest b : Bytes) : Prop :=
  match cur.type with
  | none => b = rest
  | some type => ∃ byte, itemType byte = some type ∧ b = byte :: rest

/-- **In the middle of a reply**: the frames determine the tasks and the object, and the given
bytes are not read. -/
structure InReply (maxelements : ℤ) (r : RedisReader) (fs : List ReplyFrame) (b : Bytes) : Prop
    extends r.Works maxelements where
  reply : r.reply = plug fs none
  stack : ∃ cur, r.stack = cur :: frameTasks fs ∧ cur.idx = position fs ∧ cur.Unread r.rest b
  depth : fs.length < r.tasks

/-- A reply is complete, and the given bytes follow it. -/
structure Complete (maxelements : ℤ) (r : RedisReader) (t : Reply) (b : Bytes) : Prop
    extends r.Works maxelements where
  reply : r.reply = some t.object
  stack : r.stack = []
  rest : r.rest = b

/-- What a step of the reading machine means for the reader. -/
def Steps (maxelements : ℤ) (r : RedisReader) (b : Bytes) : Reply ⊕ List ReplyFrame → Prop
  | .inl t => Complete maxelements r t b
  | .inr fs => InReply maxelements r fs b

/-- What a scan means for the round that processes the item: the bytes were `b`. -/
def Follows (maxelements : ℤ) (fs : List ReplyFrame) (b : Bytes) (res : Bool × RedisReader) :
    Scan UInt8 ReplyNode Failure → Prop
  | .more => res.1 = false ∧ InReply maxelements res.2 fs b
  | .fail e => res.1 = false ∧ res.2.err = some e.truncate
  | .token x rest => res.1 = true ∧ Steps maxelements res.2 rest (step Reply.aggregate x fs)

/-- An `int` can count the bytes that are not read, the type byte apart, and the children of an
aggregate too when each of these bytes adds one. -/
structure Room (fs : List ReplyFrame) (k : ℕ) : Prop where
  bytes : k ≤ 2 ^ 31 + 1
  children : ∀ f ∈ fs, f.done.length + k ≤ 2 ^ 31 + 1

theorem Room.mono {fs : List ReplyFrame} {k k' : ℕ} (h : Room fs k) (hk : k' ≤ k) :
    Room fs k' where
  bytes := by have := h.bytes; omega
  children f hf := by have := h.children f hf; omega

theorem Room.close {fs fs' : List ReplyFrame} {k k' : ℕ} (h : Room fs k) (hk : k' < k)
    {t : Reply} (hclose : close Reply.aggregate t fs = .inr fs') : Room fs' k' := by
  induction fs generalizing t with
  | nil => cases hclose
  | cons f fs ih =>
      obtain ⟨hf, hfs⟩ := List.forall_mem_cons.mp h.children
      rw [Preorder.close] at hclose
      split_ifs at hclose with hleft
      · exact ih ⟨h.bytes, hfs⟩ hclose
      · cases hclose
        refine ⟨(Room.mono h hk.le).bytes, List.forall_mem_cons.mpr ⟨?_, ?_⟩⟩
        · simp only [List.length_append, List.length_singleton]
          omega
        · intro g hg
          have hg' := hfs g hg
          omega

theorem Room.step {fs fs' : List ReplyFrame} {k k' : ℕ} (h : Room fs k) (hk : k' < k)
    {x : ReplyNode} (hstep : step Reply.aggregate x fs = .inr fs') : Room fs' k' := by
  cases x with
  | leaf t => exact h.close hk hstep
  | parent type others =>
      cases hstep
      refine ⟨(h.mono hk.le).bytes, List.forall_mem_cons.mpr ⟨?_, (h.mono hk.le).children⟩⟩
      have hle := h.bytes
      simp only [List.length_nil]
      omega

/-! ## Processing an item -/

section Process

variable {strtod : Bytes → Double × Bytes} {maxelements : ℤ} {r : RedisReader} {cur : ReadTask}
  {fs : List ReplyFrame}

/-- An object that is complete is put in its place, and the reader goes on after it. -/
theorem steps_leaf (hr : r.Works maxelements) (hreply : r.reply = plug fs none)
    (hidx : cur.idx = position fs) (hdepth : fs.length < r.tasks)
    (hroom : ∀ f ∈ fs, f.done.length + 1 < 2 ^ 31) (t : Reply) {pos : ℕ}
    (hpos : pos ≤ r.buf.length) : Steps maxelements
      { createObject r cur (frameTasks fs) t.object with
        pos := pos
        stack := moveToNextTask (cur :: frameTasks fs) }
      (r.buf.drop pos) (close Reply.aggregate t fs) := by
  have hput : (createObject r cur (frameTasks fs) t.object).reply =
      plug fs (some t.object) := by
    have hplug := put_plug fs [] t.object none
    rw [List.append_nil] at hplug
    rw [createObject, objectPath_frameTasks hidx, hreply, hplug, Object.put]
  have hmove := moveToNextTask_frameTasks t hidx hroom
  have hclose := plug_close t fs
  cases hnext : close Reply.aggregate t fs with
  | inl t' =>
      rw [hnext] at hmove hclose
      exact ⟨⟨hr.err, hpos, hr.tasks, hr.maxelements⟩, hput.trans hclose, hmove, rfl⟩
  | inr fs' =>
      rw [hnext] at hmove hclose
      obtain ⟨cur', hstack, htype, hidx', hle⟩ := hmove
      refine ⟨⟨hr.err, hpos, hr.tasks, hr.maxelements⟩, hput.trans hclose,
        ⟨cur', hstack, hidx', ?_⟩, hle.trans_lt hdepth⟩
      rw [ReadTask.Unread, htype]
      rfl

/-- What is in the buffer after a line. -/
theorem rest_line {line rest : Bytes} (h : splitLine r.rest = some (line, rest)) :
    r.pos + line.length + 2 ≤ r.buf.length ∧ r.buf.drop (r.pos + line.length + 2) = rest := by
  have happ : r.buf.drop r.pos = line ++ crlf ++ rest := (splitLine_eq_some h).1
  have hlen := congrArg List.length happ
  simp only [List.length_drop, List.length_append, length_crlf] at hlen
  refine ⟨by omega, ?_⟩
  have hdrop : r.buf.drop (r.pos + line.length + 2) =
      (r.buf.drop r.pos).drop (line ++ crlf).length := by
    rw [List.drop_drop, List.length_append, length_crlf, Nat.add_assoc]
  rw [hdrop, happ, List.drop_left]

theorem readLine_eq (h : r.rest.length ≤ 2 ^ 31) :
    readLine r = (splitLine r.rest).map fun p =>
      (p.1, { r with pos := r.pos + p.1.length + 2 }) := by
  rw [readLine, seekNewline_eq h]
  cases hsplit : splitLine r.rest with
  | none => rfl
  | some p =>
      obtain ⟨line, rest⟩ := p
      have happ := (splitLine_eq_some hsplit).1
      have htake : r.rest.take line.length = line := by
        rw [happ, List.append_assoc, List.take_left]
      simp only [Option.map_some, htake]

/-- The current task knows the type of its item. -/
theorem ReadTask.Unread.head {type : ItemType} {rest b : Bytes} (h : cur.Unread rest b)
    (htype : cur.type = some type) : ∃ byte, itemType byte = some type ∧ b = byte :: rest := by
  rwa [ReadTask.Unread, htype] at h

variable {b : Bytes} {byte : UInt8}

theorem Room.length_rest (h : Room fs b.length) (hb : b = byte :: r.rest) :
    r.rest.length ≤ 2 ^ 31 := by
  have hle := h.bytes
  rw [hb, List.length_cons] at hle
  omega

/-- A reader that goes on after an object in place of the current task's, which took at least a
line end. -/
theorem InReply.leaf (hr : InReply maxelements r fs b) (hroom : Room fs b.length)
    (hidx : cur.idx = position fs) (hb : b = byte :: r.rest) (t : Reply) {pos : ℕ}
    (hend : r.pos + 2 ≤ pos) (hpos : pos ≤ r.buf.length) :
    Steps maxelements
      { createObject r cur (frameTasks fs) t.object with
        pos := pos
        stack := moveToNextTask (cur :: frameTasks fs) }
      (r.buf.drop pos) (step Reply.aggregate (.leaf t) fs) := by
  refine steps_leaf hr.toWorks hr.reply hidx hr.depth (fun f hf => ?_) t hpos
  have hf' := hroom.children f hf
  rw [hb, List.length_cons, RedisReader.rest, List.length_drop] at hf'
  omega

/-- A reader that goes on with the first child of the current task's aggregate. -/
theorem InReply.parent (hr : InReply maxelements r fs b) (hidx : cur.idx = position fs)
    {type : AggregateType} (htype : cur.type = some (.aggregate type)) {n : ℤ} (hn : 0 < n)
    (htasks : fs.length + 1 < r.tasks) {pos : ℕ} (hpos : pos ≤ r.buf.length) :
    Steps maxelements
      { createObject r cur (frameTasks fs) (.aggregate type (List.replicate n.toNat none)) with
        pos := pos
        stack := { idx := 0 } ::
          { cur with elements := n, obj := objectPath cur (frameTasks fs) } ::
          frameTasks fs }
      (r.buf.drop pos) (step Reply.aggregate (.parent type (n.toNat - 1)) fs) := by
  have hplug := put_plug fs [] (.aggregate type (List.replicate n.toNat none)) none
  obtain ⟨others, hothers⟩ : ∃ others, n.toNat = others + 1 :=
    Nat.exists_eq_add_one_of_ne_zero (by omega)
  have hcount : n = ((0 : ℕ) : ℤ) + 1 + (others : ℤ) := by omega
  have hpath := objectPath_frameTasks hidx
  rw [List.append_nil, Object.put] at hplug
  refine ⟨⟨hr.err, hpos, hr.tasks, hr.maxelements⟩, ?_, ⟨{ idx := 0 }, ?_, rfl, rfl⟩, htasks⟩
  · rw [createObject, hpath, hr.reply, hplug, plug, hothers, Nat.add_sub_cancel]
    rfl
  · rw [hpath, htype, hidx, hothers, Nat.add_sub_cancel, frameTasks]
    simp only [List.length_nil, hcount]

theorem redisReaderGrow_rest (r : RedisReader) : (redisReaderGrow r).rest = r.rest := by
  rw [redisReaderGrow]
  split_ifs <;> rfl

/-- There is a task for the children of the current one. -/
theorem InReply.grow (hr : InReply maxelements r fs b)
    (hstack : r.stack = cur :: frameTasks fs) : InReply maxelements (redisReaderGrow r) fs b ∧
    fs.length + 1 < (redisReaderGrow r).tasks := by
  have hlen : r.stack.length = fs.length + 1 := by
    rw [hstack, List.length_cons, length_frameTasks]
  have hdepth := hr.depth
  rw [redisReaderGrow]
  split_ifs with hfull
  · exact ⟨{ hr with
      tasks := Nat.lt_of_lt_of_le hr.tasks (Nat.le_add_right _ _)
      depth := Nat.lt_of_lt_of_le hdepth (Nat.le_add_right _ _) }, by simp only; omega⟩
  · exact ⟨hr, by omega⟩

theorem processLineItem_follows (hr : InReply maxelements r fs b) (hroom : Room fs b.length)
    (hidx : cur.idx = position fs) (hb : b = byte :: r.rest) (type : LineType) :
    Follows maxelements fs b (processLineItem strtod type cur (frameTasks fs) r)
      (scanTyped strtod maxelements (.line type) r.rest) := by
  rw [processLineItem, readLine_eq (hroom.length_rest hb), scanTyped, Scanner.after]
  cases hsplit : splitLine r.rest with
  | none => exact ⟨rfl, hr⟩
  | some p =>
      obtain ⟨line, rest⟩ := p
      obtain ⟨hpos, hdrop⟩ := rest_line hsplit
      simp only [Option.map_some]
      cases hline : lineReply strtod type line with
      | error e => exact ⟨rfl, rfl⟩
      | ok t =>
          refine ⟨rfl, ?_⟩
          have hleaf := hr.leaf hroom hidx hb t (by omega) hpos
          rwa [hdrop] at hleaf

theorem processBulkItem_follows (hr : InReply maxelements r fs b) (hroom : Room fs b.length)
    (hidx : cur.idx = position fs) (hb : b = byte :: r.rest) (type : BulkType) :
    Follows maxelements fs b (processBulkItem type cur (frameTasks fs) r)
      (scanTyped strtod maxelements (.bulk type) r.rest) := by
  rw [processBulkItem, seekNewline_eq (hroom.length_rest hb), scanTyped, Scanner.after]
  cases hsplit : splitLine r.rest with
  | none => exact ⟨rfl, hr⟩
  | some p =>
      obtain ⟨line, rest⟩ := p
      obtain ⟨hpos, hdrop⟩ := rest_line hsplit
      have happ : r.rest = line ++ crlf ++ rest := (splitLine_eq_some hsplit).1
      have hline : r.rest.take line.length = line := by
        rw [happ, List.append_assoc, List.take_left]
      simp only [Option.map_some, hline, scanBulk]
      cases string2ll line with
      | none => exact ⟨rfl, rfl⟩
      | some len =>
          simp only
          by_cases hrange : len < -1
          · rw [if_pos hrange, if_pos hrange]
            exact ⟨rfl, rfl⟩
          rw [if_neg hrange, if_neg hrange]
          by_cases hnil : len = -1
          · rw [if_pos hnil, if_pos hnil]
            refine ⟨rfl, ?_⟩
            have hleaf := hr.leaf hroom hidx hb .nil (by omega) hpos
            rwa [hdrop] at hleaf
          rw [if_neg hnil, if_neg hnil, Scanner.block]
          have hrest : rest.length + (r.pos + line.length + 2) = r.buf.length := by
            rw [← hdrop, List.length_drop]
            omega
          by_cases hlen : len.toNat + 2 ≤ rest.length
          · have hstr : r.rest.drop (line.length + 2) = rest := by
              rw [← hdrop, RedisReader.rest, List.drop_drop, Nat.add_assoc]
            have hbody : (rest.take (len.toNat + 2)).take len.toNat = rest.take len.toNat := by
              rw [List.take_take, Nat.min_eq_left (by omega)]
            have hbad : (type = .verb ∧
                (len < 4 ∨ (rest.take (len.toNat + 2))[3]? ≠ some 58)) ↔
                type = .verb ∧ (len < 4 ∨ r.rest[line.length + 5]? ≠ some 58) := by
              refine and_congr_right fun _ => or_congr_right' fun h => ?_
              rw [List.getElem?_take_of_lt (by omega), ← hstr, List.getElem?_drop]
            rw [if_pos (by omega), if_pos hlen, bulkNode, hstr, hbody]
            by_cases hverb : type = .verb ∧ (len < 4 ∨ r.rest[line.length + 5]? ≠ some 58)
            · rw [if_pos hverb, if_pos (hbad.mpr hverb)]
              exact ⟨rfl, rfl⟩
            · rw [if_neg hverb, if_neg (hbad.not.mpr hverb)]
              refine ⟨rfl, ?_⟩
              have hend : r.pos + (line.length + 2 + (len.toNat + 2)) ≤
                  r.buf.length := by omega
              have hleaf := hr.leaf hroom hidx hb (bulkReply type (rest.take len.toNat))
                (by omega) hend
              have hafter : r.buf.drop (r.pos + (line.length + 2 + (len.toNat + 2))) =
                  rest.drop (len.toNat + 2) := by
                rw [← hdrop, List.drop_drop, ← Nat.add_assoc, ← Nat.add_assoc r.pos]
              rwa [hafter] at hleaf
          · rw [if_neg (by omega), if_neg hlen]
            exact ⟨rfl, hr⟩

theorem processAggregateItem_follows (hr : InReply maxelements r fs b)
    (hroom : Room fs b.length) (hstack : r.stack = cur :: frameTasks fs)
    (hidx : cur.idx = position fs) {type : AggregateType}
    (htype : cur.type = some (.aggregate type)) (hb : b = byte :: r.rest) :
    Follows maxelements fs b (processAggregateItem type cur (frameTasks fs) r)
      (scanTyped strtod maxelements (.aggregate type) r.rest) := by
  obtain ⟨hr', htasks⟩ := hr.grow hstack
  rw [← redisReaderGrow_rest r] at hb ⊢
  rw [processAggregateItem]
  generalize redisReaderGrow r = r' at hr' htasks hb
  obtain rfl : r'.maxelements = maxelements := hr'.maxelements
  simp only [readLine_eq (hroom.length_rest hb), scanTyped, Scanner.after]
  cases hsplit : splitLine r'.rest with
  | none => exact ⟨rfl, hr'⟩
  | some p =>
      obtain ⟨line, rest⟩ := p
      obtain ⟨hpos, hdrop⟩ := rest_line hsplit
      simp only [Option.map_some, Scanner.block, Nat.zero_le, if_true, aggregateNode]
      cases string2ll line with
      | none => exact ⟨rfl, rfl⟩
      | some elements =>
          simp only
          by_cases hrange : elements < -1 ∨ 0 < r'.maxelements ∧ r'.maxelements < elements
          · rw [if_pos hrange, if_pos hrange]
            exact ⟨rfl, rfl⟩
          rw [if_neg hrange, if_neg hrange]
          by_cases hnil : elements = -1
          · rw [if_pos hnil, if_pos hnil]
            refine ⟨rfl, ?_⟩
            have hleaf := hr'.leaf hroom hidx hb .nil (by omega) hpos
            rw [hdrop] at hleaf
            exact hleaf
          rw [if_neg hnil, if_neg hnil]
          generalize (if type = .map then elements * 2 else elements) = n
          rw [createArrayObject]
          by_cases hlarge : (2 ^ 64 - 1) / 8 < n
          · rw [if_pos hlarge, if_pos hlarge]
            exact ⟨rfl, rfl⟩
          rw [if_neg hlarge, if_neg hlarge]
          simp only
          by_cases hn : 0 < n
          · rw [if_pos hn, if_pos hn]
            refine ⟨rfl, ?_⟩
            have hparent := hr'.parent hidx htype hn htasks hpos
            rw [hdrop] at hparent
            exact hparent
          · rw [if_neg hn, if_neg hn, Int.toNat_of_nonpos (by omega)]
            refine ⟨rfl, ?_⟩
            have hleaf := hr'.leaf hroom hidx hb (.aggregate type []) (by omega) hpos
            rw [hdrop] at hleaf
            exact hleaf

/-- An item is processed as it is scanned, once its type is known. -/
theorem processTypedItem_follows (hr : InReply maxelements r fs b) (hroom : Room fs b.length)
    (hstack : r.stack = cur :: frameTasks fs) (hidx : cur.idx = position fs) {type : ItemType}
    (htype : cur.type = some type) (hb : b = byte :: r.rest) :
    Follows maxelements fs b (processTypedItem strtod type cur (frameTasks fs) r)
      (scanTyped strtod maxelements type r.rest) := by
  cases type with
  | line type => exact processLineItem_follows hr hroom hidx hb type
  | bulk type => exact processBulkItem_follows hr hroom hidx hb type
  | aggregate type => exact processAggregateItem_follows hr hroom hstack hidx htype hb

variable (strtod) in
/-- The type byte is read, or was read before. -/
theorem processItem_typed (hr : InReply maxelements r fs b) {rest : Bytes}
    (hb : b = byte :: rest) {type : ItemType} (hbyte : itemType byte = some type) :
    ∃ cur r', processItem strtod r = processTypedItem strtod type cur (frameTasks fs) r' ∧
      InReply maxelements r' fs b ∧ r'.stack = cur :: frameTasks fs ∧ cur.idx = position fs ∧
        cur.type = some type ∧ b = byte :: r'.rest := by
  obtain ⟨cur, hstack, hidx, hunread⟩ := hr.stack
  rw [processItem, hstack]
  simp only
  cases htype : cur.type with
  | some type' =>
      obtain ⟨byte', hbyte', hb'⟩ := hunread.head htype
      obtain ⟨rfl, -⟩ := List.cons.inj (hb.symm.trans hb')
      obtain rfl := Option.some.inj (hbyte'.symm.trans hbyte)
      exact ⟨cur, r, rfl, hr, hstack, hidx, htype, hb'⟩
  | none =>
      rw [ReadTask.Unread, htype] at hunread
      have hrest : r.rest = byte :: rest := Eq.trans hunread.symm hb
      have hlen : r.rest.length = r.buf.length - r.pos := List.length_drop
      have htail : r.buf.drop (r.pos + 1) = rest := by
        rw [← List.drop_drop, ← RedisReader.rest, hrest, List.drop_succ_cons, List.drop_zero]
      rw [hrest, List.length_cons] at hlen
      rw [readBytes, if_pos (by omega), hrest]
      simp only [List.take_succ_cons, List.take_zero, hbyte]
      have hread : b = byte :: r.buf.drop (r.pos + 1) := by rw [htail, hb]
      refine ⟨{ cur with type := some type }, { r with
        pos := r.pos + 1
        stack := { cur with type := some type } :: frameTasks fs }, rfl, ?_, rfl, hidx,
          rfl, hread⟩
      exact ⟨⟨hr.err, by simp only; omega, hr.tasks, hr.maxelements⟩, hr.reply,
        ⟨_, rfl, hidx, byte, hbyte, hread⟩, hr.depth⟩

variable (strtod) in
/-- **An item is processed as it is scanned.** -/
theorem processItem_follows (hr : InReply maxelements r fs b) (hroom : Room fs b.length) :
    Follows maxelements fs b (processItem strtod r) (scanItem strtod maxelements b) := by
  have hlen : r.rest.length = r.buf.length - r.pos := List.length_drop
  -- while the type of an item is not known, all of it is in the buffer
  have huntyped (h : ∀ byte type rest, itemType byte = some type → b ≠ byte :: rest) :
      ∃ cur, r.stack = cur :: frameTasks fs ∧ cur.type = none ∧ b = r.rest := by
    obtain ⟨cur, hstack, -, hunread⟩ := hr.stack
    cases htype : cur.type with
    | some type =>
        obtain ⟨byte, hbyte, hb⟩ := hunread.head htype
        exact absurd hb (h byte type _ hbyte)
    | none =>
        rw [ReadTask.Unread, htype] at hunread
        exact ⟨cur, hstack, htype, hunread⟩
  cases hb : b with
  | nil =>
      obtain ⟨cur, hstack, htype, hrest⟩ := huntyped (by rw [hb]; rintro byte type rest - ⟨⟩)
      rw [← hrest, hb] at hlen
      rw [processItem, hstack]
      simp only [htype]
      rw [readBytes, if_neg (by rw [← hlen]; decide)]
      exact ⟨rfl, hb ▸ hr⟩
  | cons byte rest =>
      rw [scanItem, Scanner.after, Scanner.uncons]
      simp only
      cases hbyte : itemType byte with
      | none =>
          obtain ⟨cur, hstack, htype, hrest⟩ := huntyped (by
            rintro byte' type rest' hbyte' h
            obtain ⟨rfl, -⟩ := List.cons.inj (hb.symm.trans h)
            rw [hbyte] at hbyte'
            cases hbyte')
          rw [← hrest, hb, List.length_cons] at hlen
          rw [processItem, hstack]
          simp only [htype]
          rw [readBytes, if_pos (by omega), ← hrest, hb]
          simp only [List.take_succ_cons, List.take_zero, hbyte]
          exact ⟨rfl, rfl⟩
      | some type =>
          obtain ⟨cur, r', heq, hr', hstack, hidx, htype, hb'⟩ :=
            processItem_typed strtod hr hb hbyte
          obtain rfl : rest = r'.rest := (List.cons.inj (hb.symm.trans hb')).2
          rw [heq, ← hb]
          exact processTypedItem_follows hr' hroom hstack hidx htype hb'

end Process

end Hiredis
