import RcppRedis.Hiredis.Format
import RcppRedis.Hiredis.Reply

/-!
# The reader of replies

`read.c`.  Bytes from the socket are appended to a buffer; `redisReaderGetReply` takes one item
after the other from it, and hands out a reply when it is complete.  What is missing may come
at any time, so all that the reader knows stands in `RedisReader`: how far the buffer is read,
the stack of tasks that are not complete, and the object built so far.

An item has a type byte and is then a line, a bulk string, or the head of an aggregate.  A task
whose type byte is read keeps the type until the rest of the item is there.

The asserts of the creators are left out, as `NDEBUG` is defined.  Memory is always there, but
for the vector of an aggregate that is too large to be asked for.

## Main definitions

* `Object` — a reply that is being built.
* `RedisReader`, `redisReaderFeed`, `redisReaderGetReply` — the reader.
* `string2ll` — how it reads a number.
-/

namespace Hiredis

open Bytes

/-! ## Objects -/

/-- A `redisReply` that is being built.  An element that is not there yet is the null
pointer. -/
inductive Object where
  | text (type : TextType) (str : Bytes)
  | number (type : NumberType) (integer : ℤ)
  | nil
  | aggregate (type : AggregateType) (element : List (Option Object))

/-- `parent->element[idx] = r`, where the path leads from the root to the element.  The empty
path is the root itself. -/
def Object.put : List ℤ → Object → Option Object → Option Object
  | [], o, _ => some o
  | i :: path, o, some (.aggregate type element) =>
      some (.aggregate type
        (if i < 0 then element else element.modify i.toNat (Object.put path o)))
  | _ :: _, _, slot => slot

namespace Reply

mutual

/-- A reply as the object that it is. -/
def object : Reply → Object
  | .text type str => .text type str
  | .number type n => .number type n
  | .nil => .nil
  | .aggregate type element => .aggregate type (objects element)

/-- Replies as the elements of an object. -/
def objects : List Reply → List (Option Object)
  | [] => []
  | r :: rs => some r.object :: objects rs

end

theorem objects_eq_map (rs : List Reply) : objects rs = rs.map fun r => some r.object := by
  induction rs with
  | nil => rfl
  | cons r rs ih => rw [objects, ih, List.map_cons]

end Reply

mutual

/-- The reply that an object is, if all of its elements are there. -/
def Object.reply : Object → Option Reply
  | .text type str => some (.text type str)
  | .number type n => some (.number type n)
  | .nil => some .nil
  | .aggregate type element => (Object.replies element).map (.aggregate type)

/-- The reply of an element. -/
def Object.slot : Option Object → Option Reply
  | none => none
  | some o => o.reply

/-- The replies of the elements of an object. -/
def Object.replies : List (Option Object) → Option (List Reply)
  | [] => some []
  | o :: os => (Object.slot o).bind fun r => (Object.replies os).map (r :: ·)

end

theorem reply_object (r : Reply) : r.object.reply = some r := by
  induction r with
  | text type str => rfl
  | number type n => rfl
  | nil => rfl
  | aggregate type element ih =>
      have hall : Object.replies (Reply.objects element) = some element := by
        induction element with
        | nil => rfl
        | cons r rs ihrs =>
            have hr := ih r List.mem_cons_self
            have hrs := ihrs fun r hr => ih r (List.mem_cons_of_mem _ hr)
            rw [Reply.objects, Object.replies, Object.slot, hr, hrs]
            rfl
      rw [Reply.object, Object.reply, hall]
      rfl

/-! ## Errors -/

/-- The `err` field of a reader or a context. -/
inductive ErrorType where
  | io
  | other
  | eof
  | protocol
  | oom
  | timeout
  deriving DecidableEq, Repr

/-- The `err` and the `errstr` that are set together. -/
structure Failure where
  type : ErrorType
  errstr : Bytes
  deriving DecidableEq, Repr

/-- An error's text takes at most 127 bytes. -/
def Failure.truncate (e : Failure) : Failure := { e with errstr := e.errstr.take 127 }

/-- A lower-case hexadecimal digit. -/
def hexDigit (d : ℕ) : UInt8 := UInt8.ofNat (if d < 10 then 48 + d else 87 + d)

/-- `chrtos`: a byte as it would stand in a C literal. -/
def chrtos (byte : UInt8) : Bytes :=
  if byte = 92 ∨ byte = 34 then [34, 92, byte, 34]
  else if byte = 10 then ascii "\"\\n\""
  else if byte = 13 then ascii "\"\\r\""
  else if byte = 9 then ascii "\"\\t\""
  else if byte = 7 then ascii "\"\\a\""
  else if byte = 8 then ascii "\"\\b\""
  else if 32 ≤ byte.toNat ∧ byte.toNat ≤ 126 then [34, byte, 34]
  else ascii "\"\\x" ++ [hexDigit (byte.toNat / 16), hexDigit (byte.toNat % 16), 34]

/-- A protocol error. -/
def protocolError (text : String) : Failure := ⟨.protocol, ascii text⟩

/-- The error of `__redisReaderSetErrorProtocolByte`. -/
def protocolByteError (byte : UInt8) : Failure :=
  ⟨.protocol, ascii "Protocol error, got " ++ chrtos byte ++ ascii " as reply type byte"⟩

/-- The error of `__redisReaderSetErrorOOM`. -/
def oomError : Failure := ⟨.oom, ascii "Out of memory"⟩

/-! ## Numbers and lines -/

/-- The loop of `string2ll`, with the value so far: the value, and the bytes from the first one
that is no digit. -/
def string2llLoop : ℕ → Bytes → Option (ℕ × Bytes)
  | v, [] => some (v, [])
  | v, c :: s =>
      if 48 ≤ c.toNat ∧ c.toNat ≤ 57 then
        if v > (2 ^ 64 - 1) / 10 then none
        else if v * 10 > 2 ^ 64 - 1 - (c.toNat - 48) then none
        else string2llLoop (v * 10 + (c.toNat - 48)) s
      else some (v, c :: s)

/-- `string2ll` from the first digit on. -/
def string2llDigits (negative : Bool) : Bytes → Option ℤ
  | [] => none
  | c :: s =>
      if 49 ≤ c.toNat ∧ c.toNat ≤ 57 then
        match string2llLoop (c.toNat - 48) s with
        | some (v, []) =>
            if negative then if v > 2 ^ 63 then none else some (-v)
            else if v > 2 ^ 63 - 1 then none else some v
        | _ => none
      else none

/-- `string2ll` -/
def string2ll : Bytes → Option ℤ
  | [48] => some 0
  | 45 :: s => string2llDigits true s
  | s => string2llDigits false s

/-- The loops of `seekNewline` with so many positions left. -/
def seekNewlineLoop : ℕ → Bytes → Option ℕ
  | left + 1, c :: d :: s =>
      if c = 13 ∧ d = 10 then some 0 else (seekNewlineLoop left (d :: s)).map (· + 1)
  | _, _ => none

/-- `seekNewline`: how many bytes stand before the first `\r\n`.  The length is counted in
`int`. -/
def seekNewline (s : Bytes) : Option ℕ := seekNewlineLoop (toInt32 (s.length - 1)).toNat s

/-! ## Items -/

/-- The types of an item that is a line. -/
inductive LineType where
  | error
  | status
  | integer
  | double
  | nil
  | bool
  deriving DecidableEq, Repr

/-- The types of an item that is a bulk string. -/
inductive BulkType where
  | string
  | verb
  deriving DecidableEq, Repr

/-- The type of an item. -/
inductive ItemType where
  | line (type : LineType)
  | bulk (type : BulkType)
  | aggregate (type : AggregateType)
  deriving DecidableEq, Repr

/-- The type byte of an item. -/
def itemType (byte : UInt8) : Option ItemType :=
  if byte = 45 then some (.line .error)
  else if byte = 43 then some (.line .status)
  else if byte = 58 then some (.line .integer)
  else if byte = 44 then some (.line .double)
  else if byte = 95 then some (.line .nil)
  else if byte = 36 then some (.bulk .string)
  else if byte = 42 then some (.aggregate .array)
  else if byte = 37 then some (.aggregate .map)
  else if byte = 126 then some (.aggregate .set)
  else if byte = 35 then some (.line .bool)
  else if byte = 61 then some (.bulk .verb)
  else if byte = 62 then some (.aggregate .push)
  else none

/-- A `strcasecmp` with a literal in lower case. -/
def strcasecmp (s : Bytes) (t : String) : Bool :=
  (s.map fun c => if 65 ≤ c.toNat ∧ c.toNat ≤ 90 then c + 32 else c) = ascii t

/-- The exponent is full and the fraction is not zero. -/
def isnan (d : Double) : Bool := !d.isFinite && d.fraction ≠ 0

section Reader

/- What `strtod` makes of a string, and what it leaves of it. -/
variable (strtod : Bytes → Double × Bytes)

/-- What `processLineItem` makes of a line. -/
def lineReply : LineType → Bytes → Except Failure Reply
  | .integer, line =>
      match string2ll line with
      | none => .error (protocolError "Bad integer value")
      | some v => .ok (.number .integer v)
  | .double, line =>
      let buf := cString line
      if 326 ≤ line.length then .error (protocolError "Double value is too large")
      else if strcasecmp buf ",inf" ∨ strcasecmp buf ",-inf" then .ok (.text .double line)
      else if buf = [] ∨ (strtod buf).2 ≠ [] ∨ isnan (strtod buf).1 then
        .error (protocolError "Bad double value")
      else .ok (.text .double line)
  | .nil, _ => .ok .nil
  | .bool, line => .ok
      (.number .bool (if line.head? = some 116 ∨ line.head? = some 84 then 1 else 0))
  | .status, line => .ok (.text .status line)
  | .error, line => .ok (.text .error line)

/-- What `createStringObject` makes of a bulk string.  The type of a verbatim string takes four
bytes. -/
def bulkReply : BulkType → Bytes → Reply
  | .string, str => .text .string str
  | .verb, str => .text .verb (str.drop 4)

/-- `createArrayObject`, whose vector may be too large. -/
def createArrayObject (type : AggregateType) (elements : ℤ) : Option Object :=
  if (2 ^ 64 - 1) / 8 < elements then none
  else some (.aggregate type (List.replicate elements.toNat none))

/-! ## The reader -/

/-- A `redisReadTask`.  The parent of a task is the task below it. -/
structure ReadTask where
  /-- `none` is `-1` -/
  type : Option ItemType := none
  elements : ℤ := -1
  /-- the index in the parent -/
  idx : ℤ
  /-- the path to the object -/
  obj : List ℤ := []

/-- A `redisReader`.  `len` is the length of the buffer. -/
structure RedisReader where
  err : Option Failure := none
  buf : Bytes := []
  pos : ℕ := 0
  maxelements : ℤ := 2 ^ 32 - 1
  /-- how many tasks are allocated -/
  tasks : ℕ := 9
  /-- `task[ridx]`, ..., `task[0]` -/
  stack : List ReadTask := []
  reply : Option Object := none

/-- `__redisReaderSetError` -/
def redisReaderSetError (r : RedisReader) (e : Failure) : RedisReader :=
  { r with
    reply := none
    buf := []
    pos := 0
    stack := []
    err := some e.truncate }

/-- The bytes that are not read yet. -/
def RedisReader.rest (r : RedisReader) : Bytes := r.buf.drop r.pos

/-- `readBytes` -/
def readBytes (r : RedisReader) (bytes : ℕ) : Option (Bytes × RedisReader) :=
  if bytes ≤ r.buf.length - r.pos then some
    (r.rest.take bytes, { r with pos := r.pos + bytes })
  else none

/-- `readLine` -/
def readLine (r : RedisReader) : Option (Bytes × RedisReader) :=
  match seekNewline r.rest with
  | some len => some (r.rest.take len, { r with pos := r.pos + len + 2 })
  | none => none

/-- `moveToNextTask` -/
def moveToNextTask : List ReadTask → List ReadTask
  | [] => []
  | [_] => []
  | cur :: prv :: below =>
      if cur.idx = prv.elements - 1 then moveToNextTask (prv :: below)
      else { cur with type := none, elements := -1, idx := toInt32 (cur.idx + 1) } ::
        prv :: below

/-- The path to the object of a task: an element of its parent, or the root. -/
def objectPath (cur : ReadTask) : List ReadTask → List ℤ
  | [] => []
  | parent :: _ => parent.obj ++ [cur.idx]

/-- A creator puts the object where its task says, and the root is kept as the reply. -/
def createObject (r : RedisReader) (cur : ReadTask) (below : List ReadTask) (o : Object) :
    RedisReader :=
  { r with reply := Object.put (objectPath cur below) o r.reply }

/-- `processLineItem`, with the current task: whether it is `REDIS_OK`. -/
def processLineItem (type : LineType) (cur : ReadTask) (below : List ReadTask)
    (r : RedisReader) : Bool × RedisReader :=
  match readLine r with
  | none => (false, r)
  | some (line, r) =>
      match lineReply strtod type line with
      | .error e => (false, redisReaderSetError r e)
      | .ok reply =>
          (true, { createObject r cur below reply.object with
            stack := moveToNextTask (cur :: below) })

/-- `processBulkItem`.  Nothing is read before all of it is there. -/
def processBulkItem (type : BulkType) (cur : ReadTask) (below : List ReadTask)
    (r : RedisReader) : Bool × RedisReader :=
  match seekNewline r.rest with
  | none => (false, r)
  | some n =>
      match string2ll (r.rest.take n) with
      | none => (false, redisReaderSetError r (protocolError "Bad bulk string length"))
      | some len =>
          if len < -1 then
            (false, redisReaderSetError r (protocolError "Bulk string length out of range"))
          else if len = -1 then
            (true, { createObject r cur below .nil with
              pos := r.pos + (n + 2)
              stack := moveToNextTask (cur :: below) })
          else
            let bytelen := n + 2 + (len.toNat + 2)
            if r.pos + bytelen ≤ r.buf.length then
              if type = .verb ∧ (len < 4 ∨ r.rest[n + 5]? ≠ some 58) then
                (false, redisReaderSetError r (protocolError
                  "Verbatim string 4 bytes of content type are missing or incorrectly encoded."))
              else
                let str := (r.rest.drop (n + 2)).take len.toNat
                (true, { createObject r cur below (bulkReply type str).object with
                  pos := r.pos + bytelen
                  stack := moveToNextTask (cur :: below) })
            else (false, r)

/-- `redisReaderGrow` where it is needed. -/
def redisReaderGrow (r : RedisReader) : RedisReader :=
  if r.stack.length = r.tasks then { r with tasks := r.tasks + 9 } else r

/-- `processAggregateItem` -/
def processAggregateItem (type : AggregateType) (cur : ReadTask) (below : List ReadTask)
    (r : RedisReader) : Bool × RedisReader :=
  let r := redisReaderGrow r
  match readLine r with
  | none => (false, r)
  | some (line, r) =>
      match string2ll line with
      | none => (false, redisReaderSetError r (protocolError "Bad multi-bulk length"))
      | some elements =>
          if elements < -1 ∨ 0 < r.maxelements ∧ r.maxelements < elements then
            (false, redisReaderSetError r (protocolError "Multi-bulk length out of range"))
          else if elements = -1 then
            (true, { createObject r cur below .nil with
              stack := moveToNextTask (cur :: below) })
          else
            let elements := if type = .map then elements * 2 else elements
            match createArrayObject type elements with
            | none => (false, redisReaderSetError r oomError)
            | some obj =>
                if 0 < elements then
                  let cur' := { cur with elements := elements, obj := objectPath cur below }
                  (true, { createObject r cur below obj with
                    stack := { idx := 0 } :: cur' :: below })
                else
                  (true, { createObject r cur below obj with
                    stack := moveToNextTask (cur :: below) })

/-- The second half of `processItem`: the type of the current task is known. -/
def processTypedItem (type : ItemType) (cur : ReadTask) (below : List ReadTask)
    (r : RedisReader) : Bool × RedisReader :=
  match type with
  | .line type => processLineItem strtod type cur below r
  | .bulk type => processBulkItem type cur below r
  | .aggregate type => processAggregateItem type cur below r

/-- `processItem` -/
def processItem (r : RedisReader) : Bool × RedisReader :=
  match r.stack with
  | [] => (false, r)
  | cur :: below =>
      match cur.type with
      | some type => processTypedItem strtod type cur below r
      | none =>
          match readBytes r 1 with
          | some ([byte], r) =>
              match itemType byte with
              | none => (false, redisReaderSetError r (protocolByteError byte))
              | some type =>
                  let cur := { cur with type := some type }
                  processTypedItem strtod type cur below { r with stack := cur :: below }
          | _ => (false, r)

/-- The loop of `redisReaderGetReply`.  Every item takes at least one byte, so the bytes bound
the rounds. -/
def processItems : ℕ → RedisReader → RedisReader
  | 0, r => r
  | fuel + 1, r =>
      if r.stack = [] then r
      else
        match processItem strtod r with
        | (true, r) => processItems fuel r
        | (false, r) => r

/-- `sdsrange` -/
def sdsrange (s : Bytes) (start stop : ℤ) : Bytes :=
  if s = [] then s
  else
    let len : ℤ := s.length
    let start := if start < 0 then max (len + start) 0 else start
    let stop := if stop < 0 then max (len + stop) 0 else stop
    let newlen := if start > stop then 0 else stop - start + 1
    if newlen = 0 then []
    else if start ≥ len then []
    else if stop ≥ len then (s.drop start.toNat).take
      (if start > len - 1 then 0 else len - start).toNat
    else (s.drop start.toNat).take newlen.toNat

/-- `redisReaderFeed`: whether it is `REDIS_OK`. -/
def redisReaderFeed (r : RedisReader) (buf : Bytes) : Bool × RedisReader :=
  if r.err.isSome then (false, r) else (true, { r with buf := r.buf ++ buf })

/-- `redisReaderGetReply`: `none` is `REDIS_ERR`, and else the reply, if there is one. -/
def redisReaderGetReply (r : RedisReader) : Option (Option Object) × RedisReader :=
  if r.err.isSome then (none, r)
  else if r.buf = [] then (some none, r)
  else
    let r := if r.stack = [] then { r with stack := [{ idx := -1 }] } else r
    let r := processItems strtod (r.rest.length + 1) r
    if r.err.isSome then (none, r)
    else
      let r :=
        if 1024 ≤ r.pos then { r with buf := sdsrange r.buf r.pos (-1), pos := 0 } else r
      if r.stack = [] then (some r.reply, { r with reply := none }) else (some none, r)

/-- The replies that `redisReaderGetReply` hands out until there is none. -/
def redisReaderGetReplies : ℕ → RedisReader → List Object × RedisReader
  | 0, r => ([], r)
  | fuel + 1, r =>
      match redisReaderGetReply strtod r with
      | (some (some o), r) =>
          let (os, r) := redisReaderGetReplies fuel r
          (o :: os, r)
      | (_, r) => ([], r)

/-- Pieces of a stream are fed one after the other, and after each all replies are taken. -/
def feedPieces : List Bytes → RedisReader → List Object × RedisReader
  | [], r => ([], r)
  | b :: pieces, r =>
      let r := (redisReaderFeed r b).2
      let (os, r) := redisReaderGetReplies strtod (r.rest.length + 1) r
      let (os', r) := feedPieces pieces r
      (os ++ os', r)

end Reader

end Hiredis
