import RcppRedis.Redis.Code

/-!
# The private part of the class

`redisCommandNULLSafe`, `extractReply`, `checkReplyType` and their kin, and the few
ways in which the methods read a reply.  A method that reads `reply->str` as a C
string goes through `stringOf`; one that copies bytes goes through `memcpy`, which
faults where the copy leaves its source or its destination.

Methods that read their reply alike share a definition here, applied to the reply's
pointer: `stringValue`, `intValue`, `popValue` and so on.  `thenFree` frees the reply
after its value was read, as all methods but one do.
-/

namespace RcppRedis

open Bytes Hiredis Interact Code

variable {O : Type} (R : Runtime O)

/-! ## Asking for a reply -/

/-- The message of `nullReplyCheck`, spelled as in the source. -/
def nullReplyMessage : Bytes :=
  ascii "Recieved NULL reply; potential connection loss with Redis"

/-- `nullReplyCheck` -/
def nullReplyCheck : Option Pointer → Code Pointer
  | none => stop nullReplyMessage
  | some reply => pure reply

/-- A request whose reply is checked for NULL. -/
def requestNULLSafe (q : Request) : Code Pointer := do
  let reply ← request q
  nullReplyCheck reply

/-- `redisCommandNULLSafe` -/
def redisCommandNULLSafe (format : Bytes) (ap : List VaArg) : Code Pointer :=
  requestNULLSafe (.format format ap)

/-- `redisCommandArgvNULLSafe` -/
def redisCommandArgvNULLSafe (argv : List Bytes) : Code Pointer := requestNULLSafe (.argv argv)

/-! ## Reply types -/

/-- The enumeration of reply types that the class knows. -/
inductive ReplyType where
  | string
  | status
  | integer
  | error
  | nil
  | array
  deriving DecidableEq, Repr

/-- `replyTypeToInteger`; `none` is `-1`. -/
def replyTypeToInteger : Reply → Option ReplyType
  | .string _ => some .string
  | .status _ => some .status
  | .integer _ => some .integer
  | .error _ => some .error
  | .nil => some .nil
  | .array _ => some .array
  | _ => none

/-- `replyTypeToString` -/
def replyTypeToString (reply : Reply) : Bytes :=
  match replyTypeToInteger reply with
  | some .string => ascii "string"
  | some .status => ascii "status"
  | some .integer => ascii "integer"
  | some .error => ascii "error"
  | some .nil => ascii "nil"
  | some .array => ascii "array"
  | none => ascii "unknown"

/-- `checkReplyType` -/
def checkReplyType (reply : Pointer) (replyType : ReplyType) : Code Unit :=
  if replyTypeToInteger reply.node = some replyType then pure ()
  else stop (ascii "Wrong reply type, got " ++ replyTypeToString reply.node)

/-! ## Extracting a reply tree -/

mutual

/-- `extract_reply`, at the node with the given position. -/
def extractReplyAt (id : ℕ) (path : List ℕ) : Reply → Code (SEXP O)
  | .text .string str => pure (.str [.ofBuffer str])
  | .text .status str => pure (.str [.ofBuffer str])
  | .text .error str => do
      freeReplyObject ⟨id, path, .text .error str⟩
      stop (cString str)
  | .number .integer n => pure (.real [.ofInt n])
  | .nil => pure .null
  | .aggregate .array element => do
      let retlist ← extractArrayAt id path 0 element
      pure (.list retlist none)
  | .text .double _ => stop (ascii "Unknown type")
  | .text .verb _ => stop (ascii "Unknown type")
  | .number .bool _ => stop (ascii "Unknown type")
  | .aggregate .map _ => stop (ascii "Unknown type")
  | .aggregate .set _ => stop (ascii "Unknown type")
  | .aggregate .push _ => stop (ascii "Unknown type")

/-- The loop of `extract_array`, from the child with the given index on. -/
def extractArrayAt (id : ℕ) (path : List ℕ) : ℕ → List Reply → Code (List (SEXP O))
  | _, [] => pure []
  | i, node :: rest => do
      let x ← extractReplyAt id (path ++ [i]) node
      let xs ← extractArrayAt id path (i + 1) rest
      pure (x :: xs)

end

/-- `extract_reply` -/
def extractReply (reply : Pointer) : Code (SEXP O) :=
  extractReplyAt reply.id reply.path reply.node

/-! ## Reading fields -/

/-- `std::string(reply->str)`.  The language leaves the string of a null pointer undefined;
libstdc++ throws `std::logic_error`. -/
def stringOf (reply : Pointer) : Code CStr :=
  match reply.node.str? with
  | none => .fault .nullStr
  | some str => pure (.ofBuffer str)

/-- `reply->element[i]`, for an `int` index. -/
def elementAt (reply : Pointer) (i : ℤ) : Code Pointer :=
  if 0 ≤ i then
    match reply.node.element[i.toNat]? with
    | none => .fault .elementRange
    | some node => pure ⟨reply.id, reply.path ++ [i.toNat], node⟩
  else .fault .elementRange

/-- The `size_t` that an `int` is converted to. -/
def toSize (n : ℤ) : ℕ := if n < 0 then 0x10000000000000000 - n.natAbs else n.natAbs

/-- `memcpy(dst, reply->str, n)` into `size` bytes.  The buffer behind `str` has a NUL
after its `len` bytes. -/
def memcpy (size : ℕ) (reply : Pointer) (n : ℕ) : Code Bytes :=
  if n = 0 then pure []
  else
    match reply.node.str? with
    | none => .fault .nullStr
    | some str =>
        if str.length + 1 < n then .fault .memcpySource
        else if size < n then .fault .memcpyDestination
        else pure ((str ++ [0]).take n)

/-- `int nc = reply->len; Rcpp::RawVector res(nc); memcpy(res.begin(), reply->str, nc);` -/
def rawOf (reply : Pointer) : Code Bytes :=
  let nc := toInt32 reply.node.len
  if nc < 0 then .raise .allocation else memcpy nc.natAbs reply (toSize nc)

/-- `int nc = reply->len; Rcpp::NumericVector x(nc/szdb); memcpy(x.begin(), reply->str, nc);`
where `szdb` is unsigned, and so is the quotient. -/
def numericOf (reply : Pointer) : Code (List Double) := do
  let nc := toInt32 reply.node.len
  let n := (nc % 0x100000000).toNat / 8
  let b ← memcpy (8 * n) reply (toSize nc)
  pure (Double.vectorOfBytes b)

/-- `R::unserializeFromRaw` -/
def unserializeFromRaw (res : Bytes) : Code (SEXP O) :=
  match R.unserializeFromRaw res with
  | none => .raise .unserialize
  | some obj => pure obj

/-- The object whose serialization a node holds. -/
def objectOf (reply : Pointer) : Code (SEXP O) := do
  let res ← rawOf reply
  unserializeFromRaw R res

/-- `(TYPEOF(s) == RAWSXP) ? s : R::serializeToRaw(s)` -/
def payload : SEXP O → Bytes
  | .raw x => x
  | s => R.serializeToRaw s

/-! ## What methods make of their reply

Each reads a reply and leaves it to its caller to free it. -/

/-- `reply->str`, whatever the reply's type. -/
def stringValue (reply : Pointer) : Code (SEXP O) := do
  let res ← stringOf reply
  pure (.str [res])

/-- The integer as an `int`. -/
def intValue (reply : Pointer) : Code (SEXP O) := do
  checkReplyType reply .integer
  pure (.int [toInt32 reply.node.integerField])

/-- The integer as a `double`. -/
def doubleOf (reply : Pointer) : Code Double := do
  checkReplyType reply .integer
  pure (.ofInt reply.node.integerField)

/-- The elements as strings, whatever the reply's type. -/
def stringsValue (reply : Pointer) : Code (SEXP O) := do
  let vec ← reply.children.mapM stringOf
  pure (.str vec)

/-- The elements as objects, whatever the reply's type. -/
def objectsValue (reply : Pointer) : Code (SEXP O) := do
  let x ← reply.children.mapM (objectOf R)
  pure (.list x none)

/-- NULL for a nil reply, and else the object in a string reply. -/
def popValue (reply : Pointer) : Code (SEXP O) :=
  if replyTypeToInteger reply.node = some .nil then pure .null
  else do
    checkReplyType reply .string
    objectOf R reply

/-- The elements as rows of a matrix.  The first element decides the number of columns,
and with it how much is copied from every element. -/
def rowsValue (reply : Pointer) : Code (SEXP O) := do
  checkReplyType reply .array
  let rows := reply.node.elements % 0x100000000
  let first ← elementAt reply 0
  let cols := first.node.len % 0x100000000
  -- The dimensions of a `NumericMatrix` are `int`s, and R refuses a negative one.
  if 0x80000000 ≤ rows then .raise .allocation
  else do
    let x ← (reply.children.take rows).mapM fun node => do
      checkReplyType node .string
      let v ← memcpy (8 * (cols / 8)) node cols
      pure (Double.vectorOfBytes v)
    pure (.matrix (cols / 8) x)

/-- Free a reply once its value has been read. -/
def thenFree {α : Type} (reply : Pointer) (x : Code α) : Code α := do
  let x ← x
  freeReplyObject reply
  pure x

end RcppRedis
