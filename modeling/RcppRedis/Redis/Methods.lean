import RcppRedis.Redis.Decode

/-!
# The methods of class `Redis`

Every public method, under its name in `Redis.cpp` and in that order.  What R sees of
a method's value is an `SEXP`: `wrap` of a `std::string` is a character vector, of an
`int` or `double` a numeric one.

Strings that come from R hold no NUL byte, which is what `CStr` says.
-/

namespace RcppRedis

open Bytes Hiredis Interact Code

variable {O : Type} (R : Runtime O)

/-! ## The constructor -/

/-- The reply to AUTH. -/
def authReply (reply : Pointer) : Code Unit :=
  if replyTypeToInteger reply.node = some .error then do
    freeReplyObject reply
    stop (ascii "Redis authentication error.")
  else freeReplyObject reply

/-- What `init` does with the context: its `errstr` if its `err` is set. -/
def connected (auth : CStr) : Option CStr → Code Unit
  | some errstr => stop (ascii "Redis connection error: " ++ errstr.bytes)
  | none =>
      if auth.bytes ≠ [] then do
        let reply ← redisCommandNULLSafe (ascii "AUTH " ++ auth.bytes) []
        authReply reply
      else pure ()

/-- `init`.  The constructor's timeout is a whole number of seconds. -/
def init (host : CStr) (port : ℤ) (auth : CStr) (timeout : ℤ) : Code Unit := do
  let errstr ← redisConnect host port (if timeout = 0 then none else some (timeout, 0))
  connected auth errstr

/-! ## Commands given as a string -/

def exec (cmd : Bytes) : Code (SEXP O) := do
  let reply ← redisCommandNULLSafe cmd []
  thenFree reply (extractReply reply)

def execv (cmd : List CStr) : Code (SEXP O) := do
  let reply ← redisCommandArgvNULLSafe (cmd.map CStr.bytes)
  thenFree reply (extractReply reply)

def ping : Code (SEXP O) := do
  let reply ← redisCommandNULLSafe (ascii "PING") []
  thenFree reply (extractReply reply)

def «exists» (key : CStr) : Code (SEXP O) := exec (ascii "EXISTS " ++ key.bytes)

/-- `std::to_string(static_cast<int32_t>(std::round(d)))` -/
def roundToString (d : Double) : Bytes :=
  if d.isFinite ∧ -0x80000000 ≤ d.round ∧ d.round < 0x80000000 then decimalInt d.round
  else decimalInt (R.castOutOfRange d).toInt

def expire (key : CStr) (seconds : Double) : Code (SEXP O) :=
  exec (ascii "EXPIRE " ++ key.bytes ++ ascii " " ++ roundToString R seconds)

/-- The command word is `EXPIRE` here too. -/
def pexpire (key : CStr) (milliseconds : Double) : Code (SEXP O) :=
  exec (ascii "EXPIRE " ++ key.bytes ++ ascii " " ++ roundToString R milliseconds)

def del (sv : List CStr) : Code (SEXP O) := do
  let cmd := sv.foldl (fun cmd s => cmd ++ (ascii " " ++ s.bytes)) (ascii "DEL")
  let reply ← redisCommandNULLSafe cmd []
  thenFree reply (extractReply reply)

/-! ## Serialized values -/

def set (key : CStr) (s : SEXP O) : Code (SEXP O) := do
  let x := payload R s
  let reply ← redisCommandNULLSafe (ascii "SET %s %b")
    [.cstr key.bytes, .buffer x, .size x.length]
  thenFree reply (stringValue reply)

/-- The reply of `get`; only nil is told apart. -/
def getValue (reply : Pointer) : Code (SEXP O) :=
  if replyTypeToInteger reply.node = some .nil then pure .null
  else objectOf R reply

def get (key : CStr) : Code (SEXP O) := do
  let reply ← redisCommandNULLSafe (ascii "GET %s") [.cstr key.bytes]
  thenFree reply (getValue R reply)

def hset (key field : CStr) (s : SEXP O) : Code (SEXP O) := do
  let x := payload R s
  let reply ← redisCommandNULLSafe (ascii "HSET %s %s %b")
    [.cstr key.bytes, .cstr field.bytes, .buffer x, .size x.length]
  thenFree reply (intValue reply)

/-- The reply is freed before its bytes are unserialized. -/
def hget (key field : CStr) : Code (SEXP O) := do
  let reply ← redisCommandNULLSafe (ascii "HGET %s %s") [.cstr key.bytes, .cstr field.bytes]
  let res ← thenFree reply (rawOf reply)
  unserializeFromRaw R res

def hexists (key field : CStr) : Code (SEXP O) := do
  let reply ← redisCommandNULLSafe (ascii "HEXISTS %s %s") [.cstr key.bytes, .cstr field.bytes]
  thenFree reply (intValue reply)

def hdel (key field : CStr) : Code (SEXP O) := do
  let reply ← redisCommandNULLSafe (ascii "HDEL %s %s") [.cstr key.bytes, .cstr field.bytes]
  thenFree reply (intValue reply)

def hlen (key : CStr) : Code (SEXP O) := do
  let reply ← redisCommandNULLSafe (ascii "HLEN %s") [.cstr key.bytes]
  thenFree reply (intValue reply)

def hkeys (key : CStr) : Code (SEXP O) := do
  let reply ← redisCommandNULLSafe (ascii "HKEYS %s") [.cstr key.bytes]
  thenFree reply (stringsValue reply)

/-- One round of the loop of `hgetall`: the name at `2*i` and the value at `2*i+1`, whose
index is an `int`. -/
def hgetallEntry (reply : Pointer) (i : ℕ) : Code (CStr × SEXP O) := do
  let name ← elementAt reply (2 * i : ℕ)
  let key ← stringOf name
  let value ← elementAt reply (toInt32 (2 * i + 1 : ℕ))
  let obj ← objectOf R value
  pure (key, obj)

/-- The reply of `hgetall`, whatever its type. -/
def hgetallValue (reply : Pointer) : Code (SEXP O) := do
  let vec ← (List.range (reply.node.elements / 2)).mapM (hgetallEntry R reply)
  pure (.list (vec.map Prod.snd) (some (vec.map Prod.fst)))

def hgetall (key : CStr) : Code (SEXP O) := do
  let reply ← redisCommandNULLSafe (ascii "HGETALL %s") [.cstr key.bytes]
  thenFree reply (hgetallValue R reply)

def sadd (key : CStr) (s : SEXP O) : Code (SEXP O) := do
  let reply ← redisCommandArgvNULLSafe [ascii "SADD", key.bytes, payload R s]
  thenFree reply (extractReply reply)

def srem (key : CStr) (s : SEXP O) : Code (SEXP O) := do
  let reply ← redisCommandArgvNULLSafe [ascii "SREM", key.bytes, payload R s]
  thenFree reply (extractReply reply)

def smembers (key : CStr) : Code (SEXP O) := do
  let reply ← redisCommandNULLSafe (ascii "SMEMBERS %s") [.cstr key.bytes]
  thenFree reply (objectsValue R reply)

def keys (regexp : CStr) : Code (SEXP O) := do
  let reply ← redisCommandNULLSafe (ascii "KEYS %s") [.cstr regexp.bytes]
  thenFree reply (stringsValue reply)

/-! ## Serialized lists -/

def ltrim (key : CStr) (start «end» : Int32) : Code (SEXP O) := do
  let reply ← redisCommandNULLSafe (ascii "LTRIM %s %d %d")
    [.cstr key.bytes, .int start.toInt, .int «end».toInt]
  thenFree reply (extractReply reply)

def lrem (key : CStr) (count : Int32) (s : SEXP O) : Code (SEXP O) := do
  let x := payload R s
  let reply ← redisCommandNULLSafe (ascii "LREM %s %d %b")
    [.cstr key.bytes, .int count.toInt, .buffer x, .size x.length]
  thenFree reply (extractReply reply)

def lmove (src dest wherefrom whereto : CStr) : Code (SEXP O) := do
  let reply ← redisCommandNULLSafe (ascii "LMOVE %s %s %s %s")
    [.cstr src.bytes, .cstr dest.bytes, .cstr wherefrom.bytes, .cstr whereto.bytes]
  thenFree reply (popValue R reply)

def lrange (key : CStr) (start «end» : Int32) : Code (SEXP O) := do
  let reply ← redisCommandNULLSafe (ascii "LRANGE %s %d %d")
    [.cstr key.bytes, .int start.toInt, .int «end».toInt]
  thenFree reply (objectsValue R reply)

def llen (key : CStr) : Code (SEXP O) := do
  let reply ← redisCommandNULLSafe (ascii "LLEN %s") [.cstr key.bytes]
  thenFree reply do
    let res ← doubleOf reply
    pure (.real [res])

def lpop (key : CStr) : Code (SEXP O) := do
  let reply ← redisCommandNULLSafe (ascii "LPOP %s") [.cstr key.bytes]
  thenFree reply (popValue R reply)

def rpop (key : CStr) : Code (SEXP O) := do
  let reply ← redisCommandNULLSafe (ascii "RPOP %s") [.cstr key.bytes]
  thenFree reply (popValue R reply)

def lpush (key : CStr) (s : SEXP O) : Code (SEXP O) := do
  let x := payload R s
  let reply ← redisCommandNULLSafe (ascii "LPUSH %s %b")
    [.cstr key.bytes, .buffer x, .size x.length]
  thenFree reply (extractReply reply)

def rpush (key : CStr) (s : SEXP O) : Code (SEXP O) := do
  let x := payload R s
  let reply ← redisCommandNULLSafe (ascii "RPUSH %s %b")
    [.cstr key.bytes, .buffer x, .size x.length]
  thenFree reply (extractReply reply)

/-! ## Values without serialization -/

/-- What `listLPop` returns when there is nothing to pop. -/
def nilText : CStr := .ofAscii "(nil)"

/-- What `listLPush` and `listRPush` return. -/
def noText : CStr := .ofAscii ""

def setString (key value : CStr) : Code (SEXP O) := do
  let reply ← redisCommandNULLSafe (ascii "SET %s %s") [.cstr key.bytes, .cstr value.bytes]
  thenFree reply (stringValue reply)

def getString (key : CStr) : Code (SEXP O) := do
  let reply ← redisCommandNULLSafe (ascii "GET %s") [.cstr key.bytes]
  thenFree reply (stringValue reply)

def setVector (key : CStr) (x : List Double) : Code (SEXP O) := do
  let b := Double.bytesOfVector x
  let reply ← redisCommandNULLSafe (ascii "SET %s %b")
    [.cstr key.bytes, .buffer b, .size b.length]
  thenFree reply (stringValue reply)

/-- The bytes of the reply as doubles, whatever its type. -/
def vectorValue (reply : Pointer) : Code (SEXP O) := do
  let x ← numericOf reply
  pure (.real x)

def getVector (key : CStr) : Code (SEXP O) := do
  let reply ← redisCommandNULLSafe (ascii "GET %s") [.cstr key.bytes]
  thenFree reply (vectorValue reply)

/-- The reply of `listRange`: an array of strings, each one vector. -/
def listRangeValue (reply : Pointer) : Code (SEXP O) := do
  checkReplyType reply .array
  let x ← reply.children.mapM fun node => do
    checkReplyType node .string
    vectorValue node
  pure (.list x none)

def listRange (key : CStr) (start «end» : Int32) : Code (SEXP O) := do
  let reply ← redisCommandNULLSafe (ascii "LRANGE %s %d %d")
    [.cstr key.bytes, .int start.toInt, .int «end».toInt]
  thenFree reply (listRangeValue reply)

/-- The number of columns is read off `Z[0]`. -/
def listToMatrix (Z : List (List Double)) : Code (SEXP O) :=
  match Z with
  | [] => .fault .vectorIndex
  | first :: _ => do
      let X ← Z.mapM fun z =>
        if z.length ≠ first.length then stop (ascii "Wrong dimension") else pure z
      pure (.matrix first.length X)

/-- The reply of `listLPop`, as a C string. -/
def listLPopValue (reply : Pointer) : Code (SEXP O) :=
  if replyTypeToInteger reply.node = some .nil then pure (.str [nilText])
  else do
    checkReplyType reply .string
    stringValue reply

def listLPop (key : CStr) : Code (SEXP O) := do
  let reply ← redisCommandNULLSafe (ascii "LPOP %s") [.cstr key.bytes]
  thenFree reply (listLPopValue reply)

def listLPush (key : CStr) (x : List Double) : Code (SEXP O) := do
  let b := Double.bytesOfVector x
  let reply ← redisCommandNULLSafe (ascii "LPUSH %s %b")
    [.cstr key.bytes, .buffer b, .size b.length]
  thenFree reply (pure (.str [noText]))

def listRPush (key : CStr) (x : List Double) : Code (SEXP O) := do
  let b := Double.bytesOfVector x
  let reply ← redisCommandNULLSafe (ascii "RPUSH %s %b")
    [.cstr key.bytes, .buffer b, .size b.length]
  thenFree reply (pure (.str [noText]))

/-! ## Sorted sets -/

/-- One row of `zadd`; the score is the row's first element. -/
def zaddRow (key : CStr) (res : Double) (y : List Double) : Code Double :=
  match y with
  | [] => .fault .vectorIndex
  | score :: _ => do
      let b := Double.bytesOfVector y
      let reply ← redisCommandNULLSafe (ascii "ZADD %s %f %b")
        [.cstr key.bytes, .double score, .buffer b, .size b.length]
      thenFree reply do
        let n ← doubleOf reply
        pure (Double.addWhole res n)

def zadd (key : CStr) (x : NumericMatrix) : Code (SEXP O) := do
  let res ← x.rows.foldlM (zaddRow key) (.ofInt 0)
  pure (.real [res])

def zrange (key : CStr) (min max : Int32) : Code (SEXP O) := do
  let reply ← redisCommandNULLSafe (ascii "ZRANGE %s %d %d")
    [.cstr key.bytes, .int min.toInt, .int max.toInt]
  thenFree reply (rowsValue reply)

def zrangebyscore (key : CStr) (min max : Double) : Code (SEXP O) := do
  let reply ← redisCommandNULLSafe (ascii "ZRANGEBYSCORE %s %f %f")
    [.cstr key.bytes, .double min, .double max]
  thenFree reply (rowsValue reply)

/-- One key of `zremrangebyscore`. -/
def zremrangebyscoreKey (min max : Double) (key : CStr) : Code Double := do
  let reply ← redisCommandNULLSafe (ascii "ZREMRANGEBYSCORE %s %f %f")
    [.cstr key.bytes, .double min, .double max]
  thenFree reply (doubleOf reply)

def zremrangebyscore (keyvec : List CStr) (min max : Double) : Code (SEXP O) := do
  let res ← keyvec.mapM (zremrangebyscoreKey min max)
  pure (.real res)

def zcard (key : CStr) : Code (SEXP O) := do
  let reply ← redisCommandNULLSafe (ascii "ZCARD %s") [.cstr key.bytes]
  thenFree reply do
    let res ← doubleOf reply
    pure (.real [res])

def zcount (key : CStr) (min max : Double) : Code (SEXP O) := do
  let reply ← redisCommandNULLSafe (ascii "ZCOUNT %s %f %f")
    [.cstr key.bytes, .double min, .double max]
  thenFree reply do
    let res ← doubleOf reply
    pure (.real [res])

/-- The reply of `listRangeAsStrings`: an array of strings. -/
def listRangeAsStringsValue (reply : Pointer) : Code (SEXP O) := do
  checkReplyType reply .array
  let x ← reply.children.mapM fun node => do
    checkReplyType node .string
    stringOf node
  pure (.str x)

def listRangeAsStrings (key : CStr) (start «end» : Int32) : Code (SEXP O) := do
  let reply ← redisCommandNULLSafe (ascii "LRANGE %s %d %d")
    [.cstr key.bytes, .int start.toInt, .int «end».toInt]
  thenFree reply (listRangeAsStringsValue reply)

/-- `msgpack::unpack` of a node's bytes.  A null `str` has length zero and is not read. -/
def msgpackRowOf (reply : Pointer) : Code (List Double) :=
  match R.msgpackRow ((reply.node.str?.getD []).take reply.node.len) with
  | none => .raise .msgpack
  | some row => pure row

/-- `vecs[i][j]` for all `j < cols` -/
def firstColumns (cols : ℕ) (row : List Double) : Code (List Double) :=
  if cols ≤ row.length then pure (row.take cols) else .fault .vectorIndex

/-- The unpacked rows as a matrix with as many columns as the first row has. -/
def msgPackRows (vecs : List (List Double)) : Code (SEXP O) :=
  match vecs with
  | [] => .fault .vectorIndex
  | first :: _ => do
      let m ← vecs.mapM (firstColumns first.length)
      pure (.matrix first.length m)

/-- The reply of `msgPackMatrix`. -/
def msgPackMatrixValue (reply : Pointer) : Code (SEXP O) := do
  checkReplyType reply .array
  let vecs ← reply.children.mapM fun node => do
    checkReplyType node .string
    msgpackRowOf R node
  msgPackRows vecs

def msgPackMatrix (key : CStr) (start «end» : Int32) : Code (SEXP O) := do
  let reply ← redisCommandNULLSafe (ascii "LRANGE %s %d %d")
    [.cstr key.bytes, .int start.toInt, .int «end».toInt]
  thenFree reply (msgPackMatrixValue R reply)

/-- The reply of `msgPackZMatrix`; neither its type nor its elements' types are checked. -/
def msgPackZMatrixValue (reply : Pointer) : Code (SEXP O) := do
  let vecs ← reply.children.mapM (msgpackRowOf R)
  msgPackRows vecs

def msgPackZMatrix (key : CStr) (min max : Double) : Code (SEXP O) := do
  let reply ← redisCommandNULLSafe (ascii "ZRANGEBYSCORE %s %f %f")
    [.cstr key.bytes, .double min, .double max]
  thenFree reply (msgPackZMatrixValue R reply)

def quit : Code (SEXP O) := do
  let reply ← redisCommandNULLSafe (ascii "QUIT") []
  thenFree reply (extractReply reply)

/-! ## Publish and subscribe -/

/-- The mode in which a payload is a C string. -/
def stringMode : CStr := .ofAscii "string"

/-- The mode in which a payload is a serialized object. -/
def rdsMode : CStr := .ofAscii "rds"

/-- The mode in which a payload is a raw vector. -/
def rawMode : CStr := .ofAscii "raw"

/-- A payload in one of the two binary modes. -/
def listenObject (type : CStr) (res : Bytes) : Code (SEXP O) :=
  if type = rawMode then pure (.raw res) else unserializeFromRaw R res

/-- The elements of a push after the second: in string mode the loop ends at the first of
them, and what follows stays NULL. -/
def listenPayload (type : CStr) : List Pointer → Code (List (SEXP O))
  | [] => pure []
  | node :: rest =>
      if type = stringMode then do
        let s ← stringOf node
        pure (.str [s] :: rest.map fun _ => .null)
      else do
        let res ← rawOf node
        let x ← listenObject R type res
        let xs ← listenPayload type rest
        pure (x :: xs)

/-- The reply of `listen`: the first two elements are extracted. -/
def listenValue (type : CStr) (reply : Pointer) : Code (SEXP O) := do
  let header ← (reply.children.take 2).mapM extractReply
  let rest ← listenPayload R type (reply.children.drop 2)
  pure (.list (header ++ rest) none)

/-- The return value of `redisGetReply` is not looked at, and `reply` has no initial value. -/
def listenReply (type : CStr) : Option Pointer → Code (SEXP O)
  | none => .fault .unsetReply
  | some reply => thenFree reply (listenValue R type reply)

def listen (type : CStr) : Code (SEXP O) := do
  let reply ← request .getReply
  listenReply R type reply

/-- One channel of `subscribe_proto`. -/
def subscribeChannel (type : Bytes) (key : CStr) : Code (SEXP O) := do
  let reply ← redisCommandNULLSafe (ascii "%s %s") [.cstr type, .cstr key.bytes]
  thenFree reply (extractReply reply)

def subscribeProto (channels : List CStr) (type : Bytes) : Code (SEXP O) := do
  let vec ← channels.mapM (subscribeChannel type)
  pure (.list vec none)

def subscribe (channels : List CStr) : Code (SEXP O) :=
  subscribeProto channels (ascii "SUBSCRIBE")

def psubscribe (channels : List CStr) : Code (SEXP O) :=
  subscribeProto channels (ascii "PSUBSCRIBE")

def unsubscribe (channels : List CStr) : Code (SEXP O) :=
  subscribeProto channels (ascii "UNSUBSCRIBE")

/-- `PUBLISH` of a binary message. -/
def publishBinary (channel : CStr) (x : Bytes) : Code (SEXP O) := do
  let reply ← redisCommandNULLSafe (ascii "PUBLISH %s %b")
    [.cstr channel.bytes, .buffer x, .size x.length]
  thenFree reply (extractReply reply)

/-- `Rcpp::as<std::string>(s)` -/
def asString : SEXP O → Option CStr
  | .str [msg] => some msg
  | _ => none

/-- `Rcpp::RawVector x(s)` -/
def asRaw : SEXP O → Option Bytes
  | .raw x => some x
  | s => R.coerceToRaw s

/-- An unsupported type is ignored with a warning. -/
def publish (channel : CStr) (s : SEXP O) (type : CStr) : Code (SEXP O) :=
  if type = stringMode then
    match asString s with
    | some msg => do
        let reply ← redisCommandNULLSafe (ascii "PUBLISH %s %s")
          [.cstr channel.bytes, .cstr msg.bytes]
        thenFree reply (extractReply reply)
    | none => .raise .conversion
  else if type = rdsMode then publishBinary channel (R.serializeToRaw s)
  else if type = rawMode then
    match asRaw R s with
    | some x => publishBinary channel x
    | none => .raise .conversion
  else pure .null

end RcppRedis
