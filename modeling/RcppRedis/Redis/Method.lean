import RcppRedis.Redis.Methods

/-!
# All methods as one type

`Method` has one constructor for every public method of the class, with its
arguments, and `Method.code` runs it.  `Method.exported` is the table of
`RCPP_MODULE(Redis)`: which method of the class a name in R stands for.

Most methods send one command and read its reply in one of a few ways.  `plan` says
for each method what it sends and how it reads the answers, and `Method.code_eq`
that its code is this plan carried out.  What holds of every method is proved over
the plans.

## Main definitions

* `Method`, `Method.code`, `Method.exported` — the methods, and their names in R.
* `Reader` — the ways to read the reply of a single command.
* `Plan`, `Plan.requests` — what a method does, and the requests it may make.
-/

namespace RcppRedis

open Bytes Hiredis Interact Code

/-! ## The methods -/

/-- A public method of the class with its arguments. -/
inductive Method (O : Type) where
  | exec (cmd : CStr)
  | execv (cmd : List CStr)
  | ping
  | «exists» (key : CStr)
  | expire (key : CStr) (seconds : Double)
  | pexpire (key : CStr) (milliseconds : Double)
  | del (sv : List CStr)
  | set (key : CStr) (s : SEXP O)
  | get (key : CStr)
  | hset (key field : CStr) (s : SEXP O)
  | hget (key field : CStr)
  | hexists (key field : CStr)
  | hdel (key field : CStr)
  | hlen (key : CStr)
  | hkeys (key : CStr)
  | hgetall (key : CStr)
  | sadd (key : CStr) (s : SEXP O)
  | srem (key : CStr) (s : SEXP O)
  | smembers (key : CStr)
  | keys (regexp : CStr)
  | ltrim (key : CStr) (start «end» : Int32)
  | lrem (key : CStr) (count : Int32) (s : SEXP O)
  | lmove (src dest wherefrom whereto : CStr)
  | lrange (key : CStr) (start «end» : Int32)
  | llen (key : CStr)
  | lpop (key : CStr)
  | rpop (key : CStr)
  | lpush (key : CStr) (s : SEXP O)
  | rpush (key : CStr) (s : SEXP O)
  | setString (key value : CStr)
  | getString (key : CStr)
  | setVector (key : CStr) (x : List Double)
  | getVector (key : CStr)
  | listRange (key : CStr) (start «end» : Int32)
  | listToMatrix (Z : List (List Double))
  | listLPop (key : CStr)
  | listLPush (key : CStr) (x : List Double)
  | listRPush (key : CStr) (x : List Double)
  | zadd (key : CStr) (x : NumericMatrix)
  | zrange (key : CStr) (min max : Int32)
  | zrangebyscore (key : CStr) (min max : Double)
  | zremrangebyscore (keyvec : List CStr) (min max : Double)
  | zcard (key : CStr)
  | zcount (key : CStr) (min max : Double)
  | listRangeAsStrings (key : CStr) (start «end» : Int32)
  | msgPackMatrix (key : CStr) (start «end» : Int32)
  | msgPackZMatrix (key : CStr) (min max : Double)
  | quit
  | listen (type : CStr)
  | subscribe (channels : List CStr)
  | psubscribe (channels : List CStr)
  | unsubscribe (channels : List CStr)
  | publish (channel : CStr) (s : SEXP O) (type : CStr)

namespace Method

variable {O : Type}

/-- The code of a method. -/
def code (R : Runtime O) : Method O → Code (SEXP O)
  | exec cmd => RcppRedis.exec cmd.bytes
  | execv cmd => RcppRedis.execv cmd
  | ping => RcppRedis.ping
  | «exists» key => RcppRedis.exists key
  | expire key seconds => RcppRedis.expire R key seconds
  | pexpire key milliseconds => RcppRedis.pexpire R key milliseconds
  | del sv => RcppRedis.del sv
  | set key s => RcppRedis.set R key s
  | get key => RcppRedis.get R key
  | hset key field s => RcppRedis.hset R key field s
  | hget key field => RcppRedis.hget R key field
  | hexists key field => RcppRedis.hexists key field
  | hdel key field => RcppRedis.hdel key field
  | hlen key => RcppRedis.hlen key
  | hkeys key => RcppRedis.hkeys key
  | hgetall key => RcppRedis.hgetall R key
  | sadd key s => RcppRedis.sadd R key s
  | srem key s => RcppRedis.srem R key s
  | smembers key => RcppRedis.smembers R key
  | keys regexp => RcppRedis.keys regexp
  | ltrim key start «end» => RcppRedis.ltrim key start «end»
  | lrem key count s => RcppRedis.lrem R key count s
  | lmove src dest wherefrom whereto => RcppRedis.lmove R src dest wherefrom whereto
  | lrange key start «end» => RcppRedis.lrange R key start «end»
  | llen key => RcppRedis.llen key
  | lpop key => RcppRedis.lpop R key
  | rpop key => RcppRedis.rpop R key
  | lpush key s => RcppRedis.lpush R key s
  | rpush key s => RcppRedis.rpush R key s
  | setString key value => RcppRedis.setString key value
  | getString key => RcppRedis.getString key
  | setVector key x => RcppRedis.setVector key x
  | getVector key => RcppRedis.getVector key
  | listRange key start «end» => RcppRedis.listRange key start «end»
  | listToMatrix Z => RcppRedis.listToMatrix Z
  | listLPop key => RcppRedis.listLPop key
  | listLPush key x => RcppRedis.listLPush key x
  | listRPush key x => RcppRedis.listRPush key x
  | zadd key x => RcppRedis.zadd key x
  | zrange key min max => RcppRedis.zrange key min max
  | zrangebyscore key min max => RcppRedis.zrangebyscore key min max
  | zremrangebyscore keyvec min max => RcppRedis.zremrangebyscore keyvec min max
  | zcard key => RcppRedis.zcard key
  | zcount key min max => RcppRedis.zcount key min max
  | listRangeAsStrings key start «end» => RcppRedis.listRangeAsStrings key start «end»
  | msgPackMatrix key start «end» => RcppRedis.msgPackMatrix R key start «end»
  | msgPackZMatrix key min max => RcppRedis.msgPackZMatrix R key min max
  | quit => RcppRedis.quit
  | listen type => RcppRedis.listen R type
  | subscribe channels => RcppRedis.subscribe channels
  | psubscribe channels => RcppRedis.psubscribe channels
  | unsubscribe channels => RcppRedis.unsubscribe channels
  | publish channel s type => RcppRedis.publish R channel s type

/-- `RCPP_MODULE(Redis)`: the method that a call in R runs.  The names `psubscribe` and
`unsubscribe` are bound to `&Redis::subscribe`; every other name is bound to its own method. -/
def exported : Method O → Method O
  | psubscribe channels => subscribe channels
  | unsubscribe channels => subscribe channels
  | m => m

end Method

/-! ## Reading the reply of one command -/

/-- How a method reads the reply of its one command. -/
inductive Reader where
  | extract
  | string
  | int
  | double
  | strings
  | objects
  | pop
  | ignore
  | rows
  | get
  | hget
  | hgetall
  | vector
  | listRange
  | listLPop
  | listRangeAsStrings
  | msgPackMatrix
  | msgPackZMatrix
  deriving DecidableEq, Repr

namespace Reader

variable {O : Type}

/-- What the method returns. -/
def value (R : Runtime O) : Reader → Pointer → Code (SEXP O)
  | extract, reply => extractReply reply
  | string, reply => stringValue reply
  | int, reply => intValue reply
  | double, reply => do
      let res ← doubleOf reply
      pure (.real [res])
  | strings, reply => stringsValue reply
  | objects, reply => objectsValue R reply
  | pop, reply => popValue R reply
  | ignore, _ => pure (.str [noText])
  | rows, reply => rowsValue reply
  | get, reply => getValue R reply
  | hget, reply => objectOf R reply
  | hgetall, reply => hgetallValue R reply
  | vector, reply => vectorValue reply
  | listRange, reply => listRangeValue reply
  | listLPop, reply => listLPopValue reply
  | listRangeAsStrings, reply => listRangeAsStringsValue reply
  | msgPackMatrix, reply => msgPackMatrixValue R reply
  | msgPackZMatrix, reply => msgPackZMatrixValue R reply

/-- Read the reply and free it; `hget` frees it in between. -/
def code (R : Runtime O) : Reader → Pointer → Code (SEXP O)
  | hget, reply => do
      let res ← thenFree reply (rawOf reply)
      unserializeFromRaw R res
  | rd, reply => thenFree reply (rd.value R reply)

theorem code_of_ne {R : Runtime O} {rd : Reader} (h : rd ≠ hget) (reply : Pointer) :
    rd.code R reply = thenFree reply (rd.value R reply) := by
  cases rd <;> first | rfl | exact absurd rfl h

end Reader

/-! ## Plans -/

/-- What a method does. -/
inductive Plan (O : Type) where
  /-- end without a request -/
  | done (p : Code (SEXP O))
  /-- send one command and read its reply -/
  | command (q : Request) (rd : Reader)
  /-- `zadd` -/
  | rows (key : CStr) (x : NumericMatrix)
  /-- `zremrangebyscore` -/
  | ranges (keyvec : List CStr) (min max : Double)
  /-- `subscribe_proto` -/
  | channels (channels : List CStr) (type : Bytes)
  /-- `listen` -/
  | listen (type : CStr)

/-- The request of one row of `zadd`. -/
def zaddRequest (key : CStr) (score : Double) (y : List Double) : Request :=
  .format (ascii "ZADD %s %f %b")
    [.cstr key.bytes, .double score, .buffer (Double.bytesOfVector y),
      .size (Double.bytesOfVector y).length]

/-- The request of one key of `zremrangebyscore`. -/
def zremrangebyscoreRequest (min max : Double) (key : CStr) : Request :=
  .format (ascii "ZREMRANGEBYSCORE %s %f %f") [.cstr key.bytes, .double min, .double max]

/-- The request of one channel of `subscribe_proto`. -/
def subscribeRequest (type : Bytes) (key : CStr) : Request :=
  .format (ascii "%s %s") [.cstr type, .cstr key.bytes]

namespace Plan

variable {O : Type}

/-- Carry out a plan. -/
def code (R : Runtime O) : Plan O → Code (SEXP O)
  | done p => p
  | command q rd => do
      let reply ← requestNULLSafe q
      rd.code R reply
  | rows key x => zadd key x
  | ranges keyvec min max => zremrangebyscore keyvec min max
  | channels cs type => subscribeProto cs type
  | listen type => RcppRedis.listen R type

/-- The requests of a plan, in the order in which they are made. -/
def requests : Plan O → List Request
  | done _ => []
  | command q _ => [q]
  | rows key x => x.rows.map fun y => zaddRequest key (y.headD 0) y
  | ranges keyvec min max => keyvec.map (zremrangebyscoreRequest min max)
  | channels cs type => cs.map (subscribeRequest type)
  | listen _ => [.getReply]

end Plan

namespace Method

variable {O : Type}

/-- A command given as a format and its arguments. -/
def command (format : String) (ap : List VaArg) (rd : Reader) : Plan O :=
  .command (.format (ascii format) ap) rd

/-- A byte string with its length, as `%b` takes them. -/
def buffer (b : Bytes) : List VaArg := [.buffer b, .size b.length]

/-- What a call of `publish` sends. -/
def publishPlan (R : Runtime O) (channel : CStr) (s : SEXP O) (type : CStr) : Plan O :=
  if type = stringMode then
    match asString s with
    | some msg => command "PUBLISH %s %s" [.cstr channel.bytes, .cstr msg.bytes] .extract
    | none => .done (.raise .conversion)
  else if type = rdsMode then
    command "PUBLISH %s %b" (.cstr channel.bytes :: buffer (R.serializeToRaw s)) .extract
  else if type = rawMode then
    match asRaw R s with
    | some x => command "PUBLISH %s %b" (.cstr channel.bytes :: buffer x) .extract
    | none => .done (.raise .conversion)
  else .done (pure .null)

/-- The plan of a method. -/
def plan (R : Runtime O) : Method O → Plan O
  | exec cmd => .command (.format cmd.bytes []) .extract
  | execv cmd => .command (.argv (cmd.map CStr.bytes)) .extract
  | ping => command "PING" [] .extract
  | «exists» key => .command (.format (ascii "EXISTS " ++ key.bytes) []) .extract
  | expire key seconds => .command
      (.format (ascii "EXPIRE " ++ key.bytes ++ ascii " " ++ roundToString R seconds)
        []) .extract
  | pexpire key milliseconds => .command
      (.format (ascii "EXPIRE " ++ key.bytes ++ ascii " " ++ roundToString R milliseconds) [])
      .extract
  | del sv => .command
      (.format (sv.foldl (fun cmd s => cmd ++ (ascii " " ++ s.bytes)) (ascii "DEL"))
        []) .extract
  | set key s => command "SET %s %b" (.cstr key.bytes :: buffer (payload R s)) .string
  | get key => command "GET %s" [.cstr key.bytes] .get
  | hset key field s => command "HSET %s %s %b"
      (.cstr key.bytes :: .cstr field.bytes :: buffer (payload R s)) .int
  | hget key field => command "HGET %s %s" [.cstr key.bytes, .cstr field.bytes] .hget
  | hexists key field => command "HEXISTS %s %s" [.cstr key.bytes, .cstr field.bytes] .int
  | hdel key field => command "HDEL %s %s" [.cstr key.bytes, .cstr field.bytes] .int
  | hlen key => command "HLEN %s" [.cstr key.bytes] .int
  | hkeys key => command "HKEYS %s" [.cstr key.bytes] .strings
  | hgetall key => command "HGETALL %s" [.cstr key.bytes] .hgetall
  | sadd key s => .command (.argv [ascii "SADD", key.bytes, payload R s]) .extract
  | srem key s => .command (.argv [ascii "SREM", key.bytes, payload R s]) .extract
  | smembers key => command "SMEMBERS %s" [.cstr key.bytes] .objects
  | keys regexp => command "KEYS %s" [.cstr regexp.bytes] .strings
  | ltrim key start «end» => command "LTRIM %s %d %d"
      [.cstr key.bytes, .int start.toInt, .int «end».toInt] .extract
  | lrem key count s => command "LREM %s %d %b"
      (.cstr key.bytes :: .int count.toInt :: buffer (payload R s)) .extract
  | lmove src dest wherefrom whereto => command "LMOVE %s %s %s %s"
      [.cstr src.bytes, .cstr dest.bytes, .cstr wherefrom.bytes, .cstr whereto.bytes] .pop
  | lrange key start «end» => command "LRANGE %s %d %d"
      [.cstr key.bytes, .int start.toInt, .int «end».toInt] .objects
  | llen key => command "LLEN %s" [.cstr key.bytes] .double
  | lpop key => command "LPOP %s" [.cstr key.bytes] .pop
  | rpop key => command "RPOP %s" [.cstr key.bytes] .pop
  | lpush key s => command "LPUSH %s %b" (.cstr key.bytes :: buffer (payload R s)) .extract
  | rpush key s => command "RPUSH %s %b" (.cstr key.bytes :: buffer (payload R s)) .extract
  | setString key value => command "SET %s %s" [.cstr key.bytes, .cstr value.bytes] .string
  | getString key => command "GET %s" [.cstr key.bytes] .string
  | setVector key x => command "SET %s %b"
      (.cstr key.bytes :: buffer (Double.bytesOfVector x)) .string
  | getVector key => command "GET %s" [.cstr key.bytes] .vector
  | listRange key start «end» => command "LRANGE %s %d %d"
      [.cstr key.bytes, .int start.toInt, .int «end».toInt] .listRange
  | listToMatrix Z => .done (RcppRedis.listToMatrix Z)
  | listLPop key => command "LPOP %s" [.cstr key.bytes] .listLPop
  | listLPush key x => command "LPUSH %s %b"
      (.cstr key.bytes :: buffer (Double.bytesOfVector x)) .ignore
  | listRPush key x => command "RPUSH %s %b"
      (.cstr key.bytes :: buffer (Double.bytesOfVector x)) .ignore
  | zadd key x => .rows key x
  | zrange key min max => command "ZRANGE %s %d %d"
      [.cstr key.bytes, .int min.toInt, .int max.toInt] .rows
  | zrangebyscore key min max => command "ZRANGEBYSCORE %s %f %f"
      [.cstr key.bytes, .double min, .double max] .rows
  | zremrangebyscore keyvec min max => .ranges keyvec min max
  | zcard key => command "ZCARD %s" [.cstr key.bytes] .double
  | zcount key min max => command "ZCOUNT %s %f %f"
      [.cstr key.bytes, .double min, .double max] .double
  | listRangeAsStrings key start «end» => command "LRANGE %s %d %d"
      [.cstr key.bytes, .int start.toInt, .int «end».toInt] .listRangeAsStrings
  | msgPackMatrix key start «end» => command "LRANGE %s %d %d"
      [.cstr key.bytes, .int start.toInt, .int «end».toInt] .msgPackMatrix
  | msgPackZMatrix key min max => command "ZRANGEBYSCORE %s %f %f"
      [.cstr key.bytes, .double min, .double max] .msgPackZMatrix
  | quit => command "QUIT" [] .extract
  | listen type => .listen type
  | subscribe cs => .channels cs (ascii "SUBSCRIBE")
  | psubscribe cs => .channels cs (ascii "PSUBSCRIBE")
  | unsubscribe cs => .channels cs (ascii "UNSUBSCRIBE")
  | publish channel s type => publishPlan R channel s type

theorem publish_code_eq (R : Runtime O) (channel : CStr) (s : SEXP O) (type : CStr) :
    RcppRedis.publish R channel s type = (publishPlan R channel s type).code R := by
  rw [RcppRedis.publish, publishPlan]
  split_ifs
  · cases asString s <;> rfl
  · rfl
  · cases asRaw R s <;> rfl
  · rfl

/-- **The code of a method is its plan carried out.** -/
theorem code_eq (R : Runtime O) (m : Method O) : m.code R = (m.plan R).code R := by
  cases m with
  | publish channel s type => exact publish_code_eq R channel s type
  | _ => rfl

/-- The methods that end without a request: `listToMatrix`, and a `publish` of something that
cannot be published. -/
theorem eq_of_plan_done {R : Runtime O} {m : Method O} {p : Code (SEXP O)}
    (h : m.plan R = .done p) :
    (∃ Z, m = listToMatrix Z ∧ p = RcppRedis.listToMatrix Z) ∨ (∃ e, p = .raise e) ∨
      ∃ x, p = .ret x := by
  cases m with
  | listToMatrix Z =>
      cases h
      exact .inl ⟨Z, rfl, rfl⟩
  | publish channel s type =>
      refine .inr ?_
      simp only [plan, publishPlan] at h
      split_ifs at h
      · cases hs : asString s <;> rw [hs] at h <;> cases h
        exact .inl ⟨_, rfl⟩
      · cases h
      · cases hs : asRaw R s <;> rw [hs] at h <;> cases h
        exact .inl ⟨_, rfl⟩
      · cases h
        exact .inr ⟨_, rfl⟩
  | _ => cases h

theorem eq_of_plan_listen {R : Runtime O} {m : Method O} {type : CStr}
    (h : m.plan R = .listen type) : m = listen type := by
  cases m with
  | listen type' =>
      cases h
      rfl
  | publish channel s mode =>
      simp only [plan, publishPlan] at h
      split_ifs at h
      · cases hs : asString s <;> rw [hs] at h <;> cases h
      · cases h
      · cases hs : asRaw R s <;> rw [hs] at h <;> cases h
  | _ => cases h

/-- The requests that a method makes. -/
def requests (R : Runtime O) (m : Method O) : List Request := (m.plan R).requests

end Method
end RcppRedis
