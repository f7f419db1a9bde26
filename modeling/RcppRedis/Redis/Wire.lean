import RcppRedis.Redis.Run
import RcppRedis.Hiredis.FormatSpec

/-!
# What a method puts on the wire

Most methods send commands whose arguments go through a conversion of a fixed format or
through an argument vector.  `Method.commands` lists the words of these commands, and
`Request.Exact` says that a request becomes the one frame of its words.

* `exact_iff_fits` — it does exactly when the size of the frame, and for a format that of
  its terminator, fits in an `int`.
* `encodes_commands` — the requests of every such method are of this kind.
-/

namespace RcppRedis

open Bytes Resp Hiredis Interact

variable {O : Type} {R : Runtime O}

/-! ## One request -/

/-- A frame is at least as long as each of its words. -/
theorem length_le_of_mem {a : Bytes} {words : List Bytes} (h : a ∈ words) :
    a.length ≤ (encodeCommand words).length := by
  have hsum : bulklen a.length ≤ (words.map fun a => bulklen a.length).sum :=
    List.le_sum_of_mem (List.mem_map_of_mem h)
  have hle := length_le_bulklen a.length
  rw [length_encodeCommand]
  omega

namespace Request

/-- What hiredis appends to its output buffer for a request. -/
def encode : Request → Except FormatError Cmd
  | .format fmt ap => redisvFormatCommand fmt ap
  | .argv words => redisFormatSdsCommandArgv words
  | .getReply => .ok {}

/-- The size that an encoder adds up before it writes. -/
def announced : Request → Except FormatError ℤ
  | .format fmt ap => do
      let st ← formatFrom fmt { ap := ap }
      pure (toInt32 (st.finish.totlen + (1 + countDigits st.finish.argv.length + 2 : ℕ)))
  | .argv words => pure
      (toInt32 (1 + countDigits words.length + 2 +
        (words.map fun a => bulklen a.length).sum : ℕ))
  | .getReply => pure 0

/-- The request becomes one frame, which a server reads as the given words and nothing
after them.  Its size is the one added up beforehand, and no `snprintf` cut a text short. -/
def Exact (q : Request) (words : List Bytes) : Prop :=
  ∃ cmd, q.encode = .ok cmd ∧ cmd.bytes = encodeCommand words ∧
    parseCommand cmd.bytes = some (words, []) ∧ cmd.truncated = false ∧
    q.announced = .ok cmd.bytes.length

/-- The frame fits in an `int`.  A format needs one more for the terminator. -/
def Fits (q : Request) (words : List Bytes) : Prop :=
  match q with
  | .argv _ => (encodeCommand words).length < 2 ^ 31
  | _ => (encodeCommand words).length + 1 < 2 ^ 31

/-- The request hands the given words to an encoder: as the items of a format, or as a
vector. -/
inductive Encodes : Request → List Bytes → Prop where
  | format (items : List Item) (hne : items ≠ []) :
      Encodes (.format (template items) (items.map Item.args).flatten) (items.map Item.text)
  | argv (words : List Bytes) (hne : words ≠ []) : Encodes (.argv words) words

theorem Encodes.ne_nil {q : Request} {words : List Bytes} (h : q.Encodes words) :
    words ≠ [] := by
  cases h with
  | format items hne => simpa using hne
  | argv words hne => exact hne

theorem announced_template {items : List Item} (hne : items ≠ []) :
    announced (.format (template items) (items.map Item.args).flatten) =
      .ok (toInt32 (encodeCommand (items.map Item.text)).length) := by
  obtain ⟨st, hst, hfin⟩ := formatFrom_template hne [] []
  have hclean : FormatState.clean [] ((items.map Item.args).flatten ++ []) =
      { ap := (items.map Item.args).flatten } := by
    simp [FormatState.clean, toInt32_eq_self]
  rw [hclean] at hst
  rw [announced, hst]
  simp only [bind, Except.bind, hfin, List.nil_append, FormatState.clean, toInt32_add_toInt32]
  rw [← Nat.cast_add, length_encodeCommand, Nat.add_comm]
  rfl

/-- A frame whose size wraps is cut short. -/
theorem length_lt_of_sdsCommandArgv {argv : List Bytes}
    (h : redisFormatSdsCommandArgv argv = .ok ⟨encodeCommand argv, false⟩) :
    (encodeCommand argv).length < 2 ^ 31 := by
  rw [redisFormatSdsCommandArgv] at h
  simp only [← length_encodeCommand] at h
  have hlt := toInt32_lt (encodeCommand argv).length
  split_ifs at h
  have hlen := congrArg (fun c : Cmd => c.bytes.length) (Except.ok.inj h)
  simp only [List.length_take] at hlen
  omega

theorem exact_of_encode {q : Request} {words : List Bytes}
    (hencode : q.encode = .ok ⟨encodeCommand words, false⟩)
    (hannounced : q.announced = .ok (toInt32 (encodeCommand words).length))
    (hlt : (encodeCommand words).length < 2 ^ 31) : q.Exact words := by
  refine ⟨_, hencode, rfl, parseCommand_encodeCommand_nil words, rfl, ?_⟩
  rw [hannounced, toInt32_eq_self (by omega) (by omega)]

theorem Exact.encode_eq {q : Request} {words : List Bytes} (h : q.Exact words) :
    q.encode = .ok ⟨encodeCommand words, false⟩ := by
  obtain ⟨⟨bytes, truncated⟩, hencode, rfl, -, rfl, -⟩ := h
  exact hencode

/-- **The words arrive as they are**, whatever bytes they hold, exactly when their frame
fits. -/
theorem Encodes.exact_iff_fits {q : Request} {words : List Bytes} (h : q.Encodes words) :
    q.Exact words ↔ q.Fits words := by
  cases h with
  | format items hne =>
      have hencode : encode (.format (template items) (items.map Item.args).flatten) =
          buildCommand (toInt32 (encodeCommand (items.map Item.text)).length)
            (items.map Item.text) := redisvFormatCommand_template hne
      constructor
      · intro hexact
        have hbuild := hexact.encode_eq
        rw [hencode] at hbuild
        exact length_lt_of_buildCommand hbuild
      · intro hfits
        have hlt : (encodeCommand (items.map Item.text)).length + 1 < 2 ^ 31 := hfits
        refine exact_of_encode ?_ (announced_template hne) (by omega)
        rw [hencode]
        exact buildCommand_eq_ok (by simpa using hne) hlt
  | argv words hne =>
      constructor
      · intro hexact
        exact length_lt_of_sdsCommandArgv hexact.encode_eq
      · intro hfits
        have hlt : (encodeCommand words).length < 2 ^ 31 := hfits
        refine exact_of_encode (redisFormatSdsCommandArgv_eq hlt) ?_ hlt
        rw [announced, ← length_encodeCommand]
        rfl

end Request

/-! ## Methods -/

/-- A word of a format. -/
def keyword (w : String) (hne : ascii w ≠ [] := by decide)
    (hplain : (ascii w).all (fun c => c ≠ 32 ∧ c ≠ 37) = true := by decide) : Item :=
  .word (ascii w) hne fun c hc => of_decide_eq_true (List.all_eq_true.mp hplain c hc)

namespace Method

/-- What `publish` sends as the message. -/
def message (R : Runtime O) (s : SEXP O) (type : CStr) : Option Bytes :=
  if type = stringMode then (asString s).map CStr.bytes
  else if type = rdsMode then some (R.serializeToRaw s)
  else if type = rawMode then asRaw R s
  else none

/-- The commands of a method, each as its words.  The methods that paste a string into a
format are left out. -/
def commands (R : Runtime O) : Method O → List (List Bytes)
  | execv cmd => [cmd.map CStr.bytes]
  | ping => [[ascii "PING"]]
  | set key s => [[ascii "SET", key.bytes, payload R s]]
  | get key => [[ascii "GET", key.bytes]]
  | hset key field s => [[ascii "HSET", key.bytes, field.bytes, payload R s]]
  | hget key field => [[ascii "HGET", key.bytes, field.bytes]]
  | hexists key field => [[ascii "HEXISTS", key.bytes, field.bytes]]
  | hdel key field => [[ascii "HDEL", key.bytes, field.bytes]]
  | hlen key => [[ascii "HLEN", key.bytes]]
  | hkeys key => [[ascii "HKEYS", key.bytes]]
  | hgetall key => [[ascii "HGETALL", key.bytes]]
  | sadd key s => [[ascii "SADD", key.bytes, payload R s]]
  | srem key s => [[ascii "SREM", key.bytes, payload R s]]
  | smembers key => [[ascii "SMEMBERS", key.bytes]]
  | keys regexp => [[ascii "KEYS", regexp.bytes]]
  | ltrim key start «end» =>
      [[ascii "LTRIM", key.bytes, decimalInt start.toInt, decimalInt «end».toInt]]
  | lrem key count s => [[ascii "LREM", key.bytes, decimalInt count.toInt, payload R s]]
  | lmove src dest wherefrom whereto =>
      [[ascii "LMOVE", src.bytes, dest.bytes, wherefrom.bytes, whereto.bytes]]
  | lrange key start «end» | listRange key start «end» | listRangeAsStrings key start «end»
  | msgPackMatrix key start «end» =>
      [[ascii "LRANGE", key.bytes, decimalInt start.toInt, decimalInt «end».toInt]]
  | llen key => [[ascii "LLEN", key.bytes]]
  | lpop key | listLPop key => [[ascii "LPOP", key.bytes]]
  | rpop key => [[ascii "RPOP", key.bytes]]
  | lpush key s => [[ascii "LPUSH", key.bytes, payload R s]]
  | rpush key s => [[ascii "RPUSH", key.bytes, payload R s]]
  | setString key value => [[ascii "SET", key.bytes, value.bytes]]
  | getString key | getVector key => [[ascii "GET", key.bytes]]
  | setVector key x => [[ascii "SET", key.bytes, Double.bytesOfVector x]]
  | listLPush key x => [[ascii "LPUSH", key.bytes, Double.bytesOfVector x]]
  | listRPush key x => [[ascii "RPUSH", key.bytes, Double.bytesOfVector x]]
  | zadd key x => x.rows.map fun y =>
      [ascii "ZADD", key.bytes, (y.headD 0).formatF, Double.bytesOfVector y]
  | zrange key min max =>
      [[ascii "ZRANGE", key.bytes, decimalInt min.toInt, decimalInt max.toInt]]
  | zrangebyscore key min max | msgPackZMatrix key min max =>
      [[ascii "ZRANGEBYSCORE", key.bytes, min.formatF, max.formatF]]
  | zremrangebyscore keyvec min max => keyvec.map fun key =>
      [ascii "ZREMRANGEBYSCORE", key.bytes, min.formatF, max.formatF]
  | zcard key => [[ascii "ZCARD", key.bytes]]
  | zcount key min max => [[ascii "ZCOUNT", key.bytes, min.formatF, max.formatF]]
  | quit => [[ascii "QUIT"]]
  | subscribe cs => cs.map fun c => [ascii "SUBSCRIBE", c.bytes]
  | psubscribe cs => cs.map fun c => [ascii "PSUBSCRIBE", c.bytes]
  | unsubscribe cs => cs.map fun c => [ascii "UNSUBSCRIBE", c.bytes]
  | publish channel s type =>
      ((message R s type).map fun msg => [ascii "PUBLISH", channel.bytes, msg]).toList
  | exec _ | «exists» _ | expire _ _ | pexpire _ _ | del _ | listToMatrix _ | listen _ => []

/-- The methods that send their arguments through conversions or a vector: all but the ones
that paste strings into a format, and those that send nothing. -/
def Templated : Method O → Prop
  | exec _ | «exists» _ | expire _ _ | pexpire _ _ | del _ | listToMatrix _ | listen _ => False
  | execv cmd => cmd ≠ []
  | _ => True

theorem encodes_items {format : String} {ap : List VaArg} {words : List Bytes}
    (items : List Item) (hne : items ≠ []) (hformat : ascii format = template items)
    (hap : ap = (items.map Item.args).flatten) (hwords : words = items.map Item.text) :
    Request.Encodes (.format (ascii format) ap) words := by
  rw [hformat, hap, hwords]
  exact .format items hne

theorem encodes_publish (channel : CStr) (s : SEXP O) (type : CStr) :
    List.Forall₂ Request.Encodes ((publishPlan R channel s type).requests)
      ((message R s type).map fun msg => [ascii "PUBLISH", channel.bytes, msg]).toList := by
  have hbinary (x : Bytes) : List.Forall₂ Request.Encodes
      [.format (ascii "PUBLISH %s %b") (.cstr channel.bytes :: buffer x)]
      [[ascii "PUBLISH", channel.bytes, x]] :=
    .cons (encodes_items [keyword "PUBLISH", .str channel, .bin x] (by simp) rfl rfl rfl) .nil
  rw [publishPlan, message]
  split_ifs
  · cases asString s with
    | none => exact .nil
    | some msg =>
        exact .cons (encodes_items [keyword "PUBLISH", .str channel, .str msg] (by simp)
          rfl rfl rfl) .nil
  · exact hbinary _
  · cases asRaw R s with
    | none => exact .nil
    | some x => exact hbinary x
  · exact .nil

/-- One command given by items. -/
theorem encodes_one {format : String} {ap : List VaArg} {words : List Bytes}
    (items : List Item) (hne : items ≠ []) (hformat : ascii format = template items)
    (hap : ap = (items.map Item.args).flatten) (hwords : words = items.map Item.text) :
    List.Forall₂ Request.Encodes [.format (ascii format) ap] [words] :=
  .cons (encodes_items items hne hformat hap hwords) .nil

theorem encodes_map {α : Type} {f : α → Request} {g : α → List Bytes}
    (h : ∀ a, (f a).Encodes (g a)) (l : List α) :
    List.Forall₂ Request.Encodes (l.map f) (l.map g) := by
  induction l with
  | nil => exact .nil
  | cons a l ih => exact .cons (h a) ih

/-- **The requests of a method carry the words of its commands.** -/
theorem encodes_commands {m : Method O} (hm : m.Templated) :
    List.Forall₂ Request.Encodes (m.requests R) (m.commands R) := by
  cases m with
  | exec | «exists» | expire | pexpire | del | listToMatrix | listen => exact hm.elim
  | execv cmd => exact .cons (.argv _ (by simpa [Templated] using hm)) .nil
  | sadd | srem => exact .cons (.argv _ (by simp)) .nil
  | ping => exact encodes_one [keyword "PING"] (by simp) rfl rfl rfl
  | quit => exact encodes_one [keyword "QUIT"] (by simp) rfl rfl rfl
  | set key s => exact encodes_one [keyword "SET", .str key, .bin _] (by simp) rfl rfl rfl
  | get key | getString key | getVector key =>
      exact encodes_one [keyword "GET", .str key] (by simp) rfl rfl rfl
  | hset key field s =>
      exact encodes_one [keyword "HSET", .str key, .str field, .bin _] (by simp) rfl rfl rfl
  | hget key field =>
      exact encodes_one [keyword "HGET", .str key, .str field] (by simp) rfl rfl rfl
  | hexists key field =>
      exact encodes_one [keyword "HEXISTS", .str key, .str field] (by simp) rfl rfl rfl
  | hdel key field =>
      exact encodes_one [keyword "HDEL", .str key, .str field] (by simp) rfl rfl rfl
  | hlen key => exact encodes_one [keyword "HLEN", .str key] (by simp) rfl rfl rfl
  | hkeys key => exact encodes_one [keyword "HKEYS", .str key] (by simp) rfl rfl rfl
  | hgetall key => exact encodes_one [keyword "HGETALL", .str key] (by simp) rfl rfl rfl
  | smembers key => exact encodes_one [keyword "SMEMBERS", .str key] (by simp) rfl rfl rfl
  | keys regexp => exact encodes_one [keyword "KEYS", .str regexp] (by simp) rfl rfl rfl
  | ltrim key start stop =>
      exact encodes_one [keyword "LTRIM", .str key, .int _, .int _] (by simp) rfl rfl rfl
  | lrem key count s =>
      exact encodes_one [keyword "LREM", .str key, .int _, .bin _] (by simp) rfl rfl rfl
  | lmove src dest wherefrom whereto =>
      exact encodes_one [keyword "LMOVE", .str src, .str dest, .str wherefrom, .str whereto]
        (by simp) rfl rfl rfl
  | lrange key start stop | listRange key start stop | listRangeAsStrings key start stop
  | msgPackMatrix key start stop =>
      exact encodes_one [keyword "LRANGE", .str key, .int _, .int _] (by simp) rfl rfl rfl
  | llen key => exact encodes_one [keyword "LLEN", .str key] (by simp) rfl rfl rfl
  | lpop key | listLPop key =>
      exact encodes_one [keyword "LPOP", .str key] (by simp) rfl rfl rfl
  | rpop key => exact encodes_one [keyword "RPOP", .str key] (by simp) rfl rfl rfl
  | lpush key s | listLPush key s =>
      exact encodes_one [keyword "LPUSH", .str key, .bin _] (by simp) rfl rfl rfl
  | rpush key s | listRPush key s =>
      exact encodes_one [keyword "RPUSH", .str key, .bin _] (by simp) rfl rfl rfl
  | setString key value =>
      exact encodes_one [keyword "SET", .str key, .str value] (by simp) rfl rfl rfl
  | setVector key x =>
      exact encodes_one [keyword "SET", .str key, .bin _] (by simp) rfl rfl rfl
  | zadd key x =>
      refine encodes_map (fun y => ?_) x.rows
      exact encodes_items [keyword "ZADD", .str key, .double _, .bin _] (by simp) rfl rfl rfl
  | zrange key min max =>
      exact encodes_one [keyword "ZRANGE", .str key, .int _, .int _] (by simp) rfl rfl rfl
  | zrangebyscore key min max | msgPackZMatrix key min max =>
      exact encodes_one [keyword "ZRANGEBYSCORE", .str key, .double min, .double max] (by simp)
        rfl rfl rfl
  | zremrangebyscore keyvec min max =>
      refine encodes_map (fun key => ?_) keyvec
      exact encodes_items [keyword "ZREMRANGEBYSCORE", .str key, .double min, .double max]
        (by simp) rfl rfl rfl
  | zcard key => exact encodes_one [keyword "ZCARD", .str key] (by simp) rfl rfl rfl
  | zcount key min max =>
      exact encodes_one [keyword "ZCOUNT", .str key, .double min, .double max]
        (by simp) rfl rfl rfl
  | subscribe cs =>
      refine encodes_map (fun c => ?_) cs
      exact encodes_items [.str (.ofAscii "SUBSCRIBE"), .str c] (by simp) rfl rfl rfl
  | psubscribe cs =>
      refine encodes_map (fun c => ?_) cs
      exact encodes_items [.str (.ofAscii "PSUBSCRIBE"), .str c] (by simp) rfl rfl rfl
  | unsubscribe cs =>
      refine encodes_map (fun c => ?_) cs
      exact encodes_items [.str (.ofAscii "UNSUBSCRIBE"), .str c] (by simp) rfl rfl rfl
  | publish channel s type => exact encodes_publish channel s type

/-- A key of the given length. -/
def longKey (n : ℕ) : CStr := ⟨List.replicate n 97, by simp⟩

@[simp] theorem length_longKey (n : ℕ) : (longKey n).bytes.length = n := List.length_replicate

end Method
end RcppRedis
