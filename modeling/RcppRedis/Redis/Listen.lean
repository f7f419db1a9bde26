import RcppRedis.Redis.Connection
import RcppRedis.Lib.Binary64Value

/-!
# What `listen` makes of a push

A subscribed connection receives messages, messages of patterns, and confirmations.  `listen`
extracts the first two elements of a push and decodes the others by its type selector.

* `listens_iff_decodable` — exactly which pushes come back complete.
* `publish_listen` — a published value is what `listen` returns.
-/

namespace RcppRedis

open Bytes Resp Hiredis Interact Code Prog

variable {O : Type} {R : Runtime O} {σ : Type}

/-! ## Pushes -/

/-- The commands that are confirmed. -/
inductive Confirmation where
  | subscribe
  | unsubscribe
  | psubscribe
  | punsubscribe

/-- The word for a kind of confirmation. -/
def Confirmation.word : Confirmation → CStr
  | subscribe => .ofAscii "subscribe"
  | unsubscribe => .ofAscii "unsubscribe"
  | psubscribe => .ofAscii "psubscribe"
  | punsubscribe => .ofAscii "punsubscribe"

/-- The word for a message. -/
def messageWord : CStr := .ofAscii "message"

/-- The word for a message of a pattern. -/
def pmessageWord : CStr := .ofAscii "pmessage"

/-- What the server sends on a subscribed connection.  The names were given by the client; the
channel of a pattern's message is any that another client has used. -/
inductive Push where
  | message (channel : CStr) (payload : Bytes)
  | pmessage (pattern : CStr) (channel payload : Bytes)
  | confirmation (kind : Confirmation) (name : CStr) (count : ℤ)

/-- The value of a payload under a type selector. -/
def payloadValue (R : Runtime O) (type : CStr) (b : Bytes) : Option (SEXP O) :=
  if type = stringMode then if h : (0 : UInt8) ∉ b then some (.str [⟨b, h⟩]) else none
  else if type = rawMode then some (.raw b)
  else R.unserializeFromRaw b

namespace Push

/-- The push as a reply. -/
def reply : Push → Reply
  | message channel b =>
      .array [.string messageWord.bytes, .string channel.bytes, .string b]
  | pmessage pattern channel b =>
      .array [.string pmessageWord.bytes, .string pattern.bytes, .string channel, .string b]
  | confirmation kind name count =>
      .array [.string kind.word.bytes, .string name.bytes, .integer count]

/-- The payload is a value of the selector's type. -/
def Valid (R : Runtime O) (type : CStr) : Push → Prop
  | message _ b => (payloadValue R type b).isSome
  | pmessage _ _ b => (payloadValue R type b).isSome
  | confirmation _ _ _ => True

/-- The list shows the whole push. -/
inductive Shown (R : Runtime O) (type : CStr) : Push → List (SEXP O) → Prop where
  | message (channel : CStr) (b : Bytes) (v : SEXP O) (h : payloadValue R type b = some v) :
      Shown R type (.message channel b) [.str [messageWord], .str [channel], v]
  | pmessage (pattern channel : CStr) (b : Bytes) (v : SEXP O)
      (h : payloadValue R type b = some v) : Shown R type (.pmessage pattern channel.bytes b)
        [.str [pmessageWord], .str [pattern], .str [channel], v]
  | confirmation (kind : Confirmation) (name : CStr) (count : ℤ) (d : Double)
      (h : count.natAbs ≤ 2 ^ 53 → d.toRat = count) :
      Shown R type (.confirmation kind name count) [.str [kind.word], .str [name], .real [d]]

/-- The push is a message, and as many bytes of its payload as an `int` says have its value. -/
def Decodable (R : Runtime O) (type : CStr) : Push → Prop
  | message _ b =>
      type = stringMode ∨ 0 ≤ toInt32 b.length ∧
        payloadValue R type (b.take (toInt32 b.length).toNat) = payloadValue R type b
  | _ => False

end Push

/-! ## The payload -/

/-- What the loop of `listen` makes of one element after the second. -/
def payloadOf (R : Runtime O) (type : CStr) (node : Pointer) : Code (SEXP O) :=
  if type = stringMode then do
    let s ← stringOf node
    pure (.str [s])
  else do
    let res ← rawOf node
    listenObject R type res

/-- One round of the loop.  In string mode what follows the element stays NULL. -/
theorem listenPayload_cons (type : CStr) (node : Pointer) (rest : List Pointer) :
    listenPayload R type (node :: rest) = payloadOf R type node >>= fun x =>
      if type = stringMode then pure (x :: rest.map fun _ => .null)
      else listenPayload R type rest >>= fun xs => pure (x :: xs) := by
  by_cases htype : type = stringMode
  · rw [listenPayload, payloadOf, if_pos htype, if_pos htype, Prog.bind_assoc]
    simp only [if_pos htype]
    rfl
  · rw [listenPayload, payloadOf, if_neg htype, if_neg htype, Prog.bind_assoc]
    simp only [if_neg htype]

/-- The payload of a message.  An `int` says how many of its bytes are read. -/
theorem payloadOf_string {type : CStr} {p : Pointer} {b : Bytes} (hp : p.node = .string b) :
    payloadOf R type p =
      if type = stringMode then .ret (.str [.ofBuffer b])
      else if toInt32 b.length < 0 then .raise .allocation
      else listenObject R type (b.take (toInt32 b.length).toNat) := by
  rw [payloadOf]
  split_ifs with htype hneg
  · have hstr : p.node.str? = some b := by rw [hp]; rfl
    rw [stringOf_of_some hstr]
    rfl
  · have hlen : p.node.len = b.length := by rw [hp]; rfl
    rw [rawOf_eq, hlen, if_pos hneg]
    rfl
  · have hlen : p.node.len = b.length := by rw [hp]; rfl
    have hbytes : p.node.bytes = b := by
      rw [hp]
      exact List.take_length
    rw [rawOf_eq, hlen, if_neg hneg, hbytes]
    rfl

theorem listenObject_eq {type : CStr} (htype : type ≠ stringMode) (b : Bytes) :
    listenObject R type b =
      match payloadValue R type b with
      | none => .raise .unserialize
      | some x => .ret x := by
  rw [listenObject, payloadValue, if_neg htype]
  split_ifs
  · rfl
  · rw [unserializeFromRaw]
    cases R.unserializeFromRaw b <;> rfl

/-- The two elements before the payload are extracted. -/
theorem listenValue_strings (type : CStr) {p : Pointer} (a b : CStr) (rest : List Reply)
    (hp : p.node = .array (.string a.bytes :: .string b.bytes :: rest)) :
    listenValue R type p = listenPayload R type (p.childrenFrom 2 rest) >>= fun x =>
      pure (.list (.str [a] :: .str [b] :: x) none) := by
  have hchildren : p.children = ⟨p.id, p.path ++ [0], .string a.bytes⟩ ::
      ⟨p.id, p.path ++ [1], .string b.bytes⟩ :: p.childrenFrom 2 rest := by
    rw [Pointer.children, hp]
    rfl
  have hextract (path : List ℕ) (s : CStr) :
      extractReply (O := O) ⟨p.id, path, .string s.bytes⟩ = .ret (.str [s]) := by
    rw [extractReply, extractReplyAt, CStr.ofBuffer_bytes]
    rfl
  rw [listenValue, hchildren]
  simp only [List.take_succ_cons, List.take_zero, List.drop_succ_cons, List.drop_zero,
    List.mapM_cons, List.mapM_nil, hextract]
  rfl

/-- What `serialize` writes. -/
structure Runtime.Serializes (R : Runtime O) : Prop where
  /-- There is something to read. -/
  empty : R.unserializeFromRaw [] = none
  /-- A string stands in its serialization, with a header before it. -/
  longer : ∀ (b : Bytes) (s : CStr), R.unserializeFromRaw b = some (.str [s]) →
    s.bytes.length < b.length

/-! ## Runs of `listen` -/

/-- `listen` returns the list of a push, complete. -/
def Listens (R : Runtime O) (E : Env σ) (type : CStr) (push : Push) (s : σ) : Prop :=
  ∃ x, (E.run (listen R type) s).1 = .ret (.list x none) ∧ push.Shown R type x

/-- The value of `listen` is made from the payload's elements. -/
theorem run_listen_eq_ret_iff (E : Env σ) {type : CStr} {s : σ} {a b : CStr}
    {rest : List Reply} (hs : (E.request .getReply s).1 =
      .answer (some (.array (.string a.bytes :: .string b.bytes :: rest))))
        (x : List (SEXP O)) : (E.run (listen R type) s).1 = .ret (.list x none) ↔
      ∃ xs, listenPayload R type (Pointer.childrenFrom
          ⟨0, [], .array (.string a.bytes :: .string b.bytes :: rest)⟩ 2 rest) = .ret xs ∧
        x = .str [a] :: .str [b] :: xs := by
  rcases hrequest : E.request .getReply s with ⟨answer, s'⟩
  rw [hrequest] at hs
  simp only at hs
  subst hs
  rw [Env.run, run_listen, hrequest]
  simp only [World.pointer, List.length_nil]
  rw [listenValue_strings type a b rest rfl]
  generalize hpayload : listenPayload R type _ = payload
  have hleaf : Leaf payload := by
    rw [← hpayload]
    exact leaf_listenPayload type _
  cases hleaf with
  | ret xs =>
      rw [ret_bind, Prog.pure_eq, run_thenFree_ret]
      simp [eq_comm]
  | raise e =>
      rw [raise_bind, run_thenFree_raise]
      simp
  | fault f =>
      rw [fault_bind, run_thenFree_fault]
      simp

theorem listenPayload_cons_eq_ret_iff {type : CStr} {node : Pointer} {rest : List Pointer}
    {x : SEXP O} {xs : List (SEXP O)} :
    listenPayload R type (node :: rest) = .ret (x :: xs) ↔ payloadOf R type node = .ret x ∧
      if type = stringMode then xs = rest.map fun _ => .null
      else listenPayload R type rest = .ret xs := by
  rw [listenPayload_cons]
  cases payloadOf R type node with
  | ret y =>
      rw [ret_bind]
      split_ifs with htype
      · simp [eq_comm]
      · cases listenPayload R type rest <;> simp
  | raise e => simp
  | fault f => simp
  | call i k => simp

theorem listenPayload_one_eq_ret_iff {type : CStr} {node : Pointer} {xs : List (SEXP O)} :
    listenPayload R type [node] = .ret xs ↔ ∃ x, payloadOf R type node = .ret x ∧
    xs = [x] := by
  rw [listenPayload_cons]
  cases payloadOf R type node with
  | ret x => by_cases htype : type = stringMode <;> simp [htype, listenPayload, eq_comm]
  | raise e => simp
  | fault f => simp
  | call i k => simp

/-- A payload that has a value is read as this value. -/
theorem payloadOf_eq_ret_iff {type : CStr} {p : Pointer} {b : Bytes} (hp : p.node = .string b)
    {v : SEXP O} (hv : payloadValue R type b = some v) :
    payloadOf R type p = .ret v ↔ type = stringMode ∨ 0 ≤ toInt32 b.length ∧
      payloadValue R type (b.take (toInt32 b.length).toNat) = payloadValue R type b := by
  rw [payloadOf_string hp]
  by_cases htype : type = stringMode
  · rw [payloadValue, if_pos htype] at hv
    split_ifs at hv with hnul
    rw [if_pos htype, ← Option.some.inj hv]
    refine iff_of_true ?_ (.inl htype)
    rw [CStr.ofBuffer_bytes ⟨b, hnul⟩]
  · rw [if_neg htype, hv]
    simp only [htype, false_or]
    split_ifs with hneg
    · exact iff_of_false (by simp) fun h => absurd h.1 (by omega)
    · rw [listenObject_eq htype]
      have hnonneg : 0 ≤ toInt32 b.length := by omega
      cases payloadValue R type (b.take (toInt32 b.length).toNat) with
      | none => simp
      | some w => simp [hnonneg]

theorem listens_message_iff (E : Env σ) {type channel : CStr} {b : Bytes} {s : σ}
    (hvalid : (Push.message channel b).Valid R type)
    (hs : (E.request .getReply s).1 = .answer (some (Push.message channel b).reply)) :
    Listens R E type (.message channel b) s ↔ (Push.message channel b).Decodable R type := by
  obtain ⟨v, hv⟩ := Option.isSome_iff_exists.mp hvalid
  rw [Push.Decodable, ← payloadOf_eq_ret_iff (p := ⟨0, [2], .string b⟩) rfl hv]
  constructor
  · rintro ⟨x, hx, hshown⟩
    obtain ⟨xs, hxs, rfl⟩ := (run_listen_eq_ret_iff E hs x).mp hx
    obtain ⟨y, hy, rfl⟩ := listenPayload_one_eq_ret_iff.mp hxs
    cases hshown with
    | message channel b w hw =>
        rw [hv] at hw
        rw [Option.some.inj hw]
        exact hy
  · intro h
    refine ⟨_, (run_listen_eq_ret_iff E hs _).mpr ⟨[v], ?_, rfl⟩, .message channel b v hv⟩
    exact listenPayload_one_eq_ret_iff.mpr ⟨v, h, rfl⟩

/-- A message of a pattern: its channel stands where the payload is read. -/
theorem not_listens_pmessage (hR : R.Serializes) (E : Env σ) {type pattern : CStr}
    {channel b : Bytes} {s : σ}
    (hs : (E.request .getReply s).1 = .answer (some (Push.pmessage pattern channel b).reply)) :
    ¬ Listens R E type (.pmessage pattern channel b) s := by
  rintro ⟨x, hx, hshown⟩
  obtain ⟨xs, hxs, rfl⟩ := (run_listen_eq_ret_iff E hs x).mp hx
  cases hshown with
  | pmessage pattern channel b v hv =>
      have hpayload : listenPayload R type
          [⟨0, [2], .string channel.bytes⟩, ⟨0, [3], .string b⟩] = .ret [.str [channel], v] :=
          hxs
      obtain ⟨hchannel, hrest⟩ := listenPayload_cons_eq_ret_iff.mp hpayload
      by_cases htype : type = stringMode
      · rw [payloadValue, if_pos htype] at hv
        split_ifs at hv
        rw [if_pos htype, ← Option.some.inj hv] at hrest
        simp at hrest
      · rw [payloadOf_string rfl, if_neg htype] at hchannel
        split_ifs at hchannel
        rw [listenObject_eq htype, payloadValue, if_neg htype] at hchannel
        split_ifs at hchannel
        · cases hchannel
        · cases hread : R.unserializeFromRaw
              (channel.bytes.take (toInt32 channel.bytes.length).toNat) with
          | none =>
              rw [hread] at hchannel
              cases hchannel
          | some y =>
              rw [hread] at hchannel
              cases hchannel
              have hlonger := hR.longer _ _ hread
              rw [List.length_take] at hlonger
              omega

/-- A confirmation: its number stands where the payload is read. -/
theorem not_listens_confirmation (hR : R.Serializes) (E : Env σ) {type name : CStr}
    {kind : Confirmation} {count : ℤ} {s : σ}
    (hs : (E.request .getReply s).1 =
      .answer (some (Push.confirmation kind name count).reply)) :
    ¬ Listens R E type (.confirmation kind name count) s := by
  rintro ⟨x, hx, hshown⟩
  obtain ⟨xs, hxs, rfl⟩ := (run_listen_eq_ret_iff E hs x).mp hx
  obtain ⟨y, hy, rfl⟩ := listenPayload_one_eq_ret_iff.mp hxs
  cases hshown with
  | confirmation kind name count d hd =>
      rw [payloadOf] at hy
      split_ifs at hy with htype
      · cases hy
      · have hempty : rawOf ⟨0, [2], .integer count⟩ = .ret [] := rfl
        have hy' : listenObject R type [] = .ret (.real [d]) := hy
        rw [listenObject_eq htype, payloadValue, if_neg htype] at hy'
        split_ifs at hy'
        · cases hy'
        · rw [hR.empty] at hy'
          cases hy'

/-! ## All pushes -/

/-- **`listen` returns a push complete**, under any selector, exactly when the push is a
message and, unless it is read as a string, an `int` can tell how long its payload is. -/
theorem listens_iff_decodable (hR : R.Serializes) (E : Env σ) {type : CStr}
    {push : Push} {s : σ} (hvalid : push.Valid R type)
    (hs : (E.request .getReply s).1 = .answer (some push.reply)) :
    Listens R E type push s ↔ push.Decodable R type := by
  cases push with
  | message channel b => exact listens_message_iff E hvalid hs
  | pmessage pattern channel b => exact iff_of_false (not_listens_pmessage hR E hs) id
  | confirmation kind name count => exact iff_of_false (not_listens_confirmation hR E hs) id

theorem serializes_onlyNull : Runtime.onlyNull.Serializes where
  empty := rfl
  longer := by
    intro b s h
    have hread : (if b = serializedNull then some SEXP.null else none) =
        some (SEXP.str (O := Empty) [s]) := h
    split_ifs at hread
    cases hread

/-- A message in string mode is returned as it was sent. -/
theorem listens_string_message :
    Listens Runtime.onlyNull scripted stringMode (.message (.ofAscii "c") (ascii "hi"))
      { answers := [some (Push.message (.ofAscii "c") (ascii "hi")).reply] } := by
  have hvalid : (Push.message (.ofAscii "c") (ascii "hi")).Valid Runtime.onlyNull stringMode :=
    (rfl : (payloadValue Runtime.onlyNull stringMode (ascii "hi")).isSome = true)
  exact (listens_iff_decodable serializes_onlyNull scripted hvalid rfl).mpr (.inl rfl)

/-- In string mode a message of a pattern comes back without its payload. -/
theorem pmessage_payload_unset :
    ¬ Listens Runtime.onlyNull scripted stringMode
      (.pmessage (.ofAscii "c*") (ascii "c1") (ascii "hi"))
      { answers := [some (Push.pmessage (.ofAscii "c*") (ascii "c1") (ascii "hi")).reply] } :=
  not_listens_pmessage serializes_onlyNull scripted rfl

/-! ## `publish` and `listen` -/

/-- A matching pair of selectors. -/
inductive Selector where
  | rds
  | raw
  | string

namespace Selector

/-- The selector that `publish` takes. -/
def publishType : Selector → CStr
  | rds => rdsMode
  | raw => rawMode
  | string => stringMode

/-- The selectors that `listen` takes; what is neither of the two modes is serialized. -/
def ListenType : Selector → CStr → Prop
  | rds, type => type ≠ stringMode ∧ type ≠ rawMode
  | raw, type => type = rawMode
  | string, type => type = stringMode

/-- The payload of a value of the selector's type; an object must survive its serialization. -/
inductive Payload (R : Runtime O) : Selector → SEXP O → Bytes → Prop where
  | rds (v : SEXP O) (h : R.unserializeFromRaw (R.serializeToRaw v) = some v) :
      Payload R .rds v (R.serializeToRaw v)
  | raw (b : Bytes) : Payload R .raw (.raw b) b
  | string (msg : CStr) : Payload R .string (.str [msg]) msg.bytes

end Selector

/-- What a call of `publish` puts on the wire. -/
theorem publish_code {sel : Selector} {v : SEXP O} {b : Bytes} (h : sel.Payload R v b)
    (channel : CStr) : ∃ items : List Item, items ≠ [] ∧
      items.map Item.text = [ascii "PUBLISH", channel.bytes, b] ∧
      Method.code R (.publish channel v sel.publishType) =
        requestNULLSafe (.format (template items) (items.map Item.args).flatten) >>=
          Reader.code R .extract := by
  cases h with
  | rds v h =>
      exact ⟨[keyword "PUBLISH", .str channel, .bin (R.serializeToRaw v)], by simp, rfl, rfl⟩
  | raw b => exact ⟨[keyword "PUBLISH", .str channel, .bin b], by simp, rfl, rfl⟩
  | string msg => exact ⟨[keyword "PUBLISH", .str channel, .str msg], by simp, rfl, rfl⟩

theorem payloadValue_of_payload {sel : Selector} {v : SEXP O} {b : Bytes}
    (h : sel.Payload R v b) {type : CStr} (htype : sel.ListenType type) :
    payloadValue R type b = some v := by
  cases h with
  | rds v h =>
      obtain ⟨hstring, hraw⟩ := htype
      rw [payloadValue, if_neg hstring, if_neg hraw, h]
  | raw b =>
      obtain rfl : type = rawMode := htype
      rw [payloadValue, if_neg (by decide), if_pos rfl]
  | string msg =>
      obtain rfl : type = stringMode := htype
      rw [payloadValue, if_pos rfl, dif_pos msg.nulFree]

/-- The commands that a server has received once `publish` has run. -/
def published (R : Runtime O) (reply : List Bytes → Reply) (channel : CStr) (v : SEXP O)
    (sel : Selector) : List (List Bytes) :=
  ((Conn.env (recorder reply)).run (Method.code R (.publish channel v sel.publishType))
    { server := [] }).2.env.server

theorem published_eq_iff {sel : Selector} {v : SEXP O} {b : Bytes} (h : sel.Payload R v b)
    (channel : CStr) (reply : List Bytes → Reply) {words : List Bytes} (hne : words ≠ []) :
    published R reply channel v sel = [words] ↔
      words = [ascii "PUBLISH", channel.bytes, b] ∧
        (encodeCommand [ascii "PUBLISH", channel.bytes, b]).length + 1 < 2 ^ 31 := by
  obtain ⟨items, hitems, htext, hcode⟩ := publish_code h channel
  have hencodes : Request.Encodes (.format (template items) (items.map Item.args).flatten)
      (items.map Item.text) := .format items hitems
  rw [published, hcode, Env.run, env_run_request _ (only_code .extract),
    recorder_request_iff reply (by rintro ⟨⟩) hne, ← htext]
  constructor
  · rintro ⟨cmd, hencode, hparse⟩
    have hbuild := hencode
    rw [Request.encode, redisvFormatCommand_template hitems] at hbuild
    have hfits := length_lt_of_buildCommand hbuild
    have hexact := hencodes.exact_iff_fits.mpr hfits
    rw [hexact.encode_eq, Except.ok.injEq] at hencode
    subst hencode
    rw [parseCommand_encodeCommand_nil, Option.some.injEq, Prod.mk.injEq] at hparse
    exact ⟨hparse.1.symm, hfits⟩
  · rintro ⟨rfl, hfits⟩
    obtain ⟨cmd, hencode, -, hparse, -⟩ := hencodes.exact_iff_fits.mpr hfits
    exact ⟨cmd, hencode, hparse⟩

/-- **A published value is what `listen` returns.**  `publish` sends its channel and payload as
they are if their frame fits; and whenever it has sent a message and this is the next push,
`listen` under the matching selector returns the channel and the value. -/
theorem publish_listen {sel : Selector} {v : SEXP O} {b : Bytes} (h : sel.Payload R v b)
    (channel : CStr) (reply : List Bytes → Reply) :
    ((encodeCommand [ascii "PUBLISH", channel.bytes, b]).length + 1 < 2 ^ 31 →
      published R reply channel v sel = [[ascii "PUBLISH", channel.bytes, b]]) ∧
    ∀ c payload, published R reply channel v sel = [[ascii "PUBLISH", c, payload]] →
      ∀ (E : Env σ) (type : CStr) (s : σ), sel.ListenType type →
        (E.request .getReply s).1 = .answer (some
          (.array [.string messageWord.bytes, .string c, .string payload])) →
        (E.run (listen R type) s).1 =
          .ret (.list [.str [messageWord], .str [channel], v] none) := by
  constructor
  · intro hfits
    exact (published_eq_iff h channel reply (List.cons_ne_nil _ _)).mpr ⟨rfl, hfits⟩
  · intro c payload hpublished E type s htype hs
    obtain ⟨hwords, hfits⟩ :=
      (published_eq_iff h channel reply (List.cons_ne_nil _ _)).mp hpublished
    obtain ⟨rfl, rfl⟩ : c = channel.bytes ∧ payload = b := by simpa using hwords
    have hv := payloadValue_of_payload h htype
    have hlen : payload.length < 2 ^ 31 := by
      have hmem : payload ∈ [ascii "PUBLISH", channel.bytes, payload] := by simp
      have hle := length_le_of_mem hmem
      omega
    have hself : toInt32 payload.length = payload.length :=
      toInt32_eq_self (by omega) (by omega)
    have hdecodable : (Push.message channel payload).Decodable R type := by
      refine .inr ⟨by omega, ?_⟩
      rw [hself, Int.toNat_natCast, List.take_length]
    obtain ⟨x, hx, hshown⟩ := (listens_message_iff E
      (Option.isSome_iff_exists.mpr ⟨v, hv⟩) hs).mpr hdecodable
    cases hshown with
    | message channel b w hw =>
        rw [hv] at hw
        rw [hx, Option.some.inj hw]

/-- Two bytes, one of them zero, published raw and listened for. -/
theorem publish_listen_raw :
    published Runtime.onlyNull (fun _ => .integer 1) (.ofAscii "c") (.raw [0, 1]) .raw =
        [[ascii "PUBLISH", ascii "c", [0, 1]]] ∧
      (scripted.run (listen Runtime.onlyNull rawMode)
        { answers := [some (Push.message (.ofAscii "c") [0, 1]).reply] }).1 =
          .ret (.list [.str [messageWord], .str [.ofAscii "c"], .raw [0, 1]] none) := by
  obtain ⟨hsends, hlistens⟩ := publish_listen (R := Runtime.onlyNull) (σ := Script)
    (.raw [0, 1]) (.ofAscii "c") (fun _ => .integer 1)
  have hpublished := hsends (by decide)
  exact ⟨hpublished, hlistens _ _ hpublished scripted rawMode _ rfl rfl⟩

end RcppRedis
