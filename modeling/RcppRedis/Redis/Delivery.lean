import RcppRedis.Redis.Correspondence
import RcppRedis.Redis.Listen
import RcppRedis.Redis.PubSub

/-!
# Messages while channels are subscribed

One connection subscribes channels and listens, and other clients publish at any moment.  The
server confirms every SUBSCRIBE and pushes every message to a subscribed channel, in one
stream; `subscribe` takes what comes next in the stream as its confirmation, and `listen` takes
it as a message.

* `Delivers` — confirmations go to `subscribe`, and messages to `listen`, in the order of their
  pushes.
* `delivers_of_paced` — they do, if nothing is pushed before a SUBSCRIBE that is under way
  arrives.
-/

namespace RcppRedis

open Bytes Resp Hiredis Interact Prog

variable {O : Type} {R : Runtime O}

/-! ## The server -/

/-- A message to a channel.  A name with a zero byte is not among the channels of this
client. -/
structure Message where
  channel : CStr
  payload : Bytes

namespace Message

/-- The push of a message. -/
def reply (m : Message) : Reply := (Push.message m.channel m.payload).reply

/-- What `listen("raw")` makes of it. -/
def value (m : Message) :
    SEXP O := .list [.str [messageWord], .str [m.channel], .raw m.payload] none

end Message

/-- The subscriptions of the connection, and the messages pushed to it so far. -/
structure Broker where
  subs : Subscriptions := {}
  pushed : List Message := []

/-- A server of subscriptions, where other clients publish.  A message to a channel that is not
subscribed is not pushed. -/
def broker (other : Server Subscriptions) : Peer Broker Message where
  command words s := ((pubsub other words s.subs).1,
    { s with subs := (pubsub other words s.subs).2 })
  event m s :=
    if m.channel.bytes ∈ s.subs.channels then ([m.reply], { s with pushed := s.pushed ++ [m] })
    else ([], s)

theorem event_subscribed (other : Server Subscriptions) {m : Message} {l : Link Broker}
    (h : m.channel.bytes ∈ l.server.subs.channels) :
    l.event (broker other) m = { l with
      outbound := l.outbound ++ [m.reply]
      server := { l.server with pushed := l.server.pushed ++ [m] } } := by
  simp only [Link.event, broker, if_pos h]

theorem event_not_subscribed (other : Server Subscriptions) {m : Message} {l : Link Broker}
    (h : m.channel.bytes ∉ l.server.subs.channels) : l.event (broker other) m = l := by
  simp only [Link.event, broker, if_neg h, List.append_nil]

theorem silent_broker (other : Server Subscriptions) : (broker other).Silent := by
  intro m s hpush
  simp only [broker] at hpush ⊢
  split_ifs at hpush ⊢
  rfl

/-! ## The calls -/

/-- A call from R: `subscribe` of any channels, or `listen("raw")`. -/
inductive PubSubCall where
  | subscribe (channels : List CStr)
  | listen

/-- The method of the call. -/
def PubSubCall.method : PubSubCall → Method O
  | subscribe cs => .subscribe cs
  | listen => .listen rawMode

/-- What R sees of a confirmation. -/
def confirmationValue (name : CStr) (s : Subscriptions) : SEXP O :=
  .list [.str [Confirmation.subscribe.word], .str [name],
    .real [.ofInt (s.channels.card + s.patterns.card)]] none

/-- The confirmations of channels that are subscribed one after the other. -/
def confirmations (s : Subscriptions) : List CStr → List (SEXP O)
  | [] => []
  | name :: names =>
      confirmationValue name (s.join {name.bytes}) :: confirmations (s.join {name.bytes}) names

/-- Every call waits forever, or returns the right thing: `subscribe` the confirmation of each
of its channels, and `listen` a message, so that with it the messages heard are the first ones
pushed. -/
def Env.Delivers {σ : Type} (E : Env σ) (server : σ → Broker) (R : Runtime O) :
    List PubSubCall → List (SEXP O) → σ → Prop
  | [], _, _ => True
  | .subscribe cs :: calls, heard, n =>
      (E.run (Method.code R (.subscribe cs)) n).1 = .blocked ∨
        (E.run (Method.code R (.subscribe cs)) n).1 =
          .ret (.list (confirmations (server n).subs cs) none) ∧
        E.Delivers server R calls heard (E.run (Method.code R (.subscribe cs)) n).2.env
  | .listen :: calls, heard, n =>
      (E.run (Method.code R (.listen rawMode)) n).1 = .blocked ∨
        ∃ x, (E.run (Method.code R (.listen rawMode)) n).1 = .ret x ∧
          heard ++ [x] <+:
            (server (E.run (Method.code R (.listen rawMode)) n).2.env).pushed.map
              Message.value ∧
          E.Delivers server R calls (heard ++ [x])
            (E.run (Method.code R (.listen rawMode)) n).2.env

/-- The calls are right on this connection. -/
def Delivers (R : Runtime O) (other : Server Subscriptions) (calls : List PubSubCall)
    (heard : List (SEXP O)) (n : Net Broker Message) : Prop :=
  (Net.env (broker other)).Delivers (fun n => n.link.server) R calls heard n

/-- The instruction is no request; or no push is unread, and none is made before the command
has arrived, nor is a `send` of it interrupted. -/
def Instr.Quiet {σ ε : Type} (P : Peer σ ε) : Instr → World (Net σ ε) → Prop
  | .request q, w =>
      w.env.link.replies = [] ∧ w.env.link.outbound = [] ∧ q.Undisturbed P w.env
  | _, _ => True

/-- All instructions of a `subscribe` are as they should be, and its frames fit. -/
def Env.Paced {σ : Type} (E : Env σ) (ok : Instr → World σ → Prop) (R : Runtime O) :
    PubSubCall → σ → Prop
  | .subscribe cs, n =>
      (∀ name ∈ cs, (encodeCommand [ascii "SUBSCRIBE", name.bytes]).length + 1 < 2 ^ 31) ∧
        Along E.handler ok (Method.code R (.subscribe cs)) ⟨n, {}⟩
  | .listen, _ => True

/-- Nothing comes between the commands of a `subscribe`, whose frames fit. -/
def Paced (R : Runtime O) (other : Server Subscriptions) (c : PubSubCall)
    (n : Net Broker Message) : Prop :=
  (Net.env (broker other)).Paced (Instr.Quiet (broker other)) R c n

/-! ## The stream -/

/-- What is in the stream: the given replies and then the messages that were pushed and not
heard.  Nothing is on its way to the server, whose subscriptions are known. -/
structure Queued (heard : List (SEXP O)) (first : List Reply) (s : Subscriptions)
    (l : Link Broker) : Prop where
  err : l.err = false
  obuf : l.obuf = []
  inbound : l.inbound = []
  subs : l.server.subs = s
  unread : ∃ ms : List Message, l.replies ++ l.outbound = first ++ ms.map Message.reply ∧
    l.server.pushed.map Message.value = heard ++ ms.map Message.value ∧
    ∀ m ∈ ms, m.payload.length < 2 ^ 31

/-- No system call will fail, and an `int` can tell how long each payload is. -/
structure Calm (turns : List (Turn Message)) : Prop where
  works : .call .fails ∉ turns
  short : ∀ m, .event m ∈ turns → m.payload.length < 2 ^ 31

theorem Calm.mono {turns rest : List (Turn Message)} (h : Calm turns)
    (hrest : rest <:+ turns) : Calm rest where
  works hfails := h.works (hrest.subset hfails)
  short m hm := h.short m (hrest.subset hm)

section Queued

variable {heard : List (SEXP O)} {first : List Reply} {s : Subscriptions} {l : Link Broker}

/-- A push goes to the end of the stream. -/
theorem Queued.event (h : Queued heard first s l) (other : Server Subscriptions) {m : Message}
    (hm : m.payload.length < 2 ^ 31) : Queued heard first s (l.event (broker other) m) := by
  by_cases hmem : m.channel.bytes ∈ l.server.subs.channels
  · obtain ⟨ms, hstream, hpushed, hshort⟩ := h.unread
    rw [event_subscribed other hmem]
    refine ⟨h.err, h.obuf, h.inbound, h.subs, ms ++ [m], ?_, ?_, ?_⟩
    · rw [← List.append_assoc, hstream, List.map_append, List.append_assoc]
      rfl
    · rw [List.map_append, hpushed, List.map_append, List.append_assoc]
    · simpa [or_imp, forall_and] using And.intro hshort hm
  · rw [event_not_subscribed other hmem]
    exact h

/-- `recv` moves the stream along. -/
theorem Queued.recv (h : Queued heard first s l) (n : ℕ) :
    Queued heard first s (l.recv n) := by
  obtain ⟨ms, hstream, hrest⟩ := h.unread
  refine ⟨h.err, h.obuf, h.inbound, h.subs, ms, ?_, hrest⟩
  rw [Link.recv, List.append_assoc, List.take_append_drop, hstream]

/-- The next reply is the given one. -/
theorem Queued.next {c r : Reply} {rs : List Reply} (h : Queued heard (c :: first) s l)
    (hreplies : l.replies = r :: rs) :
    r = c ∧ Queued heard first s { l with replies := rs } := by
  obtain ⟨ms, hstream, hrest⟩ := h.unread
  rw [hreplies, List.cons_append, List.cons_append, List.cons_eq_cons] at hstream
  exact ⟨hstream.1, h.err, h.obuf, h.inbound, h.subs, ms, hstream.2, hrest⟩

/-- The next reply is the first message that was not heard. -/
theorem Queued.nextMessage {r : Reply} {rs : List Reply} (h : Queued heard [] s l)
    (hreplies : l.replies = r :: rs) :
    ∃ m : Message, r = m.reply ∧ m.payload.length < 2 ^ 31 ∧
      Queued (heard ++ [m.value]) [] s { l with replies := rs } := by
  obtain ⟨ms, hstream, hpushed, hshort⟩ := h.unread
  cases ms with
  | nil =>
      rw [hreplies] at hstream
      cases hstream
  | cons m ms =>
      rw [hreplies, List.nil_append, List.map_cons, List.cons_append,
        List.cons_eq_cons] at hstream
      obtain ⟨hm, hms⟩ := List.forall_mem_cons.mp hshort
      refine ⟨m, hstream.1, hm, h.err, h.obuf, h.inbound, h.subs, ms, hstream.2, ?_, hms⟩
      rw [hpushed, List.map_cons, List.append_assoc, List.singleton_append]

/-- What was heard was pushed before the rest. -/
theorem Queued.heard_pushed (h : Queued heard first s l) :
    heard <+: l.server.pushed.map Message.value := by
  obtain ⟨ms, -, hpushed, -⟩ := h.unread
  exact ⟨_, hpushed.symm⟩

/-- A stream with nothing to read. -/
theorem Queued.link_eq (h : Queued heard [] s l) (hreplies : l.replies = [])
    (houtbound : l.outbound = []) :
    l = { server := l.server } ∧ l.server.pushed.map Message.value = heard := by
  obtain ⟨err, obuf, replies, inbound, outbound, server⟩ := l
  obtain ⟨rfl, rfl, rfl, -, ms, hstream, hpushed, -⟩ := h
  obtain rfl : replies = [] := hreplies
  obtain rfl : outbound = [] := houtbound
  obtain rfl : ms = [] := List.map_eq_nil_iff.mp hstream.symm
  exact ⟨rfl, hpushed.trans (List.append_nil heard)⟩

end Queued

/-! ## Listening -/

/-- **A message is decoded** with all of its payload. -/
theorem listenValue_message {m : Message} (hm : m.payload.length < 2 ^ 31) {p : Pointer}
    (hp : p.node = m.reply) : listenValue R rawMode p = .ret m.value := by
  have hself : toInt32 m.payload.length = m.payload.length :=
    toInt32_eq_self (by omega) (by omega)
  have hpayload : payloadOf R rawMode ⟨p.id, p.path ++ [2], .string m.payload⟩ =
      .ret (.raw m.payload) := by
    rw [payloadOf_string rfl, if_neg (by decide), hself, if_neg (by omega), Int.toNat_natCast,
      List.take_length]
    rfl
  rw [listenValue_strings rawMode messageWord m.channel [.string m.payload] hp]
  change listenPayload R rawMode [⟨p.id, p.path ++ [2], .string m.payload⟩] >>= _ = _
  rw [listenPayload_one_eq_ret_iff.mpr ⟨_, hpayload, rfl⟩]
  rfl

/-- **The next message**: it is handed out, unless the client waits for it forever. -/
theorem getReply_step (other : Server Subscriptions) {heard : List (SEXP O)}
    {s : Subscriptions} {n : Net Broker Message} (hn : Queued heard [] s n.link)
    (hcalm : Calm n.turns) :
    (∃ n', (Net.env (broker other)).request .getReply n = (.blocked, n')) ∨
    ∃ (m : Message) (n' : Net Broker Message),
      (Net.env (broker other)).request .getReply n = (.answer (some m.reply), n') ∧
      m.payload.length < 2 ^ 31 ∧ Queued (heard ++ [m.value]) [] s n'.link ∧
      Calm n'.turns := by
  have hrequest : (Net.env (broker other)).request .getReply n =
      redisGetReply (broker other) n := rfl
  rw [hrequest, redisGetReply]
  rcases hreplies : n.link.replies with _ | ⟨r, rs⟩
  · simp only
    rw [writeLoop_done _ _ hn.err hn.obuf]
    have hends := readLoop_ends (broker other) (Queued heard [] s)
      (fun m hm l hl => hl.event other (hcalm.short m hm)) (fun k l hl => hl.recv k)
      hn.err hreplies hn
    generalize readLoop (broker other) n.turns n.link = answer at hends ⊢
    cases hends with
    | blocked l => exact .inl ⟨_, rfl⟩
    | failed hfails rest hdead => exact absurd hfails hcalm.works
    | reply hrest hl hfirst =>
        obtain ⟨m, rfl, hm, hnext⟩ := hl.nextMessage hfirst
        exact .inr ⟨m, _, rfl, hm, hnext, hcalm.mono hrest⟩
  · obtain ⟨m, rfl, hm, hnext⟩ := hn.nextMessage hreplies
    exact .inr ⟨m, _, rfl, hm, hnext, hcalm⟩

/-! ## Subscribing -/

theorem code_subscribe (names : List CStr) :
    (Method.subscribe names).code R =
      names.mapM (subscribeChannel (ascii "SUBSCRIBE")) >>=
        fun vec => .ret (.list vec none) := rfl

/-- The reply to the SUBSCRIBE that made these subscriptions. -/
def confirmationReply (name : CStr) (s : Subscriptions) : Reply :=
  .array [.string (ascii "subscribe"), .string name.bytes,
    .integer (s.channels.card + s.patterns.card)]

theorem extractReply_confirmation (name : CStr) (s : Subscriptions) {p : Pointer}
    (hp : p.node = confirmationReply name s) :
    extractReply (O := O) p = .ret (confirmationValue name s) := by
  have hword : CStr.ofBuffer (ascii "subscribe") = Confirmation.subscribe.word :=
    CStr.ofBuffer_bytes (Confirmation.subscribe.word)
  rw [extractReply, hp, confirmationReply, confirmationValue]
  simp only [extractReplyAt, extractArrayAt, CStr.ofBuffer_bytes, hword,
    Prog.pure_eq, ret_bind]

theorem command_subscribe (other : Server Subscriptions) (name : CStr) (b : Broker) :
    (broker other).command [ascii "SUBSCRIBE", name.bytes] b =
      (confirmationReply name (b.subs.join {name.bytes}),
        { b with subs := b.subs.join {name.bytes} }) := by
  simp only [broker, pubsub_subscribe]
  rfl

/-- What comes next is the element of the channel. -/
theorem run_subscribeChannel_of {σ : Type} (E : Env σ) {name : CStr} {w : World σ}
    {r : Reply} {s : σ}
    (hrequest : E.request (subscribeRequest (ascii "SUBSCRIBE") name) w.env =
      (.answer (some r), s))
    {x : SEXP O} (hx : ∀ p : Pointer, p.node = r → extractReply p = .ret x) :
    ∃ w', run E.handler (subscribeChannel (ascii "SUBSCRIBE") name) w = (.ret x, w') ∧
    w'.env = s := by
  rw [subscribeChannel_eq, run_requestNULLSafe_bind, afterRequest, hrequest]
  simp only
  rw [hx _ rfl, run_thenFree_ret]
  exact ⟨_, rfl, rfl⟩

/-- **A SUBSCRIBE**: the next reply is its confirmation, unless the client waits forever. -/
theorem subscribeRequest_step (other : Server Subscriptions) {name : CStr}
    (hfits : (encodeCommand [ascii "SUBSCRIBE", name.bytes]).length + 1 < 2 ^ 31)
    {heard : List (SEXP O)} {s : Subscriptions} {n : Net Broker Message}
    (hn : Queued heard [] s n.link) (hcalm : Calm n.turns) (hreplies : n.link.replies = [])
    (houtbound : n.link.outbound = [])
    (hundisturbed : (subscribeRequest (ascii "SUBSCRIBE") name).Undisturbed (broker other) n) :
    (∃ n', (Net.env (broker other)).request (subscribeRequest (ascii "SUBSCRIBE") name) n =
      (.blocked, n')) ∨
    ∃ n', (Net.env (broker other)).request (subscribeRequest (ascii "SUBSCRIBE") name) n =
        (.answer (some (confirmationReply name (s.join {name.bytes}))), n') ∧
      Queued heard [] (s.join {name.bytes}) n'.link ∧ Calm n'.turns := by
  obtain ⟨hlink, hpushed⟩ := hn.link_eq hreplies houtbound
  have hencodes := encodes_subscribeRequest name
  have hexact := hencodes.exact_iff_fits.mpr hfits
  have hframe : encodeCommand [ascii "SUBSCRIBE", name.bytes] ++ [] =
      encodeCommand [ascii "SUBSCRIBE", name.bytes] := List.append_nil _
  have harrive : Link.arrive (broker other).command { server := n.link.server }
      (encodeCommand [ascii "SUBSCRIBE", name.bytes]) =
        { outbound := [confirmationReply name (s.join {name.bytes})]
          server := { n.link.server with subs := s.join {name.bytes} } } := by
    rw [arrive_frame _ (l := { server := n.link.server }) hencodes.ne_nil
      (List.nil_append _), command_subscribe, hn.subs]
    rfl
  have hstart : Queued heard [confirmationReply name (s.join {name.bytes})]
      (s.join {name.bytes}) (Link.arrive (broker other).command { server := n.link.server }
        (encodeCommand [ascii "SUBSCRIBE", name.bytes])) := by
    rw [harrive]
    exact ⟨rfl, rfl, rfl, rfl, [],
      rfl, by rw [hpushed, List.map_nil, List.append_nil], by simp⟩
  have hends := request_ends (broker other) (silent_broker other) hexact.ne_getReply
    hexact.encode_eq hframe hlink hundisturbed
    (Queued heard [confirmationReply name (s.join {name.bytes})] (s.join {name.bytes}))
    (fun m hm l hl => hl.event other (hcalm.short m hm)) (fun k l hl => hl.recv k) hstart
  generalize (Net.env (broker other)).request (subscribeRequest (ascii "SUBSCRIBE") name) n =
    answer at hends ⊢
  cases hends with
  | blocked l => exact .inl ⟨_, rfl⟩
  | failed hfails rest hdead => exact absurd hfails hcalm.works
  | reply hrest hl hfirst =>
      obtain ⟨rfl, hnext⟩ := hl.next hfirst
      exact .inr ⟨_, rfl, hnext, hcalm.mono hrest⟩

/-! ## Sessions -/

/-- What is known of the stream of an environment after each request: its next reply is the
confirmation of the SUBSCRIBE that was sent, or else the next message.  The instructions of a
`subscribe` are `ok`. -/
structure Streams {σ : Type} (E : Env σ) (server : σ → Broker) (ok : Instr → World σ → Prop)
    (stream : List (SEXP O) → Subscriptions → σ → Prop) : Prop where
  subs {heard : List (SEXP O)} {s : Subscriptions} {n : σ} (h : stream heard s n) :
    (server n).subs = s
  heard {heard : List (SEXP O)} {s : Subscriptions} {n : σ} (h : stream heard s n) :
    heard <+: (server n).pushed.map Message.value
  getReply {heard : List (SEXP O)} {s : Subscriptions} {n : σ} (h : stream heard s n) :
    (∃ n', E.request .getReply n = (.blocked, n')) ∨
    ∃ (m : Message) (n' : σ), E.request .getReply n = (.answer (some m.reply), n') ∧
      m.payload.length < 2 ^ 31 ∧ stream (heard ++ [m.value]) s n'
  subscribe {heard : List (SEXP O)} {s : Subscriptions} {w : World σ} {name : CStr}
    (hfits : (encodeCommand [ascii "SUBSCRIBE", name.bytes]).length + 1 < 2 ^ 31)
    (h : stream heard s w.env)
    (hok : ok (.request (subscribeRequest (ascii "SUBSCRIBE") name)) w) :
    (∃ n', E.request (subscribeRequest (ascii "SUBSCRIBE") name) w.env = (.blocked, n')) ∨
    ∃ n', E.request (subscribeRequest (ascii "SUBSCRIBE") name) w.env =
        (.answer (some (confirmationReply name (s.join {name.bytes}))), n') ∧
      stream heard (s.join {name.bytes}) n'

namespace Streams

variable {σ : Type} {E : Env σ} {server : σ → Broker} {ok : Instr → World σ → Prop}
  {stream : List (SEXP O) → Subscriptions → σ → Prop} {heard : List (SEXP O)}
  {s : Subscriptions}

/-- **`listen("raw")`** returns the next message. -/
theorem listen_step (h : Streams E server ok stream) {n : σ} (hn : stream heard s n) :
    (E.run (Method.code R (.listen rawMode)) n).1 = .blocked ∨
    ∃ (m : Message) (w : World σ), E.run (Method.code R (.listen rawMode)) n =
      (.ret m.value, w) ∧ stream (heard ++ [m.value]) s w.env := by
  have hcode : Method.code R (.listen rawMode) = listen R rawMode := rfl
  rw [Env.run, hcode, run_listen]
  rcases h.getReply hn with ⟨n', hblocked⟩ | ⟨m, n', hanswer, hm, hnext⟩
  · left
    rw [hblocked]
  · right
    rw [hanswer]
    simp only
    rw [listenValue_message hm rfl, run_thenFree_ret]
    exact ⟨m, _, rfl, hnext⟩

/-- **One channel**: its confirmation is what `subscribe` takes, unless it waits forever. -/
theorem subscribeChannel_step (h : Streams E server ok stream) {name : CStr}
    (hfits : (encodeCommand [ascii "SUBSCRIBE", name.bytes]).length + 1 < 2 ^ 31)
    {w : World σ} (hw : stream heard s w.env)
    (hok : ok (.request (subscribeRequest (ascii "SUBSCRIBE") name)) w) :
    (run E.handler (subscribeChannel (O := O) (ascii "SUBSCRIBE") name) w).1 = .blocked ∨
    ∃ w', run E.handler (subscribeChannel (ascii "SUBSCRIBE") name) w =
        (.ret (confirmationValue (O := O) name (s.join {name.bytes})), w') ∧
      stream heard (s.join {name.bytes}) w'.env := by
  rcases h.subscribe hfits hw hok with ⟨n', hblocked⟩ | ⟨n', hanswer, hnext⟩
  · left
    rw [subscribeChannel_eq, run_requestNULLSafe_bind, afterRequest, hblocked]
  · obtain ⟨w', hrun, hw'⟩ := run_subscribeChannel_of _ hanswer fun p hp =>
      extractReply_confirmation (O := O) name _ hp
    refine .inr ⟨w', hrun, ?_⟩
    rw [hw']
    exact hnext

/-- **The channels of one call**, one after the other. -/
theorem subscribe_step (h : Streams E server ok stream) {names : List CStr}
    (hfits : ∀ name ∈ names, (encodeCommand [ascii "SUBSCRIBE", name.bytes]).length + 1 <
      2 ^ 31)
    {w : World σ} (hw : stream heard s w.env)
    (halong : Along E.handler ok
      (names.mapM (subscribeChannel (O := O) (ascii "SUBSCRIBE"))) w) :
    (run E.handler (names.mapM (subscribeChannel (O := O) (ascii "SUBSCRIBE"))) w).1 =
      .blocked ∨
    ∃ w', run E.handler (names.mapM (subscribeChannel (O := O) (ascii "SUBSCRIBE"))) w =
        (.ret (confirmations s names), w') ∧ stream heard (s.join (bytesOf names)) w'.env := by
  induction names generalizing s w with
  | nil =>
      right
      refine ⟨w, rfl, ?_⟩
      rw [bytesOf_nil, Subscriptions.join_empty]
      exact hw
  | cons name names ih =>
      obtain ⟨hname, hnames⟩ := List.forall_mem_cons.mp hfits
      rw [List.mapM_cons] at halong ⊢
      obtain ⟨hfirst, hrest⟩ := along_bind halong
      have hok : ok (.request (subscribeRequest (ascii "SUBSCRIBE") name)) w := hfirst.1
      rw [run_bind]
      rcases h.subscribeChannel_step hname hw hok with hblocked | ⟨w₁, hrun, hw₁⟩
      · exact .inl (andThen_of_blocked hblocked _)
      · rw [hrun, andThen_ret, run_bind]
        obtain ⟨halong₁, -⟩ := along_bind (hrest _ _ hrun)
        rcases ih hnames hw₁ halong₁ with hblocked | ⟨w₂, hrun₂, hw₂⟩
        · exact .inl (andThen_of_blocked hblocked _)
        · right
          rw [hrun₂, andThen_ret]
          refine ⟨w₂, rfl, ?_⟩
          rw [bytesOf_cons, ← Subscriptions.join_join]
          exact hw₂

/-- Confirmations and messages are told apart from any point of a session on. -/
theorem delivers (h : Streams E server ok stream) {calls : List PubSubCall} {n : σ}
    (hn : stream heard s n)
    (hpaced : E.Throughout (fun c => c.method.code R) (E.Paced ok R) calls n) :
    E.Delivers server R calls heard n := by
  induction calls generalizing heard s n with
  | nil => trivial
  | cons c calls ih =>
      obtain ⟨hcall, hrest⟩ := hpaced
      cases c with
      | subscribe cs =>
          obtain ⟨hfits, halong⟩ := hcall
          rw [code_subscribe] at halong
          rw [Env.Delivers, Env.run, code_subscribe, run_bind, h.subs hn]
          rcases h.subscribe_step hfits (w := ⟨n, {}⟩) hn (along_bind halong).1 with
            hblocked | ⟨w, hrun, hw⟩
          · exact .inl (andThen_of_blocked hblocked _)
          · right
            have hcall : E.run (Method.code R (PubSubCall.subscribe cs).method) n =
                (.ret (.list (confirmations s cs) none), w) := by
              rw [Env.run, PubSubCall.method, code_subscribe, run_bind, hrun]
              rfl
            rw [hcall] at hrest
            rw [hrun]
            exact ⟨rfl, ih hw (hrest trivial)⟩
      | listen =>
          rw [Env.Delivers]
          rcases h.listen_step (R := R) hn with hblocked | ⟨m, w, hrun, hw⟩
          · exact .inl hblocked
          · right
            have hcall : E.run (Method.code R PubSubCall.listen.method) n =
                (.ret m.value, w) := hrun
            rw [hcall] at hrest
            rw [hrun]
            exact ⟨_, rfl, h.heard hw, ih hw (hrest trivial)⟩

end Streams

/-- **The stream of the connection** over replies. -/
theorem streams_net (other : Server Subscriptions) :
    Streams (O := O) (Net.env (broker other)) (fun n => n.link.server)
      (Instr.Quiet (broker other))
      fun heard s n => Queued heard [] s n.link ∧ Calm n.turns where
  subs h := h.1.subs
  heard h := h.1.heard_pushed
  getReply h := getReply_step other h.1 h.2
  subscribe hfits h hquiet :=
    subscribeRequest_step other hfits h.1 h.2 hquiet.1 hquiet.2.1 hquiet.2.2

/-- **Confirmations go to `subscribe` and messages to `listen`**, none lost, none twice and
none cut short, in a session where nothing comes between the commands of a `subscribe`. -/
theorem delivers_of_paced (other : Server Subscriptions) {calls : List PubSubCall}
    {turns : List (Turn Message)} (hcalm : Calm turns)
    (h : (Net.env (broker other)).Throughout (fun c => c.method.code R) (Paced R other) calls
      ⟨turns, { server := {} }⟩) :
    Delivers R other calls [] ⟨turns, { server := {} }⟩ :=
  (streams_net other).delivers (s := {})
    ⟨⟨rfl, rfl, rfl, rfl, [], rfl, rfl, by simp⟩, hcalm⟩ h

/-! ## A message between two channels -/

theorem exact_subscribeRequest (name : CStr)
    (h : (encodeCommand [ascii "SUBSCRIBE", name.bytes]).length + 1 < 2 ^ 31) :
    (subscribeRequest (ascii "SUBSCRIBE") name).Exact [ascii "SUBSCRIBE", name.bytes] :=
  (encodes_subscribeRequest name).exact_iff_fits.mpr h

/-- A `subscribe` of one channel is paced if its command is. -/
theorem paced_of_one {σ : Type} {E : Env σ} {ok : Instr → World σ → Prop}
    (hfree : ∀ p w, ok (.freeReplyObject p) w) {name : CStr}
    (hfits : (encodeCommand [ascii "SUBSCRIBE", name.bytes]).length + 1 < 2 ^ 31) {n : σ}
    (h : ok (.request (subscribeRequest (ascii "SUBSCRIBE") name)) ⟨n, {}⟩) :
    E.Paced ok R (.subscribe [name]) n := by
  have hcode : (Method.subscribe [name] : Method O).code R =
      requestNULLSafe (subscribeRequest (ascii "SUBSCRIBE") name) >>= fun p =>
        thenFree p (extractReply p) >>= fun x => .ret (.list [x] none) := by
    simp only [code_subscribe, List.mapM_cons, List.mapM_nil, subscribeChannel_eq,
      Prog.bind_assoc, Prog.pure_eq, ret_bind]
  refine ⟨by simpa using hfits, ?_⟩
  rw [hcode]
  refine ⟨h, fun a w _ => ?_⟩
  cases a with
  | none => trivial
  | some p =>
      have hfrees := (only_thenFree (only_extractReply (O := O) p) p).bind fun x =>
        Only.ret (SEXP.list [x] none)
      refine hfrees.along (fun i w' hi => ?_) w
      cases i with
      | freeReplyObject p => exact hfree p w'
      | _ => exact hi.elim

/-- A server of subscriptions and nothing else. -/
def onlySubscriptions : Server Subscriptions := fun _ s => (.nil, s)

/-- A message, with a zero byte in it. -/
def hello : Message := ⟨keyA, ascii "hi" ++ [0]⟩

/-- A channel is subscribed, and then a message is published to it. -/
theorem hello_delivers :
    Delivers Runtime.onlyNull onlySubscriptions [.subscribe [keyA], .listen] []
      ⟨[.call (.moves 100), .call (.moves 1), .event hello, .call (.moves 1)],
        { server := {} }⟩ := by
  refine delivers_of_paced onlySubscriptions ⟨by simp, fun m hm => ?_⟩
    ⟨paced_of_one (fun _ _ => trivial) (by decide) ⟨rfl, rfl, fun cmd hcmd => ?_⟩,
      fun _ => ⟨trivial, fun _ => trivial⟩⟩
  · obtain rfl : m = hello := by simpa using hm
    decide
  · have hexact := exact_subscribeRequest keyA (by decide)
    rw [hexact.encode_eq, Except.ok.injEq] at hcmd
    subst hcmd
    refine fun _ _ => ⟨by decide, fun _ hobuf => ?_⟩
    exact absurd (by decide) hobuf

/-- A message that is taken for a confirmation. -/
theorem extractReply_message (m : Message) {p : Pointer} (hp : p.node = m.reply) :
    extractReply (O := O) p =
      .ret (.list [.str [messageWord], .str [m.channel], .str [.ofBuffer m.payload]]
        none) := by
  rw [extractReply, hp, Message.reply, Push.reply]
  simp only [extractReplyAt, extractArrayAt, CStr.ofBuffer_bytes, Prog.pure_eq, ret_bind]

/-- A confirmation that is taken for a message. -/
theorem listenValue_confirmation (name : CStr) (s : Subscriptions) {p : Pointer}
    (hp : p.node = confirmationReply name s) :
    listenValue R rawMode p =
      .ret (.list [.str [Confirmation.subscribe.word], .str [name], .raw []] none) := by
  have hpayload : payloadOf R rawMode
      ⟨p.id, p.path ++ [2], .integer (s.channels.card + s.patterns.card)⟩ =
        .ret (.raw []) := rfl
  rw [listenValue_strings rawMode (Confirmation.subscribe.word) name
    [.integer (s.channels.card + s.patterns.card)] hp]
  change listenPayload R rawMode
    [⟨p.id, p.path ++ [2], .integer (s.channels.card + s.patterns.card)⟩] >>= _ = _
  rw [listenPayload_one_eq_ret_iff.mpr ⟨_, hpayload, rfl⟩]
  rfl

/-- Two channels are subscribed, and a message to the first one comes before the second
SUBSCRIBE. -/
def overtaken : Net Broker Message where
  turns := [.call (.moves 100), .call (.moves 1), .event hello, .call (.moves 100),
    .call (.moves 1), .call (.moves 1)]
  link := { server := {} }

/-- Both channels, and then a message. -/
def subscribeTwo : List PubSubCall := [.subscribe [keyA, keyB], .listen]

/-- What `subscribe` returns: the message in the place of the second confirmation. -/
def mistaken : SEXP Empty :=
  .list [confirmationValue keyA (Subscriptions.join {} {keyA.bytes}),
    .list [.str [messageWord], .str [keyA], .str [.ofAscii "hi"]] none] none

theorem run_overtaken :
    ∃ w s, (Net.env (broker onlySubscriptions)).run
        (Method.code Runtime.onlyNull (.subscribe [keyA, keyB])) overtaken =
          (.ret mistaken, w) ∧
      w.env = ⟨[.call (.moves 1)],
        { outbound := [confirmationReply keyB s]
          server := { subs := s, pushed := [hello] } }⟩ := by
  have ha := request_at_once (broker onlySubscriptions)
    (exact_subscribeRequest keyA (by decide)) (List.cons_ne_nil _ _)
    (by decide : (encodeCommand [ascii "SUBSCRIBE", keyA.bytes]).length ≤ 100)
    [.event hello, .call (.moves 100), .call (.moves 1), .call (.moves 1)] {}
  have hevent : (broker onlySubscriptions).event hello
      { subs := Subscriptions.join {} {keyA.bytes} } =
        ([hello.reply],
          { subs := Subscriptions.join {} {keyA.bytes}, pushed := [hello] }) := by
    simp [broker, Subscriptions.join, hello]
  have hb := request_overtaken (broker onlySubscriptions)
    (exact_subscribeRequest keyB (by decide)) (List.cons_ne_nil _ _)
    (by decide : (encodeCommand [ascii "SUBSCRIBE", keyB.bytes]).length ≤ 100)
    [.call (.moves 1)] hevent
  rw [command_subscribe] at ha hb
  have hhi : CStr.ofBuffer hello.payload = .ofAscii "hi" := by decide
  obtain ⟨w₁, hrun₁, hw₁⟩ := run_subscribeChannel_of (O := Empty) _ (w := ⟨overtaken, {}⟩) ha
    fun p hp => extractReply_confirmation keyA _ hp
  obtain ⟨w₂, hrun₂, hw₂⟩ := run_subscribeChannel_of (O := Empty) _ (w := w₁)
    (by rw [hw₁]; exact hb) fun p hp => extractReply_message hello hp
  rw [hhi] at hrun₂
  refine ⟨w₂, _, ?_, hw₂⟩
  rw [Env.run, code_subscribe, run_bind, run_mapM_cons _ hrun₁ (run_mapM_cons _ hrun₂ rfl)]
  rfl

/-- The message is returned in the place of a confirmation, and then the confirmation in the
place of the message. -/
theorem overtaken_not_delivers :
    ((Net.env (broker onlySubscriptions)).session
      (subscribeTwo.map fun c => c.method.code Runtime.onlyNull) overtaken).map Prod.fst =
        [.ret mistaken, .ret
          (.list [.str [Confirmation.subscribe.word], .str [keyB], .raw []] none)] ∧
    ¬ Delivers Runtime.onlyNull onlySubscriptions subscribeTwo [] overtaken := by
  obtain ⟨w, s, hrun, hw⟩ := run_overtaken
  constructor
  · have hrequest : (Net.env (broker onlySubscriptions)).request .getReply w.env =
        (.answer (some (confirmationReply keyB s)),
          ⟨[], { server := { subs := s, pushed := [hello] } }⟩) := by
      rw [hw]
      exact (writeLoop_done _ _ rfl rfl).trans (readLoop_at_once _ [] _ [] _)
    have hlisten : ((Net.env (broker onlySubscriptions)).run
        (Method.code Runtime.onlyNull (.listen rawMode)) w.env).1 =
          .ret (.list [.str [Confirmation.subscribe.word], .str [keyB], .raw []] none) := by
      have hcode : Method.code Runtime.onlyNull (.listen rawMode) =
          listen Runtime.onlyNull rawMode := rfl
      rw [hcode, Env.run, run_listen, hrequest]
      simp only
      rw [listenValue_confirmation keyB s rfl, run_thenFree_ret]
    rw [subscribeTwo, List.map_cons, List.map_singleton]
    simp only [PubSubCall.method]
    rw [session_cons_ret hrun, session_singleton, List.map_cons, List.map_singleton, hlisten]
  · intro h
    rw [subscribeTwo, Delivers, Env.Delivers, hrun] at h
    have hword : messageWord ≠ Confirmation.subscribe.word := by decide
    rcases h with ⟨⟨⟩⟩ | ⟨hret, -⟩
    simp [mistaken, confirmations, confirmationValue, hword] at hret

end RcppRedis
