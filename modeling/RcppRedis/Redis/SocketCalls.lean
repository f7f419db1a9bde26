import RcppRedis.Redis.Delivery
import RcppRedis.Redis.SocketRefines

/-!
# Calls over bytes

What is proved of calls over replies is carried over to the connection of bytes: a request
there ends as one on other turns, and where its command is written undisturbed, it is so on
these.

* `Socket.own_replies_of_uninterrupted` — no call of a session is mistaken about its replies,
  unless a `send` is interrupted.
* `Socket.messages_of_paced` — confirmations go to `subscribe`, and messages to `listen`.
-/

namespace RcppRedis

open Bytes Resp Hiredis Interact Prog Pieces Preorder

variable {O : Type} {R : Runtime O} {σ ε : Type} {strtod : Bytes → Double × Bytes}

/-! ## One request -/

/-- What a loop that writes looks at. -/
def Wire.link (w : Wire σ) : Link σ where
  err := w.context.err.isSome
  obuf := w.context.obuf
  inbound := w.inbound
  server := w.server

/-- The connection as a loop that writes takes it. -/
def Socket.toNet (n : Socket σ ε) : Net σ ε :=
  ⟨n.turns.map ByteTurn.toTurn, n.wire.link⟩

/-- Nothing is on the way to the client. -/
theorem Refines.link_eq {w : Wire σ} {l : Link σ} (h : Refines strtod w l)
    (hreplies : l.replies = []) (houtbound : l.outbound = []) : w.link = l := by
  obtain ⟨err, obuf, replies, inbound, outbound, server⟩ := l
  obtain rfl : replies = [] := hreplies
  obtain rfl : outbound = [] := houtbound
  obtain ⟨rfl, rfl, rfl, rfl, -, -⟩ := h
  rfl

/-- **A request over bytes** is one over replies, and leaves connections that are related. -/
theorem Refines.request {P : Peer σ ε} {happens : ε → Prop} {Inv : Link σ → Prop}
    (hP : P.Keeps strtod happens Inv) {n : Socket σ ε}
    (hevents : ∀ e, .event e ∈ n.turns → happens e) {l : Link σ}
    (h : Refines strtod n.wire l) (q : Request)
    (hl : ∀ cmd, q.encode = .ok cmd → Inv { l with obuf := l.obuf ++ cmd.bytes }) :
    (∃ n', (Socket.env strtod P).request q n = (.blocked, n')) ∨
    ∃ answer pre rest w' turns' l', n.turns = pre ++ rest ∧
      (Socket.env strtod P).request q n = (answer, ⟨rest, w'⟩) ∧
      List.Forall₂ Lowers pre turns' ∧
      (Net.env P).request q ⟨turns', l⟩ = (answer, ⟨[], l'⟩) ∧ Refines strtod w' l' ∧
      (l.replies = [] → q.Undisturbed P ⟨n.turns.map ByteTurn.toTurn, l⟩ →
        q.Undisturbed P ⟨turns', l⟩) := by
  obtain ⟨turns, w⟩ := n
  obtain ⟨pre, rest, turns', rfl, hpre, ⟨hblocked, -⟩ | ⟨w', l', hw, hrefines, hmore⟩⟩ :=
    request_replays hP hevents h q hl
  · exact .inl ⟨_, Prod.ext hblocked rfl⟩
  · obtain ⟨hanswer, hpromise⟩ := hmore []
    rw [List.append_nil] at hanswer hpromise
    exact .inr ⟨_, pre, rest, w', turns', l', rfl, Prod.ext rfl hw, hpre, hanswer, hrefines,
      hpromise⟩

/-! ## Replies and commands -/

namespace Socket

/-- The call raises an error, or waits forever, or ends as it does where the server's reply to
each of its commands is handed out for this command. -/
def Corresponds (strtod : Bytes → Double × Bytes) (R : Runtime O) (S : Server σ) (m : Method O)
    (n : Socket σ Empty) : Prop :=
  (∃ e, ((env strtod (answering S)).run (m.code R) n).1 = .raise e) ∨
    ((env strtod (answering S)).run (m.code R) n).1 = .blocked ∨
    ((env strtod (answering S)).run (m.code R) n).1 =
      ((Conn.env S).run (m.code R) { server := n.wire.server }).1

/-- No `send` of the call is interrupted, and no word that it hands over as a vector is so long
that `%u` misreads its length. -/
def Uninterrupted (strtod : Bytes → Double × Bytes) (R : Runtime O) (S : Server σ)
    (m : Method O) (n : Socket σ Empty) : Prop :=
  (∀ q ∈ m.requests R, q.Measured) ∧
    Along (env strtod (answering S)).handler
      (fun i w => i.Undisturbed (answering S) ⟨w.env.toNet, w.ledger⟩) (m.code R) ⟨n, {}⟩

/-- The connection is related to one that nothing is left on, or whose error is set. -/
def Settled (strtod : Bytes → Double × Bytes) (n : Socket σ Empty) (c : Conn σ) : Prop :=
  ∃ l, Refines strtod n.wire l ∧ RcppRedis.Settled ⟨[], l⟩ c

/-- The connection is related to one whose error is set. -/
def Dead (strtod : Bytes → Double × Bytes) (n : Socket σ Empty) : Prop :=
  ∃ l, Refines strtod n.wire l ∧ l.Dead

theorem undisturbed_of_toNet {S : Server σ} {n : Socket σ Empty} {l : Link σ} {c : Conn σ}
    (hl : Refines strtod n.wire l) (hc : RcppRedis.Settled ⟨[], l⟩ c) {q : Request}
    (h : q.Undisturbed (answering S) n.toNet) :
    q.Undisturbed (answering S) ⟨n.turns.map ByteTurn.toTurn, l⟩ := by
  rcases hc with ⟨hlink, -⟩ | hdead
  · obtain rfl : l = { server := c.server } := hlink
    rw [← hl.link_eq rfl rfl]
    exact h
  · intro cmd _
    refine undisturbed_of_done (.inl ?_) _
    exact hdead.1

theorem replies_of_settled {l : Link σ} {c : Conn σ} (hc : RcppRedis.Settled ⟨[], l⟩ c) :
    l.replies = [] := by
  rcases hc with ⟨hlink, -⟩ | hdead
  · obtain rfl : l = { server := c.server } := hlink
    rfl
  · exact hdead.2

/-- **A request on a settled connection** ends as on the ideal one, and leaves it settled. -/
theorem request_settled (S : Server σ) (hS : (answering S).Writes strtod) {q : Request}
    {words : List Bytes} (hq : q.Encodes words) (hmeasured : q.Measured) {n : Socket σ Empty}
    {c : Conn σ} (hnc : Settled strtod n c) (h : q.Undisturbed (answering S) n.toNet) :
    RequestSimulates (env strtod (answering S)) S (Settled strtod) (Dead strtod) q n c := by
  obtain ⟨l, hl, hc⟩ := hnc
  rcases hl.request hS.keeps (fun _ _ => trivial) q (fun _ _ => hl.sendable) with
    ⟨n', hblocked⟩ | ⟨answer, pre, rest, w', turns', l', -, hsocket, -, hanswer, hrefines,
      hundisturbed⟩
  · exact .inr (.inl (congrArg Prod.fst hblocked))
  · have hwritten := hundisturbed (replies_of_settled hc) (undisturbed_of_toNet hl hc h)
    have hsettled := RcppRedis.request_settled S hq hmeasured (n := ⟨turns', l⟩) hc hwritten
    rw [RequestSimulates, hanswer] at hsettled
    rw [RequestSimulates, hsocket]
    rcases hsettled with ⟨hsame, hnext⟩ | hblocked | ⟨hdead, hnone⟩
    · exact .inl ⟨hsame, l', hrefines, hnext⟩
    · exact .inr (.inl hblocked)
    · exact .inr (.inr ⟨⟨l', hrefines, hdead⟩, hnone⟩)

/-- **One call** on a connection at rest, none of whose `send`s is interrupted, has its own
replies, and leaves the connection at rest. -/
theorem corresponds_step (S : Server σ) (hS : (answering S).Writes strtod) {m : Method O}
    (hm : m.Typed) {n : Socket σ Empty}
    (hn : ∃ l, Refines strtod n.wire l ∧ Resting ⟨[], l⟩) (h : Uninterrupted strtod R S m n) :
    Corresponds strtod R S m n ∧
      (((env strtod (answering S)).run (m.code R) n).1.Ended →
        ∃ l, Refines strtod ((env strtod (answering S)).run (m.code R) n).2.env.wire l ∧
          Resting ⟨[], l⟩) := by
  obtain ⟨hmeasured, halong⟩ := h
  obtain ⟨l, hl, hrest⟩ := hn
  have hsettled : Settled strtod n { server := n.wire.server } := by
    refine ⟨l, hl, ?_⟩
    rw [← hl.server]
    exact hrest.settled
  rcases call_simulates hm hmeasured
      (fun q words hwords hq w hw c hc => request_settled S hS hwords hq hc hw) hsettled halong
    with ⟨hsame, l', hl', hsettled'⟩ | hblocked | ⟨⟨l', hl', hdead⟩, hraise⟩
  · exact ⟨.inr (.inr hsame), fun _ => ⟨l', hl', hsettled'.resting⟩⟩
  · refine ⟨.inr (.inl hblocked), fun hended => ?_⟩
    rw [hblocked] at hended
    exact hended.elim
  · exact ⟨.inl hraise, fun _ => ⟨l', hl', .inr hdead⟩⟩

/-- **Every call has its own replies** in a session none of whose `send`s is interrupted, in
whatever pieces the bytes come. -/
theorem own_replies_of_uninterrupted (S : Server σ) (hS : (answering S).Writes strtod)
    {calls : List (Method O)} (hcalls : ∀ m ∈ calls, m.Typed) (turns : List (ByteTurn Empty))
    (s : σ)
    (h : (env strtod (answering S)).Throughout (Method.code R) (Uninterrupted strtod R S) calls
      ⟨turns, { server := s }⟩) :
    (env strtod (answering S)).Throughout (Method.code R) (Corresponds strtod R S) calls
      ⟨turns, { server := s }⟩ :=
  throughout_of_step (fun n => ∃ l, Refines strtod n.wire l ∧ Resting ⟨[], l⟩)
    (fun m hm _ hn => corresponds_step S hS (hcalls m hm) hn)
    ⟨_, refines_fresh s, .inl rfl⟩ h

end Socket

/-- A read whose bytes come in three pieces has its own reply. -/
theorem read_has_own_reply :
    (Socket.env noNumber (answering numbering)).Throughout (Method.code Runtime.onlyNull)
      (Socket.Corresponds noNumber Runtime.onlyNull numbering) [.getString keyA]
      ⟨threePieces, { server := 0 }⟩ := by
  refine Socket.own_replies_of_uninterrupted numbering
    (writes_answering.mpr sendable_numbering) ?_ threePieces 0 ⟨?_, fun _ => trivial⟩
  · simp [Method.Typed]
  · refine ⟨measured_of_format rfl, along_command (fun _ _ => trivial) rfl fun cmd hcmd => ?_⟩
    rw [(exact_getString keyA (by decide)).encode_eq, Except.ok.injEq] at hcmd
    subst hcmd
    refine fun _ _ => ⟨by decide, fun _ hobuf => ?_⟩
    exact absurd (by decide) hobuf

/-! ## Messages while channels are subscribed -/

/-- The instruction is no request; or no byte of a push is unread, and none is pushed before
the command has arrived, nor is a `send` of it interrupted; and the reply to it can be read. -/
def Instr.QuietBytes (strtod : Bytes → Double × Bytes) (P : Peer σ ε) :
    Instr → World (Socket σ ε) → Prop
  | .request q, w =>
      (w.env.wire.context.reader.stack = [] ∧ w.env.wire.context.reader.rest = []) ∧
        w.env.wire.outbound = [] ∧ q.Undisturbed P w.env.toNet ∧
        ∀ cmd words, q.encode = .ok cmd → parseCommand cmd.bytes = some (words, []) →
          Sendable strtod (P.command words w.env.wire.server).1
  | _, _ => True

/-- A system call that works, or is interrupted. -/
def Works : SocketCall → Prop
  | .moves _ => True
  | .eof => False
  | .fails errno _ => errno = .interrupted

/-- No system call finds an error or the end of the stream, and every message can be read. -/
structure Socket.Calm (strtod : Bytes → Double × Bytes) (turns : List (ByteTurn Message)) :
    Prop where
  works : ∀ c, .call c ∈ turns → Works c
  short : ∀ m, .event m ∈ turns → m.payload.length < 2 ^ 31
  sendable : ∀ m, .event m ∈ turns → Sendable strtod m.reply

theorem Socket.Calm.of_append {pre rest : List (ByteTurn Message)}
    (h : Socket.Calm strtod (pre ++ rest)) : Socket.Calm strtod rest where
  works c hc := h.works c (List.mem_append_right _ hc)
  short m hm := h.short m (List.mem_append_right _ hm)
  sendable m hm := h.sendable m (List.mem_append_right _ hm)

theorem not_works_of_lowers {turn : ByteTurn ε} (h : Lowers turn (.call .fails)) :
    ∃ c, turn = .call c ∧ ¬ Works c := by
  cases h with
  | closed => exact ⟨_, rfl, id⟩
  | fails herrno strerror => exact ⟨_, rfl, herrno⟩

/-- The turns over replies are calm, too. -/
theorem Socket.Calm.lowers {pre rest : List (ByteTurn Message)} {turns' : List (Turn Message)}
    (h : Socket.Calm strtod (pre ++ rest)) (hpre : List.Forall₂ Lowers pre turns') :
    RcppRedis.Calm turns' := by
  induction hpre with
  | nil => exact ⟨List.not_mem_nil, fun m hm => absurd hm List.not_mem_nil⟩
  | @cons turn turn' pre turns' hturn hpre ih =>
      have hone : Socket.Calm strtod ([turn] ++ (pre ++ rest)) := h
      have htail := ih hone.of_append
      constructor
      · rintro (_ | ⟨_, hfails⟩)
        · obtain ⟨c, rfl, hc⟩ := not_works_of_lowers hturn
          exact hc (h.works c List.mem_cons_self)
        · exact htail.works hfails
      · rintro m (_ | ⟨_, hm⟩)
        · cases hturn
          exact h.short m List.mem_cons_self
        · exact htail.short m hm

/-- Nothing is on the way to the client, and its reader has nothing left. -/
theorem Refines.nothing_left {w : Wire σ} {l : Link σ} (h : Refines strtod w l)
    (hstack : w.context.reader.stack = []) (hrest : w.context.reader.rest = [])
    (houtbound : w.outbound = []) : l.replies = [] ∧ l.outbound = [] := by
  have hnil (rs : List Reply) (hrs : ∀ r ∈ rs, Sendable strtod r) (hall : encodeAll rs = []) :
      rs = [] := by
    cases rs with
    | nil => rfl
    | cons r rs =>
        have hne := encode_ne_nil (hrs r List.mem_cons_self).writable
        exact absurd (List.append_eq_nil_iff.mp hall).1 hne
  obtain ⟨u, hreader, hu, -⟩ := h.reader
  obtain ⟨hreplies, rfl⟩ := List.append_eq_nil_iff.mp (hreader.eq_nil hstack hrest)
  obtain ⟨hsendable, hsendable'⟩ := List.forall_mem_append.mp h.sendable
  rw [houtbound] at hu
  exact ⟨hnil _ hsendable hreplies, hnil _ hsendable' hu.symm⟩

/-- Nothing is on the way to the server, or the command is, whose reply can be read. -/
def OnTheWay (strtod : Bytes → Double × Bytes) (other : Server Subscriptions)
    (words : List Bytes) (l : Link Broker) : Prop :=
  (∀ r ∈ l.replies ++ l.outbound, Sendable strtod r) ∧
    (l.inbound = [] ∧ l.obuf = [] ∨
      l.inbound ++ l.obuf = encodeCommand words ∧
        Sendable strtod (pubsub other words l.server.subs).1)

/-- A command on its way arrives in part, or it is answered. -/
theorem OnTheWay.send {other : Server Subscriptions} {words : List Bytes} (hne : words ≠ [])
    (n : ℕ) {l : Link Broker} (h : OnTheWay strtod other words l) :
    OnTheWay strtod other words (l.send (broker other).command n) := by
  obtain ⟨hsendable, ⟨hinbound, hobuf⟩ | ⟨hframe, hreply⟩⟩ := h
  · have hsame : l.send (broker other).command n = l := by
      obtain ⟨err, obuf, replies, inbound, outbound, server⟩ := l
      obtain rfl : inbound = [] := hinbound
      obtain rfl : obuf = [] := hobuf
      simp only [Link.send, Link.arrive, List.drop_nil, List.take_nil, List.append_nil,
        serve_nil]
    rw [hsame]
    exact ⟨hsendable, .inl ⟨hinbound, hobuf⟩⟩
  · by_cases hdrop : l.obuf.drop n = []
    · -- the last of the command arrives
      have htake : l.inbound ++ l.obuf.take n = encodeCommand words := by
        rw [← hframe, ← List.take_append_drop n l.obuf, hdrop, List.append_nil,
          List.take_take, Nat.min_self]
      rw [Link.send, arrive_frame (broker other).command
        (l := { l with obuf := l.obuf.drop n }) hne htake, hdrop]
      refine ⟨?_, .inl ⟨rfl, rfl⟩⟩
      rw [← List.append_assoc]
      exact List.forall_mem_append.mpr ⟨hsendable, List.forall_mem_singleton.mpr hreply⟩
    · have hmore : l.inbound ++ l.obuf.take n ++ l.obuf.drop n = encodeCommand words := by
        rw [List.append_assoc, List.take_append_drop, hframe]
      rw [Link.send, arrive_prefix (broker other).command
        (l := { l with obuf := l.obuf.drop n }) hmore hdrop]
      exact ⟨hsendable, .inr ⟨hmore, hreply⟩⟩

/-- A message that can be read joins the replies on their way. -/
theorem OnTheWay.event {other : Server Subscriptions} {words : List Bytes} {m : Message}
    (hm : Sendable strtod m.reply) {l : Link Broker} (h : OnTheWay strtod other words l) :
    OnTheWay strtod other words (l.event (broker other) m) := by
  by_cases hmem : m.channel.bytes ∈ l.server.subs.channels
  · rw [event_subscribed other hmem]
    refine ⟨?_, h.2⟩
    rw [← List.append_assoc]
    exact List.forall_mem_append.mpr ⟨h.1, List.forall_mem_singleton.mpr hm⟩
  · rw [event_not_subscribed other hmem]
    exact h

/-- One command is answered with a reply that can be read. -/
theorem keeps_broker (other : Server Subscriptions) {words : List Bytes} (hne : words ≠ []) :
    (broker other).Keeps strtod (fun m => Sendable strtod m.reply)
      (OnTheWay strtod other words) where
  sendable h := h.1
  event hm _ h := h.event hm
  send n _ h := h.send hne n
  recv n l h := by
    refine ⟨?_, h.2⟩
    rw [Link.recv, List.append_assoc, List.take_append_drop]
    exact h.1

/-- What is in the stream over bytes. -/
def Socket.Queued (strtod : Bytes → Double × Bytes) (heard : List (SEXP O))
    (s : Subscriptions) (n : Socket Broker Message) : Prop :=
  ∃ l, Refines strtod n.wire l ∧ RcppRedis.Queued heard [] s l ∧ Socket.Calm strtod n.turns

/-- **The next message** is handed out, in whatever pieces it comes. -/
theorem Socket.getReply_step (other : Server Subscriptions) {heard : List (SEXP O)}
    {s : Subscriptions} {n : Socket Broker Message} (hn : Socket.Queued strtod heard s n) :
    (∃ n', (Socket.env strtod (broker other)).request .getReply n = (.blocked, n')) ∨
    ∃ (m : Message) (n' : Socket Broker Message),
      (Socket.env strtod (broker other)).request .getReply n = (.answer (some m.reply), n') ∧
      m.payload.length < 2 ^ 31 ∧ Socket.Queued strtod (heard ++ [m.value]) s n' := by
  obtain ⟨l, hl, hq, hcalm⟩ := hn
  have hway (cmd : Cmd) (hcmd : Request.getReply.encode = .ok cmd) :
      OnTheWay strtod other [[]] { l with obuf := l.obuf ++ cmd.bytes } := by
    obtain rfl := Except.ok.inj hcmd
    exact ⟨hl.sendable, .inl ⟨hq.inbound, by rw [hq.obuf]; rfl⟩⟩
  rcases hl.request (keeps_broker other (List.cons_ne_nil [] [])) hcalm.sendable .getReply
      hway with hblocked |
    ⟨answer, pre, rest, w', turns', l', hturns, hsocket, hpre, hanswer, hl', -⟩
  · exact .inl hblocked
  · rw [hturns] at hcalm
    rcases RcppRedis.getReply_step other (n := ⟨turns', l⟩) hq (hcalm.lowers hpre) with
      ⟨n', hblocked⟩ | ⟨m, n', hm, hshort, hnext, -⟩
    · obtain ⟨rfl, -⟩ := Prod.mk.inj (hanswer.symm.trans hblocked)
      exact .inl ⟨_, hsocket⟩
    · obtain ⟨rfl, rfl⟩ := Prod.mk.inj (hanswer.symm.trans hm)
      exact .inr ⟨m, _, hsocket, hshort, l', hl', hnext, hcalm.of_append⟩

/-- **A SUBSCRIBE** that is written undisturbed is answered with its confirmation. -/
theorem Socket.subscribeRequest_step (other : Server Subscriptions) {name : CStr}
    (hfits : (encodeCommand [ascii "SUBSCRIBE", name.bytes]).length + 1 < 2 ^ 31)
    {heard : List (SEXP O)} {s : Subscriptions} {w : World (Socket Broker Message)}
    (hn : Socket.Queued strtod heard s w.env)
    (hok : Instr.QuietBytes strtod (broker other)
      (.request (subscribeRequest (ascii "SUBSCRIBE") name)) w) :
    (∃ n', (Socket.env strtod (broker other)).request
        (subscribeRequest (ascii "SUBSCRIBE") name) w.env = (.blocked, n')) ∨
    ∃ n', (Socket.env strtod (broker other)).request
        (subscribeRequest (ascii "SUBSCRIBE") name) w.env =
        (.answer (some (confirmationReply name (s.join {name.bytes}))), n') ∧
      Socket.Queued strtod heard (s.join {name.bytes}) n' := by
  obtain ⟨l, hl, hq, hcalm⟩ := hn
  obtain ⟨⟨hstack, hrest⟩, houtbound, hquiet, hreply⟩ := hok
  obtain ⟨hreplies, hout⟩ := hl.nothing_left hstack hrest houtbound
  have hencodes := encodes_subscribeRequest name
  have hexact := hencodes.exact_iff_fits.mpr hfits
  have hway (cmd : Cmd)
      (hcmd : (subscribeRequest (ascii "SUBSCRIBE") name).encode = .ok cmd) :
      OnTheWay strtod other [ascii "SUBSCRIBE", name.bytes]
        { l with obuf := l.obuf ++ cmd.bytes } := by
    rw [hexact.encode_eq, Except.ok.injEq] at hcmd
    subst hcmd
    refine ⟨hl.sendable, .inr ⟨?_, ?_⟩⟩
    · simp only [hq.inbound, hq.obuf, List.nil_append]
    · have hsendable := hreply _ _ hexact.encode_eq (parseCommand_encodeCommand_nil _)
      rwa [← hl.server] at hsendable
  rcases hl.request (keeps_broker other hencodes.ne_nil) hcalm.sendable _ hway with
    hblocked |
    ⟨answer, pre, rest, w', turns', l', hturns, hsocket, hpre, hanswer, hl', hundisturbed⟩
  · exact .inl hblocked
  · rw [Socket.toNet, hl.link_eq hreplies hout] at hquiet
    have hwritten := hundisturbed hreplies hquiet
    rw [hturns] at hcalm
    rcases RcppRedis.subscribeRequest_step other hfits (n := ⟨turns', l⟩) hq
        (hcalm.lowers hpre) hreplies hout hwritten with ⟨n', hblocked⟩ | ⟨n', hm, hnext, -⟩
    · obtain ⟨rfl, -⟩ := Prod.mk.inj (hanswer.symm.trans hblocked)
      exact .inl ⟨_, hsocket⟩
    · obtain ⟨rfl, rfl⟩ := Prod.mk.inj (hanswer.symm.trans hm)
      exact .inr ⟨_, hsocket, l', hl', hnext, hcalm.of_append⟩

/-- **The stream of the connection** over bytes. -/
theorem streams_socket (other : Server Subscriptions) :
    Streams (O := O) (Socket.env strtod (broker other)) (fun n => n.wire.server)
      (Instr.QuietBytes strtod (broker other)) (Socket.Queued strtod) where
  subs := by
    rintro heard s n ⟨l, hl, hq, -⟩
    rw [← hl.server]
    exact hq.subs
  heard := by
    rintro heard s n ⟨l, hl, hq, -⟩
    rw [← hl.server]
    exact hq.heard_pushed
  getReply h := Socket.getReply_step other h
  subscribe hfits h hok := Socket.subscribeRequest_step other hfits h hok

/-- **Confirmations go to `subscribe` and messages to `listen`**, none lost, none twice and
none cut short, in whatever pieces the bytes come, in a session where nothing comes between the
commands of a `subscribe`. -/
theorem Socket.messages_of_paced (other : Server Subscriptions) {calls : List PubSubCall}
    {turns : List (ByteTurn Message)} (hcalm : Socket.Calm strtod turns)
    (h : (Socket.env strtod (broker other)).Throughout (fun c => c.method.code R)
      ((Socket.env strtod (broker other)).Paced (Instr.QuietBytes strtod (broker other)) R)
      calls ⟨turns, { server := {} }⟩) :
    (Socket.env strtod (broker other)).Delivers (fun n => n.wire.server) R calls []
      ⟨turns, { server := {} }⟩ :=
  (streams_socket other).delivers (s := {})
    ⟨_, refines_fresh _, ⟨rfl, rfl, rfl, rfl, [], rfl, rfl, by simp⟩, hcalm⟩ h

/-- A confirmation comes in two pieces, and a message in three. -/
def helloInPieces : List (ByteTurn Message) :=
  [.call (.moves 100), .call (.moves 5), .call (.moves 100), .event hello, .call (.moves 3),
    .call (.fails .interrupted []), .call (.moves 20), .call (.moves 100)]

theorem sendable_hello : Sendable noNumber hello.reply where
  writable := ⟨⟨3, rfl, by decide, by decide⟩,
    show (ascii "message").length < 2 ^ 63 by decide,
    show keyA.bytes.length < 2 ^ 63 by decide, show hello.payload.length < 2 ^ 63 by decide,
    trivial⟩
  notPush := rfl
  length := by decide

theorem sendable_confirmation :
    Sendable noNumber (confirmationReply keyA (Subscriptions.join {} {keyA.bytes})) := by
  have hcard : confirmationReply keyA (Subscriptions.join {} {keyA.bytes}) =
      .array [.string (ascii "subscribe"), .string keyA.bytes, .integer 1] := by
    simp [confirmationReply, Subscriptions.join]
  rw [hcard]
  refine ⟨⟨⟨3, rfl, by decide, by decide⟩, ?_, ?_, ?_, trivial⟩, rfl, by decide⟩
  · exact show (ascii "subscribe").length < 2 ^ 63 by decide
  · exact show keyA.bytes.length < 2 ^ 63 by decide
  · exact show -(2 ^ 63) ≤ (1 : ℤ) ∧ (1 : ℤ) < 2 ^ 63 by decide

/-- The message is heard, with its zero byte. -/
theorem hello_heard :
    (Socket.env noNumber (broker onlySubscriptions)).Delivers (fun n => n.wire.server)
      Runtime.onlyNull [.subscribe [keyA], .listen] [] ⟨helloInPieces, { server := {} }⟩ := by
  have hexact := exact_subscribeRequest keyA (by decide)
  refine Socket.messages_of_paced onlySubscriptions
    ⟨by simp [helloInPieces, Works], fun m hm => ?_, fun m hm => ?_⟩
    ⟨paced_of_one (fun _ _ => trivial) (by decide)
      ⟨⟨rfl, rfl⟩, rfl, fun cmd hcmd => ?_, fun cmd words hcmd hwords => ?_⟩,
      fun _ => ⟨trivial, fun _ => trivial⟩⟩
  · obtain rfl : m = hello := by simpa [helloInPieces] using hm
    decide
  · obtain rfl : m = hello := by simpa [helloInPieces] using hm
    exact sendable_hello
  · rw [hexact.encode_eq, Except.ok.injEq] at hcmd
    subst hcmd
    refine fun _ _ => ⟨by decide, fun _ hobuf => ?_⟩
    exact absurd (by decide) hobuf
  · rw [hexact.encode_eq, Except.ok.injEq] at hcmd
    subst hcmd
    rw [parseCommand_encodeCommand_nil, Option.some.injEq, Prod.mk.injEq] at hwords
    obtain ⟨rfl, -⟩ := hwords
    rw [command_subscribe]
    exact sendable_confirmation

end RcppRedis
