import RcppRedis.Redis.Exchange
import RcppRedis.Redis.Rejected

/-!
# Replies and commands

A method takes what hiredis hands out next as the reply to the command that it has just sent;
nothing on the connection says which command a reply belongs to.  Here the server answers every
command with one reply, and the network moves less than it is asked to, is interrupted, or
fails.

* `Corresponds` — a call that returns decodes the replies to its own commands.
* `call_simulates` — a call on a connection that is settled.
* `corresponds_of_uninterrupted` — no call of a session is mistaken about its replies, unless a
  `send` is interrupted.
-/

namespace RcppRedis

open Bytes Resp Hiredis Interact Prog

variable {O : Type} {R : Runtime O} {σ α : Type}

/-- A server that sends nothing of its own.  What other clients do to it is part of its
state. -/
def answering (S : Server σ) : Peer σ Empty where
  command := S
  event e := e.elim

/-- A method of its own for a command, and not of the subscriptions. -/
def Method.Typed : Method O → Prop
  | exec _ | execv _ | «exists» _ | expire _ _ | pexpire _ _ | del _ => False
  | listen _ | subscribe _ | psubscribe _ | unsubscribe _ | publish _ _ _ => False
  | _ => True

/-- The call raises an error, or waits forever, or ends as it does where the server's reply to
each of its commands is handed out for this command. -/
def Corresponds (R : Runtime O) (S : Server σ) (m : Method O) (n : Net σ Empty) : Prop :=
  (∃ e, (runOn R (answering S) m n).1 = .raise e) ∨ (runOn R (answering S) m n).1 = .blocked ∨
    (runOn R (answering S) m n).1 =
      ((Conn.env S).run (m.code R) { server := n.link.server }).1

/-- `%u` reads the length of every word that is handed over as a vector. -/
def Request.Measured (q : Request) : Prop :=
  ∀ words, q = .argv words → ∀ w ∈ words, w.length < 2 ^ 32

/-- The instruction is no request, or its command is written undisturbed. -/
def Instr.Undisturbed {ε : Type} (P : Peer σ ε) : Instr → World (Net σ ε) → Prop
  | .request q, w => q.Undisturbed P w.env
  | _, _ => True

/-- No `send` of the call is interrupted, and no word that it hands over as a vector is so long
that `%u` misreads its length. -/
def Uninterrupted (R : Runtime O) (S : Server σ) (m : Method O) (n : Net σ Empty) : Prop :=
  (∀ q ∈ m.requests R, q.Measured) ∧
    Along (Net.env (answering S)).handler (Instr.Undisturbed (answering S)) (m.code R) ⟨n, {}⟩

/-! ## Methods -/

/-- The instruction is a request that has got no reply. -/
def Instr.NoReply : (i : Instr) → i.Answer → Prop
  | .request _, a => a = none
  | _, _ => False

theorem strict_frees {p : Code α} (hp : Only Instr.Frees p) : Strict Instr.NoReply p := by
  refine hp.strict fun i a hi ha => ?_
  cases i with
  | freeReplyObject p => exact ha
  | _ => exact hi

theorem strict_request (q : Request) {k : Pointer → Code α}
    (hk : ∀ p, Strict Instr.NoReply (k p)) :
    Strict Instr.NoReply (requestNULLSafe q >>= k) := by
  refine .call (Instr.request q) _ (fun a ha => ?_) (fun a ha => ?_)
  · obtain rfl : a = none := ha
    exact ⟨_, rfl⟩
  · cases a with
    | none => exact absurd rfl ha
    | some p => exact hk p

theorem strict_zaddRow (key : CStr) (res : Double) (y : List Double) :
    Strict Instr.NoReply (zaddRow key res y) := by
  cases y with
  | nil => exact .fault _
  | cons score y =>
      refine strict_request _ fun p => strict_frees (only_thenFree ?_ p)
      exact ((leaf_doubleOf p).bind fun _ => .ret _).only

/-- **Every method but `listen` stops at the first request without a reply.** -/
theorem strict_method {m : Method O} (hm : ∀ type, m ≠ .listen type) :
    Strict Instr.NoReply (m.code R) := by
  rw [Method.code_eq]
  cases hplan : m.plan R with
  | done p => exact strict_frees (leaf_of_plan_done hplan).only
  | command q rd => exact strict_request q fun p => strict_frees (only_code rd p)
  | rows key x =>
      exact (Strict.foldlM (fun res y => strict_zaddRow key res y) _ _).bind fun _ => .ret _
  | ranges keyvec min max =>
      refine (Strict.mapM (fun key => ?_) _).bind fun _ => .ret _
      exact strict_request _ fun p => strict_frees (only_thenFree (leaf_doubleOf p).only p)
  | channels cs type =>
      refine (Strict.mapM (fun c => ?_) _).bind fun _ => .ret _
      exact strict_request _ fun p => strict_frees (only_thenFree (only_extractReply p) p)
  | listen type => exact absurd (Method.eq_of_plan_listen hplan) (hm type)

/-- A typed method hands words to an encoder. -/
theorem exists_encodes {m : Method O} (hm : m.Typed) {q : Request} (hq : q ∈ m.requests R) :
    ∃ words, q.Encodes words := by
  by_cases htemplated : m.Templated
  · have hall : List.Forall₂ (fun q words => (∃ words, q.Encodes words) ∧ q.Encodes words)
        (m.requests R) (m.commands R) :=
      (Method.encodes_commands htemplated).imp fun q words h => ⟨⟨words, h⟩, h⟩
    exact ((List.forall₂_and_left _ _).mp hall).1 q hq
  · cases m with
    | listToMatrix Z => cases hq
    | exec | execv | «exists» | expire | pexpire | del | listen => exact hm.elim
    | _ => exact absurd trivial htemplated

/-- What is sent of a command is its frame, or a part of it. -/
theorem Request.Encodes.exists_append {q : Request} {words : List Bytes} (h : q.Encodes words)
    (hq : q.Measured) {cmd : Cmd} (hcmd : q.encode = .ok cmd) :
    ∃ more, cmd.bytes ++ more = encodeCommand words := by
  have hencodes := h
  cases h with
  | format items hne =>
      have hbuild := hcmd
      rw [Request.encode, redisvFormatCommand_template hne] at hbuild
      have hexact := hencodes.exact_iff_fits.mpr (length_lt_of_buildCommand hbuild)
      rw [hexact.encode_eq, Except.ok.injEq] at hcmd
      subst hcmd
      exact ⟨[], List.append_nil _⟩
  | argv words hne =>
      rw [Request.encode, redisFormatSdsCommandArgv, sdsCommandArgv_eq (hq words rfl)] at hcmd
      split_ifs at hcmd
      obtain rfl := Except.ok.inj hcmd
      exact ⟨_, List.take_append_drop _ _⟩

/-! ## One request -/

/-- **A whole command** is answered with the server's reply to it, or it waits forever, or it
has no reply and leaves a connection whose error is set. -/
theorem request_whole (S : Server σ) {q : Request} (hq : q ≠ .getReply) {cmd : Cmd}
    (hcmd : q.encode = .ok cmd) {words : List Bytes} (hne : words ≠ [])
    (hframe : cmd.bytes = encodeCommand words) {n : Net σ Empty} {s : σ}
    (hn : n.link = { server := s }) (h : q.Undisturbed (answering S) n) :
    (∃ n', n'.link = { server := (S words s).2 } ∧
      (Net.env (answering S)).request q n = (.answer (some (S words s).1), n')) ∨
    (∃ n', (Net.env (answering S)).request q n = (.blocked, n')) ∨
    ∃ n', n'.link.Dead ∧ (Net.env (answering S)).request q n = (.answer none, n') := by
  have hstart : Link.arrive S { server := s } cmd.bytes =
      { outbound := [(S words s).1], server := (S words s).2 } := by
    rw [arrive_frame S (l := { server := s }) hne (by simpa using hframe)]
    rfl
  have hall : cmd.bytes ++ [] = encodeCommand words := by rw [List.append_nil, hframe]
  have hends := request_ends (answering S) (fun e => e.elim) hq hcmd hall hn h
    -- the reply is on its way, or with the client
    (fun l => ∃ a b, a ++ b = [(S words s).1] ∧
      l = { replies := a, outbound := b, server := (S words s).2 })
    (fun e => e.elim)
    (by
      rintro k l ⟨a, b, hab, rfl⟩
      refine ⟨a ++ b.take k, b.drop k, ?_, rfl⟩
      rw [List.append_assoc, List.take_append_drop, hab])
    ⟨[], _, rfl, hstart⟩
  generalize (Net.env (answering S)).request q n = answer at hends ⊢
  cases hends with
  | blocked l => exact .inr (.inl ⟨_, rfl⟩)
  | failed _ rest hdead => exact .inr (.inr ⟨_, hdead, rfl⟩)
  | reply hrest hl hreplies =>
      obtain ⟨a, b, hab, rfl⟩ := hl
      obtain rfl : a = _ := hreplies
      rw [List.cons_append, List.cons_eq_cons, List.append_eq_nil_iff] at hab
      obtain ⟨rfl, rfl, rfl⟩ := hab
      exact .inl ⟨_, rfl, rfl⟩

/-- **A part of a command** is not answered. -/
theorem request_part (S : Server σ) {q : Request} (hq : q ≠ .getReply) {cmd : Cmd}
    (hcmd : q.encode = .ok cmd) {words : List Bytes} {more : Bytes} (hmore : more ≠ [])
    (hframe : cmd.bytes ++ more = encodeCommand words) {n : Net σ Empty} {s : σ}
    (hn : n.link = { server := s }) (h : q.Undisturbed (answering S) n) :
    (∃ n', (Net.env (answering S)).request q n = (.blocked, n')) ∨
    ∃ n', n'.link.Dead ∧ (Net.env (answering S)).request q n = (.answer none, n') := by
  have hstart : Link.arrive S { server := s } cmd.bytes =
      { inbound := cmd.bytes, server := s } :=
    arrive_prefix S (l := { server := s }) hframe hmore
  have hends := request_ends (answering S) (fun e => e.elim) hq hcmd hframe hn h
    (fun l => l.replies ++ l.outbound = []) (fun e => e.elim)
    (by
      intro k l hl
      obtain ⟨hreplies, houtbound⟩ := List.append_eq_nil_iff.mp hl
      simp [Link.recv, hreplies, houtbound])
    (by
      change (Link.arrive S { server := s } cmd.bytes).replies ++ _ = []
      rw [hstart]
      exact congrArg Link.outbound hstart)
  generalize (Net.env (answering S)).request q n = answer at hends ⊢
  cases hends with
  | blocked l => exact .inl ⟨_, rfl⟩
  | failed _ rest hdead => exact .inr ⟨_, hdead, rfl⟩
  | reply hrest hl hreplies =>
      rw [hreplies] at hl
      cases hl

/-! ## One instruction -/

/-- A connection that nothing is left on, or whose error is set for good. -/
def Settled (n : Net σ Empty) (c : Conn σ) : Prop :=
  (n.link = { server := c.server } ∧ c.err = false) ∨ n.link.Dead

/-- A request ends as on the ideal connection and leaves both settled; or it waits forever; or
it has no reply, and the connection is dead. -/
def RequestSimulates {γ : Type} (E : Env γ) (S : Server σ) (settled : γ → Conn σ → Prop)
    (dead : γ → Prop) (q : Request) (n : γ) (c : Conn σ) : Prop :=
  ((E.request q n).1 = ((Conn.env S).request q c).1 ∧
    settled (E.request q n).2 ((Conn.env S).request q c).2) ∨
  (E.request q n).1 = .blocked ∨
  (dead (E.request q n).2 ∧ (E.request q n).1 = .answer none)

/-- **A request on a settled connection** ends as on the ideal one, and leaves it settled. -/
theorem request_settled (S : Server σ) {q : Request} {words : List Bytes}
    (hq : q.Encodes words) (hmeasured : q.Measured) {n : Net σ Empty} {c : Conn σ}
    (hnc : Settled n c) (h : q.Undisturbed (answering S) n) :
    RequestSimulates (Net.env (answering S)) S Settled (·.link.Dead) q n c := by
  have hget : q ≠ .getReply := by
    rintro rfl
    cases hq
  rw [RequestSimulates]
  rcases hencode : q.encode with e | cmd
  · rw [Net.request_eq _ hget, Conn.request_eq _ hget, hencode]
    cases e with
    | fault f => exact .inl ⟨rfl, hnc⟩
    | oom | format =>
        have hreplies : n.link.replies = [] := by
          rcases hnc with ⟨hlink, -⟩ | hdead
          · rw [hlink]
          · exact hdead.2
        exact .inr (.inr ⟨⟨rfl, hreplies⟩, rfl⟩)
  · rcases hnc with ⟨hlink, herr⟩ | hdead
    · obtain ⟨more, hframe⟩ := hq.exists_append hmeasured hencode
      by_cases hmore : more = []
      · rw [hmore, List.append_nil] at hframe
        rcases request_whole S hget hencode hq.ne_nil hframe hlink h with
          ⟨n', hn', hanswer⟩ | ⟨n', hblocked⟩ | ⟨n', hdead, hnone⟩
        · have hideal : (Conn.env S).request q c = (.answer (some (S words c.server).1),
              { c with server := (S words c.server).2 }) := by
            rw [Conn.request_eq _ hget, hencode, Conn.deliver, if_neg (by simp [herr]), hframe]
            exact Conn.receive_of_parse S hq.ne_nil (parseCommand_encodeCommand_nil words) c
          rw [hanswer, hideal]
          exact .inl ⟨rfl, .inl ⟨hn', herr⟩⟩
        · exact .inr (.inl (by rw [hblocked]))
        · exact .inr (.inr ⟨by rw [hnone]; exact hdead, by rw [hnone]⟩)
      · rcases request_part S hget hencode hmore hframe hlink h with
          ⟨n', hblocked⟩ | ⟨n', hdead, hnone⟩
        · exact .inr (.inl (by rw [hblocked]))
        · exact .inr (.inr ⟨by rw [hnone]; exact hdead, by rw [hnone]⟩)
    · -- the command stays in the output buffer of a connection that is not used any more
      rw [Net.request_eq _ hget, hencode]
      have hanswer := redisGetReply_of_err (answering S)
        (n := { n with link := { n.link with obuf := n.link.obuf ++ cmd.bytes } })
          hdead.1 hdead.2
      exact .inr
        (.inr ⟨by rw [Net.deliver, hanswer]; exact hdead, by rw [Net.deliver, hanswer]⟩)

section Simulation

variable {γ : Type} {E : Env γ} {S : Server σ} {ok : Instr → World γ → Prop}
  {settled : γ → Conn σ → Prop} {dead : γ → Prop} {qs : List Request}

/-- **One instruction** of a method on a settled connection, next to the ideal one. -/
theorem step_simulates
    (hrequest : ∀ q ∈ qs, ∀ w : World γ, ok (.request q) w → ∀ c, settled w.env c →
      RequestSimulates E S settled dead q w.env c) :
    StepSimulates (fun i w => i.FreesOr qs ∧ ok i w) Instr.NoReply
      (fun w v => w.ledger = v.ledger ∧ settled w.env v.env) (fun w => dead w.env)
      E.handler (Conn.env S).handler := by
  rintro i w v ⟨hi, hok⟩ ⟨hledger, hsettled⟩
  cases i with
  | request q =>
      have hrequest := hrequest q hi w hok v.env hsettled
      rw [RequestSimulates] at hrequest
      simp only [Env.handler]
      generalize E.request q w.env = x at hrequest ⊢
      generalize (Conn.env S).request q v.env = y at hrequest ⊢
      obtain ⟨a, n⟩ := x
      obtain ⟨b, c⟩ := y
      rcases hrequest with ⟨hab, hnext⟩ | hblocked | ⟨hdead, hnone⟩
      · obtain rfl : a = b := hab
        left
        rcases a with ⟨_ | r⟩ | f | _
        · exact ⟨rfl, hledger, hnext⟩
        · refine ⟨?_, ?_, hnext⟩
          · simp only [hledger]
          · simp only [hledger]
        · exact ⟨rfl, hledger, hnext⟩
        · exact ⟨rfl, hledger, hnext⟩
      · obtain rfl : a = .blocked := hblocked
        exact .inr (.inl rfl)
      · obtain rfl : a = .answer none := hnone
        exact .inr (.inr ⟨hdead, none, rfl, rfl⟩)
  | freeReplyObject p => exact .inl ⟨rfl, congrArg (Ledger.release · p) hledger, hsettled⟩
  | redisConnect | redisFree => exact hi.elim

/-- **One call** on a settled connection, next to the ideal one. -/
theorem call_simulates {m : Method O} (hm : m.Typed)
    (hmeasured : ∀ q ∈ m.requests R, q.Measured)
    (hrequest : ∀ q words, q.Encodes words → q.Measured → ∀ w : World γ, ok (.request q) w →
      ∀ c, settled w.env c → RequestSimulates E S settled dead q w.env c)
    {n : γ} {c : Conn σ} (hn : settled n c) (halong : Along E.handler ok (m.code R) ⟨n, {}⟩) :
    ((E.run (m.code R) n).1 = ((Conn.env S).run (m.code R) c).1 ∧
      settled (E.run (m.code R) n).2.env ((Conn.env S).run (m.code R) c).2.env) ∨
    (E.run (m.code R) n).1 = .blocked ∨
    (dead (E.run (m.code R) n).2.env ∧ ∃ e, (E.run (m.code R) n).1 = .raise e) := by
  have hlisten : ∀ type, m ≠ .listen type := by
    rintro type rfl
    exact hm
  have hown : ∀ q ∈ m.requests R, ∀ w : World γ, ok (.request q) w → ∀ c, settled w.env c →
      RequestSimulates E S settled dead q w.env c := by
    intro q hq
    obtain ⟨words, hwords⟩ := exists_encodes hm hq
    exact hrequest q words hwords (hmeasured q hq)
  rcases run_simulates (step_simulates hown) (strict_method hlisten)
      (halong.and_only (only_method m)) (t := ⟨c, {}⟩) ⟨rfl, hn⟩ with
    ⟨hsame, -, hsettled⟩ | hblocked | ⟨hdead, hraise⟩
  · exact .inl ⟨hsame, hsettled⟩
  · exact .inr (.inl hblocked)
  · exact .inr (.inr ⟨hdead, hraise⟩)

end Simulation

/-! ## Calls and sessions -/

/-- The connection is at rest, or its error is set for good. -/
def Resting (n : Net σ Empty) : Prop := n.link = { server := n.link.server } ∨ n.link.Dead

theorem Resting.settled {n : Net σ Empty} (h : Resting n) :
    Settled n { server := n.link.server } :=
  h.imp_left fun hlink => ⟨hlink, rfl⟩

theorem Settled.resting {n : Net σ Empty} {c : Conn σ} (h : Settled n c) : Resting n := by
  rcases h with ⟨hlink, -⟩ | hdead
  · left
    rw [hlink]
  · exact .inr hdead

/-- **One call** on a connection at rest, none of whose `send`s is interrupted, has its own
replies, and leaves the connection at rest. -/
theorem corresponds_step (S : Server σ) {m : Method O} (hm : m.Typed) {n : Net σ Empty}
    (hn : Resting n) (h : Uninterrupted R S m n) :
    Corresponds R S m n ∧
      ((runOn R (answering S) m n).1.Ended → Resting (runOn R (answering S) m n).2.env) := by
  obtain ⟨hmeasured, halong⟩ := h
  rcases call_simulates hm hmeasured
      (fun q words hwords hq w hw c hc => request_settled S hwords hq hc hw) hn.settled halong
    with ⟨hsame, hsettled⟩ | hblocked | ⟨hdead, hraise⟩
  · exact ⟨.inr (.inr hsame), fun _ => hsettled.resting⟩
  · refine ⟨.inr (.inl hblocked), fun hended => ?_⟩
    rw [runOn, hblocked] at hended
    exact hended.elim
  · exact ⟨.inl hraise, fun _ => .inr hdead⟩

/-- **Every call has its own replies** in a session none of whose `send`s is interrupted,
whatever else the network does. -/
theorem corresponds_of_uninterrupted (S : Server σ) {calls : List (Method O)}
    (hcalls : ∀ m ∈ calls, m.Typed) (turns : List (Turn Empty)) (s : σ)
    (h : (Net.env (answering S)).Throughout (Method.code R) (Uninterrupted R S) calls
      ⟨turns, { server := s }⟩) :
    (Net.env (answering S)).Throughout (Method.code R) (Corresponds R S) calls
      ⟨turns, { server := s }⟩ :=
  throughout_of_step Resting (fun m hm _ hn => corresponds_step S (hcalls m hm) hn)
    (.inl rfl) h

/-! ## A command that is left over -/

/-- **An interrupted `send`** leaves the command in the output buffer, and sets no error. -/
theorem request_interrupted (S : Server σ) {q : Request} {words : List Bytes}
    (hq : q.Exact words) (turns : List (Turn Empty)) (s : σ) :
    (Net.env (answering S)).request q ⟨.call .interrupted :: turns, { server := s }⟩ =
      (.answer none, ⟨turns, { obuf := encodeCommand words, server := s }⟩) := by
  rw [Net.request_eq _ hq.ne_getReply, hq.encode_eq, Net.deliver_ok _ rfl]
  exact writeLoop_call (answering S) (l := { obuf := encodeCommand words, server := s }) rfl
    (encodeCommand_ne_nil words) .interrupted turns

/-- **The next request** takes the reply to the command that was left over. -/
theorem request_after_interrupted (S : Server σ) {q : Request} {words : List Bytes}
    (hq : q.Exact words) {left : List Bytes} (hleft : left ≠ []) {k : ℕ}
    (hk : (encodeCommand left ++ encodeCommand words).length ≤ k) (turns : List (Turn Empty))
    (s : σ) :
    ∃ n', (Net.env (answering S)).request q ⟨.call (.moves k) :: .call (.moves 1) :: turns,
      { obuf := encodeCommand left, server := s }⟩ = (.answer (some (S left s).1), n') := by
  have hboth : encodeCommand left ++ encodeCommand words ≠ [] :=
    List.append_ne_nil_of_left_ne_nil (encodeCommand_ne_nil left) _
  obtain ⟨fuel, hfuel⟩ :=
    Nat.exists_eq_add_one_of_ne_zero (List.length_pos_of_ne_nil hboth).ne'
  have harrive :
      Link.send S k { obuf := encodeCommand left ++ encodeCommand words, server := s } =
      { inbound := (serve S fuel (encodeCommand words) (S left s).2).1
        outbound := (S left s).1 :: (serve S fuel (encodeCommand words) (S left s).2).2.1
        server := (serve S fuel (encodeCommand words) (S left s).2).2.2 } := by
    simp only [Link.send, Link.arrive, List.take_of_length_le hk, List.drop_of_length_le hk,
      List.nil_append, hfuel, serve_frame S hleft]
  rw [Net.request_eq _ hq.ne_getReply, hq.encode_eq, Net.deliver_ok _ rfl,
    writeLoop_call (answering S) rfl hboth]
  change ∃ n', writeLoop (answering S) (.call (.moves 1) :: turns) (Link.send S k _) = _
  rw [harrive, writeLoop_done _ _ rfl rfl, readLoop_call _ rfl]
  exact ⟨_, rfl⟩

/-! ## Two calls -/

theorem measured_of_format {m : Method O} {format : Bytes} {ap : List VaArg} {rd : Reader}
    (hplan : m.plan R = .command (.format format ap) rd) : ∀ q ∈ m.requests R, q.Measured := by
  rw [Method.requests, hplan]
  intro q hq words hwords
  rw [List.mem_singleton.mp hq] at hwords
  cases hwords

/-- A call with one command is as it should be if its command is. -/
theorem along_command {γ : Type} {E : Env γ} {ok : Instr → World γ → Prop}
    (hfree : ∀ p w, ok (.freeReplyObject p) w) {m : Method O} {q : Request} {rd : Reader}
    (hplan : m.plan R = .command q rd) {n : γ} (h : ok (.request q) ⟨n, {}⟩) :
    Along E.handler ok (m.code R) ⟨n, {}⟩ := by
  rw [Method.code_eq, hplan]
  refine ⟨h, fun a w _ => ?_⟩
  cases a with
  | none => trivial
  | some p =>
      refine (only_code rd p).along (fun i w' hi => ?_) w
      cases i with
      | freeReplyObject p => exact hfree p w'
      | _ => exact hi.elim

/-- A call with one command is uninterrupted if its command is written so. -/
theorem uninterrupted_of_command {S : Server σ} {m : Method O} {format : Bytes}
    {ap : List VaArg} {rd : Reader} (hplan : m.plan R = .command (.format format ap) rd)
    {n : Net σ Empty} (h : Request.Undisturbed (answering S) (.format format ap) n) :
    Uninterrupted R S m n :=
  ⟨measured_of_format hplan, along_command (fun _ _ => trivial) hplan h⟩

/-- A server where every key holds its own name. -/
def ownNames : Server Unit := fun words s => (.string (words.getLastD []), s)

/-- One key. -/
def keyA : CStr := .ofAscii "a"

/-- Another key. -/
def keyB : CStr := .ofAscii "b"

/-- Two keys are read one after the other. -/
def reads : List (Method Empty) := [.getString keyA, .getString keyB]

theorem exact_getString (key : CStr)
    (h : (encodeCommand [ascii "GET", key.bytes]).length + 1 < 2 ^ 31) :
    Request.Exact (.format (ascii "GET %s") [.cstr key.bytes]) [ascii "GET", key.bytes] :=
  (Method.encodes_items [keyword "GET", .str key] (by simp) rfl rfl rfl).exact_iff_fits.mpr h

/-- A read that is answered. -/
theorem run_getString {σ : Type} (E : Env σ) (key b : CStr) {s s' : σ}
    (h : E.request (.format (ascii "GET %s") [.cstr key.bytes]) s =
      (.answer (some (.string b.bytes)), s')) :
    (E.run (Method.code R (.getString key)) s).1 = .ret (.str [b]) := by
  have hvalue : stringValue (O := O) ⟨0, [], .string b.bytes⟩ = .ret (.str [b]) :=
    congrArg (fun s : CStr => Prog.ret (SEXP.str [s])) (CStr.ofBuffer_bytes b)
  obtain ⟨w, hw⟩ := run_request_reader (R := R) E (congrArg Prod.fst h)
    (show Reader.string ≠ .hget by rintro ⟨⟩) (by rintro ⟨⟩)
  refine hw.trans ?_
  rw [Reader.value, hvalue, run_ret]

/-- A read without a reply. -/
theorem run_getString_none {σ : Type} (E : Env σ) (key : CStr) {s s' : σ}
    (h : E.request (.format (ascii "GET %s") [.cstr key.bytes]) s = (.answer none, s')) :
    E.run (Method.code R (.getString key)) s =
      (.raise (.stop nullReplyMessage), ⟨s', {}⟩) := by
  have hcode : Method.code R (.getString key) =
      requestNULLSafe (.format (ascii "GET %s") [.cstr key.bytes]) >>=
        Reader.code R .string := rfl
  rw [Env.run, hcode, run_requestNULLSafe_bind, afterRequest, h]

/-- `send` takes a part of the command first, and `recv` is interrupted. -/
def faulty : Net Unit Empty where
  turns := [.call (.moves 5), .call (.moves 100), .call .interrupted, .call (.moves 1)]
  link := { server := () }

/-- A read over this network has its own reply. -/
theorem read_corresponds :
    (Net.env (answering ownNames)).Throughout (Method.code Runtime.onlyNull)
      (Corresponds Runtime.onlyNull ownNames) [.getString keyA] faulty := by
  refine corresponds_of_uninterrupted ownNames ?_ faulty.turns () ⟨?_, fun _ => trivial⟩
  · simp [Method.Typed]
  · refine uninterrupted_of_command rfl fun cmd hcmd => ?_
    rw [(exact_getString keyA (by decide)).encode_eq, Except.ok.injEq] at hcmd
    subst hcmd
    refine fun _ _ => ⟨by decide, fun _ _ => ⟨by decide, fun _ hobuf => ?_⟩⟩
    exact absurd (by decide) hobuf

/-- The first `send` is interrupted; everything after it succeeds. -/
def interrupted : Net Unit Empty where
  turns := [.call .interrupted, .call (.moves 100), .call (.moves 1)]
  link := { server := () }

/-- After an interrupted `send`, the value of one key is returned as that of the other. -/
theorem reads_shifted :
    ((Net.env (answering ownNames)).session (reads.map (Method.code Runtime.onlyNull))
      interrupted).map Prod.fst =
        [.raise (.stop nullReplyMessage), .ret (.str [keyA])] ∧
    ¬ (Net.env (answering ownNames)).Throughout (Method.code Runtime.onlyNull)
      (Corresponds Runtime.onlyNull ownNames) reads interrupted := by
  have ha := exact_getString keyA (by decide)
  have hb := exact_getString keyB (by decide)
  -- the first read leaves its command behind
  have hfirst := run_getString_none (R := Runtime.onlyNull) _ keyA
    (request_interrupted ownNames ha [.call (.moves 100), .call (.moves 1)] ())
  -- and the second one is answered with the reply to it
  obtain ⟨n', hsecond⟩ := request_after_interrupted ownNames hb (List.cons_ne_nil _ _)
    (by decide : (encodeCommand [ascii "GET", keyA.bytes] ++
      encodeCommand [ascii "GET", keyB.bytes]).length ≤ 100) [] ()
  have hshifted := run_getString (R := Runtime.onlyNull) _ keyB keyA hsecond
  constructor
  · rw [reads, List.map_cons, List.map_singleton, interrupted, session_cons_raise hfirst,
      session_singleton, List.map_cons, List.map_singleton]
    simp only [hshifted]
  · intro h
    have hcorresponds := ((throughout_cons hfirst trivial).mp h).2.head
    have hown := run_getString (R := Runtime.onlyNull) _ keyB keyB
      (Conn.request_of_exact ownNames hb (List.cons_ne_nil _ _) ())
    have hne : keyA ≠ keyB := by decide
    rw [Corresponds, runOn, hshifted] at hcorresponds
    simp only [hown] at hcorresponds
    simp [hne] at hcorresponds

end RcppRedis
