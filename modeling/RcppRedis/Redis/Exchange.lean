import RcppRedis.Redis.Transport

/-!
# One exchange

What becomes of a command on the blocking connection when nothing is left of the exchanges
before it.  The loop of `redisGetReply` that writes fails or has sent all of the command, and
the loop that reads fails or hands out the reply that the server sent first.  Either may also
wait forever.

* `Undisturbed` — while a command is written, no `send` is interrupted and the server pushes
  nothing.
* `readLoop_ends`, `writeLoop_ends` — how the loops end.
* `request_ends` — how a request ends.
-/

namespace RcppRedis

open Bytes Resp Hiredis Interact Prog

variable {σ ε : Type}

/-! ## The server -/

/-- A part of a frame is not answered. -/
theorem serve_prefix (S : Server σ) {b more : Bytes} {words : List Bytes}
    (h : b ++ more = encodeCommand words) (hmore : more ≠ []) (fuel : ℕ) (s : σ) :
    serve S fuel b s = (b, [], s) := by
  cases fuel with
  | zero => rfl
  | succ fuel => rw [serve, parseCommand_prefix h hmore]

@[simp] theorem serve_nil (S : Server σ) (fuel : ℕ) (s : σ) :
    serve S fuel [] s = ([], [], s) := by
  cases fuel <;> rfl

/-- A frame is answered, and then what follows it. -/
theorem serve_frame (S : Server σ) {words : List Bytes} (hne : words ≠ []) (rest : Bytes)
    (fuel : ℕ) (s : σ) :
    serve S (fuel + 1) (encodeCommand words ++ rest) s =
      ((serve S fuel rest (S words s).2).1,
        (S words s).1 :: (serve S fuel rest (S words s).2).2.1,
        (serve S fuel rest (S words s).2).2.2) := by
  obtain ⟨w, args, rfl⟩ := List.exists_cons_of_ne_nil hne
  rw [serve, parseCommand_encodeCommand]

theorem arrive_prefix (S : Server σ) {l : Link σ} {b more : Bytes} {words : List Bytes}
    (h : l.inbound ++ b ++ more = encodeCommand words) (hmore : more ≠ []) :
    l.arrive S b = { l with inbound := l.inbound ++ b } := by
  simp only [Link.arrive, serve_prefix S h hmore, List.append_nil]

theorem arrive_frame (S : Server σ) {l : Link σ} {b : Bytes} {words : List Bytes}
    (hne : words ≠ []) (h : l.inbound ++ b = encodeCommand words) : l.arrive S b = { l with
      inbound := []
      outbound := l.outbound ++ [(S words l.server).1]
      server := (S words l.server).2 } := by
  obtain ⟨fuel, hfuel⟩ := Nat.exists_eq_add_one_of_ne_zero
    (List.length_pos_of_ne_nil (encodeCommand_ne_nil words)).ne'
  have hserve := serve_frame S hne [] fuel l.server
  rw [List.append_nil] at hserve
  rw [Link.arrive, h, hfuel]
  simp only [hserve, serve_nil]

/-! ## Reading -/

/-- How the loop that reads ends: it waits, or a system call fails and leaves a connection
without replies whose error is set, or it hands out the first reply. -/
inductive ReadEnds (turns : List (Turn ε)) (Inv : Link σ → Prop) : Answered σ ε → Prop where
  | blocked (l : Link σ) : ReadEnds turns Inv (.blocked, ⟨[], l⟩)
  | failed (hfails : .call .fails ∈ turns) (rest : List (Turn ε)) {l : Link σ} (hl : l.Dead) :
      ReadEnds turns Inv (.answer none, ⟨rest, l⟩)
  | reply {rest : List (Turn ε)} (hrest : rest <:+ turns) {l : Link σ} (hl : Inv l) {r : Reply}
      {rs : List Reply} (hreplies : l.replies = r :: rs) :
      ReadEnds turns Inv (.answer (some r), ⟨rest, { l with replies := rs }⟩)

theorem ReadEnds.mono {turns turns' : List (Turn ε)} (hsuffix : turns <:+ turns')
    {Inv : Link σ → Prop} {a : Answered σ ε} (h : ReadEnds turns Inv a) :
    ReadEnds turns' Inv a := by
  cases h with
  | blocked l => exact .blocked l
  | failed hfails rest hl => exact .failed (hsuffix.subset hfails) rest hl
  | reply hrest hl hreplies => exact .reply (hrest.trans hsuffix) hl hreplies

/-- **The loop that reads**, where events and `recv` keep a property of the connection. -/
theorem readLoop_ends (P : Peer σ ε) (Inv : Link σ → Prop) {turns : List (Turn ε)}
    (hevent : ∀ e, .event e ∈ turns → ∀ l, Inv l → Inv (l.event P e))
    (hrecv : ∀ n l, Inv l → Inv (l.recv n)) {l : Link σ} (herr : l.err = false)
    (hreplies : l.replies = []) (hl : Inv l) : ReadEnds turns Inv (readLoop P turns l) := by
  induction turns generalizing l with
  | nil =>
      rw [readLoop_nil P herr]
      exact .blocked l
  | cons turn turns ih =>
      have htail : ∀ e, .event e ∈ turns → ∀ l, Inv l → Inv (l.event P e) :=
        fun e he => hevent e (List.mem_cons_of_mem turn he)
      have hsuffix : turns <:+ turn :: turns := List.suffix_cons turn turns
      cases turn with
      | event e =>
          rw [readLoop_event P herr]
          exact (ih htail (l := l.event P e) herr hreplies
            (hevent e List.mem_cons_self l hl)).mono hsuffix
      | call c =>
          rw [readLoop_call P herr]
          cases c with
          | moves n =>
              simp only [redisBufferRead]
              split
              · rename_i hnone
                exact (ih htail (l := l.recv n) herr hnone (hrecv n l hl)).mono hsuffix
              · rename_i r rs hsome
                exact .reply hsuffix (hrecv n l hl) hsome
          | interrupted =>
              simp only [redisBufferRead, hreplies]
              exact (ih htail herr hreplies hl).mono hsuffix
          | fails => exact .failed List.mem_cons_self turns ⟨rfl, hreplies⟩

/-! ## Writing -/

/-- Until the output buffer is empty, no `send` is interrupted and the server pushes
nothing. -/
def Undisturbed (P : Peer σ ε) : List (Turn ε) → Link σ → Prop
  | [], _ => True
  | .event e :: turns, l =>
      l.err = false → l.obuf ≠ [] → (P.event e l.server).1 = [] ∧
      Undisturbed P turns (l.event P e)
  | .call c :: turns, l =>
      l.err = false → l.obuf ≠ [] →
        c ≠ .interrupted ∧ Undisturbed P turns (redisBufferWrite P.command c l).2

/-- An event that pushes nothing leaves the server as it is. -/
def Peer.Silent (P : Peer σ ε) : Prop := ∀ e s, (P.event e s).1 = [] → (P.event e s).2 = s

/-- **The loop that writes**, with a part of a frame on its way and the rest of it in the
output buffer: it waits, or fails, or goes on to read once all of it has arrived. -/
theorem writeLoop_ends (P : Peer σ ε) (hP : P.Silent) {b more : Bytes} {words : List Bytes}
    (hframe : b ++ more = encodeCommand words) {turns : List (Turn ε)} {s : σ}
    {i o : Bytes} (hio : i ++ o = b) (ho : o ≠ [])
    (h : Undisturbed P turns { obuf := o, inbound := i, server := s }) :
    (∃ l, writeLoop P turns { obuf := o, inbound := i, server := s } = (.blocked, ⟨[], l⟩)) ∨
    (.call .fails ∈ turns ∧ ∃ rest l, l.Dead ∧
      writeLoop P turns { obuf := o, inbound := i, server := s } = (.answer none, ⟨rest, l⟩)) ∨
    ∃ rest, rest <:+ turns ∧ writeLoop P turns { obuf := o, inbound := i, server := s } =
      readLoop P rest (Link.arrive P.command { server := s } b) := by
  induction turns generalizing i o with
  | nil => exact .inl ⟨_, writeLoop_nil P rfl ho⟩
  | cons turn turns ih =>
      have hsuffix : turns <:+ turn :: turns := List.suffix_cons turn turns
      cases turn with
      | event e =>
          obtain ⟨hpush, hrest⟩ := h rfl ho
          have hsame : Link.event P e { obuf := o, inbound := i, server := s } =
              { obuf := o, inbound := i, server := s } := by
            simp only [Link.event, hpush, hP e s hpush, List.append_nil]
          rw [hsame] at hrest
          rw [writeLoop_event P rfl ho, hsame]
          rcases ih hio ho hrest with hblocked | ⟨hfails, hfailed⟩ | ⟨rest, hsub, hread⟩
          · exact .inl hblocked
          · exact .inr (.inl ⟨hsuffix.subset hfails, hfailed⟩)
          · exact .inr (.inr ⟨rest, hsub.trans hsuffix, hread⟩)
      | call c =>
          obtain ⟨hc, hrest⟩ := h rfl ho
          rw [writeLoop_call P rfl ho]
          cases c with
          | interrupted => exact absurd rfl hc
          | fails => exact .inr (.inl ⟨List.mem_cons_self, turns, _, ⟨rfl, rfl⟩, rfl⟩)
          | moves n =>
              simp only [redisBufferWrite, Link.send] at hrest ⊢
              have hpart : (i ++ o.take n) ++ o.drop n = b := by
                rw [List.append_assoc, List.take_append_drop, hio]
              by_cases hdone : o.drop n = []
              · -- the last of the frame has arrived
                rw [hdone, List.append_nil] at hpart
                have hall : Link.arrive P.command { obuf := [], inbound := i, server := s }
                    (o.take n) = Link.arrive P.command { server := s } b := by
                  simp only [Link.arrive, hpart, List.nil_append]
                rw [hdone, hall, writeLoop_done P turns rfl rfl]
                exact .inr (.inr ⟨turns, hsuffix, rfl⟩)
              · have hmore : (i ++ o.take n) ++ (o.drop n ++ more) = encodeCommand words := by
                  rw [← List.append_assoc, hpart, hframe]
                have hwaits := arrive_prefix P.command
                  (l := { obuf := o.drop n, inbound := i, server := s }) hmore
                  (List.append_ne_nil_of_left_ne_nil hdone more)
                rw [hwaits] at hrest ⊢
                rcases ih hpart hdone hrest with hblocked | ⟨hfails, hfailed⟩ |
                  ⟨rest, hsub, hread⟩
                · exact .inl hblocked
                · exact .inr (.inl ⟨hsuffix.subset hfails, hfailed⟩)
                · exact .inr (.inr ⟨rest, hsub.trans hsuffix, hread⟩)

/-! ## A request -/

/-- A request is written undisturbed. -/
def Request.Undisturbed (P : Peer σ ε) (q : Request) (n : Net σ ε) : Prop :=
  ∀ cmd, q.encode = .ok cmd →
    RcppRedis.Undisturbed P n.turns { n.link with obuf := n.link.obuf ++ cmd.bytes }

/-- Without a reply in the reader, a command is written. -/
theorem Net.deliver_ok (P : Peer σ ε) {n : Net σ ε} (hn : n.link.replies = []) (cmd : Cmd) :
    Net.deliver P n (.ok cmd) =
      writeLoop P n.turns { n.link with obuf := n.link.obuf ++ cmd.bytes } := by
  simp only [Net.deliver, redisGetReply, hn]

/-- **A request on a connection at rest** ends as the loop that reads does, from where all of
its bytes have arrived. -/
theorem request_ends (P : Peer σ ε) (hP : P.Silent) {q : Request} (hq : q ≠ .getReply)
    {cmd : Cmd} (hcmd : q.encode = .ok cmd) {more : Bytes} {words : List Bytes}
    (hframe : cmd.bytes ++ more = encodeCommand words) {n : Net σ ε} {s : σ}
    (hn : n.link = { server := s }) (h : q.Undisturbed P n) (Inv : Link σ → Prop)
    (hevent : ∀ e, .event e ∈ n.turns → ∀ l, Inv l → Inv (l.event P e))
    (hrecv : ∀ k l, Inv l → Inv (l.recv k))
    (hstart : Inv (Link.arrive P.command { server := s } cmd.bytes)) :
    ReadEnds n.turns Inv ((Net.env P).request q n) := by
  have hwrites := h cmd hcmd
  rw [hn] at hwrites
  rw [Net.request_eq P hq, hcmd, Net.deliver_ok P (by rw [hn]), hn]
  simp only [List.nil_append] at hwrites ⊢
  by_cases hnil : cmd.bytes = []
  · have hsame : Link.arrive P.command { server := s } cmd.bytes = { server := s } := by
      rw [hnil]
      rfl
    rw [hsame] at hstart
    rw [hnil, writeLoop_done P n.turns rfl rfl]
    exact readLoop_ends P Inv hevent hrecv rfl rfl hstart
  · rcases writeLoop_ends P hP hframe (i := []) rfl hnil hwrites with
      ⟨l, hblocked⟩ | ⟨hfails, rest, l, hdead, hfailed⟩ | ⟨rest, hrest, hread⟩
    · rw [hblocked]
      exact .blocked l
    · rw [hfailed]
      exact .failed hfails rest hdead
    · rw [hread]
      refine (readLoop_ends P Inv (fun e he => ?_) hrecv ?_ ?_ hstart).mono hrest
      · exact hevent e (hrest.subset he)
      · rfl
      · rfl

/-! ## Calls that move everything -/

/-- One `send` takes a whole command. -/
theorem writeLoop_at_once (P : Peer σ ε) {words : List Bytes} (hne : words ≠ []) {k : ℕ}
    (hk : (encodeCommand words).length ≤ k) (turns : List (Turn ε)) (rs : List Reply) (s : σ) :
    writeLoop P (.call (.moves k) :: turns)
        { obuf := encodeCommand words, outbound := rs, server := s } =
      readLoop P turns
        { outbound := rs ++ [(P.command words s).1], server := (P.command words s).2 } := by
  have hsend :
      Link.send P.command k { obuf := encodeCommand words, outbound := rs, server := s } =
      { outbound := rs ++ [(P.command words s).1], server := (P.command words s).2 } := by
    rw [Link.send, List.take_of_length_le hk, List.drop_of_length_le hk]
    exact arrive_frame P.command (l := { outbound := rs, server := s }) hne (List.nil_append _)
  rw [writeLoop_call P rfl (encodeCommand_ne_nil words)]
  simp only [redisBufferWrite, hsend]
  exact writeLoop_done P turns rfl rfl

/-- One `recv` completes the next reply. -/
theorem readLoop_at_once (P : Peer σ ε) (turns : List (Turn ε)) (r : Reply)
    (rs : List Reply) (s : σ) :
    readLoop P (.call (.moves 1) :: turns) { outbound := r :: rs, server := s } =
      (.answer (some r), ⟨turns, { outbound := rs, server := s }⟩) := by
  rw [readLoop_call P rfl]
  rfl

/-- **A command and its reply**, with nothing in between. -/
theorem request_at_once (P : Peer σ ε) {q : Request} {words : List Bytes} (hq : q.Exact words)
    (hne : words ≠ []) {k : ℕ} (hk : (encodeCommand words).length ≤ k)
    (turns : List (Turn ε)) (s : σ) :
    (Net.env P).request q ⟨.call (.moves k) :: .call (.moves 1) :: turns, { server := s }⟩ =
      (.answer (some (P.command words s).1),
        ⟨turns, { server := (P.command words s).2 }⟩) := by
  rw [Net.request_eq P hq.ne_getReply, hq.encode_eq, Net.deliver_ok P rfl]
  exact (writeLoop_at_once P hne hk _ [] s).trans (readLoop_at_once P turns _ [] _)

/-- **A push before the command** is handed out as its reply, and the reply is next. -/
theorem request_overtaken (P : Peer σ ε) {q : Request} {words : List Bytes}
    (hq : q.Exact words) (hne : words ≠ []) {k : ℕ} (hk : (encodeCommand words).length ≤ k)
    (turns : List (Turn ε)) {e : ε} {s s' : σ} {r : Reply} (he : P.event e s = ([r], s')) :
    (Net.env P).request q
        ⟨.event e :: .call (.moves k) :: .call (.moves 1) :: turns, { server := s }⟩ =
      (.answer (some r), ⟨turns,
        { outbound := [(P.command words s').1], server := (P.command words s').2 }⟩) := by
  have hevent : Link.event P e { obuf := encodeCommand words, server := s } =
      { obuf := encodeCommand words, outbound := [r], server := s' } := by
    simp only [Link.event, he]
    rfl
  rw [Net.request_eq P hq.ne_getReply, hq.encode_eq, Net.deliver_ok P rfl]
  change writeLoop P _ { obuf := encodeCommand words, server := s } = _
  rw [writeLoop_event P rfl (encodeCommand_ne_nil words), hevent, writeLoop_at_once P hne hk]
  exact readLoop_at_once P turns r _ _

end RcppRedis
