import RcppRedis.Redis.SocketRefines

/-!
# Sessions over bytes that end

Where no system call fails and each moves at least one byte, nothing waits forever: so many
system calls after a session has begun all of its calls have ended, as they end on the ideal
connection.

* `readLoop_finishes`, `writeLoop_finishes` — the loops of `redisGetReply`.
* `session_finishes` — a session, whatever the pieces that its bytes come in.
-/

namespace RcppRedis

open Bytes Resp Hiredis Interact Prog Pieces Preorder

variable {O : Type} {R : Runtime O} {σ ε α : Type} {strtod : Bytes → Double × Bytes}

/-- A system call that moves something, if there is something. -/
def ByteTurn.Moves (turn : ByteTurn ε) : Prop := ∃ n, n ≠ 0 ∧ turn = .call (.moves n)

/-! ## The loops -/

/-- An answer on every tape that is long enough. -/
abbrev Answers (strtod : Bytes → Double × Bytes) (n : ℕ)
    (X : List (ByteTurn ε) → Response Fault (Option Reply) × Socket σ ε) (r : Reply)
    (l : Link σ) : Prop :=
  Finishes ByteTurn.Moves (Refines strtod) Socket.mk n X (.answer (some r), l)

section Loops

variable {P : Peer σ ε} (hP : P.Writes strtod) {w : Wire σ}

/-- What is on the way of a reply. -/
theorem Refines.outbound_of_reply {l : Link σ} (h : Refines strtod w l) {r : Reply}
    (hout : l.outbound = [r]) : w.outbound ≠ [] ∧ w.outbound.length ≤ (encode r).length := by
  obtain ⟨u, -, hu, hunfinished⟩ := h.reader
  rw [hout] at hu hunfinished
  obtain ⟨more, hmore, heq⟩ := hunfinished
  rw [encodeAll, encodeAll, List.append_nil, ← heq] at hu
  obtain rfl : w.outbound = more := List.append_cancel_left hu
  exact ⟨hmore, by rw [← heq, List.length_append]; omega⟩

/-- **The loop that reads**, with a reply on its way. -/
theorem readLoop_finishes {l : Link σ} (h : Refines strtod w l) (herr : l.err = false)
    (hnil : l.replies = []) {r : Reply} (hout : l.outbound = [r]) :
    Answers strtod w.outbound.length
      (fun turns => Socket.received (Socket.readLoop strtod P turns w)) r
      { l with outbound := [] } := by
  intro turns hturns hlen
  induction turns generalizing w with
  | nil =>
      exact absurd (List.length_eq_zero_iff.mp (Nat.le_zero.mp hlen))
        (h.outbound_of_reply hout).1
  | cons turn turns ih =>
      obtain ⟨⟨n, hn, rfl⟩, hmoves⟩ := List.forall_mem_cons.mp hturns
      have hnone : w.context.err.isSome = false := by rw [← h.err, herr]
      have hpos := List.length_pos_of_ne_nil (h.outbound_of_reply hout).1
      obtain ⟨k, context, hread, hk⟩ := h.bufferRead_moves herr hnil n
      have hskip := hk.skipPushes context.reader.rest.length
      simp only at hskip ⊢
      rw [Socket.readLoop_call_true P hnone hread, hskip]
      cases k with
      | zero =>
          -- the reply is not complete yet
          have hsame : l.recv 0 = l := by
            rw [Link.recv, List.take_zero, List.append_nil, List.drop_zero]
          rw [hsame] at hk
          obtain ⟨context', hfrom, hrefines⟩ := hk.fromReader_none hnil
          simp only at hfrom
          rw [hfrom]
          have hless : (w.outbound.drop (min n (1024 * 16))).length < w.outbound.length := by
            rw [List.length_drop]
            omega
          rw [List.length_cons] at hlen
          obtain ⟨pre, rest, w', rfl, hpre, hX, hw'⟩ :=
            ih hrefines hmoves (by simp only; omega)
          refine ⟨_ :: pre, rest, w', rfl, ?_, hX, hw'⟩
          rw [List.length_cons]
          simp only at hpre
          omega
      | succ k =>
          have hreplies : (l.recv (k + 1)).replies = [r] := by
            rw [Link.recv, hnil, hout, List.take_succ_cons, List.take_nil, List.nil_append]
          have hdone : ({ l.recv (k + 1) with replies := [] } : Link σ) =
              { l with outbound := [] } := by
            rw [Link.recv, hout, List.drop_succ_cons, List.drop_nil, hnil]
          obtain ⟨context', hfrom, hrefines⟩ := hk.fromReader_some hreplies
          simp only at hfrom
          rw [hfrom]
          rw [hdone] at hrefines
          exact ⟨[_], turns, _, rfl, hpos, received_answer r _, hrefines⟩

include hP

/-- **The loop that writes**, and what follows it, with a part of a frame on its way and the
rest of it in the output buffer. -/
theorem writeLoop_finishes {words : List Bytes} (hne : words ≠ []) {i o : Bytes} {s : σ}
    (hframe : i ++ o = encodeCommand words) (ho : o ≠ [])
    (h : Refines strtod w { obuf := o, inbound := i, server := s }) :
    Answers strtod (o.length + (encode (P.command words s).1).length)
      (fun turns => Socket.received (Socket.writeLoop strtod P turns w)) (P.command words s).1
      { server := (P.command words s).2 } := by
  intro turns hturns hlen
  induction turns generalizing w i o with
  | nil =>
      rw [List.length_nil] at hlen
      exact absurd (List.length_eq_zero_iff.mp (by omega)) ho
  | cons turn turns ih =>
      obtain ⟨⟨n, hn, rfl⟩, hmoves⟩ := List.forall_mem_cons.mp hturns
      have hnone : w.context.err.isSome = false := by rw [← h.err]
      have hobuf : w.context.obuf = o := h.obuf.symm
      have hpos := List.length_pos_of_ne_nil ho
      have hsend := h.send
        (hP.keeps.outbound (hP.keeps.send (min n o.length) h.sendable))
      have hwrite := redisBufferWrite_ok hnone (by rwa [hobuf])
        (show redisNetWrite w.context.obuf (.moves n) =
          .ok (min n w.context.obuf.length) from rfl)
      rw [List.length_cons] at hlen
      simp only at hsend ⊢
      rw [Socket.writeLoop_call P hnone (by rwa [hobuf]), hwrite, hobuf]
      rw [hobuf, Link.send] at hsend
      simp only
      have hpart : i ++ o.take (min n o.length) ++ o.drop (min n o.length) =
          encodeCommand words := by
        rw [List.append_assoc, List.take_append_drop, hframe]
      generalize
        ({ w with context := { w.context with obuf := o.drop (min n o.length) } }.arrive
          P.command (o.take (min n o.length))) = w' at hsend ⊢
      by_cases hdone : o.drop (min n o.length) = []
      · -- the last of the frame has arrived
        rw [hdone, List.append_nil] at hpart
        simp only [hdone] at hsend
        rw [arrive_frame P.command (l := { inbound := i, server := s }) hne hpart] at hsend
        rw [Socket.writeLoop_done P turns (by rw [← hsend.err]) hsend.obuf.symm]
        have hout : w'.outbound.length ≤ (encode (P.command words s).1).length :=
          (hsend.outbound_of_reply rfl).2
        have hread := readLoop_finishes (P := P) hsend rfl rfl rfl
        obtain ⟨pre, rest, w'', rfl, hpre, hX, hw''⟩ := hread turns hmoves (by omega)
        refine ⟨_ :: pre, rest, w'', rfl, ?_, hX, hw''⟩
        rw [List.length_cons]
        omega
      · have hwaits := arrive_prefix P.command
          (l := { obuf := o.drop (min n o.length), inbound := i, server := s }) hpart hdone
        rw [hwaits] at hsend
        have hless : (o.drop (min n o.length)).length < o.length := by
          rw [List.length_drop]
          omega
        obtain ⟨pre, rest, w'', rfl, hpre, hX, hw''⟩ := ih hpart hdone hsend hmoves (by omega)
        refine ⟨_ :: pre, rest, w'', rfl, ?_, hX, hw''⟩
        rw [List.length_cons]
        omega

/-- **A request on a connection at rest** is answered. -/
theorem request_finishes {q : Request} {words : List Bytes} (hq : q.Exact words)
    (hne : words ≠ []) {s : σ} (h : Refines strtod w { server := s }) :
    Answers strtod ((encodeCommand words).length + (encode (P.command words s).1).length)
      (fun turns => (Socket.env strtod P).request q ⟨turns, w⟩) (P.command words s).1
      { server := (P.command words s).2 } := by
  obtain ⟨c, hfrom, hrefines⟩ := (h.append (encodeCommand words)).fromReader_none rfl
  have hwrites := writeLoop_finishes hP hne (List.nil_append _)
    (encodeCommand_ne_nil words) hrefines
  have hrequest (turns : List (ByteTurn ε)) : (Socket.env strtod P).request q ⟨turns, w⟩ =
      Socket.received (Socket.writeLoop strtod P turns { w with context := c }) := by
    rw [Socket.request_eq P hq.ne_getReply, hq.encode_eq, Socket.deliver, Socket.redisGetReply]
    simp only at hfrom ⊢
    rw [hfrom]
  simp only [hrequest]
  exact hwrites

end Loops

/-! ## Sessions -/

/-- The instruction frees a reply, or its command is written as it is meant. -/
def Instr.Fits : Instr → Prop
  | .request q => ∃ words, words ≠ [] ∧ q.Exact words
  | .freeReplyObject _ => True
  | _ => False

/-- A connection at rest, next to the ideal one. -/
structure Rested (strtod : Bytes → Double × Bytes) (s : Wire σ × Ledger) (v : World (Conn σ)) :
    Prop where
  refines : Refines strtod s.1 { server := v.env.server }
  err : v.env.err = false
  ledger : s.2 = v.ledger

section Sessions

variable {S : Server σ} (hS : ∀ words s, Sendable strtod (S words s).1)

include hS

/-- **One instruction** ends as on the ideal connection. -/
theorem handler_finishes (i : Instr) (v : World (Conn σ)) (hi : i.Fits) :
    ∃ n, ∀ s, Rested strtod s v →
      Finishes ByteTurn.Moves (Rested strtod) (worldOf Socket.mk) n
        (fun turns => (Socket.env strtod (answering S)).handler i (worldOf Socket.mk turns s))
        ((Conn.env S).handler i v) := by
  cases i with
  | request q =>
      obtain ⟨words, hne, hq⟩ := hi
      refine ⟨(encodeCommand words).length + (encode (S words v.env.server).1).length, ?_⟩
      rintro ⟨w, ledger⟩ ⟨hrefines, herr, hledger⟩ turns hturns hlen
      obtain rfl : ledger = v.ledger := hledger
      obtain ⟨pre, rest, w', rfl, hpre, hX, hw'⟩ :=
        request_finishes (writes_answering.mpr hS) hq hne hrefines turns hturns hlen
      have hideal := Conn.request_of_exact S hq hne v.env.server
      rw [show ({ server := v.env.server } : Conn σ) = v.env by rw [← herr]] at hideal
      simp only at hX
      refine ⟨pre, rest, (w',
        { v.ledger with acquired := v.ledger.acquired ++ [(S words v.env.server).1] }),
        rfl, hpre, ?_, ?_⟩
      · simp only [handler_request, worldOf, hX, hideal]
        rfl
      · rw [handler_request, hideal]
        exact ⟨hw', rfl, rfl⟩
  | freeReplyObject p =>
      refine ⟨0, fun s hs => .done (s := (s.1, s.2.release p)) ⟨hs.refines, hs.err, ?_⟩ 0
        fun _ => rfl⟩
      exact congrArg (Ledger.release · p) hs.ledger
  | redisConnect | redisFree => exact hi.elim

/-- **A call** ends as on the ideal connection. -/
theorem run_finishes_env {p : Code α} (hp : Only Instr.Fits p) (s : σ) :
    ∃ n, ∀ w, Refines strtod w { server := s } →
      Finishes ByteTurn.Moves (Rested strtod) (worldOf Socket.mk) n
        (fun turns => (Socket.env strtod (answering S)).run p ⟨turns, w⟩)
        ((Conn.env S).run p { server := s }) := by
  obtain ⟨n, hn⟩ := run_finishes (handler_finishes hS) p (t := ⟨{ server := s }, {}⟩)
    (hp.along (fun i _ hi => hi) _)
  exact ⟨n, fun w hw => hn (w, {}) ⟨hw, rfl, rfl⟩⟩

/-- A session ends as on the ideal connection. -/
theorem session_finishes_of_refines {ps : List (Code α)} (hps : ∀ p ∈ ps, Only Instr.Fits p)
    (s : σ) : ∃ n, ∀ w, Refines strtod w { server := s } → ∀ turns : List (ByteTurn Empty),
      (∀ turn ∈ turns, turn.Moves) → n ≤ turns.length →
        ((Socket.env strtod (answering S)).session ps ⟨turns, w⟩).map
            (fun x => (x.1, x.2.wire.server)) =
          ((Conn.env S).session ps { server := s }).map fun x => (x.1, x.2.server) := by
  induction ps generalizing s with
  | nil => exact ⟨0, fun w hw turns hturns hlen => rfl⟩
  | cons p ps ih =>
      obtain ⟨hp, hps⟩ := List.forall_mem_cons.mp hps
      obtain ⟨n, hn⟩ := run_finishes_env hS hp s
      rcases hrun : (Conn.env S).run p { server := s } with ⟨o, v⟩
      rw [hrun] at hn
      obtain ⟨m, hm⟩ := ih hps v.env.server
      refine ⟨n + m, fun w hw turns hturns hlen => ?_⟩
      obtain ⟨pre, rest, ⟨w', ledger⟩, rfl, hpre, hX, hrefines, herr, hledger⟩ :=
        hn w hw turns hturns (by omega)
      have hrest := hm w' hrefines rest
        (fun turn hturn => hturns turn (List.mem_append_right _ hturn))
        (by rw [List.length_append] at hlen; omega)
      have hserver : w'.server = v.env.server := hrefines.server.symm
      have hv : v.env = { server := v.env.server } := by rw [← herr]
      simp only [worldOf] at hX
      rw [Env.session, Env.session, hrun, hX]
      cases o with
      | ret | raise =>
          simp only [List.map_cons, hserver]
          rw [hrest, ← hv]
      | fault | blocked => simp only [List.map_cons, List.map_nil, hserver]

/-- **Whatever the pieces that its bytes come in**, a session on a new connection ends as on
the ideal one, and leaves the server as there. -/
theorem session_finishes (R : Runtime O) (calls : List (Method O))
    (hcalls : ∀ m ∈ calls, ∀ q ∈ m.requests R, ∃ words, words ≠ [] ∧ q.Exact words) (s : σ) :
    ∃ n, ∀ turns : List (ByteTurn Empty), (∀ turn ∈ turns, turn.Moves) → n ≤ turns.length →
      ((Socket.env strtod (answering S)).session (calls.map (Method.code R))
          ⟨turns, { server := s }⟩).map (fun x => (x.1, x.2.wire.server)) =
        ((Conn.env S).session (calls.map (Method.code R)) { server := s }).map
          fun x => (x.1, x.2.server) := by
  have hfits : ∀ p ∈ calls.map (Method.code R), Only Instr.Fits p := by
    intro p hp
    obtain ⟨m, hm, rfl⟩ := List.mem_map.mp hp
    refine (only_method m).mono fun i hi => ?_
    cases i with
    | request q => exact hcalls m hm q hi
    | freeReplyObject p => trivial
    | redisConnect | redisFree => exact hi.elim
  obtain ⟨n, hn⟩ := session_finishes_of_refines hS hfits s
  exact ⟨n, hn { server := s } (refines_fresh s)⟩

end Sessions

/-- A read of one value over bytes. -/
theorem read_finishes :
    ∃ n, ∀ turns : List (ByteTurn Empty), (∀ turn ∈ turns, turn.Moves) → n ≤ turns.length →
      ((Socket.env noNumber (answering numbering)).session
          ([.getString keyA].map (Method.code Runtime.onlyNull)) ⟨turns, { server := 0 }⟩).map
            (fun x => (x.1, x.2.wire.server)) = [(.ret (.str [.ofAscii "v"]), 1)] := by
  have hexact := exact_getString keyA (by decide)
  have hrequest := Conn.request_of_exact numbering hexact (List.cons_ne_nil _ _) 0
  obtain ⟨n, hn⟩ := session_finishes sendable_numbering Runtime.onlyNull [.getString keyA]
    (by
      intro m hm q hq
      obtain rfl := List.mem_singleton.mp hm
      obtain rfl := List.mem_singleton.mp hq
      exact ⟨_, List.cons_ne_nil _ _, hexact⟩) 0
  refine ⟨n, fun turns hturns hlen => (hn turns hturns hlen).trans ?_⟩
  have hret := run_getString (R := Runtime.onlyNull) (Conn.env numbering) keyA
    (.ofAscii "v") hrequest
  have henv : ((Conn.env numbering).run (Method.code Runtime.onlyNull (.getString keyA))
      { server := 0 }).2.env = { server := 1 } :=
    (env_run_request _ (fun p => only_code (R := Runtime.onlyNull) .string p) _).trans
      (congrArg Prod.snd hrequest)
  rw [List.map_singleton, session_singleton, List.map_singleton, hret, henv]

end RcppRedis
