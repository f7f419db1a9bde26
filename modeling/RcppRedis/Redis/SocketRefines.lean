import RcppRedis.Lib.Tape
import RcppRedis.Redis.Correspondence
import RcppRedis.Redis.Socket

/-!
# Bytes refine replies

A server that writes replies for the reader cannot be told, over bytes, from the one of
`Transport`: what is on the way there is a list of replies, and a `recv` brings those whose
last byte has come.

* `Refines` — the bytes of a connection, and its replies.
* `redisGetReply_replays` — one reply on both connections.
* `session_replays` — every session over bytes is one over replies.
-/

namespace RcppRedis

open Bytes Resp Hiredis Interact Prog Pieces Preorder

variable {O : Type} {R : Runtime O} {σ ε α : Type} {strtod : Bytes → Double × Bytes}

/-! ## What a server writes -/

/-- A reply that a server may write: it can be read, is no push, and is not so long that `int`
cannot count it and one more piece. -/
structure Sendable (strtod : Bytes → Double × Bytes) (r : Reply) : Prop where
  writable : Writable strtod (2 ^ 32 - 1) r
  notPush : redisHandledPushReply r.object = false
  length : (encode r).length + 2 ^ 14 ≤ 2 ^ 31 + 1

/-- The server writes replies that can be read. -/
structure Peer.Writes (strtod : Bytes → Double × Bytes) (P : Peer σ ε) : Prop where
  command (words : List Bytes) (s : σ) : Sendable strtod (P.command words s).1
  event (e : ε) (s : σ) : ∀ r ∈ (P.event e s).1, Sendable strtod r

theorem writes_answering {S : Server σ} :
    (answering S).Writes strtod ↔ ∀ words s, Sendable strtod (S words s).1 :=
  ⟨fun h => h.command, fun h => ⟨h, fun e => e.elim⟩⟩

/-- What is on the way stays so that the replies of the server can be read, whichever events
happen of these. -/
structure Peer.Keeps (strtod : Bytes → Double × Bytes) (P : Peer σ ε) (happens : ε → Prop)
    (Inv : Link σ → Prop) : Prop where
  sendable {l : Link σ} (h : Inv l) : ∀ r ∈ l.replies ++ l.outbound, Sendable strtod r
  event {e : ε} (he : happens e) {l : Link σ} (h : Inv l) : Inv (l.event P e)
  send (n : ℕ) {l : Link σ} (h : Inv l) : Inv (l.send P.command n)
  recv (n : ℕ) {l : Link σ} (h : Inv l) : Inv (l.recv n)

theorem Peer.Keeps.outbound {P : Peer σ ε} {happens : ε → Prop} {Inv : Link σ → Prop}
    (hP : P.Keeps strtod happens Inv) {l : Link σ} (h : Inv l) :
    ∀ r ∈ l.outbound, Sendable strtod r :=
  fun r hr => hP.sendable h r (List.mem_append_right _ hr)

theorem Peer.Writes.serve {P : Peer σ ε} (hP : P.Writes strtod) (fuel : ℕ)
    (b : Bytes) (s : σ) :
    ∀ r ∈ (RcppRedis.serve P.command fuel b s).2.1, Sendable strtod r := by
  induction fuel generalizing b s with
  | zero => exact fun r hr => absurd hr List.not_mem_nil
  | succ fuel ih =>
      rw [RcppRedis.serve]
      split
      · exact fun r hr => absurd hr List.not_mem_nil
      · exact ih _ _
      · exact List.forall_mem_cons.mpr ⟨hP.command _ _, ih _ _⟩

/-- All replies of such a server can be read. -/
theorem Peer.Writes.keeps {P : Peer σ ε} (hP : P.Writes strtod) :
    P.Keeps strtod (fun _ => True) fun l => ∀ r ∈ l.replies ++ l.outbound, Sendable strtod r
    where
  sendable h := h
  event {e} _ l h := by
    rw [Link.event, ← List.append_assoc]
    exact List.forall_mem_append.mpr ⟨h, hP.event e l.server⟩
  send n l h := by
    rw [Link.send, Link.arrive, ← List.append_assoc]
    exact List.forall_mem_append.mpr ⟨h, hP.serve _ _ _⟩
  recv n l h := by
    rw [Link.recv, List.append_assoc, List.take_append_drop]
    exact h

/-- The bytes that have come of the first of several replies, or of none. -/
def Unfinished (u : Bytes) : List Reply → Prop
  | [] => u = []
  | r :: _ => ∃ more, more ≠ [] ∧ u ++ more = encode r

theorem Unfinished.begins {u : Bytes} {rs : List Reply} (h : Unfinished u rs)
    (hrs : ∀ r ∈ rs, Sendable strtod r) : u = [] ∨ Begins strtod (2 ^ 32 - 1) u := by
  cases rs with
  | nil => exact .inl h
  | cons r rs =>
      obtain ⟨more, hmore, heq⟩ := h
      refine .inr ⟨more, r, hmore, ?_⟩
      rw [heq]
      exact spells_encode (hrs r List.mem_cons_self).writable

/-- There is room for another piece. -/
theorem Unfinished.length_le {u : Bytes} {rs : List Reply} (h : Unfinished u rs)
    (hrs : ∀ r ∈ rs, Sendable strtod r) : u.length + 2 ^ 14 ≤ 2 ^ 31 + 1 := by
  cases rs with
  | nil =>
      rw [show u = [] from h]
      decide
  | cons r rs =>
      obtain ⟨more, -, heq⟩ := h
      have hlen := (hrs r List.mem_cons_self).length
      rw [← heq, List.length_append] at hlen
      omega

theorem unfinished_nil {rs : List Reply} (hrs : ∀ r ∈ rs, Sendable strtod r) :
    Unfinished [] rs := by
  cases rs with
  | nil => rfl
  | cons r rs => exact ⟨encode r, encode_ne_nil (hrs r List.mem_cons_self).writable, rfl⟩

/-- More replies may follow. -/
theorem Unfinished.append {u : Bytes} {rs rs' : List Reply} (h : Unfinished u rs)
    (hrs' : ∀ r ∈ rs', Sendable strtod r) : Unfinished u (rs ++ rs') := by
  cases rs with
  | nil =>
      rw [show u = [] from h]
      exact unfinished_nil hrs'
  | cons r rs => exact h

/-- **Where a stream of replies is cut**: so many of them are complete, and the next one is
not. -/
theorem exists_cut {x y : Bytes} {rs : List Reply} (hrs : ∀ r ∈ rs, Sendable strtod r)
    (h : x ++ y = encodeAll rs) :
    ∃ k u, x = encodeAll (rs.take k) ++ u ∧ u ++ y = encodeAll (rs.drop k) ∧
      Unfinished u (rs.drop k) := by
  induction rs generalizing x with
  | nil =>
      obtain ⟨rfl, rfl⟩ := List.append_eq_nil_iff.mp (show x ++ y = [] from h)
      exact ⟨0, [], rfl, rfl, rfl⟩
  | cons r rs ih =>
      obtain ⟨hr, hrest⟩ := List.forall_mem_cons.mp hrs
      rw [encodeAll] at h
      rcases List.append_eq_append_iff.mp h with ⟨d, hd, rfl⟩ | ⟨d, rfl, hd⟩
      · by_cases hnil : d = []
        · refine ⟨1, [], ?_, ?_, unfinished_nil hrest⟩
          · rw [List.append_nil, List.take_succ_cons, List.take_zero, encodeAll, encodeAll,
              List.append_nil, hd, hnil, List.append_nil]
          · rw [hnil]
            rfl
        · refine ⟨0, x, rfl, ?_, d, hnil, hd.symm⟩
          rw [List.drop_zero, encodeAll, hd, List.append_assoc]
      · obtain ⟨k, u, rfl, hy, hu⟩ := ih hrest hd.symm
        refine ⟨k + 1, u, ?_, hy, hu⟩
        rw [List.take_succ_cons, encodeAll, List.append_assoc]

theorem encodeAll_append (rs rs' : List Reply) :
    encodeAll (rs ++ rs') = encodeAll rs ++ encodeAll rs' := by
  rw [encodeAll_eq, encodeAll_eq, encodeAll_eq, List.map_append, List.flatten_append]

/-! ## The relation -/

/-- **The bytes of a connection, and its replies**: the reader holds the bytes of the replies
that are complete, and perhaps some of the next one. -/
structure Refines (strtod : Bytes → Double × Bytes) (w : Wire σ) (l : Link σ) : Prop where
  err : l.err = w.context.err.isSome
  obuf : l.obuf = w.context.obuf
  inbound : l.inbound = w.inbound
  server : l.server = w.server
  sendable : ∀ r ∈ l.replies ++ l.outbound, Sendable strtod r
  reader : ∃ u, Holds strtod (2 ^ 32 - 1) w.context.reader (encodeAll l.replies ++ u) ∧
    u ++ w.outbound = encodeAll l.outbound ∧ Unfinished u l.outbound

/-- A new connection is at rest. -/
theorem refines_fresh (s : σ) : Refines strtod ({ server := s } : Wire σ) { server := s } where
  err := rfl
  obuf := rfl
  inbound := rfl
  server := rfl
  sendable := fun _ hr => absurd hr List.not_mem_nil
  reader := ⟨[], ⟨[], [], [], rfl, atRest_fresh, .nil, Nat.zero_le _⟩, rfl, rfl⟩

namespace Refines

variable {P : Peer σ ε} {w : Wire σ} {l : Link σ}

theorem sends (h : Refines strtod w l) {rs : List Reply} (hrs : ∀ r ∈ rs, Sendable strtod r)
    {b : Bytes} {s : σ} :
    Refines strtod { w with inbound := b, outbound := w.outbound ++ encodeAll rs, server := s }
      { l with inbound := b, outbound := l.outbound ++ rs, server := s } := by
  obtain ⟨u, hreader, hu, hunfinished⟩ := h.reader
  refine ⟨h.err, h.obuf, rfl, rfl, ?_, u, hreader, ?_, hunfinished.append hrs⟩
  · rw [← List.append_assoc]
    exact List.forall_mem_append.mpr ⟨h.sendable, hrs⟩
  · rw [← List.append_assoc, hu, encodeAll_append]

theorem arrive (h : Refines strtod w l) {S : Server σ} {sent : Bytes}
    (hsent : ∀ r ∈ (l.arrive S sent).outbound, Sendable strtod r) :
    Refines strtod (w.arrive S sent) (l.arrive S sent) := by
  have hrs : ∀ r ∈ (serve S (w.inbound ++ sent).length (w.inbound ++ sent) w.server).2.1,
      Sendable strtod r := by
    intro r hr
    refine hsent r (List.mem_append_right _ ?_)
    rwa [h.inbound, h.server]
  have hsends := h.sends hrs
    (b := (serve S (w.inbound ++ sent).length (w.inbound ++ sent) w.server).1)
    (s := (serve S (w.inbound ++ sent).length (w.inbound ++ sent) w.server).2.2)
  rw [Link.arrive, h.inbound, h.server]
  exact hsends

theorem event (h : Refines strtod w l) {e : ε}
    (hsent : ∀ r ∈ (l.event P e).outbound, Sendable strtod r) :
    Refines strtod (w.event P e) (l.event P e) := by
  have hrs : ∀ r ∈ (P.event e w.server).1, Sendable strtod r := by
    intro r hr
    refine hsent r (List.mem_append_right _ ?_)
    rwa [h.server]
  have hsends := h.sends hrs (b := w.inbound) (s := (P.event e w.server).2)
  rw [Link.event, h.server]
  rw [← h.inbound] at hsends
  exact { hsends with inbound := h.inbound }

/-! ## One system call -/

/-- Without a reply in it, the reader hands out none. -/
theorem fromReader_none (h : Refines strtod w l) (hnil : l.replies = []) :
    ∃ c, redisGetReplyFromReader strtod w.context = (some none, c) ∧
      Refines strtod { w with context := c } l := by
  obtain ⟨u, hreader, hu, hunfinished⟩ := h.reader
  have hout : ∀ r ∈ l.outbound, Sendable strtod r := fun r hr =>
    h.sendable r (List.mem_append_right _ hr)
  rw [hnil] at hreader
  obtain ⟨r', hreply, hholds⟩ := Holds.getReply_none hreader (hunfinished.begins hout)
  refine ⟨{ w.context with reader := r' }, by rw [redisGetReplyFromReader, hreply], ?_⟩
  refine ⟨h.err, h.obuf, h.inbound, h.server, h.sendable, u, ?_, hu, hunfinished⟩
  rw [hnil]
  exact hholds

/-- The first reply is handed out. -/
theorem fromReader_some (h : Refines strtod w l) {r : Reply} {rs : List Reply}
    (hcons : l.replies = r :: rs) :
    ∃ c, redisGetReplyFromReader strtod w.context = (some (some r.object), c) ∧
      Refines strtod { w with context := c } { l with replies := rs } := by
  obtain ⟨u, hreader, hu, hunfinished⟩ := h.reader
  have hall := h.sendable
  rw [hcons, List.cons_append, List.forall_mem_cons] at hall
  rw [hcons, encodeAll, List.append_assoc] at hreader
  obtain ⟨r', hreply, hholds⟩ := Holds.getReply hreader (spells_encode hall.1.writable)
  exact ⟨{ w.context with reader := r' }, by rw [redisGetReplyFromReader, hreply],
    h.err, h.obuf, h.inbound, h.server, hall.2, u, hholds, hu, hunfinished⟩

/-- No reply is taken for a push. -/
theorem skipPushes (h : Refines strtod w l) (fuel : ℕ) :
    Hiredis.skipPushes strtod (fuel + 1) w.context =
      redisGetReplyFromReader strtod w.context := by
  rw [Hiredis.skipPushes]
  cases hreplies : l.replies with
  | nil =>
      obtain ⟨c, hreply, -⟩ := h.fromReader_none hreplies
      rw [hreply]
  | cons r rs =>
      obtain ⟨c, hreply, -⟩ := h.fromReader_some hreplies
      have hsend := h.sendable r (by rw [hreplies]; exact List.mem_cons_self)
      rw [hreply]
      simp only [hsend.notPush, Bool.false_eq_true, if_false]

end Refines

/-! ## One turn -/

/-- So many bytes of the output buffer are sent. -/
theorem redisBufferWrite_ok {c : RedisContext} {call : SocketCall} {n : ℕ}
    (herr : c.err.isSome = false) (hobuf : c.obuf ≠ [])
    (hcall : redisNetWrite c.obuf call = .ok n) : Hiredis.redisBufferWrite call c =
      (true, c.obuf.take n, { c with obuf := c.obuf.drop n }) := by
  have hle : n ≤ c.obuf.length := by
    cases call with
    | moves k =>
        cases hcall
        exact Nat.min_le_right _ _
    | eof =>
        cases hcall
        exact Nat.zero_le _
    | fails errno strerror => cases errno <;> cases hcall
  rw [Hiredis.redisBufferWrite, if_neg (by rw [herr]; exact Bool.false_ne_true),
    if_neg hobuf, hcall]
  simp only
  congr 3
  split_ifs with hzero hall
  · rw [hzero, List.drop_zero]
  · rw [hall, List.drop_length]
  · exact sdsrange_drop hle

/-- How a turn over bytes is one over replies. -/
inductive Lowers : ByteTurn ε → Turn ε → Prop where
  | event (e : ε) : Lowers (.event e) (.event e)
  | moves (n k : ℕ) : Lowers (.call (.moves n)) (.call (.moves k))
  | eof (k : ℕ) : Lowers (.call .eof) (.call (.moves k))
  | interrupted (strerror : Bytes) :
      Lowers (.call (.fails .interrupted strerror)) (.call .interrupted)
  | closed : Lowers (.call .eof) (.call .fails)
  | fails {errno : Errno} (h : errno ≠ .interrupted) (strerror : Bytes) :
      Lowers (.call (.fails errno strerror)) (.call .fails)

/-- What a `send` makes of a system call. -/
def sendOf : SocketCall → Syscall
  | .moves n => .moves n
  | .eof => .moves 0
  | .fails errno _ => if errno = .interrupted then .interrupted else .fails

/-- A turn of a loop that writes. -/
def ByteTurn.toTurn : ByteTurn ε → Turn ε
  | .call c => .call (sendOf c)
  | .event e => .event e

theorem lowers_sendOf (c : SocketCall) : Lowers (ε := ε) (.call c) (.call (sendOf c)) := by
  cases c with
  | moves n => exact .moves n n
  | eof => exact .eof 0
  | fails errno strerror =>
      rw [sendOf]
      split_ifs with hcall
      · rw [hcall]
        exact .interrupted strerror
      · exact .fails hcall strerror

namespace Refines

variable {P : Peer σ ε} {w : Wire σ} {l : Link σ}

theorem setError (h : Refines strtod w l) (e : Failure) :
    Refines strtod { w with context := redisSetError w.context e } { l with err := true } :=
  { h with err := rfl }

/-- A command is put in the output buffer. -/
theorem append (h : Refines strtod w l) (b : Bytes) :
    Refines strtod { w with context := { w.context with obuf := w.context.obuf ++ b } }
      { l with obuf := l.obuf ++ b } :=
  { h with obuf := congrArg (· ++ b) h.obuf }

/-- So many bytes are sent. -/
theorem send (h : Refines strtod w l) {S : Server σ} {n : ℕ}
    (hsent : ∀ r ∈ (l.send S n).outbound, Sendable strtod r) :
    Refines strtod
      ({ w with context := { w.context with obuf := w.context.obuf.drop n } }.arrive S
        (w.context.obuf.take n)) (l.send S n) := by
  rw [Link.send, h.obuf] at hsent ⊢
  have hdrop : Refines strtod
      { w with context := { w.context with obuf := w.context.obuf.drop n } }
      { l with obuf := w.context.obuf.drop n } := { h with obuf := rfl }
  exact hdrop.arrive hsent

/-- **A `send`.** -/
theorem bufferWrite (h : Refines strtod w l)
    (hsent : ∀ n, ∀ r ∈ (l.send P.command n).outbound, Sendable strtod r)
    (herr : l.err = false) (hobuf : l.obuf ≠ []) (c : SocketCall) :
    (∃ sent context l', Hiredis.redisBufferWrite c w.context = (false, sent, context) ∧
      redisBufferWrite P.command (sendOf c) l = (false, l') ∧
        Refines strtod { w with context := context } l') ∨
    ∃ sent context l', Hiredis.redisBufferWrite c w.context = (true, sent, context) ∧
      redisBufferWrite P.command (sendOf c) l = (true, l') ∧
        Refines strtod ({ w with context := context }.arrive P.command sent) l' := by
  have hnone : w.context.err.isSome = false := by rw [← h.err, herr]
  have hne : w.context.obuf ≠ [] := by rwa [← h.obuf]
  cases c with
  | moves n =>
      have hmin := h.send (hsent (min n w.context.obuf.length))
      have hsame : l.send P.command (min n w.context.obuf.length) = l.send P.command n := by
        rw [Link.send, Link.send, h.obuf, ← List.take_eq_take_min, ← List.drop_eq_drop_min]
      rw [hsame] at hmin
      exact .inr ⟨_, _, _, redisBufferWrite_ok hnone hne rfl, rfl, hmin⟩
  | eof => exact .inr ⟨_, _, _, redisBufferWrite_ok hnone hne rfl, rfl, h.send (hsent 0)⟩
  | fails errno strerror =>
      left
      rw [Hiredis.redisBufferWrite, if_neg (by rw [hnone]; exact Bool.false_ne_true),
        if_neg hne, sendOf]
      split_ifs with hcall
      · rw [hcall]
        exact ⟨[], w.context, l, rfl, rfl, h⟩
      · rw [redisNetWrite_fails hcall]
        exact ⟨[], _, _, rfl, rfl, h.setError ⟨.io, strerror⟩⟩

/-- Bytes that are fed complete so many replies. -/
theorem receives (h : Refines strtod w l) (hnil : l.replies = []) {buf rest : Bytes}
    (houtbound : w.outbound = buf ++ rest) (hlen : buf.length ≤ 2 ^ 14) :
    ∃ k, Refines strtod { w with
      context := { w.context with reader := (redisReaderFeed w.context.reader buf).2 }
      outbound := rest } (l.recv k) := by
  obtain ⟨u, hreader, hu, hunfinished⟩ := h.reader
  have hout : ∀ r ∈ l.outbound, Sendable strtod r := fun r hr =>
    h.sendable r (List.mem_append_right _ hr)
  have hroom := hunfinished.length_le hout
  rw [houtbound, ← List.append_assoc] at hu
  obtain ⟨k, u', hk, hrest, hu'⟩ := exists_cut hout hu
  rw [hnil] at hreader
  have hfed := Holds.feed hreader (c := buf) (by
    rw [List.length_append]
    simp only [encodeAll, List.nil_append]
    omega)
  rw [show encodeAll [] ++ u = u from rfl, hk] at hfed
  refine ⟨k, h.err, h.obuf, h.inbound, h.server, ?_, u', ?_, hrest, hu'⟩
  · rw [Link.recv, List.append_assoc, List.take_append_drop]
    exact h.sendable
  · rw [Link.recv, hnil]
    exact hfed

/-- A `recv` that brings bytes, or none. -/
theorem bufferRead_moves (h : Refines strtod w l) (herr : l.err = false)
    (hnil : l.replies = []) (n : ℕ) :
    ∃ k context, Hiredis.redisBufferRead (.moves n) w.outbound w.context =
        (true, w.outbound.drop (min n (1024 * 16)), context) ∧
      Refines strtod { w with
        context := context
        outbound := w.outbound.drop (min n (1024 * 16)) } (l.recv k) := by
  have hnone : w.context.err.isSome = false := by rw [← h.err, herr]
  have hbuf : redisNetRead (1024 * 16) w.outbound (.moves n) =
      .ok (w.outbound.take (min n (1024 * 16))) := rfl
  have hlen : (w.outbound.take (min n (1024 * 16))).length ≤ 2 ^ 14 := by
    rw [List.length_take]
    omega
  have happ := (List.take_append_drop (min n (1024 * 16)) w.outbound).symm
  rw [Hiredis.redisBufferRead, if_neg (by rw [hnone]; exact Bool.false_ne_true), hbuf]
  generalize w.outbound.take (min n (1024 * 16)) = buf at hlen happ
  generalize w.outbound.drop (min n (1024 * 16)) = rest at happ
  cases buf with
  | nil =>
      have hsame : l.recv 0 = l := by
        rw [Link.recv, List.take_zero, List.append_nil, List.drop_zero]
      have hrest : w.outbound = rest := happ
      rw [← hrest]
      exact ⟨0, w.context, rfl, hsame.symm ▸ h⟩
  | cons b buf =>
      obtain ⟨k, hk⟩ := h.receives hnil happ hlen
      obtain ⟨u, hreader, -⟩ := h.reader
      have hrest : w.outbound.drop (b :: buf).length = rest := by rw [happ, List.drop_left]
      rw [redisReaderFeed_eq hreader.err] at hk
      refine ⟨k, _, ?_, hk⟩
      simp only [hrest, redisReaderFeed_eq hreader.err]

/-- **A `recv`**, after which the reader may have several replies. -/
theorem bufferRead (h : Refines strtod w l) (herr : l.err = false) (hnil : l.replies = [])
    (c : SocketCall) :
    ∃ c', Lowers (ε := ε) (.call c) (.call c') ∧ ∃ ok rest context l',
      Hiredis.redisBufferRead c w.outbound w.context = (ok, rest, context) ∧
        redisBufferRead c' l = (ok, l') ∧
          Refines strtod { w with context := context, outbound := rest } l' := by
  have hnone : w.context.err.isSome = false := by rw [← h.err, herr]
  cases c with
  | moves n =>
      obtain ⟨k, context, hread, hk⟩ := h.bufferRead_moves herr hnil n
      exact ⟨.moves k, .moves n k, true, _, _, _, hread, rfl, hk⟩
  | eof =>
      rw [Hiredis.redisBufferRead, if_neg (by rw [hnone]; exact Bool.false_ne_true)]
      exact ⟨.fails, .closed, _, _, _, _, rfl, rfl, h.setError _⟩
  | fails errno strerror =>
      rw [Hiredis.redisBufferRead, if_neg (by rw [hnone]; exact Bool.false_ne_true)]
      by_cases hcall : errno = .interrupted
      · rw [hcall]
        exact ⟨.interrupted, .interrupted strerror, _, _, _, _, rfl, rfl, h⟩
      · obtain ⟨e, he⟩ := redisNetRead_fails hcall (1024 * 16) w.outbound strerror
        rw [he]
        exact ⟨.fails, .fails hcall strerror, _, _, _, _, rfl, rfl, h.setError e⟩

end Refines

/-! ## The loops -/

/-- The same answer on both connections, on turns of which something is promised. -/
abbrev Replayed (strtod : Bytes → Double × Bytes) (ok : List (Turn ε) → Prop)
    (turns : List (ByteTurn ε)) (x : Response Fault (Option Reply) × Socket σ ε)
    (Y : List (Turn ε) → Response Fault (Option Reply) × Net σ ε) : Prop :=
  Replays Lowers (Refines strtod) (· = .blocked) Socket.mk Net.mk ok turns x Y

theorem err_of_redisBufferRead {c : Syscall} {l l' : Link σ}
    (h : redisBufferRead c l = (true, l')) : l'.err = l.err := by
  cases c with
  | fails => cases h
  | moves | interrupted =>
      cases h
      rfl

theorem replies_of_redisBufferWrite {S : Server σ} {c : Syscall} {ok : Bool} {l l' : Link σ}
    (h : redisBufferWrite S c l = (ok, l')) : l'.replies = l.replies := by
  cases c <;> cases h <;> rfl

/-- A `send` that fails and is not interrupted sets the error. -/
theorem err_of_redisBufferWrite_false {S : Server σ} {c : Syscall} (hc : c ≠ .interrupted)
    {l l' : Link σ} (h : redisBufferWrite S c l = (false, l')) : l'.err = true := by
  cases c with
  | interrupted => exact absurd rfl hc
  | moves => cases h
  | fails =>
      cases h
      rfl

/-- Nothing is left to be written. -/
theorem undisturbed_of_done {P : Peer σ ε} {l : Link σ} (h : l.err = true ∨ l.obuf = [])
    (turns : List (Turn ε)) : Undisturbed P turns l := by
  have hdone (herr : l.err = false) (hobuf : l.obuf ≠ []) : False :=
    h.elim (fun ht => Bool.false_ne_true (herr.symm.trans ht)) hobuf
  cases turns with
  | nil => trivial
  | cons turn turns => cases turn <;> exact fun herr hobuf => (hdone herr hobuf).elim

theorem received_answer (r : Reply) (n : Socket σ ε) :
    Socket.received (.answer (some r.object), n) = (.answer (some r), n) := by
  rw [Socket.received]
  simp only [reply_object]

section Loops

variable {P : Peer σ ε} {happens : ε → Prop} {Inv : Link σ → Prop}
  (hP : P.Keeps strtod happens Inv) {w : Wire σ} {l : Link σ} {turns : List (ByteTurn ε)}
  (hevents : ∀ e, .event e ∈ turns → happens e)

include hP

theorem inv_of_redisBufferRead {c : Syscall} {l' : Link σ} (hl : Inv l)
    (h : redisBufferRead c l = (true, l')) : Inv l' := by
  cases c with
  | fails => cases h
  | moves n =>
      cases h
      exact hP.recv n hl
  | interrupted =>
      cases h
      exact hl

theorem inv_of_redisBufferWrite {c : Syscall} {l' : Link σ} (hl : Inv l)
    (h : redisBufferWrite P.command c l = (true, l')) : Inv l' := by
  cases c with
  | moves n =>
      cases h
      exact hP.send n hl
  | interrupted | fails => cases h

include hevents

/-- **The loop that reads.** -/
theorem readLoop_replays (h : Refines strtod w l) (hl : Inv l) (hnil : l.replies = []) :
    Replayed strtod (fun _ => True) turns (Socket.received (Socket.readLoop strtod P turns w))
      fun turns' => readLoop P turns' l := by
  have htrue (more : List (Turn ε)) : True := trivial
  cases herr : l.err with
  | true =>
      rw [Socket.readLoop_of_err P turns (by rw [← h.err, herr])]
      exact .done h turns rfl (fun more => readLoop_of_err P more herr) htrue
  | false =>
  induction turns generalizing w l with
  | nil =>
      rw [Socket.readLoop_nil P (by rw [← h.err, herr])]
      exact ⟨[], [], [], rfl, .nil,
        .inl ⟨rfl, congrArg Prod.fst (readLoop_nil P herr), trivial⟩⟩
  | cons turn turns ih =>
      have hnone : w.context.err.isSome = false := by rw [← h.err, herr]
      have htail : ∀ e, .event e ∈ turns → happens e :=
        fun e he => hevents e (List.mem_cons_of_mem turn he)
      cases turn with
      | event e =>
          rw [Socket.readLoop_event P hnone]
          refine Replays.cons ?_ (.event e)
          simp only [readLoop_event P herr]
          have he := hP.event (hevents e List.mem_cons_self) hl
          exact ih htail (h.event (hP.outbound he)) he hnil herr
      | call c =>
          obtain ⟨c', hc, ok, rest, context, l', hbytes, hreplies, hrefines⟩ :=
            h.bufferRead (ε := ε) herr hnil c
          refine Replays.cons ?_ hc
          simp only [readLoop_call P herr, hreplies]
          cases ok with
          | false =>
              rw [Socket.readLoop_call_false P hnone hbytes]
              exact .done hrefines turns rfl (fun _ => rfl) htrue
          | true =>
              rw [Socket.readLoop_call_true P hnone hbytes]
              have hskip := hrefines.skipPushes context.reader.rest.length
              simp only at hskip
              rw [hskip]
              cases hnext : l'.replies with
              | nil =>
                  obtain ⟨context', hfrom, hrefines'⟩ := hrefines.fromReader_none hnext
                  simp only at hfrom
                  rw [hfrom]
                  simp only [hnext]
                  exact ih htail hrefines' (inv_of_redisBufferRead hP hl hreplies) hnext
                    ((err_of_redisBufferRead hreplies).trans herr)
              | cons r rs =>
                  obtain ⟨context', hfrom, hrefines'⟩ := hrefines.fromReader_some hnext
                  simp only at hfrom
                  rw [hfrom]
                  simp only [hnext]
                  exact .done hrefines' turns (received_answer r _) (fun _ => rfl) htrue

/-- The loop that writes, where it is at its end. -/
theorem writeLoop_replays_of_done (h : Refines strtod w l) (hl : Inv l) (hnil : l.replies = [])
    (hdone : l.err = true ∨ l.obuf = []) :
    Replayed strtod (fun _ => True) turns (Socket.received (Socket.writeLoop strtod P turns w))
      fun turns' => writeLoop P turns' l := by
  cases herr : l.err with
  | true =>
      rw [Socket.writeLoop_of_err P turns (by rw [← h.err, herr])]
      exact .done h turns rfl (fun more => writeLoop_of_err P more herr) fun _ => trivial
  | false =>
      have hobuf : l.obuf = [] := hdone.resolve_left (by rw [herr]; exact Bool.false_ne_true)
      rw [Socket.writeLoop_done P turns (by rw [← h.err, herr]) (by rw [← h.obuf, hobuf])]
      simp only [writeLoop_done P _ herr hobuf]
      exact readLoop_replays hP hevents h hl hnil

/-- **The loop that writes**, and what follows it.  Where it is undisturbed over bytes, it is
so over replies. -/
theorem writeLoop_replays (h : Refines strtod w l) (hl : Inv l) (hnil : l.replies = []) :
    Replayed strtod
      (fun turns' => Undisturbed P (turns.map ByteTurn.toTurn) l → Undisturbed P turns' l)
      turns (Socket.received (Socket.writeLoop strtod P turns w))
      fun turns' => writeLoop P turns' l := by
  induction turns generalizing w l with
  | nil =>
      by_cases hdone : l.err = true ∨ l.obuf = []
      · exact (writeLoop_replays_of_done hP hevents h hl hnil hdone).promise
          fun turns' _ _ => undisturbed_of_done hdone turns'
      · obtain ⟨herr, hobuf⟩ := not_or.mp hdone
        rw [Bool.not_eq_true] at herr
        rw [Socket.writeLoop_nil P (by rw [← h.err, herr]) (h.obuf ▸ hobuf)]
        exact ⟨[], [], [], rfl, .nil,
          .inl ⟨rfl, congrArg Prod.fst (writeLoop_nil P herr hobuf), fun _ => trivial⟩⟩
  | cons turn turns ih =>
      by_cases hdone : l.err = true ∨ l.obuf = []
      · exact (writeLoop_replays_of_done hP hevents h hl hnil hdone).promise
          fun turns' _ _ => undisturbed_of_done hdone turns'
      have htail : ∀ e, .event e ∈ turns → happens e :=
        fun e he => hevents e (List.mem_cons_of_mem turn he)
      obtain ⟨herr, hobuf⟩ := not_or.mp hdone
      rw [Bool.not_eq_true] at herr
      have hnone : w.context.err.isSome = false := by rw [← h.err, herr]
      cases turn with
      | event e =>
          rw [Socket.writeLoop_event P hnone (h.obuf ▸ hobuf)]
          refine Replays.cons ?_ (.event e)
          simp only [writeLoop_event P herr hobuf]
          have he := hP.event (hevents e List.mem_cons_self) hl
          refine (ih htail (h.event (hP.outbound he)) he hnil).promise
            fun turns' hturns hall herr hobuf => ?_
          obtain ⟨hpush, hrest⟩ := hall herr hobuf
          exact ⟨hpush, hturns hrest⟩
      | call c =>
          rw [Socket.writeLoop_call P hnone (h.obuf ▸ hobuf)]
          refine Replays.cons ?_ (lowers_sendOf c)
          simp only [writeLoop_call P herr hobuf]
          rcases h.bufferWrite (fun n => hP.outbound (hP.send n hl)) herr hobuf c with
            ⟨sent, context, l', hbytes, hreplies, hrefines⟩ |
            ⟨sent, context, l', hbytes, hreplies, hrefines⟩
          · rw [hbytes]
            simp only [hreplies]
            refine .done hrefines turns rfl (fun _ => rfl) fun turns' hall herr hobuf => ?_
            obtain ⟨hc, -⟩ := hall herr hobuf
            refine ⟨hc, undisturbed_of_done (.inl ?_) turns'⟩
            rw [hreplies]
            exact err_of_redisBufferWrite_false hc hreplies
          · rw [hbytes]
            simp only [hreplies]
            refine (ih htail hrefines (inv_of_redisBufferWrite hP hl hreplies)
              ((replies_of_redisBufferWrite hreplies).trans hnil)).promise
                fun turns' hturns hall herr hobuf => ?_
            obtain ⟨hc, hrest⟩ := hall herr hobuf
            rw [hreplies] at hrest ⊢
            exact ⟨hc, hturns hrest⟩

/-- **`redisGetReply`** on both connections. -/
theorem redisGetReply_replays (h : Refines strtod w l) (hl : Inv l) :
    Replayed strtod
      (fun turns' => l.replies = [] → Undisturbed P (turns.map ByteTurn.toTurn) l →
        Undisturbed P turns' l)
      turns (Socket.received (Socket.redisGetReply strtod P ⟨turns, w⟩))
      fun turns' => redisGetReply P ⟨turns', l⟩ := by
  rw [Socket.redisGetReply]
  simp only [redisGetReply]
  cases hreplies : l.replies with
  | nil =>
      obtain ⟨c, hfrom, hrefines⟩ := h.fromReader_none hreplies
      rw [hfrom]
      exact (writeLoop_replays hP hevents hrefines hl hreplies).promise
        fun _ hturns _ => hturns
  | cons r rs =>
      obtain ⟨c, hfrom, hrefines⟩ := h.fromReader_some hreplies
      rw [hfrom]
      refine .done hrefines turns (received_answer r _) (fun _ => rfl) fun _ hnil => ?_
      cases hnil

/-- **A request** on both connections.  Where its command is written undisturbed over bytes, it
is so over replies. -/
theorem request_replays (h : Refines strtod w l) (q : Request)
    (hl : ∀ cmd, q.encode = .ok cmd → Inv { l with obuf := l.obuf ++ cmd.bytes }) :
    Replayed strtod
      (fun turns' => l.replies = [] → q.Undisturbed P ⟨turns.map ByteTurn.toTurn, l⟩ →
        q.Undisturbed P ⟨turns', l⟩)
      turns ((Socket.env strtod P).request q ⟨turns, w⟩)
      fun turns' => (Net.env P).request q ⟨turns', l⟩ := by
  by_cases hq : q = .getReply
  · subst hq
    -- nothing is put in the output buffer
    have hlink (cmd : Cmd) (hcmd : Request.getReply.encode = .ok cmd) :
        { l with obuf := l.obuf ++ cmd.bytes } = l := by
      obtain rfl := Except.ok.inj hcmd
      simp only [List.append_nil]
    have hsame := hl _ rfl
    rw [hlink _ rfl] at hsame
    refine (redisGetReply_replays hP hevents h hsame).promise
      fun turns' hturns hnil hall cmd hcmd => ?_
    have hbefore := hall cmd hcmd
    simp only [hlink cmd hcmd] at hbefore ⊢
    exact hturns hnil hbefore
  simp only [Socket.request_eq P hq, Net.request_eq P hq, Request.Undisturbed]
  rcases hencode : q.encode with ⟨_ | _ | f⟩ | cmd
  · exact .done (h.setError _) turns rfl (fun _ => rfl) (by rintro _ _ _ _ ⟨⟩)
  · exact .done (h.setError _) turns rfl (fun _ => rfl) (by rintro _ _ _ _ ⟨⟩)
  · exact .done h turns rfl (fun _ => rfl) (by rintro _ _ _ _ ⟨⟩)
  · refine (redisGetReply_replays hP hevents (h.append cmd.bytes) (hl cmd hencode)).promise
      fun turns' hturns hnil hall cmd' hcmd => ?_
    obtain rfl := Except.ok.inj hcmd
    exact hturns hnil (hall cmd rfl)

end Loops

/-! ## Sessions -/

/-- A world whose connection has these turns. -/
def worldOf {τ υ γ : Type} (load : List τ → υ → γ) (turns : List τ) (s : υ × Ledger) :
    World γ :=
  ⟨load turns s.1, s.2⟩

/-- The same ledger, and connections that are related. -/
def RefinesWorld (strtod : Bytes → Double × Bytes) (s : Wire σ × Ledger)
    (t : Link σ × Ledger) : Prop :=
  Refines strtod s.1 t.1 ∧ s.2 = t.2

/-- The pointer to a reply that is handed out. -/
def handed (ledger : Ledger) : Response Fault (Option Reply) → Response Fault (Option Pointer)
  | .answer (some r) => .answer (some ⟨ledger.acquired.length, [], r⟩)
  | .answer none => .answer none
  | .fault f => .fault f
  | .blocked => .blocked

/-- The ledger after an answer. -/
def recorded (ledger : Ledger) : Response Fault (Option Reply) → Ledger
  | .answer (some r) => { ledger with acquired := ledger.acquired ++ [r] }
  | _ => ledger

theorem handler_request {γ : Type} (E : Env γ) (q : Request) (w : World γ) :
    E.handler (.request q) w = (handed w.ledger (E.request q w.env).1,
      ⟨(E.request q w.env).2, recorded w.ledger (E.request q w.env).1⟩) := by
  rw [Env.handler]
  rcases E.request q w.env with ⟨⟨_ | _⟩ | _ | _, s⟩ <;> rfl

section Sessions

variable {P : Peer σ ε} (hP : P.Writes strtod)

include hP

/-- **One instruction** on both connections. -/
theorem handler_replays (i : Instr) (turns : List (ByteTurn ε)) (s : Wire σ × Ledger)
    (t : Link σ × Ledger) (h : RefinesWorld strtod s t) :
    Replays Lowers (RefinesWorld strtod) (· = .blocked) (worldOf Socket.mk)
      (worldOf Net.mk) (fun _ => True) turns
      ((Socket.env strtod P).handler i (worldOf Socket.mk turns s))
      fun turns' => (Net.env P).handler i (worldOf Net.mk turns' t) := by
  obtain ⟨w, ledger⟩ := s
  obtain ⟨l, ledger'⟩ := t
  obtain ⟨hrefines, hledger⟩ := h
  obtain rfl : ledger = ledger' := hledger
  have hdone (ledger : Ledger) : RefinesWorld strtod (w, ledger) (l, ledger) := ⟨hrefines, rfl⟩
  cases i with
  | request q =>
      obtain ⟨pre, rest, pre', rfl, hpre, hend⟩ :=
        request_replays hP.keeps (fun e (_ : .event e ∈ turns) => trivial) hrefines q
          fun _ _ => hrefines.sendable
      refine ⟨pre, rest, pre', rfl, hpre, ?_⟩
      simp only [handler_request, worldOf] at hend ⊢
      rcases hend with ⟨hblocked, hsame, -⟩ | ⟨w', l', hw, hrefines', hmore⟩
      · left
        rw [hsame, hblocked]
        exact ⟨rfl, rfl, trivial⟩
      · generalize (Socket.env strtod P).request q ⟨pre ++ rest, w⟩ = x at hw hmore
        refine .inr ⟨(w', recorded ledger x.1), (l', recorded ledger x.1), ?_,
          ⟨hrefines', rfl⟩,
          fun more => ?_⟩
        · rw [hw]
        · rw [(hmore more).1]
          exact ⟨rfl, trivial⟩
  | freeReplyObject p =>
      exact .done (hdone (ledger.release p)) turns rfl (fun _ => rfl) fun _ => trivial
  | redisConnect host port timeout =>
      exact .done (hdone { ledger with opened := ledger.opened + 1 }) turns rfl (fun _ => rfl)
        fun _ => trivial
  | redisFree =>
      exact .done (hdone { ledger with closed := ledger.closed + 1 }) turns rfl (fun _ => rfl)
        fun _ => trivial

/-- **A call** on both connections. -/
theorem run_env_replays (p : Code α) {w : Wire σ} {l : Link σ} (h : Refines strtod w l)
    (turns : List (ByteTurn ε)) :
    Replays Lowers (RefinesWorld strtod) (· = .blocked) (worldOf Socket.mk)
      (worldOf Net.mk) (fun _ => True) turns
      ((Socket.env strtod P).run p ⟨turns, w⟩) fun turns' => (Net.env P).run p ⟨turns', l⟩ :=
  run_replays (handler_replays hP) p turns (s := (w, {})) (t := (l, {})) ⟨h, rfl⟩

/-- A session over bytes is one over replies. -/
theorem session_replays_of_refines (ps : List (Code α)) {w : Wire σ} {l : Link σ}
    (h : Refines strtod w l) (turns : List (ByteTurn ε)) :
    ∃ pre rest turns', turns = pre ++ rest ∧ List.Forall₂ Lowers pre turns' ∧
      ((Socket.env strtod P).session ps ⟨turns, w⟩).map Prod.fst =
        ((Net.env P).session ps ⟨turns', l⟩).map Prod.fst := by
  induction ps generalizing w l turns with
  | nil => exact ⟨[], turns, [], rfl, .nil, rfl⟩
  | cons p ps ih =>
      obtain ⟨pre, rest, pre', rfl, hpre, ⟨hblocked, hsame, -⟩ |
        ⟨⟨w', ledger⟩, ⟨l', ledger'⟩, hw, hst, hmore⟩⟩ :=
        run_env_replays hP p h turns
      · refine ⟨pre, rest, pre', rfl, hpre, ?_⟩
        simp only at hsame
        rw [Env.session, Env.session]
        rcases hx : (Socket.env strtod P).run p ⟨pre ++ rest, w⟩ with ⟨o, u⟩
        rcases hy : (Net.env P).run p ⟨pre', l⟩ with ⟨o', v⟩
        rw [hx] at hblocked hsame
        rw [hy] at hsame
        obtain rfl : o = .blocked := hblocked
        obtain rfl : o' = .blocked := hsame
        rfl
      · obtain ⟨hrefines, -⟩ := hst
        rcases hx : (Socket.env strtod P).run p ⟨pre ++ rest, w⟩ with ⟨o, u⟩
        rw [hx] at hw hmore
        obtain rfl : u = ⟨⟨rest, w'⟩, ledger⟩ := hw
        obtain ⟨mid, rest', mid', rfl, hmid, hsession⟩ := ih hrefines rest
        refine ⟨pre ++ mid, rest', pre' ++ mid', (List.append_assoc ..).symm,
          List.rel_append hpre hmid, ?_⟩
        have hy := (hmore mid').1
        simp only [worldOf] at hy
        rw [Env.session, Env.session, hx, hy]
        cases o with
        | ret | raise => exact congrArg (List.cons _) hsession
        | fault | blocked => rfl

/-- **Every session over bytes is one over replies**: on other turns, which are alike one by
one, its calls end as they do here. -/
theorem session_replays (ps : List (Code α)) (turns : List (ByteTurn ε)) (s : σ) :
    ∃ pre rest turns', turns = pre ++ rest ∧ List.Forall₂ Lowers pre turns' ∧
      ((Socket.env strtod P).session ps ⟨turns, { server := s }⟩).map Prod.fst =
        ((Net.env P).session ps ⟨turns', { server := s }⟩).map Prod.fst :=
  session_replays_of_refines hP ps (refines_fresh s) turns

end Sessions

/-- A server that counts its commands. -/
def numbering : Server ℕ := fun _ n => (.string (ascii "v"), n + 1)

theorem sendable_numbering (words : List Bytes) (n : ℕ) :
    Sendable noNumber (numbering words n).1 where
  writable := show (ascii "v").length < 2 ^ 63 by decide
  notPush := rfl
  length := show (encode (.string (ascii "v"))).length + 2 ^ 14 ≤ 2 ^ 31 + 1 by decide

/-- The turns on which a value is read in three pieces. -/
def threePieces : List (ByteTurn Empty) :=
  [.call (.moves 100), .call (.moves 3), .call (.fails .interrupted []), .call (.moves 2),
    .call (.moves 100)]

/-- A read in three pieces is one over replies. -/
theorem read_replays :
    ∃ pre rest turns', threePieces = pre ++ rest ∧ List.Forall₂ Lowers pre turns' ∧
      ((Socket.env noNumber (answering numbering)).session
          [Method.code Runtime.onlyNull (.getString keyA)] ⟨threePieces, { server := 0 }⟩).map
            Prod.fst =
        ((Net.env (answering numbering)).session
          [Method.code Runtime.onlyNull (.getString keyA)]
          ⟨turns', { server := 0 }⟩).map Prod.fst :=
  session_replays (writes_answering.mpr sendable_numbering) _ threePieces 0

end RcppRedis
