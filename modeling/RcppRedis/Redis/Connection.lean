import RcppRedis.Redis.Wire

/-!
# An ideal connection

A connection whose network never fails: a frame reaches the server as it was written, and
the server answers every command with one reply, which the client reads.  The server is a
parameter.  What is left of `redisContext` is its error flag, since an encoder that fails
sets it and every later command then ends without a reply.

* `run_command` — a method with one command that fits runs as its reader on the reply.
* `Transmits` — what a server receives when a method runs.
-/

namespace RcppRedis

open Bytes Resp Hiredis Interact Prog

variable {O : Type} {R : Runtime O} {σ α : Type}

/-- A server: its reply to a command, and its next state. -/
abbrev Server (σ : Type) : Type := List Bytes → σ → Reply × σ

/-- A connection: the error flag of the context, and the server. -/
structure Conn (σ : Type) where
  err : Bool := false
  server : σ

namespace Conn

/-- The server reads a frame.  It waits for more unless the frame is a whole command. -/
def receive (S : Server σ) (frame : Bytes) (c : Conn σ) :
    Response Fault (Option Reply) × Conn σ :=
  match parseCommand frame with
  | some (w :: args, []) =>
      (.answer (some (S (w :: args) c.server).1),
        { c with server := (S (w :: args) c.server).2 })
  | _ => (.blocked, c)

/-- What becomes of an encoder's result.  An encoder that fails sets the error flag. -/
def deliver (S : Server σ) (c : Conn σ) : Except FormatError Cmd →
    Response Fault (Option Reply) × Conn σ
  | .error (.fault f) => (.fault (.format f), c)
  | .error _ => (.answer none, { c with err := true })
  | .ok cmd => if c.err then (.answer none, c) else receive S cmd.bytes c

/-- A request.  A client that has sent none waits for a reply that never comes. -/
def request (S : Server σ) : Request → Conn σ → Response Fault (Option Reply) × Conn σ
  | .getReply, c => (if c.err then .answer none else .blocked, c)
  | q, c => deliver S c q.encode

/-- The environment of a method on this connection.  A new context has no error. -/
def env (S : Server σ) : Env (Conn σ) where
  request := request S
  connect _ _ _ c := (none, { c with err := false })

theorem request_eq (S : Server σ) {q : Request} (hq : q ≠ .getReply) (c : Conn σ) :
    (env S).request q c = deliver S c q.encode := by
  cases q with
  | getReply => exact absurd rfl hq
  | _ => rfl

theorem receive_of_parse (S : Server σ) {frame : Bytes} {words : List Bytes} (hne : words ≠ [])
    (h : parseCommand frame = some (words, [])) (c : Conn σ) :
    receive S frame c = (.answer (some (S words c.server).1),
      { c with server := (S words c.server).2 }) := by
  obtain ⟨w, args, rfl⟩ := List.exists_cons_of_ne_nil hne
  rw [receive, h]

end Conn

theorem Request.Exact.ne_getReply {q : Request} {words : List Bytes} (h : q.Exact words) :
    q ≠ .getReply := by
  rintro rfl
  obtain ⟨cmd, hencode, -, hparse, -⟩ := h
  cases hencode
  cases hparse

/-- **A command on the wire is answered by the server.** -/
theorem Conn.request_of_exact (S : Server σ) {q : Request} {words : List Bytes}
    (h : q.Exact words) (hne : words ≠ []) (s : σ) :
    (env S).request q { server := s } =
      (.answer (some (S words s).1), { server := (S words s).2 }) := by
  rw [request_eq S h.ne_getReply]
  obtain ⟨cmd, hencode, -, hparse, -⟩ := h
  rw [hencode]
  exact receive_of_parse S hne hparse _

/-- **A command that fits**: the method goes on with the server's reply. -/
theorem run_command (S : Server σ) {q : Request} {words : List Bytes} (h : q.Exact words)
    (hne : words ≠ []) (k : Pointer → Code α) {w : World (Conn σ)} (hw : w.env.err = false) :
    run (Conn.env S).handler (requestNULLSafe q >>= k) w =
      run (Conn.env S).handler (k (w.pointer (S words w.env.server).1))
        (w.acquire { server := (S words w.env.server).2 } (S words w.env.server).1) := by
  have henv : w.env = { server := w.env.server } := by rw [← hw]
  rw [run_requestNULLSafe_bind, afterRequest, henv, Conn.request_of_exact S h hne]

/-- **A format whose frame does not fit** sends nothing.  The method raises if no buffer is
allocated, and else the encoder writes past its buffer. -/
theorem run_not_fits (S : Server σ) (items : List Item) (hne : items ≠ [])
    (h : ¬ (encodeCommand (items.map Item.text)).length + 1 < 2 ^ 31) (k : Pointer → Code α)
    (w : World (Conn σ)) :
    (toInt32 (encodeCommand (items.map Item.text)).length + 1 < 0 ∧ ∃ e w',
      run (Conn.env S).handler
        (requestNULLSafe (.format (template items) (items.map Item.args).flatten) >>= k) w =
          (.raise e, w') ∧ w'.env.server = w.env.server) ∨
    (¬ toInt32 (encodeCommand (items.map Item.text)).length + 1 < 0 ∧ ∃ f w',
      run (Conn.env S).handler
        (requestNULLSafe (.format (template items) (items.map Item.args).flatten) >>= k) w =
          (.fault f, w')) := by
  have hrequest : (Conn.env S).request (.format (template items) (items.map Item.args).flatten)
      w.env = Conn.deliver S w.env (buildCommand
        (toInt32 (encodeCommand (items.map Item.text)).length) (items.map Item.text)) := by
    rw [← redisvFormatCommand_template hne]
    rfl
  rw [run_requestNULLSafe_bind, afterRequest, hrequest]
  by_cases hneg : toInt32 (encodeCommand (items.map Item.text)).length + 1 < 0
  · rw [buildCommand_of_neg hneg]
    exact .inl ⟨hneg, _, _, rfl, rfl⟩
  · rcases hresult : buildCommand (toInt32 (encodeCommand (items.map Item.text)).length)
      (items.map Item.text) with e | cmd
    · obtain ⟨f, rfl⟩ := eq_fault_of_buildCommand hresult hneg
      exact .inr ⟨hneg, _, _, rfl⟩
    · exact absurd (length_lt_of_buildCommand hresult) h

/-- A method whose word is too long for a frame does not return. -/
theorem run_long_ne_ret (S : Server σ) (items : List Item) {b : Bytes}
    (hb : b ∈ items.map Item.text) (hlong : 2 ^ 31 ≤ b.length + 1) (k : Pointer → Code α)
    (w : World (Conn σ)) (a : α) :
    (run (Conn.env S).handler
      (requestNULLSafe (.format (template items) (items.map Item.args).flatten) >>= k) w).1 ≠
        .ret a := by
  have hne : items ≠ [] := by
    rintro rfl
    cases hb
  have hle := length_le_of_mem hb
  rcases run_not_fits S items hne (by omega) k w with ⟨-, e, w', hrun, -⟩ | ⟨-, f, w', hrun⟩
  · rw [hrun]
    rintro ⟨⟩
  · rw [hrun]
    rintro ⟨⟩

/-! ## What a server receives -/

/-- A server that keeps the commands it receives. -/
def recorder (reply : List Bytes → Reply) : Server (List (List Bytes)) :=
  fun words log => (reply words, log ++ [words])

/-- A run sends one command with the given words, whatever is replied. -/
def Transmits (p : Code α) (words : List Bytes) : Prop :=
  ∀ reply, ((Conn.env (recorder reply)).run p { server := [] }).2.env.server = [words]

theorem recorder_request_iff (reply : List Bytes → Reply) {q : Request} (hq : q ≠ .getReply)
    {words : List Bytes} (hne : words ≠ []) :
    ((Conn.env (recorder reply)).request q { server := [] }).2.server = [words] ↔
      ∃ cmd, q.encode = .ok cmd ∧ parseCommand cmd.bytes = some (words, []) := by
  rw [Conn.request_eq _ hq]
  constructor
  · intro h
    rcases hencode : q.encode with e | cmd
    · rw [hencode] at h
      cases e <;> cases h
    · refine ⟨cmd, rfl, ?_⟩
      have hreceive : (Conn.receive (recorder reply) cmd.bytes { server := [] }).2.server =
          [words] := by rwa [hencode] at h
      rw [Conn.receive] at hreceive
      split at hreceive
      · rename_i w args hparse
        rw [hparse]
        simp only [recorder, List.nil_append, List.cons.injEq, and_true] at hreceive
        rw [hreceive]
      · cases hreceive
  · rintro ⟨cmd, hencode, hparse⟩
    rw [hencode]
    change (Conn.receive (recorder reply) cmd.bytes { server := [] }).2.server = [words]
    rw [Conn.receive_of_parse _ hne hparse]
    rfl

/-- What a request sends, a method that goes on without another one sends. -/
theorem env_run_request {E : Env σ} (q : Request) {k : Pointer → Code α}
    (hk : ∀ p, Only Instr.Frees (k p)) (w : World σ) :
    (run E.handler (requestNULLSafe q >>= k) w).2.env = (E.request q w.env).2 := by
  rw [run_requestNULLSafe_bind, afterRequest]
  rcases E.request q w.env with ⟨⟨_ | r⟩ | f | _, s⟩
  · rfl
  · exact (run_frees E (hk _) _).2
  · rfl
  · rfl

theorem transmits_iff {q : Request} (hq : q ≠ .getReply) {k : Pointer → Code α}
    (hk : ∀ p, Only Instr.Frees (k p)) {words : List Bytes} (hne : words ≠ []) :
    Transmits (requestNULLSafe q >>= k) words ↔
      ∃ cmd, q.encode = .ok cmd ∧ parseCommand cmd.bytes = some (words, []) := by
  constructor
  · intro h
    have hrun := h fun _ => .nil
    rw [Env.run, env_run_request q hk] at hrun
    exact (recorder_request_iff _ hq hne).mp hrun
  · intro h reply
    rw [Env.run, env_run_request q hk]
    exact (recorder_request_iff reply hq hne).mpr h

end RcppRedis
