import RcppRedis.Redis.Transport
import RcppRedis.Hiredis.PlainSpec

/-!
# Commands that are not formatted

`exec`, `exists`, `expire`, `pexpire` and `del` hand a line over as a format.  A line that is
not formatted is recorded in the error of the context, where a lost connection is recorded too.

* `leavesUsable_iff` — exactly which lines leave a connection usable.
* `session_of_dead` — no call returns on a connection whose error is set.
-/

namespace RcppRedis

open Bytes Resp Hiredis Interact Prog

variable {O : Type} {R : Runtime O} {σ ε α : Type}

/-! ## Lines -/

/-- The line that a method hands over as a format without arguments. -/
def Method.line (R : Runtime O) : Method O → Option Bytes
  | exec cmd => some cmd.bytes
  | «exists» key => some (ascii "EXISTS " ++ key.bytes)
  | expire key seconds =>
      some (ascii "EXPIRE " ++ key.bytes ++ ascii " " ++ roundToString R seconds)
  | pexpire key milliseconds =>
      some (ascii "EXPIRE " ++ key.bytes ++ ascii " " ++ roundToString R milliseconds)
  | del sv => some (sv.foldl (fun cmd s => cmd ++ (ascii " " ++ s.bytes)) (ascii "DEL"))
  | _ => none

theorem Method.code_of_line {m : Method O} {line : Bytes} (h : m.line R = some line) :
    m.code R = requestNULLSafe (.format line []) >>= Reader.code R .extract := by
  cases m with
  | exec | «exists» | expire | pexpire | del =>
      obtain rfl := Option.some.inj h
      rfl
  | _ => cases h

/-- The percent signs of the line come in pairs, except one that is its last byte, and the
frame of its tokens fits. -/
def Formats (line : Bytes) : Prop :=
  Paired line = true ∧ (encodeCommand (Hiredis.tokens (unpair line))).length + 1 < 2 ^ 31

/-! ## What is left of the connection -/

/-- How a call ends on a connection, and what it leaves. -/
abbrev runOn (R : Runtime O) (P : Peer σ ε) (m : Method O) (n : Net σ ε) :
    Outcome RError Fault (SEXP O) × World (Net σ ε) := (Net.env P).run (m.code R) n

/-- The call has defined behaviour.  If its line is not formatted and it raises, the connection
is as it was before, and every session goes on as if the call had not been made. -/
def LeavesUsable (R : Runtime O) (P : Peer σ ε) (m : Method O) (n : Net σ ε) : Prop :=
  (∀ f, (runOn R P m n).1 ≠ .fault f) ∧
    ∀ line, m.line R = some line → (∀ cmd, redisvFormatCommand line [] ≠ .ok cmd) →
      ∀ e, (runOn R P m n).1 = .raise e →
        (runOn R P m n).2.env = n ∧
          ∀ calls : List (Method O),
            (Net.env P).session (calls.map (Method.code R)) (runOn R P m n).2.env =
              (Net.env P).session (calls.map (Method.code R)) n

/-- A line that is formatted has defined behaviour, whatever the connection does. -/
theorem runOn_ne_fault (P : Peer σ ε) {m : Method O} {line : Bytes}
    (hline : m.line R = some line) {cmd : Cmd} (hcmd : redisvFormatCommand line [] = .ok cmd)
    (n : Net σ ε) (f : Fault) : (runOn R P m n).1 ≠ .fault f := by
  have hrequest : (Net.env P).request (.format line []) n =
      redisGetReply P { n with link := { n.link with obuf := n.link.obuf ++ cmd.bytes } } := by
    rw [Net.request_eq P (by rintro ⟨⟩), Request.encode, hcmd]
    rfl
  have hreply := redisGetReply_ne_fault P
    { n with link := { n.link with obuf := n.link.obuf ++ cmd.bytes } } f
  rw [runOn, Env.run, Method.code_of_line hline, run_requestNULLSafe_bind, afterRequest]
  simp only [hrequest]
  rcases hanswer : redisGetReply P
    { n with link := { n.link with obuf := n.link.obuf ++ cmd.bytes } } with ⟨⟨_ | r⟩ |
      f' | _, n'⟩
  · rintro ⟨⟩
  · exact run_extract_ne_fault _ _ _ f
  · rw [hanswer] at hreply
    intro h
    exact hreply (by rw [Outcome.fault.inj h])
  · rintro ⟨⟩

/-- **A line that is not formatted** either has undefined behaviour, or raises and sets the
error. -/
theorem runOn_not_formatted (P : Peer σ ε) {m : Method O} {line : Bytes}
    (hline : m.line R = some line) {e : FormatError}
    (he : redisvFormatCommand line [] = .error e) (n : Net σ ε) :
    (∃ f, (runOn R P m n).1 = .fault f) ∨
      (runOn R P m n).1 = .raise (.stop nullReplyMessage) ∧
        (runOn R P m n).2.env = { n with link := { n.link with err := true } } := by
  have hrequest : (Net.env P).request (.format line []) n = Net.deliver P n (.error e) := by
    rw [Net.request_eq P (by rintro ⟨⟩), Request.encode, he]
  rw [runOn, Env.run, Method.code_of_line hline, run_requestNULLSafe_bind, afterRequest]
  simp only [hrequest]
  cases e with
  | fault f => exact .inl ⟨.format f, rfl⟩
  | oom => exact .inr ⟨rfl, rfl⟩
  | format => exact .inr ⟨rfl, rfl⟩

/-- **A call leaves a healthy connection usable** exactly if the percent signs in its line come
in pairs and its frame fits, so that it is formatted. -/
theorem leavesUsable_iff (P : Peer σ ε) {m : Method O} {line : Bytes}
    (hline : m.line R = some line) {n : Net σ ε} (hhealthy : n.link.err = false) :
    LeavesUsable R P m n ↔ Formats line := by
  rw [Formats, ← redisvFormatCommand_isOk_iff]
  constructor
  · rintro ⟨hdefined, husable⟩
    by_contra! hformat
    rcases hresult : redisvFormatCommand line [] with e | cmd
    · rcases runOn_not_formatted P hline hresult n with ⟨f, hf⟩ | ⟨hraise, henv⟩
      · exact hdefined f hf
      · -- the error was not set before
        obtain ⟨hsame, -⟩ := husable line hline hformat _ hraise
        have herr : n.link.err = true := by rw [← hsame, henv]
        rw [hhealthy] at herr
        cases herr
    · exact hformat cmd hresult
  · rintro ⟨cmd, hcmd⟩
    refine ⟨runOn_ne_fault P hline hcmd n, fun line' hline' hformat => ?_⟩
    obtain rfl : line = line' := Option.some.inj (hline.symm.trans hline')
    exact absurd hcmd (hformat cmd)

/-! ## A connection whose error is set -/

/-- No request gets a reply any more, whatever the server and the network do. -/
theorem request_of_dead (P : Peer σ ε) {n : Net σ ε} (h : n.link.Dead) (q : Request) :
    ∃ n', n'.link.Dead ∧ ((∃ f, (Net.env P).request q n = (.fault f, n')) ∨
      (Net.env P).request q n = (.answer none, n')) := by
  obtain ⟨herr, hreplies⟩ := h
  have hdeliver (result : Except FormatError Cmd) : ∃ n', n'.link.Dead ∧
      ((∃ f, Net.deliver P n result = (.fault f, n')) ∨
        Net.deliver P n result = (.answer none, n')) := by
    rcases result with ⟨_ | _ | f⟩ | cmd
    · exact ⟨{ n with link := { n.link with err := true } }, ⟨rfl, hreplies⟩, .inr rfl⟩
    · exact ⟨{ n with link := { n.link with err := true } }, ⟨rfl, hreplies⟩, .inr rfl⟩
    · exact ⟨n, ⟨herr, hreplies⟩, .inl ⟨.format f, rfl⟩⟩
    · refine ⟨{ n with link := { n.link with obuf := n.link.obuf ++ cmd.bytes } },
        ⟨herr, hreplies⟩, .inr ?_⟩
      exact redisGetReply_of_err P herr hreplies
  cases q with
  | getReply => exact ⟨n, ⟨herr, hreplies⟩, .inr (redisGetReply_of_err P herr hreplies)⟩
  | format format ap => exact hdeliver _
  | argv argv => exact hdeliver _

/-- One command on such a connection does not return. -/
theorem runOn_of_dead (P : Peer σ ε) {m : Method O} {q : Request} {rd : Reader}
    (hplan : m.plan R = .command q rd) {n : Net σ ε} (h : n.link.Dead) :
    (∀ x, (runOn R P m n).1 ≠ .ret x) ∧ (runOn R P m n).2.env.link.Dead := by
  have hcode : m.code R = requestNULLSafe q >>= rd.code R := by
    rw [Method.code_eq, hplan]
    rfl
  obtain ⟨n', hdead, ⟨f, hrequest⟩ | hrequest⟩ := request_of_dead P h q
  · rw [runOn, Env.run, hcode, run_requestNULLSafe_bind, afterRequest, hrequest]
    exact ⟨by rintro x ⟨⟩, hdead⟩
  · rw [runOn, Env.run, hcode, run_requestNULLSafe_bind, afterRequest, hrequest]
    exact ⟨by rintro x ⟨⟩, hdead⟩

/-- **No call returns** on a connection whose error is set, however many are made. -/
theorem session_of_dead (P : Peer σ ε) {calls : List (Method O)}
    (hcalls : ∀ m ∈ calls, ∃ q rd, m.plan R = .command q rd) {n : Net σ ε} (h : n.link.Dead) :
    ∀ r ∈ (Net.env P).session (calls.map (Method.code R)) n, ∀ x, r.1 ≠ .ret x := by
  induction calls generalizing n with
  | nil =>
      intro r hr
      cases hr
  | cons m calls ih =>
      obtain ⟨⟨q, rd, hplan⟩, hcalls⟩ := List.forall_mem_cons.mp hcalls
      obtain ⟨hret, hdead⟩ := runOn_of_dead P hplan h
      rw [List.map_cons, Env.session]
      rw [runOn] at hret hdead
      rcases hrun : (Net.env P).run (m.code R) n with ⟨x | e | f | _, w⟩
      · exact absurd (by rw [hrun]) (hret x)
      · rw [hrun] at hdead
        rw [List.forall_mem_cons]
        exact ⟨by rintro x ⟨⟩, ih hcalls hdead⟩
      · rw [List.forall_mem_singleton]
        rintro x ⟨⟩
      · rw [List.forall_mem_singleton]
        rintro x ⟨⟩

/-! ## A line that is not formatted -/

/-- A server that answers every command with PONG. -/
def ponging : Peer Unit Empty where
  command _ s := (.status (ascii "PONG"), s)
  event e := e.elim

/-- A fresh connection that will carry one command and its reply. -/
def fresh : Net Unit Empty where
  turns := [.call (.moves 100), .call (.moves 1)]
  link := { server := () }

/-- A pair of percent signs is formatted. -/
theorem exec_pair_leavesUsable :
    LeavesUsable Runtime.onlyNull ponging (.exec (.ofAscii "GET 50%%!")) fresh :=
  (leavesUsable_iff ponging rfl rfl).mpr ⟨by decide, by decide⟩

/-- After `exec("GET 50%!")` a `ping` raises that would have been answered. -/
theorem exec_invalid_format_spoils :
    ¬ LeavesUsable Runtime.onlyNull ponging (.exec (.ofAscii "GET 50%!")) fresh := by
  rintro ⟨-, husable⟩
  have hformat : ∀ cmd, redisvFormatCommand (ascii "GET 50%!") [] ≠ .ok cmd := by
    have herror : redisvFormatCommand (ascii "GET 50%!") [] = .error .format := by decide
    intro cmd hcmd
    rw [herror] at hcmd
    cases hcmd
  obtain ⟨-, hsessions⟩ := husable _ rfl hformat (.stop nullReplyMessage) rfl
  have hping := congrArg (List.map Prod.fst) (hsessions [.ping])
  have hwithout : ((Net.env ponging).session ([Method.ping].map (Method.code Runtime.onlyNull))
      fresh).map Prod.fst = [.ret (.str [.ofAscii "PONG"])] := rfl
  rw [hwithout] at hping
  cases hping

end RcppRedis
