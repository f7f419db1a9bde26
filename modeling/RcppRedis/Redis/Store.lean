import RcppRedis.Redis.Connection
import RcppRedis.Lib.TypedStore

/-!
# A server of strings, lists, hashes and sets

`Keeps` says of a server that it keeps a `TypedStore` of byte strings.  `StoreCall` is a call
of a method that does one action on one key, with elements that are stored encoded.

* `run_storeCall` — one call.
* `session_runs` — a session of calls is a run of their actions.
-/

namespace RcppRedis

open Bytes Resp Hiredis Interact Prog TypedStore

variable {O F α : Type} {R : Runtime O} {σ : Type}

/-! ## The server -/

/-- What stands on a server under each key. -/
abbrev Contents : Type := Store Bytes Bytes Bytes

/-- The action that a command asks for, and its key. -/
def storeCommand : List Bytes → Option (Bytes × Action Bytes Bytes)
  | [w, key] =>
      if w = ascii "GET" then some (key, .get)
      else if w = ascii "HLEN" then some (key, .hlen)
      else if w = ascii "HKEYS" then some (key, .hkeys)
      else if w = ascii "HGETALL" then some (key, .hgetall)
      else if w = ascii "SMEMBERS" then some (key, .smembers)
      else none
  | [w, key, x] =>
      if w = ascii "SET" then some (key, .set x)
      else if w = ascii "LPUSH" then some (key, .push .left x)
      else if w = ascii "RPUSH" then some (key, .push .right x)
      else if w = ascii "HGET" then some (key, .hget x)
      else if w = ascii "HEXISTS" then some (key, .hexists x)
      else if w = ascii "HDEL" then some (key, .hdel x)
      else if w = ascii "SADD" then some (key, .sadd x)
      else if w = ascii "SREM" then some (key, .srem x)
      else none
  | [w, key, a, b] =>
      if w = ascii "HSET" then some (key, .hset a b)
      else if w = ascii "LRANGE" then do
        let start ← parseDecimalInt a
        let stop ← parseDecimalInt b
        pure (key, .range start stop)
      else none
  | _ => none

/-- The reply with an answer.  A hash is flattened: each field, then its value. -/
def storeReply : Answer Bytes Bytes → Reply
  | .done => .status (ascii "OK")
  | .count n => .integer n
  | .element none => .nil
  | .element (some x) => .string x
  | .elements l => .array (l.map Reply.string)
  | .fields l => .array (l.map Reply.string)
  | .entries l => .array (l.flatMap fun e => [.string e.1, .string e.2])

/-- What a command without a value is answered with. -/
def okText : CStr := ⟨ascii "OK", by decide⟩

/-- The server keeps a store: a command that asks for an action on a key which accepts it does
that action and replies with its answer.  `view` is what stands under the keys. -/
def Keeps (S : Server σ) (view : σ → Contents) : Prop :=
  ∀ {words : List Bytes} {key : Bytes} {act : Action Bytes Bytes} (s : σ),
    storeCommand words = some (key, act) → act.Accepts (view s key) →
      ∃ a, (S words s).1 = storeReply a ∧ Store.Step key act (view s) a (view (S words s).2)

/-- A server that keeps a store. -/
def typed : Server Contents := fun words m =>
  match storeCommand words with
  | none => (.error (ascii "ERR syntax error"), m)
  | some (key, act) =>
      if act.Accepts (m key) then
        (storeReply (act.run (m key)).1, Function.update m key (act.run (m key)).2)
      else
        (.error (ascii "WRONGTYPE Operation against a key holding the wrong kind of value"), m)

theorem typed_keeps : Keeps typed id := by
  intro words key act m hwords haccepts
  have haccepts' : act.Accepts (m key) := haccepts
  have hrun : typed words m =
      (storeReply (act.run (m key)).1, Function.update m key (act.run (m key)).2) := by
    simp only [typed, hwords]
    exact if_pos haccepts'
  rw [hrun]
  refine ⟨(act.run (m key)).1, rfl, ?_, fun k hk => Function.update_of_ne hk _ m⟩
  simp only [id_eq, Function.update_self]
  exact act.run_step (m key)

/-! ## Calls -/

/-- A call that does one action on one key. -/
structure StoreCall (O F α : Type) where
  method : Method O
  key : CStr
  action : Action F α
  /-- what the call returns for an answer -/
  value : Answer F α → SEXP O
  /-- what has to stand under the key -/
  Ready : Value F α → Prop

namespace StoreCall

/-- The frame of the call's command fits in an `int`, and its terminator too. -/
def Fits (R : Runtime O) (c : StoreCall O F α) : Prop :=
  ∀ words ∈ c.method.commands R, (encodeCommand words).length + 1 < 2 ^ 31

/-- A reader makes of the reply with an answer the value of that answer. -/
def Reads [DecidableEq F] [DecidableEq α] (R : Runtime O) (S : Set α) (f : F → Bytes)
    (g : α → Bytes) (c : StoreCall O F α) (rd : Reader) : Prop :=
  ∀ {v v' : Value F α} {a : Answer F α}, c.Ready v → c.action.Step v a v' → a.Within S →
    ∀ {p : Pointer}, p.node = storeReply (a.map f g) → ∀ {τ : Type} (E : Env τ) (w : World τ),
      ∃ w', run E.handler (rd.code R p) w = (.ret (c.value a), w') ∧ w'.env = w.env

/-- The call's method sends the command of its action, with fields encoded by `f` and elements
by `g`, and reads its reply. -/
structure Performs [DecidableEq F] [DecidableEq α] (R : Runtime O) (S : Set α) (f : F → Bytes)
    (g : α → Bytes) (c : StoreCall O F α) : Prop where
  templated : c.method.Templated
  words : ∃ words, c.method.commands R = [words] ∧
    storeCommand words = some (c.key.bytes, c.action.map f g)
  argument : ∀ x ∈ c.action.argument, x ∈ S
  accepts : ∀ v, c.Ready v → c.action.Accepts v
  code : ∃ q, ∃ rd : Reader, c.method.requests R = [q] ∧
    c.method.code R = requestNULLSafe q >>= rd.code R ∧ c.Reads R S f g rd

/-- A reader that frees after it has read. -/
theorem run_code_of_value (rd : Reader) (hrd : rd ≠ .hget) {p : Pointer} {x : SEXP O}
    (h : rd.value R p = .ret x) {τ : Type} (E : Env τ) (w : World τ) :
    ∃ w', run E.handler (rd.code R p) w = (.ret x, w') ∧ w'.env = w.env := by
  rw [Reader.code_of_ne hrd, h, run_thenFree_ret]
  exact ⟨_, rfl, rfl⟩

variable [DecidableEq F] [DecidableEq α]

/-- The action of a call on a store. -/
def Step (c : StoreCall O F α) (m : Store Bytes F α) (a : Answer F α)
    (m' : Store Bytes F α) : Prop :=
  Store.Step c.key.bytes c.action m a m'

end StoreCall

variable [DecidableEq F] [DecidableEq α] {S : Set α} {f : F → Bytes} {g : α → Bytes}
variable {server : Server σ} {view : σ → Contents}

/-- **One call** does its action on the store whose encoding the server keeps, and returns the
value of the answer. -/
theorem run_storeCall (hserver : Keeps server view) (hf : Function.Injective f)
    (hg : S.InjOn g) {c : StoreCall O F α} (hc : c.Performs R S f g) (hfits : c.Fits R)
    {m : Store Bytes F α} {s : σ} (hm : m.Encoded S f g (view s))
    (hready : c.Ready (m c.key.bytes)) : ∃ a m' w, c.Step m a m' ∧
      (Conn.env server).run (c.method.code R) { server := s } = (.ret (c.value a), w) ∧
      w.env.err = false ∧ m'.Encoded S f g (view w.env.server) := by
  obtain ⟨words, hwords, hcommand⟩ := hc.words
  obtain ⟨q, rd, hq, hcode, hread⟩ := hc.code
  have hencodes := Method.encodes_commands (R := R) hc.templated
  rw [hq, hwords] at hencodes
  obtain ⟨hencodes, -⟩ := List.forall₂_cons.mp hencodes
  have hlt := hfits words (by simp [hwords])
  have hexact : q.Exact words := by
    refine hencodes.exact_iff_fits.mpr ?_
    cases q with
    | argv _ => exact Nat.lt_of_succ_lt hlt
    | _ => exact hlt
  have haccepts : (c.action.map f g).Accepts (view s c.key.bytes) :=
    ((hm c.key.bytes).accepts_iff c.action).mpr (hc.accepts _ hready)
  obtain ⟨b, hreply, hstep⟩ := hserver s hcommand haccepts
  obtain ⟨a, m', hstep', rfl, ha, hm'⟩ := Store.step_of_encoded hf hg hc.argument hm hstep
  rw [Env.run, hcode, run_command server hexact hencodes.ne_nil _ rfl]
  obtain ⟨w', hrun, hw'⟩ := hread hready hstep'.1 ha (p := World.pointer _ _) hreply
    (Conn.env server) (World.acquire ⟨{ server := s }, {}⟩ _ _)
  refine ⟨a, m', w', hstep', hrun, ?_, ?_⟩
  · rw [hw']
    rfl
  · rw [hw']
    exact hm'

/-! ## Sessions of calls -/

/-- The actions of the calls, one after the other, each with its answer and the store after
it. -/
def Runs : List (StoreCall O F α) → Store Bytes F α → List (Answer F α × Store Bytes F α) →
    Prop
  | [], _, [] => True
  | c :: cs, m, (a, m') :: rest => c.Step m a m' ∧ Runs cs m' rest
  | _, _, _ => False

/-- Each call finds under its key what it has to, whatever the actions before it leave. -/
def Ready : List (StoreCall O F α) → Store Bytes F α → Prop
  | [], _ => True
  | c :: cs, m => c.Ready (m c.key.bytes) ∧ ∀ a m', c.Step m a m' → Ready cs m'

/-- **A session of calls** is a run of their actions. -/
theorem session_runs (hserver : Keeps server view) (hf : Function.Injective f) (hg : S.InjOn g)
    {calls : List (StoreCall O F α)} (hcalls : ∀ c ∈ calls, c.Performs R S f g ∧ c.Fits R)
    {m : Store Bytes F α} {s : σ} (hm : m.Encoded S f g (view s)) (hready : Ready calls m) :
    ∃ steps, Runs calls m steps ∧
      List.Forall₂ (fun (r : Outcome RError Fault (SEXP O) × Conn σ)
          (c : StoreCall O F α × Answer F α × Store Bytes F α) =>
        r.1 = .ret (c.1.value c.2.1) ∧ r.2.err = false ∧ c.2.2.Encoded S f g (view r.2.server))
        ((Conn.env server).session (calls.map fun c => c.method.code R) { server := s })
        (calls.zip steps) := by
  induction calls generalizing m s with
  | nil => exact ⟨[], trivial, .nil⟩
  | cons c cs ih =>
      obtain ⟨⟨hc, hfits⟩, hcs⟩ := List.forall_mem_cons.mp hcalls
      obtain ⟨hfirst, hrest⟩ := hready
      obtain ⟨a, m', w, hstep, hrun, herr, hm'⟩ :=
        run_storeCall hserver hf hg hc hfits hm hfirst
      obtain ⟨steps, hsteps, hall⟩ := ih hcs hm' (hrest a m' hstep)
      refine ⟨(a, m') :: steps, ⟨hstep, hsteps⟩, ?_⟩
      have henv : w.env = { server := w.env.server } := by rw [← herr]
      rw [List.map_cons, session_cons_ret hrun]
      refine .cons ⟨rfl, herr, hm'⟩ ?_
      rw [henv]
      exact hall

end RcppRedis
