import RcppRedis.Redis.Connection
import RcppRedis.Hiredis.PlainSpec

/-!
# Methods that paste strings into a format

`exists`, `expire`, `pexpire`, `del` and the constructor's AUTH append their argument to the
format itself.  A key arrives as one argument only if the format's own rules leave it alone.

* `addresses_iff_pastes` — exactly when that is so, with what it means for a keyspace.
-/

namespace RcppRedis

open Bytes Resp Hiredis Interact Prog

variable {O : Type} {R : Runtime O} {σ α V : Type}

/-! ## A keyspace -/

/-- The values of the keys that exist. -/
abbrev Keyspace (V : Type) : Type := Bytes → Option V

/-- `DEL`: the number of the keys that existed. -/
def delKeys (args : List Bytes) (db : Keyspace V) : Reply × Keyspace V :=
  if args = [] then (.error (ascii "ERR wrong number of arguments for 'del' command"), db)
  else (.integer (args.dedup.countP fun k => (db k).isSome),
    fun k => if k ∈ args then none else db k)

/-- `SET` without options; with them it is left to `other`. -/
def setKey (string : Bytes → V) (other : Server (Keyspace V)) : Server (Keyspace V)
  | [key, value], db =>
      (.status (ascii "OK"), fun k => if k = key then some (string value) else db k)
  | args, db => other (ascii "SET" :: args) db

/-- A server of a keyspace, for `DEL`, `EXISTS` and the plain `SET`; `string` makes a value of
a byte string, and `other` is what the server does with any other command. -/
def keyspace (string : Bytes → V) (other : Server (Keyspace V)) : Server (Keyspace V)
  | w :: args, db =>
      if w = ascii "DEL" then delKeys args db
      else if w = ascii "EXISTS" ∧ args ≠ [] then
        (.integer (args.countP fun k => (db k).isSome), db)
      else if w = ascii "SET" then setKey string other args db
      else other (w :: args) db
  | [], db => other [] db

theorem keyspace_del (string : Bytes → V) (other : Server (Keyspace V)) (ks : List Bytes)
    (db : Keyspace V) :
    (keyspace string other (ascii "DEL" :: ks) db).2 =
      fun k => if k ∈ ks then none else db k := by
  rw [keyspace, if_pos rfl, delKeys]
  split_ifs with hks
  · simp [hks]
  · rfl

theorem keyspace_set (string : Bytes → V) (other : Server (Keyspace V)) (key value : Bytes)
    (db : Keyspace V) :
    keyspace string other [ascii "SET", key, value] db =
      (.status (ascii "OK"), fun k => if k = key then some (string value) else db k) := by
  rw [keyspace, if_neg (by decide), if_neg (fun h => absurd h.1 (by decide)),
    if_pos rfl, setKey]

theorem keyspace_exists (string : Bytes → V) (other : Server (Keyspace V)) (key : Bytes)
    (db : Keyspace V) :
    keyspace string other [ascii "EXISTS", key] db =
      (.integer (if (db key).isSome then 1 else 0), db) := by
  rw [keyspace, if_neg (by decide), if_pos ⟨rfl, List.cons_ne_nil _ _⟩]
  simp [List.countP_cons]

/-! ## What the methods promise -/

/-- Whatever the keyspace: the listed keys are removed, every other key is left alone. -/
def DelRemoves (R : Runtime O) (sv : List CStr) : Prop :=
  ∀ (V : Type) (string : Bytes → V) (other : Server (Keyspace V)) (db : Keyspace V),
    ((Conn.env (keyspace string other)).run (Method.code R (.del sv))
      { server := db }).2.env.server =
      fun k => if k ∈ sv.map CStr.bytes then none else db k

/-- Whatever the keyspace: a key that was set exists. -/
def SetExists (R : Runtime O) (key : CStr) : Prop :=
  ∀ (V : Type) (string : Bytes → V) (other : Server (Keyspace V)) (db : Keyspace V)
    (s : SEXP O),
    (encodeCommand [ascii "SET", key.bytes, payload R s]).length + 1 < 2 ^ 31 →
    ((Conn.env (keyspace string other)).run (Method.code R (.exists key))
      ((Conn.env (keyspace string other)).run (Method.code R (.set key s))
        { server := db }).2.env).1 = .ret (.real [.ofInt 1])

namespace Method

/-- The words of the command of a method that pastes. -/
def pasted (R : Runtime O) : Method O → List Bytes
  | «exists» key => [ascii "EXISTS", key.bytes]
  | expire key seconds => [ascii "EXPIRE", key.bytes, roundToString R seconds]
  | pexpire key milliseconds => [ascii "EXPIRE", key.bytes, roundToString R milliseconds]
  | del sv => ascii "DEL" :: sv.map CStr.bytes
  | _ => []

/-- The method sends its keys as single arguments, and addresses these keys. -/
def Addresses (R : Runtime O) : Method O → Prop
  | «exists» key => Transmits (code R (.exists key)) (pasted R (.exists key)) ∧ SetExists R key
  | expire key seconds => Transmits (code R (.expire key seconds))
      (pasted R (.expire key seconds))
  | pexpire key ms => Transmits (code R (.pexpire key ms)) (pasted R (.pexpire key ms))
  | del sv => Transmits (code R (.del sv)) (pasted R (.del sv)) ∧ DelRemoves R sv
  | _ => True

/-- What is pasted is left alone by the format, and the frame fits. -/
def Pastes (R : Runtime O) (m : Method O) : Prop :=
  match m with
  | «exists» _ | expire _ _ | pexpire _ _ | del _ =>
      Whole (pasted R m) ∧ (encodeCommand (pasted R m)).length + 1 < 2 ^ 31
  | _ => True

end Method

/-! ## One pasted command -/

/-- The request of a pasted command. -/
abbrev pastedRequest (words : List Bytes) : Request := .format (joined words) []

theorem exact_pasted {words : List Bytes} (hne : words ≠ [])
    (h : Whole words ∧ (encodeCommand words).length + 1 < 2 ^ 31) :
    (pastedRequest words).Exact words := by
  obtain ⟨hwhole, hlt⟩ := h
  obtain ⟨st, hst, hargv⟩ := formatFrom_of_whole hne hwhole
  obtain ⟨hplain, -⟩ := formatFrom_plain FormatState.plain_start hst
  refine Request.exact_of_encode ?_ ?_ (by omega)
  · rw [Request.encode, redisvFormatCommand_plain hst, hargv]
    exact buildCommand_eq_ok hne hlt
  · rw [Request.announced, hst]
    simp only [Bind.bind, Except.bind, hplain.finish.totlen,
      toInt32_add_toInt32, ← Nat.cast_add, hargv]
    rw [length_encodeCommand, Nat.add_comm]
    rfl

theorem transmits_pasted_iff {words : List Bytes} (hne : words ≠ []) {k : Pointer → Code α}
    (hk : ∀ p, Only Instr.Frees (k p)) :
    Transmits (requestNULLSafe (pastedRequest words) >>= k) words ↔
      Whole words ∧ (encodeCommand words).length + 1 < 2 ^ 31 := by
  rw [transmits_iff (q := pastedRequest words) (by rintro ⟨⟩) hk hne]
  exact parse_format_joined_iff hne

theorem joined_del (sv : List CStr) :
    joined (ascii "DEL" :: sv.map CStr.bytes) =
      sv.foldl (fun cmd s => cmd ++ (ascii " " ++ s.bytes)) (ascii "DEL") := by
  have hfold (w : Bytes) (sv : List CStr) : joined (w :: sv.map CStr.bytes) =
      sv.foldl (fun cmd s => cmd ++ (ascii " " ++ s.bytes)) w := by
    induction sv generalizing w with
    | nil => rfl
    | cons s sv ih =>
        rw [List.map_cons, List.foldl_cons, ← ih]
        cases sv <;> simp [joined, ascii]
  exact hfold (ascii "DEL") sv

theorem expire_format (key : CStr) (n : Bytes) :
    ascii "EXPIRE " ++ key.bytes ++ ascii " " ++ n =
      joined [ascii "EXPIRE", key.bytes, n] := by
  simp [joined, ascii]

/-- The methods that paste, as their request and the extraction of its reply. -/
theorem code_exists (key : CStr) : Method.code R (.exists key) =
    requestNULLSafe (pastedRequest (Method.pasted R (.exists key))) >>=
      Reader.code R .extract := rfl

theorem code_expire (key : CStr) (seconds : Double) : Method.code R (.expire key seconds) =
    requestNULLSafe (pastedRequest (Method.pasted R (.expire key seconds))) >>=
      Reader.code R .extract := by
  rw [Method.pasted, pastedRequest, ← expire_format]
  rfl

theorem code_pexpire (key : CStr) (milliseconds : Double) :
    Method.code R (.pexpire key milliseconds) =
      requestNULLSafe (pastedRequest (Method.pasted R (.pexpire key milliseconds))) >>=
        Reader.code R .extract := by
  rw [Method.pasted, pastedRequest, ← expire_format]
  rfl

theorem code_del (sv : List CStr) : Method.code R (.del sv) =
    requestNULLSafe (pastedRequest (Method.pasted R (.del sv))) >>=
      Reader.code R .extract := by
  rw [Method.pasted, pastedRequest, joined_del]
  rfl

/-! ## What follows for a keyspace -/

theorem delRemoves {sv : List CStr} (h : Method.Pastes R (.del sv)) : DelRemoves R sv := by
  intro V string other db
  have hne : Method.pasted R (.del sv) ≠ [] := by simp [Method.pasted]
  rw [Env.run, code_del, env_run_request _ (only_code .extract),
    Conn.request_of_exact _ (exact_pasted hne h) hne]
  exact keyspace_del string other _ db

theorem set_exact {key : CStr} {s : SEXP O}
    (h : (encodeCommand [ascii "SET", key.bytes, payload R s]).length + 1 < 2 ^ 31) :
    Request.Exact (.format (ascii "SET %s %b")
      (.cstr key.bytes :: Method.buffer (payload R s)))
        [ascii "SET", key.bytes, payload R s] := by
  obtain ⟨hencodes, -⟩ := List.forall₂_cons.mp (Method.encodes_commands (R := R)
    (m := .set key s) trivial)
  exact hencodes.exact_iff_fits.mpr h

theorem setExists {key : CStr} (h : Method.Pastes R (.exists key)) : SetExists R key := by
  intro V string other db s hset
  have hne : Method.pasted R (.exists key) ≠ [] := List.cons_ne_nil _ _
  have hcode : Method.code R (.set key s) = requestNULLSafe
      (.format (ascii "SET %s %b") (.cstr key.bytes :: Method.buffer (payload R s))) >>=
        Reader.code R .string := rfl
  rw [Env.run, Env.run, hcode, env_run_request _ (only_code .string),
    Conn.request_of_exact _ (set_exact hset) (List.cons_ne_nil _ _), keyspace_set, code_exists,
    run_command _ (exact_pasted hne h) hne _ rfl]
  rw [Method.pasted, keyspace_exists]
  simp only [if_true, Option.isSome_some]
  rfl

/-! ## AUTH -/

/-- What the constructor does once its context is open. -/
theorem run_init_connected {E : Env σ} {s : σ} {host : CStr} {port : ℤ} {auth : CStr}
    {timeout : ℤ} (hconnect : E.connect host port
      (if timeout = 0 then none else some (timeout, 0)) s = (none, s))
    (hauth : auth.bytes ≠ []) :
    (E.run (init host port auth timeout) s).2.env =
      (E.request (pastedRequest [ascii "AUTH", auth.bytes]) s).2 := by
  have hrun : E.run (init host port auth timeout) s =
      run E.handler (requestNULLSafe (pastedRequest [ascii "AUTH", auth.bytes]) >>= authReply)
        ⟨s, { opened := 1 }⟩ := by
    rw [Env.run, init, Code.redisConnect, call_bind, run_call, Env.handler, hconnect]
    dsimp only [ret_bind]
    rw [connected, if_pos hauth]
    rfl
  rw [hrun, env_run_request]
  intro p
  rw [authReply]
  split_ifs
  · exact .call _ _ trivial fun _ => .raise _
  · exact .call _ _ trivial fun _ => .ret _

theorem transmits_init_iff (host : CStr) (port : ℤ) (auth : CStr) (timeout : ℤ) :
    Transmits (init host port auth timeout) [ascii "AUTH", auth.bytes] ↔
      Whole [ascii "AUTH", auth.bytes] ∧
        (encodeCommand [ascii "AUTH", auth.bytes]).length + 1 < 2 ^ 31 := by
  by_cases hauth : auth.bytes = []
  · refine iff_of_false (fun h => ?_) fun h => ?_
    · have hnone := h fun _ => .nil
      have hsilent : (Conn.env (recorder fun _ => .nil)).run (init host port auth timeout)
          { server := [] } = (.ret (), ⟨{ server := [] }, { opened := 1 }⟩) := by
        rw [Env.run, init, Code.redisConnect, call_bind, run_call, Env.handler]
        dsimp only [ret_bind, Conn.env]
        rw [connected, if_neg (not_not_intro hauth)]
        rfl
      rw [hsilent] at hnone
      cases hnone
    · exact (h.1.1 auth.bytes (by simp)).1 hauth
  · have hreply (reply : List Bytes → Reply) :
        ((Conn.env (recorder reply)).run (init host port auth timeout)
          { server := [] }).2.env.server = [[ascii "AUTH", auth.bytes]] ↔
        Whole [ascii "AUTH", auth.bytes] ∧
          (encodeCommand [ascii "AUTH", auth.bytes]).length + 1 < 2 ^ 31 := by
      rw [run_init_connected rfl hauth, ← parse_format_joined_iff (List.cons_ne_nil _ _)]
      exact recorder_request_iff reply (q := pastedRequest _) (by rintro ⟨⟩)
        (List.cons_ne_nil _ _)
    exact ⟨fun h => (hreply fun _ => .nil).mp (h _), fun h reply => (hreply reply).mpr h⟩

/-! ## All of them -/

/-- **Pasted keys.**  A method that pastes its keys addresses them, and the constructor sends
its password as one argument, exactly when nothing that is pasted is empty, holds a space, or
holds a percent sign before the last byte of the format, and the frame fits. -/
theorem addresses_iff_pastes :
    (∀ m : Method O, m.Addresses R ↔ m.Pastes R) ∧
    ∀ (host : CStr) (port : ℤ) (auth : CStr) (timeout : ℤ),
      Transmits (init host port auth timeout) [ascii "AUTH", auth.bytes] ↔
        Whole [ascii "AUTH", auth.bytes] ∧
          (encodeCommand [ascii "AUTH", auth.bytes]).length + 1 < 2 ^ 31 := by
  refine ⟨fun m => ?_, transmits_init_iff⟩
  have htransmits {m : Method O} (hne : m.pasted R ≠ [])
      (hcode : m.code R = requestNULLSafe (pastedRequest (m.pasted R)) >>=
        Reader.code R .extract) :
      Transmits (m.code R) (m.pasted R) ↔
        Whole (m.pasted R) ∧ (encodeCommand (m.pasted R)).length + 1 < 2 ^ 31 := by
    rw [hcode]
    exact transmits_pasted_iff hne (only_code .extract)
  cases m with
  | «exists» key =>
      refine ⟨fun h => (htransmits (by simp [Method.pasted]) (code_exists key)).mp h.1,
        fun h => ?_⟩
      exact ⟨(htransmits (by simp [Method.pasted]) (code_exists key)).mpr h, setExists h⟩
  | expire key seconds => exact htransmits (by simp [Method.pasted]) (code_expire key seconds)
  | pexpire key ms => exact htransmits (by simp [Method.pasted]) (code_pexpire key ms)
  | del sv =>
      refine ⟨fun h => (htransmits (by simp [Method.pasted]) (code_del sv)).mp h.1,
        fun h => ?_⟩
      exact ⟨(htransmits (by simp [Method.pasted]) (code_del sv)).mpr h, delRemoves h⟩
  | _ => exact iff_of_true trivial trivial

/-- `del("a b")` removes the keys `a` and `b`. -/
theorem del_space_splits : ¬ Method.Addresses Runtime.onlyNull (.del [.ofAscii "a b"]) := by
  rintro ⟨htransmits, -⟩
  exact absurd (htransmits fun _ => .nil) (by decide)

end RcppRedis
