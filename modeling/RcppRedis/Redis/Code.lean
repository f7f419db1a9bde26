import RcppRedis.Lib.Interact
import RcppRedis.Hiredis.Format
import RcppRedis.Hiredis.Reply

/-!
# What the methods of the class are made of

A method of class `Redis` is a program over four instructions: ask hiredis for a
reply, free a reply, open a context, free it.  Everything else a method does is pure
and is written out in Lean.

R objects are `SEXP O`, where `O` stands for every R type the class never looks
into.  What the class uses of other packages and of the platform is a `Runtime`:
serialization, the msgpack decoder, and the value of a `double` to `int` cast that is
out of range.

The environment of a program is an `Env`: it answers requests.  `World` keeps, next
to the environment's own state, a `Ledger` of what was acquired and released.  A
reply is handed out as a `Pointer`, which remembers the tree and the node it points
to, so freeing a nested node and freeing the whole tree are different events.
-/

namespace RcppRedis

open Bytes Hiredis Interact

/-! ## R objects -/

/-- An R object. -/
inductive SEXP (O : Type) where
  | null
  | raw (x : Bytes)
  | str (x : List CStr)
  | int (x : List ℤ)
  | real (x : List Double)
  | matrix (ncol : ℕ) (rows : List (List Double))
  | list (x : List (SEXP O)) (names : Option (List CStr))
  | other (o : O)

/-- `TYPEOF(s) == RAWSXP` -/
def SEXP.isRaw {O : Type} : SEXP O → Bool
  | .raw _ => true
  | _ => false

/-- A numeric matrix that a caller passes: all rows have the same length. -/
structure NumericMatrix where
  ncol : ℕ
  rows : List (List Double)
  shape : ∀ r ∈ rows, r.length = ncol

/-- What the class uses from outside the repository. -/
structure Runtime (O : Type) where
  /-- `R::serializeToRaw` -/
  serializeToRaw : SEXP O → Bytes
  /-- `R::unserializeFromRaw`; `none` is an R error -/
  unserializeFromRaw : Bytes → Option (SEXP O)
  /-- `Rcpp::RawVector(s)` for an `s` that is not a raw vector; `none` is an R error -/
  coerceToRaw : SEXP O → Option Bytes
  /-- `msgpack::unpack` and `convert` to doubles; `none` is an exception -/
  msgpackRow : Bytes → Option (List Double)
  /-- `static_cast<int32_t>` of a double that no `int32_t` represents -/
  castOutOfRange : Double → Int32

/-! ## How a method ends early -/

/-- An R error. -/
inductive RError where
  /-- `Rcpp::stop` -/
  | stop (message : Bytes)
  /-- raised by `unserializeFromRaw` -/
  | unserialize
  /-- a vector of negative length -/
  | allocation
  /-- an argument that Rcpp cannot convert -/
  | conversion
  /-- an exception of the msgpack library -/
  | msgpack
  deriving DecidableEq, Repr

/-- Undefined behaviour. -/
inductive Fault where
  /-- the reply pointer was never set -/
  | unsetReply
  /-- a null `str` is read -/
  | nullStr
  /-- `element` is indexed at or beyond `elements` -/
  | elementRange
  /-- `memcpy` reads past the end of `str` -/
  | memcpySource
  /-- `memcpy` writes past the end of its destination -/
  | memcpyDestination
  /-- a C++ or R vector is indexed out of its range -/
  | vectorIndex
  /-- inside the encoders -/
  | format (f : FormatFault)
  deriving DecidableEq, Repr

/-! ## Instructions -/

/-- A `redisReply *`: which tree, which node of it. -/
structure Pointer where
  id : ℕ
  path : List ℕ
  node : Reply

namespace Pointer

/-- `reply->element[i]` for all `i`, from the given index on. -/
def childrenFrom (p : Pointer) : ℕ → List Reply → List Pointer
  | _, [] => []
  | i, r :: rs => ⟨p.id, p.path ++ [i], r⟩ :: p.childrenFrom (i + 1) rs

/-- `reply->element[i]` for all `i < reply->elements`. -/
def children (p : Pointer) : List Pointer := p.childrenFrom 0 p.node.element

end Pointer

/-- The calls into hiredis that yield a reply. -/
inductive Request where
  /-- `redisvCommand` -/
  | format (format : Bytes) (ap : List VaArg)
  /-- `redisCommandArgv` -/
  | argv (argv : List Bytes)
  /-- `redisGetReply` -/
  | getReply

/-- The instructions of a method. -/
inductive Instr where
  | request (q : Request)
  | freeReplyObject (p : Pointer)
  | redisConnect (host : CStr) (port : ℤ) (timeout : Option (ℤ × ℤ))
  | redisFree

/-- What an instruction yields: a reply or NULL; the context's `errstr` if `err` is set. -/
@[reducible] def Instr.Answer : Instr → Type
  | .request _ => Option Pointer
  | .freeReplyObject _ => Unit
  | .redisConnect _ _ _ => Option CStr
  | .redisFree => Unit

/-- The code of a method. -/
abbrev Code (α : Type) : Type := Prog Instr Instr.Answer RError Fault α

namespace Code

/-- Send a request and wait for its reply. -/
def request (q : Request) : Code (Option Pointer) := .call (.request q) .ret

/-- Release a node and everything below it. -/
def freeReplyObject (p : Pointer) : Code Unit := .call (.freeReplyObject p) .ret

/-- Open a context; the answer is its `errstr` if its `err` is set. -/
def redisConnect (host : CStr) (port : ℤ) (timeout : Option (ℤ × ℤ)) : Code (Option CStr) :=
  .call (.redisConnect host port timeout) .ret

/-- Close a context. -/
def redisFree : Code Unit := .call .redisFree .ret

/-- `Rcpp::stop` -/
def stop {α : Type} (message : Bytes) : Code α := .raise (.stop message)

end Code

/-! ## Environments -/

/-- What was acquired and released during a run. -/
structure Ledger where
  acquired : List Reply := []
  released : List (ℕ × List ℕ) := []
  opened : ℕ := 0
  closed : ℕ := 0

namespace Ledger

/-- `freeReplyObject`: the node and everything below it. -/
def release (l : Ledger) (p : Pointer) : Ledger :=
  { l with released := l.released ++ p.node.nodes.map fun path => (p.id, p.path ++ path) }

/-- All nodes of the acquired trees, from the given tree on. -/
def nodesFrom : ℕ → List Reply → List (ℕ × List ℕ)
  | _, [] => []
  | id, r :: rs => r.nodes.map (fun path => (id, path)) ++ nodesFrom (id + 1) rs

/-- Every node of every acquired tree was released exactly once, and nothing else was. -/
def Balanced (l : Ledger) : Prop := l.released.Perm (nodesFrom 0 l.acquired)

end Ledger

/-- The state of an environment, and the ledger of the run. -/
structure World (σ : Type) where
  env : σ
  ledger : Ledger := {}

/-- An environment of a method: the server, the network, other clients. -/
structure Env (σ : Type) where
  request : Request → σ → Response Fault (Option Reply) × σ
  connect : CStr → ℤ → Option (ℤ × ℤ) → σ → Option CStr × σ

namespace Env

variable {σ α : Type}

/-- Answer an instruction and keep the ledger. -/
def handler (E : Env σ) : Handler Instr Instr.Answer Fault (World σ)
  | .request q, w =>
      match E.request q w.env with
      | (.answer (some r), s) =>
          (.answer (some (⟨w.ledger.acquired.length, [], r⟩ : Pointer)),
            ⟨s, { w.ledger with acquired := w.ledger.acquired ++ [r] }⟩)
      | (.answer none, s) => (.answer (none : Option Pointer), { w with env := s })
      | (.fault f, s) => (.fault f, { w with env := s })
      | (.blocked, s) => (.blocked, { w with env := s })
  | .freeReplyObject p, w => (.answer (), { w with ledger := w.ledger.release p })
  | .redisConnect host port timeout, w =>
      (.answer (E.connect host port timeout w.env).1,
        ⟨(E.connect host port timeout w.env).2,
          { w.ledger with opened := w.ledger.opened + 1 }⟩)
  | .redisFree, w => (.answer (),
      { w with ledger := { w.ledger with closed := w.ledger.closed + 1 } })

/-- Run a method, with an empty ledger at its start. -/
def run (E : Env σ) (p : Code α) (s : σ) : Outcome RError Fault α × World σ :=
  Interact.run E.handler p ⟨s, {}⟩

end Env

end RcppRedis
