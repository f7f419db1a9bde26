import RcppRedis.Lib.Bytes

/-!
# Reply objects

`Reply` is the `redisReply` tree that the reader builds.  The C struct is a tagged
union: which fields are set depends on `type`.  The constructors follow the cases
of `freeReplyObject`: types that own a `str`, types that own `element`, and types
that own nothing.  `str?`, `len`, `integer` and `elements` are the struct's fields
as any code may read them, with the value that `calloc` left where the type does
not set one.

`nodes` names the nodes of a tree by their path from the root; `freeReplyObject`
releases each of them.
-/

namespace Hiredis

/-- The types whose node owns a `str`. -/
inductive TextType where
  | string
  | status
  | error
  | double
  | verb
  deriving DecidableEq, Repr

/-- The types whose node owns no memory besides itself and carries `integer`. -/
inductive NumberType where
  | integer
  | bool
  deriving DecidableEq, Repr

/-- The types whose node owns an `element` vector. -/
inductive AggregateType where
  | array
  | map
  | set
  | push
  deriving DecidableEq, Repr

/-- A `redisReply`. -/
inductive Reply where
  | text (type : TextType) (str : Bytes)
  | number (type : NumberType) (integer : ℤ)
  | nil
  | aggregate (type : AggregateType) (element : List Reply)

namespace Reply

/-- `REDIS_REPLY_STRING` -/
@[match_pattern] abbrev string (str : Bytes) : Reply := .text .string str
/-- `REDIS_REPLY_STATUS` -/
@[match_pattern] abbrev status (str : Bytes) : Reply := .text .status str
/-- `REDIS_REPLY_ERROR` -/
@[match_pattern] abbrev error (str : Bytes) : Reply := .text .error str
/-- `REDIS_REPLY_INTEGER` -/
@[match_pattern] abbrev integer (n : ℤ) : Reply := .number .integer n
/-- `REDIS_REPLY_ARRAY` -/
@[match_pattern] abbrev array (element : List Reply) : Reply := .aggregate .array element

/-- Induction over a reply tree. -/
@[elab_as_elim, induction_eliminator]
theorem induction {P : Reply → Prop} (text : ∀ type str, P (.text type str))
    (number : ∀ type n, P (.number type n)) (nil : P .nil)
    (aggregate : ∀ type element, (∀ r ∈ element, P r) → P (.aggregate type element))
    (r : Reply) : P r := by
  cases r with
  | text type str => exact text type str
  | number type n => exact number type n
  | nil => exact nil
  | aggregate type element =>
      refine aggregate type element fun r _ => ?_
      exact induction text number nil aggregate r

/-! ## The fields -/

/-- The field `str`: `none` is the null pointer. -/
def str? : Reply → Option Bytes
  | .text _ str => some str
  | _ => none

/-- The field `len`.  `createDoubleObject` does not set it. -/
def len : Reply → ℕ
  | .text .double _ => 0
  | .text _ str => str.length
  | _ => 0

/-- The field `integer`. -/
def integerField : Reply → ℤ
  | .number _ n => n
  | _ => 0

/-- The field `element`. -/
def element : Reply → List Reply
  | .aggregate _ element => element
  | _ => []

/-- The field `elements`. -/
def elements (r : Reply) : ℕ := r.element.length

/-! ## Releasing a tree -/

mutual

/-- The nodes of a tree, by their path from the root. -/
def nodes : Reply → List (List ℕ)
  | .aggregate _ element => [] :: nodesFrom 0 element
  | _ => [[]]

/-- The nodes of consecutive children, the first of which has the given index. -/
def nodesFrom : ℕ → List Reply → List (List ℕ)
  | _, [] => []
  | i, r :: rs => (nodes r).map (i :: ·) ++ nodesFrom (i + 1) rs

end

theorem nil_mem_nodes (r : Reply) : [] ∈ r.nodes := by
  cases r <;> simp [nodes]

end Reply
end Hiredis
