import RcppRedis.Lib.Resp
import RcppRedis.Lib.Binary64

/-!
# Formatting a command

The two encoders of `hiredis.c`.  `redisvFormatCommand` reads a printf-like format
with a variadic argument list, splits it at spaces, and writes the frame into a
buffer whose size it has added up on the way.  `redisFormatSdsCommandArgv` writes
an argument vector.

Both count in `int` at some point, so `toInt32` stands at every conversion where a
long command wraps.  A variadic argument that was not passed, a read past the
format's end and a write past the buffer are faults: the C code has no defined
behaviour there.
-/

namespace Hiredis

open Bytes Resp

/-- Conversion to a 32-bit `int`. -/
def toInt32 (n : ℤ) : ℤ := (Int32.ofInt n).toInt

/-- Undefined behaviour inside the encoders. -/
inductive FormatFault where
  /-- `va_arg` without an argument left -/
  | missingArgument
  /-- `va_arg` at another type than the argument's -/
  | wrongArgument
  /-- the format pointer moved past the terminating NUL -/
  | endOfFormat
  /-- a conversion of `vsnprintf` other than the two the class passes arguments to -/
  | conversion
  /-- `int` overflow in the frame's size, or a write past the buffer -/
  | overrun
  deriving DecidableEq, Repr

/-- Why no frame was written: the return values `-1` and `-2`, or a fault. -/
inductive FormatError where
  | oom
  | format
  | fault (f : FormatFault)
  deriving DecidableEq, Repr

/-- A variadic argument.  `cstr` points to a NUL-terminated string, `buffer` to
bytes with no terminator. -/
inductive VaArg where
  | cstr (s : Bytes)
  | buffer (b : Bytes)
  | size (n : ℕ)
  | int (n : ℤ)
  | double (d : Double)
  deriving DecidableEq, Repr

/-! ## The size of a frame -/

/-- The loop of `countDigits`; the value shrinks in each round, so it bounds the rounds. -/
def countDigitsLoop : ℕ → ℕ → ℕ → ℕ
  | 0, _, result => result
  | fuel + 1, v, result =>
      if v < 10 then result
      else if v < 100 then result + 1
      else if v < 1000 then result + 2
      else if v < 10000 then result + 3
      else countDigitsLoop fuel (v / 10000) (result + 4)

/-- The number of decimal digits. -/
def countDigits (v : ℕ) : ℕ := countDigitsLoop (v + 1) v 1

/-- The length of a bulk string with its header. -/
def bulklen (len : ℕ) : ℕ := 1 + countDigits len + 2 + len + 2

/-! ## Reading the format -/

/-- The locals of `redisvFormatCommand` while it reads the format. -/
structure FormatState where
  argv : List Bytes := []
  curarg : Bytes := []
  touched : Bool := false
  totlen : ℤ := 0
  ap : List VaArg

namespace FormatState

/-- Move the current argument to `argv` and add its size. -/
def push (st : FormatState) : FormatState :=
  { st with
    argv := st.argv ++ [st.curarg]
    totlen := toInt32 (st.totlen + bulklen st.curarg.length)
    curarg := []
    touched := false }

/-- Add the last argument if needed. -/
def finish (st : FormatState) : FormatState := if st.touched then st.push else st

/-- Append to the current argument. -/
def append (st : FormatState) (b : Bytes) : FormatState :=
  { st with curarg := st.curarg ++ b, touched := true }

end FormatState

/-- `va_arg(ap,char*)` where a C string is read. -/
def vaString : List VaArg → Except FormatError (Bytes × List VaArg)
  | .cstr s :: ap => .ok (s.cString, ap)
  | [] => .error (.fault .missingArgument)
  | _ => .error (.fault .wrongArgument)

/-- `va_arg(ap,char*)` and `va_arg(ap,size_t)`: that many bytes from the pointer. -/
def vaBinary : List VaArg → Except FormatError (Bytes × List VaArg)
  | .buffer b :: .size n :: ap =>
      if n ≤ b.length then .ok (b.take n, ap) else .error (.fault .overrun)
  | [] => .error (.fault .missingArgument)
  | [_] => .error (.fault .missingArgument)
  | _ => .error (.fault .wrongArgument)

/-- `va_arg` of an integer or a double, whose value `vsnprintf` will read. -/
def vaNumber : List VaArg → Except FormatError (VaArg × List VaArg)
  | .int n :: ap => .ok (.int n, ap)
  | .double d :: ap => .ok (.double d, ap)
  | [] => .error (.fault .missingArgument)
  | _ => .error (.fault .wrongArgument)

/-- `sdscatvprintf` of one conversion. -/
def vsnprintf (format : Bytes) (arg : VaArg) : Except FormatError Bytes :=
  match arg with
  | .int n => if format = ascii "%d" then .ok (decimalInt n) else .error (.fault .conversion)
  | .double d => if format = ascii "%f" then .ok d.formatF else .error (.fault .conversion)
  | _ => .error (.fault .wrongArgument)

/-- `strchr(set,*p) != NULL`, where the end of the format is its NUL: `strchr` finds
the terminator of `set` too. -/
def strchr (set : String) (p : Bytes) : Bool :=
  match p with
  | [] => true
  | c :: _ => c ∈ ascii set

/-- `*p != '\0' && strchr(set,*p) != NULL` -/
def strchrNonNul (set : String) (p : Bytes) : Bool := p ≠ [] && strchr set p

/-- Skip flags, field width and precision. -/
def skipModifiers (p : Bytes) : Bytes :=
  let p := p.dropWhile (· ∈ ascii "#0-+ ")
  let p := p.dropWhile isDigit
  match p with
  | 46 :: q => q.dropWhile isDigit
  | _ => p

/-- Skip the size letters `hh`, `h`, `ll` and `l`; there must be some. -/
def skipSize : Bytes → Option Bytes
  | 104 :: 104 :: q => some q
  | 104 :: q => some q
  | 108 :: 108 :: q => some q
  | 108 :: q => some q
  | _ => none

/-- Where the conversion character stands, size letters skipped; `none` jumps to
`fmt_invalid`. -/
def scanConversion (p : Bytes) : Option Bytes :=
  if strchr "diouxX" p then some p
  else if strchr "eEfFgGaA" p then some p
  else (skipSize p).filter (strchrNonNul "diouxX")

/-- The `default` branch: a printf conversion.  `c` starts at the percent sign; the
result is where the scan goes on. -/
def printfConversion (c : Bytes) (st : FormatState) :
    Except FormatError (Bytes × FormatState) :=
  match scanConversion (skipModifiers c.tail) with
  | none => .error .format
  | some p => do
      let (arg, ap) ← vaNumber st.ap
      let l := c.length - p.length + 1
      if l < 16 - 2 then
        if p = [] then .error (.fault .endOfFormat)
        else do
          let text ← vsnprintf (c.take l) arg
          pure (p.tail, { st with ap := ap }.append text)
      else pure (c.drop 2, { st with ap := ap }.append [])

/-- One `%` conversion; `c` starts at the percent sign and has a byte after it. -/
def conversion (c : Bytes) (st : FormatState) : Except FormatError (Bytes × FormatState) :=
  match c with
  | _ :: 115 :: rest => do
      let (s, ap) ← vaString st.ap
      pure (rest, { st with ap := ap }.append s)
  | _ :: 98 :: rest => do
      let (b, ap) ← vaBinary st.ap
      pure (rest, { st with ap := ap }.append b)
  | _ :: 37 :: rest => pure (rest, st.append [37])
  | _ => printfConversion c st

/-- A byte that starts no conversion. -/
def literal (c : UInt8) (st : FormatState) : FormatState :=
  if c = 32 then if st.touched then st.push else st
  else st.append [c]

/-- The loop over the format.  Every round moves the pointer forward, so the format's
length bounds the rounds. -/
def formatLoop : ℕ → Bytes → FormatState → Except FormatError FormatState
  | 0, _, _ => .error (.fault .endOfFormat)
  | _ + 1, [], st => .ok st
  | fuel + 1, c :: rest, st =>
      if c ≠ 37 ∨ rest = [] then formatLoop fuel rest (literal c st)
      else do
        let (rest', st') ← conversion (c :: rest) st
        formatLoop fuel rest' st'

/-! ## Writing the frame -/

/-- The buffer `cmd` up to `pos`, and whether a `snprintf` has cut its text short. -/
structure Cmd where
  bytes : Bytes := []
  truncated : Bool := false
  deriving DecidableEq, Repr

namespace Cmd

/-- `pos += snprintf(cmd+pos, room, ..)`.  A text as long as `room` loses its last byte
to the terminator; with a longer one `pos` skips bytes that nothing has written. -/
def snprintf (cmd : Cmd) (room : ℤ) (text : Bytes) : Except FormatError Cmd :=
  if (text.length : ℤ) < room then .ok { cmd with bytes := cmd.bytes ++ text }
  else if (text.length : ℤ) = room then
    .ok { bytes := cmd.bytes ++ (text.dropLast ++ [0]), truncated := true }
  else .error (.fault .overrun)

/-- `memcpy` to `cmd+pos`, in a buffer of the given size. -/
def copy (cmd : Cmd) (size : ℤ) (text : Bytes) : Except FormatError Cmd :=
  if ((cmd.bytes ++ text).length : ℤ) ≤ size then .ok { cmd with bytes := cmd.bytes ++ text }
  else .error (.fault .overrun)

/-- One argument: header, bytes, line end. -/
def emit (totlen : ℤ) (cmd : Cmd) (arg : Bytes) : Except FormatError Cmd := do
  let cmd ← cmd.snprintf (totlen - cmd.bytes.length) (header 36 arg.length)
  cmd.copy (totlen + 1) (arg ++ crlf)

end Cmd

/-- The frame, in a buffer of `totlen + 1` bytes. -/
def buildCommand (totlen : ℤ) (argv : List Bytes) : Except FormatError Cmd :=
  -- `totlen+1` overflows
  if totlen + 1 = 0x80000000 then .error (.fault .overrun)
  -- as a `size_t` it is larger than any object
  else if totlen + 1 < 0 then .error .oom
  else do
    let cmd ← Cmd.snprintf {} totlen (header 42 argv.length)
    let cmd ← argv.foldlM (Cmd.emit totlen) cmd
    if (cmd.bytes.length : ℤ) = totlen then .ok cmd else .error (.fault .overrun)

/-- `redisvFormatCommand` -/
def redisvFormatCommand (format : Bytes) (ap : List VaArg) : Except FormatError Cmd := do
  let st ← formatLoop (format.length + 1) format { ap := ap }
  let st := st.finish
  let totlen := toInt32 (st.totlen + (1 + countDigits st.argv.length + 2 : ℕ))
  buildCommand totlen st.argv

/-- The bytes that `redisFormatSdsCommandArgv` writes; its `%u` reads 32 bits of a length. -/
def sdsCommandArgv (argv : List Bytes) : Bytes :=
  header 42 argv.length ++
    (argv.map fun a => header 36 (a.length % 0x100000000) ++ a ++ crlf).flatten

/-- `redisFormatSdsCommandArgv` and the `int len` that its caller keeps.  The length
goes on as a `size_t`; what a negative one does is left to the allocator. -/
def redisFormatSdsCommandArgv (argv : List Bytes) : Except FormatError Cmd :=
  let len := toInt32 (1 + countDigits argv.length + 2 +
    (argv.map fun a => bulklen a.length).sum : ℕ)
  if len = -1 then .error .oom
  else if len < 0 then .error (.fault .overrun)
  else .ok { bytes := (sdsCommandArgv argv).take len.toNat }

/-! A blank format has no argument, and the array header is as long as the whole
frame: `snprintf` cuts its last byte. -/

example : redisvFormatCommand (ascii " ") [] = .ok ⟨[42, 48, 13, 0], true⟩ := by decide
example : redisvFormatCommand (ascii "GET %s") [.cstr (ascii "a b")] =
    .ok ⟨encodeCommand [ascii "GET", ascii "a b"], false⟩ := by decide

end Hiredis
