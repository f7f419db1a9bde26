import RcppRedis.Lib.Bytes

/-!
# The RESP grammar of a command

A client sends a command as an array of bulk strings: the number of arguments,
then each argument with its length in front.  `encodeCommand` writes this frame
and `parseCommand` is the server's side of it, with the bytes after the frame
handed back.

* `parseCommand_encodeCommand` — a frame parses to its arguments, whatever
  follows it.
* `parseCommand_prefix` — no proper prefix of a frame parses, so a server that
  has received a part of a frame waits for the rest.
-/

namespace Resp

open Bytes

/-- A header line: a type byte, a number, a line end. -/
def header (c : UInt8) (n : ℕ) : Bytes := c :: decimal n ++ crlf

/-- A bulk string: its length, its bytes, a line end. -/
def bulk (a : Bytes) : Bytes := header 36 a.length ++ a ++ crlf

/-- The frame of a command with the given arguments. -/
def encodeCommand (args : List Bytes) : Bytes :=
  header 42 args.length ++ (args.map bulk).flatten

/-- Read a header line with the given type byte. -/
def parseHeader (c : UInt8) : Bytes → Option (ℕ × Bytes)
  | [] => none
  | d :: b =>
      if d = c then do
        let (line, rest) ← splitLine b
        let n ← parseDecimal line
        pure (n, rest)
      else none

/-- Read one bulk string. -/
def parseBulk (b : Bytes) : Option (Bytes × Bytes) := do
  let (n, rest) ← parseHeader 36 b
  if (rest.drop n).take 2 = crlf then pure (rest.take n, rest.drop (n + 2)) else none

/-- Read `n` bulk strings. -/
def parseBulks : ℕ → Bytes → Option (List Bytes × Bytes)
  | 0, b => some ([], b)
  | n + 1, b => do
      let (a, rest) ← parseBulk b
      let (as, rest) ← parseBulks n rest
      pure (a :: as, rest)

/-- Read one command; what follows its frame is returned with it. -/
def parseCommand (b : Bytes) : Option (List Bytes × Bytes) := do
  let (n, rest) ← parseHeader 42 b
  parseBulks n rest

@[simp] theorem length_header (c : UInt8) (n : ℕ) :
    (header c n).length = 1 + (decimal n).length + 2 := by
  simp [header]
  omega

@[simp] theorem length_bulk (a : Bytes) :
    (bulk a).length = 1 + (decimal a.length).length + 2 + a.length + 2 := by
  simp [bulk]
  omega

theorem encodeCommand_ne_nil (args : List Bytes) : encodeCommand args ≠ [] := by
  simp [encodeCommand, header]

/-! ## What is written reads back -/

theorem parseHeader_header (c : UInt8) (n : ℕ) (rest : Bytes) :
    parseHeader c (header c n ++ rest) = some (n, rest) := by
  have hline : splitLine (decimal n ++ crlf ++ rest) = some (decimal n, rest) :=
    splitLine_append (notMem_decimal (by decide) n) rest
  simp only [header, List.cons_append, parseHeader, if_true, hline]
  simp

theorem parseBulk_bulk (a rest : Bytes) : parseBulk (bulk a ++ rest) = some (a, rest) := by
  have happ : bulk a ++ rest = header 36 a.length ++ (a ++ (crlf ++ rest)) := by
    simp [bulk]
  have hend : ((a ++ (crlf ++ rest)).drop a.length).take 2 = crlf := by
    simp [crlf]
  have hdrop : (a ++ (crlf ++ rest)).drop (a.length + 2) = rest := by
    rw [← List.drop_drop]
    simp [crlf]
  rw [parseBulk, happ, parseHeader_header]
  simp only [Option.bind_eq_bind, Option.bind_some, if_pos hend, hdrop]
  simp

theorem parseBulks_bulks (args : List Bytes) (rest : Bytes) :
    parseBulks args.length ((args.map bulk).flatten ++ rest) = some (args, rest) := by
  induction args with
  | nil => rfl
  | cons a args ih =>
      simp only [List.length_cons, parseBulks, List.map_cons, List.flatten_cons,
        List.append_assoc, parseBulk_bulk, Option.bind_eq_bind, Option.bind_some, ih]
      rfl

/-- **A frame parses to its arguments**, and what follows it is left alone. -/
theorem parseCommand_encodeCommand (args : List Bytes) (rest : Bytes) :
    parseCommand (encodeCommand args ++ rest) = some (args, rest) := by
  rw [parseCommand, encodeCommand, List.append_assoc, parseHeader_header]
  exact parseBulks_bulks args rest

@[simp] theorem parseCommand_encodeCommand_nil (args : List Bytes) :
    parseCommand (encodeCommand args) = some (args, []) := by
  simpa using parseCommand_encodeCommand args []

/-! ## Reading from a stream -/

theorem parseHeader_append_right {c : UInt8} {b rest : Bytes} {n : ℕ}
    (h : parseHeader c b = some (n, rest)) (more : Bytes) :
    parseHeader c (b ++ more) = some (n, rest ++ more) := by
  cases b with
  | nil => simp [parseHeader] at h
  | cons d b =>
      simp only [parseHeader] at h
      split_ifs at h with hd
      simp only [Option.bind_eq_bind, Option.bind_eq_some_iff] at h
      obtain ⟨⟨line, rest'⟩, hline, m, hm, heq⟩ := h
      simp only [Option.pure_def, Option.some.injEq, Prod.mk.injEq] at heq
      obtain ⟨rfl, rfl⟩ := heq
      simp only [List.cons_append, parseHeader, if_pos hd, Option.bind_eq_bind,
        splitLine_append_right hline, Option.bind_some, hm, Option.pure_def]

theorem parseBulk_append_right {b rest a : Bytes} (h : parseBulk b = some (a, rest))
    (more : Bytes) : parseBulk (b ++ more) = some (a, rest ++ more) := by
  simp only [parseBulk, Option.bind_eq_bind, Option.bind_eq_some_iff] at h
  obtain ⟨⟨n, body⟩, hhead, hbody⟩ := h
  simp only at hbody
  split_ifs at hbody with hend
  simp only [Option.pure_def, Option.some.injEq, Prod.mk.injEq] at hbody
  obtain ⟨rfl, rfl⟩ := hbody
  have hlen : n + 2 ≤ body.length := by
    have := congrArg List.length hend
    simp only [List.length_take, List.length_drop, length_crlf] at this
    omega
  have htake : (body ++ more).take n = body.take n :=
    List.take_append_of_le_length (by omega)
  have hdrop : ∀ k ≤ n + 2, (body ++ more).drop k = body.drop k ++ more :=
    fun k hk => List.drop_append_of_le_length (by omega)
  have hend' : ((body ++ more).drop n).take 2 = crlf := by
    rw [hdrop n (by omega), List.take_append_of_le_length (by simp; omega), hend]
  simp only [parseBulk, parseHeader_append_right hhead more, Option.bind_eq_bind,
    Option.bind_some, if_pos hend', htake, hdrop (n + 2) le_rfl, Option.pure_def]

theorem parseBulks_append_right {n : ℕ} {b rest : Bytes} {as : List Bytes}
    (h : parseBulks n b = some (as, rest)) (more : Bytes) :
    parseBulks n (b ++ more) = some (as, rest ++ more) := by
  induction n generalizing b as with
  | zero =>
      simp only [parseBulks, Option.some.injEq, Prod.mk.injEq] at h ⊢
      exact ⟨h.1, by rw [h.2]⟩
  | succ n ih =>
      simp only [parseBulks, Option.bind_eq_bind, Option.bind_eq_some_iff] at h
      obtain ⟨⟨a, b'⟩, hb, ⟨as', b''⟩, hbs, heq⟩ := h
      simp only [Option.pure_def, Option.some.injEq, Prod.mk.injEq] at heq
      obtain ⟨rfl, rfl⟩ := heq
      simp only [parseBulks, parseBulk_append_right hb, Option.bind_eq_bind, Option.bind_some,
        ih hbs, Option.pure_def]

/-- A command that was read stays the same when more bytes arrive. -/
theorem parseCommand_append_right {b rest : Bytes} {as : List Bytes}
    (h : parseCommand b = some (as, rest)) (more : Bytes) :
    parseCommand (b ++ more) = some (as, rest ++ more) := by
  simp only [parseCommand, Option.bind_eq_bind, Option.bind_eq_some_iff] at h
  obtain ⟨⟨n, body⟩, hhead, hbody⟩ := h
  simp only [parseCommand, parseHeader_append_right hhead more, Option.bind_eq_bind,
    Option.bind_some]
  exact parseBulks_append_right hbody more

/-- **No proper prefix of a frame parses.** -/
theorem parseCommand_prefix {args : List Bytes} {b more : Bytes}
    (h : b ++ more = encodeCommand args) (hmore : more ≠ []) : parseCommand b = none := by
  rcases hb : parseCommand b with _ | ⟨as, rest⟩
  · rfl
  · have hfull := parseCommand_append_right hb more
    rw [h, parseCommand_encodeCommand_nil] at hfull
    simp only [Option.some.injEq, Prod.mk.injEq] at hfull
    exact absurd (List.append_eq_nil_iff.mp hfull.2.symm).2 hmore

end Resp
