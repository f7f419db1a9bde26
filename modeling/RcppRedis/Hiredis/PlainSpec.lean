import RcppRedis.Hiredis.FormatSpec

/-!
# Formats without arguments

A string that is handed over as a format is split at its spaces, and its percent signs
start conversions that have no argument to take.

* `formatFrom_plain` — what such a format may become: every byte is kept but the spaces, and
  every two percent signs in a row lose one.
* `redisvFormatCommand_tokens`, `tokens_of_parse` — the tokens of a line come out as they are
  exactly when there is one, no percent sign stands before the last byte, and the frame fits.
* `redisvFormatCommand_isOk_iff` — exactly when a format is accepted at all.
* `parse_format_joined_iff` — words joined by spaces come out as they are exactly when none is
  empty, none holds a space, no percent sign stands before the last byte, and the frame fits.
-/

namespace Hiredis

open Bytes Resp

/-- The words, separated by single spaces. -/
def joined : List Bytes → Bytes
  | [] => []
  | [w] => w
  | w :: ws => w ++ 32 :: joined ws

/-- The words come out of the format that they are joined to. -/
def Whole (words : List Bytes) : Prop :=
  (∀ w ∈ words, w ≠ [] ∧ (32 : UInt8) ∉ w) ∧ (37 : UInt8) ∉ (joined words).dropLast

theorem length_joined {words : List Bytes} (hne : words ≠ []) :
    (joined words).length + 1 = (words.map List.length).sum + words.length := by
  induction words with
  | nil => exact absurd rfl hne
  | cons w ws ih =>
      cases ws with
      | nil => simp [joined]
      | cons v ws =>
          have hrest := ih (by simp)
          simp only [joined, List.length_append, List.length_cons, List.map_cons,
            List.sum_cons] at hrest ⊢
          omega

theorem count_joined {words : List Bytes} (hne : words ≠ []) :
    (joined words).count 32 + 1 = (words.map (List.count 32)).sum + words.length := by
  induction words with
  | nil => exact absurd rfl hne
  | cons w ws ih =>
      cases ws with
      | nil => simp [joined]
      | cons v ws =>
          have hrest := ih (by simp)
          simp only [joined, List.count_append, List.count_cons_self, List.length_cons,
            List.map_cons, List.sum_cons] at hrest ⊢
          omega

/-! ## Every byte is accounted for -/

namespace FormatState

/-- A state that has no arguments left to take, and whose arguments are not empty. -/
structure Plain (st : FormatState) : Prop where
  ap : st.ap = []
  args : ∀ a ∈ st.argv, a ≠ []
  touched : st.touched = true ↔ st.curarg ≠ []
  totlen : st.totlen = toInt32 (st.argv.map fun a => bulklen a.length).sum

/-- The number of bytes that have been kept. -/
def weight (st : FormatState) : ℕ := (st.argv.map List.length).sum + st.curarg.length

theorem plain_start : Plain { ap := [] } where
  ap := rfl
  args := by simp
  touched := by simp
  totlen := by simp [toInt32_eq_self]

theorem Plain.append {st : FormatState} (h : st.Plain) {b : Bytes} (hb : b ≠ []) :
    (st.append b).Plain where
  ap := h.ap
  args := h.args
  touched := by simp [FormatState.append, hb]
  totlen := h.totlen

theorem Plain.push {st : FormatState} (h : st.Plain) (ht : st.touched = true) :
    st.push.Plain where
  ap := h.ap
  args := by
    intro a ha
    rcases List.mem_append.mp ha with ha | ha
    · exact h.args a ha
    · rw [List.mem_singleton.mp ha]
      exact h.touched.mp ht
  touched := by simp [FormatState.push]
  totlen := by
    simp only [FormatState.push, h.totlen, toInt32_add_toInt32, List.map_append,
      List.map_singleton, List.sum_append, List.sum_singleton, Nat.cast_add]

theorem Plain.finish {st : FormatState} (h : st.Plain) : st.finish.Plain := by
  rw [FormatState.finish]
  split_ifs with ht
  · exact h.push ht
  · exact h

theorem Plain.literal {st : FormatState} (h : st.Plain) (c : UInt8) :
    (literal c st).Plain := by
  rw [Hiredis.literal]
  split_ifs with hc ht
  · exact h.push ht
  · exact h
  · exact h.append (by simp)

@[simp] theorem weight_append (st : FormatState) (b : Bytes) :
    (st.append b).weight = st.weight + b.length := by
  simp [weight, append, Nat.add_assoc]

@[simp] theorem weight_push (st : FormatState) : st.push.weight = st.weight := by
  simp [weight, push]

theorem weight_literal (c : UInt8) (st : FormatState) :
    (literal c st).weight + [c].count 32 = st.weight + 1 := by
  rw [literal]
  split_ifs with hc ht
  · simp [hc]
  · simp [hc]
  · simp [hc]

theorem Plain.weight_finish {st : FormatState} (h : st.Plain) :
    st.weight = (st.finish.argv.map List.length).sum := by
  rw [FormatState.finish]
  split_ifs with ht
  · simp [weight, FormatState.push]
  · have hcur : st.curarg = [] := not_not.mp fun hne => ht (h.touched.mpr hne)
    simp [weight, hcur]

end FormatState

/-- Without arguments every conversion but `%%` fails. -/
theorem conversion_error {d : UInt8} (hd : d ≠ 37) (rest : Bytes) {st : FormatState}
    (hap : st.ap = []) : ∃ e, conversion (37 :: d :: rest) st = .error e := by
  unfold conversion
  split
  · exact ⟨_, by rw [hap]; rfl⟩
  · exact ⟨_, by rw [hap]; rfl⟩
  · rename_i heq
    simp only [List.cons.injEq] at heq
    exact absurd heq.2.1 hd
  · rw [printfConversion]
    split
    · exact ⟨_, rfl⟩
    · exact ⟨_, by rw [hap]; rfl⟩

/-- **What a format without arguments becomes.**  Its spaces go, and one of every two percent
signs in a row. -/
theorem formatFrom_plain {c : Bytes} {st st' : FormatState} (hst : st.Plain)
    (h : formatFrom c st = .ok st') :
    st'.Plain ∧ ∃ pairs, st'.weight + c.count 32 + pairs = st.weight + c.length ∧
      (pairs = 0 → (37 : UInt8) ∉ c.dropLast) := by
  induction hn : c.length using Nat.strong_induction_on generalizing c st with
  | _ n ih =>
  subst hn
  cases c with
  | nil =>
      rw [formatFrom_nil, Except.ok.injEq] at h
      subst h
      exact ⟨hst, 0, by simp, by simp⟩
  | cons b rest =>
      by_cases hb : b ≠ 37 ∨ rest = []
      · rw [formatFrom_literal hb] at h
        obtain ⟨hplain, pairs, hweight, hpairs⟩ :=
          ih rest.length (by simp) (hst.literal b) h rfl
        refine ⟨hplain, pairs, ?_, fun hzero => ?_⟩
        · have hlit := FormatState.weight_literal b st
          have hcount : (b :: rest).count 32 = [b].count 32 + rest.count 32 :=
            @List.count_append _ _ 32 [b] rest
          simp only [List.length_cons, hcount]
          omega
        · cases rest with
          | nil => simp
          | cons d rest =>
              rw [List.dropLast_cons_cons, List.mem_cons, not_or]
              exact ⟨fun hbad => (hb.resolve_right (by simp)) hbad.symm, hpairs hzero⟩
      · simp only [not_or, not_not] at hb
        obtain ⟨rfl, hrest⟩ := hb
        obtain ⟨d, rest, rfl⟩ := List.exists_cons_of_ne_nil hrest
        by_cases hd : d = 37
        · subst hd
          have hconv : conversion (37 :: 37 :: rest) st = .ok (rest, st.append [37]) := rfl
          rw [formatFrom_conversion hrest hconv] at h
          obtain ⟨hplain, pairs, hweight, -⟩ :=
            ih rest.length (by simp) (hst.append (List.cons_ne_nil 37 [])) h rfl
          refine ⟨hplain, pairs + 1, ?_, by simp⟩
          have hcount : (37 :: 37 :: rest).count (32 : UInt8) = rest.count 32 := by simp
          simp only [FormatState.weight_append, List.length_cons, List.length_nil,
            hcount] at hweight ⊢
          omega
        · obtain ⟨e, he⟩ := conversion_error hd rest hst.ap
          rw [formatFrom_error hrest he] at h
          cases h

/-- Words that come out as they are hold no space and no percent sign that a conversion
takes. -/
theorem whole_of_formatFrom {words : List Bytes} (hne : words ≠ []) {st : FormatState}
    (h : formatFrom (joined words) { ap := [] } = .ok st) (hargv : st.finish.argv = words) :
    Whole words := by
  obtain ⟨hplain, pairs, hweight, hpairs⟩ := formatFrom_plain FormatState.plain_start h
  have hstart : (FormatState.mk [] [] false 0 []).weight = 0 := rfl
  rw [hplain.weight_finish, hargv, hstart] at hweight
  have hlength := length_joined hne
  have hcount := count_joined hne
  have hspaces : (words.map (List.count (32 : UInt8))).sum = 0 := by omega
  refine ⟨fun w hw => ⟨hplain.finish.args w (hargv ▸ hw), fun hspace => ?_⟩, hpairs (by omega)⟩
  have hle : w.count 32 ≤ (words.map (List.count (32 : UInt8))).sum :=
    List.le_sum_of_mem (List.mem_map_of_mem hw)
  have hpos : 0 < w.count 32 := List.count_pos_iff.mpr hspace
  omega

/-! ## Words that hold no space -/

/-- Without a percent sign before the last byte, the bytes are taken one by one. -/
theorem formatFrom_literals {c : Bytes} (hc : (37 : UInt8) ∉ c.dropLast) (st : FormatState) :
    formatFrom c st = .ok (c.foldl (fun st b => literal b st) st) := by
  induction c generalizing st with
  | nil => rfl
  | cons b rest ih =>
      cases rest with
      | nil =>
          rw [formatFrom_literal (.inr rfl)]
          rfl
      | cons d rest =>
          rw [List.dropLast_cons_cons, List.mem_cons, not_or] at hc
          rw [formatFrom_literal (.inl (Ne.symm hc.1)), ih hc.2]
          rfl

theorem foldl_literal_word {w : Bytes} (hne : w ≠ []) (hw : (32 : UInt8) ∉ w)
    (st : FormatState) : w.foldl (fun st b => literal b st) st = st.append w := by
  induction w generalizing st with
  | nil => exact absurd rfl hne
  | cons b w ih =>
      simp only [List.mem_cons, not_or] at hw
      have hb : literal b st = st.append [b] := by rw [literal, if_neg (Ne.symm hw.1)]
      rw [List.foldl_cons, hb]
      cases w with
      | nil => rfl
      | cons d w =>
          rw [ih (by simp) hw.2, FormatState.append_append]
          rfl

theorem foldl_literal_joined {words : List Bytes} (hne : words ≠ [])
    (hwords : ∀ w ∈ words, w ≠ [] ∧ (32 : UInt8) ∉ w) (argv : List Bytes) :
    ((joined words).foldl (fun st b => literal b st) (.clean argv [])).finish =
      .clean (argv ++ words) [] := by
  induction words generalizing argv with
  | nil => exact absurd rfl hne
  | cons w ws ih =>
      obtain ⟨hw, hws⟩ := List.forall_mem_cons.mp hwords
      cases ws with
      | nil =>
          rw [joined, foldl_literal_word hw.1 hw.2, FormatState.finish_append,
            FormatState.push_append_clean]
      | cons v ws =>
          have hjoined : joined (w :: v :: ws) = w ++ 32 :: joined (v :: ws) := rfl
          rw [hjoined, List.foldl_append, foldl_literal_word hw.1 hw.2,
            List.foldl_cons, literal, if_pos rfl, FormatState.touched_append, if_pos rfl,
            FormatState.push_append_clean, ih (by simp) hws, List.append_assoc,
            List.singleton_append]

theorem formatFrom_of_whole {words : List Bytes} (hne : words ≠ []) (h : Whole words) :
    ∃ st, formatFrom (joined words) { ap := [] } = .ok st ∧ st.finish.argv = words := by
  refine ⟨_, formatFrom_literals h.2 _, ?_⟩
  have hclean : FormatState.clean [] [] = { ap := [] } := by
    simp [FormatState.clean, toInt32_eq_self]
  rw [← hclean, foldl_literal_joined hne h.1]
  rfl

/-! ## The frame -/

/-- A format without arguments is written as the frame of the arguments it is split into. -/
theorem redisvFormatCommand_plain {format : Bytes} {st : FormatState}
    (h : formatFrom format { ap := [] } = .ok st) :
    redisvFormatCommand format [] =
      buildCommand (toInt32 (encodeCommand st.finish.argv).length) st.finish.argv := by
  obtain ⟨hplain, -⟩ := formatFrom_plain FormatState.plain_start h
  rw [redisvFormatCommand, ← formatFrom, h]
  simp only [bind, Except.bind, hplain.finish.totlen, toInt32_add_toInt32, ← Nat.cast_add]
  rw [length_encodeCommand, Nat.add_comm]

/-- A buffer that holds a frame holds the frame of its arguments, and there are some. -/
theorem parse_buildCommand {argv : List Bytes} {cmd : Cmd}
    (h : buildCommand (toInt32 (encodeCommand argv).length) argv = .ok cmd)
    {words : List Bytes} (hparse : parseCommand cmd.bytes = some (words, [])) :
    argv ≠ [] ∧ argv = words ∧ (encodeCommand argv).length + 1 < 2 ^ 31 := by
  have hlt := length_lt_of_buildCommand h
  by_cases hne : argv = []
  · -- the array header of no argument is cut short
    subst hne
    have hempty : buildCommand (toInt32 (encodeCommand []).length) [] =
        .ok ⟨[42, 48, 13, 0], true⟩ := by decide
    rw [hempty, Except.ok.injEq] at h
    subst h
    cases hparse
  · rw [buildCommand_eq_ok hne hlt, Except.ok.injEq] at h
    subst h
    rw [parseCommand_encodeCommand_nil, Option.some.injEq, Prod.mk.injEq] at hparse
    exact ⟨hne, hparse.1, hlt⟩

/-- **Words joined to a format** reach the server as they are exactly when they are whole and
their frame fits. -/
theorem parse_format_joined_iff {words : List Bytes} (hne : words ≠ []) :
    (∃ cmd, redisvFormatCommand (joined words) [] = .ok cmd ∧
      parseCommand cmd.bytes = some (words, [])) ↔
    Whole words ∧ (encodeCommand words).length + 1 < 2 ^ 31 := by
  constructor
  · rintro ⟨cmd, hcmd, hparse⟩
    rcases hst : formatFrom (joined words) { ap := [] } with e | st
    · rw [redisvFormatCommand, ← formatFrom, hst] at hcmd
      cases hcmd
    · rw [redisvFormatCommand_plain hst] at hcmd
      obtain ⟨-, hargv, hlt⟩ := parse_buildCommand hcmd hparse
      exact ⟨whole_of_formatFrom hne hst hargv, hargv ▸ hlt⟩
  · rintro ⟨hwhole, hlt⟩
    obtain ⟨st, hst, hargv⟩ := formatFrom_of_whole hne hwhole
    refine ⟨⟨encodeCommand words, false⟩, ?_, parseCommand_encodeCommand_nil words⟩
    rw [redisvFormatCommand_plain hst, hargv]
    exact buildCommand_eq_ok hne hlt

/-! ## Tokens -/

/-- The maximal runs of bytes other than spaces, in order. -/
def tokens (cmd : Bytes) : List Bytes := (cmd.splitOn 32).filter (· ≠ [])

/-- A token is made of bytes of the line. -/
theorem mem_of_mem_tokens {cmd w : Bytes} (hw : w ∈ tokens cmd) {c : UInt8} (hc : c ∈ w) :
    c ∈ cmd := by
  replace hw := (List.mem_filter.mp hw).1
  induction cmd generalizing w with
  | nil =>
      rw [List.splitOn_nil, List.mem_singleton] at hw
      rwa [hw] at hc
  | cons b cmd ih =>
      rw [List.splitOn_cons_eq_if_modifyHead] at hw
      obtain ⟨v, vs, hsplit⟩ := List.exists_cons_of_ne_nil (List.splitOn_ne_nil 32 cmd)
      split_ifs at hw with hb
      · rcases List.mem_cons.mp hw with rfl | hw
        · cases hc
        · exact List.mem_cons_of_mem b (ih hc hw)
      · rw [hsplit, List.modifyHead_cons] at hw
        rw [hsplit] at ih
        rcases List.mem_cons.mp hw with rfl | hw
        · rcases List.mem_cons.mp hc with rfl | hc
          · exact List.mem_cons_self
          · exact List.mem_cons_of_mem b (ih hc List.mem_cons_self)
        · exact List.mem_cons_of_mem b (ih hc (List.mem_cons_of_mem v hw))

/-- The state inside a token: its bytes so far are the current argument. -/
def FormatState.inside (argv : List Bytes) (w : Bytes) : FormatState :=
  if w = [] then .clean argv [] else (FormatState.clean argv []).append w

theorem FormatState.inside_nil (argv : List Bytes) :
    inside argv [] = clean argv [] := if_pos rfl

theorem FormatState.inside_append (argv : List Bytes) (w : Bytes) (c : UInt8) :
    (inside argv w).append [c] = inside argv (w ++ [c]) := by
  have hne : w ++ [c] ≠ [] := by simp
  rw [inside, inside, if_neg hne]
  by_cases hw : w = []
  · rw [if_pos hw, hw, List.nil_append]
  · rw [if_neg hw, append_append]

/-- A space ends a token, and is skipped where there is none. -/
theorem literal_space_inside (argv : List Bytes) (w : Bytes) :
    literal 32 (.inside argv w) = .clean (argv ++ [w].filter (· ≠ [])) [] := by
  rw [literal, if_pos rfl, FormatState.inside]
  by_cases hw : w = []
  · subst hw
    rw [if_pos rfl]
    simp [FormatState.clean]
  · rw [if_neg hw, FormatState.touched_append, if_pos rfl, FormatState.push_append_clean]
    simp [hw]

theorem finish_inside (argv : List Bytes) (w : Bytes) :
    (FormatState.inside argv w).finish = .clean (argv ++ [w].filter (· ≠ [])) [] := by
  rw [FormatState.inside]
  by_cases hw : w = []
  · subst hw
    rw [if_pos rfl]
    simp [FormatState.clean, FormatState.finish]
  · rw [if_neg hw, FormatState.finish_append, FormatState.push_append_clean]
    simp [hw]

/-- **Bytes taken one by one make the tokens.** -/
theorem foldl_literal_tokens (cmd w : Bytes) (argv : List Bytes) :
    (cmd.foldl (fun st b => literal b st) (.inside argv w)).finish =
      .clean (argv ++ ((cmd.splitOn 32).modifyHead (w ++ ·)).filter (· ≠ [])) [] := by
  induction cmd generalizing w argv with
  | nil => simpa using finish_inside argv w
  | cons c cmd ih =>
      rw [List.foldl_cons, List.splitOn_cons_eq_if_modifyHead]
      obtain ⟨v, vs, hsplit⟩ := List.exists_cons_of_ne_nil (List.splitOn_ne_nil 32 cmd)
      by_cases hc : c = 32
      · subst hc
        rw [literal_space_inside, ← FormatState.inside_nil, ih, if_pos (beq_self_eq_true 32),
          hsplit, List.append_assoc, ← List.filter_append]
        simp only [List.modifyHead_cons, List.nil_append, List.append_nil,
          List.singleton_append]
      · rw [literal, if_neg hc, FormatState.inside_append, ih,
          if_neg (by simpa using hc), hsplit]
        simp only [List.modifyHead_cons, List.append_assoc, List.singleton_append]

/-- The tokens and the spaces are all there is. -/
theorem length_tokens (cmd : Bytes) :
    ((tokens cmd).map List.length).sum + cmd.count 32 = cmd.length := by
  have hfilter (l : List Bytes) :
      ((l.filter (· ≠ [])).map List.length).sum = (l.map List.length).sum := by
    induction l with
    | nil => rfl
    | cons w l ih =>
        rw [List.filter_cons]
        split_ifs with hw
        · rw [List.map_cons, List.sum_cons, ih, List.map_cons, List.sum_cons]
        · have hnil : w = [] := by simpa using hw
          rw [ih, hnil, List.map_cons, List.sum_cons, List.length_nil, Nat.zero_add]
  rw [tokens, hfilter]
  induction cmd with
  | nil => rfl
  | cons c cmd ih =>
      rw [List.splitOn_cons_eq_if_modifyHead]
      obtain ⟨v, vs, hsplit⟩ := List.exists_cons_of_ne_nil (List.splitOn_ne_nil 32 cmd)
      by_cases hc : c = 32
      · subst hc
        rw [if_pos (beq_self_eq_true 32), List.count_cons_self, List.map_cons, List.sum_cons,
          List.length_cons, List.length_nil]
        omega
      · rw [if_neg (by simpa using hc), List.count_cons_of_ne hc, hsplit, List.modifyHead_cons,
          List.map_cons, List.sum_cons, List.length_cons, List.length_cons]
        rw [hsplit, List.map_cons, List.sum_cons] at ih
        omega

theorem argv_foldl_literal (cmd : Bytes) :
    (cmd.foldl (fun st b => literal b st) { ap := [] }).finish.argv = tokens cmd := by
  have hstart : FormatState.inside [] [] = { ap := [] } := by
    simp [FormatState.inside_nil, FormatState.clean, toInt32_eq_self]
  obtain ⟨v, vs, hsplit⟩ := List.exists_cons_of_ne_nil (List.splitOn_ne_nil 32 cmd)
  rw [← hstart, foldl_literal_tokens, tokens, hsplit, List.modifyHead_cons]
  rfl

/-- A line that is not blank and has no percent sign before its last byte is written as the
frame of its tokens. -/
theorem redisvFormatCommand_tokens {cmd : Bytes} (hne : tokens cmd ≠ [])
    (hpercent : (37 : UInt8) ∉ cmd.dropLast)
    (hlt : (encodeCommand (tokens cmd)).length + 1 < 2 ^ 31) :
    redisvFormatCommand cmd [] = .ok ⟨encodeCommand (tokens cmd), false⟩ := by
  rw [redisvFormatCommand_plain (formatFrom_literals hpercent { ap := [] }),
    argv_foldl_literal]
  exact buildCommand_eq_ok hne hlt

/-- Only such a line comes out as its tokens. -/
theorem tokens_of_parse {cmd : Bytes} {frame : Cmd}
    (hframe : redisvFormatCommand cmd [] = .ok frame)
    (hparse : parseCommand frame.bytes = some (tokens cmd, [])) :
    tokens cmd ≠ [] ∧ (37 : UInt8) ∉ cmd.dropLast ∧
      (encodeCommand (tokens cmd)).length + 1 < 2 ^ 31 := by
  rcases hst : formatFrom cmd { ap := [] } with e | st
  · rw [redisvFormatCommand, ← formatFrom, hst] at hframe
    cases hframe
  · rw [redisvFormatCommand_plain hst] at hframe
    obtain ⟨hne, hargv, hlt⟩ := parse_buildCommand hframe hparse
    obtain ⟨hplain, pairs, hweight, hpairs⟩ := formatFrom_plain FormatState.plain_start hst
    have hstart : (FormatState.mk [] [] false 0 []).weight = 0 := rfl
    have hlength := length_tokens cmd
    rw [hplain.weight_finish, hargv, hstart] at hweight
    exact ⟨hargv ▸ hne, hpairs (by omega), hargv ▸ hlt⟩

/-- **A line without percent signs** reaches the server as its tokens, if their frame fits. -/
theorem parse_line_iff {line : Bytes} (hpercent : (37 : UInt8) ∉ line.dropLast)
    {words : List Bytes} (hne : words ≠ []) : (∃ cmd, redisvFormatCommand line [] = .ok cmd ∧
      parseCommand cmd.bytes = some (words, [])) ↔
      tokens line = words ∧ (encodeCommand words).length + 1 < 2 ^ 31 := by
  constructor
  · rintro ⟨cmd, hcmd, hparse⟩
    rw [redisvFormatCommand_plain (formatFrom_literals hpercent { ap := [] }),
      argv_foldl_literal] at hcmd
    obtain ⟨-, hargv, hlt⟩ := parse_buildCommand hcmd hparse
    exact ⟨hargv, hargv ▸ hlt⟩
  · rintro ⟨rfl, hlt⟩
    exact ⟨_, redisvFormatCommand_tokens hne hpercent hlt, parseCommand_encodeCommand_nil _⟩

theorem joined_eq_intercalate (words : List Bytes) :
    joined words = [32].intercalate words := by
  induction words with
  | nil => rfl
  | cons w ws ih =>
      cases ws with
      | nil => simp [joined]
      | cons v ws =>
          have hjoined : joined (w :: v :: ws) = w ++ 32 :: joined (v :: ws) := rfl
          rw [hjoined, ih, List.intercalate_cons_of_ne_nil (List.cons_ne_nil v ws)]
          simp

/-- Words without spaces are the tokens of what they are joined to, but for the empty ones. -/
theorem tokens_joined {words : List Bytes} (hne : words ≠ [])
    (hwords : ∀ w ∈ words, (32 : UInt8) ∉ w) :
    tokens (joined words) = words.filter (· ≠ []) := by
  rw [tokens, joined_eq_intercalate, List.splitOn_intercalate _ hwords hne]

/-! ## Percent signs in pairs -/

/-- Every percent sign before the last byte is followed by another one, two by two. -/
def Paired : Bytes → Bool
  | 37 :: d :: rest => d = 37 && Paired rest
  | _ :: rest => Paired rest
  | [] => true

/-- One percent sign for every pair. -/
def unpair : Bytes → Bytes
  | 37 :: 37 :: rest => 37 :: unpair rest
  | c :: rest => c :: unpair rest
  | [] => []

theorem literal_percent (st : FormatState) :
    literal 37 st = st.append [37] := if_neg (by decide)

/-- **A format without arguments** is taken byte by byte if its percent signs come in pairs,
and is not taken otherwise. -/
theorem formatFrom_cases (c : Bytes) (st : FormatState) (hap : st.ap = []) :
    (Paired c = true ∧ formatFrom c st = .ok
      ((unpair c).foldl (fun st b => literal b st) st)) ∨
      Paired c = false ∧ ∃ e, formatFrom c st = .error e := by
  fun_induction Paired c generalizing st with
  | case1 d rest ih =>
      have hne : d :: rest ≠ [] := List.cons_ne_nil d rest
      by_cases hd : d = 37
      · subst hd
        have hconv : conversion (37 :: 37 :: rest) st = .ok (rest, st.append [37]) := rfl
        simp only [decide_true, Bool.true_and]
        rw [formatFrom_conversion hne hconv, unpair, List.foldl_cons, literal_percent]
        exact ih (st.append [37]) hap
      · obtain ⟨e, he⟩ := conversion_error hd rest hap
        exact .inr ⟨by simp [hd], e, formatFrom_error hne he⟩
  | case2 b rest hpair ih =>
      have hb : b ≠ 37 ∨ rest = [] := by
        by_contra! h
        obtain ⟨d, rest', rfl⟩ := List.exists_cons_of_ne_nil h.2
        exact hpair d rest' h.1 rfl
      have hunpair : unpair (b :: rest) = b :: unpair rest := by
        rw [unpair]
        exact fun rest' hb hrest => hpair 37 rest' hb hrest
      have hlit : (literal b st).ap = [] := by
        rw [literal]
        split_ifs <;> exact hap
      rw [formatFrom_literal hb, hunpair, List.foldl_cons]
      exact ih (literal b st) hlit
  | case3 => exact .inl ⟨rfl, rfl⟩

/-- A frame is written exactly if it fits; the one without arguments is cut short. -/
theorem buildCommand_isOk_iff (argv : List Bytes) :
    (∃ cmd, buildCommand (toInt32 (encodeCommand argv).length) argv = .ok cmd) ↔
      (encodeCommand argv).length + 1 < 2 ^ 31 := by
  constructor
  · rintro ⟨cmd, hcmd⟩
    exact length_lt_of_buildCommand hcmd
  · intro hlt
    by_cases hne : argv = []
    · subst hne
      exact ⟨⟨[42, 48, 13, 0], true⟩, by decide⟩
    · exact ⟨_, buildCommand_eq_ok hne hlt⟩

/-- **A line is formatted** exactly if its percent signs come in pairs and its frame fits. -/
theorem redisvFormatCommand_isOk_iff (line : Bytes) :
    (∃ cmd, redisvFormatCommand line [] = .ok cmd) ↔
      Paired line = true ∧ (encodeCommand (tokens (unpair line))).length + 1 < 2 ^ 31 := by
  rcases formatFrom_cases line { ap := [] } rfl with ⟨hpaired, hst⟩ | ⟨hpaired, e, he⟩
  · rw [redisvFormatCommand_plain hst, argv_foldl_literal, buildCommand_isOk_iff, hpaired]
    simp
  · rw [redisvFormatCommand, ← formatFrom, he, hpaired]
    refine iff_of_false ?_ (by simp)
    rintro ⟨cmd, ⟨⟩⟩

end Hiredis
