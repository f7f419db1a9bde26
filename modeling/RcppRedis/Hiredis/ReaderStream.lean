import RcppRedis.Hiredis.Items

/-!
# The reader over a stream

What the reader makes of a stream that is fed in pieces.  A reader at rest is between two
replies or in the middle of one, and then the frames tell how far it is.  Each function follows
the reading machine of `replyMachine`: a round of the loop, a whole reply, all replies of a
piece, and all pieces.

* `redisReaderGetReply_next` — one reply.
* `feedPieces_reads` — a stream in pieces.
* `feedPieces_congr` — where a stream is cut makes no difference.
-/

namespace Hiredis

open Bytes Pieces Preorder

variable {strtod : Bytes → Double × Bytes} {maxelements : ℤ}

theorem stable_replyMachine (strtod : Bytes → Double × Bytes) (maxelements : ℤ) :
    Scanner.Stable (replyMachine strtod maxelements).scan :=
  stable_scanItem strtod maxelements

/-! ## At rest -/

/-- Between two replies, when the given bytes are not read. -/
structure Idle (maxelements : ℤ) (r : RedisReader)
    (b : Bytes) : Prop extends r.Works maxelements where
  reply : r.reply = none
  stack : r.stack = []
  rest : r.rest = b

/-- A reader at rest: between two replies, or in the middle of one. -/
inductive AtRest (maxelements : ℤ) (r : RedisReader) : List ReplyFrame → Bytes → Prop where
  | idle {b : Bytes} (h : Idle maxelements r b) : AtRest maxelements r [] b
  | inReply {fs : List ReplyFrame} {b : Bytes} (h : InReply maxelements r fs b) :
      AtRest maxelements r fs b

namespace AtRest

variable {r : RedisReader} {fs : List ReplyFrame} {b : Bytes}

theorem works (h : AtRest maxelements r fs b) : r.Works maxelements := by
  cases h with
  | idle h => exact h.toWorks
  | inReply h => exact h.toWorks

/-- A byte more than the buffer has is a type that a task keeps. -/
theorem length_le (h : AtRest maxelements r fs b) : b.length ≤ r.rest.length + 1 := by
  cases h with
  | idle h =>
      rw [h.rest]
      exact Nat.le_succ _
  | inReply h =>
      obtain ⟨cur, -, -, hunread⟩ := h.stack
      rw [ReadTask.Unread] at hunread
      split at hunread
      · rw [hunread]
        exact Nat.le_succ _
      · obtain ⟨byte, -, rfl⟩ := hunread
        exact le_rfl

end AtRest

theorem redisReaderFeed_eq {r : RedisReader} (h : r.err = none) (c : Bytes) :
    redisReaderFeed r c = (true, { r with buf := r.buf ++ c }) := by
  rw [redisReaderFeed, if_neg (by rw [h]; exact Bool.false_ne_true)]

/-- A reader that is fed has more to read. -/
theorem AtRest.feed {r : RedisReader} {fs : List ReplyFrame} {b : Bytes}
    (h : AtRest maxelements r fs b) (c : Bytes) :
    AtRest maxelements (redisReaderFeed r c).2 fs (b ++ c) := by
  have hworks := h.works
  have hpos : r.pos ≤ (r.buf ++ c).length := by
    have hle := hworks.pos
    rw [List.length_append]
    omega
  have hrest : RedisReader.rest { r with buf := r.buf ++ c } = r.rest ++ c :=
    List.drop_append_of_le_length hworks.pos
  rw [redisReaderFeed_eq hworks.err]
  cases h with
  | idle h =>
      exact .idle ⟨⟨h.err, hpos, h.tasks, h.maxelements⟩, h.reply,
        h.stack, by rw [hrest, h.rest]⟩
  | inReply h =>
      obtain ⟨cur, hstack, hidx, hunread⟩ := h.stack
      refine .inReply ⟨⟨h.err, hpos, h.tasks, h.maxelements⟩, h.reply,
        ⟨cur, hstack, hidx, ?_⟩, h.depth⟩
      rw [hrest]
      rw [ReadTask.Unread] at hunread ⊢
      split at hunread
      · rw [hunread]
      · obtain ⟨byte, hbyte, rfl⟩ := hunread
        exact ⟨byte, hbyte, rfl⟩

/-! ## One reply -/

/-- What comes next of the reading machine, for a reader after its loop. -/
def Arrives (maxelements : ℤ) (r : RedisReader) :
    Event UInt8 Failure (List ReplyFrame) Reply → Prop
  | .result t rest => Complete maxelements r t rest
  | .stop (.waits fs rest) => InReply maxelements r fs rest
  | .stop (.fails e) => r.err = some e.truncate

theorem processItems_of_stack_nil {r : RedisReader} (h : r.stack = []) (fuel : ℕ) :
    processItems strtod fuel r = r := by
  cases fuel with
  | zero => rfl
  | succ fuel => rw [processItems, if_pos h]

/-- One round of the loop in the middle of a reply. -/
theorem processItems_succ {r : RedisReader} {fs : List ReplyFrame} {b : Bytes}
    (hr : InReply maxelements r fs b) (fuel : ℕ) :
    processItems strtod (fuel + 1) r =
      if (processItem strtod r).1 then processItems strtod fuel (processItem strtod r).2
      else (processItem strtod r).2 := by
  obtain ⟨cur, hstack, -, -⟩ := hr.stack
  rw [processItems, if_neg (by rw [hstack]; exact List.cons_ne_nil _ _)]
  split <;> rename_i hitem <;> rw [hitem] <;> rfl

theorem InReply.processItem {r : RedisReader} {fs : List ReplyFrame} {b : Bytes}
    (hr : InReply maxelements r fs b) (hroom : Room fs b.length)
    {s : Scan UInt8 ReplyNode Failure} (hscan : (replyMachine strtod maxelements).scan b = s) :
    Follows maxelements fs b (processItem strtod r) s :=
  hscan ▸ processItem_follows strtod hr hroom

/-- **The loop of `redisReaderGetReply`.**  The bytes bound its rounds. -/
theorem processItems_next {r : RedisReader} {fs : List ReplyFrame} {b : Bytes}
    {o : Event UInt8 Failure (List ReplyFrame) Reply}
    (h : (replyMachine strtod maxelements).Next fs b o) {fuel : ℕ}
    (hr : InReply maxelements r fs b) (hroom : Room fs b.length) (hfuel : b.length ≤ fuel) :
    Arrives maxelements (processItems strtod fuel r) o := by
  induction h generalizing r fuel with
  | @waits fs b hscan =>
      cases fuel with
      | zero => exact hr
      | succ fuel =>
          have hfollows := hr.processItem hroom hscan
          rw [processItems_succ hr, hfollows.1]
          exact hfollows.2
  | @fails fs b e hscan =>
      cases fuel with
      | zero =>
          obtain rfl := List.length_eq_zero_iff.mp (Nat.le_zero.mp hfuel)
          cases hscan
      | succ fuel =>
          have hfollows := hr.processItem hroom hscan
          rw [processItems_succ hr, hfollows.1]
          exact hfollows.2
  | @result fs b rest x t hscan hstep =>
      have hlt := (stable_scanItem strtod maxelements).length_lt hscan
      obtain ⟨fuel, rfl⟩ := Nat.exists_eq_add_one_of_ne_zero (show fuel ≠ 0 by omega)
      obtain ⟨hok, hsteps⟩ := hr.processItem hroom hscan
      rw [show step Reply.aggregate x fs = _ from hstep] at hsteps
      rw [processItems_succ hr, hok, if_pos rfl, processItems_of_stack_nil hsteps.stack]
      exact hsteps
  | @step fs fs' b rest x o hscan hstep _ ih =>
      have hlt := (stable_scanItem strtod maxelements).length_lt hscan
      obtain ⟨fuel, rfl⟩ := Nat.exists_eq_add_one_of_ne_zero (show fuel ≠ 0 by omega)
      obtain ⟨hok, hsteps⟩ := hr.processItem hroom hscan
      rw [show step Reply.aggregate x fs = _ from hstep] at hsteps
      rw [processItems_succ hr, hok, if_pos rfl]
      exact ih hsteps (hroom.step hlt hstep) (by omega)

/-- What is read is discarded, once it is much. -/
def RedisReader.discard (r : RedisReader) : RedisReader :=
  if 1024 ≤ r.pos then { r with buf := sdsrange r.buf r.pos (-1), pos := 0 } else r

theorem sdsrange_drop {s : Bytes} {n : ℕ} (h : n ≤ s.length) :
    sdsrange s n (-1) = s.drop n := by
  rw [sdsrange]
  by_cases hnil : s = []
  · rw [if_pos hnil, hnil, List.drop_nil]
  rw [if_neg hnil]
  have hpos := List.length_pos_of_ne_nil hnil
  have hstop : max ((s.length : ℤ) + -1) 0 = s.length - 1 := by omega
  simp only [if_neg (show ¬ (n : ℤ) < 0 by omega), if_pos (show (-1 : ℤ) < 0 by omega), hstop]
  by_cases hn : n = s.length
  · rw [if_pos (show (n : ℤ) > s.length - 1 by omega), if_pos rfl,
      List.drop_of_length_le (by omega)]
  · rw [if_neg (show ¬ (n : ℤ) > s.length - 1 by omega), if_neg (by omega), if_neg (by omega),
      if_neg (by omega), Int.toNat_natCast, List.take_of_length_le]
    rw [List.length_drop]
    omega

/-- The same bytes are left to read. -/
theorem RedisReader.Works.discard {r : RedisReader} (h : r.Works maxelements) :
    ∃ buf pos, r.discard = { r with buf := buf, pos := pos } ∧ pos ≤ buf.length ∧
      buf.drop pos = r.rest := by
  rw [RedisReader.discard]
  split_ifs
  · exact ⟨_, _, rfl, Nat.zero_le _, sdsrange_drop h.pos⟩
  · exact ⟨_, _, rfl, h.pos, rfl⟩

theorem Complete.discard {r : RedisReader} {t : Reply} {b : Bytes}
    (h : Complete maxelements r t b) : Complete maxelements r.discard t b := by
  obtain ⟨buf, pos, heq, hpos, hdrop⟩ := h.toWorks.discard
  rw [heq]
  exact ⟨⟨h.err, hpos, h.tasks, h.maxelements⟩, h.reply, h.stack, hdrop.trans h.rest⟩

theorem InReply.discard {r : RedisReader} {fs : List ReplyFrame} {b : Bytes}
    (h : InReply maxelements r fs b) : InReply maxelements r.discard fs b := by
  obtain ⟨buf, pos, heq, hpos, hdrop⟩ := h.toWorks.discard
  obtain ⟨cur, hstack, hidx, hunread⟩ := h.stack
  rw [← hdrop] at hunread
  rw [heq]
  exact ⟨⟨h.err, hpos, h.tasks, h.maxelements⟩, h.reply, ⟨cur, hstack, hidx, hunread⟩, h.depth⟩

/-- A reader that has no task gets one. -/
theorem AtRest.begin {r : RedisReader} {fs : List ReplyFrame} {b : Bytes}
    (h : AtRest maxelements r fs b) :
    InReply maxelements (if r.stack = [] then { r with stack := [{ idx := -1 }] } else r)
      fs b := by
  cases h with
  | idle h =>
      rw [if_pos h.stack]
      exact ⟨⟨h.err, h.pos, h.tasks, h.maxelements⟩, h.reply, ⟨_, rfl, rfl, h.rest.symm⟩,
        h.tasks⟩
  | inReply h =>
      obtain ⟨cur, hstack, -, -⟩ := h.stack
      rw [if_neg (by rw [hstack]; exact List.cons_ne_nil _ _)]
      exact h

/-- What comes next of the reading machine, and what `redisReaderGetReply` makes of it. -/
def Hands (maxelements : ℤ) (res : Option (Option Object) × RedisReader) :
    Event UInt8 Failure (List ReplyFrame) Reply → Prop
  | .result t rest => res.1 = some (some t.object) ∧ AtRest maxelements res.2 [] rest
  | .stop (.waits fs rest) => res.1 = some none ∧ AtRest maxelements res.2 fs rest
  | .stop (.fails e) => res.1 = none ∧ res.2.err = some e.truncate

/-- With an empty buffer there is too little for an item. -/
theorem AtRest.scan_eq_more {r : RedisReader} {fs : List ReplyFrame} {b : Bytes}
    (h : AtRest maxelements r fs b) (hbuf : r.buf = []) :
    scanItem strtod maxelements b = .more := by
  have hrest : r.rest = [] := by rw [RedisReader.rest, hbuf, List.drop_nil]
  cases h with
  | idle h =>
      obtain rfl : b = [] := h.rest.symm.trans hrest
      rfl
  | inReply h =>
      obtain ⟨cur, -, -, hunread⟩ := h.stack
      rw [ReadTask.Unread, hrest] at hunread
      split at hunread
      · rw [hunread]
        rfl
      · obtain ⟨byte, hbyte, rfl⟩ := hunread
        rename_i type _
        rw [scanItem, Scanner.after, Scanner.uncons]
        simp only [hbyte]
        cases type <;> rfl

/-- **`redisReaderGetReply` hands out what comes next.** -/
theorem redisReaderGetReply_next {r : RedisReader} {fs : List ReplyFrame} {b : Bytes}
    {o : Event UInt8 Failure (List ReplyFrame) Reply}
    (h : (replyMachine strtod maxelements).Next fs b o) (hr : AtRest maxelements r fs b)
    (hroom : Room fs b.length) : Hands maxelements (redisReaderGetReply strtod r) o := by
  rw [redisReaderGetReply, if_neg (by rw [hr.works.err]; exact Bool.false_ne_true)]
  by_cases hbuf : r.buf = []
  · rw [if_pos hbuf]
    obtain rfl := h.unique (.waits (hr.scan_eq_more hbuf))
    exact ⟨rfl, hr⟩
  rw [if_neg hbuf]
  have hbegin := hr.begin
  have hitems := processItems_next h hbegin hroom (AtRest.inReply hbegin).length_le
  simp only
  generalize processItems strtod _ _ = r₂ at hitems
  rcases o with ⟨t, rest⟩ | ⟨⟨fs', rest⟩ | e⟩
  · have hloop : Complete maxelements r₂ t rest := hitems
    have hcomplete := hloop.discard
    rw [if_neg (by rw [hloop.err]; exact Bool.false_ne_true), ← RedisReader.discard,
      if_pos hcomplete.stack, hcomplete.reply]
    exact ⟨rfl, .idle ⟨⟨hcomplete.err, hcomplete.pos, hcomplete.tasks, hcomplete.maxelements⟩,
      rfl,
      hcomplete.stack, hcomplete.rest⟩⟩
  · have hloop : InReply maxelements r₂ fs' rest := hitems
    have hread := hloop.discard
    obtain ⟨cur, hstack, -, -⟩ := hread.stack
    rw [if_neg (by rw [hloop.err]; exact Bool.false_ne_true), ← RedisReader.discard,
      if_neg (by rw [hstack]; exact List.cons_ne_nil _ _)]
    exact ⟨rfl, .inReply hread⟩
  · have herr : r₂.err = some e.truncate := hitems
    rw [if_pos (by rw [herr]; rfl)]
    exact ⟨rfl, herr⟩

/-! ## All replies -/

/-- A reader that has handed out all replies that are there. -/
def Rests (maxelements : ℤ) (r : RedisReader) : Stop UInt8 Failure (List ReplyFrame) → Prop
  | .waits fs rest => AtRest maxelements r fs rest
  | .fails e => r.err = some e.truncate

/-- The error with which reading stops. -/
def stopError : Stop UInt8 Failure (List ReplyFrame) → Option Failure
  | .waits _ _ => none
  | .fails e => some e.truncate

theorem Rests.err {r : RedisReader} {o : Stop UInt8 Failure (List ReplyFrame)}
    (h : Rests maxelements r o) : r.err = stopError o := by
  cases o with
  | waits fs rest => exact AtRest.works h |>.err
  | fails e => exact h

theorem Room.start {k : ℕ} (h : k ≤ 2 ^ 31 + 1) : Room [] k :=
  ⟨h, fun _ hf => absurd hf List.not_mem_nil⟩

/-- **All replies that are there are handed out.** -/
theorem redisReaderGetReplies_reads {r : RedisReader} {fs : List ReplyFrame} {b : Bytes}
    {ts : List Reply} {o : Stop UInt8 Failure (List ReplyFrame)}
    (h : (replyMachine strtod maxelements).Reads fs b ts o) {fuel : ℕ}
    (hr : AtRest maxelements r fs b) (hroom : Room fs b.length) (hfuel : b.length ≤ fuel) :
    (redisReaderGetReplies strtod fuel r).1 = ts.map Reply.object ∧
      Rests maxelements (redisReaderGetReplies strtod fuel r).2 o := by
  induction h generalizing r fuel with
  | @stop fs b o hnext =>
      have hhands := redisReaderGetReply_next hnext hr hroom
      cases fuel with
      | zero =>
          -- nothing is left, which no item is
          obtain rfl := List.length_eq_zero_iff.mp (Nat.le_zero.mp hfuel)
          cases hnext.unique (.waits rfl)
          exact ⟨rfl, hr⟩
      | succ fuel =>
          rw [redisReaderGetReplies]
          rcases hres : redisReaderGetReply strtod r with ⟨reply, r'⟩
          rw [hres] at hhands
          rcases o with ⟨fs', rest⟩ | e
          · obtain ⟨rfl, hrest⟩ := hhands
            exact ⟨rfl, hrest⟩
          · obtain ⟨rfl, herr⟩ := hhands
            exact ⟨rfl, herr⟩
  | @result fs b rest t ts o hnext _ ih =>
      have hlt := hnext.length_lt (stable_scanItem strtod maxelements)
      obtain ⟨fuel, rfl⟩ := Nat.exists_eq_add_one_of_ne_zero (show fuel ≠ 0 by omega)
      have hhands := redisReaderGetReply_next hnext hr hroom
      rw [redisReaderGetReplies]
      rcases hres : redisReaderGetReply strtod r with ⟨reply, r'⟩
      rw [hres] at hhands
      obtain ⟨rfl, hrest⟩ := hhands
      have hstart : Room [] rest.length := .start (hlt.le.trans hroom.bytes)
      obtain ⟨hts, ho⟩ := ih hrest hstart (Nat.lt_succ_iff.mp (hlt.trans_le hfuel))
      exact ⟨congrArg (t.object :: ·) hts, ho⟩

/-! ## Pieces -/

/-- An error stays. -/
theorem feedPieces_of_err {r : RedisReader} {e : Failure} (h : r.err = some e)
    (pieces : List Bytes) : feedPieces strtod pieces r = ([], r) := by
  induction pieces with
  | nil => rfl
  | cons b pieces ih =>
      have hsome : r.err.isSome = true := by rw [h]; rfl
      have hreply : redisReaderGetReply strtod r = (none, r) := by
        rw [redisReaderGetReply, if_pos hsome]
      rw [feedPieces, redisReaderFeed, if_pos hsome]
      simp only [redisReaderGetReplies, hreply, ih, List.append_nil]

/-- Nowhere in the stream does a reply that is not complete take more than so many bytes. -/
abbrev ShortReplies (strtod : Bytes → Double × Bytes) (maxelements : ℤ) (k : ℕ)
    (s : Bytes) : Prop :=
  Short Reply.aggregate (scanItem strtod maxelements) k s

/-- There is room for the next piece. -/
theorem room_of_short {k m : ℕ} {s p b c : Bytes} {ts : List Reply} {fs : List ReplyFrame}
    (hs : ShortReplies strtod maxelements k s) (hp : p <+: s)
    (h : (replyMachine strtod maxelements).Reads [] p ts (.waits fs b)) (hc : c.length ≤ m)
    (hkm : k + m ≤ 2 ^ 31 + 1) : Room fs (b ++ c).length := by
  have hstable := stable_scanItem strtod maxelements
  obtain ⟨w, v, rfl, hw, hv, hmore⟩ := (reads_waits_iff hstable).mp h
  have hlen := hs w v b ts fs hp hw hv hmore
  simp only [List.length_append] at hlen ⊢
  refine ⟨by omega, fun f hf => ?_⟩
  have hdone := hv.length_done_lt hstable f hf
  omega

/-- **A stream in pieces**, from where it was left. -/
theorem feedPieces_reads {k m : ℕ} {r : RedisReader} {pieces : List Bytes} {p b : Bytes}
    {ts us : List Reply} {fs : List ReplyFrame} {o : Stop UInt8 Failure (List ReplyFrame)}
    (hs : ShortReplies strtod maxelements k (p ++ pieces.flatten))
    (hm : ∀ c ∈ pieces, c.length ≤ m) (hkm : k + m ≤ 2 ^ 31 + 1)
    (hp : (replyMachine strtod maxelements).Reads [] p ts (.waits fs b))
    (hr : AtRest maxelements r fs b)
    (h : (replyMachine strtod maxelements).Reads [] (p ++ pieces.flatten) us o) :
    ∃ us', us = ts ++ us' ∧ (feedPieces strtod pieces r).1 = us'.map Reply.object ∧
      Rests maxelements (feedPieces strtod pieces r).2 o := by
  have hstable := stable_replyMachine strtod maxelements
  induction pieces generalizing r p b ts fs with
  | nil =>
      rw [List.flatten_nil, List.append_nil] at h
      obtain ⟨rfl, rfl⟩ := h.unique hp
      exact ⟨[], (List.append_nil _).symm, rfl, hr⟩
  | cons c pieces ih =>
      obtain ⟨hc, hpieces⟩ := List.forall_mem_cons.mp hm
      rw [List.flatten_cons] at hs h
      have hroom := room_of_short hs (List.prefix_append p _) hp hc hkm
      obtain ⟨ts', o', hreads⟩ := Machine.exists_reads hstable fs (b ++ c)
      have hfuel := (hr.feed c).length_le
      obtain ⟨hreplies, hrests⟩ := redisReaderGetReplies_reads hreads (hr.feed c) hroom hfuel
      have happ := hp.append hstable hreads
      rw [← List.append_assoc] at hs h
      rw [feedPieces]
      rcases hget : redisReaderGetReplies strtod ((redisReaderFeed r c).2.rest.length + 1)
        (redisReaderFeed r c).2 with ⟨os, r'⟩
      rw [hget] at hreplies hrests
      rcases o' with ⟨fs', b'⟩ | e
      · obtain ⟨us', rfl, hus, ho⟩ := ih hs hpieces happ hrests h
        refine ⟨ts' ++ us', List.append_assoc .., ?_, ho⟩
        rw [List.map_append]
        exact congrArg₂ _ hreplies hus
      · obtain ⟨rfl, rfl⟩ := h.unique (happ.fails_append hstable pieces.flatten)
        refine ⟨ts', rfl, ?_, ?_⟩
        all_goals
          simp only [feedPieces_of_err (show r'.err = some e.truncate from hrests),
            List.append_nil]
        · exact hreplies
        · exact hrests

/-! ## A fresh reader -/

/-- What a reader is told of a stream, with its error. -/
def Tells (strtod : Bytes → Double × Bytes) (maxelements : ℤ) (u : Bytes) :
    Option Failure → Prop
  | none => ∃ v c fs, u = v ++ c ∧ Opens Reply.aggregate (scanItem strtod maxelements) v fs ∧
      scanItem strtod maxelements c = .more
  | some e => ∃ v c fs e', u = v ++ c ∧
      Opens Reply.aggregate (scanItem strtod maxelements) v fs ∧
      scanItem strtod maxelements c = .fail e' ∧ e = e'.truncate

section Fresh

variable {k m : ℕ} {pieces : List Bytes}

theorem atRest_fresh : AtRest (2 ^ 32 - 1) {} [] [] :=
  .idle ⟨⟨rfl, le_rfl, by decide, rfl⟩, rfl, rfl, rfl⟩

theorem reads_nil : (replyMachine strtod maxelements).Reads [] [] [] (.waits [] []) :=
  .stop (.waits rfl)

/-- A fresh reader over a stream in pieces. -/
theorem feedPieces_fresh (hs : ShortReplies strtod (2 ^ 32 - 1) k pieces.flatten)
    (hm : ∀ c ∈ pieces, c.length ≤ m) (hkm : k + m ≤ 2 ^ 31 + 1) {ts : List Reply}
    {o : Stop UInt8 Failure (List ReplyFrame)}
    (h : (replyMachine strtod (2 ^ 32 - 1)).Reads [] pieces.flatten ts o) :
    (feedPieces strtod pieces {}).1 = ts.map Reply.object ∧
      Rests (2 ^ 32 - 1) (feedPieces strtod pieces {}).2 o := by
  obtain ⟨us, rfl, hus, ho⟩ := feedPieces_reads (b := []) hs hm hkm reads_nil atRest_fresh h
  exact ⟨hus, ho⟩

/-- **What the reader makes of a stream in pieces**: it hands out the replies that are spelled,
and has an error if nothing that may follow is one. -/
theorem feedPieces_eq_iff (hs : ShortReplies strtod (2 ^ 32 - 1) k pieces.flatten)
    (hm : ∀ c ∈ pieces, c.length ≤ m) (hkm : k + m ≤ 2 ^ 31 + 1) (os : List Object)
    (err : Option Failure) :
    (feedPieces strtod pieces {}).1 = os ∧ (feedPieces strtod pieces {}).2.err = err ↔
      ∃ w u ts, pieces.flatten = w ++ u ∧ os = ts.map Reply.object ∧
        SpellsAll Reply.aggregate (scanItem strtod (2 ^ 32 - 1)) w ts ∧
        Tells strtod (2 ^ 32 - 1) u err := by
  have hstable := stable_scanItem strtod (2 ^ 32 - 1)
  constructor
  · rintro ⟨rfl, rfl⟩
    obtain ⟨ts, o, h⟩ := Machine.exists_reads (stable_replyMachine strtod _) [] pieces.flatten
    obtain ⟨hts, ho⟩ := feedPieces_fresh hs hm hkm h
    rw [ho.err]
    rcases o with ⟨fs, c⟩ | e
    · obtain ⟨w, v, hflat, hw, hv, hmore⟩ := (reads_waits_iff hstable).mp h
      exact ⟨w, v ++ c, ts, hflat, hts, hw, v, c, fs, rfl, hv, hmore⟩
    · obtain ⟨w, v, c, fs, hflat, hw, hv, hfail⟩ := (reads_fails_iff hstable).mp h
      exact ⟨w, v ++ c, ts, hflat, hts, hw, v, c, fs, e, rfl, hv, hfail, rfl⟩
  · rintro ⟨w, u, ts, hflat, rfl, hw, hu⟩
    cases err with
    | none =>
        obtain ⟨v, c, fs, rfl, hv, hmore⟩ := hu
        have hreads := (reads_waits_iff hstable).mpr ⟨w, v, hflat, hw, hv, hmore⟩
        obtain ⟨hts, ho⟩ := feedPieces_fresh hs hm hkm hreads
        exact ⟨hts, ho.err⟩
    | some e =>
        obtain ⟨v, c, fs, e', rfl, hv, hfail, rfl⟩ := hu
        have hreads := (reads_fails_iff hstable).mpr ⟨w, v, c, fs, hflat, hw, hv, hfail⟩
        obtain ⟨hts, ho⟩ := feedPieces_fresh hs hm hkm hreads
        exact ⟨hts, ho.err⟩

/-- A `strtod` that takes no string for a number. -/
def noNumber : Bytes → Double × Bytes := fun s => (.ofInt 0, s)

/-- A status that is cut in two, and the beginning of a number. -/
def cutStatus : List Bytes := [ascii "+O", ascii "K\r\n:1"]

/-- **Where a stream is cut makes no difference.** -/
theorem feedPieces_congr {n : ℕ} {pieces' : List Bytes}
    (hflat : pieces.flatten = pieces'.flatten)
    (hs : ShortReplies strtod (2 ^ 32 - 1) k pieces.flatten) (hm : ∀ c ∈ pieces, c.length ≤ m)
    (hn : ∀ c ∈ pieces', c.length ≤ n) (hkm : k + m ≤ 2 ^ 31 + 1) (hkn : k + n ≤ 2 ^ 31 + 1) :
    (feedPieces strtod pieces {}).1 = (feedPieces strtod pieces' {}).1 ∧
      (feedPieces strtod pieces {}).2.err = (feedPieces strtod pieces' {}).2.err := by
  obtain ⟨ts, o, h⟩ := Machine.exists_reads (stable_replyMachine strtod _) [] pieces.flatten
  obtain ⟨hts, ho⟩ := feedPieces_fresh hs hm hkm h
  rw [hflat] at hs h
  obtain ⟨hts', ho'⟩ := feedPieces_fresh hs hn hkn h
  exact ⟨hts.trans hts'.symm, ho.err.trans ho'.err.symm⟩

/-- A status in two pieces is read as in one. -/
theorem cutStatus_congr :
    (feedPieces noNumber cutStatus {}).1 = (feedPieces noNumber [cutStatus.flatten] {}).1 ∧
      (feedPieces noNumber cutStatus {}).2.err =
        (feedPieces noNumber [cutStatus.flatten] {}).2.err :=
  feedPieces_congr (m := 7) (n := 7) List.flatten_singleton.symm (short_length _) (by decide)
    (by decide) (by decide) (by decide)

end Fresh

end Hiredis
