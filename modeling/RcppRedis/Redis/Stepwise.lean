import RcppRedis.Redis.ScoreFidelity

/-!
# Calls of several commands

`zadd` and `zremrangebyscore` send one command after the other and stop at the first that is
not answered with an integer.  Nothing is taken back.

* `Stepwise.command` — one command in front of others.
* `raises_after_prefix` — a call that raises has carried out the commands before the failing
  one.
-/

namespace RcppRedis

open Bytes Resp Hiredis Interact Prog

variable {O : Type} {R : Runtime O} {σ α β : Type} {S : Server σ}

/-! ## Commands one after the other -/

/-- The server after the commands. -/
def afterCommands (S : Server σ) (cs : List (List Bytes)) (s : σ) : σ :=
  cs.foldl (fun s words => (S words s).2) s

/-- Each of the commands is answered with an integer. -/
def Counted (S : Server σ) : List (List Bytes) → σ → Prop
  | [], _ => True
  | words :: cs, s => (S words s).1.isInteger = true ∧ Counted S cs (S words s).2

/-- A command fails: its frame does not fit, or it is not answered with an integer. -/
def Fails (S : Server σ) (words : List Bytes) (s : σ) : Prop :=
  ¬ (encodeCommand words).length + 1 < 2 ^ 31 ∨ (S words s).1.isInteger = false

/-- The commands that change a sorted set change nothing unless they are answered with an
integer. -/
def Rejects (S : Server σ) : Prop :=
  ∀ {w : Bytes} {args : List Bytes} {s : σ}, w = ascii "ZADD" ∨ w = ascii "ZREMRANGEBYSCORE" →
    (S (w :: args) s).1.isInteger = false → (S (w :: args) s).2 = s

/-- The server stands where the commands before a failing one have led. -/
def StoppedAt (S : Server σ) (cs : List (List Bytes)) (s s' : σ) : Prop :=
  ∃ before failing rest, cs = before ++ failing :: rest ∧ Counted S before s ∧
    Fails S failing (afterCommands S before s) ∧ s' = afterCommands S before s

/-- A program that stops at a failing command if it raises. -/
def Stepwise (S : Server σ) (cs : List (List Bytes)) (p : Code α) : Prop :=
  ∀ w e w', w.env.err = false → run (Conn.env S).handler p w = (.raise e, w') →
    StoppedAt S cs w.env.server w'.env.server

theorem Stepwise.ret (a : α) : Stepwise S [] (.ret a) := by
  intro w e w' _ hrun
  cases hrun

theorem Stepwise.bind_ret {cs : List (List Bytes)} {p : Code α} (hp : Stepwise S cs p)
    (f : α → β) : Stepwise S cs (p >>= fun a => .ret (f a)) := by
  intro w e w' hw hrun
  rw [run_bind] at hrun
  rcases hfirst : run (Conn.env S).handler p w with ⟨a | e' | f | _, w''⟩
  all_goals rw [hfirst] at hrun
  · cases hrun
  · obtain ⟨-, rfl⟩ := Prod.mk.inj hrun
    exact hp w e' w'' hw hfirst
  · cases hrun
  · cases hrun

/-! ## One command -/

/-- Send a command and use the integer that answers it. -/
def counting (items : List Item) (g : Double → α) : Code α :=
  requestNULLSafe (.format (template items) (items.map Item.args).flatten) >>= fun reply =>
    thenFree reply (doubleOf reply >>= fun n => .ret (g n))

/-- A count is read from an integer, and from nothing else. -/
theorem doubleOf_eq (p : Pointer) :
    (∃ n, p.node = .integer n ∧ doubleOf p = .ret (.ofInt n)) ∨
    ∃ e, p.node.isInteger = false ∧ doubleOf p = .raise e := by
  rcases checkReplyType_eq p .integer with ⟨hret, htype⟩ | ⟨⟨e, hraise⟩, htype⟩
  all_goals rw [doubleOf]
  · obtain ⟨n, hn⟩ := isInteger_iff.mp (replyTypeToInteger_eq_integer_iff.mp htype)
    refine .inl ⟨n, hn, ?_⟩
    rw [hret, hn, ret_bind]
    rfl
  · refine .inr ⟨e, ?_, by rw [hraise, raise_bind]⟩
    rw [Ne, replyTypeToInteger_eq_integer_iff] at htype
    exact Bool.eq_false_iff.mpr htype

/-- **A command whose frame fits** is counted, or the call raises. -/
theorem run_counting_of_fits {items : List Item} (hne : items ≠ [])
    (hfits : (encodeCommand (items.map Item.text)).length + 1 < 2 ^ 31) (g : Double → α)
    {w : World (Conn σ)} (hw : w.env.err = false) :
    ∃ w', w'.env = { server := (S (items.map Item.text) w.env.server).2 } ∧
      ((∃ n, (S (items.map Item.text) w.env.server).1 = .integer n ∧
        run (Conn.env S).handler (counting items g) w = (.ret (g (.ofInt n)), w')) ∨
      ∃ e, (S (items.map Item.text) w.env.server).1.isInteger = false ∧
        run (Conn.env S).handler (counting items g) w = (.raise e, w')) := by
  have hexact := (Request.Encodes.format items hne).exact_iff_fits.mpr hfits
  rw [counting, run_command S hexact (by simpa using hne) _ hw]
  rcases doubleOf_eq (w.pointer (S (items.map Item.text) w.env.server).1) with
    ⟨n, hn, hret⟩ | ⟨e, hinteger, hraise⟩
  · rw [hret, ret_bind, run_thenFree_ret]
    exact ⟨_, rfl, .inl ⟨n, hn, rfl⟩⟩
  · rw [hraise, raise_bind, run_thenFree_raise]
    exact ⟨_, rfl, .inr ⟨e, hinteger, rfl⟩⟩

/-- **One command** is counted, or it fails and leaves the server alone. -/
theorem run_counting {items : List Item} (hne : items ≠ []) (g : Double → α)
    {w : World (Conn σ)} (hw : w.env.err = false)
    (hreject : (S (items.map Item.text) w.env.server).1.isInteger = false →
      (S (items.map Item.text) w.env.server).2 = w.env.server) :
    (∃ n w', (S (items.map Item.text) w.env.server).1 = .integer n ∧
      run (Conn.env S).handler (counting items g) w = (.ret (g (.ofInt n)), w') ∧
      w'.env = { server := (S (items.map Item.text) w.env.server).2 }) ∨
    (∃ e w', run (Conn.env S).handler (counting items g) w = (.raise e, w') ∧
      Fails S (items.map Item.text) w.env.server ∧ w'.env.server = w.env.server) ∨
    ∃ f w', run (Conn.env S).handler (counting items g) w = (.fault f, w') := by
  by_cases hfits : (encodeCommand (items.map Item.text)).length + 1 < 2 ^ 31
  · obtain ⟨w', hw', ⟨n, hn, hrun⟩ | ⟨e, hinteger, hrun⟩⟩ :=
      run_counting_of_fits hne hfits g hw
    · exact .inl ⟨n, w', hn, hrun, hw'⟩
    · refine .inr (.inl ⟨e, w', hrun, .inr hinteger, ?_⟩)
      rw [hw']
      exact hreject hinteger
  · rcases run_not_fits S items hne hfits
      (fun reply => thenFree reply (doubleOf reply >>= fun n =>
      .ret (g n))) w with ⟨-, e, w', hrun, hw'⟩ | ⟨-, f, w', hrun⟩
    · exact .inr (.inl ⟨e, w', hrun, .inl hfits, hw'⟩)
    · exact .inr (.inr ⟨f, w', hrun⟩)

/-- **One command in front of others.** -/
theorem Stepwise.command {items : List Item} (hne : items ≠ []) {g : Double → α}
    {k : α → Code β} {cs : List (List Bytes)}
    (hreject : ∀ s, (S (items.map Item.text) s).1.isInteger = false →
      (S (items.map Item.text) s).2 = s)
    (hk : ∀ a, Stepwise S cs (k a)) :
    Stepwise S (items.map Item.text :: cs) (counting items g >>= k) := by
  intro w e w' hw hrun
  rw [run_bind] at hrun
  rcases run_counting hne g hw (hreject _) with
    ⟨n, w'', hn, hfirst, hw''⟩ | ⟨e', w'', hfirst, hfails, hw''⟩ | ⟨f, w'', hfirst⟩
  · rw [hfirst, andThen_ret] at hrun
    obtain ⟨before, failing, rest, rfl, hcounted, hfails, hs⟩ :=
      hk _ w'' e w' (by rw [hw'']) hrun
    rw [hw''] at hcounted hfails hs
    exact ⟨_ :: before, failing, rest, rfl, ⟨by rw [hn]; rfl, hcounted⟩, hfails, hs⟩
  · rw [hfirst] at hrun
    obtain ⟨-, rfl⟩ := Prod.mk.inj hrun
    exact ⟨[], _, cs, rfl, trivial, hfails, hw''⟩
  · rw [hfirst] at hrun
    cases hrun

/-! ## The two methods -/

theorem stepwise_zadd (hS : Rejects S) (key : CStr) (rows : List (List Double))
    (res : Double) : Stepwise S (rows.map fun row => (rowItems key row).map Item.text)
      (rows.foldlM (zaddRow key) res) := by
  induction rows generalizing res with
  | nil => exact .ret res
  | cons row rows ih =>
      rw [List.foldlM_cons, List.map_cons]
      cases row with
      | nil =>
          intro w e w' _ hrun
          cases hrun
      | cons d rest =>
          exact Stepwise.command (g := Double.addWhole res) (rowItems_ne_nil key (d :: rest))
            (fun s => hS (.inl rfl)) ih

theorem zremrangebyscoreKey_eq (min max : Double) (key : CStr) :
    zremrangebyscoreKey min max key =
      counting (boundItems (keyword "ZREMRANGEBYSCORE") key min max) id := by
  rw [counting, zremrangebyscoreKey]
  simp only [id_eq, Prog.bind_ret]
  rfl

theorem stepwise_zremrangebyscore (hS : Rejects S) (min max : Double) (keyvec : List CStr) :
    Stepwise S (keyvec.map fun key =>
        (boundItems (keyword "ZREMRANGEBYSCORE") key min max).map Item.text)
      (keyvec.mapM (zremrangebyscoreKey min max)) := by
  induction keyvec with
  | nil => exact .ret []
  | cons key keyvec ih =>
      rw [List.mapM_cons, List.map_cons]
      rw [zremrangebyscoreKey_eq]
      exact Stepwise.command (by simp [boundItems]) (fun s => hS (.inr rfl)) fun a =>
        ih.bind_ret _

/-- A call of several commands. -/
inductive SeveralCall where
  | zadd (key : CStr) (x : NumericMatrix)
  | zremrangebyscore (keyvec : List CStr) (min max : Double)

def SeveralCall.method : SeveralCall → Method O
  | zadd key x => .zadd key x
  | zremrangebyscore keyvec min max => .zremrangebyscore keyvec min max

/-- **A call that raises** has carried out the commands before the failing one, and no
other. -/
theorem raises_after_prefix (R : Runtime O) {S : Server σ} (hS : Rejects S)
    (c : SeveralCall) {s : σ} {e : RError} {w : World (Conn σ)}
    (hrun : (Conn.env S).run (c.method.code R) { server := s } = (.raise e, w)) :
    StoppedAt S (c.method.commands R) s w.env.server := by
  cases c with
  | zadd key x => exact (stepwise_zadd hS key x.rows _).bind_ret _ _ e w rfl hrun
  | zremrangebyscore keyvec min max =>
      exact (stepwise_zremrangebyscore hS min max keyvec).bind_ret _ _ e w rfl hrun

/-! ## A row without a score -/

/-- A not-a-number. -/
def notANumber : Double := ⟨0x7ff8000000000000⟩

/-- A matrix with a row that has a score and one that has none. -/
def halfScored : NumericMatrix := ⟨1, [[instant], [notANumber]], by simp⟩

variable {ρ : Double.Rounding}

/-- A command that changes a sorted set asks to add a member or to remove some. -/
theorem action_of_scoreCommand {w key : Bytes} {args : List Bytes}
    {act : SortedSet.Action ℚ Member} (hw : w = ascii "ZADD" ∨ w = ascii "ZREMRANGEBYSCORE")
    (h : scoreCommand ρ (w :: args) = some (key, act)) :
    (∃ score x, act = .add score x) ∨ ∃ lo hi, act = .remove lo hi := by
  unfold scoreCommand at h
  split at h
  case h_1 w' key' heq =>
      obtain ⟨rfl, -⟩ := List.cons.inj heq
      rcases hw with rfl | rfl
      all_goals rw [if_neg (by decide)] at h
      all_goals cases h
  case h_2 w' key' a b heq =>
      obtain ⟨rfl, -⟩ := List.cons.inj heq
      rcases hw with rfl | rfl
      · rw [if_pos rfl] at h
        obtain ⟨q, -, hq⟩ := Option.bind_eq_some_iff.mp h
        cases hq
        exact .inl ⟨_, _, rfl⟩
      · rw [if_neg (by decide), if_neg (by decide)] at h
        obtain ⟨lo, -, h⟩ := Option.bind_eq_some_iff.mp h
        obtain ⟨hi, -, h⟩ := Option.bind_eq_some_iff.mp h
        rw [if_neg (by decide), if_neg (by decide), if_pos rfl] at h
        cases h
        exact .inr ⟨_, _, rfl⟩
  case h_3 => cases h

section Scored

variable [LinearOrder Member]

/-- Such a command is answered with a count. -/
theorem isInteger_of_scoreCommand {w key : Bytes} {args : List Bytes}
    {act : SortedSet.Action ℚ Member} (hw : w = ascii "ZADD" ∨ w = ascii "ZREMRANGEBYSCORE")
    (h : scoreCommand ρ (w :: args) = some (key, act)) (t : SortedSet ℚ Member) :
    (scoreReply (act.run t).1).isInteger = true := by
  rcases action_of_scoreCommand hw h with ⟨score, x, rfl⟩ | ⟨lo, hi, rfl⟩
  · rfl
  · rfl

/-- A server of sorted sets rejects a command without a change. -/
theorem rejects_scores : Rejects (scores ρ) := by
  intro w args s hw hinteger
  rw [scores] at hinteger ⊢
  cases hcommand : scoreCommand ρ (w :: args) with
  | none => rfl
  | some p =>
      rw [hcommand] at hinteger
      exact absurd (isInteger_of_scoreCommand hw hcommand (s p.1))
        (Bool.eq_false_iff.mp hinteger)

/-- A row without a score is rejected. -/
theorem run_zaddRow_notANumber (res : Double) {w : World (Conn Scores)}
    (hw : w.env.err = false) :
    ∃ e w', run (Conn.env (scores ρ)).handler (zaddRow (.ofAscii "k") res [notANumber]) w =
      (.raise e, w') ∧ w'.env.server = w.env.server := by
  have hfits : RowFits (.ofAscii "k") [notANumber] := by
    unfold RowFits
    decide
  have hformat : Double.parseFixed notANumber.formatF = none := by decide
  have hwords : scoreCommand ρ ((rowItems (.ofAscii "k") [notANumber]).map Item.text) =
      (Double.parseFixed notANumber.formatF).bind fun q =>
        some ((CStr.ofAscii "k").bytes, .add (ρ.value q) (.ofRow [notANumber])) := rfl
  rw [hformat, Option.bind_none] at hwords
  have hserver : ∀ m, scores ρ ((rowItems (.ofAscii "k") [notANumber]).map Item.text) m =
      (.error (ascii "ERR syntax error"), m) := by
    intro m
    rw [scores, hwords]
  obtain ⟨w', hw', ⟨n, hn, -⟩ | ⟨e, -, hrun⟩⟩ := run_counting_of_fits (S := scores ρ)
    (rowItems_ne_nil _ _) hfits (Double.addWhole res) hw
  · rw [hserver] at hn
    cases hn
  · refine ⟨e, w', hrun, ?_⟩
    rw [hw', hserver]

/-- The row with a score is added, and the call raises at the other. -/
theorem run_halfScored (R : Runtime O) : ∃ e w,
    (Conn.env (scores ρ)).run (Method.code R (.zadd (.ofAscii "k") halfScored))
      { server := fun _ => .empty } = (.raise e, w) ∧
      w.env.server = withMembers ρ (.ofAscii "k") {.ofRow [instant]} fun _ => .empty := by
  have hscore : HasScore [instant] := ⟨instant, [], rfl, by decide⟩
  have hfits : RowFits (.ofAscii "k") [instant] :=
    rowFits_of_length hscore (by decide) (by norm_num)
  obtain ⟨w, hrun, hw⟩ := run_zaddRow (ρ := ρ) hscore hfits (.ofInt 0)
    (w := { env := { server := fun _ => .empty } }) (S := ∅) (m := fun _ => .empty)
    (by rw [withMembers_empty rfl])
  obtain ⟨e, w', hrun', hw'⟩ := run_zaddRow_notANumber (ρ := ρ) _ (w := w) (by rw [hw])
  refine ⟨e, w', ?_, by rw [hw', hw]; rfl⟩
  rw [Env.run, zadd_eq, halfScored, run_bind, List.foldlM_cons, run_bind, hrun, andThen_ret,
    List.foldlM_cons, run_bind, hrun']
  rfl

end Scored

/-- A matrix whose second row has no score is stopped at that row. -/
theorem halfScored_stopped :
    letI := Member.lexicographic
    ∃ e w, (Conn.env (scores default)).run
      (Method.code Runtime.onlyNull (.zadd (.ofAscii "k") halfScored))
        { server := fun _ => .empty } = (.raise e, w) ∧
      StoppedAt (scores default)
        (Method.commands Runtime.onlyNull (.zadd (.ofAscii "k") halfScored))
        (fun _ => .empty) w.env.server := by
  let _ := Member.lexicographic
  obtain ⟨e, w, hrun, -⟩ := run_halfScored (ρ := default) Runtime.onlyNull
  exact ⟨e, w, hrun, raises_after_prefix Runtime.onlyNull rejects_scores
    (.zadd (.ofAscii "k") halfScored) hrun⟩

/-- The first row stays when the second raises. -/
theorem halfScored_not_undone :
    letI := Member.lexicographic
    ¬ ∀ e w, (Conn.env (scores default)).run
        (Method.code Runtime.onlyNull (.zadd (.ofAscii "k") halfScored))
        { server := fun _ => .empty } = (.raise e, w) →
      w.env.server = fun _ => .empty := by
  let _ := Member.lexicographic
  intro h
  obtain ⟨e, w, hrun, hw⟩ := run_halfScored (ρ := default) Runtime.onlyNull
  rw [h e w hrun] at hw
  have hcard := congrArg SortedSet.card (congrFun hw (CStr.ofAscii "k").bytes)
  rw [withMembers, Function.update_self, SortedSet.card_ofScores,
    Finset.card_singleton] at hcard
  cases hcard

end RcppRedis
