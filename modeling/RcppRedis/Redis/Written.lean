import RcppRedis.Redis.Connection

/-!
# What a run writes

A method appends its commands to the output buffer one after the other, and goes on with the
next one once it likes the reply.  `Made` says this of the requests that it hands to an
encoder, and `Sent` of the words that they stand for.

* `makes_code` — a run makes the requests of its method, up to the first reply that ends the
  call.
* `writes_iff_fits` — what a run appends is one frame after the other, exactly if these fit.
-/

namespace RcppRedis

open Bytes Resp Hiredis Interact Prog

variable {O : Type} {R : Runtime O} {σ α β : Type}

/-! ## The output buffer -/

/-- What one request appends to the output buffer, and the size that was added up for it. -/
structure Written where
  announced : Except FormatError ℤ
  cmd : Cmd

/-- One frame, from which a server reads the words and nothing after them.  Its size is the one
added up beforehand, and no `snprintf` cut a text short. -/
structure Written.IsFrame (words : List Bytes) (x : Written) : Prop where
  bytes : x.cmd.bytes = encodeCommand words
  parse : parseCommand x.cmd.bytes = some (words, [])
  whole : x.cmd.truncated = false
  announced : x.announced = .ok x.cmd.bytes.length

section Writer

variable (S : Bytes → σ → Option Reply × σ)

/-- A connection that keeps what is appended to its output buffer; what answers is a
parameter. -/
def writer : Env (σ × List Written) where
  request q x :=
    match q.encode with
    | .error (.fault f) => (.fault (.format f), x)
    | .error _ => (.answer none, x)
    | .ok cmd => (.answer (S cmd.bytes x.1).1, (S cmd.bytes x.1).2,
        x.2 ++ [⟨q.announced, cmd⟩])
  connect _ _ _ x := (none, x)

theorem writer_ok {q : Request} {cmd : Cmd} (hq : q.encode = .ok cmd) (x : σ × List Written) :
    (writer S).request q x =
      (.answer (S cmd.bytes x.1).1, (S cmd.bytes x.1).2, x.2 ++ [⟨q.announced, cmd⟩]) := by
  simp only [writer, hq]

theorem writer_error {q : Request} {e : FormatError} (hq : q.encode = .error e)
    (x : σ × List Written) :
    (writer S).request q x = (.answer none, x) ∨
    ∃ f, (writer S).request q x = (.fault f, x) := by
  simp only [writer, hq]
  cases e with
  | fault f => exact .inr ⟨.format f, rfl⟩
  | oom | format => exact .inl rfl

/-- What a run appends to the output buffer. -/
def written (p : Code α) (s : σ) : List Written := ((writer S).run p (s, [])).2.env.2

/-- Commands are sent one after the other, up to the first whose reply ends the call.  The last
argument is what answers afterwards, if no reply ends it. -/
inductive Sent (accepts : Reply → Prop) :
    List (List Bytes) → σ → List (List Bytes) → Option σ → Prop where
  | done (s : σ) : Sent accepts [] s [] (some s)
  | next {words : List Bytes} {rest sent : List (List Bytes)} {s s' : σ} {r : Reply}
      {o : Option σ} (h : S (encodeCommand words) s = (some r, s')) (hr : accepts r)
      (hrest : Sent accepts rest s' sent o) : Sent accepts (words :: rest) s (words :: sent) o
  | last {words : List Bytes} {rest : List (List Bytes)} {s s' : σ} {a : Option Reply}
      (h : S (encodeCommand words) s = (a, s')) (ha : ∀ r, a = some r → ¬ accepts r) :
      Sent accepts (words :: rest) s [words] none

/-- Requests are made one after the other, up to the first that is refused or whose reply ends
the call. -/
inductive Made (accepts : Reply → Prop) :
    List Request → σ → List Written → Option σ → Prop where
  | done (s : σ) : Made accepts [] s [] (some s)
  | next {q : Request} {qs : List Request} {cmd : Cmd} {out : List Written} {s s' : σ}
      {r : Reply} {o : Option σ} (hq : q.encode = .ok cmd) (h : S cmd.bytes s = (some r, s'))
      (hr : accepts r) (hrest : Made accepts qs s' out o) :
      Made accepts (q :: qs) s (⟨q.announced, cmd⟩ :: out) o
  | last {q : Request} {qs : List Request} {cmd : Cmd} {s s' : σ} {a : Option Reply}
      (hq : q.encode = .ok cmd) (h : S cmd.bytes s = (a, s'))
      (ha : ∀ r, a = some r → ¬ accepts r) : Made accepts (q :: qs) s [⟨q.announced, cmd⟩] none
  | refused {q : Request} {qs : List Request} {e : FormatError}
      (hq : q.encode = .error e) (s : σ) : Made accepts (q :: qs) s [] none

variable {S} {accepts : Reply → Prop}

theorem Made.append {qs qs' : List Request} {s s' : σ} {out out' : List Written} {o : Option σ}
    (h : Made S accepts qs s out (some s')) (h' : Made S accepts qs' s' out' o) :
    Made S accepts (qs ++ qs') s (out ++ out') o := by
  generalize hs : some s' = t at h
  induction h with
  | done s =>
      cases hs
      exact h'
  | next hq hS hr hrest ih => exact .next hq hS hr (ih hs)
  | last | refused => cases hs

theorem Made.append_none {qs : List Request} {s : σ} {out : List Written}
    (h : Made S accepts qs s out none) (qs' : List Request) :
    Made S accepts (qs ++ qs') s out none := by
  generalize hs : none = t at h
  induction h with
  | done s => cases hs
  | next hq hS hr hrest ih => exact .next hq hS hr (ih hs)
  | last hq hS ha => exact .last hq hS ha
  | refused hq s => exact .refused hq s

/-! ## Rounds -/

/-- A run of the program makes these requests, and returns if no reply ends the call. -/
def Makes (S : Bytes → σ → Option Reply × σ) (accepts : Reply → Prop) (qs : List Request)
    (p : Code α) : Prop :=
  ∀ w : World (σ × List Written), ∃ out o, Made S accepts qs w.env.1 out o ∧
    (run (writer S).handler p w).2.env.2 = w.env.2 ++ out ∧
    ((run (writer S).handler p w).1.Returned ↔ o.isSome) ∧
    ∀ s ∈ o, (run (writer S).handler p w).2.env.1 = s

theorem makes_ret (a : α) : Makes S accepts [] (.ret a : Code α) := fun w =>
  ⟨[], some w.env.1, .done _, (List.append_nil _).symm,
    ⟨fun _ => rfl, fun _ => returned_ret a⟩,
    fun _ hs => Option.some.inj hs⟩

theorem Makes.bind {qs qs' : List Request} {p : Code α} {f : α → Code β}
    (hp : Makes S accepts qs p) (hf : ∀ a, Makes S accepts qs' (f a)) :
    Makes S accepts (qs ++ qs') (p >>= f) := by
  intro w
  obtain ⟨out, o, hmade, hout, hret, hs⟩ := hp w
  rw [run_bind]
  cases o with
  | none =>
      refine ⟨out, none, hmade.append_none qs', ?_⟩
      rcases hrun : run (writer S).handler p w with ⟨a | e | f | _, w'⟩
      · rw [hrun] at hret
        cases hret.mp (returned_ret a)
      all_goals
        rw [hrun] at hout
        refine ⟨hout, iff_of_false ?_ (by simp), by simp⟩
        rintro ⟨b, ⟨⟩⟩
  | some s =>
      obtain ⟨a, ha⟩ := hret.mpr rfl
      have hs' := hs s rfl
      rcases hrun : run (writer S).handler p w with ⟨r, w'⟩
      rw [hrun] at ha hout hs'
      obtain rfl : r = .ret a := ha
      obtain ⟨out', o', hmade', hout', hret', hs''⟩ := hf a w'
      simp only at hs' hout
      subst hs'
      refine ⟨out ++ out', o', hmade.append hmade', ?_, hret', hs''⟩
      rw [andThen_ret, hout', hout, List.append_assoc]

theorem Makes.mapM {γ : Type} {f : γ → Code α} {g : γ → Request}
    (hf : ∀ c, Makes S accepts [g c] (f c)) (l : List γ) :
    Makes S accepts (l.map g) (l.mapM f) := by
  induction l with
  | nil => exact makes_ret []
  | cons c l ih =>
      rw [List.mapM_cons, List.map_cons]
      refine (hf c).bind fun a => ?_
      have hrest := ih.bind fun as => (makes_ret (a :: as) : Makes S accepts [] _)
      rwa [List.append_nil] at hrest

/-- A request and what is done with its reply. -/
theorem makes_request (q : Request) {k : Pointer → Code α} (hk : ∀ p, Only Instr.Frees (k p))
    (hret : ∀ (p : Pointer) (w : World (σ × List Written)),
      (run (writer S).handler (k p) w).1.Returned ↔ accepts p.node) :
    Makes S accepts [q] (requestNULLSafe q >>= k) := by
  intro w
  rw [run_requestNULLSafe_bind, afterRequest]
  cases hq : q.encode with
  | error e =>
      refine ⟨[], none, .refused hq _, ?_⟩
      rcases writer_error S hq w.env with hw | ⟨f, hw⟩
      · rw [hw]
        exact ⟨(List.append_nil _).symm, iff_of_false (not_returned_raise _) (by simp),
          by simp⟩
      · rw [hw]
        exact ⟨(List.append_nil _).symm, iff_of_false (not_returned_fault _) (by simp),
          by simp⟩
  | ok cmd =>
      rw [writer_ok S hq]
      rcases hS : S cmd.bytes w.env.1 with ⟨_ | r, s⟩
      · exact ⟨_, none, .last hq hS (by simp), rfl,
          iff_of_false (not_returned_raise _) (by simp), by simp⟩
      · have henv := (run_frees (writer S) (hk (w.pointer r))
          (w.acquire (s, w.env.2 ++ [⟨q.announced, cmd⟩]) r)).2
        rw [World.env_acquire] at henv
        simp only [henv, hret]
        by_cases hr : accepts r
        · exact ⟨_, some s, .next hq hS hr (.done s), rfl, iff_of_true hr rfl,
            fun _ hs => Option.some.inj hs⟩
        · exact ⟨_, none, .last hq hS fun r' h => Option.some.inj h ▸ hr, rfl,
            iff_of_false hr (by simp), by simp⟩

/-- A value that is read from an integer. -/
theorem makes_integer (q : Request) {x : Pointer → Code α} (hx : ∀ p, Leaf (x p))
    (hret : ∀ p, Returns (x p) ↔ p.node.isInteger = true) :
    Makes S (fun r => r.isInteger = true) [q]
      (requestNULLSafe q >>= fun p => thenFree p (x p)) := by
  refine makes_request q (fun p => only_thenFree (hx p).only p) fun p w => ?_
  rw [← hret]
  rcases (hx p).ends with ⟨a, ha⟩ | ⟨e, he⟩ | ⟨f, hf⟩
  · rw [ha, run_thenFree_ret]
    exact iff_of_true (returned_ret a) ⟨a, rfl⟩
  · rw [he]
    exact iff_of_false (not_returned_raise e) (not_returns_raise e)
  · rw [hf]
    exact iff_of_false (not_returned_fault f) (not_returns_fault f)

theorem makes_zaddRow (key : CStr) (res score : Double) (y : List Double) :
    Makes S (fun r => r.isInteger = true) [zaddRequest key score (score :: y)]
      (zaddRow key res (score :: y)) :=
  makes_integer _ (fun p => (leaf_doubleOf p).bind fun _ => .ret _)
    fun _ => returns_bind_pure_iff.trans returns_doubleOf_iff

theorem makes_zremrangebyscoreKey (min max : Double) (key : CStr) :
    Makes S (fun r => r.isInteger = true) [zremrangebyscoreRequest min max key]
      (zremrangebyscoreKey min max key) :=
  makes_integer _ leaf_doubleOf fun _ => returns_doubleOf_iff

theorem makes_subscribeChannel (type : Bytes) (key : CStr) :
    Makes S Reply.Extractable [subscribeRequest type key]
      (subscribeChannel (O := O) type key) := by
  refine makes_request _ (fun p => only_thenFree (only_extractReply p) p) fun p w => ?_
  rw [thenFree]
  rcases run_extractReply_bind (writer S) p
    (fun x : SEXP O => Code.freeReplyObject p >>= fun _ => pure x) w with
    ⟨hr, x, hx, -⟩ | ⟨-, hnot, e, hrun⟩ | ⟨-, hnot, e, w', hrun, -⟩
  · rw [hx]
    exact iff_of_true (returned_ret x) hr
  · rw [hrun]
    exact iff_of_false (not_returned_raise e) hnot
  · rw [hrun]
    exact iff_of_false (not_returned_raise e) hnot

/-- The rows of `zadd`. -/
theorem makes_rows (key : CStr) {rows : List (List Double)} (hrows : ∀ y ∈ rows, y ≠ [])
    (res : Double) :
    Makes S (fun r => r.isInteger = true) (rows.map fun y => zaddRequest key (y.headD 0) y)
      (rows.foldlM (zaddRow key) res) := by
  induction rows generalizing res with
  | nil => exact makes_ret res
  | cons y rows ih =>
      obtain ⟨hy, hrest⟩ := List.forall_mem_cons.mp hrows
      rw [List.foldlM_cons, List.map_cons]
      cases y with
      | nil => exact absurd rfl hy
      | cons score y => exact (makes_zaddRow key res score y).bind fun res' => ih hrest res'

end Writer

/-! ## Methods -/

/-- The replies after which a plan goes on; only some plans have more than one command. -/
def Plan.Accepts : Plan O → Reply → Prop
  | rows _ _, r | ranges _ _ _, r => r.isInteger = true
  | channels _ _, r => r.Extractable
  | _, _ => True

/-- A leaf makes no request. -/
theorem written_leaf (S : Bytes → σ → Option Reply × σ) {p : Code α} (hp : Leaf p) (s : σ) :
    written S p s = [] := by
  cases hp with
  | ret | raise | fault => rfl

theorem made_of_makes {S : Bytes → σ → Option Reply × σ} {accepts : Reply → Prop}
    {qs : List Request} {p : Code α} {f : α → β} (hp : Makes S accepts qs p) (s : σ) :
    ∃ o, Made S accepts qs s (written S (p >>= fun a => pure (f a)) s) o := by
  have hbind := hp.bind fun a => (makes_ret (f a) : Makes S accepts [] _)
  rw [List.append_nil] at hbind
  obtain ⟨out, o, hmade, hout, -⟩ := hbind ⟨(s, []), {}⟩
  refine ⟨o, ?_⟩
  rw [written, Env.run]
  simp only [pure_eq, hout, List.nil_append]
  exact hmade

theorem made_request (S : Bytes → σ → Option Reply × σ) (accepts : Reply → Prop) (q : Request)
    {k : Pointer → Code α} (hk : ∀ p, Only Instr.Frees (k p)) (s : σ) :
    ∃ o, Made S accepts [q] s (written S (requestNULLSafe q >>= k) s) o := by
  rw [written, Env.run, env_run_request q hk]
  cases hq : q.encode with
  | error e =>
      refine ⟨none, ?_⟩
      rcases writer_error S hq (s, []) with hw | ⟨f, hw⟩
      · rw [hw]
        exact .refused hq s
      · rw [hw]
        exact .refused hq s
  | ok cmd =>
      rw [writer_ok S hq]
      rcases hS : S cmd.bytes s with ⟨_ | r, s'⟩
      · exact ⟨none, .last hq hS (by simp)⟩
      · by_cases hr : accepts r
        · exact ⟨_, .next hq hS hr (.done s')⟩
        · exact ⟨none, .last hq hS fun r' h => Option.some.inj h ▸ hr⟩

namespace Method

/-- **A run makes the requests of its method**, one after the other, up to the first whose
reply ends the call.  Without a column `zadd` reads a score that is not there. -/
theorem makes_code (S : Bytes → σ → Option Reply × σ) {m : Method O}
    (hm : ∀ key x, m.plan R = .rows key x → x.ncol ≠ 0)
    (hlisten : ∀ type, m.plan R ≠ .listen type) (s : σ) :
    ∃ o, Made S (m.plan R).Accepts (m.requests R) s (written S (m.code R) s) o := by
  rw [code_eq, requests]
  cases hplan : m.plan R with
  | done p =>
      rw [Plan.code, written_leaf S (leaf_of_plan_done hplan) s]
      exact ⟨some s, .done s⟩
  | command q rd => exact made_request S _ q (fun p => only_code rd p) s
  | rows key x =>
      have hrows : ∀ y ∈ x.rows, y ≠ [] := by
        rintro y hy rfl
        exact hm key x hplan (x.shape [] hy).symm
      exact made_of_makes (makes_rows key hrows _) s
  | ranges keyvec min max =>
      exact made_of_makes (.mapM (makes_zremrangebyscoreKey min max) keyvec) s
  | channels cs type => exact made_of_makes (.mapM (makes_subscribeChannel type) cs) s
  | listen type => exact absurd hplan (hlisten type)

/-- The methods whose commands are known: all with a format or a vector.  `zadd` needs a
column. -/
def Sends : Method O → Prop
  | zadd _ x => x.ncol ≠ 0
  | m => m.Templated

theorem Sends.templated {m : Method O} (hm : m.Sends) : m.Templated := by
  cases m with
  | zadd => trivial
  | _ => exact hm

theorem Sends.ncol_ne_zero {m : Method O} (hm : m.Sends) {key : CStr} {x : NumericMatrix}
    (h : m.plan R = .rows key x) : x.ncol ≠ 0 := by
  cases m with
  | zadd key' x' =>
      cases h
      exact hm
  | publish channel v type =>
      simp only [plan, publishPlan] at h
      split_ifs at h
      · cases hs : asString v <;> rw [hs] at h <;> cases h
      · cases h
      · cases hs : asRaw R v <;> rw [hs] at h <;> cases h
  | _ => cases h

/-- The encoder of a format counts a terminator after the frame. -/
def terminator : Method O → ℕ
  | execv _ | sadd _ _ | srem _ _ => 0
  | _ => 1

/-- The frame of a command, with the terminator that its encoder counts, fits in an `int`. -/
def Fits (m : Method O) (words : List Bytes) : Prop :=
  (encodeCommand words).length + m.terminator < 2 ^ 31

instance (m : Method O) (words : List Bytes) : Decidable (m.Fits words) :=
  inferInstanceAs (Decidable (_ < _))

/-- What a run of the method appends to the output buffer, whatever is replied: one frame for
each command, one after the other, up to the first whose reply ends the call. -/
def Writes (R : Runtime O) (m : Method O) : Prop :=
  ∀ (σ : Type) (S : Bytes → σ → Option Reply × σ) (s : σ), ∃ sent o,
    Sent S (m.plan R).Accepts (m.commands R) s sent o ∧
      List.Forall₂ Written.IsFrame sent (written S (m.code R) s)

theorem fits_iff {m : Method O} (hm : m.Templated) {q : Request} (hq : q ∈ m.requests R)
    (words : List Bytes) : q.Fits words ↔ m.Fits words := by
  cases m with
  | exec | «exists» | expire | pexpire | del | listToMatrix | listen => exact hm.elim
  | zadd | zremrangebyscore | subscribe | psubscribe | unsubscribe =>
      obtain ⟨a, -, rfl⟩ := List.mem_map.mp hq
      rfl
  | publish channel v type =>
      simp only [requests, plan, publishPlan] at hq
      split_ifs at hq
      · cases hs : asString v <;> rw [hs] at hq
        · cases hq
        · obtain rfl := List.mem_singleton.mp hq
          rfl
      · obtain rfl := List.mem_singleton.mp hq
        rfl
      · cases hs : asRaw R v <;> rw [hs] at hq
        · cases hq
        · obtain rfl := List.mem_singleton.mp hq
          rfl
      · cases hq
  | _ =>
      obtain rfl := List.mem_singleton.mp hq
      rfl

end Method

/-! ## Frames -/

section Frames

variable {S : Bytes → σ → Option Reply × σ} {accepts : Reply → Prop} {qs : List Request}
  {commands : List (List Bytes)} {s : σ} {out : List Written} {o : Option σ}

theorem Request.Exact.of_isFrame {q : Request} {cmd : Cmd} {words : List Bytes}
    (hq : q.encode = .ok cmd) (h : Written.IsFrame words ⟨q.announced, cmd⟩) : q.Exact words :=
  ⟨cmd, hq, h.bytes, h.parse, h.whole, h.announced⟩

theorem Request.Exact.isFrame {q : Request} {cmd : Cmd} {words : List Bytes}
    (h : q.Exact words) (hq : q.encode = .ok cmd) :
    cmd.bytes = encodeCommand words ∧ Written.IsFrame words ⟨q.announced, cmd⟩ := by
  obtain ⟨cmd', hq', hbytes, hparse, hwhole, hannounced⟩ := h
  obtain rfl : cmd = cmd' := Except.ok.inj (hq.symm.trans hq')
  exact ⟨hbytes, hbytes, hparse, hwhole, hannounced⟩

/-- Requests that become the frames of their commands send these. -/
theorem Made.sent (h : Made S accepts qs s out o)
    (hqs : List.Forall₂ Request.Exact qs commands) :
    ∃ sent, Sent S accepts commands s sent o ∧ List.Forall₂ Written.IsFrame sent out := by
  induction h generalizing commands with
  | done s =>
      cases hqs
      exact ⟨[], .done s, .nil⟩
  | next hq hS hr hrest ih =>
      cases hqs with
      | cons hexact hqs =>
          obtain ⟨hbytes, hframe⟩ := hexact.isFrame hq
          obtain ⟨sent, hsent, hout⟩ := ih hqs
          exact ⟨_ :: sent, .next (hbytes ▸ hS) hr hsent, .cons hframe hout⟩
  | last hq hS ha =>
      cases hqs with
      | cons hexact hqs =>
          obtain ⟨hbytes, hframe⟩ := hexact.isFrame hq
          exact ⟨[_], .last (hbytes ▸ hS) ha, .cons hframe .nil⟩
  | refused hq s =>
      cases hqs with
      | cons hexact hqs =>
          rw [hexact.encode_eq] at hq
          cases hq

/-- Where every reply lets a call go on, all commands are sent. -/
theorem Sent.eq_of_accepted (hS : ∀ b s, ∃ r s', S b s = (some r, s') ∧ accepts r)
    {sent : List (List Bytes)} (h : Sent S accepts commands s sent o) : sent = commands := by
  induction h with
  | done => rfl
  | next h hr hrest ih => rw [ih]
  | @last words rest s s' a h ha =>
      obtain ⟨r, s'', hr, hgood⟩ := hS (encodeCommand words) s
      rw [h] at hr
      exact absurd hgood (ha r (congrArg Prod.fst hr))

/-- Requests that have left one frame for each of the commands are exact. -/
theorem Made.exact (h : Made S accepts qs s out o)
    (hS : ∀ b s, ∃ r s', S b s = (some r, s') ∧ accepts r)
    (hlen : qs.length = commands.length) (hout : List.Forall₂ Written.IsFrame commands out) :
    List.Forall₂ Request.Exact qs commands := by
  induction h generalizing commands with
  | done s =>
      cases hout
      exact .nil
  | next hq h hr hrest ih =>
      cases hout with
      | cons hframe hout => exact .cons (.of_isFrame hq hframe) (ih (Nat.succ.inj hlen) hout)
  | @last q qs cmd s s' a hq h ha =>
      obtain ⟨r, s'', hr, hgood⟩ := hS cmd.bytes s
      rw [h] at hr
      exact absurd hgood (ha r (congrArg Prod.fst hr))
  | refused hq s =>
      cases hout
      cases hlen

/-- One for each command. -/
theorem forall₂_exact_iff {fits : List Bytes → Prop}
    (h : List.Forall₂ Request.Encodes qs commands)
    (hfits : ∀ q ∈ qs, ∀ words, q.Fits words ↔ fits words) :
    List.Forall₂ Request.Exact qs commands ↔ ∀ words ∈ commands, fits words := by
  induction h with
  | nil => exact iff_of_true .nil (List.forall_mem_nil _)
  | cons hencodes hrest ih =>
      obtain ⟨hq, hqs⟩ := List.forall_mem_cons.mp hfits
      rw [List.forall₂_cons, List.forall_mem_cons, hencodes.exact_iff_fits, hq, ih hqs]

end Frames

namespace Method

/-- The output is one frame for each command if the requests are exact, and else it is not. -/
theorem writes_iff_exact {m : Method O} (hm : m.Sends) :
    m.Writes R ↔ List.Forall₂ Request.Exact (m.requests R) (m.commands R) := by
  have hmade {σ : Type} (S : Bytes → σ → Option Reply × σ) (s : σ) :=
    makes_code S (fun _ _ => hm.ncol_ne_zero (R := R)) (fun type htype => by
      rw [eq_of_plan_listen htype] at hm
      exact hm) s
  constructor
  · intro h
    -- integers let every call go on
    have hS (b : Bytes) (s : Unit) : ∃ r s', (fun (_ : Bytes) (s : Unit) =>
        (some (Reply.integer 0), s)) b s = (some r, s') ∧ (m.plan R).Accepts r := by
      refine ⟨.integer 0, s, rfl, ?_⟩
      cases m.plan R with
      | rows | ranges => rfl
      | channels => exact .integer 0
      | done | command | listen => trivial
    obtain ⟨sent, o, hsent, hout⟩ := h Unit (fun _ s => (some (.integer 0), s)) ()
    obtain ⟨o', hmade⟩ := hmade (fun _ s => (some (.integer 0), s)) ()
    rw [hsent.eq_of_accepted hS] at hout
    exact hmade.exact hS (encodes_commands hm.templated).length_eq hout
  · intro h σ S s
    obtain ⟨o, hmade⟩ := hmade S s
    obtain ⟨sent, hsent, hout⟩ := hmade.sent h
    exact ⟨sent, o, hsent, hout⟩

theorem exact_iff_fits {m : Method O} (hm : m.Templated) :
    List.Forall₂ Request.Exact (m.requests R) (m.commands R) ↔
      ∀ words ∈ m.commands R, m.Fits words :=
  forall₂_exact_iff (encodes_commands hm) fun _ hq => fits_iff hm hq

/-- **The wire encoding of the methods with a format or a vector.**  What a run appends to the
output buffer is one frame for each of its commands, which parses to the words and to nothing
else, exactly when the frames fit. -/
theorem writes_iff_fits {m : Method O} (hm : m.Sends) :
    m.Writes R ↔ ∀ words ∈ m.commands R, m.Fits words :=
  (writes_iff_exact hm).trans (exact_iff_fits hm.templated)

/-- A `set` whose key has a space and whose value is a percent sign. -/
theorem set_space_percent_written :
    Writes Runtime.onlyNull (.set (.ofAscii "a b") (.raw [37])) ∧
      (written (fun _ s => (some (.status (ascii "OK")), s))
        (code Runtime.onlyNull (.set (.ofAscii "a b") (.raw [37]))) ()).map (·.cmd.bytes) =
          [ascii "*3\r\n$3\r\nSET\r\n$3\r\na b\r\n$1\r\n%\r\n"] := by
  have hfits : (encodeCommand [ascii "SET", ascii "a b", [37]]).length + 1 <
      2 ^ 31 := by decide
  have hwrites := (writes_iff_fits (R := Runtime.onlyNull)
    (m := .set (.ofAscii "a b") (.raw [37])) trivial).mpr (List.forall_mem_singleton.mpr hfits)
  refine ⟨hwrites, ?_⟩
  obtain ⟨sent, o, hsent, hout⟩ :=
    hwrites Unit (fun _ s => (some (.status (ascii "OK")), s)) ()
  have hone : sent = [[ascii "SET", ascii "a b", [37]]] := by
    cases hsent with
    | next h hr hrest => cases hrest; rfl
    | last h ha => rfl
  rw [hone] at hout
  generalize written _ _ _ = out at hout ⊢
  cases hout with
  | cons hframe hnil =>
      cases hnil
      rw [List.map_singleton, hframe.bytes]
      decide

/-- A key whose `GET` has no room for its terminator. -/
theorem exists_length_get : ∃ key : CStr,
    (encodeCommand [ascii "GET", key.bytes]).length = 2 ^ 31 - 1 := by
  have hdigits : (decimal 0x7fffffe3).length = 10 := by simp [decimal]
  refine ⟨longKey 0x7fffffe3, ?_⟩
  rw [encodeCommand, List.length_append, length_header]
  simp only [List.map_cons, List.map_nil, List.flatten_cons, List.flatten_nil,
    List.length_append, length_bulk, length_longKey, hdigits]
  rfl

/-- A frame of `2 ^ 31 - 1` bytes is not written. -/
theorem get_int_max_not_written :
    ¬ ∀ m : Method Empty, m.Sends →
      (∀ words ∈ m.commands Runtime.onlyNull, (encodeCommand words).length < 2 ^ 31) →
        m.Writes Runtime.onlyNull := by
  intro h
  obtain ⟨key, hlen⟩ := exists_length_get
  have hwrites := h (.get key) trivial fun words hwords => by
    obtain rfl := List.mem_singleton.mp hwords
    omega
  have hexact := (writes_iff_exact (m := .get key) trivial).mp hwrites
  have hfits : (encodeCommand [ascii "GET", key.bytes]).length + 1 < 2 ^ 31 :=
    (exact_iff_fits (m := .get key) trivial).mp hexact _ (List.mem_singleton_self _)
  omega

end Method

end RcppRedis
