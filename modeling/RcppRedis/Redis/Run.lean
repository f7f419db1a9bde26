import RcppRedis.Redis.ReaderSpec
import RcppRedis.Lib.Binary64Bytes

/-!
# Runs of methods

How a request, a reader and a loop run in an environment.  The equations here are the
only place where the handler of `Env` is unfolded; what is proved of methods later goes
through them.

* `run_requestNULLSafe_bind` — a request: the reply is acquired, or the method ends.
* `run_thenFree`, `run_request_reader` — a reader: its value, and what it frees.
* `scripted` — the environment that answers from a list.
-/

namespace RcppRedis

open Bytes Hiredis Interact Code Prog

variable {O : Type} {R : Runtime O} {σ α β : Type} (E : Env σ)

/-! ## Instructions -/

namespace World

/-- The world after a reply was handed out. -/
def acquire (w : World σ) (s : σ) (r : Reply) : World σ :=
  ⟨s, { w.ledger with acquired := w.ledger.acquired ++ [r] }⟩

/-- The pointer to a reply that is handed out next. -/
def pointer (w : World σ) (r : Reply) : Pointer := ⟨w.ledger.acquired.length, [], r⟩

/-- The world after a node was freed. -/
def release (w : World σ) (p : Pointer) : World σ := { w with ledger := w.ledger.release p }

@[simp] theorem acquired_acquire (w : World σ) (s : σ) (r : Reply) :
    (w.acquire s r).ledger.acquired = w.ledger.acquired ++ [r] := rfl
@[simp] theorem acquired_release (w : World σ) (p : Pointer) :
    (w.release p).ledger.acquired = w.ledger.acquired := rfl
@[simp] theorem env_acquire (w : World σ) (s : σ) (r : Reply) : (w.acquire s r).env = s := rfl
@[simp] theorem env_release (w : World σ) (p : Pointer) : (w.release p).env = w.env := rfl

end World

/-- How a request ends, and what follows it with a reply in hand. -/
def afterRequest (q : Request) (k : Pointer → World σ → Outcome RError Fault α × World σ)
    (w : World σ) : Outcome RError Fault α × World σ :=
  match E.request q w.env with
  | (.answer (some r), s) => k (w.pointer r) (w.acquire s r)
  | (.answer none, s) => (.raise (.stop nullReplyMessage), { w with env := s })
  | (.fault f, s) => (.fault f, { w with env := s })
  | (.blocked, s) => (.blocked, { w with env := s })

theorem run_requestNULLSafe_bind (q : Request) (k : Pointer → Code α) (w : World σ) :
    run E.handler (requestNULLSafe q >>= k) w =
      afterRequest E q (fun p w' => run E.handler (k p) w') w := by
  have hcall : requestNULLSafe q >>= k =
      .call (.request q) fun reply => nullReplyCheck reply >>= k := rfl
  rw [hcall, run_call, Env.handler, afterRequest]
  rcases E.request q w.env with ⟨⟨_ | _⟩ | _ | _, s⟩ <;> rfl

/-- `listen` does not check for NULL. -/
theorem run_listen (type : CStr) (w : World σ) :
    run E.handler (listen R type) w =
      match E.request .getReply w.env with
      | (.answer (some r), s) =>
          run E.handler (thenFree (w.pointer r) (listenValue R type (w.pointer r)))
            (w.acquire s r)
      | (.answer none, s) => (.fault .unsetReply, { w with env := s })
      | (.fault f, s) => (.fault f, { w with env := s })
      | (.blocked, s) => (.blocked, { w with env := s }) := by
  have hcall : listen R type = .call (.request .getReply) (listenReply R type) := rfl
  rw [hcall, run_call, Env.handler]
  rcases E.request .getReply w.env with ⟨⟨_ | _⟩ | _ | _, s⟩ <;> rfl

theorem run_free_bind (p : Pointer) (k : Unit → Code α) (w : World σ) :
    run E.handler (.call (.freeReplyObject p) k) w = run E.handler (k ()) (w.release p) :=
  run_call_answer E.handler (i := .freeReplyObject p) rfl k

/-- A value is read, and the reply is freed if it could be. -/
theorem run_thenFree {x : Code α} (hx : Leaf x) (p : Pointer) (w : World σ) :
    run E.handler (thenFree p x) w =
      match run E.handler x w with
      | (.ret a, w') => (.ret a, w'.release p)
      | o => o := by
  cases hx with
  | ret a => exact run_free_bind E p _ w
  | raise e => rfl
  | fault f => rfl

theorem run_thenFree_ret (a : α) (p : Pointer) (w : World σ) :
    run E.handler (thenFree p (.ret a)) w = (.ret a, w.release p) := run_free_bind E p _ w
theorem run_thenFree_ret_bind (a : α) (p : Pointer) (k : α → Code β) (w : World σ) :
    run E.handler (thenFree p (.ret a) >>= k) w = run E.handler (k a) (w.release p) :=
  run_free_bind E p (fun _ => k a) w
theorem run_thenFree_raise (e : RError) (p : Pointer) (w : World σ) :
    run E.handler (thenFree p (.raise e : Code α)) w = (.raise e, w) := rfl
theorem run_thenFree_fault (f : Fault) (p : Pointer) (w : World σ) :
    run E.handler (thenFree p (.fault f : Code α)) w = (.fault f, w) := rfl

/-- The value that is returned is the one that was read. -/
theorem run_thenFree_ret_iff {x : Code α} (hx : Leaf x) {p : Pointer} {w : World σ} {a : α} :
    (run E.handler (thenFree p x) w).1 = .ret a ↔ x = .ret a := by
  cases hx with
  | ret b => simp [run_thenFree_ret]
  | raise e => simp [run_thenFree_raise]
  | fault f => simp [run_thenFree_fault]

/-- **The run of an extraction.**  It returns; or its root is an error and is freed; or it
is left below its root, with at most a node below the root freed. -/
theorem run_extractReply_bind (p : Pointer) (f : SEXP O → Code α) (w : World σ) :
    (p.node.Extractable ∧ ∃ x, extractReply p = .ret x ∧
      run E.handler (extractReply p >>= f) w = run E.handler (f x) w) ∨
    (p.node.isError = true ∧ ¬ p.node.Extractable ∧ ∃ e,
      run E.handler (extractReply p >>= f) w = (.raise e, w.release p)) ∨
    (p.node.isError = false ∧ ¬ p.node.Extractable ∧ ∃ e w',
      run E.handler (extractReply p >>= f) w = (.raise e, w') ∧
        (w' = w ∨ ∃ i sub node, w' = w.release ⟨p.id, p.path ++ i :: sub, node⟩)) := by
  rcases extractReply_ends (O := O) p with ⟨hr, x, hx⟩ | ⟨str, hr, hx⟩ | ⟨hr, herror, hx⟩
  · exact .inl ⟨hr, x, hx, by rw [hx, ret_bind]⟩
  · refine .inr (.inl ⟨by rw [hr]; rfl, ?_, .stop (cString str), ?_⟩)
    · rw [hr]
      rintro ⟨⟩
    · rw [hx]
      exact run_free_bind E p _ w
  · refine .inr (.inr ⟨herror, hr, ?_⟩)
    generalize extractReply (O := O) p = x at hx ⊢
    cases hx with
    | raise e => exact ⟨e, w, rfl, .inl rfl⟩
    | free i sub str e => exact ⟨e, _, run_free_bind E _ _ w, .inr ⟨i, sub, _, rfl⟩⟩

/-- The extraction of a reply, and its release, have defined behaviour. -/
theorem run_extract_ne_fault (p : Pointer) (w : World σ) (f : Fault) :
    (run E.handler (thenFree p (extractReply (O := O) p)) w).1 ≠ .fault f := by
  rcases run_extractReply_bind E p (fun x : SEXP O => freeReplyObject p >>= fun _ => pure x)
    w with
    ⟨-, x, hx, -⟩ | ⟨-, -, e, he⟩ | ⟨-, -, e, w', he, -⟩
  · rw [hx, run_thenFree_ret]
    rintro ⟨⟩
  · rw [thenFree, he]
    rintro ⟨⟩
  · rw [thenFree, he]
    rintro ⟨⟩

/-- The run of the extraction of several children.  It returns, or it is left with at most a
node below the parent freed. -/
theorem run_mapM_extractReply_bind (p : Pointer) {l : List Pointer} (hl : ∀ q ∈ l, q.IsChild p)
    (f : List (SEXP O) → Code α) (w : World σ) :
    ((∀ q ∈ l, q.node.Extractable) ∧ ∃ xs, l.mapM extractReply = .ret xs ∧
      run E.handler (l.mapM extractReply >>= f) w = run E.handler (f xs) w) ∨
    ((¬ ∀ q ∈ l, q.node.Extractable) ∧ ∃ e w',
      run E.handler (l.mapM extractReply >>= f) w = (.raise e, w') ∧
        (w' = w ∨ ∃ i sub node, w' = w.release ⟨p.id, p.path ++ i :: sub, node⟩)) := by
  induction l generalizing f with
  | nil => exact .inl ⟨by simp, [], rfl, rfl⟩
  | cons q l ih =>
      obtain ⟨⟨i, hid, hpath⟩, hl⟩ := List.forall_mem_cons.mp hl
      rw [List.mapM_cons, Prog.bind_assoc]
      rcases run_extractReply_bind E q
        (fun x => (l.mapM extractReply >>= fun xs => pure (x :: xs)) >>= f) w
        with ⟨hq, x, hx, hrun⟩ | ⟨-, hq, e, hrun⟩ | ⟨-, hq, e, w', hrun, hw'⟩
      · rw [hrun, Prog.bind_assoc, hx]
        rcases ih hl fun xs => pure (x :: xs) >>= f with ⟨hall, xs, hxs, hrest⟩ | ⟨hall, hrest⟩
        · exact .inl ⟨List.forall_mem_cons.mpr ⟨hq, hall⟩, x :: xs, by rw [hxs]; rfl, hrest⟩
        · exact .inr ⟨fun h => hall (List.forall_mem_cons.mp h).2, hrest⟩
      · refine .inr ⟨fun h => hq (List.forall_mem_cons.mp h).1, e, _, hrun,
          .inr ⟨i, [], q.node, ?_⟩⟩
        rw [← hid, ← hpath]
      · refine .inr ⟨fun h => hq (List.forall_mem_cons.mp h).1, e, w', hrun, ?_⟩
        rcases hw' with rfl | ⟨j, sub, node, rfl⟩
        · exact .inl rfl
        · refine .inr ⟨i, j :: sub, node, ?_⟩
          rw [hid, hpath, List.append_assoc, List.singleton_append]

/-- A request that is answered, and a reader that calls nothing before it frees: how the method
ends is how the reader does. -/
theorem run_request_reader {q : Request} {r : Reply} {s : σ}
    (hs : (E.request q s).1 = .answer (some r)) {rd : Reader} (hget : rd ≠ .hget)
    (hextract : rd ≠ .extract) :
    ∃ w, (E.run (requestNULLSafe q >>= rd.code R) s).1 =
      (run E.handler (rd.value R ⟨0, [], r⟩) w).1 := by
  rcases hrequest : E.request q s with ⟨answer, s'⟩
  rw [hrequest] at hs
  simp only at hs
  subst hs
  refine ⟨World.acquire ⟨s, {}⟩ s' r, ?_⟩
  rw [Env.run, run_requestNULLSafe_bind, afterRequest, hrequest]
  simp only
  rw [Reader.code_of_ne hget, run_thenFree E (leaf_value hextract _)]
  simp only [World.pointer, List.length_nil]
  rcases run E.handler (rd.value R ⟨0, [], r⟩) (World.acquire ⟨s, {}⟩ s' r) with
    ⟨_ | _ | _ | _, w⟩ <;> rfl

/-! ## What a method can do to the ledger -/

/-- The instruction frees a reply. -/
def Instr.Frees : Instr → Prop
  | .freeReplyObject _ => True
  | _ => False

/-- The instruction frees a reply, or is one of the given requests. -/
def Instr.FreesOr (qs : List Request) : Instr → Prop
  | .freeReplyObject _ => True
  | .request q => q ∈ qs
  | _ => False

theorem Instr.Frees.or {i : Instr} (h : i.Frees) (qs : List Request) : i.FreesOr qs := by
  cases i <;> first | exact h | trivial

theorem only_thenFree {x : Code α} (hx : Only Instr.Frees x) (p : Pointer) :
    Only Instr.Frees (thenFree p x) :=
  hx.bind fun a => .call (Instr.freeReplyObject p) _ trivial fun _ => .ret a

theorem only_extractReply (p : Pointer) : Only Instr.Frees (extractReply (O := O) p) := by
  rcases extractReply_ends (O := O) p with ⟨-, x, hx⟩ | ⟨str, hr, hx⟩ | ⟨-, -, hx⟩
  · rw [hx]
    exact .ret x
  · rw [hx]
    exact .call _ _ trivial fun _ => .raise _
  · generalize extractReply (O := O) p = x at hx ⊢
    cases hx with
    | raise e => exact .raise e
    | free i sub str e => exact .call _ _ trivial fun _ => .raise e

theorem leaf_listenPayload (type : CStr) (l : List Pointer) :
    Leaf (listenPayload R type l) := by
  induction l with
  | nil => exact .ret []
  | cons node rest ih =>
      rw [listenPayload]
      split_ifs
      · exact (leaf_stringOf node).bind fun s => .ret _
      · refine (leaf_rawOf node).bind fun res => Leaf.bind ?_ fun x => ih.bind fun xs => .ret _
        rw [listenObject, unserializeFromRaw]
        split_ifs
        · exact .ret _
        · split
          · exact .raise _
          · exact .ret _

theorem only_listenValue (type : CStr) (p : Pointer) :
    Only Instr.Frees (listenValue R type p) := by
  refine (Only.mapM fun q _ => only_extractReply q).bind fun header => ?_
  exact (leaf_listenPayload type _).only.bind fun rest => .ret _

/-- A reader only frees. -/
theorem only_code (rd : Reader) (p : Pointer) : Only Instr.Frees (rd.code R p) := by
  by_cases hget : rd = .hget
  · subst hget
    refine (only_thenFree (leaf_rawOf p).only p).bind fun res => ?_
    rw [unserializeFromRaw]
    split
    · exact .raise _
    · exact .ret _
  · rw [Reader.code_of_ne hget]
    refine only_thenFree ?_ p
    by_cases hextract : rd = .extract
    · subst hextract
      exact only_extractReply p
    · exact (leaf_value hextract p).only

/-- A request and a reader of its reply. -/
theorem only_request {q : Request} {qs : List Request} (hq : q ∈ qs) {k : Pointer → Code α}
    (hk : ∀ p, Only Instr.Frees (k p)) :
    Only (Instr.FreesOr qs) (requestNULLSafe q >>= k) := by
  refine .call (Instr.request q) _ hq fun reply => ?_
  cases reply with
  | none => exact .raise _
  | some p => exact (hk p).mono fun i hi => hi.or qs

theorem only_zaddRow (key : CStr) (res : Double) {y : List Double} {qs : List Request}
    (hq : zaddRequest key (y.headD 0) y ∈ qs) :
    Only (Instr.FreesOr qs) (zaddRow key res y) := by
  cases y with
  | nil => exact .fault _
  | cons score y =>
      refine only_request hq fun p => only_thenFree ?_ p
      exact ((leaf_doubleOf p).bind fun _ => .ret _).only

theorem leaf_listToMatrix (Z : List (List Double)) : Leaf (listToMatrix (O := O) Z) := by
  cases Z with
  | nil => exact .fault _
  | cons first Z =>
      refine (Leaf.mapM (fun z => ?_) _).bind fun _ => .ret _
      split_ifs
      · exact .raise _
      · exact .ret _

/-- The methods that make no request call nothing. -/
theorem leaf_of_plan_done {m : Method O} {p : Code (SEXP O)} (h : m.plan R = .done p) :
    Leaf p := by
  rcases Method.eq_of_plan_done h with ⟨Z, -, rfl⟩ | ⟨e, rfl⟩ | ⟨x, rfl⟩
  · exact leaf_listToMatrix Z
  · exact .raise e
  · exact .ret x

/-- **A method makes the requests of its plan**, and else only frees. -/
theorem only_method (m : Method O) : Only (Instr.FreesOr (m.requests R)) (m.code R) := by
  rw [Method.code_eq, Method.requests]
  cases hplan : m.plan R with
  | done p => exact (leaf_of_plan_done hplan).only
  | command q rd => exact only_request List.mem_cons_self fun p => only_code rd p
  | rows key x =>
      refine (Only.foldlM (fun res y hy => ?_) _).bind fun _ => .ret _
      exact only_zaddRow key res (List.mem_map_of_mem hy)
  | ranges keyvec min max =>
      refine (Only.mapM fun key hkey => ?_).bind fun _ => .ret _
      exact only_request (List.mem_map_of_mem hkey) fun p =>
        only_thenFree (leaf_doubleOf p).only p
  | channels cs type =>
      refine (Only.mapM fun c hc => ?_).bind fun _ => .ret _
      exact only_request (List.mem_map_of_mem hc) fun p =>
        only_thenFree (only_extractReply p) p
  | listen type =>
      refine .call (Instr.request .getReply) _ List.mem_cons_self fun reply => ?_
      cases reply with
      | none => exact .fault _
      | some p => exact (only_thenFree (only_listenValue type p) p).mono fun i hi => hi.or _

/-- A program that only frees hands out no reply and leaves the environment alone. -/
theorem run_frees {p : Code α} (hp : Only Instr.Frees p) (w : World σ) :
    (run E.handler p w).2.ledger.acquired = w.ledger.acquired ∧
      (run E.handler p w).2.env = w.env := by
  refine run_invariant E.handler (fun w' => w'.ledger.acquired = w.ledger.acquired ∧
    w'.env = w.env) (fun i s hi hs => ?_) hp w ⟨rfl, rfl⟩
  cases i with
  | freeReplyObject p => exact hs
  | _ => cases hi

/-! ## Sessions -/

/-- Calls one after the other on one object, each with how it ends and the environment after
it.  A call that raises is followed by the next one; one that faults or waits forever is the
last. -/
def Env.session (E : Env σ) : List (Code α) → σ → List (Outcome RError Fault α × σ)
  | [], _ => []
  | p :: ps, s =>
      match E.run p s with
      | (.ret a, w) => (.ret a, w.env) :: E.session ps w.env
      | (.raise e, w) => (.raise e, w.env) :: E.session ps w.env
      | (.fault f, w) => [(.fault f, w.env)]
      | (.blocked, w) => [(.blocked, w.env)]

/-- A session starts with the run of its first call. -/
theorem session_cons (p : Code α) (ps : List (Code α)) (s : σ) :
    ∃ rest, E.session (p :: ps) s = ((E.run p s).1, (E.run p s).2.env) :: rest := by
  rw [Env.session]
  rcases E.run p s with ⟨_ | _ | _ | _, w⟩ <;> exact ⟨_, rfl⟩

theorem session_cons_raise {E : Env σ} {p : Code α} {s : σ} {e : RError} {w : World σ}
    (h : E.run p s = (.raise e, w)) (ps : List (Code α)) :
    E.session (p :: ps) s = (.raise e, w.env) :: E.session ps w.env := by
  rw [Env.session, h]

theorem session_singleton {E : Env σ} (p : Code α) (s : σ) :
    E.session [p] s = [((E.run p s).1, (E.run p s).2.env)] := by
  rw [Env.session]
  rcases E.run p s with ⟨_ | _ | _ | _, w⟩ <;> rfl

theorem session_cons_ret {E : Env σ} {p : Code α} {s : σ} {a : α} {w : World σ}
    (h : E.run p s = (.ret a, w)) (ps : List (Code α)) :
    E.session (p :: ps) s = (.ret a, w.env) :: E.session ps w.env := by
  rw [Env.session, h]

/-- Every call of a session is made in a state where `good` holds. -/
def Env.Throughout {ι : Type} (E : Env σ) (code : ι → Code α) (good : ι → σ → Prop) :
    List ι → σ → Prop
  | [], _ => True
  | c :: cs, s =>
      good c s ∧
        ((E.run (code c) s).1.Ended → E.Throughout code good cs (E.run (code c) s).2.env)

theorem Env.Throughout.head {ι : Type} {E : Env σ} {code : ι → Code α}
    {good : ι → σ → Prop} {c : ι} {cs : List ι} {s : σ}
    (h : E.Throughout code good (c :: cs) s) : good c s := h.1

/-- A session whose first call is known. -/
theorem throughout_cons {ι : Type} {E : Env σ} {code : ι → Code α}
    {good : ι → σ → Prop} {c : ι} {cs : List ι} {s : σ} {o : Outcome RError Fault α}
    {w : World σ} (h : E.run (code c) s = (o, w)) (ho : o.Ended) :
    E.Throughout code good (c :: cs) s ↔ good c s ∧ E.Throughout code good cs w.env := by
  rw [Env.Throughout, h]
  simp [ho]

/-- **Induction along a session.**  What one call makes of `good` under an invariant, and the
invariant that it keeps, hold of all calls. -/
theorem throughout_of_step {ι : Type} {E : Env σ} {code : ι → Code α}
    {good good' : ι → σ → Prop} (inv : σ → Prop) {cs : List ι}
    (hstep : ∀ c ∈ cs, ∀ s, inv s → good c s →
      good' c s ∧ ((E.run (code c) s).1.Ended → inv (E.run (code c) s).2.env))
    {s : σ} (hs : inv s) (h : E.Throughout code good cs s) : E.Throughout code good' cs s := by
  induction cs generalizing s with
  | nil => trivial
  | cons c cs ih =>
      obtain ⟨hc, hrest⟩ := h
      obtain ⟨hgood, hinv⟩ := hstep c List.mem_cons_self s hs hc
      refine ⟨hgood, fun hended => ?_⟩
      exact ih (fun c' hc' => hstep c' (List.mem_cons_of_mem c hc')) (hinv hended)
        (hrest hended)

/-! ## Concrete environments -/

/-- What `serialize(NULL, NULL)` yields. -/
def serializedNull : Bytes :=
  [0x58, 0x0a, 0, 0, 0, 3, 0, 4, 3, 1, 0, 3, 5, 0, 0, 0, 0, 5, 0x55, 0x54, 0x46, 0x2d, 0x38,
    0, 0, 0, 0xfe]

/-- A runtime that knows one object, NULL. -/
def Runtime.onlyNull : Runtime Empty where
  serializeToRaw _ := serializedNull
  unserializeFromRaw b := if b = serializedNull then some .null else none
  coerceToRaw _ := none
  msgpackRow _ := none
  castOutOfRange _ := Int32.minValue

/-- What precedes the bytes of the number in what `serialize` yields for a single one. -/
def serializedNumber : Bytes := serializedNull.take 23 ++ [0, 0, 0, 0x0e, 0, 0, 0, 1]

/-- A runtime that knows NULL and single numbers, whose bytes it writes in reverse. -/
def Runtime.numbers : Runtime Empty where
  serializeToRaw
    | .real [d] => serializedNumber ++ d.toBytes.reverse
    | _ => serializedNull
  unserializeFromRaw b :=
    if b = serializedNull then some .null
    else if b.take 31 = serializedNumber then some (.real [.ofBytes (b.drop 31).reverse])
    else none
  coerceToRaw _ := none
  msgpackRow _ := none
  castOutOfRange _ := Int32.minValue

theorem Runtime.numbers_recovers (d : Double) :
    numbers.unserializeFromRaw (numbers.serializeToRaw (.real [d])) = some (.real [d]) := by
  have hhead : (serializedNumber ++ d.toBytes.reverse).take 31 = serializedNumber :=
    List.take_left' rfl
  have hrest : (serializedNumber ++ d.toBytes.reverse).drop 31 = d.toBytes.reverse :=
    List.drop_left' rfl
  have hne : serializedNumber ++ d.toBytes.reverse ≠ serializedNull := by
    intro h
    have hlen := congrArg List.length h
    rw [List.length_append, List.length_reverse, Double.length_toBytes] at hlen
    revert hlen
    decide
  simp only [numbers, if_neg hne, if_pos hhead, hrest, List.reverse_reverse,
    Double.ofBytes_toBytes]

/-- The answers that a script has left.  When there are none the connection is lost. -/
structure Script where
  errstr : Option CStr := none
  answers : List (Option Reply)

/-- The environment that reads its answers from a script. -/
def scripted : Env Script where
  request _ s :=
    match s.answers with
    | [] => (.answer none, s)
    | a :: rest => (.answer a, { s with answers := rest })
  connect _ _ _ s := (s.errstr, s)

theorem afterRequest_scripted (q : Request)
    (k : Pointer → World Script → Outcome RError Fault α × World Script) (w : World Script) :
    afterRequest scripted q k w =
      match w.env.answers with
      | [] => (.raise (.stop nullReplyMessage), w)
      | none :: rest =>
          (.raise (.stop nullReplyMessage), { w with env := { w.env with answers := rest } })
      | some r :: rest => k (w.pointer r) (w.acquire { w.env with answers := rest } r) := by
  rw [afterRequest]
  simp only [scripted]
  cases w.env.answers with
  | nil => rfl
  | cons a rest => cases a <;> rfl

end RcppRedis
