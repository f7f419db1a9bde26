import RcppRedis.Redis.Fields

/-!
# Who frees a reply

A reply belongs to the method that asked for it.  `Released` says that a run has ended in
R, with a value or an error, and that every node of every reply it was handed has been
freed once.  The ledger of the run is what this is about.

A method frees its reply after it has read it, so a reply that cannot be read is left
behind by the R error.  Two paths are different: an error reply is freed before its text
is raised, and `hget` frees before it unserializes.

* `released_thenFree_iff` — what is read and then freed is released when it could be read.
* `LoopReleases` — the answers that a method with several commands releases.
* `released_iff_releases` — which runs release all they were handed.
-/

namespace RcppRedis

open Bytes Hiredis Interact Code Prog

variable {O : Type} {R : Runtime O} {σ α β : Type} {E : Env σ}

/-! ## The ledger -/

namespace Ledger

theorem nodesFrom_append (k : ℕ) (rs : List Reply) (r : Reply) :
    nodesFrom k (rs ++ [r]) =
      nodesFrom k rs ++ r.nodes.map fun path => (k + rs.length, path) := by
  induction rs generalizing k with
  | nil => simp [nodesFrom]
  | cons s rs ih =>
      rw [List.cons_append, nodesFrom, ih, nodesFrom, List.append_assoc, List.length_cons,
        Nat.add_right_comm, Nat.add_assoc]

theorem lt_of_mem_nodesFrom {k id : ℕ} {path : List ℕ} {rs : List Reply}
    (h : (id, path) ∈ nodesFrom k rs) : id < k + rs.length := by
  induction rs generalizing k with
  | nil => cases h
  | cons s rs ih =>
      rw [nodesFrom, List.mem_append, List.mem_map] at h
      rw [List.length_cons]
      rcases h with ⟨path', -, heq⟩ | h
      · cases heq
        omega
      · have := ih h
        omega

theorem balanced_empty : Balanced {} := List.Perm.refl _

/-- A balanced ledger has freed the root of every reply. -/
theorem Balanced.root_mem {l : Ledger} (h : l.Balanced) {rs : List Reply} {r : Reply}
    (hl : l.acquired = rs ++ [r]) : (rs.length, []) ∈ l.released := by
  rw [Balanced, hl, nodesFrom_append] at h
  refine h.mem_iff.mpr (List.mem_append_right _ ?_)
  simpa using r.nil_mem_nodes

/-- What was not handed out yet was not freed either. -/
theorem Balanced.notMem {l : Ledger} (h : l.Balanced) (path : List ℕ) :
    (l.acquired.length, path) ∉ l.released := by
  intro hmem
  have := lt_of_mem_nodesFrom (h.mem_iff.mp hmem)
  omega

end Ledger

namespace World

/-- The whole reply is freed. -/
theorem balanced_release {w : World σ} (h : w.ledger.Balanced) (s : σ) (r : Reply) :
    ((w.acquire s r).release (w.pointer r)).ledger.Balanced := by
  rw [Ledger.Balanced] at h ⊢
  simp only [acquire, release, pointer, Ledger.release, List.nil_append]
  rw [Ledger.nodesFrom_append, Nat.zero_add]
  exact h.append_right _

/-- Nothing is freed. -/
theorem not_balanced_acquire {w : World σ} (h : w.ledger.Balanced) (s : σ) (r : Reply) :
    ¬ (w.acquire s r).ledger.Balanced :=
  fun hb => h.notMem [] (hb.root_mem rfl)

/-- A node below the root is freed, the root is not. -/
theorem not_balanced_release_child {w : World σ} (h : w.ledger.Balanced) (s : σ) (r : Reply)
    (i : ℕ) (sub : List ℕ) (node : Reply) :
    ¬ ((w.acquire s r).release ⟨(w.pointer r).id, (w.pointer r).path ++ i :: sub,
      node⟩).ledger.Balanced := by
  intro hb
  have hacquired : (w.acquire s r).ledger.acquired = w.ledger.acquired ++ [r] := rfl
  have hroot := hb.root_mem hacquired
  simp only [acquire, release, pointer, Ledger.release, List.mem_append, List.mem_map,
    List.nil_append] at hroot
  rcases hroot with hroot | ⟨path, -, heq⟩
  · exact h.notMem [] hroot
  · simp at heq

/-- Nothing is freed, or only a node below the root. -/
theorem not_balanced_of_below {w w' : World σ} (h : w.ledger.Balanced) {s : σ} {r : Reply}
    (hw' : w' = w.acquire s r ∨ ∃ i sub node,
      w' = (w.acquire s r).release ⟨(w.pointer r).id, (w.pointer r).path ++ i :: sub, node⟩) :
    ¬ w'.ledger.Balanced := by
  rcases hw' with rfl | ⟨i, sub, node, rfl⟩
  · exact w.not_balanced_acquire h s r
  · exact w.not_balanced_release_child h s r i sub node

end World

/-! ## Runs that release what they were handed -/

/-- The run has ended in R and has freed every node that it was handed, once. -/
def Released (r : Outcome RError Fault α × World σ) : Prop := r.1.Ended ∧ r.2.ledger.Balanced

theorem released_thenFree_iff {x : Code α} (hx : Leaf x) {w : World σ} (hw : w.ledger.Balanced)
    (s : σ) (r : Reply) :
    Released (run E.handler (thenFree (w.pointer r) x) (w.acquire s r)) ↔ Returns x := by
  cases hx with
  | ret a =>
      rw [run_thenFree_ret]
      exact iff_of_true ⟨trivial, w.balanced_release hw s r⟩ ⟨a, rfl⟩
  | raise e =>
      exact iff_of_false (fun h => w.not_balanced_acquire hw s r h.2) (not_returns_raise e)
  | fault f => exact iff_of_false (fun h => h.1) (not_returns_fault f)

/-- The extraction of a tree: an error node at the root is freed by the extraction itself. -/
theorem released_extract_iff {w : World σ} (hw : w.ledger.Balanced) (s : σ) (r : Reply) :
    Released (run E.handler (thenFree (w.pointer r) (extractReply (O := O) (w.pointer r)))
      (w.acquire s r)) ↔ r.Extractable ∨ r.isError = true := by
  rcases run_extractReply_bind E (w.pointer r)
    (fun x : SEXP O => freeReplyObject (w.pointer r) >>= fun _ => pure x) (w.acquire s r) with
    ⟨hr, x, hx, -⟩ | ⟨herror, -, e, hrun⟩ | ⟨herror, hr, e, w', hrun, hw'⟩
  · rw [hx, run_thenFree_ret]
    exact iff_of_true ⟨trivial, w.balanced_release hw s r⟩ (.inl hr)
  · rw [thenFree, hrun]
    exact iff_of_true ⟨trivial, w.balanced_release hw s r⟩ (.inr herror)
  · rw [thenFree, hrun]
    refine iff_of_false (fun h => w.not_balanced_of_below hw hw' h.2) ?_
    rintro (h | h)
    · exact hr h
    · exact absurd h (by rw [show r.isError = false from herror]; decide)

/-- The replies that a reader releases. -/
def Reader.Releases (R : Runtime O) : Reader → Reply → Prop
  | .extract, r => r.Extractable ∨ r.isError = true
  | .hget, r => 0 ≤ toInt32 r.len
  | rd, r => rd.Reads R r

/-- **A reader releases a reply** when it can be read; an error reply also when it is
extracted, and `hget` frees before it looks at the bytes. -/
theorem released_code_iff (rd : Reader) {w : World σ} (hw : w.ledger.Balanced) (s : σ)
    (r : Reply) :
    Released (run E.handler (rd.code R (w.pointer r)) (w.acquire s r)) ↔ rd.Releases R r := by
  by_cases hextract : rd = .extract
  · subst hextract
    exact released_extract_iff hw s r
  by_cases hget : rd = .hget
  · subst hget
    rw [Reader.code, rawOf_eq, Reader.Releases]
    split_ifs with hlen
    · refine iff_of_false (fun h => w.not_balanced_acquire hw s r h.2) ?_
      exact fun h => absurd hlen (not_lt.mpr h)
    · rw [run_thenFree_ret_bind, unserializeFromRaw]
      refine iff_of_true ?_ (not_lt.mp hlen)
      split <;> exact ⟨trivial, w.balanced_release hw s r⟩
  · rw [Reader.code_of_ne hget, released_thenFree_iff (leaf_value hextract _) hw,
      returns_value_iff]
    cases rd <;> first | rfl | exact absurd rfl hextract | exact absurd rfl hget

/-! ## Methods with several commands -/

/-- The answers to `n` commands that are released: the method goes on at a `good` reply, and
ends with all released at a reply that is `freed` before the error, or at no reply. -/
def LoopReleases (good freed : Reply → Prop) : ℕ → List (Option Reply) → Prop
  | 0, _ => True
  | _ + 1, [] => True
  | _ + 1, none :: _ => True
  | n + 1, some r :: rest => (good r ∧ LoopReleases good freed n rest) ∨ (¬ good r ∧ freed r)

section Loop

variable {good freed : Reply → Prop}

/-- One command: it returns at a good reply and ends the method at any other. -/
def StepReleases (good freed : Reply → Prop) (p : Code α) : Prop :=
  ∀ w : World Script, w.ledger.Balanced →
    (∃ r rest, w.env.answers = some r :: rest ∧ good r ∧
      ∃ a w', run scripted.handler p w = (.ret a, w') ∧ w'.ledger.Balanced ∧
        w'.env.answers = rest) ∨
    ((∀ a, (run scripted.handler p w).1 ≠ .ret a) ∧
      (∀ r rest, w.env.answers = some r :: rest → ¬ good r) ∧
      (Released (run scripted.handler p w) ↔ LoopReleases good freed 1 w.env.answers))

/-- Several commands. -/
def RunReleases (good freed : Reply → Prop) (n : ℕ) (p : Code α) : Prop :=
  ∀ w : World Script, w.ledger.Balanced →
    (Released (run scripted.handler p w) ↔ LoopReleases good freed n w.env.answers)

theorem runReleases_ret (a : α) : RunReleases good freed 0 (.ret a) :=
  fun _ hw => iff_of_true ⟨trivial, hw⟩ trivial

/-- A run that ends early is not changed by what would follow. -/
theorem released_bind_of_ne_ret {p : Code α} (f : α → Code β) {w : World σ}
    (h : ∀ a, (run E.handler p w).1 ≠ .ret a) :
    Released (run E.handler (p >>= f) w) ↔ Released (run E.handler p w) := by
  rw [run_bind]
  rcases hrun : run E.handler p w with ⟨a | e | e | _, w'⟩
  · exact absurd (by rw [hrun]) (h a)
  · rfl
  · rfl
  · rfl

theorem StepReleases.bind {p : Code α} (hp : StepReleases good freed p) {n : ℕ}
    {f : α → Code β} (hf : ∀ a, RunReleases good freed n (f a)) :
    RunReleases good freed (n + 1) (p >>= f) := by
  intro w hw
  rcases hp w hw with ⟨r, rest, hanswers, hgood, a, w', hrun, hw', hrest⟩ | ⟨hret, hbad, hiff⟩
  · rw [run_bind, hrun, andThen_ret, hf a w' hw', hanswers, hrest, LoopReleases]
    simp [hgood]
  · rw [released_bind_of_ne_ret f hret, hiff]
    rcases hanswers : w.env.answers with _ | ⟨_ | r, rest⟩
    · rfl
    · rfl
    · have hr := hbad r rest hanswers
      simp [LoopReleases, hr]

theorem RunReleases.map {p : Code α} {n : ℕ} (hp : RunReleases good freed n p) (g : α → β) :
    RunReleases good freed n (p >>= fun a => pure (g a)) := by
  intro w hw
  rw [← hp w hw, run_bind]
  rcases run scripted.handler p w with ⟨a | e | e | _, w'⟩ <;> rfl

theorem StepReleases.mapM {f : α → Code β} {l : List α}
    (hf : ∀ a ∈ l, StepReleases good freed (f a)) :
    RunReleases good freed l.length (l.mapM f) := by
  induction l with
  | nil => exact runReleases_ret []
  | cons a l ih =>
      rw [List.mapM_cons]
      refine (hf a List.mem_cons_self).bind fun b => ?_
      exact (ih fun c hc => hf c (List.mem_cons_of_mem a hc)).map _

theorem StepReleases.foldlM {f : β → α → Code β} {l : List α}
    (hf : ∀ b, ∀ a ∈ l, StepReleases good freed (f b a)) (b : β) :
    RunReleases good freed l.length (l.foldlM f b) := by
  induction l generalizing b with
  | nil => exact runReleases_ret b
  | cons a l ih =>
      rw [List.foldlM_cons]
      refine (hf b a List.mem_cons_self).bind fun b' => ?_
      exact ih (fun b c hc => hf b c (List.mem_cons_of_mem a hc)) b'

/-- A request and its reader as a step. -/
theorem stepReleases_request (q : Request) {k : Pointer → Code α}
    (hgood : ∀ (w : World Script) s r, w.ledger.Balanced → good r → ∃ a w',
      run scripted.handler (k (w.pointer r)) (w.acquire s r) = (.ret a, w') ∧
        w'.ledger.Balanced ∧ w'.env = s)
    (hbad : ∀ (w : World Script) s r, w.ledger.Balanced → ¬ good r →
      (∀ a, (run scripted.handler (k (w.pointer r)) (w.acquire s r)).1 ≠ .ret a) ∧
      (Released (run scripted.handler (k (w.pointer r)) (w.acquire s r)) ↔ freed r)) :
    StepReleases good freed (requestNULLSafe q >>= k) := by
  intro w hw
  rw [run_requestNULLSafe_bind, afterRequest_scripted]
  rcases w.env.answers with _ | ⟨_ | r, rest⟩
  · exact .inr ⟨by rintro a ⟨⟩, by rintro r rest ⟨⟩, iff_of_true ⟨trivial, hw⟩ trivial⟩
  · exact .inr ⟨by rintro a ⟨⟩, by rintro r rest ⟨⟩, iff_of_true ⟨trivial, hw⟩ trivial⟩
  · by_cases hr : good r
    · obtain ⟨a, w', hrun, hw', henv⟩ := hgood w { w.env with answers := rest } r hw hr
      exact .inl ⟨r, rest, rfl, hr, a, w', hrun, hw', by rw [henv]⟩
    · obtain ⟨hret, hiff⟩ := hbad w { w.env with answers := rest } r hw hr
      refine .inr ⟨hret, ?_, hiff.trans ?_⟩
      · rintro r' rest' heq
        cases heq
        exact hr
      · simp [LoopReleases, hr]

/-- A value that is read and freed, as a step. -/
theorem stepReleases_thenFree (q : Request) {x : Pointer → Code α} (hx : ∀ p, Leaf (x p))
    (hgood : ∀ p, Returns (x p) ↔ good p.node) :
    StepReleases good (fun _ => False) (requestNULLSafe q >>= fun p => thenFree p (x p)) := by
  refine stepReleases_request q (fun w s r hw hr => ?_) fun w s r hw hr => ⟨?_, ?_⟩
  · obtain ⟨a, ha⟩ := (hgood (w.pointer r)).mpr hr
    exact ⟨a, _, by rw [ha, run_thenFree_ret], w.balanced_release hw s r, rfl⟩
  · intro a ha
    rcases (hx (w.pointer r)).ends with ⟨b, hb⟩ | ⟨e, he⟩ | ⟨f, hf⟩
    · exact hr ((hgood (w.pointer r)).mp ⟨b, hb⟩)
    · rw [he] at ha
      cases ha
    · rw [hf] at ha
      cases ha
  · rw [released_thenFree_iff (hx _) hw, hgood]
    exact iff_false_intro hr

end Loop

theorem stepReleases_zaddRow (key : CStr) (res score : Double) (y : List Double) :
    StepReleases (fun r => r.isInteger = true) (fun _ => False)
      (zaddRow key res (score :: y)) :=
  stepReleases_thenFree _ (fun p => (leaf_doubleOf p).bind fun _ => .ret _)
    fun _ => returns_bind_pure_iff.trans returns_doubleOf_iff

theorem stepReleases_zremrangebyscoreKey (min max : Double) (key : CStr) :
    StepReleases (fun r => r.isInteger = true) (fun _ => False)
      (zremrangebyscoreKey min max key) :=
  stepReleases_thenFree _ leaf_doubleOf fun _ => returns_doubleOf_iff

theorem stepReleases_subscribeChannel (type : Bytes) (key : CStr) :
    StepReleases Reply.Extractable (fun r => r.isError = true)
      (subscribeChannel (O := O) type key) := by
  refine stepReleases_request _ (fun w s r hw hr => ?_) fun w s r hw hr => ⟨fun a ha => ?_, ?_⟩
  · rcases run_extractReply_bind scripted (w.pointer r)
      (fun x : SEXP O => freeReplyObject (w.pointer r) >>= fun _ => pure x)
      (w.acquire s r) with
      ⟨-, x, hx, -⟩ | ⟨-, hnot, -⟩ | ⟨-, hnot, -⟩
    · exact ⟨x, _, by rw [hx, run_thenFree_ret], w.balanced_release hw s r, rfl⟩
    · exact absurd hr hnot
    · exact absurd hr hnot
  · rw [thenFree] at ha
    rcases run_extractReply_bind scripted (w.pointer r)
      (fun x : SEXP O => freeReplyObject (w.pointer r) >>= fun _ => pure x)
      (w.acquire s r) with
      ⟨hyes, -⟩ | ⟨-, -, e, hrun⟩ | ⟨-, -, e, w', hrun, -⟩
    · exact hr hyes
    · rw [hrun] at ha
      cases ha
    · rw [hrun] at ha
      cases ha
  · rw [released_extract_iff hw]
    simp [hr]

/-! ## All methods -/

/-- The pushes that `listen` returns a value for. -/
def ListenReads (R : Runtime O) (type : CStr) (r : Reply) : Prop :=
  (∀ e ∈ r.element.take 2, e.Extractable) ∧
    if type = stringMode then ∀ e ∈ r.element[2]?, e.str?.isSome = true
    else if type = rawMode then ∀ e ∈ r.element.drop 2, 0 ≤ toInt32 e.len
    else ∀ e ∈ r.element.drop 2, Decodes R e

/-- The answers that a plan releases. -/
def Plan.Releases (R : Runtime O) : Plan O → List (Option Reply) → Prop
  | .command _ rd, some r :: _ => rd.Releases R r
  | .command _ _, _ => True
  | .rows _ x, answers => x.rows = [] ∨
      (0 < x.ncol ∧ LoopReleases (fun r => r.isInteger = true)
        (fun _ => False) x.rows.length answers)
  | .ranges keyvec _ _, answers =>
      LoopReleases (fun r => r.isInteger = true) (fun _ => False) keyvec.length answers
  | .channels cs _, answers =>
      LoopReleases Reply.Extractable (fun r => r.isError = true) cs.length answers
  | .listen type, some r :: _ => ListenReads R type r
  | .listen _, _ => False
  | .done _, _ => True

/-- The answers that a method releases.  `listToMatrix` is handed none, and must have a
first row to look at. -/
def Method.Releases (R : Runtime O) : Method O → List (Option Reply) → Prop
  | .listToMatrix Z, _ => Z ≠ []
  | m, answers => (m.plan R).Releases R answers

theorem returns_listenPayload_iff (type : CStr) (l : List Pointer) :
    Returns (listenPayload R type l) ↔
      if type = stringMode then ∀ q ∈ l.head?, q.node.str?.isSome = true
      else if type = rawMode then ∀ q ∈ l, 0 ≤ toInt32 q.node.len
      else ∀ q ∈ l, Decodes R q.node := by
  by_cases hstring : type = stringMode
  · rw [if_pos hstring]
    cases l with
    | nil => simp [listenPayload]
    | cons q l =>
        rw [listenPayload, if_pos hstring, returns_bind_pure_iff, returns_stringOf_iff]
        simp
  rw [if_neg hstring]
  by_cases hraw : type = rawMode
  · rw [if_pos hraw]
    induction l with
    | nil => simp [listenPayload]
    | cons q l ih =>
        rw [listenPayload, if_neg hstring, rawOf_eq, List.forall_mem_cons, ← ih]
        split_ifs with hlen
        · simp [hlen]
        · rw [ret_bind, listenObject, if_pos hraw, pure_eq, ret_bind, returns_bind_pure_iff]
          simp [not_lt.mp hlen]
  · rw [if_neg hraw]
    induction l with
    | nil => simp [listenPayload]
    | cons q l ih =>
        have hobject : (rawOf q >>= fun res => listenObject R type res) = objectOf R q := by
          simp only [listenObject, if_neg hraw]
          rfl
        rw [listenPayload, if_neg hstring, ← Prog.bind_assoc, hobject, returns_bind_iff,
          List.forall_mem_cons, ← ih, ← returns_objectOf_iff]
        simp only [returns_bind_pure_iff]
        constructor
        · rintro ⟨x, hx, hl⟩
          exact ⟨⟨x, hx⟩, hl⟩
        · rintro ⟨⟨x, hx⟩, hl⟩
          exact ⟨x, hx, hl⟩

/-- What the payload loop of `listen` reads, as a condition on the push. -/
theorem returns_listenPayload_drop_iff (type : CStr) (p : Pointer) :
    Returns (listenPayload R type (p.children.drop 2)) ↔
      if type = stringMode then ∀ e ∈ p.node.element[2]?, e.str?.isSome = true
      else if type = rawMode then ∀ e ∈ p.node.element.drop 2, 0 ≤ toInt32 e.len
      else ∀ e ∈ p.node.element.drop 2, Decodes R e := by
  rw [returns_listenPayload_iff, ← p.map_node_children, ← List.map_drop, List.getElem?_map,
    List.head?_drop]
  simp only [List.forall_mem_map]
  cases p.children[2]? <;> simp

theorem released_listen_iff (type : CStr) {w : World σ} (hw : w.ledger.Balanced) (s : σ)
    (r : Reply) :
    Released (run E.handler (thenFree (w.pointer r) (listenValue R type (w.pointer r)))
      (w.acquire s r)) ↔ ListenReads R type r := by
  have hpayload := returns_listenPayload_drop_iff (R := R) type (w.pointer r)
  have htake := forall_take_children_iff (p := w.pointer r) (P := Reply.Extractable) 2
  have hnode : (w.pointer r).node = r := rfl
  rw [hnode] at hpayload htake
  rw [thenFree, listenValue, Prog.bind_assoc, ListenReads, ← hpayload, ← htake]
  rcases run_mapM_extractReply_bind (O := O) E (w.pointer r)
    (fun q => isChild_of_mem_take (n := 2))
    (fun header => (listenPayload R type ((w.pointer r).children.drop 2) >>=
      fun rest => pure (SEXP.list (header ++ rest) none)) >>= fun x =>
        freeReplyObject (w.pointer r) >>= fun _ => pure x) (w.acquire s r) with
    ⟨hall, header, -, hrun⟩ | ⟨hnot, e, w', hrun, hw'⟩
  · have hleaf : Leaf (listenPayload R type ((w.pointer r).children.drop 2) >>=
        fun rest => pure (SEXP.list (header ++ rest) none)) :=
      (leaf_listenPayload type _).bind fun _ => .ret _
    have hiff := released_thenFree_iff (E := E) hleaf hw s r
    rw [thenFree, returns_bind_pure_iff] at hiff
    rw [hrun, hiff]
    exact (and_iff_right hall).symm
  · rw [hrun]
    exact iff_of_false (fun h => w.not_balanced_of_below hw hw' h.2) fun h => hnot h.1

/-- The constructor opens a context and keeps it only if it does not raise. -/
def InitReleases (auth : CStr) (s : Script) : Prop :=
  s.errstr = none ∧ (auth.bytes = [] ∨ ∃ r rest, s.answers = some r :: rest ∧
    r.isError = false)

/-- The run has released all replies, and its context too if it has raised. -/
def ReleasedAll (r : Outcome RError Fault α × World σ) : Prop :=
  Released r ∧ (∀ e, r.1 = .raise e → r.2.ledger.closed = r.2.ledger.opened)

/-- What the constructor does with the answer to its AUTH. -/
theorem run_auth {w : World Script} (hw : w.ledger.Balanced) (auth : CStr)
    (hopened : w.ledger.closed ≠ w.ledger.opened) :
    ReleasedAll (run scripted.handler
      (redisCommandNULLSafe (ascii "AUTH " ++ auth.bytes) [] >>= authReply) w) ↔
      ∃ r rest, w.env.answers = some r :: rest ∧ r.isError = false := by
  have hraise {w' : World Script} {e : RError} (hsame : w'.ledger.closed ≠ w'.ledger.opened) :
      ¬ ReleasedAll ((.raise e, w') : Outcome RError Fault Unit × World Script) :=
    fun h => hsame (h.2 e rfl)
  rw [redisCommandNULLSafe, run_requestNULLSafe_bind, afterRequest_scripted]
  rcases w.env.answers with _ | ⟨_ | r, rest⟩
  · exact iff_of_false (hraise hopened) (by simp)
  · exact iff_of_false (hraise hopened) (by simp)
  · cases herror : r.isError with
    | true =>
        have htype : replyTypeToInteger (w.pointer r).node = some .error :=
          replyTypeToInteger_eq_error_iff.mpr herror
        dsimp only
        rw [authReply, if_pos htype]
        refine iff_of_false (@hraise ((w.acquire _ r).release _) _ hopened) ?_
        rintro ⟨r', rest', heq, hr'⟩
        cases heq
        rw [herror] at hr'
        cases hr'
    | false =>
        have htype : replyTypeToInteger (w.pointer r).node ≠ some .error := by
          rw [ne_eq, replyTypeToInteger_eq_error_iff]
          exact ne_of_eq_of_ne herror Bool.false_ne_true
        dsimp only
        rw [authReply, if_neg htype]
        exact iff_of_true ⟨⟨trivial, w.balanced_release hw _ r⟩, by rintro e ⟨⟩⟩
          ⟨r, rest, rfl, herror⟩

theorem releasedAll_init_iff (host : CStr) (port : ℤ) (auth : CStr) (timeout : ℤ)
    (s : Script) :
    ReleasedAll (scripted.run (init host port auth timeout) s) ↔ InitReleases auth s := by
  have hconnect : scripted.run (init host port auth timeout) s =
      run scripted.handler (connected auth s.errstr) ⟨s, { opened := 1 }⟩ := by
    rw [Env.run, init, Code.redisConnect, call_bind, run_call]
    rfl
  rw [hconnect, InitReleases]
  rcases s.errstr with _ | errstr
  · by_cases hauth : auth.bytes = []
    · rw [connected, if_neg (not_not_intro hauth)]
      exact iff_of_true ⟨⟨trivial, Ledger.balanced_empty⟩, by rintro e ⟨⟩⟩ ⟨rfl, .inl hauth⟩
    · rw [connected, if_pos hauth, run_auth Ledger.balanced_empty auth Nat.zero_ne_one]
      simp [hauth]
  · refine iff_of_false (fun h => ?_) (by simp)
    exact Nat.zero_ne_one (h.2 _ rfl)

/-! ## All methods -/

theorem released_zadd_iff (key : CStr) (x : NumericMatrix) {w : World Script}
    (hw : w.ledger.Balanced) :
    Released (run scripted.handler (zadd (O := O) key x) w) ↔
      Plan.Releases R (.rows key x) w.env.answers := by
  rw [zadd, Plan.Releases]
  rcases hrows : x.rows with _ | ⟨y, ys⟩
  · exact iff_of_true ⟨trivial, hw⟩ (.inl rfl)
  rw [← hrows]
  have hne : x.rows ≠ [] := by simp [hrows]
  by_cases hcol : 0 < x.ncol
  · have hstep (res : Double) (y : List Double) (hy : y ∈ x.rows) :
        StepReleases (fun r => r.isInteger = true) (fun _ => False) (zaddRow key res y) := by
      have hlen := x.shape y hy
      cases y with
      | nil => exact absurd hlen (by simp; omega)
      | cons score y => exact stepReleases_zaddRow key res score y
    refine ((StepReleases.foldlM hstep _).map _ _ hw).trans ?_
    simp [hne, hcol]
  · have hy : y = [] := by
      have := x.shape y (by simp [hrows])
      exact List.length_eq_zero_iff.mp (by omega)
    have hfault : x.rows.foldlM (zaddRow key) (.ofInt 0) = .fault .vectorIndex := by
      rw [hrows, hy]
      rfl
    rw [hfault]
    exact iff_of_false (fun h => h.1) (by simp [hne, hcol])

/-- A program that calls nothing and does not fault. -/
theorem released_of_leaf {x : Code α} (hx : Leaf x) (hfault : ¬ FaultsWith (fun _ => True) x)
    {w : World σ} (hw : w.ledger.Balanced) : Released (run E.handler x w) := by
  rcases hx.ends with ⟨a, rfl⟩ | ⟨e, rfl⟩ | ⟨f, rfl⟩
  · exact ⟨trivial, hw⟩
  · exact ⟨trivial, hw⟩
  · exact absurd ⟨f, trivial, rfl⟩ hfault

theorem released_listToMatrix_iff (Z : List (List Double)) {w : World Script}
    (hw : w.ledger.Balanced) :
    Released (run scripted.handler (listToMatrix (O := O) Z) w) ↔ Z ≠ [] := by
  cases Z with
  | nil => exact iff_of_false (fun h => h.1) (fun h => h rfl)
  | cons first Z =>
      refine iff_of_true (released_of_leaf ?_ (fun hf => ?_) hw) (List.cons_ne_nil first Z)
      · exact leaf_listToMatrix (first :: Z)
      · refine not_faultsWith_mapM (fun z _ => ?_) (faultsWith_bind_pure_iff.mp hf)
        split_ifs <;> simp [stop]

/-- No method opens or closes a context. -/
theorem opened_run_method (m : Method O) (s : Script) :
    (scripted.run (m.code R) s).2.ledger.closed =
      (scripted.run (m.code R) s).2.ledger.opened := by
  refine run_invariant scripted.handler (fun w => w.ledger.closed = w.ledger.opened)
    (fun i w hi hw => ?_) (only_method m) ⟨s, {}⟩ rfl
  cases i with
  | request q =>
      rw [Env.handler]
      rcases scripted.request q w.env with ⟨⟨_ | r⟩ | _ | _, s'⟩ <;> exact hw
  | freeReplyObject p => exact hw
  | _ => cases hi

theorem released_method_iff (m : Method O) (s : Script) :
    Released (scripted.run (m.code R) s) ↔ m.Releases R s.answers := by
  have hstart : (⟨s, {}⟩ : World Script).ledger.Balanced := Ledger.balanced_empty
  by_cases hmatrix : ∃ Z, m = .listToMatrix Z
  · obtain ⟨Z, rfl⟩ := hmatrix
    exact released_listToMatrix_iff Z hstart
  have hreleases : m.Releases R s.answers = (m.plan R).Releases R s.answers := by
    cases m <;> first | rfl | exact absurd ⟨_, rfl⟩ hmatrix
  rw [hreleases, Env.run, Method.code_eq]
  cases hplan : m.plan R with
  | done p =>
      rcases Method.eq_of_plan_done hplan with ⟨Z, hm, -⟩ | ⟨e, rfl⟩ | ⟨x, rfl⟩
      · exact absurd ⟨Z, hm⟩ hmatrix
      · exact iff_of_true ⟨trivial, hstart⟩ trivial
      · exact iff_of_true ⟨trivial, hstart⟩ trivial
  | command q rd =>
      rw [Plan.code, run_requestNULLSafe_bind, afterRequest_scripted]
      rcases hs : s.answers with _ | ⟨_ | r, rest⟩
      · exact iff_of_true ⟨trivial, hstart⟩ trivial
      · exact iff_of_true ⟨trivial, hstart⟩ trivial
      · exact released_code_iff rd hstart _ r
  | rows key x => exact released_zadd_iff key x hstart
  | ranges keyvec min max =>
      exact (StepReleases.mapM fun key _ => stepReleases_zremrangebyscoreKey min max key).map
        _ _ hstart
  | channels cs type =>
      exact (StepReleases.mapM fun c _ => stepReleases_subscribeChannel type c).map _ _ hstart
  | listen type =>
      rw [Plan.code, run_listen]
      simp only [scripted]
      rcases s.answers with _ | ⟨_ | r, rest⟩
      · exact iff_of_false (fun h => h.1) id
      · exact iff_of_false (fun h => h.1) id
      · exact released_listen_iff type hstart _ r

/-- **What is acquired is released.**  For every method and every script of answers, and for
every constructor call, the run ends in R with all that it acquired released, exactly when
the answers are ones that it releases. -/
theorem released_iff_releases :
    (∀ (m : Method O) (s : Script),
      ReleasedAll (scripted.run (m.code R) s) ↔ m.Releases R s.answers) ∧
    ∀ (host : CStr) (port : ℤ) (auth : CStr) (timeout : ℤ) (s : Script),
      ReleasedAll (scripted.run (init host port auth timeout) s) ↔ InitReleases auth s := by
  refine ⟨fun m s => ?_, releasedAll_init_iff⟩
  rw [← released_method_iff]
  exact ⟨fun h => h.1, fun h => ⟨h, fun _ _ => opened_run_method m s⟩⟩

/-- `hlen` on a key of another type raises and leaves the error reply behind. -/
theorem hlen_leaks_error :
    (∃ e, (scripted.run (Method.code Runtime.onlyNull (.hlen (.ofAscii "k")))
      { answers := [some (.error (ascii "WRONGTYPE"))] }).1 = .raise e) ∧
    ¬ ReleasedAll (scripted.run (Method.code Runtime.onlyNull (.hlen (.ofAscii "k")))
      { answers := [some (.error (ascii "WRONGTYPE"))] }) := by
  refine ⟨⟨_, rfl⟩, fun h => ?_⟩
  exact absurd (Ledger.Balanced.root_mem (r := .error (ascii "WRONGTYPE")) h.1.2
    (List.nil_append _).symm)
    List.not_mem_nil

end RcppRedis
