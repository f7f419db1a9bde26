import RcppRedis.Redis.Run

/-!
# Error replies

A server answers a command it cannot carry out with an error reply.  `Method.Forwards`
says which methods turn one into an R error: those that extract the reply or check its
type, and `get` and `hget` when the text of the error is not the serialization of an
object.  The others read the fields of the reply as if it were the value.

* `Forwarding` — a program that raises once it was handed an error reply; a sequence of
  such programs is one.
* `raises_iff_forwards` — a method that was handed an error reply raises exactly when it
  forwards errors.
-/

namespace RcppRedis

open Bytes Hiredis Interact Code Prog

variable {O : Type} {R : Runtime O} {σ α β : Type} (E : Env σ)

/-- The readers that turn an error reply with the given text into an R error. -/
def Reader.Forwards (R : Runtime O) (text : Bytes) : Reader → Prop
  | .extract | .int | .double | .pop | .rows => True
  | .listRange | .listLPop | .listRangeAsStrings | .msgPackMatrix => True
  | .get | .hget => ¬ Decodes R (.error text)
  | .string | .strings | .objects | .ignore | .hgetall | .vector | .msgPackZMatrix => False

/-- The plans that do.  `listen` reads whatever it is handed. -/
def Plan.Forwards (R : Runtime O) (text : Bytes) : Plan O → Prop
  | .command _ rd => rd.Forwards R text
  | .listen _ => False
  | .done _ | .rows _ _ | .ranges _ _ _ | .channels _ _ => True

/-- The methods that do. -/
def Method.Forwards (R : Runtime O) (text : Bytes) (m : Method O) : Prop :=
  (m.plan R).Forwards R text

/-! ## Readers -/

theorem checkReplyType_error {p : Pointer} {text : Bytes} (hp : p.node = .error text)
    {t : ReplyType} (ht : t ≠ .error) : ∃ e, checkReplyType p t = .raise e := by
  rcases checkReplyType_eq p t with ⟨-, h⟩ | ⟨h, -⟩
  · rw [hp] at h
    cases h
    exact absurd rfl ht
  · exact h

/-- What starts with a failed check raises. -/
theorem check_error_bind {p : Pointer} {text : Bytes} (hp : p.node = .error text)
    (t : ReplyType) (ht : t ≠ .error) (f : Unit → Code α) :
    ∃ e, checkReplyType p t >>= f = .raise e := by
  obtain ⟨e, he⟩ := checkReplyType_error hp ht
  exact ⟨e, by rw [he, raise_bind]⟩

/-- A program that starts with a failed check raises. -/
theorem raises_check_error {p : Pointer} {text : Bytes} (hp : p.node = .error text)
    (t : ReplyType) (ht : t ≠ .error) (f : Unit → Code α) (w : World σ) :
    ∃ e, (run E.handler (thenFree p (checkReplyType p t >>= f)) w).1 = .raise e := by
  obtain ⟨e, he⟩ := check_error_bind hp t ht f
  rw [he, run_thenFree_raise]
  exact ⟨e, rfl⟩

theorem raises_extract_error {p : Pointer} {text : Bytes} (hp : p.node = .error text)
    (w : World σ) :
    ∃ e, (run E.handler (thenFree p (extractReply (O := O) p)) w).1 = .raise e := by
  rcases run_extractReply_bind E p (fun x : SEXP O => freeReplyObject p >>= fun _ => pure x)
    w with
    ⟨h, -⟩ | ⟨-, -, e, he⟩ | ⟨-, -, e, w', he, -⟩
  · rw [hp] at h
    cases h
  · exact ⟨e, congrArg Prod.fst he⟩
  · exact ⟨e, congrArg Prod.fst he⟩

theorem not_raises_thenFree_ret (a : α) (p : Pointer) (w : World σ) :
    ¬ ∃ e, (run E.handler (thenFree p (.ret a)) w).1 = .raise e := by
  rw [run_thenFree_ret]
  rintro ⟨e, ⟨⟩⟩

/-- A value is read, and freeing the reply raises nothing. -/
theorem raises_thenFree_iff {x : Code α} (hx : Leaf x) (p : Pointer) (w : World σ) :
    (∃ e, (run E.handler (thenFree p x) w).1 = .raise e) ↔ ∃ e, x = .raise e := by
  rcases hx with a | e | f
  · exact iff_of_false (not_raises_thenFree_ret E a p w) (by rintro ⟨e, ⟨⟩⟩)
  · exact iff_of_true ⟨e, rfl⟩ ⟨e, rfl⟩
  · exact iff_of_false (by rintro ⟨e, ⟨⟩⟩) (by rintro ⟨e, ⟨⟩⟩)

/-- The object readers raise when the error text is no serialization. -/
theorem objectOf_raise_iff (p : Pointer) :
    (∃ e, objectOf R p = .raise e) ↔ ¬ Decodes R p.node := by
  rw [objectOf_eq, Decodes]
  cases R.decode p.node with
  | ok obj => exact iff_of_false (by rintro ⟨e, ⟨⟩⟩) (by simp)
  | error e => exact iff_of_true ⟨e, rfl⟩ (by simp)

/-- `hget` frees in between, and ends alike. -/
theorem raises_hget_iff (p : Pointer) (w : World σ) :
    (∃ e, (run E.handler (Reader.code R .hget p) w).1 = .raise e) ↔ ¬ Decodes R p.node := by
  rw [← objectOf_raise_iff, Reader.code, objectOf]
  have hleaf := leaf_rawOf p
  generalize rawOf p = res at hleaf ⊢
  rcases hleaf with b | e | f
  · rw [run_thenFree_ret_bind, ret_bind, unserializeFromRaw]
    cases R.unserializeFromRaw b with
    | none => exact iff_of_true ⟨.unserialize, rfl⟩ ⟨.unserialize, rfl⟩
    | some obj => exact iff_of_false (by rintro ⟨e, ⟨⟩⟩) (by rintro ⟨e, ⟨⟩⟩)
  · exact iff_of_true ⟨e, rfl⟩ ⟨e, rfl⟩
  · exact iff_of_false (by rintro ⟨e, ⟨⟩⟩) (by rintro ⟨e, ⟨⟩⟩)

/-- **What a reader makes of an error reply**: it raises if it checks the type, and else it
takes the reply for a value.  `extract_reply` has a text of its own for errors. -/
theorem value_raise_iff {rd : Reader} (hextract : rd ≠ .extract) {p : Pointer} {text : Bytes}
    (hp : p.node = .error text) : (∃ e, rd.value R p = .raise e) ↔ rd.Forwards R text := by
  have hnil : ¬ replyTypeToInteger p.node = some .nil := by
    rw [hp]
    rintro ⟨⟩
  have hchildren : p.children = [] := by rw [Pointer.children, hp]; rfl
  cases rd with
  | extract => exact absurd rfl hextract
  | string =>
      have hstr : p.node.str? = some text := by rw [hp]; rfl
      refine iff_of_false ?_ id
      rw [Reader.value, stringValue, stringOf_of_some hstr]
      rintro ⟨e, ⟨⟩⟩
  | int => exact iff_of_true (check_error_bind hp .integer (by rintro ⟨⟩) _) trivial
  | double =>
      refine iff_of_true ?_ trivial
      rw [Reader.value, doubleOf, Prog.bind_assoc]
      exact check_error_bind hp .integer (by rintro ⟨⟩) _
  | strings =>
      refine iff_of_false ?_ id
      rw [Reader.value, stringsValue, hchildren]
      rintro ⟨e, ⟨⟩⟩
  | objects =>
      refine iff_of_false ?_ id
      rw [Reader.value, objectsValue, hchildren]
      rintro ⟨e, ⟨⟩⟩
  | pop =>
      refine iff_of_true ?_ trivial
      rw [Reader.value, popValue, if_neg hnil]
      exact check_error_bind hp .string (by rintro ⟨⟩) _
  | ignore => exact iff_of_false (by rintro ⟨e, ⟨⟩⟩) id
  | rows => exact iff_of_true (check_error_bind hp .array (by rintro ⟨⟩) _) trivial
  | get =>
      rw [Reader.value, getValue, if_neg hnil, objectOf_raise_iff, hp]
      rfl
  | hget =>
      rw [Reader.value, objectOf_raise_iff, hp]
      rfl
  | hgetall =>
      have helements : p.node.elements = 0 := by rw [hp]; rfl
      refine iff_of_false ?_ id
      rw [Reader.value, hgetallValue, helements]
      rintro ⟨e, ⟨⟩⟩
  | vector =>
      refine iff_of_false ?_ id
      rw [Reader.value, vectorValue]
      by_cases hwhole : WholeDoubles p.node
      · rw [numericOf_of_wholeDoubles hwhole]
        rintro ⟨e, ⟨⟩⟩
      · rcases numericOf_of_not_wholeDoubles hwhole with hf | hf <;> rw [hf, fault_bind] <;>
          rintro ⟨e, ⟨⟩⟩
  | listRange => exact iff_of_true (check_error_bind hp .array (by rintro ⟨⟩) _) trivial
  | listLPop =>
      refine iff_of_true ?_ trivial
      rw [Reader.value, listLPopValue, if_neg hnil]
      exact check_error_bind hp .string (by rintro ⟨⟩) _
  | listRangeAsStrings =>
      exact iff_of_true (check_error_bind hp .array (by rintro ⟨⟩) _) trivial
  | msgPackMatrix => exact iff_of_true (check_error_bind hp .array (by rintro ⟨⟩) _) trivial
  | msgPackZMatrix =>
      refine iff_of_false ?_ id
      rw [Reader.value, msgPackZMatrixValue, hchildren]
      rintro ⟨e, ⟨⟩⟩

/-- **A reader raises on an error reply** exactly when it forwards errors. -/
theorem raises_code_iff (rd : Reader) {p : Pointer} {text : Bytes} (hp : p.node = .error text)
    (w : World σ) :
    (∃ e, (run E.handler (rd.code R p) w).1 = .raise e) ↔ rd.Forwards R text := by
  by_cases hget : rd = .hget
  · rw [hget, raises_hget_iff, hp]
    rfl
  · by_cases hextract : rd = .extract
    · rw [hextract]
      exact iff_of_true (raises_extract_error E hp w) trivial
    · rw [Reader.code_of_ne hget, raises_thenFree_iff E (leaf_value hextract p) p w,
        value_raise_iff hextract hp]

/-! ## Methods with several commands -/

/-- An error reply was handed out. -/
def HasError (w : World σ) : Prop := ∃ text, .error text ∈ w.ledger.acquired

/-- A program that raises once it was handed an error reply. -/
def Forwarding (p : Code α) : Prop :=
  ∀ w, ¬ HasError w → HasError (run E.handler p w).2 → ∃ e, (run E.handler p w).1 = .raise e

variable {E}

theorem forwarding_of_frees {p : Code α} (hp : Only Instr.Frees p) : Forwarding E p := by
  intro w hw herr
  rw [HasError, (run_frees E hp w).1] at herr
  exact absurd herr hw

theorem Forwarding.bind {p : Code α} {f : α → Code β} (hp : Forwarding E p)
    (hf : ∀ a, Forwarding E (f a)) : Forwarding E (p >>= f) := by
  intro w hw herr
  have hfirst := hp w hw
  rw [run_bind] at herr ⊢
  rcases hrun : run E.handler p w with ⟨o, w'⟩
  rw [hrun] at hfirst herr
  by_cases hw' : HasError w'
  · obtain ⟨e, he⟩ := hfirst hw'
    simp only at he
    subst he
    exact ⟨e, rfl⟩
  · cases o with
    | ret a => exact hf a w' hw' herr
    | raise e => exact ⟨e, rfl⟩
    | fault f => exact absurd herr hw'
    | blocked => exact absurd herr hw'

theorem Forwarding.mapM {f : α → Code β} (hf : ∀ a, Forwarding E (f a)) (l : List α) :
    Forwarding E (l.mapM f) := by
  induction l with
  | nil => exact forwarding_of_frees (.ret [])
  | cons a l ih =>
      rw [List.mapM_cons]
      exact (hf a).bind fun b => ih.bind fun bs => forwarding_of_frees (.ret _)

theorem Forwarding.foldlM {f : β → α → Code β} (hf : ∀ b a, Forwarding E (f b a)) (l : List α)
    (b : β) : Forwarding E (l.foldlM f b) := by
  induction l generalizing b with
  | nil => exact forwarding_of_frees (.ret b)
  | cons a l ih =>
      rw [List.foldlM_cons]
      exact (hf b a).bind ih

/-- What was handed out by a request and its reader. -/
theorem acquired_request (q : Request) {k : Pointer → Code α}
    (hk : ∀ p, Only Instr.Frees (k p)) (w : World σ) :
    ((run E.handler (requestNULLSafe q >>= k) w).2.ledger.acquired = w.ledger.acquired) ∨
    ∃ r s, (run E.handler (requestNULLSafe q >>= k) w).2.ledger.acquired =
        w.ledger.acquired ++ [r] ∧
      run E.handler (requestNULLSafe q >>= k) w =
        run E.handler (k (w.pointer r)) (w.acquire s r) := by
  rw [run_requestNULLSafe_bind, afterRequest]
  rcases E.request q w.env with ⟨⟨_ | r⟩ | _ | _, s⟩
  · exact .inl rfl
  · exact .inr ⟨r, s, by rw [(run_frees E (hk _) _).1]; rfl, rfl⟩
  · exact .inl rfl
  · exact .inl rfl

theorem forwarding_request (q : Request) {k : Pointer → Code α}
    (hk : ∀ p, Only Instr.Frees (k p))
    (herror : ∀ p text w, p.node = .error text → ∃ e, (run E.handler (k p) w).1 = .raise e) :
    Forwarding E (requestNULLSafe q >>= k) := by
  intro w hw herr
  rcases acquired_request q hk w with hsame | ⟨r, s, hone, hrun⟩
  · rw [HasError, hsame] at herr
    exact absurd herr hw
  · obtain ⟨text, htext⟩ := herr
    rw [hone, List.mem_append, List.mem_singleton] at htext
    rcases htext with htext | rfl
    · exact absurd ⟨text, htext⟩ hw
    · rw [hrun]
      exact herror _ text _ rfl

theorem forwarding_zaddRow (key : CStr) (res : Double) (y : List Double) :
    Forwarding E (zaddRow key res y) := by
  cases y with
  | nil => exact forwarding_of_frees (.fault _)
  | cons score y =>
      refine forwarding_request _ (fun p => only_thenFree ?_ p) fun p text w hp => ?_
      · exact ((leaf_doubleOf p).bind fun _ => .ret _).only
      · rw [doubleOf, Prog.bind_assoc]
        exact raises_check_error E hp .integer (by rintro ⟨⟩) _ w

theorem forwarding_zremrangebyscoreKey (min max : Double) (key : CStr) :
    Forwarding E (zremrangebyscoreKey min max key) := by
  refine forwarding_request _ (fun p => only_thenFree (leaf_doubleOf p).only p)
    fun p text w hp => ?_
  exact raises_check_error E hp .integer (by rintro ⟨⟩) _ w

theorem forwarding_subscribeChannel (type : Bytes) (key : CStr) :
    Forwarding E (subscribeChannel (O := O) type key) := by
  refine forwarding_request _ (fun p => only_thenFree (only_extractReply p) p)
    fun p text w hp => ?_
  exact raises_extract_error E hp w

/-! ## All methods -/

/-- **Errors are forwarded or swallowed.**  In any environment, a method that was handed an
error reply raises exactly when it is one that forwards errors. -/
theorem raises_iff_forwards (E : Env σ) (m : Method O) (s : σ) {text : Bytes}
    (h : .error text ∈ (E.run (m.code R) s).2.ledger.acquired) :
    (∃ e, (E.run (m.code R) s).1 = .raise e) ↔ m.Forwards R text := by
  rw [Method.Forwards]
  have hstart : ¬ HasError (⟨s, {}⟩ : World σ) := by
    rintro ⟨t, ht⟩
    cases ht
  rw [Env.run, Method.code_eq] at h ⊢
  cases hplan : m.plan R with
  | done p =>
      rw [hplan, Plan.code, (run_frees E (leaf_of_plan_done hplan).only _).1] at h
      cases h
  | command q rd =>
      rw [hplan, Plan.code] at h
      rw [Plan.code]
      rcases acquired_request (E := E) q (fun p => only_code (R := R) rd p) ⟨s, {}⟩ with
        hsame | ⟨r, s', hone, hrun⟩
      · rw [hsame] at h
        cases h
      · rw [hone, List.mem_append, List.mem_singleton] at h
        rcases h with h | rfl
        · cases h
        · rw [hrun]
          exact raises_code_iff E rd rfl _
  | rows key x =>
      rw [hplan] at h
      refine iff_of_true ?_ trivial
      refine Forwarding.bind (Forwarding.foldlM (forwarding_zaddRow key) _ _)
        (fun _ => forwarding_of_frees (.ret _)) _ hstart ⟨text, h⟩
  | ranges keyvec min max =>
      rw [hplan] at h
      refine iff_of_true ?_ trivial
      refine Forwarding.bind (Forwarding.mapM (forwarding_zremrangebyscoreKey min max) _)
        (fun _ => forwarding_of_frees (.ret _)) _ hstart ⟨text, h⟩
  | channels cs type =>
      rw [hplan] at h
      refine iff_of_true ?_ trivial
      refine Forwarding.bind (Forwarding.mapM (forwarding_subscribeChannel type) _)
        (fun _ => forwarding_of_frees (.ret _)) _ hstart ⟨text, h⟩
  | listen type =>
      refine iff_of_false ?_ id
      rw [hplan, Plan.code, run_listen] at h
      rw [Plan.code, run_listen]
      rcases hreq : E.request .getReply s with ⟨⟨_ | r⟩ | _ | _, s'⟩ <;> rw [hreq] at h
      · cases h
      · rw [(run_frees E (only_thenFree (only_listenValue type _) _) _).1] at h
        obtain rfl : .error text = r := by simpa using h
        exact not_raises_thenFree_ret E _ _ _
      · cases h
      · cases h

/-- A list method on a key that holds something else raises. -/
theorem lpush_raises_wrongtype :
    ∃ e, (scripted.run (Method.code Runtime.onlyNull (.lpush (.ofAscii "k") .null))
      { answers := [some (.error (ascii "WRONGTYPE"))] }).1 = .raise e :=
  (raises_iff_forwards scripted (.lpush (.ofAscii "k") .null) _
    (by exact List.mem_cons_self)).mpr trivial

/-- The text of an error comes back as the value of `setString`. -/
theorem setString_returns_error_text :
    .error (ascii "OOM") ∈
      (scripted.run (Method.code Runtime.onlyNull (.setString (.ofAscii "k") (.ofAscii "v")))
        { answers := [some (.error (ascii "OOM"))] }).2.ledger.acquired ∧
    (scripted.run (Method.code Runtime.onlyNull (.setString (.ofAscii "k") (.ofAscii "v")))
        { answers := [some (.error (ascii "OOM"))] }).1 = .ret (.str [.ofAscii "OOM"]) :=
  ⟨List.mem_cons_self, rfl⟩

end RcppRedis
