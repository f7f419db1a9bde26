import RcppRedis.Redis.Run
import RcppRedis.Lib.Binary64Value

/-!
# The image of a reply tree

`Image` says which R value shows a reply as it is: arrays as lists of the same length, strings
with all their bytes, integers of 53 bits exactly.  `extract_reply` copies strings up to their
first NUL byte, so it gives an image exactly when no string of the tree holds one.

* `shows_iff_nulFree` — for `extract_reply`, `exec` and `execv`.
-/

namespace RcppRedis

open Bytes Hiredis Interact Code Prog

variable {O : Type} {R : Runtime O}

/-- The value shows the whole reply. -/
inductive Image : Reply → SEXP O → Prop where
  | string (s : CStr) : Image (.string s.bytes) (.str [s])
  | status (s : CStr) : Image (.status s.bytes) (.str [s])
  | integer (n : ℤ) (d : Double) (h : n.natAbs ≤ 2 ^ 53 → d.toRat = n) :
      Image (.integer n) (.real [d])
  | nil : Image .nil .null
  | array (element : List Reply) (x : List (SEXP O)) (hlen : x.length = element.length)
      (h : ∀ (i : ℕ) (r : Reply) (y : SEXP O), element[i]? = some r → x[i]? = some y →
        Image r y) :
      Image (.array element) (.list x none)

/-- No string or status line of the tree holds a NUL byte. -/
inductive NulFree : Reply → Prop where
  | string (s : CStr) : NulFree (.string s.bytes)
  | status (s : CStr) : NulFree (.status s.bytes)
  | integer (n : ℤ) : NulFree (.integer n)
  | nil : NulFree .nil
  | array (element : List Reply) (h : ∀ r ∈ element, NulFree r) : NulFree (.array element)

/-- The image of the reply is returned.  An R error will do only for a tree with bytes that no
R string can hold. -/
def Shows (r : Reply) (o : Outcome RError Fault (SEXP O)) : Prop :=
  (∃ x, o = .ret x ∧ Image r x) ∨ (∃ e, o = .raise e) ∧ ¬ NulFree r

/-! ## One tree -/

theorem Image.nulFree {r : Reply} {x : SEXP O} (h : Image r x) : NulFree r := by
  induction h with
  | string s => exact .string s
  | status s => exact .status s
  | integer n => exact .integer n
  | nil => exact .nil
  | array element x hlen h ih =>
      refine .array element fun r hr => ?_
      obtain ⟨i, hi⟩ := List.mem_iff_getElem?.mp hr
      have hlt : i < x.length := by
        rw [hlen]
        exact (List.getElem?_eq_some_iff.mp hi).1
      exact ih i r x[i] hi (List.getElem?_eq_getElem hlt)

/-- The loop of `extract_array` gives the images of the children, one by one. -/
theorem extractArrayAt_image (id : ℕ) (path : List ℕ) (i : ℕ) (element : List Reply)
    (h : ∀ r ∈ element, ∀ path, ∃ x, extractReplyAt (O := O) id path r = .ret x ∧ Image r x) :
    ∃ xs, extractArrayAt (O := O) id path i element = .ret xs ∧ xs.length = element.length ∧
      ∀ (j : ℕ) (r : Reply) (y : SEXP O), element[j]? = some r → xs[j]? = some y →
      Image r y := by
  induction element generalizing i with
  | nil => exact ⟨[], by rw [extractArrayAt]; rfl, rfl, by simp⟩
  | cons r rest ih =>
      obtain ⟨x, hx, himage⟩ := h r List.mem_cons_self (path ++ [i])
      obtain ⟨xs, hxs, hlen, hrest⟩ := ih (i + 1) fun s hs => h s (List.mem_cons_of_mem r hs)
      refine ⟨x :: xs, ?_, by rw [List.length_cons, List.length_cons, hlen], ?_⟩
      · rw [extractArrayAt, hx, ret_bind, hxs]
        rfl
      · intro j s y hs hy
        cases j with
        | zero =>
            obtain rfl : r = s := by simpa using hs
            obtain rfl : x = y := by simpa using hy
            exact himage
        | succ j => exact hrest j s y (by simpa using hs) (by simpa using hy)

theorem extractReplyAt_image {r : Reply} (h : NulFree r) (id : ℕ) (path : List ℕ) :
    ∃ x, extractReplyAt (O := O) id path r = .ret x ∧ Image r x := by
  induction h generalizing path with
  | string s => exact ⟨.str [s], by rw [extractReplyAt, CStr.ofBuffer_bytes]; rfl, .string s⟩
  | status s => exact ⟨.str [s], by rw [extractReplyAt, CStr.ofBuffer_bytes]; rfl, .status s⟩
  | integer n =>
      exact ⟨.real [.ofInt n], by rw [extractReplyAt]; rfl, .integer n _ Double.toRat_ofInt⟩
  | nil => exact ⟨.null, by rw [extractReplyAt]; rfl, .nil⟩
  | array element h ih =>
      obtain ⟨xs, hxs, hlen, himage⟩ := extractArrayAt_image (O := O) id path 0 element ih
      exact ⟨.list xs none, by rw [extractReplyAt, hxs]; rfl, .array element xs hlen himage⟩

/-- **The image of a tree**: what is extracted shows the whole tree exactly when the tree is
free of NUL. -/
theorem image_extractReply_iff {p : Pointer} {x : SEXP O} (hx : extractReply p = .ret x) :
    Image p.node x ↔ NulFree p.node := by
  constructor
  · exact Image.nulFree
  · intro h
    obtain ⟨y, hy, himage⟩ := extractReplyAt_image (O := O) h p.id p.path
    rw [extractReply, hy] at hx
    cases hx
    exact himage

theorem exists_extractReply {p : Pointer} (hp : p.node.Extractable) :
    ∃ x : SEXP O, extractReply p = .ret x := by
  rcases extractReply_ends (O := O) p with ⟨-, hx⟩ | ⟨str, hr, -⟩ | ⟨hr, -⟩
  · exact hx
  · rw [hr] at hp
    cases hp
  · exact absurd hp hr

theorem nulFree_string_iff {b : Bytes} : NulFree (.string b) ↔ (0 : UInt8) ∉ b := by
  constructor
  · intro h
    cases h with
    | string s => exact s.nulFree
  · exact fun h => .string ⟨b, h⟩

/-! ## Runs -/

theorem shows_ret_iff {r : Reply} {x : SEXP O} : Shows r (.ret x) ↔ Image r x := by
  constructor
  · rintro (⟨y, ⟨⟩, h⟩ | ⟨⟨e, ⟨⟩⟩, -⟩)
    exact h
  · exact fun h => .inl ⟨x, rfl, h⟩

theorem shows_run_extractReply_iff {σ : Type} (E : Env σ) {p : Pointer}
    (hp : p.node.Extractable) (w : World σ) :
    Shows p.node (run E.handler (extractReply (O := O) p) w).1 ↔ NulFree p.node := by
  obtain ⟨x, hx⟩ := exists_extractReply (O := O) hp
  rw [hx, run_ret, shows_ret_iff, image_extractReply_iff hx]

/-- A request whose reply is extracted. -/
theorem shows_run_request_iff {σ : Type} (E : Env σ) {q : Request} {r : Reply}
    (hr : r.Extractable) {s : σ} (hq : (E.request q s).1 = .answer (some r)) :
    Shows r (E.run (requestNULLSafe q >>= Reader.code R .extract) s).1 ↔ NulFree r := by
  rcases hrequest : E.request q s with ⟨answer, s'⟩
  rw [hrequest] at hq
  simp only at hq
  subst hq
  obtain ⟨x, hx⟩ := exists_extractReply (O := O) (p := World.pointer ⟨s, {}⟩ r) hr
  rw [Env.run, run_requestNULLSafe_bind, afterRequest, hrequest]
  simp only [Reader.code, Reader.value]
  rw [hx, run_thenFree_ret, shows_ret_iff]
  exact image_extractReply_iff hx

/-- **`extract_reply`, `exec` and `execv` show a reply whole** exactly when no string or status
line in it holds a NUL byte. -/
theorem shows_iff_nulFree {σ : Type} (E : Env σ) {r : Reply} (hr : r.Extractable) :
    (∀ (p : Pointer) (w : World σ), p.node = r →
      (Shows r (run E.handler (extractReply (O := O) p) w).1 ↔ NulFree r)) ∧
    (∀ (cmd : CStr) (s : σ), (E.request (.format cmd.bytes []) s).1 = .answer (some r) →
      (Shows r (E.run (Method.code R (.exec cmd)) s).1 ↔ NulFree r)) ∧
    (∀ (cmd : List CStr) (s : σ), (E.request (.argv (cmd.map CStr.bytes)) s).1 =
      .answer (some r) →
      (Shows r (E.run (Method.code R (.execv cmd)) s).1 ↔ NulFree r)) := by
  refine ⟨?_, ?_, ?_⟩
  · rintro p w rfl
    exact shows_run_extractReply_iff E hr w
  · intro cmd s hs
    exact shows_run_request_iff (R := R) E hr hs
  · intro cmd s hs
    exact shows_run_request_iff (R := R) E hr hs

/-- A reply with a string, an integer and a nil is returned as a list. -/
theorem shows_small_array :
    Shows (.array [.string (ascii "a"), .integer 3, .nil])
      (scripted.run (Method.code Runtime.onlyNull (.execv [.ofAscii "X"]))
        { answers := [some (.array [.string (ascii "a"), .integer 3, .nil])] }).1 := by
  have hr : ∀ r ∈ [Reply.string (ascii "a"), .integer 3, .nil], r.Extractable ∧ NulFree r := by
    simp only [List.forall_mem_cons, List.not_mem_nil, false_implies, implies_true, and_true]
    exact ⟨⟨.string _, .string (.ofAscii "a")⟩, ⟨.integer 3, .integer 3⟩, .nil, .nil⟩
  exact ((shows_iff_nulFree scripted (.array _ fun r h => (hr r h).1)).2.2 [.ofAscii "X"]
    _ rfl).mpr
    (.array _ fun r h => (hr r h).2)

/-- What `set` has stored is cut at its first NUL byte by `execv(c("GET", "k"))`. -/
theorem execv_get_cuts :
    ¬ Shows (.string [97, 0, 98])
      (scripted.run (Method.code Runtime.onlyNull (.execv [.ofAscii "GET", .ofAscii "k"]))
        { answers := [some (.string [97, 0, 98])] }).1 := by
  have hrun : (scripted.run
      (Method.code Runtime.onlyNull (.execv [.ofAscii "GET", .ofAscii "k"]))
      { answers := [some (.string [97, 0, 98])] }).1 =
        .ret (.str [.ofBuffer [97, 0, 98]]) := rfl
  rw [hrun, shows_ret_iff]
  exact fun himage => nulFree_string_iff.mp himage.nulFree (by decide)

end RcppRedis
