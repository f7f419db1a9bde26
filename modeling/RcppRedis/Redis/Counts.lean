import RcppRedis.Redis.Stepwise
import RcppRedis.Redis.Pasted

/-!
# Counts

The server counts in 64 bits.  `hlen` hands such a count over as an `int`, the other methods as
a `double`, and `zadd` adds them up as doubles.

* `counts_iff` — exactly when counts arrive as they are.
* `sizesAgree_iff` — exactly when three ways of asking for the size of a hash agree.
-/

namespace RcppRedis

open Bytes Resp Hiredis Interact Prog

variable {O : Type} {R : Runtime O} {α β : Type}

/-! ## Counting methods -/

/-- The numbers of an R vector. -/
def SEXP.numbers : SEXP O → List ℚ
  | .int x => x.map fun n : ℤ => (n : ℚ)
  | .real x => x.map Double.toRat
  | _ => []

namespace Method

/-- The methods that hand over counts.  `publish` has to publish something, and a row that is
added needs a score. -/
def Counting (R : Runtime O) : Method O → Prop
  | exec _ | execv _ | «exists» _ | del _ | hlen _ | sadd _ _ | srem _ _ | lrem _ _ _
    | llen _ => True
  | lpush _ _ | rpush _ _ | zremrangebyscore _ _ _ | zcard _ | zcount _ _ _ => True
  | zadd _ x => ∀ row ∈ x.rows, row ≠ []
  | publish channel s type => (publishPlan R channel s type).requests ≠ []
  | _ => False

/-- What is handed over when these counts come in: `zadd` adds up. -/
def counted : Method O → List ℤ → List ℤ
  | zadd _ _, ns => [ns.sum]
  | _, ns => ns

/-- The method hands the counts over as they are. -/
def Counts (R : Runtime O) (m : Method O) (ns : List ℤ) : Prop :=
  ∃ v w, scripted.run (m.code R) { answers := ns.map fun n => some (.integer n) } =
    (.ret v, w) ∧
    v.numbers = (m.counted ns).map fun n : ℤ => (n : ℚ)

end Method

/-! ## One count -/

/-- What a method makes of a count. -/
def Reader.count : Reader → ℤ → SEXP O
  | int, n => .int [toInt32 n]
  | _, n => .real [.ofInt n]

/-- The readers of counts. -/
def Reader.Counting (rd : Reader) : Prop := rd = extract ∨ rd = int ∨ rd = double

theorem Reader.value_of_integer {rd : Reader} (hrd : rd.Counting) {p : Pointer} {n : ℤ}
    (hp : p.node = .integer n) : rd.value R p = .ret (rd.count n) := by
  have hcheck : checkReplyType p .integer = .ret () := checkReplyType_of_eq (by rw [hp]; rfl)
  rcases hrd with rfl | rfl | rfl
  · rw [value, extractReply, hp, extractReplyAt]
    rfl
  · rw [value, intValue, hcheck, ret_bind, hp]
    rfl
  · rw [value, doubleOf_of_integer hp, ret_bind]
    rfl

/-- **One command** that is answered with a count. -/
theorem run_count (q : Request) {rd : Reader} (hrd : rd.Counting) (n : ℤ) :
    ∃ w, scripted.run ((Plan.command q rd).code R) { answers := [some (.integer n)] } =
      (.ret (rd.count n), w) := by
  have hne : rd ≠ .hget := by rcases hrd with rfl | rfl | rfl <;> decide
  rw [Env.run, Plan.code, run_requestNULLSafe_bind, afterRequest_scripted]
  dsimp only
  rw [Reader.code_of_ne hne, Reader.value_of_integer hrd rfl, run_thenFree_ret]
  exact ⟨_, rfl⟩

/-! ## Several counts -/

/-- One of several commands. -/
theorem run_counting_scripted (items : List Item) (g : Double → α) (n : ℤ) {ns : List ℤ}
    {w : World Script} (hw : w.env.answers = (n :: ns).map fun n => some (.integer n)) :
    ∃ w', run scripted.handler (counting items g) w = (.ret (g (.ofInt n)), w') ∧
      w'.env.answers = ns.map fun n => some (.integer n) := by
  rw [counting, run_requestNULLSafe_bind, afterRequest_scripted, hw, List.map_cons]
  dsimp only
  rw [doubleOf_of_integer rfl, ret_bind, run_thenFree_ret]
  exact ⟨_, rfl, rfl⟩

/-- **The loop of `zremrangebyscore`** keeps one count for each key. -/
theorem run_ranges (min max : Double) (keyvec : List CStr) {ns : List ℤ}
    (hlen : ns.length = keyvec.length) {w : World Script}
    (hw : w.env.answers = ns.map fun n => some (.integer n)) :
    ∃ w', run scripted.handler (keyvec.mapM (zremrangebyscoreKey min max)) w =
      (.ret (ns.map Double.ofInt), w') := by
  induction keyvec generalizing ns w with
  | nil =>
      obtain rfl := List.length_eq_zero_iff.mp hlen
      exact ⟨w, rfl⟩
  | cons key keyvec ih =>
      obtain ⟨n, ns, rfl⟩ := List.exists_cons_of_length_eq_add_one hlen
      obtain ⟨w', hfirst, hw'⟩ := run_counting_scripted
        (boundItems (keyword "ZREMRANGEBYSCORE") key min max) id n hw
      obtain ⟨w'', hrest⟩ := ih (by simpa using hlen) hw'
      rw [List.mapM_cons, zremrangebyscoreKey_eq, run_bind, hfirst, andThen_ret,
        run_bind, hrest]
      exact ⟨w'', rfl⟩

/-- **The loop of `zadd`** adds exactly, as long as the sum has at most 53 bits. -/
theorem run_rows_scripted (key : CStr) {rows : List (List Double)}
    (hrows : ∀ row ∈ rows, row ≠ []) {ns : List ℤ} (hlen : ns.length = rows.length)
    (hns : ∀ n ∈ ns, 0 ≤ n) {k : ℤ} (hk : 0 ≤ k) (hsum : k + ns.sum ≤ 2 ^ 53)
    {w : World Script} (hw : w.env.answers = ns.map fun n => some (.integer n)) :
    ∃ w', run scripted.handler (rows.foldlM (zaddRow key) (.ofInt k)) w =
      (.ret (.ofInt (k + ns.sum)), w') := by
  induction rows generalizing ns k w with
  | nil =>
      obtain rfl := List.length_eq_zero_iff.mp hlen
      rw [List.sum_nil, add_zero]
      exact ⟨w, rfl⟩
  | cons row rows ih =>
      obtain ⟨n, ns, rfl⟩ := List.exists_cons_of_length_eq_add_one hlen
      rw [List.forall_mem_cons] at hrows hns
      obtain ⟨d, rest, rfl⟩ := List.exists_cons_of_ne_nil hrows.1
      have hnonneg : 0 ≤ ns.sum := List.sum_nonneg hns.2
      rw [List.sum_cons] at hsum ⊢
      obtain ⟨w', hfirst, hw'⟩ := run_counting_scripted (rowItems key (d :: rest))
        (Double.addWhole (.ofInt k)) n hw
      have hadd : Double.addWhole (.ofInt k) (.ofInt n) = .ofInt (k + n) :=
        Double.addWhole_ofInt (by omega) (by omega)
      rw [hadd] at hfirst
      obtain ⟨w'', hrest⟩ := ih hrows.2 (by simpa using hlen) hns.2 (k := k + n) (by omega)
        (by omega) hw'
      have hrow : zaddRow key (.ofInt k) (d :: rest) =
          counting (rowItems key (d :: rest)) (Double.addWhole (.ofInt k)) := rfl
      rw [List.foldlM_cons, run_bind, hrow, hfirst, andThen_ret, hrest, add_assoc]
      exact ⟨w'', rfl⟩

/-! ## All of them -/

namespace Method

/-- A counting method sends one command and reads a count, but for the two with a loop.  `hlen`
alone reads it as an `int`. -/
theorem plan_of_counting {m : Method O} (hm : m.Counting R) :
    (∃ key x, m = zadd key x ∧ ∀ row ∈ x.rows, row ≠ []) ∨
    (∃ keyvec min max, m = zremrangebyscore keyvec min max) ∨
    (∃ q key, m = hlen key ∧ m.plan R = .command q .int) ∨
    ((∀ key, m ≠ hlen key) ∧ (∀ ns, m.counted ns = ns) ∧
      ∃ q rd, m.plan R = .command q rd ∧ (rd = .extract ∨ rd = .double)) := by
  cases m with
  | zadd key x => exact .inl ⟨key, x, rfl, hm⟩
  | zremrangebyscore keyvec min max => exact .inr (.inl ⟨keyvec, min, max, rfl⟩)
  | hlen key => exact .inr (.inr (.inl ⟨_, key, rfl, rfl⟩))
  | publish channel s type =>
      refine .inr (.inr (.inr ⟨by rintro key ⟨⟩, fun ns => rfl, ?_⟩))
      rw [Counting, publishPlan] at hm
      rw [plan, publishPlan]
      split_ifs at hm ⊢
      · cases hmsg : asString s with
        | none =>
            rw [hmsg] at hm
            exact absurd rfl hm
        | some msg => exact ⟨_, _, rfl, .inl rfl⟩
      · exact ⟨_, _, rfl, .inl rfl⟩
      · cases hraw : asRaw R s with
        | none =>
            rw [hraw] at hm
            exact absurd rfl hm
        | some x => exact ⟨_, _, rfl, .inl rfl⟩
      · exact absurd rfl hm
  | exec cmd | execv cmd | «exists» key | del sv | sadd key s | srem key s | lrem key count s
  | lpush key s | rpush key s =>
      exact .inr (.inr (.inr ⟨by rintro key ⟨⟩, fun ns => rfl, _, _, rfl, .inl rfl⟩))
  | llen key | zcard key | zcount key min max =>
      exact .inr (.inr (.inr ⟨by rintro key ⟨⟩, fun ns => rfl, _, _, rfl, .inr rfl⟩))
  | _ => exact absurd hm id

end Method

theorem numbers_real {l : List ℤ} (hl : ∀ n ∈ l, n.natAbs ≤ 2 ^ 53) :
    (SEXP.real (O := O) (l.map Double.ofInt)).numbers = l.map fun n : ℤ => (n : ℚ) := by
  rw [SEXP.numbers, List.map_map]
  exact List.map_congr_left fun n hn => Double.toRat_ofInt (hl n hn)

/-- An `int` holds a count below `2 ^ 31`, and no other. -/
theorem toInt32_eq_iff {n : ℤ} (hn : 0 ≤ n) : toInt32 n = n ↔ n < 2 ^ 31 := by
  constructor
  · intro h
    rw [← h]
    exact toInt32_lt n
  · intro h
    exact toInt32_eq_self (by omega) h

/-- **Counts arrive as they are**, but for those from `2 ^ 31` on that `hlen` hands over. -/
theorem counts_iff (R : Runtime O) {m : Method O} (hm : m.Counting R) {ns : List ℤ}
    (hlen : ns.length = (m.plan R).requests.length) (hns : ∀ n ∈ ns, 0 ≤ n)
    (hmax : ∀ n ∈ m.counted ns, n ≤ 2 ^ 53) :
    m.Counts R ns ↔ ∀ key, m = .hlen key → ∀ n ∈ ns, n < 2 ^ 31 := by
  rcases Method.plan_of_counting hm with ⟨key, x, rfl, hrows⟩ | ⟨keyvec, min, max, rfl⟩ |
    ⟨q, key, rfl, hplan⟩ | ⟨hne, hcounted, q, rd, hplan, hrd⟩
  · refine iff_of_true ?_ (by rintro key ⟨⟩)
    have hsum : ns.sum ≤ 2 ^ 53 := hmax _ List.mem_cons_self
    have hnonneg : 0 ≤ ns.sum := List.sum_nonneg hns
    obtain ⟨w, hrun⟩ :=
      run_rows_scripted key hrows (by simpa [Method.plan, Plan.requests] using hlen)
      hns le_rfl (by omega) (w := ⟨{ answers := ns.map fun n => some (.integer n) }, {}⟩) rfl
    rw [zero_add] at hrun
    refine ⟨_, w, ?_, numbers_real (l := [ns.sum]) (by simpa using by omega)⟩
    rw [Env.run, zadd_eq, run_bind, hrun]
    rfl
  · refine iff_of_true ?_ (by rintro key ⟨⟩)
    obtain ⟨w, hrun⟩ := run_ranges min max keyvec
      (by simpa [Method.plan, Plan.requests] using hlen)
      (w := ⟨{ answers := ns.map fun n => some (.integer n) }, {}⟩) rfl
    refine ⟨.real (ns.map Double.ofInt), w, ?_, numbers_real fun n hn => ?_⟩
    · have hcode : Method.code R (.zremrangebyscore keyvec min max) =
          keyvec.mapM (zremrangebyscoreKey min max) >>= fun res => .ret (.real res) := rfl
      rw [Env.run, hcode, run_bind, hrun]
      rfl
    · have hle := hmax n hn
      have hge := hns n hn
      omega
  · rw [hplan] at hlen
    obtain ⟨n, rfl⟩ := List.length_eq_one_iff.mp hlen
    obtain ⟨w, hrun⟩ := run_count (R := R) q (.inr (.inl rfl)) n
    have hn : 0 ≤ n := hns n List.mem_cons_self
    rw [Method.Counts, Method.code_eq, hplan]
    simp only [List.map_cons, List.map_nil, hrun]
    constructor
    · rintro ⟨v, w', hv, hnumbers⟩ key' -
      cases hv
      rw [List.forall_mem_singleton, ← toInt32_eq_iff hn]
      exact Int.cast_injective (List.cons.inj hnumbers).1
    · intro h
      have hlt := h key rfl n List.mem_cons_self
      refine ⟨_, w, rfl, ?_⟩
      rw [Reader.count, (toInt32_eq_iff hn).mpr hlt]
      rfl
  · refine iff_of_true ?_ fun key h => absurd h (hne key)
    rw [hplan] at hlen
    obtain ⟨n, rfl⟩ := List.length_eq_one_iff.mp hlen
    have hn : 0 ≤ n := hns n List.mem_cons_self
    have hle : n ≤ 2 ^ 53 := hmax n (by rw [hcounted]; exact List.mem_cons_self)
    have hcount : rd.count n = (.real [.ofInt n] : SEXP O) := by
      rcases hrd with rfl | rfl <;> rfl
    obtain ⟨w, hrun⟩ := run_count (R := R) q (hrd.imp_right .inr) n
    refine ⟨rd.count n, w, ?_, ?_⟩
    · rw [Method.code_eq, hplan]
      exact hrun
    · rw [hcount, hcounted]
      exact numbers_real (l := [n]) (by simpa using by omega)

/-! ## The size of a hash -/

/-- The fields of the hashes under all keys. -/
abbrev HashFields : Type := Bytes → List Bytes

/-- A server of hashes, for their sizes and their fields. -/
def hashFields : Server HashFields
  | [w, key], h =>
      if w = ascii "HLEN" then (.integer (h key).length, h)
      else if w = ascii "HKEYS" then (.array ((h key).map .string), h)
      else (.error (ascii "ERR unknown command"), h)
  | _, h => (.error (ascii "ERR unknown command"), h)

/-- `hlen`, HLEN by way of `exec`, and the length of what `hkeys` returns are the same. -/
def SizesAgree (R : Runtime O) (key cmd : CStr) (h : HashFields) : Prop :=
  ∃ v v' l, ((Conn.env hashFields).run (Method.code R (.hlen key)) { server := h }).1 =
    .ret v ∧
    ((Conn.env hashFields).run (Method.code R (.exec cmd)) { server := h }).1 = .ret v' ∧
    ((Conn.env hashFields).run (Method.code R (.hkeys key)) { server := h }).1 =
      .ret (.str l) ∧
    v.numbers = v'.numbers ∧ v.numbers = [(l.length : ℚ)]

/-- A method that sends a command on its own and reads the reply. -/
theorem run_read (R : Runtime O) {σ : Type} (S : Server σ) {q : Request} {words : List Bytes}
    (hexact : q.Exact words) (hne : words ≠ []) (rd : Reader) (hrd : rd ≠ .hget)
    {x : SEXP O} {s : σ}
    (hvalue : ∀ p : Pointer, p.node = (S words s).1 → rd.value R p = .ret x) :
    ((Conn.env S).run ((Plan.command q rd).code R) { server := s }).1 = .ret x := by
  rw [Env.run, Plan.code, run_command S hexact hne _ rfl, Reader.code_of_ne hrd, hvalue _ rfl,
    run_thenFree_ret]

/-- **The size of a hash** is the same by all three ways exactly below `2 ^ 31`. -/
theorem sizesAgree_iff (R : Runtime O) {key cmd : CStr}
    (hcmd : cmd.bytes = ascii "HLEN " ++ key.bytes) (hwhole : Whole [ascii "HLEN", key.bytes])
    (hfits : (encodeCommand [ascii "HKEYS", key.bytes]).length + 1 < 2 ^ 31) {h : HashFields}
    (hsize : (h key.bytes).length < 2 ^ 32) :
    SizesAgree R key cmd h ↔ (h key.bytes).length < 2 ^ 31 := by
  have hlt : (encodeCommand [ascii "HLEN", key.bytes]).length + 1 < 2 ^ 31 := by
    have hlen : bulklen (ascii "HLEN").length = 10 := rfl
    have hkeys : bulklen (ascii "HKEYS").length = 11 := rfl
    rw [length_encodeCommand] at hfits ⊢
    simp only [List.map_cons, List.sum_cons, List.length_cons, hlen, hkeys] at hfits ⊢
    omega
  have hline : joined [ascii "HLEN", key.bytes] = cmd.bytes := by
    rw [hcmd]
    simp [joined, ascii]
  have hexec : Request.Exact (.format cmd.bytes []) [ascii "HLEN", key.bytes] := by
    rw [← hline]
    exact exact_pasted (List.cons_ne_nil _ _) ⟨hwhole, hlt⟩
  have hhlen := (Request.Encodes.format [keyword "HLEN", .str key]
    (by simp)).exact_iff_fits.mpr hlt
  have hhkeys := (Request.Encodes.format [keyword "HKEYS", .str key]
    (by simp)).exact_iff_fits.mpr hfits
  have hint : ((Conn.env hashFields).run (Method.code R (.hlen key)) { server := h }).1 =
      .ret (Reader.count .int (h key.bytes).length) :=
    run_read R hashFields hhlen (by simp) .int (by decide) fun p hp =>
      Reader.value_of_integer (.inr (.inl rfl)) hp
  have hdouble : ((Conn.env hashFields).run (Method.code R (.exec cmd)) { server := h }).1 =
      .ret (Reader.count .extract (h key.bytes).length) :=
    run_read R hashFields hexec (by simp) .extract (by decide) fun p hp =>
      Reader.value_of_integer (.inl rfl) hp
  have hnames : ((Conn.env hashFields).run (Method.code R (.hkeys key)) { server := h }).1 =
      .ret (.str ((h key.bytes).map CStr.ofBuffer)) :=
    run_read R hashFields hhkeys (by simp) .strings (by decide) fun p hp =>
      stringsValue_of_strings hp
  have hcount : (Reader.count (O := O) .extract (h key.bytes).length).numbers =
      [((h key.bytes).length : ℚ)] := by
    exact numbers_real (l := [((h key.bytes).length : ℤ)]) (by simpa using by omega)
  rw [← Nat.cast_lt (α := ℤ), Nat.cast_pow, Nat.cast_ofNat,
    ← toInt32_eq_iff (n := (h key.bytes).length) (by omega)]
  constructor
  · rintro ⟨v, v', l, hv, hv', -, hagree, -⟩
    rw [hint] at hv
    rw [hdouble] at hv'
    cases hv
    cases hv'
    rw [hcount] at hagree
    exact Int.cast_injective (List.cons.inj hagree).1
  · intro hself
    have hnumbers : (Reader.count (O := O) .int (h key.bytes).length).numbers =
        [((h key.bytes).length : ℚ)] := by
      rw [Reader.count, hself]
      rfl
    refine ⟨_, _, _, hint, hdouble, hnames, hnumbers.trans hcount.symm, ?_⟩
    rw [hnumbers, List.length_map]

/-! ## Both -/

/-- **Counts.**  A count of at most 53 bits arrives as it is by every counting method, but for
those from `2 ^ 31` on that `hlen` hands over, and `hlen` agrees with `exec` and `hkeys` on the
size of a hash exactly below `2 ^ 31`. -/
theorem counts_arrive_iff (R : Runtime O) :
    (∀ (m : Method O) (ns : List ℤ), m.Counting R → ns.length = (m.plan R).requests.length →
      (∀ n ∈ ns, 0 ≤ n) → (∀ n ∈ m.counted ns, n ≤ 2 ^ 53) →
        (m.Counts R ns ↔ ∀ key, m = .hlen key → ∀ n ∈ ns, n < 2 ^ 31)) ∧
    ∀ (key cmd : CStr) (h : HashFields), cmd.bytes = ascii "HLEN " ++ key.bytes →
      Whole [ascii "HLEN", key.bytes] →
      (encodeCommand [ascii "HKEYS", key.bytes]).length + 1 < 2 ^ 31 →
      (h key.bytes).length < 2 ^ 32 →
        (SizesAgree R key cmd h ↔ (h key.bytes).length < 2 ^ 31) :=
  ⟨fun _ _ hm hlen hns hmax => counts_iff R hm hlen hns hmax,
    fun _ _ _ hcmd hwhole hfits hsize => sizesAgree_iff R hcmd hwhole hfits hsize⟩

/-- `hlen` counts up to `2 ^ 31 - 1` fields. -/
theorem most_fields_counts :
    Method.Counts Runtime.onlyNull (.hlen (.ofAscii "k")) [2147483647] := by
  refine ((counts_arrive_iff Runtime.onlyNull).1 (.hlen (.ofAscii "k")) _ trivial rfl ?_
    ?_).mpr ?_
  · decide
  · decide
  · rintro key - n hn
    rw [List.mem_singleton.mp hn]
    decide

/-- A hash of `2 ^ 31` fields does not have that size by `hlen`. -/
theorem hlen_wraps : ¬ Method.Counts Runtime.onlyNull (.hlen (.ofAscii "k")) [2147483648] := by
  rintro ⟨v, w, hrun, hnumbers⟩
  obtain ⟨w', hrun'⟩ := run_count (R := Runtime.onlyNull)
    (.format (ascii "HLEN %s") [.cstr (CStr.ofAscii "k").bytes]) (.inr (.inl rfl)) 2147483648
  cases hrun.symm.trans hrun'
  revert hnumbers
  decide

end RcppRedis
