import RcppRedis.Redis.Scores

/-!
# What is left of a score after six decimals

Rows stored by `zadd` are listed by `zrange`, selected by `zrangebyscore`, counted by `zcount`
and removed by `zremrangebyscore`.  `Faithful` says that all four go by the first element of a
row.

* `faithful_iff_tells` — they do exactly when six decimals tell the scores apart, and the rows
  make a matrix.
-/

namespace RcppRedis

open Bytes Resp Hiredis Interact Prog

variable {O : Type} {R : Runtime O} {ρ : Double.Rounding}

/-! ## Rows as a matrix -/

/-- The list has the rows, each once. -/
def Lists (l : List (List Double)) (rows : Finset (List Double)) : Prop :=
  l.Nodup ∧ ∀ row, row ∈ l ↔ row ∈ rows

/-- A call ends with a matrix that has the given rows, each once, in this order. -/
def MatrixOf (rows : Finset (List Double)) (l : List (List Double))
    (o : Outcome RError Fault (SEXP O)) : Prop :=
  ∃ ncol, o = .ret (.matrix ncol l) ∧ (∀ row ∈ l, row.length = ncol) ∧ Lists l rows

theorem Lists.unique {l : List (List Double)} {rows rows' : Finset (List Double)}
    (h : Lists l rows) (h' : Lists l rows') : rows = rows' := by
  ext row
  rw [← h.2 row, h'.2 row]

theorem Lists.length_eq {l : List (List Double)} {rows : Finset (List Double)}
    (h : Lists l rows) : l.length = rows.card := by
  have hrows : l.toFinset = rows := by
    ext row
    rw [List.mem_toFinset, h.2 row]
  rw [← hrows, List.toFinset_card_of_nodup h.1]

theorem zremrangebyscore_eq (key : CStr) (min max : Double) :
    Method.code R (.zremrangebyscore [key] min max) =
      requestNULLSafe (.format (template (boundItems (keyword "ZREMRANGEBYSCORE") key min max))
        ((boundItems (keyword "ZREMRANGEBYSCORE") key min max).map Item.args).flatten) >>=
          fun reply =>
          thenFree reply (doubleOf reply) >>= fun n => .ret (.real [n]) := by
  have hcode : Method.code R (.zremrangebyscore [key] min max) =
      ([key].mapM (zremrangebyscoreKey min max)) >>= fun res => .ret (.real res) := rfl
  rw [hcode, List.mapM_cons, List.mapM_nil, Prog.bind_assoc]
  exact Prog.bind_assoc _ _ _

section Members

variable [LinearOrder Member] {rows : Finset (List Double)}

/-- The rows as the server lists them. -/
def listed (ρ : Double.Rounding) (rows : Finset (List Double)) : List Member :=
  (SortedSet.ofScores (Member.score ρ) (rows.image Member.ofRow)).list

theorem mem_listed {x : Member} : x ∈ listed ρ rows ↔ ∃ row ∈ rows, Member.ofRow row = x := by
  rw [listed, SortedSet.mem_list_ofScores, Finset.mem_image]

theorem ofRow_toRow_of_mem {x : Member} (h : x ∈ listed ρ rows) : .ofRow x.toRow = x := by
  obtain ⟨row, -, rfl⟩ := mem_listed.mp h
  rw [Member.toRow_ofRow]

/-- The listed members are the rows. -/
theorem lists_listed : Lists ((listed ρ rows).map Member.toRow) rows := by
  constructor
  · refine SortedSet.nodup_list_ofScores.map_on ?_
    intro x hx y hy h
    rw [← ofRow_toRow_of_mem hx, ← ofRow_toRow_of_mem hy, h]
  · intro row
    rw [List.mem_map]
    constructor
    · rintro ⟨x, hx, rfl⟩
      obtain ⟨row, hrow, rfl⟩ := mem_listed.mp hx
      rwa [Member.toRow_ofRow]
    · intro hrow
      exact ⟨.ofRow row, mem_listed.mpr ⟨row, hrow, rfl⟩, Member.toRow_ofRow row⟩

@[simp] theorem length_listed : (listed ρ rows).length = rows.card := by
  rw [listed, SortedSet.length_list, SortedSet.card_ofScores,
    Finset.card_image_of_injective _ Member.ofRow_injective]

/-- **Rows of one width** make a matrix. -/
theorem rowsValue_listed {n : ℕ} (hn : 8 * n < 2 ^ 32) (hrows : ∀ row ∈ rows, row.length = n)
    (hne : rows.Nonempty) (hsmall : rows.card < 2 ^ 31) {p : Pointer}
    (hp : p.node = scoreReply (.elements (listed ρ rows))) :
    rowsValue (O := O) p = .ret (.matrix n ((listed ρ rows).map Member.toRow)) := by
  have hnode : p.node = .array (((listed ρ rows).map Member.bytes).map Reply.string) := by
    rw [hp, List.map_map]
    rfl
  obtain ⟨row, hrow⟩ := hne
  have hmem : Member.ofRow row ∈ listed ρ rows := mem_listed.mpr ⟨row, hrow, rfl⟩
  have hlen : ∀ b ∈ (listed ρ rows).map Member.bytes, b.length = 8 * n := by
    intro b hb
    obtain ⟨x, hx, rfl⟩ := List.mem_map.mp hb
    obtain ⟨row', hrow', rfl⟩ := mem_listed.mp hx
    rw [← hrows row' hrow']
    exact Double.length_bytesOfVector row'
  obtain ⟨v, hv, ncol, l, hl, hbytes, rfl⟩ := (rows_words_iff (O := O) hnode).mpr
    ⟨List.ne_nil_of_mem (List.mem_map_of_mem hmem), by simpa using hsmall, n, hn, hlen⟩
  have hrow' : (listed ρ rows).map Member.toRow = l := by
    have hmap : (listed ρ rows).map Member.toRow =
        (l.map Double.bytesOfVector).map Double.vectorOfBytes := by
      rw [← hbytes, List.map_map]
      rfl
    simpa [Function.comp_def] using hmap
  have hncol : ncol = n := by
    rw [← hrows row hrow, ← hl row]
    rw [← hrow']
    exact (lists_listed.2 row).mpr hrow
  rw [hv, hrow', hncol]

/-- No rows make no matrix. -/
theorem rowsValue_listed_empty {p : Pointer}
    (hp : p.node = scoreReply (.elements (listed ρ ∅))) :
    rowsValue (O := O) p = .fault .elementRange := by
  have hnil : listed ρ ∅ = [] := by
    rw [List.eq_nil_iff_forall_not_mem]
    intro x hx
    obtain ⟨row, hrow, -⟩ := mem_listed.mp hx
    exact absurd hrow (Finset.notMem_empty row)
  rw [hnil] at hp
  exact rowsValue_nil hp

/-! ## The calls -/

/-- Too many rows make no matrix. -/
theorem not_lists_of_rowsValue {p : Pointer}
    (hp : p.node = scoreReply (.elements (listed ρ rows))) (hmany : ¬ rows.card < 2 ^ 31)
    {ncol : ℕ} {l : List (List Double)} (hl : Lists l rows) :
    rowsValue (O := O) p ≠ .ret (.matrix ncol l) := by
  intro hread
  have hnode : p.node = .array (((listed ρ rows).map Member.bytes).map Reply.string) := by
    rw [hp, List.map_map]
    rfl
  obtain ⟨hle, hlt⟩ := length_lt_of_rowsValue hnode hread
  rw [hl.length_eq] at hle
  omega

/-- **A call that reads rows** ends with a matrix of the rows that the server selects exactly
when there are any, and not too many. -/
theorem matrixOf_iff {items : List Item} {key : CStr} {act : SortedSet.Action ℚ Member}
    (hcommand : scoreCommand ρ (items.map Item.text) = some (key.bytes, act))
    (hne : items ≠ []) (hfits : (encodeCommand (items.map Item.text)).length + 1 < 2 ^ 31)
    {S : Finset Member} {m : Scores}
    (hact : (act.run (.ofScores (Member.score ρ) S)).1 = .elements (listed ρ rows)) {n : ℕ}
    (hn : 8 * n < 2 ^ 32) (hrows : ∀ row ∈ rows, row.length = n) {l : List (List Double)} :
    MatrixOf rows l ((Conn.env (scores ρ)).run
      (requestNULLSafe (.format (template items) (items.map Item.args).flatten) >>=
        Reader.code (O := O) R .rows) { server := withMembers ρ key S m }).1 ↔
      rows.Nonempty ∧ rows.card < 2 ^ 31 ∧ l = (listed ρ rows).map Member.toRow := by
  obtain ⟨p, w, hp, -, hrun⟩ :=
    run_scoreCommand hcommand hne hfits (Reader.code (O := O) R .rows)
    (S := S) (m := m) (w := ⟨{ server := withMembers ρ key S m }, {}⟩) rfl
  rw [hact] at hp
  rw [Env.run, hrun, Reader.code_of_ne (by simp), Reader.value]
  rcases rows.eq_empty_or_nonempty with rfl | hnonempty
  · rw [rowsValue_listed_empty hp, run_thenFree_fault]
    refine iff_of_false ?_ fun h => Finset.not_nonempty_empty h.1
    rintro ⟨ncol, ⟨⟩, -⟩
  by_cases hsmall : rows.card < 2 ^ 31
  · rw [rowsValue_listed hn hrows hnonempty hsmall hp, run_thenFree_ret]
    constructor
    · rintro ⟨ncol, ho, -, -⟩
      exact ⟨hnonempty, hsmall, (SEXP.matrix.inj (Outcome.ret.inj ho)).2.symm⟩
    · rintro ⟨-, -, rfl⟩
      refine ⟨n, rfl, ?_, lists_listed⟩
      intro row hrow
      exact hrows row ((lists_listed.2 row).mp hrow)
  · refine iff_of_false ?_ fun h => hsmall h.2.1
    rintro ⟨ncol, ho, -, hl⟩
    exact not_lists_of_rowsValue hp hsmall hl
      ((run_thenFree_ret_iff _ (leaf_rowsValue p)).mp ho)

/-! ## Fidelity -/

/-- The calls on a key go by the first elements of the rows stored there: they are listed in
that order, and selected, counted and removed where it is in the range. -/
structure Faithful (R : Runtime O) (ρ : Double.Rounding) (key : CStr)
    (rows : Finset (List Double)) (min max : Double) (c : Conn Scores) : Prop where
  zrange : ∃ l, MatrixOf rows l
      ((Conn.env (scores ρ)).run (Method.code R (.zrange key 0 (-1))) c).1 ∧
    l.Pairwise fun row row' => scoreOf row ≤ scoreOf row'
  zrangebyscore : ∃ l, MatrixOf (within min max rows) l
    ((Conn.env (scores ρ)).run (Method.code R (.zrangebyscore key min max)) c).1
  zcount : ((Conn.env (scores ρ)).run (Method.code R (.zcount key min max)) c).1 =
    .ret (.real [.ofInt (within min max rows).card])
  zremrangebyscore : ∃ w,
    (Conn.env (scores ρ)).run (Method.code R (.zremrangebyscore [key] min max)) c =
      (.ret (.real [.ofInt (within min max rows).card]), w) ∧
    (∀ x, x ∈ (w.env.server key.bytes).list ↔
      ∃ row ∈ rows \ within min max rows, .ofRow row = x) ∧
    ∀ k ≠ key.bytes, w.env.server k = c.server k

/-- Six decimals tell the scores apart: no other row is printed as if it were in the range, and
rows that are printed alike are listed right.  There are rows in the range, and all rows are as
many as a matrix may have and have one width; and the frames fit. -/
structure Tells (key : CStr) (rows : Finset (List Double)) (min max : Double) : Prop where
  bounds : shown min max rows ⊆ within min max rows
  order : ∀ row ∈ rows, ∀ row' ∈ rows, scoreOf row < scoreOf row' →
    printed row = printed row' →
    Member.ofRow row < Member.ofRow row'
  nonempty : (within min max rows).Nonempty
  small : rows.card < 2 ^ 31
  width : ∃ n, ∀ row ∈ rows, row.length = n
  fits : BoundsFit key min max

/-- The list is in the order of the first elements exactly when that of rows printed alike
is. -/
theorem pairwise_listed_iff (hrows : ∀ row ∈ rows, HasScore row) :
    ((listed ρ rows).map Member.toRow).Pairwise (fun row row' => scoreOf row ≤ scoreOf row') ↔
      ∀ row ∈ rows, ∀ row' ∈ rows, scoreOf row < scoreOf row' → printed row = printed row' →
        Member.ofRow row < Member.ofRow row' := by
  rw [List.pairwise_map, listed, SortedSet.pairwise_list_iff fun x : Member => scoreOf x.toRow]
  simp only [Finset.forall_mem_image, Member.toRow_ofRow, score_ofRow]
  refine forall₂_congr fun row hrow => forall₂_congr fun row' hrow' => ?_
  have hfinite := (hrows row hrow).isFinite
  have hfinite' := (hrows row' hrow').isFinite
  rw [ρ.le_iff hfinite hfinite', ρ.eq_iff hfinite hfinite']
  constructor
  · intro h hlt
    exact (h hlt).2
  · intro h hlt
    exact ⟨Double.millionths_mono hlt.le, h hlt⟩

/-! ## The calls on stored rows -/

/-- The server after the rows were stored. -/
def withRows (ρ : Double.Rounding) (key : CStr) (rows : Finset (List Double)) (m : Scores) :
    Conn Scores :=
  { server := withMembers ρ key (rows.image Member.ofRow) m }

variable {key : CStr} {min max : Double} {m : Scores}

theorem mem_list_withRows {x : Member} :
    x ∈ ((withRows ρ key rows m).server key.bytes).list ↔
      ∃ row ∈ rows, Member.ofRow row = x := by
  have hkey : (withRows ρ key rows m).server key.bytes =
      .ofScores (Member.score ρ) (rows.image Member.ofRow) := Function.update_self _ _ _
  rw [hkey, SortedSet.mem_list_ofScores, Finset.mem_image]

theorem withRows_of_ne {k : Bytes} (hk : k ≠ key.bytes) :
    (withRows ρ key rows m).server k = m k :=
  Function.update_of_ne hk _ _

theorem zrange_iff (hfits : (encodeCommand ((allItems key).map Item.text)).length + 1 < 2 ^ 31)
    {n : ℕ} (hn : 8 * n < 2 ^ 32) (hwidth : ∀ row ∈ rows, row.length = n)
    {l : List (List Double)} :
    MatrixOf rows l ((Conn.env (scores ρ)).run (Method.code R (.zrange key 0 (-1)))
        (withRows ρ key rows m)).1 ↔
      rows.Nonempty ∧ rows.card < 2 ^ 31 ∧ l = (listed ρ rows).map Member.toRow := by
  refine matrixOf_iff (R := R) (scoreCommand_all key) (by simp [allItems]) hfits ?_ hn hwidth
  rw [SortedSet.Action.run, KeyedLists.slice_all]
  rfl

theorem zrangebyscore_iff (hrows : ∀ row ∈ rows, HasScore row) (hmin : min.isFinite = true)
    (hmax : max.isFinite = true) (hfits : BoundsFit key min max) {n : ℕ} (hn : 8 * n < 2 ^ 32)
    (hwidth : ∀ row ∈ rows, row.length = n) {l : List (List Double)} :
    MatrixOf (shown min max rows) l
        ((Conn.env (scores ρ)).run (Method.code R (.zrangebyscore key min max))
          (withRows ρ key rows m)).1 ↔
      (shown min max rows).Nonempty ∧ (shown min max rows).card < 2 ^ 31 ∧
        l = (listed ρ (shown min max rows)).map Member.toRow := by
  refine matrixOf_iff (R := R) (scoreCommand_bounds hmin hmax key).1 (by simp [boundItems])
    hfits.shorter.1 ?_ hn fun row hrow => hwidth row (Finset.mem_of_mem_filter row hrow)
  rw [SortedSet.Action.run, SortedSet.select_ofScores, filter_score hrows hmin hmax]
  rfl

theorem run_zcount (hrows : ∀ row ∈ rows, HasScore row) (hmin : min.isFinite = true)
    (hmax : max.isFinite = true) (hfits : BoundsFit key min max) :
    ((Conn.env (scores ρ)).run (Method.code R (.zcount key min max))
      (withRows ρ key rows m)).1 =
      .ret (.real [.ofInt (shown min max rows).card]) := by
  obtain ⟨p, w, hp, -, hrun⟩ := run_scoreCommand (scoreCommand_bounds hmin hmax key).2.1
    (by simp [boundItems]) hfits.shorter.2 (Reader.code (O := O) R .double)
    (S := rows.image Member.ofRow) (m := m) (w := ⟨withRows ρ key rows m, {}⟩) rfl
  rw [SortedSet.Action.run, SortedSet.select_ofScores, filter_score hrows hmin hmax,
    SortedSet.card_ofScores, Finset.card_image_of_injective _ Member.ofRow_injective] at hp
  refine (congrArg Prod.fst hrun).trans ?_
  rw [Reader.code_of_ne (by simp), Reader.value, doubleOf_of_integer hp, ret_bind, pure_eq,
    run_thenFree_ret]

theorem run_zremrangebyscore (hrows : ∀ row ∈ rows, HasScore row) (hmin : min.isFinite = true)
    (hmax : max.isFinite = true) (hfits : BoundsFit key min max) :
    ∃ w, (Conn.env (scores ρ)).run (Method.code R (.zremrangebyscore [key] min max))
        (withRows ρ key rows m) = (.ret (.real [.ofInt (shown min max rows).card]), w) ∧
      w.env = withRows ρ key (rows \ shown min max rows) m := by
  obtain ⟨p, w, hp, hw, hrun⟩ := run_scoreCommand (scoreCommand_bounds hmin hmax key).2.2
    (by simp [boundItems]) hfits
    (fun reply => thenFree reply (doubleOf reply) >>= fun n => .ret (SEXP.real (O := O) [n]))
    (S := rows.image Member.ofRow) (m := m) (w := ⟨withRows ρ key rows m, {}⟩) rfl
  rw [SortedSet.Action.run, SortedSet.select_ofScores, filter_score hrows hmin hmax,
    SortedSet.card_ofScores, Finset.card_image_of_injective _ Member.ofRow_injective] at hp
  rw [SortedSet.Action.run] at hw
  dsimp only at hw
  rw [SortedSet.select_ofScores, Finset.filter_not, filter_score hrows hmin hmax,
    ← Finset.image_sdiff _ _ Member.ofRow_injective] at hw
  rw [Env.run, zremrangebyscore_eq, hrun, doubleOf_of_integer hp, run_thenFree_ret_bind]
  exact ⟨_, rfl, hw⟩

/-- Bounds that are too long for a frame let nothing be removed. -/
theorem boundsFit_of_returned {c : Conn Scores} (h : ((Conn.env (scores ρ)).run
    (Method.code R (.zremrangebyscore [key] min max)) c).1.Returned) :
      BoundsFit key min max := by
  by_contra hfits
  rw [Env.run, zremrangebyscore_eq] at h
  exact not_returned_of_not_fits (by simp [boundItems]) hfits _ _ h

/-- Rows are stored under a key where nothing is. -/
theorem stores_withRows (R : Runtime O) (ρ : Double.Rounding) {xs : List NumericMatrix}
    (hrows : ∀ x ∈ xs, ∀ row ∈ x.rows, HasScore row)
    (hfits : ∀ x ∈ xs, ∀ row ∈ x.rows, RowFits key row) (hm : m key.bytes = .empty) :
    Stores R ρ key xs { server := m } (withRows ρ key (rowsOf xs) m) := by
  obtain ⟨c, hc⟩ := exists_stores (ρ := ρ) R hrows hfits ∅ m
  obtain ⟨-, rfl⟩ := hc.stored hrows
  rwa [withMembers_empty hm, Finset.empty_union] at hc

theorem Tells.faithful (hrows : ∀ row ∈ rows, HasScore row)
    (hfits : ∀ row ∈ rows, RowFits key row) (hmin : min.isFinite = true)
    (hmax : max.isFinite = true) (h : Tells key rows min max) :
    Faithful R ρ key rows min max (withRows ρ key rows m) := by
  obtain ⟨k, hk⟩ := h.width
  obtain ⟨n, hn, hwidth⟩ := exists_width hfits hk
  have hshown := within_eq_shown_iff.mpr h.bounds
  have hnonempty := h.nonempty
  obtain ⟨row, hrow⟩ := hnonempty
  have hmem : row ∈ rows := Finset.mem_of_mem_filter row hrow
  have hsmall : (shown min max rows).card < 2 ^ 31 :=
    (Finset.card_filter_le rows _).trans_lt h.small
  refine ⟨⟨_, (zrange_iff ((hfits row hmem).all (hrows row hmem)) hn hwidth).mpr
    ⟨⟨row, hmem⟩, h.small, rfl⟩, (pairwise_listed_iff hrows).mpr h.order⟩, ?_, ?_, ?_⟩
  · rw [hshown]
    exact ⟨_, (zrangebyscore_iff hrows hmin hmax h.fits hn hwidth).mpr
      ⟨hshown ▸ h.nonempty, hsmall, rfl⟩⟩
  · rw [run_zcount hrows hmin hmax h.fits, hshown]
  · obtain ⟨w, hrun, hw⟩ :=
      run_zremrangebyscore (R := R) (ρ := ρ) (m := m) hrows hmin hmax h.fits
    refine ⟨w, by rw [hrun, hshown], ?_, ?_⟩
    · intro x
      rw [hw, hshown, mem_list_withRows]
    · intro k hk
      rw [hw, withRows_of_ne hk, withRows_of_ne hk]

/-- What is removed shows which rows the server takes to be in the range. -/
theorem within_eq_shown_of_removed (hrows : ∀ row ∈ rows, HasScore row)
    (hmin : min.isFinite = true) (hmax : max.isFinite = true)
    (h : Faithful R ρ key rows min max (withRows ρ key rows m)) :
    within min max rows = shown min max rows := by
  obtain ⟨w, hrun, hleft, -⟩ := h.zremrangebyscore
  obtain ⟨w', hrun', hw'⟩ := run_zremrangebyscore (R := R) (ρ := ρ) (m := m) hrows hmin hmax
    (boundsFit_of_returned ⟨_, congrArg Prod.fst hrun⟩)
  obtain rfl : w' = w := (Prod.mk.inj (hrun'.symm.trans hrun)).2
  refine within_eq_shown_iff.mpr fun row hshown => ?_
  have hmem : row ∈ rows := Finset.mem_of_mem_filter row hshown
  by_contra hwithin
  obtain ⟨row', hrow', heq⟩ := mem_list_withRows.mp
    (hw' ▸ (hleft (.ofRow row)).mpr ⟨row, Finset.mem_sdiff.mpr ⟨hmem, hwithin⟩, rfl⟩)
  obtain rfl := Member.ofRow_injective heq
  exact (Finset.mem_sdiff.mp hrow').2 hshown

theorem Faithful.tells (hrows : ∀ row ∈ rows, HasScore row)
    (hfits : ∀ row ∈ rows, RowFits key row) (hmin : min.isFinite = true)
    (hmax : max.isFinite = true) (h : Faithful R ρ key rows min max (withRows ρ key rows m)) :
    Tells key rows min max := by
  obtain ⟨l, hl, hsorted⟩ := h.zrange
  obtain ⟨l', hl'⟩ := h.zrangebyscore
  obtain ⟨w, hrun, -⟩ := h.zremrangebyscore
  have hbounds : BoundsFit key min max := boundsFit_of_returned ⟨_, congrArg Prod.fst hrun⟩
  have hshown := within_eq_shown_of_removed hrows hmin hmax h
  obtain ⟨ncol, -, hncol, hlists⟩ := id hl
  have hk : ∀ row ∈ rows, row.length = ncol :=
    fun row hrow => hncol row ((hlists.2 row).mpr hrow)
  obtain ⟨n, hn, hwidth⟩ := exists_width hfits hk
  rw [hshown] at hl'
  obtain ⟨hnonempty, -⟩ := (zrangebyscore_iff hrows hmin hmax hbounds hn hwidth).mp hl'
  have hrow : ∃ row, row ∈ rows := hnonempty.imp fun row hrow =>
    Finset.mem_of_mem_filter row hrow
  obtain ⟨row, hrow⟩ := hrow
  obtain ⟨-, hsmall, rfl⟩ :=
    (zrange_iff ((hfits row hrow).all (hrows row hrow)) hn hwidth).mp hl
  exact ⟨within_eq_shown_iff.mp hshown, (pairwise_listed_iff hrows).mp hsorted,
    hshown ▸ hnonempty,
    hsmall, ⟨ncol, hk⟩, hbounds⟩

/-- **Scores keep their meaning** exactly when six decimals tell them apart: for rows that any
run of `zadd` calls has stored under a key, and any finite bounds. -/
theorem faithful_iff_tells (R : Runtime O) (ρ : Double.Rounding) {key : CStr}
    {xs : List NumericMatrix} (hrows : ∀ x ∈ xs, ∀ row ∈ x.rows, HasScore row) {m : Scores}
    (hm : m key.bytes = .empty) {c : Conn Scores}
    (hstores : Stores R ρ key xs { server := m } c) {min max : Double}
    (hmin : min.isFinite = true) (hmax : max.isFinite = true) :
    Faithful R ρ key (rowsOf xs) min max c ↔ Tells key (rowsOf xs) min max := by
  have hmem {P : List Double → Prop} (h : ∀ x ∈ xs, ∀ row ∈ x.rows, P row) :
      ∀ row ∈ rowsOf xs, P row := by
    intro row hrow
    obtain ⟨x, hx, hrow⟩ := List.mem_flatMap.mp (List.mem_toFinset.mp hrow)
    exact h x hx row hrow
  rw [← withMembers_empty (ρ := ρ) hm] at hstores
  obtain ⟨hfits, rfl⟩ := hstores.stored hrows
  rw [Finset.empty_union]
  constructor
  · intro h
    exact h.tells (hmem hrows) (hmem hfits) hmin hmax
  · intro h
    exact h.faithful (hmem hrows) (hmem hfits) hmin hmax

end Members

/-! ## Instants -/

/-- A number of seconds since the epoch, and the double after it. -/
def instant : Double := .ofInt 1700000000

def justAfter : Double := instant + 1

theorem instant_lt_justAfter : instant.toRat < justAfter.toRat := by
  have hmantissa : justAfter.mantissa = instant.mantissa + 1 := by decide
  have hexponent : justAfter.exponent = instant.exponent := by decide
  have hpow : (0 : ℚ) < 2 ^ instant.exponent := by positivity
  rw [Double.toRat, Double.toRat, hmantissa, hexponent, if_neg (by decide), if_neg (by decide)]
  push_cast
  linarith

theorem millionths_justAfter : justAfter.millionths = instant.millionths := by decide

/-- The instant a second later. -/
def nextSecond : Double := .ofInt 1700000001

theorem isFinite_instants : instant.isFinite = true ∧ justAfter.isFinite = true ∧
    nextSecond.isFinite = true := ⟨by decide, by decide, by decide⟩

theorem millionths_nextSecond : instant.millionths < nextSecond.millionths := by decide

/-- A matrix with one column. -/
def column (ds : List Double) : NumericMatrix := ⟨1, ds.map fun d => [d], by simp⟩

theorem mem_rowsOf_column {ds : List Double} {row : List Double} :
    row ∈ rowsOf [column ds] ↔ ∃ d ∈ ds, [d] = row := by
  simp [rowsOf, column]

theorem rowsOf_single (d : Double) : rowsOf [column [d]] = {[d]} := rfl

theorem column_hasScore {ds : List Double} (hds : ∀ d ∈ ds, d.isFinite = true) :
    ∀ x ∈ [column ds], ∀ row ∈ x.rows, HasScore row := by
  simp only [List.mem_singleton, forall_eq, column, List.forall_mem_map]
  exact fun d hd => ⟨d, [], rfl, hds d hd⟩

theorem column_fits {ds : List Double} (hds : ∀ d ∈ ds, d.isFinite = true) :
    ∀ x ∈ [column ds], ∀ row ∈ x.rows, RowFits (.ofAscii "k") row := by
  intro x hx row hrow
  have hscore := column_hasScore hds x hx row hrow
  obtain rfl := List.mem_singleton.mp hx
  obtain ⟨d, -, rfl⟩ := List.mem_map.mp hrow
  exact rowFits_of_length hscore (by decide) (by norm_num)

/-- Of two rows at two instants, the first is found at its instant, and the other one is
not. -/
theorem instant_faithful :
    letI := Member.lexicographic
    ∃ c, Stores Runtime.onlyNull default (.ofAscii "k") [column [instant, nextSecond]]
        { server := fun _ => .empty } c ∧
      Faithful Runtime.onlyNull default (.ofAscii "k") (rowsOf [column [instant, nextSecond]])
        instant instant c := by
  let _ := Member.lexicographic
  have hfinite : ∀ d ∈ [instant, nextSecond], d.isFinite = true := by simp [isFinite_instants]
  have hrows := column_hasScore hfinite
  have hstores := stores_withRows (m := fun _ => .empty) Runtime.onlyNull default hrows
    (column_fits hfinite) rfl
  have hmem : [instant] ∈ within instant instant (rowsOf [column [instant, nextSecond]]) :=
    Finset.mem_filter.mpr ⟨mem_rowsOf_column.mpr ⟨_, List.mem_cons_self, rfl⟩, le_rfl, le_rfl⟩
  refine ⟨_, hstores,
    (faithful_iff_tells Runtime.onlyNull default hrows rfl hstores (by decide)
      (by decide)).mpr ⟨?_, ?_, ⟨_, hmem⟩, ?_, ⟨1, ?_⟩,
      boundsFit_of_length (by decide) (by decide) (by decide)⟩⟩
  · intro row hrow
    obtain ⟨hrow, hshown⟩ := Finset.mem_filter.mp hrow
    obtain ⟨d, hd, rfl⟩ := mem_rowsOf_column.mp hrow
    rcases List.mem_pair.mp hd with rfl | rfl
    · exact hmem
    · exact absurd hshown.2 millionths_nextSecond.not_ge
  · intro row hrow row' hrow' hlt hprinted
    obtain ⟨d, hd, rfl⟩ := mem_rowsOf_column.mp hrow
    obtain ⟨d', hd', rfl⟩ := mem_rowsOf_column.mp hrow'
    rcases List.mem_pair.mp hd with rfl | rfl <;> rcases List.mem_pair.mp hd' with rfl | rfl
    · exact absurd hlt (lt_irrefl _)
    · exact absurd hprinted millionths_nextSecond.ne
    · exact absurd hprinted millionths_nextSecond.ne'
    · exact absurd hlt (lt_irrefl _)
  · exact (List.toFinset_card_le _).trans_lt (by simp [column])
  · intro row hrow
    obtain ⟨d, -, rfl⟩ := mem_rowsOf_column.mp hrow
    rfl

/-- A row just after an instant is counted at that instant too. -/
theorem justAfter_not_faithful :
    letI := Member.lexicographic
    ∃ c, Stores Runtime.onlyNull default (.ofAscii "k") [column [justAfter]]
        { server := fun _ => .empty } c ∧
      ¬ Faithful Runtime.onlyNull default (.ofAscii "k") (rowsOf [column [justAfter]])
        instant instant c := by
  let _ := Member.lexicographic
  have hfinite : ∀ d ∈ [justAfter], d.isFinite = true := by simp [isFinite_instants]
  have hrows := column_hasScore hfinite
  have hstores := stores_withRows (m := fun _ => .empty) Runtime.onlyNull default hrows
    (column_fits hfinite) rfl
  refine ⟨_, hstores, fun h => ?_⟩
  have hwithin : within instant instant {[justAfter]} = ∅ := by
    rw [within, Finset.filter_singleton]
    exact if_neg fun hrange => absurd hrange.2 instant_lt_justAfter.not_ge
  have hshown : shown instant instant {[justAfter]} = {[justAfter]} := by
    rw [shown, Finset.filter_singleton]
    exact if_pos ⟨millionths_justAfter.ge, millionths_justAfter.le⟩
  have hscore : ∀ row ∈ ({[justAfter]} : Finset (List Double)), HasScore row := by
    intro row hrow
    rw [Finset.mem_singleton.mp hrow]
    exact ⟨justAfter, [], rfl, by decide⟩
  have hfits : BoundsFit (.ofAscii "k") instant instant :=
    boundsFit_of_length (by decide) (by decide) (by decide)
  have hcount := h.zcount
  rw [rowsOf_single, run_zcount hscore (by decide) (by decide) hfits, hshown,
    hwithin] at hcount
  have hnumber := SEXP.real.inj (Outcome.ret.inj hcount)
  revert hnumber
  decide

end RcppRedis
