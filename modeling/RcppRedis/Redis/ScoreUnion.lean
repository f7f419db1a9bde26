import RcppRedis.Redis.ScoreFidelity

/-!
# Adding rows

`zadd` adds the rows of a matrix one by one and sums up the server's answers.  What it leaves
is the union of the rows that were there and those of the matrix, and what it returns is the
growth.

* `run_rows_count` — the loop, with its sum.
* `exists_unites` — the union, its growth, adding again, and splitting a matrix over several
  calls.
-/

namespace RcppRedis

open Bytes Resp Hiredis Interact Prog

variable {O : Type} {R : Runtime O} {ρ : Double.Rounding}

section Members

variable [LinearOrder Member]

/-! ## The loop -/

/-- **The loop of `zadd`** sums up how many members it adds. -/
theorem run_rows_count {key : CStr} {rows : List (List Double)}
    (hrows : ∀ row ∈ rows, HasScore row) (hfits : ∀ row ∈ rows, RowFits key row) {k : ℕ}
    (hk : k + rows.length ≤ 2 ^ 53) {m : Scores} {S : Finset Member} {w : World (Conn Scores)}
    (hw : w.env = { server := withMembers ρ key S m }) :
    ∃ n w', run (Conn.env (scores ρ)).handler (rows.foldlM (zaddRow key) (.ofInt k)) w =
        (.ret (.ofInt (n : ℕ)), w') ∧
      n + S.card = k + (S ∪ rows.toFinset.image Member.ofRow).card ∧
      w'.env = { server := withMembers ρ key (S ∪ rows.toFinset.image Member.ofRow) m } := by
  induction rows generalizing k S w with
  | nil =>
      refine ⟨k, w, rfl, ?_, ?_⟩
      · rw [List.toFinset_nil, Finset.image_empty, Finset.union_empty]
      · rw [List.toFinset_nil, Finset.image_empty, Finset.union_empty, hw]
  | cons row rows ih =>
      obtain ⟨hrow, hrows⟩ := List.forall_mem_cons.mp hrows
      obtain ⟨hfirst, hfits⟩ := List.forall_mem_cons.mp hfits
      obtain ⟨w', hrun, hw'⟩ := run_zaddRow hrow hfirst (.ofInt k) hw
      rw [List.length_cons] at hk
      have hcard := Finset.card_insert_eq_ite (a := Member.ofRow row) (s := S)
      have hunion : S ∪ (row :: rows).toFinset.image Member.ofRow =
          insert (.ofRow row) S ∪ rows.toFinset.image Member.ofRow := by
        rw [List.toFinset_cons, Finset.image_insert, Finset.union_insert, Finset.insert_union]
      rw [List.foldlM_cons, run_bind, hrun, andThen_ret, hunion,
        Double.addWhole_ofInt (by omega) (by split_ifs <;> norm_num), ← Nat.cast_add]
      obtain ⟨n, w'', hrun', hn, hw''⟩ :=
        ih hrows hfits (k := k + if Member.ofRow row ∈ S then 0 else 1)
        (by split_ifs <;> omega) hw'
      refine ⟨n, w'', hrun', ?_, hw''⟩
      split_ifs at hcard hn <;> omega

variable {key : CStr} {rows : Finset (List Double)} {m : Scores}

/-- **One call** leaves the union and returns the growth. -/
theorem run_zadd (R : Runtime O) (rows : Finset (List Double)) {x : NumericMatrix}
    (hx : ∀ row ∈ x.rows, HasScore row) (hfits : ∀ row ∈ x.rows, RowFits key row)
    (hsmall : x.rows.length < 2 ^ 31) :
    ∃ w, (Conn.env (scores ρ)).run (Method.code R (.zadd key x)) (withRows ρ key rows m) =
        (.ret (.real [.ofInt (x.rows.toFinset \ rows).card]), w) ∧
      w.env = withRows ρ key (rows ∪ x.rows.toFinset) m := by
  obtain ⟨n, w, hrun, hn, hw⟩ := run_rows_count (ρ := ρ) (k := 0) (m := m)
    (S := rows.image Member.ofRow) (w := ⟨withRows ρ key rows m, {}⟩) hx hfits (by omega) rfl
  rw [← Finset.image_union, Finset.card_image_of_injective _ Member.ofRow_injective,
    Finset.card_image_of_injective _ Member.ofRow_injective, Finset.union_comm,
    ← Finset.card_sdiff_add_card] at hn
  obtain rfl : n = (x.rows.toFinset \ rows).card := by omega
  refine ⟨w, ?_, ?_⟩
  · rw [Nat.cast_zero] at hrun
    rw [Env.run, zadd_eq, run_bind, hrun]
    rfl
  · rw [hw, ← Finset.image_union]
    rfl

/-! ## Several calls -/

/-- Calls of `zadd` that return these numbers, and the connection after them. -/
def Adds (R : Runtime O) (ρ : Double.Rounding) (key : CStr) :
    List NumericMatrix → List ℕ → Conn Scores → Conn Scores → Prop
  | [], [], c, c' => c' = c
  | x :: xs, n :: ns, c, c' => ∃ w,
      (Conn.env (scores ρ)).run (Method.code R (.zadd key x)) c =
        (.ret (.real [.ofInt n]), w) ∧
        Adds R ρ key xs ns w.env c'
  | _, _, _, _ => False

/-- **Several calls** leave the union, and their growths add up to that of all rows at once. -/
theorem exists_adds (R : Runtime O) {xs : List NumericMatrix}
    (hrows : ∀ x ∈ xs, ∀ row ∈ x.rows, HasScore row ∧ RowFits key row)
    (hsmall : ∀ x ∈ xs, x.rows.length < 2 ^ 31) :
    ∃ ns, Adds R ρ key xs ns (withRows ρ key rows m) (withRows ρ key (rows ∪ rowsOf xs) m) ∧
      ns.sum = (rowsOf xs \ rows).card := by
  induction xs generalizing rows with
  | nil =>
      refine ⟨[], ?_, ?_⟩
      · rw [rowsOf, List.flatMap_nil, List.toFinset_nil, Finset.union_empty]
        rfl
      · rw [rowsOf, List.flatMap_nil, List.toFinset_nil, Finset.empty_sdiff]
        rfl
  | cons x xs ih =>
      obtain ⟨hx, hxs⟩ := List.forall_mem_cons.mp hrows
      obtain ⟨hxsmall, hsmall⟩ := List.forall_mem_cons.mp hsmall
      obtain ⟨w, hrun, hw⟩ := run_zadd (ρ := ρ) (m := m) R rows (fun row h => (hx row h).1)
        (fun row h => (hx row h).2) hxsmall
      obtain ⟨ns, hns, hsum⟩ : ∃ ns, Adds R ρ key xs ns
        (withRows ρ key (rows ∪ x.rows.toFinset) m)
          (withRows ρ key (rows ∪ x.rows.toFinset ∪ rowsOf xs) m) ∧
          ns.sum = (rowsOf xs \ (rows ∪ x.rows.toFinset)).card := ih hxs hsmall
      refine ⟨_ :: ns, ⟨w, hrun, ?_⟩, ?_⟩
      · rw [hw, rowsOf_cons, ← Finset.union_assoc]
        exact hns
      · have hfirst := Finset.card_sdiff_add_card x.rows.toFinset rows
        have hrest := Finset.card_sdiff_add_card (rowsOf xs) (rows ∪ x.rows.toFinset)
        have hall := Finset.card_sdiff_add_card (rowsOf (x :: xs)) rows
        have hunion : rowsOf (x :: xs) ∪ rows = rowsOf xs ∪ (rows ∪ x.rows.toFinset) := by
          rw [rowsOf_cons]
          ac_rfl
        rw [hunion] at hall
        rw [Finset.union_comm x.rows.toFinset] at hfirst
        rw [List.sum_cons, hsum]
        omega

/-! ## The set afterwards -/

/-- The command for the number of members. -/
def cardItems (key : CStr) : List Item := [keyword "ZCARD", .str key]

theorem run_zcard (R : Runtime O)
    (hfits : (encodeCommand ((cardItems key).map Item.text)).length + 1 < 2 ^ 31) :
    ((Conn.env (scores ρ)).run (Method.code R (.zcard key)) (withRows ρ key rows m)).1 =
      .ret (.real [.ofInt rows.card]) := by
  have hcommand : scoreCommand ρ ((cardItems key).map Item.text) =
      some (key.bytes, .card) := rfl
  obtain ⟨p, w, hp, -, hrun⟩ := run_scoreCommand hcommand (by simp [cardItems]) hfits
    (Reader.code (O := O) R .double) (S := rows.image Member.ofRow) (m := m)
    (w := ⟨withRows ρ key rows m, {}⟩) rfl
  rw [SortedSet.Action.run, SortedSet.card_ofScores,
    Finset.card_image_of_injective _ Member.ofRow_injective] at hp
  refine (congrArg Prod.fst hrun).trans ?_
  rw [Reader.code_of_ne (by simp), Reader.value, doubleOf_of_integer hp, ret_bind, pure_eq,
    run_thenFree_ret]

/-- Rows `rows` stand under a key; `x` is added, which leads from `c` to `c'`. -/
structure Unites (R : Runtime O) (ρ : Double.Rounding) (key : CStr)
    (rows : Finset (List Double)) (x : NumericMatrix) (c c' : Conn Scores) : Prop where
  /-- The call returns how many rows are new. -/
  added : Adds R ρ key [x] [(x.rows.toFinset \ rows).card] c c'
  /-- The members are then the old rows and those of the matrix. -/
  members : ∀ y, y ∈ (c'.server key.bytes).list ↔
    ∃ row ∈ rows ∪ x.rows.toFinset, Member.ofRow row = y
  others : ∀ k ≠ key.bytes, c'.server k = c.server k
  /-- The same call again returns zero and changes nothing. -/
  again : Adds R ρ key [x] [0] c' c'
  /-- The rows may be given in any order, in any number of matrices. -/
  split : ∀ ys, rowsOf ys = x.rows.toFinset → (∀ y ∈ ys, y.rows.length < 2 ^ 31) →
    ∃ ns, Adds R ρ key ys ns c c' ∧ ns.sum = (x.rows.toFinset \ rows).card
  zcard : (encodeCommand ((cardItems key).map Item.text)).length + 1 < 2 ^ 31 →
    ((Conn.env (scores ρ)).run (Method.code R (.zcard key)) c).1 =
      .ret (.real [.ofInt rows.card]) ∧
    ((Conn.env (scores ρ)).run (Method.code R (.zcard key)) c').1 =
      .ret (.real [.ofInt (rows ∪ x.rows.toFinset).card])
  zrange : rows.Nonempty → rows.card < 2 ^ 31 → (∃ n, ∀ row ∈ rows, row.length = n) →
    ∃ l, MatrixOf rows l ((Conn.env (scores ρ)).run (Method.code R (.zrange key 0 (-1))) c).1

theorem unites_withRows (R : Runtime O) {x : NumericMatrix}
    (hrows : ∀ row ∈ rows, HasScore row ∧ RowFits key row)
    (hx : ∀ row ∈ x.rows, HasScore row ∧ RowFits key row) (hsmall : x.rows.length < 2 ^ 31) :
    Unites R ρ key rows x (withRows ρ key rows m)
      (withRows ρ key (rows ∪ x.rows.toFinset) m) where
  added := by
    obtain ⟨w, hrun, hw⟩ := run_zadd (ρ := ρ) (m := m) R rows (fun row h => (hx row h).1)
      (fun row h => (hx row h).2) hsmall
    exact ⟨w, hrun, hw.symm⟩
  members _ := mem_list_withRows
  others k hk := by rw [withRows_of_ne hk, withRows_of_ne hk]
  again := by
    obtain ⟨w, hrun, hw⟩ := run_zadd (ρ := ρ) (m := m) R (rows ∪ x.rows.toFinset)
      (fun row h => (hx row h).1) (fun row h => (hx row h).2) hsmall
    rw [Finset.union_assoc, Finset.union_self] at hw
    have hnone : x.rows.toFinset \ (rows ∪ x.rows.toFinset) = ∅ :=
      Finset.sdiff_eq_empty_iff_subset.mpr Finset.subset_union_right
    rw [hnone] at hrun
    exact ⟨w, hrun, hw.symm⟩
  split ys hys hsmall := by
    have hall : ∀ y ∈ ys, ∀ row ∈ y.rows, HasScore row ∧ RowFits key row := by
      intro y hy row hrow
      have hmem : row ∈ rowsOf ys := List.mem_toFinset.mpr (List.mem_flatMap.mpr ⟨y, hy, hrow⟩)
      rw [hys] at hmem
      exact hx row (List.mem_toFinset.mp hmem)
    rw [← hys]
    exact exists_adds R hall hsmall
  zcard hfits := ⟨run_zcard R hfits, run_zcard R hfits⟩
  zrange hne hfew hwidth := by
    obtain ⟨k, hk⟩ := hwidth
    obtain ⟨n, hn, hwidth⟩ := exists_width (fun row h => (hrows row h).2) hk
    obtain ⟨row, hrow⟩ := hne
    obtain ⟨hscore, hfits⟩ := hrows row hrow
    exact ⟨_, (zrange_iff (hfits.all hscore) hn hwidth).mpr ⟨⟨row, hrow⟩, hfew, rfl⟩⟩

/-- **`zadd` is set union**, and returns the growth: on rows that any run of `zadd` calls has
stored, for every matrix whose frames fit. -/
theorem exists_unites (R : Runtime O) (ρ : Double.Rounding) {key : CStr}
    {xs : List NumericMatrix} (hxs : ∀ y ∈ xs, ∀ row ∈ y.rows, HasScore row) {m : Scores}
    (hm : m key.bytes = .empty) {c : Conn Scores}
    (hstores : Stores R ρ key xs { server := m } c) {x : NumericMatrix}
    (hx : ∀ row ∈ x.rows, HasScore row) (hsmall : x.rows.length < 2 ^ 31)
    (hfits : ∀ row ∈ x.rows, RowFits key row) :
    ∃ c', Unites R ρ key (rowsOf xs) x c c' := by
  rw [← withMembers_empty (ρ := ρ) hm] at hstores
  obtain ⟨hstored, rfl⟩ := hstores.stored hxs
  rw [Finset.empty_union]
  refine ⟨_, unites_withRows R ?_ (fun row h => ⟨hx row h, hfits row h⟩) hsmall⟩
  intro row hrow
  obtain ⟨y, hy, hrow⟩ := List.mem_flatMap.mp (List.mem_toFinset.mp hrow)
  exact ⟨hxs y hy row hrow, hstored y hy row hrow⟩

theorem Adds.stores {xs : List NumericMatrix} {ns : List ℕ} {c c' : Conn Scores}
    (h : Adds R ρ key xs ns c c') : Stores R ρ key xs c c' := by
  induction xs generalizing ns c with
  | nil =>
      cases ns with
      | nil => exact h
      | cons n ns => exact h.elim
  | cons x xs ih =>
      cases ns with
      | nil => exact h.elim
      | cons n ns =>
          obtain ⟨w, hrun, hrest⟩ := h
          exact ⟨_, w, hrun, ih hrest⟩

/-- A key that is too long for a frame lets nothing be added. -/
theorem not_unites_of_long {x : NumericMatrix} (hx : ∀ row ∈ x.rows, HasScore row)
    (hne : x.rows ≠ []) (hm : m key.bytes = .empty) (hlong : 2 ^ 31 ≤ key.bytes.length + 1) :
    ¬ ∃ c', Unites R ρ key ∅ x { server := m } c' := by
  rintro ⟨c', h⟩
  have hstores := h.added.stores
  rw [← withMembers_empty (ρ := ρ) hm] at hstores
  obtain ⟨hfits, -⟩ := hstores.stored (by simpa using hx)
  obtain ⟨row, hrow⟩ := List.exists_mem_of_ne_nil _ hne
  have hlt := (hfits x List.mem_cons_self row hrow).key_lt
  omega

end Members

/-- An instant is stored; the double after it is added, and the instant once more. -/
theorem instants_unite :
    letI := Member.lexicographic
    ∃ c c', Stores Runtime.onlyNull default (.ofAscii "k") [column [instant]]
        { server := fun _ => .empty } c ∧
      Unites Runtime.onlyNull default (.ofAscii "k") (rowsOf [column [instant]])
        (column [justAfter, instant]) c c' := by
  let _ := Member.lexicographic
  have hfinite : ∀ d ∈ [instant], d.isFinite = true := by simp [isFinite_instants]
  have hfinite' : ∀ d ∈ [justAfter, instant], d.isFinite = true := by simp [isFinite_instants]
  have hrows := column_hasScore hfinite
  have hrows' := column_hasScore hfinite'
  have hstores := stores_withRows (m := fun _ => .empty) Runtime.onlyNull default hrows
    (column_fits hfinite) rfl
  obtain ⟨c', hunites⟩ := exists_unites Runtime.onlyNull default hrows rfl hstores
    (hrows' _ List.mem_cons_self) (by decide) (column_fits hfinite' _ List.mem_cons_self)
  exact ⟨_, c', hstores, hunites⟩

/-- The longest key that R has lets no row be added. -/
theorem longest_key_not_united :
    letI := Member.lexicographic
    ¬ ∃ c', Unites Runtime.onlyNull default (Method.longKey 0x7fffffff) ∅ (column [instant])
      { server := fun _ => .empty } c' := by
  let _ := Member.lexicographic
  have hfinite : ∀ d ∈ [instant], d.isFinite = true := by simp [isFinite_instants]
  refine not_unites_of_long (column_hasScore hfinite _ List.mem_cons_self) ?_ rfl ?_
  · exact List.cons_ne_nil _ _
  · rw [Method.length_longKey]
    norm_num

end RcppRedis
