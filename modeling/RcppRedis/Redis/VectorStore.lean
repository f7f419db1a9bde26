import RcppRedis.Redis.Store
import RcppRedis.Redis.Vectors

/-!
# Numeric vectors in the store

`setVector`, `listLPush` and `listRPush` store the bytes of a vector's doubles; `getVector` and
`listRange` read them back.

* `vectors_round_trip` — what is stored is read back bit for bit, over runs of pushes too, and
  what is read is stored as the same bytes.
-/

namespace RcppRedis

open Bytes Resp Hiredis Interact Prog TypedStore
open KeyedLists (Side slice)

variable {O : Type} {R : Runtime O} {σ : Type}

/-! ## The calls -/

/-- A string that `getVector` and `listRange` read whole. -/
def WholeWords (b : Bytes) : Prop := 8 ∣ b.length ∧ b.length < 2 ^ 31

/-- The vector of a stored string. -/
def realOf (b : Bytes) : SEXP O := .real (Double.vectorOfBytes b)

namespace VectorStore

def setVector (key : CStr) (x : List Double) : StoreCall O Bytes Bytes where
  method := .setVector key x
  key := key
  action := .set (Double.bytesOfVector x)
  value _ := .str [okText]
  Ready _ := True

def getVector (key : CStr) : StoreCall O Bytes Bytes where
  method := .getVector key
  key := key
  action := .get
  value
    | .element (some b) => realOf b
    | _ => .null
  Ready v := ∃ b, v = .string b ∧ WholeWords b

/-- `listLPush` or `listRPush` -/
def listPush (key : CStr) : Side × List Double → StoreCall O Bytes Bytes
  | (side, x) => {
      method := match side with
        | .left => .listLPush key x
        | .right => .listRPush key x
      key := key
      action := .push side (Double.bytesOfVector x)
      value := fun _ => .str [noText]
      Ready := fun v => v.OfKind .list }

def listRange (key : CStr) (start stop : Int32) : StoreCall O Bytes Bytes where
  method := .listRange key start stop
  key := key
  action := .range start.toInt stop.toInt
  value
    | .elements l => .list (l.map realOf) none
    | _ => .null
  Ready v := v.OfKind .list ∧ ∀ b ∈ v.items, WholeWords b

/-! ## The calls perform their actions -/

theorem vectorValue_of_wholeWords {b : Bytes} (hb : WholeWords b) {p : Pointer}
    (hp : p.node = .string b) : vectorValue (O := O) p = .ret (realOf b) := by
  obtain ⟨hread, -⟩ := (numericOf_eq_ret_iff hp _).mpr ⟨hb, rfl⟩
  exact vectorValue_eq_ret_iff.mpr ⟨_, hread, rfl⟩

theorem performs_setVector (key : CStr) (x : List Double) :
    (setVector key x).Performs R Set.univ id id where
  templated := trivial
  words := ⟨_, rfl, rfl⟩
  argument x _ := Set.mem_univ x
  accepts _ _ := .inl rfl
  code := by
    refine ⟨_, .string, rfl, rfl, fun _ hstep _ p hp τ E w => ?_⟩
    obtain ⟨rfl, -⟩ := hstep
    refine StoreCall.run_code_of_value _ (by rintro ⟨⟩) ?_ E w
    obtain ⟨id, path, node⟩ := p
    simp only at hp
    subst hp
    rfl

theorem performs_getVector (key : CStr) : (getVector key).Performs R Set.univ id id where
  templated := trivial
  words := ⟨_, rfl, rfl⟩
  argument x _ := Set.mem_univ x
  accepts v hv := by
    obtain ⟨b, rfl, -⟩ := hv
    exact .inr trivial
  code := by
    refine ⟨_, .vector, rfl, rfl, fun hv hstep _ p hp τ E w => ?_⟩
    obtain ⟨b, rfl, hb⟩ := hv
    obtain ⟨rfl, -⟩ := hstep
    exact StoreCall.run_code_of_value .vector (by rintro ⟨⟩)
      (vectorValue_of_wholeWords hb hp) E w

theorem performs_listPush (key : CStr) (push : Side × List Double) :
    (listPush key push).Performs R Set.univ id id := by
  obtain ⟨side, x⟩ := push
  cases side with
  | left | right =>
      refine ⟨trivial, ⟨_, rfl, rfl⟩, fun x _ => Set.mem_univ x, fun v hv => .inr hv, _,
        .ignore, rfl,
        rfl, fun _ _ _ p _ τ E w => ?_⟩
      exact StoreCall.run_code_of_value _ (by rintro ⟨⟩) rfl E w

theorem performs_listRange (key : CStr) (start stop : Int32) :
    (listRange key start stop).Performs R Set.univ id id where
  templated := trivial
  words := by
    refine ⟨_, rfl, ?_⟩
    simp [storeCommand, listRange]
    rfl
  argument x _ := Set.mem_univ x
  accepts v hv := .inr hv.1
  code := by
    refine ⟨_, .listRange, rfl, rfl, ?_⟩
    intro v v' a hv hstep _ p hp τ E w
    obtain ⟨rfl, -⟩ := hstep
    refine StoreCall.run_code_of_value _ (by rintro ⟨⟩) ?_ E w
    have hslice : ∀ b ∈ slice start.toInt stop.toInt v.items, WholeWords b := fun b hb =>
      hv.2 b (KeyedLists.mem_of_mem_slice hb)
    have hnode : p.node =
        .array ((slice start.toInt stop.toInt v.items).map Reply.string) := by
      simpa [storeReply, Answer.map] using hp
    have hread : p.children.mapM (vectorValue (O := O)) =
        .ret ((slice start.toInt stop.toInt v.items).map realOf) :=
      mapM_children_eq_ret (b := id) (by rw [List.map_id, hnode]) fun b hb q hq =>
        vectorValue_of_wholeWords (hslice b hb) hq
    change listRangeValue p = _
    rw [listRangeValue_eq hnode, hread]
    rfl

/-! ## Sessions -/

variable {server : Server σ} {view : σ → Contents}

/-- How the calls of a session end, one after the other. -/
def ends (R : Runtime O) (server : Server σ) (calls : List (StoreCall O Bytes Bytes)) (s : σ) :
    List (Outcome RError Fault (SEXP O)) :=
  ((Conn.env server).session (calls.map fun c => c.method.code R) { server := s }).map Prod.fst

@[simp] theorem ends_nil (s : σ) : ends R server [] s = [] := rfl

/-- The server after the calls. -/
def final (R : Runtime O) (server : Server σ) (calls : List (StoreCall O Bytes Bytes))
    (s : σ) : σ :=
  calls.foldl (fun s c =>
    ((Conn.env server).run (c.method.code R) { server := s }).2.env.server) s

/-- A session goes on after a call, on the stored bytes themselves. -/
theorem ends_cons (hserver : Keeps server view) {c : StoreCall O Bytes Bytes}
    (hc : c.Performs R Set.univ id id) (hfits : c.Fits R) {s : σ}
    (hready : c.Ready (view s c.key.bytes)) (cs : List (StoreCall O Bytes Bytes)) :
    ∃ a s', c.Step (view s) a (view s') ∧
      ends R server (c :: cs) s = .ret (c.value a) :: ends R server cs s' ∧
      final R server (c :: cs) s = final R server cs s' := by
  obtain ⟨a, m', w, hstep, hrun, herr, hm'⟩ := run_storeCall hserver Function.injective_id
    Function.injective_id.injOn hc hfits (m := view s) (fun k => .refl _) hready
  obtain rfl : view w.env.server = m' := funext fun k => (hm' k).eq_of_id
  have henv : w.env = { server := w.env.server } := by rw [← herr]
  refine ⟨a, w.env.server, hstep, ?_, ?_⟩
  · rw [ends, List.map_cons, session_cons_ret hrun, List.map_cons, ends, ← henv]
  · rw [final, List.foldl_cons, hrun]
    rfl

/-- The list after pushes at its ends. -/
def pushed (pushes : List (Side × List Double)) (l : List (List Double)) :
    List (List Double) :=
  pushes.foldl (fun l p => KeyedLists.push p.1 p.2 l) l

/-- **Pushes** leave the pushed list, and answer with nothing. -/
theorem ends_pushes (hserver : Keeps server view) {key : CStr}
    {pushes : List (Side × List Double)} (hfits : ∀ p ∈ pushes, (listPush key p).Fits R)
    {s : σ} {l : List (List Double)} (hkind : (view s key.bytes).OfKind .list)
    (hitems : (view s key.bytes).items = l.map Double.bytesOfVector)
    (cs : List (StoreCall O Bytes Bytes)) :
    ∃ s', ends R server (pushes.map (listPush key) ++ cs) s =
        pushes.map (fun _ => .ret (.str [noText])) ++ ends R server cs s' ∧
      final R server (pushes.map (listPush key) ++ cs) s = final R server cs s' ∧
      (view s' key.bytes).OfKind .list ∧
      (view s' key.bytes).items = (pushed pushes l).map Double.bytesOfVector := by
  induction pushes generalizing s l with
  | nil => exact ⟨s, rfl, rfl, hkind, hitems⟩
  | cons p pushes ih =>
      obtain ⟨hp, hpushes⟩ := List.forall_mem_cons.mp hfits
      obtain ⟨a, s', hstep, hends, hfinal⟩ :=
        ends_cons hserver (performs_listPush key p) hp (s := s)
        hkind (pushes.map (listPush key) ++ cs)
      have hvalue : view s' key.bytes =
          .list (KeyedLists.push p.1 (Double.bytesOfVector p.2) (view s key.bytes).items) :=
          hstep.1.2
      have hkind' : (view s' key.bytes).OfKind .list := by
        rw [hvalue]
        trivial
      have hitems' : (view s' key.bytes).items =
          (KeyedLists.push p.1 p.2 l).map Double.bytesOfVector := by
        rw [hvalue, hitems, KeyedLists.map_push]
        rfl
      obtain ⟨s'', hends', hfinal', hlast⟩ := ih hpushes hkind' hitems'
      refine ⟨s'', ?_, ?_, hlast⟩
      · rw [List.map_cons, List.cons_append, hends, hends']
        rfl
      · rw [List.map_cons, List.cons_append, hfinal, hfinal']

/-! ## Round trips -/

/-- What is stored under a key as vectors, and what is read from it. -/
structure RoundTrips (R : Runtime O) (server : Server σ) (view : σ → Contents)
    (key : CStr) (s : σ) : Prop where
  /-- A vector is read back. -/
  vector : ∀ x : List Double, StoreCall.Fits R (setVector key x) →
    StoreCall.Fits R (getVector key) →
    ends R server [setVector key x, getVector key] s = [.ret (.str [okText]), .ret (.real x)]
  /-- Pushed vectors are read back. -/
  vectors : ∀ (pushes : List (Side × List Double)) (start stop : Int32),
    view s key.bytes = .absent → (∀ p ∈ pushes, StoreCall.Fits R (listPush key p)) →
    StoreCall.Fits R (listRange key start stop) →
    ends R server (pushes.map (listPush key) ++ [listRange key start stop]) s =
      pushes.map (fun _ => .ret (.str [noText])) ++
        [.ret (.list ((slice start.toInt stop.toInt (pushed pushes [])).map .real) none)]
  /-- What is read from a string is stored as that string. -/
  string : ∀ b : Bytes, view s key.bytes = .string b → WholeWords b →
    StoreCall.Fits R (getVector key) →
    ∃ x : List Double, ends R server [getVector key] s = [.ret (.real x)] ∧
      ∀ dest, StoreCall.Fits R (setVector dest x) →
        view (final R server [setVector dest x] s) dest.bytes = .string b
  /-- What is read from a list of strings is pushed as these strings. -/
  strings : ∀ (bs : List Bytes) (start stop : Int32), view s key.bytes = .list bs →
    (∀ b ∈ bs, WholeWords b) → StoreCall.Fits R (listRange key start stop) →
    ∃ xs : List (List Double), ends R server [listRange key start stop] s =
      [.ret (.list (xs.map .real) none)] ∧
      ∀ dest, view s dest.bytes = .absent →
        (∀ x ∈ xs, StoreCall.Fits R (listPush dest (.right, x))) →
        (view (final R server (xs.map fun x => listPush dest (.right, x)) s)
          dest.bytes).items =
          slice start.toInt stop.toInt bs

theorem pushed_right (xs l : List (List Double)) :
    pushed (xs.map fun x => (Side.right, x)) l = l ++ xs := by
  induction xs generalizing l with
  | nil => simp [pushed]
  | cons x xs ih =>
      rw [List.map_cons, pushed, List.foldl_cons, ← pushed, ih]
      simp [KeyedLists.push]

theorem mem_pushed {pushes : List (Side × List Double)} {l : List (List Double)}
    {x : List Double} (hx : x ∈ pushed pushes l) : x ∈ l ∨ ∃ p ∈ pushes, p.2 = x := by
  induction pushes generalizing l with
  | nil => exact .inl hx
  | cons p pushes ih =>
      rcases ih hx with hx | ⟨p', hp', rfl⟩
      · rcases KeyedLists.mem_push_iff.mp hx with rfl | hx
        · exact .inr ⟨p, List.mem_cons_self, rfl⟩
        · exact .inl hx
      · exact .inr ⟨p', List.mem_cons_of_mem p hp', rfl⟩

/-- A frame that fits holds a vector whose length an `int` can tell. -/
theorem wholeWords_of_fits {c : StoreCall O Bytes Bytes} (hfits : c.Fits R)
    {words : List Bytes} (hwords : words ∈ c.method.commands R) {x : List Double}
    (hx : Double.bytesOfVector x ∈ words) : WholeWords (Double.bytesOfVector x) := by
  have hlt := hfits words hwords
  have hle := length_le_of_mem hx
  exact ⟨⟨x.length, Double.length_bytesOfVector x⟩, by omega⟩

theorem wholeWords_of_listPush {key : CStr} {p : Side × List Double}
    (hfits : StoreCall.Fits R (listPush key p)) : WholeWords (Double.bytesOfVector p.2) := by
  obtain ⟨side, x⟩ := p
  cases side with
  | left | right => exact wholeWords_of_fits hfits List.mem_cons_self (by simp)

/-- **Numeric vectors go round bit for bit**, as long as the frames of the commands fit:
through a string, through a list along any run of pushes at both ends, and from stored bytes
back to them. -/
theorem vectors_round_trip (R : Runtime O) (hserver : Keeps server view) (key : CStr) (s : σ) :
    RoundTrips R server view key s where
  vector x hset hget := by
    obtain ⟨a, s', hstep, hends, -⟩ :=
      ends_cons hserver (performs_setVector key x) hset (s := s)
      trivial [getVector key]
    have hvalue : view s' key.bytes = .string (Double.bytesOfVector x) := hstep.1.2
    have hwhole : WholeWords (Double.bytesOfVector x) :=
      wholeWords_of_fits hset List.mem_cons_self (by simp)
    obtain ⟨a', s'', hstep', hends', -⟩ :=
      ends_cons hserver (performs_getVector key) hget (s := s')
      ⟨_, hvalue, hwhole⟩ []
    obtain rfl : a' = .element (view s' key.bytes).text := hstep'.1.1
    rw [hends, hends', hvalue]
    simp [setVector, getVector, realOf, ends_nil, Value.text]
  vectors pushes start stop habsent hpushes hrange := by
    obtain ⟨s', hends, -, hkind, hitems⟩ := ends_pushes hserver hpushes (s := s) (l := [])
      (by rw [habsent]; trivial) (by rw [habsent]; rfl) [listRange key start stop]
    have hwhole : ∀ b ∈ (view s' key.bytes).items, WholeWords b := by
      rw [hitems, List.forall_mem_map]
      intro x hx
      obtain ⟨p, hp, rfl⟩ := (mem_pushed hx).resolve_left List.not_mem_nil
      exact wholeWords_of_listPush (hpushes p hp)
    obtain ⟨a, s'', hstep, hends', -⟩ :=
      ends_cons hserver (performs_listRange key start stop) hrange
      (s := s') ⟨hkind, hwhole⟩ []
    obtain rfl : a = .elements (slice start.toInt stop.toInt (view s' key.bytes).items) :=
      hstep.1.1
    rw [hends, hends', hitems, ← KeyedLists.map_slice]
    simp [listRange, realOf, ends_nil, Function.comp_def]
  string b hstring hwhole hget := by
    obtain ⟨a, s', hstep, hends, -⟩ := ends_cons hserver (performs_getVector key) hget (s := s)
      ⟨b, hstring, hwhole⟩ []
    obtain rfl : a = .element (view s key.bytes).text := hstep.1.1
    refine ⟨Double.vectorOfBytes b, ?_, fun dest hset => ?_⟩
    · rw [hends, hstring]
      rfl
    · obtain ⟨a, s'', hstep', -, hfinal⟩ := ends_cons hserver
        (performs_setVector dest (Double.vectorOfBytes b)) hset (s := s) trivial []
      have hvalue : view s'' dest.bytes =
          .string (Double.bytesOfVector (Double.vectorOfBytes b)) := hstep'.1.2
      rw [Double.bytesOfVector_vectorOfBytes hwhole.1] at hvalue
      rw [hfinal]
      exact hvalue
  strings bs start stop hlist hwhole hrange := by
    have hitems : (view s key.bytes).items = bs := by rw [hlist]; rfl
    obtain ⟨a, s', hstep, hends, -⟩ :=
      ends_cons hserver (performs_listRange key start stop) hrange
      (s := s) ⟨by change (view s key.bytes).OfKind .list; rw [hlist]; trivial,
        by change ∀ b ∈ (view s key.bytes).items, WholeWords b; rwa [hitems]⟩ []
    obtain rfl : a = .elements (slice start.toInt stop.toInt (view s key.bytes).items) :=
      hstep.1.1
    refine ⟨(slice start.toInt stop.toInt bs).map Double.vectorOfBytes, ?_,
      fun dest habsent hpushes => ?_⟩
    · rw [hends, hitems]
      simp [listRange, realOf, ends_nil, Function.comp_def]
    · have hpushes' : ∀ p ∈ ((slice start.toInt stop.toInt bs).map Double.vectorOfBytes).map
          fun x => (Side.right, x), StoreCall.Fits R (listPush dest p) := by
        rw [List.forall_mem_map]
        exact hpushes
      obtain ⟨s'', -, hfinal, -, hpushed⟩ := ends_pushes hserver hpushes' (s := s) (l := [])
        (by rw [habsent]; trivial) (by rw [habsent]; rfl) []
      rw [List.append_nil, List.map_map] at hfinal
      rw [pushed_right, List.nil_append, List.map_map] at hpushed
      have hbytes : ∀ b ∈ slice start.toInt stop.toInt bs,
          (Double.bytesOfVector ∘ Double.vectorOfBytes) b = id b := fun b hb =>
        Double.bytesOfVector_vectorOfBytes (hwhole b (KeyedLists.mem_of_mem_slice hb)).1
      rw [List.map_congr_left hbytes, List.map_id] at hpushed
      exact (congrArg (fun s => (view s dest.bytes).items) hfinal).trans hpushed

/-- A NaN with a payload and a negative zero. -/
theorem nan_payload_round_trips :
    ends Runtime.onlyNull typed
        [setVector (.ofAscii "k") [0x7ff00000000007a2, 0x8000000000000000],
          getVector (.ofAscii "k")]
        (fun _ => .absent) =
      [.ret (.str [okText]), .ret (.real [0x7ff00000000007a2, 0x8000000000000000])] := by
  refine (vectors_round_trip Runtime.onlyNull typed_keeps (.ofAscii "k") fun _ =>
    .absent).vector _
    ?_ ?_
  · simp only [StoreCall.Fits, setVector, Method.commands, List.mem_singleton, forall_eq]
    decide
  · simp only [StoreCall.Fits, getVector, Method.commands, List.mem_singleton, forall_eq]
    decide

/-- A key whose frame does not fit is not sent. -/
theorem ends_long_key {key : CStr} (hkey : 2 ^ 31 ≤ key.bytes.length + 1) (x : List Double)
    (cs : List (StoreCall O Bytes Bytes)) (s : Contents) (v : SEXP O) :
    (ends R typed (setVector key x :: cs) s).head? ≠ some (.ret v) := by
  have hcode : Method.code R (.setVector key x) =
      requestNULLSafe (.format
        (template [keyword "SET", .str key, .bin (Double.bytesOfVector x)])
        ([keyword "SET", .str key, .bin (Double.bytesOfVector x)].map Item.args).flatten) >>=
          Reader.code R .string := rfl
  have hmem : key.bytes ∈ [keyword "SET", .str key, .bin (Double.bytesOfVector x)].map
      Item.text := by
    simp [Item.text]
  have hfails := run_long_ne_ret typed [keyword "SET", .str key,
    .bin (Double.bytesOfVector x)] hmem
    hkey (Reader.code R .string) ⟨{ server := s }, {}⟩ v
  obtain ⟨rest, hsession⟩ :=
    session_cons (E := Conn.env typed) (Method.code R (.setVector key x))
    (cs.map fun c => c.method.code R) { server := s }
  have hhead : (ends R typed (setVector key x :: cs) s).head? =
      some ((Conn.env typed).run (Method.code R (.setVector key x)) { server := s }).1 := by
    rw [ends, List.map_cons]
    simp only [setVector]
    rw [hsession, List.map_cons, List.head?_cons]
  rw [hhead, Env.run, hcode]
  exact fun h => hfails (Option.some.inj h)

/-- No vector is stored under a key of `2 ^ 31 - 1` bytes, the longest string that R has. -/
theorem longest_key_no_vector :
    ¬ ∀ (key : CStr) (x : List Double),
      ends Runtime.onlyNull typed [setVector key x, getVector key] (fun _ => .absent) =
        [.ret (.str [okText]), .ret (.real x)] := by
  intro h
  obtain ⟨key, hlen⟩ : ∃ key : CStr, key.bytes.length = 0x7fffffff :=
    ⟨Method.longKey 0x7fffffff, Method.length_longKey _⟩
  have hlong : 2 ^ 31 ≤ key.bytes.length + 1 := by omega
  refine ends_long_key (R := Runtime.onlyNull) hlong [] [getVector key]
    (fun _ => .absent) (.str [okText]) ?_
  rw [h key []]
  rfl

end VectorStore

end RcppRedis
