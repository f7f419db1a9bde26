import RcppRedis.Redis.Store
import RcppRedis.Redis.Lists

/-!
# Serialized values, hashes and sets

The methods that store R objects as strings, in hashes and in sets are actions on a store of R
objects, each object stored as its serialization.

* `performs` — each call sends its action and reads the answer.
* `objects_refine` — a session of calls is a run of the actions on R objects, and at every
  point of it the four ways to read a hash agree.
-/

namespace RcppRedis

open Bytes Resp Hiredis Interact Prog TypedStore

variable {O : Type} {R : Runtime O} {σ : Type}

/-! ## The calls -/

/-- A call of one of the twelve methods. -/
inductive ObjectCall (O : Type) where
  | set (key : CStr) (s : SEXP O)
  | get (key : CStr)
  | hset (key field : CStr) (s : SEXP O)
  | hget (key field : CStr)
  | hexists (key field : CStr)
  | hdel (key field : CStr)
  | hlen (key : CStr)
  | hkeys (key : CStr)
  | hgetall (key : CStr)
  | sadd (key : CStr) (s : SEXP O)
  | srem (key : CStr) (s : SEXP O)
  | smembers (key : CStr)

namespace ObjectCall

/-- The method that is called. -/
def method : ObjectCall O → Method O
  | set key s => .set key s
  | get key => .get key
  | hset key field s => .hset key field s
  | hget key field => .hget key field
  | hexists key field => .hexists key field
  | hdel key field => .hdel key field
  | hlen key => .hlen key
  | hkeys key => .hkeys key
  | hgetall key => .hgetall key
  | sadd key s => .sadd key s
  | srem key s => .srem key s
  | smembers key => .smembers key

def key : ObjectCall O → CStr
  | set key _ | get key | hset key _ _ | hget key _ | hexists key _ | hdel key _ | hlen key
  | hkeys key | hgetall key | sadd key _ | srem key _ | smembers key => key

/-- The action on R objects that the call stands for. -/
def action : ObjectCall O → Action CStr (SEXP O)
  | set _ s => .set s
  | get _ => .get
  | hset _ field s => .hset field s
  | hget _ field => .hget field
  | hexists _ field => .hexists field
  | hdel _ field => .hdel field
  | hlen _ => .hlen
  | hkeys _ => .hkeys
  | hgetall _ => .hgetall
  | sadd _ s => .sadd s
  | srem _ s => .srem s
  | smembers _ => .smembers

/-- What the call returns for an answer. -/
def value (c : ObjectCall O) : Answer CStr (SEXP O) → SEXP O
  | .done => .str [okText]
  | .count n =>
      match c with
      | sadd _ _ | srem _ _ => .real [.ofInt n]
      | _ => .int [n]
  | .element x => x.getD .null
  | .elements l => .list l none
  | .fields l => .str l
  | .entries l => .list (l.map Prod.snd) (some (l.map Prod.fst))

/-- The field that `hget` asks for is there, and an `int` can index what `hgetall` flattens and
count what `hlen` counts. -/
def Asked (v : Value CStr (SEXP O)) : ObjectCall O → Prop
  | hget _ field => field ∈ v.names
  | hlen _ => v.entries.length < 2 ^ 31
  | hgetall _ => v.entries.length < 2 ^ 30
  | _ => True

/-- The key has a value of the kind the method is for, which the method can read. -/
def Ready (c : ObjectCall O) (v : Value CStr (SEXP O)) : Prop :=
  v.OfKind c.action.kind ∧ c.Asked v

/-- The call as one action on one key. -/
def call (c : ObjectCall O) : StoreCall O CStr (SEXP O) where
  method := c.method
  key := c.key
  action := c.action
  value := c.value
  Ready := c.Ready

/-- The object that is passed is not raw, and its serialization can be read back. -/
def Storable (R : Runtime O) (c : ObjectCall O) : Prop :=
  ∀ x ∈ c.action.argument, x.isRaw = false ∧ R.unserializeFromRaw (R.serializeToRaw x) = some x

end ObjectCall

/-! ## Reading the replies -/

theorem getValue_of_stored {x : Option (SEXP O)} (hx : ∀ y ∈ x, y ∈ stored R) {p : Pointer}
    (hp : p.node = storeReply (.element (x.map R.serializeToRaw))) :
    getValue R p = .ret (x.getD .null) := by
  cases x with
  | none =>
      rw [getValue, if_pos (by rw [hp]; rfl)]
      rfl
  | some x =>
      have hstring : replyTypeToInteger p.node = some .string := by rw [hp]; rfl
      rw [getValue, if_neg (by rw [hstring]; simp), objectOf_of_stored (hx x rfl) hp]
      rfl

/-- A count that an `int` holds. -/
theorem intValue_of_lt {n : ℕ} (hn : n < 2 ^ 31) {p : Pointer} (hp : p.node = .integer n) :
    intValue (O := O) p = .ret (.int [(n : ℤ)]) := by
  have hinteger : replyTypeToInteger p.node = some .integer := by rw [hp]; rfl
  have hself : toInt32 p.node.integerField = n := by
    rw [hp]
    exact toInt32_eq_self (n := (n : ℤ)) (by omega) (by omega)
  rw [intValue, checkReplyType_of_eq hinteger, ret_bind, hself]
  rfl

theorem stringsValue_of_names {l : List CStr} {p : Pointer}
    (hp : p.node = .array ((l.map CStr.bytes).map Reply.string)) :
    stringsValue (O := O) p = .ret (.str l) := by
  have hread : CStr.ofBuffer ∘ CStr.bytes = id := funext CStr.ofBuffer_bytes
  rw [stringsValue_of_strings hp, List.map_map, hread, List.map_id]

/-- Flattened pairs stand at even and odd places. -/
theorem getElem?_flatMap_pair {α β : Type} (a b : α → β) (l : List α) (i : ℕ) :
    (l.flatMap fun e => [a e, b e])[2 * i]? = l[i]?.map a ∧
      (l.flatMap fun e => [a e, b e])[2 * i + 1]? = l[i]?.map b := by
  induction l generalizing i with
  | nil => simp
  | cons e l ih =>
      cases i with
      | zero => simp
      | succ i =>
          have hsucc : 2 * (i + 1) = 2 * i + 1 + 1 := by ring
          simpa [hsucc] using ih i

theorem length_flatMap_pair {α β : Type} (a b : α → β) (l : List α) :
    (l.flatMap fun e => [a e, b e]).length = 2 * l.length := by
  induction l with
  | nil => rfl
  | cons e l ih =>
      rw [List.flatMap_cons, List.length_append, ih, List.length_cons]
      simp
      ring

/-- **The loop of `hgetall`** reads the entries in their order, as long as its index is an
`int`. -/
theorem hgetallValue_of_stored {h : List (CStr × SEXP O)} (hh : ∀ e ∈ h, e.2 ∈ stored R)
    (hlen : h.length < 2 ^ 30) {p : Pointer}
    (hp : p.node = storeReply (.entries (h.map (Prod.map CStr.bytes R.serializeToRaw)))) :
    hgetallValue R p = .ret (.list (h.map Prod.snd) (some (h.map Prod.fst))) := by
  have helement : p.node.element =
      h.flatMap fun e => [Reply.string e.1.bytes, Reply.string (R.serializeToRaw e.2)] := by
    rw [hp]
    simp [storeReply, Reply.element, List.flatMap_map]
  have helements : p.node.elements / 2 = h.length := by
    rw [Reply.elements, helement, length_flatMap_pair]
    omega
  have hround : (List.range h.length).mapM (hgetallEntry R p) = .ret h := by
    rw [mapM_eq_ret_iff, List.forall₂_iff_get]
    refine ⟨List.length_range, fun i hi hi' => ?_⟩
    obtain ⟨hname, hvalue⟩ :=
      getElem?_flatMap_pair (fun e : CStr × SEXP O => Reply.string e.1.bytes)
      (fun e => Reply.string (R.serializeToRaw e.2)) h i
    rw [List.getElem?_eq_getElem hi', Option.map_some] at hname hvalue
    have hidx : toInt32 ((2 * i + 1 : ℕ) : ℤ) = (2 * i + 1 : ℕ) :=
      toInt32_eq_self (by omega) (by omega)
    have hmem : h[i].2 ∈ stored R := hh _ (List.getElem_mem hi')
    simp only [List.get_eq_getElem, List.getElem_range]
    rw [hgetallEntry, elementAt_natCast, helement, hname]
    simp only [ret_bind]
    have hstr : (Reply.string h[i].1.bytes).str? = some h[i].1.bytes := rfl
    rw [stringOf_of_some hstr, ret_bind, hidx, elementAt_natCast, helement, hvalue]
    simp only [ret_bind, CStr.ofBuffer_bytes]
    rw [objectOf_of_stored hmem rfl]
    rfl
  rw [hgetallValue, helements, hround]
  rfl

/-! ## The calls perform their actions -/

/-- How a call reads its reply. -/
def ObjectCall.reader : ObjectCall O → Reader
  | set _ _ => .string
  | get _ => .get
  | hget _ _ => .hget
  | hkeys _ => .strings
  | hgetall _ => .hgetall
  | sadd _ _ | srem _ _ => .extract
  | smembers _ => .objects
  | hset _ _ _ | hexists _ _ | hdel _ _ | hlen _ => .int

/-- A call sends one command and reads its reply. -/
theorem ObjectCall.code_eq (c : ObjectCall O) : ∃ q, c.method.requests R = [q] ∧
    c.method.code R = requestNULLSafe q >>= c.reader.code R := by
  cases c <;> exact ⟨_, rfl, rfl⟩

/-- `hget` frees its reply before it unserializes what was in it. -/
theorem run_hget_of_stored {x : SEXP O} (hx : x ∈ stored R) {p : Pointer}
    (hp : p.node = .string (R.serializeToRaw x)) {τ : Type} (E : Env τ) (w : World τ) :
    ∃ w', run E.handler (Reader.code R .hget p) w = (.ret x, w') ∧ w'.env = w.env := by
  have hraw : rawOf p = .ret (R.serializeToRaw x) := by
    rw [rawOf_of_lt (by rw [hp]; exact hx.2), hp]
    simp [Reply.bytes, Reply.str?, Reply.len]
  have hobj : unserializeFromRaw R (R.serializeToRaw x) = .ret x := by
    rw [unserializeFromRaw, hx.1]
    rfl
  rw [Reader.code, hraw, run_bind, run_thenFree_ret, andThen_ret, hobj]
  exact ⟨_, rfl, rfl⟩

theorem ObjectCall.serialized_lt {c : ObjectCall O} (hc : c.Storable R)
    (hfits : c.call.Fits R) : ∀ x ∈ c.action.argument, x ∈ stored R := by
  cases c with
  | set key x | hset key field x | sadd key x | srem key x =>
      rintro y ⟨⟩
      obtain ⟨hraw, hround⟩ := hc x rfl
      exact ⟨hround, length_serialize_lt hraw (hfits _ List.mem_cons_self) (by simp)⟩
  | _ => rintro y ⟨⟩

section Classical

open scoped Classical

/-- What a call makes of its reply is the value of its answer. -/
theorem ObjectCall.reads (c : ObjectCall O) :
    c.call.Reads R (stored R) CStr.bytes R.serializeToRaw c.reader := by
  intro v v' a hv hstep ha p hp τ E w
  have hof (rd : Reader) (hrd : rd ≠ .hget) {x : SEXP O} (h : rd.value R p = .ret x) :=
    StoreCall.run_code_of_value rd hrd h E w
  cases c with
  | set key x =>
      obtain ⟨rfl, -⟩ := hstep
      obtain ⟨id, path, node⟩ := p
      simp only at hp
      subst hp
      exact hof .string (by rintro ⟨⟩) rfl
  | get key =>
      obtain ⟨rfl, -⟩ := hstep
      exact hof .get (by rintro ⟨⟩) (getValue_of_stored ha hp)
  | hget key field =>
      obtain ⟨rfl, -⟩ := hstep
      obtain ⟨x, hx⟩ := Option.isSome_iff_exists.mp (find_isSome_iff.mpr hv.2)
      rw [hx] at hp ha ⊢
      exact run_hget_of_stored (ha x rfl) hp E w
  | hkeys key =>
      obtain ⟨rfl, -⟩ := hstep
      exact hof .strings (by rintro ⟨⟩) (stringsValue_of_names hp)
  | hgetall key =>
      obtain ⟨rfl, -⟩ := hstep
      exact hof .hgetall (by rintro ⟨⟩) (hgetallValue_of_stored ha hv.2 hp)
  | smembers key =>
      obtain ⟨⟨l, rfl, -⟩, -⟩ := hstep
      exact hof .objects (by rintro ⟨⟩) (objectsValue_of_stored ha hp)
  | sadd key x | srem key x =>
      obtain ⟨rfl, -⟩ := hstep
      obtain ⟨id, path, node⟩ := p
      simp only at hp
      subst hp
      exact hof .extract (by rintro ⟨⟩) rfl
  | hlen key =>
      obtain ⟨rfl, -⟩ := hstep
      exact hof .int (by rintro ⟨⟩) (intValue_of_lt hv.2 hp)
  | hset key field x | hexists key field | hdel key field =>
      obtain ⟨rfl, -⟩ := hstep
      refine hof .int (by rintro ⟨⟩) (intValue_of_lt ?_ hp)
      split_ifs <;> norm_num

/-- **A call performs its action** on R objects, each stored as its serialization. -/
theorem ObjectCall.performs {c : ObjectCall O} (hc : c.Storable R) (hfits : c.call.Fits R) :
    c.call.Performs R (stored R) CStr.bytes R.serializeToRaw where
  templated := by cases c <;> trivial
  words := by
    cases c with
    | set key x | hset key field x | sadd key x | srem key x =>
        have hraw := (hc x rfl).1
        refine ⟨_, rfl, ?_⟩
        simp only [payload_of_not_raw hraw]
        rfl
    | _ => exact ⟨_, rfl, rfl⟩
  argument := c.serialized_lt hc hfits
  accepts v hv := .inr hv.1
  code := by
    obtain ⟨q, hq, hcode⟩ := c.code_eq (R := R)
    exact ⟨q, c.reader, hq, hcode, c.reads⟩

/-! ## Sessions -/

namespace ObjectCall

/-- Each `hget` asks for a field that is there, and the hashes that are read stay in the range
of an `int`, whatever the actions before leave. -/
def Asks : List (ObjectCall O) → Store Bytes CStr (SEXP O) → Prop
  | [], _ => True
  | c :: cs, m => c.Asked (m c.key.bytes) ∧ ∀ a m', c.call.Step m a m' → Asks cs m'

theorem ready_of_asks {usage : Bytes → Kind} {calls : List (ObjectCall O)}
    (husage : ∀ c ∈ calls, usage c.key.bytes = c.action.kind) {m : Store Bytes CStr (SEXP O)}
    (hm : m.Follows usage) (hasks : Asks calls m) : RcppRedis.Ready (calls.map call) m := by
  induction calls generalizing m with
  | nil => trivial
  | cons c cs ih =>
      obtain ⟨hc, hcs⟩ := List.forall_mem_cons.mp husage
      obtain ⟨hask, hasks⟩ := hasks
      refine ⟨⟨hc ▸ hm c.key.bytes, hask⟩, fun a m' hstep => ih hcs (hm.step hc hstep) ?_⟩
      exact hasks a m' hstep

end ObjectCall

variable {server : Server σ} {view : σ → Contents}

/-- How a method ends on a server. -/
def endsWith (R : Runtime O) (server : Server σ) (s : σ) (method : Method O) :
    Outcome RError Fault (SEXP O) :=
  ((Conn.env server).run (method.code R) { server := s }).1

/-- The four ways to read the hash under a key agree: `hgetall` has as many entries as `hlen`
says, their names are what `hkeys` lists, and each is what `hget` finds under its name. -/
structure ReadsAgree (R : Runtime O) (server : Server σ) (s : σ) (key : CStr)
    (h : List (CStr × SEXP O)) : Prop where
  nodup : (h.map Prod.fst).Nodup
  hgetall : StoreCall.Fits R (ObjectCall.call (O := O) (.hgetall key)) → h.length < 2 ^ 30 →
    endsWith R server s (.hgetall key) = .ret (.list (h.map Prod.snd) (some (h.map Prod.fst)))
  hlen : StoreCall.Fits R (ObjectCall.call (O := O) (.hlen key)) → h.length < 2 ^ 31 →
    endsWith R server s (.hlen key) = .ret (.int [(h.length : ℤ)])
  hkeys : StoreCall.Fits R (ObjectCall.call (O := O) (.hkeys key)) →
    endsWith R server s (.hkeys key) = .ret (.str (h.map Prod.fst))
  hget : ∀ e ∈ h, StoreCall.Fits R (ObjectCall.call (O := O) (.hget key e.1)) →
    endsWith R server s (.hget key e.1) = .ret e.2

/-- A call on the stored objects answers what its action may answer. -/
theorem endsWith_of_call (hserver : Keeps server view) {c : ObjectCall O} (hc : c.Storable R)
    (hfits : c.call.Fits R) {m : Store Bytes CStr (SEXP O)} {s : σ}
    (hm : m.Encoded (stored R) CStr.bytes R.serializeToRaw (view s))
    (hready : c.Ready (m c.key.bytes)) :
    ∃ a v', c.action.Step (m c.key.bytes) a v' ∧
    endsWith R server s c.method = .ret (c.value a) := by
  obtain ⟨a, m', w, hstep, hrun, -⟩ := run_storeCall hserver CStr.bytes_injective
    injOn_serializeToRaw (c.performs hc hfits) hfits hm hready
  exact ⟨a, m' c.key.bytes, hstep.1, congrArg Prod.fst hrun⟩

theorem readsAgree (hserver : Keeps server view) {m : Store Bytes CStr (SEXP O)} {s : σ}
    (hm : m.Encoded (stored R) CStr.bytes R.serializeToRaw (view s)) {key : CStr}
    (hkind : (m key.bytes).OfKind .hash) :
    ReadsAgree R server s key (m key.bytes).entries where
  nodup := (m key.bytes).nodup_names
  hgetall hfits hlen := by
    obtain ⟨a, v', ⟨rfl, -⟩, hends⟩ := endsWith_of_call (c := .hgetall key) hserver
      (by rintro x ⟨⟩) hfits hm ⟨hkind, hlen⟩
    exact hends
  hlen hfits hlen := by
    obtain ⟨a, v', ⟨rfl, -⟩, hends⟩ := endsWith_of_call (c := .hlen key) hserver
      (by rintro x ⟨⟩) hfits hm ⟨hkind, hlen⟩
    exact hends
  hkeys hfits := by
    obtain ⟨a, v', ⟨rfl, -⟩, hends⟩ := endsWith_of_call (c := .hkeys key) hserver
      (by rintro x ⟨⟩) hfits hm ⟨hkind, trivial⟩
    exact hends
  hget e he hfits := by
    obtain ⟨a, v', ⟨rfl, -⟩, hends⟩ := endsWith_of_call (c := .hget key e.1) hserver
      (by rintro x ⟨⟩) hfits hm ⟨hkind, List.mem_map_of_mem he⟩
    refine hends.trans ?_
    have hfind : find e.1 (m key.bytes).entries = some e.2 :=
      find_of_mem (m key.bytes).nodup_names he
    simp only [ObjectCall.value]
    rw [ObjectCall.key, hfind]
    rfl

/-- **The methods for values, hashes and sets refine stores of R objects.**  From objects
stored as their serializations, every call of a session returns the value of what its action
answers, and after each call the four ways to read a hash agree. -/
theorem objects_refine (usage : Bytes → Kind) (hserver : Keeps server view)
    {calls : List (ObjectCall O)}
    (hcalls : ∀ c ∈ calls, c.Storable R ∧ c.call.Fits R ∧ usage c.key.bytes = c.action.kind)
    {m : Store Bytes CStr (SEXP O)} {s : σ}
    (hm : m.Encoded (stored R) CStr.bytes R.serializeToRaw (view s))
    (hfollows : m.Follows usage) (hasks : ObjectCall.Asks calls m) :
    ∃ steps, Runs (calls.map ObjectCall.call) m steps ∧
      List.Forall₂ (fun (r : Outcome RError Fault (SEXP O) × Conn σ)
          (c : ObjectCall O × Answer CStr (SEXP O) × Store Bytes CStr (SEXP O)) =>
        r.1 = .ret (c.1.value c.2.1) ∧ r.2.err = false ∧
          ∀ key : CStr, (c.2.2 key.bytes).OfKind .hash →
            ReadsAgree R server r.2.server key (c.2.2 key.bytes).entries)
        ((Conn.env server).session (calls.map fun c => c.method.code R) { server := s })
        (calls.zip steps) := by
  have hperforms : ∀ c ∈ calls.map ObjectCall.call,
      c.Performs R (stored R) CStr.bytes R.serializeToRaw ∧ c.Fits R := by
    rw [List.forall_mem_map]
    intro c hc
    obtain ⟨hstorable, hfits, -⟩ := hcalls c hc
    exact ⟨c.performs hstorable hfits, hfits⟩
  have hready := ObjectCall.ready_of_asks (fun c hc => (hcalls c hc).2.2) hfollows hasks
  obtain ⟨steps, hruns, hall⟩ := session_runs hserver CStr.bytes_injective injOn_serializeToRaw
    hperforms hm hready
  refine ⟨steps, hruns, ?_⟩
  rw [List.zip_map_left, List.forall₂_map_right_iff, List.map_map] at hall
  exact hall.imp fun r c h => ⟨h.1, h.2.1, fun key hkind => readsAgree hserver h.2.2 hkind⟩

/-- A number is put under a field, and the hash is read back. -/
def setAndRead : List (ObjectCall Empty) :=
  [.hset (.ofAscii "hash") (.ofAscii "field") (.real [.ofInt 7]), .hgetall (.ofAscii "hash")]

theorem setAndRead_answers :
    ∃ steps, Runs (setAndRead.map ObjectCall.call) (fun _ => .absent) steps ∧
      List.Forall₂ (fun (r : Outcome RError Fault (SEXP Empty) × Conn Contents)
          (c : ObjectCall Empty × Answer CStr (SEXP Empty) × Store Bytes CStr (SEXP Empty)) =>
        r.1 = .ret (c.1.value c.2.1) ∧ r.2.err = false ∧
          ∀ key : CStr, (c.2.2 key.bytes).OfKind .hash →
            ReadsAgree Runtime.numbers typed r.2.server key (c.2.2 key.bytes).entries)
        ((Conn.env typed).session (setAndRead.map fun c => c.method.code Runtime.numbers)
          { server := fun _ => .absent })
        (setAndRead.zip steps) := by
  refine objects_refine (fun _ => .hash) typed_keeps (fun c hc => ?_)
    (fun _ => .absent) (fun _ => trivial) ⟨trivial, ?_⟩
  · rcases List.mem_pair.mp hc with rfl | rfl
    · refine ⟨?_, ?_, rfl⟩
      · rintro x ⟨⟩
        exact ⟨rfl, Runtime.numbers_recovers _⟩
      · simp only [StoreCall.Fits, ObjectCall.call, ObjectCall.method, Method.commands,
          List.mem_singleton, forall_eq]
        decide
    · refine ⟨by rintro x ⟨⟩, ?_, rfl⟩
      simp only [StoreCall.Fits, ObjectCall.call, ObjectCall.method, Method.commands,
        List.mem_singleton, forall_eq]
      decide
  · rintro a m' ⟨⟨-, -, hperm⟩, -⟩
    refine ⟨?_, fun _ _ _ => trivial⟩
    have hlen : (m' (CStr.bytes (.ofAscii "hash"))).entries.length = 1 := hperm.length_eq
    change (m' (CStr.bytes (.ofAscii "hash"))).entries.length < 2 ^ 30
    rw [hlen]
    norm_num

/-- A key whose frame does not fit is not sent. -/
theorem endsWith_long_key {key : CStr} (hkey : 2 ^ 31 ≤ key.bytes.length + 1) (s : Contents)
    (x : SEXP O) : endsWith R typed s (.hlen key) ≠ .ret x := by
  have hcode : Method.code R (.hlen key) =
      requestNULLSafe (.format (template [keyword "HLEN", .str key])
        ([keyword "HLEN", .str key].map Item.args).flatten) >>= Reader.code R .int := rfl
  have hmem : key.bytes ∈ [keyword "HLEN", .str key].map Item.text := by simp [Item.text]
  rw [endsWith, Env.run, hcode]
  exact run_long_ne_ret typed [keyword "HLEN", .str key] hmem hkey (Reader.code R .int)
    ⟨{ server := s }, {}⟩ x

theorem not_returns_long_key {key : CStr} (hkey : 2 ^ 31 ≤ key.bytes.length + 1) (s : Contents)
    (steps : List (Answer CStr (SEXP O) × Store Bytes CStr (SEXP O))) :
    ¬ List.Forall₂ (fun (r : Outcome RError Fault (SEXP O) × Conn Contents)
          (c : ObjectCall O × Answer CStr (SEXP O) × Store Bytes CStr (SEXP O)) =>
        r.1 = .ret (c.1.value c.2.1))
      ((Conn.env typed).session ([ObjectCall.hlen key].map fun c => c.method.code R)
        { server := s })
      ([ObjectCall.hlen key].zip steps) := by
  intro hall
  obtain ⟨rest, hsession⟩ := session_cons (E := Conn.env typed) (Method.code R (.hlen key)) []
    { server := s }
  simp only [List.map_cons, List.map_nil, ObjectCall.method, hsession] at hall
  cases steps with
  | nil =>
      rw [List.zip_nil_right, List.forall₂_nil_right_iff] at hall
      exact List.cons_ne_nil _ _ hall
  | cons step steps =>
      rw [List.zip_cons_cons, List.forall₂_cons] at hall
      obtain ⟨hhead, -⟩ := hall
      dsimp only at hhead
      rw [← endsWith] at hhead
      exact endsWith_long_key hkey s _ hhead

/-- The hash under a key of `2 ^ 31 - 1` bytes, the longest string that R has, is not read. -/
theorem hlen_longest_key_fails :
    ¬ ∀ (usage : Bytes → Kind) (calls : List (ObjectCall Empty)),
      (∀ c ∈ calls, c.Storable Runtime.onlyNull ∧ usage c.key.bytes = c.action.kind) →
      ObjectCall.Asks calls (fun _ => .absent) →
      ∃ steps, Runs (calls.map ObjectCall.call) (fun _ => .absent) steps ∧
        List.Forall₂ (fun (r : Outcome RError Fault (SEXP Empty) × Conn Contents)
            (c : ObjectCall Empty × Answer CStr (SEXP Empty) × Store Bytes CStr
              (SEXP Empty)) =>
          r.1 = .ret (c.1.value c.2.1))
          ((Conn.env typed).session (calls.map fun c => c.method.code Runtime.onlyNull)
            { server := fun _ => .absent })
          (calls.zip steps) := by
  intro h
  obtain ⟨key, hlen⟩ : ∃ key : CStr, key.bytes.length = 0x7fffffff :=
    ⟨Method.longKey 0x7fffffff, Method.length_longKey _⟩
  have hlong : 2 ^ 31 ≤ key.bytes.length + 1 := by omega
  have hstorable : ∀ c ∈ [ObjectCall.hlen (O := Empty) key],
      c.Storable Runtime.onlyNull ∧ Kind.hash = c.action.kind := by
    intro c hc
    rw [List.mem_singleton.mp hc]
    exact ⟨by rintro x ⟨⟩, rfl⟩
  have hasks : ObjectCall.Asks [ObjectCall.hlen (O := Empty) key] (fun _ => .absent) :=
    ⟨Nat.two_pow_pos 31, fun _ _ _ => trivial⟩
  obtain ⟨steps, -, hall⟩ := h (fun _ => .hash) [.hlen key] hstorable hasks
  exact not_returns_long_key hlong (fun _ => .absent) steps hall

end Classical

end RcppRedis
