import RcppRedis.Redis.Connection
import RcppRedis.Lib.Edits

/-!
# Subscriptions from R

`pubsub` is a server that keeps the channels and patterns of one connection as sets.  The calls
`subscribe`, `psubscribe` and `unsubscribe` stand for edits of these sets, and `RCPP_MODULE`
says which method of the class each of them runs.

* `run_subscribe` — what one exported call does.
* `subscribes_iff` — exactly when a session does what its calls stand for.
-/

namespace RcppRedis

open Bytes Resp Hiredis Interact Prog

variable {O : Type} {R : Runtime O}

/-! ## The server -/

/-- The channels and the patterns of a connection. -/
@[ext]
structure Subscriptions where
  channels : Finset Bytes := ∅
  patterns : Finset Bytes := ∅
  deriving DecidableEq

namespace Subscriptions

/-- The confirmation of a command: what it did, to which channel or pattern, and how many
subscriptions the connection has now. -/
def confirm (kind : Bytes) (name : Bytes) (s : Subscriptions) : Reply × Subscriptions :=
  (.array [.string kind, .string name, .integer (s.channels.card + s.patterns.card)], s)

end Subscriptions

/-- A server of subscriptions, for commands with one channel or pattern; `other` is what it
does with any other command. -/
def pubsub (other : Server Subscriptions) : Server Subscriptions
  | [w, name], s =>
      if w = ascii "SUBSCRIBE" then
        { s with channels := insert name s.channels }.confirm (ascii "subscribe") name
      else if w = ascii "PSUBSCRIBE" then
        { s with patterns := insert name s.patterns }.confirm (ascii "psubscribe") name
      else if w = ascii "UNSUBSCRIBE" then
        { s with channels := s.channels.erase name }.confirm (ascii "unsubscribe") name
      else other [w, name] s
  | words, s => other words s

/-! ## The calls -/

/-- A call from R. -/
inductive SubscriptionCall where
  | subscribe (channels : List CStr)
  | psubscribe (channels : List CStr)
  | unsubscribe (channels : List CStr)

/-- A set of byte strings. -/
def bytesOf (cs : List CStr) : Finset Bytes := (cs.map CStr.bytes).toFinset

namespace SubscriptionCall

/-- The method of that name. -/
def method : SubscriptionCall → Method O
  | subscribe cs => .subscribe cs
  | psubscribe cs => .psubscribe cs
  | unsubscribe cs => .unsubscribe cs

/-- The argument of the call. -/
def names : SubscriptionCall → List CStr
  | subscribe cs => cs
  | psubscribe cs => cs
  | unsubscribe cs => cs

/-- What the call stands for on the set of channels. -/
def edit : SubscriptionCall → Edits.Edit Bytes
  | subscribe cs => .add (bytesOf cs)
  | psubscribe _ => .add ∅
  | unsubscribe cs => .remove (bytesOf cs)

/-- What the call stands for on the set of patterns. -/
def editPatterns : SubscriptionCall → Edits.Edit Bytes
  | psubscribe cs => .add (bytesOf cs)
  | _ => .add ∅

end SubscriptionCall

/-- The sets that the calls stand for, from a fresh connection. -/
def subscriptionsOf (calls : List SubscriptionCall) : Subscriptions where
  channels := Edits.run (calls.map SubscriptionCall.edit) ∅
  patterns := Edits.run (calls.map SubscriptionCall.editPatterns) ∅

/-- The session of the calls that R makes, from a state of the server. -/
abbrev subscriptionSession (R : Runtime O) (other : Server Subscriptions)
    (calls : List SubscriptionCall) (s : Subscriptions) :
    List (Outcome RError Fault (SEXP O) × Conn Subscriptions) :=
  (Conn.env (pubsub other)).session (calls.map fun c => c.method.exported.code R)
  { server := s }

/-- From a fresh connection, every call returns, and the server is left with the sets that the
calls stand for. -/
def Subscribes (R : Runtime O) (other : Server Subscriptions)
    (calls : List SubscriptionCall) : Prop :=
  (∀ o ∈ subscriptionSession R other calls {}, o.1.Returned) ∧
    (((subscriptionSession R other calls {}).map fun o => o.2.server).getLast?.getD {}) =
      subscriptionsOf calls

/-- Every frame of the calls fits. -/
def SubscriptionCall.Fit (calls : List SubscriptionCall) : Prop :=
  ∀ c ∈ calls, ∀ name ∈ c.names,
    (encodeCommand [ascii "SUBSCRIBE", name.bytes]).length + 1 < 2 ^ 31

/-- No patterns are asked for; every channel that is unsubscribed is subscribed again later;
and the frame of every channel fits. -/
def SubscriptionCall.Plain (calls : List SubscriptionCall) : Prop :=
  (∀ cs, .psubscribe cs ∈ calls → cs = []) ∧
    Edits.Restored (calls.map SubscriptionCall.edit) ∧ SubscriptionCall.Fit calls

/-! ## One channel -/

/-- The state of the server once a channel was subscribed. -/
def Subscriptions.join (s : Subscriptions) (names : Finset Bytes) : Subscriptions :=
  { s with channels := s.channels ∪ names }

theorem pubsub_subscribe (other : Server Subscriptions) (name : Bytes) (s : Subscriptions) :
    pubsub other [ascii "SUBSCRIBE", name] s =
      (s.join {name}).confirm (ascii "subscribe") name := by
  rw [pubsub, if_pos rfl, Subscriptions.join, Finset.insert_eq, Finset.union_comm]

theorem encodes_subscribeRequest (name : CStr) :
    (subscribeRequest (ascii "SUBSCRIBE") name).Encodes [ascii "SUBSCRIBE", name.bytes] :=
  .format [.str (.ofAscii "SUBSCRIBE"), .str name] (by simp)

/-- The exported methods all subscribe. -/
theorem exported_code (c : SubscriptionCall) :
    (c.method (O := O)).exported.code R = subscribe c.names := by
  cases c <;> rfl

/-- One channel is a request and the extraction of its reply. -/
theorem subscribeChannel_eq (type : Bytes) (name : CStr) :
    subscribeChannel (O := O) type name = requestNULLSafe (subscribeRequest type name) >>=
      fun reply => thenFree reply (extractReply reply) := rfl

/-- **One channel** whose frame fits is subscribed. -/
theorem run_subscribeChannel (other : Server Subscriptions) {name : CStr}
    (hfits : (encodeCommand [ascii "SUBSCRIBE", name.bytes]).length + 1 < 2 ^ 31)
    {w : World (Conn Subscriptions)} (hw : w.env.err = false) :
    ∃ x w', run (Conn.env (pubsub other)).handler
        (subscribeChannel (O := O) (ascii "SUBSCRIBE") name) w = (.ret x, w') ∧
      w'.env = { server := w.env.server.join {name.bytes} } := by
  have hencodes := encodes_subscribeRequest name
  rw [subscribeChannel_eq, run_command _ (hencodes.exact_iff_fits.mpr hfits)
    hencodes.ne_nil _ hw, pubsub_subscribe]
  exact ⟨_, _, run_thenFree_ret _ _ _ _, rfl⟩

/-- A channel whose frame does not fit ends the call. -/
theorem not_returned_subscribeChannel (other : Server Subscriptions) {name : CStr}
    (hfits : ¬ (encodeCommand [ascii "SUBSCRIBE", name.bytes]).length + 1 < 2 ^ 31)
    (w : World (Conn Subscriptions)) :
    ¬ (run (Conn.env (pubsub other)).handler
      (subscribeChannel (O := O) (ascii "SUBSCRIBE") name) w).1.Returned := by
  have hcode : subscribeChannel (O := O) (ascii "SUBSCRIBE") name =
      requestNULLSafe (.format (template [.str (.ofAscii "SUBSCRIBE"), .str name])
        ([.str (.ofAscii "SUBSCRIBE"), .str name].map Item.args).flatten) >>= fun reply =>
          thenFree reply (extractReply reply) := rfl
  rw [hcode]
  rcases run_not_fits (pubsub other) [.str (.ofAscii "SUBSCRIBE"), .str name] (by simp) hfits
    (fun reply => thenFree reply (extractReply (O := O) reply)) w with
    ⟨-, e, w', hrun, -⟩ | ⟨-, f, w', hrun⟩
  · rw [hrun]
    exact not_returned_raise e
  · rw [hrun]
    exact not_returned_fault f

/-! ## One call -/

@[simp] theorem bytesOf_nil : bytesOf [] = ∅ := rfl

theorem bytesOf_eq_empty {names : List CStr} (h : bytesOf names = ∅) : names = [] := by
  rw [bytesOf, List.toFinset_eq_empty_iff, List.map_eq_nil_iff] at h
  exact h

@[simp] theorem bytesOf_cons (name : CStr) (names : List CStr) :
    bytesOf (name :: names) = {name.bytes} ∪ bytesOf names := by
  rw [bytesOf, bytesOf, List.map_cons, List.toFinset_cons, Finset.insert_eq]

theorem Subscriptions.join_empty (s : Subscriptions) : s.join ∅ = s := by
  rw [join, Finset.union_empty]

theorem Subscriptions.join_join (s : Subscriptions) (a b : Finset Bytes) :
    (s.join a).join b = s.join (a ∪ b) := by
  simp only [join, Finset.union_assoc]

/-- **One call** subscribes its channels, one after the other. -/
theorem run_subscribe (other : Server Subscriptions) {names : List CStr}
    (hfits : ∀ name ∈ names, (encodeCommand [ascii "SUBSCRIBE", name.bytes]).length + 1 <
      2 ^ 31)
    {w : World (Conn Subscriptions)} (hw : w.env.err = false) :
    ∃ xs w', run (Conn.env (pubsub other)).handler
        (names.mapM (subscribeChannel (O := O) (ascii "SUBSCRIBE"))) w = (.ret xs, w') ∧
      w'.env = { server := w.env.server.join (bytesOf names) } := by
  induction names generalizing w with
  | nil =>
      refine ⟨[], w, rfl, ?_⟩
      rw [← hw, bytesOf_nil, Subscriptions.join_empty]
  | cons name names ih =>
      obtain ⟨hname, hnames⟩ := List.forall_mem_cons.mp hfits
      obtain ⟨x, w₁, hfirst, hw₁⟩ := run_subscribeChannel (O := O) other hname hw
      obtain ⟨xs, w₂, hrest, hw₂⟩ := ih hnames (w := w₁) (by rw [hw₁])
      refine ⟨x :: xs, w₂, run_mapM_cons _ hfirst hrest, ?_⟩
      rw [hw₂, hw₁, Subscriptions.join_join, bytesOf_cons]

theorem not_returned_subscribe (other : Server Subscriptions) {names : List CStr}
    (hfits : ¬ ∀ name ∈ names,
      (encodeCommand [ascii "SUBSCRIBE", name.bytes]).length + 1 < 2 ^ 31)
    {w : World (Conn Subscriptions)} (hw : w.env.err = false) :
    ¬ (run (Conn.env (pubsub other)).handler
      (names.mapM (subscribeChannel (O := O) (ascii "SUBSCRIBE"))) w).1.Returned := by
  induction names generalizing w with
  | nil => exact absurd (by simp) hfits
  | cons name names ih =>
      rw [List.mapM_cons]
      by_cases hname : (encodeCommand [ascii "SUBSCRIBE", name.bytes]).length + 1 < 2 ^ 31
      · obtain ⟨x, w₁, hfirst, hw₁⟩ := run_subscribeChannel (O := O) other hname hw
        rw [run_bind, hfirst, andThen_ret]
        refine fun h => ih (fun hnames => hfits (List.forall_mem_cons.mpr ⟨hname, hnames⟩))
          (w := w₁) (by rw [hw₁]) (returned_of_bind _ h)
      · exact fun h => not_returned_subscribeChannel other hname w (returned_of_bind _ h)

/-! ## A session -/

/-- All channels and patterns that the calls name. -/
def namedBy (calls : List SubscriptionCall) : Finset Bytes :=
  calls.foldr (fun c s => bytesOf c.names ∪ s) ∅

/-- **One exported call** whose frames fit. -/
theorem run_exported (other : Server Subscriptions) {c : SubscriptionCall}
    (hc : ∀ name ∈ c.names, (encodeCommand [ascii "SUBSCRIBE", name.bytes]).length + 1 <
      2 ^ 31)
    (s : Subscriptions) :
    ∃ x w, (Conn.env (pubsub other)).run (c.method.exported.code R) { server := s } =
      (.ret x, w) ∧
      w.env = { server := s.join (bytesOf c.names) } := by
  obtain ⟨xs, w, hrun, hw⟩ := run_subscribe (O := O) other hc
    (w := ⟨{ server := s }, {}⟩) rfl
  refine ⟨.list xs none, w, ?_, hw⟩
  rw [exported_code, Env.run, subscribe, subscribeProto, run_bind, hrun]
  rfl

theorem fit_of_returned (other : Server Subscriptions) {c : SubscriptionCall}
    {s : Subscriptions}
    (h : ((Conn.env (pubsub other)).run (c.method.exported.code R)
      { server := s }).1.Returned) :
    ∀ name ∈ c.names, (encodeCommand [ascii "SUBSCRIBE", name.bytes]).length + 1 < 2 ^ 31 := by
  rw [exported_code] at h
  by_contra hfits
  exact not_returned_subscribe (O := O) other hfits
    (w := ⟨{ server := s }, {}⟩) rfl (returned_of_bind _ h)

/-- **A session whose frames fit** subscribes all that its calls name. -/
theorem session_of_fit (other : Server Subscriptions) {calls : List SubscriptionCall}
    (hfit : SubscriptionCall.Fit calls) (s : Subscriptions) :
    (∀ o ∈ subscriptionSession R other calls s, o.1.Returned) ∧
      (((subscriptionSession R other calls s).map fun o => o.2.server).getLast?.getD s) =
        s.join (namedBy calls) := by
  induction calls generalizing s with
  | nil => exact ⟨by rintro o ⟨⟩, (s.join_empty).symm⟩
  | cons c calls ih =>
      obtain ⟨hc, hcalls⟩ := List.forall_mem_cons.mp hfit
      obtain ⟨x, w, hrun, hw⟩ := run_exported (R := R) other hc s
      obtain ⟨hreturned, hlast⟩ := ih hcalls (s.join (bytesOf c.names))
      rw [subscriptionSession, List.map_cons, session_cons_ret hrun, hw]
      refine ⟨List.forall_mem_cons.mpr ⟨returned_ret x, hreturned⟩, ?_⟩
      rw [List.map_cons, List.getLast?_cons, Option.getD_some]
      refine hlast.trans ?_
      rw [Subscriptions.join_join]
      rfl

/-- A session in which every call returns has no frame that does not fit. -/
theorem fit_of_session (other : Server Subscriptions) {calls : List SubscriptionCall}
    {s : Subscriptions} (h : ∀ o ∈ subscriptionSession R other calls s, o.1.Returned) :
    SubscriptionCall.Fit calls := by
  induction calls generalizing s with
  | nil => rintro c ⟨⟩
  | cons c calls ih =>
      obtain ⟨rest, hhead⟩ := session_cons (Conn.env (pubsub other))
        ((c.method (O := O)).exported.code R) (calls.map fun c => c.method.exported.code R)
        { server := s }
      have hfirst := h _ (by
        rw [subscriptionSession, List.map_cons, hhead]
        exact List.mem_cons_self)
      have hc := fit_of_returned other hfirst
      obtain ⟨x, w, hrun, hw⟩ := run_exported (R := R) other hc s
      rw [subscriptionSession, List.map_cons, session_cons_ret hrun, hw] at h
      exact List.forall_mem_cons.mpr ⟨hc, ih (List.forall_mem_cons.mp h).2⟩

/-! ## What the calls stand for -/

theorem patterns_eq_empty_iff (calls : List SubscriptionCall) :
    (subscriptionsOf calls).patterns = ∅ ↔ ∀ cs, .psubscribe cs ∈ calls → cs = [] := by
  have hrestored : Edits.Restored (calls.map SubscriptionCall.editPatterns) := by
    induction calls with
    | nil => trivial
    | cons c calls ih => cases c <;> exact ih
  have hrun := (Edits.run_eq_union_named_iff _ ∅).mpr hrestored
  rw [subscriptionsOf, hrun, Finset.empty_union, Edits.named_eq_empty_iff, List.forall_mem_map]
  constructor
  · intro h cs hcs
    exact bytesOf_eq_empty (h _ hcs)
  · intro h c hc
    cases c with
    | psubscribe cs =>
        obtain rfl := h cs hc
        rfl
    | _ => rfl

theorem named_edits {calls : List SubscriptionCall}
    (h : ∀ cs, .psubscribe cs ∈ calls → cs = []) :
    Edits.named (calls.map SubscriptionCall.edit) = namedBy calls := by
  induction calls with
  | nil => rfl
  | cons c calls ih =>
      have hnamed : c.edit.named = bytesOf c.names := by
        cases c with
        | psubscribe cs =>
            obtain rfl := h cs List.mem_cons_self
            rfl
        | _ => rfl
      rw [List.map_cons, Edits.named_cons, hnamed, ih fun cs hcs =>
        h cs (List.mem_cons_of_mem c hcs)]
      rfl

/-- **The exported calls subscribe channels as they stand for**, exactly when no patterns are
asked for, every channel that is unsubscribed is subscribed again later, and every frame
fits. -/
theorem subscribes_iff (other : Server Subscriptions) (calls : List SubscriptionCall) :
    Subscribes R other calls ↔ SubscriptionCall.Plain calls := by
  have hstate (hpatterns : ∀ cs, .psubscribe cs ∈ calls → cs = []) :
      Subscriptions.join {} (namedBy calls) = subscriptionsOf calls ↔
        Edits.Restored (calls.map SubscriptionCall.edit) := by
    rw [← Edits.run_eq_union_named_iff _ ∅, named_edits hpatterns]
    constructor
    · intro h
      exact (congrArg Subscriptions.channels h).symm
    · intro h
      exact Subscriptions.ext h.symm ((patterns_eq_empty_iff calls).mpr hpatterns).symm
  constructor
  · rintro ⟨hreturned, hlast⟩
    have hfit := fit_of_session other hreturned
    rw [subscriptionSession, (session_of_fit other hfit {}).2] at hlast
    have hpatterns := (patterns_eq_empty_iff calls).mp (by rw [← hlast]; rfl)
    exact ⟨hpatterns, (hstate hpatterns).mp hlast, hfit⟩
  · rintro ⟨hpatterns, hrestored, hfit⟩
    obtain ⟨hreturned, hlast⟩ := session_of_fit (R := R) other hfit {}
    exact ⟨hreturned, hlast.trans ((hstate hpatterns).mpr hrestored)⟩

/-- `psubscribe("p*")` subscribes the channel `p*`, and `unsubscribe("a")` the channel `a`. -/
theorem psubscribe_subscribes :
    ¬ Subscribes Runtime.onlyNull (fun _ s => (.nil, s)) [.psubscribe [.ofAscii "p*"]] ∧
      ¬ Subscribes Runtime.onlyNull (fun _ s => (.nil, s))
        [.subscribe [.ofAscii "a"], .unsubscribe [.ofAscii "a"]] := by
  constructor
  · rintro ⟨hreturned, hlast⟩
    rw [(session_of_fit _ (fit_of_session _ hreturned) {}).2] at hlast
    exact absurd hlast (by decide)
  · rintro ⟨hreturned, hlast⟩
    rw [(session_of_fit _ (fit_of_session _ hreturned) {}).2] at hlast
    exact absurd hlast (by decide)

end RcppRedis
