import Mathlib.Data.List.Basic

/-!
# Programs that call an environment

A `Prog` is a finite tree of calls.  Each node names an instruction `i : I` and
continues with whatever answer of type `A i` the environment gives; the leaves
return a value, raise an error, or fault.  A fault is undefined behaviour: the
program promised nothing from there on.

The environment is a `Handler`: a state transformer that answers one instruction.
It may also fault itself, or never answer.  `run` threads the handler's state
through the tree and stops at the first leaf.

## Main definitions

* `Prog` — the programs, with their monad.
* `Handler`, `run` — an environment, and the run of a program in it.
* `run_bind` — a run of a sequence is the run of its parts.
* `run_invariant` — what every answered call preserves, the whole run preserves.
* `Leaf`, `Only` — programs that call nothing, or certain instructions only.
* `Along` — a run all of whose instructions are made where a condition holds.
* `Strict`, `run_simulates` — a program that stops at the first bad answer cannot
  tell a failing environment from the one it simulates, except by stopping.
-/

namespace Interact

/-- How a run ends.  `blocked` is a run that still waits for its environment. -/
inductive Outcome (E F α : Type) where
  | ret (a : α)
  | raise (e : E)
  | fault (f : F)
  | blocked
  deriving DecidableEq, Repr

/-- What an environment does with one instruction. -/
inductive Response (F α : Type) where
  | answer (a : α)
  | fault (f : F)
  | blocked
  deriving DecidableEq, Repr

/-- A program over instructions `I` with answers `A`, errors `E` and faults `F`. -/
inductive Prog (I : Type) (A : I → Type) (E F α : Type) where
  | ret (a : α)
  | raise (e : E)
  | fault (f : F)
  | call (i : I) (k : A i → Prog I A E F α)

/-- An environment: it answers an instruction and moves to its next state. -/
def Handler (I : Type) (A : I → Type) (F σ : Type) : Type :=
  (i : I) → σ → Response F (A i) × σ

namespace Prog

variable {I : Type} {A : I → Type} {E F α β γ : Type}

/-- Continue a program at its returned value. -/
def bind : Prog I A E F α → (α → Prog I A E F β) → Prog I A E F β
  | .ret a, f => f a
  | .raise e, _ => .raise e
  | .fault e, _ => .fault e
  | .call i k, f => .call i fun a => (k a).bind f

instance : Monad (Prog I A E F) where
  pure := ret
  bind := bind

@[simp] theorem pure_eq (a : α) : (Pure.pure a : Prog I A E F α) = .ret a := rfl
@[simp] theorem ret_bind (a : α) (f : α → Prog I A E F β) : (.ret a >>= f) = f a := rfl
@[simp] theorem raise_bind (e : E) (f : α → Prog I A E F β) :
    ((.raise e : Prog I A E F α) >>= f) = .raise e := rfl
@[simp] theorem fault_bind (e : F) (f : α → Prog I A E F β) :
    ((.fault e : Prog I A E F α) >>= f) = .fault e := rfl
@[simp] theorem call_bind (i : I) (k : A i → Prog I A E F α) (f : α → Prog I A E F β) :
    (.call i k >>= f) = .call i fun a => k a >>= f := rfl

theorem bind_ret (p : Prog I A E F α) : (p >>= .ret) = p := by
  induction p with
  | ret a => rfl
  | raise e => rfl
  | fault f => rfl
  | call i k ih => simp only [call_bind, ih]

theorem bind_assoc (p : Prog I A E F α) (f : α → Prog I A E F β) (g : β → Prog I A E F γ) :
    ((p >>= f) >>= g) = (p >>= fun a => f a >>= g) := by
  induction p with
  | ret a => rfl
  | raise e => rfl
  | fault f => rfl
  | call i k ih => simp only [call_bind, ih]

instance : LawfulMonad (Prog I A E F) :=
  LawfulMonad.mk' _ (fun p => bind_ret p) (fun _ _ => rfl) (fun p f g => bind_assoc p f g)

/-! ## Programs without calls -/

/-- A program that calls nothing. -/
inductive Leaf : Prog I A E F α → Prop where
  | ret (a : α) : Leaf (.ret a)
  | raise (e : E) : Leaf (.raise e)
  | fault (f : F) : Leaf (.fault f)

/-- A program that calls nothing and returns. -/
def Returns (p : Prog I A E F α) : Prop := ∃ a, p = .ret a

theorem Leaf.ends {p : Prog I A E F α} (hp : Leaf p) :
    (∃ a, p = .ret a) ∨ (∃ e, p = .raise e) ∨ ∃ f, p = .fault f := by
  cases hp with
  | ret a => exact .inl ⟨a, rfl⟩
  | raise e => exact .inr (.inl ⟨e, rfl⟩)
  | fault f => exact .inr (.inr ⟨f, rfl⟩)

theorem Leaf.bind {p : Prog I A E F α} {f : α → Prog I A E F β} (hp : Leaf p)
    (hf : ∀ a, Leaf (f a)) : Leaf (p >>= f) := by
  cases hp with
  | ret a => exact hf a
  | raise e => exact .raise e
  | fault e => exact .fault e

theorem Leaf.mapM {f : α → Prog I A E F β} (hf : ∀ a, Leaf (f a)) (l : List α) :
    Leaf (l.mapM f) := by
  induction l with
  | nil => exact .ret []
  | cons a l ih =>
      rw [List.mapM_cons]
      exact (hf a).bind fun b => ih.bind fun bs => .ret (b :: bs)

/-- A program that calls nothing and faults in one of the given ways. -/
def FaultsWith (P : F → Prop) (p : Prog I A E F α) : Prop := ∃ f, P f ∧ p = .fault f

section FaultsWith

variable {P : F → Prop}

@[simp] theorem not_faultsWith_ret (a : α) : ¬ FaultsWith P (.ret a : Prog I A E F α) := by
  rintro ⟨f, -, ⟨⟩⟩
@[simp] theorem not_faultsWith_raise (e : E) : ¬ FaultsWith P (.raise e : Prog I A E F α) := by
  rintro ⟨f, -, ⟨⟩⟩
@[simp] theorem faultsWith_fault_iff {f : F} :
    FaultsWith P (.fault f : Prog I A E F α) ↔ P f := by
  constructor
  · rintro ⟨f, hf, ⟨⟩⟩
    exact hf
  · exact fun hf => ⟨f, hf, rfl⟩

theorem faultsWith_bind_iff {p : Prog I A E F α} {f : α → Prog I A E F β} :
    FaultsWith P (p >>= f) ↔ FaultsWith P p ∨ ∃ a, p = .ret a ∧ FaultsWith P (f a) := by
  cases p with
  | ret a => simp
  | raise e => simp
  | fault e => simp
  | call i k =>
      constructor
      · rintro ⟨f, -, ⟨⟩⟩
      · rintro (⟨f, -, ⟨⟩⟩ | ⟨a, ⟨⟩, -⟩)

/-- What is made of a returned value does not matter. -/
@[simp] theorem faultsWith_bind_pure_iff {p : Prog I A E F α} {f : α → β} :
    FaultsWith P (p >>= fun a => pure (f a)) ↔ FaultsWith P p := by
  simp [faultsWith_bind_iff]

/-- A loop faults in the first round that does not return. -/
theorem faultsWith_mapM_iff {f : α → Prog I A E F β} (l : List α) :
    FaultsWith P (l.mapM f) ↔
      ∃ pre a post, l = pre ++ a :: post ∧ (∀ b ∈ pre, Returns (f b)) ∧
      FaultsWith P (f a) := by
  induction l with
  | nil => simp
  | cons c l ih =>
      rw [List.mapM_cons, faultsWith_bind_iff]
      simp only [faultsWith_bind_pure_iff, ih]
      constructor
      · rintro (hc | ⟨b, hb, pre, a, post, rfl, hpre, ha⟩)
        · exact ⟨[], c, l, rfl, by simp, hc⟩
        · exact ⟨c :: pre, a, post, rfl, List.forall_mem_cons.mpr ⟨⟨b, hb⟩, hpre⟩, ha⟩
      · rintro ⟨pre, a, post, hl, hpre, ha⟩
        cases pre with
        | nil =>
            obtain ⟨rfl, rfl⟩ := List.cons_eq_cons.mp hl
            exact .inl ha
        | cons d pre =>
            obtain ⟨rfl, rfl⟩ := List.cons_eq_cons.mp hl
            obtain ⟨⟨b, hb⟩, hpre⟩ := List.forall_mem_cons.mp hpre
            exact .inr ⟨b, hb, pre, a, post, rfl, hpre, ha⟩

theorem not_faultsWith_mapM {f : α → Prog I A E F β} {l : List α}
    (h : ∀ a ∈ l, ¬ FaultsWith P (f a)) : ¬ FaultsWith P (l.mapM f) := by
  rw [faultsWith_mapM_iff]
  rintro ⟨pre, a, post, rfl, -, ha⟩
  exact h a (by simp) ha

/-- The loop over the numbers below `n`. -/
theorem faultsWith_mapM_range_iff {f : ℕ → Prog I A E F β} (n : ℕ) :
    FaultsWith P ((List.range n).mapM f) ↔
      ∃ i < n, (∀ j < i, Returns (f j)) ∧ FaultsWith P (f i) := by
  rw [faultsWith_mapM_iff]
  constructor
  · rintro ⟨pre, i, post, hrange, hpre, hi⟩
    have hlen : pre.length < n := by
      have := congrArg List.length hrange
      simp only [List.length_range, List.length_append, List.length_cons] at this
      omega
    have hget (j : ℕ) (hj : j < n) : (pre ++ i :: post)[j]? = some j := by
      rw [← hrange, List.getElem?_range hj]
    obtain rfl : i = pre.length := by simpa using hget pre.length hlen
    refine ⟨pre.length, hlen, fun j hj => hpre j ?_, hi⟩
    have hj' := hget j (Nat.lt_trans hj hlen)
    rw [List.getElem?_append_left hj] at hj'
    exact List.mem_of_getElem? hj'
  · rintro ⟨i, hi, hpre, hfault⟩
    refine ⟨List.range i, i, (List.range (n - i - 1)).map (i + 1 + ·),
      ?_, by simpa using hpre, hfault⟩
    have hn : n = i + (1 + (n - i - 1)) := by omega
    conv_lhs => rw [hn, List.range_add, List.range_add]
    simp [Nat.add_assoc]

end FaultsWith

/-- A program all of whose instructions are `ok`. -/
inductive Only (ok : I → Prop) : Prog I A E F α → Prop where
  | ret (a : α) : Only ok (.ret a)
  | raise (e : E) : Only ok (.raise e)
  | fault (f : F) : Only ok (.fault f)
  | call (i : I) (k : A i → Prog I A E F α) (hi : ok i) (hk : ∀ a, Only ok (k a)) :
      Only ok (.call i k)

variable {ok ok' : I → Prop}

theorem Only.bind {p : Prog I A E F α} {f : α → Prog I A E F β} (hp : Only ok p)
    (hf : ∀ a, Only ok (f a)) : Only ok (p >>= f) := by
  induction hp with
  | ret a => exact hf a
  | raise e => exact .raise e
  | fault e => exact .fault e
  | call i k hi hk ih => exact .call i _ hi ih

theorem Only.mapM {f : α → Prog I A E F β} {l : List α} (hf : ∀ a ∈ l, Only ok (f a)) :
    Only ok (l.mapM f) := by
  induction l with
  | nil => exact .ret []
  | cons a l ih =>
      rw [List.mapM_cons]
      refine (hf a List.mem_cons_self).bind fun b => ?_
      exact (ih fun c hc => hf c (List.mem_cons_of_mem a hc)).bind fun bs => .ret (b :: bs)

theorem Only.foldlM {f : β → α → Prog I A E F β} {l : List α}
    (hf : ∀ b, ∀ a ∈ l, Only ok (f b a)) (b : β) : Only ok (l.foldlM f b) := by
  induction l generalizing b with
  | nil => exact .ret b
  | cons a l ih =>
      rw [List.foldlM_cons]
      refine (hf b a List.mem_cons_self).bind fun b' => ?_
      exact ih (fun b c hc => hf b c (List.mem_cons_of_mem a hc)) b'

theorem Only.mono {p : Prog I A E F α} (hp : Only ok p) (h : ∀ i, ok i → ok' i) :
    Only ok' p := by
  induction hp with
  | ret a => exact .ret a
  | raise e => exact .raise e
  | fault e => exact .fault e
  | call i k hi hk ih => exact .call i k (h i hi) ih

theorem Leaf.only {p : Prog I A E F α} (hp : Leaf p) : Only ok p := by
  cases hp with
  | ret a => exact .ret a
  | raise e => exact .raise e
  | fault e => exact .fault e

theorem mapM_congr {f g : α → Prog I A E F β} {l : List α} (h : ∀ a ∈ l, f a = g a) :
    l.mapM f = l.mapM g := by
  induction l with
  | nil => rfl
  | cons a l ih =>
      rw [List.mapM_cons, List.mapM_cons, h a List.mem_cons_self,
        ih fun b hb => h b (List.mem_cons_of_mem a hb)]

@[simp] theorem returns_ret (a : α) : Returns (.ret a : Prog I A E F α) := ⟨a, rfl⟩
@[simp] theorem not_returns_raise (e : E) : ¬ Returns (.raise e : Prog I A E F α) := by
  rintro ⟨a, ⟨⟩⟩
@[simp] theorem not_returns_fault (f : F) : ¬ Returns (.fault f : Prog I A E F α) := by
  rintro ⟨a, ⟨⟩⟩

theorem returns_bind_iff {p : Prog I A E F α} {f : α → Prog I A E F β} :
    Returns (p >>= f) ↔ ∃ a, p = .ret a ∧ Returns (f a) := by
  cases p with
  | ret a => simp
  | raise e => simp
  | fault e => simp
  | call i k =>
      constructor
      · rintro ⟨a, ⟨⟩⟩
      · rintro ⟨a, ⟨⟩, -⟩

/-- What is made of a returned value does not matter. -/
@[simp] theorem returns_bind_pure_iff {p : Prog I A E F α} {f : α → β} :
    Returns (p >>= fun a => pure (f a)) ↔ Returns p := by
  rw [returns_bind_iff]
  constructor
  · rintro ⟨a, ha, -⟩
    exact ⟨a, ha⟩
  · rintro ⟨a, ha⟩
    exact ⟨a, ha, f a, rfl⟩

/-- A loop returns the values of its rounds. -/
theorem mapM_eq_ret_iff {f : α → Prog I A E F β} {l : List α} {ys : List β} :
    l.mapM f = .ret ys ↔ List.Forall₂ (fun a y => f a = .ret y) l ys := by
  induction l generalizing ys with
  | nil =>
      cases ys with
      | nil => exact iff_of_true rfl .nil
      | cons y ys => exact iff_of_false (by rintro ⟨⟩) (by rintro ⟨⟩)
  | cons a l ih =>
      rw [List.mapM_cons]
      cases ys with
      | nil =>
          refine iff_of_false (fun h => ?_) (by rintro ⟨⟩)
          cases hfirst : f a with
          | ret b => cases hrest : l.mapM f <;> simp [hfirst, hrest] at h
          | raise e => simp [hfirst] at h
          | fault e => simp [hfirst] at h
          | call i k => simp [hfirst] at h
      | cons y ys =>
          rw [List.forall₂_cons, ← ih]
          cases hfirst : f a with
          | ret b => cases hrest : l.mapM f <;> simp
          | raise e => simp
          | fault e => simp
          | call i k => simp

/-- A program that calls nothing and raises an error. -/
def Raises (p : Prog I A E F α) : Prop := ∃ e, p = .raise e

@[simp] theorem not_raises_ret (a : α) : ¬ Raises (.ret a : Prog I A E F α) := by
  rintro ⟨e, ⟨⟩⟩
@[simp] theorem not_raises_fault (f : F) : ¬ Raises (.fault f : Prog I A E F α) := by
  rintro ⟨e, ⟨⟩⟩

theorem not_raises_bind {p : Prog I A E F α} {f : α → Prog I A E F β} (hp : ¬ Raises p)
    (hf : ∀ a, ¬ Raises (f a)) : ¬ Raises (p >>= f) := by
  cases p with
  | ret a => exact hf a
  | raise e => exact absurd ⟨e, rfl⟩ hp
  | fault e => exact not_raises_fault e
  | call i k => rintro ⟨e, ⟨⟩⟩

theorem not_raises_mapM {f : α → Prog I A E F β} {l : List α} (h : ∀ a ∈ l, ¬ Raises (f a)) :
    ¬ Raises (l.mapM f) := by
  induction l with
  | nil => exact not_raises_ret []
  | cons a l ih =>
      obtain ⟨ha, hl⟩ := List.forall_mem_cons.mp h
      rw [List.mapM_cons]
      exact not_raises_bind ha fun b => not_raises_bind (ih hl) fun bs =>
        not_raises_ret (b :: bs)

/-- A loop returns when every round does. -/
theorem returns_mapM_iff {f : α → Prog I A E F β} (l : List α) :
    Returns (l.mapM f) ↔ ∀ a ∈ l, Returns (f a) := by
  induction l with
  | nil => simp [Returns]
  | cons a l ih =>
      rw [List.mapM_cons, returns_bind_iff]
      simp only [List.forall_mem_cons, ← ih]
      constructor
      · rintro ⟨b, hb, hl⟩
        exact ⟨⟨b, hb⟩, returns_bind_pure_iff.mp hl⟩
      · rintro ⟨⟨b, hb⟩, hl⟩
        exact ⟨b, hb, returns_bind_pure_iff.mpr hl⟩

end Prog

section Run

variable {I : Type} {A : I → Type} {E F σ τ α β : Type}

/-- Run a program in an environment, from a state of it. -/
def run (h : Handler I A F σ) : Prog I A E F α → σ → Outcome E F α × σ
  | .ret a, s => (.ret a, s)
  | .raise e, s => (.raise e, s)
  | .fault f, s => (.fault f, s)
  | .call i k, s =>
      match h i s with
      | (.answer a, s') => run h (k a) s'
      | (.fault f, s') => (.fault f, s')
      | (.blocked, s') => (.blocked, s')

/-- Continue a finished run at its returned value; every other end is final. -/
def Outcome.andThen (r : Outcome E F α × σ) (f : α → σ → Outcome E F β × σ) :
    Outcome E F β × σ :=
  match r with
  | (.ret a, s) => f a s
  | (.raise e, s) => (.raise e, s)
  | (.fault e, s) => (.fault e, s)
  | (.blocked, s) => (.blocked, s)

variable (h : Handler I A F σ)

@[simp] theorem run_ret (a : α) (s : σ) : run (E := E) h (.ret a) s = (.ret a, s) := rfl
@[simp] theorem run_raise (e : E) (s : σ) :
    run h (.raise e : Prog I A E F α) s = (.raise e, s) := rfl
@[simp] theorem run_fault (f : F) (s : σ) :
    run h (.fault f : Prog I A E F α) s = (.fault f, s) := rfl

theorem run_call (i : I) (k : A i → Prog I A E F α) (s : σ) :
    run h (.call i k) s =
      match h i s with
      | (.answer a, s') => run h (k a) s'
      | (.fault f, s') => (.fault f, s')
      | (.blocked, s') => (.blocked, s') := by rw [run]

theorem run_call_answer {i : I} {s s' : σ} {a : A i} (hi : h i s = (.answer a, s'))
    (k : A i → Prog I A E F α) : run h (.call i k) s = run h (k a) s' := by
  rw [run_call, hi]

@[simp] theorem andThen_ret (a : α) (s : σ) (f : α → σ → Outcome E F β × σ) :
    Outcome.andThen (.ret a, s) f = f a s := rfl
@[simp] theorem andThen_raise (e : E) (s : σ) (f : α → σ → Outcome E F β × σ) :
    Outcome.andThen (.raise e, s) f = (.raise e, s) := rfl
@[simp] theorem andThen_fault (e : F) (s : σ) (f : α → σ → Outcome E F β × σ) :
    Outcome.andThen (.fault e, s) f = (.fault e, s) := rfl
@[simp] theorem andThen_blocked (s : σ) (f : α → σ → Outcome E F β × σ) :
    Outcome.andThen (.blocked, s) f = (.blocked, s) := rfl

theorem andThen_of_blocked {r : Outcome E F α × σ} (hr : r.1 = .blocked)
    (f : α → σ → Outcome E F β × σ) : (Outcome.andThen r f).1 = .blocked := by
  obtain ⟨o, s⟩ := r
  obtain rfl : o = .blocked := hr
  rfl

/-- **The run of a sequence** is the run of its first part, continued. -/
theorem run_bind (p : Prog I A E F α) (f : α → Prog I A E F β) (s : σ) :
    run h (p >>= f) s = Outcome.andThen (run h p s) fun a s' => run h (f a) s' := by
  induction p generalizing s with
  | ret a => rfl
  | raise e => rfl
  | fault e => rfl
  | call i k ih =>
      rw [Prog.call_bind, run_call, run_call]
      rcases h i s with ⟨_ | _ | _, s'⟩
      · exact ih _ s'
      · rfl
      · rfl

/-- A loop whose first round and whose rest return. -/
theorem run_mapM_cons {f : α → Prog I A E F β} {a : α} {l : List α} {s s₁ s₂ : σ} {b : β}
    {bs : List β} (ha : run h (f a) s = (.ret b, s₁))
    (hl : run h (l.mapM f) s₁ = (.ret bs, s₂)) :
    run h ((a :: l).mapM f) s = (.ret (b :: bs), s₂) := by
  rw [List.mapM_cons, run_bind, ha, andThen_ret, run_bind, hl, andThen_ret]
  rfl

/-- A run that ended with a value. -/
def Outcome.Returned (o : Outcome E F α) : Prop := ∃ a, o = .ret a

/-- A run that came to an end, with a value or an error. -/
def Outcome.Ended : Outcome E F α → Prop
  | .ret _ | .raise _ => True
  | .fault _ | .blocked => False

theorem returned_ret (a : α) : (.ret a : Outcome E F α).Returned := ⟨a, rfl⟩
theorem not_returned_raise (e : E) : ¬ (.raise e : Outcome E F α).Returned := by
  rintro ⟨a, ⟨⟩⟩
theorem not_returned_fault (f : F) : ¬ (.fault f : Outcome E F α).Returned := by
  rintro ⟨a, ⟨⟩⟩

/-- A sequence returns only if its first part does. -/
theorem returned_of_bind {p : Prog I A E F α} {f : α → Prog I A E F β} {s : σ}
    (hp : (run h (p >>= f) s).1.Returned) : (run h p s).1.Returned := by
  rw [run_bind] at hp
  rcases hrun : run h p s with ⟨a | e | e | _, s'⟩
  · exact returned_ret a
  · rw [hrun] at hp
    exact absurd hp (not_returned_raise e)
  · rw [hrun] at hp
    exact absurd hp (not_returned_fault e)
  · rw [hrun] at hp
    obtain ⟨a, ⟨⟩⟩ := hp

/-- **Induction along a run.**  A property of the environment's state that every
instruction of the program preserves holds at the end of every run. -/
theorem run_invariant {ok : I → Prop} (P : σ → Prop) (hstep : ∀ i s, ok i → P s → P (h i s).2)
    {p : Prog I A E F α} (hp : p.Only ok) (s : σ) (hs : P s) : P (run h p s).2 := by
  induction hp generalizing s with
  | ret a => exact hs
  | raise e => exact hs
  | fault e => exact hs
  | call i k hi hk ih =>
      have hnext := hstep i s hi hs
      rw [run_call]
      rcases hh : h i s with ⟨_ | _ | _, s'⟩ <;> rw [hh] at hnext
      · exact ih _ s' hnext
      · exact hnext
      · exact hnext

/-- No run ends in a fault of the given kind. -/
def RunsClear (P : F → Prop) (p : Prog I A E F α) : Prop :=
  ∀ s f, (run h p s).1 = .fault f → ¬ P f

variable {h} {P : F → Prop}

theorem runsClear_ret (a : α) : RunsClear h P (.ret a : Prog I A E F α) := by
  rintro s f ⟨⟩

theorem RunsClear.bind {p : Prog I A E F α} {f : α → Prog I A E F β} (hp : RunsClear h P p)
    (hf : ∀ a, RunsClear h P (f a)) : RunsClear h P (p >>= f) := by
  intro s e
  have hfirst := hp s
  rw [run_bind]
  rcases hrun : run h p s with ⟨a | a | a | _, s'⟩
  · exact hf a s' e
  · rintro ⟨⟩
  · rintro ⟨⟩
    exact hfirst e (by rw [hrun])
  · rintro ⟨⟩

theorem RunsClear.mapM {f : α → Prog I A E F β} (hf : ∀ a, RunsClear h P (f a)) (l : List α) :
    RunsClear h P (l.mapM f) := by
  induction l with
  | nil => exact runsClear_ret []
  | cons a l ih =>
      rw [List.mapM_cons]
      exact (hf a).bind fun b => ih.bind fun bs => runsClear_ret (b :: bs)

theorem RunsClear.foldlM {f : β → α → Prog I A E F β} (hf : ∀ b a, RunsClear h P (f b a))
    (l : List α) (b : β) : RunsClear h P (l.foldlM f b) := by
  induction l generalizing b with
  | nil => exact runsClear_ret b
  | cons a l ih =>
      rw [List.foldlM_cons]
      exact (hf b a).bind ih

end Run

section Simulation

variable {I : Type} {A : I → Type} {E F σ τ α β : Type}

/-- A program that raises as soon as it gets a bad answer. -/
inductive Strict (bad : (i : I) → A i → Prop) : Prog I A E F α → Prop where
  | ret (a : α) : Strict bad (.ret a)
  | raise (e : E) : Strict bad (.raise e)
  | fault (f : F) : Strict bad (.fault f)
  | call (i : I) (k : A i → Prog I A E F α)
      (hbad : ∀ a, bad i a → ∃ e, k a = .raise e)
      (hgood : ∀ a, ¬ bad i a → Strict bad (k a)) : Strict bad (.call i k)

variable {ok : I → σ → Prop} {bad : (i : I) → A i → Prop}

theorem Strict.bind {p : Prog I A E F α} {f : α → Prog I A E F β} (hp : Strict bad p)
    (hf : ∀ a, Strict bad (f a)) : Strict bad (p >>= f) := by
  induction hp with
  | ret a => exact hf a
  | raise e => exact .raise e
  | fault e => exact .fault e
  | call i k hbad hgood ih =>
      refine .call i _ (fun a ha => ?_) (fun a ha => ih a ha)
      obtain ⟨e, he⟩ := hbad a ha
      exact ⟨e, by rw [he]; rfl⟩

theorem Strict.mapM {f : α → Prog I A E F β} (hf : ∀ a, Strict bad (f a)) (l : List α) :
    Strict bad (l.mapM f) := by
  induction l with
  | nil => exact .ret []
  | cons a l ih =>
      rw [List.mapM_cons]
      exact (hf a).bind fun b => ih.bind fun bs => .ret (b :: bs)

theorem Strict.foldlM {f : β → α → Prog I A E F β} (hf : ∀ b a, Strict bad (f b a))
    (l : List α) (b : β) : Strict bad (l.foldlM f b) := by
  induction l generalizing b with
  | nil => exact .ret b
  | cons a l ih =>
      rw [List.foldlM_cons]
      exact (hf b a).bind ih

/-- A program whose instructions have no bad answers. -/
theorem Prog.Only.strict {ok : I → Prop} (hok : ∀ i a, ok i → ¬ bad i a) {p : Prog I A E F α}
    (hp : p.Only ok) : Strict bad p := by
  induction hp with
  | ret a => exact .ret a
  | raise e => exact .raise e
  | fault f => exact .fault f
  | call i k hi hk ih => exact .call i k (fun a ha => absurd ha (hok i a hi)) fun a _ => ih a

/-- Every instruction that a run comes to is made in a state where `ok` holds. -/
def Along (h : Handler I A F σ) (ok : I → σ → Prop) : Prog I A E F α → σ → Prop
  | .ret _, _ => True
  | .raise _, _ => True
  | .fault _, _ => True
  | .call i k, s => ok i s ∧ ∀ a s', h i s = (.answer a, s') → Along h ok (k a) s'

theorem along_bind {h : Handler I A F σ} {p : Prog I A E F α} {f : α → Prog I A E F β} {s : σ}
    (hs : Along h ok (p >>= f) s) :
    Along h ok p s ∧ ∀ a s', run h p s = (.ret a, s') → Along h ok (f a) s' := by
  induction p generalizing s with
  | ret a =>
      refine ⟨trivial, fun b s' hrun => ?_⟩
      cases hrun
      exact hs
  | raise e => exact ⟨trivial, by rintro a s' ⟨⟩⟩
  | fault e => exact ⟨trivial, by rintro a s' ⟨⟩⟩
  | call i k ih =>
      obtain ⟨hi, hk⟩ := hs
      refine ⟨⟨hi, fun a s' ha => (ih a (hk a s' ha)).1⟩, fun b s' hrun => ?_⟩
      rw [run_call] at hrun
      rcases hh : h i s with ⟨a | e | _, s₁⟩ <;> rw [hh] at hrun
      · exact (ih a (hk a s₁ hh)).2 b s' hrun
      · cases hrun
      · cases hrun

/-- A program all of whose instructions are `ok` in every state. -/
theorem Prog.Only.along {h : Handler I A F σ} {ok' : I → Prop} (hok : ∀ i s, ok' i → ok i s)
    {p : Prog I A E F α} (hp : p.Only ok') (s : σ) : Along h ok p s := by
  induction hp generalizing s with
  | ret a => trivial
  | raise e => trivial
  | fault f => trivial
  | call i k hi hk ih => exact ⟨hok i s hi, fun a s' _ => ih a s'⟩

/-- The instructions of a run are among those of its program. -/
theorem Along.and_only {h : Handler I A F σ} {ok' : I → Prop} {p : Prog I A E F α} {s : σ}
    (hp : p.Only ok') (hs : Along h ok p s) : Along h (fun i s => ok' i ∧ ok i s) p s := by
  induction hp generalizing s with
  | ret a => trivial
  | raise e => trivial
  | fault f => trivial
  | call i k hi hk ih => exact ⟨⟨hi, hs.1⟩, fun a s' ha => ih a (hs.2 a s' ha)⟩

/-- One instruction of `h` does what `g` does and keeps the states related; or it is never
answered; or it gets a bad answer and leaves the relation for `dead`. -/
def StepSimulates (ok : I → σ → Prop) (bad : (i : I) → A i → Prop) (R : σ → τ → Prop)
    (dead : σ → Prop) (h : Handler I A F σ) (g : Handler I A F τ) : Prop :=
  ∀ i s t, ok i s → R s t →
    ((h i s).1 = (g i t).1 ∧ R (h i s).2 (g i t).2) ∨
    (h i s).1 = .blocked ∨
    (dead (h i s).2 ∧ ∃ a, (h i s).1 = .answer a ∧ bad i a)

/-- **Simulation of a strict program.**  Run in `h`, it ends as in `g` with related
states, or it waits forever, or it has raised in a state that is `dead`. -/
theorem run_simulates {R : σ → τ → Prop} {dead : σ → Prop} {h : Handler I A F σ}
    {g : Handler I A F τ} (hsim : StepSimulates ok bad R dead h g) {p : Prog I A E F α}
    (hp : Strict bad p) {s : σ} (hok : Along h ok p s) {t : τ} (hst : R s t) :
    ((run h p s).1 = (run g p t).1 ∧ R (run h p s).2 (run g p t).2) ∨
    (run h p s).1 = .blocked ∨
    (dead (run h p s).2 ∧ ∃ e, (run h p s).1 = .raise e) := by
  induction hp generalizing s t with
  | ret a => exact .inl ⟨rfl, hst⟩
  | raise e => exact .inl ⟨rfl, hst⟩
  | fault f => exact .inl ⟨rfl, hst⟩
  | call i k hbad hgood ih =>
      obtain ⟨hi, hk⟩ := hok
      rw [run_call, run_call]
      have hstep := hsim i s t hi hst
      rcases hh : h i s with ⟨rh, s'⟩
      rcases hg : g i t with ⟨rg, t'⟩
      rw [hh, hg] at hstep
      simp only at hstep
      rcases hstep with ⟨rfl, hnext⟩ | rfl | ⟨hdead, a, rfl, ha⟩
      · cases rh with
        | answer a =>
            by_cases ha : bad i a
            · obtain ⟨e, he⟩ := hbad a ha
              simpa only [he, run_raise, true_and] using Or.inl hnext
            · exact ih a ha (hk a s' hh) hnext
        | fault f => exact .inl ⟨rfl, hnext⟩
        | blocked => exact .inl ⟨rfl, hnext⟩
      · exact .inr (.inl rfl)
      · obtain ⟨e, he⟩ := hbad a ha
        simp only [he, run_raise]
        exact .inr (.inr ⟨hdead, e, rfl⟩)

end Simulation

end Interact
