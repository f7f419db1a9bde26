import RcppRedis.Lib.Interact
import Mathlib.Data.List.Forall2

/-!
# Environments that read a tape

What will happen outside of a program can be written on a tape, of which the environment reads
a part for each instruction.  Two environments may write their tapes differently: here for
every tape of the first there is one of the second on which it does the same.

* `Replays` — the same end on another tape.
* `Finishes` — the given end on every tape that is long enough.
* `run_replays`, `run_finishes` — what holds of each instruction holds of a run.
-/

namespace Interact

variable {S T σ τ υ ω ρ : Type}

/-- **The same end on another tape**, of which something is promised.  An end that is stuck has
read all that is of use of its tape; otherwise the states are related, and nothing that stands
behind on the tape has been read. -/
def Replays (L : S → T → Prop) (R : σ → τ → Prop) (stuck : ρ → Prop) (loadS : List S → σ → υ)
    (loadT : List T → τ → ω) (ok : List T → Prop) (tape : List S) (x : ρ × υ)
    (Y : List T → ρ × ω) : Prop :=
  ∃ pre rest tape', tape = pre ++ rest ∧ List.Forall₂ L pre tape' ∧
    ((stuck x.1 ∧ (Y tape').1 = x.1 ∧ ok tape') ∨
      ∃ s t, x.2 = loadS rest s ∧ R s t ∧
        ∀ more, Y (tape' ++ more) = (x.1, loadT more t) ∧ ok (tape' ++ more))

variable {L : S → T → Prop} {R : σ → τ → Prop} {stuck : ρ → Prop} {loadS : List S → σ → υ}
  {loadT : List T → τ → ω} {ok : List T → Prop}

/-- An end that has read nothing. -/
theorem Replays.done {s : σ} {t : τ} (h : R s t) (tape : List S) {r : ρ} {x : ρ × υ}
    (hx : x = (r, loadS tape s)) {Y : List T → ρ × ω}
    (hY : ∀ more, Y more = (r, loadT more t)) (hok : ∀ more, ok more) :
    Replays L R stuck loadS loadT ok tape x Y := by
  subst hx
  exact ⟨[], tape, [], rfl, .nil, .inr ⟨s, t, rfl, h, fun more => ⟨hY more, hok more⟩⟩⟩

/-- Something else is promised. -/
theorem Replays.promise {tape : List S} {x : ρ × υ} {Y : List T → ρ × ω}
    (h : Replays L R stuck loadS loadT ok tape x Y) {ok' : List T → Prop}
    (hok : ∀ tape', ok tape' → ok' tape') : Replays L R stuck loadS loadT ok' tape x Y := by
  obtain ⟨pre, rest, tape', rfl, hpre, hend⟩ := h
  refine ⟨pre, rest, tape', rfl, hpre, ?_⟩
  rcases hend with ⟨hstuck, hsame, hpromise⟩ | ⟨s, t, hs, hst, hmore⟩
  · exact .inl ⟨hstuck, hsame, hok _ hpromise⟩
  · exact .inr ⟨s, t, hs, hst, fun more => ⟨(hmore more).1, hok _ (hmore more).2⟩⟩

/-- What was read before. -/
theorem Replays.prepend {pre tape : List S} {pre' : List T} {x : ρ × υ} {Y : List T → ρ × ω}
    (h : Replays L R stuck loadS loadT (fun tape' => ok (pre' ++ tape')) tape x
      fun tape' => Y (pre' ++ tape'))
    (hpre : List.Forall₂ L pre pre') :
    Replays L R stuck loadS loadT ok (pre ++ tape) x Y := by
  obtain ⟨mid, rest, mid', rfl, hmid, hend⟩ := h
  refine ⟨pre ++ mid, rest, pre' ++ mid', (List.append_assoc ..).symm,
    List.rel_append hpre hmid, ?_⟩
  rcases hend with hstuck | ⟨s, t, hs, hst, hmore⟩
  · exact .inl hstuck
  · refine .inr ⟨s, t, hs, hst, fun more => ?_⟩
    rw [List.append_assoc]
    exact hmore more

/-- One sign was read before. -/
theorem Replays.cons {a : S} {tape : List S} {b : T} {x : ρ × υ} {Y : List T → ρ × ω}
    (h : Replays L R stuck loadS loadT (fun tape' => ok (b :: tape')) tape x
      fun tape' => Y (b :: tape'))
    (hab : L a b) : Replays L R stuck loadS loadT ok (a :: tape) x Y := by
  have hone : Replays L R stuck loadS loadT (fun tape' => ok ([b] ++ tape')) tape x
      fun tape' => Y ([b] ++ tape') := h
  exact hone.prepend (.cons hab .nil)

section Run

variable {I : Type} {A : I → Type} {E F α : Type} {h : Handler I A F υ} {g : Handler I A F ω}

/-- **A run on another tape** ends the same. -/
theorem run_replays
    (hstep : ∀ i tape s t, R s t → Replays L R (· = .blocked) loadS loadT (fun _ => True) tape
      (h i (loadS tape s))
      fun tape' => g i (loadT tape' t)) (p : Prog I A E F α) (tape : List S) {s : σ} {t : τ}
    (hst : R s t) :
    Replays L R (· = .blocked) loadS loadT (fun _ => True) tape (run h p (loadS tape s))
      fun tape' => run g p (loadT tape' t) := by
  have htrue (more : List T) : True := trivial
  induction p generalizing tape s t with
  | ret a => exact .done hst tape rfl (fun _ => rfl) htrue
  | raise e => exact .done hst tape rfl (fun _ => rfl) htrue
  | fault f => exact .done hst tape rfl (fun _ => rfl) htrue
  | call i k ih =>
      obtain ⟨pre, rest, pre', rfl, hpre, ⟨hblocked, hsame, -⟩ | ⟨s', t', hs, hst', hmore⟩⟩ :=
        hstep i tape s t hst
      · refine ⟨pre, rest, pre', rfl, hpre, .inl ?_⟩
        simp only [run_call] at hsame ⊢
        rcases hh : h i (loadS (pre ++ rest) s) with ⟨r, u⟩
        rcases hg : g i (loadT pre' t) with ⟨r', v⟩
        rw [hh] at hblocked hsame
        rw [hg] at hsame
        obtain rfl : r = .blocked := hblocked
        obtain rfl : r' = .blocked := hsame
        exact ⟨rfl, rfl, trivial⟩
      · replace hmore more := (hmore more).1
        rcases hh : h i (loadS (pre ++ rest) s) with ⟨r, u⟩
        rw [hh] at hs hmore
        obtain rfl : u = loadS rest s' := hs
        rw [run_call, hh]
        cases r with
        | answer a =>
            refine Replays.prepend ?_ hpre
            simp only [run_call, hmore]
            exact ih a rest hst'
        | fault | blocked =>
            refine ⟨pre, rest, pre', rfl, hpre, .inr ⟨s', t', rfl, hst', fun more => ?_⟩⟩
            refine ⟨?_, trivial⟩
            simp only [run_call, hmore]

end Run

/-! ## Tapes that are long enough -/

/-- **The given end on every tape that is long enough**, if all that stands on it is good; no
more of the tape is read than so much, and the states are related. -/
def Finishes (good : S → Prop) (R : σ → τ → Prop) (load : List S → σ → υ) (n : ℕ)
    (X : List S → ρ × υ) (y : ρ × τ) : Prop :=
  ∀ tape, (∀ a ∈ tape, good a) → n ≤ tape.length →
    ∃ pre rest s, tape = pre ++ rest ∧ pre.length ≤ n ∧ X tape = (y.1, load rest s) ∧ R s y.2

section Finishes

variable {good : S → Prop} {load : List S → σ → υ}

/-- An end that reads nothing. -/
theorem Finishes.done {s : σ} {t : τ} (h : R s t) (n : ℕ) {X : List S → ρ × υ} {r : ρ}
    (hX : ∀ tape, X tape = (r, load tape s)) : Finishes good R load n X (r, t) :=
  fun tape _ _ => ⟨[], tape, s, rfl, Nat.zero_le n, hX tape, h⟩

/-- What goes on from an end that is reached. -/
theorem Finishes.andThen {n m : ℕ} {X : List S → ρ × υ} {y : ρ × τ}
    (h : Finishes good R load n X y) {ρ' : Type} {X' : List S → ρ' × υ} {y' : ρ' × τ}
    (next : υ → ρ' × υ) (hX' : ∀ tape, (X tape).1 = y.1 → X' tape = next (X tape).2)
    (hnext : ∀ s, R s y.2 → Finishes good R load m (fun tape => next (load tape s)) y') :
    Finishes good R load (n + m) X' y' := by
  intro tape htape hlen
  obtain ⟨pre, rest, s, rfl, hpre, hX, hs⟩ := h tape htape (by omega)
  obtain ⟨pre', rest', s', rfl, hpre', hX'', hs'⟩ := hnext s hs rest
    (fun a ha => htape a (List.mem_append_right _ ha))
    (by rw [List.length_append] at hlen; omega)
  refine ⟨pre ++ pre', rest', s', (List.append_assoc ..).symm, ?_, ?_, hs'⟩
  · rw [List.length_append]
    omega
  · rw [hX' _ (by rw [hX]), hX]
    exact hX''

variable {I : Type} {A : I → Type} {E F α : Type} {h : Handler I A F υ} {g : Handler I A F τ}
  {ok : I → τ → Prop}

/-- **A run that finishes.**  How long a tape must be depends on the run without a tape
alone. -/
theorem run_finishes
    (hstep : ∀ i t, ok i t → ∃ n, ∀ s, R s t →
      Finishes good R load n (fun tape => h i (load tape s)) (g i t))
    (p : Prog I A E F α) {t : τ} (hok : Along g ok p t) :
    ∃ n, ∀ s, R s t → Finishes good R load n (fun tape => run h p (load tape s))
      (run g p t) := by
  induction p generalizing t with
  | ret a => exact ⟨0, fun s hs => .done hs 0 fun _ => rfl⟩
  | raise e => exact ⟨0, fun s hs => .done hs 0 fun _ => rfl⟩
  | fault f => exact ⟨0, fun s hs => .done hs 0 fun _ => rfl⟩
  | call i k ih =>
      obtain ⟨hi, hk⟩ := hok
      obtain ⟨n, hn⟩ := hstep i t hi
      rw [run_call]
      rcases hg : g i t with ⟨a | f | _, t'⟩ <;> rw [hg] at hn
      · obtain ⟨m, hm⟩ := ih a (hk a t' hg)
        refine ⟨n + m, fun s hs => (hn s hs).andThen (run h (k a)) (fun tape htape => ?_) hm⟩
        exact run_call_answer h (Prod.ext htape rfl) k
      · refine ⟨n + 0, fun s hs => (hn s hs).andThen (fun u => (.fault f, u))
          (fun tape htape => ?_) fun s' hs' => .done hs' 0 fun _ => rfl⟩
        rw [run_call, show h i (load tape s) = (.fault f, (h i (load tape s)).2) from Prod.ext
          htape rfl]
      · refine ⟨n + 0, fun s hs => (hn s hs).andThen (fun u => (.blocked, u))
          (fun tape htape => ?_) fun s' hs' => .done hs' 0 fun _ => rfl⟩
        rw [run_call, show h i (load tape s) = (.blocked, (h i (load tape s)).2) from Prod.ext
          htape rfl]

end Finishes

end Interact
