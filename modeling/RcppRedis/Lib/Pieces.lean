import Mathlib.Data.List.Basic

/-!
# Reading a stream in pieces

A stream arrives in pieces, and a machine reads it.  A scanner looks at what is there: it finds
the next token, or there is too little for one, or nothing that may follow will do.  The
machine takes the tokens one by one, and now and then it has a result and starts again.

Cutting the stream in other places changes nothing, if the scanner's decisions are never
revised.

* `Scanner.Stable` — more input changes no decision, and a token is found by its own elements.
* `Scanner.stable_after` — how scanners are put together.
* `Machine.Next` — how the machine goes on until it has a result or stops.
* `Machine.Reads` — all results that it has of a stream.
* `Machine.Reads.append` — where a stream was left, it is taken up.
-/

namespace Pieces

variable {α τ ε σ β : Type}

/-- What a scanner makes of the elements that are there. -/
inductive Scan (α τ ε : Type) where
  | more
  | fail (e : ε)
  | token (t : τ) (rest : List α)

/-- A scanner. -/
abbrev Scanner (α τ ε : Type) : Type := List α → Scan α τ ε

namespace Scanner

/-- A token is found by its own elements, whatever follows them, and an error stays one. -/
structure Steady (scan : Scanner α τ ε) : Prop where
  token {w : List α} {t : τ} (h : scan w = .token t []) (c : List α) : scan (w ++ c) =
    .token t c
  exists_beginning {b rest : List α} {t : τ} (h : scan b = .token t rest) :
    ∃ w, b = w ++ rest ∧ scan w = .token t []
  fail {b : List α} {e : ε} (h : scan b = .fail e) (c : List α) : scan (b ++ c) = .fail e

theorem Steady.token_append {scan : Scanner α τ ε} (hs : Steady scan) {b rest : List α} {t : τ}
    (h : scan b = .token t rest) (c : List α) : scan (b ++ c) = .token t (rest ++ c) := by
  obtain ⟨w, rfl, hw⟩ := hs.exists_beginning h
  rw [List.append_assoc]
  exact hs.token hw (rest ++ c)

/-- Besides, a token takes at least one element. -/
structure Stable (scan : Scanner α τ ε) : Prop extends Steady scan where
  nil_ne_token (t : τ) : scan [] ≠ .token t []

end Scanner

namespace Scanner.Stable

variable {scan : Scanner α τ ε} (hs : Scanner.Stable scan)

include hs

theorem exists_token {b rest : List α} {t : τ} (h : scan b = .token t rest) :
    ∃ w, w ≠ [] ∧ b = w ++ rest ∧ scan w = .token t [] := by
  obtain ⟨w, hb, hw⟩ := hs.exists_beginning h
  refine ⟨w, ?_, hb, hw⟩
  rintro rfl
  exact hs.nil_ne_token t hw

theorem length_lt {b rest : List α} {t : τ} (h : scan b = .token t rest) :
    rest.length < b.length := by
  obtain ⟨w, hne, rfl, -⟩ := hs.exists_token h
  have hpos := List.length_pos_of_ne_nil hne
  rw [List.length_append]
  omega

/-- What is a token only with the last piece of it was too little before that. -/
theorem more_of_token {b c : List α} {t : τ} (h : scan (b ++ c) = .token t []) (hc : c ≠ []) :
    scan b = .more := by
  cases hb : scan b with
  | more => rfl
  | fail e => rw [hs.fail hb c] at h; cases h
  | token t' rest =>
      rw [hs.token_append hb c] at h
      exact absurd (List.append_eq_nil_iff.mp (Scan.token.inj h).2).2 hc

end Scanner.Stable

/-! ## Making scanners -/

namespace Scanner

variable {γ : Type}

/-- A token is made of so many elements. -/
def block (k : ℕ) (f : List α → Except ε τ) : Scanner α τ ε := fun b =>
  if k ≤ b.length then
    match f (b.take k) with
    | .error e => .fail e
    | .ok t => .token t (b.drop k)
  else .more

theorem steady_block (k : ℕ) (f : List α → Except ε τ) : Steady (block k f) where
  token {w t} h c := by
    rw [block] at h ⊢
    split_ifs at h with hk
    have htake : (w ++ c).take k = w.take k := List.take_append_of_le_length hk
    rw [if_pos (by rw [List.length_append]; omega), htake, List.drop_append_of_le_length hk]
    cases hf : f (w.take k) with
    | error e => rw [hf] at h; cases h
    | ok t =>
        rw [hf] at h
        obtain ⟨rfl, hdrop⟩ := Scan.token.inj h
        rw [hdrop, List.nil_append]
  exists_beginning {b rest t} h := by
    rw [block] at h
    split_ifs at h with hk
    cases hf : f (b.take k) with
    | error e => rw [hf] at h; cases h
    | ok t =>
        rw [hf] at h
        obtain ⟨rfl, rfl⟩ := Scan.token.inj h
        refine ⟨b.take k, (List.take_append_drop k b).symm, ?_⟩
        have hlen : (b.take k).length = k := List.length_take_of_le hk
        rw [block, if_pos (Nat.le_of_eq hlen.symm),
          List.take_of_length_le (Nat.le_of_eq hlen), hf,
          List.drop_of_length_le (Nat.le_of_eq hlen)]
  fail {b e} h c := by
    rw [block] at h ⊢
    split_ifs at h with hk
    rw [if_pos (by rw [List.length_append]; omega), List.take_append_of_le_length hk]
    cases hf : f (b.take k) with
    | error e => rw [hf] at h; exact h
    | ok t => rw [hf] at h; cases h

/-- A block that is all there is. -/
theorem of_block_eq {k : ℕ} {f : List α → Except ε τ} {b : List α} {t : τ}
    (h : block k f b = .token t []) : b.length = k ∧ f b = .ok t := by
  rw [block] at h
  split_ifs at h with hk
  cases hf : f (b.take k) with
  | error e => rw [hf] at h; cases h
  | ok u =>
      rw [hf] at h
      obtain ⟨rfl, hdrop⟩ := Scan.token.inj h
      have hle := List.drop_eq_nil_iff.mp hdrop
      rw [List.take_of_length_le hle] at hf
      exact ⟨Nat.le_antisymm hle hk, hf⟩

/-- What is split off at the front decides how to go on. -/
def after (split : List α → Option (γ × List α)) (f : γ → Scanner α τ ε) :
    Scanner α τ ε := fun b =>
  match split b with
  | none => .more
  | some (x, rest) => f x rest

theorem of_after_eq {split : List α → Option (γ × List α)} {f : γ → Scanner α τ ε}
    {b rest : List α} {t : τ} (h : after split f b = .token t rest) :
    ∃ x body, split b = some (x, body) ∧ f x body = .token t rest := by
  rw [after] at h
  split at h
  · cases h
  · exact ⟨_, _, ‹_›, h⟩

/-- What is split off is not empty, and does not depend on what follows. -/
structure Splits (split : List α → Option (γ × List α)) : Prop where
  append {w : List α} {x : γ} (h : split w = some (x, [])) (c : List α) : split (w ++ c) =
    some (x, c)
  exists_beginning {b rest : List α} {x : γ} (h : split b = some (x, rest)) :
    ∃ w, w ≠ [] ∧ b = w ++ rest ∧ split w = some (x, [])

theorem Splits.append_right {split : List α → Option (γ × List α)} (hs : Splits split)
    {b rest : List α} {x : γ} (h : split b = some (x, rest)) (c : List α) :
    split (b ++ c) = some (x, rest ++ c) := by
  obtain ⟨w, -, rfl, hw⟩ := hs.exists_beginning h
  rw [List.append_assoc]
  exact hs.append hw (rest ++ c)

theorem after_of_split {split : List α → Option (γ × List α)} {b rest : List α} {x : γ}
    (h : split b = some (x, rest)) (f : γ → Scanner α τ ε) : after split f b = f x rest := by
  rw [after, h]

/-- **A scanner made of two**: what is split off, and a scanner for the rest. -/
theorem stable_after {split : List α → Option (γ × List α)} (hs : Splits split)
    {f : γ → Scanner α τ ε} (hf : ∀ x, Steady (f x)) : Stable (after split f) where
  token {w t} h c := by
    rw [after] at h
    split at h
    · cases h
    · rename_i x rest hsplit
      rw [after_of_split (hs.append_right hsplit c)]
      exact (hf x).token_append h c
  exists_beginning {b rest t} h := by
    rw [after] at h
    split at h
    · cases h
    · rename_i x body hsplit
      obtain ⟨v, -, rfl, hv⟩ := hs.exists_beginning hsplit
      obtain ⟨w, rfl, hw⟩ := (hf x).exists_beginning h
      refine ⟨v ++ w, (List.append_assoc ..).symm, ?_⟩
      rw [after_of_split (hs.append hv w)]
      exact hw
  fail {b e} h c := by
    rw [after] at h
    split at h
    · cases h
    · rename_i x rest hsplit
      rw [after_of_split (hs.append_right hsplit c)]
      exact (hf x).fail h c
  nil_ne_token t h := by
    rw [after] at h
    split at h
    · cases h
    · rename_i x rest hsplit
      obtain ⟨w, hne, happ, -⟩ := hs.exists_beginning hsplit
      exact hne (List.append_eq_nil_iff.mp happ.symm).1

/-- The first element. -/
def uncons : List α → Option (α × List α)
  | [] => none
  | a :: b => some (a, b)

theorem splits_uncons : Splits (uncons (α := α)) where
  append {w x} h c := by
    cases w with
    | nil => cases h
    | cons a w =>
        cases h
        rfl
  exists_beginning {b rest x} h := by
    cases b with
    | nil => cases h
    | cons a b =>
        obtain ⟨rfl, rfl⟩ := Prod.mk.inj (Option.some.inj h)
        exact ⟨[a], List.cons_ne_nil _ _, rfl, rfl⟩

end Scanner

/-! ## Machines -/

/-- A machine: what it does with a token, and the state it starts from. -/
structure Machine (α τ ε σ β : Type) where
  scan : Scanner α τ ε
  step : τ → σ → β ⊕ σ
  start : σ

/-- Where a machine stops: it waits for more elements after those that are left, or an element
was not acceptable. -/
inductive Stop (α ε σ : Type) where
  | waits (s : σ) (rest : List α)
  | fails (e : ε)

/-- What comes next: a result and the elements after it, or nothing. -/
inductive Event (α ε σ β : Type) where
  | result (r : β) (rest : List α)
  | stop (o : Stop α ε σ)

namespace Machine

variable (M : Machine α τ ε σ β)

/-- How the machine goes on from a state, until it has a result or stops. -/
inductive Next : σ → List α → Event α ε σ β → Prop where
  | waits {s : σ} {b : List α} (h : M.scan b = .more) : Next s b (.stop (.waits s b))
  | fails {s : σ} {b : List α} {e : ε} (h : M.scan b = .fail e) : Next s b (.stop (.fails e))
  | result {s : σ} {b rest : List α} {t : τ} {r : β} (h : M.scan b = .token t rest)
      (hstep : M.step t s = .inl r) : Next s b (.result r rest)
  | step {s s' : σ} {b rest : List α} {t : τ} {o : Event α ε σ β}
      (h : M.scan b = .token t rest) (hstep : M.step t s = .inr s') (hnext : Next s' rest o) :
      Next s b o

/-- The results that the machine has of a stream, and where it stops. -/
inductive Reads : σ → List α → List β → Stop α ε σ → Prop where
  | stop {s : σ} {b : List α} {o : Stop α ε σ} (h : M.Next s b (.stop o)) : Reads s b [] o
  | result {s : σ} {b rest : List α} {r : β} {rs : List β} {o : Stop α ε σ}
      (h : M.Next s b (.result r rest)) (hrest : Reads M.start rest rs o) :
      Reads s b (r :: rs) o

variable {M}

/-- What comes next is determined. -/
theorem Next.unique {s : σ} {b : List α} {o o' : Event α ε σ β} (h : M.Next s b o)
    (h' : M.Next s b o') : o = o' := by
  induction h with
  | waits hscan =>
      cases h' with
      | waits => rfl
      | fails hscan' | result hscan' | step hscan' => rw [hscan] at hscan'; cases hscan'
  | fails hscan =>
      cases h' with
      | fails hscan' => rw [hscan] at hscan'; cases hscan'; rfl
      | waits hscan' | result hscan' | step hscan' => rw [hscan] at hscan'; cases hscan'
  | result hscan hstep =>
      cases h' with
      | waits hscan' | fails hscan' => rw [hscan] at hscan'; cases hscan'
      | result hscan' hstep' =>
          rw [hscan] at hscan'
          cases hscan'
          rw [hstep] at hstep'
          cases hstep'
          rfl
      | step hscan' hstep' =>
          rw [hscan] at hscan'
          cases hscan'
          rw [hstep] at hstep'
          cases hstep'
  | step hscan hstep _ ih =>
      cases h' with
      | waits hscan' | fails hscan' => rw [hscan] at hscan'; cases hscan'
      | result hscan' hstep' =>
          rw [hscan] at hscan'
          cases hscan'
          rw [hstep] at hstep'
          cases hstep'
      | step hscan' hstep' hnext' =>
          rw [hscan] at hscan'
          cases hscan'
          rw [hstep] at hstep'
          cases hstep'
          exact ih hnext'

/-- **What a machine makes of a stream is determined.** -/
theorem Reads.unique {s : σ} {b : List α} {rs rs' : List β} {o o' : Stop α ε σ}
    (h : M.Reads s b rs o) (h' : M.Reads s b rs' o') : rs = rs' ∧ o = o' := by
  induction h generalizing rs' with
  | stop hnext =>
      cases h' with
      | stop hnext' => cases hnext.unique hnext'; exact ⟨rfl, rfl⟩
      | result hnext' => cases hnext.unique hnext'
  | result hnext _ ih =>
      cases h' with
      | stop hnext' => cases hnext.unique hnext'
      | result hnext' hrest' =>
          cases hnext.unique hnext'
          obtain ⟨rfl, rfl⟩ := ih hrest'
          exact ⟨rfl, rfl⟩

theorem Next.scan_eq_more {s s' : σ} {b rest : List α}
    (h : M.Next s b (.stop (.waits s' rest))) : M.scan rest = .more := by
  generalize ho : Event.stop (β := β) (Stop.waits (ε := ε) s' rest) = o at h
  induction h with
  | waits hscan => cases ho; exact hscan
  | fails | result => cases ho
  | step _ _ _ ih => exact ih ho

section Stable

variable (hs : Scanner.Stable M.scan)

include hs

theorem Next.result_append {s : σ} {b rest : List α} {r : β} (h : M.Next s b (.result r rest))
    (c : List α) : M.Next s (b ++ c) (.result r (rest ++ c)) := by
  generalize ho : Event.result r rest = o at h
  induction h with
  | waits | fails => cases ho
  | result hscan hstep =>
      cases ho
      exact .result (hs.token_append hscan c) hstep
  | step hscan hstep _ ih => exact .step (hs.token_append hscan c) hstep (ih ho)

theorem Next.fails_append {s : σ} {b : List α} {e : ε} (h : M.Next s b (.stop (.fails e)))
    (c : List α) : M.Next s (b ++ c) (.stop (.fails e)) := by
  generalize ho : Event.stop (β := β) (Stop.fails (α := α) (σ := σ) e) = o at h
  induction h with
  | waits | result => cases ho
  | fails hscan =>
      cases ho
      exact .fails (hs.fail hscan c)
  | step hscan hstep _ ih => exact .step (hs.token_append hscan c) hstep (ih ho)

theorem Next.waits_append {s s' : σ} {b rest c : List α} {o : Event α ε σ β}
    (h : M.Next s b (.stop (.waits s' rest))) (h' : M.Next s' (rest ++ c) o) :
    M.Next s (b ++ c) o := by
  generalize ho : Event.stop (β := β) (Stop.waits (ε := ε) s' rest) = o' at h
  induction h with
  | waits =>
      cases ho
      exact h'
  | fails | result => cases ho
  | step hscan hstep _ ih => exact .step (hs.token_append hscan c) hstep (ih ho)

/-- **Where a stream was left, it is taken up.** -/
theorem Reads.append {s s' : σ} {b rest c : List α} {rs rs' : List β} {o : Stop α ε σ}
    (h : M.Reads s b rs (.waits s' rest)) (h' : M.Reads s' (rest ++ c) rs' o) :
    M.Reads s (b ++ c) (rs ++ rs') o := by
  generalize ho : Stop.waits (ε := ε) s' rest = o' at h
  induction h with
  | stop hnext =>
      subst ho
      cases h' with
      | stop hnext' => exact .stop (hnext.waits_append hs hnext')
      | result hnext' hrest' => exact .result (hnext.waits_append hs hnext') hrest'
  | result hnext _ ih => exact .result (hnext.result_append hs c) (ih ho)

/-- After an error, nothing that follows matters. -/
theorem Reads.fails_append {s : σ} {b : List α} {rs : List β} {e : ε}
    (h : M.Reads s b rs (.fails e)) (c : List α) : M.Reads s (b ++ c) rs (.fails e) := by
  generalize ho : Stop.fails (α := α) (σ := σ) e = o at h
  induction h with
  | stop hnext =>
      subst ho
      exact .stop (hnext.fails_append hs c)
  | result hnext _ ih => exact .result (hnext.result_append hs c) (ih ho)

/-- A result takes elements away. -/
theorem Next.length_lt {s : σ} {b rest : List α} {r : β} (h : M.Next s b (.result r rest)) :
    rest.length < b.length := by
  generalize ho : Event.result r rest = o at h
  induction h with
  | waits | fails => cases ho
  | result hscan =>
      cases ho
      exact hs.length_lt hscan
  | step hscan _ _ ih => exact Nat.lt_trans (ih ho) (hs.length_lt hscan)

/-- From any state, a machine has a result or stops. -/
theorem exists_next (s : σ) (b : List α) : ∃ o, M.Next s b o := by
  induction hn : b.length using Nat.strongRecOn generalizing s b with
  | ind n ih =>
      subst hn
      cases hscan : M.scan b with
      | more => exact ⟨_, .waits hscan⟩
      | fail e => exact ⟨_, .fails hscan⟩
      | token t rest =>
          cases hstep : M.step t s with
          | inl r => exact ⟨_, .result hscan hstep⟩
          | inr s' =>
              obtain ⟨o, ho⟩ := ih rest.length (hs.length_lt hscan) s' rest rfl
              exact ⟨o, .step hscan hstep ho⟩

/-- **Every stream can be read.** -/
theorem exists_reads (s : σ) (b : List α) : ∃ rs o, M.Reads s b rs o := by
  induction hn : b.length using Nat.strongRecOn generalizing s b with
  | ind n ih =>
      subst hn
      obtain ⟨e, he⟩ := exists_next hs s b
      cases e with
      | stop o => exact ⟨[], o, .stop he⟩
      | result r rest =>
          obtain ⟨rs, o, hrest⟩ := ih rest.length (he.length_lt hs) M.start rest rfl
          exact ⟨r :: rs, o, .result he hrest⟩

end Stable

end Machine

end Pieces
