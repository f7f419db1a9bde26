import RcppRedis.Lib.Pieces

/-!
# Trees written in preorder

A tree comes as a stream of nodes: each inner node says how many children follow it.  The
reader keeps a frame for every node whose children are not complete, and needs no look-ahead.

* `Spells` — the grammar: what it is to be a tree, written down.
* `machine` — the reader.
* `next_result_iff` — it hands out exactly what is spelled.
* `reads_waits_iff`, `reads_fails_iff` — what it makes of a whole stream.
-/

namespace Preorder

open Pieces

variable {α δ τ ε : Type}

/-- A node: a leaf, or the label of an inner node with so many children besides the first. -/
inductive Node (δ τ : Type) where
  | leaf (t : τ)
  | parent (label : δ) (others : ℕ)

/-- An inner node whose children are being read: those that are complete, and how many follow
the current one. -/
structure Frame (δ τ : Type) where
  label : δ
  done : List τ
  left : ℕ

section Reader

variable (mk : δ → List τ → τ)

/-- A tree is complete: it is the result, or the next child of the innermost node, which may
thereby be complete as well. -/
def close : τ → List (Frame δ τ) → τ ⊕ List (Frame δ τ)
  | t, [] => .inl t
  | t, f :: fs =>
      if f.left = 0 then close (mk f.label (f.done ++ [t])) fs
      else .inr ({ f with done := f.done ++ [t], left := f.left - 1 } :: fs)

/-- What the reader does with a node. -/
def step : Node δ τ → List (Frame δ τ) → τ ⊕ List (Frame δ τ)
  | .leaf t, fs => close mk t fs
  | .parent label others, fs => .inr (⟨label, [], others⟩ :: fs)

/-- The reader of trees over a scanner of nodes. -/
def machine (scan : Scanner α (Node δ τ) ε) : Machine α (Node δ τ) ε (List (Frame δ τ)) τ where
  scan := scan
  step := step mk
  start := []

variable (scan : Scanner α (Node δ τ) ε)

/-! ## The grammar -/

mutual

/-- The elements spell a tree. -/
inductive Spells : List α → τ → Prop where
  | leaf {w : List α} {t : τ} (h : scan w = .token (.leaf t) []) : Spells w t
  | parent {w ws : List α} {label : δ} {others : ℕ} {ts : List τ}
      (h : scan w = .token (.parent label others) []) (hts : SpellsAll ws ts)
      (hlen : ts.length = others + 1) : Spells (w ++ ws) (mk label ts)

/-- The elements spell several trees, one after the other. -/
inductive SpellsAll : List α → List τ → Prop where
  | nil : SpellsAll [] []
  | cons {w ws : List α} {t : τ} {ts : List τ} (ht : Spells w t) (hts : SpellsAll ws ts) :
      SpellsAll (w ++ ws) (t :: ts)

end

/-- The elements spell the beginning of a tree, up to the current child of the innermost
node. -/
inductive Opens : List α → List (Frame δ τ) → Prop where
  | nil : Opens [] []
  | cons {v w ws : List α} {fs : List (Frame δ τ)} {label : δ} {others left : ℕ} {ts : List τ}
      (hfs : Opens v fs) (h : scan w = .token (.parent label others) [])
      (hts : SpellsAll mk scan ws ts) (hlen : ts.length + left = others) :
      Opens (v ++ (w ++ ws)) (⟨label, ts, left⟩ :: fs)

variable {mk scan}

theorem SpellsAll.append {v w : List α} {ts us : List τ} (h : SpellsAll mk scan v ts)
    (h' : SpellsAll mk scan w us) : SpellsAll mk scan (v ++ w) (ts ++ us) := by
  induction ts generalizing v with
  | nil =>
      cases h
      exact h'
  | cons t ts ih =>
      cases h with
      | cons ht hts =>
          rw [List.append_assoc]
          exact .cons ht (ih hts)

theorem SpellsAll.exists_spells {w : List α} {ts : List τ} (h : SpellsAll mk scan w ts) {t : τ}
    (ht : t ∈ ts) : ∃ v, Spells mk scan v t := by
  induction ts generalizing w with
  | nil => cases ht
  | cons u ts ih =>
      cases h with
      | cons hu hts =>
          rcases List.mem_cons.mp ht with rfl | hmem
          · exact ⟨_, hu⟩
          · exact ih hts hmem

theorem SpellsAll.concat {v w : List α} {ts : List τ} {t : τ} (h : SpellsAll mk scan v ts)
    (ht : Spells mk scan w t) : SpellsAll mk scan (v ++ w) (ts ++ [t]) := by
  have hone : SpellsAll mk scan (w ++ []) [t] := .cons ht .nil
  rw [List.append_nil] at hone
  exact h.append hone

/-- Induction over what is spelled, with one statement for a tree and one for several. -/
theorem spells_induction {P : List α → τ → Prop} {Q : List α → List τ → Prop}
    (leaf : ∀ w t, scan w = .token (.leaf t) [] → P w t)
    (parent : ∀ w ws label others ts, scan w = .token (.parent label others) [] →
      ts.length = others + 1 → Q ws ts → P (w ++ ws) (mk label ts))
    (nil : Q [] []) (cons : ∀ w ws t ts, SpellsAll mk scan ws ts →
      P w t → Q ws ts → Q (w ++ ws) (t :: ts)) :
    (∀ w t, Spells mk scan w t → P w t) ∧ ∀ ws ts, SpellsAll mk scan ws ts → Q ws ts := by
  constructor
  · intro w t h
    exact @Spells.rec α δ τ ε mk scan (fun w t _ => P w t) (fun ws ts _ => Q ws ts)
      (fun h => leaf _ _ h) (fun h _ hlen hts => parent _ _ _ _ _ h hlen hts) nil
      (fun _ hall ht hts => cons _ _ _ _ hall ht hts) w t h
  · intro ws ts h
    exact @SpellsAll.rec α δ τ ε mk scan (fun w t _ => P w t) (fun ws ts _ => Q ws ts)
      (fun h => leaf _ _ h) (fun h _ hlen hts => parent _ _ _ _ _ h hlen hts) nil
      (fun _ hall ht hts => cons _ _ _ _ hall ht hts) ws ts h

/-! ## What is spelled is read -/

section Complete

variable (hs : Scanner.Stable scan)

include hs

/-- What comes of a tree that is complete, and of what follows it. -/
def After (mk : δ → List τ → τ) (scan : Scanner α (Node δ τ) ε) (c : List α)
    (o : Event α ε (List (Frame δ τ)) τ) : τ ⊕ List (Frame δ τ) → Prop
  | .inl t => o = .result t c
  | .inr fs => (machine mk scan).Next fs c o

omit hs in
theorem next_of_token {b c : List α} {x : Node δ τ} {fs : List (Frame δ τ)}
    {o : Event α ε (List (Frame δ τ)) τ} (h : scan b = .token x c)
    (ho : After mk scan c o (step mk x fs)) : (machine mk scan).Next fs b o := by
  cases hstep : step mk x fs with
  | inl t =>
      rw [hstep] at ho
      rw [show o = .result t c from ho]
      exact .result h hstep
  | inr fs' =>
      rw [hstep] at ho
      exact .step h hstep ho

/-- What is spelled is read: a tree, and the children of a node from one of them to the
last. -/
theorem next_of_spells :
    (∀ w t, Spells mk scan w t → ∀ c fs o, After mk scan c o (close mk t fs) →
      (machine mk scan).Next fs (w ++ c) o) ∧
    ∀ ws ts, SpellsAll mk scan ws ts → ∀ c label done left fs o, ts.length = left + 1 →
      After mk scan c o (close mk (mk label (done ++ ts)) fs) →
      (machine mk scan).Next (⟨label, done, left⟩ :: fs) (ws ++ c) o := by
  refine spells_induction ?leaf ?parent ?nil ?cons
  case leaf =>
    intro w t h c fs o ho
    exact next_of_token (hs.token h c) ho
  case parent =>
    intro w ws label others ts h hlen ih c fs o ho
    rw [List.append_assoc]
    refine .step (hs.token h _) rfl (ih c label [] others fs o hlen ?_)
    simpa using ho
  case nil =>
    intro c label done left fs o hlen
    cases hlen
  case cons =>
    intro w ws t ts hts iht ihts c label done left fs o hlen ho
    rw [List.append_assoc]
    refine iht (ws ++ c) _ o ?_
    rw [List.length_cons, Nat.add_right_cancel_iff] at hlen
    rw [close]
    by_cases hleft : left = 0
    · obtain rfl : ts = [] := List.length_eq_zero_iff.mp (hlen.trans hleft)
      cases hts
      rw [if_pos hleft]
      exact ho
    · rw [if_neg hleft]
      refine ihts c label _ _ fs o (by simp only; omega) ?_
      rwa [List.append_assoc]

theorem Spells.next {w : List α} {t : τ} (h : Spells mk scan w t) {c : List α}
    {fs : List (Frame δ τ)} {o : Event α ε (List (Frame δ τ)) τ}
    (ho : After mk scan c o (close mk t fs)) : (machine mk scan).Next fs (w ++ c) o :=
  (next_of_spells hs).1 w t h c fs o ho

/-- Some children of a node, but not the last. -/
theorem SpellsAll.next {ws : List α} {ts : List τ} (h : SpellsAll mk scan ws ts) {label : δ}
    {done : List τ} {left : ℕ} {c : List α} {fs : List (Frame δ τ)}
    {o : Event α ε (List (Frame δ τ)) τ}
    (ho : (machine mk scan).Next (⟨label, done ++ ts, left⟩ :: fs) c o) :
    (machine mk scan).Next (⟨label, done, ts.length + left⟩ :: fs) (ws ++ c) o := by
  induction ts generalizing ws done with
  | nil =>
      cases h
      simpa using ho
  | cons t ts ih =>
      cases h with
      | @cons w ws _ _ ht hts =>
          rw [List.append_assoc]
          refine ht.next hs ?_
          have hleft : ¬ (t :: ts).length + left = 0 := by simp
          have hpred : (t :: ts).length + left - 1 = ts.length + left := by
            rw [List.length_cons]
            omega
          rw [close, if_neg hleft, hpred]
          exact ih hts (by rwa [List.append_assoc])

/-- Where a tree was left, it is taken up. -/
theorem Opens.next {v : List α} {fs : List (Frame δ τ)} (h : Opens mk scan v fs) {c : List α}
    {o : Event α ε (List (Frame δ τ)) τ} (ho : (machine mk scan).Next fs c o) :
    (machine mk scan).Next [] (v ++ c) o := by
  induction h generalizing c with
  | nil => exact ho
  | @cons v w ws fs label others left ts _ hw hts hlen ih =>
      rw [List.append_assoc, List.append_assoc]
      refine ih (.step (hs.token hw _) rfl ?_)
      rw [← hlen]
      exact hts.next hs ho

theorem SpellsAll.reads {w : List α} {ts us : List τ} (h : SpellsAll mk scan w ts) {c : List α}
    {o : Stop α ε (List (Frame δ τ))} (hc : (machine mk scan).Reads [] c us o) :
    (machine mk scan).Reads [] (w ++ c) (ts ++ us) o := by
  induction ts generalizing w with
  | nil =>
      cases h
      exact hc
  | cons t ts ih =>
      cases h with
      | cons ht hts =>
          rw [List.append_assoc]
          exact .result (ht.next hs rfl) (ih hts)

/-- A tree takes elements, and so does each of several. -/
theorem length_of_spells :
    (∀ w t, Spells mk scan w t → 0 < w.length) ∧
    ∀ ws ts, SpellsAll mk scan ws ts → ts.length ≤ ws.length := by
  refine spells_induction ?leaf ?parent ?nil ?cons
  case leaf =>
    intro w t h
    exact hs.length_lt h
  case parent =>
    intro w ws label others ts h hlen ih
    have hw : 0 < w.length := hs.length_lt h
    rw [List.length_append]
    omega
  case nil => exact Nat.le_refl _
  case cons =>
    intro w ws t ts _ hw hws
    rw [List.length_append, List.length_cons]
    omega

theorem SpellsAll.length_le {ws : List α} {ts : List τ} (h : SpellsAll mk scan ws ts) :
    ts.length ≤ ws.length :=
  (length_of_spells hs).2 ws ts h

/-- So does each child that is complete, and the node itself. -/
theorem Opens.length_done_lt {v : List α} {fs : List (Frame δ τ)} (h : Opens mk scan v fs) :
    ∀ f ∈ fs, f.done.length < v.length := by
  induction h with
  | nil => exact fun f hf => absurd hf List.not_mem_nil
  | @cons v w ws fs label others left ts _ hw hts _ ih =>
      have hpos : 0 < w.length := hs.length_lt hw
      have hle := hts.length_le hs
      simp only [List.length_append]
      refine List.forall_mem_cons.mpr ⟨by simp only; omega, fun g hg => ?_⟩
      have hg' := ih g hg
      omega

end Complete

/-! ## What is read is spelled -/

section Sound

variable (hs : Scanner.Stable scan)

/-- The elements spell a tree, or the beginning of one. -/
def Spelled (mk : δ → List τ → τ) (scan : Scanner α (Node δ τ) ε) (v : List α) :
    τ ⊕ List (Frame δ τ) → Prop
  | .inl t => Spells mk scan v t
  | .inr fs => Opens mk scan v fs

theorem Opens.spelled_close {v w : List α} {t : τ} {fs : List (Frame δ τ)}
    (hv : Opens mk scan v fs) (ht : Spells mk scan w t) :
    Spelled mk scan (v ++ w) (close mk t fs) := by
  induction fs generalizing v w t with
  | nil =>
      cases hv
      exact ht
  | cons f fs ih =>
      cases hv with
      | @cons v₀ w₀ ws _ label others left ts hfs hw hts hlen =>
          rw [close]
          simp only [List.append_assoc]
          split_ifs with hleft
          · refine ih hfs ?_
            refine .parent hw (hts.concat ht) ?_
            rw [List.length_append, List.length_singleton]
            omega
          · refine .cons hfs hw (hts.concat ht) ?_
            rw [List.length_append, List.length_singleton]
            omega

theorem Opens.spelled_step {v w : List α} {x : Node δ τ} {fs : List (Frame δ τ)}
    (hv : Opens mk scan v fs) (hx : scan w = .token x []) :
    Spelled mk scan (v ++ w) (step mk x fs) := by
  cases x with
  | leaf t => exact hv.spelled_close (.leaf hx)
  | parent label others =>
      have hopen : Opens mk scan (v ++ (w ++ [])) (⟨label, [], others⟩ :: fs) :=
        .cons hv hx .nil (Nat.zero_add others)
      rwa [List.append_nil] at hopen

/-- What the elements before an event spell. -/
def Shows (mk : δ → List τ → τ) (scan : Scanner α (Node δ τ) ε) (v b : List α) :
    Event α ε (List (Frame δ τ)) τ → Prop
  | .result t rest => ∃ w, b = w ++ rest ∧ Spells mk scan (v ++ w) t
  | .stop (.waits fs rest) =>
      ∃ w, b = w ++ rest ∧ Opens mk scan (v ++ w) fs ∧ scan rest = .more
  | .stop (.fails e) =>
      ∃ w rest fs, b = w ++ rest ∧ Opens mk scan (v ++ w) fs ∧ scan rest = .fail e

theorem Shows.of_append {v w b : List α} {o : Event α ε (List (Frame δ τ)) τ}
    (h : Shows mk scan (v ++ w) b o) : Shows mk scan v (w ++ b) o := by
  rcases o with ⟨t, rest⟩ | ⟨⟨fs, rest⟩ | e⟩
  · obtain ⟨u, rfl, hu⟩ := h
    exact ⟨w ++ u, (List.append_assoc ..).symm, by rwa [← List.append_assoc]⟩
  · obtain ⟨u, rfl, hu, hmore⟩ := h
    exact ⟨w ++ u, (List.append_assoc ..).symm, by rwa [← List.append_assoc], hmore⟩
  · obtain ⟨u, rest, fs, rfl, hu, hfail⟩ := h
    exact ⟨w ++ u, rest, fs, (List.append_assoc ..).symm, by rwa [← List.append_assoc], hfail⟩

include hs

/-- **What is read is spelled.** -/
theorem Opens.shows {v b : List α} {fs : List (Frame δ τ)} {o : Event α ε (List (Frame δ τ)) τ}
    (hv : Opens mk scan v fs) (h : (machine mk scan).Next fs b o) : Shows mk scan v b o := by
  induction h generalizing v with
  | waits hscan => exact ⟨[], rfl, by rwa [List.append_nil], hscan⟩
  | fails hscan => exact ⟨[], _, _, rfl, by rwa [List.append_nil], hscan⟩
  | result hscan hstep =>
      obtain ⟨w, -, rfl, hw⟩ := hs.exists_token hscan
      have hspelled := hv.spelled_step hw
      rw [show step mk _ _ = _ from hstep] at hspelled
      exact ⟨w, rfl, hspelled⟩
  | step hscan hstep _ ih =>
      obtain ⟨w, -, rfl, hw⟩ := hs.exists_token hscan
      have hspelled := hv.spelled_step hw
      rw [show step mk _ _ = _ from hstep] at hspelled
      exact (ih hspelled).of_append

end Sound

/-! ## Both -/

section Both

variable (hs : Scanner.Stable scan)

include hs

/-- **A result is what is spelled.** -/
theorem next_result_iff {b c : List α} {t : τ} :
    (machine mk scan).Next [] b (.result t c) ↔ ∃ w, b = w ++ c ∧ Spells mk scan w t := by
  constructor
  · intro h
    exact Opens.nil.shows hs h
  · rintro ⟨w, rfl, hw⟩
    exact hw.next hs rfl

/-- **A stream is read as far as it goes**: the trees that it spells, and the beginning of one
more. -/
theorem reads_waits_iff {b c : List α} {ts : List τ} {fs : List (Frame δ τ)} :
    (machine mk scan).Reads [] b ts (.waits fs c) ↔
      ∃ w v, b = w ++ (v ++ c) ∧ SpellsAll mk scan w ts ∧ Opens mk scan v fs ∧
      scan c = .more := by
  constructor
  · intro h
    generalize ho : Stop.waits (ε := ε) fs c = o at h
    generalize hstart : ([] : List (Frame δ τ)) = s at h
    induction h with
    | stop hnext =>
        subst ho hstart
        obtain ⟨v, rfl, hv, hmore⟩ := Opens.nil.shows hs hnext
        exact ⟨[], v, rfl, .nil, hv, hmore⟩
    | result hnext _ ih =>
        subst ho hstart
        obtain ⟨u, rfl, hu⟩ := (next_result_iff hs).mp hnext
        obtain ⟨w, v, rfl, hw, hv, hmore⟩ := ih rfl rfl
        exact ⟨u ++ w, v, (List.append_assoc ..).symm, .cons hu hw, hv, hmore⟩
  · rintro ⟨w, v, rfl, hw, hv, hmore⟩
    rw [← List.append_nil ts]
    exact hw.reads hs (.stop (hv.next hs (.waits hmore)))

/-- **A stream that fails** does so after the trees that it spells, and perhaps inside another
one. -/
theorem reads_fails_iff {b : List α} {ts : List τ} {e : ε} :
    (machine mk scan).Reads [] b ts (.fails e) ↔
      ∃ w v c fs, b = w ++ (v ++ c) ∧ SpellsAll mk scan w ts ∧ Opens mk scan v fs ∧
        scan c = .fail e := by
  constructor
  · intro h
    generalize ho : Stop.fails (α := α) (σ := List (Frame δ τ)) e = o at h
    generalize hstart : ([] : List (Frame δ τ)) = s at h
    induction h with
    | stop hnext =>
        subst ho hstart
        obtain ⟨v, c, fs, rfl, hv, hfail⟩ := Opens.nil.shows hs hnext
        exact ⟨[], v, c, fs, rfl, .nil, hv, hfail⟩
    | result hnext _ ih =>
        subst ho hstart
        obtain ⟨u, rfl, hu⟩ := (next_result_iff hs).mp hnext
        obtain ⟨w, v, c, fs, rfl, hw, hv, hfail⟩ := ih rfl rfl
        exact ⟨u ++ w, v, c, fs, (List.append_assoc ..).symm, .cons hu hw, hv, hfail⟩
  · rintro ⟨w, v, c, fs, rfl, hw, hv, hfail⟩
    rw [← List.append_nil ts]
    exact hw.reads hs (.stop (hv.next hs (.fails hfail)))

/-- Of two spelled prefixes neither is longer. -/
theorem Spells.unique {w w' c c' : List α} {t t' : τ} (h : Spells mk scan w t)
    (h' : Spells mk scan w' t') (heq : w ++ c = w' ++ c') : w = w' ∧ c = c' ∧ t = t' := by
  have hnext : (machine mk scan).Next [] (w ++ c) (.result t c) := h.next hs rfl
  have hnext' : (machine mk scan).Next [] (w' ++ c') (.result t' c') := h'.next hs rfl
  obtain ⟨rfl, rfl⟩ := Event.result.inj (hnext.unique (heq ▸ hnext'))
  exact ⟨List.append_cancel_right heq, rfl, rfl⟩

/-- What is the beginning of a tree does not start with a tree. -/
theorem Opens.not_spells {v c w d : List α} {fs : List (Frame δ τ)} {t : τ}
    (h : Opens mk scan v fs) (hc : scan c = .more) (heq : v ++ c = w ++ d) :
    ¬ Spells mk scan w t := by
  intro hw
  have hnext : (machine mk scan).Next [] (v ++ c) (.stop (.waits fs c)) :=
    h.next hs (.waits hc)
  have hnext' : (machine mk scan).Next [] (w ++ d) (.result t d) := hw.next hs rfl
  cases hnext.unique (heq ▸ hnext')

end Both

/-! ## Short trees -/

variable (mk scan)

/-- Nowhere in a stream does the beginning of a tree take more than so many elements. -/
def Short (k : ℕ) (s : List α) : Prop :=
  ∀ w v c ts fs, (w ++ (v ++ c)) <+: s → SpellsAll mk scan w ts → Opens mk scan v fs →
    scan c = .more → (v ++ c).length ≤ k

variable {mk scan}

theorem short_length (s : List α) : Short mk scan s.length s := by
  intro w v c ts fs hp _ _ _
  have hle := hp.length_le
  rw [List.length_append] at hle
  omega

/-- **A stream of short trees.** -/
theorem short_of_spells (hs : Scanner.Stable scan) {k : ℕ} {ws : List (List α)}
    (h : ∀ w ∈ ws, w.length ≤ k ∧ ∃ t, Spells mk scan w t) : Short mk scan k ws.flatten := by
  induction ws with
  | nil =>
      intro w v c ts fs hp _ _ _
      have hnil := List.prefix_nil.mp hp
      rw [(List.append_eq_nil_iff.mp hnil).2]
      exact Nat.zero_le _
  | cons x ws ih =>
      obtain ⟨⟨hx, u, hu⟩, hws⟩ := List.forall_mem_cons.mp h
      intro w v c ts fs hp hw hv hc
      obtain ⟨q, hq⟩ := hp
      rw [List.flatten_cons] at hq
      cases hw with
      | nil =>
          -- the beginning of the first tree
          rw [List.nil_append] at hq
          rcases List.append_eq_append_iff.mp hq with ⟨d, rfl, -⟩ | ⟨d, heq, -⟩
          · rw [List.length_append] at hx
            omega
          · exact absurd hu (hv.not_spells hs hc heq)
      | @cons w₁ w₂ t ts ht hts =>
          rw [List.append_assoc, List.append_assoc] at hq
          obtain ⟨rfl, hrest, -⟩ := ht.unique hs hu hq
          exact ih hws w₂ v c ts fs ⟨q, by rw [List.append_assoc]; exact hrest⟩ hts hv hc

end Reader

end Preorder
