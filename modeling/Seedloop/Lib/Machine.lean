import Mathlib.Data.List.Basic

/-!
# Partial machines and their runs

A machine is a deterministic step that may be disabled: every choice the
environment makes is in the label, so a run is a list of labels and the state
they lead to is a function of it. Nondeterminism lives in the quantifier over
label lists, which is what lets a statement about "every interleaving" be an
induction on a list.

`run` folds the step along the labels. `outputs` collects what the steps of a
run made visible, in order; a step's output may depend on the state it was
taken in, never on the labels after it. Two rules carry every proof below:
an invariant of one step is an invariant of a run, and a relation that one
step keeps with a growing output is kept by a run with its whole output.
-/

namespace Machine

universe u v w

variable {σ : Type u} {α : Type v} {β : Type w}

/-- The state after the labels of a list, if every one of them was enabled. -/
def run (step : σ → α → Option σ) : σ → List α → Option σ
  | s, [] => some s
  | s, a :: as => (step s a).bind fun t => run step t as

/-- What the steps of a run put out, in order. A run that gets stuck has put
out what it put out before that. -/
def outputs (step : σ → α → Option σ) (out : σ → α → List β) :
    σ → List α → List β
  | _, [] => []
  | s, a :: as =>
      match step s a with
      | none => []
      | some t => out s a ++ outputs step out t as

variable {step : σ → α → Option σ} {out : σ → α → List β}

@[simp] theorem run_nil (s : σ) : run step s [] = some s := rfl

theorem run_cons_eq_some {s u : σ} {a : α} {as : List α} :
    run step s (a :: as) = some u ↔
      ∃ t, step s a = some t ∧ run step t as = some u :=
  Option.bind_eq_some_iff

theorem run_append_eq_some {s u : σ} {as bs : List α} :
    run step s (as ++ bs) = some u ↔
      ∃ t, run step s as = some t ∧ run step t bs = some u := by
  induction as generalizing s with
  | nil => simp
  | cons a as ih =>
      simp only [List.cons_append, run_cons_eq_some, ih]
      constructor
      · rintro ⟨t, ht, v, hv, hu⟩
        exact ⟨v, ⟨t, ht, hv⟩, hu⟩
      · rintro ⟨v, ⟨t, ht, hv⟩, hu⟩
        exact ⟨t, ht, v, hv, hu⟩

theorem run_concat_eq_some {s u : σ} {a : α} {as : List α} :
    run step s (as ++ [a]) = some u ↔
      ∃ t, run step s as = some t ∧ step t a = some u := by
  simp [run_append_eq_some, run_cons_eq_some]

@[simp] theorem outputs_nil (s : σ) : outputs step out s [] = [] := rfl

theorem outputs_cons {s t : σ} {a : α} {as : List α} (h : step s a = some t) :
    outputs step out s (a :: as) = out s a ++ outputs step out t as := by
  rw [outputs, h]

theorem outputs_append {s t : σ} {as bs : List α}
    (h : run step s as = some t) :
    outputs step out s (as ++ bs) =
      outputs step out s as ++ outputs step out t bs := by
  induction as generalizing s with
  | nil =>
      rw [run_nil, Option.some.injEq] at h
      rw [h]
      rfl
  | cons a as ih =>
      obtain ⟨r, hr, hrun⟩ := run_cons_eq_some.mp h
      rw [List.cons_append, outputs_cons hr, outputs_cons hr, ih hrun,
        List.append_assoc]

theorem outputs_map {γ : Type*} (f : β → γ) (s : σ) (as : List α) :
    outputs step (fun s a => (out s a).map f) s as =
      (outputs step out s as).map f := by
  induction as generalizing s with
  | nil => rfl
  | cons a as ih =>
      rw [outputs, outputs]
      split
      · rfl
      · next t ht => rw [ih, List.map_append]

/-- What a run put out, one of its steps did. -/
theorem exists_of_mem_outputs {s : σ} {as : List α} {b : β}
    (h : b ∈ outputs step out s as) :
    ∃ pre a post t, as = pre ++ a :: post ∧ run step s pre = some t ∧
      b ∈ out t a := by
  induction as generalizing s with
  | nil => cases h
  | cons a as ih =>
      rw [outputs] at h
      split at h
      · cases h
      · next t ht =>
        rcases List.mem_append.mp h with h | h
        · exact ⟨[], a, as, s, rfl, rfl, h⟩
        · obtain ⟨pre, a', post, u, rfl, hrun, hb⟩ := ih h
          exact ⟨a :: pre, a', post, u, rfl,
            run_cons_eq_some.mpr ⟨t, ht, hrun⟩, hb⟩

/-- What one step keeps, a run keeps. -/
theorem run_invariant {I : σ → Prop}
    (hstep : ∀ {s a t}, I s → step s a = some t → I t) {s t : σ}
    {as : List α} (hs : I s) (h : run step s as = some t) : I t := by
  induction as generalizing s with
  | nil =>
      rw [run_nil, Option.some.injEq] at h
      exact h ▸ hs
  | cons a as ih =>
      obtain ⟨r, hr, hrun⟩ := run_cons_eq_some.mp h
      exact ih (hstep hs hr) hrun

/-- What one step does to a state and its output so far, a run does to the
state it started from and its whole output. -/
theorem run_outputs_invariant {I : σ → List β → Prop}
    (hstep : ∀ {s a t bs}, I s bs → step s a = some t → I t (bs ++ out s a))
    {s t : σ} {as : List α} {bs : List β} (hs : I s bs)
    (h : run step s as = some t) : I t (bs ++ outputs step out s as) := by
  induction as generalizing s bs with
  | nil =>
      rw [run_nil, Option.some.injEq] at h
      rw [outputs_nil, List.append_nil]
      exact h ▸ hs
  | cons a as ih =>
      obtain ⟨r, hr, hrun⟩ := run_cons_eq_some.mp h
      rw [outputs_cons hr, ← List.append_assoc]
      exact ih (hstep hs hr) hrun

/-- Two runs that differ in silent steps. `f` is what a step can depend on:
silent steps leave it alone and put nothing out, and steps with one label do
the same to it and put out the same. Then runs with one sequence of labels,
from states that agree, put out the same and end in states that agree. -/
theorem outputs_congr {γ : Type*} {δ : Type*} {f : σ → γ}
    {label : σ → α → Option δ}
    (hsilent : ∀ {s a t}, step s a = some t → label s a = none →
      f t = f s ∧ out s a = [])
    (hsame : ∀ {s a t s' a' t' l}, step s a = some t →
      step s' a' = some t' → f s = f s' → label s a = some l →
      label s' a' = some l → f t = f t' ∧ out s a = out s' a')
    {s t s' t' : σ} {as as' : List α} (h : run step s as = some t)
    (h' : run step s' as' = some t') (hf : f s = f s')
    (hl : outputs step (fun s a => (label s a).toList) s as =
      outputs step (fun s a => (label s a).toList) s' as') :
    f t = f t' ∧ outputs step out s as = outputs step out s' as' := by
  induction as generalizing s s' as' with
  | nil =>
      rw [run_nil, Option.some.injEq] at h
      subst h
      -- Whatever is left of the other run is silent.
      induction as' generalizing s' with
      | nil =>
          rw [run_nil, Option.some.injEq] at h'
          exact ⟨h' ▸ hf, rfl⟩
      | cons a as' ih =>
          obtain ⟨r, hr, hrun⟩ := run_cons_eq_some.mp h'
          rw [outputs_nil, outputs_cons hr, eq_comm, List.append_eq_nil_iff,
            Option.toList_eq_nil_iff] at hl
          obtain ⟨hfr, hout⟩ := hsilent hr hl.1
          rw [outputs_cons hr, hout, List.nil_append]
          exact ih hrun (hf.trans hfr.symm) hl.2.symm
  | cons a as ih =>
      obtain ⟨r, hr, hrun⟩ := run_cons_eq_some.mp h
      cases hla : label s a with
      | none =>
          obtain ⟨hfr, hout⟩ := hsilent hr hla
          rw [outputs_cons hr, hla, Option.toList_none, List.nil_append] at hl
          rw [outputs_cons hr, hout, List.nil_append]
          exact ih hrun h' (hfr.trans hf) hl
      | some l =>
          -- The other run gets to the same label after some silent steps.
          induction as' generalizing s' with
          | nil =>
              rw [outputs_cons hr, hla] at hl
              cases hl
          | cons a' as' ih' =>
              obtain ⟨r', hr', hrun'⟩ := run_cons_eq_some.mp h'
              rw [outputs_cons hr, outputs_cons hr', hla] at hl
              cases hla' : label s' a' with
              | none =>
                  obtain ⟨hfr, hout⟩ := hsilent hr' hla'
                  rw [hla', Option.toList_none, List.nil_append] at hl
                  have hcons : outputs step out s' (a' :: as') = _ :=
                    outputs_cons hr'
                  rw [hcons, hout, List.nil_append]
                  refine ih' hrun' (hf.trans hfr.symm) ?_
                  rw [outputs_cons hr, hla]
                  exact hl
              | some l' =>
                  rw [hla', Option.toList_some, Option.toList_some,
                    List.singleton_append, List.singleton_append,
                    List.cons.injEq] at hl
                  obtain ⟨rfl, hl⟩ := hl
                  obtain ⟨hfr, hout⟩ := hsame hr hr' hf hla hla'
                  obtain ⟨hft, houts⟩ := ih hrun hrun' hfr hl
                  refine ⟨hft, ?_⟩
                  rw [outputs_cons hr, outputs_cons hr', hout, houts]

/-- A machine whose every step is a run of another, under a map of states and
with the same output, is simulated by it. -/
theorem run_simulation {τ : Type*} {γ : Type*} {f : σ → τ}
    {step' : τ → γ → Option τ} {out' : τ → γ → List β}
    (hstep : ∀ {s a t}, step s a = some t → ∃ cs,
      run step' (f s) cs = some (f t) ∧ outputs step' out' (f s) cs = out s a)
    {s t : σ} {as : List α} (h : run step s as = some t) :
    ∃ cs, run step' (f s) cs = some (f t) ∧
      outputs step' out' (f s) cs = outputs step out s as := by
  induction as generalizing s with
  | nil =>
      rw [run_nil, Option.some.injEq] at h
      exact ⟨[], by rw [h]; rfl, rfl⟩
  | cons a as ih =>
      obtain ⟨r, hr, hrun⟩ := run_cons_eq_some.mp h
      obtain ⟨cs, hcs, hout⟩ := hstep hr
      obtain ⟨ds, hds, hout'⟩ := ih hrun
      refine ⟨cs ++ ds, run_append_eq_some.mpr ⟨f r, hcs, hds⟩, ?_⟩
      rw [outputs_append hcs, outputs_cons hr, hout, hout']

/-- A machine that matches every step of another, label for label, keeping a
relation of their states, matches every run. -/
theorem run_refinement {τ : Type*} {γ : Type*} {R : σ → τ → Prop}
    {g : α → γ} {step' : τ → γ → Option τ}
    (hstep : ∀ {s a t c}, R s c → step s a = some t →
      ∃ d, step' c (g a) = some d ∧ R t d)
    {s t : σ} {c : τ} {as : List α} (hs : R s c) (h : run step s as = some t) :
    ∃ d, run step' c (as.map g) = some d ∧ R t d := by
  induction as generalizing s c with
  | nil =>
      rw [run_nil, Option.some.injEq] at h
      exact ⟨c, rfl, h ▸ hs⟩
  | cons a as ih =>
      obtain ⟨r, hr, hrun⟩ := run_cons_eq_some.mp h
      obtain ⟨d, hd, hrd⟩ := hstep hs hr
      obtain ⟨e, he, hte⟩ := ih hrd hrun
      exact ⟨e, run_cons_eq_some.mpr ⟨d, hd, he⟩, hte⟩

/-- A preorder that every step respects relates the ends of every run. -/
theorem run_preorder {r : σ → σ → Prop} (hrefl : ∀ s, r s s)
    (htrans : ∀ {s t u}, r s t → r t u → r s u)
    (hstep : ∀ {s a t}, step s a = some t → r s t) {s t : σ} {as : List α}
    (h : run step s as = some t) : r s t :=
  run_invariant (I := r s) (fun hs ht => htrans hs (hstep ht)) (hrefl s) h

/-- A buffer that every step takes from in front and adds to behind is, over a
run, what it held and was given, less what it handed out. -/
theorem run_balance {I : σ → Prop} {held : σ → List β}
    {given taken : σ → α → List β}
    (hinv : ∀ {s a t}, I s → step s a = some t → I t)
    (hstep : ∀ {s a t}, I s → step s a = some t →
      taken s a ++ held t = held s ++ given s a)
    {s t : σ} {as : List α} (hs : I s) (h : run step s as = some t) :
    outputs step taken s as ++ held t = held s ++ outputs step given s as := by
  induction as generalizing s with
  | nil =>
      rw [run_nil, Option.some.injEq] at h
      simp [h]
  | cons a as ih =>
      obtain ⟨r, hr, hrun⟩ := run_cons_eq_some.mp h
      rw [outputs_cons hr, outputs_cons hr, List.append_assoc,
        ih (hinv hs hr) hrun, ← List.append_assoc, hstep hs hr,
        List.append_assoc]

end Machine
