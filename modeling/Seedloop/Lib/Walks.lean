import Mathlib.Order.Defs.Unbundled

/-!
# Walks along a labelled relation

A relation says which moves lead from which states to which, and a path is what
it comes to when one follows another. A walk grows at its end, so an induction
on it goes by its last move: what every move keeps, every walk keeps.
-/

variable {σ ℓ : Type}

/-- `Walk step s ms t`: the moves `ms` lead from `s` to `t`. -/
inductive Walk (step : σ → ℓ → σ → Prop) (s : σ) : List ℓ → σ → Prop
  | nil : Walk step s [] s
  | snoc {ms : List ℓ} {t u : σ} {m : ℓ} (h : Walk step s ms t)
      (hm : step t m u) : Walk step s (ms ++ [m]) u

namespace Walk

variable {step : σ → ℓ → σ → Prop} {s t u : σ} {ms ms' : List ℓ} {m : ℓ}

theorem single (h : step s m t) : Walk step s [m] t := nil.snoc h

theorem trans (h : Walk step s ms t) (h' : Walk step t ms' u) :
    Walk step s (ms ++ ms') u := by
  induction h' with
  | nil => rwa [List.append_nil]
  | snoc _ hm ih =>
      rw [← List.append_assoc]
      exact ih.snoc hm

/-- A walk passes through a state wherever it is cut. -/
theorem of_append (h : Walk step s (ms ++ ms') u) :
    ∃ t, Walk step s ms t ∧ Walk step t ms' u := by
  generalize hns : ms ++ ms' = ns at h
  induction h generalizing ms' with
  | nil =>
      obtain ⟨rfl, rfl⟩ := List.append_eq_nil_iff.mp hns
      exact ⟨s, nil, nil⟩
  | snoc h hm ih =>
      rcases List.eq_nil_or_concat ms' with rfl | ⟨ms', m', rfl⟩
      · rw [List.append_nil] at hns
        exact ⟨_, hns ▸ h.snoc hm, nil⟩
      · rw [List.concat_eq_append, ← List.append_assoc] at hns
        obtain ⟨hinit, hlast⟩ := List.append_inj' hns rfl
        cases hlast
        obtain ⟨t, ht, ht'⟩ := ih hinit
        exact ⟨t, ht, List.concat_eq_append ▸ ht'.snoc hm⟩

theorem invariant {I : σ → Prop} (hstep : ∀ {s m t}, I s → step s m t → I t)
    (h : Walk step s ms t) (hs : I s) : I t := by
  induction h with
  | nil => exact hs
  | snoc _ hm ih => exact hstep ih hm

end Walk

/-- There is a walk, whatever its moves. -/
def Leads (step : σ → ℓ → σ → Prop) (s t : σ) : Prop := ∃ ms, Walk step s ms t

instance {step : σ → ℓ → σ → Prop} : IsTrans σ (Leads step) :=
  ⟨fun _ _ _ ⟨ms, h⟩ ⟨ms', h'⟩ => ⟨ms ++ ms', h.trans h'⟩⟩

theorem Leads.of_step {step : σ → ℓ → σ → Prop} {s t : σ} {m : ℓ}
    (h : step s m t) : Leads step s t := ⟨[m], .single h⟩
