import Seedloop.Proofs.Frame

/-!
# A crash is permanent

`self._crashed` only grows, and a node is in it exactly when a crash of it is
on the timeline. The crash check stands before every other in `_deliver`, so
from then on every delivery from or to the node ends there, whatever splits
are open or heal meanwhile.
-/

namespace Seedloop

namespace Net

variable {ρ μ υ : Type}

/-- A crash of the node is on the timeline. -/
def CrashOf (n : Address) (s : Net ρ μ υ) : Prop :=
  ∃ e ∈ s.timeline, ∃ faultId, e.2 = .faultCrash faultId n

/-- The crashed nodes are those whose crash was recorded. -/
def CrashesRecorded (s : Net ρ μ υ) : Prop :=
  ∀ n, n ∈ s.crashed ↔ CrashOf n s

theorem crashOf_append {s t : Net ρ μ υ} {new : List (ℚ × Event μ)}
    (ht : t.timeline = s.timeline ++ new) {n : Address} :
    CrashOf n t ↔ CrashOf n s ∨
      ∃ e ∈ new, ∃ faultId, e.2 = .faultCrash faultId n := by
  simp only [CrashOf, ht, List.mem_append, or_and_right, exists_or]

theorem fate_eq_deliver {s : Net ρ μ υ} {src dst : Address}
    (h : s.fate src dst = .deliver) : src ∉ s.crashed ∧ dst ∉ s.crashed := by
  unfold fate at h
  by_cases hc : src ∈ s.crashed ∨ dst ∈ s.crashed
  · rw [if_pos hc] at h
    cases h
  · exact not_or.mp hc

section

variable [Random ρ]

theorem CrashesRecorded.freeStep {s t : Net ρ μ υ} {a : FreeAct μ υ}
    (hh : Handles s) (hs : CrashesRecorded s) (h : freeStep s a = some t) :
    CrashesRecorded t := by
  intro n
  rcases freeStep_events hh h with hf | ⟨c, hc⟩ | ⟨_, mid, src, dst, msg, -, -, hd⟩
  · obtain ⟨new, hnew, hof⟩ := hf.timeline
    rw [hf.crashed, hs n, crashOf_append hnew]
    refine (or_iff_left ?_).symm
    rintro ⟨e, he, faultId, heq⟩
    have := hof e he
    rw [heq] at this
    cases this
  · rw [hc.crashed, hs n, crashOf_append hc.timeline]
    refine or_congr .rfl ?_
    cases c <;> simp [FaultCallback.event]
  · rw [hd.crashed, hs n, crashOf_append hd.timeline]
    simp

theorem freeRun_crashesRecorded {g f : ρ} {s : Net ρ μ υ}
    {as : List (FreeAct μ υ)}
    (h : Machine.run freeStep (init g f) as = some s) : CrashesRecorded s := by
  have hstart : Handles (init g f : Net ρ μ υ) ∧
      CrashesRecorded (init g f : Net ρ μ υ) :=
    ⟨init_handles g f, fun n => by simp [init, CrashOf]⟩
  exact (Machine.run_invariant
    (I := fun s : Net ρ μ υ => Handles s ∧ CrashesRecorded s)
    (fun hi hs => ⟨hi.1.freeStep hs, hi.2.freeStep hi.1 hs⟩) hstart h).2

/-! ## After a crash -/

/-- A node out of reach stays so, and a step delivers nothing from or to it. -/
theorem freeStep_crashed {s t : Net ρ μ υ} {a : FreeAct μ υ} (hh : Handles s)
    (h : freeStep s a = some t) {n : Address} (hn : n ∈ s.crashed) :
    n ∈ t.crashed ∧
    (∃ new, t.timeline = s.timeline ++ new ∧
      ∀ e ∈ new, ∀ mid src dst, e.2 = .message .deliver mid src dst →
        src ≠ n ∧ dst ≠ n) ∧
    ∀ d, (t.queueAt d).IsSuffix (s.queueAt d) ∨ ∃ src msg,
      t.queueAt d = s.queueAt d ++ [(src, msg)] ∧ src ≠ n ∧ d ≠ n := by
  rcases freeStep_events hh h with hf | ⟨c, hc⟩ | ⟨_, mid, src, dst, msg, -, -, hd⟩
  · obtain ⟨new, hnew, hof⟩ := hf.timeline
    refine ⟨hf.crashed ▸ hn, ⟨new, hnew, ?_⟩, fun d => .inl (hf.queue d)⟩
    intro e he mid src dst heq
    have := hof e he
    rw [heq] at this
    cases this
  · refine ⟨(hc.crashed n).mpr (.inl hn), ⟨_, hc.timeline, ?_⟩, ?_⟩
    · intro e he mid src dst heq
      rw [List.mem_singleton] at he
      subst he
      cases c <;> cases heq
    · intro d
      unfold queueAt
      rw [hc.endpoints]
      exact .inl List.suffix_rfl
  · have hne : s.fate src dst = .deliver → src ≠ n ∧ dst ≠ n := by
      intro hfate
      obtain ⟨h₁, h₂⟩ := fate_eq_deliver hfate
      exact ⟨fun heq => h₁ (heq ▸ hn), fun heq => h₂ (heq ▸ hn)⟩
    refine ⟨hd.crashed ▸ hn, ⟨_, hd.timeline, ?_⟩, ?_⟩
    · intro e he mid' src' dst' heq
      rw [List.mem_singleton] at he
      subst he
      simp only [Event.message.injEq] at heq
      obtain ⟨hfate, -, rfl, rfl⟩ := heq
      exact hne hfate
    · intro d
      rw [hd.queue d]
      split_ifs with hcond
      · obtain ⟨hfate, rfl, -⟩ := hcond
        exact .inr ⟨src, msg, rfl, hne hfate⟩
      · exact .inl List.suffix_rfl

theorem freeRun_crashed {s t : Net ρ μ υ} {as : List (FreeAct μ υ)}
    (hh : Handles s) (h : Machine.run freeStep s as = some t) {n : Address}
    (hn : n ∈ s.crashed) :
    n ∈ t.crashed ∧ ∃ new, t.timeline = s.timeline ++ new ∧
      ∀ e ∈ new, ∀ mid src dst, e.2 = .message .deliver mid src dst →
        src ≠ n ∧ dst ≠ n := by
  have hstart : Handles s ∧ n ∈ s.crashed ∧ ∃ new,
      s.timeline = s.timeline ++ new ∧ ∀ e ∈ new, ∀ mid src dst,
        e.2 = .message .deliver mid src dst → src ≠ n ∧ dst ≠ n :=
    ⟨hh, hn, [], by simp, by simp⟩
  refine (Machine.run_invariant (I := fun t : Net ρ μ υ => Handles t ∧
    n ∈ t.crashed ∧ ∃ new, t.timeline = s.timeline ++ new ∧
      ∀ e ∈ new, ∀ mid src dst, e.2 = .message .deliver mid src dst →
        src ≠ n ∧ dst ≠ n) ?_ hstart h).2
  rintro u a v ⟨hu, hn, new, hnew, hall⟩ hs
  obtain ⟨hn', ⟨new', hnew', hall'⟩, -⟩ := freeStep_crashed hu hs hn
  refine ⟨hu.freeStep hs, hn', new ++ new', ?_, ?_⟩
  · rw [hnew', hnew, List.append_assoc]
  · intro e he
    rcases List.mem_append.mp he with he | he
    · exact hall e he
    · exact hall' e he

/-- A crash is permanent and named correctly. Once the crash of `n` is on the
timeline, whatever follows: no later event delivers from or to `n`; no step
puts a message from or to `n` in a queue; and a delivery from or to `n` that
fires records that it was dropped for the crash, once and under no other name.
Before any crash of either end, a delivery that fires is dropped for a
partition exactly when the pair is unreachable at that moment. -/
theorem crash_is_permanent {g f : ρ} {before after : List (FreeAct μ υ)}
    {s t : Net ρ μ υ}
    (hs : Machine.run freeStep (init g f) before = some s)
    (ht : Machine.run freeStep s after = some t) :
    (∀ n, CrashOf n s →
      (∃ new, t.timeline = s.timeline ++ new ∧
        ∀ e ∈ new, ∀ mid src dst, e.2 = .message .deliver mid src dst →
          src ≠ n ∧ dst ≠ n) ∧
      (∀ a u, freeStep t a = some u → ∀ d,
        (u.queueAt d).IsSuffix (t.queueAt d) ∨ ∃ src msg,
          u.queueAt d = t.queueAt d ++ [(src, msg)] ∧ src ≠ n ∧ d ≠ n) ∧
      ∀ a u h mid src dst msg, freeStep t a = some u → Fires t a h →
        h.callback = .deliver mid src dst msg → (src = n ∨ dst = n) →
        u.timeline =
          t.timeline ++ [(t.loop.time, .message .dropCrashed mid src dst)]) ∧
    ∀ a u h mid src dst msg, freeStep t a = some u → Fires t a h →
      h.callback = .deliver mid src dst msg →
      ¬ CrashOf src t → ¬ CrashOf dst t →
      (u.timeline = t.timeline ++
          [(t.loop.time, .message .dropPartitioned mid src dst)] ↔
        t.reachable src dst = false) := by
  have hsh := freeRun_handles hs
  have hall := Machine.run_append_eq_some.mpr ⟨s, hs, ht⟩
  have hth := freeRun_handles hall
  have hrec := freeRun_crashesRecorded hall
  constructor
  · intro n hn
    have hn := (freeRun_crashesRecorded hs n).mpr hn
    obtain ⟨hnt, hlater⟩ := freeRun_crashed hsh ht hn
    refine ⟨hlater, ?_, ?_⟩
    · intro a u hu
      exact (freeStep_crashed hth hu hnt).2.2
    · intro a u h mid src dst msg hu hf hc hend
      have hcrash : src ∈ t.crashed ∨ dst ∈ t.crashed := by
        rcases hend with rfl | rfl
        · exact .inl hnt
        · exact .inr hnt
      rw [(hf.delivered hth hu hc).timeline, fate, if_pos hcrash]
  · intro a u h mid src dst msg hu hf hc hsrc hdst
    rw [(hf.delivered hth hu hc).timeline, fate,
      if_neg (not_or.mpr ⟨mt (hrec src).mp hsrc, mt (hrec dst).mp hdst⟩)]
    cases hr : t.reachable src dst <;> simp

end

/-- A message to a node that crashes while it is under way. -/
def crashInFlight : List (FreeAct Unit ℕ) :=
  [.act (.op (.bind 1 false (.int 0) (.int 0))),
    .act (.op (.bind 2 false (.int 0) (.int 0))), .act (.op (.send 1 2 ())),
    .fault (.beginCrash 0 2)]

theorem crash_is_permanent_crashInFlight : ∃ s t,
    Machine.run freeStep (init Toggle.low Toggle.low) crashInFlight = some s ∧
    freeStep s (.fire 0) = some t ∧ t.timeline =
      s.timeline ++ [(s.loop.time, .message .dropCrashed 0 1 2)] := by
  have hrun : (Machine.run freeStep (init Toggle.low Toggle.low)
      (crashInFlight ++ [.fire 0])).isSome := by decide +kernel
  obtain ⟨t, ht⟩ := Option.isSome_iff_exists.mp hrun
  obtain ⟨s, hs, hst⟩ := Machine.run_concat_eq_some.mp ht
  have hline : s.timeline =
      [(0, .message .send 0 1 2), (0, .faultCrash 0 2)] := by
    have := congrArg (Option.map timeline) hs
    exact Option.some.inj (this.symm.trans (by decide +kernel))
  have hpend : (s.loop.pending.map fun h => (h.id, h.callback)) =
      [(0, .deliver 0 1 2 ())] := by
    have := congrArg
      (Option.map fun s => s.loop.pending.map fun h => (h.id, h.callback)) hs
    exact Option.some.inj (this.symm.trans (by decide +kernel))
  obtain ⟨h, hh, hcb⟩ := List.mem_map.mp
    (show (0, Callback.deliver 0 1 2 ()) ∈ s.loop.pending.map _ from
      hpend ▸ List.mem_singleton_self _)
  simp only [Prod.mk.injEq] at hcb
  have hfires : Fires s (.fire 0) h := .inl ⟨by rw [hcb.1], hh⟩
  have hcrash : CrashOf 2 s := ⟨(0, .faultCrash 0 2), by simp [hline], 0, rfl⟩
  refine ⟨s, t, hs, hst, ?_⟩
  exact ((crash_is_permanent hs (Machine.run_nil s)).1 2 hcrash).2.2
    _ t h 0 1 2 () hst hfires hcb.2 (.inr rfl)

end Net

end Seedloop
