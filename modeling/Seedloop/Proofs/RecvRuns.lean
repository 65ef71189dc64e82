import Seedloop.Lib.Machine
import Seedloop.Ref.Recv

/-!
# Nothing is lost in an inbox

Two facts about an endpoint's receive side, both over every order of what can
happen to it. Its queue is a buffer: what completed calls returned, then what
is queued, is what was delivered. And a waiter is never asleep over a message:
`Ok` ties the one task that may be suspended to the future its wake-up goes
through, and says that future is done as soon as anything is queued.

The order that could go wrong is a cancellation between the wake-up and the
resumption. There the future is done already, so a later delivery skips it,
and the message stays queued for the next call.
-/

namespace Seedloop

/-- What a stretch of `recv` handed over. -/
def RecvOutcome.item? {μ : Type} : RecvOutcome μ → List (Address × μ)
  | .returned item => [item]
  | _ => []

namespace Inbox

variable {μ : Type}

/-! ## The queue -/

theorem enqueue_queue (b : Inbox μ) (item : Address × μ) :
    (b.enqueue item).queue = b.queue ++ [item] := by
  unfold enqueue
  dsimp only
  split
  · split <;> rfl
  · rfl

theorem cancel_queue (b : Inbox μ) (task : ℕ) (w : Suspended) :
    (b.cancel task w).queue = b.queue := by
  unfold cancel
  split <;> rfl

theorem recvLoop_queue (b : Inbox μ) (task : ℕ) (mustCancel : Bool) :
    (b.recvLoop task mustCancel).2.item? ++
      (b.recvLoop task mustCancel).1.queue = b.queue := by
  unfold recvLoop
  split
  · next item rest hq => rw [hq]; rfl
  · rfl

theorem recv_queue (b : Inbox μ) (task : ℕ) (mustCancel : Bool) :
    (b.recv task mustCancel).2.item? ++
      (b.recv task mustCancel).1.queue = b.queue := by
  unfold recv
  split
  · rfl
  · exact recvLoop_queue b task mustCancel

theorem resume_queue (b : Inbox μ) (task : ℕ) (w : Suspended) :
    (b.resume task w).2.item? ++ (b.resume task w).1.queue =
      b.queue := by
  unfold resume
  dsimp only
  split
  · rfl
  · exact recvLoop_queue _ task false

theorem returned_eq {b b' : Inbox μ} {a : Act μ} {out : RecvOutcome μ}
    (h : b.act a = some (b', some out)) : b.returned a = out.item? := by
  unfold returned
  rw [h]
  cases out <;> rfl

/-- An event takes from the front of the queue and adds at the back. -/
theorem step_queue {b b' : Inbox μ} {a : Act μ} (h : step b a = some b') :
    b.returned a ++ b'.queue = b.queue ++ b.delivered a := by
  simp only [step, Option.map_eq_some_iff] at h
  obtain ⟨⟨b', out⟩, hact, rfl⟩ := h
  cases a with
  | deliver item =>
      simp only [act, Option.some.injEq, Prod.mk.injEq] at hact
      obtain ⟨rfl, rfl⟩ := hact
      exact enqueue_queue b item
  | recv task mustCancel =>
      have hret := hact
      simp only [act] at hact
      split at hact
      · cases hact
      · simp only [Option.some.injEq, Prod.mk.injEq] at hact
        obtain ⟨rfl, rfl⟩ := hact
        rw [returned_eq hret, recv_queue]
        exact (List.append_nil _).symm
  | cancel task =>
      have hret : b.returned (.cancel task) = [] := by
        unfold returned
        rw [hact]
        simp only [act, Option.map_eq_some_iff, Prod.mk.injEq] at hact
        obtain ⟨w, -, -, rfl⟩ := hact
        rfl
      simp only [act, Option.map_eq_some_iff, Prod.mk.injEq] at hact
      obtain ⟨w, -, rfl, -⟩ := hact
      rw [hret, cancel_queue]
      exact (List.append_nil _).symm
  | resume task =>
      have hret := hact
      simp only [act] at hact
      split at hact
      · split at hact
        · simp only [Option.some.injEq, Prod.mk.injEq] at hact
          obtain ⟨rfl, rfl⟩ := hact
          rw [returned_eq hret, resume_queue]
          exact (List.append_nil _).symm
        · cases hact
      · cases hact

/-! ## The waiter -/

/-- At most one task is suspended; the endpoint's waiter is the future it
awaits; and over a message that future is done. -/
structure Ok (b : Inbox μ) : Prop where
  held : ∀ {task w}, b.suspended task = some w →
    b.waiter = some w.fut ∧ w.fut < b.futures.length
  one : ∀ {task task' w w'}, b.suspended task = some w →
    b.suspended task' = some w' → task = task'
  busy : b.waiter.isSome → ∃ task w, b.suspended task = some w
  woken : ∀ {task w}, b.suspended task = some w → b.queue ≠ [] →
    b.isDone w.fut = true

theorem init_ok : (init : Inbox μ).Ok where
  held h := by cases h
  one h := by cases h
  busy h := by cases h
  woken h := by cases h

theorem isDone_set {b : Inbox μ} {fut fut' : ℕ} {st : FutState}
    (hst : st ≠ .pending) (hlt : fut' < b.futures.length)
    (h : fut = fut' ∨ b.isDone fut' = true) :
    isDone { b with futures := b.futures.set fut st } fut' = true := by
  by_cases heq : fut = fut'
  · subst heq
    simp [isDone, List.getElem?_set_self hlt, hst]
  · rcases h with h | h
    · exact absurd h heq
    · simpa [isDone, List.getElem?_set_ne heq] using h

/-- A delivery leaves the waiter where it is, and done. -/
theorem enqueue_spec (b : Inbox μ) (item : Address × μ) :
    (b.enqueue item).waiter = b.waiter ∧
    (b.enqueue item).suspended = b.suspended ∧
    (b.enqueue item).futures.length = b.futures.length ∧
    ∀ fut, b.waiter = some fut → fut < b.futures.length →
      (b.enqueue item).isDone fut = true := by
  unfold enqueue
  dsimp only
  split
  · next fut hw =>
    split
    · refine ⟨hw.symm ▸ rfl, rfl, by simp, ?_⟩
      intro fut' hfut hlt
      rw [hw, Option.some.injEq] at hfut
      exact isDone_set (b := { b with queue := b.queue ++ [item] })
        (by simp) hlt (.inl hfut)
    · next hdone =>
      refine ⟨hw.symm ▸ rfl, rfl, rfl, ?_⟩
      intro fut' hfut _
      rw [hw, Option.some.injEq] at hfut
      rw [← hfut]
      simpa [isDone] using hdone
  · next hw =>
    refine ⟨hw.symm ▸ rfl, rfl, rfl, ?_⟩
    intro fut' hfut
    rw [hw] at hfut
    cases hfut

theorem Ok.enqueue {b : Inbox μ} (h : b.Ok) (item : Address × μ) :
    (b.enqueue item).Ok := by
  obtain ⟨hw, hs, hlen, hdone⟩ := b.enqueue_spec item
  refine ⟨?_, ?_, ?_, ?_⟩
  · intro task w hsus
    rw [hs] at hsus
    rw [hw, hlen]
    exact h.held hsus
  · intro task₁ task₂ w₁ w₂ h₁ h₂
    rw [hs] at h₁ h₂
    exact h.one h₁ h₂
  · rw [hw, hs]
    exact h.busy
  · intro task w hsus _
    rw [hs] at hsus
    obtain ⟨heq, hlt⟩ := h.held hsus
    exact hdone _ heq hlt

theorem Ok.cancel {b : Inbox μ} (h : b.Ok) {task : ℕ} {w : Suspended}
    (hw : b.suspended task = some w) : (b.cancel task w).Ok := by
  unfold Inbox.cancel
  split
  · refine ⟨?_, h.one, h.busy, ?_⟩
    · intro task' w' hs
      simpa using h.held hs
    · intro task' w' hs hq
      exact isDone_set (by simp) (h.held hs).2 (.inr (h.woken hs hq))
  · -- Only the mark is new, and it is on the one task there is.
    have hback : ∀ {task' w'}, Function.update b.suspended task
        (some { w with mustCancel := true }) task' = some w' →
        task' = task ∧ w'.fut = w.fut := by
      intro task' w' hs
      by_cases heq : task' = task
      · subst heq
        rw [Function.update_self, Option.some.injEq] at hs
        exact ⟨rfl, by rw [← hs]⟩
      · rw [Function.update_of_ne heq] at hs
        exact absurd (h.one hs hw) heq
    refine ⟨?_, ?_, ?_, ?_⟩
    · intro task' w' hs
      obtain ⟨-, hfut⟩ := hback hs
      rw [hfut]
      exact h.held hw
    · intro task₁ task₂ w₁ w₂ h₁ h₂
      rw [(hback h₁).1, (hback h₂).1]
    · intro _
      exact ⟨task, _, Function.update_self ..⟩
    · intro task' w' hs hq
      obtain ⟨-, hfut⟩ := hback hs
      rw [hfut]
      exact h.woken hw hq

/-- An inbox where nobody is suspended. -/
theorem Ok.of_idle {b : Inbox μ} (hnone : ∀ task, b.suspended task = none)
    (hw : b.waiter = none) : b.Ok where
  held {task _} hs := by
    rw [hnone task] at hs
    cases hs
  one {task _ _ _} hs := by
    rw [hnone task] at hs
    cases hs
  busy hs := by
    rw [hw] at hs
    cases hs
  woken {task _} hs := by
    rw [hnone task] at hs
    cases hs

/-- `recv` from its loop head, in an inbox where nobody is suspended. -/
theorem Ok.recvLoop {b : Inbox μ} (hnone : ∀ task, b.suspended task = none)
    (hw : b.waiter = none) (task : ℕ) (mustCancel : Bool) :
    (b.recvLoop task mustCancel).1.Ok := by
  unfold Inbox.recvLoop
  split
  · exact .of_idle hnone hw
  · next hq =>
    have hback : ∀ {task' w'}, Function.update b.suspended task
        (some ⟨b.futures.length, false⟩) task' = some w' →
        task' = task ∧ w' = ⟨b.futures.length, false⟩ := by
      intro task' w' hs
      by_cases heq : task' = task
      · subst heq
        rw [Function.update_self, Option.some.injEq] at hs
        exact ⟨rfl, hs.symm⟩
      · rw [Function.update_of_ne heq, hnone] at hs
        cases hs
    refine ⟨?_, ?_, ?_, ?_⟩
    · intro task' w' hs
      obtain ⟨-, rfl⟩ := hback hs
      exact ⟨rfl, by simp [Inbox.await]⟩
    · intro task₁ task₂ w₁ w₂ h₁ h₂
      rw [(hback h₁).1, (hback h₂).1]
    · intro _
      exact ⟨task, _, Function.update_self ..⟩
    · intro task' w' _ hne
      exact absurd hq hne

theorem Ok.idle {b : Inbox μ} (h : b.Ok) (hw : b.waiter.isSome = false)
    (task : ℕ) : b.suspended task = none := by
  cases hs : b.suspended task with
  | none => rfl
  | some w =>
      rw [(h.held hs).1] at hw
      cases hw

theorem Ok.step {b b' : Inbox μ} {a : Act μ} (h : b.Ok)
    (hs : step b a = some b') : b'.Ok := by
  simp only [Inbox.step, Option.map_eq_some_iff] at hs
  obtain ⟨⟨b', out⟩, hact, rfl⟩ := hs
  cases a with
  | deliver item =>
      simp only [act, Option.some.injEq, Prod.mk.injEq] at hact
      exact hact.1 ▸ h.enqueue item
  | recv task mustCancel =>
      simp only [act] at hact
      split at hact
      · cases hact
      · simp only [Option.some.injEq, Prod.mk.injEq] at hact
        rw [← hact.1]
        unfold recv
        split
        · exact h
        · next hw =>
          have hw : b.waiter.isSome = false := by simpa using hw
          exact Ok.recvLoop (h.idle hw) (by simpa using hw) task mustCancel
  | cancel task =>
      simp only [act, Option.map_eq_some_iff, Prod.mk.injEq] at hact
      obtain ⟨w, hw, rfl, -⟩ := hact
      exact h.cancel hw
  | resume task =>
      simp only [act] at hact
      split at hact
      · next w hw =>
        split at hact
        · simp only [Option.some.injEq, Prod.mk.injEq] at hact
          rw [← hact.1]
          have hnone : ∀ task', Function.update b.suspended task none task' =
              none := by
            intro task'
            by_cases heq : task' = task
            · subst heq
              exact Function.update_self ..
            · rw [Function.update_of_ne heq]
              cases hs : b.suspended task' with
              | none => rfl
              | some w' => exact absurd (h.one hs hw) heq
          unfold resume
          dsimp only
          split
          · exact .of_idle hnone rfl
          · exact Ok.recvLoop hnone rfl task false
        · cases hact
      · cases hact

theorem run_ok {b : Inbox μ} {as : List (Act μ)}
    (h : Machine.run step init as = some b) : b.Ok :=
  Machine.run_invariant (fun hi hs => hi.step hs) init_ok h

/-! ## Over every run -/

/-- `recv` loses, duplicates and reorders nothing, never sleeps over a queued
message, and refuses a second receiver without touching the first. -/
theorem recv_faithful {b : Inbox μ} {as : List (Act μ)}
    (h : Machine.run step init as = some b) :
    Machine.outputs step returned init as ++ b.queue =
      Machine.outputs step delivered init as ∧
    (∀ task w, b.suspended task = some w → b.queue ≠ [] →
      b.waiter = some w.fut ∧ b.isDone w.fut = true) ∧
    ∀ task w task' mustCancel, b.suspended task = some w → task' ≠ task →
      b.act (.recv task' mustCancel) =
        some (b, some (.raised .concurrentRecv)) := by
  have hok := run_ok h
  refine ⟨?_, ?_, ?_⟩
  · have : Machine.outputs step returned init as ++ b.queue =
        init.queue ++ Machine.outputs step delivered init as :=
      Machine.run_balance (I := fun _ => True) (fun _ _ => trivial)
        (fun _ hs => step_queue hs) trivial h
    simpa [init] using this
  · intro task w hs hq
    exact ⟨(hok.held hs).1, hok.woken hs hq⟩
  · intro task w task' mustCancel hs hne
    have hfree : b.suspended task' = none := by
      cases hs' : b.suspended task' with
      | none => rfl
      | some w' => exact absurd (hok.one hs' hs) hne
    simp [act, recv, hfree, (hok.held hs).1]

/-- A task cancelled after its wake-up and before it resumes: the message goes
to the next call. -/
def cancelledAfterWakeUp : List (Act ℕ) :=
  [.recv 0 false, .deliver (1, 7), .cancel 0, .recv 1 false, .resume 0,
    .recv 1 false]

theorem recv_faithful_cancelledAfterWakeUp :
    Machine.outputs step returned init cancelledAfterWakeUp = [(1, 7)] ∧
    Machine.outputs step delivered init cancelledAfterWakeUp = [(1, 7)] := by
  have hrun : (Machine.run step init cancelledAfterWakeUp).isSome := by
    decide
  obtain ⟨b, hb⟩ := Option.isSome_iff_exists.mp hrun
  have hret : Machine.outputs step returned init cancelledAfterWakeUp =
      [(1, 7)] := by decide
  have hq : b.queue = [] := by
    have := congrArg (Option.map queue) hb
    exact (Option.some.inj (this.symm.trans rfl))
  refine ⟨hret, ?_⟩
  rw [← (recv_faithful hb).1, hret, hq]
  rfl

end Inbox

end Seedloop
