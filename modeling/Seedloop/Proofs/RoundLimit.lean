import Seedloop.Proofs.Deadlock
import Seedloop.Proofs.InFlight

/-!
# The round that is not looked at

`_cancel_everything` looks whether anything is pending at the start of a round,
and after its last round it does not look again. So how teardown ends depends
on how many rounds it takes to leave nothing pending: with fewer than a hundred
it returns, with more it raises what it is meant to raise, and with exactly a
hundred it raises an error that says that no task is running.

`Clears` counts the rounds. Each starts with something to cancel and ends by
itself, so what a round starts from determines the rounds after it, and a run of
`_cancel_everything` is read off it case by case. The error is told from an
equal one that a check might raise by its mark, which no round leaves.
-/

namespace Seedloop

/-- The mark of the error of running out of rounds. -/
def Mark.isExhausted {μ υ ε : Type} : Mark μ υ ε → Bool
  | .failed (.sys _ (.teardownRounds _)) => true
  | _ => false

namespace World

variable {ρ μ κ υ ε : Type} [Raisable ε] [Random ρ]

/-- A round of `_cancel_everything` that has something to cancel. -/
def cancelRound : Run ρ μ κ υ ε Unit := Exec.look fun w => do
  let pending := w.byCreation w.pendingTasks
  Exec.update (·.mark (.round pending))
  Exec.update fun w => pending.foldl cancelTask w
  Exec.update (·.limitTeardownSteps pending.length)
  Exec.update (·.gatherTasks pending)
  runUntilGathered

/-- From `w` to `w'` in `n` rounds, each with something to cancel. -/
inductive Clears : ℕ → World ρ μ κ υ ε → World ρ μ κ υ ε → Prop
  | refl (w : World ρ μ κ υ ε) : Clears 0 w w
  | round {n : ℕ} {w u w' : World ρ μ κ υ ε} (hpending : w.pendingTasks ≠ [])
      (hround : cancelRound w = (.ok (), u)) (hrest : Clears n u w') :
      Clears (n + 1) w w'

/-- `_cancel_everything` raises the error of running out of rounds. -/
def Exhausts (w : World ρ μ κ υ ε) : Prop :=
  ∃ ms, (cancelEverything w).2.log = w.log ++ ms ∧
    ∃ m ∈ ms, m.isExhausted = true

theorem cancelRounds_of_idle {w : World ρ μ κ υ ε}
    (h : w.pendingTasks = []) (n : ℕ) :
    cancelRounds (n + 1) w = (.ok (), w) := by
  have hnone : (w.byCreation w.pendingTasks).isEmpty = true := by
    simp [h, byCreation]
  simp only [cancelRounds, Exec.look, hnone, if_true]
  rfl

theorem cancelRounds_of_pending {w : World ρ μ κ υ ε}
    (h : w.pendingTasks ≠ []) (n : ℕ) :
    cancelRounds (n + 1) w = (cancelRound >>= fun _ => cancelRounds n) w := by
  have hsome : (w.byCreation w.pendingTasks).isEmpty = false := by
    rw [List.isEmpty_eq_false_iff, byCreation]
    exact fun hnil => h (hnil ▸ List.mergeSort_perm _ _).symm.eq_nil
  simp only [cancelRounds, Exec.look, hsome]
  rfl

theorem cancelRounds_of_clears {n : ℕ} {w u : World ρ μ κ υ ε}
    (h : Clears n w u) (k : ℕ) : cancelRounds (n + k) w = cancelRounds k u := by
  induction h with
  | refl => rw [Nat.zero_add]
  | @round n w u w' hpending hround hrest ih =>
      rw [Nat.add_right_comm, cancelRounds_of_pending hpending, ← ih]
      simp only [bind, hround]

/-! ## Which marks a round leaves -/

/-- From `w` to `w'` without running out of rounds. -/
def Unexhausted (w w' : World ρ μ κ υ ε) : Prop :=
  ∃ ms, w'.log = w.log ++ ms ∧ ∀ m ∈ ms, m.isExhausted = false

omit [Raisable ε] [Random ρ] in
theorem Unexhausted.of_log {w w' : World ρ μ κ υ ε} (h : w'.log = w.log) :
    Unexhausted w w' := ⟨[], by rw [h, List.append_nil], by simp⟩

omit [Raisable ε] [Random ρ] in
theorem mark_unexhausted (w : World ρ μ κ υ ε) {m : Mark μ υ ε}
    (h : m.isExhausted = false) : Unexhausted w (w.mark m) :=
  ⟨[m], rfl, by simpa using h⟩

instance : Std.Refl (Unexhausted (ρ := ρ) (μ := μ) (κ := κ) (υ := υ) (ε := ε)) :=
  ⟨fun _ => .of_log rfl⟩

omit [Raisable ε] [Random ρ] in
theorem Unexhausted.trans {w w' w'' : World ρ μ κ υ ε}
    (h : Unexhausted w w') (h' : Unexhausted w' w'') : Unexhausted w w'' := by
  obtain ⟨ms, hlog, hms⟩ := h
  obtain ⟨ms', hlog', hms'⟩ := h'
  refine ⟨ms ++ ms', ?_, List.forall_mem_append.mpr ⟨hms, hms'⟩⟩
  rw [hlog', hlog, List.append_assoc]

instance : IsTrans (World ρ μ κ υ ε) Unexhausted :=
  ⟨fun _ _ _ => Unexhausted.trans⟩

omit [Raisable ε] [Random ρ] in
theorem Turn.unexhausted {w w' : World ρ μ κ υ ε} {ms : List (Mark μ υ ε)}
    (h : Turn w ms w') : Unexhausted w w' := by
  refine ⟨ms, h.past.log, fun m hm => ?_⟩
  have hby := h.byUser m hm
  cases m with
  | failed => cases hby
  | _ => rfl

omit [Raisable ε] [Random ρ] in
theorem Checks.unexhausted {w w' : World ρ μ κ υ ε} {ms : List (Mark μ υ ε)}
    (h : Checks w ms w') : Unexhausted w w' := by
  refine ⟨ms, h.past.log, fun m hm => ?_⟩
  have hby := h.byCheck m hm
  cases m with
  | failed => cases hby
  | _ => rfl

omit [Random ρ] in
theorem CheckFails.unexhausted {w w' : World ρ μ κ υ ε} {e : Exc ε}
    (h : CheckFails w e w') : Unexhausted w w' := by
  have hend := mark_unexhausted w (m := .stepEnd w.view) rfl
  refine hend.trans ?_
  cases h with
  | aborted h =>
      obtain ⟨ms, u, hu, -, ⟨-, rfl⟩ | ⟨-, rfl⟩⟩ := h
      · exact hu.unexhausted.trans (mark_unexhausted u rfl)
      · exact hu.unexhausted.trans (mark_unexhausted u rfl)
  | failed ms u hu _ _ hw' =>
      refine hu.unexhausted.trans (.of_log ?_)
      rw [hw'.past.log, List.append_nil]
  | noteRaised ms u first hu _ hw' =>
      obtain ⟨v, hv, rfl⟩ := hw'
      have hlog : v.log = u.log := by rw [hv.past.log, List.append_nil]
      exact (hu.unexhausted.trans (.of_log hlog)).trans
        (mark_unexhausted v rfl)

omit [Raisable ε] [Random ρ] in
theorem fail_within {α : Type} {e : Exc ε}
    (h : (.failed e : Mark μ υ ε).isExhausted = false) :
    Exec.Within Unexhausted (fail e : Run ρ μ κ υ ε α) :=
  (Exec.within_update fun w => mark_unexhausted w h).bind
    fun _ => Exec.within_raise

omit [Raisable ε] [Random ρ] in
theorem takeStep_within :
    Exec.Within Unexhausted (takeStep : Run ρ μ κ υ ε Unit) := by
  refine .look fun w => (Exec.within_update fun w => .of_log rfl).bind
    fun _ => ?_
  split
  · exact Exec.within_update fun w => mark_unexhausted w rfl
  · refine fail_within ?_
    rw [makeStepError]
    split <;> rfl
  · exact Exec.within_update fun w => ⟨[.stepBegin], rfl, by
      simp [Mark.isExhausted]⟩

omit [Raisable ε] [Random ρ] in
theorem beginStep_within :
    Exec.Within Unexhausted (beginStep : Run ρ μ κ υ ε Unit) := by
  refine .look fun w => (Exec.within_update fun w => .of_log rfl).bind
    fun _ => ?_
  split
  · exact fail_within rfl
  · exact Exec.within_pure

theorem runOnce_within :
    Exec.Within Unexhausted (runOnce : Run ρ μ κ υ ε Unit) := by
  have hturns : Exec.Within Unexhausted (takeTurns : Run ρ μ κ υ ε Unit) := by
    refine .of_wp fun w => (takeTurns_turn w).mono ?_ ?_ fun _ h => h.elim
    · rintro _ v ⟨ms, hv⟩
      exact hv.unexhausted
    · rintro e v ⟨-, ms, u, hu, rfl⟩
      exact hu.unexhausted.trans (mark_unexhausted u rfl)
  have hchecks : Exec.Within Unexhausted (afterStep : Run ρ μ κ υ ε Unit) := by
    refine .of_wp fun w => (afterStep_checks w).mono ?_
      (fun _ _ h => h.unexhausted) fun _ h => h.elim
    rintro _ x ⟨⟨ms, hx, -⟩, -⟩
    exact (mark_unexhausted w rfl).trans hx.unexhausted
  have hcount : Exec.Within Unexhausted
      (Exec.update countStop : Run ρ μ κ υ ε Unit) := by
    refine Exec.within_update fun w => ?_
    obtain ⟨ms, hms, hcleared⟩ := (countStop_counted w).past
    exact ⟨ms, hms.log, fun m hm => hcleared m hm ▸ rfl⟩
  exact takeStep_within.bind fun _ => beginStep_within.bind fun _ =>
    hturns.bind fun _ => hchecks.bind fun _ => hcount

theorem runForever_within :
    Exec.Within Unexhausted (runForever : Run ρ μ κ υ ε Unit) :=
  .look fun w => (runOnce_within.doUntil w.fuel).andFinally
    (Exec.within_update fun _ => .of_log rfl)

theorem runUntilGathered_within :
    Exec.Within Unexhausted (runUntilGathered : Run ρ μ κ υ ε Unit) := by
  have hset : ∀ stops, Exec.Within Unexhausted
      (Exec.update fun w => { w with gather := { w.gather with
        stopsLoop := stops } } : Run ρ μ κ υ ε Unit) :=
    fun _ => Exec.within_update fun _ => .of_log rfl
  have hpass : Exec.Within Unexhausted
      (runUntilComplete : Run ρ μ κ υ ε Unit) := by
    refine (hset true).bind fun _ =>
      (runForever_within.andFinally (hset false)).bind fun _ => .look fun w => ?_
    split
    · exact Exec.within_pure
    · exact Exec.within_raise
  refine .look fun w => Exec.Within.whileDo (hpass.attempt.bind fun r => ?_) _
  cases r with
  | ok => exact Exec.within_pure
  | error e =>
      refine .look fun w => ?_
      split
      · exact Exec.within_raise
      · split
        · exact Exec.within_pure
        · exact Exec.within_raise
        · exact (Exec.within_update fun w => mark_unexhausted w rfl).bind
            fun _ => Exec.within_raise

theorem cancelRound_within :
    Exec.Within Unexhausted (cancelRound : Run ρ μ κ υ ε Unit) := by
  refine .look fun w => (Exec.within_update fun w => ?_).bind fun _ =>
    (Exec.within_update fun w => ?_).bind fun _ =>
    (Exec.within_update fun w => .of_log rfl).bind fun _ =>
    (Exec.within_update fun w => .of_log rfl).bind fun _ =>
    runUntilGathered_within
  · exact mark_unexhausted w rfl
  · exact (foldl_cancelTask_turn _ w).unexhausted

/-! ## The rounds -/

/-- The three ways the rounds go: they come to where nothing is pending, they
run out, or one of them raises. -/
theorem cancelRounds_cases (n : ℕ) (w : World ρ μ κ υ ε) :
    (∃ k < n, ∃ u, Clears k w u ∧ u.pendingTasks = []) ∨
    (∃ u, Clears n w u) ∨ Unexhausted w (cancelRounds n w).2 := by
  induction n generalizing w with
  | zero => exact .inr (.inl ⟨w, .refl w⟩)
  | succ n ih =>
      by_cases hpending : w.pendingTasks = []
      · exact .inl ⟨0, Nat.succ_pos n, w, .refl w, hpending⟩
      · rw [cancelRounds_of_pending hpending]
        have hwithin := cancelRound_within w
        rcases hround : cancelRound w with ⟨r, u⟩
        rw [hround] at hwithin
        cases r with
        | ok =>
            rcases ih u with ⟨k, hk, v, hv, hidle⟩ | ⟨v, hv⟩ | hun
            · exact .inl ⟨k + 1, Nat.succ_lt_succ hk, v,
                .round hpending hround hv, hidle⟩
            · exact .inr (.inl ⟨v, .round hpending hround hv⟩)
            · refine .inr (.inr ?_)
              simp only [bind, hround]
              exact hwithin.trans hun
        | raised | pending =>
            refine .inr (.inr ?_)
            simp only [bind, hround]
            exact hwithin

theorem cancelEverything_of_idle {n : ℕ} {w u : World ρ μ κ υ ε}
    (h : Clears n w u) (hidle : u.pendingTasks = [])
    (hn : n < teardownRounds) : cancelEverything w = (.ok (), u) := by
  obtain ⟨k, hk⟩ := Nat.exists_eq_add_of_lt hn
  rw [cancelEverything, hk, Nat.add_assoc, cancelRounds_of_clears h]
  exact cancelRounds_of_idle hidle k

theorem cancelEverything_of_limit {w u : World ρ μ κ υ ε}
    (h : Clears teardownRounds w u) : cancelEverything w =
      (.raised (.sys u.steps (.teardownRounds u.pendingTasks)),
        u.mark (.failed (.sys u.steps (.teardownRounds u.pendingTasks)))) :=
  cancelRounds_of_clears h 0

theorem Clears.unexhausted {n : ℕ} {w w' : World ρ μ κ υ ε}
    (h : Clears n w w') : Unexhausted w w' := by
  induction h with
  | refl w => exact .of_log rfl
  | @round n w u w' _ hround _ ih =>
      have hwithin := cancelRound_within w
      rw [hround] at hwithin
      exact hwithin.trans ih

theorem not_exhausts {w : World ρ μ κ υ ε}
    (h : Unexhausted w (cancelEverything w).2) : ¬ Exhausts w := by
  rintro ⟨ms, hlog, m, hm, hex⟩
  obtain ⟨ms', hlog', hms'⟩ := h
  rw [hlog', List.append_cancel_left_eq] at hlog
  rw [hms' m (hlog ▸ hm)] at hex
  cases hex

/-- The error of the round limit is raised only where something is pending,
and teardown returns where a hundred rounds or fewer leave nothing pending, both
exactly unless it takes the hundredth round to leave nothing pending. -/
theorem round_limit_iff (w : World ρ μ κ υ ε) :
    ((Exhausts w → (cancelEverything w).2.pendingTasks ≠ []) ↔
      ¬ ∃ u, Clears teardownRounds w u ∧ u.pendingTasks = []) ∧
    ((∀ n ≤ teardownRounds, ∀ u, Clears n w u → u.pendingTasks = [] →
        cancelEverything w = (.ok (), u)) ↔
      ¬ ∃ u, Clears teardownRounds w u ∧ u.pendingTasks = []) := by
  constructor
  · constructor
    · rintro honly ⟨u, hu, hidle⟩
      rw [cancelEverything_of_limit hu] at honly
      refine honly ?_ hidle
      obtain ⟨ms, hlog, -⟩ := hu.unexhausted
      refine ⟨ms ++ [.failed (.sys u.steps (.teardownRounds u.pendingTasks))],
        ?_, _, List.mem_append_right _ List.mem_cons_self, rfl⟩
      rw [cancelEverything_of_limit hu, mark, hlog, List.append_assoc]
    · intro hnot hex
      rcases cancelRounds_cases teardownRounds w with
        ⟨k, hk, u, hu, hidle⟩ | ⟨u, hu⟩ | hun
      · refine absurd hex (not_exhausts ?_)
        rw [cancelEverything_of_idle hu hidle hk]
        exact hu.unexhausted
      · rw [cancelEverything_of_limit hu]
        exact fun hidle => hnot ⟨u, hu, hidle⟩
      · exact absurd hex (not_exhausts hun)
  · constructor
    · rintro hreturns ⟨u, hu, hidle⟩
      have := hreturns _ le_rfl u hu hidle
      rw [cancelEverything_of_limit hu] at this
      cases this
    · intro hnot n hn u hu hidle
      refine cancelEverything_of_idle hu hidle (lt_of_le_of_ne hn ?_)
      rintro rfl
      exact hnot ⟨u, hu, hidle⟩

/-- A task that is cancelled starts another before it ends, up to a number of
rounds. -/
def spawnChain (rounds : ℕ) : List (List (List (UserOp ℕ ℕ ℕ Plain))) :=
  [[[.createTask true 1, .finish 0 .returned]], [[.await 1 [.ready 5]]], []] ++
    (List.range rounds).flatMap fun r =>
      if r + 1 < rounds then
        [[[.createTask true 1, .finish (r + 1) .cancelled]],
          [[.await (r + 2) [.ready 5]]], []]
      else [[[.finish (r + 1) .cancelled]], [], []]

/-- The scenario passes, the hundredth round leaves nothing pending, and the
run fails with an error that says so. -/
theorem spawnChain_exhausts :
    (match driven (spawnChain 100) with
      | (.raised (.sys _ e), w) => some (e, w.pendingTasks)
      | _ => none) = some (.teardownRounds [], []) := by
  decide +kernel

end World

end Seedloop
