import Seedloop.Proofs.TeardownEnds

/-!
# A drive with a step limit ends

Whatever the program does, a drive under a step limit comes to an end, and the
steps it takes on the way are budgeted: the limit itself for the scenario, the
allowance of one settling, and then what the rounds of the teardown are allowed
(`TeardownEnds`). The argument is the same in every loop. A pass takes a step
or raises, and no step is taken that does not come out of what is left; so a
loop has more turns than its allowance has steps.

The world is closed on every way out, and when the drive returns, as opposed to
raises, nothing is left that is not done.
-/

namespace Seedloop

namespace World

variable {ρ μ κ υ ε : Type}

/-- Steps were taken out of what was left of the allowance. -/
def Pays (w w' : World ρ μ κ υ ε) : Prop := ∃ ms, Spent w ms w'

theorem Pays.refl (w : World ρ μ κ υ ε) : Pays w w := ⟨[], .refl w⟩

theorem Pays.trans {w w' w'' : World ρ μ κ υ ε} (h : Pays w w')
    (h' : Pays w' w'') : Pays w w'' := by
  obtain ⟨ms, hms⟩ := h
  obtain ⟨ms', hms'⟩ := h'
  exact ⟨_, hms.trans hms'⟩

theorem Pays.left {w w' : World ρ μ κ υ ε} (h : Pays w w') {n : ℕ}
    (hn : w.stepsLeft = some n) : ∃ n' ≤ n, w'.stepsLeft = some n' := by
  obtain ⟨ms, hms⟩ := h
  obtain ⟨n', hn', hle⟩ := hms.steps n hn
  exact ⟨n', by omega, hn'⟩

theorem Passed.pays {w w' : World ρ μ κ υ ε} (h : Passed w w') :
    Pays w w' := by
  obtain ⟨ms, hms, -⟩ := h
  exact ⟨ms, hms⟩

theorem Passed.after {w w' w'' : World ρ μ κ υ ε} (h : Pays w w')
    (h' : Passed w' w'') : Passed w w'' := by
  obtain ⟨ms, hms⟩ := h
  obtain ⟨ms', hms', hone⟩ := h'
  refine ⟨_, hms.trans hms', ?_⟩
  rw [stepsIn_append]
  omega

theorem Passed.trans {w w' w'' : World ρ μ κ υ ε} (h : Passed w w')
    (h' : Pays w' w'') : Passed w w'' := by
  obtain ⟨ms, hms, hone⟩ := h
  obtain ⟨ms', hms'⟩ := h'
  refine ⟨_, hms.trans hms', ?_⟩
  rw [stepsIn_append]
  omega

/-- A pass leaves fewer steps. -/
theorem Passed.left {w w' : World ρ μ κ υ ε} (h : Passed w w') {n : ℕ}
    (hn : w.stepsLeft = some n) : ∃ n' < n, w'.stepsLeft = some n' := by
  obtain ⟨ms, hms, hone⟩ := h
  obtain ⟨n', hn', hle⟩ := hms.steps n hn
  exact ⟨n', by omega, hn'⟩

/-! ## What takes no step -/

theorem setWatch_pays (w : World ρ μ κ υ ε) (watch stopIn : Option ℕ)
    (settle : Bool) : Pays w (w.setWatch watch stopIn settle) :=
  ⟨[], .of_eq (List.append_nil _).symm (by simp) rfl rfl⟩

theorem clearHooks_pays (w : World ρ μ κ υ ε) : Pays w w.clearHooks :=
  ⟨[.cleared], .of_eq rfl (by simp [Mark.isStep, Mark.round?]) rfl rfl⟩

theorem cancelTask_pays (w : World ρ μ κ υ ε) (task : ℕ) :
    Pays w (w.cancelTask task) := ⟨[], (cancelTask_turn w task).spent⟩

variable [Raisable ε]

/-- It ends, and spends no more steps than were left. -/
def Affords {α : Type} (x : Run ρ μ κ υ ε α) (w : World ρ μ κ υ ε) : Prop :=
  Exec.wp x (fun _ => Pays w) (fun _ => Pays w) (fun _ => False) w

omit [Raisable ε] in
theorem Affords.after {α : Type} {x : Run ρ μ κ υ ε α} {w w' : World ρ μ κ υ ε}
    (h : Pays w w') (hx : Affords x w') :
    Exec.wp x (fun _ => Pays w) (fun _ => Pays w) (fun _ => False) w' :=
  hx.mono (fun _ _ => h.trans) (fun _ _ => h.trans) fun _ h => h

omit [Raisable ε] in
theorem Affords.bind {α β : Type} {x : Run ρ μ κ υ ε α}
    {f : α → Run ρ μ κ υ ε β} {w : World ρ μ κ υ ε} (hx : Affords x w)
    (hf : ∀ a t, Pays w t → Affords (f a) t) : Affords (x >>= f) w := by
  rw [Affords, Exec.wp_bind]
  exact hx.mono (fun a t ht => (hf a t ht).after ht) (fun _ _ h => h)
    fun _ h => h

omit [Raisable ε] in
theorem Affords.attempt {α : Type} {x : Run ρ μ κ υ ε α}
    {w : World ρ μ κ υ ε} (hx : Affords x w) : Affords (Exec.attempt x) w := by
  rw [Affords, Exec.wp_attempt]
  exact hx

omit [Raisable ε] in
theorem Affords.update {f : World ρ μ κ υ ε → World ρ μ κ υ ε}
    {w : World ρ μ κ υ ε} (h : Pays w (f w)) :
    Affords (Exec.update f : Run ρ μ κ υ ε Unit) w := h

omit [Raisable ε] in
theorem Affords.pure {α : Type} (a : α) (w : World ρ μ κ υ ε) :
    Affords (Pure.pure a : Run ρ μ κ υ ε α) w := Pays.refl w

omit [Raisable ε] in
theorem Affords.raise {α : Type} (e : Exc ε) (w : World ρ μ κ υ ε) :
    Affords (Exec.raise e : Run ρ μ κ υ ε α) w := Pays.refl w

variable [DecidableEq ε]

omit [DecidableEq ε] in
/-- Notes take no step, nor does what gets out of one. -/
theorem Affords.of_annotated {x : Run ρ μ κ υ ε Unit} {w : World ρ μ κ υ ε}
    (h : Exec.wp x (fun _ w' => Annotated w w') (Escapes w) (fun _ => False)
      w) : Affords x w := by
  have hpays : ∀ {w w' : World ρ μ κ υ ε}, Annotated w w' → Pays w w' := by
    rintro w _ ⟨notes, rfl⟩
    exact ⟨[], .of_eq (List.append_nil _).symm (by simp) rfl rfl⟩
  refine h.mono (fun _ _ => hpays) ?_ fun _ h => h
  rintro e _ ⟨-, u, hu, rfl⟩
  exact (hpays hu).trans ⟨_, mark_spent u rfl rfl⟩

theorem secondary_affords {w : World ρ μ κ υ ε} {x : Run ρ μ κ υ ε Unit}
    (hx : Affords x w) (failure : Option (Exc ε)) :
    Affords (secondary failure x) w := by
  unfold secondary
  refine hx.attempt.bind fun r t _ => ?_
  cases r with
  | ok a => exact .pure () t
  | error e =>
      dsimp only
      split
      · cases failure with
        | none => exact .raise e t
        | some failure => exact .of_annotated (noteError_annotated failure e t)
      · exact .raise e t

variable [Random ρ]

/-! ## The loops of the drive -/

omit [DecidableEq ε] in
theorem runForever_affords {w : World ρ μ κ υ ε} {n : ℕ}
    (hn : w.stepsLeft = some n) :
    Exec.wp runForever (fun _ => Passed w) (fun _ => Pays w)
      (fun _ => False) w := by
  refine (runForever_passed hn).mono (fun _ _ h => h) ?_ fun _ h => h
  rintro e t ⟨ms, hms, -⟩
  exact ⟨ms, hms⟩

omit [DecidableEq ε] in
theorem runUntilDone_affords {w : World ρ μ κ υ ε} {n : ℕ}
    (hn : w.stepsLeft = some n) (fut : ℕ) (settle : Bool) :
    Exec.wp (runUntilDone fut settle) (fun _ => Passed w) (fun _ => Pays w)
      (fun _ => False) w := by
  have hwatch := setWatch_pays w (some fut) none settle
  rw [runUntilDone, Exec.wp_bind, Exec.wp_update, Exec.wp_andFinally]
  simp only [Exec.wp_update]
  rw [Exec.wp_bind]
  refine (runForever_affords (w := w.setWatch (some fut) none settle)
    hn).mono ?_ ?_ fun _ h => h
  · intro _ t ht
    have hpassed := ht.after hwatch
    rw [Exec.wp_look_apply]
    split
    · -- The future is done before its stop steps are: they are taken now.
      obtain ⟨m, -, hm⟩ := hpassed.left hn
      have hrest : ∀ u : World ρ μ κ υ ε, Pays t u → Exec.wp (do
            Exec.update fun w => { w with stopIn := some 1 }
            runForever)
          (fun _ v => Passed w (v.setWatch none none false))
          (fun _ v => Pays w (v.setWatch none none false))
          (fun _ => False) u := by
        intro u hu
        have hstop : Pays u { u with stopIn := some 1 } :=
          ⟨[], .of_eq (List.append_nil _).symm (by simp) rfl rfl⟩
        obtain ⟨k, -, hk⟩ := (hu.trans hstop).left hm
        rw [Exec.wp_bind, Exec.wp_update]
        refine (runForever_affords hk).mono ?_ ?_ fun _ h => h
        · intro _ v hv
          exact (hpassed.trans (hu.trans hstop)).trans
            (hv.pays.trans (setWatch_pays v _ _ _))
        · intro _ v hv
          exact hpassed.pays.trans ((hu.trans hstop).trans
            (hv.trans (setWatch_pays v _ _ _)))
      split
      · rw [Exec.wp_bind]
        exact hrest _ (clearHooks_pays t)
      · exact hrest _ (.refl t)
    · exact hpassed.trans (setWatch_pays t _ _ _)
  · intro _ t ht
    exact hwatch.trans (ht.trans (setWatch_pays t _ _ _))

omit [DecidableEq ε] in
theorem runOneMoreStep_affords {w : World ρ μ κ υ ε} {n : ℕ}
    (hn : w.stepsLeft = some n) (fut : ℕ) :
    Affords (runOneMoreStep fut) w := by
  have hwatch := setWatch_pays w (some fut) (some 1) false
  rw [Affords, runOneMoreStep, Exec.wp_bind, Exec.wp_update, Exec.wp_andFinally]
  simp only [Exec.wp_update]
  refine (runForever_affords (w := w.setWatch (some fut) (some 1) false)
    hn).mono ?_ ?_ fun _ h => h
  · intro _ t ht
    exact hwatch.trans (ht.pays.trans (setWatch_pays t _ _ _))
  · intro _ t ht
    exact hwatch.trans (ht.trans (setWatch_pays t _ _ _))

omit [DecidableEq ε] in
/-- The scenario's task is run until it is done: every pass takes a step. -/
theorem unwind_affords {w : World ρ μ κ υ ε} {n : ℕ}
    (hn : w.stepsLeft = some n) : Affords (Exec.look fun w =>
      Exec.whileDo (fun w => !w.done mainTask) (runUntilDone mainTask false)
        w.fuel) w := by
  rw [Affords, Exec.wp_look_apply]
  have hfuel : w.fuel = n + 1 := by rw [fuel, hn]
  rw [hfuel]
  refine Exec.wp_whileDo
    (I := fun k t => Pays w t ∧ ∃ m < k, t.stepsLeft = some m)
    ?_ ?_ (fun k s hs _ => hs.1) _ ⟨.refl w, n, Nat.lt_succ_self n, hn⟩
  · rintro k s ⟨hws, m, hlt, hm⟩ -
    refine (runUntilDone_affords hm mainTask false).mono ?_
      (fun _ t ht => hws.trans ht) fun _ h => h
    intro _ t ht
    obtain ⟨m', hlt', hm'⟩ := ht.left hm
    exact ⟨hws.trans ht.pays, m', by omega, hm'⟩
  · rintro s ⟨-, m, hlt, -⟩
    omega

/-! ## The drive -/

/-- At most `b` steps, and no round. -/
structure Costs (b : ℕ) (w w' : World ρ μ κ υ ε) : Prop where
  log : ∃ ms, w'.log = w.log ++ ms ∧ roundsIn ms = [] ∧ stepsIn ms ≤ b

omit [Raisable ε] [DecidableEq ε] [Random ρ] in
theorem Pays.costs {w w' : World ρ μ κ υ ε} (h : Pays w w') {n : ℕ}
    (hn : w.stepsLeft = some n) : Costs n w w' := by
  obtain ⟨ms, hms⟩ := h
  obtain ⟨n', -, hle⟩ := hms.steps n hn
  exact ⟨ms, hms.log, hms.rounds, by omega⟩

omit [Raisable ε] [DecidableEq ε] [Random ρ] in
theorem Costs.trans {b b' : ℕ} {w w' w'' : World ρ μ κ υ ε}
    (h : Costs b w w') (h' : Costs b' w' w'') : Costs (b + b') w w'' := by
  obtain ⟨ms, hlog, hrounds, hsteps⟩ := h.log
  obtain ⟨ms', hlog', hrounds', hsteps'⟩ := h'.log
  refine ⟨ms ++ ms', ?_, ?_, ?_⟩
  · rw [hlog', hlog, List.append_assoc]
  · rw [roundsIn_append, hrounds, hrounds']
    rfl
  · rw [stepsIn_append]
    omega

omit [DecidableEq ε] in
theorem runScenario_affords {w : World ρ μ κ υ ε} {n : ℕ}
    (hn : w.stepsLeft = some n) : Affords runScenario w := by
  have hdone : Affords (runUntilDone mainTask true) w :=
    (runUntilDone_affords hn mainTask true).mono
      (fun _ _ h => h.pays) (fun _ _ h => h) fun _ h => h
  refine hdone.bind fun _ t _ => ?_
  show Exec.wp _ _ _ _ t
  rw [Exec.wp_look_apply]
  split
  · exact .refl t
  · exact ⟨[.failed _], .of_eq rfl (by simp [Mark.isStep, Mark.round?]) rfl
      rfl⟩

/-- Settling the scenario has an allowance of its own. -/
theorem settleScenario_costs (failure : Option (Exc ε))
    (w : World ρ μ κ υ ε) : Exec.wp (settleScenario failure)
      (fun _ => Costs teardownSteps w) (fun _ => Costs teardownSteps w)
      (fun _ => False) w := by
  generalize hu : (w.limitTeardownSteps 0).mark (.settling failure) = u
  have hleft : u.stepsLeft = some teardownSteps := by
    rw [← hu]
    rfl
  have hcost : ∀ t, Pays u t → Costs teardownSteps w t := by
    intro t ht
    have hmark : Costs 0 w u := ⟨[.settling failure], by rw [← hu]; rfl, rfl,
      le_rfl⟩
    have := hmark.trans (ht.costs hleft)
    rwa [Nat.zero_add] at this
  suffices Exec.wp (settleScenario failure) (fun _ => Pays u)
      (fun _ => Pays u) (fun _ => False) w from
    this.mono (fun _ t => hcost t) (fun _ t => hcost t) fun _ h => h
  rw [settleScenario, Exec.wp_bind, Exec.wp_update]
  show Exec.wp _ _ _ _ ((w.limitTeardownSteps 0).mark (.settling failure))
  rw [hu]
  extract_lets unwind
  have hunwind : ∀ v, Pays u v → Exec.wp (unwind ()) (fun _ => Pays u)
      (fun _ => Pays u) (fun _ => False) v := by
    intro v hv
    obtain ⟨n, -, hn⟩ := hv.left hleft
    refine Affords.after hv ?_
    show Exec.wp _ _ _ _ v
    rw [Exec.wp_look_apply]
    split
    · have hcancelled : Affords (Exec.update (·.cancelTask mainTask) :
          Run ρ μ κ υ ε Unit) v := .update (cancelTask_pays v mainTask)
      refine hcancelled.bind fun _ t ht => ?_
      obtain ⟨k, -, hk⟩ := ht.left hn
      exact (secondary_affords (unwind_affords hk) failure).bind
        fun _ t' _ => .of_annotated (noteUnwound_annotated failure t')
    · split
      · exact secondary_affords (runOneMoreStep_affords hn mainTask) failure
      · exact .refl v
  split
  · rw [Exec.wp_bind, Exec.wp_update]
    exact hunwind _ (clearHooks_pays u)
  · exact hunwind _ (.refl u)

omit [DecidableEq ε] [Random ρ] in
theorem costs_of_annotated {x : Run ρ μ κ υ ε Unit} {w : World ρ μ κ υ ε}
    (h : Exec.wp x (fun _ w' => Annotated w w') (Escapes w) (fun _ => False)
      w) :
    Exec.wp x (fun _ => Costs 0 w) (fun _ => Costs 0 w) (fun _ => False) w := by
  refine h.mono ?_ ?_ fun _ h => h
  · rintro _ _ ⟨notes, rfl⟩
    exact ⟨[], (List.append_nil _).symm, rfl, le_rfl⟩
  · rintro e _ ⟨-, _, ⟨notes, rfl⟩, rfl⟩
    exact ⟨[.noteRaised e], rfl, rfl, le_rfl⟩

omit [Raisable ε] [DecidableEq ε] [Random ρ] in
/-- What the scenario came to is asked for, and nothing changes. -/
theorem result_same (ran : Except (Exc ε) Unit) (w : World ρ μ κ υ ε) :
    Exec.wp (do
        Exec.reraise ran
        mainResult
        nodeFailures : Run ρ μ κ υ ε Unit)
      (fun _ t => t = w) (fun _ t => t = w) (fun _ => False) w := by
  have hmain : Exec.wp (mainResult : Run ρ μ κ υ ε Unit) (fun _ t => t = w)
      (fun _ t => t = w) (fun _ => False) w := by
    rw [mainResult, Exec.wp_look_apply]
    split <;> rfl
  have hnodes : Exec.wp (nodeFailures : Run ρ μ κ υ ε Unit) (fun _ t => t = w)
      (fun _ t => t = w) (fun _ => False) w := by
    rw [nodeFailures, Exec.wp_look_apply]
    split <;> rfl
  cases ran with
  | error e => exact rfl
  | ok a =>
      show Exec.wp (mainResult >>= fun _ => nodeFailures) _ _ _ w
      rw [Exec.wp_bind]
      refine hmain.mono ?_ (fun _ _ h => h) fun _ h => h
      rintro _ t rfl
      exact hnodes

/-- Everything between the scenario and the teardown. -/
theorem surface_costs (ran : Except (Exc ε) Unit) (w : World ρ μ κ υ ε) :
    Exec.wp (surface ran)
      (fun r u => Costs teardownSteps w u ∧ (r.2 = .ok () → r.1 = none))
      (fun _ _ => False) (fun _ => False) w := by
  have hrun : Exec.wp (settleRun ran) (fun _ => Costs teardownSteps w)
      (fun _ => Costs teardownSteps w) (fun _ => False) w := by
    rw [settleRun, Exec.wp_bind]
    refine (settleScenario_costs ran.error? w).mono ?_ (fun _ _ h => h)
      fun _ h => h
    intro _ t ht
    refine (result_same ran t).mono ?_ ?_ fun _ h => h
    · rintro _ u rfl
      exact ht
    · rintro e u rfl
      exact ht
  rw [surface, Exec.wp_bind, Exec.wp_attempt]
  refine hrun.mono (fun _ t ht => ⟨ht, fun _ => rfl⟩) ?_ fun _ h => h
  intro e t ht
  dsimp only
  rw [Exec.wp_bind, Exec.wp_attempt]
  exact (costs_of_annotated (noteReplaced_annotated ran.error? e t)).mono
    (fun _ u hu => ⟨ht.trans hu, by rintro ⟨⟩⟩)
    (fun _ u hu => ⟨ht.trans hu, by rintro ⟨⟩⟩) fun _ h => h

/-! ## Teardown -/

omit [Raisable ε] [DecidableEq ε] [Random ρ] in
theorem Rounds.after {b k : ℕ} {w w' w'' : World ρ μ κ υ ε}
    {ms : List (Mark μ υ ε)} (h : Costs b w w') (h' : Rounds w' ms k w'') :
    ∃ ms', w''.log = w.log ++ ms' ∧ (roundsIn ms').length ≤ k ∧
      stepsIn ms' ≤ b + allowance (roundsIn ms') := by
  obtain ⟨pre, hpre, hrounds, hsteps⟩ := h.log
  refine ⟨pre ++ ms, ?_, ?_, ?_⟩
  · rw [h'.log, hpre, List.append_assoc]
  · rw [roundsIn_append, hrounds, List.nil_append]
    exact h'.rounds
  · rw [roundsIn_append, hrounds, List.nil_append, stepsIn_append]
    have := h'.steps
    omega

/-- Within the rounds of the teardown. -/
def InRounds (w w' : World ρ μ κ υ ε) : Prop :=
  ∃ ms, w'.log = w.log ++ ms ∧ (roundsIn ms).length ≤ teardownRounds ∧
    stepsIn ms ≤ allowance (roundsIn ms)

omit [Raisable ε] [DecidableEq ε] [Random ρ] in
theorem InRounds.trans {w w' w'' : World ρ μ κ υ ε} (h : InRounds w w')
    (h' : Costs 0 w' w'') : InRounds w w'' := by
  obtain ⟨ms, hms, hrounds, hsteps⟩ := h
  obtain ⟨ms', hms', hnone, hzero⟩ := h'.log
  refine ⟨ms ++ ms', ?_, ?_, ?_⟩
  · rw [hms', hms, List.append_assoc]
  · rw [roundsIn_append, hnone, List.append_nil]
    exact hrounds
  · rw [roundsIn_append, hnone, List.append_nil, stepsIn_append]
    omega

/-- The teardown, which leaves nothing pending unless it has a failure to
keep. -/
theorem tearDown_torn (failure : Option (Exc ε)) (w : World ρ μ κ υ ε) :
    Exec.wp (tearDown failure)
      (fun _ w' => InRounds w w' ∧ (failure = none → w'.pendingTasks = []))
      (fun _ => InRounds w) (fun _ => False) w := by
  have hcancel : ∀ u : World ρ μ κ υ ε, Costs 0 w u →
      Exec.wp (secondary failure cancelEverything)
        (fun _ w' => InRounds w w' ∧ (failure = none → w'.pendingTasks = []))
        (fun _ => InRounds w) (fun _ => False) u := by
    intro u hu
    have htorn : ∀ ms t, Rounds u ms teardownRounds t → InRounds w t := by
      intro ms t ht
      obtain ⟨ms', hlog, hrounds, hsteps⟩ := ht.after hu
      rw [Nat.zero_add] at hsteps
      exact ⟨ms', hlog, hrounds, hsteps⟩
    rw [secondary, Exec.wp_bind, Exec.wp_attempt]
    refine (cancelEverything_ends u).mono ?_ ?_ fun _ h => h
    · rintro _ t ⟨⟨ms, hms⟩, hpending⟩
      exact ⟨htorn ms t hms, fun _ => hpending⟩
    · rintro e t ⟨ms, hms, -⟩
      have ht := htorn ms t hms
      dsimp only
      split
      · cases failure with
        | none => exact ht
        | some failure =>
            exact (costs_of_annotated (noteError_annotated failure e t)).mono
              (fun _ _ h => ⟨ht.trans h, by rintro ⟨⟩⟩) (fun _ _ => ht.trans)
              fun _ h => h
      · exact ht
  have hmark : ∀ u : World ρ μ κ υ ε, Costs 0 w u → Exec.wp (do
        Exec.update fun w => mark { w with tearingDown := true }
          (.tearingDown failure w.pendingTasks)
        secondary failure cancelEverything)
      (fun _ w' => InRounds w w' ∧ (failure = none → w'.pendingTasks = []))
      (fun _ => InRounds w) (fun _ => False) u := by
    intro u hu
    have hmark : Costs 0 u (mark { u with tearingDown := true }
        (.tearingDown failure u.pendingTasks)) := ⟨[_], rfl, rfl, le_rfl⟩
    rw [Exec.wp_bind, Exec.wp_update]
    exact hcancel _ (hu.trans hmark)
  unfold tearDown
  rw [Exec.wp_bind, Exec.wp_attempt]
  have htry : Exec.wp (do
        if failure.isSome then Exec.update clearHooks else pure ()
        Exec.update fun w => mark { w with tearingDown := true }
          (.tearingDown failure w.pendingTasks)
        secondary failure cancelEverything : Run ρ μ κ υ ε Unit)
      (fun _ w' => InRounds w w' ∧ (failure = none → w'.pendingTasks = []))
      (fun _ => InRounds w) (fun _ => False) w := by
    split
    · rw [Exec.wp_bind]
      exact hmark _ ⟨[.cleared], rfl, rfl, le_rfl⟩
    · exact hmark _ ⟨[], (List.append_nil _).symm, rfl, le_rfl⟩
  refine htry.mono (fun _ _ h => h) ?_ fun _ h => h
  intro e t ht
  dsimp only
  rw [Exec.wp_bind]
  exact (costs_of_annotated (noteReplaced_annotated failure e t)).mono
    (fun _ _ => ht.trans) (fun _ _ => ht.trans) fun _ h => h

/-- The steps of a whole drive, against what its parts are allowed. -/
def Budgeted (n : ℕ) (w : World ρ μ κ υ ε) : Prop :=
  (roundsIn w.log).length ≤ teardownRounds ∧
    stepsIn w.log ≤ n + teardownSteps + allowance (roundsIn w.log)

theorem drive_budgeted (netRng faultsRng : ρ) (user : υ) (n : ℕ)
    (script : ℕ → List (List (UserOp μ κ υ ε))) (horizon : ℕ) (main : κ) :
    Exec.wp (drive main)
      (fun _ w => w.closed = true ∧ w.pendingTasks = [] ∧ Budgeted n w)
      (fun _ w => w.closed = true ∧ Budgeted n w)
      (fun _ => False)
      (.init netRng faultsRng user (some n) script horizon) := by
  generalize hw : createTask (limitSteps (init netRng faultsRng user (some n)
    script horizon : World ρ μ κ υ ε) (init netRng faultsRng user (some n)
      script horizon : World ρ μ κ υ ε).maxSteps .livelock) true main = w
  have hlog : w.log = [] := by
    rw [← hw]
    rfl
  have hleft : w.stepsLeft = some n := by
    rw [← hw]
    rfl
  have hbudget : ∀ t u v, Pays w t → Costs teardownSteps t u →
      InRounds u v → Budgeted n v := by
    intro t u v ht hu ⟨ms, hms, hrounds, hsteps⟩
    obtain ⟨pre, hpre, hpreRounds, hpreSteps⟩ := ((ht.costs hleft).trans hu).log
    rw [hlog, List.nil_append] at hpre
    rw [Budgeted, hms, hpre, roundsIn_append, hpreRounds, List.nil_append,
      stepsIn_append]
    omega
  unfold drive
  rw [Exec.wp_bind, Exec.wp_update]
  show Exec.wp _ _ _ _ _
  rw [Exec.wp_bind, Exec.wp_update]
  show Exec.wp _ _ _ _ (createTask _ true main)
  rw [hw, Exec.wp_bind]
  have hran : Exec.wp (Exec.attempt runScenario) (fun _ => Pays w)
      (fun _ _ => False) (fun _ => False) w := by
    rw [Exec.wp_attempt]
    exact runScenario_affords hleft
  refine hran.mono ?_ (fun _ _ h => h.elim) fun _ h => h
  intro ran t ht
  rw [Exec.wp_bind]
  refine (surface_costs ran t).mono ?_ (fun _ _ h => h.elim) fun _ h => h
  rintro ⟨failure, surfaced⟩ u ⟨hu, hpassed⟩
  dsimp only
  rw [Exec.wp_bind, Exec.wp_andFinally]
  refine (tearDown_torn failure u).mono ?_ ?_ fun _ h => h
  · rintro _ v ⟨hv, hpending⟩
    cases surfaced with
    | ok a => exact ⟨rfl, hpending (hpassed rfl), hbudget t u v ht hu hv⟩
    | error e => exact ⟨rfl, hbudget t u v ht hu hv⟩
  · intro _ v hv
    exact ⟨rfl, hbudget t u v ht hu hv⟩

end World

end Seedloop
