import Seedloop.Proofs.Steps

/-!
# Teardown ends

Three loops are nested in `_cancel_everything`: the rounds, the passes of a
round, and the steps of a pass. The steps of all the passes of a round draw on
one allowance, which only the next round sets anew; a pass takes at least one
step or raises what ends the round; and there are a hundred rounds. So none of
the loops is ever cut off, whatever the tasks do, and how many steps a round
takes is bounded by its own allowance, which depends on how many tasks it
cancels.

A `loop.stop()` of user code ends a pass early. That is an error of
`run_until_complete`, and the only one that is taken for what it is and tried
again.
-/

namespace Seedloop

/-- The tasks that a round cancels. -/
def Mark.round? {μ υ ε : Type} : Mark μ υ ε → Option (List ℕ)
  | .round cancelled => some cancelled
  | _ => none

def Mark.isStep {μ υ ε : Type} : Mark μ υ ε → Bool
  | .stepBegin => true
  | _ => false

theorem Exc.saysStopped_kind {ε : Type} [Raisable ε] {e : Exc ε}
    (h : e.saysStopped ≠ .ok false) : e.kind = .exception := by
  cases e with
  | user e =>
      rw [saysStopped] at h
      split at h
      · next hkind => exact hkind.1
      · exact absurd rfl h
  | sys n error =>
      cases error with
      | loopStopped => rfl
      | _ => exact absurd rfl h

namespace World

variable {ρ μ κ υ ε : Type}

/-- The steps in a part of the log. -/
def stepsIn (ms : List (Mark μ υ ε)) : ℕ := ms.countP Mark.isStep

/-- The rounds in a part of the log. -/
def roundsIn (ms : List (Mark μ υ ε)) : List (List ℕ) :=
  ms.filterMap Mark.round?

@[simp] theorem stepsIn_append (ms ms' : List (Mark μ υ ε)) :
    stepsIn (ms ++ ms') = stepsIn ms + stepsIn ms' :=
  List.countP_append

@[simp] theorem roundsIn_append (ms ms' : List (Mark μ υ ε)) :
    roundsIn (ms ++ ms') = roundsIn ms ++ roundsIn ms' :=
  List.filterMap_append

/-- Marks that are neither steps nor rounds. -/
theorem quiet_marks {ms : List (Mark μ υ ε)}
    (h : ∀ m ∈ ms, m.isStep = false ∧ m.round? = none) :
    stepsIn ms = 0 ∧ roundsIn ms = [] := by
  constructor
  · rw [stepsIn, List.countP_eq_zero]
    intro m hm
    rw [(h m hm).1]
    simp
  · rw [roundsIn, List.filterMap_eq_nil_iff]
    exact fun m hm => (h m hm).2

/-! ## What a round spends -/

/-- From `w` to `w'` within a round: its steps come out of the allowance. -/
structure Spent (w : World ρ μ κ υ ε) (ms : List (Mark μ υ ε))
    (w' : World ρ μ κ υ ε) : Prop where
  log : w'.log = w.log ++ ms
  rounds : roundsIn ms = []
  steps : ∀ n, w.stepsLeft = some n →
    ∃ n', w'.stepsLeft = some n' ∧ stepsIn ms + n' ≤ n
  stepError : w'.stepError = w.stepError

theorem Spent.of_eq {w w' : World ρ μ κ υ ε} {ms : List (Mark μ υ ε)}
    (hlog : w'.log = w.log ++ ms)
    (hms : ∀ m ∈ ms, m.isStep = false ∧ m.round? = none)
    (hleft : w'.stepsLeft = w.stepsLeft)
    (herror : w'.stepError = w.stepError) : Spent w ms w' := by
  obtain ⟨hsteps, hrounds⟩ := quiet_marks hms
  refine ⟨hlog, hrounds, fun n hn => ⟨n, hleft.trans hn, ?_⟩, herror⟩
  rw [hsteps]
  omega

theorem Spent.refl (w : World ρ μ κ υ ε) : Spent w [] w :=
  .of_eq (List.append_nil _).symm (by simp) rfl rfl

theorem Spent.trans {w w' w'' : World ρ μ κ υ ε} {ms ms' : List (Mark μ υ ε)}
    (h : Spent w ms w') (h' : Spent w' ms' w'') : Spent w (ms ++ ms') w'' := by
  refine ⟨?_, ?_, fun n hn => ?_, h'.stepError.trans h.stepError⟩
  · rw [h'.log, h.log, List.append_assoc]
  · rw [roundsIn_append, h.rounds, h'.rounds]
    rfl
  · obtain ⟨n', hn', hle⟩ := h.steps n hn
    obtain ⟨n'', hn'', hle'⟩ := h'.steps n' hn'
    refine ⟨n'', hn'', ?_⟩
    rw [stepsIn_append]
    omega

theorem Turn.spent {w w' : World ρ μ κ υ ε} {ms : List (Mark μ υ ε)}
    (h : Turn w ms w') : Spent w ms w' := by
  refine .of_eq h.past.log (fun m hm => ?_)
    (congrArg Settings.stepsLeft h.settings)
    (congrArg Settings.stepError h.settings)
  have hby := h.byUser m hm
  cases m with
  | always | installed | stop | started | finished => exact ⟨rfl, rfl⟩
  | _ => cases hby

theorem Checks.spent {w w' : World ρ μ κ υ ε} {ms : List (Mark μ υ ε)}
    (h : Checks w ms w') : Spent w ms w' := by
  refine .of_eq h.past.log (fun m hm => ?_)
    (congrArg Settings.stepsLeft h.settings)
    (congrArg Settings.stepError h.settings)
  have hby := h.byCheck m hm
  cases m with
  | evaluated | checkFailed => exact ⟨rfl, rfl⟩
  | _ => cases hby

theorem mark_spent (w : World ρ μ κ υ ε) {m : Mark μ υ ε}
    (hstep : m.isStep = false) (hround : m.round? = none) :
    Spent w [m] (w.mark m) := by
  refine .of_eq rfl (fun m' hm' => ?_) rfl rfl
  rw [List.mem_singleton] at hm'
  exact hm' ▸ ⟨hstep, hround⟩

theorem Annotated.spent {w w' : World ρ μ κ υ ε} (h : Annotated w w') :
    Spent w [] w' := by
  obtain ⟨notes, rfl⟩ := h
  exact .of_eq (List.append_nil _).symm (by simp) rfl rfl

theorem Counted.spent {w w' : World ρ μ κ υ ε} (h : Counted w w') :
    ∃ ms, Spent w ms w' := by
  obtain ⟨ms, hpast, hms⟩ := h.past
  refine ⟨ms, .of_eq hpast.log (fun m hm => ?_)
    (congrArg Settings.stepsLeft h.settings)
    (congrArg Settings.stepError h.settings)⟩
  rw [hms m hm]
  exact ⟨rfl, rfl⟩

theorem Begun.spent {w w' : World ρ μ κ υ ε} (h : Begun w w') :
    Spent w [.stepBegin] w' := by
  refine ⟨h.past.log, rfl, fun n hn => ?_,
    congrArg Settings.stepError h.settings⟩
  have hleft : w'.stepsLeft = w.stepsLeft.map (· - 1) :=
    congrArg Settings.stepsLeft h.settings
  have hallowed := h.allowed
  rw [hn] at hleft hallowed
  refine ⟨n - 1, hleft, ?_⟩
  have hpos : n ≠ 0 := fun h0 => hallowed (by rw [h0])
  have hone : stepsIn ([.stepBegin] : List (Mark μ υ ε)) = 1 := rfl
  omega

theorem Stepped.spent {w w' : World ρ μ κ υ ε} (h : Stepped w w') :
    ∃ ms, Spent w ms w' ∧ 1 ≤ stepsIn ms := by
  obtain ⟨b, ms, v, x, hb, hv, ⟨ms', hx, -⟩, -, rfl⟩ := h
  obtain ⟨ms'', hcount⟩ := (countStop_counted x).spent
  refine ⟨_, (((hb.spent.trans hv.spent).trans
    (mark_spent v rfl rfl)).trans hx.spent).trans hcount, ?_⟩
  have hone : stepsIn ([.stepBegin] : List (Mark μ υ ε)) = 1 := rfl
  simp only [stepsIn_append, hone]
  omega

variable [Raisable ε]

/-- What ends a teardown, or has a failed check behind it. -/
def Reason (ms : List (Mark μ υ ε)) (e : Exc ε) : Prop :=
  (∃ f, .checkFailed f ∈ ms) ∨ e.kind = .interrupt ∨
    (∃ n blocked, e = .sys n (.deadlock blocked)) ∨
    (∃ n running, e = .sys n (.teardown running))

theorem Reason.append {ms : List (Mark μ υ ε)} {e : Exc ε}
    (h : Reason ms e) (pre : List (Mark μ υ ε)) : Reason (pre ++ ms) e := by
  rcases h with ⟨f, hf⟩ | h
  · exact .inl ⟨f, List.mem_append_right _ hf⟩
  · exact .inr h

/-- What is asked for its text and has none to give was raised by a check. -/
theorem Reason.of_text {ms : List (Mark μ υ ε)} {e exc : Exc ε}
    (h : Reason ms e) (htext : e.saysStopped = .error exc) :
    Reason (ms ++ [.noteRaised exc]) exc := by
  rcases h with ⟨f, hf⟩ | hkind | ⟨n, blocked, rfl⟩ | ⟨n, running, rfl⟩
  · exact .inl ⟨f, List.mem_append_left _ hf⟩
  · rw [Exc.saysStopped_kind (by simp [htext])] at hkind
    cases hkind
  · cases htext
  · cases htext

/-- How a step or a pass of a round raises. -/
def Ends (w : World ρ μ κ υ ε) (e : Exc ε) (w' : World ρ μ κ υ ε) : Prop :=
  ∃ ms, Spent w ms w' ∧ (1 ≤ stepsIn ms ∨ e.saysStopped = .ok false) ∧
    (w.stepError = .teardown → Reason ms e)

theorem Ends.after {w w' w'' : World ρ μ κ υ ε} {ms : List (Mark μ υ ε)}
    {e : Exc ε} (h : Spent w ms w') (h' : Ends w' e w'') : Ends w e w'' := by
  obtain ⟨ms', hspent, hsteps, hreason⟩ := h'
  refine ⟨_, h.trans hspent, ?_, fun herror => ?_⟩
  · rw [stepsIn_append]
    exact hsteps.imp (fun h => by omega) id
  · exact (hreason (h.stepError.trans herror)).append ms

theorem CheckFails.ends {w w' : World ρ μ κ υ ε} {e : Exc ε}
    (h : CheckFails w e w') : ∃ ms, Spent w ms w' ∧ Reason ms e := by
  have hend : Spent w [.stepEnd w.view] (w.mark (.stepEnd w.view)) :=
    mark_spent w rfl rfl
  -- A failure among what the checks leave is a failed check.
  have hfailed : ∀ ms u f, Checks (w.mark (.stepEnd w.view)) ms u →
      f ∈ failures ms → .checkFailed f ∈ ms := by
    intro ms u f hu hf
    obtain ⟨m, hm, hmf⟩ := List.mem_filterMap.mp hf
    have hby := hu.byCheck m hm
    cases m with
    | checkFailed e =>
        cases hmf
        exact hm
    | evaluated => cases hmf
    | _ => cases hby
  cases h with
  | aborted h =>
      obtain ⟨ms, u, hu, -, ⟨hkind, rfl⟩ | ⟨-, rfl⟩⟩ := h
      · exact ⟨_, (hend.trans hu.spent).trans (mark_spent u rfl rfl),
          .inr (.inl hkind)⟩
      · exact ⟨_, (hend.trans hu.spent).trans (mark_spent u rfl rfl),
          .inl ⟨e, List.mem_append_right _ List.mem_cons_self⟩⟩
  | failed ms u hu hms hkind hw' =>
      refine ⟨_, (hend.trans hu.spent).trans hw'.spent, .inl ⟨e, ?_⟩⟩
      have := hfailed ms u e hu (by rw [hms]; exact List.mem_cons_self)
      simp [this]
  | noteRaised ms u first hu hms hw' =>
      obtain ⟨v, hv, rfl⟩ := hw'
      refine ⟨_, ((hend.trans hu.spent).trans hv.spent).trans
        (mark_spent v rfl rfl), .inl ⟨first, ?_⟩⟩
      have := hfailed ms u first hu (by rw [hms]; exact List.mem_cons_self)
      simp [this]

theorem StepRaises.ends {w w' : World ρ μ κ υ ε} {e : Exc ε}
    (h : StepRaises w e w') : Ends w e w' := by
  cases h with
  | limit hleft he hw' hsettings =>
      refine ⟨[.failed e], .of_eq hw'.log
        (by simp [Mark.isStep, Mark.round?])
        (congrArg Settings.stepsLeft hsettings)
        (congrArg Settings.stepError hsettings), .inr ?_, fun herror => ?_⟩
      · rw [he, makeStepError]
        split <;> rfl
      · have herr : w.makeStepError = .teardown w.pendingTasks := by
          rw [makeStepError, herror]
        exact .inr (.inr (.inr ⟨w.steps, w.pendingTasks, by rw [he, herr]⟩))
  | deadlock b blocked hb he hw' =>
      refine ⟨_, hb.spent.trans (hw' ▸ mark_spent b rfl rfl), .inl ?_,
        fun _ => .inr (.inr (.inl ⟨_, _, he⟩))⟩
      simp [stepsIn, Mark.isStep]
  | interrupted b hb hw' =>
      obtain ⟨hkind, ms, u, hu, rfl⟩ := hw'
      refine ⟨_, (hb.spent.trans hu.spent).trans (mark_spent u rfl rfl),
        .inl ?_, fun _ => .inr (.inl hkind)⟩
      simp [stepsIn, Mark.isStep]
  | checks b ms v hb hv hw' =>
      obtain ⟨ms', hspent, hreason⟩ := hw'.ends
      refine ⟨_, (hb.spent.trans hv.spent).trans hspent, .inl ?_,
        fun _ => hreason.append _⟩
      simp [stepsIn, Mark.isStep]

/-! ## The loops -/

/-- A pass of a round that ended by itself. -/
def Passed (w w' : World ρ μ κ υ ε) : Prop :=
  ∃ ms, Spent w ms w' ∧ 1 ≤ stepsIn ms

variable [DecidableEq ε] [Random ρ]

omit [DecidableEq ε] in
theorem runForever_passed {w : World ρ μ κ υ ε} {n : ℕ}
    (hn : w.stepsLeft = some n) :
    Exec.wp runForever (fun _ w' => Passed w w') (Ends w) (fun _ => False)
      w := by
  have hclear : ∀ t : World ρ μ κ υ ε, Spent t [] { t with
      net := { t.net with loop := { t.net.loop with stopping := false } } } :=
    fun t => .of_eq (List.append_nil _).symm (by simp) rfl rfl
  rw [runForever, Exec.wp_look_apply, Exec.wp_andFinally]
  simp only [Exec.wp_update]
  have hfuel : w.fuel = n + 1 := by rw [fuel, hn]
  rw [hfuel]
  -- With `k` turns left, fewer than `k` steps are allowed.
  refine Exec.wp_doUntil
    (I := fun k t => ∃ ms m, Spent w ms t ∧ t.stepsLeft = some m ∧ m < k)
    (fun k s hs => ?_) ?_ _ ⟨[], n, .refl w, hn, Nat.lt_succ_self n⟩
  · obtain ⟨ms, m, hspent, hm, hlt⟩ := hs
    refine (runOnce_steps s).mono ?_ ?_ fun _ h => h
    · rintro _ t ht
      obtain ⟨ms', hst, hone⟩ := ht.spent
      have hwt := hspent.trans hst
      refine ⟨fun _ => ?_, fun _ => ?_⟩
      · refine ⟨_, hwt.trans (hclear t), ?_⟩
        simp only [stepsIn_append]
        omega
      · obtain ⟨m', hm', hle⟩ := hst.steps m hm
        exact ⟨_, m', hwt, hm', by omega⟩
    · intro e t ht
      obtain ⟨ms', hst, hsteps, hreason⟩ := ht.ends.after hspent
      refine ⟨_, hst.trans (hclear t), ?_, fun herror => ?_⟩
      · rwa [List.append_nil]
      · rw [List.append_nil]
        exact hreason herror
  · rintro s ⟨ms, m, -, -, hlt⟩
    omega

omit [DecidableEq ε] in
theorem runUntilComplete_passed {w : World ρ μ κ υ ε} {n : ℕ}
    (hn : w.stepsLeft = some n) :
    Exec.wp runUntilComplete (fun _ w' => Passed w w')
      (fun e w' => Ends w e w' ∨
        Passed w w' ∧ w'.gather.done = false ∧ e.saysStopped = .ok true)
      (fun _ => False) w := by
  have hgather : ∀ (t : World ρ μ κ υ ε) g, Spent t [] { t with gather := g } :=
    fun t g => .of_eq (List.append_nil _).symm (by simp) rfl rfl
  have hrun := runForever_passed (w := { w with
    gather := { w.gather with stopsLoop := true } }) hn
  rw [runUntilComplete, Exec.wp_bind, Exec.wp_update, Exec.wp_bind,
    Exec.wp_andFinally]
  simp only [Exec.wp_update]
  refine hrun.mono ?_ ?_ fun _ h => h
  · rintro _ t ⟨ms, ht, hone⟩
    have hpassed : Passed w { t with gather := { t.gather with
        stopsLoop := false } } :=
      ⟨_, ((hgather w _).trans ht).trans (hgather t _), by
        simp only [stepsIn_append]
        omega⟩
    rw [Exec.wp_look_apply]
    split
    · exact hpassed
    · next hdone => exact .inr ⟨hpassed, Bool.eq_false_iff.mpr hdone, rfl⟩
  · rintro e t ⟨ms, ht, hsteps, hreason⟩
    refine .inl ⟨_, ((hgather w _).trans ht).trans (hgather t _), ?_,
      fun herror => ?_⟩
    · rwa [List.append_nil]
    · rw [List.append_nil]
      exact hreason herror

omit [DecidableEq ε] in
theorem runUntilGathered_spent {w : World ρ μ κ υ ε} {n : ℕ}
    (hn : w.stepsLeft = some n) :
    Exec.wp runUntilGathered (fun _ w' => ∃ ms, Spent w ms w')
      (fun e w' => ∃ ms, Spent w ms w' ∧
        (w.stepError = .teardown → Reason ms e)) (fun _ => False) w := by
  rw [runUntilGathered, Exec.wp_look_apply]
  have hfuel : w.fuel = n + 1 := by rw [fuel, hn]
  rw [hfuel]
  refine Exec.wp_whileDo
    (I := fun k t => ∃ ms m, Spent w ms t ∧ t.stepsLeft = some m ∧ m < k)
    (fun k s hs _ => ?_) ?_ ?_ _ ⟨[], n, .refl w, hn, Nat.lt_succ_self n⟩
  · obtain ⟨ms, m, hspent, hm, hlt⟩ := hs
    have hnext : ∀ t, Passed s t →
        ∃ ms m, Spent w ms t ∧ t.stepsLeft = some m ∧ m < k := by
      rintro t ⟨ms', hst, hone⟩
      obtain ⟨m', hm', hle⟩ := hst.steps m hm
      exact ⟨_, m', hspent.trans hst, hm', by omega⟩
    rw [Exec.wp_bind, Exec.wp_attempt]
    refine (runUntilComplete_passed hm).mono (fun _ t ht => hnext t ht) ?_
      fun _ h => h
    intro e t h
    rw [Exec.wp_look_apply]
    split
    · next hdone =>
      rcases h with hends | ⟨-, hnot, -⟩
      · obtain ⟨ms', hst, -, hreason⟩ := hends.after hspent
        exact ⟨ms', hst, hreason⟩
      · rw [hdone] at hnot
        cases hnot
    · rcases h with hends | ⟨hpassed, -, hstop⟩
      · obtain ⟨ms'', hwt, -, hreason⟩ := hends.after hspent
        obtain ⟨ms', hst, hsteps, -⟩ := hends
        cases htext : e.saysStopped with
        | error exc =>
            refine ⟨_, hwt.trans (mark_spent t rfl rfl), fun herror => ?_⟩
            exact (hreason herror).of_text htext
        | ok stopped =>
            cases stopped with
            | true =>
                refine hnext t ⟨ms', hst, hsteps.resolve_right ?_⟩
                rw [htext]
                simp
            | false => exact ⟨ms'', hwt, hreason⟩
      · rw [hstop]
        exact hnext t hpassed
  · rintro s ⟨ms, m, -, -, hlt⟩
    omega
  · rintro k s ⟨ms, m, hspent, -, -⟩ -
    exact ⟨ms, hspent⟩

/-- From `w` to `w'` in one round. -/
structure Round (w : World ρ μ κ υ ε) (ms : List (Mark μ υ ε))
    (cancelled : List ℕ) (w' : World ρ μ κ υ ε) : Prop where
  log : w'.log = w.log ++ .round cancelled :: ms
  rounds : roundsIn ms = []
  steps : stepsIn ms ≤ teardownSteps + teardownStepsPerTask * cancelled.length

omit [Raisable ε] [DecidableEq ε] [Random ρ] in
theorem foldl_cancelTask_turn (tasks : List ℕ) (w : World ρ μ κ υ ε) :
    Turn w [] (tasks.foldl cancelTask w) := by
  induction tasks generalizing w with
  | nil => exact .refl w
  | cons task tasks ih => exact (cancelTask_turn w task).silent_trans (ih _)

omit [DecidableEq ε] in
theorem round_ends (w : World ρ μ κ υ ε) (cancelled : List ℕ) :
    Exec.wp (do
        Exec.update (·.mark (.round cancelled))
        Exec.update fun w => cancelled.foldl cancelTask w
        Exec.update (·.limitTeardownSteps cancelled.length)
        Exec.update (·.gatherTasks cancelled)
        runUntilGathered)
      (fun _ w' => ∃ ms, Round w ms cancelled w')
      (fun e w' => ∃ ms, Round w ms cancelled w' ∧ Reason ms e)
      (fun _ => False) w := by
  have hlog := (foldl_cancelTask_turn cancelled
    (w.mark (.round cancelled))).past.log
  rw [List.append_nil] at hlog
  simp only [Exec.wp_bind, Exec.wp_update]
  generalize hr : ((cancelled.foldl cancelTask
    (w.mark (.round cancelled))).limitTeardownSteps cancelled.length
      ).gatherTasks cancelled = r
  have hrlog : r.log = w.log ++ [.round cancelled] := by
    rw [← hr]
    exact hlog
  have hleft : r.stepsLeft =
      some (teardownSteps + teardownStepsPerTask * cancelled.length) := by
    rw [← hr]
    rfl
  have herror : r.stepError = .teardown := by
    rw [← hr]
    rfl
  have hround : ∀ ms w', Spent r ms w' → Round w ms cancelled w' := by
    intro ms w' h
    obtain ⟨n, -, hle⟩ := h.steps _ hleft
    refine ⟨?_, h.rounds, by omega⟩
    rw [h.log, hrlog, List.append_assoc]
    rfl
  refine (runUntilGathered_spent hleft).mono ?_ ?_ fun _ h => h
  · rintro _ w' ⟨ms, h⟩
    exact ⟨ms, hround ms w' h⟩
  · rintro e w' ⟨ms, h, hreason⟩
    exact ⟨ms, hround ms w' h, hreason herror⟩

/-- What the rounds of a part of the log are allowed. -/
def allowance (rounds : List (List ℕ)) : ℕ :=
  (rounds.map fun cancelled =>
    teardownSteps + teardownStepsPerTask * cancelled.length).sum

/-- From `w` to `w'` in at most `k` rounds. -/
structure Rounds (w : World ρ μ κ υ ε) (ms : List (Mark μ υ ε)) (k : ℕ)
    (w' : World ρ μ κ υ ε) : Prop where
  log : w'.log = w.log ++ ms
  rounds : (roundsIn ms).length ≤ k
  steps : stepsIn ms ≤ allowance (roundsIn ms)

omit [Raisable ε] [DecidableEq ε] [Random ρ] in
theorem Rounds.refl (w : World ρ μ κ υ ε) (k : ℕ) : Rounds w [] k w :=
  ⟨(List.append_nil _).symm, Nat.zero_le k, Nat.le_refl 0⟩

omit [Raisable ε] [DecidableEq ε] [Random ρ] in
theorem Round.cons {w w' w'' : World ρ μ κ υ ε} {ms ms' : List (Mark μ υ ε)}
    {cancelled : List ℕ} {k : ℕ} (h : Round w ms cancelled w')
    (h' : Rounds w' ms' k w'') :
    Rounds w (.round cancelled :: ms ++ ms') (k + 1) w'' := by
  have hrounds : roundsIn (.round cancelled :: ms ++ ms') =
      cancelled :: roundsIn ms' := by
    rw [roundsIn_append, roundsIn, List.filterMap_cons]
    exact congrArg (cancelled :: · ++ roundsIn ms') h.rounds
  have hsteps : stepsIn (.round cancelled :: ms ++ ms') =
      stepsIn ms + stepsIn ms' := by
    rw [stepsIn_append]
    rfl
  refine ⟨?_, ?_, ?_⟩
  · rw [h'.log, h.log, List.append_assoc]
  · rw [hrounds, List.length_cons]
    have := h'.rounds
    omega
  · rw [hrounds, hsteps, allowance, List.map_cons, List.sum_cons]
    have := h'.steps
    rw [allowance] at this
    have := h.steps
    omega

omit [DecidableEq ε] in
theorem cancelRounds_rounds (k : ℕ) (w : World ρ μ κ υ ε) :
    Exec.wp (cancelRounds k)
      (fun _ w' => (∃ ms, Rounds w ms k w') ∧ w'.pendingTasks = [])
      (fun e w' => ∃ ms, Rounds w ms k w' ∧
        (Reason ms e ∨ ∃ n running, e = .sys n (.teardownRounds running)))
      (fun _ => False) w := by
  induction k generalizing w with
  | zero => exact ⟨_, ⟨rfl, Nat.le_refl 0, Nat.le_refl 0⟩, .inr ⟨_, _, rfl⟩⟩
  | succ k ih =>
      rw [cancelRounds, Exec.wp_look_apply]
      simp only []
      split
      · next hempty =>
        refine ⟨⟨[], .refl w _⟩, ?_⟩
        rw [List.isEmpty_iff, byCreation] at hempty
        exact List.Perm.eq_nil (hempty ▸ List.mergeSort_perm _ _).symm
      · have hround := round_ends w (w.byCreation w.pendingTasks)
        simp only [Exec.wp_bind, Exec.wp_update] at hround ⊢
        refine hround.mono ?_ ?_ fun _ h => h
        · rintro _ t ⟨ms, ht⟩
          refine (ih t).mono ?_ ?_ fun _ h => h
          · rintro _ w' ⟨⟨ms', h⟩, hdone⟩
            exact ⟨⟨_, ht.cons h⟩, hdone⟩
          · rintro e w' ⟨ms', h, hreason⟩
            exact ⟨_, ht.cons h, hreason.imp_left (·.append _)⟩
        · rintro e t ⟨ms, ht, hreason⟩
          have h := ht.cons (Rounds.refl t k)
          rw [List.append_nil] at h
          exact ⟨_, h, .inl (hreason.append [.round _])⟩

omit [DecidableEq ε] in
/-- Cancelling what is left ends within what its rounds are allowed, whatever
the tasks do. When it returns, no task is pending, and unless an after-step
check failed meanwhile, all that it raises is one of its own two errors or an
interrupt. -/
theorem cancelEverything_ends (w : World ρ μ κ υ ε) :
    Exec.wp cancelEverything
      (fun _ w' => (∃ ms, Rounds w ms teardownRounds w') ∧
        w'.pendingTasks = [])
      (fun e w' => ∃ ms, Rounds w ms teardownRounds w' ∧
        ((∀ f, .checkFailed f ∉ ms) →
          e.kind = .interrupt ∨
            (∃ n blocked, e = .sys n (.deadlock blocked)) ∨
            ∃ n running, e = .sys n (.teardown running) ∨
              e = .sys n (.teardownRounds running)))
      (fun _ => False) w := by
  refine (cancelRounds_rounds teardownRounds w).mono (fun _ _ h => h) ?_
    fun _ h => h
  rintro e w' ⟨ms, hms, hreason⟩
  refine ⟨ms, hms, fun hchecks => ?_⟩
  rcases hreason with (⟨f, hf⟩ | hkind | hdeadlock | ⟨n, running, he⟩) |
    ⟨n, running, he⟩
  · exact absurd hf (hchecks f)
  · exact .inl hkind
  · exact .inr (.inl hdeadlock)
  · exact .inr (.inr ⟨n, running, .inl he⟩)
  · exact .inr (.inr ⟨n, running, .inr he⟩)

end World

end Seedloop
