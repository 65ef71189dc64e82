import Seedloop.Proofs.Course
import Seedloop.Proofs.RunUntil

/-!
# The stop steps

`run_until_done` counts down from two when its future is done, and a stop that
user code asks for can fall into any step of it: before the future is done, with
the step that finishes it, or into either of the two steps after it. What the
count makes of a step is told by the world at the end of its checks (`Spends`);
the rest is the loop of `run_forever`, once from the start and once more if it
came back too early.

A stop step does not look at the timers at all, so the clock stands still in it
whether or not anything is ready.
-/

namespace Seedloop

namespace Loop

variable {κ : Type}

/-- A stop step does not jump. -/
theorem beginStep_time_of_stopStep (l : Loop κ) :
    (l.beginStep true).1.time = l.time := by
  have hauto : l.autojump true = (l, false) := by
    rcases autojump_cases l true with ⟨-, h⟩ | ⟨-, hs, -⟩ | ⟨-, hs, -⟩
    · exact h
    · cases hs
    · cases hs
  rw [beginStep, hauto]
  rfl

end Loop

/-- The mark of a cleared list. -/
def Mark.isCleared {μ υ ε : Type} : Mark μ υ ε → Bool
  | .cleared => true
  | _ => false

namespace World

variable {ρ μ κ υ ε : Type}

/-! ## What user code asks of the loop -/

/-- The clock stands still, and a stop that was asked for stands. -/
def Heeds (w w' : World ρ μ κ υ ε) : Prop :=
  w'.net.loop.time = w.net.loop.time ∧ ∃ ms, w'.log = w.log ++ ms ∧
    (w.net.loop.stopping = true ∨ .stop ∈ ms → w'.net.loop.stopping = true)

theorem Heeds.of_eq {w w' : World ρ μ κ υ ε} (ms : List (Mark μ υ ε))
    (htime : w'.net.loop.time = w.net.loop.time)
    (hlog : w'.log = w.log ++ ms) (hms : .stop ∉ ms)
    (hstop : w'.net.loop.stopping = w.net.loop.stopping) : Heeds w w' :=
  ⟨htime, ms, hlog, fun h => hstop ▸ h.resolve_right hms⟩

theorem Heeds.silent {w w' : World ρ μ κ υ ε}
    (htime : w'.net.loop.time = w.net.loop.time) (hlog : w'.log = w.log)
    (hstop : w'.net.loop.stopping = w.net.loop.stopping) : Heeds w w' :=
  .of_eq [] htime (by rw [hlog, List.append_nil]) List.not_mem_nil hstop

theorem Heeds.refl (w : World ρ μ κ υ ε) : Heeds w w := .silent rfl rfl rfl

theorem Heeds.trans {w w' w'' : World ρ μ κ υ ε} (h : Heeds w w')
    (h' : Heeds w' w'') : Heeds w w'' := by
  obtain ⟨htime, ms, hlog, hstop⟩ := h
  obtain ⟨htime', ms', hlog', hstop'⟩ := h'
  refine ⟨htime'.trans htime, ms ++ ms', ?_, fun hasked => ?_⟩
  · rw [hlog', hlog, List.append_assoc]
  · rw [List.mem_append, ← or_assoc] at hasked
    exact hstop' (hasked.imp_left hstop)

instance : Std.Refl (Heeds : World ρ μ κ υ ε → _ → Prop) := ⟨.refl⟩

instance : IsTrans (World ρ μ κ υ ε) Heeds := ⟨fun _ _ _ h h' => h.trans h'⟩

theorem mark_heeds (w : World ρ μ κ υ ε) {m : Mark μ υ ε}
    (hm : m ≠ .stop) : Heeds w (w.mark m) :=
  .of_eq [m] rfl rfl (by simpa using hm.symm) rfl

theorem wake_heeds (w : World ρ μ κ υ ε) (x : Wake κ) : Heeds w (w.wake x) := by
  cases x with
  | ready k => exact .silent rfl rfl rfl
  | runUntil =>
      simp only [wake, cancelRunUntil]
      split
      · split
        · exact .refl w
        · exact .silent rfl rfl rfl
      · exact .refl w

theorem cancelTask_heeds (w : World ρ μ κ υ ε) (task : ℕ) :
    Heeds w (w.cancelTask task) := by
  have hfold : ∀ (xs : List (Wake κ)) (u : World ρ μ κ υ ε), Heeds w u →
      Heeds w (xs.foldl wake u) := by
    intro xs
    induction xs with
    | nil => exact fun u hu => hu
    | cons x xs ih => exact fun u hu => ih _ (hu.trans (wake_heeds u x))
  rw [cancelTask]
  split
  · split
    · exact .refl w
    · exact hfold _ _ (.silent rfl rfl rfl)
  · exact .refl w

theorem always_heeds (w : World ρ μ κ υ ε) (name : String)
    (p : Predicate μ υ ε) : Heeds w (w.always name p) := by
  simp only [always]
  split
  · exact .refl w
  · split
    · exact .of_eq [.always name p] rfl rfl (by simp) rfl
    · exact .of_eq [.installed, .always name p] rfl (by simp [mark])
        (by simp) rfl

theorem finishTask_heeds (w : World ρ μ κ υ ε) (task : ℕ) (o : Outcome ε) :
    Heeds w (w.finishTask task o) := by
  simp only [finishTask]
  split
  · exact .of_eq [.finished task o] rfl rfl (by simp) rfl
  · exact .of_eq [.finished task o] rfl rfl (by simp) rfl

theorem endRunUntil_heeds (w : World ρ μ κ υ ε) : Heeds w w.endRunUntil := by
  rw [endRunUntil]
  split
  · exact .refl w
  · dsimp only
    split
    · exact .silent rfl rfl rfl
    · exact .silent rfl rfl rfl

theorem openCall_heeds (w : World ρ μ κ υ ε) (p : Predicate μ υ ε)
    (deadline : Option (Num × ℚ)) (k : κ) :
    Heeds w (w.openCall p deadline k) := by
  cases deadline with
  | none => exact .silent rfl rfl rfl
  | some d => exact .silent rfl rfl rfl

variable [Raisable ε]

omit [Raisable ε] in
theorem interrupt_heeds (e : Exc ε) :
    Exec.Within Heeds (interrupt e : Run ρ μ κ υ ε Unit) :=
  Exec.Within.bind (fun w => mark_heeds w (by simp)) fun _ =>
    Exec.within_raise

variable [Random ρ]

theorem userOp_heeds (o : UserOp μ κ υ ε) :
    Exec.Within Heeds (userOp o : Run ρ μ κ υ ε Unit) := by
  cases o with
  | net o =>
      intro w
      simp only [userOp, Exec.update]
      cases hop : w.net.op (o.map .user) with
      | none => exact .refl w
      | some r =>
          obtain ⟨net, r⟩ := r
          have htime : net.loop.time = w.net.loop.time :=
            (Net.Tame.op hop).quiet.time_eq
          by_cases hstop : o.map Job.user = .stop
          · cases o with
            | stop =>
                cases hop
                exact ⟨rfl, [.stop], rfl, fun _ => rfl⟩
            | _ => cases hstop
          · have hsame := Net.op_stopping hop hstop
            cases o with
            | stop => exact absurd rfl hstop
            | _ => exact .silent htime rfl hsame
  | set user => exact fun w => .silent rfl rfl rfl
  | always name p => exact fun w => always_heeds w name p
  | runUntil p d k =>
      intro w
      rcases callRunUntil_cases w p d k with
        ⟨e, -, hw⟩ | ⟨deadline, -, ⟨v, -, hw⟩ | ⟨-, hw⟩⟩
      · rw [hw]
        exact .refl w
      · rw [hw]
        exact (openCall_heeds w p deadline k).trans (endRunUntil_heeds _)
      · rw [hw]
        exact (openCall_heeds w p deadline k).trans (.silent rfl rfl rfl)
  | endRunUntil => exact fun w => endRunUntil_heeds w
  | createTask stamped k => exact fun w => .silent rfl rfl rfl
  | start k =>
      exact fun w => .of_eq [.started w.tasks.length] rfl rfl (by simp)
        rfl
  | finish task outcome =>
      have hfinish : Exec.Within Heeds (Exec.update
          (·.finishTask task outcome) : Run ρ μ κ υ ε Unit) :=
        fun w => finishTask_heeds w task outcome
      cases outcome with
      | raised e =>
          simp only [userOp]
          refine .look fun w => ?_
          split
          · refine hfinish.bind fun _ => ?_
            split
            · exact interrupt_heeds e
            · exact Exec.within_pure
          · exact Exec.within_pure
      | returned | cancelled =>
          simp only [userOp]
          refine .look fun w => ?_
          split
          · exact hfinish.bind fun _ => Exec.within_pure
          · exact Exec.within_pure
  | await task onCancel => exact fun w => .silent rfl rfl rfl
  | cancelTask task => exact fun w => cancelTask_heeds w task
  | interrupt e =>
      rw [userOp]
      split
      · exact interrupt_heeds e
      · exact Exec.within_pure

theorem runJob_heeds (c : Callback μ (Job κ)) (turn : List (UserOp μ κ υ ε)) :
    Exec.Within Heeds (runJob c turn : Run ρ μ κ υ ε Unit) := by
  have hrun : Exec.Within Heeds (do
      Exec.update fun w => { w with net := w.net.runCallback c }
      Exec.forEach userOp turn : Run ρ μ κ υ ε Unit) := by
    refine .bind (fun w => ?_) fun _ => .forEach userOp_heeds turn
    exact .silent (Net.Quiet.runCallback w.net c).time_eq rfl
      (Net.runCallback_stopping w.net c)
  cases c with
  | user job =>
      cases job with
      | gatherChild =>
          intro w
          show Heeds w w.gatherChild
          rw [gatherChild]
          dsimp only
          split
          · split
            · exact .silent rfl rfl rfl
            · exact .silent rfl rfl rfl
          · exact .silent rfl rfl rfl
      | stopLoop => exact fun w => ⟨rfl, [.stop], rfl, fun _ => rfl⟩
      | deadline => exact Exec.within_pure
      | user k => exact hrun
  | _ => exact hrun

theorem runBatch_heeds (n : ℕ) (turns : List (List (UserOp μ κ υ ε))) :
    Exec.Within Heeds (runBatch n turns : Run ρ μ κ υ ε Unit) := by
  induction n generalizing turns with
  | zero => exact Exec.within_pure
  | succ n ih =>
      refine .look fun w => ?_
      split
      · exact Exec.within_pure
      · refine .bind (fun w => .silent rfl rfl rfl) fun _ => ?_
        split
        · exact ih turns
        · exact (runJob_heeds _ _).bind fun _ => ih _

/-! ## A step, up to the count -/

/-- What a step does before it counts: its marks, and what it leaves of the
watch. -/
structure Spends (w x : World ρ μ κ υ ε) : Prop where
  marks : ∃ ms, x.log = w.log ++ .stepBegin :: ms ∧
    (∀ m ∈ ms, m ≠ .cleared) ∧
    (x.net.loop.stopping = true ↔ w.net.loop.stopping = true ∨ .stop ∈ ms)
  settings : x.settings = { w.settings with
    steps := w.steps + 1
    stepsLeft := w.stepsLeft.map (· - 1) }
  allowed : w.stepsLeft ≠ some 0
  done : ∀ t, w.done t = true → x.done t = true
  time : w.stopIn ≠ none → x.net.loop.time = w.net.loop.time

omit [Raisable ε] [Random ρ] in
theorem Past.done {w w' : World ρ μ κ υ ε} {ms : List (Mark μ υ ε)}
    (h : Past w ms w') {t : ℕ} (ht : w.done t = true) : w'.done t = true := by
  rw [done_eq] at ht ⊢
  obtain ⟨o, ho⟩ := Option.isSome_iff_exists.mp ht
  exact Option.isSome_iff_exists.mpr ⟨o, h.outcome t o ho⟩

/-- A step that has begun, through its batch and its checks. -/
theorem begun_spends {w b : World ρ μ κ υ ε} (hlimit : w.stepsLeft ≠ some 0)
    (hpast : Past w [.stepBegin] b)
    (hsettings : b.settings = { w.settings with
      steps := w.steps + 1
      stepsLeft := w.stepsLeft.map (· - 1) })
    (hstop : b.net.loop.stopping = w.net.loop.stopping)
    (htime : w.stopIn ≠ none → b.net.loop.time = w.net.loop.time) :
    Exec.wp (do
        takeTurns
        afterStep
        Exec.update countStop)
      (fun _ w' => ∃ x, Spends w x ∧ w' = x.countStop)
      (fun _ _ => True) (fun _ => False) b := by
  simp only [Exec.wp_bind, Exec.wp_update]
  have hturns : Exec.Within Heeds (takeTurns : Run ρ μ κ υ ε Unit) :=
    .look fun _ => runBatch_heeds _ _
  refine ((takeTurns_turn b).and hturns.wp).mono ?_ (fun _ _ _ => trivial)
    fun _ h => h.1
  rintro _ v ⟨⟨ms, hv⟩, htime', ms', hlog', hstop'⟩
  refine (afterStep_checks v).mono ?_ (fun _ _ _ => trivial) fun _ h => h
  rintro _ x ⟨⟨ms'', hx, -⟩, -⟩
  refine ⟨x, ⟨⟨ms ++ .stepEnd v.view :: ms'', ?_, ?_, ?_⟩, ?_, hlimit, ?_, ?_⟩,
    rfl⟩
  · rw [hx.past.log, mark, hv.past.log, hpast.log]
    simp
  · rintro m hm rfl
    rw [List.mem_append, List.mem_cons] at hm
    rcases hm with hm | hm | hm
    · cases hv.byUser _ hm
    · cases hm
    · cases hx.byCheck _ hm
  · have hsame : ms' = ms := by
      rw [hv.past.log, List.append_cancel_left_eq] at hlog'
      exact hlog'.symm
    have hmem : .stop ∈ ms ++ .stepEnd v.view :: ms'' ↔ .stop ∈ ms := by
      rw [List.mem_append, List.mem_cons]
      refine ⟨fun h => h.resolve_right ?_, .inl⟩
      rintro (hm | hm)
      · cases hm
      · cases hx.byCheck _ hm
    rw [hx.stopping, hmem, ← hstop]
    exact ⟨hv.stopping, hsame ▸ hstop'⟩
  · rw [hx.settings]
    exact hv.settings.trans hsettings
  · intro t ht
    exact hx.past.done (hv.past.done (hpast.done ht))
  · intro hne
    have hview : x.net.loop.time = v.net.loop.time := congrArg View.now hx.view
    rw [hview, htime', htime hne]

theorem runOnce_spends (w : World ρ μ κ υ ε) :
    Exec.wp runOnce (fun _ w' => ∃ x, Spends w x ∧ w' = x.countStop)
      (fun _ _ => True) (fun _ => False) w := by
  by_cases hlimit : w.stepsLeft = some 0
  · refine (runOnce_steps w).mono ?_ (fun _ _ _ => trivial) fun _ h => h
    rintro _ w' ⟨b, ms, v, x, hb, -⟩
    exact absurd hlimit hb.allowed
  · have hcounted : Past w [.stepBegin] w.counted := by
      have hcount : Past w [] { w with
          steps := w.steps + 1
          stepsLeft := w.stepsLeft.map (· - 1) } := .of_memory rfl
      exact hcount.trans (.mark _ (by simp) (by simp) rfl rfl)
    have hbegin := beginStep_eq w.counted
    rw [Exec.wp, runOnce, Exec.bind_of_ok (takeStep_eq hlimit)]
    split at hbegin
    · simp only [bind, hbegin]
    · rw [Exec.bind_of_ok hbegin]
      refine begun_spends hlimit ?_ rfl ?_ fun hne => ?_
      · have hnet : Past w.counted [] { w.counted with
            net := { w.counted.net with loop :=
              (w.counted.net.loop.beginStep w.counted.stopIn.isSome).1 } } :=
          .of_memory rfl
        exact hcounted.trans hnet
      · exact Loop.beginStep_stopping w.net.loop w.stopIn.isSome
      · have hsome : w.stopIn.isSome = true := by
          rwa [Option.isSome_iff_ne_none]
        show (w.net.loop.beginStep w.stopIn.isSome).1.time = _
        rw [hsome, Loop.beginStep_time_of_stopStep]

/-! ## The count -/

/-- A step of the loop that raises nothing. -/
def Steps (s t : World ρ μ κ υ ε) : Prop := runOnce s = (.ok (), t)

omit [Raisable ε] [Random ρ] in
/-- At the end of the step from `s` to `t` the loop has been asked to stop: user
code called `loop.stop()` in it, or had before it. -/
def Asked (s t : World ρ μ κ υ ε) : Prop :=
  s.net.loop.stopping = true ∨ ∃ ms, t.log = s.log ++ ms ∧ .stop ∈ ms

/-- How often the list of checks was cleared. -/
def clears (w : World ρ μ κ υ ε) : ℕ := w.log.countP Mark.isCleared

/-- What watches the loop, and how many steps it counts down. -/
structure Watches (fut : ℕ) (settle : Bool) (stopIn : Option ℕ)
    (t : World ρ μ κ υ ε) : Prop where
  watch : t.watch = some fut
  settle : t.settle = settle
  stopIn : t.stopIn = stopIn

variable {fut : ℕ} {settle : Bool} {s t : World ρ μ κ υ ε}

omit [Raisable ε] [Random ρ] in
theorem Spends.clears {x : World ρ μ κ υ ε} (h : Spends s x) :
    x.clears = s.clears := by
  obtain ⟨ms, hlog, hnone, -⟩ := h.marks
  have hms : ms.countP Mark.isCleared = 0 := by
    rw [List.countP_eq_zero]
    intro m hm
    cases m with
    | cleared => exact absurd rfl (hnone _ hm)
    | _ => simp [Mark.isCleared]
  rw [World.clears, hlog, List.countP_append, List.countP_cons, hms]
  simp [World.clears, Mark.isCleared]

omit [Raisable ε] [Random ρ] in
theorem Spends.watches {x : World ρ μ κ υ ε} (h : Spends s x)
    {n : Option ℕ} (hs : Watches fut settle n s) : Watches fut settle n x :=
  ⟨(congrArg Settings.watch h.settings).trans hs.watch,
    (congrArg Settings.settle h.settings).trans hs.settle,
    (congrArg Settings.stopIn h.settings).trans hs.stopIn⟩

omit [Raisable ε] [Random ρ] in
theorem Spends.asked {x : World ρ μ κ υ ε} (h : Spends s x)
    (hlog : t.log = x.log) : x.net.loop.stopping = true ↔ Asked s t := by
  obtain ⟨ms, hx, -, hstop⟩ := h.marks
  rw [hstop]
  refine or_congr_right ⟨fun hmem => ?_, ?_⟩
  · exact ⟨_, hlog.trans hx, List.mem_cons_of_mem _ hmem⟩
  · rintro ⟨ms', hms', hmem⟩
    rw [hlog, hx, List.append_cancel_left_eq] at hms'
    rw [← hms', List.mem_cons] at hmem
    exact hmem.resolve_left (by simp)

theorem Steps.spends (h : Steps s t) : ∃ x, Spends s x ∧ t = x.countStop :=
  (runOnce_spends s).ok_of h

/-- A step before the future is done, and the one that it is done in. -/
theorem Steps.waiting (h : Steps s t) (hs : Watches fut settle none s) :
    (t.net.loop.stopping = true ↔ Asked s t) ∧ t.clears = s.clears ∧
      (t.done fut = false → Watches fut settle none t) ∧
      (t.done fut = true → Watches fut settle (some 2) t) := by
  obtain ⟨x, hx, rfl⟩ := h.spends
  have hw := hx.watches hs
  have hcount : x.countStop =
      if x.done fut then { x with stopIn := some 2 } else x := by
    simp only [countStop, hw.watch, hw.stopIn]
  rw [hcount]
  split
  · next hdone =>
    refine ⟨hx.asked rfl, hx.clears, fun h => ?_, fun _ => ?_⟩
    · exact absurd (h.symm.trans hdone) (by simp)
    · exact ⟨hw.watch, hw.settle, rfl⟩
  · next hdone =>
    exact ⟨hx.asked rfl, hx.clears, fun _ => hw, fun h => absurd h hdone⟩

/-- The first of two stop steps: it ends with the settling. -/
theorem Steps.first (h : Steps s t) (hs : Watches fut settle (some 2) s) :
    t.clears = s.clears + settle.toNat ∧
      (settle = true → t.log.getLast? = some .cleared ∧ t.hooks = []) ∧
      Watches fut settle (some 1) t ∧
      t.net.loop.time = s.net.loop.time ∧
      (s.done fut = true → t.done fut = true) := by
  obtain ⟨x, hx, rfl⟩ := h.spends
  have hw := hx.watches hs
  have htime := hx.time (by simp [hs.stopIn])
  cases settle with
  | false =>
      have hcount : x.countStop = { x with stopIn := some 1 } := by
        simp [countStop, hw.watch, hw.stopIn, hw.settle]
      rw [hcount]
      exact ⟨hx.clears, by simp, ⟨hw.watch, hw.settle, rfl⟩, htime, hx.done fut⟩
  | true =>
      have hcount : x.countStop = { x with stopIn := some 1 }.clearHooks := by
        simp [countStop, hw.watch, hw.stopIn, hw.settle]
      rw [hcount]
      refine ⟨?_, fun _ => ⟨List.getLast?_concat, rfl⟩,
        ⟨hw.watch, hw.settle, rfl⟩, htime, hx.done fut⟩
      have := hx.clears
      simp only [World.clears, clearHooks, mark, List.countP_append] at this ⊢
      rw [this]
      rfl

/-- The last stop step stops the loop. -/
theorem Steps.last (h : Steps s t) (hs : Watches fut settle (some 1) s) :
    t.clears = s.clears ∧ t.net.loop.stopping = true ∧
      t.stopIn = some 0 ∧ t.net.loop.time = s.net.loop.time := by
  obtain ⟨x, hx, rfl⟩ := h.spends
  have hw := hx.watches hs
  have hcount : x.countStop = { x with stopIn := some 0 }.stopLoop := by
    simp [countStop, hw.watch, hw.stopIn]
  rw [hcount]
  exact ⟨hx.clears, rfl, rfl, hx.time (by simp [hs.stopIn])⟩

/-! ## The loop -/

omit [Raisable ε] [Random ρ] in
/-- With `n` turns of the loop left: more than the limit allows, or what the
horizon leaves. -/
structure Paced (w s : World ρ μ κ υ ε) (n : ℕ) : Prop where
  left : ∀ k, s.stepsLeft = some k → k < n
  steps : s.stepsLeft = none →
    w.stepsLeft = none ∧ s.steps + n = w.steps + w.horizon
  horizon : s.horizon = w.horizon

omit [Raisable ε] [Random ρ] in
theorem Paced.of_fuel (w : World ρ μ κ υ ε) : Paced w w w.fuel where
  left k hk := by rw [fuel, hk]; exact Nat.lt_succ_self k
  steps h := by rw [fuel, h]; exact ⟨rfl, rfl⟩
  horizon := rfl

theorem Paced.step {w : World ρ μ κ υ ε} {n : ℕ} (h : Paced w s (n + 1))
    (hst : Steps s t) : Paced w t n := by
  obtain ⟨x, hx, rfl⟩ := hst.spends
  have hset := (countStop_counted x).settings
  have hleft : x.countStop.stepsLeft = s.stepsLeft.map (· - 1) :=
    (congrArg Settings.stepsLeft hset).trans
      (congrArg Settings.stepsLeft hx.settings)
  have hsteps : x.countStop.steps = s.steps + 1 :=
    (congrArg Settings.steps hset).trans
      (congrArg Settings.steps hx.settings)
  have hhorizon : x.countStop.horizon = s.horizon :=
    (congrArg Settings.horizon hset).trans
      (congrArg Settings.horizon hx.settings)
  refine ⟨fun k hk => ?_, fun hnone => ?_, hhorizon.trans h.horizon⟩
  · rw [hleft, Option.map_eq_some_iff] at hk
    obtain ⟨m, hm, rfl⟩ := hk
    have hlt := h.left m hm
    have hne : m ≠ 0 := fun h0 => hx.allowed (h0 ▸ hm)
    omega
  · rw [hleft, Option.map_eq_none_iff] at hnone
    obtain ⟨hw, heq⟩ := h.steps hnone
    exact ⟨hw, by omega⟩

/-- Whatever comes of a step. -/
theorem runOnce_ends (s : World ρ μ κ υ ε) :
    Exec.wp runOnce (fun _ t => Steps s t)
      (fun e t => runOnce s = (.raised e, t)) (fun _ => False) s := by
  have hcut := runOnce_steps s
  rw [Exec.wp] at hcut ⊢
  rcases hx : runOnce s with ⟨r, t⟩
  rw [hx] at hcut
  cases r with
  | ok => exact hx
  | raised e => rfl
  | pending => exact hcut

/-- `while True` of `run_forever`. -/
abbrev loopUntilStopped (n : ℕ) : Run ρ μ κ υ ε Unit :=
  Exec.doUntil (fun w => w.net.loop.stopping) runOnce n

/-- A step of the loop raised. -/
def StepRaised (e : Exc ε) (t : World ρ μ κ υ ε) : Prop :=
  ∃ s, runOnce s = (.raised e, t)

theorem loop_last {n : ℕ} (hs : Watches fut settle (some 1) s) :
    Exec.wp (loopUntilStopped (n + 1)) (fun _ b => Steps s b) StepRaised
      (fun _ => False) s := by
  rw [loopUntilStopped, Exec.doUntil, Exec.wp_bind]
  refine (runOnce_ends s).mono (fun _ b hb => ?_) (fun _ _ h => ⟨s, h⟩)
    fun _ h => h
  rw [Exec.wp_look_apply, if_pos (hb.last hs).2.1]
  exact hb

/-- From where the future is done: both stop steps, or the first and a stop. -/
theorem loop_first {w : World ρ μ κ υ ε} {n : ℕ}
    (hs : Watches fut settle (some 2) s) (hn : Paced w s n) :
    Exec.wp (loopUntilStopped n)
      (fun _ r => ∃ a, Steps s a ∧
        (a.net.loop.stopping = true ∧ r = a ∨
          a.net.loop.stopping = false ∧ Steps a r))
      StepRaised
      (fun r => w.stepsLeft = none ∧ r.steps = w.steps + w.horizon) s := by
  have hcut : ∀ {u : World ρ μ κ υ ε}, Paced w u 0 →
      w.stepsLeft = none ∧ u.steps = w.steps + w.horizon := by
    intro u hu
    cases hleft : u.stepsLeft with
    | some k => exact absurd (hu.left k hleft) (Nat.not_lt_zero k)
    | none =>
        obtain ⟨hw, heq⟩ := hu.steps hleft
        exact ⟨hw, by omega⟩
  cases n with
  | zero => exact hcut hn
  | succ n =>
      rw [loopUntilStopped, Exec.doUntil, Exec.wp_bind]
      refine (runOnce_ends s).mono (fun _ a ha => ?_) (fun _ _ h => ⟨s, h⟩)
        fun _ h => h.elim
      rw [Exec.wp_look_apply]
      split
      · next hstop => exact ⟨a, ha, .inl ⟨hstop, rfl⟩⟩
      · next hstop =>
        have hpaced := hn.step ha
        cases n with
        | zero => exact hcut hpaced
        | succ n =>
            refine (loop_last (ha.first hs).2.2.1).mono ?_ (fun _ _ h => h)
              fun _ h => h.elim
            exact fun _ b hb => ⟨a, ha, .inr ⟨Bool.eq_false_iff.mpr hstop, hb⟩⟩

/-! ## The drive of one future -/

/-- Steps in none of which the future is done or a stop asked for. -/
inductive Awaits (fut : ℕ) (s : World ρ μ κ υ ε) : World ρ μ κ υ ε → Prop
  | refl : Awaits fut s s
  | step {u t : World ρ μ κ υ ε} (h : Awaits fut s u) (hstep : Steps u t)
      (hdone : t.done fut = false) (hasked : ¬ Asked u t) : Awaits fut s t

omit [Raisable ε] [Random ρ] in
/-- The flag of `loop.stop()` is taken back. -/
def unstopped (t : World ρ μ κ υ ε) : World ρ μ κ υ ε :=
  { t with net := { t.net with loop := { t.net.loop with stopping := false } } }

omit [Raisable ε] [Random ρ] in
/-- A loop that nothing watches and nobody has asked to stop. -/
def released (t : World ρ μ κ υ ε) : World ρ μ κ υ ε :=
  t.unstopped.setWatch none none false

omit [Raisable ε] [Random ρ] in
/-- The last stop step is to come. -/
def resumed (t : World ρ μ κ υ ε) : World ρ μ κ υ ε :=
  { t.unstopped with stopIn := some 1 }

/-- How `run_until_done` returns: before the future is done, if a stop was asked
for; after two more steps; or after one more, if a stop was asked for in the
step that finished it. -/
inductive StopSteps (fut : ℕ) (settle : Bool) (w w' : World ρ μ κ υ ε) : Prop
  | early (u t : World ρ μ κ υ ε)
      (hawaits : Awaits fut (w.setWatch (some fut) none settle) u)
      (hstep : Steps u t) (hdone : t.done fut = false) (hasked : Asked u t)
      (hclears : t.clears = w.clears) (hw' : w' = t.released)
  | two (u t a b : World ρ μ κ υ ε)
      (hawaits : Awaits fut (w.setWatch (some fut) none settle) u)
      (hstep : Steps u t) (hdone : t.done fut = true) (hasked : ¬ Asked u t)
      (hfirst : Steps t a) (hsecond : Steps a.resumed b)
      (hclears : t.clears = w.clears ∧ a.clears = t.clears + settle.toNat ∧
        b.clears = a.clears)
      (hsettled : settle = true →
        a.log.getLast? = some .cleared ∧ a.hooks = [])
      (htime : a.net.loop.time = t.net.loop.time ∧
        b.net.loop.time = t.net.loop.time)
      (hw' : w' = b.released)
  | one (u t a b : World ρ μ κ υ ε)
      (hawaits : Awaits fut (w.setWatch (some fut) none settle) u)
      (hstep : Steps u t) (hdone : t.done fut = true) (hasked : Asked u t)
      (hsettled : a = if settle then t.clearHooks else t)
      (hlast : Steps a.resumed b)
      (hclears : t.clears = w.clears ∧ b.clears = t.clears + settle.toNat)
      (htime : b.net.loop.time = t.net.loop.time)
      (hw' : w' = b.released)

/-- Where the first `run_forever` comes back, and from which step. -/
inductive CameBack (fut : ℕ) (settle : Bool) (w r : World ρ μ κ υ ε) : Prop
  | early (u : World ρ μ κ υ ε)
      (hawaits : Awaits fut (w.setWatch (some fut) none settle) u)
      (hstep : Steps u r) (hdone : r.done fut = false) (hasked : Asked u r)
      (hclears : r.clears = w.clears)
  | done (u t : World ρ μ κ υ ε)
      (hawaits : Awaits fut (w.setWatch (some fut) none settle) u)
      (hstep : Steps u t) (hdone : t.done fut = true)
      (hclears : t.clears = w.clears) (hwatches : Watches fut settle (some 2) t)
      (hr : Asked u t ∧ r = t ∨ ¬ Asked u t ∧ ∃ a, Steps t a ∧
        (a.net.loop.stopping = true ∧ r = a ∨
          a.net.loop.stopping = false ∧ Steps a r))

/-- The first `run_forever`, with the future not done yet. -/
theorem loop_waiting {w : World ρ μ κ υ ε} {n : ℕ}
    (hs : Watches fut settle none s)
    (hawaits : Awaits fut (w.setWatch (some fut) none settle) s)
    (hclears : s.clears = w.clears) (hn : Paced w s n) :
    Exec.wp (loopUntilStopped n) (fun _ r => CameBack fut settle w r)
      StepRaised
      (fun r => w.stepsLeft = none ∧ r.steps = w.steps + w.horizon) s := by
  induction n generalizing s with
  | zero =>
      cases hleft : s.stepsLeft with
      | some k => exact absurd (hn.left k hleft) (Nat.not_lt_zero k)
      | none =>
          obtain ⟨hw, heq⟩ := hn.steps hleft
          exact ⟨hw, by omega⟩
  | succ n ih =>
      rw [loopUntilStopped, Exec.doUntil, Exec.wp_bind]
      refine (runOnce_ends s).mono (fun _ t ht => ?_) (fun _ _ h => ⟨s, h⟩)
        fun _ h => h.elim
      obtain ⟨hasked, hsame, hwaiting, hnoticed⟩ := ht.waiting hs
      have hpaced := hn.step ht
      have hclears := hsame.trans hclears
      rw [Exec.wp_look_apply]
      cases hdone : t.done fut with
      | false =>
          split
          · next hstop =>
            exact .early s hawaits ht hdone (hasked.mp hstop) hclears
          · next hstop =>
            have hnot : ¬ Asked s t := fun h => hstop (hasked.mpr h)
            exact ih (hwaiting hdone) (hawaits.step ht hdone hnot) hclears hpaced
      | true =>
          have hwatches := hnoticed hdone
          split
          · next hstop =>
            exact .done s t hawaits ht hdone hclears hwatches
              (.inl ⟨hasked.mp hstop, rfl⟩)
          · next hstop =>
            have hnot : ¬ Asked s t := fun h => hstop (hasked.mpr h)
            refine (loop_first hwatches hpaced).mono ?_ (fun _ _ h => h)
              fun _ h => h
            exact fun _ r hr => .done s t hawaits ht hdone hclears hwatches
              (.inr ⟨hnot, hr⟩)

/-- The last stop step, when the loop came back before it. -/
theorem runForever_last {a : World ρ μ κ υ ε} {n : Option ℕ}
    (ha : Watches fut settle n a) (hfuel : 0 < a.fuel) :
    Exec.wp runForever
      (fun _ r => ∃ b, Steps a.resumed b ∧ b.clears = a.clears ∧
        b.net.loop.time = a.net.loop.time ∧ r = b.unstopped)
      (fun e r => ∃ t, StepRaised e t ∧ r = t.unstopped) (fun _ => False)
      a.resumed := by
  have hwatches : Watches fut settle (some 1) a.resumed :=
    ⟨ha.watch, ha.settle, rfl⟩
  have hfuel : 0 < a.resumed.fuel := hfuel
  obtain ⟨n, hn⟩ := Nat.exists_eq_succ_of_ne_zero hfuel.ne'
  rw [runForever, Exec.wp_look_apply, hn, Exec.wp_andFinally]
  simp only [Exec.wp_update]
  refine (loop_last hwatches).mono (fun _ b hb => ?_)
    (fun e t ht => ⟨t, ht, rfl⟩) fun _ h => h
  obtain ⟨hclears, -, -, htime⟩ := hb.last hwatches
  exact ⟨b, hb, hclears, htime, rfl⟩

omit [Raisable ε] [Random ρ] in
theorem Paced.fuel_pos {w r : World ρ μ κ υ ε} {n : ℕ} (h : Paced w r n)
    (hw : 0 < w.fuel) : 0 < r.fuel := by
  cases hleft : r.stepsLeft with
  | some k =>
      rw [fuel, hleft]
      exact Nat.succ_pos k
  | none =>
      obtain ⟨hnone, -⟩ := h.steps hleft
      rw [fuel, hnone] at hw
      rw [fuel, hleft, h.horizon]
      exact hw

/-- A loop that comes back had a turn, and leaves one for the last step. -/
theorem loop_fuel (w : World ρ μ κ υ ε) :
    Exec.wp (loopUntilStopped w.fuel) (fun _ r => 0 < r.fuel)
      (fun _ _ => True) (fun _ => True) w := by
  cases hfuel : w.fuel with
  | zero => exact trivial
  | succ n =>
      have hpos : 0 < w.fuel := hfuel ▸ Nat.succ_pos n
      refine Exec.wp_doUntil (I := fun n s => Paced w s n) (fun n s hs => ?_)
        (fun _ _ => trivial) _ (hfuel ▸ .of_fuel w)
      refine (runOnce_ends s).mono (fun _ t ht => ?_) (fun _ _ _ => trivial)
        fun _ _ => trivial
      have ht := hs.step ht
      exact ⟨fun _ => ht.fuel_pos hpos, fun _ => ht⟩

omit [Raisable ε] [Random ρ] in
theorem resumed_eq (h : t.net.loop.stopping = false) (hs : t.stopIn = some 1) :
    t.resumed = t := by
  have hloop : ({ t.net.loop with stopping := false } : Loop _) = t.net.loop := by
    rw [← h]
  rw [resumed, unstopped, hloop, ← hs]

/-- What is left to do when the first `run_forever` has come back. -/
theorem cameBack_stopSteps {w r : World ρ μ κ υ ε}
    (h : CameBack fut settle w r) (hfuel : 0 < r.fuel) :
    Exec.wp (Exec.look fun w : World ρ μ κ υ ε =>
        if w.done fut ∧ (w.stopIn = some 1 ∨ w.stopIn = some 2) then do
          if w.stopIn = some 2 ∧ settle then Exec.update clearHooks
          else pure ()
          Exec.update fun w => { w with stopIn := some 1 }
          runForever
        else pure ())
      (fun _ r' => StopSteps fut settle w (r'.setWatch none none false))
      (fun e r' => ∃ t, StepRaised e t ∧ r' = t.unstopped)
      (fun _ => False) r.unstopped := by
  rw [Exec.wp_look_apply]
  cases h with
  | early u hawaits hstep hdone hasked hclears =>
      have hnot : ¬ (r.unstopped.done fut = true ∧
          (r.unstopped.stopIn = some 1 ∨ r.unstopped.stopIn = some 2)) :=
        fun h => absurd (hdone.symm.trans h.1) (by simp)
      rw [if_neg hnot]
      exact .early u r hawaits hstep hdone hasked hclears rfl
  | done u t hawaits hstep hdone hclears hwatches hr =>
      rcases hr with ⟨hasked, rfl⟩ | ⟨hasked, a, hfirst, ⟨hstop, rfl⟩ | ⟨hgo, hlast⟩⟩
      · have hgoes : r.unstopped.done fut = true ∧
            (r.unstopped.stopIn = some 1 ∨ r.unstopped.stopIn = some 2) :=
          ⟨hdone, .inr hwatches.stopIn⟩
        rw [if_pos hgoes]
        have hone : ∀ a : World ρ μ κ υ ε, Watches fut settle (some 2) a →
            (a = if settle then r.clearHooks else r) →
            a.clears = r.clears + settle.toNat →
            a.net.loop.time = r.net.loop.time → a.fuel = r.fuel →
            Exec.wp runForever
              (fun _ r' => StopSteps fut settle w (r'.setWatch none none false))
              (fun e r' => ∃ t, StepRaised e t ∧ r' = t.unstopped)
              (fun _ => False) a.resumed := by
          intro a ha hsettled hclears' htime hfuel'
          refine (runForever_last ha (hfuel' ▸ hfuel)).mono ?_ (fun _ _ h => h)
            fun _ h => h
          rintro _ r' ⟨b, hb, hbclears, hbtime, rfl⟩
          exact .one u r a b hawaits hstep hdone hasked hsettled hb
            ⟨hclears, hbclears.trans hclears'⟩ (hbtime.trans htime) rfl
        cases settle with
        | false =>
            rw [if_neg (by simp)]
            exact hone r hwatches rfl rfl rfl rfl
        | true =>
            rw [if_pos ⟨hwatches.stopIn, rfl⟩]
            have hclear : r.clearHooks.clears = r.clears + 1 := by
              simp [World.clears, clearHooks, mark, List.countP_append,
                Mark.isCleared]
            exact hone r.clearHooks ⟨hwatches.watch, hwatches.settle,
              hwatches.stopIn⟩ rfl hclear rfl rfl
      · obtain ⟨haclears, hsettled, ha, hatime, hdone'⟩ := hfirst.first hwatches
        have hgoes : r.unstopped.done fut = true ∧
            (r.unstopped.stopIn = some 1 ∨ r.unstopped.stopIn = some 2) :=
          ⟨hdone' hdone, .inl ha.stopIn⟩
        have hsecond : r.unstopped.stopIn ≠ some 2 := by
          show r.stopIn ≠ some 2
          rw [ha.stopIn]
          simp
        rw [if_pos hgoes, if_neg fun h => hsecond h.1]
        refine (runForever_last ha hfuel).mono ?_ (fun _ _ h => h) fun _ h => h
        rintro _ r' ⟨b, hb, hbclears, hbtime, rfl⟩
        exact .two u t r b hawaits hstep hdone hasked hfirst hb
          ⟨hclears, haclears, hbclears⟩ hsettled ⟨hatime, hbtime.trans hatime⟩ rfl
      · obtain ⟨haclears, hsettled, ha, hatime, -⟩ := hfirst.first hwatches
        obtain ⟨hbclears, -, hstopIn, hbtime⟩ := hlast.last ha
        have hnot : ¬ (r.unstopped.done fut = true ∧
            (r.unstopped.stopIn = some 1 ∨ r.unstopped.stopIn = some 2)) := by
          rintro ⟨-, h⟩
          have hzero : r.unstopped.stopIn = some 0 := hstopIn
          rw [hzero] at h
          simp at h
        rw [if_neg hnot]
        refine .two u t a r hawaits hstep hdone hasked hfirst ?_
          ⟨hclears, haclears, hbclears⟩ hsettled ⟨hatime, hbtime.trans hatime⟩ rfl
        rwa [resumed_eq hgo ha.stopIn]

theorem runUntilDone_stopSteps (fut : ℕ) (settle : Bool)
    (w : World ρ μ κ υ ε) : Exec.wp (runUntilDone fut settle)
      (fun _ w' => StopSteps fut settle w w')
      (fun e w' => ∃ t, StepRaised e t ∧ w' = t.released)
      (fun w' => w.stepsLeft = none ∧ w'.steps = w.steps + w.horizon) w := by
  rw [runUntilDone, Exec.wp_bind, Exec.wp_update, Exec.wp_andFinally]
  simp only [Exec.wp_update]
  generalize hs : w.setWatch (some fut) none settle = s
  have hwatches : Watches fut settle none s := hs ▸ ⟨rfl, rfl, rfl⟩
  have hpaced : Paced w s s.fuel := by
    subst hs
    have h := Paced.of_fuel w
    exact ⟨h.left, h.steps, h.horizon⟩
  rw [Exec.wp_bind, runForever, Exec.wp_look_apply, Exec.wp_andFinally]
  simp only [Exec.wp_update]
  refine ((loop_waiting hwatches (hs ▸ .refl) (hs ▸ rfl) hpaced).and
    (loop_fuel s)).mono ?_ ?_ fun _ h => h.1
  · rintro _ r ⟨hr, hfuel⟩
    refine (cameBack_stopSteps hr hfuel).mono (fun _ _ h => h) ?_
      fun _ h => h.elim
    rintro e r' ⟨t, ht, rfl⟩
    exact ⟨t, ht, rfl⟩
  · rintro e t ⟨ht, -⟩
    exact ⟨t, ht, rfl⟩

/-- A future that is not done is driven until a stop is asked for, or for two
more steps after the one that finishes it, or for one more if a stop was asked
for in that step; what is asked for in the extra steps makes no difference. The
settling comes once, after the first of the two or before the one, and the clock
stands still in them. Whatever happens, nothing watches the loop afterwards: no
later step is taken for a stop step. A run that nothing limits and that goes on
past the horizon does not come back. -/
theorem stop_steps (w : World ρ μ κ υ ε) (fut : ℕ) (settle : Bool) :
    Exec.wp (runUntilDone fut settle)
      (fun _ w' => StopSteps fut settle w w' ∧
        w'.watch = none ∧ w'.stopIn = none ∧ w'.settle = false)
      (fun e w' => (∃ s t, runOnce s = (.raised e, t) ∧ w' = t.released) ∧
        w'.watch = none ∧ w'.stopIn = none ∧ w'.settle = false)
      (fun w' => w.stepsLeft = none ∧ w'.steps = w.steps + w.horizon) w := by
  refine (runUntilDone_stopSteps fut settle w).mono ?_ ?_ fun _ h => h
  · intro _ w' h
    refine ⟨h, ?_⟩
    cases h with
    | early u t _ _ _ _ _ hw' => exact hw' ▸ ⟨rfl, rfl, rfl⟩
    | two u t a b _ _ _ _ _ _ _ _ _ hw' => exact hw' ▸ ⟨rfl, rfl, rfl⟩
    | one u t a b _ _ _ _ _ _ _ _ hw' => exact hw' ▸ ⟨rfl, rfl, rfl⟩
  · rintro e w' ⟨t, ⟨s, hs⟩, rfl⟩
    exact ⟨⟨s, t, hs, rfl⟩, rfl, rfl, rfl⟩

end World

end Seedloop
