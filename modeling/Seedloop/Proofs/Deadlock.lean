import Seedloop.Proofs.Steps

/-!
# A deadlock is when nothing can happen

The loop looks at the head of its heap, after dropping the cancelled timers
there, and at nothing else. That this decides a statement about every timer is
the order of the heap: a live timer is still in the purged heap, and the head
is no later than it; so when the head never fires, neither does any other. The
other way round the head is live, and the clock goes to it, so it is due.

An error that a check raises may be a deadlock that user code kept from
elsewhere. What tells the two apart is when it is raised: a step that deadlocks
has begun and done nothing else.
-/

namespace Seedloop

namespace Loop

variable {κ : Type}

/-- The timers that are not cancelled, in the order of the heap. -/
def live (l : Loop κ) : List (Timer κ) :=
  l.timers.entries.filter fun t => !l.isCancelled t.handle

/-- Nothing is ready, and no timer that is left ever fires. -/
def Quiescent (l : Loop κ) : Prop :=
  l.ready = [] ∧ ∀ t ∈ l.live, t.when = .posInf

theorem mem_live {l : Loop κ} {t : Timer κ} :
    t ∈ l.live ↔ t ∈ l.timers.entries ∧ t.handle.id ∉ l.cancelled := by
  simp [live, isCancelled]

theorem purge_live (l : Loop κ) : l.purgeCancelledTimers.live = l.live := by
  have hsplit := l.timers.takeWhile_append_dropWhile
    fun t => l.isCancelled t.handle
  have hnone : (l.timers.takeWhile fun t => l.isCancelled t.handle).filter
      (fun t => !l.isCancelled t.handle) = [] := by
    rw [List.filter_eq_nil_iff]
    intro t ht
    have := List.mem_takeWhile_imp
      (p := fun t : Timer κ => l.isCancelled t.handle) ht
    simp [this]
  rw [live, live, ← hsplit, List.filter_append, hnone]
  rfl

/-- The head of the purged heap speaks for every live timer. -/
theorem purge_head_posInf {l : Loop κ} :
    (∀ t, l.purgeCancelledTimers.timers.head? = some t → t.when = .posInf) ↔
      ∀ t ∈ l.live, t.when = .posInf := by
  constructor
  · intro h t ht
    obtain ⟨hmem, hlive⟩ := mem_live.mp ht
    have hpurged := (mem_purgeCancelledTimers hlive).mpr hmem
    cases hhead : l.purgeCancelledTimers.timers.head? with
    | none =>
        have := List.head?_eq_none_iff.mp hhead
        rw [this] at hpurged
        cases hpurged
    | some u =>
        have hinf := h u hhead
        rcases Prod.Lex.toLex_le_toLex.mp (PQueue.head_le hhead hpurged) with
          hlt | ⟨heq, -⟩
        · have hlt : u.when < t.when := hlt
          rw [hinf] at hlt
          exact absurd (When.le_posInf t.when) (not_le_of_gt hlt)
        · exact (show u.when = t.when from heq) ▸ hinf
  · intro h t ht
    exact h t (mem_live.mpr (purge_head_live ht))

theorem autojump_deadlock {l : Loop κ} {stopStep : Bool} :
    (l.autojump stopStep).2 = true ↔
      l.Quiescent ∧ stopStep = false ∧ l.stopping = false := by
  rcases autojump_cases l stopStep with
    ⟨hc, h⟩ | ⟨hr, hs, t, ht, hw, h⟩ | ⟨hr, hs, hinf, h⟩
  · rw [h]
    exact ⟨by simp, fun hq => absurd ⟨hq.1.1, hq.2.1⟩ hc⟩
  · rw [h]
    refine ⟨by simp, fun hq => absurd ?_ hw⟩
    exact purge_head_posInf.mpr hq.1.2 t ht
  · rw [h]
    have := purge_head_posInf.mp hinf
    simpa [Quiescent, hr, hs] using fun _ => this

theorem beginStep_deadlock {l : Loop κ} {stopStep : Bool} :
    (l.beginStep stopStep).2 = true ↔
      l.Quiescent ∧ stopStep = false ∧ l.stopping = false := by
  rw [← autojump_deadlock, beginStep]
  rcases l.autojump stopStep with ⟨l', _ | _⟩ <;> simp

/-- A deadlock leaves the clock and the live timers as they are. -/
theorem beginStep_of_deadlock {l : Loop κ} {stopStep : Bool}
    (h : (l.beginStep stopStep).2 = true) :
    (l.beginStep stopStep).1.time = l.time ∧
      (l.beginStep stopStep).1.live = l.live := by
  obtain ⟨⟨hr, hlive⟩, hs, hstop⟩ := beginStep_deadlock.mp h
  rcases autojump_cases l stopStep with
    ⟨hc, -⟩ | ⟨-, -, t, ht, hw, -⟩ | ⟨-, -, -, hauto⟩
  · exact absurd ⟨hr, hs⟩ hc
  · exact absurd (purge_head_posInf.mpr hlive t ht) hw
  · rw [beginStep, hauto, hstop]
    exact ⟨rfl, purge_live l⟩

/-- With nothing ready, a step that may jump and need not deadlock promotes a
live timer. -/
theorem beginStep_promotes {l : Loop κ} (hready : l.ready = [])
    (hlive : ¬ ∀ t ∈ l.live, t.when = .posInf) :
    ∃ t ∈ l.live, t ∈ l.promotedBy (.beginStep false) := by
  rcases autojump_cases l false with
    ⟨hc, -⟩ | ⟨-, -, t, ht, hw, hauto⟩ | ⟨-, -, hinf, -⟩
  · exact absurd ⟨hready, rfl⟩ hc
  · have hmem := mem_live.mpr (purge_head_live ht)
    refine ⟨t, hmem, ?_⟩
    rw [promotedBy, promotedAt, hauto]
    refine mem_promoted.mpr ⟨?_, ?_, (mem_live.mp hmem).2⟩
    · obtain ⟨rest, hrest⟩ := List.head?_eq_some_iff.mp ht
      show t ∈ l.purgeCancelledTimers.timers.entries
      rw [hrest]
      exact List.mem_cons_self
    · exact ((jumpTo_le hw).mp le_rfl).2
  · exact absurd (purge_head_posInf.mp hinf) hlive

end Loop

namespace World

variable {ρ μ κ υ ε : Type}

/-- A step that is not cut by the limit, before it looks at the clock. -/
def counted (w : World ρ μ κ υ ε) : World ρ μ κ υ ε :=
  mark { w with
    steps := w.steps + 1
    stepsLeft := w.stepsLeft.map (· - 1) } .stepBegin

variable [Raisable ε]

/-- What the loop does to a step before its batch. -/
def startStep : Run ρ μ κ υ ε Unit := do
  takeStep
  beginStep

/-- A step begins, and a `DeadlockError` is all that comes of it. -/
def Deadlocks [Random ρ] (w : World ρ μ κ υ ε) : Prop :=
  ∃ w', runOnce w =
      (.raised (.sys (w.steps + 1) (.deadlock w.pendingTasks)), w') ∧
    w'.log = w.log ++ [.stepBegin,
      .failed (.sys (w.steps + 1) (.deadlock w.pendingTasks))]

omit [Raisable ε] in
theorem takeStep_eq {w : World ρ μ κ υ ε} (h : w.stepsLeft ≠ some 0) :
    takeStep w = (.ok (), w.counted) := by
  cases hleft : w.stepsLeft with
  | none =>
      simp only [takeStep, Exec.look, hleft, bind, Exec.update, counted]
      rfl
  | some n =>
      cases n with
      | zero => exact absurd hleft h
      | succ n =>
          simp only [takeStep, Exec.look, hleft, bind, Exec.update, counted]
          rfl

omit [Raisable ε] in
theorem beginStep_eq (w : World ρ μ κ υ ε) :
    beginStep w =
      if (w.net.loop.beginStep w.stopIn.isSome).2 then
        (.raised (.sys w.steps (.deadlock w.pendingTasks)),
          mark { w with net := { w.net with
            loop := (w.net.loop.beginStep w.stopIn.isSome).1 } }
            (.failed (.sys w.steps (.deadlock w.pendingTasks))))
      else
        (.ok (), { w with net := { w.net with
          loop := (w.net.loop.beginStep w.stopIn.isSome).1 } }) := by
  simp only [beginStep, Exec.look, bind, Exec.update]
  split <;> rfl

variable [Random ρ]

omit [Random ρ] in
theorem CheckFails.log {w w' : World ρ μ κ υ ε} {e : Exc ε}
    (h : CheckFails w e w') :
    ∃ ms, w'.log = w.log ++ .stepEnd w.view :: ms := by
  have hmark : ∀ ms (u : World ρ μ κ υ ε),
      Checks (w.mark (.stepEnd w.view)) ms u →
      u.log = w.log ++ .stepEnd w.view :: ms := by
    intro ms u hu
    rw [hu.past.log, mark, List.append_assoc]
    rfl
  cases h with
  | aborted h =>
      obtain ⟨ms, u, hu, -, ⟨-, rfl⟩ | ⟨-, rfl⟩⟩ := h
      · exact ⟨ms ++ [.interrupted e], by simp [mark, hmark ms u hu]⟩
      · exact ⟨ms ++ [.checkFailed e], by simp [mark, hmark ms u hu]⟩
  | failed ms u hu _ _ hw' =>
      exact ⟨ms, by rw [hw'.past.log, hmark ms u hu, List.append_nil]⟩
  | noteRaised ms u first hu _ hw' =>
      obtain ⟨v, hv, rfl⟩ := hw'
      refine ⟨ms ++ [.noteRaised e], ?_⟩
      simp [mark, hv.past.log, hmark ms u hu]

/-- The batch and the checks leave a mark, and not that of a failed loop. -/
theorem afterBegin_log (b : World ρ μ κ υ ε) :
    Exec.wp (do
        takeTurns
        afterStep
        Exec.update countStop)
      (fun _ w' => ∃ m ms, w'.log = b.log ++ m :: ms ∧ ∀ e, m ≠ .failed e)
      (fun _ w' => ∃ m ms, w'.log = b.log ++ m :: ms ∧ ∀ e, m ≠ .failed e)
      (fun _ => False) b := by
  have hbatch : ∀ (v w' : World ρ μ κ υ ε) ms m rest, Turn b ms v →
      w'.log = v.log ++ m :: rest → (∀ e, m ≠ .failed e) →
      ∃ m ms, w'.log = b.log ++ m :: ms ∧ ∀ e, m ≠ .failed e := by
    intro v w' ms m rest hv hw' hm
    rw [hv.past.log, List.append_assoc] at hw'
    cases ms with
    | nil => exact ⟨m, rest, hw', hm⟩
    | cons x xs =>
        refine ⟨x, xs ++ m :: rest, hw', fun e he => ?_⟩
        have := hv.byUser x List.mem_cons_self
        rw [he] at this
        cases this
  simp only [Exec.wp_bind, Exec.wp_update]
  refine (takeTurns_turn b).mono ?_ ?_ fun _ h => h
  · rintro _ v ⟨ms, hv⟩
    refine (afterStep_checks v).mono ?_ ?_ fun _ h => h
    · rintro _ x ⟨⟨ms', hx, -⟩, -⟩
      obtain ⟨ms'', hc, -⟩ := (countStop_counted x).past
      refine hbatch v _ ms (.stepEnd v.view) (ms' ++ ms'') hv ?_ (by simp)
      rw [hc.log, hx.past.log, mark, List.append_assoc, List.append_assoc]
      rfl
    · intro e x hx
      obtain ⟨ms', hx⟩ := hx.log
      exact hbatch v x ms _ ms' hv hx (by simp)
  · rintro e v ⟨-, ms, u, hu, rfl⟩
    exact hbatch u _ ms (.interrupted e) [] hu rfl (by simp)

omit [Raisable ε] [Random ρ] in
theorem beginStep_of_not {w : World ρ μ κ υ ε}
    (h : (w.net.loop.beginStep w.stopIn.isSome).2 = false) :
    beginStep w = (.ok (), { w with net := { w.net with
      loop := (w.net.loop.beginStep w.stopIn.isSome).1 } }) := by
  rw [beginStep_eq, if_neg (by simp [h])]

theorem runOnce_of_deadlock {w : World ρ μ κ υ ε}
    (hlimit : w.stepsLeft ≠ some 0)
    (h : (w.net.loop.beginStep w.stopIn.isSome).2 = true) :
    runOnce w = (.raised (.sys (w.steps + 1) (.deadlock w.pendingTasks)),
      mark { w.counted with net := { w.net with
        loop := (w.net.loop.beginStep w.stopIn.isSome).1 } }
        (.failed (.sys (w.steps + 1) (.deadlock w.pendingTasks)))) := by
  have hbegin := beginStep_eq w.counted
  rw [show (w.counted.net.loop.beginStep w.counted.stopIn.isSome).2 = true
    from h, if_pos rfl] at hbegin
  simp only [runOnce, bind, takeStep_eq hlimit, hbegin]
  rfl

theorem deadlocks_iff {w : World ρ μ κ υ ε} (hlimit : w.stepsLeft ≠ some 0) :
    Deadlocks w ↔ (w.net.loop.beginStep w.stopIn.isSome).2 = true := by
  cases hdead : (w.net.loop.beginStep w.stopIn.isSome).2 with
  | true =>
      refine ⟨fun _ => rfl, fun _ => ⟨_, runOnce_of_deadlock hlimit hdead, ?_⟩⟩
      show (w.log ++ [.stepBegin]) ++ [_] = _
      rw [List.append_assoc]
      rfl
  | false =>
      refine ⟨?_, by simp⟩
      rintro ⟨w', hw', hlog⟩
      simp only [runOnce, bind, takeStep_eq hlimit,
        beginStep_of_not (w := w.counted) hdead] at hw'
      obtain ⟨m, ms, hlog', hm⟩ := (afterBegin_log _).err_of hw'
      rw [hlog'] at hlog
      have hlog : w.log ++ [.stepBegin] ++ m :: ms = _ := hlog
      rw [List.append_assoc, List.append_cancel_left_eq] at hlog
      cases hlog
      exact absurd rfl (hm _)

/-- A step that the limit does not cut raises `DeadlockError` if, and only if,
nothing is ready, every timer is cancelled or never fires, it is no stop step
and no stop was asked for. If it does not although it looked, a live timer is
in its batch; if it does, the clock and the live timers are as they were. -/
theorem deadlock_when_quiescent {w : World ρ μ κ υ ε}
    (hlimit : w.stepsLeft ≠ some 0) :
    (Deadlocks w ↔
      w.net.loop.ready = [] ∧
      (∀ t ∈ w.net.loop.timers.entries,
        t.handle.id ∈ w.net.loop.cancelled ∨ t.when = .posInf) ∧
      w.stopIn = none ∧ w.net.loop.stopping = false) ∧
    (¬ Deadlocks w → w.net.loop.ready = [] → w.stopIn = none →
      w.net.loop.stopping = false →
      ∃ b, startStep w = (.ok (), b) ∧ ∃ t ∈ w.net.loop.live,
        t.handle ∈ b.net.loop.ready ∧ t ∉ b.net.loop.timers.entries) ∧
    (Deadlocks w →
      (runOnce w).2.net.loop.time = w.net.loop.time ∧
      (runOnce w).2.net.loop.live = w.net.loop.live) := by
  have hlive : (∀ t ∈ w.net.loop.live, t.when = .posInf) ↔
      ∀ t ∈ w.net.loop.timers.entries,
        t.handle.id ∈ w.net.loop.cancelled ∨ t.when = .posInf := by
    simp only [Loop.mem_live, and_imp, ← or_iff_not_imp_left]
  have hiff : Deadlocks w ↔ w.net.loop.ready = [] ∧
      (∀ t ∈ w.net.loop.live, t.when = .posInf) ∧ w.stopIn = none ∧
      w.net.loop.stopping = false := by
    rw [deadlocks_iff hlimit, Loop.beginStep_deadlock, Loop.Quiescent,
      and_assoc, Option.isSome_eq_false_iff, Option.isNone_iff_eq_none]
  refine ⟨by rw [hiff, hlive], ?_, ?_⟩
  · intro hnot hready hstopIn hstopping
    have hsome : ¬ ∀ t ∈ w.net.loop.live, t.when = .posInf :=
      fun h => hnot (hiff.mpr ⟨hready, h, hstopIn, hstopping⟩)
    rw [deadlocks_iff hlimit, Bool.not_eq_true] at hnot
    refine ⟨{ w.counted with net := { w.net with
      loop := (w.net.loop.beginStep w.stopIn.isSome).1 } }, ?_, ?_⟩
    · simp only [startStep, bind, takeStep_eq hlimit,
        beginStep_of_not (w := w.counted) hnot]
      rfl
    · obtain ⟨t, ht, hpromoted⟩ := Loop.beginStep_promotes hready hsome
      obtain ⟨-, -, -, -, hb, -, -, hgone, -⟩ := Loop.beginStep_spec
        (l := w.net.loop) (b := w.stopIn.isSome) rfl
      rw [hstopIn] at hb hgone ⊢
      refine ⟨t, ht, ?_, (hgone t hpromoted).2.2⟩
      show t.handle ∈ (w.net.loop.beginStep _).1.ready
      rw [hb]
      exact List.mem_append_right _ (List.mem_map_of_mem hpromoted)
  · intro hdead
    have hdead := (deadlocks_iff hlimit).mp hdead
    rw [runOnce_of_deadlock hlimit hdead]
    exact Loop.beginStep_of_deadlock hdead

/-- A sleep without an end, and one that was cancelled. -/
def sleepers : World Toggle ℕ ℕ ℕ Plain :=
  let w := init Toggle.low Toggle.low 0 none (fun _ => []) 0
  { w with net := { w.net with
    loop := ((w.net.loop.callAt (.fin 3) (.user .deadline)).callAt .posInf
      (.user .deadline)).cancel 0 } }

theorem deadlock_when_quiescent_sleepers :
    Deadlocks sleepers ∧ (runOnce sleepers).2.net.loop.time = 0 := by
  have h := deadlock_when_quiescent (w := sleepers) (by decide)
  have hdead := h.1.mpr (by decide)
  exact ⟨hdead, (h.2.2 hdead).1⟩

end World

end Seedloop
