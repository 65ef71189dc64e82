import Seedloop.Proofs.Scheduling
import Seedloop.Ref.Drive

/-!
# What the log of a run says

Every computation of the library adds to the log, and what it adds tells what
it did to the rest of what a run remembers: how tasks ended, which nodes were
started, which properties are registered, which notes were put on which
exception. Whether the after-step list has the hook of the properties is told
by the log alone, and so is whether that hook was ever installed and whether the
run is being torn down: they are the state of a small machine that reads the
log, and the log never has a mark that this machine does not expect — no
property is evaluated without the hook, and none is registered after the end.

All of that is one relation, closed under putting computations together, and
each operation is checked against it once.
-/

namespace Seedloop

/-- What the log tells of the hook of the properties: whether the list has it,
whether it was installed, and whether the run is being torn down. -/
structure Monitor where
  hooked : Bool
  installed : Bool
  tearing : Bool
  deriving DecidableEq

namespace Monitor

variable {μ υ ε : Type}

/-- What a mark says of it, if it can stand there. -/
def step (m : Monitor) : Mark μ υ ε → Option Monitor
  | .always _ _ => if m.tearing ∨ !m.installed then none else some m
  | .installed =>
      if m.installed ∨ m.tearing then none
      else some ⟨true, true, m.tearing⟩
  | .cleared => some { m with hooked := false }
  | .evaluated _ => if m.hooked then some m else none
  | .tearingDown _ _ =>
      if m.tearing then none else some { m with tearing := true }
  | _ => some m

/-- Before anything happened. -/
def init : Monitor := ⟨false, false, false⟩

end Monitor

/-- The property that a mark registers. -/
def Mark.property? {μ υ ε : Type} :
    Mark μ υ ε → Option (String × Predicate μ υ ε)
  | .always name predicate => some (name, predicate)
  | _ => none

namespace World

variable {ρ μ κ υ ε : Type}

/-- How a task ended. -/
def outcome? (w : World ρ μ κ υ ε) (task : ℕ) : Option (Outcome ε) :=
  match w.tasks[task]? with
  | some t => t.outcome
  | none => none

def monitor (w : World ρ μ κ υ ε) : Monitor :=
  ⟨decide (.checkInvariants ∈ w.hooks), w.invariantsHookInstalled,
    w.tearingDown⟩

/-- What a run remembers. -/
structure Memory (μ υ ε : Type) where
  log : List (Mark μ υ ε)
  outcome : ℕ → Option (Outcome ε)
  started : List ℕ
  notes : List (Exc ε × String)
  invariants : List (String × Predicate μ υ ε)
  monitor : Monitor

def memory (w : World ρ μ κ υ ε) : Memory μ υ ε :=
  ⟨w.log, w.outcome?, w.started, w.notes, w.invariants, w.monitor⟩

/-- From `w` to `w'`, with `ms` added to the log. -/
structure Past (w : World ρ μ κ υ ε) (ms : List (Mark μ υ ε))
    (w' : World ρ μ κ υ ε) : Prop where
  log : w'.log = w.log ++ ms
  outcome : ∀ t o, w.outcome? t = some o → w'.outcome? t = some o
  finished : ∀ t o, .finished t o ∈ ms ↔
    w.outcome? t = none ∧ w'.outcome? t = some o
  started : ∀ t, t ∈ w'.started ↔ t ∈ w.started ∨ .started t ∈ ms
  notes : ∀ n ∈ w.notes, n ∈ w'.notes
  invariants : w'.invariants = w.invariants ++ ms.filterMap Mark.property?
  monitor : Machine.run Monitor.step w.monitor ms = some w'.monitor

theorem Past.of_outcome {w w' : World ρ μ κ υ ε} {ms : List (Mark μ υ ε)}
    (hlog : w'.log = w.log ++ ms) (houtcome : w'.outcome? = w.outcome?)
    (hms : ∀ t o, .finished t o ∉ ms)
    (hstarted : ∀ t, t ∈ w'.started ↔ t ∈ w.started ∨ .started t ∈ ms)
    (hnotes : ∀ n ∈ w.notes, n ∈ w'.notes)
    (hinv : w'.invariants = w.invariants ++ ms.filterMap Mark.property?)
    (hmon : Machine.run Monitor.step w.monitor ms = some w'.monitor) :
    Past w ms w' := by
  refine ⟨hlog, fun t o ho => ?_, fun t o => ?_, hstarted, hnotes, hinv, hmon⟩
  · rw [houtcome, ho]
  · rw [houtcome]
    constructor
    · exact fun h => absurd h (hms t o)
    · rintro ⟨hnone, hsome⟩
      rw [hnone] at hsome
      cases hsome

theorem Past.of_memory {w w' : World ρ μ κ υ ε}
    (h : w'.memory = w.memory) : Past w [] w' := by
  have hlog : w'.log = w.log := congrArg Memory.log h
  have hstarted : w'.started = w.started := congrArg Memory.started h
  have hnotes : w'.notes = w.notes := congrArg Memory.notes h
  have hinv : w'.invariants = w.invariants := congrArg Memory.invariants h
  have hmon : w'.monitor = w.monitor := congrArg Memory.monitor h
  refine .of_outcome ?_ (congrArg Memory.outcome h) (by simp) ?_ ?_ ?_ ?_
  · rw [hlog, List.append_nil]
  · rw [hstarted]
    simp
  · rw [hnotes]
    exact fun n hn => hn
  · rw [hinv]
    simp
  · rw [hmon]
    rfl

theorem Past.refl (w : World ρ μ κ υ ε) : Past w [] w := .of_memory rfl

theorem Past.trans {w w' w'' : World ρ μ κ υ ε} {ms ms' : List (Mark μ υ ε)}
    (h : Past w ms w') (h' : Past w' ms' w'') : Past w (ms ++ ms') w'' := by
  constructor
  · rw [h'.log, h.log, List.append_assoc]
  · exact fun t o ho => h'.outcome t o (h.outcome t o ho)
  · intro t o
    rw [List.mem_append, h.finished, h'.finished]
    constructor
    · rintro (⟨hnone, hsome⟩ | ⟨hnone, hsome⟩)
      · exact ⟨hnone, h'.outcome t o hsome⟩
      · refine ⟨?_, hsome⟩
        cases hw : w.outcome? t with
        | none => rfl
        | some o' =>
            rw [h.outcome t o' hw] at hnone
            cases hnone
    · rintro ⟨hnone, hsome⟩
      cases hw : w'.outcome? t with
      | none => exact .inr ⟨rfl, hsome⟩
      | some o' =>
          rw [h'.outcome t o' hw] at hsome
          cases hsome
          exact .inl ⟨hnone, rfl⟩
  · intro t
    rw [h'.started, h.started, List.mem_append, or_assoc]
  · exact fun n hn => h'.notes n (h.notes n hn)
  · rw [h'.invariants, h.invariants, List.filterMap_append,
      List.append_assoc]
  · exact Machine.run_append_eq_some.mpr ⟨_, h.monitor, h'.monitor⟩

/-- A mark that says nothing of the rest. -/
theorem Past.mark (w : World ρ μ κ υ ε) {m : Mark μ υ ε}
    (hfinished : ∀ t o, m ≠ .finished t o) (hstarted : ∀ t, m ≠ .started t)
    (hproperty : m.property? = none)
    (hmonitor : Monitor.step w.monitor m = some w.monitor) :
    Past w [m] (w.mark m) := by
  refine .of_outcome rfl rfl ?_ (fun t => ?_) (fun _ hn => hn) ?_ ?_
  · intro t o h
    rw [List.mem_singleton] at h
    exact hfinished t o h.symm
  · have hne := (hstarted t).symm
    simp [World.mark, hne]
  · rw [List.filterMap_cons, hproperty]
    simp [World.mark]
  · rw [Machine.run_cons_eq_some]
    exact ⟨_, hmonitor, rfl⟩

/-! ## User code -/

/-- What the loop and the drive go by, which user code does not get at. -/
structure Settings (μ κ υ ε : Type) where
  watch : Option ℕ
  stopIn : Option ℕ
  settle : Bool
  stepsLeft : Option ℕ
  stepError : StepError
  maxSteps : Option ℕ
  tearingDown : Bool
  steps : ℕ
  notes : List (Exc ε × String)
  closed : Bool
  script : ℕ → List (List (UserOp μ κ υ ε))
  horizon : ℕ

def settings (w : World ρ μ κ υ ε) : Settings μ κ υ ε :=
  ⟨w.watch, w.stopIn, w.settle, w.stepsLeft, w.stepError, w.maxSteps,
    w.tearingDown, w.steps, w.notes, w.closed, w.script, w.horizon⟩

end World

/-- A mark that user code leaves. -/
def Mark.byUser {μ υ ε : Type} : Mark μ υ ε → Bool
  | .always _ _ | .installed | .stop | .started _ | .finished _ _ => true
  | _ => false

namespace World

variable {ρ μ κ υ ε : Type}

/-- From `w` to `w'` by user code. -/
structure Turn (w : World ρ μ κ υ ε) (ms : List (Mark μ υ ε))
    (w' : World ρ μ κ υ ε) : Prop where
  past : Past w ms w'
  settings : w'.settings = w.settings
  byUser : ∀ m ∈ ms, m.byUser = true
  stopping : w'.net.loop.stopping = true →
    w.net.loop.stopping = true ∨ .stop ∈ ms

theorem Turn.silent {w w' : World ρ μ κ υ ε} (hm : w'.memory = w.memory)
    (hs : w'.settings = w.settings)
    (hstop : w'.net.loop.stopping = w.net.loop.stopping) : Turn w [] w' :=
  ⟨.of_memory hm, hs, by simp, fun h => .inl (hstop ▸ h)⟩

theorem Turn.refl (w : World ρ μ κ υ ε) : Turn w [] w := .silent rfl rfl rfl

theorem Turn.trans {w w' w'' : World ρ μ κ υ ε} {ms ms' : List (Mark μ υ ε)}
    (h : Turn w ms w') (h' : Turn w' ms' w'') : Turn w (ms ++ ms') w'' := by
  refine ⟨h.past.trans h'.past, h'.settings.trans h.settings,
    fun m hm => ?_, fun hstop => ?_⟩
  · rcases List.mem_append.mp hm with hm | hm
    · exact h.byUser m hm
    · exact h'.byUser m hm
  · rcases h'.stopping hstop with hstop | hmem
    · exact (h.stopping hstop).imp_right (List.mem_append_left _)
    · exact .inr (List.mem_append_right _ hmem)

theorem Turn.trans_silent {w w' w'' : World ρ μ κ υ ε}
    {ms : List (Mark μ υ ε)} (h : Turn w ms w') (h' : Turn w' [] w'') :
    Turn w ms w'' := by
  have := h.trans h'
  rwa [List.append_nil] at this

theorem Turn.silent_trans {w w' w'' : World ρ μ κ υ ε}
    {ms : List (Mark μ υ ε)} (h : Turn w [] w') (h' : Turn w' ms w'') :
    Turn w ms w'' := h.trans h'

theorem outcome?_modify (w : World ρ μ κ υ ε) (task : ℕ)
    (f : Task κ ε → Task κ ε) (hf : ∀ t, (f t).outcome = t.outcome) :
    outcome? { w with tasks := w.tasks.modify task f } = w.outcome? := by
  funext t
  simp only [outcome?, List.getElem?_modify]
  cases w.tasks[t]? with
  | none => rfl
  | some x =>
      by_cases h : task = t
      · simp [h, hf]
      · simp [h]

theorem memory_modify (w : World ρ μ κ υ ε) (task : ℕ)
    (f : Task κ ε → Task κ ε) (hf : ∀ t, (f t).outcome = t.outcome) :
    memory { w with tasks := w.tasks.modify task f } = w.memory := by
  simp only [memory, outcome?_modify w task f hf]
  rfl

theorem outcome?_createTask (w : World ρ μ κ υ ε) (stamped : Bool) (k : κ) :
    (w.createTask stamped k).outcome? = w.outcome? := by
  funext t
  simp only [outcome?, createTask, callSoon]
  by_cases h : t < w.tasks.length
  · rw [List.getElem?_append_left h]
  · rw [List.getElem?_append_right (Nat.le_of_not_lt h),
      List.getElem?_eq_none (Nat.le_of_not_lt h)]
    cases t - w.tasks.length <;> rfl

theorem createTask_turn (w : World ρ μ κ υ ε) (stamped : Bool) (k : κ) :
    Turn w [] (w.createTask stamped k) := by
  refine .silent ?_ rfl rfl
  simp only [memory, outcome?_createTask]
  rfl

theorem start_turn (w : World ρ μ κ υ ε) (k : κ) :
    Turn w [.started w.tasks.length] (w.start k) := by
  have hpast : Past w [.started w.tasks.length]
      (mark { w with started := w.started ++ [w.tasks.length] }
        (.started w.tasks.length)) := by
    refine .of_outcome rfl rfl (by simp) (fun t => ?_) (fun _ hn => hn)
      (List.append_nil _).symm rfl
    simp [mark]
  refine Turn.trans_silent ⟨hpast, rfl, by simp [Mark.byUser], .inl⟩
    (createTask_turn _ true k)

theorem done_eq (w : World ρ μ κ υ ε) (task : ℕ) :
    w.done task = (w.outcome? task).isSome := by
  simp only [done, outcome?]
  cases w.tasks[task]? <;> rfl

theorem outcome?_eq_none {w : World ρ μ κ υ ε} {task : ℕ}
    (h : w.done task = false) : w.outcome? task = none := by
  rw [done_eq] at h
  cases hw : w.outcome? task with
  | none => rfl
  | some o =>
      rw [hw] at h
      cases h

theorem outcome?_finish (w : World ρ μ κ υ ε) {task : ℕ}
    (hlt : task < w.tasks.length) (o : Outcome ε) (t : ℕ) :
    outcome? { w with
        tasks := w.tasks.modify task fun t => { t with outcome := some o } } t =
      if t = task then some o else w.outcome? t := by
  simp only [outcome?, List.getElem?_modify]
  by_cases h : task = t
  · subst h
    rw [List.getElem?_eq_getElem hlt]
    simp
  · have h' : t ≠ task := fun heq => h heq.symm
    simp [h, h']

theorem finishTask_turn {w : World ρ μ κ υ ε} {task : ℕ} (o : Outcome ε)
    (hlt : task < w.tasks.length) (hdone : w.done task = false) :
    Turn w [.finished task o] (w.finishTask task o) := by
  have hnone := outcome?_eq_none hdone
  have houtcome := outcome?_finish w hlt o
  have hturn : Turn w [.finished task o] (mark { w with
      tasks := w.tasks.modify task fun t => { t with outcome := some o } }
      (.finished task o)) := by
    refine ⟨?_, rfl, by simp [Mark.byUser], .inl⟩
    constructor
    · rfl
    · intro t o' ho'
      refine (houtcome t).trans ?_
      rw [if_neg]
      · exact ho'
      · rintro rfl
        rw [hnone] at ho'
        cases ho'
    · intro t o'
      rw [List.mem_singleton]
      have heq := houtcome t
      constructor
      · intro h
        cases h
        exact ⟨hnone, heq.trans (if_pos rfl)⟩
      · rintro ⟨hn, hs⟩
        have hs := heq.symm.trans hs
        split at hs
        · next ht =>
          cases hs
          rw [ht]
        · rw [hn] at hs
          cases hs
    · simp [mark]
    · exact fun n hn => hn
    · simp [mark, Mark.property?]
    · rfl
  simp only [finishTask]
  split
  · exact hturn.trans_silent (.silent rfl rfl rfl)
  · exact hturn

theorem cancelRunUntil_turn (w : World ρ μ κ υ ε) :
    Turn w [] w.cancelRunUntil := by
  rw [cancelRunUntil]
  split
  · split
    · exact .refl w
    · exact .silent rfl rfl rfl
  · exact .refl w

theorem wake_turn (w : World ρ μ κ υ ε) (x : Wake κ) : Turn w [] (w.wake x) := by
  cases x with
  | ready k => exact .silent rfl rfl rfl
  | runUntil => exact cancelRunUntil_turn w

theorem foldl_wake_turn (xs : List (Wake κ)) (w : World ρ μ κ υ ε) :
    Turn w [] (xs.foldl wake w) := by
  induction xs generalizing w with
  | nil => exact .refl w
  | cons x xs ih => exact (wake_turn w x).silent_trans (ih _)

theorem cancelTask_turn (w : World ρ μ κ υ ε) (task : ℕ) :
    Turn w [] (w.cancelTask task) := by
  rw [cancelTask]
  split
  · split
    · exact .refl w
    · refine Turn.silent_trans ?_ (foldl_wake_turn _ _)
      exact .silent (memory_modify w task _ fun _ => rfl) rfl rfl
  · exact .refl w

theorem register_turn {w : World ρ μ κ υ ε} (name : String)
    (p : Predicate μ υ ε) (htear : w.tearingDown = false)
    (hflag : w.invariantsHookInstalled = true) :
    Turn w [.always name p] (mark { w with
      invariants := w.invariants ++ [(name, p)] } (.always name p)) := by
  refine ⟨.of_outcome rfl rfl (by simp) (by simp [mark]) (fun _ hn => hn)
    rfl ?_, rfl, by simp [Mark.byUser], .inl⟩
  have htear' : w.monitor.tearing = false := htear
  have hflag' : w.monitor.installed = true := hflag
  rw [Machine.run_cons_eq_some]
  refine ⟨w.monitor, ?_, rfl⟩
  rw [Monitor.step, htear', hflag']
  rfl

theorem install_turn {w : World ρ μ κ υ ε} (htear : w.tearingDown = false)
    (hflag : w.invariantsHookInstalled = false) :
    Turn w [.installed] (mark { w with
      hooks := w.hooks ++ [.checkInvariants]
      invariantsHookInstalled := true } .installed) := by
  refine ⟨.of_outcome rfl rfl (by simp) (by simp [mark]) (fun _ hn => hn)
    (List.append_nil _).symm ?_, rfl, by simp [Mark.byUser], .inl⟩
  have htear' : w.monitor.tearing = false := htear
  have hflag' : w.monitor.installed = false := hflag
  rw [Machine.run_cons_eq_some, Monitor.step, htear', hflag']
  refine ⟨⟨true, true, false⟩, rfl, ?_⟩
  rw [Machine.run_nil, Option.some.injEq]
  simp [monitor, mark, htear]

theorem always_turn (w : World ρ μ κ υ ε) (name : String)
    (p : Predicate μ υ ε) : ∃ ms, Turn w ms (w.always name p) := by
  by_cases htear : w.tearingDown = true
  · rw [always, if_pos htear]
    exact ⟨[], .refl w⟩
  · have hfalse : w.tearingDown = false := Bool.eq_false_iff.mpr htear
    rw [always, if_neg htear]
    simp only []
    split
    · next hflag => exact ⟨_, register_turn name p hfalse hflag⟩
    · next hflag =>
      have hturn := install_turn hfalse (Bool.eq_false_iff.mpr hflag)
      exact ⟨_, hturn.trans (register_turn name p hfalse rfl)⟩

theorem mem_hooks_erase (hooks : List Hook) (call : ℕ) :
    .checkInvariants ∈ hooks.erase (.check call) ↔
      .checkInvariants ∈ hooks :=
  List.mem_erase_of_ne (by simp)

theorem endRunUntil_turn (w : World ρ μ κ υ ε) : Turn w [] w.endRunUntil := by
  rw [endRunUntil]
  split
  · exact .refl w
  · next r hr =>
    have hturn : Turn w [] { w with
        hooks := w.hooks.erase (.check r.call)
        runUntil := none
        runUntilActive := false } := by
      refine .silent ?_ rfl rfl
      simp only [memory, monitor, mem_hooks_erase]
      rfl
    simp only []
    split
    · exact hturn
    · exact hturn.trans_silent (.silent rfl rfl rfl)

theorem resolve_turn (w : World ρ μ κ υ ε) (r : RunUntil μ κ υ ε)
    (d : Decision ε) : Turn w [] (w.resolve r d) := by
  simp only [resolve]
  split <;> exact .silent rfl rfl rfl

theorem addCheck_turn (w : World ρ μ κ υ ε) (r : RunUntil μ κ υ ε) (n : ℕ)
    {net : Net ρ μ (Job κ)}
    (hnet : net.loop.stopping = w.net.loop.stopping) :
    Turn w [] { w with
      runUntilActive := true
      runUntil := some r
      nextCall := n
      hooks := w.hooks ++ [.check w.nextCall]
      net := net } := by
  have hmem : (.checkInvariants ∈ w.hooks ++ [.check w.nextCall]) =
      (.checkInvariants ∈ w.hooks) := by
    simp
  refine .silent ?_ rfl hnet
  simp only [memory, monitor, hmem]
  rfl

theorem gatherChild_turn (w : World ρ μ κ υ ε) : Turn w [] w.gatherChild := by
  rw [gatherChild]
  split
  · simp only []
    split <;> exact .silent rfl rfl rfl
  · exact .silent rfl rfl rfl

section

variable [Raisable ε]

theorem check_turn (call : ℕ) (w : World ρ μ κ υ ε) :
    Exec.wp (check call) (fun _ w' => Turn w [] w')
      (fun e w' => w' = w ∧ e.kind ≠ .exception) (fun _ => False) w := by
  rw [check, Exec.wp_look_apply]
  split
  · exact .refl w
  · split
    · exact .refl w
    · split
      · split
        · exact resolve_turn w _ _
        · next he => exact ⟨rfl, he⟩
      · exact resolve_turn w _ _
      · split
        · split
          · exact resolve_turn w _ _
          · exact .refl w
        · exact .refl w

/-- What the first check of a `run_until` leaves: a call that waits, or one
that is over. -/
def openOrEnd (checked : Except (Exc ε) (Option (Exc ε)))
    (w : World ρ μ κ υ ε) : World ρ μ κ υ ε :=
  match checked, w.runUntil with
  | .ok _, some r =>
      if r.done.isSome then w.endRunUntil
      else { w with runUntil := some { r with awaited := true } }
  | _, _ => w.endRunUntil

theorem startRunUntil_turn (p : Predicate μ υ ε) (d : Option (Num × ℚ))
    (k : κ) (w : World ρ μ κ υ ε) :
    Exec.wp (startRunUntil p d k) (fun _ w' => Turn w [] w')
      (fun _ _ => False) (fun _ => False) w := by
  rw [startRunUntil, Exec.wp_look_apply]
  simp only [Exec.wp_bind, Exec.wp_update, Exec.wp_attempt]
  refine (check_turn _ _).mono ?_ ?_ fun _ h => h
  · intro _ w' hw'
    have hturn : Turn w [] w' :=
      (addCheck_turn w _ _ (by cases d <;> rfl)).silent_trans hw'
    split
    · split
      · exact hturn.trans_silent (endRunUntil_turn w')
      · exact hturn.trans_silent (.silent rfl rfl rfl)
    · exact hturn.trans_silent (endRunUntil_turn w')
  · rintro e w' ⟨rfl, -⟩
    exact (addCheck_turn w _ _ (by cases d <;> rfl)).trans_silent
      (endRunUntil_turn _)

theorem callRunUntil_turn (p : Predicate μ υ ε) (d : Option Num) (k : κ)
    (w : World ρ μ κ υ ε) :
    Exec.wp (callRunUntil p d k) (fun _ w' => Turn w [] w')
      (fun _ _ => False) (fun _ => False) w := by
  unfold callRunUntil
  rw [Exec.wp_look_apply]
  split
  · exact .refl w
  · split
    · exact startRunUntil_turn p none k w
    · split
      · exact startRunUntil_turn p _ k w
      · exact .refl w

/-- How user code and the handles of the network leave a world: with marks of
their own, and after an interrupt with that as the last one. -/
def Interrupted (w : World ρ μ κ υ ε) (e : Exc ε) (w' : World ρ μ κ υ ε) :
    Prop :=
  e.kind = .interrupt ∧ ∃ ms u, Turn w ms u ∧ w' = u.mark (.interrupted e)

theorem Turn.interrupted {w w' w'' : World ρ μ κ υ ε} {e : Exc ε}
    {ms : List (Mark μ υ ε)} (h : Turn w ms w') (h' : Interrupted w' e w'') :
    Interrupted w e w'' := by
  obtain ⟨he, ms', u, hu, rfl⟩ := h'
  exact ⟨he, _, u, h.trans hu, rfl⟩

variable [Random ρ]

theorem netOp_turn (o : Op μ κ) (w : World ρ μ κ υ ε) :
    Exec.wp (userOp (.net o)) (fun _ w' => ∃ ms, Turn w ms w')
      (fun _ _ => False) (fun _ => False) w := by
  simp only [userOp, Exec.wp_update]
  split
  · exact ⟨[], .refl w⟩
  · next net reply h =>
    have hpast : Past w [] { w with net := net } := .of_memory rfl
    split
    · refine ⟨[.stop], hpast.trans (.mark _ (by simp) (by simp) rfl rfl), rfl,
        by simp [Mark.byUser], fun _ => .inr List.mem_cons_self⟩
    · next hstop =>
      refine ⟨[], .silent rfl rfl (Net.op_stopping h fun heq => ?_)⟩
      cases o with
      | stop => exact hstop rfl
      | _ => cases heq

/-- What one operation of user code does: if it is not an interrupt, it leaves
marks of its own, and an interrupt is the last mark. -/
theorem userOp_turn (o : UserOp μ κ υ ε) (w : World ρ μ κ υ ε) :
    Exec.wp (userOp o) (fun _ w' => ∃ ms, Turn w ms w')
      (Interrupted w) (fun _ => False) w := by
  cases o with
  | net o =>
      exact (netOp_turn o w).mono (fun _ _ h => h) (fun _ _ h => h.elim)
        fun _ h => h
  | set user => exact ⟨[], .silent rfl rfl rfl⟩
  | always name p => exact always_turn w name p
  | runUntil p d k =>
      exact (callRunUntil_turn p d k w).mono (fun _ _ h => ⟨[], h⟩)
        (fun _ _ h => h.elim) fun _ h => h
  | endRunUntil => exact ⟨[], endRunUntil_turn w⟩
  | createTask stamped k => exact ⟨[], createTask_turn w stamped k⟩
  | start k => exact ⟨_, start_turn w k⟩
  | cancelTask task => exact ⟨[], cancelTask_turn w task⟩
  | await task onCancel =>
      exact ⟨[], .silent (memory_modify w task _ fun _ => rfl) rfl rfl⟩
  | interrupt e =>
      simp only [userOp]
      split
      · next he => exact ⟨he, [], w, .refl w, rfl⟩
      · exact ⟨[], .refl w⟩
  | finish task outcome =>
      have hturn (hlt : task < w.tasks.length) (hdone : w.done task = false) :=
        finishTask_turn outcome hlt hdone
      cases outcome with
      | returned | cancelled =>
          simp only [userOp, Exec.wp_look_apply]
          split
          · next h => exact ⟨_, hturn h.1 h.2⟩
          · exact ⟨[], .refl w⟩
      | raised e =>
          simp only [userOp, Exec.wp_look_apply]
          split
          · next h =>
            rw [Exec.wp_bind, Exec.wp_update]
            simp only []
            split
            · next he => exact ⟨he, _, _, hturn h.1 h.2, rfl⟩
            · exact ⟨_, hturn h.1 h.2⟩
          · exact ⟨[], .refl w⟩

theorem userOps_turn (os : List (UserOp μ κ υ ε)) (w : World ρ μ κ υ ε) :
    Exec.wp (Exec.forEach userOp os) (fun _ w' => ∃ ms, Turn w ms w')
      (Interrupted w) (fun _ => False) w := by
  refine Exec.wp_forEach (fun o _ u hu => ?_) ⟨[], .refl w⟩
  obtain ⟨ms, hu⟩ := hu
  refine (userOp_turn o u).mono ?_ (fun e v hv => hu.interrupted hv)
    fun _ h => h
  rintro _ v ⟨ms', hv⟩
  exact ⟨_, hu.trans hv⟩

theorem runJob_turn (c : Callback μ (Job κ)) (turn : List (UserOp μ κ υ ε))
    (w : World ρ μ κ υ ε) :
    Exec.wp (runJob c turn) (fun _ w' => ∃ ms, Turn w ms w') (Interrupted w)
      (fun _ => False) w := by
  unfold runJob
  split
  · exact ⟨[], gatherChild_turn w⟩
  · have hpast : Past w [] w.stopLoop := .of_memory rfl
    exact ⟨[.stop], hpast.trans (.mark _ (by simp) (by simp) rfl rfl), rfl,
      by simp [Mark.byUser], fun _ => .inr List.mem_cons_self⟩
  · exact ⟨[], .refl w⟩
  · rw [Exec.wp_bind, Exec.wp_update]
    have hrun : Turn w [] { w with net := w.net.runCallback c } :=
      .silent rfl rfl (Net.runCallback_stopping w.net c)
    refine (userOps_turn turn _).mono ?_ (fun e v hv => hrun.interrupted hv)
      fun _ h => h
    rintro _ v ⟨ms, hv⟩
    exact ⟨ms, hrun.silent_trans hv⟩

theorem runBatch_turn (n : ℕ) (turns : List (List (UserOp μ κ υ ε)))
    (w : World ρ μ κ υ ε) :
    Exec.wp (runBatch n turns) (fun _ w' => ∃ ms, Turn w ms w')
      (Interrupted w) (fun _ => False) w := by
  induction n generalizing turns w with
  | zero => exact ⟨[], .refl w⟩
  | succ n ih =>
      rw [runBatch, Exec.wp_look_apply]
      split
      · exact ⟨[], .refl w⟩
      · next h ready hready =>
        rw [Exec.wp_bind, Exec.wp_update]
        have hpop : Turn w [] { w with net := { w.net with
            loop := { w.net.loop with ready := ready } } } := .silent rfl rfl rfl
        split
        · refine (ih turns _).mono ?_ (fun e v hv => hpop.interrupted hv)
            fun _ h => h
          rintro _ v ⟨ms, hv⟩
          exact ⟨ms, hpop.silent_trans hv⟩
        · rw [Exec.wp_bind]
          refine (runJob_turn _ _ _).mono ?_
            (fun e v hv => hpop.interrupted hv) fun _ h => h
          rintro _ u ⟨ms, hu⟩
          have hu := hpop.silent_trans hu
          refine (ih _ u).mono ?_ (fun e v hv => hu.interrupted hv)
            fun _ h => h
          rintro _ v ⟨ms', hv⟩
          exact ⟨_, hu.trans hv⟩

theorem takeTurns_turn (w : World ρ μ κ υ ε) :
    Exec.wp takeTurns (fun _ w' => ∃ ms, Turn w ms w') (Interrupted w)
      (fun _ => False) w :=
  runBatch_turn _ _ w

end

end World

end Seedloop
