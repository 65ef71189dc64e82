import Seedloop.Proofs.InFlight

/-!
# A passing run satisfied its properties

A property counts from the step that registers it up to the step after the one
in which the scenario's task is done, or up to that one if user code stops the
loop in it. `scope` reads this off the log, and `Checked` says of a log that
every property registered so far held wherever it counts.

As long as properties count, the after-step list has not been cleared; so the
hook is on it, once a property is registered, and a step that passes its checks
has them all hold. This goes on from step to step until the run is out of scope,
which it is before a drive gets past the scenario; from there on nothing counts
that happens. The one thing to know of user code is that the loop stops in a
step only if it was asked to in that step.
-/

namespace Seedloop

/-- Where a run is, as far as its properties go: the scenario runs, or its task
is done in this step, with whether the loop was asked to stop in this step; or
it is the step after that; or nothing counts any more. -/
inductive Scope where
  | running (stopped : Bool)
  | finishing (stopped : Bool)
  | first
  | closed
  deriving DecidableEq

/-- The mark of `loop.stop()`. -/
def Mark.isStop {μ υ ε : Type} : Mark μ υ ε → Bool
  | .stop => true
  | _ => false

/-- The mark at the end of the batch of a step. -/
def Mark.isStepEnd {μ υ ε : Type} : Mark μ υ ε → Bool
  | .stepEnd _ => true
  | _ => false

/-- The mark where the scenario's task is done. -/
def Mark.isEnd {μ υ ε : Type} : Mark μ υ ε → Bool
  | .finished task _ => task = World.mainTask
  | _ => false

namespace Scope

variable {μ υ ε : Type}

def step : Scope → Mark μ υ ε → Scope
  | .running _, .stepBegin => .running false
  | .running _, .stop => .running true
  | .running stopped, .finished task _ =>
      if task = World.mainTask then .finishing stopped else .running stopped
  | .finishing _, .stop => .finishing true
  | .finishing stopped, .stepEnd _ => if stopped then .closed else .first
  | .first, .stepEnd _ => .closed
  | s, _ => s

end Scope

/-- Where a run is after a log. -/
def scope {μ υ ε : Type} (log : List (Mark μ υ ε)) : Scope :=
  log.foldl Scope.step (.running false)

namespace Scope

variable {μ υ ε : Type}

@[simp] theorem foldl_closed (ms : List (Mark μ υ ε)) :
    ms.foldl step .closed = .closed := by
  induction ms with
  | nil => rfl
  | cons m ms ih => cases m <;> exact ih

theorem foldl_byUser_first {ms : List (Mark μ υ ε)}
    (h : ∀ m ∈ ms, m.byUser = true) : ms.foldl step .first = .first := by
  induction ms with
  | nil => rfl
  | cons m ms ih =>
      have hm := h m List.mem_cons_self
      have ih := ih fun x hx => h x (List.mem_cons_of_mem _ hx)
      cases m with
      | always | installed | stop | started | finished => exact ih
      | _ => cases hm

theorem foldl_byUser_finishing {ms : List (Mark μ υ ε)} (stopped : Bool)
    (h : ∀ m ∈ ms, m.byUser = true) :
    ms.foldl step (.finishing stopped) =
      .finishing (stopped || ms.any Mark.isStop) := by
  induction ms generalizing stopped with
  | nil => rw [List.any_nil, Bool.or_false, List.foldl_nil]
  | cons m ms ih =>
      have hm := h m List.mem_cons_self
      have hms := fun x hx => h x (List.mem_cons_of_mem _ hx)
      rw [List.foldl_cons, List.any_cons]
      cases m with
      | stop =>
          refine (ih true hms).trans ?_
          cases stopped <;> rfl
      | always | installed | started | finished => exact ih stopped hms
      | _ => cases hm

theorem foldl_byUser_running {ms : List (Mark μ υ ε)} (stopped : Bool)
    (h : ∀ m ∈ ms, m.byUser = true) :
    ms.foldl step (.running stopped) =
      if ms.any Mark.isEnd then .finishing (stopped || ms.any Mark.isStop)
      else .running (stopped || ms.any Mark.isStop) := by
  induction ms generalizing stopped with
  | nil =>
      rw [List.any_nil, List.any_nil, Bool.or_false, List.foldl_nil]
      rfl
  | cons m ms ih =>
      have hm := h m List.mem_cons_self
      have hms := fun x hx => h x (List.mem_cons_of_mem _ hx)
      rw [List.foldl_cons, List.any_cons, List.any_cons]
      cases m with
      | stop =>
          refine (ih true hms).trans ?_
          cases stopped <;> rfl
      | always | installed | started => exact ih stopped hms
      | finished task outcome =>
          simp only [Mark.isStop, Bool.false_or, Mark.isEnd]
          by_cases hmain : task = World.mainTask
          · have hstep : step (.running stopped)
                (.finished task outcome : Mark μ υ ε) = .finishing stopped :=
              if_pos hmain
            rw [hstep, foldl_byUser_finishing stopped hms, decide_eq_true hmain,
              Bool.true_or, if_pos rfl]
          · have hstep : step (.running stopped)
                (.finished task outcome : Mark μ υ ε) = .running stopped :=
              if_neg hmain
            rw [hstep, ih stopped hms, decide_eq_false hmain, Bool.false_or]
      | _ => cases hm

theorem foldl_isEvaluated {ms : List (Mark μ υ ε)} (s : Scope)
    (h : ∀ m ∈ ms, m.isEvaluated = true) : ms.foldl step s = s := by
  induction ms generalizing s with
  | nil => rfl
  | cons m ms ih =>
      have hm := h m List.mem_cons_self
      have hms := fun x hx => h x (List.mem_cons_of_mem _ hx)
      cases m with
      | evaluated name => cases s <;> exact ih _ hms
      | _ => cases hm

end Scope

section

variable {μ υ ε : Type}

@[simp] theorem scope_append (log ms : List (Mark μ υ ε)) :
    scope (log ++ ms) = ms.foldl Scope.step (scope log) :=
  List.foldl_append

theorem scope_closed {log : List (Mark μ υ ε)} (h : scope log = .closed)
    (ms : List (Mark μ υ ε)) : scope (log ++ ms) = .closed := by
  rw [scope_append, h, Scope.foldl_closed]

/-- Wherever properties count, those that are registered hold. -/
def Checked (log : List (Mark μ υ ε)) : Prop :=
  ∀ pre v post, log = pre ++ .stepEnd v :: post → scope pre ≠ .closed →
    ∀ name p, .always name p ∈ pre → p v = .holds

theorem Checked.nil : Checked ([] : List (Mark μ υ ε)) := by
  intro pre v post h
  cases pre <;> cases h

/-- One more mark, and a step that ends is checked if it counts. -/
theorem Checked.concat {log : List (Mark μ υ ε)} (h : Checked log)
    (m : Mark μ υ ε)
    (hm : ∀ v, m = .stepEnd v → scope log ≠ .closed →
      ∀ name p, .always name p ∈ log → p v = .holds) :
    Checked (log ++ [m]) := by
  intro pre v post hlog hscope
  rcases List.eq_nil_or_concat post with rfl | ⟨post, m', rfl⟩
  · obtain ⟨rfl, hmv⟩ := List.append_inj' hlog rfl
    exact hm v (List.singleton_inj.mp hmv) hscope
  · rw [List.concat_eq_append, ← List.cons_append, ← List.append_assoc] at hlog
    obtain ⟨hlog, -⟩ := List.append_inj' hlog rfl
    exact h pre v post hlog hscope

theorem Checked.append {log ms : List (Mark μ υ ε)} (h : Checked log)
    (hms : ∀ m ∈ ms, ∀ v, m ≠ .stepEnd v) : Checked (log ++ ms) := by
  induction ms generalizing log with
  | nil => rwa [List.append_nil]
  | cons m ms ih =>
      rw [List.append_cons]
      refine ih (h.concat m fun v hv => ?_)
        fun x hx => hms x (List.mem_cons_of_mem _ hx)
      exact absurd hv (hms m List.mem_cons_self v)

theorem Checked.append_closed {log : List (Mark μ υ ε)} (h : Checked log)
    (hclosed : scope log = .closed) (ms : List (Mark μ υ ε)) :
    Checked (log ++ ms) := by
  induction ms generalizing log with
  | nil => rwa [List.append_nil]
  | cons m ms ih =>
      rw [List.append_cons]
      exact ih (h.concat m fun _ _ hscope => absurd hclosed hscope)
        (scope_closed hclosed [m])

end

/-- A list that was never cleared has the hook, if a property is registered. -/
theorem Monitor.run_uncleared {μ υ ε : Type} {ms : List (Mark μ υ ε)}
    {m m' : Monitor} (h : Machine.run Monitor.step m ms = some m')
    (hms : .cleared ∉ ms) (hm : m.installed = true → m.hooked = true) :
    (m'.installed = true → m'.hooked = true) ∧
      (m.installed = true ∨ (∃ name p, .always name p ∈ ms) →
        m'.installed = true) := by
  induction ms generalizing m with
  | nil =>
      cases h
      exact ⟨hm, fun h => h.resolve_right (by simp)⟩
  | cons x ms ih =>
      obtain ⟨u, hu, hrun⟩ := Machine.run_cons_eq_some.mp h
      rw [List.mem_cons, not_or] at hms
      have hstep : (u.installed = true → u.hooked = true) ∧
          (m.installed = true ∨ (∃ name p, x = .always name p) →
            u.installed = true) := by
        cases x with
        | cleared => exact absurd rfl hms.1
        | always name p =>
            simp only [Monitor.step] at hu
            split at hu
            · cases hu
            · next hnot =>
              cases hu
              refine ⟨hm, fun _ => ?_⟩
              rw [not_or, Bool.not_eq_true', Bool.not_eq_false] at hnot
              exact hnot.2
        | installed =>
            simp only [Monitor.step] at hu
            split at hu
            · cases hu
            · cases hu
              exact ⟨fun _ => rfl, fun _ => rfl⟩
        | evaluated =>
            simp only [Monitor.step] at hu
            split at hu
            · cases hu
              exact ⟨hm, fun h => h.resolve_right (by simp)⟩
            · cases hu
        | tearingDown =>
            simp only [Monitor.step] at hu
            split at hu
            · cases hu
            · cases hu
              exact ⟨hm, fun h => h.resolve_right (by simp)⟩
        | _ =>
            cases hu
            exact ⟨hm, fun h => h.resolve_right (by simp)⟩
      obtain ⟨hhooked, hinstalled⟩ := ih hrun hms.2 hstep.1
      refine ⟨hhooked, fun h => hinstalled ?_⟩
      rcases h with h | ⟨name, p, hmem⟩
      · exact .inl (hstep.2 (.inl h))
      · rcases List.mem_cons.mp hmem with rfl | hmem
        · exact .inl (hstep.2 (.inr ⟨name, p, rfl⟩))
        · exact .inr ⟨name, p, hmem⟩

namespace World

variable {ρ μ κ υ ε : Type}

/-- From the start of a run, with its log checked. -/
structure Tracked (w t : World ρ μ κ υ ε) : Prop where
  past : Past w t.log t
  checked : Checked t.log

/-- Before anything happened. -/
structure Fresh (w : World ρ μ κ υ ε) : Prop where
  log : w.log = []
  invariants : w.invariants = []
  monitor : w.monitor = .init

theorem Fresh.past {w t : World ρ μ κ υ ε} {ms : List (Mark μ υ ε)}
    (hw : Fresh w) (h : Past w ms t) : Past w t.log t := by
  have hlog := h.log
  rw [hw.log, List.nil_append] at hlog
  rwa [hlog]

theorem Fresh.mem_invariants {w t : World ρ μ κ υ ε} (hw : Fresh w)
    (h : Past w t.log t) {name : String} {p : Predicate μ υ ε}
    (hp : .always name p ∈ t.log) : (name, p) ∈ t.invariants := by
  rw [h.invariants, hw.invariants, List.nil_append, List.mem_filterMap]
  exact ⟨_, hp, rfl⟩

/-- A list that was never cleared has the hook of what is registered. -/
theorem Fresh.mem_hooks {w t : World ρ μ κ υ ε} (hw : Fresh w)
    (h : Past w t.log t) (hcleared : .cleared ∉ t.log) {name : String}
    {p : Predicate μ υ ε} (hp : .always name p ∈ t.log) :
    .checkInvariants ∈ t.hooks := by
  have hrun := h.monitor
  rw [hw.monitor] at hrun
  obtain ⟨hhooked, hinstalled⟩ :=
    Monitor.run_uncleared hrun hcleared (by simp [Monitor.init])
  exact of_decide_eq_true (hhooked (hinstalled (.inr ⟨name, p, hp⟩)))

/-- Where the run of a scenario is between two steps. -/
inductive Stage (t : World ρ μ κ υ ε) : Prop
  | running (stopped : Bool) (hscope : scope t.log = .running stopped)
      (hdone : t.done mainTask = false) (hstop : t.stopIn = none)
      (hcleared : .cleared ∉ t.log)
  | first (hscope : scope t.log = .first)
      (hstopping : t.net.loop.stopping = false) (hcleared : .cleared ∉ t.log)
  | closed (hscope : scope t.log = .closed)

theorem Stage.uncleared {t : World ρ μ κ υ ε} (h : Stage t)
    (hscope : scope t.log ≠ .closed) : .cleared ∉ t.log := by
  cases h with
  | running stopped _ _ _ hcleared => exact hcleared
  | first _ _ hcleared => exact hcleared
  | closed hclosed => exact absurd hclosed hscope

/-- The end of the batch of a step, which is checked. -/
theorem Tracked.stepEnd {w t b v x : World ρ μ κ υ ε} {ms : List (Mark μ υ ε)}
    (hw : Fresh w) (ht : Tracked w t) (hstage : Stage t) (hb : Begun t b)
    (hv : Turn b ms v) (hx : Looked (v.mark (.stepEnd v.view)) x)
    (hholds : .checkInvariants ∈ v.hooks →
      ∀ p ∈ v.invariants, p.2 v.view = .holds) :
    Tracked w x ∧ scope x.log =
      Scope.step (ms.foldl Scope.step
        (Scope.step (scope t.log) (.stepBegin : Mark μ υ ε)))
        (.stepEnd v.view : Mark μ υ ε) ∧
      (.cleared ∉ t.log → .cleared ∉ x.log) := by
  obtain ⟨ms', hx, hnone⟩ := hx
  have hevaluated : ∀ m ∈ ms', m.isEvaluated = true := by
    rcases hx.split (by rw [hnone]; exact Nat.zero_le 1) with
      ⟨-, hall⟩ | ⟨-, f, -, hf, -⟩
    · exact hall
    · rw [hnone] at hf
      cases hf
  have hvlog : v.log = t.log ++ [.stepBegin] ++ ms := by
    rw [hv.past.log, hb.past.log]
  have hxlog : x.log = v.log ++ [.stepEnd v.view] ++ ms' := hx.past.log
  have hvpast : Past w v.log v :=
    hw.past ((ht.past.trans hb.past).trans hv.past)
  have hunbegun : ∀ m ∈ ([.stepBegin] : List (Mark μ υ ε)) ++ ms,
      (∀ u, m ≠ .stepEnd u) ∧ m ≠ .cleared := by
    refine List.forall_mem_append.mpr ⟨by simp, fun m hm => ?_⟩
    have hby := hv.byUser m hm
    cases m with
    | always | installed | stop | started | finished => simp
    | _ => cases hby
  have hvchecked : Checked v.log := by
    rw [hvlog, List.append_assoc]
    exact ht.checked.append fun m hm => (hunbegun m hm).1
  have hcleared : .cleared ∉ t.log → .cleared ∉ v.log := by
    rw [hvlog, List.append_assoc, List.mem_append, not_or]
    exact fun h => ⟨h, fun hmem => (hunbegun _ hmem).2 rfl⟩
  have hkept : ∀ m ∈ ms', (∀ u, m ≠ .stepEnd u) ∧ m ≠ .cleared := by
    intro m hm
    have hm := hevaluated m hm
    cases m with
    | evaluated => simp
    | _ => cases hm
  refine ⟨⟨hw.past ((hvpast.trans (stepEnd_past v)).trans hx.past), ?_⟩, ?_,
    fun h => ?_⟩
  · rw [hxlog]
    refine (hvchecked.concat _ ?_).append fun m hm => (hkept m hm).1
    rintro u hu hscope name p hp
    cases hu
    have htscope : scope t.log ≠ .closed := by
      intro hclosed
      rw [hvlog, List.append_assoc, scope_closed hclosed] at hscope
      exact hscope rfl
    have hclear := hcleared (hstage.uncleared htscope)
    exact hholds (hw.mem_hooks hvpast hclear hp) (name, p)
      (hw.mem_invariants hvpast hp)
  · rw [hxlog, scope_append, Scope.foldl_isEvaluated _ hevaluated,
      scope_append, hvlog, scope_append, scope_append]
    rfl
  · rw [hxlog, List.mem_append, List.mem_append, not_or, not_or]
    refine ⟨⟨hcleared h, by simp⟩, fun hmem => ?_⟩
    exact (hkept _ hmem).2 rfl

theorem Tracked.counted {w x t' : World ρ μ κ υ ε} (hw : Fresh w)
    (hx : Tracked w x) (h : Counted x t') :
    Tracked w t' ∧ ∃ ms, t'.log = x.log ++ ms := by
  obtain ⟨ms, hpast, hms⟩ := h.past
  refine ⟨⟨hw.past (hx.past.trans hpast), ?_⟩, ms, hpast.log⟩
  rw [hpast.log]
  refine hx.checked.append fun m hm v => ?_
  rw [hms m hm]
  simp

theorem any_isEnd {ms : List (Mark μ υ ε)} :
    ms.any Mark.isEnd = true ↔ ∃ o, .finished mainTask o ∈ ms := by
  rw [List.any_eq_true]
  constructor
  · rintro ⟨m, hm, hend⟩
    cases m with
    | finished task o =>
        have htask : task = mainTask := of_decide_eq_true hend
        exact ⟨o, htask ▸ hm⟩
    | _ => cases hend
  · rintro ⟨o, ho⟩
    exact ⟨_, ho, by simp [Mark.isEnd]⟩

theorem any_isStop {ms : List (Mark μ υ ε)} (h : .stop ∈ ms) :
    ms.any Mark.isStop = true :=
  List.any_eq_true.mpr ⟨.stop, h, rfl⟩

/-- The batch of a step has the mark of the task that it finishes. -/
theorem Turn.done_iff {b v : World ρ μ κ υ ε} {ms : List (Mark μ υ ε)}
    (hv : Turn b ms v) (hdone : b.done mainTask = false) :
    v.done mainTask = true ↔ ms.any Mark.isEnd = true := by
  rw [any_isEnd, done_eq, Option.isSome_iff_exists]
  have hnone := outcome?_eq_none hdone
  constructor
  · rintro ⟨o, ho⟩
    exact ⟨o, (hv.past.finished _ _).mpr ⟨hnone, ho⟩⟩
  · rintro ⟨o, ho⟩
    exact ⟨o, ((hv.past.finished _ _).mp ho).2⟩

/-- A step of the scenario's run. -/
theorem Stage.step {w t t' : World ρ μ κ υ ε} (hw : Fresh w)
    (ht : Tracked w t) (hstage : Stage t) (hwatch : t.watch = some mainTask)
    (hstopping : t.net.loop.stopping = false) (h : Stepped t t') :
    Tracked w t' ∧ Stage t' ∧ t'.watch = some mainTask := by
  obtain ⟨b, ms, v, x, hb, hv, hx, hholds, rfl⟩ := h
  obtain ⟨hxtrack, hxscope, hxcleared⟩ :=
    ht.stepEnd hw hstage hb hv hx hholds
  obtain ⟨ms', hx, hnone⟩ := hx
  have hcount := countStop_counted x
  generalize x.countStop = t' at hcount
  obtain ⟨ht', ms'', hlog⟩ := hxtrack.counted hw hcount
  have hset : x.settings = { t.settings with
      steps := t.steps + 1
      stepsLeft := t.stepsLeft.map (· - 1) } := by
    rw [hx.settings]
    exact hv.settings.trans hb.settings
  have hxwatch : x.watch = some mainTask :=
    (congrArg Settings.watch hset).trans hwatch
  refine ⟨ht', ?_, ?_⟩
  · cases hstage with
    | closed hclosed =>
        refine .closed ?_
        rw [hlog, scope_append, hxscope, hclosed]
        simp [Scope.step]
    | first hfirst _ _ =>
        refine .closed ?_
        rw [hlog, scope_append, hxscope, hfirst]
        simp only [Scope.step, Scope.foldl_byUser_first hv.byUser,
          Scope.foldl_closed]
    | running stopped hrunning hdone hstop hcleared =>
        have hxstop : x.stopIn = none :=
          (congrArg Settings.stopIn hset).trans hstop
        have hbdone : b.done mainTask = false := by
          rw [done_eq, hb.past.outcome_eq (by simp), ← done_eq, hdone]
        have hvdone := hv.done_iff hbdone
        have hend : Past v (.stepEnd v.view :: ms') x :=
          (stepEnd_past v).trans hx.past
        have hxdone : x.done mainTask = v.done mainTask := by
          rw [done_eq, done_eq, hend.outcome_eq]
          intro task o ho
          rcases List.mem_cons.mp ho with ho | ho
          · cases ho
          · cases hx.byCheck _ ho
        rw [hrunning] at hxscope
        have hbatch := Scope.foldl_byUser_running false hv.byUser
        rw [Bool.false_or] at hbatch
        simp only [Scope.step, hbatch] at hxscope
        cases hcount with
        | idle hidle =>
            rw [hidle] at hxwatch
            cases hxwatch
        | waiting fut hfut _ hxnot =>
            cases hfut.symm.trans hxwatch
            rw [hxdone] at hxnot
            have hnot : ms.any Mark.isEnd = false := by
              rw [← Bool.not_eq_true, ← hvdone, hxnot]
              simp
            rw [hnot, if_neg (by simp)] at hxscope
            exact .running _ hxscope (hxdone.trans hxnot) hxstop
              (hxcleared hcleared)
        | noticed fut hfut _ hxyes =>
            cases hfut.symm.trans hxwatch
            rw [hxdone] at hxyes
            rw [if_pos (hvdone.mp hxyes)] at hxscope
            cases hany : ms.any Mark.isStop with
            | true =>
                rw [hany] at hxscope
                exact .closed hxscope
            | false =>
                rw [hany] at hxscope
                refine .first hxscope ?_ (hxcleared hcleared)
                -- Nothing asked the loop to stop in this step.
                cases hvstop : v.net.loop.stopping with
                | false =>
                    exact hx.stopping.trans hvstop
                | true =>
                    rcases hv.stopping hvstop with hbstop | hmem
                    · rw [hb.stopping, hstopping] at hbstop
                      cases hbstop
                    · rw [any_isStop hmem] at hany
                      cases hany
        | counted fut n _ hsome | settled fut n _ hsome
          | stopped fut n _ hsome =>
            rw [hxstop] at hsome
            cases hsome
  · have := congrArg Settings.watch hcount.settings
    exact this.trans hxwatch

section

variable [Raisable ε] [Random ρ]

theorem runForever_stage {w t : World ρ μ κ υ ε} (hw : Fresh w)
    (ht : Tracked w t) (hstage : Stage t) (hwatch : t.watch = some mainTask)
    (hstopping : t.net.loop.stopping = false) :
    Exec.wp runForever (fun _ t' => Tracked w t' ∧
      (t'.done mainTask = true → scope t'.log = .closed)) (fun _ _ => True)
      (fun _ => True) t := by
  have hclear : ∀ t : World ρ μ κ υ ε, Past t [] { t with
      net := { t.net with loop := { t.net.loop with stopping := false } } } :=
    fun _ => .of_memory rfl
  rw [runForever, Exec.wp_look_apply, Exec.wp_andFinally]
  simp only [Exec.wp_update]
  refine Exec.wp_doUntil (I := fun _ t => Tracked w t ∧ Stage t ∧
      t.watch = some mainTask ∧ t.net.loop.stopping = false)
    (fun _ s hs => ?_) (fun _ _ => trivial) _ ⟨ht, hstage, hwatch, hstopping⟩
  obtain ⟨hs, hstage, hwatch, hstopping⟩ := hs
  refine (runOnce_steps s).mono ?_ (fun _ _ _ => trivial) fun _ h => h.elim
  rintro _ t' ht'
  obtain ⟨htrack, hstage', hwatch'⟩ :=
    hstage.step hw hs hwatch hstopping ht'
  refine ⟨fun hstop => ⟨⟨hw.past (htrack.past.trans (hclear t')),
    htrack.checked⟩, fun hdone => ?_⟩, fun hstop =>
    ⟨htrack, hstage', hwatch', hstop⟩⟩
  cases hstage' with
  | running _ _ hnot =>
      have hdone : t'.done mainTask = true := hdone
      rw [hnot] at hdone
      cases hdone
  | first _ hnot =>
      rw [hnot] at hstop
      cases hstop
  | closed hclosed => exact hclosed

/-- A run that gets past its scenario is out of scope, and checked. -/
theorem runScenario_closed {w t : World ρ μ κ υ ε} (hw : Fresh w)
    (ht : Tracked w t) (hscope : scope t.log = .running false)
    (hdone : t.done mainTask = false) (hcleared : .cleared ∉ t.log)
    (hstopping : t.net.loop.stopping = false) :
    Exec.wp runScenario
      (fun _ v => Tracked w v ∧ scope v.log = .closed) (fun _ _ => True)
      (fun _ => True) t := by
  have hset : ∀ (u : World ρ μ κ υ ε) watch stopIn settle, Tracked w u →
      Tracked w (u.setWatch watch stopIn settle) := by
    intro u watch stopIn settle hu
    have hpast : Past u [] (u.setWatch watch stopIn settle) := .of_memory rfl
    exact ⟨hw.past (hu.past.trans hpast), hu.checked⟩
  have hwatch := hset t (some mainTask) none true ht
  have hend := fun u => hset u none none false
  have hlast : ∀ u v : World ρ μ κ υ ε, Tracked w u → scope u.log = .closed →
      (∃ ms, Past u ms v) → Tracked w v ∧ scope v.log = .closed := by
    rintro u v hu hclosed ⟨ms, hv⟩
    refine ⟨⟨hw.past (hu.past.trans hv), ?_⟩, ?_⟩
    · rw [hv.log]
      exact hu.checked.append_closed hclosed ms
    · rw [hv.log]
      exact scope_closed hclosed ms
  have hfinish : ∀ u : World ρ μ κ υ ε, Tracked w u →
      (u.done mainTask = true → scope u.log = .closed) →
      Exec.wp (Exec.look fun w : World ρ μ κ υ ε =>
        if w.done mainTask then pure ()
        else fail (.sys w.steps .loopStopped))
      (fun _ v => Tracked w v ∧ scope v.log = .closed) (fun _ _ => True)
      (fun _ => True) u := by
    intro u hu hclosed
    rw [Exec.wp_look_apply]
    split
    · next hdone => exact ⟨hu, hclosed hdone⟩
    · exact trivial
  rw [runScenario, Exec.wp_bind, runUntilDone, Exec.wp_bind, Exec.wp_update,
    Exec.wp_andFinally, Exec.wp_bind]
  simp only [Exec.wp_update]
  refine (runForever_stage hw hwatch (.running false hscope hdone rfl hcleared)
    rfl hstopping).mono ?_ (fun _ _ _ => trivial) fun _ _ => trivial
  rintro _ u ⟨hu, hclosed⟩
  rw [Exec.wp_look_apply]
  split
  · next hstop =>
    have hclosed := hclosed hstop.1
    have hforever : ∀ b : World ρ μ κ υ ε, (∃ ms, Past u ms b) → Exec.wp
        runForever
        (fun _ v => Exec.wp (Exec.look fun w : World ρ μ κ υ ε =>
            if w.done mainTask then pure ()
            else fail (.sys w.steps .loopStopped))
          (fun _ v => Tracked w v ∧ scope v.log = .closed) (fun _ _ => True)
          (fun _ => True) (v.setWatch none none false))
        (fun _ _ => True) (fun _ => True) b := by
      rintro b ⟨ms, hb⟩
      refine (runForever_goes b).mono ?_ (fun _ _ _ => trivial)
        fun _ _ => trivial
      rintro _ v ⟨ms', hv⟩
      obtain ⟨hv, hclosed⟩ := hlast u v hu hclosed ⟨_, hb.trans hv.past⟩
      exact hfinish _ (hend v hv) fun _ => hclosed
    split
    · have hclear := clearHooks_past u
      have hone : Past u.clearHooks [] { u.clearHooks with stopIn := some 1 } :=
        .of_memory rfl
      simp only [Exec.wp_bind, Exec.wp_update]
      exact hforever _ ⟨_, hclear.trans hone⟩
    · have hone : Past u [] { u with stopIn := some 1 } := .of_memory rfl
      simp only [Exec.wp_bind, Exec.wp_update]
      exact hforever _ ⟨_, hone⟩
  · exact hfinish _ (hend u hu) hclosed

variable [DecidableEq ε]

theorem drive_checked {w : World ρ μ κ υ ε} (hw : Fresh w)
    (htasks : w.tasks = []) (hstopping : w.net.loop.stopping = false)
    (htear : w.tearingDown = false) (main : κ) :
    Exec.wp (drive main) (fun _ w' => Checked w'.log) (fun _ _ => True)
      (fun _ => True) w := by
  have hbegin := beginDrive_past w main
  have hdone : ((w.limitSteps w.maxSteps .livelock).createTask true main).done
      mainTask = false := by
    simp [done, createTask, callSoon, limitSteps, htasks, mainTask]
  have hbstop : ((w.limitSteps w.maxSteps .livelock).createTask true
      main).net.loop.stopping = false := hstopping
  rw [drive]
  simp only [Exec.wp_bind, Exec.wp_update, Exec.wp_attempt, Exec.wp_andFinally]
  generalize (w.limitSteps w.maxSteps .livelock).createTask true main = b
    at hbegin hdone hbstop
  have hblog : b.log = [] := by
    rw [hbegin.log, hw.log]
    rfl
  have hb : Tracked w b := by
    refine ⟨hw.past hbegin, ?_⟩
    rw [hblog]
    exact Checked.nil
  have hscope : scope b.log = .running false := by
    rw [hblog]
    rfl
  have hcleared : .cleared ∉ b.log := by
    rw [hblog]
    simp
  have hbtear : b.tearingDown = false :=
    (hbegin.tearingDown (by simp)).trans htear
  have hutear : ∀ failure ms u, Surfaced b failure ms u →
      u.tearingDown = false := fun failure ms u hs =>
    (hs.past.tearingDown hs.begins).trans hbtear
  -- A drive with something on its way does not return.
  have hraises : ∀ failure (e : Exc ε) ms u, Surfaced b failure ms u → Exec.wp
      (tearDown failure)
      (fun _ s => Exec.wp (Exec.reraise (.error e) : Run ρ μ κ υ ε Unit)
        (fun _ w' => Checked w'.log) (fun _ _ => True) (fun _ => True)
        { s with closed := true })
      (fun _ _ => True) (fun _ => True) u := fun failure e ms u hs =>
    (tearDown_tornDown failure (hutear _ ms u hs)).mono
      (fun _ _ _ => trivial) (fun _ _ _ => trivial) fun _ _ => trivial
  have hscenario := (runScenario_closed hw hb hscope hdone hcleared hbstop).and
    (runScenario_ran b)
  refine hscenario.mono ?_ ?_ fun _ _ => trivial
  · rintro _ v ⟨⟨hv, hclosed⟩, hran⟩
    refine (surface_surfaced hran).mono ?_ (fun _ _ h => h.elim)
      fun _ _ => trivial
    rintro r u ⟨hr, -⟩
    cases hr with
    | raised _ failure e ms hs he => exact hraises failure e ms u hs
    | passed _ ms hu hs =>
        refine (tearDown_tornDown none (hutear _ ms u hs)).mono ?_
          (fun _ _ _ => trivial) fun _ _ => trivial
        rintro _ w' ⟨pre, ms', -, -, ht⟩
        have hlog : w'.log = v.log ++ ([.settling none] ++
            (pre ++ .tearingDown none u.pendingTasks :: ms')) :=
          (hu.trans ht.past).log
        have : Checked w'.log := by
          rw [hlog]
          exact hv.checked.append_closed hclosed _
        exact this
  · rintro f v ⟨-, hran⟩
    refine (surface_surfaced hran).mono ?_ (fun _ _ h => h.elim)
      fun _ _ => trivial
    rintro r u ⟨hr, hok⟩
    cases hr with
    | raised _ failure e ms hs he => exact hraises failure e ms u hs
    | passed _ ms hu hs => cases hok rfl

/-- When a drive returns, every property held at the end of every step from
the one that registered it up to the one after the step in which the scenario's
task was done, or up to that one if it stopped the loop. -/
theorem properties_held (netRng faultsRng : ρ) (user : υ)
    (maxSteps : Option ℕ) (script : ℕ → List (List (UserOp μ κ υ ε)))
    (horizon : ℕ) (main : κ) {w' : World ρ μ κ υ ε}
    (hrun : drive main (.init netRng faultsRng user maxSteps script horizon) =
      (.ok (), w'))
    {pre post : List (Mark μ υ ε)} {v : View μ υ}
    (hlog : w'.log = pre ++ .stepEnd v :: post) (hscope : scope pre ≠ .closed)
    {name : String} {p : Predicate μ υ ε} (hp : .always name p ∈ pre) :
    p v = .holds :=
  (drive_checked ⟨rfl, rfl, rfl⟩ rfl rfl rfl main).ok_of hrun pre v post hlog
    hscope name p hp

end

theorem exists_stepEnd {log : List (Mark μ υ ε)}
    (h : log.any Mark.isStepEnd = true) : ∃ v post,
      log = log.takeWhile (!·.isStepEnd) ++ .stepEnd v :: post := by
  induction log with
  | nil => cases h
  | cons m log ih =>
      cases m with
      | stepEnd v => exact ⟨v, log, rfl⟩
      | _ =>
          obtain ⟨v, post, hlog⟩ := ih h
          exact ⟨v, post, congrArg (List.cons _) hlog⟩

/-- A property is registered in the step in which the scenario ends. -/
def heldProperty : List (List (List (UserOp ℕ ℕ ℕ Plain))) :=
  [[[.always "p" fun v => if v.user = 0 then .holds else .fails,
    .finish 0 .returned]]]

theorem properties_held_heldProperty :
    ∃ pre v post p, (driven heldProperty).2.log = pre ++ .stepEnd v :: post ∧
      .always "p" p ∈ pre ∧ p v = .holds := by
  have hok : (driven heldProperty).1.isOk = true := by decide +kernel
  have hscope : scope ((driven heldProperty).2.log.takeWhile (!·.isStepEnd)) ≠
      .closed := by decide +kernel
  have halways : "p" ∈ ((driven heldProperty).2.log.takeWhile
      (!·.isStepEnd)).filterMap fun m => m.property?.map Prod.fst := by
    decide +kernel
  have hend : (driven heldProperty).2.log.any Mark.isStepEnd = true := by
    decide +kernel
  obtain ⟨v, post, hlog⟩ := exists_stepEnd hend
  obtain ⟨m, hm, hname⟩ := List.mem_filterMap.mp halways
  obtain ⟨⟨name, p⟩, hp, hname⟩ := Option.map_eq_some_iff.mp hname
  rw [show name = "p" from hname] at hp
  have halways : .always "p" p ∈
      (driven heldProperty).2.log.takeWhile (!·.isStepEnd) := by
    cases m with
    | always => cases hp; exact hm
    | _ => cases hp
  have hrun : driven heldProperty = (.ok (), (driven heldProperty).2) := by
    refine Prod.ext ?_ rfl
    generalize (driven heldProperty).1 = r at hok
    cases r with
    | ok => rfl
    | _ => cases hok
  exact ⟨_, v, post, p, hlog, halways,
    properties_held Toggle.low Toggle.low 0 (some 50)
      (fun n => heldProperty.getD (n - 1) []) 0 0 hrun hlog hscope halways⟩

end World

end Seedloop
