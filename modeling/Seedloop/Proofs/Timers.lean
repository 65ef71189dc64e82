import Seedloop.Proofs.Scheduling
import Seedloop.Proofs.TimerRuns

/-!
# Timers and the virtual clock

What the loop's moves do to timers was settled without a network. Here the
network is shown to be nothing to its loop but a source of moves: between two
`beginStep`s it schedules and cancels, and everything it writes to the
timeline is stamped with a clock that stands still. The facts about runs of
moves then hold of runs of the network, whatever user code does in them.
-/

namespace Seedloop

namespace Net

variable {ρ μ υ : Type}

/-- Between two `beginStep`s: the loop makes other moves, and the timeline gets
entries stamped with the clock as it stands. -/
structure Quiet (s t : Net ρ μ υ) : Prop where
  moves : ∃ ms, (∀ m ∈ ms, ∀ stopStep, m ≠ .beginStep stopStep) ∧
    Machine.run Loop.step s.loop ms = some t.loop
  timeline : ∃ es : List (Event μ),
    t.timeline = s.timeline ++ es.map (s.loop.time, ·)

theorem Quiet.of_eq {s t : Net ρ μ υ} (hl : t.loop = s.loop)
    (ht : t.timeline = s.timeline) : Quiet s t :=
  ⟨⟨[], by simp, by rw [hl]; rfl⟩, ⟨[], by simp [ht]⟩⟩

theorem Quiet.of_move {s t : Net ρ μ υ} {m : Loop.Move (Callback μ υ)}
    (hm : ∀ stopStep, m ≠ .beginStep stopStep)
    (hl : Loop.step s.loop m = some t.loop)
    (ht : t.timeline = s.timeline) : Quiet s t :=
  ⟨⟨[m], by simpa using hm, by simp [Machine.run_cons_eq_some, hl]⟩,
    ⟨[], by simp [ht]⟩⟩

theorem Quiet.of_record {s t : Net ρ μ υ} (e : Event μ)
    (hl : t.loop = s.loop)
    (ht : t.timeline = s.timeline ++ [(s.loop.time, e)]) : Quiet s t :=
  ⟨⟨[], by simp, by rw [hl]; rfl⟩, ⟨[e], ht⟩⟩

theorem Quiet.time_eq {s t : Net ρ μ υ} (h : Quiet s t) :
    t.loop.time = s.loop.time := by
  obtain ⟨⟨ms, hms, hrun⟩, -⟩ := h
  generalize s.loop = l at hrun
  induction ms generalizing l with
  | nil =>
      rw [Machine.run_nil, Option.some.injEq] at hrun
      rw [hrun]
  | cons m ms ih =>
      obtain ⟨l', hl', hrun⟩ := Machine.run_cons_eq_some.mp hrun
      rw [ih (fun m hm => hms m (List.mem_cons_of_mem _ hm)) l' hrun]
      exact (Loop.step_quiet (hms m List.mem_cons_self) hl').1

theorem Quiet.trans {s t u : Net ρ μ υ} (h : Quiet s t) (h' : Quiet t u) :
    Quiet s u := by
  have htime := h.time_eq
  obtain ⟨⟨ms, hms, hrun⟩, es, hes⟩ := h
  obtain ⟨⟨ms', hms', hrun'⟩, es', hes'⟩ := h'
  refine ⟨⟨ms ++ ms', ?_, Machine.run_append_eq_some.mpr ⟨_, hrun, hrun'⟩⟩,
    es ++ es', ?_⟩
  · intro m hm
    rcases List.mem_append.mp hm with hm | hm
    · exact hms m hm
    · exact hms' m hm
  · rw [hes', hes, htime, List.map_append, List.append_assoc]

theorem Quiet.record {s t : Net ρ μ υ} (h : Quiet s t) (e : Event μ) :
    Quiet s (t.record e) := h.trans (.of_record e rfl rfl)

theorem Quiet.callAt {s t : Net ρ μ υ} (h : Quiet s t) (when : ℚ)
    (c : Callback μ υ) : Quiet s (t.callAt when c) :=
  h.trans (.of_move (m := .callAt (.fin when) c) (by simp) rfl rfl)

theorem Quiet.schedule (s : Net ρ μ υ) (r : Resolved) :
    Quiet s (s.schedule s.loop.time r) := by
  have hid : Quiet s { s with nextFaultId := s.nextFaultId + 1 } :=
    .of_eq rfl rfl
  cases r with
  | partition groups start stop =>
      exact ((hid.record _).callAt _ _).callAt _ _
  | slowLink a b factor start stop =>
      exact ((hid.record _).callAt _ _).callAt _ _
  | crash node at_ => exact (hid.record _).callAt _ _

theorem Quiet.sendAs (s : Net ρ μ υ) (src dst : Address) (msg : μ)
    (how : Sent) : Quiet s (s.sendAs src dst msg how) := by
  have hbegin : Quiet s (s.beginSend src dst) :=
    .of_record (.message .send s.nextMid src dst) rfl rfl
  cases how with
  | reliable base =>
      refine Quiet.callAt (hbegin.trans (.of_eq ?_ ?_)) _ _ <;> rfl
  | dropped => exact hbegin.record _
  | once base => exact hbegin.callAt _ _
  | twice base extra => exact ((hbegin.callAt _ _).record _).callAt _ _

theorem Quiet.sleep (s : Net ρ μ υ) (seconds : ℚ) (k : υ) :
    Quiet s (s.sleep seconds k) := by
  unfold Net.sleep
  dsimp only
  split
  · refine Quiet.callAt (.of_eq ?_ ?_) _ _ <;> rfl
  · exact .of_move (m := .callSoon (.resume s.loop.nextHandle k)) (by simp)
      rfl rfl

theorem Quiet.finishSleep (s : Net ρ μ υ) (fut : ℕ) :
    Quiet s (s.finishSleep fut) := by
  unfold Net.finishSleep
  split
  · exact .of_eq rfl rfl
  · next k _ =>
    exact .of_move (m := .callSoon (.resume fut k)) (by simp) rfl rfl

theorem Effect.quiet {s t : Net ρ μ υ} (h : Effect s t) : Quiet s t := by
  cases h with
  | draws | setPartition | bind | inbox => exact .of_eq rfl rfl
  | userSoon k =>
      exact .of_move (m := .callSoon (.user k)) (by simp) rfl rfl
  | userTimer when k =>
      exact .of_move (m := .callAt when (.user k)) (by simp) rfl rfl
  | cancel handle _ =>
      exact .of_move (m := .cancel handle) (by simp) rfl rfl
  | stop => exact .of_move (m := .stop) (by simp) rfl rfl
  | record event => exact .of_record _ rfl rfl
  | schedule seconds r _ => exact .schedule s r
  | sleep seconds k => exact .sleep s seconds k
  | cancelRunFor fut =>
      have hgiven : Quiet s { s with abandoned := insert fut s.abandoned } :=
        .of_eq rfl rfl
      exact hgiven.trans (.finishSleep _ fut)

theorem Effects.quiet {s t : Net ρ μ υ} (h : Effects s t) : Quiet s t :=
  h.invariant (I := Quiet s) (fun he hs => hs.trans he.quiet) (.of_eq rfl rfl)

theorem Sends.quiet {s t : Net ρ μ υ} {src dst : Address} {msg : μ}
    {endpoint : Endpoint μ} {how : Sent} (h : Sends s t src dst msg endpoint how) :
    Quiet s t := by
  obtain ⟨g, f, rfl⟩ := h.eq
  have hdrawn : Quiet s { s with netRng := g, faultsRng := f } :=
    .of_eq rfl rfl
  exact hdrawn.trans (.sendAs _ _ dst msg how)

theorem Quiet.deliver (s : Net ρ μ υ) (mid : ℕ) (src dst : Address) (msg : μ) :
    Quiet s (s.deliver mid src dst msg) := by
  unfold Net.deliver
  split
  · exact .of_record _ rfl rfl
  · split
    · exact .of_record _ rfl rfl
    · dsimp only
      split
      · exact .of_record _ rfl rfl
      · exact .of_record (.message .deliver mid src dst) rfl rfl

theorem Quiet.runFault (s : Net ρ μ υ) (c : FaultCallback) :
    Quiet s (s.runFault c) := by
  cases c
  all_goals exact ⟨⟨[], by simp, rfl⟩, ⟨[_], rfl⟩⟩

theorem Quiet.runCallback (s : Net ρ μ υ) (c : Callback μ υ) :
    Quiet s (s.runCallback c) := by
  cases c with
  | user k => exact .of_eq rfl rfl
  | deliver mid src dst msg => exact .deliver s mid src dst msg
  | fault c => exact .runFault s c
  | wake fut k => exact .finishSleep s fut
  | resume fut k => exact .of_move (m := .cancel fut) (by simp) rfl rfl

variable [Random ρ]

/-- A step before its batch, or a quiet stretch. -/
theorem step_beginStep_or_quiet {s t : Net ρ μ υ} {a : Act μ υ}
    (h : step s a = some t) :
    (∃ stopStep, a = .beginStep stopStep ∧
      t = { s with loop := (s.loop.beginStep stopStep).1 }) ∨
    Quiet s t ∧ promotedBy s a = [] := by
  cases a with
  | op o =>
      simp only [step, Option.map_eq_some_iff] at h
      obtain ⟨⟨t', r⟩, hop, rfl⟩ := h
      rcases op_cases hop with ⟨_, _, _, _, _, -, hsends⟩ | ⟨-, heff⟩
      · exact .inr ⟨hsends.quiet, rfl⟩
      · exact .inr ⟨heff.quiet, rfl⟩
  | beginStep stopStep =>
      simp only [step, Option.some.injEq] at h
      exact .inl ⟨stopStep, rfl, h.symm⟩
  | runReady =>
      simp only [step] at h
      split at h
      · cases h
      · next hd rest hready =>
        cases h
        refine .inr ⟨?_, rfl⟩
        have hpop : Quiet s { s with loop := { s.loop with ready := rest } } :=
          .of_move (m := .popReady) (by simp) (by simp [Loop.step, hready]) rfl
        unfold runHandle
        split
        · exact hpop
        · exact hpop.trans (.runCallback _ _)
  | clearStop =>
      cases h
      exact .inr ⟨.of_move (m := .clearStop) (by simp) rfl rfl, rfl⟩

/-- The loop under the network makes moves of its own machine, and promotes
what they promote. -/
theorem step_moves {s t : Net ρ μ υ} {a : Act μ υ} (h : step s a = some t) :
    ∃ ms, Machine.run Loop.step s.loop ms = some t.loop ∧
      Machine.outputs Loop.step Loop.promotedBy s.loop ms = promotedBy s a := by
  rcases step_beginStep_or_quiet h with ⟨stopStep, rfl, rfl⟩ | ⟨hq, hnone⟩
  · refine ⟨[.beginStep stopStep], rfl, ?_⟩
    rw [Machine.outputs_cons rfl, Machine.outputs_nil, List.append_nil]
    rfl
  · obtain ⟨⟨ms, hms, hrun⟩, -⟩ := hq
    refine ⟨ms, hrun, ?_⟩
    rw [hnone]
    clear hnone h
    generalize s.loop = l at hrun
    induction ms generalizing l with
    | nil => rfl
    | cons m ms ih =>
        obtain ⟨l', hl', hrun⟩ := Machine.run_cons_eq_some.mp hrun
        rw [Machine.outputs_cons hl',
          ih (fun m hm => hms m (List.mem_cons_of_mem _ hm)) l' hrun]
        simp [(Loop.step_quiet (hms m List.mem_cons_self) hl').2.2.2.1]

theorem run_moves {s t : Net ρ μ υ} {as : List (Act μ υ)}
    (h : Machine.run step s as = some t) :
    ∃ ms, Machine.run Loop.step s.loop ms = some t.loop ∧
      Machine.outputs Loop.step Loop.promotedBy s.loop ms =
        Machine.outputs step promotedBy s as :=
  Machine.run_simulation (f := Net.loop) step_moves h

theorem step_time_le {s t : Net ρ μ υ} {a : Act μ υ}
    (h : step s a = some t) : s.loop.time ≤ t.loop.time := by
  obtain ⟨ms, hms, -⟩ := step_moves h
  exact Loop.run_time_le hms

theorem run_time_le {s t : Net ρ μ υ} {as : List (Act μ υ)}
    (h : Machine.run step s as = some t) : s.loop.time ≤ t.loop.time := by
  obtain ⟨ms, hms, -⟩ := run_moves h
  exact Loop.run_time_le hms

/-! ## The timeline -/

/-- Time stamps go up, and none is ahead of the clock. -/
structure Stamped (s : Net ρ μ υ) : Prop where
  sorted : s.timeline.Pairwise fun a b => a.1 ≤ b.1
  le_time : ∀ e ∈ s.timeline, e.1 ≤ s.loop.time

theorem Stamped.step {s t : Net ρ μ υ} {a : Act μ υ} (hs : Stamped s)
    (h : step s a = some t) : Stamped t := by
  have hle := step_time_le h
  rcases step_beginStep_or_quiet h with ⟨stopStep, rfl, rfl⟩ | ⟨hq, -⟩
  · exact ⟨hs.sorted, fun e he => (hs.le_time e he).trans hle⟩
  · have htime := hq.time_eq
    obtain ⟨es, hes⟩ := hq.timeline
    have hnew : ∀ e ∈ es.map (s.loop.time, ·), e.1 = s.loop.time := by
      intro e he
      obtain ⟨x, -, rfl⟩ := List.mem_map.mp he
      rfl
    constructor
    · rw [hes, List.pairwise_append]
      refine ⟨hs.sorted, ?_, ?_⟩
      · refine List.pairwise_of_forall_mem_list fun a ha b hb => ?_
        rw [hnew a ha, hnew b hb]
      · intro a ha b hb
        rw [hnew b hb]
        exact hs.le_time a ha
    · intro e he
      rw [hes] at he
      rw [htime]
      rcases List.mem_append.mp he with he | he
      · exact hs.le_time e he
      · exact (hnew e he).le

/-! ## Over every run -/

/-- `a` takes `s` to `t` and puts `τ` on the heap. -/
def Schedules (s : Net ρ μ υ) (a : Act μ υ) (t : Net ρ μ υ)
    (τ : Timer (Callback μ υ)) : Prop :=
  step s a = some t ∧ τ ∈ t.loop.timers.entries ∧
    τ ∉ s.loop.timers.entries

theorem run_wf {g f : ρ} {s : Net ρ μ υ} {as : List (Act μ υ)}
    (h : Machine.run step (init g f) as = some s) : s.loop.Wf := by
  obtain ⟨ms, hms, -⟩ := run_moves h
  exact Machine.run_invariant (fun hi hs => Loop.step_wf hi hs) Loop.init_wf hms

theorem run_stamped {g f : ρ} {s : Net ρ μ υ} {as : List (Act μ υ)}
    (h : Machine.run step (init g f) as = some s) : Stamped s :=
  Machine.run_invariant (fun hi hs => hi.step hs)
    ⟨by simp [init], by simp [init]⟩ h

/-- Only a quiet stretch schedules: the clock stands still, and the new timer
is numbered above every old one. -/
theorem Schedules.spec {s t : Net ρ μ υ} {a : Act μ υ}
    {τ : Timer (Callback μ υ)} (h : Schedules s a t τ) :
    t.loop.time = s.loop.time ∧ s.loop.timerSeq ≤ τ.seq := by
  obtain ⟨hstep, hin, hout⟩ := h
  rcases step_beginStep_or_quiet hstep with ⟨stopStep, rfl, rfl⟩ | ⟨hq, -⟩
  · have hsub := (Loop.beginStep_spec (l := s.loop) (b := stopStep)
      rfl).2.2.2.2.2.1
    exact absurd (hsub.subset hin) hout
  · refine ⟨hq.time_eq, ?_⟩
    obtain ⟨⟨ms, hms, hrun⟩, -⟩ := hq
    exact Loop.quiet_run_seq hms hrun hin hout

/-- Timers and the clock. In any run, with `r` somewhere on the way to `s`: the
clock goes up and so do the stamps of the timeline; no timer is promoted twice,
and one promoted at all is promoted when the clock reads its deadline or, had
that passed by then, what it read when the timer was scheduled; a step never
takes the clock past a live timer, and takes it only to the deadline of one it
promotes; of two timers of the heap one has the smaller key, the one scheduled
first if their deadlines are equal, and that one is promoted first unless it
was cancelled; and a timer at infinity is not promoted. -/
theorem timers_and_clock {g f : ρ} {before after : List (Act μ υ)}
    {r s : Net ρ μ υ} (hr : Machine.run step (init g f) before = some r)
    (hs : Machine.run step r after = some s) :
    (r.loop.time ≤ s.loop.time ∧
      s.timeline.Pairwise fun a b => a.1 ≤ b.1) ∧
    ((Machine.outputs step promotedBy (init g f) (before ++ after)).map
      fun τ => τ.handle.id).Nodup ∧
    (∀ a p τ, Schedules r a p τ → ∀ mid b q q',
      Machine.run step p mid = some q → step q b = some q' →
      τ ∈ promotedBy q b →
      .fin q'.loop.time = max τ.when (.fin r.loop.time)) ∧
    (∀ a p, step r a = some p → p.loop.time ≠ r.loop.time →
      (∃ τ ∈ promotedBy r a, τ.when = .fin p.loop.time ∧
        τ.handle.id ∉ r.loop.cancelled) ∧
      ∀ τ ∈ r.loop.timers.entries, τ.handle.id ∉ r.loop.cancelled →
        .fin p.loop.time ≤ τ.when) ∧
    (∀ τ ∈ r.loop.timers.entries, ∀ σ ∈ r.loop.timers.entries,
      (τ ≠ σ → τ.key < σ.key ∨ σ.key < τ.key) ∧
      (τ.key < σ.key → σ ∈ Machine.outputs step promotedBy r after →
        τ.handle.id ∈ s.loop.cancelled ∨
          [τ, σ].Sublist (Machine.outputs step promotedBy r after))) ∧
    (∀ τ ∈ r.loop.timers.entries, ∀ a p σ, Schedules r a p σ →
      τ.seq < σ.seq) ∧
    ∀ τ ∈ Machine.outputs step promotedBy r after, τ.when ≠ .posInf := by
  have hwf := run_wf hr
  obtain ⟨ms, hms, hout⟩ := run_moves hs
  have hall := Machine.run_append_eq_some.mpr ⟨r, hr, hs⟩
  refine ⟨⟨run_time_le hs, (run_stamped hall).sorted⟩, ?_, ?_, ?_, ?_, ?_, ?_⟩
  · obtain ⟨ns, hns, hout'⟩ := run_moves hall
    rw [← hout']
    exact (Loop.Fresh.run Loop.init_wf hns).nodup
  · intro a p τ hsch mid b q q' hmid hb hp
    have hpwf : p.loop.Wf :=
      run_wf (Machine.run_concat_eq_some.mpr ⟨r, hr, hsch.1⟩)
    have htracked := Loop.Tracked.of_mem hpwf hsch.2.1
    rw [hsch.spec.1] at htracked
    obtain ⟨ms', hms', -⟩ := run_moves hmid
    rcases step_beginStep_or_quiet hb with ⟨stopStep, rfl, rfl⟩ | ⟨-, hnone⟩
    · exact (htracked.run hms').promoted (m := .beginStep stopStep) rfl hp
    · rw [hnone] at hp
      cases hp
  · intro a p hstep hne
    rcases step_beginStep_or_quiet hstep with ⟨stopStep, rfl, rfl⟩ | ⟨hq, -⟩
    · obtain ⟨-, -, -, -, -, -, -, hdue, -, htime⟩ :=
        Loop.beginStep_spec (l := r.loop) (b := stopStep) rfl
      rcases htime with heq | ⟨⟨τ, hτ, hwhen⟩, hlive⟩
      · exact absurd heq hne
      · exact ⟨⟨τ, hτ, hwhen, (hdue τ hτ).2.1⟩, hlive⟩
    · exact absurd hq.time_eq hne
  · intro τ hτ σ hσ
    refine ⟨hwf.key_lt_or_lt hτ hσ, ?_⟩
    intro hlt hmem
    have horder := Loop.InOrder.run hτ hlt hms
    rw [hout] at horder
    rcases horder with hc | ⟨-, hnot⟩ | ⟨-, hnot⟩ | hsub
    · exact .inl hc
    · exact absurd hmem hnot
    · exact absurd hmem hnot
    · exact .inr hsub
  · intro τ hτ a p σ hsch
    exact lt_of_lt_of_le (hwf.seq_lt τ hτ) hsch.spec.2
  · rw [← hout]
    exact Loop.run_when_ne_posInf hms

/-- Three timers, the later two scheduled last and first, one of them
cancelled. -/
def threeTimers : List (Act Unit ℕ) :=
  [.op (.callAt (.int 5) 0), .op (.callLater (.int 2) 1),
    .op (.callAt (.int 9) 2), .op (.cancel 2)]

/-- A step with a batch of one that records. -/
def recordingStep : List (Act Unit ℕ) :=
  [.beginStep false, .runReady, .op (.record ())]

theorem timers_and_clock_threeTimers :
    (Machine.outputs step promotedBy (init Toggle.low Toggle.low)
      (threeTimers ++ (recordingStep ++ recordingStep))).map
      (fun τ => τ.handle.id) = [1, 0] ∧
    ((Machine.outputs step promotedBy (init Toggle.low Toggle.low)
      (threeTimers ++ (recordingStep ++ recordingStep))).map
      fun τ => τ.handle.id).Nodup := by
  refine ⟨by decide +kernel, ?_⟩
  have hrun : (Machine.run step (init Toggle.low Toggle.low)
      (threeTimers ++ (recordingStep ++ recordingStep))).isSome := by
    decide +kernel
  obtain ⟨s, hs⟩ := Option.isSome_iff_exists.mp hrun
  obtain ⟨r, hr, hrs⟩ := Machine.run_append_eq_some.mp hs
  exact (timers_and_clock hr hrs).2.1

end Net

end Seedloop
