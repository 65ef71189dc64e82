import Seedloop.Proofs.Timers
import Seedloop.Proofs.Watch

/-!
# Nothing of a `run_for` outlives it, unless it is empty

The timers of a fault stand on the heap at or before the timer that ends the
sleep, and were put there before it, so with a window of positive length the
line of each fault is its own callbacks and then the wake-up: by the time the
task runs again, all of them have. With `seconds = 0` there is no timer to end
the sleep. `asyncio.sleep` yields once, the task goes straight to the ready
queue, and every timer of every fault is promoted behind it: `run_for` returns
before the first of them runs.
-/

namespace Seedloop

theorem Resolved.faultId_of_mem {i : ℕ} {r : Resolved} {c : FaultCallback}
    (h : c ∈ r.callbacks i) : c.faultId = i := by
  cases r <;> simp only [callbacks, List.mem_cons, List.not_mem_nil,
    or_false] at h
  all_goals rcases h with rfl | rfl <;> rfl

theorem Resolved.callbacks_ne_nil (i : ℕ) (r : Resolved) :
    r.callbacks i ≠ [] := by
  cases r <;> simp [callbacks]

namespace Net

variable {ρ μ υ : Type}

/-- The event has been recorded. -/
def Recorded (e : Event μ) (s : Net ρ μ υ) : Prop := ∃ x ∈ s.timeline, x.2 = e

/-- What a scheduled fault leaves behind when it is over: a window has begun,
has ended and is in no registry; a crash has happened and the node is down. -/
def Over (s : Net ρ μ υ) : Event μ → Prop
  | .faultPartitionScheduled i _ _ _ =>
      Recorded (.faultPartitionBegin i) s ∧ Recorded (.faultPartitionHeal i) s ∧
        s.faultPartitions.lookup i = none
  | .faultSlowLinkScheduled i _ _ _ _ _ =>
      Recorded (.faultSlowLinkBegin i) s ∧ Recorded (.faultSlowLinkEnd i) s ∧
        s.faultSlowLinks.lookup i = none
  | .faultCrashScheduled i node _ =>
      Recorded (.faultCrash i node) s ∧ node ∈ s.crashed
  | _ => True

/-- What the last callback of a fault makes so. -/
def Settled (i : ℕ) (s : Net ρ μ υ) : Resolved → Prop
  | .partition .. => s.faultPartitions.lookup i = none
  | .slowLink .. => s.faultSlowLinks.lookup i = none
  | .crash node _ => node ∈ s.crashed

theorem over_of_settled {i : ℕ} {now : ℚ} {r : Resolved} {s : Net ρ μ υ}
    (hall : ∀ c ∈ r.callbacks i, Recorded c.event s) (hs : Settled i s r) :
    Over s (r.scheduled i now) := by
  cases r with
  | partition groups start stop | slowLink a b factor start stop =>
      exact ⟨hall _ List.mem_cons_self,
        hall _ (List.mem_cons_of_mem _ List.mem_cons_self), hs⟩
  | crash node at_ => exact ⟨hall _ List.mem_cons_self, hs⟩

/-- A fault that is over has run its first callback. -/
theorem Over.recorded {i : ℕ} {now : ℚ} {r : Resolved} {s : Net ρ μ υ}
    (h : Over s (r.scheduled i now)) :
    ∃ c ∈ r.callbacks i, Recorded c.event s := by
  cases r with
  | partition groups start stop | slowLink a b factor start stop
    | crash node at_ => exact ⟨_, List.mem_cons_self, h.1⟩

/-- The last callback of a fault settles it. -/
theorem settled_runFault {i : ℕ} {r : Resolved} {done : List FaultCallback}
    {c : FaultCallback} (h : r.callbacks i = done ++ [c]) (s : Net ρ μ υ) :
    Settled i (s.runFault c) r := by
  have hlast : (r.callbacks i).getLast? = some c := by
    rw [h, List.getLast?_concat]
  cases r with
  | partition groups start stop | slowLink a b factor start stop =>
      obtain rfl := Option.some.inj hlast
      exact AList.lookup_erase _ _
  | crash node at_ =>
      obtain rfl := Option.some.inj hlast
      exact Finset.mem_insert_self _ _

theorem Recorded.of_append {e : Event μ} {s t : Net ρ μ υ}
    {new : List (ℚ × Event μ)} (h : Recorded e s)
    (ht : t.timeline = s.timeline ++ new) : Recorded e t := by
  obtain ⟨x, hx, rfl⟩ := h
  exact ⟨x, ht ▸ List.mem_append_left _ hx, rfl⟩

/-- A step that leaves the fault's line alone keeps what the fault has done,
and adds nothing to it. -/
theorem Spares.recorded_iff {i fut : ℕ} {s t : Net ρ μ υ}
    (h : Spares i fut s t) {c : FaultCallback} (hc : c.faultId = i) :
    Recorded c.event t ↔ Recorded c.event s := by
  obtain ⟨new, heq, hnew⟩ := h.timeline
  constructor
  · rintro ⟨x, hx, hxc⟩
    rw [heq] at hx
    rcases List.mem_append.mp hx with hx | hx
    · exact ⟨x, hx, hxc⟩
    · refine absurd ?_ (hnew x hx)
      rw [hxc, FaultCallback.event_faultId?, hc]
  · exact fun hs => hs.of_append heq

theorem Spares.settled {i fut : ℕ} {s t : Net ρ μ υ} (h : Spares i fut s t)
    {r : Resolved} (hs : Settled i s r) : Settled i t r := by
  cases r with
  | partition groups start stop => exact h.faultPartitions.trans hs
  | slowLink a b factor start stop => exact h.faultSlowLinks.trans hs
  | crash node at_ => exact h.crashed hs

/-! ## A window of positive length -/

/-- The task has not run again: what is left of the fault, and then the
wake-up. -/
structure Asleep (i fut : ℕ) (k : υ) (r : Resolved) (s : Net ρ μ υ) :
    Prop where
  taken : Taken i fut s
  armed : Armed i fut s
  sleeping : s.sleeping.lookup fut = some k
  line : ∃ done rest, r.callbacks i = done ++ rest ∧
    (line i fut s).map Handle.callback =
      rest.map Callback.fault ++ [.wake fut k] ∧
    (∀ c ∈ done, Recorded c.event s) ∧ (rest = [] → Settled i s r)

/-- The wake-up has run, after all of the fault. -/
structure Awake (i fut : ℕ) (r : Resolved) (s : Net ρ μ υ) : Prop where
  taken : Taken i fut s
  sleeping : s.sleeping.lookup fut = none
  line : ∀ h ∈ line i fut s, ∃ k, h.callback = .resume fut k
  recorded : ∀ c ∈ r.callbacks i, Recorded c.event s
  settled : Settled i s r

theorem Asleep.spares {i fut : ℕ} {k : υ} {r : Resolved} {s t : Net ρ μ υ}
    (hs : Asleep i fut k r s) (h : Spares i fut s t) : Asleep i fut k r t where
  taken := h.taken
  armed := h.armed hs.armed
  sleeping := h.sleeping.trans hs.sleeping
  line := by
    obtain ⟨done, rest, hcs, hline, hdone, hrest⟩ := hs.line
    refine ⟨done, rest, hcs, by rw [h.line_eq hs.armed, hline], ?_,
      fun heq => h.settled (hrest heq)⟩
    intro c hc
    have hid := r.faultId_of_mem (hcs ▸ List.mem_append_left _ hc)
    exact (h.recorded_iff hid).mpr (hdone c hc)

theorem Awake.spares {i fut : ℕ} {r : Resolved} {s t : Net ρ μ υ}
    (hs : Awake i fut r s) (h : Spares i fut s t) : Awake i fut r t where
  taken := h.taken
  sleeping := h.sleeping.trans hs.sleeping
  line x hx := hs.line x (h.sublist.subset hx)
  recorded c hc := (h.recorded_iff (r.faultId_of_mem hc)).mpr (hs.recorded c hc)
  settled := h.settled hs.settled

/-- A callback of a fault runs. -/
theorem line_runFault (i fut : ℕ) {s t : Net ρ μ υ}
    {l : Loop (Callback μ υ)} {c : FaultCallback}
    (ht : t = runFault { s with loop := l } c) :
    t.loop = l ∧ line i fut t = line i fut { s with loop := l } ∧
      t.sleeping = s.sleeping ∧ Recorded c.event t ∧
      ∀ e, Recorded e s → Recorded e t := by
  have hloop : t.loop = l := by rw [ht, runFault_loop]
  have hnew : t.timeline = s.timeline ++ [(l.time, c.event)] := by
    rw [ht, runFault_timeline]
  refine ⟨hloop, by simp only [line, hloop], ?_, ?_, fun e he => ?_⟩
  · rw [ht]
    cases c <;> rfl
  · exact ⟨_, hnew ▸ List.mem_append_right _ List.mem_cons_self, rfl⟩
  · exact he.of_append hnew

/-- The head of the line runs: the next callback of the fault, or, once there
is none, the wake-up. -/
theorem Asleep.runHandle {i fut : ℕ} {k : υ} {r : Resolved} {s t : Net ρ μ υ}
    (hh : Handles s) (hs : Asleep i fut k r s) {h : Handle (Callback μ υ)}
    {l : Loop (Callback μ υ)} (hl : s.loop.Takes h l)
    (hpop : Net.line i fut s = h :: Net.line i fut { s with loop := l })
    (ht : t = Net.runHandle { s with loop := l } h) :
    Asleep i fut k r t ∨ Awake i fut r t := by
  have hmem : h ∈ s.loop.pending := hl.perm.symm.subset (by simp)
  have htaken : Taken i fut t := ht ▸ hs.taken.runHandle hl
  obtain ⟨done, cs, hcs, hline, hdone, hsettled⟩ := hs.line
  rw [hpop, List.map_cons] at hline
  cases cs with
  | cons c cs =>
      rw [List.map_cons, List.cons_append, List.cons.injEq] at hline
      obtain ⟨hc, hline⟩ := hline
      rw [hh.runHandle_eq hmem (by rw [hc]; rfl) hl, hc] at ht
      obtain ⟨hloop, hline', hsleep, hrec, hkeep⟩ :=
        line_runFault i fut ht
      refine .inl ⟨htaken, ⟨?_, ?_⟩, hsleep ▸ hs.sleeping, done ++ [c], cs,
        ?_, ?_, ?_, ?_⟩
      · rw [hloop, hl.cancelled]
        exact hs.armed.live
      · intro x hx
        rw [hline'] at hx
        exact hs.armed.id x (hpop ▸ List.mem_cons_of_mem _ hx)
      · rw [hcs, List.append_assoc, List.singleton_append]
      · rw [hline']
        exact hline
      · intro c' hc'
        rcases List.mem_append.mp hc' with hc' | hc'
        · exact hkeep _ (hdone c' hc')
        · rw [List.mem_singleton] at hc'
          exact hc' ▸ hrec
      · rintro rfl
        rw [ht]
        exact settled_runFault hcs _
  | nil =>
      rw [List.map_nil, List.nil_append, List.cons.injEq,
        List.map_eq_nil_iff] at hline
      obtain ⟨hc, hnil⟩ := hline
      rw [List.append_nil] at hcs
      have hid : h.id = fut := hs.armed.id h (hpop ▸ List.mem_cons_self)
        (by rw [hc]; rfl)
      have hrun : t = { s with
          sleeping := s.sleeping.erase fut
          loop := l.callSoon (.resume fut k) } := by
        rw [ht, Net.runHandle, if_neg, hc, runCallback, finishSleep]
        · simp only [hs.sleeping]
        · simpa [Loop.isCancelled, hid, hl.cancelled] using hs.armed.live
      subst hrun
      refine .inr ⟨htaken, AList.lookup_erase _ _, ?_, ?_, hsettled rfl⟩
      · intro x hx
        obtain ⟨hx, hxof⟩ := List.mem_filter.mp hx
        rcases List.mem_cons.mp ((l.pending_callSoon _).subset hx) with
          rfl | hx
        · exact ⟨k, rfl⟩
        · have : x ∈ Net.line i fut { s with loop := l } :=
            List.mem_filter.mpr ⟨hx, hxof⟩
          rw [hnil] at this
          cases this
      · intro c hc
        exact hdone c (hcs ▸ hc)

/-- A wake-up runs. -/
theorem runHandle_resume {s t : Net ρ μ υ} {h : Handle (Callback μ υ)}
    {l : Loop (Callback μ υ)} {fut : ℕ} {k : υ} (hc : h.callback = .resume fut k)
    (ht : t = runHandle { s with loop := l } h) :
    ∃ l', t = { s with loop := l' } ∧ l'.pending = l.pending := by
  subst ht
  unfold runHandle
  split
  · exact ⟨l, rfl, rfl⟩
  · rw [hc]
    exact ⟨l.cancel fut, rfl, rfl⟩

theorem Awake.runHandle {i fut : ℕ} {r : Resolved} {s t : Net ρ μ υ}
    (hs : Awake i fut r s) {h : Handle (Callback μ υ)}
    {l : Loop (Callback μ υ)} (hl : s.loop.Takes h l)
    (hpop : Net.line i fut s = h :: Net.line i fut { s with loop := l })
    (ht : t = Net.runHandle { s with loop := l } h) : Awake i fut r t := by
  have htaken : Taken i fut t := ht ▸ hs.taken.runHandle hl
  obtain ⟨k, hc⟩ := hs.line h (hpop ▸ List.mem_cons_self)
  obtain ⟨l', rfl, hpend⟩ := runHandle_resume hc ht
  refine ⟨htaken, hs.sleeping, ?_, hs.recorded, ?_⟩
  · intro x hx
    simp only [Net.line, hpend] at hx
    exact hs.line x (hpop ▸ List.mem_cons_of_mem _ hx)
  · cases r <;> exact hs.settled

/-! ## An empty window -/

/-- The task is ready, ahead of the fault, which has not begun. -/
structure Ahead (i fut : ℕ) (k : υ) (r : Resolved) (s : Net ρ μ υ) : Prop where
  taken : Taken i fut s
  armed : Armed i fut s
  sleeping : s.sleeping.lookup fut = none
  line : (line i fut s).map Handle.callback =
    .resume fut k :: (r.callbacks i).map Callback.fault
  fresh : ∀ c ∈ r.callbacks i, ¬ Recorded c.event s

/-- The task has run, and will not again. -/
structure Gone (i fut : ℕ) (s : Net ρ μ υ) : Prop where
  taken : Taken i fut s
  sleeping : s.sleeping.lookup fut = none
  line : ∀ h ∈ line i fut s, ∃ c, h.callback = .fault c

theorem Ahead.spares {i fut : ℕ} {k : υ} {r : Resolved} {s t : Net ρ μ υ}
    (hs : Ahead i fut k r s) (h : Spares i fut s t) : Ahead i fut k r t where
  taken := h.taken
  armed := h.armed hs.armed
  sleeping := h.sleeping.trans hs.sleeping
  line := by rw [h.line_eq hs.armed, hs.line]
  fresh c hc := mt (h.recorded_iff (r.faultId_of_mem hc)).mp (hs.fresh c hc)

theorem Gone.spares {i fut : ℕ} {s t : Net ρ μ υ} (hs : Gone i fut s)
    (h : Spares i fut s t) : Gone i fut t where
  taken := h.taken
  sleeping := h.sleeping.trans hs.sleeping
  line x hx := hs.line x (h.sublist.subset hx)

theorem Ahead.runHandle {i fut : ℕ} {k : υ} {r : Resolved} {s t : Net ρ μ υ}
    (hs : Ahead i fut k r s) {h : Handle (Callback μ υ)}
    {l : Loop (Callback μ υ)} (hl : s.loop.Takes h l)
    (hpop : Net.line i fut s = h :: Net.line i fut { s with loop := l })
    (ht : t = Net.runHandle { s with loop := l } h) : Gone i fut t := by
  have htaken : Taken i fut t := ht ▸ hs.taken.runHandle hl
  have hline := hs.line
  rw [hpop, List.map_cons, List.cons.injEq] at hline
  obtain ⟨hc, hline⟩ := hline
  obtain ⟨l', rfl, hpend⟩ := runHandle_resume hc ht
  refine ⟨htaken, hs.sleeping, ?_⟩
  intro x hx
  simp only [Net.line, hpend] at hx
  have := List.mem_map_of_mem (f := Handle.callback) hx
  rw [show Net.line i fut { s with loop := l } = l.pending.filter _ from rfl]
    at hline
  rw [hline] at this
  obtain ⟨c, -, hc⟩ := List.mem_map.mp this
  exact ⟨c, hc.symm⟩

theorem Gone.runHandle {i fut : ℕ} {s t : Net ρ μ υ} (hh : Handles s)
    (hs : Gone i fut s) {h : Handle (Callback μ υ)}
    {l : Loop (Callback μ υ)} (hl : s.loop.Takes h l)
    (hpop : Net.line i fut s = h :: Net.line i fut { s with loop := l })
    (ht : t = Net.runHandle { s with loop := l } h) : Gone i fut t := by
  have hmem : h ∈ s.loop.pending := hl.perm.symm.subset (by simp)
  have htaken : Taken i fut t := ht ▸ hs.taken.runHandle hl
  obtain ⟨c, hc⟩ := hs.line h (hpop ▸ List.mem_cons_self)
  rw [hh.runHandle_eq hmem (by rw [hc]; rfl) hl, hc] at ht
  obtain ⟨-, hline, hsleep, -⟩ := line_runFault i fut ht
  refine ⟨htaken, hsleep ▸ hs.sleeping, ?_⟩
  intro x hx
  rw [hline] at hx
  exact hs.line x (hpop ▸ List.mem_cons_of_mem _ hx)

/-! ## The call -/

/-- While faults are scheduled: the line of one of them, on the heap and due
by `w`. -/
structure Lined (i fut : ℕ) (w : ℚ) (cs : List (Callback μ υ))
    (s : Net ρ μ υ) : Prop where
  wf : s.loop.Wf
  ready : ∀ h ∈ s.loop.ready, h.callback.isOf i fut = false
  line : (line i fut s).map Handle.callback = cs
  aim : ∀ τ ∈ s.loop.timers.entries, τ.handle.callback.isOf i fut = true →
    τ.when ≤ .fin w

theorem Lined.of_line_nil {i fut : ℕ} {s : Net ρ μ υ} (hwf : s.loop.Wf)
    (hline : Net.line i fut s = []) (w : ℚ) : Lined i fut w [] s := by
  have hnone : ∀ h ∈ s.loop.pending, h.callback.isOf i fut = false := by
    simpa [Net.line, List.filter_eq_nil_iff] using hline
  refine ⟨hwf, fun h hh => hnone h (List.mem_append_left _ hh),
    by rw [hline]; rfl, fun τ hτ hof => ?_⟩
  rw [hnone _ (List.mem_append_right _ (List.mem_map_of_mem hτ))] at hof
  cases hof

theorem Lined.of_loop {i fut : ℕ} {w : ℚ} {cs : List (Callback μ υ)}
    {s t : Net ρ μ υ} (hs : Lined i fut w cs s) (h : t.loop = s.loop) :
    Lined i fut w cs t where
  wf := h ▸ hs.wf
  ready := h ▸ hs.ready
  line := by
    rw [← hs.line]
    simp only [Net.line, h]
  aim := h ▸ hs.aim

theorem Lined.mono {i fut : ℕ} {w w' : ℚ} {cs : List (Callback μ υ)}
    {s : Net ρ μ υ} (hs : Lined i fut w cs s) (h : w ≤ w') :
    Lined i fut w' cs s :=
  ⟨hs.wf, hs.ready, hs.line,
    fun τ hτ hof => (hs.aim τ hτ hof).trans (When.fin_le_fin.mpr h)⟩

/-- A timer of the line that is due no earlier goes behind it. -/
theorem Lined.callAt {i fut : ℕ} {w when : ℚ} {cs : List (Callback μ υ)}
    {s : Net ρ μ υ} (hs : Lined i fut w cs s) (hw : w ≤ when)
    {c : Callback μ υ} (hc : c.isOf i fut = true) :
    Lined i fut when (cs ++ [c]) (s.callAt when c) where
  wf := hs.wf.callAt _ _
  ready := hs.ready
  line := by
    have := s.loop.filter_callAt (w := .fin when) (c := c)
      (p := fun h => h.callback.isOf i fut) hc fun τ hτ hof =>
        ⟨(hs.mono hw).aim τ hτ hof, hs.wf.seq_lt τ hτ⟩
    rw [← hs.line]
    exact (congrArg (List.map Handle.callback) this).trans List.map_append
  aim τ hτ hof := by
    rcases PQueue.mem_push.mp hτ with rfl | hτ
    · exact le_rfl
    · exact (hs.mono hw).aim τ hτ hof

theorem Lined.callAt_of_not {i fut : ℕ} {w : ℚ} {cs : List (Callback μ υ)}
    {s : Net ρ μ υ} (hs : Lined i fut w cs s) (when : ℚ) {c : Callback μ υ}
    (hc : c.isOf i fut = false) : Lined i fut w cs (s.callAt when c) where
  wf := hs.wf.callAt _ _
  ready := hs.ready
  line := by
    rw [← hs.line]
    exact congrArg _ (s.loop.filter_callAt_of_not hc)
  aim τ hτ hof := by
    rcases PQueue.mem_push.mp hτ with rfl | hτ
    · rw [hc] at hof
      cases hof
    · exact hs.aim τ hτ hof

/-- The fault itself is scheduled, inside its window. -/
theorem Lined.schedule {fut : ℕ} {now window : ℚ} {s : Net ρ μ υ}
    {r : Resolved} (hs : Lined s.nextFaultId fut now [] s)
    (hr : r.Ok window) :
    Lined s.nextFaultId fut (now + window)
      ((r.callbacks s.nextFaultId).map Callback.fault) (s.schedule now r) := by
  have hid : ∀ e : Event μ, Lined s.nextFaultId fut now [] (recordAt
      { s with nextFaultId := s.nextFaultId + 1 } now e) :=
    fun e => hs.of_loop rfl
  have hof : ∀ c : FaultCallback, c.faultId = s.nextFaultId →
      (Callback.fault c : Callback μ υ).isOf s.nextFaultId fut = true := by
    intro c hc
    simp [Callback.isOf, Callback.faultId?, hc]
  cases r with
  | partition groups start stop =>
      obtain ⟨h0, h1, h2⟩ := hr
      exact (((hid _).callAt (le_add_of_nonneg_right h0)
        (hof (.beginFaultPartition _ groups) rfl)).callAt
        (add_le_add_right h1 now) (hof (.endFaultPartition _) rfl)).mono
        (add_le_add_right h2 now)
  | slowLink a b factor start stop =>
      obtain ⟨-, h0, h1, h2⟩ := hr
      exact (((hid _).callAt (le_add_of_nonneg_right h0)
        (hof (.beginSlowLink _ {a, b} factor) rfl)).callAt
        (add_le_add_right h1 now) (hof (.endSlowLink _) rfl)).mono
        (add_le_add_right h2 now)
  | crash node at_ =>
      exact ((hid _).callAt (le_add_of_nonneg_right hr.1)
        (hof (.beginCrash _ node) rfl)).mono (add_le_add_right hr.2 now)

/-- Another fault is. -/
theorem Lined.schedule_of_ne {i fut : ℕ} {now w : ℚ} {s : Net ρ μ υ}
    {cs : List (Callback μ υ)} (hs : Lined i fut w cs s)
    (hi : s.nextFaultId ≠ i) (r : Resolved) :
    Lined i fut w cs (s.schedule now r) := by
  have hid : ∀ e : Event μ, Lined i fut w cs (recordAt
      { s with nextFaultId := s.nextFaultId + 1 } now e) :=
    fun e => hs.of_loop rfl
  have hof : ∀ c : FaultCallback, c.faultId = s.nextFaultId →
      (Callback.fault c : Callback μ υ).isOf i fut = false := by
    intro c hc
    simp [Callback.isOf, Callback.faultId?, Callback.fut?, hc, hi]
  cases r with
  | partition groups start stop =>
      exact ((hid _).callAt_of_not _
        (hof (.beginFaultPartition _ groups) rfl)).callAt_of_not _
        (hof (.endFaultPartition _) rfl)
  | slowLink a b factor start stop =>
      exact ((hid _).callAt_of_not _
        (hof (.beginSlowLink _ {a, b} factor) rfl)).callAt_of_not _
        (hof (.endSlowLink _) rfl)
  | crash node at_ =>
      exact (hid _).callAt_of_not _ (hof (.beginCrash _ node) rfl)

theorem Lined.scheduleAll {i fut : ℕ} {w : ℚ} {s : Net ρ μ υ}
    {cs : List (Callback μ υ)} (hs : Lined i fut w cs s)
    (hi : i < s.nextFaultId) (now : ℚ) (rs : List Resolved) :
    Lined i fut w cs (s.scheduleAll now rs) := by
  induction rs generalizing s with
  | nil => exact hs
  | cons r rs ih =>
      exact ih (hs.schedule_of_ne hi.ne' r)
        (lt_of_lt_of_le hi (Grows.schedule s now r).nextFaultId)

/-- The sleep of a window of positive length ends behind the fault. -/
theorem Lined.sleep_of_pos {i : ℕ} {window : ℚ} {s : Net ρ μ υ}
    {cs : List (Callback μ υ)}
    (hs : Lined i s.loop.nextHandle (s.loop.time + window) cs s)
    (hw : 0 < window) (k : υ) :
    (Net.line i s.loop.nextHandle (s.sleep window k)).map Handle.callback =
      cs ++ [.wake s.loop.nextHandle k] := by
  have hsleep : Lined i s.loop.nextHandle (s.loop.time + window) cs
      { s with sleeping := s.sleeping.insert s.loop.nextHandle k } :=
    hs.of_loop rfl
  have := (hsleep.callAt le_rfl (c := .wake s.loop.nextHandle k)
    (by simp [Callback.isOf, Callback.fut?])).line
  rw [Net.sleep, if_pos hw]
  exact this

/-- That of an empty one is over ahead of it. -/
theorem Lined.sleep_of_nonpos {i : ℕ} {w window : ℚ} {s : Net ρ μ υ}
    {cs : List (Callback μ υ)} (hs : Lined i s.loop.nextHandle w cs s)
    (hw : ¬ 0 < window) (k : υ) :
    (Net.line i s.loop.nextHandle (s.sleep window k)).map Handle.callback =
      .resume s.loop.nextHandle k :: cs := by
  have hnone : s.loop.ready.filter
      (fun h => h.callback.isOf i s.loop.nextHandle) = [] := by
    simpa [List.filter_eq_nil_iff] using hs.ready
  have hline := hs.line
  rw [Net.sleep, if_neg hw]
  simp only [Net.line, Loop.pending, Loop.callSoon, List.filter_append, hnone,
    List.nil_append, List.map_append] at hline ⊢
  rw [hline, List.filter_cons_of_pos (by simp [Callback.isOf, Callback.fut?])]
  rfl

theorem scheduleAll_append (s : Net ρ μ υ) (now : ℚ) (rs rs' : List Resolved) :
    s.scheduleAll now (rs ++ rs') =
      (s.scheduleAll now rs).scheduleAll now rs' :=
  List.foldl_append

theorem scheduleAll_time (s : Net ρ μ υ) (now : ℚ) (rs : List Resolved) :
    (s.scheduleAll now rs).loop.time = s.loop.time := by
  induction rs generalizing s with
  | nil => rfl
  | cons r rs ih => exact (ih (s.schedule now r)).trans (schedule_time s now r)

theorem scheduleAll_grows (s : Net ρ μ υ) (now : ℚ) (rs : List Resolved) :
    Grows s (s.scheduleAll now rs) := by
  induction rs generalizing s with
  | nil => exact .refl s
  | cons r rs ih => exact (Grows.schedule s now r).trans (ih _)

theorem schedule_timeline (s : Net ρ μ υ) (now : ℚ) (r : Resolved) :
    (s.schedule now r).timeline =
      s.timeline ++ [(now, r.scheduled s.nextFaultId now)] := by
  cases r <;> rfl

/-- One event for each fault, under the id the counter had. -/
theorem scheduleAll_timeline (s : Net ρ μ υ) (now : ℚ) (rs : List Resolved) :
    ∃ new, (s.scheduleAll now rs).timeline = s.timeline ++ new ∧
      new.length = rs.length ∧ ∀ e ∈ new, ∃ pre r post,
        rs = pre ++ r :: post ∧
        e.2 = r.scheduled (s.scheduleAll now pre).nextFaultId now := by
  induction rs generalizing s with
  | nil => exact ⟨[], by simp [scheduleAll], rfl, by simp⟩
  | cons r rs ih =>
      obtain ⟨new, hnew, hlen, hall⟩ := ih (s.schedule now r)
      refine ⟨(now, r.scheduled s.nextFaultId now) :: new, ?_, by simp [hlen],
        ?_⟩
      · refine hnew.trans ?_
        rw [schedule_timeline, List.append_assoc]
        rfl
      · intro e he
        rcases List.mem_cons.mp he with rfl | he
        · exact ⟨[], r, rs, rfl, rfl⟩
        · obtain ⟨pre, r', post, rfl, heq⟩ := hall e he
          exact ⟨r :: pre, r', post, rfl, heq⟩

theorem schedule_nextFaultId (s : Net ρ μ υ) (now : ℚ) (r : Resolved) :
    (s.schedule now r).nextFaultId = s.nextFaultId + 1 := by
  cases r <;> rfl

/-- Everything a sleep adds but the handle's callback. -/
theorem sleep_pending (s : Net ρ μ υ) (seconds : ℚ) (k : υ) :
    ∃ new : Handle (Callback μ υ), new.id = s.loop.nextHandle ∧
      (s.sleep seconds k).loop.pending.Perm (new :: s.loop.pending) ∧
      (s.sleep seconds k).loop.cancelled = s.loop.cancelled ∧
      (s.sleep seconds k).loop.nextHandle = s.loop.nextHandle + 1 ∧
      (s.sleep seconds k).owned = s.owned ∧
      (s.sleep seconds k).timeline = s.timeline := by
  unfold Net.sleep
  dsimp only
  split
  · exact ⟨_, rfl, s.loop.pending_callAt _ _, rfl, rfl, rfl, rfl⟩
  · exact ⟨_, rfl, s.loop.pending_callSoon _, rfl, rfl, rfl, rfl⟩

/-- Where one of the faults of a `run_for` stands when the call is about to
sleep: all of its callbacks are on the heap, due within the window. -/
theorem scheduleAll_lined {s u : Net ρ μ υ} {window : ℚ}
    {pre post : List Resolved} {r : Resolved} (hh : Handles s)
    (hf : FaultIds s) (hwf : s.loop.Wf)
    (hall : ∀ r' ∈ pre ++ r :: post, r'.Ok window)
    (hu : u = s.scheduleAll s.loop.time (pre ++ r :: post)) {i : ℕ}
    (hi : i = (s.scheduleAll s.loop.time pre).nextFaultId) :
    Lined i u.loop.nextHandle (u.loop.time + window)
      ((r.callbacks i).map Callback.fault) u ∧ i < u.nextFaultId := by
  have heff : Effects s (s.scheduleAll s.loop.time pre) :=
    scheduleAll_effects (fun r' hr' => hall r' (List.mem_append_left _ hr')) s
  have htime : u.loop.time = s.loop.time := hu ▸ scheduleAll_time _ _ _
  have hsplit : u = ((s.scheduleAll s.loop.time pre).schedule s.loop.time
      r).scheduleAll s.loop.time post := by
    rw [hu, scheduleAll_append]
    rfl
  generalize s.scheduleAll s.loop.time pre = v at heff hsplit hi
  subst hi
  have hgrows : Grows v u := by
    rw [hsplit]
    exact (Grows.schedule v _ r).trans (scheduleAll_grows _ _ post)
  have hvh : Handles v := heff.invariant (fun he hs => he.handles hs) hh
  have hvf : FaultIds v := hf.of_grows heff.grows heff.frame
  have hvwf : v.loop.Wf := by
    obtain ⟨⟨ms, -, hrun⟩, -⟩ := heff.quiet
    exact Machine.run_invariant (fun hi hs => Loop.step_wf hi hs) hwf hrun
  have hnil : line v.nextFaultId u.loop.nextHandle v = [] := by
    rw [line, List.filter_eq_nil_iff]
    intro h hmem hof
    simp only [Callback.isOf, decide_eq_true_eq] at hof
    rcases hof with hof | hof
    · exact lt_irrefl _ (hvf.pending h hmem _ hof)
    · have := hvh.token_lt (.inr (.inr (.inr ⟨h, hmem, hof⟩)))
      exact absurd hgrows.nextHandle (not_le.mpr this)
  have hlt : v.nextFaultId < (v.schedule s.loop.time r).nextFaultId := by
    rw [schedule_nextFaultId]
    exact Nat.lt_succ_self _
  have hlined := (((Lined.of_line_nil hvwf hnil s.loop.time).schedule
    (hall r (by simp))).scheduleAll hlt s.loop.time post)
  rw [← hsplit] at hlined
  rw [htime]
  refine ⟨hlined, lt_of_lt_of_le hlt ?_⟩
  rw [hsplit]
  exact (scheduleAll_grows _ _ post).nextFaultId

/-- The number a sleep takes is new. -/
theorem taken_sleep {i : ℕ} {s : Net ρ μ υ} (hh : Handles s)
    (hi : i < s.nextFaultId) (seconds : ℚ) (k : υ) :
    Taken i s.loop.nextHandle (s.sleep seconds k) ∧
      Armed i s.loop.nextHandle (s.sleep seconds k) := by
  obtain ⟨new, hid, hperm, hcanc, hnext, howned, -⟩ :=
    sleep_pending s seconds k
  have hnot : ∀ {j}, Token s j → j ≠ s.loop.nextHandle :=
    fun htk => (hh.token_lt htk).ne
  refine ⟨⟨?_, ?_, ?_⟩, ?_, ?_⟩
  · exact lt_of_lt_of_le hi (Grows.sleep s seconds k).nextFaultId
  · rw [hnext]
    exact Nat.lt_succ_self _
  · rw [howned]
    exact fun hmem => hnot (.inr (.inl hmem)) rfl
  · rw [hcanc]
    exact fun hmem => hnot (.inl hmem) rfl
  · intro h hmem hfut
    rcases List.mem_cons.mp (hperm.subset (List.mem_filter.mp hmem).1) with
      rfl | hmem
    · exact hid
    · exact absurd rfl (hnot (.inr (.inr (.inr ⟨h, hmem, hfut⟩))))

/-! ## Every step -/

variable [Random ρ]

/-- What a fault and its `run_for` go through, a window of positive length. -/
theorem step_asleep {i fut : ℕ} {k : υ} {r : Resolved} {s t : Net ρ μ υ}
    {a : Act μ υ} (hh : Handles s)
    (hs : fut ∈ s.abandoned ∨ Asleep i fut k r s ∨ Awake i fut r s)
    (h : step s a = some t) :
    fut ∈ t.abandoned ∨ Asleep i fut k r t ∨ Awake i fut r t := by
  rcases hs with hs | hs | hs
  · exact .inl (step_abandoned h hs)
  · rcases step_watch hh hs.taken h with ha | hsp | ⟨hd, rest, -, hr, hof, ht⟩
    · exact .inl ha
    · exact .inr (.inl (hs.spares hsp))
    · exact .inr (hs.runHandle hh (takes_pop hr) (line_pop hr hof) ht)
  · rcases step_watch hh hs.taken h with ha | hsp | ⟨hd, rest, -, hr, hof, ht⟩
    · exact .inl ha
    · exact .inr (.inr (hs.spares hsp))
    · exact .inr (.inr (hs.runHandle (takes_pop hr) (line_pop hr hof) ht))

/-- And an empty one. -/
theorem step_ahead {i fut : ℕ} {k : υ} {r : Resolved} {s t : Net ρ μ υ}
    {a : Act μ υ} (hh : Handles s)
    (hs : fut ∈ s.abandoned ∨ Ahead i fut k r s ∨ Gone i fut s)
    (h : step s a = some t) :
    fut ∈ t.abandoned ∨ Ahead i fut k r t ∨ Gone i fut t := by
  rcases hs with hs | hs | hs
  · exact .inl (step_abandoned h hs)
  · rcases step_watch hh hs.taken h with ha | hsp | ⟨hd, rest, -, hr, hof, ht⟩
    · exact .inl ha
    · exact .inr (.inl (hs.spares hsp))
    · exact .inr (.inr (hs.runHandle (takes_pop hr) (line_pop hr hof) ht))
  · rcases step_watch hh hs.taken h with ha | hsp | ⟨hd, rest, -, hr, hof, ht⟩
    · exact .inl ha
    · exact .inr (.inr (hs.spares hsp))
    · exact .inr (.inr (hs.runHandle hh (takes_pop hr) (line_pop hr hof) ht))

/-! ## The whole call -/

/-- A `run_for` that was accepted, where its task suspends: one event for each
fault of the list, and each fault scheduled ahead of the sleep, or behind it
when the window is empty. -/
theorem op_runFor {s t : Net ρ μ υ} {seconds : Num} {faults : List Fault}
    {fuel : ℕ} {k : υ} {q : ℚ} (hh : Handles s) (hf : FaultIds s)
    (hwf : s.loop.Wf) (hq : seconds.value? = some q)
    (h : s.op (.runFor seconds faults fuel k) = some (t, .done)) :
    0 ≤ q ∧ ∃ new, t.timeline = s.timeline ++ new ∧
      new.length = faults.length ∧ ∀ e ∈ new, ∃ i r,
        e.2 = r.scheduled i s.loop.time ∧
        (0 < q → Asleep i (t.loop.nextHandle - 1) k r t) ∧
        (q = 0 → Ahead i (t.loop.nextHandle - 1) k r t) := by
  simp only [op, Option.map_eq_some_iff] at h
  obtain ⟨⟨t', res⟩, hrun, hres⟩ := h
  obtain ⟨window, rs, g, -, hall,
    ⟨e, rfl, -⟩ | ⟨-, hval, hw, hlen, heq⟩⟩ := runFor_eq hrun
  · cases hres
  obtain rfl : window = q := Option.some.inj (hval.symm.trans hq)
  obtain rfl : t' = t := by
    cases res with
    | error e => cases hres
    | ok _ => exact (Prod.mk.inj hres).1
  have hdrawn : Effects s { s with faultsRng := g } :=
    .single (.draws s s.netRng g)
  generalize hv : ({ s with faultsRng := g } : Net ρ μ υ) = v at heq hdrawn
  have hvt : v.loop.time = s.loop.time := by rw [← hv]
  have hvl : v.timeline = s.timeline := by rw [← hv]
  have hvh : Handles v := hdrawn.invariant (fun he hs => he.handles hs) hh
  have hvf : FaultIds v := hf.of_grows hdrawn.grows hdrawn.frame
  have hvwf : v.loop.Wf := by
    rw [← hv]
    exact hwf
  clear hv
  rw [← hvt] at heq ⊢
  generalize hu : v.scheduleAll v.loop.time rs = u at heq
  have huh : Handles u := by
    rw [← hu]
    exact (scheduleAll_effects hall v).invariant (fun he hs => he.handles hs) hvh
  obtain ⟨-, -, -, -, hnext, -, hline⟩ := sleep_pending u window k
  obtain ⟨new, hnew, hnlen, hevents⟩ := scheduleAll_timeline v v.loop.time rs
  have htl : t'.timeline = v.timeline ++ new := by rw [heq, hline, ← hu, hnew]
  have hfut : t'.loop.nextHandle - 1 = u.loop.nextHandle := by
    rw [heq, hnext]
    rfl
  refine ⟨hw, new, by rw [htl, hvl], hnlen.trans hlen, ?_⟩
  rw [hfut]
  intro e he
  obtain ⟨pre, r, post, rfl, hr⟩ := hevents e he
  generalize hi : (v.scheduleAll v.loop.time pre).nextFaultId = i at hr
  obtain ⟨hlined, hlt⟩ := scheduleAll_lined hvh hvf hvwf hall hu.symm hi.symm
  obtain ⟨htaken, harmed⟩ := taken_sleep huh hlt window k
  rw [← heq] at htaken harmed
  refine ⟨i, r, hr, ?_, ?_⟩
  · intro hpos
    refine ⟨htaken, harmed, ?_, [], r.callbacks i, rfl, ?_, by simp, ?_⟩
    · rw [heq, Net.sleep, if_pos hpos]
      exact AList.lookup_insert _
    · rw [heq]
      exact hlined.sleep_of_pos hpos k
    · exact fun hnil => absurd hnil (r.callbacks_ne_nil i)
  · rintro rfl
    refine ⟨htaken, harmed, ?_, ?_, ?_⟩
    · rw [heq, Net.sleep, if_neg (lt_irrefl _)]
      refine AList.lookup_eq_none.mpr fun hmem => ?_
      exact (huh.token_lt (.inr (.inr (.inl hmem)))).ne rfl
    · rw [heq]
      exact hlined.sleep_of_nonpos (lt_irrefl _) k
    · -- No event before the call is of this fault, and the call's own say
      -- only that it was scheduled.
      rintro c hc ⟨x, hx, hxc⟩
      have hid : x.2.faultId? = some i := by
        rw [hxc, FaultCallback.event_faultId?, r.faultId_of_mem hc]
      rw [htl] at hx
      rcases List.mem_append.mp hx with hx | hx
      · have hle := (scheduleAll_grows v v.loop.time pre).nextFaultId
        have := hvf.timeline x hx i hid
        omega
      · obtain ⟨_, r', _, -, hr'⟩ := hevents x hx
        rw [hr'] at hid
        cases r' <;> cases hid

theorem run_asleep {i fut : ℕ} {k : υ} {r : Resolved} {s t : Net ρ μ υ}
    {as : List (Act μ υ)} (hh : Handles s) (hs : Asleep i fut k r s)
    (h : Machine.run step s as = some t) :
    fut ∈ t.abandoned ∨ Asleep i fut k r t ∨ Awake i fut r t :=
  (Machine.run_invariant (I := fun s : Net ρ μ υ => Handles s ∧
      (fut ∈ s.abandoned ∨ Asleep i fut k r s ∨ Awake i fut r s))
    (fun {_ a _} hi hs =>
      ⟨hi.1.freeStep (a := .act a) hs, step_asleep hi.1 hi.2 hs⟩)
    ⟨hh, .inr (.inl hs)⟩ h).2

theorem run_ahead {i fut : ℕ} {k : υ} {r : Resolved} {s t : Net ρ μ υ}
    {as : List (Act μ υ)} (hh : Handles s) (hs : Ahead i fut k r s)
    (h : Machine.run step s as = some t) :
    fut ∈ t.abandoned ∨ Ahead i fut k r t ∨ Gone i fut t :=
  (Machine.run_invariant (I := fun s : Net ρ μ υ => Handles s ∧
      (fut ∈ s.abandoned ∨ Ahead i fut k r s ∨ Gone i fut s))
    (fun {_ a _} hi hs =>
      ⟨hi.1.freeStep (a := .act a) hs, step_ahead hi.1 hi.2 hs⟩)
    ⟨hh, .inr (.inl hs)⟩ h).2

omit [Random ρ] in
/-- A `run_for` that returns: its wake-up is at the head of what is ready, and
its task was not cancelled. -/
theorem mem_returnedBy {s : Net ρ μ υ} {a : Act μ υ} {fut : ℕ}
    (h : fut ∈ returnedBy s a) :
    a = .runReady ∧ fut ∉ s.abandoned ∧ ∃ hd rest k,
      s.loop.ready = hd :: rest ∧ hd.callback = .resume fut k := by
  unfold returnedBy at h
  split at h
  · split at h
    · next id f k w rest hready =>
      split_ifs at h with hc
      · cases h
      · rw [List.mem_singleton] at h
        subst h
        exact ⟨rfl, fun hmem => hc (.inr hmem), _, _, k, hready, rfl⟩
    · cases h
  · cases h

omit [Random ρ] in
theorem Over.congr {s t : Net ρ μ υ} {l : Loop (Callback μ υ)}
    (ht : t = { s with loop := l }) (e : Event μ) : Over t e ↔ Over s e := by
  subst ht
  cases e <;> rfl

/-- Nothing of a `run_for` outlives it, unless it is empty. For every run up to
the call, every list of faults it accepts and every run after it: the call puts
one event on the timeline for each fault; and in the step in which it returns
to a task that was not cancelled, all of these faults are over if and only if
`seconds` is positive or there are none. -/
theorem run_for_outlived {g f : ρ} {before after : List (Act μ υ)}
    {r r' s t : Net ρ μ υ} {a : Act μ υ} {seconds : Num} {faults : List Fault}
    {fuel : ℕ} {k : υ} {q : ℚ}
    (hr : Machine.run step (init g f) before = some r)
    (hcall : r.op (.runFor seconds faults fuel k) = some (r', .done))
    (hq : seconds.value? = some q)
    (hs : Machine.run step r' after = some s) (ht : step s a = some t)
    (hret : r'.loop.nextHandle - 1 ∈ returnedBy s a) :
    (r'.timeline.drop r.timeline.length).length = faults.length ∧
    ((∀ e ∈ r'.timeline.drop r.timeline.length, Over t e.2) ↔
      0 < q ∨ faults = []) := by
  have hrh := run_handles hr
  obtain ⟨hq0, new, hnew, hlen, hall⟩ :=
    op_runFor hrh (run_faultIds hr) (run_wf hr) hq hcall
  have hdrop : r'.timeline.drop r.timeline.length = new := by
    rw [hnew, List.drop_left]
  rw [hdrop]
  refine ⟨hlen, ?_⟩
  have hr'h : Handles r' := hrh.freeStep (a := .act (.op
    (.runFor seconds faults fuel k))) (by simp [freeStep, step, hcall])
  obtain ⟨rfl, hna, hd, rest, k', hready, hc⟩ := mem_returnedBy hret
  -- In this step the task goes on, and nothing else happens.
  obtain ⟨l, rfl, -⟩ : ∃ l, t = { s with loop := l } ∧ _ := by
    simp only [step, hready, Option.some.injEq] at ht
    exact runHandle_resume hc ht.symm
  have hof : ∀ i, hd.callback.isOf i (r'.loop.nextHandle - 1) = true := by
    intro i
    simp [hc, Callback.isOf, Callback.fut?]
  constructor
  · intro hover
    by_contra hnot
    obtain ⟨hpos, hne⟩ := not_or.mp hnot
    obtain rfl : q = 0 := le_antisymm (not_lt.mp hpos) hq0
    obtain ⟨e, he⟩ := List.exists_mem_of_length_pos
      (hlen ▸ List.length_pos_iff.mpr hne)
    obtain ⟨i, x, hx, -, hahead⟩ := hall e he
    obtain ⟨c, hcmem, hrec⟩ :=
      Over.recorded (hx ▸ (Over.congr rfl e.2).mp (hover e he))
    rcases run_ahead hr'h (hahead rfl) hs with ha | ha | ha
    · exact hna ha
    · exact ha.fresh c hcmem hrec
    · obtain ⟨c, hc'⟩ := ha.line hd
        (line_pop hready (hof i) ▸ List.mem_cons_self)
      rw [hc] at hc'
      cases hc'
  · intro hpos e he
    have hpos : 0 < q := by
      refine hpos.resolve_right ?_
      rintro rfl
      rw [List.length_eq_zero_iff.mp hlen] at he
      cases he
    obtain ⟨i, x, hx, hasleep, -⟩ := hall e he
    rw [Over.congr rfl, hx]
    rcases run_asleep hr'h (hasleep hpos) hs with ha | ha | ha
    · exact absurd ha hna
    · -- The task cannot be ready: what is first in the line is a fault or
      -- the wake-up.
      obtain ⟨done, cs, -, hline, -⟩ := ha.line
      rw [line_pop hready (hof i), List.map_cons, hc] at hline
      cases cs <;> cases hline
    · exact over_of_settled ha.recorded ha.settled

/-- A `run_for` with one crash, and what follows it. -/
def crashFor (seconds : Num) (as : List (Act Unit ℕ)) :
    Option (Net Toggle Unit ℕ × Reply Unit × Net Toggle Unit ℕ) :=
  ((init Toggle.low Toggle.low).op
    (.runFor seconds [.crash (some 1) none] 0 0)).bind fun x =>
      (Machine.run step x.1 as).map fun s => (x.1, x.2, s)

theorem crashFor_eq_some {seconds : Num} {as : List (Act Unit ℕ)}
    {r' s : Net Toggle Unit ℕ} {reply : Reply Unit}
    (h : crashFor seconds as = some (r', reply, s)) :
    (init Toggle.low Toggle.low).op
        (.runFor seconds [.crash (some 1) none] 0 0) = some (r', reply) ∧
      Machine.run step r' as = some s := by
  obtain ⟨⟨x, y⟩, hcall, hrun⟩ := Option.bind_eq_some_iff.mp h
  obtain ⟨s', hs, heq⟩ := Option.map_eq_some_iff.mp hrun
  simp only [Prod.mk.injEq] at heq
  obtain ⟨rfl, rfl, rfl⟩ := heq
  exact ⟨hcall, hs⟩

/-- The steps of a second of waiting, up to the one that returns. -/
def oneSecond : List (Act Unit ℕ) :=
  [.beginStep false, .runReady, .beginStep false, .runReady, .beginStep false]

theorem run_for_outlived_oneSecond : ∃ r' s t : Net Toggle Unit ℕ,
    (init Toggle.low Toggle.low).op
      (.runFor (.int 1) [.crash (some 1) none] 0 0) = some (r', .done) ∧
    Machine.run step r' oneSecond = some s ∧ step s .runReady = some t ∧
    ∀ e ∈ r'.timeline, Over t e.2 := by
  have hrun : (crashFor (.int 1) oneSecond).isSome := by decide +kernel
  obtain ⟨⟨r', reply, s⟩, hx⟩ := Option.isSome_iff_exists.mp hrun
  have hdata : (reply, r'.loop.nextHandle, returnedBy s .runReady,
      (step s .runReady).isSome) = (.done, 2, [1], true) := by
    have := congrArg (Option.map fun (x : _ × _ × _) =>
      (x.2.1, x.1.loop.nextHandle, returnedBy x.2.2 .runReady,
        (step x.2.2 .runReady).isSome)) hx
    exact Option.some.inj (this.symm.trans (by decide +kernel))
  simp only [Prod.mk.injEq] at hdata
  obtain ⟨rfl, hnext, hret, hsome⟩ := hdata
  obtain ⟨hcall, hs⟩ := crashFor_eq_some hx
  obtain ⟨t, ht⟩ := Option.isSome_iff_exists.mp hsome
  refine ⟨r', s, t, hcall, hs, ht, ?_⟩
  exact (run_for_outlived (Machine.run_nil _) hcall (q := 1) (by decide +kernel)
    hs ht (by simp [hnext, hret])).2.mpr (.inl one_pos)

/-- With `seconds = 0` the call returns and the node it was to crash is up. -/
theorem run_for_outlived_zeroSeconds : ∃ r' s t : Net Toggle Unit ℕ,
    (init Toggle.low Toggle.low).op
      (.runFor (.int 0) [.crash (some 1) none] 0 0) = some (r', .done) ∧
    Machine.run step r' [.beginStep false] = some s ∧
    step s .runReady = some t ∧
    r'.loop.nextHandle - 1 ∈ returnedBy s .runReady ∧
    r'.timeline.map Prod.snd = [.faultCrashScheduled 0 1 0] ∧
    1 ∉ t.crashed ∧ ∀ faultId, ¬ Recorded (.faultCrash faultId 1) t := by
  have hrun : (crashFor (.int 0) [.beginStep false]).isSome := by
    decide +kernel
  obtain ⟨⟨r', reply, s⟩, hx⟩ := Option.isSome_iff_exists.mp hrun
  have hdata : (reply, r'.loop.nextHandle, returnedBy s .runReady) =
      (.done, 2, [1]) := by
    have := congrArg (Option.map fun (x : _ × _ × _) =>
      (x.2.1, x.1.loop.nextHandle, returnedBy x.2.2 .runReady)) hx
    exact Option.some.inj (this.symm.trans (by decide +kernel))
  have hline : r'.timeline = [(0, .faultCrashScheduled 0 1 0)] := by
    have := congrArg (Option.map fun (x : _ × _ × _) => x.1.timeline) hx
    exact Option.some.inj (this.symm.trans (by decide +kernel))
  have hend : (step s .runReady).map (fun t => (t.crashed, t.timeline)) =
      some (∅, [(0, .faultCrashScheduled 0 1 0)]) := by
    have := congrArg (Option.map fun (x : _ × _ × _) =>
      (step x.2.2 .runReady).map fun t => (t.crashed, t.timeline)) hx
    exact Option.some.inj (this.symm.trans (by decide +kernel))
  simp only [Prod.mk.injEq] at hdata
  obtain ⟨rfl, hnext, hret⟩ := hdata
  simp only [Option.map_eq_some_iff, Prod.mk.injEq] at hend
  obtain ⟨t, ht, hcrashed, htline⟩ := hend
  obtain ⟨hcall, hs⟩ := crashFor_eq_some hx
  refine ⟨r', s, t, hcall, hs, ht, by simp [hnext, hret], by simp [hline],
    by simp [hcrashed], ?_⟩
  rintro faultId ⟨x, hx, heq⟩
  rw [htline, List.mem_singleton] at hx
  rw [hx] at heq
  cases heq

end Net

end Seedloop
