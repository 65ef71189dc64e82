import Seedloop.Proofs.OnTime
import Seedloop.Proofs.Windows

/-!
# The trace tells the truth about scheduled faults

Everything there is of one fault is its `Account`: the events the timeline has
of it, the timers that wait for it, and what the two registries hold under its
id. Most moves leave every account alone. Scheduling opens one, under the next
id, with all of the fault's timers in it in the order they are due; from then
on only those timers touch it, each of which fires on time, writes its event
and sets the registry. So an account is always the one `Resolved` that opened
it, cut in two: what has been done, and what is still to do.
-/

namespace Seedloop

/-- The fault an event is about, its scheduling included. -/
def Event.about? {μ : Type} : Event μ → Option ℕ
  | .faultPartitionScheduled i .. => some i
  | .faultSlowLinkScheduled i .. => some i
  | .faultCrashScheduled i .. => some i
  | e => e.faultId?

@[simp] theorem FaultCallback.event_about? {μ : Type} (c : FaultCallback) :
    (c.event : Event μ).about? = some c.faultId := by
  cases c <;> rfl

@[simp] theorem Resolved.scheduled_about? {μ : Type} (i : ℕ) (now : ℚ)
    (r : Resolved) : (r.scheduled i now : Event μ).about? = some i := by
  cases r <;> rfl

/-- What `_fault_partitions` holds for a fault after `n` of its callbacks. -/
def Resolved.partitionAfter (n : ℕ) : Resolved → Option (List (Finset Address))
  | .partition groups _ _ => if n = 1 then some groups else none
  | _ => none

/-- What `_fault_slow_links` holds for a fault after `n` of its callbacks. -/
def Resolved.slowLinkAfter (n : ℕ) : Resolved → Option (Finset Address × ℚ)
  | .slowLink a b factor _ _ => if n = 1 then some ({a, b}, factor) else none
  | _ => none

namespace Net

variable {ρ μ υ : Type}

/-- Everything there is of one fault. -/
@[ext] structure Account (μ υ : Type) where
  events : List (ℚ × Event μ)
  timers : List (Handle (Callback μ υ))
  partition : Option (List (Finset Address))
  slowLink : Option (Finset Address × ℚ)

def account (s : Net ρ μ υ) (i : ℕ) : Account μ υ where
  events := s.timeline.filter fun e => e.2.about? = some i
  timers := s.loop.pending.filter fun h => h.callback.faultId? = some i
  partition := s.faultPartitions.lookup i
  slowLink := s.faultSlowLinks.lookup i

/-- The account of a fault that was not scheduled. -/
def Account.none : Account μ υ := ⟨[], [], .none, .none⟩

/-- The account is that of a fault settled as `r` and scheduled at `now`, some
of whose timers have fired. -/
def Account.Tells (a : Account μ υ) (i : ℕ) (now : ℚ) (r : Resolved) : Prop :=
  ∃ done rest, r.timers i now = done ++ rest ∧
    a.events = (now, r.scheduled i now) :: done.map (fun x => (x.1, x.2.event)) ∧
    a.timers.map (fun h => (h.callback, h.when?)) =
      rest.map (fun x => (Callback.fault x.2, some (When.fin x.1))) ∧
    a.partition = r.partitionAfter done.length ∧
    a.slowLink = r.slowLinkAfter done.length

/-- Ids below the counter have an account, the others do not. -/
def Ledger (s : Net ρ μ υ) : Prop :=
  ∀ i, (i < s.nextFaultId → ∃ now r, (s.account i).Tells i now r) ∧
    (s.nextFaultId ≤ i → s.account i = .none)

theorem init_ledger (g f : ρ) : Ledger (init g f : Net ρ μ υ) := by
  intro i
  refine ⟨fun h => absurd h (Nat.not_lt_zero i), fun _ => ?_⟩
  simp [account, Account.none, init, Loop.init, Loop.pending]

theorem Ledger.of_account {s t : Net ρ μ υ} (hs : Ledger s)
    (hn : t.nextFaultId = s.nextFaultId)
    (ha : ∀ i, t.account i = s.account i) : Ledger t := by
  intro i
  rw [hn, ha]
  exact hs i

/-! ## Moves that touch no account -/

/-- Nothing was written of a fault, and no registry was touched. -/
theorem account_of_frame {s t : Net ρ μ υ} {i : ℕ}
    (hline : ∃ new, t.timeline = s.timeline ++ new ∧
      ∀ e ∈ new, e.2.about? ≠ some i)
    (hpend : t.loop.pending.filter (fun h => h.callback.faultId? = some i) =
      s.loop.pending.filter fun h => h.callback.faultId? = some i)
    (hp : t.faultPartitions.lookup i = s.faultPartitions.lookup i)
    (hl : t.faultSlowLinks.lookup i = s.faultSlowLinks.lookup i) :
    t.account i = s.account i := by
  obtain ⟨new, heq, hnew⟩ := hline
  refine Account.ext ?_ hpend hp hl
  show t.timeline.filter _ = s.timeline.filter _
  have hnone : new.filter (fun e => e.2.about? = some i) = [] := by
    rw [List.filter_eq_nil_iff]
    intro e he
    simpa using hnew e he
  rw [heq, List.filter_append, hnone, List.append_nil]

theorem Grows.timers {s t : Net ρ μ υ} (h : Grows s t)
    {i : ℕ} (hi : ¬ (s.nextFaultId ≤ i ∧ i < t.nextFaultId)) :
    t.loop.pending.filter (fun h => h.callback.faultId? = some i) =
      s.loop.pending.filter fun h => h.callback.faultId? = some i := by
  refine h.filter _ fun x hx => ?_
  unfold Pushed at hx
  split at hx
  · next hc => simp [hc, Callback.faultId?]
  · next hc => simp [hc, Callback.faultId?]
  · next c hc =>
    rw [hc, Callback.faultId?, decide_eq_false_iff_not, Option.some.injEq]
    rintro rfl
    exact hi hx
  · next hc => simp [hc, Callback.faultId?]
  · next hc => simp [hc, Callback.faultId?]

theorem Sends.account {s t : Net ρ μ υ} {src dst : Address} {msg : μ}
    {endpoint : Endpoint μ} {how : Sent}
    (h : Sends s t src dst msg endpoint how) :
    t.nextFaultId = s.nextFaultId ∧ ∀ i, t.account i = s.account i := by
  have hn : t.nextFaultId = s.nextFaultId := by
    obtain ⟨g, f, rfl⟩ := h.eq
    cases how <;> rfl
  refine ⟨hn, fun i => account_of_frame ⟨_, h.timeline, ?_⟩
    (h.grows.timers (by omega)) ?_ ?_⟩
  · intro e he
    obtain ⟨kind, -, rfl⟩ := List.mem_map.mp he
    rintro ⟨⟩
  · rw [h.frame.faultPartitions]
  · rw [h.frame.faultSlowLinks]

theorem schedule_account_of_ne (s : Net ρ μ υ) (now : ℚ) (r : Resolved)
    {i : ℕ} (hi : i ≠ s.nextFaultId) :
    (s.schedule now r).account i = s.account i := by
  refine account_of_frame ⟨_, schedule_timeline s now r, ?_⟩
    ((Grows.schedule s now r).timers ?_) ?_ ?_
  · intro e he
    rw [List.mem_singleton] at he
    subst he
    rw [Resolved.scheduled_about?, ne_eq, Option.some.injEq]
    exact hi.symm
  · rw [schedule_nextFaultId]
    omega
  · cases r <;> rfl
  · cases r <;> rfl

/-- An effect is a fault put on the heap, or touches no account. -/
theorem Effect.account {s t : Net ρ μ υ} (h : Effect s t) :
    (t.nextFaultId = s.nextFaultId ∧ ∀ i, t.account i = s.account i) ∨
    ∃ seconds r, Resolved.Ok seconds r ∧ t = s.schedule s.loop.time r := by
  have hg := h.grows
  have hf := h.frame
  by_cases hsched : ∃ seconds r, Resolved.Ok seconds r ∧
      t = s.schedule s.loop.time r
  · exact .inr hsched
  · left
    have hline : t.nextFaultId = s.nextFaultId ∧
        ∃ new, t.timeline = s.timeline ++ new ∧
          ∀ e ∈ new, e.2.about? = none := by
      cases h with
      | schedule seconds r hok => exact absurd ⟨seconds, r, hok, rfl⟩ hsched
      | record event => exact ⟨rfl, [_], rfl, by simp [Event.about?, Event.faultId?]⟩
      | sleep seconds k =>
          unfold Net.sleep
          dsimp only
          split <;> exact ⟨rfl, [], (List.append_nil _).symm, by simp⟩
      | cancelRunFor fut =>
          unfold Net.finishSleep
          split <;> exact ⟨rfl, [], (List.append_nil _).symm, by simp⟩
      | _ => exact ⟨rfl, [], (List.append_nil _).symm, by simp⟩
    obtain ⟨hn, new, heq, hnew⟩ := hline
    refine ⟨hn, fun i => account_of_frame ⟨new, heq, ?_⟩
      (hg.timers (by omega)) ?_ ?_⟩
    · intro e he
      rw [hnew e he]
      rintro ⟨⟩
    · rw [hf.faultPartitions]
    · rw [hf.faultSlowLinks]

/-! ## Opening an account -/

/-- A timer of a fault goes behind those that are due no later. -/
theorem timers_callAt {s : Net ρ μ υ} (hwf : s.loop.Wf) {i : ℕ} {w : ℚ}
    {c : FaultCallback} (hc : c.faultId = i)
    (hle : ∀ τ ∈ s.loop.timers.entries, τ.handle.callback.faultId? = some i →
      τ.when ≤ .fin w) :
    ((s.callAt w (.fault c)).account i).timers =
      (s.account i).timers ++ [⟨s.loop.nextHandle, .fault c, some (.fin w)⟩] := by
  refine Loop.filter_callAt s.loop (w := .fin w)
    (p := fun h => h.callback.faultId? = some i) ?_ ?_
  · simp [Callback.faultId?, hc]
  · intro τ hτ hof
    exact ⟨hle τ hτ (by simpa using hof), hwf.seq_lt τ hτ⟩

theorem not_due_of_none {s : Net ρ μ υ} {i : ℕ}
    (hnone : (s.account i).timers = []) : ∀ τ ∈ s.loop.timers.entries,
      τ.handle.callback.faultId? ≠ some i := by
  intro τ hτ
  have := List.filter_eq_nil_iff.mp hnone τ.handle
    (List.mem_append_right _ (List.mem_map_of_mem hτ))
  simpa using this

/-- The timer of a moment, alone. -/
theorem timers_moment {s : Net ρ μ υ} (hwf : s.loop.Wf) {i : ℕ}
    (hnone : (s.account i).timers = []) (w : ℚ) {c : FaultCallback}
    (hc : c.faultId = i) :
    ((s.callAt w (.fault c)).account i).timers.map
        (fun h => (h.callback, h.when?)) = [(.fault c, some (.fin w))] := by
  rw [timers_callAt hwf hc
    (fun τ hτ hof => absurd hof (not_due_of_none hnone τ hτ)), hnone]
  rfl

/-- The two timers of a window, the one that ends it behind the other. -/
theorem timers_window {s : Net ρ μ υ} (hwf : s.loop.Wf) {i : ℕ}
    (hnone : (s.account i).timers = []) {w w' : ℚ} (hw : w ≤ w')
    {c c' : FaultCallback} (hc : c.faultId = i) (hc' : c'.faultId = i) :
    (((s.callAt w (.fault c)).callAt w' (.fault c')).account i).timers.map
        (fun h => (h.callback, h.when?)) =
      [(.fault c, some (.fin w)), (.fault c', some (.fin w'))] := by
  have hfirst := timers_moment hwf hnone w hc
  rw [timers_callAt (hwf.callAt _ _) hc', List.map_append, hfirst]
  · rfl
  · intro τ hτ hof
    rcases PQueue.mem_push.mp hτ with rfl | hτ
    · exact When.fin_le_fin.mpr hw
    · exact absurd hof (not_due_of_none hnone τ hτ)

/-- Scheduling a fault opens its account. -/
theorem schedule_tells {s : Net ρ μ υ} (hwf : s.loop.Wf)
    (hnone : s.account s.nextFaultId = .none) {now seconds : ℚ} {r : Resolved}
    (hok : r.Ok seconds) :
    ((s.schedule now r).account s.nextFaultId).Tells s.nextFaultId now r := by
  have hevents : s.timeline.filter
      (fun e => e.2.about? = some s.nextFaultId) = [] :=
    congrArg Account.events hnone
  have htimers : s.loop.pending.filter
      (fun h => h.callback.faultId? = some s.nextFaultId) = [] :=
    congrArg Account.timers hnone
  refine ⟨[], r.timers s.nextFaultId now, rfl, ?_, ?_, ?_, ?_⟩
  · show (s.schedule now r).timeline.filter _ = _
    rw [schedule_timeline, List.filter_append, hevents]
    simp
  · cases r with
    | partition groups start stop =>
        exact timers_window (s := recordAt
          { s with nextFaultId := s.nextFaultId + 1 } now _) hwf htimers
          (by linarith [hok.2.1]) rfl rfl
    | slowLink a b factor start stop =>
        exact timers_window (s := recordAt
          { s with nextFaultId := s.nextFaultId + 1 } now _) hwf htimers
          (by linarith [hok.2.2.1]) rfl rfl
    | crash node at_ =>
        exact timers_moment (s := recordAt
          { s with nextFaultId := s.nextFaultId + 1 } now _) hwf htimers _ rfl
  · have hp : s.faultPartitions.lookup s.nextFaultId = none :=
      congrArg Account.partition hnone
    cases r <;> exact hp
  · have hl : s.faultSlowLinks.lookup s.nextFaultId = none :=
      congrArg Account.slowLink hnone
    cases r <;> exact hl

/-! ## Firing -/

/-- What a callback does to the registries under its own id. -/
theorem runFault_registries (s : Net ρ μ υ) {i n : ℕ} {now : ℚ} {r : Resolved}
    {done rest : List (ℚ × FaultCallback)} {x : ℚ × FaultCallback}
    (h : r.timers i now = done ++ x :: rest) (hn : n = done.length)
    (hp : s.faultPartitions.lookup i = r.partitionAfter n)
    (hl : s.faultSlowLinks.lookup i = r.slowLinkAfter n) :
    (s.runFault x.2).faultPartitions.lookup i = r.partitionAfter (n + 1) ∧
      (s.runFault x.2).faultSlowLinks.lookup i = r.slowLinkAfter (n + 1) := by
  subst hn
  cases r with
  | partition groups start stop =>
      rcases done with _ | ⟨y, _ | ⟨z, done⟩⟩
      · obtain ⟨rfl, -⟩ := List.cons.inj h
        exact ⟨AList.lookup_insert _, hl⟩
      · obtain ⟨-, h⟩ := List.cons.inj h
        obtain ⟨rfl, -⟩ := List.cons.inj h
        exact ⟨AList.lookup_erase _ _, hl⟩
      · have := congrArg List.length h
        simp [Resolved.timers] at this
  | slowLink a b factor start stop =>
      rcases done with _ | ⟨y, _ | ⟨z, done⟩⟩
      · obtain ⟨rfl, -⟩ := List.cons.inj h
        exact ⟨hp, AList.lookup_insert _⟩
      · obtain ⟨-, h⟩ := List.cons.inj h
        obtain ⟨rfl, -⟩ := List.cons.inj h
        exact ⟨hp, AList.lookup_erase _ _⟩
      · have := congrArg List.length h
        simp [Resolved.timers] at this
  | crash node at_ =>
      rcases done with _ | ⟨y, done⟩
      · obtain ⟨rfl, -⟩ := List.cons.inj h
        exact ⟨hp, hl⟩
      · have := congrArg List.length h
        simp [Resolved.timers] at this

/-- A callback leaves the accounts of other faults alone. -/
theorem runFault_account_of_ne {s : Net ρ μ υ} {l : Loop (Callback μ υ)}
    {h : Handle (Callback μ υ)} (hl : s.loop.Takes h l) {c : FaultCallback}
    (hc : h.callback = .fault c) {i : ℕ} (hi : c.faultId ≠ i) :
    (runFault { s with loop := l } c).account i = s.account i := by
  refine account_of_frame ⟨_, runFault_timeline _ c, ?_⟩ ?_ ?_ ?_
  · intro e he
    rw [List.mem_singleton] at he
    subst he
    rw [FaultCallback.event_about?, ne_eq, Option.some.injEq]
    exact hi
  · rw [runFault_loop]
    exact hl.filter_of_not (by simp [hc, Callback.faultId?, hi])
  · cases c with
    | beginFaultPartition => exact AList.lookup_insert_ne hi.symm
    | endFaultPartition => exact AList.lookup_erase_ne hi.symm
    | _ => rfl
  · cases c with
    | beginSlowLink => exact AList.lookup_insert_ne hi.symm
    | endSlowLink => exact AList.lookup_erase_ne hi.symm
    | _ => rfl

/-- The first timer of an account fires on time, and is done. -/
theorem Account.Tells.fire {s : Net ρ μ υ} (hot : OnTime s) {i : ℕ} {now : ℚ}
    {r : Resolved} (hs : (s.account i).Tells i now r)
    {h : Handle (Callback μ υ)} {ready : List (Handle (Callback μ υ))}
    (hready : s.loop.ready = h :: ready) {c : FaultCallback}
    (hc : h.callback = .fault c) (hi : c.faultId = i) :
    ((runFault { s with loop := { s.loop with ready := ready } } c).account
      i).Tells i now r := by
  obtain ⟨done, rest, hsplit, hevents, htimers, hp, hl⟩ := hs
  have hhead : (s.account i).timers = h ::
      (account { s with loop := { s.loop with ready := ready } } i).timers := by
    simp only [account, Loop.pending, hready, List.cons_append]
    exact List.filter_cons_of_pos (by simp [hc, Callback.faultId?, hi])
  rw [hhead, List.map_cons] at htimers
  cases rest with
  | nil => cases htimers
  | cons x rest =>
      rw [List.map_cons, List.cons.injEq, Prod.mk.injEq] at htimers
      obtain ⟨⟨hcall, hwhen⟩, htail⟩ := htimers
      rw [hc, Callback.fault.injEq] at hcall
      subst hcall
      have hnow : s.loop.time = x.1 := by
        have := hot.ready h (by rw [hready]; exact List.mem_cons_self)
          (by rw [hc]; rfl)
        rw [hwhen, Option.some.injEq, When.fin.injEq] at this
        exact this.symm
      obtain ⟨hp', hl'⟩ := runFault_registries
        { s with loop := { s.loop with ready := ready } } hsplit rfl hp hl
      refine ⟨done ++ [x], rest, by rw [hsplit]; simp, ?_, ?_, ?_, ?_⟩
      · show (runFault _ x.2).timeline.filter _ = _
        rw [runFault_timeline, List.filter_append]
        have hevents : s.timeline.filter (fun e => e.2.about? = some i) = _ :=
          hevents
        rw [hevents]
        simp [hi, hnow]
      · rw [← htail]
        simp only [account, runFault_loop]
      · rw [List.length_append]
        exact hp'
      · rw [List.length_append]
        exact hl'

/-- What running a handle that is no fault's does to the accounts. -/
theorem runHandle_account {s : Net ρ μ υ} {h : Handle (Callback μ υ)}
    {l : Loop (Callback μ υ)} (hl : s.loop.Takes h l)
    (hc : h.callback.faultId? = none) (i : ℕ) :
    (runHandle { s with loop := l } h).account i = s.account i := by
  have hpop : ∀ l' : Loop (Callback μ υ), l'.pending = l.pending →
      account { s with loop := l' } i = s.account i := by
    intro l' hl'
    refine account_of_frame ⟨[], (List.append_nil _).symm, by simp⟩ ?_ rfl rfl
    rw [hl', hl.filter_of_not (by simp [hc])]
  unfold runHandle
  split
  · exact hpop l rfl
  · unfold runCallback
    split
    · exact hpop l rfl
    · next mid src dst msg _ =>
      rw [← hpop l rfl]
      refine account_of_frame ⟨_, deliver_timeline _ mid src dst msg, ?_⟩ ?_ ?_ ?_
      · simp [Event.about?, Event.faultId?]
      all_goals
        obtain ⟨_, _, heq⟩ := deliver_eq { s with loop := l } mid src dst msg
        rw [heq]
    · next c hcb => rw [hcb] at hc; cases hc
    · next fut k _ =>
      rw [← hpop l rfl]
      unfold finishSleep
      split
      · rfl
      · refine account_of_frame ⟨[], (List.append_nil _).symm, by simp⟩ ?_ rfl rfl
        exact Loop.filter_callSoon_of_not _ (by simp [Callback.faultId?])
    · exact hpop _ rfl

/-! ## Over every run -/

theorem Quiet.wf {s t : Net ρ μ υ} (h : Quiet s t) (hwf : s.loop.Wf) :
    t.loop.Wf := by
  obtain ⟨⟨ms, -, hrun⟩, -⟩ := h
  exact Machine.run_invariant (fun hi hs => Loop.step_wf hi hs) hwf hrun

theorem Effect.ledger {s t : Net ρ μ υ} (h : Effect s t) (hwf : s.loop.Wf)
    (hs : Ledger s) : Ledger t := by
  rcases h.account with ⟨hn, ha⟩ | ⟨seconds, r, hok, rfl⟩
  · exact hs.of_account hn ha
  · intro i
    rw [schedule_nextFaultId]
    by_cases hi : i = s.nextFaultId
    · subst hi
      refine ⟨fun _ => ⟨_, r, schedule_tells hwf ((hs _).2 le_rfl) hok⟩, ?_⟩
      intro h
      omega
    · rw [schedule_account_of_ne s _ r hi]
      exact ⟨fun h => (hs i).1 (by omega), fun h => (hs i).2 (by omega)⟩

/-- A handle that runs is the first timer of one account, or of none. -/
theorem Ledger.runReady {s : Net ρ μ υ} (hh : Handles s) (hot : OnTime s)
    (hs : Ledger s) {h : Handle (Callback μ υ)}
    {ready : List (Handle (Callback μ υ))} (hready : s.loop.ready = h :: ready) :
    Ledger (runHandle { s with loop := { s.loop with ready := ready } } h) := by
  have hl := takes_pop hready
  have hn := (runHandle_runs { s with loop := { s.loop with ready := ready } }
    h).nextFaultId
  cases hc : h.callback.faultId? with
  | none => exact hs.of_account hn (runHandle_account hl hc)
  | some j =>
      obtain ⟨c, hcb, rfl⟩ : ∃ c, h.callback = .fault c ∧ c.faultId = j := by
        cases hcb : h.callback with
        | fault c => exact ⟨c, rfl, by simpa [hcb, Callback.faultId?] using hc⟩
        | _ => simp [hcb, Callback.faultId?] at hc
      rw [hh.runHandle_eq (by simp [Loop.pending, hready])
        (by rw [hcb]; rfl) hl, hcb] at hn ⊢
      intro i
      rw [hn]
      by_cases hi : c.faultId = i
      · refine ⟨fun hlt => ?_, fun hle => ?_⟩
        · obtain ⟨now, r, htells⟩ := (hs i).1 hlt
          exact ⟨now, r, htells.fire hot hready hcb hi⟩
        · -- A fault that was not scheduled has no timer.
          have hnone : (s.account i).timers = [] := by rw [(hs i).2 hle]; rfl
          have := List.filter_eq_nil_iff.mp hnone h
            (by simp [Loop.pending, hready])
          simp [hcb, Callback.faultId?, hi] at this
      · have ha := runFault_account_of_ne hl hcb hi
        exact ⟨fun hlt => ha ▸ (hs i).1 hlt, fun hle => ha ▸ (hs i).2 hle⟩

variable [Random ρ]

theorem Ledger.step {s t : Net ρ μ υ} {a : Act μ υ} (hh : Handles s)
    (hot : OnTime s) (hwf : s.loop.Wf) (hs : Ledger s)
    (h : step s a = some t) : Ledger t := by
  cases a with
  | op o =>
      simp only [Net.step, Option.map_eq_some_iff] at h
      obtain ⟨⟨t', r⟩, hop, rfl⟩ := h
      rcases op_cases hop with ⟨_, _, _, _, _, -, hsends⟩ | ⟨-, heff⟩
      · exact hs.of_account hsends.account.1 hsends.account.2
      · exact (heff.invariant (I := fun s : Net ρ μ υ => s.loop.Wf ∧ Ledger s)
          (fun he hi => ⟨he.quiet.wf hi.1, he.ledger hi.1 hi.2⟩) ⟨hwf, hs⟩).2
  | beginStep stopStep =>
      cases h
      refine hs.of_account rfl fun i => ?_
      refine account_of_frame ⟨[], (List.append_nil _).symm, by simp⟩ ?_ rfl rfl
      refine (s.loop.pending_beginStep stopStep).2 _ ?_
      intro τ hτ hof
      refine hh.live (List.mem_append_right _ (List.mem_map_of_mem hτ)) ?_
      cases hc : τ.handle.callback with
      | fault c => rfl
      | _ => rw [hc] at hof; simp [Callback.faultId?] at hof
  | clearStop =>
      cases h
      exact hs.of_account rfl fun i => rfl
  | runReady =>
      simp only [Net.step] at h
      split at h
      · cases h
      · next hd rest hready =>
        cases h
        exact hs.runReady hh hot hready

theorem run_ledger {g f : ρ} {s : Net ρ μ υ} {as : List (Act μ υ)}
    (h : Machine.run Net.step (init g f) as = some s) : Ledger s := by
  induction as using List.reverseRecOn generalizing s with
  | nil =>
      rw [Machine.run_nil, Option.some.injEq] at h
      exact h ▸ init_ledger g f
  | append_singleton as a ih =>
      obtain ⟨r, hr, hstep⟩ := Machine.run_concat_eq_some.mp h
      exact (ih hr).step (run_handles hr) (run_onTime hr) (run_wf hr) hstep

omit [Random ρ] in
/-- A timer that waits is not overdue. -/
theorem not_overdue {s : Net ρ μ υ} (hot : OnTime s) {i : ℕ}
    {rest : List (ℚ × FaultCallback)}
    (htimers : (s.account i).timers.map (fun h => (h.callback, h.when?)) =
      rest.map (fun x => (Callback.fault x.2, some (When.fin x.1))))
    {x : ℚ × FaultCallback} (hx : x ∈ rest) :
    s.loop.time ≤ x.1 ∧ (s.loop.ready = [] →
      ∃ τ ∈ s.loop.timers.entries, τ.when = .fin x.1) := by
  have hmem : (Callback.fault x.2, some (When.fin x.1)) ∈
      (s.account i).timers.map (fun h => (h.callback, h.when?)) := by
    rw [htimers]
    exact List.mem_map_of_mem hx
  obtain ⟨h, hh, heq⟩ := List.mem_map.mp hmem
  rw [Prod.mk.injEq] at heq
  obtain ⟨hc, hwhen⟩ := heq
  have hnet : h.callback.isNet = true := by rw [hc]; rfl
  have hpend : h ∈ s.loop.pending := (List.mem_filter.mp hh).1
  rcases List.mem_append.mp hpend with hready | htimer
  · have hnow := hot.ready h hready hnet
    rw [hwhen, Option.some.injEq, When.fin.injEq] at hnow
    exact ⟨hnow.ge, fun hnone => absurd (hnone ▸ hready) List.not_mem_nil⟩
  · obtain ⟨τ, hτ, rfl⟩ := List.mem_map.mp htimer
    have hτwhen : τ.when = .fin x.1 := by
      rw [hot.when? τ hτ] at hwhen
      exact Option.some.inj hwhen
    obtain ⟨q, hq, hle⟩ := hot.heap τ hτ hnet
    rw [hτwhen, When.fin.injEq] at hq
    exact ⟨hq ▸ hle, fun _ => ⟨τ, hτ, hτwhen⟩⟩

/-- The trace tells the truth about scheduled faults. In every state of every
run and for every fault id that was given out, there are the one moment the
fault was scheduled at and the one way it was settled, and its timers are cut in
two. The timeline has of it the one event that says so, and then, each at the
time recorded there and in that order, the events of the timers in front of the
cut and no others; all timers are in front that the clock has passed, and those
it has reached once nothing is left to run at that time; and under the id the
registries hold the recorded groups, or pair and factor, between the first
timer of a window and the second, and nothing before, after or for a crash. Of
an id that was not given out there is no event, and no entry. -/
theorem trace_tells_faults {g f : ρ} {as : List (Act μ υ)} {s : Net ρ μ υ}
    (h : Machine.run Net.step (init g f) as = some s) (i : ℕ) :
    (i < s.nextFaultId → ∃ (now : ℚ) (r : Resolved)
        (done rest : List (ℚ × FaultCallback)),
      r.timers i now = done ++ rest ∧
      s.timeline.filter (fun e => e.2.about? = some i) =
        (now, r.scheduled i now) :: done.map (fun x => (x.1, x.2.event)) ∧
      (∀ x ∈ r.timers i now, x.1 < s.loop.time ∨
        (x.1 ≤ s.loop.time ∧ s.loop.ready = [] ∧
          ∀ τ ∈ s.loop.timers.entries, ¬ τ.when ≤ .fin s.loop.time) →
        x ∈ done) ∧
      s.faultPartitions.lookup i = r.partitionAfter done.length ∧
      s.faultSlowLinks.lookup i = r.slowLinkAfter done.length) ∧
    (s.nextFaultId ≤ i → (∀ e ∈ s.timeline, e.2.about? ≠ some i) ∧
      s.faultPartitions.lookup i = none ∧
      s.faultSlowLinks.lookup i = none) := by
  have hot := run_onTime h
  constructor
  · intro hi
    obtain ⟨now, r, done, rest, hsplit, hevents, htimers, hp, hl⟩ :=
      (run_ledger h i).1 hi
    refine ⟨now, r, done, rest, hsplit, hevents, ?_, hp, hl⟩
    intro x hx hpast
    rw [hsplit] at hx
    rcases List.mem_append.mp hx with hx | hx
    · exact hx
    · obtain ⟨hle, hheap⟩ := not_overdue hot htimers hx
      rcases hpast with hlt | ⟨hreach, hready, hnone⟩
      · exact absurd hlt (not_lt.mpr hle)
      · obtain ⟨τ, hτ, hwhen⟩ := hheap hready
        refine absurd ?_ (hnone τ hτ)
        rw [hwhen]
        exact When.fin_le_fin.mpr hreach
  · intro hi
    have hnone := (run_ledger h i).2 hi
    refine ⟨?_, congrArg Account.partition hnone,
      congrArg Account.slowLink hnone⟩
    intro e he
    have := List.filter_eq_nil_iff.mp (congrArg Account.events hnone) e he
    simpa using this

/-- A slow link and a partition, both begun and neither over. -/
def twoWindows : List (Act Unit ℕ) :=
  [.op (.runFor (.int 1) [.slowLink (some 1) (some 2) (some (.int 3)),
      .partition [{1}, {2}]] 0 0),
    .beginStep false, .runReady, .runReady]

theorem trace_tells_faults_twoWindows : ∃ s : Net Toggle Unit ℕ,
    Machine.run Net.step (init Toggle.low Toggle.low) twoWindows = some s ∧
    s.faultSlowLinks.lookup 0 = some ({1, 2}, 3) ∧
    s.faultPartitions.lookup 1 = some [{1}, {2}] ∧
    ∀ i < 2, ∃ now r, s.timeline.filter (fun e => e.2.about? = some i) =
      (now, Resolved.scheduled i now r) ::
        ((r.timers i now).take 1).map (fun x => (x.1, x.2.event)) := by
  have hrun : (Machine.run Net.step (init Toggle.low Toggle.low)
      twoWindows).isSome := by decide +kernel
  obtain ⟨s, hs⟩ := Option.isSome_iff_exists.mp hrun
  have hregs : ((s.account 0).slowLink, (s.account 1).partition) =
      (some ({1, 2}, 3), some [{1}, {2}]) := by
    have := congrArg (Option.map fun s =>
      ((s.account 0).slowLink, (s.account 1).partition)) hs
    exact Option.some.inj (this.symm.trans (by decide +kernel))
  have hcounts : (s.nextFaultId, (s.account 0).events.length,
      (s.account 1).events.length) = (2, 2, 2) := by
    have := congrArg (Option.map fun s => (s.nextFaultId,
      (s.account 0).events.length, (s.account 1).events.length)) hs
    exact Option.some.inj (this.symm.trans (by decide +kernel))
  simp only [Prod.mk.injEq] at hregs hcounts
  obtain ⟨hslow, hpart⟩ := hregs
  obtain ⟨hnext, hlen0, hlen1⟩ := hcounts
  refine ⟨s, hs, hslow, hpart, fun i hi => ?_⟩
  obtain ⟨now, r, done, rest, hsplit, hevents, -⟩ :=
    (trace_tells_faults hs i).1 (by omega)
  have hlen : (s.timeline.filter fun e => e.2.about? = some i).length = 2 := by
    obtain rfl | rfl : i = 0 ∨ i = 1 := by omega
    · exact hlen0
    · exact hlen1
  have hdone : done.length = 1 := by
    rw [hevents] at hlen
    simpa using hlen
  refine ⟨now, r, ?_⟩
  rw [hevents, hsplit, List.take_append_of_le_length hdone.ge,
    List.take_of_length_le hdone.le]

end Net

end Seedloop
