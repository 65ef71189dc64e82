import Seedloop.Proofs.Frame

/-!
# Every message is accounted for

A message leaves a `send`, perhaps a `drop` or a `duplicate`, and from then on
each of its copies is either waiting on the heap or the ready queue or has
ended in exactly one event. `_send` and `_deliver` are the two functions that
move a message, and every early return of either shows up here as one number:
`Sent.copies` for the one, and the one event of `fate` for the other. A step
that does neither is `Idle`.
-/

namespace Seedloop

/-- The event is one of this kind, about this message. -/
def Event.isMessage {μ : Type} (kind : MsgEvent) (mid : ℕ) : Event μ → Bool
  | .message k m _ _ => k = kind ∧ m = mid
  | _ => false

/-- The message a `send` event is about. -/
def Event.sentMid? {μ : Type} : Event μ → Option ℕ
  | .message .send mid _ _ => some mid
  | _ => none

/-- A delivery of the message. -/
def Callback.delivers {μ υ : Type} (mid : ℕ) : Callback μ υ → Bool
  | .deliver m .. => m = mid
  | _ => false

/-- A delivery. -/
def Callback.isDeliver {μ υ : Type} : Callback μ υ → Bool
  | .deliver .. => true
  | _ => false

namespace Net

variable {ρ μ υ : Type}

/-- How many events of a kind a message has. -/
def events (s : Net ρ μ υ) (kind : MsgEvent) (mid : ℕ) : ℕ :=
  s.timeline.countP fun e => e.2.isMessage kind mid

/-- How many deliveries of a message are still to fire. -/
def underWay (s : Net ρ μ υ) (mid : ℕ) : ℕ :=
  s.loop.pending.countP fun h => h.callback.delivers mid

/-- The ids of the `send` events, along the timeline. -/
def sentMids (s : Net ρ μ υ) : List ℕ :=
  s.timeline.filterMap fun e => e.2.sentMid?

/-- How many deliveries of a message have fired. -/
def ended (s : Net ρ μ υ) (mid : ℕ) : ℕ :=
  s.events .deliver mid + s.events .dropCrashed mid +
    s.events .dropPartitioned mid

/-- The message a step sends: its id, its ends and what it carries. -/
def sends (s : Net ρ μ υ) : FreeAct μ υ → List (ℕ × Address × Address × μ)
  | .act (.op (.send src dst msg)) => [(s.nextMid, src, dst, msg)]
  | _ => []

theorem events_append {s t : Net ρ μ υ} {new : List (ℚ × Event μ)}
    (h : t.timeline = s.timeline ++ new) (kind : MsgEvent) (mid : ℕ) :
    t.events kind mid = s.events kind mid +
      new.countP fun e => e.2.isMessage kind mid := by
  rw [events, h, List.countP_append]
  rfl

/-! ## Sending -/

/-- The events of a send, in order. -/
def Sent.events : Sent → List MsgEvent
  | .reliable _ => [.send]
  | .dropped => [.send, .drop]
  | .once _ => [.send]
  | .twice _ _ => [.send, .duplicate]

/-- How many deliveries a send schedules. -/
def Sent.copies : Sent → ℕ
  | .reliable _ => 1
  | .dropped => 0
  | .once _ => 1
  | .twice _ _ => 2

/-- The balance of a message that has just been sent. -/
theorem Sent.balance (how : Sent) :
    how.copies + how.events.count .drop = 1 + how.events.count .duplicate ∧
    how.events.count .duplicate ≤ 1 ∧
    (how.events.count .drop = 0 ∨ how.events.count .duplicate = 0) ∧
    how.events.count .deliver = 0 ∧ how.events.count .dropCrashed = 0 ∧
    how.events.count .dropPartitioned = 0 := by
  cases how <;> simp [events, copies]

/-- A reliable send neither drops nor duplicates. -/
theorem Sent.Allowed.reliable {how : Sent} (h : how.Allowed true) :
    how.events = [.send] := by
  cases how with
  | reliable base => rfl
  | _ => simp [Sent.Allowed] at h

theorem sendAs_timeline (s : Net ρ μ υ) (src dst : Address) (msg : μ)
    (how : Sent) : (s.sendAs src dst msg how).timeline =
      s.timeline ++ how.events.map
        fun kind => (s.loop.time, .message kind s.nextMid src dst) := by
  cases how with
  | reliable base | once base => rfl
  | dropped | twice base extra => exact List.append_assoc _ _ _

theorem sendAs_pending (s : Net ρ μ υ) (src dst : Address) (msg : μ)
    (how : Sent) : ∃ hs : List (Handle (Callback μ υ)),
      (s.sendAs src dst msg how).loop.pending.Perm (hs ++ s.loop.pending) ∧
      hs.length = how.copies ∧
      ∀ h ∈ hs, h.callback = .deliver s.nextMid src dst msg := by
  cases how with
  | reliable base | once base =>
      exact ⟨[_], Loop.pending_callAt _ _ _, rfl, by simp⟩
  | dropped => exact ⟨[], .refl _, rfl, by simp⟩
  | twice base extra =>
      exact ⟨[_, _], (Loop.pending_callAt _ _ _).trans
        ((Loop.pending_callAt _ _ _).cons _), rfl, by simp⟩

section

variable {s t : Net ρ μ υ} {src dst : Address} {msg : μ}
  {endpoint : Endpoint μ} {how : Sent}

theorem Sends.timeline (h : Sends s t src dst msg endpoint how) :
    t.timeline = s.timeline ++ how.events.map fun kind =>
      (s.loop.time, .message kind s.nextMid endpoint.address dst) := by
  obtain ⟨g, f, rfl⟩ := h.eq
  exact sendAs_timeline _ _ _ _ _

theorem Sends.pending (h : Sends s t src dst msg endpoint how) :
    ∃ hs : List (Handle (Callback μ υ)),
      t.loop.pending.Perm (hs ++ s.loop.pending) ∧
      hs.length = how.copies ∧ ∀ h ∈ hs,
        h.callback = .deliver s.nextMid endpoint.address dst msg := by
  obtain ⟨g, f, rfl⟩ := h.eq
  exact sendAs_pending _ _ _ _ _

theorem Sends.nextMid (h : Sends s t src dst msg endpoint how) :
    t.nextMid = s.nextMid + 1 := by
  obtain ⟨g, f, rfl⟩ := h.eq
  cases how <;> rfl

end

/-! ## Steps that move no message -/

/-- Nothing is sent and no delivery fires. -/
structure Idle (s t : Net ρ μ υ) : Prop where
  nextMid : t.nextMid = s.nextMid
  reliableClock : t.reliableClock = s.reliableClock
  timeline : ∃ new, t.timeline = s.timeline ++ new ∧
    ∀ e ∈ new, ∀ kind mid src dst, e.2 ≠ .message kind mid src dst
  pending : (t.loop.pending.filter fun h => h.callback.isDeliver) =
    s.loop.pending.filter fun h => h.callback.isDeliver

theorem Idle.refl (s : Net ρ μ υ) : Idle s s :=
  ⟨rfl, rfl, ⟨[], by simp, by simp⟩, rfl⟩

theorem Idle.trans {s t u : Net ρ μ υ} (h : Idle s t) (h' : Idle t u) :
    Idle s u where
  nextMid := h'.nextMid.trans h.nextMid
  reliableClock := h'.reliableClock.trans h.reliableClock
  timeline := by
    obtain ⟨new, heq, hno⟩ := h.timeline
    obtain ⟨new', heq', hno'⟩ := h'.timeline
    refine ⟨new ++ new', by rw [heq', heq, List.append_assoc], ?_⟩
    intro e he
    rcases List.mem_append.mp he with he | he
    · exact hno e he
    · exact hno' e he
  pending := h'.pending.trans h.pending

theorem Idle.of_pending {s t : Net ρ μ υ} (hn : t.nextMid = s.nextMid)
    (hr : t.reliableClock = s.reliableClock) (ht : t.timeline = s.timeline)
    (hp : (t.loop.pending.filter fun h => h.callback.isDeliver) =
      s.loop.pending.filter fun h => h.callback.isDeliver) : Idle s t :=
  ⟨hn, hr, ⟨[], by simp [ht], by simp⟩, hp⟩

theorem Idle.of_record {s t : Net ρ μ υ} {time : ℚ} {e : Event μ}
    (hn : t.nextMid = s.nextMid) (hr : t.reliableClock = s.reliableClock)
    (ht : t.timeline = s.timeline ++ [(time, e)])
    (he : ∀ kind mid src dst, e ≠ .message kind mid src dst)
    (hp : t.loop.pending = s.loop.pending) : Idle s t :=
  ⟨hn, hr, ⟨[(time, e)], ht, by simpa using he⟩, by rw [hp]⟩

theorem Idle.callSoon (s : Net ρ μ υ) {c : Callback μ υ}
    (hc : c.isDeliver = false) {t : Net ρ μ υ}
    (hl : t.loop = s.loop.callSoon c) (hn : t.nextMid = s.nextMid)
    (hr : t.reliableClock = s.reliableClock)
    (ht : t.timeline = s.timeline) : Idle s t :=
  .of_pending hn hr ht (by rw [hl]; exact s.loop.filter_callSoon_of_not hc)

theorem Idle.callTimer (s : Net ρ μ υ) {when : When} {c : Callback μ υ}
    (hc : c.isDeliver = false) {t : Net ρ μ υ}
    (hl : t.loop = s.loop.callAt when c) (hn : t.nextMid = s.nextMid)
    (hr : t.reliableClock = s.reliableClock)
    (ht : t.timeline = s.timeline) : Idle s t :=
  .of_pending hn hr ht (by rw [hl]; exact s.loop.filter_callAt_of_not hc)

theorem Idle.callAt {s t : Net ρ μ υ} (h : Idle s t) (when : ℚ)
    {c : Callback μ υ} (hc : c.isDeliver = false) : Idle s (t.callAt when c) :=
  h.trans (.callTimer t hc rfl rfl rfl rfl)

/-- One handle less, of no delivery. -/
theorem Idle.takes (s : Net ρ μ υ) {l : Loop (Callback μ υ)}
    {h : Handle (Callback μ υ)} (hl : s.loop.Takes h l)
    (hh : h.callback.isDeliver = false) : Idle s { s with loop := l } :=
  .of_pending rfl rfl rfl (hl.filter_of_not hh)

theorem Idle.schedule (s : Net ρ μ υ) (now : ℚ) (r : Resolved) :
    Idle s (s.schedule now r) := by
  have hrec : ∀ e : Event μ, (∀ kind mid src dst,
      e ≠ .message kind mid src dst) → Idle s (recordAt
        { s with nextFaultId := s.nextFaultId + 1 } now e) :=
    fun e he => .of_record rfl rfl rfl he rfl
  cases r with
  | partition groups start stop =>
      exact ((hrec (.faultPartitionScheduled s.nextFaultId
        (groups.map fun g => g.sort (· ≤ ·)) (now + start) (now + stop))
        (by simp)).callAt _ rfl).callAt _ rfl
  | slowLink a b factor start stop =>
      exact ((hrec (.faultSlowLinkScheduled s.nextFaultId a b factor
        (now + start) (now + stop)) (by simp)).callAt _ rfl).callAt _ rfl
  | crash node at_ =>
      exact (hrec (.faultCrashScheduled s.nextFaultId node (now + at_))
        (by simp)).callAt _ rfl

theorem Idle.finishSleep (s : Net ρ μ υ) (fut : ℕ) :
    Idle s (s.finishSleep fut) := by
  unfold Net.finishSleep
  split
  · exact .refl s
  · next k _ => exact .callSoon s (c := .resume fut k) rfl rfl rfl rfl rfl

theorem Effect.idle {s t : Net ρ μ υ} (h : Effect s t) : Idle s t := by
  cases h with
  | draws | setPartition | bind | inbox | cancel | stop =>
      exact .of_pending rfl rfl rfl rfl
  | userSoon k => exact .callSoon s (c := .user k) rfl rfl rfl rfl rfl
  | userTimer when k =>
      exact .callTimer s (c := .user k) rfl rfl rfl rfl rfl
  | record event =>
      exact .of_record (e := .user event) rfl rfl rfl (by simp) rfl
  | schedule seconds r _ => exact .schedule s _ r
  | sleep seconds k =>
      unfold Net.sleep
      dsimp only
      split
      · exact .callTimer s (c := .wake s.loop.nextHandle k) rfl rfl rfl rfl
          rfl
      · exact .callSoon s (c := .resume s.loop.nextHandle k) rfl rfl rfl rfl
          rfl
  | cancelRunFor fut =>
      have hgiven : Idle s { s with abandoned := insert fut s.abandoned } :=
        .of_pending rfl rfl rfl rfl
      exact hgiven.trans (.finishSleep _ fut)

theorem Effects.idle {s t : Net ρ μ υ} (h : Effects s t) : Idle s t :=
  h.invariant (I := Idle s) (fun he hs => hs.trans he.idle) (.refl s)

theorem Idle.runFault (s : Net ρ μ υ) (c : FaultCallback) :
    Idle s (s.runFault c) := by
  refine .of_record ?_ ?_ (runFault_timeline s c) ?_ ?_
  · cases c <;> rfl
  · cases c <;> rfl
  · cases c <;> simp [FaultCallback.event]
  · rw [runFault_loop]

theorem Idle.beginStep {s : Net ρ μ υ} (hs : Handles s) (stopStep : Bool) :
    Idle s { s with loop := (s.loop.beginStep stopStep).1 } := by
  refine .of_pending rfl rfl rfl ((s.loop.pending_beginStep stopStep).2 _ ?_)
  intro t ht hdel
  refine hs.live (List.mem_append_right _ (List.mem_map_of_mem ht)) ?_
  cases hc : t.handle.callback with
  | deliver => rfl
  | _ => simp [hc, Callback.isDeliver] at hdel

/-- A delivery is taken out and ends. -/
structure Ends (s t : Net ρ μ υ) (mid : ℕ) (src dst : Address) (msg : μ) :
    Prop extends Delivered s t mid src dst msg where
  nextMid : t.nextMid = s.nextMid
  reliableClock : t.reliableClock = s.reliableClock
  pending : ∃ h, h.callback = .deliver mid src dst msg ∧
    s.loop.Takes h t.loop

theorem Ends.perm {s t : Net ρ μ υ} {mid : ℕ} {src dst : Address} {msg : μ}
    (h : Ends s t mid src dst msg) :
    ∃ h, h.callback = .deliver mid src dst msg ∧
      s.loop.pending.Perm (h :: t.loop.pending) := by
  obtain ⟨hd, hc, htakes⟩ := h.pending
  exact ⟨hd, hc, htakes.perm⟩

/-- What the run of a handle does to messages: nothing, unless it is a
delivery. -/
theorem runHandle_messages {s : Net ρ μ υ} (hs : Handles s)
    {h : Handle (Callback μ υ)} (hh : h ∈ s.loop.pending)
    {l : Loop (Callback μ υ)} (hl : s.loop.Takes h l) {t : Net ρ μ υ}
    (ht : t = runHandle { s with loop := l } h) :
    (Idle s t ∧ Frame s t) ∨ (Idle s t ∧ ∃ c, Faulted s t c) ∨
    ∃ mid src dst msg, h.callback = .deliver mid src dst msg ∧ t.loop = l ∧
      Ends s t mid src dst msg := by
  rcases hs.runHandle_cases hh hl ht with ⟨hnet, hframe⟩ |
    ⟨c, hc, heq, hfault⟩ | ⟨mid, src, dst, msg, _, _, hc, heq, hd⟩
  · refine .inl ⟨?_, hframe⟩
    have hdel : h.callback.isDeliver = false := by
      cases hc : h.callback with
      | deliver => simp [hc, Callback.isNet] at hnet
      | _ => rfl
    subst ht
    refine (Idle.takes s hl hdel).trans ?_
    unfold runHandle
    split
    · exact .refl _
    · cases hc : h.callback with
      | user k => exact .refl _
      | resume fut k => exact .of_pending rfl rfl rfl rfl
      | wake fut k => exact .finishSleep _ fut
      | deliver => simp [hc, Callback.isNet] at hnet
      | fault => simp [hc, Callback.isNet] at hnet
  · refine .inr (.inl ⟨?_, c, hfault⟩)
    rw [heq]
    exact (Idle.takes s hl (by rw [hc]; rfl)).trans (.runFault _ c)
  · have hloop : t.loop = l := by rw [heq]
    exact .inr (.inr ⟨mid, src, dst, msg, hc, hloop, hd, by rw [heq],
      by rw [heq], h, hc, hloop.symm ▸ hl⟩)

section

variable [Random ρ]

/-- What a free step does to messages: it sends one, or moves none, or ends a
delivery. -/
theorem freeStep_messages {s t : Net ρ μ υ} {a : FreeAct μ υ}
    (hs : Handles s) (hstep : freeStep s a = some t) :
    (∃ src dst msg endpoint how, a = .act (.op (.send src dst msg)) ∧
      Sends s t src dst msg endpoint how) ∨
    (Idle s t ∧ Frame s t) ∨ (Idle s t ∧ ∃ c, Faulted s t c) ∨
    ∃ mid src dst msg, Ends s t mid src dst msg := by
  have hloop : ∀ l' : Loop (Callback μ υ), Frame s { s with loop := l' } :=
    fun l' => .of_events [] (List.append_nil _).symm (by simp) rfl rfl rfl rfl
  rcases freeStep_cases hs hstep with hsend | he |
    ⟨stopStep, rfl⟩ | ⟨l, hp, -, -, rfl⟩ | ⟨h, l, hf, hl, ht⟩ | ⟨c, rfl⟩
  · exact .inl hsend
  · exact .inr (.inl ⟨he.idle, he.frame⟩)
  · exact .inr (.inl ⟨.beginStep hs stopStep, hloop _⟩)
  · exact .inr (.inl ⟨.of_pending rfl rfl rfl (by rw [hp]), hloop _⟩)
  · right
    rcases runHandle_messages hs hf.mem hl ht with
      hi | hf | ⟨mid, src, dst, msg, -, -, he⟩
    · exact .inl hi
    · exact .inr (.inl hf)
    · exact .inr (.inr ⟨mid, src, dst, msg, he⟩)
  · exact .inr (.inr (.inl ⟨.runFault s c, c, .of_runFault s rfl c⟩))

/-- The same for a step of the loop, where the delivery that ends is the first
of all that wait. -/
theorem step_messages {s t : Net ρ μ υ} {a : Act μ υ}
    (hs : Handles s) (hstep : step s a = some t) :
    (∃ src dst msg endpoint how, a = .op (.send src dst msg) ∧
      Sends s t src dst msg endpoint how) ∨
    (Idle s t ∧ Keeps s t) ∨
    ∃ h mid src dst msg, h.callback = .deliver mid src dst msg ∧
      h ∈ s.loop.ready ∧ s.loop.pending = h :: t.loop.pending ∧
      Ends s t mid src dst msg := by
  cases a with
  | op o =>
      simp only [step, Option.map_eq_some_iff] at hstep
      obtain ⟨⟨t', r⟩, hop, rfl⟩ := hstep
      rcases op_cases hop with ⟨src, dst, msg, e, how, rfl, hsends⟩ | ⟨-, heff⟩
      · exact .inl ⟨src, dst, msg, e, how, rfl, hsends⟩
      · exact .inr (.inl ⟨heff.idle, heff.frame.keeps⟩)
  | beginStep stopStep =>
      cases hstep
      exact .inr (.inl ⟨.beginStep hs stopStep, .of_eq rfl⟩)
  | runReady =>
      simp only [step] at hstep
      split at hstep
      · cases hstep
      · next h rest hready =>
        have hmem : h ∈ s.loop.pending := by simp [Loop.pending, hready]
        right
        rcases runHandle_messages hs hmem (takes_pop hready)
            (Option.some.inj hstep).symm with
          ⟨hi, hf⟩ | ⟨hi, c, hf⟩ | ⟨mid, src, dst, msg, hc, hl, he⟩
        · exact .inl ⟨hi, hf.keeps⟩
        · exact .inl ⟨hi, .of_eq hf.endpoints⟩
        · refine .inr ⟨h, mid, src, dst, msg, hc, by simp [hready], ?_, he⟩
          rw [hl]
          simp [Loop.pending, hready]
  | clearStop =>
      cases hstep
      exact .inr (.inl ⟨.of_pending rfl rfl rfl rfl, .of_eq rfl⟩)

end

end Net

end Seedloop
