import Seedloop.Proofs.FreeRuns
import Seedloop.Proofs.RecvRuns

/-!
# What each part of the network leaves alone

An operation of user code writes only its own kinds of event, never touches
what faults have done, and only ever shortens a queue. A fault callback writes
one event and leaves messages alone. A delivery writes one event, and a queue
grows in one of its three cases only.
-/

namespace Seedloop

/-- The events an operation can record. -/
def Event.ofOp {μ : Type} : Event μ → Bool
  | .message .send .. | .message .drop .. | .message .duplicate .. => true
  | .faultPartitionScheduled .. | .faultSlowLinkScheduled ..
  | .faultCrashScheduled .. | .user _ => true
  | _ => false

/-- The event of a fault callback. -/
def FaultCallback.event {μ : Type} : FaultCallback → Event μ
  | .beginFaultPartition faultId _ => .faultPartitionBegin faultId
  | .endFaultPartition faultId => .faultPartitionHeal faultId
  | .beginSlowLink faultId _ _ => .faultSlowLinkBegin faultId
  | .endSlowLink faultId => .faultSlowLinkEnd faultId
  | .beginCrash faultId node => .faultCrash faultId node

namespace Net

variable {ρ μ υ : Type}

/-- Endpoints are filed under their own addresses. -/
def Addressed (s : Net ρ μ υ) : Prop :=
  ∀ a e, s.endpoints.lookup a = some e → e.address = a

/-- Every bound address stays bound, under the policy it has. -/
structure Keeps (s t : Net ρ μ υ) : Prop where
  policy : ∀ d e, s.endpoints.lookup d = some e →
    ∃ e', t.endpoints.lookup d = some e' ∧ e'.policy = e.policy
  addressed : Addressed s → Addressed t

theorem Keeps.of_eq {s t : Net ρ μ υ} (h : t.endpoints = s.endpoints) :
    Keeps s t where
  policy _ e he := ⟨e, h ▸ he, rfl⟩
  addressed hs a e he := hs a e (h ▸ he)

theorem Keeps.trans {s t u : Net ρ μ υ} (h : Keeps s t) (h' : Keeps t u) :
    Keeps s u where
  policy d e he := by
    obtain ⟨e', he', hp⟩ := h.policy d e he
    obtain ⟨e'', he'', hp'⟩ := h'.policy d e' he'
    exact ⟨e'', he'', hp'.trans hp⟩
  addressed hs := h'.addressed (h.addressed hs)

/-- An endpoint's inbox changes. -/
theorem Keeps.of_inbox {s t : Net ρ μ υ} {a : Address} {e : Endpoint μ}
    {inbox : Inbox μ} (ha : s.endpoints.lookup a = some e)
    (ht : t.endpoints = s.endpoints.insert a { e with inbox := inbox }) :
    Keeps s t where
  policy d x hx := by
    rw [ht]
    by_cases hd : d = a
    · subst hd
      rw [ha, Option.some.injEq] at hx
      exact ⟨_, AList.lookup_insert _, hx ▸ rfl⟩
    · exact ⟨x, by rw [AList.lookup_insert_ne hd, hx], rfl⟩
  addressed hs d x hx := by
    rw [ht] at hx
    by_cases hd : d = a
    · subst hd
      rw [AList.lookup_insert, Option.some.injEq] at hx
      exact hx ▸ hs d e ha
    · rw [AList.lookup_insert_ne hd] at hx
      exact hs d x hx

/-- An address is bound. -/
theorem Keeps.of_bind {s t : Net ρ μ υ} {a : Address} {e : Endpoint μ}
    (ha : a ∉ s.endpoints) (he : e.address = a)
    (ht : t.endpoints = s.endpoints.insert a e) : Keeps s t where
  policy d x hx := by
    have hd : d ≠ a := by
      rintro rfl
      exact ha (AList.lookup_isSome.mp (by rw [hx]; rfl))
    exact ⟨x, by rw [ht, AList.lookup_insert_ne hd, hx], rfl⟩
  addressed hs d x hx := by
    rw [ht] at hx
    by_cases hd : d = a
    · subst hd
      rw [AList.lookup_insert, Option.some.injEq] at hx
      exact hx ▸ he
    · rw [AList.lookup_insert_ne hd] at hx
      exact hs d x hx

/-- What an operation may change, as far as messages and faults go. -/
structure Frame (s t : Net ρ μ υ) : Prop where
  timeline : ∃ new, t.timeline = s.timeline ++ new ∧
    ∀ e ∈ new, e.2.ofOp = true
  crashed : t.crashed = s.crashed
  faultPartitions : t.faultPartitions = s.faultPartitions
  faultSlowLinks : t.faultSlowLinks = s.faultSlowLinks
  queue : ∀ d, (t.queueAt d).IsSuffix (s.queueAt d)
  keeps : Keeps s t

theorem Frame.refl (s : Net ρ μ υ) : Frame s s :=
  ⟨⟨[], by simp, by simp⟩, rfl, rfl, rfl, fun _ => List.suffix_rfl,
    .of_eq rfl⟩

theorem Frame.trans {s t u : Net ρ μ υ} (h : Frame s t) (h' : Frame t u) :
    Frame s u where
  timeline := by
    obtain ⟨new, heq, hof⟩ := h.timeline
    obtain ⟨new', heq', hof'⟩ := h'.timeline
    refine ⟨new ++ new', by rw [heq', heq, List.append_assoc], ?_⟩
    intro e he
    rcases List.mem_append.mp he with he | he
    · exact hof e he
    · exact hof' e he
  crashed := h'.crashed.trans h.crashed
  faultPartitions := h'.faultPartitions.trans h.faultPartitions
  faultSlowLinks := h'.faultSlowLinks.trans h.faultSlowLinks
  queue d := (h'.queue d).trans (h.queue d)
  keeps := h.keeps.trans h'.keeps

/-- An effect that leaves the endpoints and the faults alone. -/
theorem Frame.of_events {s t : Net ρ μ υ} (new : List (ℚ × Event μ))
    (ht : t.timeline = s.timeline ++ new) (hof : ∀ e ∈ new, e.2.ofOp = true)
    (he : t.endpoints = s.endpoints) (hc : t.crashed = s.crashed)
    (hp : t.faultPartitions = s.faultPartitions)
    (hs : t.faultSlowLinks = s.faultSlowLinks) : Frame s t where
  timeline := ⟨new, ht, hof⟩
  crashed := hc
  faultPartitions := hp
  faultSlowLinks := hs
  queue d := by
    unfold queueAt
    rw [he]
  keeps := .of_eq he

theorem queueAt_insert (s : Net ρ μ υ) (a : Address) (e : Endpoint μ)
    (d : Address) :
    queueAt { s with endpoints := s.endpoints.insert a e } d =
      if d = a then e.inbox.queue else s.queueAt d := by
  unfold queueAt
  dsimp only
  split_ifs with h
  · subst h
    rw [AList.lookup_insert]
  · rw [AList.lookup_insert_ne h]

theorem Frame.finishSleep (s : Net ρ μ υ) (fut : ℕ) :
    Frame s (s.finishSleep fut) := by
  unfold Net.finishSleep
  split
  · exact .refl s
  · exact .of_events [] (List.append_nil _).symm (by simp) rfl rfl rfl rfl

theorem Effect.frame {s t : Net ρ μ υ} (h : Effect s t) : Frame s t := by
  cases h with
  | draws | setPartition | userSoon | userTimer | cancel | stop =>
      exact .of_events [] (by simp) (by simp) rfl rfl rfl rfl
  | record event =>
      exact .of_events [_] rfl (by simp [Event.ofOp]) rfl rfl rfl rfl
  | bind address policy hfree =>
      refine ⟨⟨[], by simp, by simp⟩, rfl, rfl, rfl, ?_,
        .of_bind hfree rfl rfl⟩
      intro d
      rw [queueAt_insert]
      split_ifs with hd
      · exact List.nil_suffix
      · exact List.suffix_rfl
  | inbox address endpoint inbox a hlook hin ha =>
      refine ⟨⟨[], by simp, by simp⟩, rfl, rfl, rfl, ?_,
        .of_inbox hlook rfl⟩
      intro d
      rw [queueAt_insert]
      split_ifs with hd
      · have hq := Inbox.step_queue ha
        rw [hin, List.append_nil] at hq
        subst hd
        simp only [queueAt, hlook]
        exact ⟨_, hq⟩
      · exact List.suffix_rfl
  | schedule seconds r _ =>
      cases r
      all_goals exact .of_events [_] rfl (by simp [Event.ofOp]) rfl rfl rfl rfl
  | sleep seconds k =>
      unfold Net.sleep
      dsimp only
      split
      all_goals exact .of_events [] (List.append_nil _).symm (by simp) rfl rfl rfl rfl
  | cancelRunFor fut =>
      have hgiven : Frame s { s with abandoned := insert fut s.abandoned } :=
        .of_events [] (by simp) (by simp) rfl rfl rfl rfl
      exact hgiven.trans (.finishSleep _ fut)

theorem Effects.frame {s t : Net ρ μ υ} (h : Effects s t) : Frame s t :=
  h.invariant (I := Frame s) (fun he hs => hs.trans he.frame) (.refl s)

theorem Sends.frame {s t : Net ρ μ υ} {src dst : Address} {msg : μ}
    {endpoint : Endpoint μ} {how : Sent} (h : Sends s t src dst msg endpoint how) :
    Frame s t := by
  obtain ⟨g, f, rfl⟩ := h.eq
  cases how with
  | reliable base =>
      exact .of_events [_] rfl (by simp [Event.ofOp]) rfl rfl rfl rfl
  | dropped =>
      exact .of_events [_, _] (List.append_assoc _ _ _)
        (by simp [Event.ofOp]) rfl rfl rfl rfl
  | once base =>
      exact .of_events [_] rfl (by simp [Event.ofOp]) rfl rfl rfl rfl
  | twice base extra =>
      exact .of_events [_, _] (List.append_assoc _ _ _)
        (by simp [Event.ofOp]) rfl rfl rfl rfl

/-! ## Fault callbacks -/

theorem runFault_timeline (s : Net ρ μ υ) (c : FaultCallback) :
    (s.runFault c).timeline = s.timeline ++ [(s.loop.time, c.event)] := by
  cases c <;> rfl

theorem runFault_endpoints (s : Net ρ μ υ) (c : FaultCallback) :
    (s.runFault c).endpoints = s.endpoints := by
  cases c <;> rfl

theorem runFault_loop (s : Net ρ μ υ) (c : FaultCallback) :
    (s.runFault c).loop = s.loop := by
  cases c <;> rfl

theorem mem_runFault_crashed {s : Net ρ μ υ} {c : FaultCallback}
    {n : Address} : n ∈ (s.runFault c).crashed ↔
      n ∈ s.crashed ∨ ∃ faultId, c = .beginCrash faultId n := by
  cases c with
  | beginCrash faultId node =>
      show n ∈ insert node s.crashed ↔ _
      rw [Finset.mem_insert, or_comm]
      simp [eq_comm]
  | _ =>
      show n ∈ s.crashed ↔ _
      simp

/-! ## Deliveries -/

/-- What became of a delivery. -/
def fate (s : Net ρ μ υ) (src dst : Address) : MsgEvent :=
  if src ∈ s.crashed ∨ dst ∈ s.crashed then .dropCrashed
  else if s.reachable src dst = false then .dropPartitioned
  else .deliver

theorem deliver_timeline (s : Net ρ μ υ) (mid : ℕ) (src dst : Address)
    (msg : μ) : (s.deliver mid src dst msg).timeline =
      s.timeline ++ [(s.loop.time, .message (s.fate src dst) mid src dst)] := by
  unfold deliver fate
  by_cases hc : src ∈ s.crashed ∨ dst ∈ s.crashed
  · rw [if_pos hc, if_pos hc]
    rfl
  · rw [if_neg hc, if_neg hc]
    cases hr : s.reachable src dst with
    | false => rfl
    | true =>
        simp only [Bool.not_true, Bool.false_eq_true, if_false]
        split <;> rfl

/-- A delivery that goes through puts one item in one queue, if that address
is bound; any other changes nothing. -/
theorem deliver_queueAt (s : Net ρ μ υ) (mid : ℕ) (src dst : Address)
    (msg : μ) (d : Address) : (s.deliver mid src dst msg).queueAt d =
      if s.fate src dst = .deliver ∧ d = dst ∧ d ∈ s.endpoints then
        s.queueAt d ++ [(src, msg)]
      else s.queueAt d := by
  unfold deliver fate
  by_cases hc : src ∈ s.crashed ∨ dst ∈ s.crashed
  · rw [if_pos hc, if_pos hc, if_neg (by simp)]
    rfl
  · rw [if_neg hc, if_neg hc]
    cases hr : s.reachable src dst with
    | false =>
        rw [if_pos (by rfl), if_pos rfl, if_neg (by simp)]
        rfl
    | true =>
        simp only [Bool.not_true, Bool.false_eq_true, Bool.true_eq_false,
          if_false, true_and]
        cases hl : s.endpoints.lookup dst with
        | none =>
            have hnot := AList.lookup_eq_none.mp hl
            rw [if_neg (by rintro ⟨rfl, hmem⟩; exact hnot hmem)]
            simp only [record, recordAt, hl]
            rfl
        | some e =>
            have hmem : dst ∈ s.endpoints := AList.lookup_isSome.mp (by simp [hl])
            simp only [record, recordAt, hl]
            by_cases hd : d = dst
            · subst hd
              simp [queueAt, hl, hmem, Inbox.enqueue_queue]
            · simp [queueAt, hd]

theorem deliver_keeps (s : Net ρ μ υ) (mid : ℕ) (src dst : Address)
    (msg : μ) : Keeps s (s.deliver mid src dst msg) := by
  unfold deliver
  split
  · exact .of_eq rfl
  · split
    · exact .of_eq rfl
    · dsimp only
      split
      · exact .of_eq rfl
      · next e he => exact .of_inbox he rfl

/-! ## A whole step -/

/-- A fault callback ran. -/
structure Faulted (s t : Net ρ μ υ) (c : FaultCallback) : Prop where
  timeline : t.timeline = s.timeline ++ [(s.loop.time, c.event)]
  crashed : ∀ n, n ∈ t.crashed ↔
    n ∈ s.crashed ∨ ∃ faultId, c = .beginCrash faultId n
  endpoints : t.endpoints = s.endpoints

/-- A delivery fired. -/
structure Delivered (s t : Net ρ μ υ) (mid : ℕ) (src dst : Address) (msg : μ) :
    Prop where
  timeline : t.timeline =
    s.timeline ++ [(s.loop.time, .message (s.fate src dst) mid src dst)]
  crashed : t.crashed = s.crashed
  queue : ∀ d, t.queueAt d =
    if s.fate src dst = .deliver ∧ d = dst ∧ d ∈ s.endpoints then
      s.queueAt d ++ [(src, msg)]
    else s.queueAt d
  keeps : Keeps s t

theorem Delivered.of_deliver (s : Net ρ μ υ) {l : Loop (Callback μ υ)}
    (hl : l.time = s.loop.time) (mid : ℕ) (src dst : Address) (msg : μ) :
    Delivered s (deliver { s with loop := l } mid src dst msg) mid src dst
      msg := by
  have hkeeps : Keeps s { s with loop := l } := .of_eq rfl
  refine ⟨?_, ?_, deliver_queueAt _ _ _ _ _,
    hkeeps.trans (deliver_keeps _ mid src dst msg)⟩
  · rw [deliver_timeline, ← hl]
    rfl
  · obtain ⟨_, _, heq⟩ := deliver_eq { s with loop := l } mid src dst msg
    rw [heq]

theorem Faulted.of_runFault (s : Net ρ μ υ) {l : Loop (Callback μ υ)}
    (hl : l.time = s.loop.time) (c : FaultCallback) :
    Faulted s (runFault { s with loop := l } c) c := by
  refine ⟨?_, fun _ => mem_runFault_crashed, runFault_endpoints _ _⟩
  rw [runFault_timeline, ← hl]

/-- Taking a handle out and running it, for a handle that is no delivery and
no fault, is within the frame. -/
theorem runHandle_frame (s : Net ρ μ υ) (l : Loop (Callback μ υ))
    {h : Handle (Callback μ υ)} (hnet : h.callback.isNet = false) :
    Frame s (runHandle { s with loop := l } h) := by
  have hloop : ∀ l' : Loop (Callback μ υ), Frame s { s with loop := l' } :=
    fun l' => .of_events [] (List.append_nil _).symm (by simp) rfl rfl rfl rfl
  unfold runHandle
  split
  · exact hloop l
  · cases hc : h.callback with
    | user k => exact hloop l
    | resume fut k => exact hloop (l.cancel fut)
    | wake fut k => exact (hloop l).trans (.finishSleep _ fut)
    | deliver => simp [hc, Callback.isNet] at hnet
    | fault => simp [hc, Callback.isNet] at hnet

/-- What running a handle that waited comes to, by whose handle it is. -/
theorem Handles.runHandle_cases {s t : Net ρ μ υ} (hs : Handles s)
    {h : Handle (Callback μ υ)} (hh : h ∈ s.loop.pending)
    {l : Loop (Callback μ υ)} (hl : s.loop.Takes h l)
    (ht : t = Net.runHandle { s with loop := l } h) :
    (h.callback.isNet = false ∧ Frame s t) ∨
    (∃ c, h.callback = .fault c ∧ t = Net.runFault { s with loop := l } c ∧
      Faulted s t c) ∨
    ∃ mid src dst msg timeline endpoints,
      h.callback = .deliver mid src dst msg ∧
      t = { s with loop := l, timeline := timeline, endpoints := endpoints } ∧
      Delivered s t mid src dst msg := by
  subst ht
  cases hnet : h.callback.isNet with
  | false => exact .inl ⟨rfl, runHandle_frame s l hnet⟩
  | true =>
      right
      rw [hs.runHandle_eq hh hnet hl]
      cases hc : h.callback with
      | deliver mid src dst msg =>
          obtain ⟨timeline, endpoints, heq⟩ :=
            deliver_eq { s with loop := l } mid src dst msg
          exact .inr ⟨mid, src, dst, msg, timeline, endpoints, rfl, heq,
            .of_deliver s hl.time mid src dst msg⟩
      | fault c => exact .inl ⟨c, rfl, rfl, .of_runFault s hl.time c⟩
      | _ => simp [hc, Callback.isNet] at hnet

/-- A free step is within the frame, or runs one fault callback, or fires one
delivery. -/
theorem freeStep_events [Random ρ] {s t : Net ρ μ υ} {a : FreeAct μ υ}
    (hs : Handles s) (hstep : freeStep s a = some t) :
    Frame s t ∨ (∃ c, Faulted s t c) ∨
    ∃ h mid src dst msg, Fires s a h ∧ h.callback = .deliver mid src dst msg ∧
      Delivered s t mid src dst msg := by
  have hloop : ∀ l' : Loop (Callback μ υ), Frame s { s with loop := l' } :=
    fun l' => .of_events [] (List.append_nil _).symm (by simp) rfl rfl rfl rfl
  rcases freeStep_cases hs hstep with ⟨_, _, _, _, _, -, hsends⟩ | he |
    ⟨stopStep, rfl⟩ | ⟨l, -, -, -, rfl⟩ | ⟨h, l, hf, hl, rfl⟩ | ⟨c, rfl⟩
  · exact .inl hsends.frame
  · exact .inl he.frame
  · exact .inl (hloop _)
  · exact .inl (hloop _)
  · rcases hs.runHandle_cases hf.mem hl rfl with ⟨-, hframe⟩ |
      ⟨c, -, -, hc⟩ | ⟨mid, src, dst, msg, _, _, hc, -, hd⟩
    · exact .inl hframe
    · exact .inr (.inl ⟨c, hc⟩)
    · exact .inr (.inr ⟨h, mid, src, dst, msg, hf, hc, hd⟩)
  · exact .inr (.inl ⟨c, .of_runFault s rfl c⟩)

/-- A delivery that fires is delivered or dropped, whatever else waits. -/
theorem Fires.delivered [Random ρ] {s t : Net ρ μ υ} {a : FreeAct μ υ}
    {h : Handle (Callback μ υ)} (hs : Handles s) (hf : Fires s a h)
    (hstep : freeStep s a = some t) {mid : ℕ} {src dst : Address} {msg : μ}
    (hc : h.callback = .deliver mid src dst msg) :
    Delivered s t mid src dst msg := by
  obtain ⟨l, hl, rfl⟩ := hf.step hs hstep
  rw [hs.runHandle_eq hf.mem (by rw [hc]; rfl) hl, hc]
  exact .of_deliver s hl.time mid src dst msg

end Net

end Seedloop
