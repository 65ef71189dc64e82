import Seedloop.Proofs.Accounting
import Seedloop.Proofs.OnTime

/-!
# Reliable links

On a link whose sender is reliable every message is one delivery, and the
deliveries of the link wait in the order they were sent in: a new one is due no
earlier than any before it, since the link's clock only goes up, and behind
those due at the same moment, since its number is higher. Firing takes the
first. So the ids that have ended, followed by those that wait, are at every
moment the ids that were sent, and that one equation (`Lane.balance`) is order,
uniqueness and completeness at once.

Nothing is asked of the clock for this. That a delivery fires exactly when it
is due (`DueAt`) is what `OnTime` adds.
-/

namespace Seedloop

/-- The events a delivery can end in. -/
def MsgEvent.ends : MsgEvent → Bool
  | .deliver | .dropCrashed | .dropPartitioned => true
  | _ => false

/-- The message of an event of these kinds on this link. -/
def Event.onLink? {μ : Type} (kinds : MsgEvent → Bool) (src dst : Address) :
    Event μ → Option ℕ
  | .message kind mid s d =>
      if kinds kind = true ∧ s = src ∧ d = dst then some mid else none
  | _ => none

theorem Event.onLink?_message {μ : Type} (kinds : MsgEvent → Bool)
    (src dst : Address) (kind : MsgEvent) (mid : ℕ) (s d : Address) :
    (Event.message kind mid s d : Event μ).onLink? kinds src dst =
      if kinds kind = true ∧ s = src ∧ d = dst then some mid else none := rfl

/-- A delivery on this link. -/
def Callback.onLink {μ υ : Type} (src dst : Address) : Callback μ υ → Bool
  | .deliver _ s d _ => s = src ∧ d = dst
  | _ => false

/-- The message a callback delivers. -/
def Callback.mid? {μ υ : Type} : Callback μ υ → Option ℕ
  | .deliver mid .. => some mid
  | _ => none

namespace Net

variable {ρ μ υ : Type}

/-- The ids of the events of these kinds on a link, along the timeline. -/
def midsOn (s : Net ρ μ υ) (kinds : MsgEvent → Bool) (src dst : Address) :
    List ℕ :=
  s.timeline.filterMap fun e => e.2.onLink? kinds src dst

/-- What was sent on a link, in order. -/
def sentOn (s : Net ρ μ υ) (src dst : Address) : List ℕ :=
  s.midsOn (· = .send) src dst

/-- What has fired on a link, in order, whatever became of it. -/
def endedOn (s : Net ρ μ υ) (src dst : Address) : List ℕ :=
  s.midsOn MsgEvent.ends src dst

/-- What was delivered on a link, in order. -/
def deliveredOn (s : Net ρ μ υ) (src dst : Address) : List ℕ :=
  s.midsOn (· = .deliver) src dst

/-- The deliveries of a link that wait, in the order they wait in. -/
def lane (s : Net ρ μ υ) (src dst : Address) :
    List (Handle (Callback μ υ)) :=
  s.loop.pending.filter fun h => h.callback.onLink src dst

/-- When the last delivery of a reliable link is due. -/
def linkClock (s : Net ρ μ υ) (src dst : Address) : ℚ :=
  (s.reliableClock.lookup (src, dst)).getD 0

theorem midsOn_append {s t : Net ρ μ υ} {new : List (ℚ × Event μ)}
    (h : t.timeline = s.timeline ++ new) (kinds : MsgEvent → Bool)
    (src dst : Address) : t.midsOn kinds src dst =
      s.midsOn kinds src dst ++
        new.filterMap fun e => e.2.onLink? kinds src dst := by
  rw [midsOn, h, List.filterMap_append]
  rfl

theorem mem_midsOn {s : Net ρ μ υ} {kinds : MsgEvent → Bool}
    {src dst : Address} {mid : ℕ} : mid ∈ s.midsOn kinds src dst ↔
      ∃ e ∈ s.timeline, ∃ kind, kinds kind = true ∧
        e.2 = .message kind mid src dst := by
  rw [midsOn, List.mem_filterMap]
  refine exists_congr fun e => and_congr_right fun _ => ?_
  obtain ⟨time, e⟩ := e
  cases e with
  | message kind m s d =>
      simp only [Event.onLink?, Event.message.injEq]
      constructor
      · intro h
        split at h
        · next hk =>
          cases h
          exact ⟨kind, hk.1, rfl, rfl, hk.2.1, hk.2.2⟩
        · cases h
      · rintro ⟨kind', hk, rfl, rfl, rfl, rfl⟩
        rw [if_pos ⟨hk, rfl, rfl⟩]
  | _ => simp [Event.onLink?]

/-- Fewer kinds, fewer ids. -/
theorem midsOn_sublist (s : Net ρ μ υ) {kinds kinds' : MsgEvent → Bool}
    (h : ∀ kind, kinds kind = true → kinds' kind = true)
    (src dst : Address) :
    (s.midsOn kinds src dst).Sublist (s.midsOn kinds' src dst) := by
  unfold midsOn
  induction s.timeline with
  | nil => exact .slnil
  | cons e rest ih =>
      obtain ⟨time, e⟩ := e
      rw [List.filterMap_cons, List.filterMap_cons]
      cases e with
      | message kind m s d =>
          dsimp only
          rw [Event.onLink?_message, Event.onLink?_message]
          by_cases hk : kinds kind = true ∧ s = src ∧ d = dst
          · rw [if_pos hk, if_pos ⟨h kind hk.1, hk.2⟩]
            exact ih.cons_cons m
          · rw [if_neg hk]
            by_cases hk' : kinds' kind = true ∧ s = src ∧ d = dst
            · rw [if_pos hk']
              exact ih.cons m
            · rw [if_neg hk']
              exact ih
      | _ => exact ih

/-- Who takes fewer finds a sublist. -/
theorem filterMap_sublist {α β : Type*} {f g : α → Option β}
    (h : ∀ {a b}, f a = some b → g a = some b) (l : List α) :
    (l.filterMap f).Sublist (l.filterMap g) := by
  induction l with
  | nil => exact .slnil
  | cons a l ih =>
      cases hf : f a with
      | none =>
          rw [List.filterMap_cons_none hf, List.filterMap_cons]
          split
          · exact ih
          · exact ih.cons _
      | some b =>
          rw [List.filterMap_cons_some hf, List.filterMap_cons_some (h hf)]
          exact ih.cons_cons b

/-- What was sent on a link was sent. -/
theorem sentOn_sublist (s : Net ρ μ υ) (src dst : Address) :
    (s.sentOn src dst).Sublist s.sentMids := by
  refine filterMap_sublist ?_ s.timeline
  rintro ⟨time, e⟩ mid he
  cases e with
  | message kind m a b =>
      dsimp only at he
      rw [Event.onLink?_message] at he
      split at he
      · next hk =>
        obtain rfl : kind = .send := by simpa using hk.1
        exact he
      · cases he
  | _ => cases he

theorem lane_eq (s : Net ρ μ υ) (src dst : Address) : s.lane src dst =
    (s.loop.pending.filter fun h => h.callback.isDeliver).filter
      fun h => h.callback.onLink src dst := by
  rw [lane, List.filter_filter]
  refine List.filter_congr fun h _ => ?_
  cases h.callback <;> simp [Callback.onLink, Callback.isDeliver]

/-! ## One link -/

/-- The state of a link with a reliable sender. -/
structure Lane (src dst : Address) (s : Net ρ μ υ) : Prop where
  balance : s.endedOn src dst ++
    (s.lane src dst).filterMap (fun h => h.callback.mid?) = s.sentOn src dst
  clock : ∀ h ∈ s.lane src dst, ∃ w, h.when? = some (.fin w) ∧
    w ≤ s.linkClock src dst

theorem Idle.midsOn {s t : Net ρ μ υ} (h : Idle s t) (kinds : MsgEvent → Bool)
    (src dst : Address) : t.midsOn kinds src dst = s.midsOn kinds src dst := by
  obtain ⟨new, hnew, hno⟩ := h.timeline
  have hnone : new.filterMap (fun e => e.2.onLink? kinds src dst) = [] := by
    rw [List.filterMap_eq_nil_iff]
    rintro ⟨time, e⟩ he
    cases e with
    | message kind m s d => exact absurd rfl (hno _ he kind m s d)
    | _ => rfl
  rw [midsOn_append hnew, hnone, List.append_nil]

theorem Lane.idle {s t : Net ρ μ υ} {src dst : Address} (hs : Lane src dst s)
    (h : Idle s t) : Lane src dst t := by
  have hlane : t.lane src dst = s.lane src dst := by
    rw [lane_eq, lane_eq, h.pending]
  constructor
  · rw [hlane, endedOn, sentOn, h.midsOn, h.midsOn]
    exact hs.balance
  · rw [hlane, linkClock, h.reliableClock]
    exact hs.clock

/-- A delivery ends: the first of its link, if it is of this one. -/
theorem Lane.ends {s t : Net ρ μ υ} {src dst : Address} (hs : Lane src dst s)
    {h : Handle (Callback μ υ)} {mid : ℕ} {src' dst' : Address} {msg : μ}
    (hc : h.callback = .deliver mid src' dst' msg)
    (hpend : s.loop.pending = h :: t.loop.pending)
    (he : Ends s t mid src' dst' msg) : Lane src dst t := by
  have hclock : t.linkClock src dst = s.linkClock src dst := by
    rw [linkClock, he.reliableClock]
    rfl
  have hsent : t.sentOn src dst = s.sentOn src dst := by
    rw [sentOn, midsOn_append he.timeline]
    rcases s.fate_cases src' dst' with hf | hf | hf
    all_goals
      rw [hf]
      simp [sentOn, Event.onLink?_message]
  have hends : (s.fate src' dst').ends = true := by
    rcases s.fate_cases src' dst' with hf | hf | hf <;> rw [hf] <;> rfl
  have hlane : s.lane src dst =
      (if src' = src ∧ dst' = dst then [h] else []) ++ t.lane src dst := by
    rw [lane, hpend, List.filter_cons, hc]
    by_cases hlink : src' = src ∧ dst' = dst
    · rw [if_pos hlink, if_pos (by simpa [Callback.onLink] using hlink)]
      rfl
    · rw [if_neg hlink, if_neg (by simpa [Callback.onLink] using hlink)]
      rfl
  have hended : t.endedOn src dst = s.endedOn src dst ++
      if src' = src ∧ dst' = dst then [mid] else [] := by
    rw [endedOn, midsOn_append he.timeline]
    by_cases hlink : src' = src ∧ dst' = dst
    · rw [if_pos hlink, List.filterMap_cons, Event.onLink?_message,
        if_pos ⟨hends, hlink⟩]
      rfl
    · rw [if_neg hlink, List.filterMap_cons, Event.onLink?_message,
        if_neg fun hand => hlink hand.2]
      rfl
  constructor
  · have hbal := hs.balance
    rw [hlane] at hbal
    rw [hsent, hended, ← hbal, List.filterMap_append]
    by_cases hlink : src' = src ∧ dst' = dst
    · simp [hlink, hc, Callback.mid?]
    · simp [hlink]
  · intro h' hh'
    rw [hclock]
    exact hs.clock h' (hlane ▸ List.mem_append_right _ hh')

/-! ## Sends -/

/-- When a reliable send is due. -/
def due (s : Net ρ μ υ) (src dst : Address) (base : ℚ) : ℚ :=
  max (s.loop.time + base * s.slowFactor src dst) (s.linkClock src dst)

theorem linkClock_le_due (s : Net ρ μ υ) (src dst : Address) (base : ℚ) :
    s.linkClock src dst ≤ s.due src dst base := le_max_right _ _

theorem linkClock_insert (s : Net ρ μ υ) (src dst : Address) (w : ℚ)
    (src' dst' : Address) : linkClock { s with
      reliableClock := s.reliableClock.insert (src, dst) w } src' dst' =
      if src' = src ∧ dst' = dst then w else s.linkClock src' dst' := by
  unfold linkClock
  dsimp only
  split_ifs with h
  · obtain ⟨rfl, rfl⟩ := h
    rw [AList.lookup_insert]
    rfl
  · rw [AList.lookup_insert_ne (by simpa using h)]

/-- A send on another link. -/
theorem sendAs_lane_of_ne (s : Net ρ μ υ) {src dst src' dst' : Address}
    (hne : ¬ (src' = src ∧ dst' = dst)) (msg : μ) (how : Sent) :
    (s.sendAs src' dst' msg how).lane src dst = s.lane src dst ∧
    (s.sendAs src' dst' msg how).linkClock src dst = s.linkClock src dst := by
  have hcall : ∀ (l : Loop (Callback μ υ)) (w : When),
      ((l.callAt w (.deliver s.nextMid src' dst' msg)).pending.filter
        fun h => h.callback.onLink src dst) =
      l.pending.filter fun h => h.callback.onLink src dst :=
    fun l w => l.filter_callAt_of_not (by simpa [Callback.onLink] using hne)
  cases how with
  | reliable base =>
      refine ⟨hcall _ _, ?_⟩
      refine (linkClock_insert (s.beginSend src' dst') src' dst' _ src
        dst).trans (if_neg fun h => hne ⟨h.1.symm, h.2.symm⟩)
  | dropped => exact ⟨rfl, rfl⟩
  | once base => exact ⟨hcall _ _, rfl⟩
  | twice base extra => exact ⟨(hcall _ _).trans (hcall _ _), rfl⟩

/-- A reliable send waits behind everything its link has waiting. -/
theorem sendAs_lane (s : Net ρ μ υ) (hwf : s.loop.Wf) (ht : OnTime s)
    {src dst : Address} (hs : Lane src dst s) (msg : μ) (base : ℚ) :
    (s.sendAs src dst msg (.reliable base)).lane src dst = s.lane src dst ++
      [⟨s.loop.nextHandle, .deliver s.nextMid src dst msg,
        some (.fin (s.due src dst base))⟩] ∧
    (s.sendAs src dst msg (.reliable base)).linkClock src dst =
      s.due src dst base := by
  constructor
  · refine s.loop.filter_callAt (by simp [Callback.onLink]) ?_
    intro t hmem hlink
    refine ⟨?_, hwf.seq_lt t hmem⟩
    have hin : t.handle ∈ s.lane src dst := List.mem_filter.mpr
      ⟨List.mem_append_right _ (List.mem_map_of_mem hmem), hlink⟩
    obtain ⟨w, hw, hle⟩ := hs.clock _ hin
    rw [ht.when? t hmem, Option.some.injEq] at hw
    rw [hw, When.fin_le_fin]
    exact hle.trans (s.linkClock_le_due src dst base)
  · exact (linkClock_insert (s.beginSend src dst) src dst _ src dst).trans
      (if_pos ⟨rfl, rfl⟩)

theorem Lane.sends {s t : Net ρ μ υ} {src dst : Address} (hs : Lane src dst s)
    (hwf : s.loop.Wf) (ht : OnTime s) (haddr : Addressed s)
    (hrel : ∀ e, s.endpoints.lookup src = some e → e.policy.reliable = true)
    {src' dst' : Address} {msg : μ} {endpoint : Endpoint μ} {how : Sent}
    (h : Sends s t src' dst' msg endpoint how) : Lane src dst t := by
  have hkind : ∀ kind ∈ how.events, MsgEvent.ends kind = false := by
    intro kind hk
    cases how <;> simp [Sent.events] at hk <;> rcases hk with rfl | rfl <;> rfl
  have hended : t.endedOn src dst = s.endedOn src dst := by
    have hnone : (how.events.map fun kind => (s.loop.time, (Event.message kind
        s.nextMid endpoint.address dst' : Event μ))).filterMap
        (fun e => e.2.onLink? MsgEvent.ends src dst) = [] := by
      rw [List.filterMap_eq_nil_iff]
      intro e he
      obtain ⟨kind, hk, rfl⟩ := List.mem_map.mp he
      simp [Event.onLink?_message, hkind kind hk]
    rw [endedOn, midsOn_append h.timeline, hnone, List.append_nil]
    rfl
  have hsent : t.sentOn src dst = s.sentOn src dst ++
      if endpoint.address = src ∧ dst' = dst then [s.nextMid] else [] := by
    rw [sentOn, midsOn_append h.timeline]
    congr 1
    by_cases hlink : endpoint.address = src ∧ dst' = dst
    · rw [if_pos hlink]
      cases how <;> simp [Sent.events, Event.onLink?_message, hlink]
    · rw [if_neg hlink, List.filterMap_eq_nil_iff]
      intro e he
      obtain ⟨kind, -, rfl⟩ := List.mem_map.mp he
      exact if_neg fun hand => hlink hand.2
  obtain ⟨hlane', hclock'⟩ : t.lane src dst =
      (s.sendAs endpoint.address dst' msg how).lane src dst ∧
      t.linkClock src dst =
        (s.sendAs endpoint.address dst' msg how).linkClock src dst := by
    obtain ⟨g, f, rfl⟩ := h.eq
    cases how <;> exact ⟨rfl, rfl⟩
  by_cases hlink : endpoint.address = src ∧ dst' = dst
  · obtain ⟨hsrc, rfl⟩ := hlink
    have hsrc' : src' = src := (haddr src' endpoint h.bound).symm.trans hsrc
    subst hsrc'
    have hallow := h.allowed
    rw [hrel endpoint h.bound] at hallow
    obtain ⟨base, rfl⟩ : ∃ base, how = .reliable base := by
      cases how with
      | reliable base => exact ⟨base, rfl⟩
      | _ => simp [Sent.Allowed] at hallow
    obtain ⟨hlane, hclock⟩ := sendAs_lane s hwf ht hs msg base
    rw [hsrc, hlane] at hlane'
    rw [hsrc, hclock] at hclock'
    constructor
    · rw [hended, hsent, if_pos ⟨hsrc, rfl⟩, hlane', List.filterMap_append,
        ← List.append_assoc]
      exact congrArg (· ++ [s.nextMid]) hs.balance
    · intro h' hh'
      rw [hlane'] at hh'
      rw [hclock']
      rcases List.mem_append.mp hh' with hh' | hh'
      · obtain ⟨w, hw, hle⟩ := hs.clock h' hh'
        exact ⟨w, hw, hle.trans (s.linkClock_le_due src' dst' base)⟩
      · rw [List.mem_singleton] at hh'
        subst hh'
        exact ⟨_, rfl, le_rfl⟩
  · obtain ⟨hlane, hclock⟩ := sendAs_lane_of_ne s hlink msg how
    rw [hlane] at hlane'
    rw [hclock] at hclock'
    constructor
    · rw [hended, hsent, if_neg hlink, hlane', List.append_nil]
      exact hs.balance
    · intro h' hh'
      rw [hclock']
      exact hs.clock h' (hlane' ▸ hh')

/-! ## One message -/

/-- A message that was sent, and the moment its delivery is due. -/
structure DueAt (mid : ℕ) (w : ℚ) (s : Net ρ μ υ) : Prop where
  lt : mid < s.nextMid
  pending : ∀ h ∈ s.loop.pending, ∀ src dst msg,
    h.callback = .deliver mid src dst msg → h.when? = some (.fin w)
  ended : ∀ e ∈ s.timeline, ∀ kind src dst, kind.ends = true →
    e.2 = .message kind mid src dst → e.1 = w

theorem DueAt.idle {s t : Net ρ μ υ} {mid : ℕ} {w : ℚ} (hs : DueAt mid w s)
    (h : Idle s t) : DueAt mid w t := by
  obtain ⟨new, hnew, hno⟩ := h.timeline
  refine ⟨h.nextMid ▸ hs.lt, ?_, ?_⟩
  · intro hd hmem src dst msg hc
    have : hd ∈ t.loop.pending.filter fun h => h.callback.isDeliver :=
      List.mem_filter.mpr ⟨hmem, by rw [hc]; rfl⟩
    rw [h.pending] at this
    exact hs.pending hd (List.mem_of_mem_filter this) src dst msg hc
  · intro e he kind src dst hk heq
    rw [hnew] at he
    rcases List.mem_append.mp he with he | he
    · exact hs.ended e he kind src dst hk heq
    · exact absurd heq (hno e he kind mid src dst)

theorem DueAt.sends {s t : Net ρ μ υ} {mid : ℕ} {w : ℚ} (hs : DueAt mid w s)
    {src dst : Address} {msg : μ} {endpoint : Endpoint μ} {how : Sent}
    (h : Sends s t src dst msg endpoint how) : DueAt mid w t := by
  have hlt := hs.lt
  obtain ⟨hs', hperm, -, hall⟩ := h.pending
  refine ⟨by rw [h.nextMid]; omega, ?_, ?_⟩
  · intro hd hmem src' dst' msg' hc
    rcases List.mem_append.mp (hperm.subset hmem) with hmem | hmem
    · rw [hall hd hmem] at hc
      simp only [Callback.deliver.injEq] at hc
      omega
    · exact hs.pending hd hmem src' dst' msg' hc
  · intro e he kind src' dst' hk heq
    rw [h.timeline] at he
    rcases List.mem_append.mp he with he | he
    · exact hs.ended e he kind src' dst' hk heq
    · obtain ⟨kind', -, rfl⟩ := List.mem_map.mp he
      simp only [Event.message.injEq] at heq
      omega

theorem DueAt.ends {s t : Net ρ μ υ} {mid : ℕ} {w : ℚ} (hs : DueAt mid w s)
    (ht : OnTime s) {h : Handle (Callback μ υ)} {m : ℕ} {src dst : Address}
    {msg : μ} (hc : h.callback = .deliver m src dst msg)
    (hready : h ∈ s.loop.ready) (hpend : s.loop.pending = h :: t.loop.pending)
    (he : Ends s t m src dst msg) : DueAt mid w t := by
  refine ⟨he.nextMid ▸ hs.lt, ?_, ?_⟩
  · intro h' hh'
    exact hs.pending h' (hpend ▸ List.mem_cons_of_mem _ hh')
  · intro e hmem kind src' dst' hk heq
    rw [he.timeline] at hmem
    rcases List.mem_append.mp hmem with hmem | hmem
    · exact hs.ended e hmem kind src' dst' hk heq
    · -- The handle that ran was ready, so the clock read its deadline.
      rw [List.mem_singleton] at hmem
      subst hmem
      simp only [Event.message.injEq] at heq
      obtain ⟨-, rfl, -, -⟩ := heq
      have hdue := hs.pending h (hpend ▸ List.mem_cons_self) src dst msg hc
      rw [ht.ready h hready (by rw [hc]; rfl)] at hdue
      simpa using hdue

/-! ## Over every run -/

variable [Random ρ]

/-- The one draw of a reliable send. -/
theorem send_reliable (s : Net ρ μ υ) {endpoint : Endpoint μ}
    (hrel : endpoint.policy.reliable = true) (dst : Address) (msg : μ) :
    s.send endpoint dst msg = sendAs
      { s with netRng := (Random.uniform latMin latMax s.netRng).2 }
      endpoint.address dst msg
      (.reliable (Random.uniform latMin latMax s.netRng).1) := by
  rw [send_eq, if_pos hrel]

theorem run_addressed {g f : ρ} {s : Net ρ μ υ} {as : List (Act μ υ)}
    (h : Machine.run step (init g f) as = some s) : Addressed s :=
  (freeRun_accounted (run_free h)).logged.addressed

theorem step_keeps {s t : Net ρ μ υ} {a : Act μ υ} (hs : Handles s)
    (h : step s a = some t) : Keeps s t := by
  rcases step_messages hs h with ⟨_, _, _, _, _, -, hsends⟩ | ⟨-, hk⟩ |
    ⟨_, _, _, _, _, -, -, -, he⟩
  · exact hsends.frame.keeps
  · exact hk
  · exact he.keeps

theorem run_keeps {s t : Net ρ μ υ} {as : List (Act μ υ)} (hs : Handles s)
    (h : Machine.run step s as = some t) : Keeps s t :=
  (Machine.run_invariant (I := fun t : Net ρ μ υ => Handles t ∧ Keeps s t)
    (fun hi hstep => ⟨hi.1.freeStep (a := .act _) hstep,
      hi.2.trans (step_keeps hi.1 hstep)⟩) ⟨hs, .of_eq rfl⟩ h).2

/-- A link keeps its order for as long as its sender is not bound as an
unreliable one. -/
theorem run_lane {g f : ρ} {s : Net ρ μ υ} {as : List (Act μ υ)}
    (h : Machine.run step (init g f) as = some s) {src : Address}
    (hrel : ∀ e, s.endpoints.lookup src = some e → e.policy.reliable = true)
    (dst : Address) : Lane src dst s := by
  induction as using List.reverseRecOn generalizing s with
  | nil =>
      rw [Machine.run_nil, Option.some.injEq] at h
      subst h
      exact ⟨rfl, by simp [lane, init, Loop.init, Loop.pending]⟩
  | append_singleton as a ih =>
      obtain ⟨r, hr, hstep⟩ := Machine.run_concat_eq_some.mp h
      have hrel' : ∀ e, r.endpoints.lookup src = some e →
          e.policy.reliable = true := by
        intro e he
        obtain ⟨e', he', hp⟩ := (step_keeps (run_handles hr) hstep).policy _ e he
        rw [← hp]
        exact hrel e' he'
      have hlane := ih hr hrel'
      rcases step_messages (run_handles hr) hstep with
        ⟨_, _, _, _, _, -, hsends⟩ | ⟨hi, -⟩ | ⟨_, _, _, _, _, hc, -, hpend, he⟩
      · exact hlane.sends (run_wf hr) (run_onTime hr) (run_addressed hr) hrel'
          hsends
      · exact hlane.idle hi
      · exact hlane.ends hc hpend he

theorem run_dueAt {g f : ρ} {r s : Net ρ μ υ} {before after : List (Act μ υ)}
    (hr : Machine.run step (init g f) before = some r)
    (hs : Machine.run step r after = some s) {mid : ℕ} {w : ℚ}
    (h : DueAt mid w r) : DueAt mid w s := by
  refine (Machine.run_invariant (I := fun s : Net ρ μ υ =>
    Handles s ∧ OnTime s ∧ DueAt mid w s) ?_
    ⟨run_handles hr, run_onTime hr, h⟩ hs).2.2
  rintro u a v ⟨hh, ht, hd⟩ hstep
  refine ⟨hh.freeStep (a := .act _) hstep, ht.step hh hstep, ?_⟩
  rcases step_messages hh hstep with
    ⟨_, _, _, _, _, -, hsends⟩ | ⟨hi, -⟩ | ⟨_, _, _, _, _, hc, hready, hpend, he⟩
  · exact hd.sends hsends
  · exact hd.idle hi
  · exact hd.ends ht hc hready hpend he

/-- A message on a reliable link is due when its clock says. -/
theorem dueAt_send {g f : ρ} {r s : Net ρ μ υ} {as : List (Act μ υ)}
    (hr : Machine.run step (init g f) as = some r) {src dst : Address} {msg : μ}
    (hstep : step r (.op (.send src dst msg)) = some s)
    (hrel : ∀ e, r.endpoints.lookup src = some e → e.policy.reliable = true) :
    DueAt r.nextMid
      (r.due src dst (Random.uniform latMin latMax r.netRng).1) s ∧
    r.nextMid ∈ s.sentOn src dst := by
  obtain ⟨-, hbal, hlog⟩ := freeRun_accounted (run_free hr)
  simp only [step, op, Option.map_map, Option.map_eq_some_iff,
    Function.comp] at hstep
  obtain ⟨endpoint, hlook, hsend⟩ := hstep
  have haddr := run_addressed hr src endpoint hlook
  rw [send_reliable r (hrel endpoint hlook), haddr] at hsend
  -- Nothing was known of a message with this id.
  have hfresh : ∀ {mid} {src dst : Address} {msg : μ},
      (mid, src, dst, msg) ∈ Machine.outputs freeStep sends (init g f)
        (as.map .act) → mid < r.nextMid := by
    intro mid src dst msg hmem
    rw [← List.mem_range, ← hlog.ids]
    exact List.mem_map_of_mem hmem
  subst hsend
  refine ⟨⟨Nat.lt_succ_self _, ?_, ?_⟩, ?_⟩
  · intro h hmem src' dst' msg' hc
    rcases List.mem_cons.mp ((Loop.pending_callAt _ _ _).subset hmem) with
      rfl | hmem
    · rfl
    · have := hfresh (hlog.pending h hmem _ _ _ _ hc)
      omega
  · intro e he kind src' dst' hk heq
    rcases List.mem_append.mp he with he | he
    · obtain ⟨msg', hmem⟩ := hlog.events e he kind _ _ _ heq
      have := hfresh hmem
      omega
    · rw [List.mem_singleton] at he
      subst he
      simp only [Event.message.injEq] at heq
      rw [← heq.1] at hk
      cases hk
  · rw [sentOn, mem_midsOn]
    exact ⟨_, List.mem_append_right _ (List.mem_singleton_self _), .send, rfl,
      rfl⟩

theorem step_timeline {s t : Net ρ μ υ} {a : Act μ υ}
    (h : step s a = some t) : s.timeline.IsPrefix t.timeline := by
  rcases step_beginStep_or_quiet h with ⟨stopStep, rfl, rfl⟩ | ⟨hq, -⟩
  · exact List.prefix_rfl
  · obtain ⟨es, hes⟩ := hq.timeline
    exact ⟨_, hes.symm⟩

theorem run_timeline {s t : Net ρ μ υ} {as : List (Act μ υ)}
    (h : Machine.run step s as = some t) : s.timeline.IsPrefix t.timeline :=
  Machine.run_preorder (r := fun s t : Net ρ μ υ =>
    s.timeline.IsPrefix t.timeline) (fun _ => List.prefix_rfl)
    List.IsPrefix.trans step_timeline h

/-- The reliable channel. In any run at whose end `src` is bound as reliable,
on the link to any `dst`: the deliveries that fired are the first ones sent, in
the order sent, so each fired at most once; those that were delivered are a
subsequence of those sent. A message sent anywhere on the way is due no earlier
than its own latency allows, fires when it is due and at no other time, and
once the clock has passed that it was delivered or has an event that says why
not. -/
theorem reliable_channel {g f : ρ} {before after : List (Act μ υ)}
    {r s : Net ρ μ υ} {src : Address} {endpoint : Endpoint μ}
    (hr : Machine.run step (init g f) before = some r)
    (hs : Machine.run step r after = some s)
    (hsrc : s.endpoints.lookup src = some endpoint)
    (hrel : endpoint.policy.reliable = true) (dst : Address) :
    (s.sentOn src dst).Nodup ∧
    (s.endedOn src dst).IsPrefix (s.sentOn src dst) ∧
    (s.deliveredOn src dst).Sublist (s.sentOn src dst) ∧
    ∀ msg rest, after = .op (.send src dst msg) :: rest →
      ∀ base, base = (Random.uniform latMin latMax r.netRng).1 →
      r.nextMid ∈ s.sentOn src dst ∧
      r.loop.time + base * r.slowFactor src dst ≤ r.due src dst base ∧
      (∀ e ∈ s.timeline, ∀ kind src' dst', kind.ends = true →
        e.2 = .message kind r.nextMid src' dst' →
        e.1 = r.due src dst base) ∧
      (r.due src dst base < s.loop.time →
        r.nextMid ∈ s.deliveredOn src dst ∨ ∃ e ∈ s.timeline,
          e.2 = .message .dropCrashed r.nextMid src dst ∨
          e.2 = .message .dropPartitioned r.nextMid src dst) := by
  have hall := Machine.run_append_eq_some.mpr ⟨r, hr, hs⟩
  have hrel' : ∀ e, s.endpoints.lookup src = some e →
      e.policy.reliable = true := by
    intro e he
    rw [hsrc, Option.some.injEq] at he
    exact he ▸ hrel
  have hlane := run_lane hall hrel' dst
  refine ⟨?_, ⟨_, hlane.balance⟩, ?_, ?_⟩
  · have hsub : (s.sentOn src dst).Sublist s.sentMids := by
      rw [sentOn, midsOn, sentMids]
      induction s.timeline with
      | nil => exact .slnil
      | cons e rest ih =>
          obtain ⟨time, e⟩ := e
          rw [List.filterMap_cons, List.filterMap_cons]
          cases e with
          | message kind m s d =>
              dsimp only
              rw [Event.onLink?_message]
              by_cases hk : kind = .send
              · subst hk
                split
                · exact ih.cons _
                · next hsome =>
                  split at hsome
                  · cases hsome
                    exact ih.cons_cons m
                  · cases hsome
              · rw [if_neg (by simp [hk])]
                cases kind
                all_goals first | exact absurd rfl hk | exact ih
          | _ => exact ih
    refine List.Nodup.sublist hsub ?_
    rw [(freeRun_accounted (run_free hall)).logged.sentMids]
    exact List.nodup_range
  · refine List.Sublist.trans ?_ (List.IsPrefix.sublist ⟨_, hlane.balance⟩)
    refine s.midsOn_sublist ?_ src dst
    intro kind hk
    simp only [decide_eq_true_eq] at hk
    rw [hk]
    rfl
  · rintro msg rest rfl base rfl
    obtain ⟨u, hu, hrun⟩ := Machine.run_cons_eq_some.mp hs
    have hkeep := run_keeps (run_handles hr) hs
    obtain ⟨hdue, hsent⟩ := dueAt_send hr hu (fun e he => by
      obtain ⟨e', he', hp⟩ := hkeep.policy _ e he
      rw [← hp]
      exact hrel' e' he')
    have hur := Machine.run_concat_eq_some.mpr ⟨r, hr, hu⟩
    have hdues := run_dueAt hur hrun hdue
    have hmem : r.nextMid ∈ s.sentOn src dst := by
      obtain ⟨e, he, hk⟩ := mem_midsOn.mp hsent
      exact mem_midsOn.mpr ⟨e, (run_timeline hrun).subset he, hk⟩
    refine ⟨hmem, le_max_left _ _, hdues.ended, ?_⟩
    intro hpast
    rw [← hlane.balance] at hmem
    rcases List.mem_append.mp hmem with hended | hwait
    · obtain ⟨e, he, kind, hk, heq⟩ := mem_midsOn.mp hended
      cases kind with
      | deliver => exact .inl (mem_midsOn.mpr ⟨e, he, .deliver, by simp, heq⟩)
      | dropCrashed => exact .inr ⟨e, he, .inl heq⟩
      | dropPartitioned => exact .inr ⟨e, he, .inr heq⟩
      | _ => cases hk
    · -- A delivery that still waits is not overdue.
      exfalso
      obtain ⟨h, hh, hmid⟩ := List.mem_filterMap.mp hwait
      have hpend : h ∈ s.loop.pending := List.mem_of_mem_filter hh
      have hot := run_onTime hall
      cases hc : h.callback with
      | deliver mid src' dst' msg' =>
          rw [hc] at hmid
          cases hmid
          have hwhen := hdues.pending h hpend _ _ _ hc
          rcases List.mem_append.mp hpend with hready | htimer
          · rw [hot.ready h hready (by rw [hc]; rfl)] at hwhen
            simp only [Option.some.injEq, When.fin.injEq] at hwhen
            exact hpast.ne hwhen.symm
          · obtain ⟨t, ht, rfl⟩ := List.mem_map.mp htimer
            obtain ⟨q, hq, hle⟩ := hot.heap t ht (by rw [hc]; rfl)
            rw [hot.when? t ht, hq] at hwhen
            simp only [Option.some.injEq, When.fin.injEq] at hwhen
            exact absurd hpast (not_lt.mpr (hwhen ▸ hle))
      | _ => rw [hc] at hmid; cases hmid

/-- Two messages of which the second draws the shorter latency. -/
def overtaking : List (Act Unit ℕ) :=
  [.op (.send 1 2 ()), .op (.send 1 2 ()), .beginStep false, .runReady,
    .runReady]

theorem reliable_channel_overtaking : ∃ s,
    Machine.run step (init Toggle.high Toggle.low)
      (.op (.bind 1 true (.int 0) (.int 0)) :: overtaking) = some s ∧
    s.deliveredOn 1 2 = [0, 1] ∧ (s.deliveredOn 1 2).Sublist (s.sentOn 1 2) := by
  have hrun : (Machine.run step (init Toggle.high Toggle.low)
      (.op (.bind 1 true (.int 0) (.int 0)) :: overtaking)).isSome := by
    decide +kernel
  obtain ⟨s, hs⟩ := Option.isSome_iff_exists.mp hrun
  have hdel : s.deliveredOn 1 2 = [0, 1] := by
    have := congrArg (Option.map fun s => s.deliveredOn 1 2) hs
    exact Option.some.inj (this.symm.trans (by decide +kernel))
  have hbound : (s.endpoints.lookup 1).map (fun e => e.policy.reliable) =
      some true := by
    have := congrArg (Option.map fun s =>
      (s.endpoints.lookup 1).map fun e => e.policy.reliable) hs
    exact Option.some.inj (this.symm.trans (by decide +kernel))
  obtain ⟨e, he, hrel⟩ := Option.map_eq_some_iff.mp hbound
  obtain ⟨r, hr, hrs⟩ := Machine.run_cons_eq_some.mp hs
  have hbefore := Machine.run_cons_eq_some.mpr ⟨r, hr, Machine.run_nil r⟩
  exact ⟨s, hs, hdel, (reliable_channel hbefore hrs he hrel 2).2.2.1⟩

end Net

end Seedloop
