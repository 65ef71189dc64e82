import Seedloop.Proofs.Reliable

/-!
# From `send` to `recv`

What a program sees of the network is what it sends and what its `recv` calls
return, and this is how the two are related over a whole run. At any bound
address, what completed calls returned is, with what is queued behind it, what
arrived (`step_received`); each arrival has one event on the timeline, in the
same order (`step_arrives`); and each is of a message that was sent to that
address, by that sender and with that content. From a reliable sender the
arrivals are a sublist of what was sent, so nothing comes twice and nothing
overtakes.
-/

namespace Seedloop

/-- Who is in a list of distinct keys, and whose keys are in order there. -/
theorem sublist_of_map {α β : Type*} {f : α → β} {xs ys : List α}
    (hmem : ∀ x ∈ xs, x ∈ ys) (hnd : (ys.map f).Nodup)
    (h : (xs.map f).Sublist (ys.map f)) : xs.Sublist ys := by
  obtain ⟨zs, hzs, heq⟩ := List.sublist_map_iff.mp h
  suffices xs = zs from this ▸ hzs
  refine List.ext_getElem (by simpa using congrArg List.length heq) ?_
  intro i hi hi'
  refine List.inj_on_of_nodup_map hnd (hmem _ (List.getElem_mem hi))
    (hzs.subset (List.getElem_mem hi')) ?_
  have := List.getElem_of_eq heq (i := i) (by simpa using hi)
  simpa using this

/-- The address whose messages an operation asks for. -/
def Op.receives? {μ υ : Type} : Op μ υ → Option Address
  | .recv address _ _ => some address
  | .resumeRecv address _ => some address
  | _ => none

/-- What a caller of `recv` is handed. -/
def Reply.item? {μ : Type} : Reply μ → List (Address × μ)
  | .recv out => out.item?
  | _ => []

/-- The event delivers a message to this address: its id, and its sender. -/
def Event.arrives? {μ : Type} (dst : Address) : Event μ → Option (ℕ × Address)
  | .message .deliver mid src d => if d = dst then some (mid, src) else none
  | _ => none

namespace Net

variable {ρ μ υ : Type}

/-- The message a move delivers to an address: its id, its ends and what it
carries. -/
def arrivedAt (dst : Address) (s : Net ρ μ υ) :
    Act μ υ → List (ℕ × Address × Address × μ)
  | .runReady =>
      match s.loop.ready with
      | ⟨_, .deliver mid src d msg, _⟩ :: _ =>
          if d = dst ∧ s.fate src d = .deliver then [(mid, src, d, msg)] else []
      | _ => []
  | _ => []

theorem queueAt_congr {s t : Net ρ μ υ} (h : t.endpoints = s.endpoints)
    (d : Address) : t.queueAt d = s.queueAt d := by
  rw [queueAt, queueAt, h]

theorem schedule_endpoints (s : Net ρ μ υ) (now : ℚ) (rs : List Resolved) :
    (s.scheduleAll now rs).endpoints = s.endpoints := by
  induction rs generalizing s with
  | nil => rfl
  | cons r rs ih =>
      refine (ih (s.schedule now r)).trans ?_
      cases r <;> rfl

theorem sleep_endpoints (s : Net ρ μ υ) (seconds : ℚ) (k : υ) :
    (s.sleep seconds k).endpoints = s.endpoints := by
  unfold Net.sleep
  dsimp only
  split <;> rfl

variable [Random ρ]

/-- What a completed `recv` at an address returns in a move. -/
def receivedAt (dst : Address) (s : Net ρ μ υ) : Act μ υ → List (Address × μ)
  | .op o =>
      match s.op o with
      | some (_, r) => if o.receives? = some dst then r.item? else []
      | none => []
  | _ => []

theorem runFor_endpoints {s t : Net ρ μ υ} {fuel : ℕ} {seconds : Num}
    {faults : List Fault} {k : υ} {res : Except ApiError Unit}
    (h : s.runFor fuel seconds faults k = some (t, res)) :
    t.endpoints = s.endpoints := by
  obtain ⟨window, rs, g, -, -, hcase⟩ := runFor_eq h
  rcases hcase with ⟨e, -, rfl⟩ | ⟨-, -, -, -, rfl⟩
  · exact schedule_endpoints _ _ _
  · exact (sleep_endpoints _ _ _).trans (schedule_endpoints _ _ _)

omit [Random ρ] in
/-- User code takes from the front of one inbox. -/
theorem inboxAct_received {s t : Net ρ μ υ} {address : Address}
    {a : Inbox.Act μ} {r : Reply μ} (h : s.inboxAct address a = some (t, r))
    (ha : ∀ item, a ≠ .deliver item) (dst : Address) :
    (if address = dst then r.item? else []) ++ t.queueAt dst =
      s.queueAt dst := by
  unfold inboxAct at h
  split at h
  · cases h
  · next endpoint hlook =>
    simp only [Option.map_eq_some_iff, Prod.mk.injEq] at h
    obtain ⟨⟨inbox, out⟩, hact, rfl, rfl⟩ := h
    rw [queueAt_insert]
    by_cases hd : address = dst
    · subst hd
      have hstep : endpoint.inbox.step a = some inbox := by
        rw [Inbox.step, hact]
        rfl
      have hqueue := Inbox.step_queue hstep
      have hnone : endpoint.inbox.delivered a = [] := by
        cases a with
        | deliver item => exact absurd rfl (ha item)
        | _ => rfl
      rw [hnone, List.append_nil] at hqueue
      have hold : s.queueAt address = endpoint.inbox.queue := by
        rw [queueAt, hlook]
      rw [if_pos rfl, if_pos rfl, hold, ← hqueue]
      congr 1
      cases out with
      | none =>
          rw [Inbox.returned, hact]
          rfl
      | some out => exact (Inbox.returned_eq hact).symm
    · rw [if_neg hd, if_neg (Ne.symm hd), List.nil_append]

/-- An operation takes from the queue at a bound address what it returns from
there, and nothing else. -/
theorem op_received {s t : Net ρ μ υ} {o : Op μ υ} {r : Reply μ}
    (h : s.op o = some (t, r)) {dst : Address} (hdst : dst ∈ s.endpoints) :
    (if o.receives? = some dst then r.item? else []) ++ t.queueAt dst =
      s.queueAt dst := by
  have hkeep : t.endpoints = s.endpoints → o.receives? = none →
      (if o.receives? = some dst then r.item? else []) ++ t.queueAt dst =
        s.queueAt dst := by
    intro ht ho
    rw [if_neg (by rw [ho]; rintro ⟨⟩), List.nil_append, queueAt_congr ht]
  cases o with
  | recv address task mustCancel | resumeRecv address task =>
      simp only [Op.receives?, Option.some.injEq]
      exact inboxAct_received h (by rintro _ ⟨⟩) dst
  | cancelRecv address task =>
      have hq := inboxAct_received h (by rintro _ ⟨⟩) dst
      have hnone : r.item? = [] := by
        simp only [op, inboxAct] at h
        split at h
        · cases h
        · simp only [Inbox.act, Option.map_map, Option.map_eq_some_iff] at h
          obtain ⟨w, -, heq⟩ := h
          cases heq
          rfl
      rw [hnone, ite_self] at hq
      exact hq
  | bind address reliable loss duplicate =>
      simp only [op] at h
      split at h
      · cases h
        exact hkeep rfl rfl
      · next hb =>
        cases h
        unfold Net.bind at hb
        split at hb
        · cases hb
        · next hfree =>
          split at hb
          · cases hb
          · cases hb
          · cases hb
            have hne : dst ≠ address := fun heq => hfree (heq ▸ hdst)
            rw [queueAt_insert, if_neg hne]
            rfl
  | send src d msg =>
      simp only [op, Option.map_eq_some_iff, Prod.mk.injEq] at h
      obtain ⟨endpoint, -, rfl, -⟩ := h
      refine hkeep ?_ rfl
      rw [send_eq]
      split
      · rfl
      · cases (luck endpoint.policy s.faultsRng).1 <;> rfl
  | runFor seconds faults fuel k =>
      simp only [op, Option.map_eq_some_iff] at h
      obtain ⟨⟨u, res⟩, hrun, hmap⟩ := h
      have hu := runFor_endpoints hrun
      cases res with
      | error e =>
          cases hmap
          exact hkeep hu rfl
      | ok _ =>
          cases hmap
          exact hkeep hu rfl
  | callAt when k | callLater delay k =>
      simp only [op, userCallLater, userCallAt, Option.some.injEq] at h
      repeat' split at h
      all_goals
        cases h
        exact hkeep rfl rfl
  | cancel handle =>
      simp only [op] at h
      split at h
      · cases h
        exact hkeep rfl rfl
      · cases h
  | cancelRunFor fut =>
      cases h
      refine hkeep ?_ rfl
      unfold finishSleep
      split <;> rfl
  | callSoon k | stop | record event | partition groups | heal =>
      cases h
      exact hkeep rfl rfl

/-! ## A move -/

omit [Random ρ] in
theorem runHandle_endpoints (s : Net ρ μ υ) {h : Handle (Callback μ υ)}
    (hnet : h.callback.isNet = false) :
    (runHandle s h).endpoints = s.endpoints := by
  unfold runHandle
  split
  · rfl
  · cases hc : h.callback with
    | user k => rfl
    | resume fut k => rfl
    | wake fut k =>
        simp only [runCallback, finishSleep]
        split <;> rfl
    | deliver => simp [hc, Callback.isNet] at hnet
    | fault => simp [hc, Callback.isNet] at hnet

/-- A move delivers a message of those that wait, or none. -/
theorem step_arrives {s t : Net ρ μ υ} {a : Act μ υ} (hh : Handles s)
    (h : step s a = some t) (dst : Address) :
    (s.arrivedAt dst a = [] ∧
      ((∀ o, a ≠ .op o) → t.queueAt dst = s.queueAt dst) ∧
      ∃ new, t.timeline = s.timeline ++ new ∧
        ∀ e ∈ new, e.2.arrives? dst = none) ∨
    ∃ mid src msg hd, s.arrivedAt dst a = [(mid, src, dst, msg)] ∧
      hd ∈ s.loop.pending ∧ hd.callback = .deliver mid src dst msg ∧
      s.fate src dst = .deliver ∧ Ends s t mid src dst msg := by
  have hof : Frame s t → ∃ new, t.timeline = s.timeline ++ new ∧
      ∀ e ∈ new, e.2.arrives? dst = none := by
    intro hf
    obtain ⟨new, hnew, hop⟩ := hf.timeline
    refine ⟨new, hnew, fun e he => ?_⟩
    have := hop e he
    obtain ⟨time, e⟩ := e
    cases e with
    | message kind mid src d => cases kind <;> first | rfl | cases this
    | _ => rfl
  cases a with
  | op o =>
      simp only [Net.step, Option.map_eq_some_iff] at h
      obtain ⟨⟨t', r⟩, hop, rfl⟩ := h
      rcases op_cases hop with ⟨_, _, _, _, _, -, hsends⟩ | ⟨-, heff⟩
      · exact .inl ⟨rfl, fun hne => absurd rfl (hne o), hof hsends.frame⟩
      · exact .inl ⟨rfl, fun hne => absurd rfl (hne o), hof heff.frame⟩
  | beginStep stopStep | clearStop =>
      cases h
      exact .inl ⟨rfl, fun _ => rfl, [], (List.append_nil _).symm, by simp⟩
  | runReady =>
      simp only [Net.step] at h
      split at h
      · cases h
      · next hd rest hready =>
        cases h
        have hmem : hd ∈ s.loop.pending := by simp [Loop.pending, hready]
        have hnone : (∀ mid src d msg, hd.callback ≠ .deliver mid src d msg) →
            s.arrivedAt dst .runReady = [] := by
          intro hne
          obtain ⟨id, c, when⟩ := hd
          simp only [arrivedAt, hready]
          cases c with
          | deliver mid src d msg => exact absurd rfl (hne mid src d msg)
          | _ => rfl
        rcases hh.runHandle_cases hmem (takes_pop hready) rfl with
          ⟨hnet, hf⟩ | ⟨c, hc, -, hf⟩ |
          ⟨mid, src, d, msg, _, _, hc, heq, hdel⟩
        · refine .inl ⟨hnone ?_,
            fun _ => queueAt_congr (runHandle_endpoints _ hnet) dst, hof hf⟩
          intro mid src d msg hc
          rw [hc] at hnet
          cases hnet
        · refine .inl ⟨hnone ?_, fun _ => queueAt_congr hf.endpoints dst, _,
            hf.timeline, ?_⟩
          · intro mid src d msg hc'
            rw [hc] at hc'
            cases hc'
          · cases c <;> simp [FaultCallback.event, Event.arrives?]
        · have hends : Ends s (runHandle
              { s with loop := { s.loop with ready := rest } } hd)
              mid src d msg :=
            ⟨hdel, by rw [heq], by rw [heq], hd, hc,
              by rw [heq]; exact takes_pop hready⟩
          have harrived : s.arrivedAt dst .runReady =
              if d = dst ∧ s.fate src d = .deliver then
                [(mid, src, d, msg)] else [] := by
            obtain ⟨id, c, when⟩ := hd
            obtain rfl : c = .deliver mid src d msg := hc
            simp only [arrivedAt, hready]
          by_cases hin : d = dst ∧ s.fate src d = .deliver
          · obtain ⟨rfl, hfate⟩ := hin
            rw [if_pos ⟨rfl, hfate⟩] at harrived
            exact .inr ⟨mid, src, msg, hd, harrived, hmem, hc, hfate, hends⟩
          · rw [if_neg hin] at harrived
            refine .inl ⟨harrived, fun _ => ?_, _, hdel.timeline, ?_⟩
            · rw [hdel.queue dst, if_neg]
              rintro ⟨hfate, rfl, -⟩
              exact hin ⟨rfl, hfate⟩
            intro e he
            rw [List.mem_singleton] at he
            subst he
            rcases s.fate_cases src d with hfate | hfate | hfate
            · rw [hfate]
              exact if_neg fun heq => hin ⟨heq, hfate⟩
            · rw [hfate]
              rfl
            · rw [hfate]
              rfl

/-- What a move takes from the queue at a bound address is returned to its
caller, and what it adds has arrived. -/
theorem step_received {s t : Net ρ μ υ} {a : Act μ υ} (hh : Handles s)
    {dst : Address} (hdst : dst ∈ s.endpoints) (h : step s a = some t) :
    s.receivedAt dst a ++ t.queueAt dst = s.queueAt dst ++
      (s.arrivedAt dst a).map fun x => (x.2.1, x.2.2.2) := by
  cases a with
  | op o =>
      simp only [Net.step, Option.map_eq_some_iff] at h
      obtain ⟨⟨t', r⟩, hop, rfl⟩ := h
      have := op_received hop hdst
      simp only [receivedAt, hop]
      rw [this]
      exact (List.append_nil _).symm
  | beginStep stopStep | clearStop =>
      cases h
      exact (List.append_nil _).symm
  | runReady =>
      rcases step_arrives hh h dst with ⟨hnone, hqueue, -⟩ |
        ⟨mid, src, msg, hd, harrived, -, -, hfate, hends⟩
      · rw [hnone, hqueue (by rintro o ⟨⟩)]
        exact (List.append_nil _).symm
      · rw [harrived]
        have := hends.queue dst
        rw [if_pos ⟨hfate, rfl, hdst⟩] at this
        exact this

/-! ## Over every run -/

theorem step_bound {s t : Net ρ μ υ} {a : Act μ υ} (hh : Handles s)
    (h : step s a = some t) {dst : Address} (hdst : dst ∈ s.endpoints) :
    dst ∈ t.endpoints := by
  obtain ⟨e, he⟩ := Option.isSome_iff_exists.mp (AList.lookup_isSome.mpr hdst)
  obtain ⟨e', he', -⟩ := (step_keeps hh h).policy dst e he
  exact AList.lookup_isSome.mp (by rw [he']; rfl)

omit [Random ρ] in
/-- What has arrived since `r` is what the timeline says. -/
structure Arrivals (dst : Address) (r s : Net ρ μ υ)
    (arrived : List (ℕ × Address × Address × μ)) : Prop where
  handles : Handles s
  events : s.timeline.filterMap (fun e => e.2.arrives? dst) =
    r.timeline.filterMap (fun e => e.2.arrives? dst) ++
      arrived.map fun x => (x.1, x.2.1)

theorem Arrivals.step {dst : Address} {r s t : Net ρ μ υ} {a : Act μ υ}
    {arrived : List (ℕ × Address × Address × μ)}
    (hs : Arrivals dst r s arrived) (h : step s a = some t) :
    Arrivals dst r t (arrived ++ s.arrivedAt dst a) := by
  refine ⟨hs.handles.freeStep (a := .act a) h, ?_⟩
  rcases step_arrives hs.handles h dst with ⟨hnone, -, new, hnew, hno⟩ |
    ⟨mid, src, msg, hd, harrived, -, -, hfate, hends⟩
  · have : new.filterMap (fun e => e.2.arrives? dst) = [] :=
      List.filterMap_eq_nil_iff.mpr hno
    rw [hnone, hnew, List.filterMap_append, this, List.append_nil,
      List.append_nil]
    exact hs.events
  · rw [harrived, hends.timeline, List.filterMap_append, hs.events, hfate,
      List.map_append, List.append_assoc]
    simp [Event.arrives?]

theorem run_arrives {r s : Net ρ μ υ} {as : List (Act μ υ)} (hr : Handles r)
    (h : Machine.run step r as = some s) (dst : Address) :
    Arrivals dst r s (Machine.outputs step (arrivedAt dst) r as) := by
  have hstart : Arrivals dst r r [] := ⟨hr, by simp⟩
  simpa using Machine.run_outputs_invariant
    (fun hi hstep => hi.step hstep) hstart h

/-- What arrives was sent there. -/
theorem run_authentic {g f : ρ} {before after : List (Act μ υ)}
    {r s : Net ρ μ υ} (hr : Machine.run step (init g f) before = some r)
    (hs : Machine.run step r after = some s) {dst : Address}
    {x : ℕ × Address × Address × μ}
    (hx : x ∈ Machine.outputs step (arrivedAt dst) r after) :
    x.2.2.1 = dst ∧ x ∈ Machine.outputs freeStep sends (init g f)
      ((before ++ after).map .act) := by
  obtain ⟨pre, a, post, v, rfl, hv, hmem⟩ := Machine.exists_of_mem_outputs hx
  have hrun := Machine.run_append_eq_some.mpr ⟨r, hr, hv⟩
  have hacc := freeRun_accounted (run_free hrun)
  obtain ⟨w, hw, -⟩ := Machine.run_append_eq_some.mp hs
  obtain rfl : v = w := by
    rw [hv] at hw
    exact Option.some.inj hw
  obtain ⟨w, hstep⟩ : ∃ w, step v a = some w := by
    obtain ⟨w, hw, hrest⟩ := Machine.run_append_eq_some.mp hs
    obtain ⟨w', hstep, -⟩ := Machine.run_cons_eq_some.mp hrest
    rw [hv, Option.some.injEq] at hw
    exact ⟨w', hw ▸ hstep⟩
  rcases step_arrives hacc.handles hstep dst with ⟨hnone, -⟩ |
    ⟨mid, src, msg, hd, harrived, hpend, hc, -⟩
  · rw [hnone] at hmem
    cases hmem
  · rw [harrived, List.mem_singleton] at hmem
    subst hmem
    refine ⟨rfl, ?_⟩
    have hlog := hacc.logged.pending hd hpend mid src dst msg hc
    rw [← List.append_assoc, List.map_append,
      Machine.outputs_append (run_free hrun)]
    exact List.mem_append_left _ hlog

/-- From `send` to `recv`. Take any run, any moment of it and any address that
is bound then. What `recv` calls at the address have returned since, followed
by what is queued there, is what was queued there and then what has arrived,
each time with its sender: the messages of the deliveries on the timeline, in
that order. Every one of them was sent to that address, by that sender and
with that content, and arrived at most twice, and once if it was not
duplicated. From a sender that is reliable they are a sublist of all that was
sent: in order, and each at most once. -/
theorem recv_end_to_end {g f : ρ} {before after : List (Act μ υ)}
    {r s : Net ρ μ υ} (hr : Machine.run step (init g f) before = some r)
    (hs : Machine.run step r after = some s) {dst : Address}
    (hdst : dst ∈ r.endpoints) :
    ∃ (new : List (ℚ × Event μ)) (arrived : List (ℕ × Address × Address × μ)),
      Machine.outputs step (receivedAt dst) r after ++ s.queueAt dst =
        r.queueAt dst ++ arrived.map (fun x => (x.2.1, x.2.2.2)) ∧
      s.timeline = r.timeline ++ new ∧
      new.filterMap (fun e => e.2.arrives? dst) =
        arrived.map (fun x => (x.1, x.2.1)) ∧
      (∀ x ∈ arrived, x.2.2.1 = dst ∧ x ∈ Machine.outputs freeStep sends
        (init g f) ((before ++ after).map .act)) ∧
      (∀ mid, arrived.countP (fun x => x.1 = mid) ≤
        1 + s.events .duplicate mid) ∧
      ∀ src endpoint, s.endpoints.lookup src = some endpoint →
        endpoint.policy.reliable = true →
        (arrived.filter fun x => x.2.1 = src).Sublist
          (Machine.outputs freeStep sends (init g f)
            ((before ++ after).map .act)) := by
  have hall := Machine.run_append_eq_some.mpr ⟨r, hr, hs⟩
  have hacc := freeRun_accounted (run_free hall)
  have hauth : ∀ x ∈ Machine.outputs step (arrivedAt dst) r after,
      x.2.2.1 = dst ∧ x ∈ Machine.outputs freeStep sends (init g f)
        ((before ++ after).map .act) := fun x hx => run_authentic hr hs hx
  obtain ⟨new, hnew⟩ := run_timeline hs
  have harrives := (run_arrives (run_handles hr) hs dst).events
  rw [← hnew, List.filterMap_append, List.append_cancel_left_eq] at harrives
  have hqueue : Machine.outputs step (receivedAt dst) r after ++
      s.queueAt dst = r.queueAt dst ++
        (Machine.outputs step (arrivedAt dst) r after).map
          fun x => (x.2.1, x.2.2.2) := by
    rw [← Machine.outputs_map]
    exact Machine.run_balance
      (I := fun s : Net ρ μ υ => Handles s ∧ dst ∈ s.endpoints)
      (fun hi hstep => ⟨hi.1.freeStep (a := .act _) hstep,
        step_bound hi.1 hstep hi.2⟩)
      (fun hi hstep => step_received hi.1 hi.2 hstep)
      ⟨run_handles hr, hdst⟩ hs
  generalize Machine.outputs step (arrivedAt dst) r after = arrived
    at hauth harrives hqueue
  refine ⟨new, arrived, hqueue, hnew.symm, harrives, hauth, ?_, ?_⟩
  · intro mid
    have hcount : arrived.countP (fun x => x.1 = mid) ≤
        s.events .deliver mid := by
      have heq : arrived.countP (fun x => x.1 = mid) =
          (arrived.map fun x => (x.1, x.2.1)).countP fun x => x.1 = mid := by
        rw [List.countP_map]
        rfl
      rw [heq, ← harrives, List.countP_filterMap, events_append hnew.symm]
      refine le_trans (List.countP_mono_left ?_) (Nat.le_add_left _ _)
      rintro ⟨time, e⟩ - he
      cases e with
      | message kind m src d =>
          cases kind with
          | deliver =>
              by_cases hd : d = dst
              · simpa [Event.arrives?, Event.isMessage, hd] using he
              · simp [Event.arrives?, hd] at he
          | _ => cases he
      | _ => cases he
    have htotal := (hacc.balanced mid).total
    have hended : s.events .deliver mid ≤ s.ended mid := by
      rw [ended, Nat.add_assoc]
      exact Nat.le_add_right _ _
    split at htotal <;> omega
  · intro src endpoint hsrc hrel
    have hlane : Lane src dst s := by
      refine run_lane hall (fun e he => ?_) dst
      rw [hsrc, Option.some.injEq] at he
      exact he ▸ hrel
    have hmids : (arrived.filter fun x => x.2.1 = src).map Prod.fst =
        new.filterMap fun e => e.2.onLink? (· = .deliver) src dst := by
      have heq : (arrived.filter fun x => x.2.1 = src).map Prod.fst =
          ((arrived.map fun x => (x.1, x.2.1)).filter fun x =>
            x.2 = src).map Prod.fst := by
        rw [List.filter_map, List.map_map]
        rfl
      rw [heq, ← harrives, List.filter_filterMap, List.map_filterMap]
      refine List.filterMap_congr ?_
      rintro ⟨time, e⟩ -
      cases e with
      | message kind m a b =>
          rw [Event.onLink?_message]
          cases kind with
          | deliver =>
              by_cases hb : b = dst
              · by_cases ha : a = src
                · simp [Event.arrives?, ha, hb]
                · simp [Event.arrives?, ha, hb]
              · simp [Event.arrives?, hb]
          | _ => rfl
      | _ => rfl
    have hdelivered : (new.filterMap fun e =>
        e.2.onLink? (· = .deliver) src dst).Sublist (s.deliveredOn src dst) := by
      rw [deliveredOn, midsOn_append hnew.symm]
      exact List.sublist_append_right _ _
    have hended : (s.deliveredOn src dst).Sublist (s.endedOn src dst) := by
      refine s.midsOn_sublist (fun kind hk => ?_) src dst
      obtain rfl : kind = .deliver := by simpa using hk
      rfl
    have hsent : (s.endedOn src dst).Sublist (s.sentOn src dst) :=
      List.IsPrefix.sublist ⟨_, hlane.balance⟩
    refine sublist_of_map (f := Prod.fst) ?_ ?_ ?_
    · intro x hx
      exact (hauth x (List.mem_of_mem_filter hx)).2
    · rw [hacc.logged.ids]
      exact List.nodup_range
    · rw [hmids, hacc.logged.ids, ← hacc.logged.sentMids]
      exact hdelivered.trans (hended.trans (hsent.trans
        (s.sentOn_sublist src dst)))

/-- Two nodes, the first of which is reliable. -/
def twoNodes : List (Act ℕ ℕ) :=
  [.op (.bind 1 true (.int 0) (.int 0)), .op (.bind 2 true (.int 0) (.int 0))]

/-- A receiver that waits, two messages, and one call that returns. -/
def firstOfTwo : List (Act ℕ ℕ) :=
  [.op (.recv 2 0 false), .op (.send 1 2 7), .op (.send 1 2 8),
    .beginStep false, .runReady, .runReady, .op (.resumeRecv 2 0)]

theorem recv_end_to_end_firstOfTwo : ∃ (r s : Net Toggle ℕ ℕ)
    (arrived : List (ℕ × Address × Address × ℕ)),
    Machine.run step (init Toggle.high Toggle.low) twoNodes = some r ∧
    Machine.run step r firstOfTwo = some s ∧
    [(1, 7), (1, 8)] = arrived.map (fun x => (x.2.1, x.2.2.2)) ∧
    (arrived.filter fun x => x.2.1 = 1).Sublist
      (Machine.outputs freeStep sends (init Toggle.high Toggle.low)
        ((twoNodes ++ firstOfTwo).map .act)) := by
  have hrun : (Machine.run step (init Toggle.high Toggle.low)
      (twoNodes ++ firstOfTwo)).isSome := by decide +kernel
  obtain ⟨s, hs⟩ := Option.isSome_iff_exists.mp hrun
  obtain ⟨r, hr, hrs⟩ := Machine.run_append_eq_some.mp hs
  have hbefore : (r.endpoints.keys, r.queueAt 2,
      Machine.outputs step (receivedAt 2) r firstOfTwo) =
        ([2, 1], [], [(1, 7)]) := by
    have := congrArg (Option.map fun r : Net Toggle ℕ ℕ =>
      (r.endpoints.keys, r.queueAt 2,
        Machine.outputs step (receivedAt 2) r firstOfTwo)) hr
    exact Option.some.inj (this.symm.trans (by decide +kernel))
  have hafter : (s.queueAt 2,
      (s.endpoints.lookup 1).map fun e => e.policy.reliable) =
        ([(1, 8)], some true) := by
    have := congrArg (Option.map fun s : Net Toggle ℕ ℕ => (s.queueAt 2,
      (s.endpoints.lookup 1).map fun e => e.policy.reliable)) hs
    exact Option.some.inj (this.symm.trans (by decide +kernel))
  simp only [Prod.mk.injEq] at hbefore hafter
  obtain ⟨hkeys, hqueue, hreceived⟩ := hbefore
  obtain ⟨hqueue', hpolicy⟩ := hafter
  obtain ⟨e, he, hrel⟩ := Option.map_eq_some_iff.mp hpolicy
  have hbound : 2 ∈ r.endpoints := AList.mem_keys.mpr (by rw [hkeys]; simp)
  obtain ⟨new, arrived, hall, -, -, -, -, hsub⟩ :=
    recv_end_to_end hr hrs hbound
  rw [hqueue, hqueue', hreceived] at hall
  exact ⟨r, s, arrived, hr, hrs, hall, hsub 1 e he hrel⟩

end Net

end Seedloop
