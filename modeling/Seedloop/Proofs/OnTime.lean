import Seedloop.Proofs.Messages
import Seedloop.Proofs.Timers

/-!
# The network's timers fire on time

A delivery or a fault is put on the heap at a moment that has not passed, and
the clock does not pass it: it only moves when nothing is ready, and then no
further than the first live timer. So the handle of one is promoted when the
clock reads its deadline exactly, and still does when it runs.

The moment is not in the past because latencies are positive and slow links
only lengthen them: every factor in force, or still to come into force, is
above one.
-/

namespace Seedloop

namespace Net

variable {ρ μ υ : Type}

/-- The factor of a slow link that is about to begin. -/
def Slows (c : Callback μ υ) : Prop :=
  ∀ faultId pair factor, c = .fault (.beginSlowLink faultId pair factor) →
    1 < factor

/-- Where the network's handles stand to the clock. -/
structure OnTime (s : Net ρ μ υ) : Prop where
  when? : ∀ t ∈ s.loop.timers.entries, t.handle.when? = some t.when
  heap : ∀ t ∈ s.loop.timers.entries, t.handle.callback.isNet = true →
    ∃ q, t.when = .fin q ∧ s.loop.time ≤ q
  ready : ∀ h ∈ s.loop.ready, h.callback.isNet = true →
    h.when? = some (.fin s.loop.time)
  slow : ∀ e ∈ s.faultSlowLinks.entries, 1 < e.2.2
  slows : ∀ h ∈ s.loop.pending, Slows h.callback

theorem init_onTime (g f : ρ) : OnTime (init g f : Net ρ μ υ) := by
  constructor
  all_goals simp [init, Loop.init, Loop.pending]

theorem OnTime.of_loop {s t : Net ρ μ υ} (hs : OnTime s)
    (hl : t.loop = s.loop) (hf : t.faultSlowLinks = s.faultSlowLinks) :
    OnTime t := by
  refine ⟨?_, ?_, ?_, ?_, ?_⟩
  · rw [hl]; exact hs.when?
  · rw [hl]; exact hs.heap
  · rw [hl]; exact hs.ready
  · rw [hf]; exact hs.slow
  · rw [hl]; exact hs.slows

theorem slows_of_not_net {c : Callback μ υ} (hc : c.isNet = false) :
    Slows c := by
  rintro faultId pair factor rfl
  cases hc

theorem OnTime.callSoon {s t : Net ρ μ υ} (hs : OnTime s) {c : Callback μ υ}
    (hc : c.isNet = false) (hl : t.loop = s.loop.callSoon c)
    (hf : t.faultSlowLinks = s.faultSlowLinks) : OnTime t := by
  refine ⟨?_, ?_, ?_, hf ▸ hs.slow, ?_⟩
  · rw [hl]; exact hs.when?
  · rw [hl]; exact hs.heap
  · rw [hl]
    intro h hh hnet
    rcases List.mem_append.mp hh with hh | hh
    · exact hs.ready h hh hnet
    · rw [List.mem_singleton] at hh
      subst hh
      rw [hc] at hnet
      cases hnet
  · rw [hl]
    intro h hh
    rcases List.mem_cons.mp ((s.loop.pending_callSoon c).subset hh) with
      rfl | hh
    · exact slows_of_not_net hc
    · exact hs.slows h hh

theorem OnTime.callTimer {s t : Net ρ μ υ} (hs : OnTime s) {c : Callback μ υ}
    {when : When} (hl : t.loop = s.loop.callAt when c)
    (hf : t.faultSlowLinks = s.faultSlowLinks)
    (hwhen : c.isNet = true → ∃ q, when = .fin q ∧ s.loop.time ≤ q)
    (hslow : Slows c) : OnTime t := by
  refine ⟨?_, ?_, ?_, hf ▸ hs.slow, ?_⟩
  · rw [hl]
    intro τ hτ
    rcases PQueue.mem_push.mp hτ with rfl | hτ
    · rfl
    · exact hs.when? τ hτ
  · rw [hl]
    intro τ hτ hnet
    rcases PQueue.mem_push.mp hτ with rfl | hτ
    · exact hwhen hnet
    · exact hs.heap τ hτ hnet
  · rw [hl]; exact hs.ready
  · rw [hl]
    intro h hh
    rcases List.mem_cons.mp ((s.loop.pending_callAt when c).subset hh) with
      rfl | hh
    · exact hslow
    · exact hs.slows h hh

theorem OnTime.callAt {s : Net ρ μ υ} (hs : OnTime s) {c : Callback μ υ}
    {when : ℚ} (hwhen : s.loop.time ≤ when) (hslow : Slows c) :
    OnTime (s.callAt when c) :=
  hs.callTimer rfl rfl (fun _ => ⟨when, rfl, hwhen⟩) hslow

theorem OnTime.schedule {s : Net ρ μ υ} (hs : OnTime s) {seconds : ℚ}
    {r : Resolved} (hr : r.Ok seconds) :
    OnTime (s.schedule s.loop.time r) := by
  have hrec : ∀ e : Event μ, OnTime (recordAt
      { s with nextFaultId := s.nextFaultId + 1 } s.loop.time e) :=
    fun e => hs.of_loop rfl rfl
  cases r with
  | partition groups start stop =>
      obtain ⟨h0, h1, -⟩ := hr
      refine ((hrec _).callAt (le_add_of_nonneg_right h0) ?_).callAt
        (le_add_of_nonneg_right (h0.trans h1)) ?_
      · rintro _ _ _ ⟨⟩
      · rintro _ _ _ ⟨⟩
  | slowLink a b factor start stop =>
      obtain ⟨hf, h0, h1, -⟩ := hr
      refine ((hrec _).callAt (le_add_of_nonneg_right h0) ?_).callAt
        (le_add_of_nonneg_right (h0.trans h1)) ?_
      · rintro _ _ _ ⟨⟩
        exact hf
      · rintro _ _ _ ⟨⟩
  | crash node at_ =>
      refine (hrec _).callAt (le_add_of_nonneg_right hr.1) ?_
      rintro _ _ _ ⟨⟩

theorem OnTime.finishSleep {s : Net ρ μ υ} (hs : OnTime s) (fut : ℕ) :
    OnTime (s.finishSleep fut) := by
  unfold Net.finishSleep
  split
  · exact hs
  · next k _ => exact hs.callSoon (c := .resume fut k) rfl rfl rfl

theorem Effect.onTime {s t : Net ρ μ υ} (h : Effect s t) (hs : OnTime s) :
    OnTime t := by
  cases h with
  | draws | setPartition | bind | inbox | record =>
      exact hs.of_loop rfl rfl
  | userSoon k => exact hs.callSoon (c := .user k) rfl rfl rfl
  | userTimer when k =>
      exact hs.callTimer (c := .user k) rfl rfl (by rintro ⟨⟩)
        (slows_of_not_net rfl)
  | cancel | stop =>
      exact ⟨hs.when?, hs.heap, hs.ready, hs.slow, hs.slows⟩
  | schedule seconds r hr => exact hs.schedule hr
  | sleep seconds k =>
      unfold Net.sleep
      dsimp only
      split
      · exact hs.callTimer (c := .wake s.loop.nextHandle k) rfl rfl
          (by rintro ⟨⟩) (slows_of_not_net rfl)
      · exact hs.callSoon (c := .resume s.loop.nextHandle k) rfl rfl rfl
  | cancelRunFor fut =>
      have hgiven : OnTime { s with abandoned := insert fut s.abandoned } :=
        hs.of_loop rfl rfl
      exact hgiven.finishSleep fut

/-! ## Sends -/

theorem one_le_foldl {es : List (Sigma fun _ : ℕ => Finset Address × ℚ)}
    (hes : ∀ e ∈ es, 1 < e.2.2) (pair : Finset Address) {acc : ℚ}
    (hacc : 1 ≤ acc) : 1 ≤ es.foldl
      (fun factor e => if e.2.1 = pair then factor * e.2.2 else factor) acc := by
  induction es generalizing acc with
  | nil => exact hacc
  | cons e es ih =>
      refine ih (fun e he => hes e (List.mem_cons_of_mem _ he)) ?_
      dsimp only
      split
      · exact one_le_mul_of_one_le_of_one_le hacc
          (hes e List.mem_cons_self).le
      · exact hacc

/-- Slow links slow down. -/
theorem OnTime.one_le_slowFactor {s : Net ρ μ υ} (hs : OnTime s)
    (src dst : Address) : 1 ≤ s.slowFactor src dst :=
  one_le_foldl hs.slow _ le_rfl

theorem OnTime.latency_nonneg {s : Net ρ μ υ} (hs : OnTime s) {base : ℚ}
    (hb : Latency base) (src dst : Address) :
    0 ≤ base * s.slowFactor src dst := by
  have hbase : 0 ≤ base := le_trans (by norm_num [latMin]) hb.1
  exact mul_nonneg hbase (zero_le_one.trans (hs.one_le_slowFactor src dst))

theorem OnTime.sendAs {s : Net ρ μ υ} (hs : OnTime s) (src dst : Address)
    (msg : μ) {how : Sent} {reliable : Bool} (hok : how.Allowed reliable) :
    OnTime (s.sendAs src dst msg how) := by
  have hbegin : OnTime (s.beginSend src dst) := hs.of_loop rfl rfl
  have hslow : Slows (.deliver s.nextMid src dst msg : Callback μ υ) := by
    rintro _ _ _ ⟨⟩
  cases how with
  | reliable base =>
      refine hbegin.callTimer (c := .deliver s.nextMid src dst msg) rfl rfl ?_
        hslow
      refine fun _ => ⟨_, rfl, le_trans ?_ (le_max_left _ _)⟩
      exact le_add_of_nonneg_right (hs.latency_nonneg hok.2 src dst)
  | dropped => exact hbegin.of_loop rfl rfl
  | once base =>
      exact hbegin.callAt
        (le_add_of_nonneg_right (hs.latency_nonneg hok.2 src dst)) hslow
  | twice base extra =>
      have hfirst : OnTime ((s.beginSend src dst).callLater
          (base * s.slowFactor src dst) (.deliver s.nextMid src dst msg)) :=
        hbegin.callAt
          (le_add_of_nonneg_right (hs.latency_nonneg hok.2.1 src dst)) hslow
      have hsecond := hfirst.of_loop
        (t := (((s.beginSend src dst).callLater (base * s.slowFactor src dst)
          (.deliver s.nextMid src dst msg)).record
          (.message .duplicate s.nextMid src dst))) rfl rfl
      exact hsecond.callAt
        (le_add_of_nonneg_right (hs.latency_nonneg hok.2.2 src dst)) hslow

/-! ## Steps -/

theorem OnTime.pop {s : Net ρ μ υ} (hs : OnTime s)
    {h : Handle (Callback μ υ)} {rest : List (Handle (Callback μ υ))}
    (hready : s.loop.ready = h :: rest) :
    OnTime { s with loop := { s.loop with ready := rest } } where
  when? := hs.when?
  heap := hs.heap
  ready h' hh' := hs.ready h' (hready ▸ List.mem_cons_of_mem _ hh')
  slow := hs.slow
  slows h' hh' := hs.slows h' (by
    rw [Loop.pending, hready]
    exact List.mem_cons_of_mem _ hh')

theorem OnTime.runFault {s : Net ρ μ υ} (hs : OnTime s) {c : FaultCallback}
    (hc : Slows (.fault c : Callback μ υ)) : OnTime (s.runFault c) := by
  cases c with
  | beginSlowLink faultId pair factor =>
      refine ⟨hs.when?, hs.heap, hs.ready, ?_, hs.slows⟩
      intro e he
      rcases List.mem_cons.mp he with rfl | he
      · exact hc faultId pair factor rfl
      · exact hs.slow e ((List.kerase_sublist _ _).subset he)
  | endSlowLink faultId =>
      refine ⟨hs.when?, hs.heap, hs.ready, ?_, hs.slows⟩
      intro e he
      exact hs.slow e ((List.kerase_sublist _ _).subset he)
  | _ => exact hs.of_loop rfl rfl

theorem OnTime.runHandle {s : Net ρ μ υ} (hs : OnTime s)
    {h : Handle (Callback μ υ)} (hc : Slows h.callback) :
    OnTime (runHandle s h) := by
  unfold Net.runHandle
  split
  · exact hs
  · unfold runCallback
    split
    · exact hs
    · next mid src dst msg _ =>
      obtain ⟨_, _, heq⟩ := deliver_eq s mid src dst msg
      rw [heq]
      exact hs.of_loop rfl rfl
    · next c hcb => exact hs.runFault (hcb ▸ hc)
    · exact hs.finishSleep _
    · exact ⟨hs.when?, hs.heap, hs.ready, hs.slow, hs.slows⟩

/-- Before its batch a step takes the clock to no later than any live timer,
and not at all over a handle that is ready. -/
theorem OnTime.beginStep {s : Net ρ μ υ} (hh : Handles s) (hs : OnTime s)
    (stopStep : Bool) :
    OnTime { s with loop := (s.loop.beginStep stopStep).1 } := by
  obtain ⟨-, -, -, hle, hready, hsub, hpsub, hdue, -, htime⟩ :=
    Loop.beginStep_spec (l := s.loop) (b := stopStep) rfl
  have hlive : ∀ t ∈ s.loop.timers.entries,
      t.handle.callback.isNet = true → t.handle.id ∉ s.loop.cancelled :=
    fun t ht => hh.live (List.mem_append_right _ (List.mem_map_of_mem ht))
  have hahead : ∀ t ∈ s.loop.timers.entries,
      t.handle.callback.isNet = true →
      ∃ q, t.when = .fin q ∧ (s.loop.beginStep stopStep).1.time ≤ q := by
    intro t ht hnet
    obtain ⟨q, hq, hqle⟩ := hs.heap t ht hnet
    refine ⟨q, hq, ?_⟩
    rcases htime with heq | ⟨-, hall⟩
    · rw [heq]
      exact hqle
    · have := hall t ht (hlive t ht hnet)
      rwa [hq, When.fin_le_fin] at this
  refine ⟨fun t ht => hs.when? t (hsub.subset ht),
    fun t ht => hahead t (hsub.subset ht), ?_, hs.slow, ?_⟩
  · intro h hmem hnet
    show h.when? = some (.fin (s.loop.beginStep stopStep).1.time)
    have hmem : h ∈ (s.loop.beginStep stopStep).1.ready := hmem
    rw [hready] at hmem
    rcases List.mem_append.mp hmem with hmem | hmem
    · rw [Loop.beginStep_time_of_ready (List.ne_nil_of_mem hmem)]
      exact hs.ready h hmem hnet
    · obtain ⟨t, ht, rfl⟩ := List.mem_map.mp hmem
      obtain ⟨q, hq, hqle⟩ := hahead t (hpsub.subset ht) hnet
      have hwhen := (hdue t ht).1
      rw [hq, When.fin_le_fin] at hwhen
      rw [hs.when? t (hpsub.subset ht), hq, le_antisymm hwhen hqle]
  · intro h hmem
    exact hs.slows h ((s.loop.pending_beginStep stopStep).1.subset hmem)

variable [Random ρ]

theorem OnTime.step {s t : Net ρ μ υ} {a : Act μ υ} (hh : Handles s)
    (hs : OnTime s) (h : step s a = some t) : OnTime t := by
  cases a with
  | op o =>
      simp only [Net.step, Option.map_eq_some_iff] at h
      obtain ⟨⟨t', r⟩, hop, rfl⟩ := h
      rcases op_cases hop with ⟨_, _, msg, e, how, -, hsends⟩ | ⟨-, heff⟩
      · obtain ⟨g, f, rfl⟩ := hsends.eq
        have hdrawn : OnTime { s with netRng := g, faultsRng := f } :=
          hs.of_loop rfl rfl
        exact hdrawn.sendAs _ _ msg hsends.allowed
      · exact heff.invariant (fun he hs => he.onTime hs) hs
  | beginStep stopStep =>
      cases h
      exact hs.beginStep hh stopStep
  | runReady =>
      simp only [Net.step] at h
      split at h
      · cases h
      · next hd rest hready =>
        cases h
        refine (hs.pop hready).runHandle (hs.slows hd ?_)
        simp [Loop.pending, hready]
  | clearStop =>
      cases h
      exact ⟨hs.when?, hs.heap, hs.ready, hs.slow, hs.slows⟩

theorem run_onTime {g f : ρ} {s : Net ρ μ υ} {as : List (Act μ υ)}
    (h : Machine.run Net.step (init g f) as = some s) : OnTime s := by
  have hstart : Handles (init g f : Net ρ μ υ) ∧ OnTime (init g f : Net ρ μ υ) :=
    ⟨init_handles g f, init_onTime g f⟩
  exact (Machine.run_invariant (I := fun s : Net ρ μ υ => Handles s ∧ OnTime s)
    (fun hi hs => ⟨hi.1.freeStep (a := .act _) hs, hi.2.step hi.1 hs⟩)
    hstart h).2

end Net

end Seedloop
