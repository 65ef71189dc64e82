import Seedloop.Proofs.Accounting
import Seedloop.Proofs.Deadlock
import Seedloop.Proofs.FaultTrace

/-!
# A deadlock finds the network at rest

What the loop reports is that nothing is ready and no live timer is below
infinity. Every delivery, every end of a fault window and every sleeping
`run_for` is a timer of the network's own, which nothing cancels and which has
a moment below infinity; so at that point there is none. No message is on its
way, every fault that was scheduled is over, and no call of `run_for` waits:
what is stuck waits for a `recv` or for something of user code's own.

For deliveries and faults this is known of every handle of the network. That
the timer of a sleeping `run_for` stays is an invariant of its own, `Sleepers`.
Only two things could take it away, a cancellation by user code and the task's
own on its way out of `asyncio.sleep`, and neither has its number.
-/

namespace Seedloop

namespace Net

variable {ρ μ υ : Type}

/-- Every `run_for` that waits has its timer, and nothing takes it away. -/
structure Sleepers (s : Net ρ μ υ) : Prop where
  timer : ∀ fut ∈ s.sleeping, ∃ h ∈ s.loop.pending, h.id = fut ∧
    (∃ k, h.callback = .wake fut k) ∧ ∃ q, h.when? = some (.fin q)
  owned : ∀ fut ∈ s.sleeping, fut ∉ s.owned
  cancelled : ∀ fut ∈ s.sleeping, fut ∉ s.loop.cancelled
  resume : ∀ fut ∈ s.sleeping, ∀ h ∈ s.loop.pending,
    ∀ k, h.callback ≠ .resume fut k

theorem init_sleepers (g f : ρ) : Sleepers (init g f : Net ρ μ υ) := by
  constructor
  all_goals
    intro fut hfut
    exact absurd hfut (AList.notMem_empty fut)

/-- What leaves the sleepers as they are: no timer of theirs goes, nothing is
given the right to cancel one, and nothing new resumes one. -/
theorem Sleepers.frame {s t : Net ρ μ υ} (hs : Sleepers s) (hh : Handles s)
    (hsleep : ∀ fut ∈ t.sleeping, fut ∈ s.sleeping)
    (hpend : ∀ fut ∈ t.sleeping, ∀ h ∈ s.loop.pending, h.id = fut →
      h ∈ t.loop.pending)
    (howned : ∀ i ∈ t.owned, i ∈ s.owned ∨ i = s.loop.nextHandle)
    (hcancel : ∀ i ∈ t.loop.cancelled,
      i ∈ s.loop.cancelled ∨ i ∈ s.owned ∨ i ∉ t.sleeping)
    (hresume : ∀ h ∈ t.loop.pending, ∀ fut k, h.callback = .resume fut k →
      h ∈ s.loop.pending ∨ fut ∉ t.sleeping) : Sleepers t where
  timer fut hfut := by
    obtain ⟨h, hmem, hid, hc, hq⟩ := hs.timer fut (hsleep fut hfut)
    exact ⟨h, hpend fut hfut h hmem hid, hid, hc, hq⟩
  owned fut hfut hown := by
    rcases howned fut hown with hown | rfl
    · exact hs.owned fut (hsleep fut hfut) hown
    · exact (hh.token_lt (.inr (.inr (.inl (hsleep _ hfut))))).false
  cancelled fut hfut hc := by
    rcases hcancel fut hc with hc | hown | hno
    · exact hs.cancelled fut (hsleep fut hfut) hc
    · exact hs.owned fut (hsleep fut hfut) hown
    · exact hno hfut
  resume fut hfut h hmem k hc := by
    rcases hresume h hmem fut k hc with hold | hno
    · exact hs.resume fut (hsleep fut hfut) h hold k hc
    · exact hno hfut

/-- One more handle, which resumes nobody. -/
theorem Sleepers.push {s t : Net ρ μ υ} (hs : Sleepers s) (hh : Handles s)
    {n : Handle (Callback μ υ)}
    (hpend : t.loop.pending.Perm (n :: s.loop.pending))
    (hn : ∀ fut k, n.callback = .resume fut k → fut ∉ t.sleeping)
    (hsleep : ∀ fut ∈ t.sleeping, fut ∈ s.sleeping)
    (howned : ∀ i ∈ t.owned, i ∈ s.owned ∨ i = s.loop.nextHandle)
    (hcancel : t.loop.cancelled = s.loop.cancelled) : Sleepers t := by
  refine hs.frame hh hsleep ?_ howned (fun i hi => .inl (hcancel ▸ hi)) ?_
  · intro fut _ h hmem _
    exact hpend.symm.subset (List.mem_cons_of_mem _ hmem)
  · intro h hmem fut k hc
    rcases List.mem_cons.mp (hpend.subset hmem) with rfl | hmem
    · exact .inr (hn fut k hc)
    · exact .inl hmem

theorem Sleepers.of_loop {s t : Net ρ μ υ} (hs : Sleepers s) (hh : Handles s)
    (hl : t.loop = s.loop) (ho : t.owned = s.owned)
    (hsleep : t.sleeping = s.sleeping) : Sleepers t := by
  refine hs.frame hh (fun _ h => hsleep ▸ h) ?_ (fun _ h => .inl (ho ▸ h)) ?_ ?_
  · intro _ _ h hmem _
    exact hl ▸ hmem
  · intro i hi
    exact .inl (hl ▸ hi)
  · intro h hmem _ _ _
    exact .inl (hl ▸ hmem)

theorem Sleepers.record {s : Net ρ μ υ} (hs : Sleepers s) (hh : Handles s)
    (e : Event μ) : Sleepers (s.record e) := hs.of_loop hh rfl rfl rfl

theorem Sleepers.callAt {s : Net ρ μ υ} (hs : Sleepers s) (hh : Handles s)
    (when : ℚ) {c : Callback μ υ} (hc : c.isNet = true) :
    Sleepers (s.callAt when c) := by
  refine hs.push hh (s.loop.pending_callAt (.fin when) c) ?_ (fun _ h => h)
    (fun _ h => .inl h) rfl
  rintro fut k rfl
  cases hc

theorem Sleepers.schedule {s : Net ρ μ υ} (hs : Sleepers s) (hh : Handles s)
    (now : ℚ) (r : Resolved) : Sleepers (s.schedule now r) := by
  have hbegin : ∀ e : Event μ, Sleepers (recordAt
      { s with nextFaultId := s.nextFaultId + 1 } now e) :=
    fun e => hs.of_loop hh rfl rfl rfl
  have hbegin' : ∀ e : Event μ, Handles (recordAt
      { s with nextFaultId := s.nextFaultId + 1 } now e) :=
    fun e => hh.of_loop rfl rfl fun h => h
  cases r with
  | partition groups start stop =>
      exact ((hbegin _).callAt (hbegin' _) _ rfl).callAt
        ((hbegin' _).callAt _ rfl) _ rfl
  | slowLink a b factor start stop =>
      exact ((hbegin _).callAt (hbegin' _) _ rfl).callAt
        ((hbegin' _).callAt _ rfl) _ rfl
  | crash node at_ => exact (hbegin _).callAt (hbegin' _) _ rfl

theorem Sleepers.sendAs {s : Net ρ μ υ} (hs : Sleepers s) (hh : Handles s)
    (src dst : Address) (msg : μ) (how : Sent) :
    Sleepers (s.sendAs src dst msg how) := by
  have hbegin : Sleepers (s.beginSend src dst) := hs.of_loop hh rfl rfl rfl
  have hbegin' : Handles (s.beginSend src dst) :=
    hh.of_loop rfl rfl fun h => h
  cases how with
  | reliable base =>
      refine Sleepers.callAt (hbegin.of_loop hbegin' ?_ ?_ ?_)
        (hbegin'.of_loop ?_ ?_ ?_) _ rfl
      all_goals first | rfl | exact fun h => h
  | dropped => exact hbegin.of_loop hbegin' rfl rfl rfl
  | once base => exact hbegin.callAt hbegin' _ rfl
  | twice base extra =>
      have hfirst := hbegin.callAt hbegin' (s.loop.time +
        base * s.slowFactor src dst) (c := .deliver s.nextMid src dst msg) rfl
      have hfirst' := hbegin'.callAt (s.loop.time +
        base * s.slowFactor src dst) (c := .deliver s.nextMid src dst msg) rfl
      exact (hfirst.record hfirst' _).callAt (hfirst'.record _) _ rfl

/-- A `run_for` goes to sleep. -/
theorem Sleepers.sleep {s : Net ρ μ υ} (hs : Sleepers s) (hh : Handles s)
    (seconds : ℚ) (k : υ) : Sleepers (s.sleep seconds k) := by
  have hfresh : ∀ {i}, Token s i → i ≠ s.loop.nextHandle :=
    fun hi => (hh.token_lt hi).ne
  unfold Net.sleep
  dsimp only
  split
  · have hpend := s.loop.pending_callAt (.fin (s.loop.time + seconds))
      (.wake s.loop.nextHandle k)
    refine ⟨?_, ?_, ?_, ?_⟩
    · intro fut hfut
      rcases (AList.mem_insert _).mp hfut with rfl | hfut
      · exact ⟨_, hpend.symm.subset List.mem_cons_self, rfl, ⟨k, rfl⟩, _, rfl⟩
      · obtain ⟨h, hmem, hrest⟩ := hs.timer fut hfut
        exact ⟨h, hpend.symm.subset (List.mem_cons_of_mem _ hmem), hrest⟩
    · intro fut hfut hown
      rcases (AList.mem_insert _).mp hfut with rfl | hfut
      · exact hfresh (.inr (.inl hown)) rfl
      · exact hs.owned fut hfut hown
    · intro fut hfut hc
      rcases (AList.mem_insert _).mp hfut with rfl | hfut
      · exact hfresh (.inl hc) rfl
      · exact hs.cancelled fut hfut hc
    · intro fut hfut h hmem k' hc
      rcases List.mem_cons.mp (hpend.subset hmem) with rfl | hmem
      · cases hc
      · rcases (AList.mem_insert _).mp hfut with rfl | hfut
        · exact hfresh (.inr (.inr (.inr ⟨h, hmem, by rw [hc]; rfl⟩))) rfl
        · exact hs.resume fut hfut h hmem k' hc
  · refine hs.push hh (s.loop.pending_callSoon _) ?_ (fun _ h => h)
      (fun _ h => .inl h) rfl
    rintro fut k' hc hfut
    cases hc
    exact hfresh (.inr (.inr (.inl hfut))) rfl

/-- A `run_for` is woken or cancelled. -/
theorem Sleepers.finishSleep {s : Net ρ μ υ} (hs : Sleepers s)
    (hh : Handles s) (fut : ℕ) : Sleepers (s.finishSleep fut) := by
  unfold Net.finishSleep
  split
  · exact hs
  · next k _ =>
    refine hs.push hh (s.loop.pending_callSoon (.resume fut k)) ?_ ?_
      (fun _ h => .inl h) rfl
    · rintro fut' k' hc hfut
      cases hc
      exact (AList.mem_erase.mp hfut).1 rfl
    · exact fun _ h => (AList.mem_erase.mp h).2

theorem Effect.sleepers {s t : Net ρ μ υ} (h : Effect s t) (hh : Handles s)
    (hs : Sleepers s) : Sleepers t := by
  cases h with
  | draws | setPartition | bind | inbox | record =>
      exact hs.of_loop hh rfl rfl rfl
  | userSoon k =>
      refine hs.push hh (s.loop.pending_callSoon (.user k)) ?_ (fun _ h => h)
        (fun i hi => (Finset.mem_insert.mp hi).symm) rfl
      rintro fut k' ⟨⟩
  | userTimer when k =>
      refine hs.push hh (s.loop.pending_callAt when (.user k)) ?_ (fun _ h => h)
        (fun i hi => (Finset.mem_insert.mp hi).symm) rfl
      rintro fut k' ⟨⟩
  | cancel handle hown =>
      refine hs.frame hh (fun _ h => h) (fun _ _ _ h _ => h)
        (fun _ h => .inl h) ?_ (fun _ h _ _ _ => .inl h)
      intro i hi
      rcases Finset.mem_insert.mp hi with rfl | hi
      · exact .inr (.inl hown)
      · exact .inl hi
  | stop =>
      exact ⟨hs.timer, hs.owned, hs.cancelled, hs.resume⟩
  | schedule seconds r _ => exact hs.schedule hh _ r
  | sleep seconds k => exact hs.sleep hh seconds k
  | cancelRunFor fut =>
      have hgiven : Sleepers { s with abandoned := insert fut s.abandoned } :=
        hs.of_loop hh rfl rfl rfl
      exact hgiven.finishSleep (hh.of_loop rfl rfl fun h => h) fut

/-- The handle that runs is the timer of a sleeper only if it wakes it. -/
theorem Sleepers.wake_of_id {s : Net ρ μ υ} (hs : Sleepers s) (hh : Handles s)
    {h : Handle (Callback μ υ)} (hmem : h ∈ s.loop.pending)
    (hin : h.id ∈ s.sleeping) : ∃ k, h.callback = .wake h.id k := by
  obtain ⟨h', hmem', hid, hwake, -⟩ := hs.timer h.id hin
  obtain rfl := hh.eq_of_id hmem' hmem hid
  exact hwake

/-- A handle runs. If it wakes one of the sleepers, that is one no more. -/
theorem Sleepers.runReady {s : Net ρ μ υ} (hs : Sleepers s) (hh : Handles s)
    {h : Handle (Callback μ υ)} {rest : List (Handle (Callback μ υ))}
    (hready : s.loop.ready = h :: rest) :
    Sleepers
      (runHandle { s with loop := { s.loop with ready := rest } } h) := by
  have hpend : s.loop.pending =
      h :: rest ++ s.loop.timers.entries.map Timer.handle := by
    rw [Loop.pending, hready]
  have hmem : h ∈ s.loop.pending := by simp [hpend]
  have hkept : ∀ h' ∈ s.loop.pending, h'.id ≠ h.id →
      h' ∈ rest ++ s.loop.timers.entries.map Timer.handle := by
    intro h' hmem' hid
    rw [hpend] at hmem'
    rcases List.mem_cons.mp hmem' with rfl | hmem'
    · exact absurd rfl hid
    · exact hmem'
  have hold : ∀ h' ∈ rest ++ s.loop.timers.entries.map Timer.handle,
      h' ∈ s.loop.pending :=
    fun h' hmem' => hpend ▸ List.mem_cons_of_mem _ hmem'
  have hpop : h.id ∉ s.sleeping →
      Sleepers { s with loop := { s.loop with ready := rest } } := by
    intro hno
    refine hs.frame hh (fun _ h => h) ?_ (fun _ h => .inl h)
      (fun _ h => .inl h) (fun h' hmem' _ _ _ => .inl (hold h' hmem'))
    rintro fut hfut h' hmem' rfl
    refine hkept h' hmem' fun hid => hno ?_
    rwa [← hid]
  have hpop' : Handles { s with loop := { s.loop with ready := rest } } :=
    hh.takes (takes_pop hready)
  have hother : (∀ fut k, h.callback ≠ .wake fut k) → h.id ∉ s.sleeping := by
    intro hne hin
    obtain ⟨k, hk⟩ := hs.wake_of_id hh hmem hin
    exact hne _ k hk
  unfold Net.runHandle
  split
  · next hc =>
    exact hpop fun hin => hs.cancelled _ hin (of_decide_eq_true hc)
  · cases hc : h.callback with
    | user k => exact hpop (hother (by simp [hc]))
    | deliver mid src dst msg =>
        obtain ⟨timeline, endpoints, heq⟩ := deliver_eq
          { s with loop := { s.loop with ready := rest } } mid src dst msg
        rw [runCallback, heq]
        exact (hpop (hother (by simp [hc]))).of_loop hpop' rfl rfl rfl
    | fault c =>
        refine (hpop (hother (by simp [hc]))).of_loop hpop' (runFault_loop _ c)
          ?_ ?_
        · cases c <;> rfl
        · cases c <;> rfl
    | wake fut k =>
        by_cases hin : h.id ∈ s.sleeping
        · -- Its own timer: it is a sleeper no more.
          obtain ⟨k', hk'⟩ := hs.wake_of_id hh hmem hin
          rw [hc, Callback.wake.injEq] at hk'
          obtain ⟨hfut, -⟩ := hk'
          obtain ⟨k'', hlook⟩ :=
            Option.isSome_iff_exists.mp (AList.lookup_isSome.mpr hin)
          rw [← hfut] at hlook
          simp only [runCallback, Net.finishSleep, hlook]
          have hpush := Loop.pending_callSoon { s.loop with ready := rest }
            (.resume fut k'' : Callback μ υ)
          refine hs.frame hh (fun _ h => (AList.mem_erase.mp h).2) ?_
            (fun _ h => .inl h) (fun _ h => .inl h) ?_
          · rintro fut' hfut' h' hmem' rfl
            refine hpush.symm.subset (List.mem_cons_of_mem _ ?_)
            refine hkept h' hmem' fun hid => ?_
            exact (AList.mem_erase.mp hfut').1 (hid.trans hfut.symm)
          · intro h' hmem' fut' k₀ hc'
            rcases List.mem_cons.mp (hpush.subset hmem') with rfl | hmem'
            · cases hc'
              exact .inr fun hfut' => (AList.mem_erase.mp hfut').1 rfl
            · exact .inl (hold h' hmem')
        · exact (hpop hin).finishSleep hpop' fut
    | resume fut k =>
        refine hs.frame hh (fun _ h => h) ?_ (fun _ h => .inl h) ?_
          (fun h' hmem' _ _ _ => .inl (hold h' hmem'))
        · rintro fut' hfut' h' hmem' rfl
          refine hkept h' hmem' fun hid => ?_
          exact hother (by simp [hc]) (hid ▸ hfut')
        · intro i hi
          rcases Finset.mem_insert.mp hi with rfl | hi
          · exact .inr (.inr fun hin => hs.resume _ hin h hmem k hc)
          · exact .inl hi

theorem Sleepers.beginStep {s : Net ρ μ υ} (hs : Sleepers s) (hh : Handles s)
    (stopStep : Bool) :
    Sleepers { s with loop := (s.loop.beginStep stopStep).1 } := by
  obtain ⟨hsub, hfilter⟩ := s.loop.pending_beginStep stopStep
  obtain ⟨hc, -⟩ := Loop.beginStep_spec (l := s.loop) (b := stopStep) rfl
  refine hs.frame hh (fun _ h => h) ?_ (fun _ h => .inl h) ?_
    (fun h' hmem' _ _ _ => .inl (hsub.subset hmem'))
  · rintro fut hfut h hmem rfl
    have hkeep := hfilter (fun x => x.id = h.id) (by
      intro t _ hid
      rw [of_decide_eq_true hid]
      exact hs.cancelled _ hfut)
    have hin : h ∈ s.loop.pending.filter fun x => x.id = h.id :=
      List.mem_filter.mpr ⟨hmem, by simp⟩
    rw [← hkeep] at hin
    exact List.mem_of_mem_filter hin
  · intro i hi
    exact .inl (hc ▸ hi)

variable [Random ρ]

theorem Sleepers.step {s t : Net ρ μ υ} {a : Act μ υ} (hs : Sleepers s)
    (hh : Handles s) (h : step s a = some t) : Sleepers t := by
  cases a with
  | op o =>
      simp only [Net.step, Option.map_eq_some_iff] at h
      obtain ⟨⟨t', r⟩, hop, rfl⟩ := h
      rcases op_cases hop with ⟨_, _, msg, e, how, -, hsends⟩ | ⟨-, heff⟩
      · obtain ⟨g, f, rfl⟩ := hsends.eq
        have hdrawn : Sleepers { s with netRng := g, faultsRng := f } :=
          hs.of_loop hh rfl rfl rfl
        exact hdrawn.sendAs (hh.of_loop rfl rfl fun h => h) _ _ msg how
      · exact (heff.invariant (I := fun s : Net ρ μ υ => Handles s ∧ Sleepers s)
          (fun he hi => ⟨he.handles hi.1, he.sleepers hi.1 hi.2⟩) ⟨hh, hs⟩).2
  | beginStep stopStep =>
      cases h
      exact hs.beginStep hh stopStep
  | runReady =>
      simp only [Net.step] at h
      split at h
      · cases h
      · next hd rest hready =>
        cases h
        exact hs.runReady hh hready
  | clearStop =>
      cases h
      exact ⟨hs.timer, hs.owned, hs.cancelled, hs.resume⟩

theorem run_sleepers {g f : ρ} {s : Net ρ μ υ} {as : List (Act μ υ)}
    (h : Machine.run Net.step (init g f) as = some s) : Sleepers s := by
  have hstart : Handles (init g f : Net ρ μ υ) ∧
      Sleepers (init g f : Net ρ μ υ) :=
    ⟨init_handles g f, init_sleepers g f⟩
  exact (Machine.run_invariant
    (I := fun s : Net ρ μ υ => Handles s ∧ Sleepers s)
    (fun hi hs => ⟨hi.1.freeStep (a := .act _) hs, hi.2.step hi.1 hs⟩)
    hstart h).2

/-! ## What a deadlock finds -/

omit [Random ρ] in
/-- A handle that is not cancelled and has a moment is not there when nothing
can happen any more. -/
theorem not_pending_of_quiescent {s : Net ρ μ υ} (hq : s.loop.Quiescent)
    (hot : OnTime s) {h : Handle (Callback μ υ)}
    (hlive : h.id ∉ s.loop.cancelled) {q : ℚ}
    (hwhen : h.when? = some (.fin q)) : h ∉ s.loop.pending := by
  intro hmem
  rw [Loop.pending, hq.1, List.nil_append] at hmem
  obtain ⟨τ, hτ, rfl⟩ := List.mem_map.mp hmem
  have hinf := hq.2 τ (Loop.mem_live.mpr ⟨hτ, hlive⟩)
  rw [hot.when? τ hτ, hinf] at hwhen
  cases hwhen

omit [Random ρ] in
theorem net_moment {s : Net ρ μ υ} (hot : OnTime s)
    {h : Handle (Callback μ υ)} (hmem : h ∈ s.loop.pending)
    (hnet : h.callback.isNet = true) : ∃ q, h.when? = some (.fin q) := by
  rcases List.mem_append.mp hmem with hready | htimer
  · exact ⟨_, hot.ready h hready hnet⟩
  · obtain ⟨τ, hτ, rfl⟩ := List.mem_map.mp htimer
    obtain ⟨q, hq, -⟩ := hot.heap τ hτ hnet
    exact ⟨q, by rw [hot.when? τ hτ, hq]⟩

omit [Random ρ] in
theorem eq_empty_of_lookup {κ : Type} {m : AList fun _ : ℕ => κ}
    (h : ∀ i, m.lookup i = none) : m = ∅ := by
  refine AList.ext ?_
  refine List.eq_nil_iff_forall_not_mem.mpr fun e he => ?_
  have hkey : e.1 ∈ m := AList.mem_keys.mpr (List.mem_map_of_mem he)
  obtain ⟨x, hx⟩ := Option.isSome_iff_exists.mp (AList.lookup_isSome.mpr hkey)
  rw [h] at hx
  cases hx

/-- A deadlock finds the network at rest. Whenever a step of the loop would
report one: no message is under way, so each that was not dropped as it was
sent has ended as often as there were copies of it; every fault that was
scheduled has done all it was to do, each event at the time recorded when it
was scheduled; no window is open; and no `run_for` sleeps. -/
theorem deadlock_at_rest {g f : ρ} {as : List (Act μ υ)} {s : Net ρ μ υ}
    (h : Machine.run Net.step (init g f) as = some s) {stopStep : Bool}
    (hdead : (s.loop.beginStep stopStep).2 = true) :
    (∀ mid, s.underWay mid = 0) ∧
    (∀ mid < s.nextMid, s.events .drop mid = 0 →
      s.ended mid = 1 + s.events .duplicate mid) ∧
    (∀ i < s.nextFaultId, ∃ (now : ℚ) (r : Resolved),
      s.timeline.filter (fun e => e.2.about? = some i) =
        (now, r.scheduled i now) ::
          (r.timers i now).map (fun x => (x.1, x.2.event))) ∧
    s.faultPartitions = ∅ ∧ s.faultSlowLinks = ∅ ∧ s.sleeping = ∅ := by
  have hq : s.loop.Quiescent := (Loop.beginStep_deadlock.mp hdead).1
  have hh := run_handles h
  have hot := run_onTime h
  have hnone : ∀ hd ∈ s.loop.pending, hd.callback.isNet = false := by
    intro hd hmem
    by_contra hnet
    rw [Bool.not_eq_false] at hnet
    obtain ⟨q, hwhen⟩ := net_moment hot hmem hnet
    exact not_pending_of_quiescent hq hot (hh.live hmem hnet) hwhen hmem
  have hway : ∀ mid, s.underWay mid = 0 := by
    intro mid
    rw [Net.underWay, List.countP_eq_zero]
    intro hd hmem hdel
    have hnet := hnone hd hmem
    cases hc : hd.callback with
    | deliver => simp [hc, Callback.isNet] at hnet
    | _ => simp [hc, Callback.delivers] at hdel
  -- An account without a timer that waits is one to its end.
  have hover : ∀ i, (s.faultPartitions.lookup i = none ∧
      s.faultSlowLinks.lookup i = none) ∧
      (i < s.nextFaultId → ∃ (now : ℚ) (r : Resolved),
        s.timeline.filter (fun e => e.2.about? = some i) =
          (now, r.scheduled i now) ::
            (r.timers i now).map (fun x => (x.1, x.2.event))) := by
    intro i
    obtain ⟨hgiven, hnot⟩ := run_ledger h i
    by_cases hi : i < s.nextFaultId
    · obtain ⟨now, r, done, rest, hsplit, hevents, htimers, hp, hl⟩ := hgiven hi
      have htaken : (s.account i).timers = [] := by
        refine List.filter_eq_nil_iff.mpr fun hd hmem hid => ?_
        have hnet := hnone hd hmem
        cases hc : hd.callback with
        | fault c => simp [hc, Callback.isNet] at hnet
        | _ => simp [hc, Callback.faultId?] at hid
      rw [htaken, List.map_nil] at htimers
      obtain rfl := List.map_eq_nil_iff.mp htimers.symm
      rw [List.append_nil] at hsplit
      have hp : s.faultPartitions.lookup i = _ := hp
      have hl : s.faultSlowLinks.lookup i = _ := hl
      rw [hp, hl, ← hsplit]
      refine ⟨?_, fun _ => ⟨now, r, ?_⟩⟩
      · cases r <;> exact ⟨rfl, rfl⟩
      · rw [hsplit]
        exact hevents
    · have hacc := hnot (not_lt.mp hi)
      exact ⟨⟨congrArg Account.partition hacc, congrArg Account.slowLink hacc⟩,
        fun hlt => absurd hlt hi⟩
  refine ⟨hway, ?_, fun i hi => (hover i).2 hi,
    eq_empty_of_lookup fun i => (hover i).1.1,
    eq_empty_of_lookup fun i => (hover i).1.2, eq_empty_of_lookup fun fut => ?_⟩
  · intro mid hlt hdrop
    have htotal := ((freeRun_accounted (run_free h)).balanced mid).total
    rw [hway mid, hdrop, if_pos hlt] at htotal
    exact htotal
  · rw [AList.lookup_eq_none]
    intro hin
    have hs := run_sleepers h
    obtain ⟨hd, hmem, hid, -, q, hwhen⟩ := hs.timer fut hin
    refine not_pending_of_quiescent hq hot ?_ hwhen hmem
    rw [hid]
    exact hs.cancelled fut hin

/-- A message is cut off by a fault, `run_for` returns, and a `recv` is left to
wait for ever. -/
def leftWaiting : List (Act Unit ℕ) :=
  [.op (.bind 1 false (.int 0) (.int 0)),
    .op (.bind 2 false (.int 0) (.int 0)), .op (.recv 2 7 false),
    .op (.runFor (.int 1) [.partition [{1}, {2}]] 0 0), .beginStep false,
    .runReady, .op (.send 1 2 ()), .beginStep false, .runReady,
    .beginStep false, .runReady, .beginStep false, .runReady,
    .beginStep false, .runReady]

omit [Random ρ] in
theorem deadlock_at_rest_leftWaiting : ∃ s : Net Toggle Unit ℕ,
    Machine.run Net.step (init Toggle.low Toggle.low) leftWaiting = some s ∧
    (s.loop.beginStep false).2 = true ∧ s.underWay 0 = 0 ∧ s.ended 0 = 1 ∧
    s.faultPartitions = ∅ ∧ s.sleeping = ∅ := by
  have hrun : (Machine.run Net.step (init Toggle.low Toggle.low)
      leftWaiting).isSome := by decide +kernel
  obtain ⟨s, hs⟩ := Option.isSome_iff_exists.mp hrun
  have hseen : (s.loop.beginStep false).2 = true ∧ 0 < s.nextMid ∧
      s.events .drop 0 = 0 ∧ s.events .duplicate 0 = 0 := by
    have := congrArg (Option.map fun s => decide
      ((s.loop.beginStep false).2 = true ∧ 0 < s.nextMid ∧
        s.events .drop 0 = 0 ∧ s.events .duplicate 0 = 0)) hs
    exact of_decide_eq_true (Option.some.inj (this.symm.trans
      (by decide +kernel)))
  obtain ⟨hdead, hlt, hdrop, hdup⟩ := hseen
  obtain ⟨hway, hended, -, hp, -, hsleep⟩ := deadlock_at_rest hs hdead
  have hone := hended 0 hlt hdrop
  rw [hdup] at hone
  exact ⟨s, hs, hdead, hway 0, hone, hp, hsleep⟩

end Net

end Seedloop
