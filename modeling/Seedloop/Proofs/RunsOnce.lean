import Seedloop.Proofs.Latency

/-!
# No callback is lost, run twice or overtaken

Handles are numbered as they are made, and a number that was given out is in
one place: among those that ran, on the ready queue or in the heap. Only a
cancelled one can be nowhere, since the loop drops it where it finds it. The
ready queue is a queue: what is on it at any moment runs before anything that
is put on it later, in the order in which it stands there.

Whatever the network or user code does to the loop between two pops, it adds
handles (`Adds`); so this needs no case for any of them but that it does.
-/

namespace Seedloop

namespace Loop

variable {κ : Type}

/-- Handles were added, under the next numbers, and none was taken. -/
structure Adds (l l' : Loop κ) : Prop where
  pending : ∃ new : List (Handle κ), l'.pending.Perm (new ++ l.pending) ∧
    (new.map Handle.id).Perm (List.range' l.nextHandle new.length) ∧
    l'.nextHandle = l.nextHandle + new.length
  ready : l.ready.IsPrefix l'.ready
  cancelled : l.cancelled ⊆ l'.cancelled

theorem Adds.of_pending {l l' : Loop κ} (hp : l'.pending = l.pending)
    (hn : l'.nextHandle = l.nextHandle) (hr : l'.ready = l.ready)
    (hc : l.cancelled ⊆ l'.cancelled) : Adds l l' :=
  ⟨⟨[], by rw [hp]; exact .refl _, .refl _, hn⟩, by rw [hr], hc⟩

theorem Adds.refl (l : Loop κ) : Adds l l :=
  .of_pending rfl rfl rfl Finset.Subset.rfl

theorem Adds.trans {l m n : Loop κ} (h : Adds l m) (h' : Adds m n) :
    Adds l n where
  pending := by
    obtain ⟨new, hperm, hids, hnext⟩ := h.pending
    obtain ⟨new', hperm', hids', hnext'⟩ := h'.pending
    refine ⟨new' ++ new, ?_, ?_, ?_⟩
    · rw [List.append_assoc]
      exact hperm'.trans (hperm.append_left new')
    · rw [hnext] at hids'
      rw [List.map_append, List.length_append, Nat.add_comm,
        ← List.range'_append_1]
      exact (hids'.append hids).trans List.perm_append_comm
    · rw [hnext', hnext, List.length_append]
      omega
  ready := h.ready.trans h'.ready
  cancelled := h.cancelled.trans h'.cancelled

theorem Adds.callSoon (l : Loop κ) (c : κ) : Adds l (l.callSoon c) where
  pending := ⟨[_], l.pending_callSoon c, .refl _, rfl⟩
  ready := List.prefix_append _ _
  cancelled := Finset.Subset.rfl

theorem Adds.callAt (l : Loop κ) (when : When) (c : κ) :
    Adds l (l.callAt when c) where
  pending := ⟨[_], l.pending_callAt when c, .refl _, rfl⟩
  ready := List.prefix_rfl
  cancelled := Finset.Subset.rfl

theorem Adds.cancel (l : Loop κ) (id : ℕ) : Adds l (l.cancel id) :=
  .of_pending rfl rfl rfl (Finset.subset_insert _ _)

/-! ## The invariant -/

/-- Where the numbers are that were given out, `ran` being the handles that
were taken off the ready queue. -/
structure Once (l : Loop κ) (ran : List (Handle κ)) : Prop where
  lt : ∀ h ∈ ran ++ l.pending, h.id < l.nextHandle
  nodup : ((ran ++ l.pending).map Handle.id).Nodup
  all : ∀ i < l.nextHandle, i ∉ l.cancelled →
    i ∈ (ran ++ l.pending).map Handle.id

theorem init_once : Once (init : Loop κ) [] := by
  constructor
  all_goals simp [init, pending]

theorem Once.adds {l l' : Loop κ} {ran : List (Handle κ)} (hs : Once l ran)
    (h : Adds l l') : Once l' ran := by
  obtain ⟨new, hperm, hids, hnext⟩ := h.pending
  have hall : (ran ++ l'.pending).Perm (new ++ (ran ++ l.pending)) := by
    refine (hperm.append_left ran).trans ?_
    rw [← List.append_assoc, ← List.append_assoc]
    exact List.perm_append_comm.append_right _
  have hnew : ∀ h ∈ new, l.nextHandle ≤ h.id ∧ h.id < l'.nextHandle := by
    intro h hmem
    have := List.mem_range'_1.mp (hids.subset (List.mem_map_of_mem hmem))
    omega
  refine ⟨?_, ?_, ?_⟩
  · intro h hmem
    rcases List.mem_append.mp (hall.subset hmem) with hmem | hmem
    · exact (hnew h hmem).2
    · have := hs.lt h hmem
      omega
  · rw [(hall.map Handle.id).nodup_iff, List.map_append,
      List.nodup_append']
    refine ⟨hids.nodup_iff.mpr List.nodup_range', hs.nodup, ?_⟩
    intro i hi hold
    obtain ⟨h, hmem, rfl⟩ := List.mem_map.mp hi
    obtain ⟨h', hmem', heq⟩ := List.mem_map.mp hold
    have := (hnew h hmem).1
    have := hs.lt h' hmem'
    omega
  · intro i hi hc
    refine (hall.map Handle.id).symm.subset ?_
    rw [List.map_append, List.mem_append]
    by_cases hlt : i < l.nextHandle
    · exact .inr (hs.all i hlt fun hin => hc (h.cancelled hin))
    · refine .inl (hids.symm.subset (List.mem_range'_1.mpr ?_))
      omega

/-- Before a batch only cancelled timers go. -/
theorem Once.beginStep {l : Loop κ} {ran : List (Handle κ)} (hs : Once l ran)
    (stopStep : Bool) : Once (l.beginStep stopStep).1 ran := by
  obtain ⟨hc, -, hn, -⟩ := beginStep_spec (l := l) (b := stopStep) rfl
  obtain ⟨hsub, hkept⟩ := l.pending_beginStep stopStep
  have hsub' : (ran ++ (l.beginStep stopStep).1.pending).Sublist
      (ran ++ l.pending) := (List.Sublist.refl ran).append hsub
  refine ⟨?_, hs.nodup.sublist (hsub'.map _), ?_⟩
  · intro h hmem
    rw [hn]
    exact hs.lt h (hsub'.subset hmem)
  · intro i hi hlive
    rw [hn] at hi
    rw [hc] at hlive
    have hold := hs.all i hi hlive
    rw [List.map_append, List.mem_append] at hold ⊢
    refine hold.imp_right fun hold => ?_
    obtain ⟨h, hmem, rfl⟩ := List.mem_map.mp hold
    have hsame := hkept (fun x => x.id = h.id) (by
      intro t _ hid
      rwa [of_decide_eq_true hid])
    have hin : h ∈ l.pending.filter fun x => x.id = h.id :=
      List.mem_filter.mpr ⟨hmem, by simp⟩
    rw [← hsame] at hin
    exact List.mem_map_of_mem (List.mem_of_mem_filter hin)

theorem ready_beginStep (l : Loop κ) (stopStep : Bool) :
    l.ready.IsPrefix (l.beginStep stopStep).1.ready := by
  obtain ⟨-, -, -, -, hready, -⟩ := beginStep_spec (l := l) (b := stopStep) rfl
  rw [hready]
  exact List.prefix_append _ _

theorem Once.pop {l : Loop κ} {ran : List (Handle κ)} (hs : Once l ran)
    {h : Handle κ} {rest : List (Handle κ)} (hready : l.ready = h :: rest) :
    Once { l with ready := rest } (ran ++ [h]) := by
  have hpend : (ran ++ [h]) ++ ({ l with ready := rest } : Loop κ).pending =
      ran ++ l.pending := by
    simp [pending, hready]
  refine ⟨?_, ?_, ?_⟩
  all_goals rw [hpend]
  · exact hs.lt
  · exact hs.nodup
  · exact hs.all

end Loop

namespace Net

variable {ρ μ υ : Type}

open Loop (Adds Once)

/-! ## Between two pops handles are only added -/

theorem schedule_adds (s : Net ρ μ υ) (r : Resolved) :
    Adds s.loop (s.schedule s.loop.time r).loop := by
  cases r with
  | partition groups start stop =>
      exact (Adds.callAt s.loop _ _).trans (.callAt _ _ _)
  | slowLink a b factor start stop =>
      exact (Adds.callAt s.loop _ _).trans (.callAt _ _ _)
  | crash node at_ => exact .callAt s.loop _ _

theorem sendAs_adds (s : Net ρ μ υ) (src dst : Address) (msg : μ)
    (how : Sent) : Adds s.loop (s.sendAs src dst msg how).loop := by
  cases how with
  | reliable base => exact .callAt s.loop _ _
  | dropped => exact .refl s.loop
  | once base => exact .callAt s.loop _ _
  | twice base extra => exact (Adds.callAt s.loop _ _).trans (.callAt _ _ _)

theorem sleep_adds (s : Net ρ μ υ) (seconds : ℚ) (k : υ) :
    Adds s.loop (s.sleep seconds k).loop := by
  unfold Net.sleep
  dsimp only
  split
  · exact .callAt s.loop _ _
  · exact .callSoon s.loop _

theorem finishSleep_adds (s : Net ρ μ υ) (fut : ℕ) :
    Adds s.loop (s.finishSleep fut).loop := by
  unfold Net.finishSleep
  split
  · exact .refl s.loop
  · exact .callSoon s.loop _

theorem Effect.adds {s t : Net ρ μ υ} (h : Effect s t) :
    Adds s.loop t.loop := by
  cases h with
  | draws | setPartition | bind | inbox | record => exact .refl s.loop
  | userSoon k => exact .callSoon s.loop _
  | userTimer when k => exact .callAt s.loop _ _
  | cancel handle _ => exact .cancel s.loop handle
  | stop => exact .of_pending rfl rfl rfl Finset.Subset.rfl
  | schedule seconds r _ => exact schedule_adds s r
  | sleep seconds k => exact sleep_adds s seconds k
  | cancelRunFor fut =>
      exact finishSleep_adds { s with abandoned := insert fut s.abandoned } fut

theorem Effects.adds {s t : Net ρ μ υ} (h : Effects s t) :
    Adds s.loop t.loop :=
  h.invariant (I := fun t => Adds s.loop t.loop)
    (fun he hs => hs.trans he.adds) (.refl _)

theorem Sends.adds {s t : Net ρ μ υ} {src dst : Address} {msg : μ}
    {endpoint : Endpoint μ} {how : Sent}
    (h : Sends s t src dst msg endpoint how) : Adds s.loop t.loop := by
  obtain ⟨g, f, rfl⟩ := h.eq
  exact sendAs_adds { s with netRng := g, faultsRng := f } _ dst msg how

theorem runCallback_adds (s : Net ρ μ υ) (c : Callback μ υ) :
    Adds s.loop (s.runCallback c).loop := by
  cases c with
  | user k => exact .refl s.loop
  | deliver mid src dst msg =>
      have hloop : (s.deliver mid src dst msg).loop = s.loop := by
        unfold Net.deliver
        split
        · rfl
        · split
          · rfl
          · dsimp only
            split <;> rfl
      exact .of_pending (congrArg _ hloop) (congrArg _ hloop)
        (congrArg _ hloop) (by simp [runCallback, hloop])
  | fault c => cases c <;> exact .refl s.loop
  | wake fut k => exact finishSleep_adds s fut
  | resume fut k => exact .cancel s.loop fut

variable [Random ρ]

/-! ## What a step runs -/

/-- The handle a step takes off the ready queue: one whose callback runs or, if
it was cancelled since it got there, is skipped. -/
def ranBy (s : Net ρ μ υ) : Act μ υ → List (Handle (Callback μ υ))
  | .runReady => s.loop.ready.take 1
  | _ => []

/-- A step takes from the front of the ready queue, and puts at its end. -/
theorem step_once {s t : Net ρ μ υ} {a : Act μ υ}
    {ran : List (Handle (Callback μ υ))} (h : step s a = some t)
    (hs : Once s.loop ran) :
    Once t.loop (ran ++ ranBy s a) ∧
    s.loop.ready.IsPrefix (ranBy s a ++ t.loop.ready) := by
  cases a with
  | op o =>
      simp only [step, Option.map_eq_some_iff] at h
      obtain ⟨⟨t', r⟩, hop, rfl⟩ := h
      have hadds : Adds s.loop t'.loop := by
        rcases op_cases hop with ⟨_, _, _, _, _, -, hsends⟩ | ⟨-, heff⟩
        · exact hsends.adds
        · exact heff.adds
      simp only [ranBy, List.append_nil, List.nil_append]
      exact ⟨hs.adds hadds, hadds.ready⟩
  | beginStep stopStep =>
      simp only [step, Option.some.injEq] at h
      subst h
      simp only [ranBy, List.append_nil, List.nil_append]
      exact ⟨hs.beginStep stopStep, s.loop.ready_beginStep stopStep⟩
  | runReady =>
      simp only [step] at h
      split at h
      · cases h
      · next hd rest hready =>
        simp only [Option.some.injEq] at h
        subst h
        have hran : ranBy s .runReady = [hd] := by simp [ranBy, hready]
        have hadds : Adds { s.loop with ready := rest } (runHandle
            { s with loop := { s.loop with ready := rest } } hd).loop := by
          unfold runHandle
          split
          · exact .refl _
          · exact runCallback_adds
              { s with loop := { s.loop with ready := rest } } hd.callback
        rw [hran, hready]
        refine ⟨(hs.pop hready).adds hadds, ?_⟩
        exact (List.prefix_cons_inj hd).mpr hadds.ready
  | clearStop =>
      cases h
      simp only [ranBy, List.append_nil, List.nil_append]
      exact ⟨hs.adds (.of_pending rfl rfl rfl Finset.Subset.rfl),
        List.prefix_rfl⟩

theorem run_once {g f : ρ} {s : Net ρ μ υ} {as : List (Act μ υ)}
    (h : Machine.run step (init g f) as = some s) :
    Once s.loop (Machine.outputs step ranBy (init g f) as) := by
  have hkept : Once s.loop ([] ++ Machine.outputs step ranBy (init g f) as) :=
    Machine.run_outputs_invariant (I := fun s ran => Once s.loop ran)
      (fun hs h => (step_once h hs).1) Loop.init_once h
  rwa [List.nil_append] at hkept

/-- What is on the ready queue is what runs next. -/
theorem run_ready {r s : Net ρ μ υ} {as : List (Act μ υ)}
    {ran : List (Handle (Callback μ υ))} (hr : Once r.loop ran)
    (h : Machine.run step r as = some s) :
    r.loop.ready.IsPrefix
      (Machine.outputs step ranBy r as ++ s.loop.ready) := by
  have hstep : ∀ {s : Net ρ μ υ} {a : Act μ υ} {t : Net ρ μ υ}
      {more : List (Handle (Callback μ υ))}, (Once s.loop (ran ++ more) ∧
      r.loop.ready.IsPrefix (more ++ s.loop.ready)) → step s a = some t →
      Once t.loop (ran ++ (more ++ ranBy s a)) ∧
        r.loop.ready.IsPrefix (more ++ ranBy s a ++ t.loop.ready) := by
    rintro s a t more ⟨hs, hready⟩ h
    obtain ⟨honce, hfront⟩ := step_once h hs
    rw [List.append_assoc] at honce
    refine ⟨honce, hready.trans ?_⟩
    rw [List.append_assoc]
    exact (List.prefix_append_right_inj more).mpr hfront
  have hkept := Machine.run_outputs_invariant
    (I := fun s more => Once s.loop (ran ++ more) ∧
      r.loop.ready.IsPrefix (more ++ s.loop.ready)) hstep
    ⟨by rwa [List.append_nil], List.prefix_rfl⟩ h
  exact hkept.2

/-- Callbacks. In any run, with `r` somewhere on the way to `s`: no handle is
taken off the ready queue twice; every handle that was ever made and not
cancelled was either taken off it or still waits, in one place; and what stood
on the ready queue at `r` is what was taken off it after that, in the order in
which it stood there and before anything that came later. -/
theorem callbacks_once {g f : ρ} {before after : List (Act μ υ)}
    {r s : Net ρ μ υ} (hr : Machine.run step (init g f) before = some r)
    (hs : Machine.run step r after = some s) :
    ((Machine.outputs step ranBy (init g f) (before ++ after)).map
      Handle.id).Nodup ∧
    (∀ i < s.loop.nextHandle, i ∉ s.loop.cancelled →
      ((Machine.outputs step ranBy (init g f) (before ++ after) ++
        s.loop.pending).map Handle.id).count i = 1) ∧
    r.loop.ready.IsPrefix
      (Machine.outputs step ranBy r after ++ s.loop.ready) := by
  have honce := run_once (Machine.run_append_eq_some.mpr ⟨r, hr, hs⟩)
  refine ⟨?_, ?_, run_ready (run_once hr) hs⟩
  · have hnodup := honce.nodup
    rw [List.map_append] at hnodup
    exact hnodup.of_append_left
  · intro i hi hlive
    exact List.count_eq_one_of_mem honce.nodup (honce.all i hi hlive)

/-- Two callbacks made ready at once, the second cancelled, and a timer. -/
def twoReady : List (Act Unit ℕ) :=
  [.op (.callSoon 0), .op (.callSoon 1), .op (.callLater (.int 2) 2),
    .op (.cancel 1), .beginStep false]

/-- The batch, in which the first callback makes a third ready. -/
def theirBatch : List (Act Unit ℕ) :=
  [.runReady, .op (.callSoon 3), .runReady]

theorem callbacks_once_twoReady :
    ((Machine.outputs step ranBy (init Toggle.low Toggle.low)
      (twoReady ++ theirBatch)).map Handle.id = [0, 1] ∧
    ((Machine.run step (init Toggle.low Toggle.low) twoReady).map
      fun r => r.loop.ready.map Handle.id) = some [0, 1]) ∧
    ((Machine.outputs step ranBy (init Toggle.low Toggle.low)
      (twoReady ++ theirBatch)).map Handle.id).Nodup := by
  refine ⟨by decide +kernel, ?_⟩
  have hrun : (Machine.run step (init Toggle.low Toggle.low)
      (twoReady ++ theirBatch)).isSome := by
    decide +kernel
  obtain ⟨s, hs⟩ := Option.isSome_iff_exists.mp hrun
  obtain ⟨r, hr, hrs⟩ := Machine.run_append_eq_some.mp hs
  exact (callbacks_once hr hrs).1

end Net

end Seedloop
