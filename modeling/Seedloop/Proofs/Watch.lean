import Seedloop.Proofs.Frame

/-!
# One fault and one sleep, followed through a run

What a `run_for` leaves behind it is a few timers with nothing to connect
them: those of each fault, known by the fault's id, and the one that ends its
sleep, known by the future. `line` is the part of everything pending that
belongs to one fault and one sleep, in the order it will run in. A step leaves
that line alone, or gives the sleep up, or runs the handle at its head, and
there is nothing else a step can do to it.
-/

namespace Seedloop

/-- The fault a callback is of. -/
def FaultCallback.faultId : FaultCallback → ℕ
  | .beginFaultPartition faultId _ => faultId
  | .endFaultPartition faultId => faultId
  | .beginSlowLink faultId _ _ => faultId
  | .endSlowLink faultId => faultId
  | .beginCrash faultId _ => faultId

/-- The fault whose callback recorded the event. -/
def Event.faultId? {μ : Type} : Event μ → Option ℕ
  | .faultPartitionBegin faultId => some faultId
  | .faultPartitionHeal faultId => some faultId
  | .faultSlowLinkBegin faultId => some faultId
  | .faultSlowLinkEnd faultId => some faultId
  | .faultCrash faultId _ => some faultId
  | _ => none

@[simp] theorem FaultCallback.event_faultId? {μ : Type} (c : FaultCallback) :
    (c.event : Event μ).faultId? = some c.faultId := by
  cases c <;> rfl

theorem Event.faultId?_of_ofOp {μ : Type} {e : Event μ} (h : e.ofOp = true) :
    e.faultId? = none := by
  cases e <;> first | rfl | cases h

/-- The fault a callback is of, if it is of one. -/
def Callback.faultId? {μ υ : Type} : Callback μ υ → Option ℕ
  | .fault c => some c.faultId
  | _ => none

/-- The callback belongs to fault `i` or to the sleep on `fut`. -/
def Callback.isOf {μ υ : Type} (i fut : ℕ) (c : Callback μ υ) : Bool :=
  c.faultId? = some i ∨ c.fut? = some fut

namespace Net

variable {ρ μ υ : Type}

/-! ## What an operation adds -/

/-- A handle the operations between `s` and `t` put up. -/
def Pushed (s t : Net ρ μ υ) (h : Handle (Callback μ υ)) : Prop :=
  match h.callback with
  | .user _ | .deliver .. => True
  | .fault c => s.nextFaultId ≤ c.faultId ∧ c.faultId < t.nextFaultId
  | .wake f _ => s.loop.nextHandle ≤ f
  | .resume f _ => s.loop.nextHandle ≤ f ∨ f ∈ t.abandoned

/-- What operations add to, and what they keep of, the handles that wait and
the sleeps. -/
structure Grows (s t : Net ρ μ υ) : Prop where
  nextHandle : s.loop.nextHandle ≤ t.loop.nextHandle
  nextFaultId : s.nextFaultId ≤ t.nextFaultId
  abandoned : s.abandoned ⊆ t.abandoned
  owned : ∀ i ∈ t.owned, i ∈ s.owned ∨ s.loop.nextHandle ≤ i
  cancelled : ∀ i ∈ t.loop.cancelled,
    i ∈ s.loop.cancelled ∨ i ∈ s.owned ∨ s.loop.nextHandle ≤ i
  sleeping : ∀ f < s.loop.nextHandle, f ∉ t.abandoned →
    t.sleeping.lookup f = s.sleeping.lookup f
  filter : ∀ p : Handle (Callback μ υ) → Bool,
    (∀ h, Pushed s t h → p h = false) →
    t.loop.pending.filter p = s.loop.pending.filter p

theorem Pushed.mono {s t u v : Net ρ μ υ} {h : Handle (Callback μ υ)}
    (hh : Pushed t u h) (hn : s.loop.nextHandle ≤ t.loop.nextHandle)
    (hf : s.nextFaultId ≤ t.nextFaultId) (hf' : u.nextFaultId ≤ v.nextFaultId)
    (ha : u.abandoned ⊆ v.abandoned) : Pushed s v h := by
  unfold Pushed at hh ⊢
  split at hh
  · trivial
  · trivial
  · exact ⟨hf.trans hh.1, lt_of_lt_of_le hh.2 hf'⟩
  · exact hn.trans hh
  · exact hh.imp hn.trans fun h => ha h

theorem Grows.trans {s t u : Net ρ μ υ} (h : Grows s t) (h' : Grows t u) :
    Grows s u where
  nextHandle := h.nextHandle.trans h'.nextHandle
  nextFaultId := h.nextFaultId.trans h'.nextFaultId
  abandoned := h.abandoned.trans h'.abandoned
  owned i hi := by
    rcases h'.owned i hi with hi | hi
    · exact h.owned i hi
    · exact .inr (h.nextHandle.trans hi)
  cancelled i hi := by
    rcases h'.cancelled i hi with hi | hi | hi
    · exact h.cancelled i hi
    · exact .inr (h.owned i hi)
    · exact .inr (.inr (h.nextHandle.trans hi))
  sleeping f hf ha := by
    rw [h'.sleeping f (lt_of_lt_of_le hf h.nextHandle) ha]
    exact h.sleeping f hf fun hmem => ha (h'.abandoned hmem)
  filter p hp := by
    rw [h'.filter p fun x hx =>
      hp x (hx.mono h.nextHandle h.nextFaultId le_rfl Finset.Subset.rfl)]
    exact h.filter p fun x hx =>
      hp x (hx.mono le_rfl le_rfl h'.nextFaultId h'.abandoned)

/-- The loop, the sleeps and the counters stay as they are. -/
theorem Grows.of_eq {s t : Net ρ μ υ} (hl : t.loop = s.loop)
    (hf : s.nextFaultId ≤ t.nextFaultId) (ho : t.owned = s.owned)
    (hs : t.sleeping = s.sleeping) (ha : s.abandoned ⊆ t.abandoned) :
    Grows s t where
  nextHandle := hl ▸ le_rfl
  nextFaultId := hf
  abandoned := ha
  owned i hi := .inl (ho ▸ hi)
  cancelled i hi := .inl (hl ▸ hi)
  sleeping _ _ _ := by rw [hs]
  filter _ _ := by rw [hl]

theorem Grows.refl (s : Net ρ μ υ) : Grows s s :=
  .of_eq rfl le_rfl rfl rfl Finset.Subset.rfl

/-- One more handle. -/
theorem Grows.of_push {s t : Net ρ μ υ} {n : Handle (Callback μ υ)}
    (hnew : Pushed s t n)
    (hfilter : ∀ p : Handle (Callback μ υ) → Bool, p n = false →
      t.loop.pending.filter p = s.loop.pending.filter p)
    (hn : t.loop.nextHandle = s.loop.nextHandle + 1)
    (hc : t.loop.cancelled = s.loop.cancelled)
    (hf : t.nextFaultId = s.nextFaultId)
    (ho : ∀ i ∈ t.owned, i ∈ s.owned ∨ i = s.loop.nextHandle)
    (hs : ∀ f < s.loop.nextHandle, f ∉ t.abandoned →
      t.sleeping.lookup f = s.sleeping.lookup f)
    (ha : t.abandoned = s.abandoned) : Grows s t where
  nextHandle := hn ▸ Nat.le_succ _
  nextFaultId := hf ▸ le_rfl
  abandoned := ha ▸ Finset.Subset.rfl
  owned _ hi := (ho _ hi).imp id ge_of_eq
  cancelled _ hi := .inl (hc ▸ hi)
  sleeping := hs
  filter p hp := hfilter p (hp n hnew)

theorem Grows.record {s t : Net ρ μ υ} (h : Grows s t) (e : Event μ) :
    Grows s (t.record e) :=
  h.trans (.of_eq rfl le_rfl rfl rfl Finset.Subset.rfl)

/-- The timer of a delivery. -/
theorem Grows.deliverAt {s t : Net ρ μ υ} (h : Grows s t) (when : ℚ)
    (mid : ℕ) (src dst : Address) (msg : μ) :
    Grows s (t.callAt when (.deliver mid src dst msg)) :=
  h.trans (.of_push (n := ⟨t.loop.nextHandle, .deliver mid src dst msg,
    some (.fin when)⟩) trivial
    (fun _ hp => t.loop.filter_callAt_of_not hp) rfl rfl rfl
    (fun _ hi => .inl hi) (fun _ _ _ => rfl) rfl)

/-- A timer of a fault. -/
theorem Grows.faultAt {s t : Net ρ μ υ} (h : Grows s t)
    (hid : s.nextFaultId < t.nextFaultId) (when : ℚ) {c : FaultCallback}
    (hc : c.faultId = s.nextFaultId) :
    Grows s (t.callAt when (.fault c)) where
  nextHandle := h.nextHandle.trans (Nat.le_succ _)
  nextFaultId := h.nextFaultId
  abandoned := h.abandoned
  owned := h.owned
  cancelled := h.cancelled
  sleeping := h.sleeping
  filter p hp := by
    have hnew := hp ⟨t.loop.nextHandle, .fault c, some (.fin when)⟩
      ⟨hc.ge, hc ▸ hid⟩
    exact (t.loop.filter_callAt_of_not hnew).trans (h.filter p hp)

theorem Grows.schedule (s : Net ρ μ υ) (now : ℚ) (r : Resolved) :
    Grows s (s.schedule now r) := by
  have hid : ∀ e : Event μ, Grows s
      (recordAt { s with nextFaultId := s.nextFaultId + 1 } now e) :=
    fun e => .of_eq rfl (Nat.le_succ _) rfl rfl Finset.Subset.rfl
  have hlt : s.nextFaultId < s.nextFaultId + 1 := Nat.lt_succ_self _
  cases r with
  | partition groups start stop =>
      exact ((hid _).faultAt hlt _ (c := .beginFaultPartition _ groups)
        rfl).faultAt hlt _ (c := .endFaultPartition _) rfl
  | slowLink a b factor start stop =>
      exact ((hid _).faultAt hlt _ (c := .beginSlowLink _ {a, b} factor)
        rfl).faultAt hlt _ (c := .endSlowLink _) rfl
  | crash node at_ =>
      exact (hid _).faultAt hlt _ (c := .beginCrash _ node) rfl

theorem Grows.sleep (s : Net ρ μ υ) (seconds : ℚ) (k : υ) :
    Grows s (s.sleep seconds k) := by
  unfold Net.sleep
  dsimp only
  split
  · refine .of_push (n := ⟨s.loop.nextHandle, .wake s.loop.nextHandle k,
      some (.fin (s.loop.time + seconds))⟩) le_rfl
      (fun _ hp => s.loop.filter_callAt_of_not hp) rfl rfl rfl
      (fun _ hi => .inl hi) ?_ rfl
    intro f hf _
    exact AList.lookup_insert_ne hf.ne
  · exact .of_push (n := ⟨s.loop.nextHandle, .resume s.loop.nextHandle k,
      none⟩) (.inl le_rfl) (fun _ hp => s.loop.filter_callSoon_of_not hp) rfl
      rfl rfl (fun _ hi => .inl hi) (fun _ _ _ => rfl) rfl

/-- A sleep that is over, of a task that was cancelled. -/
theorem Grows.finishSleep {s : Net ρ μ υ} {fut : ℕ} (ha : fut ∈ s.abandoned) :
    Grows s (s.finishSleep fut) := by
  unfold Net.finishSleep
  split
  · exact .refl s
  · next k _ =>
    refine .of_push (n := ⟨s.loop.nextHandle, .resume fut k, none⟩)
      (.inr ha) (fun _ hp => s.loop.filter_callSoon_of_not hp) rfl rfl rfl
      (fun _ hi => .inl hi) ?_ rfl
    intro f _ hf
    refine AList.lookup_erase_ne ?_
    rintro rfl
    exact hf ha

theorem Effect.grows {s t : Net ρ μ υ} (h : Effect s t) : Grows s t := by
  cases h with
  | draws | setPartition | bind | inbox | record =>
      exact .of_eq rfl le_rfl rfl rfl Finset.Subset.rfl
  | userSoon k =>
      exact .of_push (n := ⟨s.loop.nextHandle, .user k, none⟩) trivial
        (fun _ hp => s.loop.filter_callSoon_of_not hp) rfl rfl rfl
        (fun _ hi => (Finset.mem_insert.mp hi).symm) (fun _ _ _ => rfl) rfl
  | userTimer when k =>
      exact .of_push (n := ⟨s.loop.nextHandle, .user k, some when⟩) trivial
        (fun _ hp => s.loop.filter_callAt_of_not hp) rfl rfl rfl
        (fun _ hi => (Finset.mem_insert.mp hi).symm) (fun _ _ _ => rfl) rfl
  | cancel handle hown =>
      refine ⟨le_rfl, le_rfl, Finset.Subset.rfl, fun _ hi => .inl hi, ?_,
        fun _ _ _ => rfl, fun _ _ => rfl⟩
      intro i hi
      rcases Finset.mem_insert.mp hi with rfl | hi
      · exact .inr (.inl hown)
      · exact .inl hi
  | stop =>
      exact ⟨le_rfl, le_rfl, Finset.Subset.rfl, fun _ hi => .inl hi,
        fun _ hi => .inl hi, fun _ _ _ => rfl, fun _ _ => rfl⟩
  | schedule seconds r _ => exact .schedule s _ r
  | sleep seconds k => exact .sleep s seconds k
  | cancelRunFor fut =>
      have hgiven : Grows s { s with abandoned := insert fut s.abandoned } :=
        .of_eq rfl le_rfl rfl rfl (Finset.subset_insert _ _)
      exact hgiven.trans (.finishSleep (Finset.mem_insert_self _ _))

theorem Effects.grows {s t : Net ρ μ υ} (h : Effects s t) : Grows s t :=
  h.invariant (I := Grows s) (fun he hs => hs.trans he.grows) (.refl s)

theorem Sends.grows {s t : Net ρ μ υ} {src dst : Address} {msg : μ}
    {endpoint : Endpoint μ} {how : Sent}
    (h : Sends s t src dst msg endpoint how) : Grows s t := by
  obtain ⟨g, f, rfl⟩ := h.eq
  have hbegin : Grows s (beginSend { s with netRng := g, faultsRng := f }
      endpoint.address dst) := .of_eq rfl le_rfl rfl rfl Finset.Subset.rfl
  cases how with
  | reliable base =>
      refine Grows.deliverAt (hbegin.trans (.of_eq ?_ ?_ ?_ ?_ ?_)) _ _ _ _ _
      · rfl
      · exact le_rfl
      · rfl
      · rfl
      · exact Finset.Subset.rfl
  | dropped => exact hbegin.record _
  | once base => exact hbegin.deliverAt _ _ _ _ _
  | twice base extra =>
      exact ((hbegin.deliverAt _ _ _ _ _).record _).deliverAt _ _ _ _ _

/-! ## The ids of faults -/

/-- The ids of faults come from the counter. -/
structure FaultIds (s : Net ρ μ υ) : Prop where
  pending : ∀ h ∈ s.loop.pending, ∀ i, h.callback.faultId? = some i →
    i < s.nextFaultId
  timeline : ∀ e ∈ s.timeline, ∀ i, e.2.faultId? = some i → i < s.nextFaultId

theorem init_faultIds (g f : ρ) : FaultIds (init g f : Net ρ μ υ) :=
  ⟨by simp [init, Loop.init, Loop.pending], by simp [init]⟩

theorem FaultIds.of_events {s t : Net ρ μ υ} (hs : FaultIds s)
    (hline : ∃ new, t.timeline = s.timeline ++ new ∧
      ∀ e ∈ new, ∀ i, e.2.faultId? = some i → i < t.nextFaultId)
    (hnext : s.nextFaultId ≤ t.nextFaultId)
    (hpend : ∀ h ∈ t.loop.pending, ∀ i, h.callback.faultId? = some i →
      i < t.nextFaultId) : FaultIds t where
  pending := hpend
  timeline e he i hi := by
    obtain ⟨new, heq, hnew⟩ := hline
    rw [heq] at he
    rcases List.mem_append.mp he with he | he
    · exact lt_of_lt_of_le (hs.timeline e he i hi) hnext
    · exact hnew e he i hi

theorem Frame.faultId? {s t : Net ρ μ υ} (hf : Frame s t) :
    ∃ new, t.timeline = s.timeline ++ new ∧
      ∀ e ∈ new, e.2.faultId? = none := by
  obtain ⟨new, heq, hof⟩ := hf.timeline
  exact ⟨new, heq, fun e he => Event.faultId?_of_ofOp (hof e he)⟩

theorem FaultIds.of_frame {s t : Net ρ μ υ} (hs : FaultIds s)
    (hf : Frame s t) (hnext : s.nextFaultId ≤ t.nextFaultId)
    (hpend : ∀ h ∈ t.loop.pending, ∀ i, h.callback.faultId? = some i →
      i < t.nextFaultId) : FaultIds t := by
  obtain ⟨new, heq, hnew⟩ := hf.faultId?
  refine hs.of_events ⟨new, heq, fun e he i hi => ?_⟩ hnext hpend
  rw [hnew e he] at hi
  cases hi

theorem FaultIds.of_grows {s t : Net ρ μ υ} (hs : FaultIds s)
    (hg : Grows s t) (hf : Frame s t) : FaultIds t := by
  refine hs.of_frame hf hg.nextFaultId ?_
  intro h hh i hi
  by_contra hle
  have hfilter := hg.filter (fun h => h.callback.faultId? = some i) (by
    intro x hx
    rw [decide_eq_false_iff_not]
    intro heq
    unfold Pushed at hx
    split at hx <;> simp_all [Callback.faultId?]
    omega)
  have hmem : h ∈ s.loop.pending.filter fun h => h.callback.faultId? = some i :=
    hfilter ▸ List.mem_filter.mpr ⟨hh, by simpa using hi⟩
  have := hs.pending h (List.mem_filter.mp hmem).1 i hi
  exact hle (lt_of_lt_of_le this hg.nextFaultId)

/-- What running a handle adds: a wake-up at most, under a new number. -/
structure Runs (s t : Net ρ μ υ) : Prop where
  nextFaultId : t.nextFaultId = s.nextFaultId
  nextHandle : s.loop.nextHandle ≤ t.loop.nextHandle
  owned : t.owned = s.owned
  abandoned : t.abandoned = s.abandoned
  pending : ∀ h ∈ t.loop.pending,
    h ∈ s.loop.pending ∨ ∃ f k, h.callback = .resume f k

theorem Runs.of_pending {s t : Net ρ μ υ}
    (hf : t.nextFaultId = s.nextFaultId)
    (hn : t.loop.nextHandle = s.loop.nextHandle) (ho : t.owned = s.owned)
    (ha : t.abandoned = s.abandoned)
    (hp : t.loop.pending = s.loop.pending) : Runs s t :=
  ⟨hf, hn.ge, ho, ha, fun _ hh => .inl (hp ▸ hh)⟩

theorem runHandle_runs (s : Net ρ μ υ) (h : Handle (Callback μ υ)) :
    Runs s (runHandle s h) := by
  unfold runHandle
  split
  · exact .of_pending rfl rfl rfl rfl rfl
  · unfold runCallback
    split
    · exact .of_pending rfl rfl rfl rfl rfl
    · next mid src dst msg _ =>
      obtain ⟨_, _, heq⟩ := deliver_eq s mid src dst msg
      rw [heq]
      exact .of_pending rfl rfl rfl rfl rfl
    · next c _ => cases c <;> exact .of_pending rfl rfl rfl rfl rfl
    · unfold finishSleep
      split
      · exact .of_pending rfl rfl rfl rfl rfl
      · next k _ =>
        refine ⟨rfl, Nat.le_succ _, rfl, rfl, fun h' hh => ?_⟩
        rcases List.mem_cons.mp ((s.loop.pending_callSoon _).subset hh) with
          rfl | hh
        · exact .inr ⟨_, _, rfl⟩
        · exact .inl hh
    · exact .of_pending rfl rfl rfl rfl rfl

theorem FaultIds.runHandle {s t : Net ρ μ υ} (hh : Handles s)
    (hs : FaultIds s) {h : Handle (Callback μ υ)} (hmem : h ∈ s.loop.pending)
    {l : Loop (Callback μ υ)} (hl : s.loop.Takes h l)
    (ht : t = runHandle { s with loop := l } h) : FaultIds t := by
  have hruns := runHandle_runs { s with loop := l } h
  rw [← ht] at hruns
  have hnext : t.nextFaultId = s.nextFaultId := hruns.nextFaultId
  have hpend : ∀ h ∈ t.loop.pending, ∀ i, h.callback.faultId? = some i →
      i < t.nextFaultId := by
    intro h' hh' i hi
    rcases hruns.pending h' hh' with hh' | ⟨f, k, hc⟩
    · rw [hnext]
      exact hs.pending h'
        (hl.perm.symm.subset (List.mem_cons_of_mem _ hh')) i hi
    · rw [hc] at hi
      cases hi
  rcases hh.runHandle_cases hmem hl ht with ⟨-, hframe⟩ |
    ⟨c, hc, -, hfault⟩ | ⟨mid, src, dst, msg, _, _, hc, -, hd⟩
  · exact hs.of_frame hframe hnext.ge hpend
  · refine hs.of_events ⟨_, hfault.timeline, ?_⟩ hnext.ge hpend
    intro e he i hi
    rw [List.mem_singleton] at he
    subst he
    rw [hnext]
    refine hs.pending h hmem i ?_
    rw [hc, ← hi]
    exact c.event_faultId?.symm
  · refine hs.of_events ⟨_, hd.timeline, ?_⟩ hnext.ge hpend
    intro e he i hi
    rw [List.mem_singleton] at he
    subst he
    cases hi

section

variable [Random ρ]

theorem op_grows {s t : Net ρ μ υ} {o : Op μ υ} {r : Reply μ}
    (h : s.op o = some (t, r)) : Grows s t ∧ Frame s t := by
  rcases op_cases h with ⟨_, _, _, _, _, -, hsends⟩ | ⟨-, heff⟩
  · exact ⟨hsends.grows, hsends.frame⟩
  · exact ⟨heff.grows, heff.frame⟩

theorem FaultIds.step {s t : Net ρ μ υ} {a : Act μ υ} (hh : Handles s)
    (hs : FaultIds s) (h : step s a = some t) : FaultIds t := by
  cases a with
  | op o =>
      simp only [Net.step, Option.map_eq_some_iff] at h
      obtain ⟨⟨t', r⟩, hop, rfl⟩ := h
      obtain ⟨hg, hf⟩ := op_grows hop
      exact hs.of_grows hg hf
  | beginStep stopStep =>
      cases h
      have hsub := (s.loop.pending_beginStep stopStep).1
      exact ⟨fun h hmem => hs.pending h (hsub.subset hmem), hs.timeline⟩
  | clearStop =>
      cases h
      exact ⟨hs.pending, hs.timeline⟩
  | runReady =>
      simp only [Net.step] at h
      split at h
      · cases h
      · next hd rest hready =>
        cases h
        have htakes := takes_pop hready
        exact hs.runHandle hh (htakes.perm.symm.subset (by simp)) htakes rfl

theorem run_faultIds {g f : ρ} {s : Net ρ μ υ} {as : List (Act μ υ)}
    (h : Machine.run step (init g f) as = some s) : FaultIds s := by
  have hstart : Handles (init g f : Net ρ μ υ) ∧
      FaultIds (init g f : Net ρ μ υ) := ⟨init_handles g f, init_faultIds g f⟩
  exact (Machine.run_invariant
    (I := fun s : Net ρ μ υ => Handles s ∧ FaultIds s)
    (fun {_ a _} hi hs => ⟨hi.1.freeStep (a := .act a) hs, hi.2.step hi.1 hs⟩)
    hstart h).2

end

/-! ## One fault and one sleep -/

/-- Everything that waits for fault `i` or the sleep on `fut`. -/
def line (i fut : ℕ) (s : Net ρ μ υ) : List (Handle (Callback μ υ)) :=
  s.loop.pending.filter fun h => h.callback.isOf i fut

/-- The id and the future are taken, and nobody can cancel the sleep's timer
by its handle. -/
structure Taken (i fut : ℕ) (s : Net ρ μ υ) : Prop where
  fault_lt : i < s.nextFaultId
  fut_lt : fut < s.loop.nextHandle
  not_owned : fut ∉ s.owned

/-- Everything in the line will run. -/
structure Armed (i fut : ℕ) (s : Net ρ μ υ) : Prop where
  live : fut ∉ s.loop.cancelled
  id : ∀ h ∈ line i fut s, h.callback.fut? = some fut → h.id = fut

/-- What a step that runs none of the line keeps. -/
structure Spares (i fut : ℕ) (s t : Net ρ μ υ) : Prop where
  taken : Taken i fut t
  sublist : (line i fut t).Sublist (line i fut s)
  line_eq : Armed i fut s → line i fut t = line i fut s
  live : fut ∉ s.loop.cancelled → fut ∉ t.loop.cancelled
  sleeping : t.sleeping.lookup fut = s.sleeping.lookup fut
  timeline : ∃ new, t.timeline = s.timeline ++ new ∧
    ∀ e ∈ new, e.2.faultId? ≠ some i
  faultPartitions : t.faultPartitions.lookup i = s.faultPartitions.lookup i
  faultSlowLinks : t.faultSlowLinks.lookup i = s.faultSlowLinks.lookup i
  crashed : s.crashed ⊆ t.crashed

theorem Spares.armed {i fut : ℕ} {s t : Net ρ μ υ} (h : Spares i fut s t)
    (hs : Armed i fut s) : Armed i fut t where
  live := h.live hs.live
  id := by
    rw [h.line_eq hs]
    exact hs.id

/-- A step within the frame that runs none of the line. -/
theorem Spares.of_frame {i fut : ℕ} {s t : Net ρ μ υ} (hf : Frame s t)
    (ht : Taken i fut t) (hline : line i fut t = line i fut s)
    (hlive : fut ∉ s.loop.cancelled → fut ∉ t.loop.cancelled)
    (hsleep : t.sleeping.lookup fut = s.sleeping.lookup fut) :
    Spares i fut s t where
  taken := ht
  sublist := hline ▸ .refl _
  line_eq _ := hline
  live := hlive
  sleeping := hsleep
  timeline := by
    obtain ⟨new, heq, hnew⟩ := hf.faultId?
    refine ⟨new, heq, fun e he => ?_⟩
    rw [hnew e he]
    simp
  faultPartitions := by rw [hf.faultPartitions]
  faultSlowLinks := by rw [hf.faultSlowLinks]
  crashed := hf.crashed ▸ Finset.Subset.rfl

/-- An operation that does not give the sleep up. -/
theorem Spares.of_grows {i fut : ℕ} {s t : Net ρ μ υ} (hs : Taken i fut s)
    (hg : Grows s t) (hf : Frame s t) (ha : fut ∉ t.abandoned) :
    Spares i fut s t := by
  have htaken : Taken i fut t := by
    refine ⟨lt_of_lt_of_le hs.fault_lt hg.nextFaultId,
      lt_of_lt_of_le hs.fut_lt hg.nextHandle, ?_⟩
    intro hmem
    rcases hg.owned _ hmem with h | h
    · exact hs.not_owned h
    · exact absurd hs.fut_lt (not_lt.mpr h)
  refine .of_frame hf htaken (hg.filter _ ?_) ?_ (hg.sleeping _ hs.fut_lt ha)
  · intro h hh
    have hfault := hs.fault_lt
    have hfut := hs.fut_lt
    unfold Pushed at hh
    split at hh
    · next hc => simp [hc, Callback.isOf, Callback.faultId?, Callback.fut?]
    · next hc => simp [hc, Callback.isOf, Callback.faultId?, Callback.fut?]
    · next c hc =>
      have : c.faultId ≠ i := by omega
      simp [hc, Callback.isOf, Callback.faultId?, Callback.fut?, this]
    · next f _ hc =>
      have : f ≠ fut := by omega
      simp [hc, Callback.isOf, Callback.faultId?, Callback.fut?, this]
    · next f _ hc =>
      have : f ≠ fut := by
        rintro rfl
        rcases hh with hh | hh
        · omega
        · exact ha hh
      simp [hc, Callback.isOf, Callback.faultId?, Callback.fut?, this]
  · intro hlive hmem
    rcases hg.cancelled _ hmem with h | h | h
    · exact hlive h
    · exact hs.not_owned h
    · exact absurd hs.fut_lt (not_lt.mpr h)

theorem Taken.runHandle {i fut : ℕ} {s : Net ρ μ υ} (hs : Taken i fut s)
    {h : Handle (Callback μ υ)} {l : Loop (Callback μ υ)}
    (hl : s.loop.Takes h l) :
    Taken i fut (runHandle { s with loop := l } h) := by
  have hruns := runHandle_runs { s with loop := l } h
  refine ⟨?_, lt_of_lt_of_le ?_ hruns.nextHandle, ?_⟩
  · rw [hruns.nextFaultId]
    exact hs.fault_lt
  · exact hl.nextHandle ▸ hs.fut_lt
  · rw [hruns.owned]
    exact hs.not_owned

/-- The head of what is ready is the head of the line, if it is in it. -/
theorem line_pop {i fut : ℕ} {s : Net ρ μ υ} {h : Handle (Callback μ υ)}
    {rest : List (Handle (Callback μ υ))} (hready : s.loop.ready = h :: rest)
    (hof : h.callback.isOf i fut = true) :
    line i fut s =
      h :: line i fut { s with loop := { s.loop with ready := rest } } := by
  simp only [line, Loop.pending, hready, List.cons_append]
  exact List.filter_cons_of_pos hof

/-- Running a handle that is not in the line. -/
theorem Spares.runHandle {i fut : ℕ} {s t : Net ρ μ υ} (hh : Handles s)
    (hs : Taken i fut s) {h : Handle (Callback μ υ)}
    (hmem : h ∈ s.loop.pending) (hnot : h.callback.isOf i fut = false)
    {l : Loop (Callback μ υ)} (hl : s.loop.Takes h l)
    (ht : t = runHandle { s with loop := l } h) : Spares i fut s t := by
  have hline : line i fut { s with loop := l } = line i fut s :=
    hl.filter_of_not hnot
  have htaken : Taken i fut t := ht ▸ hs.runHandle hl
  rcases hh.runHandle_cases hmem hl ht with ⟨hnet, hframe⟩ |
    ⟨c, hc, heq, hfault⟩ | ⟨mid, src, dst, msg, _, _, hc, heq, hd⟩
  · have hkept : line i fut t = line i fut s ∧
        (fut ∉ s.loop.cancelled → fut ∉ t.loop.cancelled) ∧
        t.sleeping.lookup fut = s.sleeping.lookup fut := by
      subst ht
      unfold Net.runHandle
      split
      · exact ⟨hline, hl.cancelled ▸ id, rfl⟩
      · cases hc : h.callback with
        | user k => exact ⟨hline, hl.cancelled ▸ id, rfl⟩
        | resume f k =>
            have hne : f ≠ fut := by
              rintro rfl
              simp [hc, Callback.isOf, Callback.fut?] at hnot
            refine ⟨hline, ?_, rfl⟩
            intro hlive hmem
            rcases Finset.mem_insert.mp hmem with heq | hmem
            · exact hne heq.symm
            · exact hlive (hl.cancelled ▸ hmem)
        | wake f k =>
            have hne : fut ≠ f := by
              rintro rfl
              simp [hc, Callback.isOf, Callback.fut?] at hnot
            simp only [runCallback, finishSleep]
            split
            · exact ⟨hline, hl.cancelled ▸ id, rfl⟩
            · refine ⟨(l.filter_callSoon_of_not ?_).trans hline,
                hl.cancelled ▸ id, AList.lookup_erase_ne hne⟩
              simp [Callback.isOf, Callback.faultId?, Callback.fut?, hne.symm]
        | deliver => simp [hc, Callback.isNet] at hnet
        | fault => simp [hc, Callback.isNet] at hnet
    exact .of_frame hframe htaken hkept.1 hkept.2.1 hkept.2.2
  · have hne : i ≠ c.faultId := by
      rintro rfl
      simp [hc, Callback.isOf, Callback.faultId?] at hnot
    have hloop : t.loop = l := by rw [heq, runFault_loop]
    have hline' : line i fut t = line i fut s := by
      rw [← hline]
      simp only [line, hloop]
    refine ⟨htaken, hline' ▸ .refl _, fun _ => hline', ?_, ?_, ⟨_, hfault.timeline, ?_⟩,
      ?_, ?_, fun n hn => (hfault.crashed n).mpr (.inl hn)⟩
    · rw [hloop, hl.cancelled]
      exact id
    · rw [heq]
      cases c <;> rfl
    · simpa using hne.symm
    · rw [heq]
      cases c
      all_goals first
        | rfl
        | exact AList.lookup_insert_ne hne
        | exact AList.lookup_erase_ne hne
    · rw [heq]
      cases c
      all_goals first
        | rfl
        | exact AList.lookup_insert_ne hne
        | exact AList.lookup_erase_ne hne
  · subst heq
    refine ⟨htaken, hline ▸ .refl _, fun _ => hline,
      hl.cancelled ▸ id, rfl, ⟨_, hd.timeline, ?_⟩, rfl, rfl, Finset.Subset.rfl⟩
    simp [Event.faultId?]

section

variable [Random ρ]

theorem step_abandoned {s t : Net ρ μ υ} {a : Act μ υ}
    (h : step s a = some t) : s.abandoned ⊆ t.abandoned := by
  cases a with
  | op o =>
      simp only [step, Option.map_eq_some_iff] at h
      obtain ⟨⟨t', r⟩, hop, rfl⟩ := h
      exact (op_grows hop).1.abandoned
  | beginStep stopStep | clearStop =>
      cases h
      exact Finset.Subset.rfl
  | runReady =>
      simp only [step] at h
      split at h
      · cases h
      · next hd rest _ =>
        cases h
        have hruns := runHandle_runs
          { s with loop := { s.loop with ready := rest } } hd
        exact hruns.abandoned.ge

/-- A step gives the sleep up, or leaves the line alone, or runs its head. -/
theorem step_watch {i fut : ℕ} {s t : Net ρ μ υ} {a : Act μ υ}
    (hh : Handles s) (hs : Taken i fut s) (h : step s a = some t) :
    fut ∈ t.abandoned ∨ Spares i fut s t ∨
    ∃ hd rest, a = .runReady ∧ s.loop.ready = hd :: rest ∧
      hd.callback.isOf i fut = true ∧
      t = runHandle { s with loop := { s.loop with ready := rest } } hd := by
  cases a with
  | op o =>
      simp only [step, Option.map_eq_some_iff] at h
      obtain ⟨⟨t', r⟩, hop, rfl⟩ := h
      obtain ⟨hg, hf⟩ := op_grows hop
      by_cases ha : fut ∈ t'.abandoned
      · exact .inl ha
      · exact .inr (.inl (.of_grows hs hg hf ha))
  | beginStep stopStep =>
      cases h
      obtain ⟨hsub, hfilter⟩ := s.loop.pending_beginStep stopStep
      obtain ⟨hcanc, -, hnext, -⟩ :=
        Loop.beginStep_spec (l := s.loop) (b := stopStep) rfl
      refine .inr (.inl ⟨⟨hs.fault_lt, hnext ▸ hs.fut_lt, hs.not_owned⟩,
        hsub.filter _, fun harmed => hfilter _ ?_, hcanc ▸ id, rfl,
        ⟨[], by simp, by simp⟩, rfl, rfl, Finset.Subset.rfl⟩)
      intro τ hτ hof
      have hmem : τ.handle ∈ s.loop.pending :=
        List.mem_append_right _ (List.mem_map_of_mem hτ)
      simp only [Callback.isOf, decide_eq_true_eq] at hof
      rcases hof with hof | hof
      · refine hh.live hmem ?_
        cases hc : τ.handle.callback with
        | fault => rfl
        | _ => simp [hc, Callback.faultId?] at hof
      · rw [harmed.id _ (List.mem_filter.mpr ⟨hmem, ?_⟩) hof]
        · exact harmed.live
        · simp [Callback.isOf, hof]
  | clearStop =>
      cases h
      exact .inr (.inl ⟨⟨hs.fault_lt, hs.fut_lt, hs.not_owned⟩, .refl _,
        fun _ => rfl, id, rfl, ⟨[], by simp, by simp⟩, rfl, rfl, Finset.Subset.rfl⟩)
  | runReady =>
      simp only [step] at h
      split at h
      · cases h
      · next hd rest hready =>
        cases h
        have htakes := takes_pop hready
        cases hof : hd.callback.isOf i fut with
        | false =>
            exact .inr (.inl (.runHandle hh hs
              (htakes.perm.symm.subset (by simp)) hof htakes rfl))
        | true => exact .inr (.inr ⟨hd, rest, rfl, hready, hof, rfl⟩)

end

end Net

end Seedloop
