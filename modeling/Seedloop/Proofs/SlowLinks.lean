import Seedloop.Proofs.Commit
import Seedloop.Proofs.FaultTrace
import Seedloop.Proofs.Latency

/-!
# Slow links scale what is sent while they are open

The registry of slow links is read once for each send, so what a message waits
is settled by the windows that are open then. Which these are can be read off
the timeline: a fault's account has its schedule, its begin and its end, and
the registry holds it between the last two. Whatever opens or closes later
finds the delivery on the heap, where it stays until its time.

A link that starts and ends at one address would match nothing. Validation and
the draws never let one through, and so a message to its own sender is not
slowed.
-/

namespace Seedloop

/-! ## Every slow link has two ends -/

/-- The two addresses of a slow link are different. -/
def Resolved.Apart : Resolved → Prop
  | .slowLink a b .. => a ≠ b
  | _ => True

/-- If it schedules a slow link, then between different addresses. -/
def Event.Apart {μ : Type} : Event μ → Prop
  | .faultSlowLinkScheduled _ a b .. => a ≠ b
  | _ => True

theorem Resolved.Apart.scheduled {μ : Type} {r : Resolved} (h : r.Apart)
    (i : ℕ) (now : ℚ) : (r.scheduled i now : Event μ).Apart := by
  cases r <;> exact h

namespace Net

variable {ρ μ υ : Type}

/-- Whatever was written to the timeline keeps to that. -/
def WritesApart (s t : Net ρ μ υ) : Prop :=
  ∃ new, t.timeline = s.timeline ++ new ∧ ∀ x ∈ new, x.2.Apart

theorem WritesApart.of_eq {s t : Net ρ μ υ} (h : t.timeline = s.timeline) :
    WritesApart s t :=
  ⟨[], by rw [h, List.append_nil], by simp⟩

theorem WritesApart.of_record {s t : Net ρ μ υ} {now : ℚ} {e : Event μ}
    (h : t.timeline = s.timeline ++ [(now, e)]) (he : e.Apart) :
    WritesApart s t :=
  ⟨_, h, by simpa using he⟩

theorem runHandle_writesApart (s : Net ρ μ υ) (h : Handle (Callback μ υ)) :
    WritesApart s (s.runHandle h) := by
  unfold runHandle
  split
  · exact .of_eq rfl
  · unfold runCallback
    split
    · exact .of_eq rfl
    · exact .of_record (deliver_timeline _ _ _ _ _) trivial
    · next c _ =>
      exact .of_record (runFault_timeline _ c) (by cases c <;> trivial)
    · unfold finishSleep
      split <;> exact .of_eq rfl
    · exact .of_eq rfl

section

variable [Random ρ]

theorem resolve_apart {s t : Net ρ μ υ} {fuel : ℕ} {seconds : Num}
    {window : ℚ} {f : Fault} {r : Resolved} (hw : 0 ≤ window)
    (hv : validateFault s.boundAddresses seconds window f = .ok ())
    (h : s.resolve fuel window f = some (t, some r)) : r.Apart := by
  cases f with
  | partition groups =>
      simp only [resolve, resolvePartition, Option.map_map,
        Option.map_eq_some_iff, Function.comp, Prod.mk.injEq,
        Option.some.injEq] at h
      obtain ⟨_, -, -, rfl⟩ := h
      trivial
  | slowLink a b factor =>
      obtain ⟨g, x, y, q, start, stop, hr, -, -, -, hxy, -⟩ :=
        resolveSlowLink_ok hw hv
      simp only [resolve, hr, Option.some.injEq, Prod.mk.injEq] at h
      obtain ⟨-, rfl⟩ := h
      exact hxy
  | crash node at_ =>
      obtain ⟨g, n, x, hr, -⟩ := resolveCrash_ok hw hv
      simp only [resolve, hr, Option.some.injEq, Prod.mk.injEq] at h
      obtain ⟨-, rfl⟩ := h
      trivial

theorem resolvedBy_apart {s : Net ρ μ υ} {fuel : ℕ} {seconds : Num}
    {window : ℚ} {fs : List Fault} (hw : 0 ≤ window)
    (hv : validateFaults s.boundAddresses seconds window fs = .ok ()) :
    ∀ r ∈ s.resolvedBy fuel window fs, r.Apart := by
  induction fs generalizing s with
  | nil =>
      intro r hr
      cases hr
  | cons f fs ih =>
      obtain ⟨hf, hfs⟩ := validateFaults_cons hv
      unfold resolvedBy
      split
      · next u r hres =>
        obtain ⟨⟨g, rfl⟩, -⟩ := resolve_eq hw hf hres
        have hb : boundAddresses (schedule { s with faultsRng := g }
            s.loop.time r) = s.boundAddresses :=
          (Committed.schedule s g r).boundAddresses
        exact List.forall_mem_cons.mpr
          ⟨resolve_apart hw hf hres, ih (hb ▸ hfs)⟩
      · intro r hr
        cases hr

theorem scheduledBy_apart (s : Net ρ μ υ) (fuel : ℕ) (seconds : Num)
    (faults : List Fault) :
    ∀ r ∈ s.scheduledBy fuel seconds faults, r.Apart := by
  unfold scheduledBy
  split
  · intro r hr
    cases hr
  · next window hs =>
    split
    · intro r hr
      cases hr
    · next hv => exact resolvedBy_apart (checkSeconds_ok hs).2 hv

theorem runFor_writesApart {s t : Net ρ μ υ} {fuel : ℕ} {seconds : Num}
    {faults : List Fault} {k : υ} {res : Except ApiError Unit}
    (h : s.runFor fuel seconds faults k = some (t, res)) :
    WritesApart s t := by
  obtain ⟨window, rs, g, hrs, -, hcase⟩ := runFor_eq h
  obtain ⟨new, hnew, -, hevents⟩ := scheduleAll_timeline
    { s with faultsRng := g } s.loop.time rs
  have hline : t.timeline = s.timeline ++ new := by
    rcases hcase with ⟨e, -, rfl⟩ | ⟨-, -, -, -, rfl⟩
    · exact hnew
    · obtain ⟨-, -, -, -, -, -, hsleep⟩ := sleep_pending
        (scheduleAll { s with faultsRng := g } s.loop.time rs) window k
      exact hsleep.trans hnew
  refine ⟨new, hline, fun x hx => ?_⟩
  obtain ⟨pre, r, post, hr, hxr⟩ := hevents x hx
  have hapart : r.Apart := by
    refine scheduledBy_apart s fuel seconds faults r ?_
    rw [← hrs, hr]
    simp
  rw [hxr]
  exact hapart.scheduled _ _

theorem op_writesApart {s t : Net ρ μ υ} {o : Op μ υ} {r : Reply μ}
    (h : s.op o = some (t, r)) : WritesApart s t := by
  cases o with
  | send src dst msg =>
      simp only [op, Option.map_eq_some_iff, Prod.mk.injEq] at h
      obtain ⟨endpoint, hlook, rfl, -⟩ := h
      obtain ⟨how, hsends⟩ := send_sends hlook dst msg
      refine ⟨_, hsends.timeline, fun x hx => ?_⟩
      obtain ⟨kind, -, rfl⟩ := List.mem_map.mp hx
      trivial
  | runFor seconds faults fuel k =>
      simp only [op, Option.map_eq_some_iff] at h
      obtain ⟨⟨u, res⟩, hrun, hmap⟩ := h
      have hu := runFor_writesApart hrun
      cases res with
      | error e =>
          cases hmap
          exact hu
      | ok _ =>
          cases hmap
          exact hu
  | record event =>
      cases h
      exact .of_record rfl trivial
  | callAt when k | callLater delay k =>
      simp only [op, userCallLater, userCallAt, Option.some.injEq] at h
      repeat' split at h
      all_goals
        cases h
        exact .of_eq rfl
  | cancel handle =>
      simp only [op] at h
      split at h
      · cases h
        exact .of_eq rfl
      · cases h
  | bind address reliable loss duplicate =>
      simp only [op] at h
      split at h
      · cases h
        exact .of_eq rfl
      · next hb =>
        cases h
        unfold Net.bind at hb
        split at hb
        · cases hb
        · split at hb
          · cases hb
          · cases hb
          · cases hb
            exact .of_eq rfl
  | recv address task mustCancel | cancelRecv address task
    | resumeRecv address task =>
      simp only [op, inboxAct] at h
      split at h
      · cases h
      · simp only [Option.map_eq_some_iff, Prod.mk.injEq] at h
        obtain ⟨_, -, rfl, -⟩ := h
        exact .of_eq rfl
  | cancelRunFor fut =>
      cases h
      unfold finishSleep
      split <;> exact .of_eq rfl
  | callSoon k | stop | partition groups | heal =>
      cases h
      exact .of_eq rfl

theorem step_writesApart {s t : Net ρ μ υ} {a : Act μ υ}
    (h : step s a = some t) : WritesApart s t := by
  cases a with
  | op o =>
      simp only [step, Option.map_eq_some_iff] at h
      obtain ⟨⟨t', r⟩, hop, rfl⟩ := h
      exact op_writesApart hop
  | beginStep stopStep | clearStop =>
      cases h
      exact .of_eq rfl
  | runReady =>
      simp only [step] at h
      split at h
      · cases h
      · next hd rest _ =>
        cases h
        exact runHandle_writesApart { s with loop := { s.loop with
          ready := rest } } hd

/-- No run schedules a slow link between an address and itself. -/
theorem run_apart {g f : ρ} {s : Net ρ μ υ} {as : List (Act μ υ)}
    (h : Machine.run step (init g f) as = some s) :
    ∀ x ∈ s.timeline, x.2.Apart := by
  refine Machine.run_invariant (I := fun s : Net ρ μ υ =>
    ∀ x ∈ s.timeline, x.2.Apart) ?_ (by simp [init]) h
  intro s a t hs hstep
  obtain ⟨new, heq, hnew⟩ := step_writesApart hstep
  rw [heq]
  exact List.forall_mem_append.mpr ⟨hs, hnew⟩

end

/-! ## What is open -/

/-- The window of a slow link between the two of `pair` was scheduled, has
begun and has not ended. -/
def SlowLinkOpen (s : Net ρ μ υ) (i : ℕ) (pair : Finset Address) (q : ℚ) :
    Prop :=
  (∃ a b start stop, pair = {a, b} ∧
    Recorded (.faultSlowLinkScheduled i a b q start stop) s) ∧
  Recorded (.faultSlowLinkBegin i) s ∧ ¬ Recorded (.faultSlowLinkEnd i) s

theorem recorded_iff_account {s : Net ρ μ υ} {e : Event μ} {i : ℕ}
    (he : e.about? = some i) :
    Recorded e s ↔ e ∈ (s.account i).events.map Prod.snd := by
  constructor
  · rintro ⟨x, hx, rfl⟩
    exact List.mem_map.mpr ⟨x, List.mem_filter.mpr ⟨hx, by simpa using he⟩, rfl⟩
  · intro h
    obtain ⟨x, hx, rfl⟩ := List.mem_map.mp h
    exact ⟨x, (List.mem_filter.mp hx).1, rfl⟩

/-- The registry holds the windows that are open. -/
theorem Ledger.slowLinkOpen_iff {s : Net ρ μ υ} (hs : Ledger s) {i : ℕ}
    {pair : Finset Address} {q : ℚ} :
    s.SlowLinkOpen i pair q ↔ s.faultSlowLinks.lookup i = some (pair, q) := by
  have hsched : ∀ a b start stop,
      Recorded (.faultSlowLinkScheduled i a b q start stop) s ↔ _ :=
    fun _ _ _ _ => recorded_iff_account rfl
  have hbegin : Recorded (.faultSlowLinkBegin i) s ↔ _ :=
    recorded_iff_account rfl
  have hend : Recorded (.faultSlowLinkEnd i) s ↔ _ := recorded_iff_account rfl
  unfold SlowLinkOpen
  simp only [hsched, hbegin, hend]
  rcases lt_or_ge i s.nextFaultId with hi | hi
  · obtain ⟨now, r, done, rest, hsplit, hevents, -, -, hlook⟩ := (hs i).1 hi
    rw [show s.faultSlowLinks.lookup i = _ from hlook, hevents]
    cases r with
    | partition groups start stop | crash node at_ =>
        refine iff_of_false ?_ (by simp [Resolved.slowLinkAfter])
        rintro ⟨⟨a, b, start, stop, -, hmem⟩, -⟩
        simp only [List.map_cons, List.map_map, Resolved.scheduled,
          List.mem_cons, reduceCtorEq, false_or, List.mem_map] at hmem
        obtain ⟨x, -, hx⟩ := hmem
        cases hc : x.2 <;> simp [hc, FaultCallback.event] at hx
    | slowLink a b factor start stop =>
        rcases done with _ | ⟨x, _ | ⟨y, done⟩⟩
        · refine iff_of_false ?_ (by simp [Resolved.slowLinkAfter])
          rintro ⟨-, hbegin, -⟩
          simp [Resolved.scheduled] at hbegin
        · obtain ⟨rfl, -⟩ := List.cons.inj hsplit
          constructor
          · rintro ⟨⟨a', b', start', stop', rfl, hmem⟩, -⟩
            simp only [Resolved.scheduled, List.map_cons, List.map_nil,
              FaultCallback.event, List.mem_cons, List.not_mem_nil, reduceCtorEq,
              or_false, Event.faultSlowLinkScheduled.injEq] at hmem
            obtain ⟨-, rfl, rfl, rfl, -⟩ := hmem
            rfl
          · intro heq
            obtain ⟨rfl, rfl⟩ := Prod.mk.inj (Option.some.inj heq)
            refine ⟨⟨a, b, _, _, rfl, List.mem_cons_self⟩, ?_, ?_⟩
            · exact List.mem_cons_of_mem _ List.mem_cons_self
            · simp [Resolved.scheduled, FaultCallback.event]
        · obtain ⟨rfl, hrest⟩ := List.cons.inj hsplit
          obtain ⟨rfl, -⟩ := List.cons.inj hrest
          refine iff_of_false ?_ (by simp [Resolved.slowLinkAfter])
          rintro ⟨-, -, hend⟩
          simp [FaultCallback.event] at hend
  · have hnone := (hs i).2 hi
    rw [hnone, show s.faultSlowLinks.lookup i = _ from
      congrArg Account.slowLink hnone]
    simp [Account.none]

/-- The slow links the registry holds on a pair, by fault. -/
def linksOn (s : Net ρ μ υ) (pair : Finset Address) : List (ℕ × ℚ) :=
  (s.faultSlowLinks.entries.filter fun e => e.2.1 = pair).map
    fun e => (e.1, e.2.2)

theorem linksOn_nodup (s : Net ρ μ υ) (pair : Finset Address) :
    ((s.linksOn pair).map Prod.fst).Nodup := by
  rw [linksOn, List.map_map]
  exact s.faultSlowLinks.keys_nodup.sublist (List.filter_sublist.map Sigma.fst)

theorem mem_linksOn {s : Net ρ μ υ} {pair : Finset Address} {i : ℕ} {q : ℚ} :
    (i, q) ∈ s.linksOn pair ↔ s.faultSlowLinks.lookup i = some (pair, q) := by
  rw [← Option.mem_def, AList.mem_lookup_iff]
  constructor
  · intro h
    obtain ⟨⟨j, pair', q'⟩, hfilter, heq⟩ := List.mem_map.mp h
    obtain ⟨hmem, hpair⟩ := List.mem_filter.mp hfilter
    obtain rfl : pair' = pair := by simpa using hpair
    cases heq
    exact hmem
  · intro h
    exact List.mem_map.mpr ⟨_, List.mem_filter.mpr ⟨h, by simp⟩, rfl⟩

theorem slowFactor_eq_linksOn (s : Net ρ μ υ) (src dst : Address) :
    s.slowFactor src dst = ((s.linksOn {src, dst}).map Prod.snd).prod := by
  rw [slowFactor_eq, openSlowLinks, linksOn, List.map_map]
  rfl

/-! ## What is due when -/

/-- When the copies of a message are due, its draws known. -/
def dues (s : Net ρ μ υ) (src dst : Address) : Sent → List ℚ
  | .reliable base => [s.due src dst base]
  | .dropped => []
  | .once base => [s.loop.time + base * s.slowFactor src dst]
  | .twice base extra =>
      [s.loop.time + base * s.slowFactor src dst,
        s.loop.time + extra * s.slowFactor src dst]

/-- The deliveries that are put on the heap for the copies of a message. -/
def armed (s : Net ρ μ υ) (src dst : Address) (msg : μ) (ws : List ℚ) :
    List (Handle (Callback μ υ)) :=
  ws.zipIdx.map fun w =>
    ⟨s.loop.nextHandle + w.2, .deliver s.nextMid src dst msg, some (.fin w.1)⟩

theorem sendAs_armed (s : Net ρ μ υ) (src dst : Address) (msg : μ)
    (how : Sent) : (s.sendAs src dst msg how).loop.pending.Perm
      (s.armed src dst msg (s.dues src dst how) ++ s.loop.pending) := by
  cases how with
  | reliable base | once base => exact Loop.pending_callAt _ _ _
  | dropped => exact .refl _
  | twice base extra =>
      refine (Loop.pending_callAt _ _ _).trans ?_
      exact ((Loop.pending_callAt _ _ _).cons _).trans (.swap _ _ _)

/-- A copy is due after the message is sent. -/
theorem lt_of_mem_dues {s : Net ρ μ υ} (hs : OnTime s) {src dst : Address}
    {how : Sent} {reliable : Bool} (hok : how.Allowed reliable) :
    ∀ w ∈ s.dues src dst how, s.loop.time < w := by
  have hpos : ∀ base, Latency base →
      s.loop.time < s.loop.time + base * s.slowFactor src dst := by
    intro base hb
    have hbase : 0 < base := lt_of_lt_of_le (by norm_num [latMin]) hb.1
    have hslow := lt_of_lt_of_le one_pos (hs.one_le_slowFactor src dst)
    exact lt_add_of_pos_right _ (mul_pos hbase hslow)
  cases how with
  | reliable base =>
      intro w hw
      obtain rfl := List.mem_singleton.mp hw
      exact lt_of_lt_of_le (hpos base hok.2) (le_max_left _ _)
  | dropped => simp [dues]
  | once base => simpa [dues] using hpos base hok.2
  | twice base extra =>
      simpa [dues] using And.intro (hpos base hok.2.1) (hpos extra hok.2.2)

/-- The base latencies of a message's copies. -/
def Luck.bases (base : ℚ) : Luck → List ℚ
  | .dropped => []
  | .once => [base]
  | .twice extra => [base, extra]

theorem latency_of_mem_bases [Random ρ] (policy : Policy) (g g' : ρ) :
    ∀ base ∈ (luck policy g).1.bases (Random.uniform latMin latMax g').1,
      Latency base := by
  intro base hmem
  cases hl : (luck policy g).1 with
  | dropped => simp [hl, Luck.bases] at hmem
  | once =>
      obtain rfl : base = _ := by simpa [hl, Luck.bases] using hmem
      exact latency_uniform g'
  | twice extra =>
      simp only [hl, Luck.bases, List.mem_cons, List.not_mem_nil,
        or_false] at hmem
      rcases hmem with rfl | rfl
      · exact latency_uniform g'
      · exact luck_twice hl

theorem dues_sent (s : Net ρ μ υ) (src dst : Address) (base : ℚ) (l : Luck) :
    s.dues src dst (l.sent base) = (l.bases base).map
      fun b => s.loop.time + b * s.slowFactor src dst := by
  cases l <;> rfl

section

variable [Random ρ]

/-- A send, its draws known: those of an unreliable endpoint by name. -/
theorem send_drawn {s t : Net ρ μ υ} (haddr : Addressed s) {src dst : Address}
    {msg : μ} {endpoint : Endpoint μ}
    (hsrc : s.endpoints.lookup src = some endpoint)
    (ht : step s (.op (.send src dst msg)) = some t) :
    ∃ how g f, t = sendAs { s with netRng := g, faultsRng := f } src dst msg
        how ∧ how.Allowed endpoint.policy.reliable ∧
      (endpoint.policy.reliable = false →
        how = (luck endpoint.policy s.faultsRng).1.sent
          (Random.uniform latMin latMax s.netRng).1) := by
  simp only [step, op, hsrc, Option.map_some, Option.some.injEq] at ht
  have hbase := latency_uniform (ρ := ρ) s.netRng
  rw [send_eq, haddr src endpoint hsrc] at ht
  cases hrel : endpoint.policy.reliable with
  | true =>
      rw [hrel, if_pos rfl] at ht
      exact ⟨_, _, s.faultsRng, ht.symm, ⟨rfl, hbase⟩, by simp⟩
  | false =>
      rw [hrel, if_neg Bool.false_ne_true] at ht
      refine ⟨_, _, _, ht.symm, ?_, fun _ => rfl⟩
      cases hl : (luck endpoint.policy s.faultsRng).1 with
      | dropped => rfl
      | once => exact ⟨rfl, hbase⟩
      | twice extra => exact ⟨rfl, hbase, luck_twice hl⟩

/-- There is no link between an address and itself. -/
theorem linksOn_self {g f : ρ} {s : Net ρ μ υ} {as : List (Act μ υ)}
    (h : Machine.run step (init g f) as = some s) (a : Address) :
    s.linksOn {a, a} = [] := by
  refine List.eq_nil_iff_forall_not_mem.mpr ?_
  rintro ⟨i, q⟩ hmem
  obtain ⟨⟨x, y, start, stop, hpair, e, he, heq⟩, -⟩ :=
    (run_ledger h).slowLinkOpen_iff.mpr (mem_linksOn.mp hmem)
  have hxy : x ≠ y := by
    have := run_apart h e he
    rwa [heq] at this
  have hx : x ∈ ({a, a} : Finset Address) := hpair ▸ Finset.mem_insert_self x _
  have hy : y ∈ ({a, a} : Finset Address) := by
    rw [hpair]
    exact Finset.mem_insert_of_mem (Finset.mem_singleton_self y)
  simp only [Finset.pair_eq_singleton, Finset.mem_singleton] at hx hy
  exact hxy (hx.trans hy.symm)

/-- Slow links scale exactly the right messages. In every run and for every
send, some links are open: those faults whose window was scheduled between the
two ends, has begun and has not ended, each with its factor. The product of the
factors is at least one, and one from an address to itself. What the endpoint
then puts on the heap is a delivery for each copy, due after the send; if it is
unreliable, there is a copy for each base latency that was drawn, due that many
times the product from now. However the run goes on, a delivery that fires
fires when it is due. -/
theorem slow_links_scale {g f : ρ} {before : List (Act μ υ)} {s t : Net ρ μ υ}
    {src dst : Address} {msg : μ} {endpoint : Endpoint μ}
    (hs : Machine.run step (init g f) before = some s)
    (hsrc : s.endpoints.lookup src = some endpoint)
    (ht : step s (.op (.send src dst msg)) = some t) :
    ∃ (links : List (ℕ × ℚ)) (ws : List ℚ),
      ((links.map Prod.fst).Nodup ∧
        ∀ i q, (i, q) ∈ links ↔ s.SlowLinkOpen i {src, dst} q) ∧
      ((∀ x ∈ links, 1 < x.2) ∧ 1 ≤ (links.map Prod.snd).prod ∧
        (src = dst → (links.map Prod.snd).prod = 1)) ∧
      (endpoint.policy.reliable = false → ∃ bases,
        bases = (luck endpoint.policy s.faultsRng).1.bases
          (Random.uniform latMin latMax s.netRng).1 ∧
        (∀ base ∈ bases, latMin ≤ base ∧ base ≤ latMax) ∧
        ws = bases.map fun base =>
          s.loop.time + base * (links.map Prod.snd).prod) ∧
      t.loop.pending.Perm (s.armed src dst msg ws ++ s.loop.pending) ∧
      (∀ w ∈ ws, s.loop.time < w) ∧
      ∀ h ∈ s.armed src dst msg ws, ∀ after u,
        Machine.run step t after = some u →
        ∀ x ∈ Machine.outputs step arrivals t after, x.1 = h.id →
          h.when? = some (.fin x.2) := by
  have hot := run_onTime hs
  have hrun : Machine.run step (init g f) (before ++
      [.op (.send src dst msg)]) = some t :=
    Machine.run_concat_eq_some.mpr ⟨s, hs, ht⟩
  obtain ⟨how, g', f', heq, hok, hdrawn⟩ := send_drawn (run_addressed hs) hsrc ht
  have hpending : t.loop.pending.Perm
      (s.armed src dst msg (s.dues src dst how) ++ s.loop.pending) := by
    rw [heq]
    exact sendAs_armed { s with netRng := g', faultsRng := f' } src dst msg how
  refine ⟨s.linksOn {src, dst}, s.dues src dst how,
    ⟨s.linksOn_nodup _, fun i q => ?_⟩, ⟨?_, ?_, ?_⟩, fun hrel => ?_, hpending,
    lt_of_mem_dues hot hok, ?_⟩
  · rw [mem_linksOn, (run_ledger hs).slowLinkOpen_iff]
  · rintro ⟨i, q⟩ hx
    exact hot.slow _ (AList.mem_lookup_iff.mp (mem_linksOn.mp hx))
  · rw [← slowFactor_eq_linksOn]
    exact hot.one_le_slowFactor src dst
  · rintro rfl
    rw [linksOn_self hs]
    rfl
  · refine ⟨_, rfl, latency_of_mem_bases _ _ _, ?_⟩
    rw [hdrawn hrel, dues_sent, slowFactor_eq_linksOn]
  · intro h hh after u hu x hx hid
    have hmem : h ∈ t.loop.pending :=
      hpending.symm.subset (List.mem_append_left _ hh)
    obtain ⟨w, -, rfl⟩ := List.mem_map.mp hh
    rw [arrives_at hrun hu hmem rfl hx hid]

/-- Two slow links open between one pair and one on another, and a sender that
doubles. -/
def slowTwice : List (Act Unit ℕ) :=
  [.op (.bind 1 false (.int 0) (.int 1)),
    .op (.runFor (.int 1) [.slowLink (some 1) (some 2) (some (.int 3)),
      .slowLink (some 2) (some 1) (some (.int 5)),
      .slowLink (some 1) (some 3) (some (.int 7))] 0 0),
    .beginStep false, .runReady, .runReady, .runReady]

omit [Random ρ] in
theorem slow_links_scale_slowTwice : ∃ (s t : Net Toggle Unit ℕ)
    (w w' : ℚ), Machine.run step (init Toggle.low Toggle.low) slowTwice =
      some s ∧ step s (.op (.send 1 2 ())) = some t ∧
    s.SlowLinkOpen 0 {1, 2} 3 ∧ s.SlowLinkOpen 1 {1, 2} 5 ∧
    ¬ s.SlowLinkOpen 2 {1, 2} 7 ∧
    t.loop.pending.Perm (s.armed 1 2 () [w, w'] ++ s.loop.pending) ∧
    s.loop.time < w ∧ s.loop.time < w' := by
  have hrun : (Machine.run step (init Toggle.low Toggle.low)
      (slowTwice ++ [.op (.send 1 2 ())])).isSome := by decide +kernel
  obtain ⟨t, hrun⟩ := Option.isSome_iff_exists.mp hrun
  obtain ⟨s, hs, ht⟩ := Machine.run_concat_eq_some.mp hrun
  have hlinks : ((s.account 0).slowLink, (s.account 1).slowLink,
      (s.account 2).slowLink) =
      (some ({1, 2}, 3), some ({1, 2}, 5), some ({1, 3}, 7)) := by
    have := congrArg (Option.map fun s => ((s.account 0).slowLink,
      (s.account 1).slowLink, (s.account 2).slowLink)) hs
    exact Option.some.inj (this.symm.trans (by decide +kernel))
  have hsender : ((s.endpoints.lookup 1).map fun e =>
      (e.policy.reliable, ((luck e.policy s.faultsRng).1.bases
        (Random.uniform latMin latMax s.netRng).1).length)) =
      some (false, 2) := by
    have := congrArg (Option.map fun s => ((s.endpoints.lookup 1).map fun e =>
      (e.policy.reliable, ((luck e.policy s.faultsRng).1.bases
        (Random.uniform latMin latMax s.netRng).1).length))) hs
    exact Option.some.inj (this.symm.trans (by decide +kernel))
  simp only [Prod.mk.injEq] at hlinks
  obtain ⟨h0, h1, h2⟩ := hlinks
  obtain ⟨endpoint, hsrc, hpolicy⟩ := Option.map_eq_some_iff.mp hsender
  obtain ⟨hrel, hlen⟩ := Prod.mk.inj hpolicy
  obtain ⟨links, ws, -, -, hbases, hpending, hlate, -⟩ :=
    slow_links_scale hs hsrc ht
  obtain ⟨bases, rfl, -, hws⟩ := hbases hrel
  obtain ⟨w, w', rfl⟩ : ∃ w w', ws = [w, w'] := by
    refine List.length_eq_two.mp ?_
    rw [hws, List.length_map, hlen]
  have hledger := run_ledger hs
  refine ⟨s, t, w, w', hs, ht, hledger.slowLinkOpen_iff.mpr h0,
    hledger.slowLinkOpen_iff.mpr h1, ?_, hpending, hlate w (by simp),
    hlate w' (by simp)⟩
  rw [hledger.slowLinkOpen_iff, show s.faultSlowLinks.lookup 2 = _ from h2]
  decide

end

end Net

end Seedloop
