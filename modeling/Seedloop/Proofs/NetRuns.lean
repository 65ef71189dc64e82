import Seedloop.Proofs.Kept
import Seedloop.Proofs.RunUntil
import Seedloop.Ref.Sim

/-!
# The network of a drive is a run of the network's machine

Two levels of one design meet here. `Net.step` knows a loop and a network and
lets user code do what it likes between any two moves; `drive` has tasks,
checks, limits and a teardown on top, and a loop of its own that pops handles
and runs their turns. What a drive does to the network is a run of the machine:
each operation and each turn of its batch is a move, and whatever else is on
the ready queue — a task's next step, a callback of `gather`, the timer of a
`run_until` — is user code to the network.

The one difference is in whose hands a handle is. The machine gives out every
handle that user code arms, and the world keeps those of its own to itself. Who
has more of them can do no less, so the machine's run has them all.
-/

namespace Seedloop

namespace Net

variable {ρ μ υ : Type}

/-- The same network, with other handles in the hands of user code. -/
def own (s : Net ρ μ υ) (O : Finset ℕ) : Net ρ μ υ := { s with owned := O }

variable {O : Finset ℕ}

theorem bind_own (s : Net ρ μ υ) (address : Address) (reliable : Bool)
    (loss duplicate : Num) :
    (s.own O).bind address reliable loss duplicate =
      (s.bind address reliable loss duplicate).map (·.own O) := by
  simp only [bind]
  split
  · next h =>
    rw [if_pos (by exact h)]
    rfl
  · next h =>
    rw [if_neg (by exact h)]
    split
    · rfl
    · rfl
    · rfl

theorem finishSleep_own (s : Net ρ μ υ) (fut : ℕ) :
    (s.own O).finishSleep fut = (s.finishSleep fut).own O := by
  simp only [finishSleep]
  rw [show (s.own O).sleeping = s.sleeping from rfl]
  cases s.sleeping.lookup fut with
  | none => rfl
  | some k => rfl

theorem boundAddresses_own (s : Net ρ μ υ) :
    (s.own O).boundAddresses = s.boundAddresses := rfl

theorem deliver_own (s : Net ρ μ υ) (mid : ℕ) (src dst : Address) (msg : μ) :
    (s.own O).deliver mid src dst msg = (s.deliver mid src dst msg).own O := by
  have hdst : ∀ e : Event μ, ((s.own O).record e).endpoints.lookup dst =
      (s.record e).endpoints.lookup dst := fun _ => rfl
  simp only [deliver, hdst, show (s.own O).crashed = s.crashed from rfl,
    show (s.own O).reachable src dst = s.reachable src dst from rfl]
  split
  · rfl
  · split
    · rfl
    · split
      · rfl
      · rfl

theorem runCallback_own (s : Net ρ μ υ) (c : Callback μ υ) :
    (s.own O).runCallback c = (s.runCallback c).own O := by
  cases c with
  | user k => rfl
  | deliver mid src dst msg => exact deliver_own s mid src dst msg
  | fault c => cases c <;> rfl
  | wake fut k => exact finishSleep_own s fut
  | resume fut k => rfl

/-- The network keeps its hands off them. -/
theorem runCallback_owned (s : Net ρ μ υ) (c : Callback μ υ) :
    (s.runCallback c).owned = s.owned := by
  have h := runCallback_own (O := s.owned) s c
  rw [show s.own s.owned = s from rfl] at h
  rw [h]
  rfl

theorem schedule_own (s : Net ρ μ υ) (now : ℚ) (r : Resolved) :
    (s.own O).schedule now r = (s.schedule now r).own O := by
  cases r <;> rfl

theorem sleep_own (s : Net ρ μ υ) (seconds : ℚ) (k : υ) :
    (s.own O).sleep seconds k = (s.sleep seconds k).own O := by
  simp only [sleep]
  split
  · rfl
  · rfl

variable [Random ρ]

theorem faultDraw_own {s t : Net ρ μ υ} {p : ℚ} {b : Bool}
    (h : s.faultDraw p = (b, t)) : (s.own O).faultDraw p = (b, t.own O) := by
  simp only [faultDraw] at h ⊢
  split at h
  · next hp =>
    cases h
    rw [if_pos hp]
    rfl
  · next hp =>
    cases h
    rw [if_neg hp]

theorem sendUnreliable_own (s : Net ρ μ υ) (policy : Policy) (mid : ℕ)
    (src dst : Address) (msg : μ) (latency : ℚ) :
    (s.own O).sendUnreliable policy mid src dst msg latency =
      (s.sendUnreliable policy mid src dst msg latency).own O := by
  rcases hl : s.faultDraw policy.loss with ⟨b, t⟩
  simp only [sendUnreliable, hl, faultDraw_own hl]
  cases b with
  | true => rfl
  | false =>
      rcases hd : (t.callLater latency (.deliver mid src dst msg)).faultDraw
        policy.duplicate with ⟨b, u⟩
      have hown : ((t.own O).callLater latency
          (.deliver mid src dst msg)).faultDraw policy.duplicate =
            (b, u.own O) := faultDraw_own hd
      simp only [hd, hown]
      cases b with
      | true => rfl
      | false => rfl

theorem send_own (s : Net ρ μ υ) (endpoint : Endpoint μ) (dst : Address)
    (msg : μ) :
    (s.own O).send endpoint dst msg = (s.send endpoint dst msg).own O := by
  simp only [send]
  cases hr : endpoint.policy.reliable with
  | true =>
      simp only [if_true]
      rfl
  | false =>
      simp only [Bool.false_eq_true, if_false]
      exact sendUnreliable_own (record { s with nextMid := s.nextMid + 1 }
        (.message .send s.nextMid endpoint.address dst)).netLatency.2 _ _ _ _ _ _

theorem faultChoice_own {s t : Net ρ μ υ} {seq : List Address}
    {a : Option Address} (h : s.faultChoice seq = (t, a)) :
    (s.own O).faultChoice seq = (t.own O, a) := by
  simp only [faultChoice] at h ⊢
  rw [show (s.own O).faultsRng = s.faultsRng from rfl]
  cases hc : Random.choice seq s.faultsRng with
  | none =>
      rw [hc] at h
      cases h
      rfl
  | some x =>
      rw [hc] at h
      cases h
      rfl

theorem pinnedOr_own {s t : Net ρ μ υ} {pinned : Option Num} {a b x : ℚ}
    (h : s.pinnedOr pinned a b = (x, t)) :
    (s.own O).pinnedOr pinned a b = (x, t.own O) := by
  cases pinned with
  | some y =>
      cases h
      rfl
  | none =>
      cases h
      rfl

theorem resolvePair_own {s t : Net ρ μ υ} {a b : Option Address}
    {x : Option (Address × Address)} (h : s.resolvePair a b = (t, x)) :
    (s.own O).resolvePair a b = (t.own O, x) := by
  cases a with
  | some a =>
      cases b with
      | some b =>
          cases h
          rfl
      | none =>
          rcases hc : s.faultChoice (s.boundAddresses.filter (· ≠ a)) with ⟨u, c⟩
          simp only [resolvePair, boundAddresses_own, hc, faultChoice_own hc]
            at h ⊢
          cases h
          rfl
  | none =>
      cases b with
      | some b =>
          rcases hc : s.faultChoice (s.boundAddresses.filter (· ≠ b)) with ⟨u, c⟩
          simp only [resolvePair, boundAddresses_own, hc, faultChoice_own hc]
            at h ⊢
          cases h
          rfl
      | none =>
          rcases hc : s.faultChoice s.boundAddresses with ⟨u, c⟩
          simp only [resolvePair, boundAddresses_own, hc, faultChoice_own hc]
            at h ⊢
          cases c with
          | none =>
              cases h
              rfl
          | some c =>
              rcases hd : u.faultChoice (u.boundAddresses.filter (· ≠ c))
                with ⟨v, d⟩
              simp only [boundAddresses_own, hd, faultChoice_own hd] at h ⊢
              cases h
              rfl

/-- What a commit draws does not depend on it. -/
theorem resolve_own {s t : Net ρ μ υ} {fuel : ℕ} {seconds : ℚ} {f : Fault}
    {r : Option Resolved} (h : s.resolve fuel seconds f = some (t, r)) :
    (s.own O).resolve fuel seconds f = some (t.own O, r) := by
  cases f with
  | partition groups =>
      simp only [resolve, resolvePartition, boundAddresses_own] at h ⊢
      split at h
      · next hg =>
        cases h
        rw [if_pos hg]
        rfl
      · next hg =>
        rw [if_neg hg]
        cases hd : drawBipartition s.boundAddresses fuel s.faultsRng with
        | none =>
            rw [hd] at h
            cases h
        | some x =>
            rw [hd] at h
            cases h
            rw [show (s.own O).faultsRng = s.faultsRng from rfl, hd]
            rfl
  | slowLink a b factor =>
      rcases hp : s.resolvePair a b with ⟨u, x⟩
      simp only [resolve, resolveSlowLink, hp, resolvePair_own hp] at h ⊢
      cases x with
      | none =>
          cases h
          rfl
      | some x =>
          rcases hy : u.pinnedOr factor 2 50 with ⟨y, v⟩
          simp only [hy, pinnedOr_own hy] at h ⊢
          cases h
          rfl
  | crash node at_ =>
      rcases hy : s.pinnedOr at_ 0 seconds with ⟨y, u⟩
      simp only [resolve, resolveCrash, hy, pinnedOr_own hy] at h ⊢
      cases node with
      | some node =>
          cases h
          rfl
      | none =>
          rcases hc : u.faultChoice u.boundAddresses with ⟨v, c⟩
          simp only [boundAddresses_own, hc, faultChoice_own hc] at h ⊢
          cases h
          rfl

theorem commitFaults_own {s t : Net ρ μ υ} {fuel : ℕ} {seconds : ℚ}
    {fs : List Fault} {r : Except ApiError Unit}
    (h : s.commitFaults fuel seconds fs = some (t, r)) :
    (s.own O).commitFaults fuel seconds fs = some (t.own O, r) := by
  induction fs generalizing s with
  | nil =>
      cases h
      rfl
  | cons f fs ih =>
      simp only [commitFaults, commitFault] at h ⊢
      cases hr : s.resolve fuel seconds f with
      | none =>
          rw [hr] at h
          cases h
      | some x =>
          obtain ⟨u, r'⟩ := x
          rw [hr] at h
          rw [resolve_own hr]
          cases r' with
          | none =>
              cases h
              rfl
          | some r' =>
              have h := ih h
              rw [← schedule_own] at h
              exact h

theorem runFor_own {s t : Net ρ μ υ} {fuel : ℕ} {seconds : Num}
    {faults : List Fault} {k : υ} {r : Except ApiError Unit}
    (h : s.runFor fuel seconds faults k = some (t, r)) :
    (s.own O).runFor fuel seconds faults k = some (t.own O, r) := by
  simp only [runFor, prepareRunFor, boundAddresses_own] at h ⊢
  cases hs : checkSeconds seconds with
  | error e =>
      rw [hs] at h
      cases h
      rfl
  | ok window =>
      rw [hs] at h
      dsimp only at h ⊢
      cases hv : validateFaults s.boundAddresses seconds window faults with
      | error e =>
          rw [hv] at h
          cases h
          rfl
      | ok =>
          rw [hv] at h
          dsimp only at h ⊢
          cases hc : s.commitFaults fuel window faults with
          | none =>
              rw [hc] at h
              cases h
          | some x =>
              obtain ⟨u, r'⟩ := x
              rw [hc] at h
              rw [commitFaults_own hc]
              cases r' with
              | error e =>
                  cases h
                  rfl
              | ok =>
                  cases h
                  simp only [Option.map_some, sleep_own]

omit [Random ρ] in
theorem userCallAt_own {s t : Net ρ μ υ} {when : Num} {k : υ} {r : Reply μ}
    (h : s.userCallAt when k = (t, r)) : ∃ new, ∀ O : Finset ℕ,
      (s.own O).userCallAt when k = (t.own (O ∪ new), r) := by
  simp only [userCallAt] at h ⊢
  cases hw : checkWhen when with
  | error e =>
      rw [hw] at h
      cases h
      refine ⟨∅, fun O => ?_⟩
      rw [Finset.union_empty]
  | ok w =>
      rw [hw] at h
      cases h
      refine ⟨{s.loop.nextHandle}, fun O => ?_⟩
      rw [Finset.union_comm, ← Finset.insert_eq]
      rfl

omit [Random ρ] in
theorem userCallLater_own {s t : Net ρ μ υ} {delay : Num} {k : υ} {r : Reply μ}
    (h : s.userCallLater delay k = (t, r)) : ∃ new, ∀ O : Finset ℕ,
      (s.own O).userCallLater delay k = (t.own (O ∪ new), r) := by
  have htime : ∀ O, (s.own O).loop.time = s.loop.time := fun _ => rfl
  simp only [userCallLater, htime] at h ⊢
  cases hafter : delay.after s.loop.time with
  | none =>
      rw [hafter] at h
      cases h
      exact ⟨∅, fun O => by rw [Finset.union_empty]⟩
  | some when =>
      rw [hafter] at h
      exact userCallAt_own h

omit [Random ρ] in
theorem inboxAct_own {s t : Net ρ μ υ} {address : Address} {a : Inbox.Act μ}
    {r : Reply μ} (h : s.inboxAct address a = some (t, r)) (O : Finset ℕ) :
    (s.own O).inboxAct address a = some (t.own O, r) := by
  simp only [inboxAct] at h ⊢
  rw [show (s.own O).endpoints = s.endpoints from rfl]
  cases he : s.endpoints.lookup address with
  | none =>
      rw [he] at h
      cases h
  | some e =>
      rw [he] at h
      obtain ⟨x, hx, hxt⟩ := Option.map_eq_some_iff.mp h
      cases hxt
      simp only [hx, Option.map_some]
      rfl

/-- More handles in the hands of user code keep it from nothing, and it is
given the same ones. -/
theorem op_own {s t : Net ρ μ υ} {o : Op μ υ} {r : Reply μ}
    (h : s.op o = some (t, r)) : ∃ new, ∀ {O}, s.owned ⊆ O →
      (s.own O).op o = some (t.own (O ∪ new), r) := by
  have hnone : (∀ {O}, s.owned ⊆ O → (s.own O).op o = some (t.own O, r)) →
      ∃ new, ∀ {O}, s.owned ⊆ O →
        (s.own O).op o = some (t.own (O ∪ new), r) := by
    intro hop
    refine ⟨∅, fun {O} hO => ?_⟩
    rw [Finset.union_empty]
    exact hop hO
  cases o with
  | callSoon k =>
      cases h
      refine ⟨{s.loop.nextHandle}, fun {O} _ => ?_⟩
      rw [Finset.union_comm, ← Finset.insert_eq]
      rfl
  | callAt when k =>
      obtain ⟨new, hnew⟩ := userCallAt_own (Option.some.inj h)
      exact ⟨new, fun _ => congrArg some (hnew _)⟩
  | callLater delay k =>
      obtain ⟨new, hnew⟩ := userCallLater_own (Option.some.inj h)
      exact ⟨new, fun _ => congrArg some (hnew _)⟩
  | cancel handle =>
      refine hnone fun hO => ?_
      simp only [op] at h ⊢
      split at h
      · next hmem =>
        cases h
        exact if_pos (hO hmem)
      · cases h
  | bind address reliable loss duplicate =>
      refine hnone fun _ => ?_
      simp only [op, bind_own] at h ⊢
      cases hb : s.bind address reliable loss duplicate with
      | error e =>
          rw [hb] at h
          cases h
          rfl
      | ok u =>
          rw [hb] at h
          cases h
          rfl
  | send src dst msg =>
      refine hnone fun _ => ?_
      simp only [op] at h ⊢
      obtain ⟨e, he, ht⟩ := Option.map_eq_some_iff.mp h
      cases ht
      show Option.map _ (s.endpoints.lookup src) = _
      rw [he]
      simp only [Option.map_some, send_own]
  | recv address task mustCancel =>
      exact hnone fun _ => inboxAct_own h _
  | cancelRecv address task =>
      exact hnone fun _ => inboxAct_own h _
  | resumeRecv address task =>
      exact hnone fun _ => inboxAct_own h _
  | runFor seconds faults fuel k =>
      refine hnone fun _ => ?_
      simp only [op] at h ⊢
      obtain ⟨x, hx, ht⟩ := Option.map_eq_some_iff.mp h
      obtain ⟨u, r'⟩ := x
      rw [runFor_own hx]
      cases r' with
      | error e =>
          cases ht
          rfl
      | ok =>
          cases ht
          rfl
  | cancelRunFor fut =>
      refine hnone fun {O} _ => ?_
      cases h
      exact congrArg (fun x => some (x, Reply.done))
        (finishSleep_own { s with abandoned := insert fut s.abandoned } fut)
  | stop | record | partition | heal =>
      cases h
      exact hnone fun _ => rfl

end Net

namespace World

variable {ρ μ κ υ ε : Type}

/-- The machine may cancel what the world may. -/
structure Owns (w : World ρ μ κ υ ε) (O : Finset ℕ) : Prop where
  owned : w.net.owned ⊆ O
  timer : ∀ r, w.runUntil = some r → ∀ i, r.timer = some i → i ∈ O

theorem Owns.of_timer {w w' : World ρ μ κ υ ε} {O : Finset ℕ}
    (hw : Owns w O) (hn : w'.net.owned ⊆ O)
    (hr : ∀ r, w'.runUntil = some r →
      ∃ r', w.runUntil = some r' ∧ r'.timer = r.timer) : Owns w' O where
  owned := hn
  timer r h i hi := by
    obtain ⟨r', hr', heq⟩ := hr r h
    exact hw.timer r' hr' i (heq.trans hi)

variable [Random ρ]

/-- What happens to the network between two worlds is a run of its machine. -/
def Drives (w w' : World ρ μ κ υ ε) : Prop :=
  ∀ O, Owns w O → ∃ as O', Owns w' O' ∧
    Machine.run Net.step (w.net.own O) as = some (w'.net.own O')

theorem Drives.refl (w : World ρ μ κ υ ε) : Drives w w :=
  fun O hO => ⟨[], O, hO, rfl⟩

theorem Drives.trans {w w' w'' : World ρ μ κ υ ε} (h : Drives w w')
    (h' : Drives w' w'') : Drives w w'' := by
  intro O hO
  obtain ⟨as, O', hO', hrun⟩ := h O hO
  obtain ⟨as', O'', hO'', hrun'⟩ := h' O' hO'
  exact ⟨as ++ as', O'', hO'', Machine.run_append_eq_some.mpr ⟨_, hrun, hrun'⟩⟩

/-- Nothing happens to it, and the same timer is armed if one is. -/
theorem Drives.of_net {w w' : World ρ μ κ υ ε} (hn : w'.net = w.net)
    (hr : ∀ r, w'.runUntil = some r →
      ∃ r', w.runUntil = some r' ∧ r'.timer = r.timer) : Drives w w' := by
  intro O hO
  refine ⟨[], O, hO.of_timer (hn ▸ hO.owned) hr, ?_⟩
  rw [hn]
  rfl

/-- One move of the machine. -/
theorem Drives.of_step {w w' : World ρ μ κ υ ε} (a : Act μ (Job κ))
    (h : ∀ {O}, Owns w O → ∃ O', Owns w' O' ∧
      Net.step (w.net.own O) a = some (w'.net.own O')) : Drives w w' := by
  intro O hO
  obtain ⟨O', hO', hstep⟩ := h hO
  exact ⟨[a], O', hO', Machine.run_cons_eq_some.mpr ⟨_, hstep, rfl⟩⟩

/-- A move of the loop, which looks at nobody's hands. -/
theorem Drives.of_loop {w : World ρ μ κ υ ε}
    {net : Net ρ μ (Job κ)} (a : Act μ (Job κ))
    (h : ∀ O, Net.step (w.net.own O) a = some (net.own O))
    (hn : net.owned = w.net.owned) : Drives w { w with net := net } :=
  .of_step a fun {O} hO =>
    ⟨O, hO.of_timer (hn ▸ hO.owned) fun r hr => ⟨r, hr, rfl⟩, h O⟩

theorem callSoon_drives (w : World ρ μ κ υ ε) (job : Job κ) :
    Drives w (w.callSoon job) := by
  refine .of_step (.op (.callSoon job)) fun {O} hO => ?_
  refine ⟨insert w.net.loop.nextHandle O, ⟨?_, ?_⟩, rfl⟩
  · exact hO.owned.trans (Finset.subset_insert _ _)
  · exact fun r hr i hi => Finset.mem_insert_of_mem (hO.timer r hr i hi)

/-- After what happens to the tasks, a handle may be made ready. -/
theorem callSoon_after {w u : World ρ μ κ υ ε} (job : Job κ)
    (hn : u.net = w.net) (hr : ∀ r, u.runUntil = some r →
      ∃ r', w.runUntil = some r' ∧ r'.timer = r.timer) :
    Drives w (u.callSoon job) :=
  (Drives.of_net hn hr).trans (callSoon_drives u job)

theorem resolve_drives (w : World ρ μ κ υ ε) (r : RunUntil μ κ υ ε)
    (d : Decision ε) (h : w.runUntil = some r) : Drives w (w.resolve r d) := by
  have hr : ∀ r', some { r with done := some d } = some r' →
      ∃ r'', w.runUntil = some r'' ∧ r''.timer = r'.timer := by
    intro r' hr'
    cases hr'
    exact ⟨r, h, rfl⟩
  simp only [resolve]
  split
  · exact callSoon_after _ rfl hr
  · exact .of_net rfl hr

theorem cancelRunUntil_drives (w : World ρ μ κ υ ε) :
    Drives w w.cancelRunUntil := by
  simp only [cancelRunUntil]
  split
  · next r h =>
    split
    · exact .refl w
    · refine callSoon_after _ rfl ?_
      rintro r' hr'
      cases hr'
      exact ⟨r, h, rfl⟩
  · exact .refl w

theorem cancelTask_drives (w : World ρ μ κ υ ε) (task : ℕ) :
    Drives w (w.cancelTask task) := by
  have hwake : ∀ (xs : List (Wake κ)) (u : World ρ μ κ υ ε),
      Drives u (xs.foldl wake u) := by
    intro xs
    induction xs with
    | nil => exact .refl
    | cons x xs ih =>
        intro u
        refine Drives.trans ?_ (ih _)
        cases x with
        | ready k => exact callSoon_drives u _
        | runUntil => exact cancelRunUntil_drives u
  simp only [cancelTask]
  split
  · split
    · exact .refl w
    · refine Drives.trans ?_ (hwake _ _)
      exact .of_net rfl fun r hr => ⟨r, hr, rfl⟩
  · exact .refl w

/-- The timer of a call can be cancelled for as long as the call is active. -/
theorem endRunUntil_drives (w : World ρ μ κ υ ε) :
    Drives w w.endRunUntil := by
  simp only [endRunUntil]
  split
  · exact .refl w
  · next r hr =>
    split
    · exact .of_net rfl (by simp)
    · next i hi =>
      refine .of_step (.op (.cancel i)) fun {O} hO => ?_
      refine ⟨O, ⟨hO.owned, by simp⟩, ?_⟩
      have hmem : i ∈ (w.net.own O).owned := hO.timer r hr i hi
      simp only [Net.step, Net.op, if_pos hmem]
      rfl

/-- The timer that a call arms is one of the machine's user code. -/
theorem openCall_drives (w : World ρ μ κ υ ε) (p : Predicate μ υ ε)
    (d : Option (Num × ℚ)) (k : κ) : Drives w (w.openCall p d k) := by
  cases d with
  | none =>
      intro O hO
      refine ⟨[], O, ⟨hO.owned, ?_⟩, rfl⟩
      intro r hr i hi
      cases hr
      cases hi
  | some d =>
      refine .of_step (.op (.callAt (.float (.fin (w.net.loop.time + d.2)))
        .deadline)) fun {O} hO => ?_
      refine ⟨insert w.net.loop.nextHandle O, ⟨?_, ?_⟩, rfl⟩
      · exact hO.owned.trans (Finset.subset_insert _ _)
      · intro r hr i hi
        cases hr
        cases hi
        exact Finset.mem_insert_self _ _

variable [Raisable ε]

theorem callRunUntil_drives (p : Predicate μ υ ε) (d : Option Num) (k : κ) :
    Exec.Within Drives (callRunUntil p d k : Run ρ μ κ υ ε Unit) := by
  intro w
  rw [callRunUntil_eq]
  split
  · exact .refl w
  · next d _ =>
    rw [startRunUntil_eq]
    have hopen := openCall_drives w p d k
    dsimp only
    split
    · exact hopen.trans (endRunUntil_drives _)
    · refine hopen.trans (.of_net rfl ?_)
      intro r hr
      cases hr
      exact ⟨_, rfl, rfl⟩

theorem netOp_drives (o : Op μ κ) :
    Exec.Within Drives (userOp (.net o) : Run ρ μ κ υ ε Unit) := by
  refine Exec.within_update fun w => ?_
  cases h : w.net.op (o.map .user) with
  | none => exact .refl w
  | some x =>
      obtain ⟨net, r⟩ := x
      have hstep : Drives w { w with net := net } := by
        refine .of_step (.op (o.map .user)) fun {O} hO => ?_
        obtain ⟨new, hnew⟩ := Net.op_own h
        -- The world's own hands are one choice of hands.
        have hself : net = net.own (w.net.owned ∪ new) := by
          have hop := hnew (subset_rfl : w.net.owned ⊆ w.net.owned)
          rw [show w.net.own w.net.owned = w.net from rfl, h] at hop
          exact (Prod.mk.inj (Option.some.inj hop)).1
        refine ⟨O ∪ new, ⟨?_, ?_⟩, ?_⟩
        · show net.owned ⊆ O ∪ new
          rw [hself]
          exact Finset.union_subset_union_left hO.owned
        · exact fun r hr i hi => Finset.mem_union_left _ (hO.timer r hr i hi)
        · exact congrArg (Option.map Prod.fst) (hnew hO.owned)
      cases o with
      | stop => exact hstep.trans (.of_net rfl fun r hr => ⟨r, hr, rfl⟩)
      | _ => exact hstep

/-- An operation of user code. -/
theorem userOp_drives (o : UserOp μ κ υ ε) :
    Exec.Within Drives (userOp o : Run ρ μ κ υ ε Unit) := by
  have hbooks : ∀ {w w' : World ρ μ κ υ ε}, w'.net = w.net →
      w'.runUntil = w.runUntil → Drives w w' := fun hn hr =>
    .of_net hn fun r h => ⟨r, hr ▸ h, rfl⟩
  have hinterrupt : ∀ e, Exec.Within Drives
      (interrupt e : Run ρ μ κ υ ε Unit) := fun e w => hbooks rfl rfl
  have hcreate : ∀ (w : World ρ μ κ υ ε) b k, Drives w (w.createTask b k) :=
    fun w b k => callSoon_after _ rfl fun r hr => ⟨r, hr, rfl⟩
  cases o with
  | net o => exact netOp_drives o
  | set user => exact fun w => hbooks rfl rfl
  | always name predicate =>
      intro w
      show Drives w (w.always name predicate)
      simp only [always]
      split
      · exact .refl w
      · split
        · exact hbooks rfl rfl
        · exact hbooks rfl rfl
  | runUntil predicate deadline k => exact callRunUntil_drives _ _ _
  | endRunUntil => exact endRunUntil_drives
  | createTask stamped k => exact fun w => hcreate w _ _
  | start k =>
      intro w
      refine Drives.trans ?_ (hcreate _ _ _)
      exact hbooks rfl rfl
  | finish task outcome =>
      intro w
      have hfinish : Drives w (w.finishTask task outcome) := by
        simp only [finishTask]
        split
        · exact callSoon_after _ rfl fun r hr => ⟨r, hr, rfl⟩
        · exact hbooks rfl rfl
      simp only [userOp, Exec.look]
      split
      · cases outcome with
        | returned => exact hfinish
        | cancelled => exact hfinish
        | raised e =>
            by_cases he : e.kind = .interrupt
            · refine hfinish.trans ?_
              simp only [bind, Exec.update, he, if_true]
              exact hinterrupt e _
            · simp only [bind, Exec.update, he, if_false]
              exact hfinish
      · exact .refl w
  | await task onCancel => exact fun w => hbooks rfl rfl
  | cancelTask task => exact fun w => cancelTask_drives w task
  | interrupt e =>
      intro w
      simp only [userOp]
      split
      · exact hinterrupt e w
      · exact .refl w

omit [Raisable ε] in
/-- The next handle, if it was not cancelled. -/
theorem step_runReady {w v : World ρ μ κ υ ε}
    {h : Handle (Callback μ (Job κ))}
    {ready : List (Handle (Callback μ (Job κ)))}
    (hready : w.net.loop.ready = h :: ready)
    (hv : v = w.withLoop { w.net.loop with ready := ready }) (O : Finset ℕ) :
    Net.step (w.net.own O) .runReady =
      some (if w.net.loop.isCancelled h then v.net.own O
        else (v.net.runCallback h.callback).own O) := by
  subst hv
  simp only [Net.step, show (w.net.own O).loop = w.net.loop from rfl, hready,
    Net.runHandle]
  split
  · next hc =>
    rw [if_pos (by exact hc)]
    rfl
  · next hc =>
    rw [if_neg (by exact hc), ← Net.runCallback_own]
    rfl

/-- A drive puts together what the network's machine can do. -/
theorem drives_kept :
    Kept (Drives : World ρ μ κ υ ε → World ρ μ κ υ ε → Prop) where
  refl := .refl
  trans := .trans
  bookkeeping h := by
    rw [h]
    exact .of_net rfl fun r hr => ⟨r, hr, rfl⟩
  userOp := userOp_drives
  beginStep w b := .of_loop (.beginStep b) (fun _ => rfl) rfl
  skipped := by
    intro w h ready hready hc
    refine .of_loop .runReady (fun O => ?_) rfl
    rw [step_runReady hready rfl, hc]
    rfl
  ran := by
    intro w h ready v hready hv hlive
    subst hv
    refine .of_loop .runReady (fun O => ?_) ?_
    · rw [step_runReady hready rfl, hlive]
      rfl
    · rw [Net.runCallback_owned]
      rfl
  gatherChild w := by
    simp only [gatherChild]
    split
    · split
      · exact callSoon_after _ rfl fun r hr => ⟨r, hr, rfl⟩
      · exact .of_net rfl fun r hr => ⟨r, hr, rfl⟩
    · exact .of_net rfl fun r hr => ⟨r, hr, rfl⟩
  stopping w b := by
    cases b with
    | true => exact .of_loop (.op .stop) (fun _ => rfl) rfl
    | false => exact .of_loop .clearStop (fun _ => rfl) rfl
  resolved := resolve_drives

variable [DecidableEq ε]

/-- The machine gets to the network a drive leaves, if it gives out more
handles. -/
theorem exists_run_drive (g f : ρ) (user : υ) (maxSteps : Option ℕ)
    (script : ℕ → List (List (UserOp μ κ υ ε))) (horizon : ℕ) (main : κ) :
    ∃ as O, Machine.run Net.step (Net.init g f) as =
      some ((drive main (init g f user maxSteps script horizon)).2.net.own
        O) := by
  have hinit : Owns (init g f user maxSteps script horizon : World ρ μ κ υ ε)
      ∅ := ⟨subset_rfl, by rintro r hr; cases hr⟩
  obtain ⟨as, O, -, hrun⟩ := drives_kept.drive main _ ∅ hinit
  exact ⟨as, O, hrun⟩

/-- Whatever program is driven, under whatever limit, and however the drive
ends: the network it leaves is one that the network's machine gets to. -/
theorem drive_net_run (g f : ρ) (user : υ) (maxSteps : Option ℕ)
    (script : ℕ → List (List (UserOp μ κ υ ε))) (horizon : ℕ) (main : κ) :
    ∃ as s, Machine.run Net.step (Net.init g f) as = some s ∧
      (drive main (.init g f user maxSteps script horizon)).2.net =
        s.own (drive main (.init g f user maxSteps script horizon)).2.net.owned
        := by
  obtain ⟨as, O, hrun⟩ :=
    exists_run_drive g f user maxSteps script horizon main
  generalize (drive main (init g f user maxSteps script horizon)).2 = w'
    at hrun ⊢
  exact ⟨as, w'.net.own O, hrun, rfl⟩

end World

end Seedloop
