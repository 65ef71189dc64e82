import Mathlib.Algebra.BigOperators.Group.List.Basic
import Seedloop.Proofs.Reliable

/-!
# Latencies do not depend on the faults

The `"net"` stream is read in one place, once for each send, before anything
about the send is decided. So after `k` sends it has been advanced `k` times,
whatever else happened, and two runs whose sends agree draw the same latency
for the same send.

What the draw is worth is the deadline of one handle: the first copy of an
unreliable message, which nobody cancels and no later handle is mistaken for.
When its turn comes the clock reads that deadline, which is all there is to say
of the time it arrives at.
-/

namespace Seedloop

namespace Loop

variable {κ : Type}

/-- A handle is old, or numbered from the counter on. -/
theorem step_pending {l l' : Loop κ} {m : Move κ} (h : step l m = some l') :
    l.nextHandle ≤ l'.nextHandle ∧
    ∀ x ∈ l'.pending, x ∈ l.pending ∨ l.nextHandle ≤ x.id := by
  cases m with
  | beginStep stopStep =>
      simp only [step, Option.some.injEq] at h
      obtain ⟨-, -, hnext, -⟩ := beginStep_spec h
      refine ⟨hnext.ge, fun x hx => .inl ?_⟩
      exact (h ▸ (l.pending_beginStep stopStep).1).subset hx
  | callAt when c =>
      simp only [step, Option.some.injEq] at h
      subst h
      refine ⟨Nat.le_succ _, fun x hx => ?_⟩
      rcases List.mem_cons.mp ((l.pending_callAt when c).subset hx) with
        rfl | hx
      · exact .inr le_rfl
      · exact .inl hx
  | callSoon c =>
      simp only [step, Option.some.injEq] at h
      subst h
      refine ⟨Nat.le_succ _, fun x hx => ?_⟩
      rcases List.mem_cons.mp ((l.pending_callSoon c).subset hx) with rfl | hx
      · exact .inr le_rfl
      · exact .inl hx
  | cancel id | stop | clearStop =>
      simp only [step, Option.some.injEq] at h
      subst h
      exact ⟨le_rfl, fun _ hx => .inl hx⟩
  | popReady =>
      simp only [step] at h
      split at h
      · cases h
      · next hd rest hready =>
        simp only [Option.some.injEq] at h
        subst h
        refine ⟨le_rfl, fun x hx => .inl ?_⟩
        rw [pending, hready]
        exact List.mem_cons_of_mem _ hx

theorem run_pending {l l' : Loop κ} {ms : List (Move κ)}
    (h : Machine.run step l ms = some l') :
    l.nextHandle ≤ l'.nextHandle ∧
    ∀ x ∈ l'.pending, x ∈ l.pending ∨ l.nextHandle ≤ x.id := by
  refine Machine.run_preorder (r := fun l l' : Loop κ =>
    l.nextHandle ≤ l'.nextHandle ∧
      ∀ x ∈ l'.pending, x ∈ l.pending ∨ l.nextHandle ≤ x.id)
    (fun _ => ⟨le_rfl, fun _ hx => .inl hx⟩) ?_ step_pending h
  rintro l₁ l₂ l₃ ⟨hle, hold⟩ ⟨hle', hold'⟩
  refine ⟨hle.trans hle', fun x hx => ?_⟩
  rcases hold' x hx with hx | hx
  · exact hold x hx
  · exact .inr (hle.trans hx)

end Loop

namespace Net

variable {ρ μ υ : Type}

/-! ## One draw for each send -/

/-- The send of a move: when, where from, where to. -/
def sendsAt (s : Net ρ μ υ) : Act μ υ → List (ℚ × Address × Address)
  | .op (.send src dst _) => [(s.loop.time, src, dst)]
  | _ => []

/-- The factors of the slow links open between two addresses. -/
def openSlowLinks (s : Net ρ μ υ) (src dst : Address) : List ℚ :=
  (s.faultSlowLinks.entries.filter fun e => e.2.1 = {src, dst}).map
    fun e => e.2.2

theorem foldl_factor (es : List (Sigma fun _ : ℕ => Finset Address × ℚ))
    (pair : Finset Address) (acc : ℚ) :
    es.foldl (fun factor e => if e.2.1 = pair then factor * e.2.2 else factor)
      acc = acc * ((es.filter fun e => e.2.1 = pair).map fun e => e.2.2).prod := by
  induction es generalizing acc with
  | nil => simp
  | cons e es ih =>
      rw [List.foldl_cons, ih]
      by_cases he : e.2.1 = pair
      · rw [if_pos he, List.filter_cons_of_pos (by simpa using he),
          List.map_cons, List.prod_cons, mul_assoc]
      · rw [if_neg he, List.filter_cons_of_neg (by simpa using he)]

/-- Slow links compose by multiplication. -/
theorem slowFactor_eq (s : Net ρ μ υ) (src dst : Address) :
    s.slowFactor src dst = (s.openSlowLinks src dst).prod :=
  (foldl_factor _ _ _).trans (one_mul _)

/-- The policy each address is bound under. -/
def policies (s : Net ρ μ υ) (a : Address) : Option Policy :=
  (s.endpoints.lookup a).map Endpoint.policy

/-- Nothing was drawn and nothing bound. -/
structure Undrawn (s t : Net ρ μ υ) : Prop where
  netRng : t.netRng = s.netRng
  faultsRng : t.faultsRng = s.faultsRng
  policies : t.policies = s.policies

theorem Undrawn.of_endpoints {s t : Net ρ μ υ} (hn : t.netRng = s.netRng)
    (hf : t.faultsRng = s.faultsRng) (he : t.endpoints = s.endpoints) :
    Undrawn s t :=
  ⟨hn, hf, by funext a; rw [Net.policies, he]; rfl⟩

theorem Undrawn.trans {s t u : Net ρ μ υ} (h : Undrawn s t)
    (h' : Undrawn t u) : Undrawn s u :=
  ⟨h'.netRng.trans h.netRng, h'.faultsRng.trans h.faultsRng,
    h'.policies.trans h.policies⟩

theorem Undrawn.of_inbox {s t : Net ρ μ υ} (hn : t.netRng = s.netRng)
    (hf : t.faultsRng = s.faultsRng) {a : Address} {e : Endpoint μ}
    {inbox : Inbox μ} (ha : s.endpoints.lookup a = some e)
    (he : t.endpoints = s.endpoints.insert a { e with inbox := inbox }) :
    Undrawn s t := by
  refine ⟨hn, hf, ?_⟩
  funext b
  rw [Net.policies, Net.policies, he]
  by_cases hb : b = a
  · rw [hb, AList.lookup_insert, ha]
    rfl
  · rw [AList.lookup_insert_ne hb]

theorem Undrawn.finishSleep (s : Net ρ μ υ) (fut : ℕ) :
    Undrawn s (s.finishSleep fut) := by
  unfold Net.finishSleep
  split <;> exact .of_endpoints rfl rfl rfl

theorem Undrawn.deliver (s : Net ρ μ υ) (mid : ℕ) (src dst : Address)
    (msg : μ) : Undrawn s (s.deliver mid src dst msg) := by
  unfold Net.deliver
  split
  · exact .of_endpoints rfl rfl rfl
  · split
    · exact .of_endpoints rfl rfl rfl
    · dsimp only
      split
      · exact .of_endpoints rfl rfl rfl
      · next endpoint hlook => exact .of_inbox rfl rfl hlook rfl

theorem Undrawn.runHandle (s : Net ρ μ υ) (h : Handle (Callback μ υ)) :
    Undrawn s (s.runHandle h) := by
  unfold Net.runHandle
  split
  · exact .of_endpoints rfl rfl rfl
  · unfold runCallback
    split
    · exact .of_endpoints rfl rfl rfl
    · exact .deliver _ _ _ _ _
    · next c _ => cases c <;> exact .of_endpoints rfl rfl rfl
    · exact .finishSleep _ _
    · exact .of_endpoints rfl rfl rfl

theorem Undrawn.inboxAct {s t : Net ρ μ υ} {address : Address}
    {a : Inbox.Act μ} {r : Reply μ} (h : s.inboxAct address a = some (t, r)) :
    Undrawn s t := by
  unfold Net.inboxAct at h
  split at h
  · cases h
  · next endpoint hlook =>
    simp only [Option.map_eq_some_iff, Prod.mk.injEq] at h
    obtain ⟨_, -, rfl, -⟩ := h
    exact .of_inbox rfl rfl hlook rfl

theorem Undrawn.scheduleAll (s : Net ρ μ υ) (now : ℚ) (rs : List Resolved) :
    Undrawn s (s.scheduleAll now rs) := by
  induction rs generalizing s with
  | nil => exact .of_endpoints rfl rfl rfl
  | cons r rs ih =>
      have hr : Undrawn s (s.schedule now r) := by
        cases r <;> exact .of_endpoints rfl rfl rfl
      exact hr.trans (ih (s.schedule now r))

theorem Undrawn.sleep (s : Net ρ μ υ) (seconds : ℚ) (k : υ) :
    Undrawn s (s.sleep seconds k) := by
  unfold Net.sleep
  dsimp only
  split <;> exact .of_endpoints rfl rfl rfl

theorem Undrawn.sendAs (s : Net ρ μ υ) (src dst : Address) (msg : μ)
    (how : Sent) : Undrawn s (s.sendAs src dst msg how) := by
  cases how <;> exact .of_endpoints rfl rfl rfl

theorem bind_rngs {s t : Net ρ μ υ} {address : Address} {reliable : Bool}
    {loss duplicate : Num}
    (h : s.bind address reliable loss duplicate = .ok t) :
    t.netRng = s.netRng ∧ t.faultsRng = s.faultsRng := by
  unfold Net.bind at h
  split at h
  · cases h
  · split at h
    · cases h
    · cases h
    · cases h
      exact ⟨rfl, rfl⟩

variable [Random ρ]

/-- Only sends, binds and `run_for` touch what the draws depend on. -/
theorem op_undrawn {s t : Net ρ μ υ} {o : Op μ υ} {r : Reply μ}
    (h : s.op o = some (t, r)) (hsend : ∀ src dst msg, o ≠ .send src dst msg)
    (hbind : ∀ address reliable loss duplicate,
      o ≠ .bind address reliable loss duplicate)
    (hrun : ∀ seconds faults fuel k, o ≠ .runFor seconds faults fuel k) :
    Undrawn s t := by
  cases o with
  | send src dst msg => exact absurd rfl (hsend src dst msg)
  | bind address reliable loss duplicate =>
      exact absurd rfl (hbind address reliable loss duplicate)
  | runFor seconds faults fuel k => exact absurd rfl (hrun seconds faults fuel k)
  | callAt when k | callLater delay k =>
      simp only [op, userCallLater, userCallAt, Option.some.injEq] at h
      repeat' split at h
      all_goals
        cases h
        exact .of_endpoints rfl rfl rfl
  | cancel handle =>
      simp only [op] at h
      split at h
      · cases h
        exact .of_endpoints rfl rfl rfl
      · cases h
  | recv address task mustCancel | cancelRecv address task
    | resumeRecv address task => exact .inboxAct h
  | cancelRunFor fut =>
      cases h
      have hgiven : Undrawn s { s with abandoned := insert fut s.abandoned } :=
        .of_endpoints rfl rfl rfl
      exact hgiven.trans (.finishSleep _ fut)
  | callSoon k | stop | record event | partition groups | heal =>
      cases h
      exact .of_endpoints rfl rfl rfl

/-- A `run_for` that returns or fails draws from the `"faults"` stream alone,
and binds nothing. -/
theorem runFor_undrawn {s t : Net ρ μ υ} {fuel : ℕ} {seconds : Num}
    {faults : List Fault} {k : υ} {res : Except ApiError Unit}
    (h : s.runFor fuel seconds faults k = some (t, res)) :
    ∃ g, Undrawn { s with faultsRng := g } t := by
  obtain ⟨window, rs, g, -, -, hcase⟩ := runFor_eq h
  have hall := Undrawn.scheduleAll { s with faultsRng := g } s.loop.time rs
  refine ⟨g, ?_⟩
  rcases hcase with ⟨e, -, rfl⟩ | ⟨-, -, -, -, rfl⟩
  · exact hall
  · exact hall.trans (.sleep _ window k)

/-- The stream after `n` draws. -/
def drawn (n : ℕ) : ρ → ρ := (fun g => (Random.random g).2)^[n]

theorem send_netRng (s : Net ρ μ υ) (endpoint : Endpoint μ) (dst : Address)
    (msg : μ) : (s.send endpoint dst msg).netRng =
      (Random.random s.netRng).2 := by
  rw [send_eq]
  split
  · exact (Undrawn.sendAs _ _ _ _ _).netRng
  · exact (Undrawn.sendAs _ _ _ _ _).netRng

theorem op_netRng {s t : Net ρ μ υ} {o : Op μ υ} {r : Reply μ}
    (h : s.op o = some (t, r)) :
    t.netRng = drawn (s.sendsAt (.op o)).length s.netRng := by
  cases o with
  | send src dst msg =>
      simp only [op, Option.map_eq_some_iff, Prod.mk.injEq] at h
      obtain ⟨endpoint, -, rfl, -⟩ := h
      exact send_netRng s endpoint dst msg
  | bind address reliable loss duplicate =>
      simp only [op] at h
      split at h
      · cases h
        rfl
      · next hb =>
        cases h
        exact (bind_rngs hb).1
  | runFor seconds faults fuel k =>
      simp only [op, Option.map_eq_some_iff] at h
      obtain ⟨⟨u, res⟩, hrun, hmap⟩ := h
      obtain ⟨g, hu⟩ := runFor_undrawn hrun
      cases res with
      | error e =>
          cases hmap
          exact hu.netRng
      | ok _ =>
          cases hmap
          exact hu.netRng
  | _ =>
      exact (op_undrawn h (by rintro _ _ _ ⟨⟩) (by rintro _ _ _ _ ⟨⟩)
        (by rintro _ _ _ _ ⟨⟩)).netRng

/-- A move draws one latency for each send it makes. -/
theorem step_netRng {s t : Net ρ μ υ} {a : Act μ υ} (h : step s a = some t) :
    t.netRng = drawn (s.sendsAt a).length s.netRng := by
  cases a with
  | op o =>
      simp only [step, Option.map_eq_some_iff] at h
      obtain ⟨⟨t', r⟩, hop, rfl⟩ := h
      exact op_netRng hop
  | beginStep stopStep | clearStop =>
      cases h
      rfl
  | runReady =>
      simp only [step] at h
      split at h
      · cases h
      · cases h
        exact (Undrawn.runHandle _ _).netRng

theorem run_netRng {s t : Net ρ μ υ} {as : List (Act μ υ)}
    (h : Machine.run step s as = some t) : t.netRng =
      drawn (Machine.outputs step sendsAt s as).length s.netRng := by
  induction as generalizing s with
  | nil =>
      rw [Machine.run_nil, Option.some.injEq] at h
      rw [h]
      rfl
  | cons a as ih =>
      obtain ⟨r, hr, hrun⟩ := Machine.run_cons_eq_some.mp h
      rw [ih hrun, step_netRng hr, Machine.outputs_cons hr, List.length_append,
        Nat.add_comm]
      exact (Function.iterate_add_apply _ _ _ _).symm

/-! ## The first copy -/

omit [Random ρ] in
/-- The deliveries a move runs: the handle, and the clock. -/
def arrivals (s : Net ρ μ υ) : Act μ υ → List (ℕ × ℚ)
  | .runReady =>
      match s.loop.ready with
      | ⟨id, .deliver .., _⟩ :: _ => [(id, s.loop.time)]
      | _ => []
  | _ => []

omit [Random ρ] in
theorem mem_arrivals {s : Net ρ μ υ} {a : Act μ υ} {x : ℕ × ℚ}
    (h : x ∈ s.arrivals a) : ∃ hd ∈ s.loop.ready,
      hd.id = x.1 ∧ hd.callback.isNet = true ∧ x.2 = s.loop.time := by
  unfold arrivals at h
  split at h
  · split at h
    · next id mid src dst msg when rest hready =>
      rw [List.mem_singleton] at h
      subst h
      exact ⟨_, by rw [hready]; exact List.mem_cons_self, rfl, rfl, rfl⟩
    · cases h
  · cases h

/-- The first copy of the message sent between `s` and `t` is on the heap for
`w`, and whatever happens next arrives at `w` if it arrives. -/
structure Original (s t : Net ρ μ υ) (src dst : Address) (msg : μ) (w : ℚ) :
    Prop where
  waits : ⟨s.loop.nextHandle, .deliver s.nextMid src dst msg,
    some (.fin w)⟩ ∈ t.loop.pending
  arrives : ∀ {as u}, Machine.run step t as = some u →
    ∀ x ∈ Machine.outputs step arrivals t as,
      x.1 = s.loop.nextHandle → x.2 = w

/-- A handle of the network arrives when it is due. -/
theorem arrives_at {g f : ρ} {t u : Net ρ μ υ} {before as : List (Act μ υ)}
    (ht : Machine.run step (init g f) before = some t)
    (hu : Machine.run step t as = some u) {h : Handle (Callback μ υ)}
    (hh : h ∈ t.loop.pending) {w : ℚ} (hw : h.when? = some (.fin w))
    {x : ℕ × ℚ} (hx : x ∈ Machine.outputs step arrivals t as)
    (hid : x.1 = h.id) : x.2 = w := by
  obtain ⟨pre, a, post, v, rfl, hv, hmem⟩ :=
    Machine.exists_of_mem_outputs hx
  obtain ⟨hd, hready, hhd, hnet, htime⟩ := mem_arrivals hmem
  have hpend : hd ∈ v.loop.pending := List.mem_append_left _ hready
  -- The handle that runs waited at `t` already, so it is the one in question.
  have hold : hd ∈ t.loop.pending := by
    obtain ⟨ms, hms, -⟩ := run_moves hv
    rcases (Loop.run_pending hms).2 hd hpend with hold | hnew
    · exact hold
    · have := (run_handles ht).id_lt h hh
      omega
  obtain rfl := (run_handles ht).eq_of_id hold hh (hhd.trans hid)
  have hdue := (run_onTime (Machine.run_append_eq_some.mpr ⟨t, ht, hv⟩)).ready
    hd hready hnet
  rw [hw] at hdue
  rw [htime]
  simpa using hdue.symm

/-- An unreliable send is lost, or arms the first copy for its latency. -/
theorem send_unreliable {g f : ρ} {s t : Net ρ μ υ} {as : List (Act μ υ)}
    (hs : Machine.run step (init g f) as = some s) {src dst : Address} {msg : μ}
    (ht : step s (.op (.send src dst msg)) = some t)
    (hrel : ∀ e, s.endpoints.lookup src = some e → e.policy.reliable = false)
    (hkept : t.events .drop s.nextMid = 0) :
    Original s t src dst msg (s.loop.time +
      (Random.uniform latMin latMax s.netRng).1 *
        (s.openSlowLinks src dst).prod) := by
  have hrun : Machine.run step (init g f) (as ++ [.op (.send src dst msg)]) =
      some t := Machine.run_concat_eq_some.mpr ⟨s, hs, ht⟩
  have hwaits : (⟨s.loop.nextHandle, .deliver s.nextMid src dst msg,
      some (.fin (s.loop.time + (Random.uniform latMin latMax s.netRng).1 *
        (s.openSlowLinks src dst).prod))⟩ : Handle (Callback μ υ)) ∈
      t.loop.pending := by
    simp only [step, op, Option.map_map, Option.map_eq_some_iff,
      Function.comp] at ht
    obtain ⟨endpoint, hlook, rfl⟩ := ht
    have haddr := run_addressed hs src endpoint hlook
    rw [send_eq, if_neg (by rw [hrel endpoint hlook]; simp), haddr] at hkept ⊢
    rw [← slowFactor_eq]
    generalize (luck endpoint.policy s.faultsRng).1 = l at hkept ⊢
    cases l with
    | dropped =>
        refine absurd hkept (Nat.pos_iff_ne_zero.mp (List.countP_pos_iff.mpr ?_))
        exact ⟨(s.loop.time, .message .drop s.nextMid src dst),
          List.mem_append_right _ (List.mem_singleton_self _),
          by simp [Event.isMessage]⟩
    | once => exact (Loop.pending_callAt _ _ _).symm.subset List.mem_cons_self
    | twice extra =>
        refine (Loop.pending_callAt _ _ _).symm.subset
          (List.mem_cons_of_mem _ ?_)
        exact (Loop.pending_callAt _ _ _).symm.subset List.mem_cons_self
  exact ⟨hwaits, fun hu x hx hid => arrives_at hrun hu hwaits rfl hx hid⟩

/-! ## Two runs -/

/-- Latencies depend on the number of sends alone. Two runs of any programs,
from one `"net"` stream and two `"faults"` streams, have sent at the same times
on the same links, and now send at the same time on the same link: both have
drawn once for each send so far and now draw once more, so the draw is the
same. If both senders are unreliable, the open slow links are the same and
neither message is lost, the first copy of the one is due when the first copy of
the other is, and arrives then if it does, however the runs go on. -/
theorem latencies_independent {g f₁ f₂ : ρ} {as₁ as₂ : List (Act μ υ)}
    {s₁ s₂ t₁ t₂ : Net ρ μ υ} {src dst : Address} {msg₁ msg₂ : μ}
    (hs₁ : Machine.run step (init g f₁) as₁ = some s₁)
    (hs₂ : Machine.run step (init g f₂) as₂ = some s₂)
    (hsent : Machine.outputs step sendsAt (init g f₁) as₁ =
      Machine.outputs step sendsAt (init g f₂) as₂)
    (hnow : s₁.loop.time = s₂.loop.time)
    (ht₁ : step s₁ (.op (.send src dst msg₁)) = some t₁)
    (ht₂ : step s₂ (.op (.send src dst msg₂)) = some t₂) :
    (∃ k, k = (Machine.outputs step sendsAt (init g f₁) as₁).length ∧
      s₁.netRng = drawn k g ∧ s₂.netRng = drawn k g ∧
      t₁.netRng = drawn (k + 1) g ∧ t₂.netRng = drawn (k + 1) g) ∧
    ((∀ e, s₁.endpoints.lookup src = some e → e.policy.reliable = false) →
      (∀ e, s₂.endpoints.lookup src = some e → e.policy.reliable = false) →
      t₁.events .drop s₁.nextMid = 0 → t₂.events .drop s₂.nextMid = 0 →
      (s₁.openSlowLinks src dst).Perm (s₂.openSlowLinks src dst) →
      ∃ w, Original s₁ t₁ src dst msg₁ w ∧
        Original s₂ t₂ src dst msg₂ w) := by
  have hnet₁ := run_netRng hs₁
  have hnet₂ := run_netRng hs₂
  rw [← hsent] at hnet₂
  constructor
  · refine ⟨_, rfl, hnet₁, hnet₂, ?_, ?_⟩
    · rw [step_netRng ht₁, hnet₁]
      exact (Function.iterate_succ_apply' _ _ _).symm
    · rw [step_netRng ht₂, hnet₂]
      exact (Function.iterate_succ_apply' _ _ _).symm
  · intro hrel₁ hrel₂ hkept₁ hkept₂ hslow
    have h₁ := send_unreliable hs₁ ht₁ hrel₁ hkept₁
    have h₂ := send_unreliable hs₂ ht₂ hrel₂ hkept₂
    refine ⟨_, h₁, ?_⟩
    have hsame : s₁.netRng = s₂.netRng := hnet₁.trans hnet₂.symm
    rw [hnow, hsame, hslow.prod_eq]
    exact h₂

/-- A sender that loses nothing. -/
def losslessSender : List (Act Unit ℕ) :=
  [.op (.bind 1 false (.int 0) (.int 0))]

/-- A sender that draws for a crash, a loss and a duplicate. -/
def faultySender : List (Act Unit ℕ) :=
  [.op (.bind 1 false (.float (.fin (1 / 8))) (.int 1)),
    .op (.runFor (.int 1) [.crash (some 2) none] 0 0)]

theorem latencies_independent_faultySender :
    ∃ s₁ s₂ t₁ t₂ : Net Toggle Unit ℕ,
      Machine.run step (init Toggle.low Toggle.low) losslessSender = some s₁ ∧
      Machine.run step (init Toggle.low Toggle.high) faultySender = some s₂ ∧
      step s₁ (.op (.send 1 2 ())) = some t₁ ∧
      step s₂ (.op (.send 1 2 ())) = some t₂ ∧
      t₂.events .duplicate s₂.nextMid = 1 ∧
      ∃ w, Original s₁ t₁ 1 2 () w ∧ Original s₂ t₂ 1 2 () w := by
  have hrun₁ : (Machine.run step (init Toggle.low Toggle.low)
      (losslessSender ++ [.op (.send 1 2 ())])).isSome := by decide +kernel
  have hrun₂ : (Machine.run step (init Toggle.low Toggle.high)
      (faultySender ++ [.op (.send 1 2 ())])).isSome := by decide +kernel
  obtain ⟨t₁, hrun₁⟩ := Option.isSome_iff_exists.mp hrun₁
  obtain ⟨t₂, hrun₂⟩ := Option.isSome_iff_exists.mp hrun₂
  obtain ⟨s₁, hs₁, ht₁⟩ := Machine.run_concat_eq_some.mp hrun₁
  obtain ⟨s₂, hs₂, ht₂⟩ := Machine.run_concat_eq_some.mp hrun₂
  have hview₁ : (s₁.loop.time, s₁.nextMid, s₁.openSlowLinks 1 2,
      (s₁.endpoints.lookup 1).map fun e => e.policy.reliable) =
      (0, 0, [], some false) := by
    have := congrArg (Option.map fun s => (s.loop.time, s.nextMid,
      s.openSlowLinks 1 2,
      (s.endpoints.lookup 1).map fun e => e.policy.reliable)) hs₁
    exact Option.some.inj (this.symm.trans (by decide +kernel))
  have hview₂ : (s₂.loop.time, s₂.nextMid, s₂.openSlowLinks 1 2,
      (s₂.endpoints.lookup 1).map fun e => e.policy.reliable) =
      (0, 0, [], some false) := by
    have := congrArg (Option.map fun s => (s.loop.time, s.nextMid,
      s.openSlowLinks 1 2,
      (s.endpoints.lookup 1).map fun e => e.policy.reliable)) hs₂
    exact Option.some.inj (this.symm.trans (by decide +kernel))
  have hkept₁ : t₁.events .drop 0 = 0 := by
    have := congrArg (Option.map fun s => s.events .drop 0) hrun₁
    exact Option.some.inj (this.symm.trans (by decide +kernel))
  have hkept₂ : (t₂.events .drop 0, t₂.events .duplicate 0) = (0, 1) := by
    have := congrArg (Option.map fun s =>
      (s.events .drop 0, s.events .duplicate 0)) hrun₂
    exact Option.some.inj (this.symm.trans (by decide +kernel))
  simp only [Prod.mk.injEq] at hview₁ hview₂ hkept₂
  obtain ⟨htime₁, hmid₁, hslow₁, hrel₁⟩ := hview₁
  obtain ⟨htime₂, hmid₂, hslow₂, hrel₂⟩ := hview₂
  refine ⟨s₁, s₂, t₁, t₂, hs₁, hs₂, ht₁, ht₂, hmid₂ ▸ hkept₂.2, ?_⟩
  refine (latencies_independent hs₁ hs₂ (by decide +kernel)
    (htime₁.trans htime₂.symm) ht₁ ht₂).2 ?_ ?_ (hmid₁ ▸ hkept₁)
    (hmid₂ ▸ hkept₂.1) (by rw [hslow₁, hslow₂])
  · intro e he
    rw [he] at hrel₁
    exact Option.some.inj hrel₁
  · intro e he
    rw [he] at hrel₂
    exact Option.some.inj hrel₂

end Net

end Seedloop
