import Mathlib.Algebra.Order.BigOperators.GroupWithZero.List
import Seedloop.Proofs.SlowLinks

/-!
# Every message is settled in time

A latency is 20 ms at most before slow links, and they multiply it. So where
their factors on a link never come to more than `F`, nothing that was sent is
under way for longer than `F` times that. A reliable send may have to wait for
one before it on its link; but that one was sent no later, and the bound covers
it too.

When a message is settled, it was dropped as it was sent, or each of its copies
was delivered or cut off. Which of these it can be is up to the policy of the
sender, and a policy of zeros and ones leaves nothing to the draws.
-/

namespace Seedloop

/-- How many copies of a message can come of a policy. -/
def Policy.Makes (p : Policy) : ℕ → Prop
  | 0 => p.reliable = false ∧ 0 < p.loss
  | 1 => p.reliable = true ∨ p.loss < 1 ∧ p.duplicate < 1
  | 2 => p.reliable = false ∧ p.loss < 1 ∧ 0 < p.duplicate
  | _ => False

namespace Net

variable {ρ μ υ : Type}

/-- As far from a send at `t` as a delivery of it can be. -/
def Within (F t q : ℚ) : Prop := t + latMin ≤ q ∧ q ≤ t + latMax * F

/-- Deliveries are as far from their sends as they can be. -/
structure InTime (F : ℚ) (s : Net ρ μ υ) : Prop where
  pending : ∀ h ∈ s.loop.pending, ∀ mid src dst msg,
    h.callback = .deliver mid src dst msg → ∀ t src' dst',
      (t, .message .send mid src' dst') ∈ s.timeline →
      ∃ q, h.when? = some (.fin q) ∧ Within F t q
  ended : ∀ e ∈ s.timeline, ∀ kind mid src dst, kind.ends = true →
    e.2 = .message kind mid src dst → ∀ t src' dst',
      (t, .message .send mid src' dst') ∈ s.timeline → Within F t e.1
  clock : ∀ src dst, s.linkClock src dst ≤ s.loop.time + latMax * F

theorem init_inTime (g f : ρ) {F : ℚ} (hF : 0 ≤ F) :
    InTime F (init g f : Net ρ μ υ) where
  pending := by simp [init, Loop.init, Loop.pending]
  ended := by simp [init]
  clock src dst := by
    have hmax : 0 ≤ latMax * F := mul_nonneg (by norm_num [latMax]) hF
    show (0 : ℚ) ≤ 0 + latMax * F
    linarith

theorem InTime.idle {F : ℚ} {s t : Net ρ μ υ} (hs : InTime F s)
    (h : Idle s t) (htime : s.loop.time ≤ t.loop.time) : InTime F t := by
  obtain ⟨new, hnew, hno⟩ := h.timeline
  have hold : ∀ e ∈ t.timeline, ∀ kind mid src dst,
      e.2 = .message kind mid src dst → e ∈ s.timeline := by
    intro e he kind mid src dst heq
    rw [hnew] at he
    rcases List.mem_append.mp he with he | he
    · exact he
    · exact absurd heq (hno e he kind mid src dst)
  refine ⟨?_, ?_, ?_⟩
  · intro hd hmem mid src dst msg hc time src' dst' hsend
    have hdel : hd ∈ t.loop.pending.filter fun h => h.callback.isDeliver :=
      List.mem_filter.mpr ⟨hmem, by rw [hc]; rfl⟩
    rw [h.pending] at hdel
    exact hs.pending hd (List.mem_of_mem_filter hdel) mid src dst msg hc time
      src' dst' (hold _ hsend .send mid src' dst' rfl)
  · intro e he kind mid src dst hk heq time src' dst' hsend
    exact hs.ended e (hold e he kind mid src dst heq) kind mid src dst hk heq
      time src' dst' (hold _ hsend .send mid src' dst' rfl)
  · intro src dst
    rw [linkClock, h.reliableClock]
    exact (hs.clock src dst).trans (by linarith)

/-- A copy is due within the bound. -/
theorem within_of_mem_dues {F : ℚ} {s : Net ρ μ υ} (hs : InTime F s)
    (hot : OnTime s) {src dst : Address} (hF : s.slowFactor src dst ≤ F)
    {how : Sent} {reliable : Bool} (hok : how.Allowed reliable) :
    ∀ w ∈ s.dues src dst how, Within F s.loop.time w := by
  have hslow := hot.one_le_slowFactor src dst
  have hscaled : ∀ base, Latency base →
      Within F s.loop.time (s.loop.time + base * s.slowFactor src dst) := by
    rintro base ⟨hmin, hmax⟩
    have hpos : (0 : ℚ) < latMin := by norm_num [latMin]
    have hlow : base * 1 ≤ base * s.slowFactor src dst :=
      mul_le_mul_of_nonneg_left hslow (hpos.le.trans hmin)
    have hhigh : base * s.slowFactor src dst ≤ latMax * F :=
      mul_le_mul hmax hF (zero_le_one.trans hslow)
        (hpos.le.trans (hmin.trans hmax))
    exact ⟨by linarith, by linarith⟩
  cases how with
  | reliable base =>
      intro w hw
      obtain rfl := List.mem_singleton.mp hw
      obtain ⟨hmin, hmax⟩ := hscaled base hok.2
      exact ⟨hmin.trans (le_max_left _ _), max_le hmax (hs.clock src dst)⟩
  | dropped => simp [dues]
  | once base => simpa [dues] using hscaled base hok.2
  | twice base extra =>
      simpa [dues] using And.intro (hscaled base hok.2.1)
        (hscaled extra hok.2.2)

theorem sendAs_linkClock_le {F : ℚ} {s : Net ρ μ υ} (hs : InTime F s)
    (hot : OnTime s) {src dst : Address} (hF : s.slowFactor src dst ≤ F)
    (msg : μ) {how : Sent} {reliable : Bool} (hok : how.Allowed reliable)
    (src' dst' : Address) : (s.sendAs src dst msg how).linkClock src' dst' ≤
      s.loop.time + latMax * F := by
  cases how with
  | reliable base =>
      have heq := linkClock_insert (s.beginSend src dst) src dst
        (s.due src dst base) src' dst'
      refine le_of_eq_of_le heq ?_
      split_ifs
      · exact (within_of_mem_dues hs hot hF hok _
          (List.mem_singleton_self _)).2
      · exact hs.clock src' dst'
  | dropped | once base | twice base extra => exact hs.clock src' dst'

theorem InTime.sends {F : ℚ} {s t : Net ρ μ υ} (hs : InTime F s)
    (hot : OnTime s) {log : List (ℕ × Address × Address × μ)}
    (hlog : Logged s log) {src dst : Address} {msg : μ}
    {endpoint : Endpoint μ} {how : Sent} (hF : s.slowFactor src dst ≤ F)
    (h : Sends s t src dst msg endpoint how) : InTime F t := by
  have hids : ∀ x ∈ log, x.1 < s.nextMid := by
    intro x hx
    rw [← List.mem_range, ← hlog.ids]
    exact List.mem_map_of_mem hx
  have hfresh : ∀ e ∈ s.timeline, ∀ kind mid src dst,
      e.2 = .message kind mid src dst → mid < s.nextMid := by
    intro e he kind mid src dst heq
    obtain ⟨msg, hmem⟩ := hlog.events e he kind mid src dst heq
    exact hids _ hmem
  have hline := h.timeline
  have hsend : ∀ time mid src' dst',
      (time, .message .send mid src' dst') ∈ t.timeline →
      (mid < s.nextMid ∧
        (time, .message .send mid src' dst') ∈ s.timeline) ∨
      (mid = s.nextMid ∧ time = s.loop.time) := by
    intro time mid src' dst' hmem
    rw [hline] at hmem
    rcases List.mem_append.mp hmem with hmem | hmem
    · exact .inl ⟨hfresh _ hmem _ _ _ _ rfl, hmem⟩
    · obtain ⟨kind, -, heq⟩ := List.mem_map.mp hmem
      simp only [Prod.mk.injEq, Event.message.injEq] at heq
      exact .inr ⟨heq.2.2.1.symm, heq.1.symm⟩
  have hends : ∀ kind ∈ how.events, MsgEvent.ends kind = false := by
    intro kind hk
    cases how <;> simp [Sent.events] at hk <;> rcases hk with rfl | rfl <;> rfl
  have hallowed := h.allowed
  rw [← hlog.addressed src endpoint h.bound] at hF
  obtain ⟨g, f, rfl⟩ := h.eq
  have hdrawn : InTime F { s with netRng := g, faultsRng := f } :=
    ⟨hs.pending, hs.ended, hs.clock⟩
  have hdrawn' : OnTime { s with netRng := g, faultsRng := f } :=
    hot.of_loop rfl rfl
  refine ⟨?_, ?_, ?_⟩
  · intro hd hmem mid src' dst' msg' hc time a b hmid
    rcases List.mem_append.mp ((sendAs_armed _ _ _ _ _).subset hmem) with
      hmem | hmem
    · obtain ⟨⟨w, i⟩, hw, rfl⟩ := List.mem_map.mp hmem
      simp only [Callback.deliver.injEq] at hc
      obtain ⟨hlt, -⟩ | ⟨-, rfl⟩ := hsend time mid a b hmid
      · exact absurd hc.1 (Nat.ne_of_gt hlt)
      · exact ⟨w, rfl, within_of_mem_dues hdrawn hdrawn' hF hallowed w
          (List.fst_mem_of_mem_zipIdx hw)⟩
    · obtain ⟨-, hold⟩ | ⟨rfl, -⟩ := hsend time mid a b hmid
      · exact hs.pending hd hmem mid src' dst' msg' hc time a b hold
      · exact absurd (hids _ (hlog.pending hd hmem _ _ _ _ hc))
          (lt_irrefl _)
  · intro e he kind mid src' dst' hk heq time a b hmid
    rw [hline] at he
    rcases List.mem_append.mp he with he | he
    · obtain ⟨-, hold⟩ | ⟨rfl, -⟩ := hsend time mid a b hmid
      · exact hs.ended e he kind mid src' dst' hk heq time a b hold
      · exact absurd (hfresh e he kind _ src' dst' heq) (lt_irrefl _)
    · obtain ⟨kind', hk', rfl⟩ := List.mem_map.mp he
      simp only [Event.message.injEq] at heq
      rw [← heq.1, hends kind' hk'] at hk
      cases hk
  · intro a b
    have htime : (sendAs { s with netRng := g, faultsRng := f }
        endpoint.address dst msg how).loop.time = s.loop.time := by
      cases how <;> rfl
    rw [htime]
    exact sendAs_linkClock_le hdrawn hdrawn' hF msg hallowed a b

theorem InTime.ends {F : ℚ} {s t : Net ρ μ υ} (hs : InTime F s)
    (hot : OnTime s) (htime : s.loop.time ≤ t.loop.time)
    {h : Handle (Callback μ υ)} {m : ℕ} {src dst : Address} {msg : μ}
    (hc : h.callback = .deliver m src dst msg) (hready : h ∈ s.loop.ready)
    (hpend : s.loop.pending = h :: t.loop.pending)
    (he : Ends s t m src dst msg) : InTime F t := by
  have hsend : ∀ time mid src' dst',
      (time, .message .send mid src' dst') ∈ t.timeline →
      (time, .message .send mid src' dst') ∈ s.timeline := by
    intro time mid src' dst' hmem
    rw [he.timeline] at hmem
    rcases List.mem_append.mp hmem with hmem | hmem
    · exact hmem
    · rw [List.mem_singleton, Prod.mk.injEq, Event.message.injEq] at hmem
      rcases s.fate_cases src dst with hf | hf | hf <;> rw [hf] at hmem <;>
        cases hmem.2.1
  refine ⟨?_, ?_, ?_⟩
  · intro h' hh' mid src' dst' msg' hc' time a b hmid
    exact hs.pending h' (hpend ▸ List.mem_cons_of_mem _ hh') mid src' dst'
      msg' hc' time a b (hsend time mid a b hmid)
  · intro e hmem kind mid src' dst' hk heq time a b hmid
    rw [he.timeline] at hmem
    rcases List.mem_append.mp hmem with hmem | hmem
    · exact hs.ended e hmem kind mid src' dst' hk heq time a b
        (hsend time mid a b hmid)
    · -- The handle that ran was ready, so the clock read its deadline.
      rw [List.mem_singleton] at hmem
      subst hmem
      simp only [Event.message.injEq] at heq
      obtain ⟨-, rfl, -, -⟩ := heq
      obtain ⟨q, hq, hwithin⟩ := hs.pending h (hpend ▸ List.mem_cons_self) _ _
        _ _ hc time a b (hsend time _ a b hmid)
      rw [hot.ready h hready (by rw [hc]; rfl), Option.some.injEq] at hq
      cases hq
      exact hwithin
  · intro a b
    rw [linkClock, he.reliableClock]
    exact (hs.clock a b).trans (by linarith)

/-! ## What a policy makes -/

/-- Every message has had, and has, as many copies as its sender's policy can
make of one. -/
def Made (s : Net ρ μ υ) (log : List (ℕ × Address × Address × μ)) : Prop :=
  ∀ x ∈ log, ∃ e, s.endpoints.lookup x.2.1 = some e ∧
    e.policy.Makes (s.ended x.1 + s.underWay x.1)

theorem Made.of_same {s t : Net ρ μ υ}
    {log : List (ℕ × Address × Address × μ)} (hs : Made s log)
    (hk : Keeps s t) (h : ∀ x ∈ log, t.ended x.1 + t.underWay x.1 =
      s.ended x.1 + s.underWay x.1) : Made t log := by
  intro x hx
  obtain ⟨e, he, hmakes⟩ := hs x hx
  obtain ⟨e', he', hp⟩ := hk.policy _ e he
  refine ⟨e', he', ?_⟩
  rw [hp, h x hx]
  exact hmakes

theorem Made.idle {s t : Net ρ μ υ} {log : List (ℕ × Address × Address × μ)}
    (hs : Made s log) (hk : Keeps s t) (h : Idle s t) : Made t log := by
  refine hs.of_same hk fun x _ => ?_
  simp only [Net.ended, h.events, h.underWay]

theorem Made.ends {s t : Net ρ μ υ} {log : List (ℕ × Address × Address × μ)}
    (hs : Made s log) {m : ℕ} {src dst : Address} {msg : μ}
    (h : Ends s t m src dst msg) : Made t log := by
  refine hs.of_same h.keeps fun x _ => ?_
  rw [(h.ended x.1).1, h.underWay x.1]
  omega

section

variable [Random ρ]

theorem chance_pos {p : ℚ} {g : ρ} (h : (chance p g).1 = true) : 0 < p := by
  unfold chance at h
  split at h
  · assumption
  · cases h

theorem lt_one_of_not_chance {p : ℚ} {g : ρ} (h : (chance p g).1 = false) :
    p < 1 := by
  unfold chance at h
  split at h
  · have hle : p ≤ (Random.random g).1 := not_lt.mp (of_decide_eq_false h)
    exact hle.trans_lt (Random.random_lt_one g)
  · next hp => exact (not_lt.mp hp).trans_lt one_pos

/-- The draws of a send make as many copies of it as the policy allows. -/
theorem luck_makes {policy : Policy} (hrel : policy.reliable = false) (g : ρ)
    (base : ℚ) : policy.Makes ((luck policy g).1.sent base).copies := by
  unfold luck
  rcases hloss : chance policy.loss g with ⟨_ | _, g'⟩
  · have hlt : policy.loss < 1 := lt_one_of_not_chance (g := g) (by rw [hloss])
    dsimp only
    rcases hdup : chance policy.duplicate g' with ⟨_ | _, g''⟩
    · exact .inr ⟨hlt, lt_one_of_not_chance (g := g') (by rw [hdup])⟩
    · exact ⟨hrel, hlt, chance_pos (g := g') (by rw [hdup])⟩
  · exact ⟨hrel, chance_pos (g := g) (by rw [hloss])⟩

theorem Made.send {s t : Net ρ μ υ} {log : List (ℕ × Address × Address × μ)}
    (hs : Made s log) (hacc : Accounted s log) {src dst : Address} {msg : μ}
    {endpoint : Endpoint μ} {how : Sent}
    (hsends : Sends s t src dst msg endpoint how)
    (h : step s (.op (.send src dst msg)) = some t) :
    Made t (log ++ [(s.nextMid, src, dst, msg)]) := by
  have hk := hsends.frame.keeps
  obtain ⟨how, g, f, rfl, hallowed, hluck⟩ :=
    send_drawn hacc.logged.addressed hsends.bound h
  have hsent : Sends s
      (sendAs { s with netRng := g, faultsRng := f } src dst msg how) src dst
      msg endpoint how := by
    refine ⟨hsends.bound, hallowed, g, f, ?_⟩
    rw [hacc.logged.addressed src endpoint hsends.bound]
  have hended : ∀ mid, ended (sendAs { s with netRng := g, faultsRng := f } src
      dst msg how) mid = s.ended mid := by
    intro mid
    obtain ⟨-, -, -, hdel, hcrash, hpart⟩ := how.balance
    simp only [Net.ended, hsent.events, hdel, hcrash, hpart, ite_self, add_zero]
  intro x hx
  rcases List.mem_append.mp hx with hx | hx
  · have hlt : x.1 < s.nextMid := by
      rw [← List.mem_range, ← hacc.logged.ids]
      exact List.mem_map_of_mem hx
    have hrest : Made (sendAs { s with netRng := g, faultsRng := f } src dst
        msg how) log := by
      refine hs.of_same hk fun y hy => ?_
      have hlt : y.1 < s.nextMid := by
        rw [← List.mem_range, ← hacc.logged.ids]
        exact List.mem_map_of_mem hy
      rw [hended, hsent.underWay, if_neg hlt.ne, zero_add]
    exact hrest x hx
  · rw [List.mem_singleton] at hx
    subst hx
    obtain ⟨e', he', hp⟩ := hk.policy _ endpoint hsends.bound
    refine ⟨e', he', ?_⟩
    have htotal := (hacc.balanced s.nextMid).total
    have hdup := (hacc.balanced s.nextMid).duplicate_le
    rw [if_neg (lt_irrefl _)] at htotal hdup
    have hcopies : s.ended s.nextMid + (how.copies + s.underWay s.nextMid) =
        how.copies := by omega
    rw [hp, hended, hsent.underWay, if_pos rfl, hcopies]
    cases hrel : endpoint.policy.reliable with
    | true =>
        rw [hrel] at hallowed
        cases how with
        | reliable base => exact .inl hrel
        | _ => simp [Sent.Allowed] at hallowed
    | false =>
        rw [hluck hrel]
        exact luck_makes hrel _ _

/-! ## Over every run -/

/-- A step that takes no id sends nothing. -/
theorem sends_of_nextMid {s t : Net ρ μ υ} {a : Act μ υ}
    (h : step s a = some t) (hn : t.nextMid = s.nextMid) :
    sends s (.act a) = [] := by
  unfold sends
  split
  · next src dst msg heq =>
    cases heq
    simp only [step, Option.map_eq_some_iff] at h
    obtain ⟨⟨t', r⟩, hop, rfl⟩ := h
    rcases op_cases hop with ⟨_, _, _, _, _, -, hsends⟩ | ⟨hne, -⟩
    · have hnext : t'.nextMid = s.nextMid + 1 := hsends.nextMid
      have hsame : t'.nextMid = s.nextMid := hn
      omega
    · exact absurd rfl (hne src dst msg)
  · rfl

/-- Slow links never multiply the latency of what is sent in the run by more
than `F`. -/
def Slowed (F : ℚ) (s : Net ρ μ υ) (as : List (Act μ υ)) : Prop :=
  1 ≤ F ∧ ∀ before src dst msg after r,
    as = before ++ .op (.send src dst msg) :: after →
    Machine.run step s before = some r → r.slowFactor src dst ≤ F

omit [Random ρ] in
theorem foldl_factor_le {es : List (Sigma fun _ : ℕ => Finset Address × ℚ)}
    (hes : ∀ e ∈ es, 1 < e.2.2) (pair : Finset Address) {acc : ℚ}
    (hacc : 0 ≤ acc) : es.foldl
      (fun factor e => if e.2.1 = pair then factor * e.2.2 else factor) acc ≤
      acc * (es.map fun e => e.2.2).prod := by
  induction es generalizing acc with
  | nil => simp
  | cons e es ih =>
      obtain ⟨he, hes⟩ := List.forall_mem_cons.mp hes
      have hmul : 0 ≤ acc * e.2.2 := mul_nonneg hacc (one_pos.trans he).le
      have hprod : 0 ≤ (es.map fun e => e.2.2).prod := by
        refine List.prod_nonneg fun q hq => ?_
        obtain ⟨e', he', rfl⟩ := List.mem_map.mp hq
        exact (one_pos.trans (hes e' he')).le
      rw [List.foldl_cons, List.map_cons, List.prod_cons, ← mul_assoc]
      split_ifs
      · exact ih hes hmul
      · exact (ih hes hacc).trans
          (mul_le_mul_of_nonneg_right (le_mul_of_one_le_right hacc he.le) hprod)

omit [Random ρ] in
/-- No link is slowed down by more than all slow links together. -/
theorem OnTime.slowFactor_le {s : Net ρ μ υ} (hs : OnTime s)
    (src dst : Address) : s.slowFactor src dst ≤
      (s.faultSlowLinks.entries.map fun e => e.2.2).prod := by
  have := foldl_factor_le hs.slow {src, dst} zero_le_one
  rwa [one_mul] at this

theorem run_inTime {g f : ρ} {as : List (Act μ υ)} {s : Net ρ μ υ} {F : ℚ}
    (h : Machine.run step (init g f) as = some s)
    (hF : Slowed F (init g f) as) :
    InTime F s ∧
      Made s (Machine.outputs freeStep sends (init g f) (as.map .act)) := by
  induction as using List.reverseRecOn generalizing s with
  | nil =>
      rw [Machine.run_nil, Option.some.injEq] at h
      subst h
      exact ⟨init_inTime g f (zero_le_one.trans hF.1), by rintro x ⟨⟩⟩
  | append_singleton as a ih =>
      obtain ⟨r, hr, hstep⟩ := Machine.run_concat_eq_some.mp h
      have hFr : Slowed F (init g f) as := by
        refine ⟨hF.1, fun before src dst msg after u heq hu => ?_⟩
        refine hF.2 before src dst msg (after ++ [a]) u ?_ hu
        rw [heq, List.append_assoc, List.cons_append]
      obtain ⟨htime, hmade⟩ := ih hr hFr
      have hacc := freeRun_accounted (run_free hr)
      have hhandles := run_handles hr
      have hot := run_onTime hr
      have hle := step_time_le hstep
      have hlog : Machine.outputs freeStep sends (init g f)
          ((as ++ [a]).map .act) = Machine.outputs freeStep sends (init g f)
            (as.map .act) ++ sends r (.act a) := by
        have hfree : freeStep r (.act a) = some s := hstep
        rw [List.map_append, Machine.outputs_append (run_free hr),
          List.map_singleton, Machine.outputs_cons hfree, Machine.outputs_nil,
          List.append_nil]
      rw [hlog]
      rcases step_messages hhandles hstep with
        ⟨src, dst, msg, endpoint, how, rfl, hsends⟩ | ⟨hidle, hkeeps⟩ |
        ⟨hd, mid, src, dst, msg, hc, hready, hpend, hends⟩
      · exact ⟨htime.sends hot hacc.logged
            (hF.2 as src dst msg [] r rfl hr) hsends,
          hmade.send hacc hsends hstep⟩
      · rw [sends_of_nextMid hstep hidle.nextMid, List.append_nil]
        exact ⟨htime.idle hidle hle, hmade.idle hkeeps hidle⟩
      · rw [sends_of_nextMid hstep hends.nextMid, List.append_nil]
        exact ⟨htime.ends hot hle hc hready hpend hends, hmade.ends hends⟩

/-- Every message is settled in time. In any run in which slow links multiply
no latency that is drawn by more than `F`: the copies of a message, those under way and those
that have ended, are as many as its sender's policy can make of one; each ends
at least 1 ms after the send and within 20 ms times `F` of it; and when the
clock has passed that, none is under way any more. -/
theorem settled_in_time {g f : ρ} {as : List (Act μ υ)} {s : Net ρ μ υ}
    {F t : ℚ} (h : Machine.run step (init g f) as = some s)
    (hF : Slowed F (init g f) as) {mid : ℕ} {src dst : Address}
    (hsent : (t, .message .send mid src dst) ∈ s.timeline) :
    (∃ endpoint, s.endpoints.lookup src = some endpoint ∧
      endpoint.policy.Makes (s.ended mid + s.underWay mid)) ∧
    (∀ e ∈ s.timeline, ∀ kind src' dst', kind.ends = true →
      e.2 = .message kind mid src' dst' →
      t + latMin ≤ e.1 ∧ e.1 ≤ t + latMax * F) ∧
    (t + latMax * F < s.loop.time → s.underWay mid = 0) := by
  obtain ⟨htime, hmade⟩ := run_inTime h hF
  have hot := run_onTime h
  have hlog := (freeRun_accounted (run_free h)).logged
  obtain ⟨msg, hmem⟩ := hlog.events _ hsent .send mid src dst rfl
  refine ⟨hmade _ hmem, ?_, ?_⟩
  · intro e he kind src' dst' hk heq
    exact htime.ended e he kind mid src' dst' hk heq t src dst hsent
  · intro hlate
    rw [Net.underWay, List.countP_eq_zero]
    intro hd hpend hdel
    obtain ⟨src', dst', msg', hc⟩ : ∃ src' dst' msg',
        hd.callback = .deliver mid src' dst' msg' := by
      cases hcb : hd.callback with
      | deliver m src' dst' msg' =>
          rw [hcb, Callback.delivers, decide_eq_true_eq] at hdel
          exact ⟨src', dst', msg', by rw [hdel]⟩
      | _ => simp [hcb, Callback.delivers] at hdel
    obtain ⟨q, hq, -, hle⟩ :=
      htime.pending hd hpend mid src' dst' msg' hc t src dst hsent
    have hnet : hd.callback.isNet = true := by rw [hc]; rfl
    -- A handle of the network is not behind the clock.
    have hahead : s.loop.time ≤ q := by
      rcases List.mem_append.mp hpend with hready | htimer
      · rw [hot.ready hd hready hnet, Option.some.injEq] at hq
        cases hq
        exact le_rfl
      · obtain ⟨τ, hτ, rfl⟩ := List.mem_map.mp htimer
        obtain ⟨q', hq', hle'⟩ := hot.heap τ hτ hnet
        rw [hot.when? τ hτ, hq', Option.some.injEq] at hq
        cases hq
        exact hle'
    linarith

/-- A message is doubled while its link takes three times as long. -/
def doubledSlowly : List (Act Unit ℕ) :=
  [.op (.bind 1 false (.int 0) (.int 1)),
    .op (.runFor (.int 1) [.slowLink (some 1) (some 2) (some (.int 3))] 0 0),
    .beginStep false, .runReady, .op (.send 1 2 ()), .beginStep false,
    .runReady, .beginStep false, .runReady, .beginStep false, .runReady]

omit [Random ρ] in
theorem settled_in_time_doubledSlowly : ∃ s : Net Toggle Unit ℕ,
    Machine.run step (init Toggle.low Toggle.low) doubledSlowly = some s ∧
    Slowed 3 (init Toggle.low Toggle.low) doubledSlowly ∧
    (1 / 4, .message .send 0 1 2) ∈ s.timeline ∧ s.underWay 0 = 0 ∧
    (∃ endpoint, s.endpoints.lookup 1 = some endpoint ∧
      endpoint.policy.Makes (s.ended 0 + s.underWay 0)) ∧ s.ended 0 = 2 ∧
    ∀ e ∈ s.timeline, e.2 = .message .deliver 0 1 2 →
      1 / 4 + latMin ≤ e.1 ∧ e.1 ≤ 1 / 4 + latMax * 3 := by
  have hrun : (Machine.run step (init Toggle.low Toggle.low)
      doubledSlowly).isSome := by decide +kernel
  obtain ⟨s, hs⟩ := Option.isSome_iff_exists.mp hrun
  have hslow : Slowed 3 (init Toggle.low Toggle.low) doubledSlowly := by
    refine ⟨by norm_num, fun before src dst msg after r heq hr => ?_⟩
    refine ((run_onTime hr).slowFactor_le src dst).trans ?_
    have hall : ∀ n ≤ doubledSlowly.length,
        (Machine.run step (init Toggle.low Toggle.low)
          (doubledSlowly.take n)).all (fun r =>
            (r.faultSlowLinks.entries.map fun e => e.2.2).prod ≤ 3) = true := by
      decide +kernel
    have hlen : before.length ≤ doubledSlowly.length := by
      rw [heq, List.length_append]
      exact Nat.le_add_right _ _
    have hone := hall before.length hlen
    rw [heq, List.take_left, hr, Option.all_some, decide_eq_true_eq] at hone
    exact hone
  have hseen : ((1 / 4, .message .send 0 1 2) ∈ s.timeline) ∧
      1 / 4 + latMax * 3 < s.loop.time ∧ s.ended 0 = 2 := by
    have := congrArg (Option.map fun s => decide
      ((1 / 4, .message .send 0 1 2) ∈ s.timeline ∧
        1 / 4 + latMax * 3 < s.loop.time ∧ s.ended 0 = 2)) hs
    exact of_decide_eq_true (Option.some.inj (this.symm.trans
      (by decide +kernel)))
  obtain ⟨hsent, hlate, hended⟩ := hseen
  obtain ⟨hmakes, hwithin, hdone⟩ := settled_in_time hs hslow hsent
  exact ⟨s, hs, hslow, hsent, hdone hlate, hmakes, hended,
    fun e he heq => hwithin e he .deliver 1 2 rfl heq⟩

end

end Net

end Seedloop
