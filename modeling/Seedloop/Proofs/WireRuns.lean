import Seedloop.Proofs.FaultTrace
import Seedloop.Proofs.Latency
import Seedloop.Proofs.NetRuns
import Seedloop.Spec.Wire

/-!
# Every timeline is one the wire may show

`Wire` knows nothing of handles, heaps or draws, and the network writes no
entry with the wire in mind, so this is a simulation: `Shown` is what the wire
has been told of a state, in two parts. `Posted` is about messages: a letter
has as many copies out as there are deliveries that wait, and each of these is
due within the letter's window. `Planned` is about faults: an agenda is the
fault's timers in the order they wait in.

Everything the wire checks about time then comes from one fact about the loop,
that a handle of the network is never overdue. The order on a reliable link is
that of its `Lane`.
-/

namespace Seedloop

namespace Net

variable {ρ μ υ : Type}

/-! ## What waits -/

/-- A handle of the network that waits is due, and not overdue. -/
theorem OnTime.due {s : Net ρ μ υ} (hs : OnTime s)
    {h : Handle (Callback μ υ)} (hh : h ∈ s.loop.pending)
    (hnet : h.callback.isNet = true) :
    ∃ w, h.when? = some (.fin w) ∧ s.loop.time ≤ w := by
  rcases List.mem_append.mp hh with hready | htimer
  · exact ⟨_, hs.ready h hready hnet, le_rfl⟩
  · obtain ⟨τ, hτ, rfl⟩ := List.mem_map.mp htimer
    obtain ⟨w, hw, hle⟩ := hs.heap τ hτ hnet
    exact ⟨w, by rw [hs.when? τ hτ, hw], hle⟩

/-- What is first of all that waits is first on its link. -/
theorem Lane.first {s : Net ρ μ υ} {src dst : Address} (hs : Lane src dst s)
    (hsorted : s.sentMids.Pairwise (· < ·)) {h : Handle (Callback μ υ)}
    {mid : ℕ} {msg : μ} (hc : h.callback = .deliver mid src dst msg)
    {rest : List (Handle (Callback μ υ))} (hpend : s.loop.pending = h :: rest)
    {h' : Handle (Callback μ υ)} (hh' : h' ∈ s.loop.pending) {mid' : ℕ}
    {msg' : μ} (hc' : h'.callback = .deliver mid' src dst msg') :
    mid ≤ mid' := by
  have hlane : s.lane src dst =
      h :: rest.filter fun h => h.callback.onLink src dst := by
    rw [lane, hpend]
    exact List.filter_cons_of_pos (by simp [hc, Callback.onLink])
  have hmem : mid' ∈ (s.lane src dst).filterMap fun h => h.callback.mid? := by
    refine List.mem_filterMap.mpr ⟨h', ?_, by rw [hc']; rfl⟩
    exact List.mem_filter.mpr ⟨hh', by simp [hc', Callback.onLink]⟩
  have hall := hsorted.sublist (s.sentOn_sublist src dst)
  rw [← hs.balance] at hall
  have hmids := (List.pairwise_append.mp hall).2.1
  rw [hlane, List.filterMap_cons_some (b := mid) (by rw [hc]; rfl)] at hmem hmids
  rcases List.mem_cons.mp hmem with rfl | hmem
  · exact le_rfl
  · exact ((List.pairwise_cons.mp hmids).1 mid' hmem).le

/-! ## What the wire has been told -/

/-- A letter for every message, with a copy for every delivery that waits. -/
structure Posted (s : Net ρ μ υ) (σ : Wire) : Prop where
  letters : σ.letters.length = s.nextMid
  copies : ∀ mid l, σ.letters[mid]? = some l → l.copies = s.underWay mid
  pending : ∀ h ∈ s.loop.pending, ∀ mid src dst msg,
    h.callback = .deliver mid src dst msg → ∃ l w,
      σ.letters[mid]? = some l ∧ l.src = src ∧ l.dst = dst ∧
      h.when? = some (.fin w) ∧ l.earliest ≤ w ∧ w ≤ l.latest
  clock : ∀ src dst, s.linkClock src dst ≤ σ.latestOn src dst

/-- An agenda for every fault, with an item for every timer that waits, and
the registries as they are. -/
structure Planned (s : Net ρ μ υ) (σ : Wire) : Prop where
  agendas : σ.agendas.length = s.nextFaultId
  agenda : ∀ i a, σ.agendas[i]? = some a →
    (s.account i).timers.map (fun h => (h.callback, h.when?)) =
      a.map fun x => (.fault x.2, some (.fin x.1))
  faultPartitions : σ.faultPartitions = s.faultPartitions
  faultSlowLinks : σ.faultSlowLinks = s.faultSlowLinks
  crashed : σ.crashed = s.crashed

structure Shown (s : Net ρ μ υ) (σ : Wire) : Prop where
  now : σ.now ≤ s.loop.time
  posted : Posted s σ
  planned : Planned s σ

theorem init_shown (g f : ρ) : Shown (init g f : Net ρ μ υ) Wire.init := by
  refine ⟨le_rfl, ⟨rfl, ?_, ?_, ?_⟩, ⟨rfl, ?_, rfl, rfl, rfl⟩⟩
  · simp [Wire.init]
  · simp [init, Loop.init, Loop.pending]
  · intro src dst
    exact le_rfl
  · simp [Wire.init]

theorem Posted.idle {s t : Net ρ μ υ} {σ τ : Wire} (hs : Posted s σ)
    (h : Idle s t) (hl : τ.letters = σ.letters) : Posted t τ := by
  refine ⟨?_, ?_, ?_, ?_⟩
  · rw [hl, h.nextMid]
    exact hs.letters
  · rw [hl]
    intro mid l hmid
    rw [h.underWay]
    exact hs.copies mid l hmid
  · rw [hl]
    intro hd hmem mid src dst msg hc
    have : hd ∈ t.loop.pending.filter fun h => h.callback.isDeliver :=
      List.mem_filter.mpr ⟨hmem, by rw [hc]; rfl⟩
    rw [h.pending] at this
    exact hs.pending hd (List.mem_of_mem_filter this) mid src dst msg hc
  · intro src dst
    rw [linkClock, h.reliableClock, Wire.latestOn, hl]
    exact hs.clock src dst

/-- Nothing changes about any fault. -/
structure SameFaults (s t : Net ρ μ υ) : Prop where
  nextFaultId : t.nextFaultId = s.nextFaultId
  account : ∀ i, t.account i = s.account i
  faultPartitions : t.faultPartitions = s.faultPartitions
  faultSlowLinks : t.faultSlowLinks = s.faultSlowLinks
  crashed : t.crashed = s.crashed

theorem Planned.same {s t : Net ρ μ υ} {σ τ : Wire} (hs : Planned s σ)
    (h : SameFaults s t) (ha : τ.agendas = σ.agendas)
    (hp : τ.faultPartitions = σ.faultPartitions)
    (hl : τ.faultSlowLinks = σ.faultSlowLinks)
    (hc : τ.crashed = σ.crashed) : Planned t τ where
  agendas := by rw [ha, h.nextFaultId, hs.agendas]
  agenda i a hi := by
    rw [h.account]
    exact hs.agenda i a (ha ▸ hi)
  faultPartitions := by rw [hp, h.faultPartitions, hs.faultPartitions]
  faultSlowLinks := by rw [hl, h.faultSlowLinks, hs.faultSlowLinks]
  crashed := by rw [hc, h.crashed, hs.crashed]

/-- Nothing that is shown is overdue. -/
theorem Shown.inTime {s : Net ρ μ υ} {σ : Wire} (hs : Shown s σ)
    (hot : OnTime s) : σ.InTime s.loop.time := by
  constructor
  · intro l hl hpos
    obtain ⟨mid, hmid⟩ := List.mem_iff_getElem?.mp hl
    rw [hs.posted.copies mid l hmid, underWay, List.countP_pos_iff] at hpos
    obtain ⟨h, hh, hdel⟩ := hpos
    cases hc : h.callback with
    | deliver m src dst msg =>
        obtain rfl : m = mid := by simpa [hc, Callback.delivers] using hdel
        obtain ⟨l', w, hl', -, -, hwhen, -, hle⟩ :=
          hs.posted.pending h hh m src dst msg hc
        obtain ⟨w', hwhen', hnow⟩ := hot.due hh (by rw [hc]; rfl)
        obtain rfl : w = w' := by simpa [hwhen] using hwhen'
        obtain rfl : l' = l := by simpa [hl'] using hmid
        exact hnow.trans hle
    | _ => simp [hc, Callback.delivers] at hdel
  · intro agenda hagenda x hx
    obtain ⟨i, hi⟩ := List.mem_iff_getElem?.mp hagenda
    exact (not_overdue hot (hs.planned.agenda i agenda hi) hx).1

theorem Planned.factor {s : Net ρ μ υ} {σ : Wire} (hs : Planned s σ)
    (src dst : Address) : σ.factor src dst = s.slowFactor src dst := by
  rw [slowFactor_eq, Wire.factor, hs.faultSlowLinks]
  rfl

/-- One entry, by what it tells. -/
theorem Shown.entry {s : Net ρ μ υ} {σ σ' : Wire} (hs : Shown s σ)
    (hot : OnTime s) {reliable : Address → Bool} {e : Event μ}
    (h : σ.read reliable s.loop.time e = some σ') :
    Wire.step reliable σ (s.loop.time, e) =
      some { σ' with now := s.loop.time } := by
  rw [Wire.step, if_pos ⟨hs.now, hs.inTime hot⟩, h]
  rfl

/-! ## A message is sent -/

/-- When the copies of a send are due, and what its link's clock says then. -/
theorem Sends.due {s t : Net ρ μ υ} {src dst : Address} {msg : μ}
    {endpoint : Endpoint μ} {how : Sent} (hot : OnTime s)
    (h : Sends s t src dst msg endpoint how) {w : ℚ}
    (hw : w = if endpoint.policy.reliable then
      max (s.loop.time + latMax * s.slowFactor endpoint.address dst)
        (s.linkClock endpoint.address dst)
      else s.loop.time + latMax * s.slowFactor endpoint.address dst) :
    (∃ hs : List (Handle (Callback μ υ)),
      t.loop.pending.Perm (hs ++ s.loop.pending) ∧ ∀ h ∈ hs,
        h.callback = .deliver s.nextMid endpoint.address dst msg ∧
        ∃ v, h.when? = some (.fin v) ∧
          s.loop.time + latMin * s.slowFactor endpoint.address dst ≤ v ∧
          v ≤ w) ∧
    ∀ a b, t.linkClock a b = s.linkClock a b ∨
      (a = endpoint.address ∧ b = dst ∧ t.linkClock a b ≤ w) := by
  have hfactor : 0 ≤ s.slowFactor endpoint.address dst :=
    zero_le_one.trans (hot.one_le_slowFactor _ _)
  have hearly : ∀ {base}, Latency base →
      s.loop.time + latMin * s.slowFactor endpoint.address dst ≤
        s.loop.time + base * s.slowFactor endpoint.address dst := by
    intro base hb
    gcongr
    exact hb.1
  have hlate : ∀ {base}, Latency base →
      s.loop.time + base * s.slowFactor endpoint.address dst ≤
        s.loop.time + latMax * s.slowFactor endpoint.address dst := by
    intro base hb
    gcongr
    exact hb.2
  have hallow := h.allowed
  obtain ⟨g, f, rfl⟩ := h.eq
  cases how with
  | reliable base =>
      obtain ⟨hrel, hb⟩ := hallow
      rw [if_pos hrel] at hw
      have hdue : s.due endpoint.address dst base ≤ w := by
        rw [hw]
        exact max_le_max_right _ (hlate hb)
      refine ⟨⟨[_], Loop.pending_callAt _ _ _, ?_⟩, ?_⟩
      · intro h hmem
        rw [List.mem_singleton] at hmem
        subst hmem
        exact ⟨rfl, s.due endpoint.address dst base, rfl,
          (hearly hb).trans (le_max_left _ _), hdue⟩
      · intro a b
        by_cases hlink : a = endpoint.address ∧ b = dst
        · refine .inr ⟨hlink.1, hlink.2, ?_⟩
          refine ((linkClock_insert (s.beginSend endpoint.address dst)
            endpoint.address dst _ a b).trans (if_pos hlink)).trans_le hdue
        · exact .inl ((linkClock_insert (s.beginSend endpoint.address dst)
            endpoint.address dst _ a b).trans (if_neg hlink))
  | dropped =>
      exact ⟨⟨[], .refl _, by simp⟩, fun a b => .inl rfl⟩
  | once base =>
      obtain ⟨hrel, hb⟩ := hallow
      rw [hrel] at hw
      refine ⟨⟨[_], Loop.pending_callAt _ _ _, ?_⟩, fun a b => .inl rfl⟩
      intro h hmem
      rw [List.mem_singleton] at hmem
      subst hmem
      exact ⟨rfl, _, rfl, hearly hb, hw ▸ hlate hb⟩
  | twice base extra =>
      obtain ⟨hrel, hb, hx⟩ := hallow
      rw [hrel] at hw
      refine ⟨⟨[_, _], (Loop.pending_callAt _ _ _).trans
        ((Loop.pending_callAt _ _ _).cons _), ?_⟩, fun a b => .inl rfl⟩
      intro h hmem
      simp only [List.mem_cons, List.not_mem_nil, or_false] at hmem
      rcases hmem with rfl | rfl
      · exact ⟨rfl, _, rfl, hearly hx, hw ▸ hlate hx⟩
      · exact ⟨rfl, _, rfl, hearly hb, hw ▸ hlate hb⟩

end Net

namespace Wire

theorem latestOn_concat (σ : Wire) (l : Letter) (src dst : Address)
    {τ : Wire} (h : τ.letters = σ.letters ++ [l]) : τ.latestOn src dst =
      if l.src = src ∧ l.dst = dst then max (σ.latestOn src dst) l.latest
      else σ.latestOn src dst := by
  rw [latestOn, h, List.filter_append, List.map_append, List.foldl_append]
  by_cases hlink : l.src = src ∧ l.dst = dst
  · rw [if_pos hlink, List.filter_cons_of_pos (by simpa using hlink)]
    rfl
  · rw [if_neg hlink, List.filter_cons_of_neg (by simpa using hlink)]
    rfl

/-- The letter of a send. -/
def letter (reliable : Address → Bool) (σ : Wire) (t : ℚ) (src dst : Address)
    (copies : ℕ) : Letter :=
  ⟨src, dst, t + latMin * σ.factor src dst, σ.deadline reliable t src dst,
    copies⟩

/-- A letter is new at `t`. -/
def sent (σ : Wire) (t : ℚ) (fresh : Bool) (l : Letter) : Wire :=
  { σ with now := t, fresh := fresh, letters := σ.letters ++ [l] }

theorem getElem?_sent (σ : Wire) (t : ℚ) (fresh : Bool) (l : Letter)
    (mid : ℕ) : (σ.sent t fresh l).letters[mid]? =
      if mid = σ.letters.length then some l else σ.letters[mid]? := by
  rw [sent, List.getElem?_append]
  rcases Nat.lt_trichotomy mid σ.letters.length with hlt | rfl | hgt
  · rw [if_pos hlt, if_neg hlt.ne]
  · simp
  · rw [if_neg hgt.not_gt, if_neg hgt.ne', List.getElem?_eq_none hgt.le,
      List.getElem?_eq_none]
    rw [List.length_singleton]
    omega

/-- The entries of a send, whichever way it went. -/
theorem run_sends {μ : Type} {reliable : Address → Bool} {σ : Wire} {t : ℚ}
    (hnow : σ.now ≤ t) (hin : σ.InTime t) {src dst : Address}
    (hdue : t ≤ σ.deadline reliable t src dst) {how : Net.Sent}
    (hallow : how.Allowed (reliable src)) :
    ∃ fresh, Machine.run (Wire.step reliable) σ (how.events.map fun kind =>
        (t, (Event.message kind σ.letters.length src dst : Event μ))) =
      some (σ.sent t fresh (σ.letter reliable t src dst how.copies)) := by
  have hsend : Wire.step reliable σ
      (t, (Event.message .send σ.letters.length src dst : Event μ)) =
        some (σ.sent t true (σ.letter reliable t src dst 1)) := by
    rw [step, if_pos ⟨hnow, hin⟩]
    simp only [read, post, if_true]
    rfl
  have hin' : (σ.sent t true (σ.letter reliable t src dst 1)).InTime t := by
    refine ⟨fun l hl hpos => ?_, hin.2⟩
    rcases List.mem_append.mp hl with hl | hl
    · exact hin.1 l hl hpos
    · rw [List.mem_singleton] at hl
      subst hl
      exact hdue
  -- The entry that follows a send, if there is one.
  have hamend : ∀ kind copies, reliable src = false →
      (kind = .drop ∧ copies = 0 ∨ kind = .duplicate ∧ copies = 2) →
      Wire.step reliable (σ.sent t true (σ.letter reliable t src dst 1))
        (t, (Event.message kind σ.letters.length src dst : Event μ)) =
        some (σ.sent t false (σ.letter reliable t src dst copies)) := by
    intro kind copies hrel hkind
    have hread : (σ.sent t true (σ.letter reliable t src dst 1)).read reliable
        t (Event.message kind σ.letters.length src dst : Event μ) =
        some (σ.sent t false (σ.letter reliable t src dst copies)) := by
      rcases hkind with ⟨rfl, rfl⟩ | ⟨rfl, rfl⟩
      all_goals
        simp only [read, amend, sent]
        simp [letter, hrel]
    rw [step, if_pos ⟨le_rfl, hin'⟩, hread]
    rfl
  cases how with
  | reliable base => exact ⟨true, Machine.run_cons_eq_some.mpr ⟨_, hsend, rfl⟩⟩
  | once base => exact ⟨true, Machine.run_cons_eq_some.mpr ⟨_, hsend, rfl⟩⟩
  | dropped =>
      exact ⟨false, Machine.run_cons_eq_some.mpr ⟨_, hsend,
        Machine.run_cons_eq_some.mpr
          ⟨_, hamend .drop 0 hallow (.inl ⟨rfl, rfl⟩), rfl⟩⟩⟩
  | twice base extra =>
      exact ⟨false, Machine.run_cons_eq_some.mpr ⟨_, hsend,
        Machine.run_cons_eq_some.mpr
          ⟨_, hamend .duplicate 2 hallow.1 (.inr ⟨rfl, rfl⟩), rfl⟩⟩⟩

end Wire

namespace Net

/-- The senders that are reliable where anything is known of them. -/
def Agrees (reliable : Address → Bool) (s : Net ρ μ υ) : Prop :=
  ∀ a e, s.endpoints.lookup a = some e → e.policy.reliable = reliable a

/-- The timeline can be read, and tells of the state. -/
def Told (reliable : Address → Bool) (s : Net ρ μ υ) : Prop :=
  ∃ σ, Machine.run (Wire.step reliable) Wire.init s.timeline = some σ ∧
    Shown s σ

/-- What was read so far is read again, and then what is new. -/
theorem Told.extend {reliable : Address → Bool} {s t : Net ρ μ υ}
    (hs : Told reliable s) {new : List (ℚ × Event μ)}
    (hnew : t.timeline = s.timeline ++ new)
    (hread : ∀ σ, Shown s σ → ∃ τ,
      Machine.run (Wire.step reliable) σ new = some τ ∧ Shown t τ) :
    Told reliable t := by
  obtain ⟨σ, hrun, hσ⟩ := hs
  obtain ⟨τ, hτ, hshown⟩ := hread σ hσ
  refine ⟨τ, ?_, hshown⟩
  rw [hnew]
  exact Machine.run_append_eq_some.mpr ⟨σ, hrun, hτ⟩

/-- Nothing new, and nothing that the wire knows of has changed. -/
theorem Told.same {reliable : Address → Bool} {s t : Net ρ μ υ}
    (hs : Told reliable s) (ht : t.timeline = s.timeline) (hi : Idle s t)
    (hf : SameFaults s t) (htime : s.loop.time ≤ t.loop.time) :
    Told reliable t := by
  have hnew : t.timeline = s.timeline ++ [] := by rw [ht, List.append_nil]
  refine hs.extend hnew fun σ hσ => ?_
  exact ⟨σ, rfl, hσ.now.trans htime, hσ.posted.idle hi rfl,
    hσ.planned.same hf rfl rfl rfl rfl⟩

theorem Posted.sends {s t : Net ρ μ υ} {σ : Wire} (hs : Posted s σ)
    (hp : Planned s σ) (hot : OnTime s) {src dst : Address} {msg : μ}
    {endpoint : Endpoint μ} {how : Sent}
    (h : Sends s t src dst msg endpoint how)
    {reliable : Address → Bool}
    (hrel : reliable endpoint.address = endpoint.policy.reliable)
    (fresh : Bool) : Posted t (σ.sent s.loop.time fresh
      (σ.letter reliable s.loop.time endpoint.address dst how.copies)) := by
  have hlen := hs.letters
  have hfresh : s.underWay s.nextMid = 0 := by
    rw [underWay, List.countP_eq_zero]
    intro h hh hdel
    cases hc : h.callback with
    | deliver mid src dst msg =>
        obtain rfl : mid = s.nextMid := by
          simpa [hc, Callback.delivers] using hdel
        obtain ⟨l, -, hl, -⟩ := hs.pending h hh _ _ _ _ hc
        rw [← hlen, List.getElem?_eq_none le_rfl] at hl
        cases hl
    | _ => simp [hc, Callback.delivers] at hdel
  obtain ⟨⟨hs', hperm, hnew⟩, hclock⟩ := h.due hot rfl
  rw [← hp.factor] at hnew hclock
  have hbound : (if endpoint.policy.reliable then
      max (s.loop.time + latMax * σ.factor endpoint.address dst)
        (s.linkClock endpoint.address dst)
      else s.loop.time + latMax * σ.factor endpoint.address dst) ≤
      σ.deadline reliable s.loop.time endpoint.address dst := by
    rw [Wire.deadline, hrel]
    split
    · exact max_le_max_left _ (hs.clock _ _)
    · exact le_rfl
  refine ⟨?_, ?_, ?_, ?_⟩
  · rw [h.nextMid, ← hlen]
    exact List.length_append
  · intro mid l hl
    rw [Wire.getElem?_sent, hlen] at hl
    rw [h.underWay]
    split_ifs at hl with hmid
    · rw [if_pos hmid, hmid, hfresh, ← Option.some.inj hl]
      rfl
    · rw [if_neg hmid, Nat.zero_add]
      exact hs.copies mid l hl
  · intro hd hmem mid src' dst' msg' hc
    rw [Wire.getElem?_sent, hlen]
    rcases List.mem_append.mp (hperm.subset hmem) with hmem | hmem
    · obtain ⟨hcall, v, hv, hearly, hlate⟩ := hnew hd hmem
      rw [hc, Callback.deliver.injEq] at hcall
      obtain ⟨rfl, rfl, rfl, -⟩ := hcall
      rw [if_pos rfl]
      exact ⟨_, v, rfl, rfl, rfl, hv, hearly, hlate.trans hbound⟩
    · obtain ⟨l, w, hl, hrest⟩ := hs.pending hd hmem mid src' dst' msg' hc
      have hlt := (List.getElem?_eq_some_iff.mp hl).1
      rw [if_neg (by omega)]
      exact ⟨l, w, hl, hrest⟩
  · intro a b
    rw [σ.latestOn_concat _ a b rfl]
    rcases hclock a b with heq | ⟨rfl, rfl, hle⟩
    · rw [heq]
      split
      · exact le_max_of_le_left (hs.clock a b)
      · exact hs.clock a b
    · rw [if_pos ⟨rfl, rfl⟩]
      exact le_max_of_le_right (hle.trans hbound)

theorem Sends.same {s t : Net ρ μ υ} {src dst : Address} {msg : μ}
    {endpoint : Endpoint μ} {how : Sent}
    (h : Sends s t src dst msg endpoint how) : SameFaults s t :=
  ⟨h.account.1, h.account.2, h.frame.faultPartitions,
    h.frame.faultSlowLinks, h.frame.crashed⟩

theorem Told.sends {reliable : Address → Bool} {s t : Net ρ μ υ}
    (hs : Told reliable s) (hot : OnTime s) {src dst : Address} {msg : μ}
    {endpoint : Endpoint μ} {how : Sent}
    (h : Sends s t src dst msg endpoint how)
    (hrel : reliable endpoint.address = endpoint.policy.reliable) :
    Told reliable t := by
  refine hs.extend h.timeline fun σ hσ => ?_
  have hone := hot.one_le_slowFactor endpoint.address dst
  have hdue : s.loop.time ≤
      σ.deadline reliable s.loop.time endpoint.address dst := by
    have hle : s.loop.time ≤
        s.loop.time + latMax * σ.factor endpoint.address dst := by
      rw [hσ.planned.factor]
      have : 0 ≤ latMax := by norm_num [latMax]
      nlinarith
    rw [Wire.deadline]
    split
    · exact hle.trans (le_max_left _ _)
    · exact hle
  have hallow := h.allowed
  rw [← hrel] at hallow
  obtain ⟨fresh, hrun⟩ := Wire.run_sends (μ := μ) hσ.now (hσ.inTime hot) hdue
    hallow
  rw [hσ.posted.letters] at hrun
  refine ⟨_, hrun, ?_, hσ.posted.sends hσ.planned hot h hrel fresh,
    hσ.planned.same h.same rfl rfl rfl rfl⟩
  exact h.quiet.time_eq.ge

end Net

/-! ## A copy arrives -/

theorem cut_self (groups : Option (List (Finset Address))) (a : Address) :
    cut groups a a = false := by
  unfold cut
  split
  · rfl
  · next groups =>
    cases groups.findIdx? (a ∈ ·) with
    | none => rfl
    | some i => simp

theorem Net.reachable_self {ρ μ υ : Type} (s : Net ρ μ υ) (a : Address) :
    s.reachable a a = true := by
  rw [reachable, cut_self, Bool.not_false, Bool.true_and, List.all_eq_true]
  intro e _
  rw [cut_self]
  rfl

namespace Wire

/-- How many copies a letter has out says nothing of when they are due. -/
theorem latestOn_set {σ τ : Wire} {mid : ℕ} {l : Letter} {copies : ℕ}
    (hl : σ.letters[mid]? = some l)
    (h : τ.letters = σ.letters.set mid { l with copies := copies })
    (src dst : Address) : τ.latestOn src dst = σ.latestOn src dst := by
  have hkeys : ∀ υ : Wire, υ.latestOn src dst =
      (((υ.letters.map fun l => (l.src, l.dst, l.latest)).filter
        fun k => k.1 = src ∧ k.2.1 = dst).map fun k => k.2.2).foldl max 0 := by
    intro υ
    rw [List.filter_map, List.map_map]
    rfl
  have hsame : τ.letters.map (fun l => (l.src, l.dst, l.latest)) =
      σ.letters.map fun l => (l.src, l.dst, l.latest) := by
    obtain ⟨hlt, rfl⟩ := List.getElem?_eq_some_iff.mp hl
    rw [h, List.map_set]
    refine List.ext_getElem (by simp) fun i hi hi' => ?_
    rw [List.getElem_set]
    split_ifs with heq
    · subst heq
      simp
    · rfl
  rw [hkeys, hkeys, hsame]

/-- An arrival, with the letter it is of. -/
theorem arrive_eq {reliable : Address → Bool} {σ : Wire} {t : ℚ} {mid : ℕ}
    {l : Letter} (hl : σ.letters[mid]? = some l) (hcopies : 0 < l.copies)
    (hearly : l.earliest ≤ t)
    (hfirst : reliable l.src = true → ∀ l' ∈ σ.letters.take mid,
      l'.src = l.src → l'.dst = l.dst → l'.copies = 0) :
    σ.arrive reliable t mid l.src l.dst = some { σ with
      fresh := false
      letters := σ.letters.set mid { l with copies := l.copies - 1 } } := by
  unfold arrive
  rw [hl]
  exact if_pos ⟨rfl, rfl, hcopies, hearly, hfirst⟩

end Wire

namespace Net

theorem Posted.ends {s t : Net ρ μ υ} {σ τ : Wire} (hs : Posted s σ)
    {mid : ℕ} {src dst : Address} {msg : μ} (h : Ends s t mid src dst msg)
    {l : Letter} (hl : σ.letters[mid]? = some l)
    (hτ : τ.letters = σ.letters.set mid { l with copies := l.copies - 1 }) :
    Posted t τ := by
  have hlt := (List.getElem?_eq_some_iff.mp hl).1
  have hget : ∀ m, τ.letters[m]? =
      if mid = m then some { l with copies := l.copies - 1 }
      else σ.letters[m]? := by
    intro m
    rw [hτ, List.getElem?_set, if_pos hlt]
  refine ⟨?_, ?_, ?_, ?_⟩
  · rw [hτ, List.length_set, h.nextMid]
    exact hs.letters
  · intro m l' hl'
    rw [hget] at hl'
    have hway := h.underWay m
    split_ifs at hl' with hm
    · rw [if_pos hm] at hway
      have := hs.copies mid l hl
      rw [← Option.some.inj hl']
      subst hm
      show l.copies - 1 = t.underWay mid
      omega
    · rw [if_neg hm, Nat.add_zero] at hway
      rw [← hway]
      exact hs.copies m l' hl'
  · intro hd hmem m src' dst' msg' hc
    obtain ⟨h', -, hperm⟩ := h.perm
    obtain ⟨l', w, hl', hrest⟩ := hs.pending hd
      (hperm.symm.subset (List.mem_cons_of_mem _ hmem)) m src' dst' msg' hc
    rw [hget]
    by_cases hm : mid = m
    · subst hm
      obtain rfl : l = l' := by simpa [hl] using hl'
      exact ⟨_, w, if_pos rfl, hrest⟩
    · exact ⟨l', w, by rw [if_neg hm, hl'], hrest⟩
  · intro a b
    rw [linkClock, h.reliableClock, Wire.latestOn_set hl hτ]
    exact hs.clock a b

theorem Told.ends {reliable : Address → Bool} {s t : Net ρ μ υ}
    (hs : Told reliable s) (hot : OnTime s) {mid : ℕ} {src dst : Address}
    {msg : μ} (hlane : reliable src = true → Lane src dst s)
    (hsorted : s.sentMids.Pairwise (· < ·)) {h : Handle (Callback μ υ)}
    (hc : h.callback = .deliver mid src dst msg) (hready : h ∈ s.loop.ready)
    (hpend : s.loop.pending = h :: t.loop.pending)
    (he : Ends s t mid src dst msg) (hf : SameFaults s t)
    (htime : s.loop.time ≤ t.loop.time) : Told reliable t := by
  refine hs.extend he.timeline fun σ hσ => ?_
  have hmem : h ∈ s.loop.pending := List.mem_append_left _ hready
  obtain ⟨l, w, hl, rfl, rfl, hwhen, hearly, -⟩ :=
    hσ.posted.pending h hmem mid src dst msg hc
  obtain rfl : w = s.loop.time := by
    have := hot.ready h hready (by rw [hc]; rfl)
    rw [hwhen] at this
    simpa using this
  have hcopies : 0 < l.copies := by
    rw [hσ.posted.copies mid l hl, underWay, List.countP_pos_iff]
    exact ⟨h, hmem, by simp [hc, Callback.delivers]⟩
  have hfirst : reliable l.src = true → ∀ l' ∈ σ.letters.take mid,
      l'.src = l.src → l'.dst = l.dst → l'.copies = 0 := by
    intro hrel l' hl' hsrc hdst
    obtain ⟨mid', hmid'⟩ := List.mem_iff_getElem?.mp hl'
    rw [List.getElem?_take] at hmid'
    split_ifs at hmid' with hlt
    · by_contra hne
      rw [hσ.posted.copies mid' l' hmid', underWay] at hne
      obtain ⟨h', hh', hdel⟩ :=
        List.countP_pos_iff.mp (Nat.pos_of_ne_zero hne)
      cases hc' : h'.callback with
      | deliver m src' dst' msg' =>
          obtain rfl : m = mid' := by simpa [hc', Callback.delivers] using hdel
          obtain ⟨l'', -, hl'', rfl, rfl, -⟩ :=
            hσ.posted.pending h' hh' m src' dst' msg' hc'
          obtain rfl : l' = l'' := by simpa [hmid'] using hl''
          rw [hsrc, hdst] at hc'
          exact absurd ((hlane hrel).first hsorted hc hpend hh' hc')
            (not_le.mpr hlt)
      | _ => simp [hc', Callback.delivers] at hdel
  have harrive := Wire.arrive_eq hl hcopies hearly hfirst
  have hread : σ.read reliable s.loop.time
      (.message (s.fate l.src l.dst) mid l.src l.dst : Event μ) =
        σ.arrive reliable s.loop.time mid l.src l.dst := by
    unfold fate
    rw [← hσ.planned.crashed]
    by_cases hcrash : l.src ∈ σ.crashed ∨ l.dst ∈ σ.crashed
    · rw [if_pos hcrash]
      exact if_pos hcrash
    · rw [if_neg hcrash]
      obtain ⟨hsrc, hdst⟩ := not_or.mp hcrash
      cases hr : s.reachable l.src l.dst with
      | false =>
          rw [if_pos rfl]
          refine if_pos ⟨?_, hsrc, hdst⟩
          intro heq
          rw [heq, reachable_self] at hr
          cases hr
      | true =>
          rw [if_neg (by decide)]
          refine if_pos ⟨hsrc, hdst, ?_⟩
          rw [reachable, Bool.and_eq_true, List.all_eq_true] at hr
          intro e hmem
          rw [hσ.planned.faultPartitions] at hmem
          simpa using hr.2 e hmem
  rw [harrive] at hread
  refine ⟨_, Machine.run_cons_eq_some.mpr
    ⟨_, hσ.entry hot hread, rfl⟩, htime, hσ.posted.ends he hl rfl, ?_⟩
  exact hσ.planned.same hf rfl rfl rfl rfl

end Net

/-! ## Faults -/

theorem Wire.apply_letters (σ : Wire) (c : FaultCallback) :
    (σ.apply c).letters = σ.letters := by
  cases c <;> rfl

theorem Wire.apply_agendas (σ : Wire) (c : FaultCallback) :
    (σ.apply c).agendas = σ.agendas := by
  cases c <;> rfl

theorem FaultCallback.shows_event {μ : Type} (c : FaultCallback) :
    c.shows (c.event : Event μ) = true := by
  cases c <;> simp [shows, event]

namespace Wire

theorem read_event {μ : Type} (reliable : Address → Bool) (σ : Wire) (t : ℚ)
    (c : FaultCallback) : σ.read reliable t (c.event : Event μ) =
      σ.fire t c.faultId (c.event : Event μ) := by
  cases c <;> rfl

/-- An announcement, with the timers it is of. -/
theorem read_scheduled {μ : Type} (reliable : Address → Bool) (σ : Wire)
    {now seconds : ℚ} {r : Resolved} (hok : r.Ok seconds) (i : ℕ) :
    σ.read reliable now (r.scheduled i now : Event μ) =
      σ.plan now i (r.timers i now) := by
  cases r with
  | partition groups start stop =>
      have hgroups : (groups.map fun g => g.sort (· ≤ ·)).map List.toFinset =
          groups := by
        rw [List.map_map]
        exact (List.map_congr_left fun g _ => g.sort_toFinset _).trans
          groups.map_id
      simp only [read, Resolved.scheduled, Resolved.timers]
      rw [hgroups]
  | slowLink a b factor start stop => exact if_pos hok.1
  | crash node at_ => rfl

theorem timers_inOrder {now seconds : ℚ} {r : Resolved} (hok : r.Ok seconds)
    (i : ℕ) : (now :: (r.timers i now).map Prod.fst).Pairwise (· ≤ ·) := by
  cases r with
  | partition groups start stop =>
      obtain ⟨h0, h1, -⟩ := hok
      simp [Resolved.timers, h0, h1, h0.trans h1]
  | slowLink a b factor start stop =>
      obtain ⟨-, h0, h1, -⟩ := hok
      simp [Resolved.timers, h0, h1, h0.trans h1]
  | crash node at_ => simp [Resolved.timers, hok.1]

end Wire

namespace Net

theorem Told.schedule {reliable : Address → Bool} {s : Net ρ μ υ}
    (hs : Told reliable s) (hwf : s.loop.Wf) (hot : OnTime s)
    (hled : Ledger s) {seconds : ℚ} {r : Resolved} (hok : r.Ok seconds) :
    Told reliable (s.schedule s.loop.time r) := by
  have hi := Idle.schedule s s.loop.time r
  have htime : (s.schedule s.loop.time r).loop.time = s.loop.time :=
    (Quiet.schedule s r).time_eq
  refine hs.extend (schedule_timeline s _ r) fun σ hσ => ?_
  have hlen := hσ.planned.agendas
  have hplan : σ.read reliable s.loop.time
      (r.scheduled s.nextFaultId s.loop.time : Event μ) =
        σ.plan s.loop.time s.nextFaultId (r.timers s.nextFaultId s.loop.time) :=
    Wire.read_scheduled reliable σ hok s.nextFaultId
  rw [Wire.plan, if_pos ⟨hlen.symm, Wire.timers_inOrder hok _⟩] at hplan
  refine ⟨_, Machine.run_cons_eq_some.mpr
    ⟨_, hσ.entry hot hplan, rfl⟩, htime.ge, hσ.posted.idle hi rfl, ?_⟩
  refine ⟨?_, ?_, ?_, ?_, ?_⟩
  · rw [schedule_nextFaultId, ← hlen]
    exact List.length_append
  · intro i a ha
    by_cases hi : i = s.nextFaultId
    · subst hi
      obtain rfl : r.timers s.nextFaultId s.loop.time = a := by
        simpa [← hlen] using ha
      have htells : ((s.schedule s.loop.time r).account
          s.nextFaultId).Tells s.nextFaultId s.loop.time r :=
        schedule_tells hwf ((hled _).2 le_rfl) hok
      obtain ⟨done, rest, hsplit, hevents, htimers, -⟩ := htells
      -- A fault that was just announced has done nothing yet.
      have hnone : (s.account s.nextFaultId).events = [] := by
        rw [(hled _).2 le_rfl]
        rfl
      have hdone : done = [] := by
        have hlist : ((s.schedule s.loop.time r).account
            s.nextFaultId).events = (s.account s.nextFaultId).events ++
              [(s.loop.time, r.scheduled s.nextFaultId s.loop.time)] := by
          simp only [account, schedule_timeline, List.filter_append]
          simp
        rw [hlist, hnone, List.nil_append, List.cons.injEq] at hevents
        simpa using hevents.2.symm
      rw [hsplit, hdone]
      exact htimers
    · rw [schedule_account_of_ne s _ r hi]
      refine hσ.planned.agenda i a ?_
      have hlt : i < σ.agendas.length := by
        obtain ⟨hlt, -⟩ := List.getElem?_eq_some_iff.mp ha
        rw [List.length_append, List.length_singleton] at hlt
        omega
      rwa [List.getElem?_append_left hlt] at ha
  · rw [hσ.planned.faultPartitions]
    cases r <;> rfl
  · rw [hσ.planned.faultSlowLinks]
    cases r <;> rfl
  · rw [hσ.planned.crashed]
    cases r <;> rfl

theorem Told.fault {reliable : Address → Bool} {s : Net ρ μ υ}
    (hs : Told reliable s) (hot : OnTime s) (hled : Ledger s)
    {h : Handle (Callback μ υ)} {ready : List (Handle (Callback μ υ))}
    (hready : s.loop.ready = h :: ready) {c : FaultCallback}
    (hc : h.callback = .fault c) : Told reliable
      (runFault { s with loop := { s.loop with ready := ready } } c) := by
  have htakes := takes_pop hready
  have hi : Idle s
      (runFault { s with loop := { s.loop with ready := ready } } c) :=
    (Idle.takes s htakes (by rw [hc]; rfl)).trans (.runFault _ c)
  refine hs.extend (runFault_timeline _ c) fun σ hσ => ?_
  have hhead : (s.account c.faultId).timers = h :: (account
      { s with loop := { s.loop with ready := ready } } c.faultId).timers := by
    simp only [account, Loop.pending, hready, List.cons_append]
    exact List.filter_cons_of_pos (by simp [hc, Callback.faultId?])
  have hlt : c.faultId < s.nextFaultId := by
    by_contra hge
    rw [(hled c.faultId).2 (not_lt.mp hge)] at hhead
    cases hhead
  obtain ⟨a, ha⟩ : ∃ a, σ.agendas[c.faultId]? = some a :=
    ⟨_, List.getElem?_eq_getElem (by rw [hσ.planned.agendas]; exact hlt)⟩
  have hagenda := hσ.planned.agenda _ a ha
  rw [hhead, List.map_cons] at hagenda
  cases a with
  | nil => cases hagenda
  | cons x rest =>
      obtain ⟨w, c'⟩ := x
      rw [List.map_cons, List.cons.injEq, Prod.mk.injEq] at hagenda
      obtain ⟨⟨hcall, hwhen⟩, htail⟩ := hagenda
      rw [hc, Callback.fault.injEq] at hcall
      subst hcall
      obtain rfl : w = s.loop.time := by
        have := hot.ready h (by rw [hready]; exact List.mem_cons_self)
          (by rw [hc]; rfl)
        rw [hwhen] at this
        simpa using this
      have hread : σ.read reliable s.loop.time (c.event : Event μ) =
          some ({ σ with
            fresh := false
            agendas := σ.agendas.set c.faultId rest }.apply c) := by
        rw [Wire.read_event, Wire.fire, ha]
        exact if_pos ⟨rfl, c.shows_event⟩
      refine ⟨_, Machine.run_cons_eq_some.mpr
        ⟨_, hσ.entry hot hread, rfl⟩, ?_, ?_, ?_, ?_, ?_, ?_, ?_⟩
      · rw [runFault_loop]
      · exact hσ.posted.idle hi (Wire.apply_letters _ c)
      · have hnext : (runFault { s with loop := { s.loop with ready := ready } }
            c).nextFaultId = s.nextFaultId := by
          cases c <;> rfl
        show (Wire.apply _ c).agendas.length = _
        rw [Wire.apply_agendas, List.length_set, hnext]
        exact hσ.planned.agendas
      · intro i a' ha'
        have ha' : (Wire.apply _ c).agendas[i]? = some a' := ha'
        rw [Wire.apply_agendas, List.getElem?_set] at ha'
        split_ifs at ha' with heq hin
        · obtain rfl := Option.some.inj ha'
          subst heq
          rw [← htail]
          simp only [account, runFault_loop]
        · rw [runFault_account_of_ne htakes hc heq]
          exact hσ.planned.agenda i a' ha'
      · have hp := hσ.planned.faultPartitions
        cases c with
        | beginFaultPartition i groups => exact congrArg (·.insert i groups) hp
        | endFaultPartition i => exact congrArg (·.erase i) hp
        | _ => exact hp
      · have hl := hσ.planned.faultSlowLinks
        cases c with
        | beginSlowLink i pair factor =>
            exact congrArg (·.insert i (pair, factor)) hl
        | endSlowLink i => exact congrArg (·.erase i) hl
        | _ => exact hl
      · have hcr := hσ.planned.crashed
        cases c with
        | beginCrash i node => exact congrArg (insert node) hcr
        | _ => exact hcr

/-! ## Over every run -/

/-- An effect that announces no fault records nothing, or what user code
asked for. -/
theorem Effect.entries {s t : Net ρ μ υ} (h : Effect s t) :
    t.timeline = s.timeline ∨
    (∃ e, t.timeline = s.timeline ++ [(s.loop.time, .user e)]) ∨
    ∃ seconds r, Resolved.Ok seconds r ∧ t = s.schedule s.loop.time r := by
  cases h with
  | record event => exact .inr (.inl ⟨event, rfl⟩)
  | schedule seconds r hok => exact .inr (.inr ⟨seconds, r, hok, rfl⟩)
  | sleep seconds k =>
      unfold Net.sleep
      dsimp only
      split <;> exact .inl rfl
  | cancelRunFor fut =>
      unfold Net.finishSleep
      split <;> exact .inl rfl
  | _ => exact .inl rfl

theorem Effect.told {reliable : Address → Bool} {s t : Net ρ μ υ}
    (h : Effect s t) (hwf : s.loop.Wf) (hot : OnTime s) (hled : Ledger s)
    (hs : Told reliable s) : Told reliable t := by
  rcases h.account with ⟨hn, ha⟩ | ⟨seconds, r, hok, rfl⟩
  · have htime : t.loop.time = s.loop.time := h.quiet.time_eq
    have hf : SameFaults s t := ⟨hn, ha, h.frame.faultPartitions,
      h.frame.faultSlowLinks, h.frame.crashed⟩
    rcases h.entries with heq | ⟨e, heq⟩ | ⟨seconds, r, hok, rfl⟩
    · exact hs.same heq h.idle hf htime.ge
    · refine hs.extend heq fun σ hσ => ?_
      have hread : σ.read reliable s.loop.time (.user e : Event μ) =
          some { σ with fresh := false } := rfl
      exact ⟨_, Machine.run_cons_eq_some.mpr ⟨_, hσ.entry hot hread, rfl⟩,
        htime.ge, hσ.posted.idle h.idle rfl,
        hσ.planned.same hf rfl rfl rfl rfl⟩
    · exact hs.schedule hwf hot hled hok
  · exact hs.schedule hwf hot hled hok

/-- What runs of neither a delivery nor a fault records nothing. -/
theorem runHandle_entries (s : Net ρ μ υ) {h : Handle (Callback μ υ)}
    (hnet : h.callback.isNet = false) :
    (runHandle s h).timeline = s.timeline ∧
      (runHandle s h).loop.time = s.loop.time := by
  unfold runHandle
  split
  · exact ⟨rfl, rfl⟩
  · cases hc : h.callback with
    | user k => exact ⟨rfl, rfl⟩
    | resume fut k => exact ⟨rfl, rfl⟩
    | wake fut k =>
        simp only [runCallback, finishSleep]
        split <;> exact ⟨rfl, rfl⟩
    | deliver => simp [hc, Callback.isNet] at hnet
    | fault => simp [hc, Callback.isNet] at hnet

variable [Random ρ]

theorem Agrees.of_step {reliable : Address → Bool} {s t : Net ρ μ υ}
    {a : Act μ υ} (ht : Agrees reliable t) (hh : Handles s)
    (h : step s a = some t) : Agrees reliable s := by
  intro b e he
  obtain ⟨e', he', hp⟩ := (step_keeps hh h).policy b e he
  rw [← hp]
  exact ht b e' he'

theorem Told.step {reliable : Address → Bool} {g f : ρ} {s t : Net ρ μ υ}
    {as : List (Act μ υ)} {a : Act μ υ}
    (hrun : Machine.run Net.step (init g f) as = some s)
    (hrel : Agrees reliable s) (hs : Told reliable s)
    (h : Net.step s a = some t) : Told reliable t := by
  have hh := run_handles hrun
  have hot := run_onTime hrun
  have hwf := run_wf hrun
  have hled := run_ledger hrun
  cases a with
  | op o =>
      simp only [Net.step, Option.map_eq_some_iff] at h
      obtain ⟨⟨t', r⟩, hop, rfl⟩ := h
      rcases op_cases hop with ⟨src, _, _, e, how, -, hsends⟩ | ⟨-, heff⟩
      · refine hs.sends hot hsends ?_
        rw [run_addressed hrun src e hsends.bound]
        exact (hrel src e hsends.bound).symm
      · refine (heff.invariant (I := fun s : Net ρ μ υ => s.loop.Wf ∧
          OnTime s ∧ Ledger s ∧ Told reliable s) ?_ ⟨hwf, hot, hled, hs⟩).2.2.2
        rintro u v he ⟨hwf, hot, hled, hu⟩
        exact ⟨he.quiet.wf hwf, he.onTime hot, he.ledger hwf hled,
          he.told hwf hot hled hu⟩
  | beginStep stopStep =>
      have htime := step_time_le h
      cases h
      refine hs.same rfl (.beginStep hh stopStep) ⟨rfl, fun i => ?_, rfl, rfl,
        rfl⟩ htime
      refine account_of_frame ⟨[], (List.append_nil _).symm, by simp⟩ ?_ rfl rfl
      refine (s.loop.pending_beginStep stopStep).2 _ ?_
      intro τ hτ hof
      refine hh.live (List.mem_append_right _ (List.mem_map_of_mem hτ)) ?_
      cases hc : τ.handle.callback with
      | fault c => rfl
      | _ => rw [hc] at hof; simp [Callback.faultId?] at hof
  | clearStop =>
      cases h
      exact hs.same rfl (.of_pending rfl rfl rfl rfl)
        ⟨rfl, fun i => rfl, rfl, rfl, rfl⟩ le_rfl
  | runReady =>
      have htime := step_time_le h
      simp only [Net.step] at h
      split at h
      · cases h
      · next hd rest hready =>
        cases h
        have hmem : hd ∈ s.loop.pending := by simp [Loop.pending, hready]
        have htakes := takes_pop hready
        have hnext := (runHandle_runs
          { s with loop := { s.loop with ready := rest } } hd).nextFaultId
        rcases hh.runHandle_cases hmem htakes rfl with ⟨hnet, hframe⟩ |
          ⟨c, hc, heq, -⟩ | ⟨mid, src, dst, msg, _, _, hc, heq, hdel⟩
        · have hi : Idle s (runHandle
              { s with loop := { s.loop with ready := rest } } hd) := by
            rcases runHandle_messages hh hmem htakes rfl with ⟨hi, -⟩ |
              ⟨hi, -⟩ | ⟨_, _, _, _, hc, -⟩
            · exact hi
            · exact hi
            · rw [hc] at hnet
              cases hnet
          have hnone : hd.callback.faultId? = none := by
            cases hc : hd.callback with
            | fault => simp [hc, Callback.isNet] at hnet
            | _ => rfl
          exact hs.same (runHandle_entries _ hnet).1 hi
            ⟨hnext, runHandle_account htakes hnone, hframe.faultPartitions,
              hframe.faultSlowLinks, hframe.crashed⟩ htime
        · rw [heq]
          exact hs.fault hot hled hready hc
        · have hnone : hd.callback.faultId? = none := by rw [hc]; rfl
          have hsame : SameFaults s (runHandle
              { s with loop := { s.loop with ready := rest } } hd) :=
            ⟨hnext, runHandle_account htakes hnone, by rw [heq], by rw [heq],
              by rw [heq]⟩
          have hacc := freeRun_accounted (run_free hrun)
          refine hs.ends hot (fun hsrc => ?_) ?_ hc
            (by rw [hready]; exact List.mem_cons_self) ?_
            ⟨hdel, by rw [heq], by rw [heq], hd, hc, by rw [heq]; exact htakes⟩
            hsame htime
          · exact run_lane hrun (fun e he => (hrel src e he).trans hsrc) dst
          · rw [hacc.logged.sentMids]
            exact List.pairwise_lt_range
          · rw [heq]
            simp [Loop.pending, hready]

theorem run_told {reliable : Address → Bool} {g f : ρ} {s : Net ρ μ υ}
    {as : List (Act μ υ)} (h : Machine.run Net.step (init g f) as = some s)
    (hrel : Agrees reliable s) : Told reliable s := by
  induction as using List.reverseRecOn generalizing s with
  | nil =>
      rw [Machine.run_nil, Option.some.injEq] at h
      subst h
      exact ⟨Wire.init, rfl, init_shown g f⟩
  | append_singleton as a ih =>
      obtain ⟨r, hr, hstep⟩ := Machine.run_concat_eq_some.mp h
      have hagrees := hrel.of_step (run_handles hr) hstep
      exact (ih hr hagrees).step hr hagrees hstep

omit [Random ρ] in
/-- The senders that are bound as reliable ones. -/
def reliably (s : Net ρ μ υ) (a : Address) : Bool :=
  (s.endpoints.lookup a).any fun e => e.policy.reliable

omit [Random ρ] in
theorem agrees_reliably (s : Net ρ μ υ) : Agrees s.reliably s := by
  intro a e he
  rw [reliably, he]
  rfl

/-- Every timeline is one the wire may show, and shows the network. In every
state of every run of the loop, with whatever user code did between its moves,
the timeline can be read from its first entry to its last; and what has been
told then is true: a letter for every message, with as many copies out as
there are deliveries that wait, the windows that are open, and the nodes that
are down. -/
theorem timeline_shows {g f : ρ} {s : Net ρ μ υ} {as : List (Act μ υ)}
    (h : Machine.run Net.step (init g f) as = some s) :
    ∃ σ, Machine.run (Wire.step s.reliably) Wire.init s.timeline = some σ ∧
      σ.now ≤ s.loop.time ∧
      σ.letters.map Letter.copies =
        (List.range s.nextMid).map (fun mid => s.underWay mid) ∧
      σ.agendas.length = s.nextFaultId ∧
      σ.faultPartitions = s.faultPartitions ∧
      σ.faultSlowLinks = s.faultSlowLinks ∧ σ.crashed = s.crashed := by
  obtain ⟨σ, hσ, hnow, hposted, hplanned⟩ := run_told h s.agrees_reliably
  refine ⟨σ, hσ, hnow, ?_, hplanned.agendas, hplanned.faultPartitions,
    hplanned.faultSlowLinks, hplanned.crashed⟩
  refine List.ext_getElem (by simp [hposted.letters]) fun i hi hi' => ?_
  rw [List.getElem_map, List.getElem_map, List.getElem_range]
  exact hposted.copies i _ (List.getElem?_eq_getElem _)

/-- A reliable message may not arrive before its latency has passed, and a
timeline may not go on when it is overdue. -/
example : (Machine.run (Wire.step fun _ => true) Wire.init
      [(0, (.message .send 0 1 2 : Event Unit)),
        (1 / 2000, .message .deliver 0 1 2)]).isNone ∧
    (Machine.run (Wire.step fun _ => true) Wire.init
      [(0, (.message .send 0 1 2 : Event Unit)), (1, .user ())]).isNone := by
  decide +kernel

end Net

namespace World

variable {ρ μ κ υ ε : Type} [Random ρ] [Raisable ε] [DecidableEq ε]

/-- Whatever program is driven, under whatever limit, and however the drive
ends, the timeline it leaves can be read from its first entry to its last, each
entry being one the wire may show next; and what has been told by then is true
of the network: a letter for every message, with as many copies out as there
are deliveries that wait, an agenda for every fault, the windows that are open
and the nodes that are down. -/
theorem drive_timeline_shows (g f : ρ) (user : υ) (maxSteps : Option ℕ)
    (script : ℕ → List (List (UserOp μ κ υ ε))) (horizon : ℕ) (main : κ) :
    ∃ s σ, (drive main (.init g f user maxSteps script horizon)).2.net = s ∧
      Machine.run (Wire.step s.reliably) Wire.init s.timeline = some σ ∧
      σ.now ≤ s.loop.time ∧
      σ.letters.map Letter.copies =
        (List.range s.nextMid).map (fun mid => s.underWay mid) ∧
      σ.agendas.length = s.nextFaultId ∧
      σ.faultPartitions = s.faultPartitions ∧
      σ.faultSlowLinks = s.faultSlowLinks ∧ σ.crashed = s.crashed := by
  obtain ⟨as, O, hrun⟩ :=
    exists_run_drive g f user maxSteps script horizon main
  generalize (drive main (init g f user maxSteps script horizon)).2.net = s
    at hrun
  obtain ⟨σ, hσ⟩ := Net.timeline_shows hrun
  exact ⟨s, σ, rfl, hσ⟩

end World

end Seedloop
