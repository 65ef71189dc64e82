import Seedloop.Proofs.SplitBrain

/-!
# A stable leader suppresses elections

The demo says so of its constants, and this is what it comes to. A leader sends
its heartbeat when it has heard nothing for 50 ms, and a message takes 20 ms at
most, while nobody else gives up before 150 ms. What stands in the way is that
a wait begins anew with every message: a leader that is sent messages is late
with its heartbeat. So the account has a time after which nothing more comes
for the leader, votes that are still on their way included; until then the
heartbeat may be put off, and 150 ms cover that too.

Each of the others is safe in one of two ways. Something of the leader's is on
its way to it and gets there before it can time out, or its wait is so fresh
that this is true of the next heartbeat.
-/

namespace Seedloop

namespace Raft

variable {α : Type}

/-- What may be in flight under a leader: its heartbeats, its requests, and the
votes that it is sent, the last of which gets to it when it is quiet. -/
inductive Awaited (leader : α) (term : ℕ) (quiet : ℚ) : ℚ × Packet α → Prop
  | heartbeat (sent : ℚ) (x : α) (hx : x ≠ leader) :
      Awaited leader term quiet (sent, ⟨leader, x, .heartbeat term leader⟩)
  | request (sent : ℚ) (x : α) (hx : x ≠ leader)
      (h : sent + 2 * latMax ≤ quiet) :
      Awaited leader term quiet (sent, ⟨leader, x, .requestVote term leader⟩)
  | vote (sent : ℚ) (src : α) (t : ℕ) (voter : α) (granted : Bool)
      (h : sent + latMax ≤ quiet) :
      Awaited leader term quiet (sent, ⟨src, leader, .vote t voter granted⟩)

namespace Clocked

/-- The time by which the leader has sent a heartbeat. -/
def nextBeat (s : Clocked α) (leader : α) (quiet : ℚ) : ℚ :=
  max (s.since leader) quiet + heartbeat

/-- It hears from the leader before it can time out. -/
def Reached (s : Clocked α) (leader : α) (quiet : ℚ) (x : α) : Prop :=
  (∃ p ∈ s.flight, p.2.dst = x ∧ p.1 + latMax < s.since x + electionMin) ∨
    s.nextBeat leader quiet + latMax < s.since x + electionMin

/-- It follows the leader, or will by the time its heartbeat of `last` has
arrived. -/
def Follows (s : Clocked α) (leader : α) (term : ℕ) (quiet last : ℚ) (x : α) :
    Prop :=
  ((s.nodes x).role = .follower ∧ (s.nodes x).term = term) ∨
    (∃ sent ≤ last, (sent, ⟨leader, x, .heartbeat term leader⟩) ∈ s.flight) ∨
    s.nextBeat leader quiet ≤ last

end Clocked

/-- A leader whom nobody challenges. -/
structure Unchallenged (m : Members α) (leader : α) (term : ℕ) (quiet : ℚ)
    (s : Clocked α) : Prop where
  leads : (s.nodes leader).role = .leader ∧ (s.nodes leader).term = term
  alone : ∀ x ∈ m.addrs, x ≠ leader → (s.nodes x).role ≠ .leader
  flight : ∀ p ∈ s.flight, Awaited leader term quiet p
  reached : ∀ x ∈ m.addrs, x ≠ leader → s.Reached leader quiet x
  soon : quiet ≤ s.now + 2 * latMax

/-- Nor is anybody ahead of it. -/
structure Reign (m : Members α) (leader : α) (term : ℕ) (quiet : ℚ)
    (s : Clocked α) : Prop extends Unchallenged m leader term quiet s where
  behind : ∀ x ∈ m.addrs, x ≠ leader → (s.nodes x).term ≤ term

theorem Reign.others {m : Members α} {leader : α} {term : ℕ} {quiet : ℚ}
    {s : Clocked α} (h : Reign m leader term quiet s) :
    ∀ x ∈ m.addrs, x ≠ leader →
      (s.nodes x).role ≠ .leader ∧ (s.nodes x).term ≤ term :=
  fun x hx hne => ⟨h.alone x hx hne, h.behind x hx hne⟩

theorem Reign.intro {m : Members α} {leader : α} {term : ℕ} {quiet : ℚ}
    {s : Clocked α}
    (leads : (s.nodes leader).role = .leader ∧ (s.nodes leader).term = term)
    (others : ∀ x ∈ m.addrs, x ≠ leader →
      (s.nodes x).role ≠ .leader ∧ (s.nodes x).term ≤ term)
    (flight : ∀ p ∈ s.flight, Awaited leader term quiet p)
    (reached : ∀ x ∈ m.addrs, x ≠ leader → s.Reached leader quiet x)
    (soon : quiet ≤ s.now + 2 * latMax) : Reign m leader term quiet s :=
  ⟨⟨leads, fun x hx hne => (others x hx hne).1, flight, reached, soon⟩,
    fun x hx hne => (others x hx hne).2⟩

/-- Nothing is overdue, and each node knows the others. -/
structure Punctual (m : Members α) (s : Clocked α) : Prop where
  node : ∀ x, (s.nodes x).addr = x ∧ (s.nodes x).peers = m.peers x
  began : ∀ x, s.since x ≤ s.now
  waits : ∀ x ∈ m.addrs, s.now ≤ s.since x + (s.nodes x).patience.2
  flight : ∀ p ∈ s.flight, s.now ≤ p.1 + latMax

theorem init_punctual (m : Members α) (buggy : Bool) :
    Punctual m (Clocked.init m buggy) where
  node x := ⟨rfl, rfl⟩
  began x := le_rfl
  waits x _ := by
    show (0 : ℚ) ≤ 0 + electionMax
    norm_num [electionMax]
  flight := by simp [Clocked.init]

/-- What going on with `r` makes of a cluster that has `f` in flight. -/
structure Advanced (s : Clocked α) (f : List (ℚ × Packet α)) (t : ℚ) (a : α)
    (r : RaftNode α × List (α × Msg α)) (u : Clocked α) : Prop where
  now : u.now = t
  node : u.nodes a = r.1
  nodes : ∀ x, x ≠ a → u.nodes x = s.nodes x
  wait : u.since a = t
  since : ∀ x, x ≠ a → u.since x = s.since x
  flight : u.flight = f ++ Clocked.sends t r

section

variable {s u : Clocked α} {f : List (ℚ × Packet α)} {t : ℚ} {a : α}
  {r : RaftNode α × List (α × Msg α)}

theorem Advanced.mem_flight (h : Advanced s f t a r u) {q : ℚ × Packet α} :
    q ∈ u.flight ↔ q ∈ f ∨ q ∈ Clocked.sends t r := by
  rw [h.flight, List.mem_append]

/-- A node that goes on as it was. -/
theorem Advanced.nodes_eq (h : Advanced s f t a r u)
    (hr : r.1 = s.nodes a) : u.nodes = s.nodes := by
  funext x
  by_cases hxa : x = a
  · rw [hxa, h.node, hr]
  · exact h.nodes x hxa

theorem Advanced.le_since (h : Advanced s f t a r u) {start : ℚ}
    (hstart : start ≤ t) {x : α} (hx : start ≤ s.since x) :
    start ≤ u.since x := by
  by_cases hxa : x = a
  · rw [hxa, h.wait]
    exact hstart
  · rw [h.since x hxa]
    exact hx

end

section

variable [DecidableEq α]

theorem advance_advanced (s : Clocked α) (f : List (ℚ × Packet α)) (t : ℚ)
    (a : α) (r : RaftNode α × List (α × Msg α)) :
    Advanced s f t a r ({ s with flight := f }.advance t a r) where
  now := rfl
  node := Function.update_self ..
  nodes _ hx := Function.update_of_ne hx ..
  wait := Function.update_self ..
  since _ hx := Function.update_of_ne hx ..
  flight := rfl

/-- A message to somebody else is still in flight. -/
theorem mem_erase_of_dst {f : List (ℚ × Packet α)} {sent : ℚ} {p : Packet α}
    {q : ℚ × Packet α} (hq : q ∈ f) (hdst : q.2.dst ≠ p.dst) :
    q ∈ f.erase (sent, p) := by
  refine (List.mem_erase_of_ne ?_).mpr hq
  rintro rfl
  exact hdst rfl

/-- Moves at times of their own are moves. -/
theorem step_tick {m : Members α} {s t : Clocked α} {a : ℚ × Move α}
    (h : s.step m a = some t) : s.tick m a = some t := by
  have hdue : ∀ {t : ℚ}, s.Free m t → s.Due m t :=
    fun hfree => ⟨hfree.1.le, hfree.2⟩
  obtain ⟨now, a⟩ := a
  cases a with
  | timeout x =>
      simp only [Clocked.step] at h
      split_ifs at h with hx
      rw [← h]
      exact if_pos ⟨hx.1, hdue hx.2.1, hx.2.2⟩
  | handle sent p =>
      simp only [Clocked.step] at h
      split_ifs at h with hp
      rw [← h]
      exact if_pos ⟨hp.1, hdue hp.2.1, hp.2.2⟩

/-- A run with moves at times of their own is a run of the clock. -/
theorem run_tick {m : Members α} {s t : Clocked α} {as : List (ℚ × Move α)}
    (h : Machine.run (Clocked.step m) s as = some t) :
    Machine.run (Clocked.tick m) s as = some t := by
  induction as generalizing s with
  | nil => exact h
  | cons a as ih =>
      obtain ⟨u, hu, hrest⟩ := Machine.run_cons_eq_some.mp h
      exact Machine.run_cons_eq_some.mpr ⟨u, step_tick hu, ih hrest⟩

/-- A handler leaves a node its name and its peers. -/
theorem handle_keeps (node : RaftNode α) (src : α) (msg : Msg α) :
    (node.handle src msg).1.addr = node.addr ∧
      (node.handle src msg).1.peers = node.peers := by
  have hadopt : ∀ term, (node.adoptNewerTerm term).addr = node.addr ∧
      (node.adoptNewerTerm term).peers = node.peers := by
    intro term
    rcases adoptNewerTerm_cases node term with ⟨-, heq⟩ | ⟨-, heq⟩
    all_goals
      rw [heq]
      exact ⟨rfl, rfl⟩
  cases msg with
  | requestVote term c =>
      simp only [RaftNode.handle, RaftNode.onRequestVote]
      split <;> exact hadopt term
  | vote term voter granted =>
      simp only [RaftNode.handle, RaftNode.onVote]
      split
      · split <;> exact ⟨rfl, rfl⟩
      · exact ⟨rfl, rfl⟩
  | heartbeat term l =>
      simp only [RaftNode.handle, RaftNode.onHeartbeat]
      split <;> exact hadopt term

omit [DecidableEq α] in
theorem onTimeout_keeps (node : RaftNode α) :
    node.onTimeout.1.addr = node.addr ∧
      node.onTimeout.1.peers = node.peers := by
  unfold RaftNode.onTimeout
  split <;> exact ⟨rfl, rfl⟩

theorem Punctual.advance {m : Members α} {s : Clocked α} (hs : Punctual m s)
    {t : ℚ} (hfree : s.Due m t) {f : List (ℚ × Packet α)}
    (hf : f ⊆ s.flight) {a : α} {r : RaftNode α × List (α × Msg α)}
    (hr : r.1.addr = (s.nodes a).addr ∧ r.1.peers = (s.nodes a).peers) :
    Punctual m ({ s with flight := f }.advance t a r) := by
  obtain ⟨hnow, hwaits, hflight⟩ := hfree
  have hu := advance_advanced s f t a r
  generalize Clocked.advance _ t a r = u at hu ⊢
  refine ⟨fun x => ?_, fun x => ?_, fun x hx => ?_, fun p hp => ?_⟩
  · by_cases hxa : x = a
    · subst hxa
      rw [hu.node, hr.1, hr.2]
      exact hs.node x
    · rw [hu.nodes x hxa]
      exact hs.node x
  · rw [hu.now]
    by_cases hxa : x = a
    · rw [hxa, hu.wait]
    · rw [hu.since x hxa]
      exact (hs.began x).trans hnow
  · rw [hu.now]
    by_cases hxa : x = a
    · rw [hxa, hu.wait, hu.node]
      have := short_latency r.1
      have hlat : (0 : ℚ) ≤ latMax := by norm_num [latMax]
      linarith
    · rw [hu.since x hxa, hu.nodes x hxa]
      exact hwaits x hx
  · rw [hu.now]
    rcases hu.mem_flight.mp hp with hp | hp
    · exact hflight p (hf hp)
    · obtain ⟨x, -, rfl⟩ := List.mem_map.mp hp
      norm_num [latMax]

theorem Punctual.step {m : Members α} {s t : Clocked α} (hs : Punctual m s)
    {a : ℚ × Move α} (h : s.tick m a = some t) : Punctual m t := by
  obtain ⟨now, a⟩ := a
  cases a with
  | timeout x =>
      simp only [Clocked.tick] at h
      split_ifs at h with hx
      cases h
      exact hs.advance hx.2.1 (List.Subset.refl _) (onTimeout_keeps _)
  | handle sent p =>
      simp only [Clocked.tick] at h
      split_ifs at h with hp
      cases h
      exact hs.advance hp.2.1 List.erase_subset (handle_keeps _ _ _)

/-! ## What is known of a term -/

/-- The term a message is of. -/
def Msg.term : Msg α → ℕ
  | .requestVote term _ | .vote term _ _ | .heartbeat term _ => term

/-- A node is in a term or past it, or a request that brings it there is on its
way to it. -/
def Clocked.Told (s : Clocked α) (term : ℕ) (x : α) : Prop :=
  term ≤ (s.nodes x).term ∨ ∃ sent src t c,
    (sent, ⟨src, x, .requestVote t c⟩) ∈ s.flight ∧ term ≤ t

/-- Whoever begins an election asks all the others, and nothing is lost: a term
that somebody is in, or writes of, is one that everybody is told of. -/
structure Spread (m : Members α) (s : Clocked α) : Prop where
  node : ∀ x ∈ m.addrs, ∀ y ∈ m.addrs, s.Told (s.nodes x).term y
  flight : ∀ p ∈ s.flight, ∀ y ∈ m.addrs, s.Told p.2.msg.term y

omit [DecidableEq α] in
theorem init_spread (m : Members α) (buggy : Bool) :
    Spread m (Clocked.init m buggy) where
  node x _ y _ := .inl le_rfl
  flight := by simp [Clocked.init]

omit [DecidableEq α] in
theorem adoptNewerTerm_term (node : RaftNode α) (term : ℕ) :
    (node.adoptNewerTerm term).term = max node.term term := by
  rcases adoptNewerTerm_cases node term with ⟨hnot, heq⟩ | ⟨hlt, heq⟩
  · rw [heq, max_eq_left (not_lt.mp hnot)]
  · rw [heq, max_eq_right hlt.le]

/-- A message brings a node to its term at most, and a request does so; the
answer is of the term the node is in then. -/
theorem handle_terms (node : RaftNode α) (src : α) (msg : Msg α) :
    node.term ≤ (node.handle src msg).1.term ∧
    (node.handle src msg).1.term ≤ max node.term msg.term ∧
    (∀ t c, msg = .requestVote t c → t ≤ (node.handle src msg).1.term) ∧
    ∀ x ∈ (node.handle src msg).2, x.2.term = (node.handle src msg).1.term := by
  cases msg with
  | requestVote term c =>
      have hadopt := adoptNewerTerm_term node term
      simp only [RaftNode.handle, RaftNode.onRequestVote]
      split_ifs
      all_goals
        refine ⟨hadopt ▸ le_max_left _ _, hadopt.le, ?_, by simp [Msg.term]⟩
        rintro t c ⟨⟩
        exact hadopt ▸ le_max_right _ _
  | vote term voter granted =>
      simp only [RaftNode.handle, RaftNode.onVote]
      split_ifs
      · refine ⟨le_rfl, le_max_left _ _, by rintro t c ⟨⟩, fun x hx => ?_⟩
        obtain ⟨y, -, rfl⟩ := List.mem_map.mp hx
        rfl
      all_goals exact ⟨le_rfl, le_max_left _ _, by rintro t c ⟨⟩, by simp⟩
  | heartbeat term l =>
      have hadopt := adoptNewerTerm_term node term
      simp only [RaftNode.handle, RaftNode.onHeartbeat]
      split_ifs
      all_goals
        exact ⟨hadopt ▸ le_max_left _ _, hadopt.le, by rintro t c ⟨⟩, by simp⟩

omit [DecidableEq α] in
/-- A node that begins an election asks all its peers. -/
theorem onTimeout_terms (node : RaftNode α) :
    node.term ≤ node.onTimeout.1.term ∧
    (node.onTimeout.1.term = node.term ∨ ∀ y ∈ node.peers,
      (y, .requestVote node.onTimeout.1.term node.addr) ∈ node.onTimeout.2) ∧
    ∀ x ∈ node.onTimeout.2, x.2.term = node.onTimeout.1.term := by
  unfold RaftNode.onTimeout
  split_ifs
  · refine ⟨le_rfl, .inl rfl, fun x hx => ?_⟩
    obtain ⟨y, -, rfl⟩ := List.mem_map.mp hx
    rfl
  · refine ⟨Nat.le_succ _, .inr fun y hy => List.mem_map.mpr ⟨y, hy, rfl⟩,
      fun x hx => ?_⟩
    obtain ⟨y, -, rfl⟩ := List.mem_map.mp hx
    rfl

section

variable {m : Members α} {s : Clocked α} {t : ℚ} {f : List (ℚ × Packet α)}
  {a : α} {r : RaftNode α × List (α × Msg α)}

/-- A request is not in flight any more once it has brought its receiver to its
term. -/
theorem Told.advance {term : ℕ} {y : α} (h : s.Told term y)
    (hle : (s.nodes a).term ≤ r.1.term)
    (hdrop : ∀ p ∈ s.flight, p ∉ f → p.2.dst = a ∧
      ∀ t c, p.2.msg = .requestVote t c → t ≤ r.1.term) :
    ({ s with flight := f }.advance t a r).Told term y := by
  have hu := advance_advanced s f t a r
  generalize Clocked.advance _ t a r = u at hu ⊢
  have hself : term ≤ r.1.term → y = a → u.Told term y := by
    rintro hterm rfl
    rw [← hu.node] at hterm
    exact .inl hterm
  rcases h with h | ⟨sent, src, t', c, hmem, h⟩
  · by_cases hy : y = a
    · exact hself ((hy ▸ h).trans hle) hy
    · rw [← hu.nodes y hy] at h
      exact .inl h
  · by_cases hf : (sent, ⟨src, y, .requestVote t' c⟩) ∈ f
    · exact .inr ⟨sent, src, t', c, hu.mem_flight.mpr (.inl hf), h⟩
    · obtain ⟨hdst, hterm⟩ := hdrop _ hmem hf
      exact hself (h.trans (hterm t' c rfl)) hdst

theorem Spread.advance (hs : Spread m s) (hf : f ⊆ s.flight)
    (hle : (s.nodes a).term ≤ r.1.term)
    (hdrop : ∀ p ∈ s.flight, p ∉ f → p.2.dst = a ∧
      ∀ t c, p.2.msg = .requestVote t c → t ≤ r.1.term)
    (hnew : ∀ y ∈ m.addrs,
      ({ s with flight := f }.advance t a r).Told r.1.term y)
    (hout : ∀ x ∈ r.2, x.2.term = r.1.term) :
    Spread m ({ s with flight := f }.advance t a r) := by
  refine ⟨fun x hx y hy => ?_, fun p hp y hy => ?_⟩
  · show Clocked.Told _ (Function.update s.nodes a r.1 x).term y
    by_cases hxa : x = a
    · rw [hxa, Function.update_self]
      exact hnew y hy
    · rw [Function.update_of_ne hxa]
      exact Told.advance (hs.node x hx y hy) hle hdrop
  · rcases List.mem_append.mp hp with hp | hp
    · exact Told.advance (hs.flight p (hf hp) y hy) hle hdrop
    · obtain ⟨x, hx, rfl⟩ := List.mem_map.mp hp
      show Clocked.Told _ x.2.term y
      rw [hout x hx]
      exact hnew y hy

end

theorem Spread.step {m : Members α} {s t : Clocked α} (hs : Spread m s)
    (hp : Punctual m s) {mv : ℚ × Move α} (h : s.tick m mv = some t) :
    Spread m t := by
  obtain ⟨now, mv⟩ := mv
  cases mv with
  | timeout a =>
      simp only [Clocked.tick] at h
      split_ifs at h with ha
      cases h
      obtain ⟨hle, hasks, hout⟩ := onTimeout_terms (s.nodes a)
      have hdrop : ∀ p ∈ s.flight, p ∉ s.flight → p.2.dst = a ∧
          ∀ t c, p.2.msg = .requestVote t c →
            t ≤ (s.nodes a).onTimeout.1.term :=
        fun p hp hnot => absurd hp hnot
      refine hs.advance (List.Subset.refl _) hle hdrop (fun y hy => ?_) hout
      rcases hasks with heq | hasks
      · rw [heq]
        exact Told.advance (hs.node a ha.1 y hy) hle hdrop
      · by_cases hya : y = a
        · refine .inl ?_
          show _ ≤ (Function.update s.nodes a (s.nodes a).onTimeout.1 y).term
          rw [hya, Function.update_self]
        · -- Who is not the candidate is one of its peers.
          have hpeer : y ∈ (s.nodes a).peers := by
            rw [(hp.node a).2]
            have hmem := (m.others a ha.1).mem_iff.mpr hy
            exact (List.mem_cons.mp hmem).resolve_left hya
          exact .inr ⟨now, _, _, _, List.mem_append_right _
            (List.mem_map.mpr ⟨_, hasks y hpeer, rfl⟩), le_rfl⟩
  | handle sent p =>
      simp only [Clocked.tick] at h
      split_ifs at h with hin
      cases h
      obtain ⟨hle, hmax, hreq, hout⟩ :=
        handle_terms (s.nodes p.dst) p.src p.msg
      have hdrop : ∀ q ∈ s.flight, q ∉ s.flight.erase (sent, p) →
          q.2.dst = p.dst ∧ ∀ t c, q.2.msg = .requestVote t c →
            t ≤ ((s.nodes p.dst).handle p.src p.msg).1.term := by
        intro q hq hnot
        by_cases heq : q = (sent, p)
        · rw [heq]
          exact ⟨rfl, hreq⟩
        · exact absurd ((List.mem_erase_of_ne heq).mpr hq) hnot
      refine hs.advance List.erase_subset hle hdrop (fun y hy => ?_) hout
      refine Told.advance ?_ hle hdrop
      rcases le_max_iff.mp hmax with h | h
      · exact (hs.node p.dst hin.1 y hy).imp h.trans
          fun ⟨sent, src, t, c, hmem, ht⟩ => ⟨sent, src, t, c, hmem, h.trans ht⟩
      · exact (hs.flight _ hin.2.2.1 y hy).imp h.trans
          fun ⟨sent, src, t, c, hmem, ht⟩ => ⟨sent, src, t, c, hmem, h.trans ht⟩

theorem run_spread {m : Members α} {buggy : Bool} {as : List (ℚ × Move α)}
    {s : Clocked α}
    (h : Machine.run (Clocked.tick m) (Clocked.init m buggy) as = some s) :
    Spread m s :=
  have hstep : ∀ {s mv t}, Punctual m s ∧ Spread m s →
      s.tick m mv = some t → Punctual m t ∧ Spread m t :=
    fun hs h => ⟨hs.1.step h, hs.2.step hs.1 h⟩
  (Machine.run_invariant hstep
    ⟨init_punctual m buggy, init_spread m buggy⟩ h).2

omit [DecidableEq α] in
/-- Nobody is ahead of a node that no request is on its way to. -/
theorem Spread.term_le {m : Members α} {s : Clocked α} (hs : Spread m s)
    {x y : α} (hx : x ∈ m.addrs) (hy : y ∈ m.addrs)
    (h : ∀ p ∈ s.flight, ∀ t c, p.2.msg = .requestVote t c → p.2.dst ≠ y) :
    (s.nodes x).term ≤ (s.nodes y).term := by
  rcases hs.node x hx y hy with hle | ⟨sent, src, t, c, hmem, -⟩
  · exact hle
  · exact absurd rfl (h _ hmem t c rfl)

omit [DecidableEq α] in
/-- That nobody is ahead of a leader follows from what is in flight under it. -/
theorem Unchallenged.reign {m : Members α} {leader : α} {term : ℕ} {quiet : ℚ}
    {s : Clocked α} (hs : Unchallenged m leader term quiet s)
    (hspread : Spread m s) (hL : leader ∈ m.addrs) :
    Reign m leader term quiet s := by
  refine ⟨hs, fun x hx hne => ?_⟩
  refine (hspread.term_le hx hL fun p hp t c hmsg => ?_).trans hs.leads.2.le
  cases hs.flight p hp with
  | heartbeat | vote => cases hmsg
  | request _ _ hx _ => exact hx

/-! ## What the nodes answer -/

omit [DecidableEq α] in
/-- Whoever is not ahead follows whom it has a heartbeat from. -/
theorem onHeartbeat_follows {node : RaftNode α} {term : ℕ}
    (h : node.term ≤ term) :
    (node.onHeartbeat term).role = .follower ∧
      (node.onHeartbeat term).term = term := by
  have hadopt : (node.adoptNewerTerm term).term = term := by
    rcases adoptNewerTerm_cases node term with ⟨hlt, heq⟩ | ⟨-, heq⟩
    · rw [heq]
      omega
    · rw [heq]
  simp only [RaftNode.onHeartbeat]
  split_ifs with hstep
  · exact ⟨rfl, hadopt⟩
  · refine ⟨?_, hadopt⟩
    by_contra hrole
    exact hstep ⟨hadopt.symm, hrole⟩

/-- Whoever is not ahead and does not lead answers a request in its term. -/
theorem onRequestVote_answers {node : RaftNode α} {term : ℕ}
    (h : node.term ≤ term) (hrole : node.role ≠ .leader) (src : α) :
    (node.onRequestVote src term).1.role ≠ .leader ∧
    (node.onRequestVote src term).1.term = term ∧
    (node.role = .follower →
      (node.onRequestVote src term).1.role = .follower) ∧
    ∃ granted, (node.onRequestVote src term).2 =
      [(src, .vote term node.addr granted)] := by
  have hadopt : (node.adoptNewerTerm term).role ≠ .leader ∧
      (node.adoptNewerTerm term).term = term ∧
      (node.role = .follower →
        (node.adoptNewerTerm term).role = .follower) ∧
      (node.adoptNewerTerm term).addr = node.addr := by
    rcases adoptNewerTerm_cases node term with ⟨hlt, heq⟩ | ⟨-, heq⟩
    · rw [heq]
      exact ⟨hrole, by omega, id, rfl⟩
    · rw [heq]
      exact ⟨by rintro ⟨⟩, rfl, fun _ => rfl, rfl⟩
  obtain ⟨hlead, hterm, hfollow, haddr⟩ := hadopt
  simp only [RaftNode.onRequestVote]
  split_ifs with hgrant
  · exact ⟨hlead, hterm, hfollow, true, by rw [hterm, haddr]⟩
  · exact ⟨hlead, hterm, hfollow, false, by rw [hterm, haddr]⟩

/-- A leader does not count votes any more. -/
theorem onVote_leader {node : RaftNode α} (h : node.role = .leader) (term : ℕ)
    (voter : α) (granted : Bool) :
    node.onVote term voter granted = (node, []) := by
  rw [RaftNode.onVote, if_neg]
  rintro ⟨-, hrole, -⟩
  rw [h] at hrole
  cases hrole

/-! ## A step -/

omit [DecidableEq α] in
theorem ne_of_mem_peers {m : Members α} {a x : α} (ha : a ∈ m.addrs)
    (hx : x ∈ m.peers a) : x ≠ a := by
  have hnd : (a :: m.peers a).Nodup := (m.others a ha).nodup_iff.mpr m.nodup
  rintro rfl
  exact (List.nodup_cons.mp hnd).1 hx

/-- A heartbeat that is put off for as long as it can be is in time. -/
theorem beat_fits : heartbeat + 3 * latMax < electionMin := by
  norm_num [heartbeat, latMax, electionMin]

theorem latMax_nonneg : 0 ≤ latMax := by norm_num [latMax]

section

variable {m : Members α} {leader : α} {term : ℕ} {quiet : ℚ} {s : Clocked α}

/-- Nobody else gets to time out. -/
theorem Reign.leader_of_timeout (hs : Reign m leader term quiet s) {t : ℚ}
    (hL : leader ∈ m.addrs) (hfree : s.Due m t) {x : α} (hx : x ∈ m.addrs)
    (hwait : s.since x + (s.nodes x).patience.1 ≤ t) : x = leader := by
  by_contra hne
  obtain ⟨-, hwaits, hflight⟩ := hfree
  have hpatience : (s.nodes x).patience.1 = electionMin := by
    rw [RaftNode.patience, if_neg (hs.others x hx hne).1]
  rw [hpatience] at hwait
  rcases hs.reached x hx hne with ⟨p, hp, -, hlt⟩ | hlt
  · have := hflight p hp
    linarith
  · have hbeat := hwaits leader hL
    rw [RaftNode.patience, if_pos hs.leads.1] at hbeat
    have hsince := le_max_left (s.since leader) quiet
    rw [Clocked.nextBeat] at hlt
    have := latMax_nonneg
    linarith

/-- The leader times out, and sends its heartbeat. -/
theorem Reign.beat (hs : Reign m leader term quiet s) (hp : Punctual m s)
    (hL : leader ∈ m.addrs) {t : ℚ} (hfree : s.Due m t) :
    Reign m leader term quiet
      (s.advance t leader (s.nodes leader).onTimeout) ∧
    ∀ last, ∀ x ∈ m.addrs, x ≠ leader →
      s.Follows leader term quiet last x →
      (s.advance t leader (s.nodes leader).onTimeout).Follows leader term quiet
        last x := by
  obtain ⟨hnow, hwaits, -⟩ := hfree
  have hbeat := hwaits leader hL
  rw [RaftNode.patience, if_pos hs.leads.1] at hbeat
  have hnext : t ≤ s.nextBeat leader quiet := by
    rw [Clocked.nextBeat]
    have := le_max_left (s.since leader) quiet
    linarith
  have hout : (s.nodes leader).onTimeout = (s.nodes leader,
      (s.nodes leader).broadcast (.heartbeat term leader)) := by
    rw [RaftNode.onTimeout, if_pos hs.leads.1, hs.leads.2, (hp.node leader).1]
  rw [hout]
  have hu := advance_advanced s s.flight t leader (s.nodes leader,
    (s.nodes leader).broadcast (.heartbeat term leader))
  generalize Clocked.advance _ t leader _ = u at hu ⊢
  have hnodes := hu.nodes_eq rfl
  have hold : ∀ p ∈ s.flight, p ∈ u.flight :=
    fun p hp => hu.mem_flight.mpr (.inl hp)
  have hnew : ∀ x ∈ m.addrs, x ≠ leader →
      (t, ⟨leader, x, .heartbeat term leader⟩) ∈ u.flight := by
    intro x hx hne
    refine hu.mem_flight.mpr (.inr ?_)
    simp only [Clocked.sends, RaftNode.broadcast, List.map_map, List.mem_map,
      (hp.node leader).1, (hp.node leader).2]
    exact ⟨x, ((mem_peers hL).mp hx).resolve_left hne, rfl⟩
  refine ⟨.intro ?_ ?_ (fun p hmem => ?_) (fun x hx hne => .inl ?_) ?_, ?_⟩
  · rw [hnodes]
    exact hs.leads
  · rw [hnodes]
    exact hs.others
  · rcases hu.mem_flight.mp hmem with hmem | hmem
    · exact hs.flight p hmem
    · simp only [Clocked.sends, RaftNode.broadcast, List.map_map, List.mem_map,
        (hp.node leader).1, (hp.node leader).2] at hmem
      obtain ⟨x, hx, rfl⟩ := hmem
      exact .heartbeat t x (ne_of_mem_peers hL hx)
  · rw [hu.since x hne]
    rcases hs.reached x hx hne with ⟨p, hp, hdst, hlt⟩ | hlt
    · exact ⟨p, hold p hp, hdst, hlt⟩
    · exact ⟨_, hnew x hx hne, rfl, by linarith⟩
  · rw [hu.now]
    have := hs.soon
    linarith
  · rintro last x hx hne (h | ⟨sent, hle, h⟩ | h)
    · rw [Clocked.Follows, hnodes]
      exact .inl h
    · exact .inr (.inl ⟨sent, hle, hold _ h⟩)
    · exact .inr (.inl ⟨t, hnext.trans h, hnew x hx hne⟩)

/-- Another one has something of the leader's, and its wait is fresh. -/
theorem Reign.heard (hs : Reign m leader term quiet s) (hp : Punctual m s)
    {t : ℚ} (hnow : s.now ≤ t) {sent : ℚ} {x : α} (msg : Msg α)
    (hne : x ≠ leader) {r : RaftNode α × List (α × Msg α)}
    (hrole : r.1.role ≠ .leader) (hterm : r.1.term = term)
    (hsends : ∀ q ∈ Clocked.sends t r, Awaited leader term quiet q)
    (hfollow : (s.nodes x).role = .follower ∨ msg = .heartbeat term leader →
      r.1.role = .follower) :
    Reign m leader term quiet
      ({ s with flight := s.flight.erase (sent, ⟨leader, x, msg⟩) }.advance t x
        r) ∧
    ∀ last, ∀ y ∈ m.addrs, y ≠ leader →
      s.Follows leader term quiet last y →
      ({ s with flight := s.flight.erase (sent, ⟨leader, x, msg⟩) }.advance t x
        r).Follows leader term quiet last y := by
  have hu := advance_advanced s (s.flight.erase (sent, ⟨leader, x, msg⟩)) t x r
  generalize Clocked.advance _ t x r = u at hu ⊢
  have hkept : ∀ q ∈ s.flight, q ≠ (sent, ⟨leader, x, msg⟩) → q ∈ u.flight :=
    fun q hq hqne =>
      hu.mem_flight.mpr (.inl ((List.mem_erase_of_ne hqne).mpr hq))
  have hnext : u.nextBeat leader quiet = s.nextBeat leader quiet := by
    rw [Clocked.nextBeat, hu.since leader hne.symm, Clocked.nextBeat]
  have hlate : s.nextBeat leader quiet + latMax < t + electionMin := by
    have hmax : max (s.since leader) quiet ≤ t + 2 * latMax := by
      have hbegan := hp.began leader
      have hsoon := hs.soon
      have hlat := latMax_nonneg
      exact max_le (by linarith) (by linarith)
    have := beat_fits
    rw [Clocked.nextBeat]
    linarith
  refine ⟨.intro ?_ (fun y hy hyne => ?_) (fun q hq => ?_)
    (fun y hy hyne => ?_) ?_, ?_⟩
  · rw [hu.nodes leader hne.symm]
    exact hs.leads
  · by_cases hyx : y = x
    · rw [hyx, hu.node]
      exact ⟨hrole, hterm.le⟩
    · rw [hu.nodes y hyx]
      exact hs.others y hy hyne
  · rcases hu.mem_flight.mp hq with hq | hq
    · exact hs.flight q (List.mem_of_mem_erase hq)
    · exact hsends q hq
  · by_cases hyx : y = x
    · refine .inr ?_
      rw [hyx, hu.wait, hnext]
      exact hlate
    · rw [Clocked.Reached, hu.since y hyx, hnext]
      refine (hs.reached y hy hyne).imp ?_ id
      rintro ⟨q, hq, hdst, hlt⟩
      refine ⟨q, hkept q hq ?_, hdst, hlt⟩
      rintro rfl
      exact hyx hdst.symm
  · rw [hu.now]
    have hsoon := hs.soon
    linarith
  · rintro last y hy hyne (⟨hyrole, hyterm⟩ | ⟨sent', hle, hq⟩ | hle)
    · refine .inl ?_
      by_cases hyx : y = x
      · subst hyx
        rw [hu.node]
        exact ⟨hfollow (.inl hyrole), hterm⟩
      · rw [hu.nodes y hyx]
        exact ⟨hyrole, hyterm⟩
    · by_cases heq : ((sent', ⟨leader, y, .heartbeat term leader⟩) :
          ℚ × Packet α) = (sent, ⟨leader, x, msg⟩)
      · cases heq
        rw [Clocked.Follows, hu.node]
        exact .inl ⟨hfollow (.inr rfl), hterm⟩
      · exact .inr (.inl ⟨sent', hle, hkept _ hq heq⟩)
    · refine .inr (.inr ?_)
      rw [hnext]
      exact hle

/-- A vote comes too late to matter, and early enough. -/
theorem Reign.vote (hs : Reign m leader term quiet s) {t : ℚ}
    (hnow : s.now ≤ t) {sent : ℚ} {src : α} (msg : Msg α)
    (hin : t ≤ sent + latMax) (hquiet : sent + latMax ≤ quiet) :
    Reign m leader term quiet
      ({ s with flight := s.flight.erase (sent, ⟨src, leader, msg⟩) }.advance t
        leader (s.nodes leader, [])) ∧
    ∀ last, ∀ y ∈ m.addrs, y ≠ leader →
      s.Follows leader term quiet last y →
      ({ s with flight := s.flight.erase (sent, ⟨src, leader, msg⟩) }.advance t
        leader (s.nodes leader, [])).Follows leader term quiet last y := by
  have hu := advance_advanced s (s.flight.erase (sent, ⟨src, leader, msg⟩)) t
    leader (s.nodes leader, [])
  generalize Clocked.advance _ t leader _ = u at hu ⊢
  have hnodes := hu.nodes_eq rfl
  have hkept : ∀ q ∈ s.flight, q.2.dst ≠ leader → q ∈ u.flight :=
    fun q hq hdst => hu.mem_flight.mpr (.inl (mem_erase_of_dst hq hdst))
  have hnext : u.nextBeat leader quiet ≤ s.nextBeat leader quiet := by
    rw [Clocked.nextBeat, hu.wait, max_eq_right (hin.trans hquiet),
      Clocked.nextBeat]
    have := le_max_right (s.since leader) quiet
    linarith
  refine ⟨.intro ?_ ?_ (fun q hq => ?_) (fun y hy hyne => ?_) ?_, ?_⟩
  · rw [hnodes]
    exact hs.leads
  · rw [hnodes]
    exact hs.others
  · rcases hu.mem_flight.mp hq with hq | hq
    · exact hs.flight q (List.mem_of_mem_erase hq)
    · cases hq
  · rw [Clocked.Reached, hu.since y hyne]
    rcases hs.reached y hy hyne with ⟨q, hq, hdst, hlt⟩ | hlt
    · exact .inl ⟨q, hkept q hq (by rwa [hdst]), hdst, hlt⟩
    · exact .inr (by linarith)
  · rw [hu.now]
    have hsoon := hs.soon
    linarith
  · rintro last y hy hyne (h | ⟨sent', hle, hq⟩ | hle)
    · rw [Clocked.Follows, hnodes]
      exact .inl h
    · exact .inr (.inl ⟨sent', hle, hkept _ hq hyne⟩)
    · exact .inr (.inr (hnext.trans hle))

/-- No step ends a reign. -/
theorem Reign.step (hs : Reign m leader term quiet s) (hp : Punctual m s)
    (hL : leader ∈ m.addrs) {a : ℚ × Move α} {u : Clocked α}
    (h : s.tick m a = some u) :
    Reign m leader term quiet u ∧
    (∀ x, a.2 = .timeout x → x = leader) ∧
    ∀ last, ∀ x ∈ m.addrs, x ≠ leader →
      s.Follows leader term quiet last x →
      u.Follows leader term quiet last x := by
  obtain ⟨t, a⟩ := a
  cases a with
  | timeout x =>
      simp only [Clocked.tick] at h
      split_ifs at h with hx
      obtain ⟨hmem, hfree, hwait⟩ := hx
      cases h
      obtain rfl := hs.leader_of_timeout hL hfree hmem hwait
      obtain ⟨hreign, hfollows⟩ := hs.beat hp hL hfree
      refine ⟨hreign, ?_, hfollows⟩
      rintro y ⟨⟩
      rfl
  | handle sent p =>
      simp only [Clocked.tick] at h
      split_ifs at h with hp'
      obtain ⟨hdst, ⟨hnow, -, hdue⟩, hmem, -⟩ := hp'
      cases h
      have hin := hdue _ hmem
      have haw := hs.flight _ hmem
      generalize hq : (sent, p) = q at haw
      cases haw with
      | heartbeat sent' x hx =>
          cases hq
          obtain ⟨hrole, hterm⟩ :=
            onHeartbeat_follows (hs.others x hdst hx).2
          obtain ⟨hreign, hfollows⟩ := hs.heard hp hnow
            (.heartbeat term leader) (r := ((s.nodes x).onHeartbeat term, []))
            hx (by rw [hrole]; rintro ⟨⟩) hterm (by rintro q ⟨⟩)
            (fun _ => hrole)
          exact ⟨hreign, by rintro y ⟨⟩, hfollows⟩
      | request sent' x hx hsoon =>
          cases hq
          obtain ⟨hrole, hle⟩ := hs.others x hdst hx
          obtain ⟨hrole, hterm, hfollow, granted, hout⟩ :=
            onRequestVote_answers hle hrole leader
          obtain ⟨hreign, hfollows⟩ := hs.heard hp hnow
            (.requestVote term leader)
            (r := (s.nodes x).onRequestVote leader term) hx hrole hterm
            (by
              intro q hq
              rw [Clocked.sends, hout, List.map_singleton,
                List.mem_singleton] at hq
              rw [hq]
              refine .vote t _ term _ granted ?_
              have : t ≤ sent + latMax := hin
              linarith)
            (by
              rintro (h | ⟨⟨⟩⟩)
              exact hfollow h)
          exact ⟨hreign, by rintro y ⟨⟩, hfollows⟩
      | vote sent' src t' voter granted hquiet =>
          cases hq
          have hout := onVote_leader hs.leads.1 t' voter granted
          obtain ⟨hreign, hfollows⟩ :=
            hs.vote hnow (.vote t' voter granted) hin hquiet
          rw [← hout] at hreign hfollows
          exact ⟨hreign, by rintro y ⟨⟩, hfollows⟩

/-- Nor does a run. -/
theorem Reign.run {as : List (ℚ × Move α)} {u : Clocked α}
    (hs : Reign m leader term quiet s) (hp : Punctual m s)
    (hL : leader ∈ m.addrs) (h : Machine.run (Clocked.tick m) s as = some u) :
    Reign m leader term quiet u ∧ Punctual m u ∧
    (∀ t x, (t, .timeout x) ∈ as → x = leader) ∧
    ∀ last, ∀ x ∈ m.addrs, x ≠ leader →
      s.Follows leader term quiet last x →
      u.Follows leader term quiet last x := by
  induction as generalizing s with
  | nil =>
      cases h
      exact ⟨hs, hp, by rintro t x ⟨⟩, fun _ _ _ _ hx => hx⟩
  | cons a as ih =>
      obtain ⟨v, hv, h⟩ := Machine.run_cons_eq_some.mp h
      obtain ⟨hreign, hself, hfollows⟩ := hs.step hp hL hv
      obtain ⟨hreign', hp', hself', hfollows'⟩ := ih hreign (hp.step hv) h
      refine ⟨hreign', hp', fun t x hx => ?_,
        fun last x hx hne hlast =>
          hfollows' last x hx hne (hfollows last x hx hne hlast)⟩
      rcases List.mem_cons.mp hx with rfl | hx
      · exact hself x rfl
      · exact hself' t x hx

end

/-- Once a leader reigns no election is held any more. Whatever is drawn, and
in whatever order things happen that happen at one time: nobody else times out,
it leads the same term, and by the time its next heartbeat has arrived all the
others are followers in that term. -/
theorem stable_leader {m : Members α} {buggy : Bool}
    {before after : List (ℚ × Move α)} {s t : Clocked α} {leader : α}
    {term : ℕ} {quiet : ℚ}
    (hs : Machine.run (Clocked.tick m) (Clocked.init m buggy) before = some s)
    (hL : leader ∈ m.addrs) (hs' : Unchallenged m leader term quiet s)
    (ht : Machine.run (Clocked.tick m) s after = some t) :
    (∀ now x, (now, .timeout x) ∈ after → x = leader) ∧
    (t.nodes leader).role = .leader ∧ (t.nodes leader).term = term ∧
    (∀ x ∈ m.addrs, x ≠ leader →
      (t.nodes x).role ≠ .leader ∧ (t.nodes x).term ≤ term) ∧
    (s.nextBeat leader quiet + latMax < t.now → ∀ x ∈ m.addrs, x ≠ leader →
      (t.nodes x).role = .follower ∧ (t.nodes x).term = term) := by
  have hp : Punctual m s :=
    Machine.run_invariant (fun hs h => hs.step h) (init_punctual m buggy) hs
  obtain ⟨hreign, hp', hself, hfollows⟩ :=
    (hs'.reign (run_spread hs) hL).run hp hL ht
  refine ⟨hself, hreign.leads.1, hreign.leads.2, hreign.others, ?_⟩
  intro hlate x hx hne
  rcases hfollows (s.nextBeat leader quiet) x hx hne (.inr (.inr le_rfl)) with
    h | ⟨sent, hle, hmem⟩ | hle
  · exact h
  · -- A heartbeat that old has arrived.
    have := hp'.flight _ hmem
    linarith
  · -- The leader would have timed out before.
    have hwaits := hp'.waits leader hL
    rw [RaftNode.patience, if_pos hreign.leads.1] at hwaits
    have hmax := le_max_left (t.since leader) quiet
    have hlat := latMax_nonneg
    rw [Clocked.nextBeat] at hle
    linarith

/-- Node 0 is elected by the vote of node 1. -/
def elected : List (ℚ × Move ℕ) :=
  [(150 / 1000, .timeout 0),
    (160 / 1000, .handle (150 / 1000) ⟨0, 1, .requestVote 1 0⟩),
    (161 / 1000, .handle (150 / 1000) ⟨0, 2, .requestVote 1 0⟩),
    (170 / 1000, .handle (160 / 1000) ⟨1, 0, .vote 1 1 true⟩)]

/-- The other vote puts its heartbeat off. -/
def twoBeats : List (ℚ × Move ℕ) :=
  [(180 / 1000, .handle (161 / 1000) ⟨2, 0, .vote 1 2 true⟩),
    (185 / 1000, .handle (170 / 1000) ⟨0, 1, .heartbeat 1 0⟩),
    (185 / 1000, .handle (170 / 1000) ⟨0, 2, .heartbeat 1 0⟩),
    (230 / 1000, .timeout 0),
    (240 / 1000, .handle (230 / 1000) ⟨0, 2, .heartbeat 1 0⟩),
    (241 / 1000, .handle (230 / 1000) ⟨0, 1, .heartbeat 1 0⟩),
    (280 / 1000, .timeout 0)]

theorem stable_leader_three : ∃ s t,
    Machine.run (Clocked.tick three) (Clocked.init three true) elected =
      some s ∧
    Machine.run (Clocked.tick three) s twoBeats = some t ∧
    Unchallenged three 0 1 (181 / 1000) s ∧
    (t.nodes 0).role = .leader ∧ (t.nodes 0).term = 1 ∧
    ∀ x ∈ three.addrs, x ≠ 0 →
      (t.nodes x).role = .follower ∧ (t.nodes x).term = 1 := by
  have hrun : (Machine.run (Clocked.tick three) (Clocked.init three true)
      (elected ++ twoBeats)).isSome := by decide +kernel
  obtain ⟨t, ht⟩ := Option.isSome_iff_exists.mp hrun
  obtain ⟨s, hs, ht⟩ := Machine.run_append_eq_some.mp ht
  have hnodes : (Machine.run (Clocked.tick three) (Clocked.init three true)
      elected).map (fun s => three.addrs.map fun x =>
        ((s.nodes x).role, (s.nodes x).term, s.since x)) =
      some [(.leader, 1, 170 / 1000), (.follower, 1, 160 / 1000),
        (.follower, 1, 161 / 1000)] := by decide +kernel
  have hflight : (Machine.run (Clocked.tick three) (Clocked.init three true)
      elected).map (fun s => (s.now, s.flight)) =
      some (170 / 1000, [(161 / 1000, ⟨2, 0, .vote 1 2 true⟩),
        (170 / 1000, ⟨0, 1, .heartbeat 1 0⟩),
        (170 / 1000, ⟨0, 2, .heartbeat 1 0⟩)]) := by decide +kernel
  have hlast : (Machine.run (Clocked.tick three) (Clocked.init three true)
      (elected ++ twoBeats)).map (fun s => s.now) =
      some (280 / 1000) := by decide +kernel
  rw [hs] at hnodes hflight
  rw [Machine.run_append_eq_some.mpr ⟨s, hs, ht⟩] at hlast
  simp only [three, Option.map_some, List.map_cons, List.map_nil,
    Option.some.injEq, List.cons.injEq, Prod.mk.injEq, and_true] at hnodes
  simp only [Option.map_some, Option.some.injEq, Prod.mk.injEq] at hflight
  simp only [Option.map_some, Option.some.injEq] at hlast
  obtain ⟨⟨hrole, hterm, hwait⟩, ⟨hrole1, hterm1, hwait1⟩, hrole2, hterm2,
    hwait2⟩ := hnodes
  obtain ⟨hnow, hflight⟩ := hflight
  have hbeat : s.nextBeat 0 (181 / 1000) = 231 / 1000 := by
    norm_num [Clocked.nextBeat, hwait, heartbeat]
  have hothers : ∀ x ∈ three.addrs, x ≠ 0 → x = 1 ∨ x = 2 := by decide
  have hfree : Unchallenged three 0 1 (181 / 1000) s := by
    refine ⟨⟨hrole, hterm⟩, ?_, ?_, ?_, ?_⟩
    · intro x hx hne
      rcases hothers x hx hne with rfl | rfl
      · rw [hrole1]
        rintro ⟨⟩
      · rw [hrole2]
        rintro ⟨⟩
    · intro p hp
      rw [hflight] at hp
      simp only [List.mem_cons, List.not_mem_nil, or_false] at hp
      rcases hp with rfl | rfl | rfl
      · exact .vote _ _ _ _ _ (by norm_num [latMax])
      · exact .heartbeat _ _ (by decide)
      · exact .heartbeat _ _ (by decide)
    · intro x hx hne
      refine .inr ?_
      rw [hbeat]
      rcases hothers x hx hne with rfl | rfl
      · norm_num [hwait1, latMax, electionMin]
      · norm_num [hwait2, latMax, electionMin]
    · norm_num [hnow, latMax]
  obtain ⟨-, hlead, hterm', -, hfollow⟩ :=
    stable_leader hs (by decide) hfree ht
  refine ⟨s, t, hs, ht, hfree, hlead, hterm', hfollow ?_⟩
  norm_num [hbeat, hlast, latMax]

end

end Raft

end Seedloop
