import Seedloop.Proofs.StableLeader

/-!
# An election that nobody contests

Timeouts are drawn at random so that one node's ends before the others', and
this is what that is worth. If a node times out in a quiet cluster and nobody
else does within a latency, everyone hears its request first, no one has voted
in its term and all of them grant it: it leads after two latencies, the others
follow it after a third, and its reign has begun.

Who has not heard the request yet may have waited for long, and what keeps it
from timing out is that nobody does at first. So the run is looked at as if
everyone's wait had begun anew when the election was called: in the latency in
which this makes a difference nothing happens that it would forbid.
-/

namespace Seedloop

namespace Raft

variable {α : Type}

/-- What is in flight in an election that nobody contests. -/
inductive Canvass (a : α) (term : ℕ) (start : ℚ) : ℚ × Packet α → Prop
  | request (x : α) (hx : x ≠ a) :
      Canvass a term start (start, ⟨a, x, .requestVote term a⟩)
  | vote (sent : ℚ) (x : α) (h : sent ≤ start + latMax) :
      Canvass a term start (sent, ⟨x, a, .vote term x true⟩)

/-- How far `x` has got with its vote. -/
inductive Voting (a : α) (term : ℕ) (start : ℚ) (s : Clocked α) (x : α) : Prop
  | asked (hterm : (s.nodes x).term < term)
      (h : (start, ⟨a, x, .requestVote term a⟩) ∈ s.flight)
  | voted (hterm : (s.nodes x).term = term)
      (hvote : (s.nodes x).votedFor = some a) (sent : ℚ)
      (hsent : sent ≤ start + latMax)
      (h : (sent, ⟨x, a, .vote term x true⟩) ∈ s.flight)
  | counted (hterm : (s.nodes x).term = term)
      (hvote : (s.nodes x).votedFor = some a) (h : x ∈ (s.nodes a).votes)

theorem Voting.term_le {a : α} {term : ℕ} {start : ℚ} {s : Clocked α} {x : α}
    (h : Voting a term start s x) : (s.nodes x).term ≤ term := by
  cases h with
  | asked hterm _ => exact hterm.le
  | voted hterm | counted hterm => exact hterm.le

/-- `a` is a candidate since `start`, and all the others are asked by it or
have answered. -/
structure Campaign (m : Members α) (a : α) (term : ℕ) (start : ℚ)
    (s : Clocked α) : Prop where
  candidate : (s.nodes a).role = .candidate ∧ (s.nodes a).term = term
  own : a ∈ (s.nodes a).votes
  short : (s.nodes a).votes.card ≤ (s.nodes a).all / 2
  others : ∀ x ∈ m.addrs, x ≠ a →
    (s.nodes x).role ≠ .leader ∧ Voting a term start s x
  flight : ∀ p ∈ s.flight, Canvass a term start p
  since : ∀ x ∈ m.addrs, start ≤ s.since x
  began : start ≤ s.now

/-- The time by which its outcome is known. -/
def Elected (m : Members α) (a : α) (term : ℕ) (start : ℚ) (s : Clocked α) :
    Prop :=
  Reign m a term (start + 2 * latMax) s ∧ ∀ x ∈ m.addrs, x ≠ a →
    s.Follows a term (start + 2 * latMax) (start + 2 * latMax) x

section

variable [DecidableEq α]

/-- Whoever is behind, or voted for it already, grants a request. -/
theorem onRequestVote_grants {node : RaftNode α} {term : ℕ} {src : α}
    (hrole : node.role ≠ .leader)
    (h : node.term < term ∨ node.term = term ∧ node.votedFor = some src) :
    (node.onRequestVote src term).1.role ≠ .leader ∧
    (node.onRequestVote src term).1.term = term ∧
    (node.onRequestVote src term).1.votedFor = some src ∧
    (node.onRequestVote src term).1.addr = node.addr ∧
    (node.onRequestVote src term).2 = [(src, .vote term node.addr true)] := by
  rcases adoptNewerTerm_cases node term with ⟨hnot, heq⟩ | ⟨-, heq⟩
  · obtain ⟨hterm, hvote⟩ := h.resolve_left hnot
    rw [RaftNode.onRequestVote, heq,
      if_pos ⟨hterm.symm, hrole, .inr (.inr hvote)⟩]
    exact ⟨hrole, hterm, rfl, rfl, by rw [hterm]⟩
  · rw [RaftNode.onRequestVote, heq, if_pos ⟨rfl, by simp, .inr (.inl rfl)⟩]
    exact ⟨by simp, rfl, rfl, rfl, rfl⟩

variable {m : Members α} {a : α} {term : ℕ} {start : ℚ} {s : Clocked α}

/-! ## The campaign -/

/-- Until it is elected something is on its way, and not for long. -/
theorem Campaign.pending (hs : Campaign m a term start s) (hp : Punctual m s)
    (ha : a ∈ m.addrs) (htwo : ∃ x ∈ m.addrs, x ≠ a) :
    ∃ p ∈ s.flight, p.1 + latMax ≤ start + 2 * latMax := by
  have hlat := latMax_nonneg
  have hout : ∃ x ∈ m.addrs, x ∉ (s.nodes a).votes := by
    by_contra hall
    push Not at hall
    have hsub : m.addrs.toFinset ⊆ (s.nodes a).votes := by
      intro x hx
      exact hall x (List.mem_toFinset.mp hx)
    have hcard := Finset.card_le_card hsub
    rw [List.toFinset_card_of_nodup m.nodup] at hcard
    have hlen : (s.nodes a).all = m.addrs.length := by
      rw [RaftNode.all, (hp.node a).2, ← (m.others a ha).length_eq]
      rfl
    have hshort := hs.short
    have hpos := List.length_pos_of_mem ha
    omega
  obtain ⟨x, hx, hnot⟩ := hout
  have hne : x ≠ a := by
    rintro rfl
    exact hnot hs.own
  cases (hs.others x hx hne).2 with
  | asked hterm h => exact ⟨_, h, by show start + latMax ≤ _; linarith⟩
  | voted hterm hvote sent hsent h =>
      exact ⟨_, h, by show sent + latMax ≤ _; linarith⟩
  | counted hterm hvote h => exact absurd h hnot

/-- So nobody gets to time out. -/
theorem Campaign.no_timeout (hs : Campaign m a term start s)
    (hp : Punctual m s) (ha : a ∈ m.addrs) (htwo : ∃ x ∈ m.addrs, x ≠ a)
    {t : ℚ} (hdue : s.Due m t) {x : α} (hx : x ∈ m.addrs)
    (hwait : s.since x + (s.nodes x).patience.1 ≤ t) : False := by
  obtain ⟨p, hmem, hle⟩ := hs.pending hp ha htwo
  have hlate := hdue.2.2 p hmem
  have hrole : (s.nodes x).role ≠ .leader := by
    by_cases hxa : x = a
    · rw [hxa, hs.candidate.1]
      rintro ⟨⟩
    · exact (hs.others x hx hxa).1
  rw [RaftNode.patience, if_neg hrole] at hwait
  have hsince := hs.since x hx
  have hbeat := beat_fits
  have hpos : (0 : ℚ) < heartbeat := by norm_num [heartbeat]
  have hlat := latMax_nonneg
  dsimp only at hwait
  linarith

/-- One of the others is asked, and grants its vote. -/
theorem Campaign.grant (hs : Campaign m a term start s) (hp : Punctual m s)
    {t : ℚ} (hnow : s.now ≤ t) (hin : t ≤ start + latMax) {x : α}
    (hx : x ∈ m.addrs) (hne : x ≠ a) :
    Campaign m a term start
      ({ s with flight :=
        s.flight.erase (start, ⟨a, x, .requestVote term a⟩) }.advance t x
          ((s.nodes x).onRequestVote a term)) := by
  obtain ⟨hrole, hvoting⟩ := hs.others x hx hne
  have hgrants : (s.nodes x).term < term ∨
      (s.nodes x).term = term ∧ (s.nodes x).votedFor = some a := by
    cases hvoting with
    | asked hterm _ => exact .inl hterm
    | voted hterm hvote | counted hterm hvote => exact .inr ⟨hterm, hvote⟩
  obtain ⟨hrole', hterm', hvote', haddr', hout'⟩ :=
    onRequestVote_grants hrole hgrants
  have hself : (s.nodes x).addr = x := (hp.node x).1
  have hu := advance_advanced s (s.flight.erase
    (start, ⟨a, x, .requestVote term a⟩)) t x ((s.nodes x).onRequestVote a term)
  generalize Clocked.advance _ t x _ = u at hu ⊢
  have hanswer : ∀ q, q ∈ Clocked.sends t ((s.nodes x).onRequestVote a term) ↔
      q = (t, ⟨x, a, .vote term x true⟩) := by
    intro q
    rw [Clocked.sends, hout', haddr', hself]
    exact List.mem_singleton
  have hkept : ∀ p ∈ s.flight, p.2.dst ≠ x → p ∈ u.flight :=
    fun p hmem hdst => hu.mem_flight.mpr (.inl (mem_erase_of_dst hmem hdst))
  have ha' := hu.nodes a hne.symm
  refine ⟨?_, ?_, ?_, fun y hy hya => ?_, fun p hmem => ?_, fun y hy => ?_, ?_⟩
  · rw [ha']
    exact hs.candidate
  · rw [ha']
    exact hs.own
  · rw [ha']
    exact hs.short
  · by_cases hyx : y = x
    · subst hyx
      rw [hu.node]
      refine ⟨hrole', .voted ?_ ?_ t hin ?_⟩
      · rw [hu.node]
        exact hterm'
      · rw [hu.node]
        exact hvote'
      · exact hu.mem_flight.mpr (.inr ((hanswer _).mpr rfl))
    · obtain ⟨hrole, hvoting⟩ := hs.others y hy hya
      rw [hu.nodes y hyx]
      refine ⟨hrole, ?_⟩
      cases hvoting with
      | asked hterm h =>
          exact .asked (by rwa [hu.nodes y hyx]) (hkept _ h hyx)
      | voted hterm hvote sent hsent h =>
          exact .voted (by rwa [hu.nodes y hyx]) (by rwa [hu.nodes y hyx]) sent
            hsent (hkept _ h hne.symm)
      | counted hterm hvote h =>
          exact .counted (by rwa [hu.nodes y hyx]) (by rwa [hu.nodes y hyx])
            (by rwa [ha'])
  · rcases hu.mem_flight.mp hmem with hmem | hmem
    · exact hs.flight p (List.mem_of_mem_erase hmem)
    · rw [(hanswer p).mp hmem]
      exact .vote t x hin
  · exact hu.le_since (hs.began.trans hnow) (hs.since y hy)
  · rw [hu.now]
    exact hs.began.trans hnow

/-- Whose vote has been handled is counted, and the others are where they
were. -/
theorem Voting.count {x y : α} {sent : ℚ} {u : Clocked α}
    (h : Voting a term start s y)
    (hnode : (u.nodes y).term = (s.nodes y).term ∧
      (u.nodes y).votedFor = (s.nodes y).votedFor)
    (hvotes : (u.nodes a).votes = insert x (s.nodes a).votes)
    (hkept : ∀ p ∈ s.flight, p ≠ (sent, ⟨x, a, .vote term x true⟩) →
      p ∈ u.flight) : Voting a term start u y := by
  obtain ⟨hterm', hvote'⟩ := hnode
  cases h with
  | asked hterm h =>
      exact .asked (by rwa [hterm']) (hkept _ h (by simp))
  | voted hterm hvote sent' hsent h =>
      rw [← hterm'] at hterm
      rw [← hvote'] at hvote
      by_cases heq : ((sent', ⟨y, a, .vote term y true⟩) : ℚ × Packet α) =
          (sent, ⟨x, a, .vote term x true⟩)
      · cases heq
        exact .counted hterm hvote (hvotes ▸ Finset.mem_insert_self _ _)
      · exact .voted hterm hvote sent' hsent (hkept _ h heq)
  | counted hterm hvote h =>
      exact .counted (by rwa [hterm']) (by rwa [hvote'])
        (hvotes ▸ Finset.mem_insert_of_mem h)

/-- It comes in, and is not enough. -/
theorem Campaign.counted (hs : Campaign m a term start s) {t : ℚ}
    (hnow : s.now ≤ t) {sent : ℚ} {x : α} {node : RaftNode α} {u : Clocked α}
    (hu : Advanced s (s.flight.erase (sent, ⟨x, a, .vote term x true⟩)) t a
      (node, []) u)
    (hnode : node.role = .candidate ∧ node.term = term)
    (hvotes : node.votes = insert x (s.nodes a).votes)
    (hshort : node.votes.card ≤ node.all / 2) : Campaign m a term start u := by
  refine ⟨?_, ?_, ?_, fun y hy hya => ?_, fun p hmem => ?_,
    fun y hy => hu.le_since (hs.began.trans hnow) (hs.since y hy), ?_⟩
  · rw [hu.node]
    exact hnode
  · rw [hu.node, hvotes]
    exact Finset.mem_insert_of_mem hs.own
  · rw [hu.node]
    exact hshort
  · obtain ⟨hrole, hvoting⟩ := hs.others y hy hya
    rw [hu.nodes y hya]
    refine ⟨hrole, hvoting.count ?_ (by rw [hu.node, hvotes])
      fun p hmem hne => hu.mem_flight.mpr
        (.inl ((List.mem_erase_of_ne hne).mpr hmem))⟩
    rw [hu.nodes y hya]
    exact ⟨rfl, rfl⟩
  · rcases hu.mem_flight.mp hmem with hmem | hmem
    · exact hs.flight p (List.mem_of_mem_erase hmem)
    · cases hmem
  · rw [hu.now]
    exact hs.began.trans hnow

/-- It is the last one that was needed, and everyone is told. -/
theorem Campaign.elected (hs : Campaign m a term start s) (ha : a ∈ m.addrs)
    {t : ℚ} (hnow : s.now ≤ t) (hquiet : t ≤ start + 2 * latMax)
    {q : ℚ × Packet α} {node : RaftNode α} {u : Clocked α}
    (hu : Advanced s (s.flight.erase q) t a
      (node, node.broadcast (.heartbeat term a)) u)
    (hnode : node.role = .leader ∧ node.term = term)
    (haddr : node.addr = a) (hpeers : node.peers = m.peers a) :
    Elected m a term start u := by
  have hlat := latMax_nonneg
  have hnew : ∀ y ∈ m.addrs, y ≠ a →
      (t, ⟨a, y, .heartbeat term a⟩) ∈ u.flight := by
    intro y hy hya
    refine hu.mem_flight.mpr (.inr ?_)
    simp only [Clocked.sends, RaftNode.broadcast, List.map_map, List.mem_map,
      haddr, hpeers]
    exact ⟨y, ((mem_peers ha).mp hy).resolve_left hya, rfl⟩
  refine ⟨.intro ?_ (fun y hy hya => ?_) (fun p hmem => ?_)
    (fun y hy hya => .inl ?_) ?_,
    fun y hy hya => .inr (.inl ⟨t, hquiet, hnew y hy hya⟩)⟩
  · rw [hu.node]
    exact hnode
  · rw [hu.nodes y hya]
    obtain ⟨hrole, hvoting⟩ := hs.others y hy hya
    exact ⟨hrole, hvoting.term_le⟩
  · rcases hu.mem_flight.mp hmem with hmem | hmem
    · have hcanvass := hs.flight p (List.mem_of_mem_erase hmem)
      cases hcanvass with
      | request y hya => exact .request start y hya le_rfl
      | vote sent y hle => exact .vote sent y term y true (by linarith)
    · simp only [Clocked.sends, RaftNode.broadcast, List.map_map, List.mem_map,
        haddr, hpeers] at hmem
      obtain ⟨y, hy, rfl⟩ := hmem
      exact .heartbeat t y (ne_of_mem_peers ha hy)
  · refine ⟨_, hnew y hy hya, rfl, ?_⟩
    show t + latMax < u.since y + electionMin
    have hfits := beat_fits
    have hpos : (0 : ℚ) < heartbeat := by norm_num [heartbeat]
    have := hu.le_since (hs.began.trans hnow) (hs.since y hy)
    linarith
  · rw [hu.now]
    have := hs.began
    linarith

/-- A vote comes in, and may be the last one that was needed. -/
theorem Campaign.count (hs : Campaign m a term start s) (hp : Punctual m s)
    (ha : a ∈ m.addrs) {t : ℚ} (hnow : s.now ≤ t) {sent : ℚ} {x : α}
    (hin : t ≤ sent + latMax) (hsent : sent ≤ start + latMax) :
    Campaign m a term start
      ({ s with flight :=
        s.flight.erase (sent, ⟨x, a, .vote term x true⟩) }.advance t a
          ((s.nodes a).onVote term x true)) ∨
    Elected m a term start
      ({ s with flight :=
        s.flight.erase (sent, ⟨x, a, .vote term x true⟩) }.advance t a
          ((s.nodes a).onVote term x true)) := by
  obtain ⟨hrole, hterm⟩ := hs.candidate
  obtain ⟨hself, hpeers⟩ := hp.node a
  have hu := advance_advanced s
    (s.flight.erase (sent, ⟨x, a, .vote term x true⟩)) t a
    ((s.nodes a).onVote term x true)
  generalize Clocked.advance _ t a _ = u at hu ⊢
  rw [RaftNode.onVote, if_pos ⟨hterm.symm, hrole, rfl⟩] at hu
  dsimp only at hu
  split_ifs at hu with hmajor
  · rw [hself, hterm] at hu
    exact .inr (hs.elected ha hnow (by linarith) hu ⟨rfl, rfl⟩ rfl hpeers)
  · exact .inl (hs.counted hnow hu ⟨hrole, hterm⟩ rfl (not_lt.mp hmajor))

theorem Campaign.step (hs : Campaign m a term start s) (hp : Punctual m s)
    (ha : a ∈ m.addrs) (htwo : ∃ x ∈ m.addrs, x ≠ a) {mv : ℚ × Move α}
    {u : Clocked α} (h : s.tick m mv = some u) :
    (Campaign m a term start u ∨ Elected m a term start u) ∧
      ∀ x, mv.2 ≠ .timeout x := by
  obtain ⟨t, mv⟩ := mv
  cases mv with
  | timeout x =>
      simp only [Clocked.tick] at h
      split_ifs at h with hx
      exact (hs.no_timeout hp ha htwo hx.2.1 hx.1 hx.2.2).elim
  | handle sent p =>
      simp only [Clocked.tick] at h
      split_ifs at h with hp'
      obtain ⟨hdst, ⟨hnow, -, hdue⟩, hmem, -⟩ := hp'
      cases h
      refine ⟨?_, by rintro x ⟨⟩⟩
      have hin := hdue _ hmem
      have hcanvass := hs.flight _ hmem
      generalize hq : (sent, p) = q at hcanvass
      cases hcanvass with
      | request x hx =>
          cases hq
          exact .inl (hs.grant hp hnow hin hdst hx)
      | vote sent' x hsent =>
          cases hq
          exact hs.count hp ha hnow hin hsent

/-- Once elected, for good. -/
theorem Elected.run {as : List (ℚ × Move α)} {u : Clocked α}
    (hs : Elected m a term start s) (hp : Punctual m s) (ha : a ∈ m.addrs)
    (h : Machine.run (Clocked.tick m) s as = some u) :
    Elected m a term start u ∧ ∀ t x, (t, .timeout x) ∈ as → x = a := by
  obtain ⟨hreign, -, hself, hfollows⟩ := hs.1.run hp ha h
  exact ⟨⟨hreign, fun x hx hne => hfollows _ x hx hne (hs.2 x hx hne)⟩, hself⟩

theorem Campaign.run {as : List (ℚ × Move α)} {u : Clocked α}
    (hs : Campaign m a term start s) (hp : Punctual m s) (ha : a ∈ m.addrs)
    (htwo : ∃ x ∈ m.addrs, x ≠ a)
    (h : Machine.run (Clocked.tick m) s as = some u) :
    (Campaign m a term start u ∨ Elected m a term start u) ∧ Punctual m u ∧
      ∀ t x, (t, .timeout x) ∈ as → x = a := by
  induction as generalizing s with
  | nil =>
      cases h
      exact ⟨.inl hs, hp, by rintro t x ⟨⟩⟩
  | cons mv as ih =>
      have hp' : Punctual m u :=
        Machine.run_invariant (fun hs h => hs.step h) hp h
      obtain ⟨v, hv, h⟩ := Machine.run_cons_eq_some.mp h
      obtain ⟨hnext, hnone⟩ := hs.step hp ha htwo hv
      have hcons : ∀ {as : List (ℚ × Move α)},
          (∀ t x, (t, .timeout x) ∈ as → x = a) →
          ∀ t x, (t, .timeout x) ∈ mv :: as → x = a := by
        intro as has t x hx
        rcases List.mem_cons.mp hx with rfl | hx
        · exact absurd rfl (hnone x)
        · exact has t x hx
      rcases hnext with hnext | hnext
      · obtain ⟨hlast, -, hself⟩ := ih hnext (hp.step hv) h
        exact ⟨hlast, hp', hcons hself⟩
      · obtain ⟨hlast, hself⟩ := hnext.run (hp.step hv) ha h
        exact ⟨.inr hlast, hp', hcons hself⟩

/-! ## As if every wait had begun anew -/

/-- The waits that began before `start` begin there. -/
def Clocked.renew (s : Clocked α) (start : ℚ) : Clocked α :=
  { s with since := fun x => max (s.since x) start }

omit [DecidableEq α] in
theorem Punctual.renew (hp : Punctual m s) (hstart : start ≤ s.now) :
    Punctual m (s.renew start) where
  node := hp.node
  began x := max_le (hp.began x) hstart
  waits x hx := by
    have := hp.waits x hx
    have hle := le_max_left (s.since x) start
    show s.now ≤ max (s.since x) start + (s.nodes x).patience.2
    linarith
  flight := hp.flight

theorem advance_renew {t : ℚ} (hstart : start ≤ t) (x : α)
    (r : RaftNode α × List (α × Msg α)) :
    (s.renew start).advance t x r = (s.advance t x r).renew start := by
  have hsince : Function.update (s.renew start).since x t =
      fun y => max (Function.update s.since x t y) start := by
    funext y
    by_cases hyx : y = x
    · rw [hyx, Function.update_self, Function.update_self, max_eq_left hstart]
    · rw [Function.update_of_ne hyx, Function.update_of_ne hyx]
      rfl
  rw [Clocked.advance, hsince]
  rfl

/-- A move that no renewed wait forbids. -/
theorem tick_renew {t : ℚ} {mv : Move α} {u : Clocked α}
    (h : s.tick m (t, mv) = some u) (hstart : start ≤ t)
    (hwait : ∀ x, mv = .timeout x →
      max (s.since x) start + (s.nodes x).patience.1 ≤ t) :
    (s.renew start).tick m (t, mv) = some (u.renew start) := by
  have hdue : s.Due m t → (s.renew start).Due m t := by
    rintro ⟨hnow, hwaits, hflight⟩
    refine ⟨hnow, fun x hx => (hwaits x hx).trans ?_, hflight⟩
    have := le_max_left (s.since x) start
    show s.since x + (s.nodes x).patience.2 ≤
      max (s.since x) start + (s.nodes x).patience.2
    linarith
  cases mv with
  | timeout x =>
      simp only [Clocked.tick] at h
      split_ifs at h with hx
      cases h
      rw [← advance_renew hstart]
      exact if_pos ⟨hx.1, hdue hx.2.1, hwait x rfl⟩
  | handle sent p =>
      simp only [Clocked.tick] at h
      split_ifs at h with hp
      cases h
      rw [← advance_renew hstart]
      exact if_pos ⟨hp.1, hdue hp.2.1, hp.2.2⟩

/-- Whose wait is older than the election has the request coming. -/
structure Asked (m : Members α) (a : α) (term : ℕ) (start : ℚ) (s : Clocked α) :
    Prop where
  began : start ≤ s.now
  coming : ∀ x ∈ m.addrs, s.since x < start →
    x ≠ a ∧ (start, ⟨a, x, .requestVote term a⟩) ∈ s.flight

theorem Asked.step (hs : Asked m a term start s) {t : ℚ} {mv : Move α}
    {u : Clocked α} (h : s.tick m (t, mv) = some u) :
    Asked m a term start u ∧ start ≤ t := by
  have hadvance : ∀ {f : List (ℚ × Packet α)} {y : α} {r}, s.Due m t →
      (∀ q ∈ s.flight, q.2.dst ≠ y → q ∈ f) →
      Asked m a term start ({ s with flight := f }.advance t y r) ∧
        start ≤ t := by
    intro f y r hdue hf
    have hstart := hs.began.trans hdue.1
    have hu := advance_advanced s f t y r
    generalize Clocked.advance _ t y r = u at hu ⊢
    refine ⟨⟨hu.now ▸ hstart, fun x hx hlt => ?_⟩, hstart⟩
    have hxy : x ≠ y := by
      rintro rfl
      rw [hu.wait] at hlt
      linarith
    rw [hu.since x hxy] at hlt
    obtain ⟨hne, hmem⟩ := hs.coming x hx hlt
    exact ⟨hne, hu.mem_flight.mpr (.inl (hf _ hmem hxy))⟩
  cases mv with
  | timeout y =>
      simp only [Clocked.tick] at h
      split_ifs at h with hy
      cases h
      exact hadvance (f := s.flight) hy.2.1 fun _ hq _ => hq
  | handle sent p =>
      simp only [Clocked.tick] at h
      split_ifs at h with hp
      cases h
      exact hadvance hp.2.1 fun q hq hdst => mem_erase_of_dst hq hdst

/-- A run in which nobody else times out at first is one of the renewed
waits. -/
theorem Asked.run {as : List (ℚ × Move α)} {u : Clocked α}
    (hs : Asked m a term start s)
    (hfirst : ∀ t x, (t, .timeout x) ∈ as → t ≤ start + latMax → x = a)
    (h : Machine.run (Clocked.tick m) s as = some u) :
    Machine.run (Clocked.tick m) (s.renew start) as =
      some (u.renew start) := by
  induction as generalizing s with
  | nil =>
      cases h
      rfl
  | cons mv as ih =>
      obtain ⟨t, mv⟩ := mv
      obtain ⟨v, hv, h⟩ := Machine.run_cons_eq_some.mp h
      obtain ⟨hnext, hstart⟩ := hs.step hv
      refine Machine.run_cons_eq_some.mpr ⟨v.renew start, ?_, ih hnext
        (fun t x hx => hfirst t x (List.mem_cons_of_mem _ hx)) h⟩
      refine tick_renew hv hstart fun x hx => ?_
      subst hx
      simp only [Clocked.tick] at hv
      split_ifs at hv with hx
      rcases le_or_gt start (s.since x) with hle | hlt
      · rw [max_eq_left hle]
        exact hx.2.2
      · -- The request is due before this.
        obtain ⟨hne, hmem⟩ := hs.coming x hx.1 hlt
        have hlate := hx.2.1.2.2 _ hmem
        exact absurd (hfirst t x List.mem_cons_self hlate) hne

/-! ## The election -/

/-- A node that times out in a quiet cluster calls it. -/
theorem campaign_called (hp : Punctual m s) (ha : a ∈ m.addrs)
    (htwo : ∃ x ∈ m.addrs, x ≠ a) (hquiet : s.flight = [])
    (hrole : ∀ x ∈ m.addrs, (s.nodes x).role ≠ .leader)
    (hterm : ∀ x ∈ m.addrs, (s.nodes x).term ≤ (s.nodes a).term)
    {u : Clocked α} (h : s.tick m (start, .timeout a) = some u) :
    Campaign m a ((s.nodes a).term + 1) start (u.renew start) ∧
      Asked m a ((s.nodes a).term + 1) start u ∧ u.now = start := by
  obtain ⟨hself, hpeers⟩ := hp.node a
  simp only [Clocked.tick] at h
  split_ifs at h with hcall
  obtain ⟨-, ⟨hnow, -⟩, -⟩ := hcall
  rw [RaftNode.onTimeout, if_neg (hrole a ha)] at h
  cases h
  have hu := advance_advanced s s.flight start a (s.nodes a).beginElection
  generalize Clocked.advance _ start a _ = u at hu ⊢
  have hflight : u.flight = (m.peers a).map fun y =>
      (start, ⟨a, y, .requestVote ((s.nodes a).term + 1) a⟩) := by
    rw [hu.flight, hquiet, ← hpeers, Clocked.sends]
    simp only [RaftNode.beginElection, RaftNode.broadcast, List.map_map,
      List.nil_append, hself]
    rfl
  have hasked : ∀ y ∈ m.addrs, y ≠ a →
      (start, ⟨a, y, .requestVote ((s.nodes a).term + 1) a⟩) ∈ u.flight := by
    intro y hy hya
    rw [hflight]
    exact List.mem_map_of_mem (((mem_peers ha).mp hy).resolve_left hya)
  refine ⟨⟨?_, ?_, ?_, fun y hy hya => ?_, fun p hmem => ?_,
    fun y _ => le_max_right _ _, hu.now.ge⟩,
    ⟨hu.now.ge, fun y hy hlt => ?_⟩, hu.now⟩
  · show (u.nodes a).role = _ ∧ (u.nodes a).term = _
    rw [hu.node]
    exact ⟨rfl, rfl⟩
  · show a ∈ (u.nodes a).votes
    rw [hu.node]
    exact Finset.mem_singleton.mpr hself.symm
  · show (u.nodes a).votes.card ≤ (u.nodes a).all / 2
    rw [hu.node]
    show ({(s.nodes a).addr} : Finset α).card ≤
      ((s.nodes a).peers.length + 1) / 2
    obtain ⟨x, hx, hne⟩ := htwo
    have hpos := List.length_pos_of_mem
      (((mem_peers ha).mp hx).resolve_left hne)
    rw [Finset.card_singleton, hpeers]
    omega
  · show (u.nodes y).role ≠ _ ∧ _
    rw [hu.nodes y hya]
    refine ⟨hrole y hy, .asked ?_ (hasked y hy hya)⟩
    show (u.nodes y).term < _
    rw [hu.nodes y hya]
    exact Nat.lt_succ_of_le (hterm y hy)
  · change p ∈ u.flight at hmem
    rw [hflight] at hmem
    obtain ⟨y, hy, rfl⟩ := List.mem_map.mp hmem
    exact .request y (ne_of_mem_peers ha hy)
  · have hya : y ≠ a := by
      rintro rfl
      rw [hu.wait] at hlt
      exact lt_irrefl start hlt
    exact ⟨hya, hasked y hy hya⟩

theorem Campaign.now_le (hs : Campaign m a term start s) (hp : Punctual m s)
    (ha : a ∈ m.addrs) (htwo : ∃ x ∈ m.addrs, x ≠ a) :
    s.now ≤ start + 2 * latMax := by
  obtain ⟨p, hmem, hle⟩ := hs.pending hp ha htwo
  exact (hp.flight p hmem).trans hle

omit [DecidableEq α] in
/-- Its heartbeats arrive. -/
theorem Elected.follower (hs : Elected m a term start s) (hp : Punctual m s)
    (hlate : start + 3 * latMax < s.now) {x : α} (hx : x ∈ m.addrs)
    (hne : x ≠ a) : (s.nodes x).role = .follower ∧ (s.nodes x).term = term := by
  rcases hs.2 x hx hne with h | ⟨sent, hle, hmem⟩ | hle
  · exact h
  · have := hp.flight _ hmem
    linarith
  · have hmax := le_max_right (s.since a) (start + 2 * latMax)
    have hpos : (0 : ℚ) < heartbeat := by norm_num [heartbeat]
    rw [Clocked.nextBeat] at hle
    linarith

end

/-- A node that times out while nothing is in flight and nobody leads, a latency
before anyone else does, is elected: no other node ever times out after that; it
leads its new term when two latencies have passed, and all the others are
followers in that term when three have, for as long as the run goes on. -/
theorem uncontested_election [DecidableEq α] {m : Members α} {buggy : Bool}
    {before after : List (ℚ × Move α)} {s s' t : Clocked α} {a : α} {start : ℚ}
    (hs : Machine.run (Clocked.tick m) (Clocked.init m buggy) before = some s)
    (ha : a ∈ m.addrs) (htwo : ∃ x ∈ m.addrs, x ≠ a) (hquiet : s.flight = [])
    (hrole : ∀ x ∈ m.addrs, (s.nodes x).role ≠ .leader)
    (hcall : s.tick m (start, .timeout a) = some s')
    (hfirst : ∀ now x, (now, .timeout x) ∈ after → now ≤ start + latMax → x = a)
    (ht : Machine.run (Clocked.tick m) s' after = some t) :
    (∀ now x, (now, .timeout x) ∈ after → x = a) ∧
    (start + 2 * latMax < t.now →
      (t.nodes a).role = .leader ∧ (t.nodes a).term = (s.nodes a).term + 1) ∧
    (start + 3 * latMax < t.now → ∀ x ∈ m.addrs, x ≠ a →
      (t.nodes x).role = .follower ∧
        (t.nodes x).term = (s.nodes a).term + 1) := by
  have hp : Punctual m s :=
    Machine.run_invariant (fun hs h => hs.step h) (init_punctual m buggy) hs
  have hterm : ∀ x ∈ m.addrs, (s.nodes x).term ≤ (s.nodes a).term :=
    fun x hx => (run_spread hs).term_le hx ha (by simp [hquiet])
  obtain ⟨hcampaign, hasked, hnow⟩ :=
    campaign_called hp ha htwo hquiet hrole hterm hcall
  have hrun := hasked.run hfirst ht
  obtain ⟨hlast, hp', hself⟩ :=
    hcampaign.run ((hp.step hcall).renew hnow.ge) ha htwo hrun
  refine ⟨hself, fun hlate => ?_, fun hlate x hx hne => ?_⟩
  · rcases hlast with hlast | hlast
    · exact absurd (hlast.now_le hp' ha htwo) (not_le.mpr hlate)
    · exact hlast.1.leads
  · rcases hlast with hlast | hlast
    · have hle := hlast.now_le hp' ha htwo
      have hlat := latMax_nonneg
      change t.now ≤ _ at hle
      linarith
    · exact hlast.follower hp' hlate hx hne

/-- Five nodes, of which node 3 times out first and node 1 hears of it late. -/
def thirdFirst : List (ℚ × Move ℕ) :=
  [(181 / 1000, .handle (180 / 1000) ⟨3, 0, .requestVote 1 3⟩),
    (181 / 1000, .handle (180 / 1000) ⟨3, 2, .requestVote 1 3⟩),
    (182 / 1000, .handle (181 / 1000) ⟨0, 3, .vote 1 0 true⟩),
    (182 / 1000, .handle (181 / 1000) ⟨2, 3, .vote 1 2 true⟩),
    (190 / 1000, .handle (180 / 1000) ⟨3, 4, .requestVote 1 3⟩),
    (199 / 1000, .handle (182 / 1000) ⟨3, 1, .heartbeat 1 3⟩),
    (200 / 1000, .handle (180 / 1000) ⟨3, 1, .requestVote 1 3⟩),
    (201 / 1000, .handle (182 / 1000) ⟨3, 0, .heartbeat 1 3⟩),
    (201 / 1000, .handle (182 / 1000) ⟨3, 2, .heartbeat 1 3⟩),
    (201 / 1000, .handle (182 / 1000) ⟨3, 4, .heartbeat 1 3⟩),
    (202 / 1000, .handle (200 / 1000) ⟨1, 3, .vote 1 1 true⟩),
    (203 / 1000, .handle (190 / 1000) ⟨4, 3, .vote 1 4 true⟩),
    (253 / 1000, .timeout 3)]

theorem uncontested_election_five : ∃ s t,
    (Clocked.init five false).tick five (180 / 1000, .timeout 3) = some s ∧
    Machine.run (Clocked.tick five) s thirdFirst = some t ∧
    (t.nodes 3).role = .leader ∧ (t.nodes 3).term = 1 ∧
    ∀ x ∈ five.addrs, x ≠ 3 →
      (t.nodes x).role = .follower ∧ (t.nodes x).term = 1 := by
  have hrun : (Machine.run (Clocked.tick five) (Clocked.init five false)
      ((180 / 1000, .timeout 3) :: thirdFirst)).isSome := by decide +kernel
  have hlast : (Machine.run (Clocked.tick five) (Clocked.init five false)
      ((180 / 1000, .timeout 3) :: thirdFirst)).map (fun t => t.now) =
      some (253 / 1000) := by decide +kernel
  obtain ⟨t, ht⟩ := Option.isSome_iff_exists.mp hrun
  rw [ht, Option.map_some, Option.some.injEq] at hlast
  obtain ⟨s, hs, ht⟩ := Machine.run_cons_eq_some.mp ht
  have hfirst : ∀ now x, (now, .timeout x) ∈ thirdFirst →
      now ≤ 180 / 1000 + latMax → x = 3 := by
    intro now x hx _
    simp [thirdFirst] at hx
    exact hx.2
  obtain ⟨-, hlead, hfollow⟩ := uncontested_election (a := 3)
    (Machine.run_nil _) (by decide) ⟨0, by decide, by decide⟩ rfl
    (by decide) hs hfirst ht
  obtain ⟨hrole, hterm⟩ := hlead (by norm_num [hlast, latMax])
  exact ⟨s, t, hs, ht, hrole, hterm,
    hfollow (by norm_num [hlast, latMax])⟩

end Raft

end Seedloop
