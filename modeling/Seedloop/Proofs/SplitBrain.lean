import Mathlib.Algebra.Order.Field.Basic
import Mathlib.Tactic.Linarith
import Mathlib.Tactic.NormNum
import Seedloop.Proofs.Election
import Seedloop.Ref.RaftRun

/-!
# Without its guard the election breaks

The run that breaks it is the same at every size. Two nodes time out within a
millisecond, every request is answered before any answer arrives, and every
answer arrives before any heartbeat that one of them sets off: nobody refuses,
so each of the two is granted all the votes there are. The clock allows it
because a message may take long enough for all of this to fit into the time
the slowest one takes.

What a stretch of messages does to the nodes does not depend on when each is
handled, so it is a function, `served`, and that there is time for them all is
a fact of its own.
-/

namespace Seedloop

namespace Raft

variable {α : Type}

/-! ## The clock only restricts -/

/-- A cluster is what is left of it without its times. -/
structure Forgets (s : Clocked α) (c : Cluster α) : Prop where
  nodes : s.nodes = c.nodes
  flight : (s.flight.map Prod.snd).Perm c.flight

section

variable [DecidableEq α]

theorem step_forgets {m : Members α} {s t : Clocked α} {a : ℚ × Move α}
    {c : Cluster α} (hc : Forgets s c) (h : s.step m a = some t) :
    ∃ d, c.step m a.2.act = some d ∧ Forgets t d := by
  obtain ⟨now, a⟩ := a
  cases a with
  | timeout a =>
      simp only [Clocked.step] at h
      split_ifs at h with ha
      obtain rfl := Option.some.inj h
      refine ⟨_, if_pos ha.1, ?_, ?_⟩
      · simp only [Clocked.advance, Cluster.advance, hc.nodes]
      · simp only [Clocked.advance, Clocked.sends, Cluster.advance, hc.nodes,
          List.map_append, List.map_map]
        exact hc.flight.append_right _
  | handle sent p =>
      simp only [Clocked.step] at h
      split_ifs at h with hp
      obtain rfl := Option.some.inj h
      obtain ⟨hdst, -, hmem, -⟩ := hp
      have hflight : p ∈ c.flight :=
        hc.flight.mem_iff.mp (List.mem_map_of_mem hmem)
      have herase : ((s.flight.erase (sent, p)).map Prod.snd).Perm
          (c.flight.erase p) := by
        have hperm := (List.perm_cons_erase hmem).map Prod.snd
        refine (List.Perm.trans ?_ (hc.flight.erase p))
        have := hperm.symm.erase p
        simpa using this
      refine ⟨_, if_pos ⟨hflight, hdst⟩, ?_, ?_⟩
      · simp only [Clocked.advance, Cluster.advance, hc.nodes]
      · simp only [Clocked.advance, Clocked.sends, Cluster.advance, hc.nodes,
          List.map_append, List.map_map]
        exact herase.append_right _

/-- Every run on the clock is one of the cluster. -/
theorem run_forgets {m : Members α} {s t : Clocked α} {as : List (ℚ × Move α)}
    {c : Cluster α} (hc : Forgets s c)
    (h : Machine.run (Clocked.step m) s as = some t) :
    ∃ d, Machine.run (Cluster.step m) c (as.map fun a => a.2.act) = some d ∧
      Forgets t d :=
  Machine.run_refinement (fun hc h => step_forgets hc h) hc h

end

/-! ## Room on the clock -/

theorem short_latency (node : RaftNode α) : latMax ≤ node.patience.2 := by
  unfold RaftNode.patience
  split_ifs <;> norm_num [latMax, heartbeat, electionMax]

/-- Anything may happen at any time between the two. -/
structure Room (m : Members α) (s : Clocked α) (lo hi : ℚ) : Prop where
  now : s.now ≤ lo
  lt : lo < hi
  short : hi ≤ lo + latMax
  waits : ∀ x ∈ m.addrs, hi ≤ s.since x + (s.nodes x).patience.2
  flights : ∀ p ∈ s.flight, hi ≤ p.1 + latMax

theorem Room.free {m : Members α} {s : Clocked α} {lo hi t : ℚ}
    (h : Room m s lo hi) (hlo : lo < t) (hhi : t < hi) : s.Free m t :=
  ⟨h.now.trans_lt hlo, fun x hx => hhi.le.trans (h.waits x hx),
    fun p hp => hhi.le.trans (h.flights p hp)⟩

section

variable [DecidableEq α]

theorem Room.advance {m : Members α} {s : Clocked α} {lo hi t : ℚ}
    (h : Room m s lo hi) (hlo : lo < t) (hhi : t < hi) {a : α}
    {r : RaftNode α × List (α × Msg α)} : Room m (s.advance t a r) t hi := by
  have hshort : hi ≤ t + latMax := h.short.trans (by linarith)
  refine ⟨le_rfl, hhi, hshort, ?_, ?_⟩
  · intro x hx
    simp only [Clocked.advance]
    by_cases hxa : x = a
    · subst hxa
      have := short_latency r.1
      simp only [Function.update_self]
      linarith
    · simp only [Function.update_of_ne hxa]
      exact h.waits x hx
  · intro p hp
    rcases List.mem_append.mp hp with hp | hp
    · exact h.flights p hp
    · obtain ⟨x, -, rfl⟩ := List.mem_map.mp hp
      exact hshort

/-- What handling the messages of a list makes of the nodes, and what they
send. -/
def served (nodes : α → RaftNode α) :
    List (Packet α) → (α → RaftNode α) × List (Packet α)
  | [] => (nodes, [])
  | p :: ps =>
      let r := (nodes p.dst).handle p.src p.msg
      let rest := served (Function.update nodes p.dst r.1) ps
      (rest.1, r.2.map (fun x => ⟨r.1.addr, x.1, x.2⟩) ++ rest.2)

/-- There is time for every message that is due in the room there is. -/
theorem Room.serve {m : Members α} {s : Clocked α} {lo hi : ℚ}
    (h : Room m s lo hi) {todo rest : List (ℚ × Packet α)}
    (hs : s.flight = todo ++ rest)
    (hdue : ∀ p ∈ todo, p.2.dst ∈ m.addrs ∧ p.1 + latMin ≤ lo) :
    ∃ as t lo' sent, Machine.run (Clocked.step m) s as = some t ∧
      t.nodes = (served s.nodes (todo.map Prod.snd)).1 ∧
      t.flight = rest ++ sent ∧
      sent.map Prod.snd = (served s.nodes (todo.map Prod.snd)).2 ∧
      (∀ p ∈ sent, lo ≤ p.1 ∧ p.1 ≤ hi) ∧ Room m t lo' hi := by
  induction todo generalizing s lo rest with
  | nil => exact ⟨[], s, lo, [], rfl, rfl, by simpa using hs, rfl, by simp, h⟩
  | cons p todo ih =>
      obtain ⟨sent, p⟩ := p
      obtain ⟨⟨hdst, hsent⟩, hdue⟩ := List.forall_mem_cons.mp hdue
      obtain ⟨now, hlo, hhi⟩ := exists_between h.lt
      have hmem : (sent, p) ∈ s.flight := by simp [hs]
      have hstep : s.step m (now, .handle sent p) =
          some ({ s with flight := s.flight.erase (sent, p) }.advance now p.dst
            ((s.nodes p.dst).handle p.src p.msg)) :=
        if_pos ⟨hdst, h.free hlo hhi, hmem, by linarith⟩
      have hrest : Room m { s with flight := s.flight.erase (sent, p) } lo hi :=
        ⟨h.now, h.lt, h.short, h.waits,
          fun q hq => h.flights q (List.mem_of_mem_erase hq)⟩
      have htodo : ({ s with flight := s.flight.erase (sent, p) }.advance now
          p.dst ((s.nodes p.dst).handle p.src p.msg)).flight =
          todo ++ (rest ++
            Clocked.sends now ((s.nodes p.dst).handle p.src p.msg)) := by
        simp [Clocked.advance, hs]
      obtain ⟨as, t, lo', sent', hrun, hnodes, hflight, hout, htimes, ht⟩ :=
        ih (hrest.advance hlo hhi) htodo
          (fun q hq => ⟨(hdue q hq).1, (hdue q hq).2.trans hlo.le⟩)
      refine ⟨_, t, lo',
        Clocked.sends now ((s.nodes p.dst).handle p.src p.msg) ++ sent',
        Machine.run_cons_eq_some.mpr ⟨_, hstep, hrun⟩, hnodes, ?_, ?_, ?_, ht⟩
      · rw [hflight, List.append_assoc]
      · rw [List.map_append, hout, Clocked.sends, List.map_map]
        rfl
      · intro q hq
        rcases List.mem_append.mp hq with hq | hq
        · obtain ⟨x, -, rfl⟩ := List.mem_map.mp hq
          exact ⟨hlo.le, hhi.le⟩
        · exact ⟨hlo.le.trans (htimes q hq).1, (htimes q hq).2⟩

/-- The clock has not gone back behind its start. -/
def Started (s : Clocked α) : Prop :=
  0 ≤ s.now ∧ ∀ x, 0 ≤ s.since x

theorem Started.advance {s : Clocked α} (h : Started s) {t : ℚ}
    (ht : s.now < t) (a : α) (r : RaftNode α × List (α × Msg α)) :
    Started (s.advance t a r) := by
  have hpos : 0 ≤ t := h.1.trans ht.le
  refine ⟨hpos, fun x => ?_⟩
  by_cases hx : x = a
  · simpa [Clocked.advance, hx] using hpos
  · simpa [Clocked.advance, hx] using h.2 x

theorem run_started {m : Members α} {s t : Clocked α}
    {as : List (ℚ × Move α)} (hs : Started s)
    (h : Machine.run (Clocked.step m) s as = some t) : Started t := by
  refine Machine.run_invariant (I := Started) (fun {s a t} hs ht => ?_) hs h
  obtain ⟨now, a⟩ := a
  cases a with
  | timeout a =>
      simp only [Clocked.step] at ht
      split_ifs at ht with ha
      obtain rfl := Option.some.inj ht
      exact hs.advance ha.2.1.1 _ _
  | handle sent p =>
      simp only [Clocked.step] at ht
      split_ifs at ht with hp
      obtain rfl := Option.some.inj ht
      have hrest : Started { s with flight := s.flight.erase (sent, p) } := hs
      exact hrest.advance hp.2.1.1 _ _

/-! ## Nobody refuses -/

/-- A node that either asks for votes in term 1, or has asked nobody. -/
structure Asks (m : Members α) (asking : α → Prop) (x : α)
    (node : RaftNode α) : Prop where
  addr : node.addr = x
  peers : node.peers = m.peers x
  buggy : node.buggy = true
  term : node.term ≤ 1
  role : node.role ≠ .leader
  candidate : asking x →
    node.term = 1 ∧ node.role = .candidate ∧ node.votes = {x}

/-- The answer to a request. -/
def Packet.granted (p : Packet α) : Packet α :=
  ⟨p.dst, p.src, .vote 1 p.dst true⟩

omit [DecidableEq α] in
theorem Asks.adoptNewerTerm {m : Members α} {asking : α → Prop} {x : α}
    {node : RaftNode α} (h : Asks m asking x node) :
    Asks m asking x (node.adoptNewerTerm 1) ∧
      (node.adoptNewerTerm 1).term = 1 := by
  rcases adoptNewerTerm_cases node 1 with ⟨hlt, heq⟩ | ⟨hlt, heq⟩
  · rw [heq]
    exact ⟨h, le_antisymm h.term (not_lt.mp hlt)⟩
  · rw [heq]
    refine ⟨⟨h.addr, h.peers, h.buggy, le_rfl, nofun, ?_⟩, rfl⟩
    intro hx
    exact absurd (h.candidate hx).1 hlt.ne

/-- Whoever is asked grants its vote, whomever it voted for before. -/
theorem Asks.onRequestVote {m : Members α} {asking : α → Prop} {x : α}
    {node : RaftNode α} (h : Asks m asking x node) (src : α) :
    (node.onRequestVote src 1).2 = [(src, .vote 1 x true)] ∧
      Asks m asking x (node.onRequestVote src 1).1 := by
  obtain ⟨h, hterm⟩ := h.adoptNewerTerm
  unfold RaftNode.onRequestVote
  generalize node.adoptNewerTerm 1 = node at h hterm ⊢
  dsimp only
  rw [if_pos ⟨hterm.symm, h.role, .inl h.buggy⟩]
  refine ⟨?_, h.addr, h.peers, h.buggy, h.term, h.role, h.candidate⟩
  rw [h.addr, hterm]

theorem served_requests {m : Members α} {asking : α → Prop}
    {nodes : α → RaftNode α} {ps : List (Packet α)}
    (hnodes : ∀ x, Asks m asking x (nodes x))
    (hps : ∀ p ∈ ps, p.msg = .requestVote 1 p.src) :
    (∀ x, Asks m asking x ((served nodes ps).1 x)) ∧
      (served nodes ps).2 = ps.map Packet.granted := by
  induction ps generalizing nodes with
  | nil => exact ⟨hnodes, rfl⟩
  | cons p ps ih =>
      obtain ⟨hp, hps⟩ := List.forall_mem_cons.mp hps
      obtain ⟨hout, hnode⟩ := (hnodes p.dst).onRequestVote p.src
      have hhandle : (nodes p.dst).handle p.src p.msg =
          (nodes p.dst).onRequestVote p.src 1 := by rw [hp]; rfl
      have hall : ∀ x, Asks m asking x (Function.update nodes p.dst
          ((nodes p.dst).onRequestVote p.src 1).1 x) := by
        intro x
        by_cases hx : x = p.dst
        · rwa [hx, Function.update_self]
        · rw [Function.update_of_ne hx]
          exact hnodes x
      obtain ⟨hrest, hsent⟩ := ih hall hps
      simp only [served, hhandle]
      refine ⟨hrest, ?_⟩
      rw [hsent, hout, List.map_cons, hnode.addr]
      rfl

/-! ## Everybody counts -/

/-- A candidate of term 1 that was elected, or has these votes at least. -/
structure Counts (m : Members α) (V : Finset α) (x : α) (node : RaftNode α) :
    Prop where
  addr : node.addr = x
  peers : node.peers = m.peers x
  term : node.term = 1
  role : node.role = .leader ∨
    node.role = .candidate ∧ V ⊆ node.votes ∧ node.votes.card ≤ node.all / 2

theorem Counts.onVote {m : Members α} {V : Finset α} {x : α}
    {node : RaftNode α} (h : Counts m V x node) (voter : α) :
    Counts m (insert voter V) x (node.onVote 1 voter true).1 := by
  unfold RaftNode.onVote
  rcases h.role with hl | ⟨hc, hsub, hcard⟩
  · rw [if_neg (by simp [hl])]
    exact ⟨h.addr, h.peers, h.term, .inl hl⟩
  · rw [if_pos ⟨h.term.symm, hc, rfl⟩]
    dsimp only
    split_ifs with hmaj
    · exact ⟨h.addr, h.peers, h.term, .inl rfl⟩
    · exact ⟨h.addr, h.peers, h.term, .inr ⟨hc,
        Finset.insert_subset_insert voter hsub, not_lt.mp hmaj⟩⟩

theorem served_votes {m : Members α} {nodes : α → RaftNode α} {x : α}
    {ps : List (Packet α)} {V : Finset α} (hx : Counts m V x (nodes x))
    (hps : ∀ p ∈ ps, p.msg = .vote 1 p.src true) :
    Counts m (V ∪ ((ps.filter (·.dst = x)).map Packet.src).toFinset) x
      ((served nodes ps).1 x) := by
  induction ps generalizing nodes V with
  | nil => simpa [served] using hx
  | cons p ps ih =>
      obtain ⟨hp, hps⟩ := List.forall_mem_cons.mp hps
      simp only [served]
      by_cases hdst : p.dst = x
      · subst hdst
        have hhandle : (nodes p.dst).handle p.src p.msg =
            (nodes p.dst).onVote 1 p.src true := by rw [hp]; rfl
        have hnode := hx.onVote p.src
        rw [← hhandle, ← Function.update_self p.dst
          ((nodes p.dst).handle p.src p.msg).1 nodes] at hnode
        have hrest := ih hnode hps
        rw [List.filter_cons_of_pos (by simp), List.map_cons,
          List.toFinset_cons, Finset.union_insert, ← Finset.insert_union]
        exact hrest
      · rw [List.filter_cons_of_neg (by simpa using hdst)]
        refine ih ?_ hps
        rwa [Function.update_of_ne (Ne.symm hdst)]

/-- With the votes of all it is elected. -/
theorem Counts.leads {m : Members α} {V : Finset α} {x : α}
    {node : RaftNode α} (h : Counts m V x node) (hx : x ∈ m.addrs)
    (hV : ∀ y ∈ m.addrs, y ∈ V) : node.role = .leader := by
  rcases h.role with hl | ⟨-, hsub, hcard⟩
  · exact hl
  · have hall : node.all = m.addrs.length := by
      rw [RaftNode.all, h.peers, ← (m.others x hx).length_eq]
      rfl
    have hle : m.addrs.length ≤ node.votes.card := by
      rw [← List.toFinset_card_of_nodup m.nodup]
      refine Finset.card_le_card fun y hy => ?_
      exact hsub (hV y (List.mem_toFinset.mp hy))
    have hpos := List.length_pos_of_mem hx
    omega

/-! ## The run -/

/-- The requests of a node in term 1. -/
def campaign (m : Members α) (c : α) : List (Packet α) :=
  (m.peers c).map fun p => ⟨c, p, .requestVote 1 c⟩

omit [DecidableEq α] in
theorem mem_peers {m : Members α} {c y : α} (hc : c ∈ m.addrs) :
    y ∈ m.addrs ↔ y = c ∨ y ∈ m.peers c := by
  rw [← (m.others c hc).mem_iff, List.mem_cons]

omit [DecidableEq α] in
theorem Asks.patience {m : Members α} {asking : α → Prop} {x : α}
    {node : RaftNode α} (h : Asks m asking x node) :
    node.patience = (electionMin, electionMax) :=
  if_neg h.role

omit [DecidableEq α] in
theorem Asks.mono {m : Members α} {asking asking' : α → Prop} {x : α}
    {node : RaftNode α} (h : Asks m asking x node)
    (hle : asking' x → asking x) : Asks m asking' x node := by
  obtain ⟨haddr, hpeers, hbuggy, hterm, hrole, hcand⟩ := h
  exact ⟨haddr, hpeers, hbuggy, hterm, hrole, fun hasks => hcand (hle hasks)⟩

/-- A node that has heard of nobody asks for votes once its wait is over. -/
theorem Asks.timeout {m : Members α} {asking : α → Prop} {s : Clocked α}
    (h : ∀ x, Asks m asking x (s.nodes x)) {c : α} (hc : c ∈ m.addrs)
    (hterm : (s.nodes c).term = 0) {t : ℚ} (hfree : s.Free m t)
    (hwait : s.since c + electionMin ≤ t) :
    ∃ u, s.step m (t, .timeout c) = some u ∧
      (∀ x, Asks m (fun x => x = c ∨ asking x) x (u.nodes x)) ∧
      (∀ x, x ≠ c → u.nodes x = s.nodes x) ∧
      u.since = Function.update s.since c t ∧ u.now = t ∧
      u.flight = s.flight ++ (campaign m c).map fun p => (t, p) := by
  refine ⟨_, if_pos ⟨hc, hfree, by rwa [(h c).patience]⟩, ?_, ?_, rfl, rfl, ?_⟩
  · intro x
    by_cases hx : x = c
    · subst hx
      simp only [Clocked.advance, Function.update_self]
      rw [RaftNode.onTimeout, if_neg (h x).role]
      have haddr := (h x).addr
      refine ⟨haddr, (h x).peers, (h x).buggy, ?_, nofun, fun _ => ⟨?_, rfl, ?_⟩⟩
      · simp [RaftNode.beginElection, hterm]
      · simp [RaftNode.beginElection, hterm]
      · simp [RaftNode.beginElection, haddr]
    · simp only [Clocked.advance, Function.update_of_ne hx]
      exact (h x).mono fun hasks => hasks.resolve_left hx
  · intro x hx
    simp only [Clocked.advance, Function.update_of_ne hx]
  · simp only [Clocked.advance, RaftNode.onTimeout, if_neg (h c).role]
    simp [Clocked.sends, RaftNode.beginElection, RaftNode.broadcast, campaign,
      hterm, (h c).addr, (h c).peers, Function.comp_def]

/-- Both ask within a millisecond. -/
theorem both_ask {m : Members α} {a b : α} (ha : a ∈ m.addrs)
    (hb : b ∈ m.addrs) (hne : a ≠ b) :
    ∃ as s, Machine.run (Clocked.step m) (Clocked.init m true) as = some s ∧
      (∀ x, Asks m (fun x => x = b ∨ x = a) x (s.nodes x)) ∧
      s.flight.map Prod.snd = campaign m a ++ campaign m b ∧
      (∀ p ∈ s.flight, p.1 ≤ 151 / 1000) ∧
      Room m s (155 / 1000) (160 / 1000) := by
  have hinit : ∀ x, Asks m (fun _ => False) x
      ((Clocked.init m true).nodes x) :=
    fun x => ⟨rfl, rfl, rfl, Nat.zero_le 1, nofun, nofun⟩
  have hfree : (Clocked.init m true).Free m (150 / 1000) := by
    refine ⟨by norm_num [Clocked.init], fun x _ => ?_, by simp [Clocked.init]⟩
    rw [(hinit x).patience]
    norm_num [Clocked.init, electionMax]
  obtain ⟨s, hs, hasks, hsame, hsince, hnow, hflight⟩ :=
    Asks.timeout hinit ha rfl hfree (by norm_num [Clocked.init, electionMin])
  have hwait : s.since b = 0 := by
    simp [hsince, hne.symm, Clocked.init]
  have hsent : ∀ p ∈ s.flight, p.1 = 150 / 1000 := by
    simp [hflight, Clocked.init]
  have hsince : ∀ x, 0 ≤ s.since x := by
    intro x
    rw [hsince]
    by_cases hx : x = a
    · norm_num [hx]
    · simp [hx, Clocked.init]
  have hfree' : s.Free m (151 / 1000) := by
    refine ⟨by norm_num [hnow], fun x _ => ?_, fun p hp => ?_⟩
    · rw [(hasks x).patience]
      norm_num [electionMax]
      linarith [hsince x]
    · have := hsent p hp
      norm_num [latMax]
      linarith
  obtain ⟨t, ht, hasks', -, hsince', hnow', hflight'⟩ :=
    Asks.timeout hasks hb (by rw [hsame b hne.symm]; rfl) hfree'
      (by rw [hwait, zero_add]; norm_num [electionMin])
  have hsent' : ∀ p ∈ t.flight, 150 / 1000 ≤ p.1 ∧ p.1 ≤ 151 / 1000 := by
    intro p hp
    rw [hflight', List.mem_append, List.mem_map] at hp
    rcases hp with hp | ⟨q, -, rfl⟩
    · rw [hsent p hp]
      norm_num
    · norm_num
  refine ⟨[(150 / 1000, .timeout a), (151 / 1000, .timeout b)], t,
    Machine.run_cons_eq_some.mpr ⟨s, hs, Machine.run_cons_eq_some.mpr
      ⟨t, ht, rfl⟩⟩, fun x => (hasks' x).mono (by simp), ?_,
    fun p hp => (hsent' p hp).2, ?_⟩
  · simp [hflight', hflight, Clocked.init, Function.comp_def]
  · refine ⟨by norm_num [hnow'], by norm_num, by norm_num [latMax], ?_, ?_⟩
    · intro x _
      have hpos : 0 ≤ t.since x := by
        rw [hsince']
        by_cases hx : x = b
        · norm_num [hx]
        · simpa [hx] using hsince x
      rw [(hasks' x).patience]
      norm_num [electionMax]
      linarith
    · intro p hp
      have := (hsent' p hp).1
      norm_num [latMax]
      linarith

omit [DecidableEq α] in
theorem campaign_due {m : Members α} {c : α} (hc : c ∈ m.addrs) :
    ∀ p ∈ campaign m c, p.src = c ∧ p.dst ∈ m.addrs ∧
      p.msg = .requestVote 1 p.src := by
  intro p hp
  obtain ⟨y, hy, rfl⟩ := List.mem_map.mp hp
  exact ⟨rfl, (mem_peers hc).mpr (.inr hy), rfl⟩

/-- Everyone they ask grants both of them its vote. -/
theorem all_grant {m : Members α} {a b : α} (ha : a ∈ m.addrs)
    (hb : b ∈ m.addrs) {s : Clocked α} (hstart : Started s)
    (hasks : ∀ x, Asks m (fun x => x = b ∨ x = a) x (s.nodes x))
    (hflight : s.flight.map Prod.snd = campaign m a ++ campaign m b)
    (hsent : ∀ p ∈ s.flight, p.1 ≤ 151 / 1000)
    (hroom : Room m s (155 / 1000) (160 / 1000)) :
    ∃ as t, Machine.run (Clocked.step m) s as = some t ∧
      (∀ x, Asks m (fun x => x = b ∨ x = a) x (t.nodes x)) ∧
      t.flight.map Prod.snd =
        (campaign m a ++ campaign m b).map Packet.granted ∧
      (∀ p ∈ t.flight, p.1 ≤ 160 / 1000) ∧
      Room m t (165 / 1000) (170 / 1000) := by
  have hreq : ∀ p ∈ campaign m a ++ campaign m b,
      p.dst ∈ m.addrs ∧ p.msg = .requestVote 1 p.src := by
    intro p hp
    rcases List.mem_append.mp hp with hp | hp
    · exact (campaign_due ha p hp).2
    · exact (campaign_due hb p hp).2
  have hdue : ∀ p ∈ s.flight,
      p.2.dst ∈ m.addrs ∧ p.1 + latMin ≤ 155 / 1000 := by
    intro p hp
    have hle := hsent p hp
    refine ⟨(hreq p.2 (hflight ▸ List.mem_map_of_mem hp)).1, ?_⟩
    norm_num [latMin]
    linarith
  obtain ⟨as, t, lo, sent, hrun, hnodes, hout, hmsgs, htimes, ht⟩ :=
    hroom.serve (List.append_nil _).symm hdue
  obtain ⟨hall, hgranted⟩ :=
    served_requests hasks fun p hp => (hreq p hp).2
  rw [hflight] at hnodes hmsgs
  rw [← hnodes] at hall
  rw [List.nil_append] at hout
  subst hout
  refine ⟨as, t, hrun, hall, hmsgs.trans hgranted,
    fun p hp => (htimes p hp).2, ?_, by norm_num, by norm_num [latMax], ?_, ?_⟩
  · exact (ht.now.trans ht.lt.le).trans (by norm_num)
  · intro x _
    have hpos := (run_started hstart hrun).2 x
    rw [(hall x).patience]
    norm_num [electionMax]
    linarith
  · intro p hp
    have := (htimes p hp).1
    norm_num [latMax]
    linarith

/-- Both are elected. -/
theorem both_lead {m : Members α} (h : 2 ≤ m.addrs.length) {a b : α}
    (ha : a ∈ m.addrs) (hb : b ∈ m.addrs) {s : Clocked α}
    (hasks : ∀ x, Asks m (fun x => x = b ∨ x = a) x (s.nodes x))
    (hflight : s.flight.map Prod.snd =
      (campaign m a ++ campaign m b).map Packet.granted)
    (hsent : ∀ p ∈ s.flight, p.1 ≤ 160 / 1000)
    (hroom : Room m s (165 / 1000) (170 / 1000)) :
    ∃ as t, Machine.run (Clocked.step m) s as = some t ∧
      ∀ x, x = b ∨ x = a → (t.nodes x).role = .leader ∧
        (t.nodes x).term = 1 ∧ (t.nodes x).addr = x := by
  have hvotes : ∀ p ∈ s.flight.map Prod.snd,
      p.dst ∈ m.addrs ∧ p.msg = .vote 1 p.src true := by
    intro p hp
    rw [hflight] at hp
    obtain ⟨q, hq, rfl⟩ := List.mem_map.mp hp
    rcases List.mem_append.mp hq with hq | hq
    · obtain ⟨rfl, -⟩ := campaign_due ha q hq
      exact ⟨ha, rfl⟩
    · obtain ⟨rfl, -⟩ := campaign_due hb q hq
      exact ⟨hb, rfl⟩
  have hdue : ∀ p ∈ s.flight,
      p.2.dst ∈ m.addrs ∧ p.1 + latMin ≤ 165 / 1000 := by
    intro p hp
    have hle := hsent p hp
    refine ⟨(hvotes p.2 (List.mem_map_of_mem hp)).1, ?_⟩
    norm_num [latMin]
    linarith
  obtain ⟨as, t, lo, sent, hrun, hnodes, -⟩ :=
    hroom.serve (List.append_nil _).symm hdue
  refine ⟨as, t, hrun, fun x hx => ?_⟩
  have hmem : x ∈ m.addrs := by
    rcases hx with rfl | rfl
    · exact hb
    · exact ha
  obtain ⟨hterm, hrole, hself⟩ := (hasks x).candidate hx
  have hcounts : Counts m {x} x (s.nodes x) := by
    refine ⟨(hasks x).addr, (hasks x).peers, hterm, .inr ⟨hrole, hself.ge, ?_⟩⟩
    rw [hself, Finset.card_singleton, RaftNode.all, (hasks x).peers]
    have hlen := (m.others x hmem).length_eq
    rw [List.length_cons] at hlen
    omega
  have hdone := served_votes hcounts fun p hp => (hvotes p hp).2
  rw [← hnodes] at hdone
  refine ⟨hdone.leads hmem fun y hy => ?_, hdone.term, hdone.addr⟩
  rcases (mem_peers hmem).mp hy with rfl | hy
  · simp
  · refine Finset.mem_union_right _ (List.mem_toFinset.mpr ?_)
    refine List.mem_map.mpr ⟨⟨y, x, .vote 1 y true⟩, ?_, rfl⟩
    refine List.mem_filter.mpr ⟨?_, by simp⟩
    rw [hflight]
    have hreq : (⟨x, y, .requestVote 1 x⟩ : Packet α) ∈ campaign m x :=
      List.mem_map_of_mem hy
    refine List.mem_map.mpr ⟨⟨x, y, .requestVote 1 x⟩, ?_, rfl⟩
    rcases hx with rfl | rfl
    · exact List.mem_append_right _ hreq
    · exact List.mem_append_left _ hreq

omit [DecidableEq α] in
theorem exists_two {m : Members α} (h : 2 ≤ m.addrs.length) :
    ∃ a ∈ m.addrs, ∃ b ∈ m.addrs, a ≠ b := by
  have hlt : 0 < m.addrs.length := by omega
  refine ⟨m.addrs[0], List.getElem_mem _, m.addrs[1], List.getElem_mem _, ?_⟩
  intro heq
  have := m.nodup.getElem_inj_iff.mp heq
  omega

/-- The flaw breaks the election at every size. A cluster of at least two
nodes without the guard has a run on the clock, without a loss or a double, in
which two nodes come to lead one term, so that the property of the demo is
false there. -/
theorem split_brain (m : Members α) (h : 2 ≤ m.addrs.length) :
    ∃ as s c, Machine.run (Clocked.step m) (Clocked.init m true) as = some s ∧
      Machine.run (Cluster.step m) (Cluster.init m true)
        (as.map fun a => a.2.act) = some c ∧ Forgets s c ∧
      (∃ p ∈ m.addrs, ∃ q ∈ m.addrs, ∃ term,
        p ≠ q ∧ Leads c p term ∧ Leads c q term) ∧
      atMostOneLeaderPerTerm (m.addrs.map c.nodes) = false := by
  obtain ⟨a, ha, b, hb, hne⟩ := exists_two h
  obtain ⟨as, s, hs, hasks, hflight, hsent, hroom⟩ := both_ask ha hb hne
  have hstart : Started s := run_started ⟨le_rfl, fun _ => le_rfl⟩ hs
  obtain ⟨bs, t, ht, hasks', hflight', hsent', hroom'⟩ :=
    all_grant ha hb hstart hasks hflight hsent hroom
  obtain ⟨cs, u, hu, hlead⟩ := both_lead h ha hb hasks' hflight' hsent' hroom'
  have hrun : Machine.run (Clocked.step m) (Clocked.init m true)
      (as ++ (bs ++ cs)) = some u :=
    Machine.run_append_eq_some.mpr ⟨s, hs,
      Machine.run_append_eq_some.mpr ⟨t, ht, hu⟩⟩
  have hinit : Forgets (Clocked.init m true) (Cluster.init m true) :=
    ⟨rfl, .nil⟩
  obtain ⟨c, hc, hforgets⟩ := run_forgets hinit hrun
  rw [hforgets.nodes] at hlead
  obtain ⟨hrole, hterm, haddr⟩ := hlead a (.inr rfl)
  obtain ⟨hrole', hterm', haddr'⟩ := hlead b (.inl rfl)
  refine ⟨_, u, c, hrun, hc, hforgets,
    ⟨a, ha, b, hb, 1, hne, ⟨hrole, hterm⟩, hrole', hterm'⟩, ?_⟩
  rw [Bool.eq_false_iff, ne_eq, atMostOneLeaderPerTerm_iff]
  intro hone
  refine hne ?_
  rw [← haddr, ← haddr']
  exact hone _ (List.mem_map_of_mem ha) _ (List.mem_map_of_mem hb) hrole hrole'
    (hterm.trans hterm'.symm)

/-- Five nodes that know each other. -/
def five : Members ℕ where
  addrs := [0, 1, 2, 3, 4]
  peers a := [0, 1, 2, 3, 4].filter (· ≠ a)
  nodup := by decide
  others := by decide

theorem split_brain_five :
    2 ≤ five.addrs.length ∧ ∃ as s c,
      Machine.run (Clocked.step five) (Clocked.init five true) as = some s ∧
      Machine.run (Cluster.step five) (Cluster.init five true)
        (as.map fun a => a.2.act) = some c ∧ Forgets s c ∧
      (∃ p ∈ five.addrs, ∃ q ∈ five.addrs, ∃ term,
        p ≠ q ∧ Leads c p term ∧ Leads c q term) ∧
      atMostOneLeaderPerTerm (five.addrs.map c.nodes) = false :=
  ⟨by decide, split_brain five (by decide)⟩

end

end Raft

end Seedloop
