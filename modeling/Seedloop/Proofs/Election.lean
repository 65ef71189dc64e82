import Mathlib.Data.Finset.Dedup
import Seedloop.Lib.Ballots
import Seedloop.Lib.Machine
import Seedloop.Ref.Raft

/-!
# Election safety

Every vote a node gives itself or another is a ballot, and the ballots of a
run are its history. A node of a correct cluster keeps `_voted_for` equal to
the ballot it cast in its current term, so it never casts a second one there;
a granted vote on the wire was cast; and what a candidate counts was cast for
it. A leader then has a majority of the ballots of its term in the history,
and `Elected.unique` does the rest, at whatever times the leaders led.

A handler is judged by `Acts` alone, and no proof after it looks inside one.
-/

namespace Seedloop

namespace Raft

variable {α : Type}

/-- What a node can do when it times out or handles `got`. -/
structure Acts (node : RaftNode α) (got : Option (Msg α)) (node' : RaftNode α)
    (out : List (α × Msg α)) : Prop where
  addr : node'.addr = node.addr
  peers : node'.peers = node.peers
  buggy : node'.buggy = node.buggy
  term : node.term ≤ node'.term
  votedFor : node'.term = node.term → node'.votedFor = node.votedFor ∨
    node.votedFor = none
  votes : ∀ v ∈ node'.votes,
    (node'.term = node.term ∧
      (v ∈ node.votes ∨ got = some (.vote node.term v true))) ∨
    (v = node.addr ∧ node'.votedFor = some node.addr)
  leader : node'.role = .leader →
    node'.all / 2 < node'.votes.card ∨
    (node.role = .leader ∧ node'.votes = node.votes)
  out : ∀ dst term voter, (dst, .vote term voter true) ∈ out →
    voter = node.addr ∧ term = node'.term ∧ node'.votedFor = some dst

theorem Acts.idle (node : RaftNode α) (got : Option (Msg α))
    {out : List (α × Msg α)}
    (hout : ∀ dst term voter, (dst, .vote term voter true) ∉ out) :
    Acts node got node out where
  addr := rfl
  peers := rfl
  buggy := rfl
  term := le_rfl
  votedFor _ := .inl rfl
  votes _ hv := .inl ⟨rfl, .inl hv⟩
  leader h := .inr ⟨h, rfl⟩
  out dst term voter h := absurd h (hout dst term voter)

theorem not_mem_broadcast {node : RaftNode α} {msg : Msg α}
    (hmsg : ∀ term voter, msg ≠ .vote term voter true) (dst : α) (term : ℕ)
    (voter : α) : (dst, .vote term voter true) ∉ node.broadcast msg := by
  intro h
  obtain ⟨p, -, heq⟩ := List.mem_map.mp h
  exact hmsg term voter (Prod.mk.inj heq).2

theorem adoptNewerTerm_cases (node : RaftNode α) (term : ℕ) :
    (¬ node.term < term ∧ node.adoptNewerTerm term = node) ∨
    (node.term < term ∧ node.adoptNewerTerm term =
      { node with
        term := term, role := .follower, votedFor := none, votes := ∅ }) := by
  unfold RaftNode.adoptNewerTerm
  split_ifs with h
  · exact .inr ⟨h, rfl⟩
  · exact .inl ⟨h, rfl⟩

/-- A newer term is adopted with nothing in it, so whatever is done next in it
is done by a node of that term. -/
theorem Acts.adopt {node node' : RaftNode α} {got : Option (Msg α)}
    {out : List (α × Msg α)} (t : ℕ) (hgot : ∀ term v, got ≠ some (.vote term v true))
    (h : Acts (node.adoptNewerTerm t) got node' out) :
    Acts node got node' out := by
  rcases adoptNewerTerm_cases node t with ⟨-, heq⟩ | ⟨hlt, heq⟩
  · rwa [heq] at h
  · rw [heq] at h
    have hterm : t ≤ node'.term := h.term
    refine ⟨h.addr, h.peers, h.buggy, hlt.le.trans hterm, ?_, ?_, ?_, h.out⟩
    · intro hsame
      omega
    · intro v hv
      rcases h.votes v hv with ⟨-, hv | hv⟩ | hv
      · exact absurd hv (Finset.notMem_empty v)
      · exact absurd hv (hgot _ _)
      · exact .inr hv
    · intro hl
      rcases h.leader hl with h | ⟨h, -⟩
      · exact .inl h
      · cases h

theorem onTimeout_acts (node : RaftNode α) :
    Acts node none node.onTimeout.1 node.onTimeout.2 := by
  unfold RaftNode.onTimeout
  split_ifs with h
  · exact .idle node none (not_mem_broadcast (by simp))
  · refine ⟨rfl, rfl, rfl, Nat.le_succ _, ?_, ?_, ?_, ?_⟩
    · intro hsame
      exact absurd hsame (Nat.succ_ne_self _)
    · intro v hv
      exact .inr ⟨Finset.mem_singleton.mp hv, rfl⟩
    · intro hl
      cases hl
    · intro dst term voter hmem
      exact absurd hmem (not_mem_broadcast (by simp) dst term voter)

theorem onHeartbeat_acts (node : RaftNode α) (term : ℕ) (l : α) :
    Acts node (some (.heartbeat term l)) (node.onHeartbeat term) [] := by
  refine .adopt term (by simp) ?_
  unfold RaftNode.onHeartbeat
  generalize node.adoptNewerTerm term = node
  dsimp only
  split_ifs with h
  · exact ⟨rfl, rfl, rfl, le_rfl, fun _ => .inl rfl,
      fun _ hv => .inl ⟨rfl, .inl hv⟩, nofun, by simp⟩
  · exact .idle node _ (by simp)

section

variable [DecidableEq α]

/-- The one guard the election rests on. -/
theorem onRequestVote_acts {node : RaftNode α} (hb : node.buggy = false)
    (src : α) (term : ℕ) (c : α) :
    Acts node (some (.requestVote term c)) (node.onRequestVote src term).1
      (node.onRequestVote src term).2 := by
  refine .adopt term (by simp) ?_
  have hb : (node.adoptNewerTerm term).buggy = false := by
    rcases adoptNewerTerm_cases node term with ⟨-, heq⟩ | ⟨-, heq⟩
    · rw [heq, hb]
    · rw [heq, ← hb]
  unfold RaftNode.onRequestVote
  generalize node.adoptNewerTerm term = node at hb ⊢
  dsimp only
  split_ifs with h
  · obtain ⟨-, -, hfree⟩ := h
    rw [hb] at hfree
    have hfree : node.votedFor = none ∨ node.votedFor = some src :=
      hfree.resolve_left Bool.false_ne_true
    refine ⟨rfl, rfl, rfl, le_rfl, ?_, fun _ hv => .inl ⟨rfl, .inl hv⟩,
      fun hl => .inr ⟨hl, rfl⟩, ?_⟩
    · intro _
      rcases hfree with h | h
      · exact .inr h
      · exact .inl h.symm
    · intro dst t voter hmem
      simp only [List.mem_singleton, Prod.mk.injEq, Msg.vote.injEq] at hmem
      obtain ⟨rfl, rfl, rfl, -⟩ := hmem
      exact ⟨rfl, rfl, rfl⟩
  · exact .idle node _ (by simp)

theorem onVote_acts (node : RaftNode α) (term : ℕ) (voter : α)
    (granted : Bool) :
    Acts node (some (.vote term voter granted))
      (node.onVote term voter granted).1
      (node.onVote term voter granted).2 := by
  unfold RaftNode.onVote
  split_ifs with h
  · obtain ⟨rfl, hrole, rfl⟩ := h
    have hvotes : ∀ v ∈ insert voter node.votes, (node.term = node.term ∧
        (v ∈ node.votes ∨
          some (Msg.vote node.term voter true) =
            some (.vote node.term v true))) ∨
        (v = node.addr ∧ node.votedFor = some node.addr) := by
      intro v hv
      rcases Finset.mem_insert.mp hv with rfl | hv
      · exact .inl ⟨rfl, .inr rfl⟩
      · exact .inl ⟨rfl, .inl hv⟩
    dsimp only
    split_ifs with hmaj
    · exact ⟨rfl, rfl, rfl, le_rfl, fun _ => .inl rfl, hvotes,
        fun _ => .inl hmaj, fun dst t v hmem =>
          absurd hmem (not_mem_broadcast (by simp) dst t v)⟩
    · refine ⟨rfl, rfl, rfl, le_rfl, fun _ => .inl rfl, hvotes, ?_, by simp⟩
      intro hl
      rw [show node.role = .leader from hl] at hrole
      cases hrole
  · exact .idle node _ (by simp)

/-- A handler does what `Acts` says, and nothing else. -/
theorem handle_acts {node : RaftNode α} (hb : node.buggy = false) (src : α)
    (msg : Msg α) :
    Acts node (some msg) (node.handle src msg).1 (node.handle src msg).2 := by
  cases msg with
  | requestVote term c => exact onRequestVote_acts hb src term c
  | vote term voter granted => exact onVote_acts node term voter granted
  | heartbeat term l => exact onHeartbeat_acts node term l

end

/-! ## The history of a run -/

/-- The ballot a node holds, as a list of at most one. -/
def held (x : α) (node : RaftNode α) : List (Ballot α ℕ α) :=
  (node.votedFor.map fun c => ⟨x, node.term, c⟩).toList

theorem mem_held {x : α} {node : RaftNode α} {b : Ballot α ℕ α} :
    b ∈ held x node ↔ b.voter = x ∧ b.term = node.term ∧
      node.votedFor = some b.candidate := by
  obtain ⟨v, t, c⟩ := b
  cases hv : node.votedFor <;> simp [held, hv, eq_comm]

/-- A node and the ballots cast so far. -/
structure NodeInv (m : Members α) (h : List (Ballot α ℕ α)) (x : α)
    (node : RaftNode α) : Prop where
  addr : node.addr = x
  peers : node.peers = m.peers x
  buggy : node.buggy = false
  votedFor : ∀ c, node.votedFor = some c ↔ ⟨x, node.term, c⟩ ∈ h
  past : ∀ t c, ⟨x, t, c⟩ ∈ h → t ≤ node.term
  votes : ∀ v ∈ node.votes, ⟨v, node.term, x⟩ ∈ h
  leader : node.role = .leader → node.all / 2 < node.votes.card

structure Inv (m : Members α) (s : Cluster α) (h : List (Ballot α ℕ α)) :
    Prop where
  node : ∀ x ∈ m.addrs, NodeInv m h x (s.nodes x)
  voter : ∀ b ∈ h, b.voter ∈ m.addrs
  once : Ballot.OneEach h
  flight : ∀ p ∈ s.flight, ∀ t v, p.msg = .vote t v true →
    ⟨v, t, p.dst⟩ ∈ h

theorem init_inv (m : Members α) : Inv m (Cluster.init m false) [] where
  node x _ := by
    refine ⟨rfl, rfl, rfl, ?_, ?_, ?_, nofun⟩
    · simp [Cluster.init, RaftNode.init]
    · simp
    · simp [Cluster.init, RaftNode.init]
  voter := by simp
  once := Ballot.oneEach_nil
  flight := by simp [Cluster.init]

/-- The ballots of others do not concern a node that stands still. -/
theorem NodeInv.append {m : Members α} {h new : List (Ballot α ℕ α)} {x : α}
    {node : RaftNode α} (hx : NodeInv m h x node)
    (hnew : ∀ b ∈ new, b.voter ≠ x) : NodeInv m (h ++ new) x node := by
  have hmem : ∀ t c, ⟨x, t, c⟩ ∈ h ++ new ↔ ⟨x, t, c⟩ ∈ h := by
    intro t c
    rw [List.mem_append, or_iff_left]
    exact fun hb => hnew _ hb rfl
  refine ⟨hx.addr, hx.peers, hx.buggy, ?_, ?_, ?_, hx.leader⟩
  · intro c
    rw [hmem, hx.votedFor]
  · intro t c hb
    exact hx.past t c ((hmem t c).mp hb)
  · intro v hv
    exact List.mem_append_left _ (hx.votes v hv)

/-- What a node moves to agrees with every ballot it ever cast. -/
theorem NodeInv.acts {m : Members α} {h : List (Ballot α ℕ α)} {x : α}
    {node node' : RaftNode α} {got : Option (Msg α)} {out : List (α × Msg α)}
    (hx : NodeInv m h x node) (ha : Acts node got node' out)
    (hgot : ∀ t v, got = some (.vote t v true) → ⟨v, t, x⟩ ∈ h) :
    NodeInv m (h ++ held x node') x node' ∧
    ∀ c, ⟨x, node'.term, c⟩ ∈ h → node'.votedFor = some c := by
  have hold : ∀ c, ⟨x, node'.term, c⟩ ∈ h → node'.votedFor = some c := by
    intro c hc
    have hterm : node'.term = node.term :=
      le_antisymm (hx.past _ _ hc) ha.term
    rw [hterm] at hc
    have hvf := (hx.votedFor c).mpr hc
    rcases ha.votedFor hterm with heq | hnone
    · rw [heq, hvf]
    · rw [hnone] at hvf
      cases hvf
  refine ⟨⟨ha.addr.trans hx.addr, ha.peers.trans hx.peers,
    ha.buggy.trans hx.buggy, ?_, ?_, ?_, ?_⟩, hold⟩
  · intro c
    rw [List.mem_append, mem_held]
    constructor
    · exact fun hc => .inr ⟨rfl, rfl, hc⟩
    · rintro (hc | ⟨-, -, hc⟩)
      · exact hold c hc
      · exact hc
  · intro t c hb
    rcases List.mem_append.mp hb with hb | hb
    · exact (hx.past t c hb).trans ha.term
    · exact (mem_held.mp hb).2.1.le
  · intro v hv
    rw [List.mem_append]
    rcases ha.votes v hv with ⟨hterm, hv | hv⟩ | ⟨rfl, hself⟩
    · exact .inl (hterm ▸ hx.votes v hv)
    · exact .inl (hterm ▸ hgot _ _ hv)
    · rw [hx.addr] at hself ⊢
      exact .inr (mem_held.mpr ⟨rfl, rfl, hself⟩)
  · intro hl
    rcases ha.leader hl with hmaj | ⟨hwas, hsame⟩
    · exact hmaj
    · rw [hsame, RaftNode.all, ha.peers]
      exact hx.leader hwas

/-- Fewer packets in flight. -/
theorem Inv.of_flight {m : Members α} {s : Cluster α} {h : List (Ballot α ℕ α)}
    (hs : Inv m s h) {flight : List (Packet α)} (hf : flight ⊆ s.flight) :
    Inv m { s with flight := flight } h :=
  ⟨hs.node, hs.voter, hs.once, fun p hp => hs.flight p (hf hp)⟩

variable [DecidableEq α]

/-- A node moves. -/
theorem Inv.advance {m : Members α} {s : Cluster α} {h : List (Ballot α ℕ α)}
    (hs : Inv m s h) {x : α} (hx : x ∈ m.addrs) {got : Option (Msg α)}
    {r : RaftNode α × List (α × Msg α)}
    (ha : Acts (s.nodes x) got r.1 r.2)
    (hgot : ∀ t v, got = some (.vote t v true) → ⟨v, t, x⟩ ∈ h) :
    Inv m (s.advance x r) (h ++ held x r.1) := by
  obtain ⟨hnode, hold⟩ := (hs.node x hx).acts ha hgot
  refine ⟨?_, ?_, ?_, ?_⟩
  · intro y hy
    by_cases hyx : y = x
    · subst hyx
      simpa [Cluster.advance] using hnode
    · simp only [Cluster.advance, Function.update_of_ne hyx]
      refine (hs.node y hy).append fun b hb => ?_
      rw [(mem_held.mp hb).1]
      exact Ne.symm hyx
  · intro b hb
    rcases List.mem_append.mp hb with hb | hb
    · exact hs.voter b hb
    · exact (mem_held.mp hb).1 ▸ hx
  · unfold held
    cases hv : r.1.votedFor with
    | none => simpa using hs.once
    | some c =>
        refine hs.once.concat fun b hb hvoter hterm => ?_
        obtain ⟨v, t, c'⟩ := b
        obtain rfl : v = x := hvoter
        obtain rfl : t = r.1.term := hterm
        exact Option.some.inj ((hold c' hb).symm.trans hv)
  · intro p hp t v hmsg
    rcases List.mem_append.mp hp with hp | hp
    · exact List.mem_append_left _ (hs.flight p hp t v hmsg)
    · obtain ⟨⟨dst, msg⟩, hout, rfl⟩ := List.mem_map.mp hp
      obtain rfl : msg = .vote t v true := hmsg
      obtain ⟨rfl, rfl, hvf⟩ := ha.out _ _ _ hout
      refine List.mem_append_right _ (mem_held.mpr ⟨?_, rfl, hvf⟩)
      exact (hs.node x hx).addr

/-- The node that moves. -/
def Act.actor? : Act α → Option α
  | .timeout a => some a
  | .handle p => some p.dst
  | .lose _ | .duplicate _ => none

/-- The ballot a step leaves with the node that moved. -/
def ballots (m : Members α) (s : Cluster α) (a : Act α) :
    List (Ballot α ℕ α) :=
  match s.step m a, a.actor? with
  | some t, some x => held x (t.nodes x)
  | _, _ => []

theorem Inv.step {m : Members α} {s t : Cluster α} {a : Act α}
    {h : List (Ballot α ℕ α)} (hs : Inv m s h) (ht : s.step m a = some t) :
    Inv m t (h ++ ballots m s a) := by
  simp only [ballots, ht]
  cases a with
  | timeout x =>
      simp only [Cluster.step] at ht
      split_ifs at ht with hx
      obtain rfl := Option.some.inj ht
      have := hs.advance hx (onTimeout_acts _) nofun
      simpa [Act.actor?, Cluster.advance] using this
  | handle p =>
      simp only [Cluster.step] at ht
      split_ifs at ht with hp
      obtain rfl := Option.some.inj ht
      have hrest := hs.of_flight (s.flight.erase_subset (a := p))
      have := hrest.advance hp.2
        (handle_acts (hs.node p.dst hp.2).buggy p.src p.msg) (by
          intro t v heq
          exact hs.flight p hp.1 t v (Option.some.inj heq))
      simpa [Act.actor?, Cluster.advance] using this
  | lose p =>
      simp only [Cluster.step] at ht
      split_ifs at ht with hp
      obtain rfl := Option.some.inj ht
      simpa [Act.actor?] using hs.of_flight (s.flight.erase_subset (a := p))
  | duplicate p =>
      simp only [Cluster.step] at ht
      split_ifs at ht with hp
      obtain rfl := Option.some.inj ht
      have : p :: s.flight ⊆ s.flight := List.cons_subset.mpr ⟨hp, List.Subset.refl _⟩
      simpa [Act.actor?] using hs.of_flight this

theorem run_inv {m : Members α} {s t : Cluster α} {as : List (Act α)}
    {h : List (Ballot α ℕ α)} (hs : Inv m s h)
    (ht : Machine.run (Cluster.step m) s as = some t) :
    Inv m t (h ++ Machine.outputs (Cluster.step m) (ballots m) s as) :=
  Machine.run_outputs_invariant (fun hs ht => hs.step ht) hs ht

/-! ## Safety -/

/-- The node leads in the term. -/
def Leads (s : Cluster α) (x : α) (term : ℕ) : Prop :=
  (s.nodes x).role = .leader ∧ (s.nodes x).term = term

/-- A leader was elected, and the history shows it. -/
theorem Inv.elected {m : Members α} {s : Cluster α} {h : List (Ballot α ℕ α)}
    (hs : Inv m s h) {x : α} (hx : x ∈ m.addrs) {term : ℕ}
    (hl : Leads s x term) : Ballot.Elected m.addrs.toFinset h term x := by
  have hnode := hs.node x hx
  obtain ⟨hrole, rfl⟩ := hl
  refine ⟨(s.nodes x).votes, ?_, ?_, hnode.votes⟩
  · intro v hv
    exact List.mem_toFinset.mpr (hs.voter _ (hnode.votes v hv))
  · have hall : (s.nodes x).all = m.addrs.length := by
      rw [RaftNode.all, hnode.peers, ← (m.others x hx).length_eq]
      rfl
    have hmaj := hnode.leader hrole
    rw [List.toFinset_card_of_nodup m.nodup]
    omega

/-- The two lookups of a step of the fold. -/
theorem mem_leadersByTerm {nodes : List (RaftNode α)} {term : ℕ} {x : α} :
    x ∈ ((leadersByTerm nodes).lookup term).getD ∅ ↔
      ∃ node ∈ nodes, node.role = .leader ∧ node.term = term ∧
        node.addr = x := by
  induction nodes using List.reverseRecOn with
  | nil => simp [leadersByTerm]
  | append_singleton nodes node ih =>
      have hfold : leadersByTerm (nodes ++ [node]) =
          if node.role = .leader then
            (leadersByTerm nodes).insert node.term
              (insert node.addr
                (((leadersByTerm nodes).lookup node.term).getD ∅))
          else leadersByTerm nodes := by
        rw [leadersByTerm, List.foldl_append]
        rfl
      rw [hfold]
      simp only [List.mem_append, List.mem_singleton, or_and_right, exists_or,
        exists_eq_left, ← ih]
      split_ifs with hl
      · by_cases ht : node.term = term
        · subst ht
          rw [AList.lookup_insert, Option.getD_some, Finset.mem_insert,
            or_comm]
          simp [hl, eq_comm]
        · rw [AList.lookup_insert_ne (Ne.symm ht)]
          simp [ht]
      · simp [hl]

/-- The property of the demo says what its name says. -/
theorem atMostOneLeaderPerTerm_iff {nodes : List (RaftNode α)} :
    atMostOneLeaderPerTerm nodes = true ↔
      ∀ p ∈ nodes, ∀ q ∈ nodes, p.role = .leader → q.role = .leader →
        p.term = q.term → p.addr = q.addr := by
  have hcard : atMostOneLeaderPerTerm nodes = true ↔
      ∀ term leaders, (leadersByTerm nodes).lookup term = some leaders →
        leaders.card ≤ 1 := by
    simp only [atMostOneLeaderPerTerm, List.all_eq_true, decide_eq_true_eq]
    constructor
    · intro h term leaders hlook
      exact h ⟨term, leaders⟩ (AList.mem_lookup_iff.mp hlook)
    · rintro h ⟨term, leaders⟩ he
      exact h term leaders (AList.mem_lookup_iff.mpr he)
  rw [hcard]
  constructor
  · intro h p hp q hq hlp hlq hterm
    have hmem := mem_leadersByTerm.mpr ⟨p, hp, hlp, rfl, rfl⟩
    have hmem' := mem_leadersByTerm.mpr ⟨q, hq, hlq, hterm.symm, rfl⟩
    cases hlook : (leadersByTerm nodes).lookup p.term with
    | none => simp [hlook] at hmem
    | some leaders =>
        rw [hlook] at hmem hmem'
        exact Finset.card_le_one.mp (h _ _ hlook) _ hmem _ hmem'
  · intro h term leaders hlook
    refine Finset.card_le_one.mpr fun x hx y hy => ?_
    obtain ⟨p, hp, hlp, rfl, rfl⟩ :=
      mem_leadersByTerm.mp (show x ∈ _ by rwa [hlook])
    obtain ⟨q, hq, hlq, hterm, rfl⟩ :=
      mem_leadersByTerm.mp (show y ∈ _ by rwa [hlook])
    exact h p hp q hq hlp hlq hterm.symm

/-- Election safety. In every run of a correct cluster of any size, whatever
times out, is handled, lost, doubled, delayed or overtaken, a node that leads a
term and a node that leads it then or at any later point of the run are one;
and the demo's own property holds in every state. -/
theorem election_safety {m : Members α} {before after : List (Act α)}
    {s t : Cluster α}
    (hs : Machine.run (Cluster.step m) (Cluster.init m false) before = some s)
    (ht : Machine.run (Cluster.step m) s after = some t) :
    (∀ p ∈ m.addrs, ∀ q ∈ m.addrs, ∀ term,
      Leads s p term → Leads t q term → p = q) ∧
    atMostOneLeaderPerTerm (m.addrs.map s.nodes) = true ∧
    atMostOneLeaderPerTerm (m.addrs.map t.nodes) = true := by
  have hsi := run_inv (init_inv m) hs
  have hti := run_inv hsi ht
  have hnow : ∀ {u : Cluster α} {h : List (Ballot α ℕ α)}, Inv m u h →
      atMostOneLeaderPerTerm (m.addrs.map u.nodes) = true := by
    intro u h hu
    rw [atMostOneLeaderPerTerm_iff]
    simp only [List.mem_map, forall_exists_index, and_imp,
      forall_apply_eq_imp_iff₂]
    intro p hp q hq hlp hlq hterm
    rw [(hu.node p hp).addr, (hu.node q hq).addr]
    exact Ballot.Elected.unique hu.once (hu.elected hp ⟨hlp, rfl⟩)
      (hu.elected hq ⟨hlq, hterm.symm⟩)
  refine ⟨?_, hnow hsi, hnow hti⟩
  intro p hp q hq term hlp hlq
  exact Ballot.Elected.unique hti.once
    ((hsi.elected hp hlp).mono (List.subset_append_left _ _))
    (hti.elected hq hlq)

/-- Three nodes that know each other. -/
def three : Members ℕ where
  addrs := [0, 1, 2]
  peers a := [0, 1, 2].filter (· ≠ a)
  nodup := by decide
  others := by decide

/-- Node 0 is elected with the vote of node 1, which it is told of twice. -/
def election : List (Act ℕ) :=
  [.timeout 0, .handle ⟨0, 1, .requestVote 1 0⟩,
    .duplicate ⟨1, 0, .vote 1 1 true⟩, .handle ⟨1, 0, .vote 1 1 true⟩]

/-- Node 2 has not heard of it, and asks node 1 in the same term. -/
def lateRequest : List (Act ℕ) :=
  [.timeout 2, .handle ⟨2, 1, .requestVote 1 2⟩,
    .handle ⟨1, 2, .vote 1 1 false⟩]

theorem election_safety_three : ∃ s t,
    Machine.run (Cluster.step three) (Cluster.init three false) election =
      some s ∧
    Machine.run (Cluster.step three) s lateRequest = some t ∧
    ∀ q ∈ three.addrs, Leads t q 1 → 0 = q := by
  have hrun : (Machine.run (Cluster.step three) (Cluster.init three false)
      (election ++ lateRequest)).isSome := by decide +kernel
  obtain ⟨t, hall⟩ := Option.isSome_iff_exists.mp hrun
  obtain ⟨s, hs, ht⟩ := Machine.run_append_eq_some.mp hall
  have hlead : ((s.nodes 0).role, (s.nodes 0).term) = (.leader, 1) := by
    have := congrArg (Option.map fun s : Cluster ℕ =>
      ((s.nodes 0).role, (s.nodes 0).term)) hs
    exact Option.some.inj (this.symm.trans (by decide +kernel))
  obtain ⟨hrole, hterm⟩ := Prod.mk.inj hlead
  refine ⟨s, t, hs, ht, fun q hq => ?_⟩
  exact (election_safety hs ht).1 0 (by decide) q hq 1 ⟨hrole, hterm⟩

/-- Without the guard node 1 votes twice in term 1, and both candidates have
their two votes. -/
example : ((Machine.run (Cluster.step three) (Cluster.init three true)
    [.timeout 0, .timeout 2, .handle ⟨0, 1, .requestVote 1 0⟩,
      .handle ⟨2, 1, .requestVote 1 2⟩, .handle ⟨1, 0, .vote 1 1 true⟩,
      .handle ⟨1, 2, .vote 1 1 true⟩]).map fun s =>
        atMostOneLeaderPerTerm (three.addrs.map s.nodes)) = some false := by
  decide +kernel

end Raft

end Seedloop
