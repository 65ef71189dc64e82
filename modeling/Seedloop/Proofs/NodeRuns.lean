import Seedloop.Proofs.EndToEnd
import Seedloop.Ref.Nodes

/-!
# The network is an asynchronous one

What the simulated network makes of the packets of its nodes, an asynchronous
network could have made of them: it loses one when a send is dropped, when its
delivery meets a crash or a partition, or when nobody is bound where it goes;
it doubles one when a send is duplicated; and everything else it does is delay.
So a program keeps on the simulated network, under any fault and any policy,
whatever it keeps on an asynchronous one.

The relation counts copies. A copy of a packet is a delivery that waits, a
message in the queue of its destination, or one that was taken there and not
handled yet; and there are as many of these as are in flight.
-/

namespace Seedloop

/-- The callback delivers the packet. -/
def Callback.carries {μ υ : Type} [DecidableEq μ] (p : Async.Packet Address μ) :
    Callback μ υ → Bool
  | .deliver _ src dst msg => p = ⟨src, dst, msg⟩
  | _ => false

/-- The message is a second copy that the network makes. -/
def Event.isDouble {μ : Type} : Event μ → Bool
  | .message .duplicate _ _ _ => true
  | _ => false

theorem carries_of_isDeliver {μ υ : Type} [DecidableEq μ]
    {p : Async.Packet Address μ} {c : Callback μ υ}
    (h : c.carries p = true) : c.isDeliver = true := by
  cases c with
  | deliver => rfl
  | _ => cases h

namespace Net

variable {ρ μ υ : Type} [DecidableEq μ]

/-- The deliveries of a packet that wait. -/
def carried (s : Net ρ μ υ) (p : Async.Packet Address μ) : ℕ :=
  s.loop.pending.countP fun h => h.callback.carries p

/-- The copies of a packet in the queue of its destination. -/
def queued (s : Net ρ μ υ) (p : Async.Packet Address μ) : ℕ :=
  (s.queueAt p.dst).count (p.src, p.msg)

/-- How many second copies the network has made. -/
def doubles (s : Net ρ μ υ) : ℕ := s.timeline.countP fun e => e.2.isDouble

omit [DecidableEq μ] in
theorem doubles_append {s t : Net ρ μ υ} {new : List (ℚ × Event μ)}
    (h : t.timeline = s.timeline ++ new) :
    t.doubles = s.doubles + new.countP fun e => e.2.isDouble := by
  rw [doubles, h, List.countP_append]
  rfl

theorem carried_eq (s : Net ρ μ υ) (p : Async.Packet Address μ) :
    s.carried p = (s.loop.pending.filter fun h => h.callback.isDeliver).countP
      fun h => h.callback.carries p := by
  rw [List.countP_filter]
  refine List.countP_congr fun h _ => ?_
  simp only [Bool.and_eq_true, iff_self_and]
  exact carries_of_isDeliver

theorem Idle.carried {s t : Net ρ μ υ} (h : Idle s t)
    (p : Async.Packet Address μ) : t.carried p = s.carried p := by
  rw [carried_eq, carried_eq, h.pending]

omit [DecidableEq μ] in
theorem Idle.doubles {s t : Net ρ μ υ} (h : Idle s t) :
    t.doubles = s.doubles := by
  obtain ⟨new, hnew, hno⟩ := h.timeline
  rw [doubles_append hnew, Nat.add_eq_left, List.countP_eq_zero]
  rintro ⟨time, e⟩ he hdouble
  cases e with
  | message kind mid src dst => exact hno _ he kind mid src dst rfl
  | _ => cases hdouble

theorem Sends.carried {s t : Net ρ μ υ} {src dst : Address} {msg : μ}
    {endpoint : Endpoint μ} {how : Sent}
    (h : Sends s t src dst msg endpoint how) (p : Async.Packet Address μ) :
    t.carried p = s.carried p +
      if p = ⟨endpoint.address, dst, msg⟩ then how.copies else 0 := by
  obtain ⟨hs, hperm, hlen, hall⟩ := h.pending
  rw [Net.carried, hperm.countP_eq, List.countP_append, Nat.add_comm]
  congr 1
  split_ifs with hp
  · rw [← hlen, List.countP_eq_length]
    intro h hh
    simp [hall h hh, Callback.carries, hp]
  · rw [List.countP_eq_zero]
    intro h hh
    simp [hall h hh, Callback.carries, hp]

omit [DecidableEq μ] in
theorem Sends.doubles {s t : Net ρ μ υ} {src dst : Address} {msg : μ}
    {endpoint : Endpoint μ} {how : Sent}
    (h : Sends s t src dst msg endpoint how) :
    t.doubles = s.doubles + (how.copies - 1) := by
  rw [doubles_append h.timeline]
  congr 1
  cases how <;> rfl

theorem Ends.carried {s t : Net ρ μ υ} {mid : ℕ} {src dst : Address} {msg : μ}
    (h : Ends s t mid src dst msg) (p : Async.Packet Address μ) :
    s.carried p = t.carried p + if p = ⟨src, dst, msg⟩ then 1 else 0 := by
  obtain ⟨hd, hc, hperm⟩ := h.perm
  rw [Net.carried, hperm.countP_eq, List.countP_cons, hc]
  simp [Callback.carries, Net.carried]

omit [DecidableEq μ] in
theorem Ends.doubles {s t : Net ρ μ υ} {mid : ℕ} {src dst : Address} {msg : μ}
    (h : Ends s t mid src dst msg) : t.doubles = s.doubles := by
  rw [doubles_append h.timeline]
  rcases s.fate_cases src dst with hf | hf | hf
  all_goals
    rw [hf]
    rfl

/-- A delivery that ends puts its packet in the queue it goes to, or loses
it. -/
theorem Ends.queued {s t : Net ρ μ υ} {mid : ℕ} {src dst : Address} {msg : μ}
    (h : Ends s t mid src dst msg) :
    ∃ k ≤ 1, ∀ p : Async.Packet Address μ, t.queued p =
      s.queued p + if p = ⟨src, dst, msg⟩ then k else 0 := by
  by_cases hin : s.fate src dst = .deliver ∧ dst ∈ s.endpoints
  · refine ⟨1, le_rfl, fun p => ?_⟩
    obtain ⟨psrc, pdst, pmsg⟩ := p
    rw [Net.queued, h.queue]
    by_cases hd : pdst = dst
    · subst hd
      rw [if_pos ⟨hin.1, rfl, hin.2⟩, List.count_append, Net.queued]
      congr 1
      by_cases hp : psrc = src ∧ pmsg = msg
      · obtain ⟨rfl, rfl⟩ := hp
        rw [List.count_singleton_self, if_pos rfl]
      · rw [if_neg (by rintro ⟨⟩; exact hp ⟨rfl, rfl⟩), List.count_eq_zero]
        intro hmem
        rw [List.mem_singleton, Prod.mk.injEq] at hmem
        exact hp hmem
    · rw [if_neg (by rintro ⟨-, hd', -⟩; exact hd hd'),
        if_neg (by rintro ⟨⟩; exact hd rfl)]
      rfl
  · refine ⟨0, Nat.zero_le 1, fun p => ?_⟩
    rw [Net.queued, h.queue, if_neg, ite_self]
    · rfl
    · rintro ⟨hfate, hd, hbound⟩
      exact hin ⟨hfate, hd ▸ hbound⟩

omit [DecidableEq μ] in
theorem queueAt_unbound {s : Net ρ μ υ} {d : Address} (hd : d ∉ s.endpoints) :
    s.queueAt d = [] := by
  rw [queueAt, AList.lookup_eq_none.mpr hd]

omit [DecidableEq μ] in
/-- An operation that answers has nothing for an address that is not bound. -/
theorem op_queue [Random ρ] {s t : Net ρ μ υ} {o : Op μ υ} {r : Reply μ}
    (h : s.op o = some (t, r)) (d : Address) :
    (if o.receives? = some d then r.item? else []) ++ t.queueAt d =
      s.queueAt d := by
  by_cases hd : d ∈ s.endpoints
  · exact op_received h hd
  · have hframe : Frame s t := by
      rcases op_cases h with ⟨_, _, _, _, _, -, hsends⟩ | ⟨-, heff⟩
      · exact hsends.frame
      · exact heff.frame
    have hqueue := hframe.queue d
    rw [queueAt_unbound hd, List.suffix_nil] at hqueue
    rw [hqueue, queueAt_unbound hd, List.append_nil, ite_eq_right_iff]
    intro hrec
    have hnone := AList.lookup_eq_none.mpr hd
    cases o with
    | recv address task mustCancel | resumeRecv address task =>
        cases hrec
        simp only [op, inboxAct, hnone] at h
        cases h
    | _ => cases hrec

end Net

/-- What is taken is what `recv` calls returned. -/
theorem Nodes.take_handed {μ υ : Type} (taken : Address → List (Address × μ))
    (o : Op μ υ) (r : Reply μ) (d : Address) :
    Nodes.take taken (o.handed r) d =
      taken d ++ if o.receives? = some d then r.item? else [] := by
  have hnone : Nodes.take taken none d = taken d ++ [] :=
    (List.append_nil _).symm
  have hreturned : ∀ address (item : Address × μ),
      Nodes.take taken (some (address, item)) d =
        taken d ++ if some address = some d then [item] else [] := by
    intro address item
    rw [Nodes.take]
    by_cases hd : address = d
    · subst hd
      rw [Function.update_self, if_pos rfl]
    · rw [Function.update_of_ne (Ne.symm hd),
        if_neg (by rintro ⟨⟩; exact hd rfl), List.append_nil]
  cases o with
  | recv address task mustCancel | resumeRecv address task =>
      cases r with
      | recv out =>
          cases out with
          | returned item => exact hreturned address item
          | _ => exact hnone.trans (congrArg _ (ite_self _).symm)
      | _ => exact hnone.trans (congrArg _ (ite_self _).symm)
  | _ => exact hnone

namespace Net

variable {ρ μ υ : Type} [DecidableEq μ] [Random ρ]

/-- A move of the loop that ends no delivery leaves the queues alone. -/
theorem Idle.queueAt {s t : Net ρ μ υ} {a : Act μ υ} (hi : Idle s t)
    (hh : Handles s) (h : s.step a = some t) (ha : ∀ o, a ≠ .op o)
    (d : Address) : t.queueAt d = s.queueAt d := by
  rcases step_arrives hh h d with ⟨-, hqueue, -⟩ |
    ⟨mid, src, msg, hd, -, -, -, -, hends⟩
  · exact hqueue ha
  · have hfewer := hends.carried ⟨src, d, msg⟩
    rw [hi.carried, if_pos rfl] at hfewer
    omega

end Net

namespace Nodes

open Async

variable {ρ μ υ σ : Type} [DecidableEq μ]

/-- The copies of a packet, wherever they are. -/
def copies (s : Nodes ρ μ υ σ) (p : Packet Address μ) : ℕ :=
  s.net.carried p + s.net.queued p + (s.taken p.dst).count (p.src, p.msg)

/-- The asynchronous network has the same nodes, and in flight as many copies
of each packet as there are. -/
structure Matches (s : Nodes ρ μ υ σ) (c : Config Address μ σ) : Prop where
  handles : Net.Handles s.net
  addressed : Net.Addressed s.net
  nodes : c.nodes = s.state
  flight : ∀ p, c.flight.count p = s.copies p

theorem init_matches (g f : ρ) (state : Address → σ) :
    Matches (init g f state : Nodes ρ μ υ σ) ⟨state, []⟩ where
  handles := Net.init_handles g f
  addressed a e he := by cases he
  nodes := rfl
  flight p := rfl

variable [Random ρ] {P : Program Address μ σ} {members : List Address}

/-- Packets in flight that are yet to be sent are sent, one after the other. -/
theorem sendAll_settles {x : Address} {out : List (Address × μ)}
    {s t : Net ρ μ υ} {c : Config Address μ σ} {rest : Packet Address μ → ℕ}
    (hh : Net.Handles s) (ha : Net.Addressed s) (h : sendAll x out s = some t)
    (hc : ∀ p, c.flight.count p =
      s.carried p + rest p + (packets x out).count p) :
    ∃ as d, Machine.run (Config.step P members) c as = some d ∧
      d.nodes = c.nodes ∧ Net.Handles t ∧ Net.Addressed t ∧
      (∀ p, d.flight.count p = t.carried p + rest p) ∧
      (∀ a, t.queueAt a = s.queueAt a) ∧
      t.doubles = s.doubles + as.countP Act.isDuplicate := by
  induction out generalizing s c with
  | nil =>
      cases h
      exact ⟨[], c, rfl, rfl, hh, ha, hc, fun _ => rfl, rfl⟩
  | cons item out ih =>
      obtain ⟨dst, msg⟩ := item
      rw [sendAll] at h
      split at h
      · cases h
      · next u r hop =>
        obtain ⟨endpoint, how, hsends⟩ : ∃ endpoint how,
            Net.Sends s u x dst msg endpoint how := by
          rcases Net.op_cases hop with ⟨_, _, _, e, how, heq, hsends⟩ |
            ⟨hno, -⟩
          · cases heq
            exact ⟨e, how, hsends⟩
          · exact absurd rfl (hno x dst msg)
        have haddress := ha x endpoint hsends.bound
        have hcopies : how.copies ≤ 2 := by cases how <;> simp [Net.Sent.copies]
        have hcons : ∀ p, (packets x ((dst, msg) :: out)).count p =
            (packets x out).count p +
              if p = ⟨x, dst, msg⟩ then 1 else 0 := by
          intro p
          rw [packets, List.map_cons, List.count_cons]
          congr 1
          by_cases hp : p = ⟨x, dst, msg⟩
          · rw [hp, if_pos rfl, if_pos (beq_self_eq_true _)]
          · rw [if_neg hp, if_neg]
            exact fun heq => hp (eq_of_beq heq).symm
        have hmem : (⟨x, dst, msg⟩ : Packet Address μ) ∈ c.flight := by
          rw [← List.count_pos_iff, hc, hcons, if_pos rfl]
          omega
        obtain ⟨as, d, hrun, hnodes, hflight, hdup⟩ :=
          Config.settle P members hmem hcopies
        have hd : ∀ p, d.flight.count p =
            u.carried p + rest p + (packets x out).count p := by
          intro p
          have hp := hflight p
          rw [hc, hcons] at hp
          rw [hsends.carried, haddress]
          split_ifs at hp ⊢ <;> omega
        obtain ⟨as', d', hrun', hnodes', hh', ha', hd', hqueue, hdup'⟩ :=
          ih (hsends.handles hh) (hsends.frame.keeps.addressed ha) h hd
        refine ⟨as ++ as', d', Machine.run_append_eq_some.mpr ⟨d, hrun, hrun'⟩,
          hnodes'.trans hnodes, hh', ha', hd', fun a => ?_, ?_⟩
        · obtain ⟨g, f, heq⟩ := hsends.eq
          rw [hqueue a, heq]
          cases how <;> rfl
        · rw [hdup', hsends.doubles, List.countP_append, hdup, Nat.add_assoc]

/-- A node goes on, on either network. -/
theorem Matches.advance {s t : Nodes ρ μ υ σ} {c : Config Address μ σ}
    (hs : Matches s c) {x : Address} {r : σ × List (Address × μ)}
    (P : Program Address μ σ) (members : List Address)
    (h : s.advance x r = some t) :
    ∃ as d, Machine.run (Config.step P members) (c.advance x r) as = some d ∧
      Matches t d ∧
      t.net.doubles = s.net.doubles + as.countP Act.isDuplicate := by
  simp only [Nodes.advance, Option.map_eq_some_iff] at h
  obtain ⟨net, hnet, rfl⟩ := h
  have hflight : ∀ p, (c.advance x r).flight.count p = s.net.carried p +
      (s.net.queued p + (s.taken p.dst).count (p.src, p.msg)) +
        (packets x r.2).count p := by
    intro p
    rw [Config.advance, List.count_append, hs.flight, copies]
    omega
  obtain ⟨as, d, hrun, hnodes, hh, ha, hd, hqueue, hdup⟩ :=
    sendAll_settles hs.handles hs.addressed hnet hflight
  refine ⟨as, d, hrun, ⟨hh, ha, ?_, fun p => ?_⟩, hdup⟩
  · rw [hnodes, Config.advance, hs.nodes]
  · rw [hd, copies, Net.queued, Net.queued, hqueue, Nat.add_assoc]

theorem step_op {s : Nodes ρ μ υ σ} {o : Op μ υ}
    (hno : ∀ src dst msg, o ≠ .send src dst msg) :
    s.step P members (.net (.op o)) = (s.net.op o).map fun x =>
      { s with net := x.1, taken := take s.taken (o.handed x.2) } := by
  cases o with
  | send src dst msg => exact absurd rfl (hno src dst msg)
  | _ => rfl

omit [Random ρ] in
theorem Matches.mem_of_taken {s : Nodes ρ μ υ σ} {c : Config Address μ σ}
    (hs : Matches s c) {x src : Address} {msg : μ}
    (h : (src, msg) ∈ s.taken x) :
    (⟨src, x, msg⟩ : Packet Address μ) ∈ c.flight := by
  have hpos := List.count_pos_iff.mpr h
  rw [← List.count_pos_iff, hs.flight, copies]
  exact Nat.add_pos_right _ hpos

omit [Random ρ] in
/-- A node turns to a message it has taken. -/
theorem Matches.untake {s : Nodes ρ μ υ σ} {c : Config Address μ σ}
    (hs : Matches s c) {x src : Address} {msg : μ}
    (h : (src, msg) ∈ s.taken x) :
    Matches
      { s with
        taken := Function.update s.taken x ((s.taken x).erase (src, msg)) }
      { c with flight := c.flight.erase ⟨src, x, msg⟩ } := by
  refine ⟨hs.handles, hs.addressed, hs.nodes, fun p => ?_⟩
  have hflight := hs.flight p
  have hpos := List.count_pos_iff.mpr h
  obtain ⟨psrc, pdst, pmsg⟩ := p
  simp only [copies] at hflight ⊢
  by_cases hd : pdst = x
  · subst hd
    rw [Function.update_self]
    by_cases hp : psrc = src ∧ pmsg = msg
    · obtain ⟨rfl, rfl⟩ := hp
      rw [List.count_erase_self, List.count_erase_self, hflight]
      exact Nat.add_sub_assoc hpos _
    · rw [List.count_erase_of_ne (by rintro ⟨⟩; exact hp ⟨rfl, rfl⟩),
        List.count_erase_of_ne (by rintro ⟨⟩; exact hp ⟨rfl, rfl⟩), hflight]
  · rw [Function.update_of_ne hd,
      List.count_erase_of_ne (by rintro ⟨⟩; exact hd rfl), hflight]

/-- A move of the network without the nodes. -/
theorem Matches.loop {s : Nodes ρ μ υ σ} {c : Config Address μ σ}
    (hs : Matches s c) {a : Seedloop.Act μ υ} (ha : ∀ o, a ≠ .op o)
    {net : Net ρ μ υ} (h : s.net.step a = some net) :
    ∃ as d, Machine.run (Config.step P members) c as = some d ∧
      Matches { s with net := net } d ∧
      net.doubles = s.net.doubles + as.countP Act.isDuplicate := by
  have hh : Net.Handles net := hs.handles.freeStep (a := .act a) h
  rcases Net.step_messages hs.handles h with
    ⟨_, _, _, _, _, rfl, -⟩ | ⟨hi, hk⟩ |
    ⟨hd, mid, src, dst, msg, hc, -, -, hends⟩
  · exact absurd rfl (ha _)
  · refine ⟨[], c, rfl, ⟨hh, hk.addressed hs.addressed, hs.nodes, fun p => ?_⟩,
      hi.doubles⟩
    rw [hs.flight, copies, copies, Net.queued, Net.queued, hi.carried,
      hi.queueAt hs.handles h ha]
  · obtain ⟨k, hk, hqueued⟩ := hends.queued
    have hcarried := hends.carried
    have hkeeps := hends.keeps.addressed hs.addressed
    have hmem : (⟨src, dst, msg⟩ : Packet Address μ) ∈ c.flight := by
      have := hcarried ⟨src, dst, msg⟩
      rw [if_pos rfl] at this
      rw [← List.count_pos_iff, hs.flight, copies]
      omega
    obtain ⟨as, d, hrun, hnodes, hflight, hdup⟩ :=
      Config.settle P members hmem (hk.trans one_le_two)
    refine ⟨as, d, hrun, ⟨hh, hkeeps, hnodes.trans hs.nodes, fun p => ?_⟩, ?_⟩
    · have hp := hflight p
      rw [hs.flight] at hp
      simp only [copies] at hp ⊢
      rw [hqueued]
      have := hcarried p
      split_ifs at * <;> omega
    · rw [hends.doubles, hdup, Nat.sub_eq_zero_of_le hk, Nat.add_zero]

/-- What one step does, the asynchronous network can do in some steps of its
own, and it doubles a packet for each one that was doubled. -/
theorem Matches.step {s t : Nodes ρ μ υ σ} {c : Config Address μ σ}
    (hs : Matches s c) {a : Nodes.Act μ υ} (h : s.step P members a = some t) :
    ∃ as d, Machine.run (Config.step P members) c as = some d ∧
      Matches t d ∧
      t.net.doubles = s.net.doubles + as.countP Act.isDuplicate := by
  cases a with
  | fire x =>
      simp only [Nodes.step] at h
      split at h
      · next hx =>
        rw [← congrFun hs.nodes x] at h
        obtain ⟨as, d, hrun, hmatch, hdup⟩ :=
          hs.advance P members h
        refine ⟨.fire x :: as, d, Machine.run_cons_eq_some.mpr
          ⟨_, if_pos hx, hrun⟩, hmatch, hdup⟩
      · cases h
  | handle x item =>
      simp only [Nodes.step] at h
      split at h
      · next hx =>
        obtain ⟨hitem, hx⟩ := hx
        obtain ⟨src, msg⟩ := item
        have hmem := hs.mem_of_taken hitem
        rw [← congrFun hs.nodes x] at h
        obtain ⟨as, d, hrun, hmatch, hdup⟩ :=
          (hs.untake hitem).advance P members h
        exact ⟨.handle ⟨src, x, msg⟩ :: as, d, Machine.run_cons_eq_some.mpr
          ⟨_, if_pos ⟨hmem, hx⟩, hrun⟩, hmatch, hdup⟩
      · cases h
  | net a =>
      cases a with
      | op o =>
          by_cases hno : ∀ src dst msg, o ≠ .send src dst msg
          · rw [step_op hno, Option.map_eq_some_iff] at h
            obtain ⟨⟨net, r⟩, hop, rfl⟩ := h
            have heff := (Net.op_cases hop).resolve_left
              fun ⟨_, _, _, _, _, heq, _⟩ => hno _ _ _ heq
            have hi := heff.2.idle
            refine ⟨[], c, rfl, ⟨heff.2.invariant
              (fun he hs => he.handles hs) hs.handles,
              heff.2.frame.keeps.addressed hs.addressed, hs.nodes,
              fun p => ?_⟩, hi.doubles⟩
            have hqueue := congrArg (List.count (p.src, p.msg))
              (Net.op_queue hop p.dst)
            rw [List.count_append] at hqueue
            show _ = net.carried p + net.queued p +
              (take s.taken (o.handed r) p.dst).count (p.src, p.msg)
            rw [hs.flight, copies, take_handed, List.count_append, hi.carried,
              Net.queued, Net.queued]
            omega
          · simp only [not_forall, not_not] at hno
            obtain ⟨src, dst, msg, rfl⟩ := hno
            cases h
      | beginStep stopStep | runReady | clearStop =>
          simp only [Nodes.step, Option.map_eq_some_iff] at h
          obtain ⟨net, hnet, rfl⟩ := h
          exact hs.loop (by rintro o ⟨⟩) hnet

theorem run_matches {r s : Nodes ρ μ υ σ} {c : Config Address μ σ}
    {as : List (Nodes.Act μ υ)} (hr : Matches r c)
    (h : Machine.run (Nodes.step P members) r as = some s) :
    ∃ cs d, Machine.run (Config.step P members) c cs = some d ∧
      Matches s d ∧
      s.net.doubles = r.net.doubles + cs.countP Act.isDuplicate := by
  refine Machine.run_invariant (I := fun s => ∃ cs d,
    Machine.run (Config.step P members) c cs = some d ∧ Matches s d ∧
      s.net.doubles = r.net.doubles + cs.countP Act.isDuplicate) ?_
    ⟨[], c, rfl, hr, rfl⟩ h
  rintro s a t ⟨cs, d, hrun, hs, hdup⟩ hstep
  obtain ⟨cs', d', hrun', ht, hdup'⟩ := hs.step hstep
  refine ⟨cs ++ cs', d', Machine.run_append_eq_some.mpr ⟨d, hrun, hrun'⟩, ht,
    ?_⟩
  rw [hdup', hdup, List.countP_append, Nat.add_assoc]

/-- Whatever the nodes do, and whatever is done to the network under them: a
run on the simulated network is one on an asynchronous network. It has the same
nodes; what is in flight there is what has copies here; and packets are doubled
there as often as messages are duplicated here. -/
theorem nodes_refine_async {g f : ρ} {state : Address → σ} {s : Nodes ρ μ υ σ}
    {as : List (Nodes.Act μ υ)}
    (h : Machine.run (Nodes.step P members) (Nodes.init g f state) as =
      some s) :
    ∃ cs c, Machine.run (Config.step P members) ⟨state, []⟩ cs = some c ∧
      c.nodes = s.state ∧ (∀ p, c.flight.count p = s.copies p) ∧
      cs.countP Act.isDuplicate = s.net.doubles := by
  obtain ⟨cs, c, hrun, hmatch, hdup⟩ := run_matches (init_matches g f state) h
  refine ⟨cs, c, hrun, hmatch.nodes, hmatch.flight, ?_⟩
  rw [hdup]
  exact (Nat.zero_add _).symm

/-- Two counters: each sends the other its count, and goes on from what it is
told. -/
def counting : Program Address ℕ ℕ where
  fires n := (n + 1, [(1, n + 1), (2, n + 1)])
  handles n _ msg := (n + msg, [])

/-- Node 1 tells both, and both messages are doubled. One copy of each is
handled, one is cut off, and one is left in the queue. -/
def tellBoth : List (Nodes.Act ℕ ℕ) :=
  [.net (.op (.bind 1 false (.int 0) (.int 1))),
    .net (.op (.bind 2 false (.int 0) (.int 0))), .fire 1,
    .net (.beginStep false), .net .runReady, .net (.op (.recv 1 0 false)),
    .handle 1 (1, 1), .net (.op (.partition [{1}, {2}])),
    .net (.beginStep false), .net .runReady, .net .runReady,
    .net (.op .heal), .net .runReady, .net (.op (.recv 2 1 false)),
    .handle 2 (1, 1)]

theorem nodes_refine_async_tellBoth : ∃ cs c,
    Machine.run (Config.step counting [1, 2]) ⟨fun _ => 0, []⟩ cs = some c ∧
    (c.nodes 1, c.nodes 2) = (2, 1) ∧
    c.flight.count ⟨1, 1, 1⟩ = 1 ∧ c.flight.count ⟨1, 2, 1⟩ = 0 ∧
    cs.countP Act.isDuplicate = 2 := by
  have hrun : (Machine.run (Nodes.step counting [1, 2])
      (Nodes.init Toggle.low Toggle.low fun _ => 0) tellBoth).isSome := by
    decide +kernel
  obtain ⟨s, hs⟩ := Option.isSome_iff_exists.mp hrun
  have hend : (s.state 1, s.state 2, s.copies ⟨1, 1, 1⟩, s.copies ⟨1, 2, 1⟩,
      s.net.doubles) = (2, 1, 1, 0, 2) := by
    have := congrArg (Option.map fun s : Nodes Toggle ℕ ℕ ℕ =>
      (s.state 1, s.state 2, s.copies ⟨1, 1, 1⟩, s.copies ⟨1, 2, 1⟩,
        s.net.doubles)) hs
    exact Option.some.inj (this.symm.trans (by decide +kernel))
  obtain ⟨cs, c, hc, hnodes, hflight, hdup⟩ := nodes_refine_async hs
  simp only [Prod.mk.injEq] at hend
  obtain ⟨h1, h2, hself, hother, hdoubles⟩ := hend
  refine ⟨cs, c, hc, ?_, (hflight _).trans hself, (hflight _).trans hother,
    hdup.trans hdoubles⟩
  rw [hnodes, h1, h2]

end Nodes

end Seedloop
