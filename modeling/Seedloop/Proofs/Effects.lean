import Seedloop.Proofs.LoopMoves

/-!
# What an operation can do to the network

User code has fifteen operations, some of them long. One of them sends, and
`Sends` is the send with its draws known. Any other is a sequence of `Effect`s,
every one of which is a single assignment, a single fault put on the heap, or
a sleep. Both say all that is known at the point where they happen: a drawn
latency is in range, a scheduled window does not end before it begins, a
factor is above one. An invariant of the two is then an invariant of every
operation, and no proof after this file unfolds `_send` or `run_for` again.
-/

namespace Seedloop

namespace Net

variable {ρ μ υ : Type}

/-- How a `_send` went. -/
inductive Sent where
  | reliable (base : ℚ)
  | dropped
  | once (base : ℚ)
  | twice (base extra : ℚ)

/-- A latency the network can draw. -/
def Latency (base : ℚ) : Prop := latMin ≤ base ∧ base ≤ latMax

/-- The ways a `_send` can go under a policy. -/
def Sent.Allowed (reliable : Bool) : Sent → Prop
  | .reliable base => reliable = true ∧ Latency base
  | .dropped => reliable = false
  | .once base => reliable = false ∧ Latency base
  | .twice base extra => reliable = false ∧ Latency base ∧ Latency extra

/-- The head of `_send`: a message id is taken and the event recorded. -/
def beginSend (s : Net ρ μ υ) (src dst : Address) : Net ρ μ υ :=
  record { s with nextMid := s.nextMid + 1 } (.message .send s.nextMid src dst)

/-- `_send`, its draws known. -/
def sendAs (s : Net ρ μ υ) (src dst : Address) (msg : μ) : Sent → Net ρ μ υ
  | .reliable base =>
      (s.beginSend src dst).scheduleReliable s.nextMid src dst msg
        (base * s.slowFactor src dst)
  | .dropped =>
      (s.beginSend src dst).record (.message .drop s.nextMid src dst)
  | .once base =>
      (s.beginSend src dst).callLater (base * s.slowFactor src dst)
        (.deliver s.nextMid src dst msg)
  | .twice base extra =>
      (((s.beginSend src dst).callLater (base * s.slowFactor src dst)
        (.deliver s.nextMid src dst msg)).record
        (.message .duplicate s.nextMid src dst)).callLater
        (extra * s.slowFactor src dst) (.deliver s.nextMid src dst msg)

end Net

/-- What validation and the draws make sure of. -/
def Resolved.Ok (seconds : ℚ) : Resolved → Prop
  | .partition _ start stop => 0 ≤ start ∧ start ≤ stop ∧ stop ≤ seconds
  | .slowLink _ _ factor start stop =>
      1 < factor ∧ 0 ≤ start ∧ start ≤ stop ∧ stop ≤ seconds
  | .crash _ at_ => 0 ≤ at_ ∧ at_ ≤ seconds

namespace Net

variable {ρ μ υ : Type}

/-- A message was sent: the draws were made, and the send went as they had
it. -/
structure Sends (s t : Net ρ μ υ) (src dst : Address) (msg : μ)
    (endpoint : Endpoint μ) (how : Sent) : Prop where
  bound : s.endpoints.lookup src = some endpoint
  allowed : how.Allowed endpoint.policy.reliable
  eq : ∃ g f, t = sendAs { s with netRng := g, faultsRng := f }
    endpoint.address dst msg how

/-- One effect of an operation other than a send. -/
inductive Effect : Net ρ μ υ → Net ρ μ υ → Prop where
  | draws (s : Net ρ μ υ) (netRng faultsRng : ρ) :
      Effect s { s with netRng := netRng, faultsRng := faultsRng }
  | setPartition (s : Net ρ μ υ) (groups : Option (List (Finset Address))) :
      Effect s { s with partition := groups }
  | bind (s : Net ρ μ υ) (address : Address) (policy : Policy)
      (h : address ∉ s.endpoints) :
      Effect s { s with
        endpoints := s.endpoints.insert address ⟨address, policy, .init⟩ }
  | inbox (s : Net ρ μ υ) (address : Address) (endpoint : Endpoint μ)
      (inbox : Inbox μ) (a : Inbox.Act μ)
      (h : s.endpoints.lookup address = some endpoint)
      (hin : endpoint.inbox.delivered a = [])
      (ha : endpoint.inbox.step a = some inbox) :
      Effect s { s with
        endpoints := s.endpoints.insert address
          { endpoint with inbox := inbox } }
  | userSoon (s : Net ρ μ υ) (k : υ) :
      Effect s { s with
        loop := s.loop.callSoon (.user k)
        owned := insert s.loop.nextHandle s.owned }
  | userTimer (s : Net ρ μ υ) (when : When) (k : υ) :
      Effect s { s with
        loop := s.loop.callAt when (.user k)
        owned := insert s.loop.nextHandle s.owned }
  | cancel (s : Net ρ μ υ) (handle : ℕ) (h : handle ∈ s.owned) :
      Effect s { s with loop := s.loop.cancel handle }
  | stop (s : Net ρ μ υ) : Effect s { s with loop := s.loop.stop }
  | record (s : Net ρ μ υ) (event : μ) : Effect s (s.record (.user event))
  | schedule (s : Net ρ μ υ) (seconds : ℚ) (r : Resolved)
      (hok : r.Ok seconds) : Effect s (s.schedule s.loop.time r)
  | sleep (s : Net ρ μ υ) (seconds : ℚ) (k : υ) : Effect s (s.sleep seconds k)
  | cancelRunFor (s : Net ρ μ υ) (fut : ℕ) : Effect s
      ({ s with abandoned := insert fut s.abandoned }.finishSleep fut)

/-- Effects one after the other. -/
abbrev Effects : Net ρ μ υ → Net ρ μ υ → Prop := Relation.ReflTransGen Effect

theorem Effects.invariant {I : Net ρ μ υ → Prop}
    (hstep : ∀ {s t}, Effect s t → I s → I t) {s t : Net ρ μ υ}
    (h : Effects s t) (hs : I s) : I t := by
  induction h with
  | refl => exact hs
  | tail _ hlast ih => exact hstep hlast ih

section Draws

variable [Random ρ]

/-! ## Drawing -/

theorem faultUniform_eq {s t : Net ρ μ υ} {a b x : ℚ}
    (h : s.faultUniform a b = (x, t)) (hab : a ≤ b) :
    a ≤ x ∧ x ≤ b ∧ ∃ g, t = { s with faultsRng := g } := by
  simp only [faultUniform, Prod.mk.injEq] at h
  obtain ⟨rfl, rfl⟩ := h
  exact ⟨Random.le_uniform hab _, Random.uniform_le hab _, _, rfl⟩

/-- `p > 0.0 and stream.random() < p`, and the stream after it. -/
def chance (p : ℚ) (g : ρ) : Bool × ρ :=
  if 0 < p then
    match Random.random g with
    | (x, g) => (x < p, g)
  else (false, g)

/-- What the `"faults"` stream has for a message of an unreliable endpoint; a
second copy comes with its latency. -/
inductive Luck where
  | dropped
  | once
  | twice (base : ℚ)
  deriving DecidableEq

/-- The draws of `_send` after its reliable branch, in order. -/
def luck (policy : Policy) (g : ρ) : Luck × ρ :=
  match chance policy.loss g with
  | (true, g) => (.dropped, g)
  | (false, g) =>
      match chance policy.duplicate g with
      | (false, g) => (.once, g)
      | (true, g) =>
          match Random.uniform latMin latMax g with
          | (base, g) => (.twice base, g)

/-- The send it makes. -/
def Luck.sent (base : ℚ) : Luck → Sent
  | .dropped => .dropped
  | .once => .once base
  | .twice extra => .twice base extra

theorem faultDraw_eq (s : Net ρ μ υ) (p : ℚ) : s.faultDraw p =
    ((chance p s.faultsRng).1,
      { s with faultsRng := (chance p s.faultsRng).2 }) := by
  unfold faultDraw chance
  split <;> rfl

theorem latency_uniform (g : ρ) : Latency (Random.uniform latMin latMax g).1 := by
  have hle : latMin ≤ latMax := by norm_num [latMin, latMax]
  exact ⟨Random.le_uniform hle _, Random.uniform_le hle _⟩

theorem luck_twice {policy : Policy} {g : ρ} {extra : ℚ}
    (h : (luck policy g).1 = .twice extra) : Latency extra := by
  unfold luck at h
  split at h
  · cases h
  · split at h
    · cases h
    · cases h
      exact latency_uniform _

/-- A `_send` is its draws, then the send they decided. -/
theorem send_eq (s : Net ρ μ υ) (endpoint : Endpoint μ) (dst : Address)
    (msg : μ) : s.send endpoint dst msg =
      if endpoint.policy.reliable then
        sendAs { s with netRng := (Random.uniform latMin latMax s.netRng).2 }
          endpoint.address dst msg
          (.reliable (Random.uniform latMin latMax s.netRng).1)
      else
        sendAs { s with
          netRng := (Random.uniform latMin latMax s.netRng).2
          faultsRng := (luck endpoint.policy s.faultsRng).2 }
          endpoint.address dst msg ((luck endpoint.policy s.faultsRng).1.sent
            (Random.uniform latMin latMax s.netRng).1) := by
  unfold send
  dsimp only [netLatency]
  split
  · rfl
  · simp only [sendUnreliable, faultDraw_eq, luck]
    rcases hloss : chance endpoint.policy.loss s.faultsRng with ⟨_ | _, g⟩
    · rcases hdup : chance endpoint.policy.duplicate g with ⟨_ | _, g'⟩
      · simp only [record, recordAt, callLater, callAt, hloss, hdup]
        rfl
      · simp only [record, recordAt, callLater, callAt, hloss, hdup]
        rfl
    · simp only [record, recordAt, hloss]
      rfl

/-- The ways a `_send` can go. -/
theorem send_sends {s : Net ρ μ υ} {src : Address} {endpoint : Endpoint μ}
    (hsrc : s.endpoints.lookup src = some endpoint) (dst : Address) (msg : μ) :
    ∃ how, Sends s (s.send endpoint dst msg) src dst msg endpoint how := by
  have hbase := latency_uniform (ρ := ρ) s.netRng
  rw [send_eq]
  split
  · next hrel =>
    exact ⟨.reliable _, hsrc, ⟨hrel, hbase⟩, _, s.faultsRng, rfl⟩
  · next hrel =>
    have hrel : endpoint.policy.reliable = false := by simpa using hrel
    refine ⟨_, hsrc, ?_, _, _, rfl⟩
    cases hl : (luck endpoint.policy s.faultsRng).1 with
    | dropped => exact hrel
    | once => exact ⟨hrel, hbase⟩
    | twice extra => exact ⟨hrel, hbase, luck_twice hl⟩

end Draws

end Net

end Seedloop
