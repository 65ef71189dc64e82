import Mathlib.Data.List.AList
import Mathlib.Data.List.Sort
import Seedloop.Ref.Loop
import Seedloop.Ref.Random
import Seedloop.Ref.Recv

/-!
# The simulated network

`_net.py`, with the loop its deliveries are timers of and the timeline it
writes to: `Transport` holds references to all three, so its state is one
record of theirs. `run_for` is here too, since scheduling faults and sleeping
on one timer is all it does to them.

A timer's callback is data: which method of `Transport` it calls and with
which arguments, `asyncio.sleep`'s wake-up, or user code, which the network
knows by a name it never looks into. What user code *does* when it runs is a
sequence of the operations at the end of this file.
-/

namespace Seedloop

/-- The kinds of event a message leaves on the timeline. -/
inductive MsgEvent where
  | send
  | drop
  | duplicate
  | deliver
  | dropCrashed
  | dropPartitioned
  deriving DecidableEq

/-- A timeline entry, less its time stamp. -/
inductive Event (μ : Type) where
  | message (kind : MsgEvent) (mid : ℕ) (src dst : Address)
  | faultPartitionScheduled (faultId : ℕ) (groups : List (List Address))
      (start stop : ℚ)
  | faultSlowLinkScheduled (faultId : ℕ) (a b : Address) (factor : ℚ)
      (start stop : ℚ)
  | faultCrashScheduled (faultId : ℕ) (node : Address) (at_ : ℚ)
  | faultPartitionBegin (faultId : ℕ)
  | faultPartitionHeal (faultId : ℕ)
  | faultSlowLinkBegin (faultId : ℕ)
  | faultSlowLinkEnd (faultId : ℕ)
  | faultCrash (faultId : ℕ) (node : Address)
  | user (event : μ)
  deriving DecidableEq

/-- The callbacks a fault is made of. -/
inductive FaultCallback where
  | beginFaultPartition (faultId : ℕ) (groups : List (Finset Address))
  | endFaultPartition (faultId : ℕ)
  | beginSlowLink (faultId : ℕ) (pair : Finset Address) (factor : ℚ)
  | endSlowLink (faultId : ℕ)
  | beginCrash (faultId : ℕ) (node : Address)
  deriving DecidableEq

/-- What a handle runs. `wake` is `futures._set_result_unless_cancelled` on
the future of a `run_for`, and `resume` the wake-up of the task that awaits
it. -/
inductive Callback (μ υ : Type) where
  | user (k : υ)
  | deliver (mid : ℕ) (src dst : Address) (msg : μ)
  | fault (c : FaultCallback)
  | wake (fut : ℕ) (k : υ)
  | resume (fut : ℕ) (k : υ)
  deriving DecidableEq

/-- An endpoint's outgoing-link policy: two probabilities, if it is not
reliable. -/
structure Policy where
  reliable : Bool
  loss : ℚ
  duplicate : ℚ
  loss_mem : 0 ≤ loss ∧ loss ≤ 1
  duplicate_mem : 0 ≤ duplicate ∧ duplicate ≤ 1

/-- `_Endpoint`. -/
structure Endpoint (μ : Type) where
  address : Address
  policy : Policy
  inbox : Inbox μ

def latMin : ℚ := 1 / 1000

def latMax : ℚ := 20 / 1000

/-- `Transport`, the loop and the timeline. `owned` are the handles user code
was given, `sleeping` the pending futures of `run_for` calls with the task
each one wakes, and `abandoned` the calls whose task was cancelled. -/
structure Net (ρ μ υ : Type) where
  loop : Loop (Callback μ υ)
  netRng : ρ
  faultsRng : ρ
  timeline : List (ℚ × Event μ)
  endpoints : AList fun _ : Address => Endpoint μ
  nextMid : ℕ
  partition : Option (List (Finset Address))
  reliableClock : AList fun _ : Address × Address => ℚ
  faultPartitions : AList fun _ : ℕ => List (Finset Address)
  faultSlowLinks : AList fun _ : ℕ => Finset Address × ℚ
  crashed : Finset Address
  nextFaultId : ℕ
  owned : Finset ℕ
  sleeping : AList fun _ : ℕ => υ
  abandoned : Finset ℕ

/-- `0.0 <= x <= 1.0`. -/
def Num.probability? (x : Num) : Option { q : ℚ // 0 ≤ q ∧ q ≤ 1 } :=
  match x.value? with
  | some q => if h : 0 ≤ q ∧ q ≤ 1 then some ⟨q, h⟩ else none
  | none => none

/-- `Transport._cut`: `a` and `b` are listed, and the first group that lists
the one is not the first that lists the other. -/
def cut (groups : Option (List (Finset Address))) (src dst : Address) : Bool :=
  match groups with
  | none => false
  | some groups =>
      match groups.findIdx? (src ∈ ·), groups.findIdx? (dst ∈ ·) with
      | some gs, some gd => gs != gd
      | _, _ => false

namespace Net

variable {ρ μ υ : Type}

def init (netRng faultsRng : ρ) : Net ρ μ υ where
  loop := .init
  netRng := netRng
  faultsRng := faultsRng
  timeline := []
  endpoints := ∅
  nextMid := 0
  partition := none
  reliableClock := ∅
  faultPartitions := ∅
  faultSlowLinks := ∅
  crashed := ∅
  nextFaultId := 0
  owned := ∅
  sleeping := ∅
  abandoned := ∅

/-- `self._timeline.record((now, …))`. -/
def recordAt (s : Net ρ μ υ) (now : ℚ) (e : Event μ) : Net ρ μ υ :=
  { s with timeline := s.timeline ++ [(now, e)] }

/-- `self._timeline.record((self._loop.time(), …))`. -/
def record (s : Net ρ μ υ) (e : Event μ) : Net ρ μ υ :=
  s.recordAt s.loop.time e

/-- `self._loop.call_at(when, …)`. -/
def callAt (s : Net ρ μ υ) (when : ℚ) (c : Callback μ υ) : Net ρ μ υ :=
  { s with loop := s.loop.callAt (.fin when) c }

/-- `self._loop.call_later(delay, …)`. -/
def callLater (s : Net ρ μ υ) (delay : ℚ) (c : Callback μ υ) : Net ρ μ υ :=
  s.callAt (s.loop.time + delay) c

/-- `Transport.bind`. -/
def bind (s : Net ρ μ υ) (address : Address) (reliable : Bool)
    (loss duplicate : Num) : Except ApiError (Net ρ μ υ) :=
  if address ∈ s.endpoints then .error (.alreadyBound address)
  else
    match loss.probability?, duplicate.probability? with
    | none, _ => .error (.lossRange loss)
    | _, none => .error (.duplicateRange duplicate)
    | some l, some d =>
        .ok { s with
          endpoints := s.endpoints.insert address
            ⟨address, ⟨reliable, l.1, d.1, l.2, d.2⟩, .init⟩ }

/-- `Transport._bound_addresses`. -/
def boundAddresses (s : Net ρ μ υ) : List Address :=
  s.endpoints.keys.insertionSort (· ≤ ·)

/-- What waits in the queue of an address; nothing does at an unbound one. -/
def queueAt (s : Net ρ μ υ) (address : Address) : List (Address × μ) :=
  match s.endpoints.lookup address with
  | none => []
  | some endpoint => endpoint.inbox.queue

/-- `Transport._reachable`. -/
def reachable (s : Net ρ μ υ) (src dst : Address) : Bool :=
  !cut s.partition src dst &&
    s.faultPartitions.entries.all fun e => !cut (some e.2) src dst

/-- `Transport._slow_factor`. -/
def slowFactor (s : Net ρ μ υ) (src dst : Address) : ℚ :=
  s.faultSlowLinks.entries.foldl
    (fun factor e => if e.2.1 = {src, dst} then factor * e.2.2 else factor) 1

/-- `Transport._schedule_reliable`. -/
def scheduleReliable (s : Net ρ μ υ) (mid : ℕ) (src dst : Address) (msg : μ)
    (latency : ℚ) : Net ρ μ υ :=
  let when := max (s.loop.time + latency)
    ((s.reliableClock.lookup (src, dst)).getD 0)
  callAt { s with reliableClock := s.reliableClock.insert (src, dst) when }
    when (.deliver mid src dst msg)

section Draws

variable [Random ρ]

/-- `p > 0.0 and self._faults.random() < p`. -/
def faultDraw (s : Net ρ μ υ) (p : ℚ) : Bool × Net ρ μ υ :=
  if 0 < p then
    match Random.random s.faultsRng with
    | (x, g) => (x < p, { s with faultsRng := g })
  else (false, s)

/-- `self._faults.uniform(a, b)`. -/
def faultUniform (s : Net ρ μ υ) (a b : ℚ) : ℚ × Net ρ μ υ :=
  match Random.uniform a b s.faultsRng with
  | (x, g) => (x, { s with faultsRng := g })

/-- `self._net.uniform(_LAT_MIN, _LAT_MAX)`. -/
def netLatency (s : Net ρ μ υ) : ℚ × Net ρ μ υ :=
  match Random.uniform latMin latMax s.netRng with
  | (x, g) => (x, { s with netRng := g })

/-- The part of `Transport._send` after the reliable branch. -/
def sendUnreliable (s : Net ρ μ υ) (policy : Policy) (mid : ℕ)
    (src dst : Address) (msg : μ) (latency : ℚ) : Net ρ μ υ :=
  match s.faultDraw policy.loss with
  | (true, s) => s.record (.message .drop mid src dst)
  | (false, s) =>
      match (s.callLater latency (.deliver mid src dst msg)).faultDraw
        policy.duplicate with
      | (false, s) => s
      | (true, s) =>
          match (s.record (.message .duplicate mid src dst)).faultUniform
            latMin latMax with
          | (base, s) =>
              s.callLater (base * s.slowFactor src dst)
                (.deliver mid src dst msg)

/-- `Transport._send`. -/
def send (s : Net ρ μ υ) (endpoint : Endpoint μ) (dst : Address) (msg : μ) :
    Net ρ μ υ :=
  let src := endpoint.address
  let mid := s.nextMid
  let s := record { s with nextMid := s.nextMid + 1 }
    (.message .send mid src dst)
  match s.netLatency with
  | (base, s) =>
      let latency := base * s.slowFactor src dst
      if endpoint.policy.reliable then
        s.scheduleReliable mid src dst msg latency
      else s.sendUnreliable endpoint.policy mid src dst msg latency

end Draws

/-- `Transport._deliver`. -/
def deliver (s : Net ρ μ υ) (mid : ℕ) (src dst : Address) (msg : μ) :
    Net ρ μ υ :=
  if src ∈ s.crashed ∨ dst ∈ s.crashed then
    s.record (.message .dropCrashed mid src dst)
  else if !s.reachable src dst then
    s.record (.message .dropPartitioned mid src dst)
  else
    let s := s.record (.message .deliver mid src dst)
    match s.endpoints.lookup dst with
    | none => s
    | some endpoint =>
        { s with
          endpoints := s.endpoints.insert dst
            { endpoint with inbox := endpoint.inbox.enqueue (src, msg) } }

/-- `_begin_fault_partition`, `_end_fault_partition`, `_begin_slow_link`,
`_end_slow_link`, `_begin_crash`. -/
def runFault (s : Net ρ μ υ) : FaultCallback → Net ρ μ υ
  | .beginFaultPartition faultId groups =>
      record { s with
        faultPartitions := s.faultPartitions.insert faultId groups }
        (.faultPartitionBegin faultId)
  | .endFaultPartition faultId =>
      record { s with faultPartitions := s.faultPartitions.erase faultId }
        (.faultPartitionHeal faultId)
  | .beginSlowLink faultId pair factor =>
      record { s with
        faultSlowLinks := s.faultSlowLinks.insert faultId (pair, factor) }
        (.faultSlowLinkBegin faultId)
  | .endSlowLink faultId =>
      record { s with faultSlowLinks := s.faultSlowLinks.erase faultId }
        (.faultSlowLinkEnd faultId)
  | .beginCrash faultId node =>
      record { s with crashed := insert node s.crashed }
        (.faultCrash faultId node)

/-- `future.set_result(None)` on the future of a `run_for`, or its
`cancel()`: the task that awaits it is made ready, once. -/
def finishSleep (s : Net ρ μ υ) (fut : ℕ) : Net ρ μ υ :=
  match s.sleeping.lookup fut with
  | none => s
  | some k =>
      { s with
        sleeping := s.sleeping.erase fut
        loop := s.loop.callSoon (.resume fut k) }

/-- `handle._run()`. A task woken from a `run_for` leaves `asyncio.sleep`,
which cancels its timer on the way out; what it does next, and what user code
does, are operations of their own. -/
def runCallback (s : Net ρ μ υ) : Callback μ υ → Net ρ μ υ
  | .user _ => s
  | .deliver mid src dst msg => s.deliver mid src dst msg
  | .fault c => s.runFault c
  | .wake fut _ => s.finishSleep fut
  | .resume fut _ => { s with loop := s.loop.cancel fut }

end Net

end Seedloop
