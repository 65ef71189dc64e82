import Mathlib.Algebra.BigOperators.Group.List.Basic
import Seedloop.Ref.Net

/-!
# The network, as its timeline shows it

What a network with latencies and faults may do, said without its code: no
loop, no stream of draws, no endpoint. `Wire` is what an observer knows who
reads the timeline from the start, and `Wire.step` is the next entry, if it is
one such a network may write.

* A message takes the next id. Of an unreliable sender it may be dropped or
  duplicated, by the very next entry and at the same time; of a reliable one,
  neither.
* A copy arrives in the window its latency allows, longer by the product of
  the slow links that were open when it was sent. On a reliable link it may be
  held up further, by what was sent before it, and copies end in the order
  they were sent in.
* A copy that arrives is delivered only if both of its ends are up and no
  fault has cut them apart; it is dropped for a crash only if one end is down,
  and for a partition only between two nodes that are up.
* A fault is announced with its whole agenda, none of it in the past. Every
  item of the agenda comes in order, at its time.
* Nothing is recorded late: no entry is written while a copy or an item of an
  agenda is overdue.

What user code cuts by hand leaves no entry, so a drop for a partition asks
for no open fault.
-/

namespace Seedloop

/-- A message that was sent: its ends, when its copies may arrive, and how
many of them have yet to. -/
structure Letter where
  src : Address
  dst : Address
  earliest : ℚ
  latest : ℚ
  copies : ℕ
  deriving DecidableEq

/-- What the timeline has told so far. A letter stands at its own id, and so
does an agenda: the items that have yet to come. `fresh` says that the last
entry was a send. -/
structure Wire where
  now : ℚ
  fresh : Bool
  letters : List Letter
  agendas : List (List (ℚ × FaultCallback))
  faultPartitions : AList fun _ : ℕ => List (Finset Address)
  faultSlowLinks : AList fun _ : ℕ => Finset Address × ℚ
  crashed : Finset Address

/-- The event says that the callback ran. -/
def FaultCallback.shows {μ : Type} : FaultCallback → Event μ → Bool
  | .beginFaultPartition i _, .faultPartitionBegin j => i = j
  | .endFaultPartition i, .faultPartitionHeal j => i = j
  | .beginSlowLink i _ _, .faultSlowLinkBegin j => i = j
  | .endSlowLink i, .faultSlowLinkEnd j => i = j
  | .beginCrash i node, .faultCrash j node' => i = j ∧ node = node'
  | _, _ => false

namespace Wire

def init : Wire where
  now := 0
  fresh := false
  letters := []
  agendas := []
  faultPartitions := ∅
  faultSlowLinks := ∅
  crashed := ∅

/-- How much slower the link is than it would be. -/
def factor (σ : Wire) (src dst : Address) : ℚ :=
  ((σ.faultSlowLinks.entries.filter fun e => e.2.1 = {src, dst}).map
    fun e => e.2.2).prod

/-- By when everything sent on the link so far has arrived. -/
def latestOn (σ : Wire) (src dst : Address) : ℚ :=
  ((σ.letters.filter fun l => l.src = src ∧ l.dst = dst).map
    Letter.latest).foldl max 0

/-- By when a message sent at `t` has arrived. -/
def deadline (reliable : Address → Bool) (σ : Wire) (t : ℚ)
    (src dst : Address) : ℚ :=
  if reliable src then
    max (t + latMax * σ.factor src dst) (σ.latestOn src dst)
  else t + latMax * σ.factor src dst

/-- No open fault cuts the two apart. -/
def Uncut (σ : Wire) (src dst : Address) : Prop :=
  ∀ e ∈ σ.faultPartitions.entries, cut (some e.2) src dst = false

instance (σ : Wire) (src dst : Address) : Decidable (σ.Uncut src dst) :=
  inferInstanceAs (Decidable (∀ _ ∈ _, _))

/-- At `t` nothing is overdue. -/
def InTime (σ : Wire) (t : ℚ) : Prop :=
  (∀ l ∈ σ.letters, 0 < l.copies → t ≤ l.latest) ∧
    ∀ agenda ∈ σ.agendas, ∀ x ∈ agenda, t ≤ x.1

instance (σ : Wire) (t : ℚ) : Decidable (σ.InTime t) :=
  inferInstanceAs (Decidable (_ ∧ _))

/-- A message is sent. -/
def post (reliable : Address → Bool) (σ : Wire) (t : ℚ) (mid : ℕ)
    (src dst : Address) : Option Wire :=
  if mid = σ.letters.length then
    some { σ with
      fresh := true
      letters := σ.letters ++ [⟨src, dst, t + latMin * σ.factor src dst,
        σ.deadline reliable t src dst, 1⟩] }
  else none

/-- The message that was just sent has some other number of copies. -/
def amend (reliable : Address → Bool) (σ : Wire) (t : ℚ) (mid : ℕ)
    (src dst : Address) (copies : ℕ) : Option Wire :=
  match σ.letters[mid]? with
  | none => none
  | some l =>
      if σ.fresh = true ∧ t = σ.now ∧ mid + 1 = σ.letters.length ∧
          l.src = src ∧ l.dst = dst ∧ reliable src = false then
        some { σ with
          fresh := false
          letters := σ.letters.set mid { l with copies := copies } }
      else none

/-- A copy arrives, whatever becomes of it. -/
def arrive (reliable : Address → Bool) (σ : Wire) (t : ℚ) (mid : ℕ)
    (src dst : Address) : Option Wire :=
  match σ.letters[mid]? with
  | none => none
  | some l =>
      if l.src = src ∧ l.dst = dst ∧ 0 < l.copies ∧ l.earliest ≤ t ∧
          (reliable src = true → ∀ l' ∈ σ.letters.take mid,
            l'.src = src → l'.dst = dst → l'.copies = 0) then
        some { σ with
          fresh := false
          letters := σ.letters.set mid { l with copies := l.copies - 1 } }
      else none

/-- A fault is announced, with all that is to come of it. -/
def plan (σ : Wire) (t : ℚ) (i : ℕ) (agenda : List (ℚ × FaultCallback)) :
    Option Wire :=
  if i = σ.agendas.length ∧ (t :: agenda.map Prod.fst).Pairwise (· ≤ ·) then
    some { σ with fresh := false, agendas := σ.agendas ++ [agenda] }
  else none

/-- What a callback of a fault changes. -/
def apply (σ : Wire) : FaultCallback → Wire
  | .beginFaultPartition i groups =>
      { σ with faultPartitions := σ.faultPartitions.insert i groups }
  | .endFaultPartition i =>
      { σ with faultPartitions := σ.faultPartitions.erase i }
  | .beginSlowLink i pair factor =>
      { σ with faultSlowLinks := σ.faultSlowLinks.insert i (pair, factor) }
  | .endSlowLink i =>
      { σ with faultSlowLinks := σ.faultSlowLinks.erase i }
  | .beginCrash _ node => { σ with crashed := insert node σ.crashed }

/-- The next item of an agenda comes, as this event. -/
def fire {μ : Type} (σ : Wire) (t : ℚ) (i : ℕ) (e : Event μ) : Option Wire :=
  match σ.agendas[i]? with
  | some ((w, c) :: rest) =>
      if t = w ∧ c.shows e = true then
        some ({ σ with
          fresh := false, agendas := σ.agendas.set i rest }.apply c)
      else none
  | _ => none

/-- What the next entry tells, its time apart. -/
def read {μ : Type} (reliable : Address → Bool) (σ : Wire) (t : ℚ) :
    Event μ → Option Wire
  | .message .send mid src dst => σ.post reliable t mid src dst
  | .message .drop mid src dst => σ.amend reliable t mid src dst 0
  | .message .duplicate mid src dst => σ.amend reliable t mid src dst 2
  | .message .deliver mid src dst =>
      if src ∉ σ.crashed ∧ dst ∉ σ.crashed ∧ σ.Uncut src dst then
        σ.arrive reliable t mid src dst
      else none
  | .message .dropCrashed mid src dst =>
      if src ∈ σ.crashed ∨ dst ∈ σ.crashed then
        σ.arrive reliable t mid src dst
      else none
  | .message .dropPartitioned mid src dst =>
      if src ≠ dst ∧ src ∉ σ.crashed ∧ dst ∉ σ.crashed then
        σ.arrive reliable t mid src dst
      else none
  | .faultPartitionScheduled i groups start stop =>
      σ.plan t i [(start, .beginFaultPartition i (groups.map List.toFinset)),
        (stop, .endFaultPartition i)]
  | .faultSlowLinkScheduled i a b factor start stop =>
      if 1 < factor then
        σ.plan t i [(start, .beginSlowLink i {a, b} factor),
          (stop, .endSlowLink i)]
      else none
  | .faultCrashScheduled i node at_ => σ.plan t i [(at_, .beginCrash i node)]
  | .faultPartitionBegin i => σ.fire t i (.faultPartitionBegin i : Event μ)
  | .faultPartitionHeal i => σ.fire t i (.faultPartitionHeal i : Event μ)
  | .faultSlowLinkBegin i => σ.fire t i (.faultSlowLinkBegin i : Event μ)
  | .faultSlowLinkEnd i => σ.fire t i (.faultSlowLinkEnd i : Event μ)
  | .faultCrash i node => σ.fire t i (.faultCrash i node : Event μ)
  | .user _ => some { σ with fresh := false }

/-- The next entry of the timeline; `none` if it is one that cannot be.
`reliable` says of every sender whether it is a reliable one. -/
def step {μ : Type} (reliable : Address → Bool) (σ : Wire)
    (x : ℚ × Event μ) : Option Wire :=
  if σ.now ≤ x.1 ∧ σ.InTime x.1 then
    (σ.read reliable x.1 x.2).map fun σ' => { σ' with now := x.1 }
  else none

end Wire

end Seedloop
