import Seedloop.Proofs.Commit
import Seedloop.Proofs.QuietTraffic

/-!
# Fault resolution ignores the order of binding

Every resolver goes over `sorted` of the bound addresses, so what a `run_for`
resolves is a function of the set that is bound and of the stream. Two networks
that agree on these two resolve one handle alike and agree on them again, and
with that a whole list. What else they differ in, the order their endpoints
were bound in above all, is never read.

A stream that counts its draws is a stream, so that the calls leave the same
stream behind says that they made equally many draws.
-/

namespace Seedloop

/-- A stream, and how often it was drawn from. -/
structure Counted (ρ : Type) where
  stream : ρ
  draws : ℕ

instance {ρ : Type} [Random ρ] : Random (Counted ρ) where
  random g := ((Random.random g.stream).1,
    ⟨(Random.random g.stream).2, g.draws + 1⟩)
  randbelow n g := ((Random.randbelow n g.stream).1,
    ⟨(Random.randbelow n g.stream).2, g.draws + 1⟩)
  random_nonneg g := Random.random_nonneg g.stream
  random_lt_one g := Random.random_lt_one g.stream
  randbelow_lt n g := Random.randbelow_lt n g.stream

/-- A call of `bind`. -/
structure Binding where
  address : Address
  reliable : Bool
  loss : Num
  duplicate : Num

namespace Net

variable {ρ μ υ : Type}

/-- Calls of `bind`, one after the other. -/
def bindAll (s : Net ρ μ υ) : List Binding → Except ApiError (Net ρ μ υ)
  | [] => .ok s
  | b :: bs =>
      match s.bind b.address b.reliable b.loss b.duplicate with
      | .error e => .error e
      | .ok s => s.bindAll bs

theorem bind_eq_ok {s t : Net ρ μ υ} {address : Address} {reliable : Bool}
    {loss duplicate : Num}
    (h : s.bind address reliable loss duplicate = .ok t) :
    ∃ endpoint, t = { s with
      endpoints := s.endpoints.insert address endpoint } := by
  unfold Net.bind at h
  split at h
  · cases h
  · split at h
    · cases h
    · cases h
    · cases h
      exact ⟨_, rfl⟩

/-- Binding binds, and touches nothing else. -/
theorem bindAll_eq_ok {s t : Net ρ μ υ} {bs : List Binding}
    (h : s.bindAll bs = .ok t) : t.faultsRng = s.faultsRng ∧
      ∀ a, a ∈ t.endpoints ↔ a ∈ s.endpoints ∨ a ∈ bs.map Binding.address := by
  induction bs generalizing s with
  | nil =>
      cases h
      simp
  | cons b bs ih =>
      unfold bindAll at h
      split at h
      · cases h
      · next u hb =>
        obtain ⟨endpoint, rfl⟩ := bind_eq_ok hb
        obtain ⟨hrng, hmem⟩ := ih h
        refine ⟨hrng, fun a => ?_⟩
        rw [hmem, AList.mem_insert, List.map_cons, List.mem_cons, or_assoc,
          or_left_comm]

theorem Alike.of_bindAll {s t t' : Net ρ μ υ} {bs bs' : List Binding}
    (hp : (bs.map Binding.address).Perm (bs'.map Binding.address))
    (h : s.bindAll bs = .ok t) (h' : s.bindAll bs' = .ok t') :
    Alike t t' := by
  obtain ⟨hrng, hmem⟩ := bindAll_eq_ok h
  obtain ⟨hrng', hmem'⟩ := bindAll_eq_ok h'
  refine ⟨hrng.trans hrng'.symm, boundAddresses_congr fun a => ?_⟩
  rw [hmem, hmem', hp.mem_iff]

theorem Alike.symm {s s' : Net ρ μ υ} (h : Alike s s') : Alike s' s :=
  ⟨h.faultsRng.symm, h.bound.symm⟩

/-! ## One handle -/

variable [Random ρ]

theorem Alike.resolvePartition_some {s s' t : Net ρ μ υ} (h : Alike s s')
    {fuel : ℕ} {groups : List (Finset Address)} {seconds : ℚ} {r : Resolved}
    (hs : s.resolvePartition fuel groups seconds = some (t, r)) :
    ∃ t', s'.resolvePartition fuel groups seconds = some (t', r) ∧
      Alike t t' := by
  have hsome : (s'.resolvePartition fuel groups seconds).isSome =
      (s.resolvePartition fuel groups seconds).isSome := by
    unfold Net.resolvePartition
    simp only [Option.isSome_map, h.faultsRng, h.bound]
    split <;> simp
  rw [hs] at hsome
  obtain ⟨⟨t', r'⟩, hs'⟩ := Option.isSome_iff_exists.mp hsome
  obtain ⟨rfl, halike⟩ := h.resolvePartition hs hs'
  exact ⟨t', hs', halike⟩

/-- A handle is resolved alike. -/
theorem Alike.resolveHandle {s s' t : Net ρ μ υ} (h : Alike s s') {fuel : ℕ}
    {seconds : ℚ} {f : FaultHandle}
    {x : Except HandleError (Option Resolved)}
    (hs : s.resolveHandle fuel seconds f = some (t, x)) :
    ∃ t', s'.resolveHandle fuel seconds f = some (t', x) ∧ Alike t t' := by
  cases f with
  | partition groups =>
      simp only [Net.resolveHandle, Option.map_eq_some_iff] at hs ⊢
      obtain ⟨⟨u, y⟩, hsplit, hx⟩ := hs
      cases hx
      suffices hmain : ∃ t', s'.resolveSplit fuel groups seconds =
          some (t', y) ∧ Alike u t' by
        obtain ⟨t', ht', halike⟩ := hmain
        exact ⟨t', ⟨(t', y), ht', rfl⟩, halike⟩
      unfold resolveSplit at hsplit ⊢
      rcases htrue : groups.truthy with e | _ | _
      · rw [htrue] at hsplit
        cases hsplit
        exact ⟨s', rfl, h⟩
      · rw [htrue] at hsplit
        simp only [Option.map_eq_some_iff] at hsplit ⊢
        obtain ⟨⟨v, r⟩, hr, hy⟩ := hsplit
        cases hy
        obtain ⟨t', ht', halike⟩ := h.resolvePartition_some hr
        exact ⟨t', ⟨(t', r), ht', rfl⟩, halike⟩
      · rw [htrue] at hsplit
        dsimp only at hsplit ⊢
        cases hgs : FaultHandle.groupSets (FaultHandle.spentGroups groups) with
        | error e =>
            rw [hgs] at hsplit
            cases hsplit
            exact ⟨s', rfl, h⟩
        | ok gs =>
            rw [hgs] at hsplit
            obtain ⟨hwin, halike⟩ := h.drawWindow seconds
            rcases hd : s.drawWindow seconds with ⟨⟨start, stop⟩, v⟩
            rcases hd' : s'.drawWindow seconds with ⟨w', v'⟩
            rw [hd, hd'] at hwin halike
            obtain rfl : (start, stop) = w' := hwin
            simp only [hd, Option.some.injEq, Prod.mk.injEq] at hsplit
            obtain ⟨rfl, rfl⟩ := hsplit
            exact ⟨v', rfl, halike⟩
  | slowLink a b factor =>
      obtain ⟨ho, halike⟩ :=
        h.resolveSlowLink a.address? b.address? factor.num? seconds
      simp only [Net.resolveHandle] at hs ⊢
      rcases hr : s.resolveSlowLink a.address? b.address? factor.num? seconds
        with ⟨u, o⟩
      rcases hr' : s'.resolveSlowLink a.address? b.address? factor.num? seconds
        with ⟨u', o'⟩
      rw [hr, hr'] at ho halike
      obtain rfl : o = o' := ho
      rw [hr] at hs
      cases o with
      | none | some r =>
          cases hs
          exact ⟨u', rfl, halike⟩
  | crash node at_ =>
      obtain ⟨ho, halike⟩ := h.resolveCrash node.address? at_.num? seconds
      simp only [Net.resolveHandle] at hs ⊢
      rcases hr : s.resolveCrash node.address? at_.num? seconds with ⟨u, o⟩
      rcases hr' : s'.resolveCrash node.address? at_.num? seconds with ⟨u', o'⟩
      rw [hr, hr'] at ho halike
      obtain rfl : o = o' := ho
      rw [hr] at hs
      cases o with
      | none | some r =>
          cases hs
          exact ⟨u', rfl, halike⟩
  | other v =>
      cases hs
      exact ⟨s', rfl, h⟩

/-! ## A whole call -/

/-- Two calls that began in `t` and in `t'` went alike: neither returned yet,
or both were rejected with one error and changed nothing, or both settled the
same faults and left the same stream. A call that settles what comes before a
time that cannot be added to the clock, and fails there, is matched by one that
does. -/
inductive WentAlike (faults : List FaultHandle) (t t' : Net ρ μ υ) :
    Option (Net ρ μ υ × Except HandleError ℚ) →
    Option (Net ρ μ υ × Except HandleError ℚ) → Prop
  | pending : WentAlike faults t t' none none
  | rejected (e : HandleError) :
      WentAlike faults t t' (some (t, .error e)) (some (t', .error e))
  | accepted {u u' : Net ρ μ υ} {rs : List Resolved} (window : ℚ)
      (h : Committed t u rs) (h' : Committed t' u' rs)
      (hrng : u.faultsRng = u'.faultsRng) :
      WentAlike faults t t' (some (u, .ok window)) (some (u', .ok window))
  | failed {u u' v v' : Net ρ μ υ} {rs : List Resolved} (e : HandleError)
      (hstop : Stopped u faults v (.error e))
      (hstop' : Stopped u' faults v' (.error e)) (h : Committed t u rs)
      (h' : Committed t' u' rs) (hrng : v.faultsRng = v'.faultsRng) :
      WentAlike faults t t' (some (v, .error e)) (some (v', .error e))

/-- The second pass of two calls that began alike, on validated handles. -/
theorem Alike.commitHandles {s s' t : Net ρ μ υ} (h : Alike s s') {fuel : ℕ}
    {seconds : Num} {window : ℚ} {fs : List FaultHandle}
    {x : Except HandleError Unit} (hw : 0 ≤ window)
    (hv : FaultHandle.validateAll s.boundAddresses seconds window fs = .ok ())
    (hs : s.commitHandles fuel window fs = some (t, x)) :
    ∃ t' u u' rs, s'.commitHandles fuel window fs = some (t', x) ∧
      Stopped u fs t x ∧ Stopped u' fs t' x ∧ Committed s u rs ∧
      Committed s' u' rs ∧ t.faultsRng = t'.faultsRng := by
  induction fs generalizing s s' with
  | nil =>
      cases hs
      exact ⟨s', t, s', [], rfl, .done rfl, .done rfl, .refl t t.faultsRng,
        .refl s' s'.faultsRng, h.faultsRng⟩
  | cons f fs ih =>
      obtain ⟨hf, hfs⟩ := FaultHandle.validateAll_cons hv
      simp only [Net.commitHandles, commitHandle] at hs ⊢
      cases hr : s.resolveHandle fuel window f with
      | none => simp [hr] at hs
      | some y =>
          obtain ⟨u, y⟩ := y
          obtain ⟨u', hr', halike⟩ := h.resolveHandle hr
          obtain ⟨r, g, rfl, rfl, -⟩ := resolveHandle_ok hw hf hr
          have hf' : f.validate s'.boundAddresses seconds window = .ok () :=
            h.bound ▸ hf
          obtain ⟨r', g', hrr, rfl, -⟩ := resolveHandle_ok hw hf' hr'
          obtain rfl : r = r' := by
            injection hrr with hrr
            injection hrr
          cases hadds : f.adds with
          | some e =>
              simp only [hr, hr', Option.map_some, hadds, Option.some.injEq,
                Prod.mk.injEq] at hs ⊢
              obtain ⟨rfl, rfl⟩ := hs
              have hfirst : (f :: fs).findSome? FaultHandle.adds = some e := by
                simp [hadds]
              exact ⟨_, s, s', [], ⟨rfl, rfl⟩, .raised e g hfirst,
                .raised e g' hfirst, .refl s s.faultsRng,
                .refl s' s'.faultsRng, halike.faultsRng⟩
          | none =>
              simp only [hr, hr', Option.map_some, hadds] at hs ⊢
              have hu := Committed.schedule s g r
              have hu' := Committed.schedule s' g' r
              have hlast : ∀ {v w : Net ρ μ υ}, Stopped v fs w x →
                  Stopped v (f :: fs) w x := by
                intro v w hstop
                cases hstop with
                | done hnone => exact .done (by simpa [hadds] using hnone)
                | raised e g hsome =>
                    exact .raised e g (by simpa [hadds] using hsome)
              obtain ⟨t', v, v', rs, ht', hstop, hstop', hrs, hrs', hrng⟩ :=
                ih (halike.schedule s.loop.time s'.loop.time r)
                  (hu.boundAddresses ▸ hfs) hs
              exact ⟨t', v, v', r :: rs, ht', hlast hstop, hlast hstop',
                hu.trans hrs, hu'.trans hrs', hrng⟩

theorem Alike.commitHandles_none {s s' : Net ρ μ υ} (h : Alike s s')
    {fuel : ℕ} {seconds : Num} {window : ℚ} {fs : List FaultHandle}
    (hw : 0 ≤ window)
    (hv : FaultHandle.validateAll s.boundAddresses seconds window fs = .ok ())
    (hs : s.commitHandles fuel window fs = none) :
    s'.commitHandles fuel window fs = none := by
  cases hs' : s'.commitHandles fuel window fs with
  | none => rfl
  | some x =>
      obtain ⟨t', -, -, -, ht', -⟩ :=
        h.symm.commitHandles hw (h.bound ▸ hv) hs'
      rw [hs] at ht'
      cases ht'

/-- Which error a call is rejected with, and what it resolves, how many draws
that takes and what it leaves of the stream, are the same whichever order the
addresses were bound in, and whatever policy each was given. -/
theorem resolution_ignores_bind_order {s t t' : Net (Counted ρ) μ υ}
    {bs bs' : List Binding}
    (hp : (bs.map Binding.address).Perm (bs'.map Binding.address))
    (h : s.bindAll bs = .ok t) (h' : s.bindAll bs' = .ok t') (fuel : ℕ)
    (seconds : Num) (faults : List FaultHandle) :
    WentAlike faults t t' (t.prepareHandles fuel seconds faults)
      (t'.prepareHandles fuel seconds faults) := by
  have halike : Alike t t' := .of_bindAll hp h h'
  unfold prepareHandles
  cases hsec : checkSeconds seconds with
  | error e => exact .rejected (.api e)
  | ok window =>
      have hw := (checkSeconds_ok hsec).2
      dsimp only
      rw [halike.bound]
      cases hv : FaultHandle.validateAll t'.boundAddresses seconds window
          faults with
      | error e => exact .rejected e
      | ok _ =>
          dsimp only
          have hv : FaultHandle.validateAll t.boundAddresses seconds window
              faults = .ok () := by rw [halike.bound, hv]
          cases hs : t.commitHandles fuel window faults with
          | none =>
              rw [halike.commitHandles_none hw hv hs]
              exact .pending
          | some y =>
              obtain ⟨v, x⟩ := y
              obtain ⟨v', u, u', rs, hs', hstop, hstop', hrs, hrs', hrng⟩ :=
                halike.commitHandles hw hv hs
              rw [hs']
              cases x with
              | error e => exact .failed e hstop hstop' hrs hrs' hrng
              | ok _ =>
                  cases hstop
                  cases hstop'
                  exact .accepted window hrs hrs' hrng

/-- The same addresses the one way round and the other. -/
def bindings : List Binding :=
  [⟨3, false, .int 0, .int 0⟩, ⟨1, false, .int 0, .int 0⟩,
    ⟨2, true, .int 0, .int 1⟩]

/-- Whatever is left open is drawn. -/
def openFaults : List FaultHandle :=
  [.partition .none, .slowLink .none (.num (.int 1)) .none, .crash .none .none]

omit [Random ρ] in
theorem resolution_ignores_bind_order_bindings :
    let s : Net (Counted Toggle) Unit ℕ := init ⟨.low, 0⟩ ⟨.low, 0⟩
    ∃ t t', s.bindAll bindings = .ok t ∧ s.bindAll bindings.reverse = .ok t' ∧
      t.endpoints.keys = [2, 1, 3] ∧ t'.endpoints.keys = [3, 1, 2] ∧
      (t.prepareHandles 3 (.int 1) openFaults).isSome ∧
      WentAlike openFaults t t' (t.prepareHandles 3 (.int 1) openFaults)
        (t'.prepareHandles 3 (.int 1) openFaults) := by
  intro s
  have hkeys : (s.bindAll bindings).toOption.map (·.endpoints.keys) =
      some [2, 1, 3] := by decide +kernel
  have hkeys' : (s.bindAll bindings.reverse).toOption.map
      (·.endpoints.keys) = some [3, 1, 2] := by decide +kernel
  have hdone : (s.bindAll bindings).toOption.map
      (fun t => (t.prepareHandles 3 (.int 1) openFaults).isSome) =
      some true := by decide +kernel
  cases h : s.bindAll bindings with
  | error e =>
      rw [h] at hkeys
      cases hkeys
  | ok t =>
      cases h' : s.bindAll bindings.reverse with
      | error e =>
          rw [h'] at hkeys'
          cases hkeys'
      | ok t' =>
          rw [h] at hkeys hdone
          rw [h'] at hkeys'
          refine ⟨t, t', rfl, rfl, Option.some.inj hkeys,
            Option.some.inj hkeys', Option.some.inj hdone, ?_⟩
          exact resolution_ignores_bind_order (by decide) h h' 3 (.int 1)
            openFaults

end Net

end Seedloop
