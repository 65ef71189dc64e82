import Seedloop.Proofs.Latency

/-!
# Quiet traffic does not move the faults

What the `"faults"` stream is read for are the sends of endpoints that can
lose or double a message and the unset fields of a `run_for`. How much of it
is read depends on what was read — a lost message draws for no duplicate, a
bipartition draws until it has two sides — so positions in the stream mean
nothing by themselves. What can be said is that a draw depends on the stream
where it begins and on who is bound under which policy, and that nothing else
moves either: two runs that make the same requests make them of the same
stream, and get the same answers, whatever they do in between.
-/

namespace Seedloop

/-- An endpoint whose sends draw nothing for a fault. -/
def Policy.Quiet (p : Policy) : Prop :=
  p.reliable = true ∨ (p.loss = 0 ∧ p.duplicate = 0)

instance (p : Policy) : Decidable p.Quiet := by
  unfold Policy.Quiet
  infer_instance

/-- The operations that the `"faults"` stream is read for or that what is read
depends on. -/
inductive Request where
  | bind (address : Address) (reliable : Bool) (loss duplicate : Num)
  | send (src dst : Address)
  | runFor (seconds : Num) (faults : List Fault)
  deriving DecidableEq

namespace Net

variable {ρ μ υ : Type}

/-- The request a move makes; a send of a quiet endpoint makes none. -/
def request (s : Net ρ μ υ) : Act μ υ → Option Request
  | .op (.bind address reliable loss duplicate) =>
      some (.bind address reliable loss duplicate)
  | .op (.send src dst _) =>
      match s.policies src with
      | some policy => if policy.Quiet then none else some (.send src dst)
      | none => none
  | .op (.runFor seconds faults _ _) => some (.runFor seconds faults)
  | _ => none

/-! ## Draws from the same stream -/

/-- Two states a fault is resolved alike in. -/
structure Alike (s s' : Net ρ μ υ) : Prop where
  faultsRng : s.faultsRng = s'.faultsRng
  bound : s.boundAddresses = s'.boundAddresses

theorem mem_endpoints_of_policies {s s' : Net ρ μ υ}
    (h : s.policies = s'.policies) (a : Address) :
    a ∈ s.endpoints ↔ a ∈ s'.endpoints := by
  have ha := congrArg Option.isSome (congrFun h a)
  simp only [policies, Option.isSome_map] at ha
  rw [← AList.lookup_isSome, ← AList.lookup_isSome, ha]

variable [Random ρ]

theorem Alike.faultUniform {s s' : Net ρ μ υ} (h : Alike s s') (a b : ℚ) :
    (s.faultUniform a b).1 = (s'.faultUniform a b).1 ∧
      Alike (s.faultUniform a b).2 (s'.faultUniform a b).2 := by
  unfold Net.faultUniform
  rw [h.faultsRng]
  exact ⟨rfl, rfl, h.bound⟩

theorem Alike.faultChoice {s s' : Net ρ μ υ} (h : Alike s s')
    (seq : List Address) :
    (s.faultChoice seq).2 = (s'.faultChoice seq).2 ∧
      Alike (s.faultChoice seq).1 (s'.faultChoice seq).1 := by
  simp only [Net.faultChoice, h.faultsRng]
  cases Random.choice seq s'.faultsRng with
  | none => exact ⟨rfl, h⟩
  | some x => exact ⟨rfl, rfl, h.bound⟩

theorem Alike.drawWindow {s s' : Net ρ μ υ} (h : Alike s s') (seconds : ℚ) :
    (s.drawWindow seconds).1 = (s'.drawWindow seconds).1 ∧
      Alike (s.drawWindow seconds).2 (s'.drawWindow seconds).2 := by
  obtain ⟨hstart, hu⟩ := h.faultUniform 0 seconds
  unfold Net.drawWindow
  rcases hx : s.faultUniform 0 seconds with ⟨start, u⟩
  rcases hx' : s'.faultUniform 0 seconds with ⟨start', u'⟩
  rw [hx, hx'] at hstart hu
  obtain rfl : start = start' := hstart
  obtain ⟨hstop, hv⟩ := Alike.faultUniform hu start seconds
  exact ⟨Prod.ext rfl hstop, hv⟩

theorem Alike.pinnedOr {s s' : Net ρ μ υ} (h : Alike s s')
    (pinned : Option Num) (a b : ℚ) :
    (s.pinnedOr pinned a b).1 = (s'.pinnedOr pinned a b).1 ∧
      Alike (s.pinnedOr pinned a b).2 (s'.pinnedOr pinned a b).2 := by
  unfold Net.pinnedOr
  cases pinned with
  | none => exact h.faultUniform a b
  | some x => exact ⟨rfl, h⟩

theorem Alike.resolvePair {s s' : Net ρ μ υ} (h : Alike s s')
    (a b : Option Address) :
    (s.resolvePair a b).2 = (s'.resolvePair a b).2 ∧
      Alike (s.resolvePair a b).1 (s'.resolvePair a b).1 := by
  unfold Net.resolvePair
  split
  · exact ⟨rfl, h⟩
  · next b =>
    obtain ⟨ha, hu⟩ := h.faultChoice (s.boundAddresses.filter (· ≠ b))
    rw [← h.bound]
    exact ⟨congrArg (Option.map fun a => (a, b)) ha, hu⟩
  · next a =>
    obtain ⟨hb, hu⟩ := h.faultChoice (s.boundAddresses.filter (· ≠ a))
    rw [← h.bound]
    exact ⟨congrArg (Option.map fun b => (a, b)) hb, hu⟩
  · obtain ⟨ha, hu⟩ := h.faultChoice s.boundAddresses
    rw [← h.bound]
    rcases hx : s.faultChoice s.boundAddresses with ⟨u, a⟩
    rcases hx' : s'.faultChoice s.boundAddresses with ⟨u', a'⟩
    rw [hx, hx'] at ha hu
    obtain rfl : a = a' := ha
    cases a with
    | none => exact ⟨rfl, hu⟩
    | some a =>
        have hu : Alike u u' := hu
        obtain ⟨hb, hv⟩ := hu.faultChoice (u.boundAddresses.filter (· ≠ a))
        dsimp only
        rw [← hu.bound]
        exact ⟨congrArg (Option.map fun b => (a, b)) hb, hv⟩

theorem Alike.resolvePartition {s s' t t' : Net ρ μ υ} (h : Alike s s')
    {fuel fuel' : ℕ} {groups : List (Finset Address)} {seconds : ℚ}
    {r r' : Resolved}
    (hs : s.resolvePartition fuel groups seconds = some (t, r))
    (hs' : s'.resolvePartition fuel' groups seconds = some (t', r')) :
    r = r' ∧ Alike t t' := by
  simp only [Net.resolvePartition, Option.map_eq_some_iff] at hs hs'
  obtain ⟨⟨split, u⟩, hu, hr⟩ := hs
  obtain ⟨⟨split', u'⟩, hu', hr'⟩ := hs'
  have hdrawn : split = split' ∧ Alike u u' := by
    split at hu
    · cases hu
      rw [if_pos (by assumption)] at hu'
      cases hu'
      exact ⟨rfl, h⟩
    · rw [if_neg (by assumption)] at hu'
      simp only [Option.map_eq_some_iff, Prod.mk.injEq] at hu hu'
      obtain ⟨⟨x, g⟩, hx, rfl, rfl⟩ := hu
      obtain ⟨⟨x', g'⟩, hx', rfl, rfl⟩ := hu'
      rw [h.faultsRng, h.bound] at hx
      -- The fuels may differ; either draw is one of the larger fuel.
      have heq := (drawBipartition_mono (le_max_left fuel fuel') hx).symm.trans
        (drawBipartition_mono (le_max_right fuel fuel') hx')
      cases heq
      exact ⟨rfl, rfl, h.bound⟩
  obtain ⟨rfl, halike⟩ := hdrawn
  obtain ⟨hwin, hv⟩ := halike.drawWindow seconds
  rcases hd : u.drawWindow seconds with ⟨⟨start, stop⟩, v⟩
  rcases hd' : u'.drawWindow seconds with ⟨⟨start', stop'⟩, v'⟩
  rw [hd, hd'] at hwin hv
  simp only [hd, hd', Prod.mk.injEq] at hr hr' hwin
  obtain ⟨rfl, rfl⟩ := hwin
  obtain ⟨rfl, rfl⟩ := hr
  obtain ⟨rfl, rfl⟩ := hr'
  exact ⟨rfl, hv⟩

theorem Alike.resolveSlowLink {s s' : Net ρ μ υ} (h : Alike s s')
    (a b : Option Address) (factor : Option Num) (seconds : ℚ) :
    (s.resolveSlowLink a b factor seconds).2 =
        (s'.resolveSlowLink a b factor seconds).2 ∧
      Alike (s.resolveSlowLink a b factor seconds).1
        (s'.resolveSlowLink a b factor seconds).1 := by
  unfold Net.resolveSlowLink
  obtain ⟨hpair, hu⟩ := h.resolvePair a b
  rcases hp : s.resolvePair a b with ⟨u, p⟩
  rcases hp' : s'.resolvePair a b with ⟨u', p'⟩
  rw [hp, hp'] at hpair hu
  obtain rfl : p = p' := hpair
  cases p with
  | none => exact ⟨rfl, hu⟩
  | some p =>
      dsimp only at hu ⊢
      obtain ⟨hfactor, hv⟩ := hu.pinnedOr factor 2 50
      rcases hf : u.pinnedOr factor 2 50 with ⟨x, v⟩
      rcases hf' : u'.pinnedOr factor 2 50 with ⟨x', v'⟩
      rw [hf, hf'] at hfactor hv
      obtain rfl : x = x' := hfactor
      obtain ⟨hwin, hw⟩ := Alike.drawWindow hv seconds
      exact ⟨congrArg (fun w : ℚ × ℚ =>
        some (Resolved.slowLink p.1 p.2 x w.1 w.2)) hwin, hw⟩

theorem Alike.resolveCrash {s s' : Net ρ μ υ} (h : Alike s s')
    (node : Option Address) (at_ : Option Num) (seconds : ℚ) :
    (s.resolveCrash node at_ seconds).2 =
        (s'.resolveCrash node at_ seconds).2 ∧
      Alike (s.resolveCrash node at_ seconds).1
        (s'.resolveCrash node at_ seconds).1 := by
  unfold Net.resolveCrash
  obtain ⟨hat, hu⟩ := h.pinnedOr at_ 0 seconds
  rcases hp : s.pinnedOr at_ 0 seconds with ⟨x, u⟩
  rcases hp' : s'.pinnedOr at_ 0 seconds with ⟨x', u'⟩
  rw [hp, hp'] at hat hu
  obtain rfl : x = x' := hat
  cases node with
  | some node => exact ⟨rfl, hu⟩
  | none =>
      have hu : Alike u u' := hu
      obtain ⟨hnode, hv⟩ := hu.faultChoice u.boundAddresses
      dsimp only
      rw [← hu.bound]
      exact ⟨congrArg (Option.map fun node => Resolved.crash node x) hnode, hv⟩

theorem Alike.resolve {s s' t t' : Net ρ μ υ} (h : Alike s s') {f : Fault}
    {fuel fuel' : ℕ} {seconds : ℚ} {o o' : Option Resolved}
    (hs : s.resolve fuel seconds f = some (t, o))
    (hs' : s'.resolve fuel' seconds f = some (t', o')) :
    o = o' ∧ Alike t t' := by
  cases f with
  | partition groups =>
      simp only [Net.resolve, Option.map_eq_some_iff, Prod.mk.injEq] at hs hs'
      obtain ⟨⟨u, r⟩, hr, rfl, rfl⟩ := hs
      obtain ⟨⟨u', r'⟩, hr', rfl, rfl⟩ := hs'
      obtain ⟨rfl, halike⟩ := h.resolvePartition hr hr'
      exact ⟨rfl, halike⟩
  | slowLink a b factor =>
      have hboth := h.resolveSlowLink a b factor seconds
      rw [Option.some.inj hs, Option.some.inj hs'] at hboth
      exact hboth
  | crash node at_ =>
      have hboth := h.resolveCrash node at_ seconds
      rw [Option.some.inj hs, Option.some.inj hs'] at hboth
      exact hboth

omit [Random ρ] in
theorem Alike.schedule {s s' : Net ρ μ υ} (h : Alike s s') (now now' : ℚ)
    (r : Resolved) : Alike (s.schedule now r) (s'.schedule now' r) := by
  cases r <;> exact ⟨h.faultsRng, h.bound⟩

/-- The second pass of two calls that began alike. -/
theorem Alike.commitFaults {s s' t t' : Net ρ μ υ} (h : Alike s s')
    {fs : List Fault} {fuel fuel' : ℕ} {seconds : ℚ}
    {res res' : Except ApiError Unit}
    (hs : s.commitFaults fuel seconds fs = some (t, res))
    (hs' : s'.commitFaults fuel' seconds fs = some (t', res')) :
    s.resolvedBy fuel seconds fs = s'.resolvedBy fuel' seconds fs ∧
      res = res' ∧ t.faultsRng = t'.faultsRng := by
  induction fs generalizing s s' with
  | nil =>
      cases hs
      cases hs'
      exact ⟨rfl, rfl, h.faultsRng⟩
  | cons f fs ih =>
      simp only [Net.commitFaults, commitFault] at hs hs'
      rcases hr : s.resolve fuel seconds f with _ | ⟨u, o⟩
      · simp [hr] at hs
      rcases hr' : s'.resolve fuel' seconds f with _ | ⟨u', o'⟩
      · simp [hr'] at hs'
      obtain ⟨rfl, hu⟩ := h.resolve hr hr'
      rw [resolvedBy, resolvedBy, hr, hr']
      cases o with
      | none =>
          simp only [hr, hr', Option.map_some, Option.some.injEq,
            Prod.mk.injEq] at hs hs'
          obtain ⟨rfl, rfl⟩ := hs
          obtain ⟨rfl, rfl⟩ := hs'
          exact ⟨rfl, rfl, hu.faultsRng⟩
      | some r =>
          simp only [hr, hr', Option.map_some] at hs hs'
          obtain ⟨hrest, hres, hrng⟩ := ih (hu.schedule _ _ r) hs hs'
          exact ⟨congrArg _ hrest, hres, hrng⟩

/-- Two `run_for` calls that began alike. -/
theorem Alike.runFor {s s' t t' : Net ρ μ υ} (h : Alike s s') {fuel fuel' : ℕ}
    {seconds : Num} {faults : List Fault} {k k' : υ}
    {res res' : Except ApiError Unit}
    (hs : s.runFor fuel seconds faults k = some (t, res))
    (hs' : s'.runFor fuel' seconds faults k' = some (t', res')) :
    s.scheduledBy fuel seconds faults = s'.scheduledBy fuel' seconds faults ∧
      t.faultsRng = t'.faultsRng := by
  simp only [Net.runFor, prepareRunFor, Option.map_eq_some_iff] at hs hs'
  obtain ⟨⟨u, x⟩, hprep, hmap⟩ := hs
  obtain ⟨⟨u', x'⟩, hprep', hmap'⟩ := hs'
  have hu : s.scheduledBy fuel seconds faults =
      s'.scheduledBy fuel' seconds faults ∧ u.faultsRng = u'.faultsRng ∧
      (x.isOk = x'.isOk) := by
    unfold scheduledBy
    rw [← h.bound] at hprep' ⊢
    cases hsec : checkSeconds seconds with
    | error e =>
        simp only [hsec, Option.some.injEq, Prod.mk.injEq] at hprep hprep'
        obtain ⟨rfl, rfl⟩ := hprep
        obtain ⟨rfl, rfl⟩ := hprep'
        exact ⟨rfl, h.faultsRng, rfl⟩
    | ok window =>
        simp only [hsec] at hprep hprep' ⊢
        cases hv : validateFaults s.boundAddresses seconds window faults with
        | error e =>
            simp only [hv, Option.some.injEq, Prod.mk.injEq] at hprep hprep'
            obtain ⟨rfl, rfl⟩ := hprep
            obtain ⟨rfl, rfl⟩ := hprep'
            exact ⟨rfl, h.faultsRng, rfl⟩
        | ok _ =>
            simp only [hv, Option.map_eq_some_iff] at hprep hprep' ⊢
            obtain ⟨⟨v, y⟩, hcommit, hy⟩ := hprep
            obtain ⟨⟨v', y'⟩, hcommit', hy'⟩ := hprep'
            obtain ⟨hrs, rfl, hrng⟩ := h.commitFaults hcommit hcommit'
            cases y with
            | error e =>
                cases hy
                cases hy'
                exact ⟨hrs, hrng, rfl⟩
            | ok _ =>
                cases hy
                cases hy'
                exact ⟨hrs, hrng, rfl⟩
  obtain ⟨hrs, hrng, hok⟩ := hu
  refine ⟨hrs, ?_⟩
  cases x with
  | error e =>
      cases x' with
      | error e' =>
          cases hmap
          cases hmap'
          exact hrng
      | ok w => cases hok
  | ok w =>
      cases x' with
      | error e' => cases hok
      | ok w' =>
          cases hmap
          cases hmap'
          rw [(Undrawn.sleep _ _ _).faultsRng, (Undrawn.sleep _ _ _).faultsRng,
            hrng]

/-! ## What is decided -/

/-- The outcome of a request: the fate of a message, or the faults that a
`run_for` put on the heap, every field settled and every time relative to the
call. -/
inductive Decision where
  | message (fate : Luck)
  | faults (resolved : List Resolved)
  deriving DecidableEq

/-- What the `"faults"` stream decides in a move. -/
def decisions (s : Net ρ μ υ) : Act μ υ → List Decision
  | .op (.send src _ _) =>
      match s.policies src with
      | some policy =>
          if policy.Quiet then [] else [.message (luck policy s.faultsRng).1]
      | none => []
  | .op (.runFor seconds faults fuel _) =>
      [.faults (s.scheduledBy fuel seconds faults)]
  | _ => []

/-- The move from `s` to `t` did what was decided. A message of a quiet
endpoint is neither lost nor doubled, and draws nothing. -/
def Carried (s t : Net ρ μ υ) : Act μ υ → List Decision → Prop
  | .op (.send src dst msg), ds => ∃ policy g f how,
      s.policies src = some policy ∧
      t = sendAs { s with netRng := g, faultsRng := f } src dst msg how ∧
      if policy.Quiet then ds = [] ∧ f = s.faultsRng ∧
        ∃ base, how = .reliable base ∨ how = .once base
      else ∃ base fate, ds = [.message fate] ∧ how = fate.sent base
  | .op (.runFor _ _ _ k), ds => ∃ rs g, ds = [.faults rs] ∧
      (t = scheduleAll { s with faultsRng := g } s.loop.time rs ∨
        ∃ window, t = (scheduleAll { s with faultsRng := g }
          s.loop.time rs).sleep window k)
  | _, ds => ds = [] ∧ t.faultsRng = s.faultsRng

theorem luck_quiet {policy : Policy} (h : policy.loss = 0 ∧ policy.duplicate = 0)
    (g : ρ) : luck policy g = (.once, g) := by
  simp [luck, chance, h.1, h.2]

theorem send_carried {s t : Net ρ μ υ} (haddr : Addressed s)
    {src dst : Address} {msg : μ}
    (h : step s (.op (.send src dst msg)) = some t) :
    Carried s t (.op (.send src dst msg))
      (s.decisions (.op (.send src dst msg))) := by
  simp only [step, op, Option.map_map, Option.map_eq_some_iff,
    Function.comp] at h
  obtain ⟨endpoint, hlook, rfl⟩ := h
  have hpol : s.policies src = some endpoint.policy := by
    rw [policies, hlook]
    rfl
  have ha := haddr src endpoint hlook
  simp only [Carried, decisions, hpol]
  rw [send_eq, ha]
  by_cases hquiet : endpoint.policy.Quiet
  · simp only [if_pos hquiet]
    rcases hquiet with hrel | hzero
    · rw [if_pos hrel]
      exact ⟨_, _, s.faultsRng, _, rfl, rfl, by
        rw [if_pos (.inl hrel)]
        exact ⟨trivial, rfl, _, .inl rfl⟩⟩
    · by_cases hrel : endpoint.policy.reliable = true
      · rw [if_pos hrel]
        exact ⟨_, _, s.faultsRng, _, rfl, rfl, by
          rw [if_pos (.inl hrel)]
          exact ⟨trivial, rfl, _, .inl rfl⟩⟩
      · rw [if_neg hrel, luck_quiet hzero]
        exact ⟨_, _, s.faultsRng, _, rfl, rfl, by
          rw [if_pos (.inr hzero)]
          exact ⟨trivial, rfl, _, .inr rfl⟩⟩
  · have hrel : ¬ endpoint.policy.reliable = true :=
      fun hrel => hquiet (.inl hrel)
    simp only [if_neg hquiet]
    rw [if_neg hrel]
    exact ⟨_, _, _, _, rfl, rfl, by
      rw [if_neg hquiet]
      exact ⟨_, _, rfl, rfl⟩⟩

/-- Every move of a run carries out its decisions. -/
theorem step_carried {s t : Net ρ μ υ} {a : Act μ υ} (haddr : Addressed s)
    (h : step s a = some t) : Carried s t a (s.decisions a) := by
  cases a with
  | beginStep stopStep | clearStop =>
      cases h
      exact ⟨rfl, rfl⟩
  | runReady =>
      simp only [step] at h
      split at h
      · cases h
      · cases h
        exact ⟨rfl, (Undrawn.runHandle _ _).faultsRng⟩
  | op o =>
      cases o with
      | send src dst msg => exact send_carried haddr h
      | bind address reliable loss duplicate =>
          refine ⟨rfl, ?_⟩
          simp only [step, op] at h
          split at h
          · cases h
            rfl
          · next hb =>
            cases h
            exact (bind_rngs hb).2
      | runFor seconds faults fuel k =>
          simp only [step, op, Option.map_map, Option.map_eq_some_iff,
            Function.comp] at h
          obtain ⟨⟨u, res⟩, hrun, hmap⟩ := h
          obtain rfl : u = t := by cases res <;> exact hmap
          obtain ⟨window, rs, g, rfl, -, hcase⟩ := runFor_eq hrun
          refine ⟨_, g, rfl, ?_⟩
          rcases hcase with ⟨e, -, heq⟩ | ⟨-, -, -, -, heq⟩
          · exact .inl heq
          · exact .inr ⟨window, heq⟩
      | _ =>
          simp only [step, Option.map_eq_some_iff] at h
          obtain ⟨⟨t', r⟩, hop, rfl⟩ := h
          exact ⟨rfl, (op_undrawn hop (by rintro _ _ _ ⟨⟩)
            (by rintro _ _ _ _ ⟨⟩) (by rintro _ _ _ _ ⟨⟩)).faultsRng⟩

/-! ## Two runs -/

/-- What the outcome of a request depends on. -/
def dice (s : Net ρ μ υ) : ρ × (Address → Option Policy) :=
  (s.faultsRng, s.policies)

omit [Random ρ] in
theorem alike_of_dice {s s' : Net ρ μ υ} (h : s.dice = s'.dice) :
    Alike s s' :=
  ⟨congrArg Prod.fst h, boundAddresses_congr
    (mem_endpoints_of_policies (congrArg Prod.snd h))⟩

omit [Random ρ] in
theorem Undrawn.dice {s t : Net ρ μ υ} (h : Undrawn s t) : t.dice = s.dice :=
  Prod.ext h.faultsRng h.policies

/-- A move that requests nothing changes nothing an outcome depends on. -/
theorem dice_of_silent {s t : Net ρ μ υ} {a : Act μ υ} (h : step s a = some t)
    (hreq : s.request a = none) : t.dice = s.dice ∧ s.decisions a = [] := by
  cases a with
  | beginStep stopStep | clearStop =>
      cases h
      exact ⟨rfl, rfl⟩
  | runReady =>
      simp only [step] at h
      split at h
      · cases h
      · cases h
        exact ⟨(Undrawn.runHandle _ _).dice, rfl⟩
  | op o =>
      cases o with
      | bind address reliable loss duplicate => cases hreq
      | runFor seconds faults fuel k => cases hreq
      | send src dst msg =>
          simp only [step, op, Option.map_map, Option.map_eq_some_iff,
            Function.comp] at h
          obtain ⟨endpoint, hlook, rfl⟩ := h
          have hpol : s.policies src = some endpoint.policy := by
            rw [policies, hlook]
            rfl
          simp only [request, hpol] at hreq
          split at hreq
          · next hquiet =>
            refine ⟨?_, by simp only [decisions, hpol, if_pos hquiet]⟩
            rw [send_eq]
            split
            · exact (Undrawn.sendAs _ _ _ _ _).dice
            · next hrel =>
              rw [luck_quiet (hquiet.resolve_left hrel)]
              exact (Undrawn.sendAs _ _ _ _ _).dice
          · cases hreq
      | _ =>
          simp only [step, Option.map_eq_some_iff] at h
          obtain ⟨⟨t', r⟩, hop, rfl⟩ := h
          exact ⟨(op_undrawn hop (by rintro _ _ _ ⟨⟩)
            (by rintro _ _ _ _ ⟨⟩) (by rintro _ _ _ _ ⟨⟩)).dice, rfl⟩

omit [Random ρ] in
/-- The move behind a request. -/
theorem request_cases {s : Net ρ μ υ} {a : Act μ υ} {q : Request}
    (h : s.request a = some q) :
    (∃ address reliable loss duplicate,
      q = .bind address reliable loss duplicate ∧
      a = .op (.bind address reliable loss duplicate)) ∨
    (∃ src dst msg, q = .send src dst ∧ a = .op (.send src dst msg) ∧
      ∀ policy, s.policies src = some policy → ¬ policy.Quiet) ∨
    ∃ seconds faults fuel k, q = .runFor seconds faults ∧
      a = .op (.runFor seconds faults fuel k) := by
  unfold request at h
  split at h
  · cases h
    exact .inl ⟨_, _, _, _, rfl, rfl⟩
  · next src dst msg =>
    split at h
    · next policy hpol =>
      split at h
      · cases h
      · next hquiet =>
        cases h
        refine .inr (.inl ⟨_, _, msg, rfl, rfl, ?_⟩)
        intro policy' hpol'
        rw [hpol, Option.some.injEq] at hpol'
        exact hpol' ▸ hquiet
    · cases h
  · next seconds faults fuel k =>
    cases h
    exact .inr (.inr ⟨_, _, fuel, k, rfl, rfl⟩)
  · cases h

omit [Random ρ] in
theorem policies_insert (s : Net ρ μ υ) (address : Address) (e : Endpoint μ) :
    policies { s with endpoints := s.endpoints.insert address e } =
      Function.update s.policies address (some e.policy) := by
  funext a
  by_cases ha : a = address
  · rw [ha, Function.update_self, policies, AList.lookup_insert]
    rfl
  · rw [Function.update_of_ne ha, policies, AList.lookup_insert_ne ha]
    rfl

omit [Random ρ] in
/-- What `bind` answers depends on who is bound, and what it does adds one. -/
theorem bind_dice {s s' : Net ρ μ υ} (h : s.dice = s'.dice) (address : Address)
    (reliable : Bool) (loss duplicate : Num) :
    (s.bind address reliable loss duplicate).toOption.map dice =
      (s'.bind address reliable loss duplicate).toOption.map dice := by
  have hmem : address ∈ s.endpoints ↔ address ∈ s'.endpoints := by
    have ha := congrArg Option.isSome (congrFun (congrArg Prod.snd h) address)
    simp only [dice, policies, Option.isSome_map] at ha
    rw [← AList.lookup_isSome, ← AList.lookup_isSome, ha]
  unfold Net.bind
  by_cases hin : address ∈ s.endpoints
  · rw [if_pos hin, if_pos (hmem.mp hin)]
  · rw [if_neg hin, if_neg (mt hmem.mpr hin)]
    cases loss.probability? with
    | none => rfl
    | some l =>
        cases duplicate.probability? with
        | none => rfl
        | some d =>
            have hrng : s.faultsRng = s'.faultsRng := congrArg Prod.fst h
            have hpol : s.policies = s'.policies := congrArg Prod.snd h
            refine congrArg some (Prod.ext hrng ?_)
            simp only [dice, policies_insert, hpol]

theorem bind_step_dice {s t : Net ρ μ υ} {address : Address} {reliable : Bool}
    {loss duplicate : Num}
    (h : step s (.op (.bind address reliable loss duplicate)) = some t) :
    t.dice = ((s.bind address reliable loss duplicate).toOption.map dice).getD
      s.dice := by
  simp only [step, op] at h
  split at h
  · next hb =>
    cases h
    rw [hb]
    rfl
  · next hb =>
    cases h
    rw [hb]
    rfl

/-- Moves that make one request get one answer. -/
theorem dice_of_same {s t s' t' : Net ρ μ υ} {a a' : Act μ υ} {q : Request}
    (h : step s a = some t) (h' : step s' a' = some t')
    (hd : s.dice = s'.dice) (hq : s.request a = some q)
    (hq' : s'.request a' = some q) :
    t.dice = t'.dice ∧ s.decisions a = s'.decisions a' := by
  have hpol : s.policies = s'.policies := congrArg Prod.snd hd
  have hrng : s.faultsRng = s'.faultsRng := congrArg Prod.fst hd
  rcases request_cases hq with
    ⟨address, reliable, loss, duplicate, rfl, rfl⟩ |
    ⟨src, dst, msg, rfl, rfl, hloud⟩ | ⟨seconds, faults, fuel, k, rfl, rfl⟩
  · rcases request_cases hq' with ⟨_, _, _, _, heq, rfl⟩ |
      ⟨_, _, _, heq, -⟩ | ⟨_, _, _, _, heq, -⟩ <;> cases heq
    rw [bind_step_dice h, bind_step_dice h', bind_dice hd, hd]
    exact ⟨rfl, rfl⟩
  · rcases request_cases hq' with ⟨_, _, _, _, heq, -⟩ |
      ⟨_, _, msg', heq, rfl, -⟩ | ⟨_, _, _, _, heq, -⟩ <;> cases heq
    simp only [step, op, Option.map_map, Option.map_eq_some_iff,
      Function.comp] at h h'
    obtain ⟨e, hlook, rfl⟩ := h
    obtain ⟨e', hlook', rfl⟩ := h'
    have he : s.policies src = some e.policy := by rw [policies, hlook]; rfl
    have he' : s'.policies src = some e'.policy := by
      rw [policies, hlook']
      rfl
    have hsame : e.policy = e'.policy := by
      rw [hpol, he'] at he
      exact (Option.some.inj he).symm
    have hnot := hloud _ he
    have hrel : ¬ e.policy.reliable = true := fun hrel => hnot (.inl hrel)
    constructor
    · rw [send_eq, send_eq, ← hsame, if_neg hrel, if_neg hrel,
        (Undrawn.sendAs _ _ _ _ _).dice, (Undrawn.sendAs _ _ _ _ _).dice, hrng]
      exact Prod.ext rfl hpol
    · simp only [decisions, he, he', ← hsame, if_neg hnot, hrng]
  · rcases request_cases hq' with ⟨_, _, _, _, heq, -⟩ |
      ⟨_, _, _, heq, -⟩ | ⟨_, _, fuel', k', heq, rfl⟩ <;> cases heq
    simp only [step, op, Option.map_map, Option.map_eq_some_iff,
      Function.comp] at h h'
    obtain ⟨⟨u, res⟩, hrun, hmap⟩ := h
    obtain ⟨⟨u', res'⟩, hrun', hmap'⟩ := h'
    obtain rfl : u = t := by cases res <;> exact hmap
    obtain rfl : u' = t' := by cases res' <;> exact hmap'
    obtain ⟨hrs, hrng'⟩ := (alike_of_dice hd).runFor hrun hrun'
    obtain ⟨g, hu⟩ := runFor_undrawn hrun
    obtain ⟨g', hu'⟩ := runFor_undrawn hrun'
    refine ⟨Prod.ext hrng' ?_, congrArg (fun rs => [Decision.faults rs]) hrs⟩
    exact (hu.policies.trans hpol).trans hu'.policies.symm

/-- Quiet traffic does not move the faults. Two runs from one `"faults"`
stream make the same binds, the same `run_for` calls and the same sends of
endpoints that are not quiet, in one order; of sends of quiet endpoints, and of
anything else, each may do what it likes wherever it likes. Then every message
of an endpoint that is not quiet has the same fate in both, down to the latency
drawn for its second copy, every `run_for` schedules the same faults with the
same targets, factors and windows, and the streams end up in one state. What is
decided is what every move does, and a message of a quiet endpoint is neither
lost nor doubled. -/
theorem quiet_traffic {g₁ g₂ f : ρ} {as₁ as₂ : List (Act μ υ)}
    {s₁ s₂ : Net ρ μ υ}
    (h₁ : Machine.run step (init g₁ f) as₁ = some s₁)
    (h₂ : Machine.run step (init g₂ f) as₂ = some s₂)
    (hsame : Machine.outputs step (fun s a => (request s a).toList)
        (init g₁ f) as₁ =
      Machine.outputs step (fun s a => (request s a).toList)
        (init g₂ f) as₂) :
    (Machine.outputs step decisions (init g₁ f) as₁ =
        Machine.outputs step decisions (init g₂ f) as₂ ∧
      s₁.faultsRng = s₂.faultsRng) ∧
    ∀ (g : ρ) (as : List (Act μ υ)) (s : Net ρ μ υ),
      Machine.run step (init g f) as = some s →
      ∀ a t, step s a = some t → Carried s t a (s.decisions a) := by
  constructor
  · obtain ⟨hdice, houts⟩ := Machine.outputs_congr (f := dice) dice_of_silent
      dice_of_same h₁ h₂ rfl hsame
    exact ⟨houts, congrArg Prod.fst hdice⟩
  · intro g as s hs a t ht
    exact step_carried (run_addressed hs) ht

/-- A lossy sender and a drawn crash. -/
def lossyRun : List (Act Unit ℕ) :=
  [.op (.bind 1 false (.float (.fin (1 / 2))) (.int 1)),
    .op (.bind 2 true (.int 1) (.int 1)), .op (.send 1 2 ()),
    .op (.runFor (.int 1) [.crash none none] 0 0), .op (.send 1 2 ())]

/-- The same with traffic on a reliable link in between. -/
def busyRun : List (Act Unit ℕ) :=
  [.op (.bind 1 false (.float (.fin (1 / 2))) (.int 1)),
    .op (.bind 2 true (.int 1) (.int 1)), .op (.send 2 1 ()),
    .op (.send 1 2 ()), .op (.send 2 1 ()),
    .op (.runFor (.int 1) [.crash none none] 0 0), .op (.send 2 1 ()),
    .op (.send 1 2 ())]

theorem quiet_traffic_busyRun :
    Machine.outputs step (fun s a => (request s a).toList)
        (init Toggle.low Toggle.high) lossyRun =
      Machine.outputs step (fun s a => (request s a).toList)
        (init Toggle.low Toggle.high) busyRun ∧
    Machine.outputs step decisions (init Toggle.low Toggle.high) lossyRun =
      [.message (.twice (61 / 4000)), .faults [.crash 1 (1 / 4)],
        .message (.twice (61 / 4000))] ∧
    Machine.outputs step decisions (init Toggle.low Toggle.high) busyRun =
      [.message (.twice (61 / 4000)), .faults [.crash 1 (1 / 4)],
        .message (.twice (61 / 4000))] := by
  have hrun₁ : (Machine.run step (init Toggle.low Toggle.high)
      lossyRun).isSome := by decide +kernel
  have hrun₂ : (Machine.run step (init Toggle.low Toggle.high)
      busyRun).isSome := by decide +kernel
  obtain ⟨s₁, hs₁⟩ := Option.isSome_iff_exists.mp hrun₁
  obtain ⟨s₂, hs₂⟩ := Option.isSome_iff_exists.mp hrun₂
  have hsame : Machine.outputs step (fun s a => (request s a).toList)
        (init Toggle.low Toggle.high) lossyRun =
      Machine.outputs step (fun s a => (request s a).toList)
        (init Toggle.low Toggle.high) busyRun := by decide +kernel
  have hdec : Machine.outputs step decisions (init Toggle.low Toggle.high)
      lossyRun = [.message (.twice (61 / 4000)), .faults [.crash 1 (1 / 4)],
        .message (.twice (61 / 4000))] := by decide +kernel
  exact ⟨hsame, hdec, (quiet_traffic hs₁ hs₂ hsame).1.1 ▸ hdec⟩

end Net

end Seedloop
