import Seedloop.Proofs.Effects

/-!
# What `run_for` puts on the heap

The two passes of `run_for` come out as one statement, `runFor_eq`: a list of
settled faults, one for each handle and every one inside the window, put on
the heap in order at one reading of the clock, and then a sleep as long as the
window. The generator is the only other thing that moved. `op_cases` closes
the list of operations with it.
-/

namespace Seedloop

/-! ## Validation -/

theorem checkNumber_ok {x : Num} {ok : ℚ → Bool} {error : ApiError} {q : ℚ}
    (h : checkNumber x ok error = .ok q) : x.value? = some q ∧ ok q = true := by
  unfold checkNumber at h
  split at h
  · cases h
  · next hv =>
    split at h
    · next hok =>
      cases h
      exact ⟨hv, hok⟩
    · cases h
  · cases h
  · cases h

theorem checkSeconds_ok {seconds : Num} {q : ℚ}
    (h : checkSeconds seconds = .ok q) : seconds.value? = some q ∧ 0 ≤ q := by
  simpa using checkNumber_ok h

/-- A validated slow link has a usable factor, if it has one. -/
theorem validateFault_factor {bound : List Address} {seconds : Num}
    {window : ℚ} {a b : Option Address} {x : Num}
    (h : validateFault bound seconds window (.slowLink a b (some x)) = .ok ()) :
    ∃ q, x.value? = some q ∧ 1 < q := by
  cases hc : checkNumber x (1 < ·) (.slowLinkFactor x) with
  | ok q => exact ⟨q, by simpa using checkNumber_ok hc⟩
  | error e =>
      exfalso
      revert h
      simp only [validateFault, bind, Except.bind, discard, Functor.discard,
        Functor.mapConst, hc]
      repeat' split
      all_goals simp [Except.map]

/-- A validated crash has a time inside the call, if it has one. -/
theorem validateFault_at {bound : List Address} {seconds : Num} {window : ℚ}
    {node : Option Address} {x : Num}
    (h : validateFault bound seconds window (.crash node (some x)) = .ok ()) :
    ∃ q, x.value? = some q ∧ 0 ≤ q ∧ q ≤ window := by
  cases hc : checkNumber x (0 ≤ ·) (.crashAtRange x) with
  | ok q =>
      obtain ⟨hv, hq⟩ := checkNumber_ok hc
      refine ⟨q, hv, by simpa using hq, ?_⟩
      by_contra hlt
      simp [validateFault, bind, Except.bind, hc, not_le.mp hlt, throw,
        throwThe, MonadExceptOf.throw] at h
  | error e => simp [validateFault, bind, Except.bind, hc] at h

theorem validateFaults_cons {bound : List Address} {seconds : Num}
    {window : ℚ} {f : Fault} {fs : List Fault}
    (h : validateFaults bound seconds window (f :: fs) = .ok ()) :
    validateFault bound seconds window f = .ok () ∧
      validateFaults bound seconds window fs = .ok () := by
  cases hf : validateFault bound seconds window f with
  | error e => simp [validateFaults, bind, Except.bind, hf] at h
  | ok _ => exact ⟨rfl, by simpa [validateFaults, bind, Except.bind, hf] using h⟩

namespace Net

variable {ρ μ υ : Type} [Random ρ]

/-! ## The bound addresses -/

section

omit [Random ρ]

theorem mem_boundAddresses {s : Net ρ μ υ} {a : Address} :
    a ∈ s.boundAddresses ↔ a ∈ s.endpoints := by
  rw [boundAddresses, List.mem_insertionSort, AList.mem_keys]

theorem boundAddresses_nodup (s : Net ρ μ υ) : s.boundAddresses.Nodup :=
  (List.perm_insertionSort _ _).nodup_iff.mpr s.endpoints.keys_nodup

/-- `sorted` lists each bound address once, in order. -/
theorem boundAddresses_sorted (s : Net ρ μ υ) :
    s.boundAddresses.Pairwise (· < ·) := by
  have hle : s.boundAddresses.Pairwise (· ≤ ·) :=
    List.pairwise_insertionSort _ _
  exact (hle.and s.boundAddresses_nodup).imp fun h => lt_of_le_of_ne h.1 h.2

/-- Who is bound says how they are listed. -/
theorem boundAddresses_congr {s s' : Net ρ μ υ}
    (h : ∀ a, a ∈ s.endpoints ↔ a ∈ s'.endpoints) :
    s.boundAddresses = s'.boundAddresses := by
  have hperm : s.boundAddresses.Perm s'.boundAddresses := by
    refine (List.perm_ext_iff_of_nodup s.boundAddresses_nodup
      s'.boundAddresses_nodup).mpr fun a => ?_
    rw [mem_boundAddresses, mem_boundAddresses, h]
  refine hperm.eq_of_pairwise (fun a b _ _ hab hba => ?_)
    s.boundAddresses_sorted s'.boundAddresses_sorted
  exact absurd hba hab.asymm

end

/-! ## Scheduling -/

/-- More rounds than it takes come to the same split. -/
theorem drawBipartition_mono {addrs : List Address} {fuel fuel' : ℕ} {g : ρ}
    {x : List (Finset Address) × ρ} (hle : fuel ≤ fuel')
    (h : drawBipartition addrs fuel g = some x) :
    drawBipartition addrs fuel' g = some x := by
  induction fuel generalizing fuel' g with
  | zero => cases h
  | succ fuel ih =>
      obtain ⟨n, rfl⟩ : ∃ n, fuel' = n + 1 := ⟨fuel' - 1, by omega⟩
      simp only [drawBipartition] at h ⊢
      split_ifs at h ⊢ with hboth
      · exact h
      · exact ih (by omega) h

theorem drawWindow_eq {s t : Net ρ μ υ} {seconds start stop : ℚ}
    (h : s.drawWindow seconds = ((start, stop), t)) (hs : 0 ≤ seconds) :
    0 ≤ start ∧ start ≤ stop ∧ stop ≤ seconds ∧
      ∃ g, t = { s with faultsRng := g } := by
  unfold drawWindow at h
  rcases hx : s.faultUniform 0 seconds with ⟨x, u⟩
  obtain ⟨h0, h1, g, rfl⟩ := faultUniform_eq hx hs
  rw [hx] at h
  dsimp only at h
  generalize hu : { s with faultsRng := g } = u at h
  rcases hy : u.faultUniform x seconds with ⟨y, v⟩
  obtain ⟨h2, h3, g', rfl⟩ := faultUniform_eq hy h1
  rw [hy] at h
  simp only [Prod.mk.injEq] at h
  obtain ⟨⟨rfl, rfl⟩, rfl⟩ := h
  subst hu
  exact ⟨h0, h2, h3, g', rfl⟩

theorem pinnedOr_eq {s t : Net ρ μ υ} {pinned : Option Num} {a b x : ℚ}
    (h : s.pinnedOr pinned a b = (x, t)) (hab : a ≤ b) :
    (∃ g, t = { s with faultsRng := g }) ∧
      ((pinned = none ∧ a ≤ x ∧ x ≤ b) ∨
        ∃ y, pinned = some y ∧ x = y.value?.getD 0) := by
  unfold pinnedOr at h
  split at h
  · next y =>
    simp only [Prod.mk.injEq] at h
    exact ⟨⟨s.faultsRng, h.2.symm⟩, .inr ⟨y, rfl, h.1.symm⟩⟩
  · obtain ⟨h0, h1, hg⟩ := faultUniform_eq h hab
    exact ⟨hg, .inl ⟨rfl, h0, h1⟩⟩

theorem faultChoice_eq {s t : Net ρ μ υ} {seq : List Address}
    {a : Option Address} (h : s.faultChoice seq = (t, a)) :
    ∃ g, t = { s with faultsRng := g } := by
  unfold faultChoice at h
  split at h
  all_goals
    simp only [Prod.mk.injEq] at h
    exact ⟨_, h.1.symm⟩

theorem resolvePair_eq {s t : Net ρ μ υ} {a b : Option Address}
    {p : Option (Address × Address)} (h : s.resolvePair a b = (t, p)) :
    ∃ g, t = { s with faultsRng := g } := by
  unfold resolvePair at h
  split at h
  · simp only [Prod.mk.injEq] at h
    exact ⟨s.faultsRng, h.1.symm⟩
  · rcases hc : s.faultChoice (s.boundAddresses.filter _) with ⟨u, x⟩
    rw [hc] at h
    simp only [Prod.mk.injEq] at h
    exact h.1 ▸ faultChoice_eq hc
  · rcases hc : s.faultChoice (s.boundAddresses.filter _) with ⟨u, x⟩
    rw [hc] at h
    simp only [Prod.mk.injEq] at h
    exact h.1 ▸ faultChoice_eq hc
  · rcases hc : s.faultChoice s.boundAddresses with ⟨u, _ | x⟩
    · rw [hc] at h
      simp only [Prod.mk.injEq] at h
      exact h.1 ▸ faultChoice_eq hc
    · rw [hc] at h
      dsimp only at h
      obtain ⟨g, rfl⟩ := faultChoice_eq hc
      generalize hu : { s with faultsRng := g } = u at h
      rcases hd : u.faultChoice (u.boundAddresses.filter _) with ⟨v, y⟩
      rw [hd] at h
      simp only [Prod.mk.injEq] at h
      obtain ⟨g', rfl⟩ := faultChoice_eq hd
      subst hu
      exact ⟨g', h.1.symm⟩

/-- What resolving a validated fault settles, and all it changes. -/
theorem resolve_eq {s t : Net ρ μ υ} {fuel : ℕ} {bound : List Address}
    {seconds : Num} {window : ℚ} {f : Fault} {o : Option Resolved}
    (hw : 0 ≤ window) (hv : validateFault bound seconds window f = .ok ())
    (h : s.resolve fuel window f = some (t, o)) :
    (∃ g, t = { s with faultsRng := g }) ∧ ∀ r, o = some r → r.Ok window := by
  cases f with
  | partition groups =>
      simp only [resolve, resolvePartition, Option.map_map,
        Option.map_eq_some_iff, Function.comp] at h
      obtain ⟨⟨groups', u⟩, hdrawn, hmap⟩ := h
      have hu : ∃ g, u = { s with faultsRng := g } := by
        split at hdrawn
        · simp only [Option.some.injEq, Prod.mk.injEq] at hdrawn
          exact ⟨s.faultsRng, hdrawn.2.symm⟩
        · simp only [Option.map_eq_some_iff, Prod.mk.injEq] at hdrawn
          obtain ⟨⟨_, g⟩, -, -, rfl⟩ := hdrawn
          exact ⟨g, rfl⟩
      rcases hd : u.drawWindow window with ⟨⟨start, stop⟩, v⟩
      obtain ⟨h0, h1, h2, g', rfl⟩ := drawWindow_eq hd hw
      obtain ⟨g, rfl⟩ := hu
      simp only [hd, Prod.mk.injEq] at hmap
      obtain ⟨rfl, rfl⟩ := hmap
      refine ⟨⟨g', rfl⟩, ?_⟩
      intro r hr
      cases hr
      exact ⟨h0, h1, h2⟩
  | slowLink a b factor =>
      simp only [resolve, resolveSlowLink, Option.some.injEq] at h
      rcases hp : s.resolvePair a b with ⟨u, _ | ⟨a', b'⟩⟩
      · rw [hp] at h
        simp only [Prod.mk.injEq] at h
        obtain ⟨rfl, rfl⟩ := h
        exact ⟨resolvePair_eq hp, by simp⟩
      · rw [hp] at h
        dsimp only at h
        rcases hf : u.pinnedOr factor 2 50 with ⟨x, v⟩
        rw [hf] at h
        dsimp only at h
        rcases hd : v.drawWindow window with ⟨⟨start, stop⟩, w⟩
        rw [hd] at h
        simp only [Prod.mk.injEq] at h
        obtain ⟨rfl, rfl⟩ := h
        obtain ⟨h0, h1, h2, g'', rfl⟩ := drawWindow_eq hd hw
        obtain ⟨⟨g', rfl⟩, hx⟩ := pinnedOr_eq hf (by norm_num)
        obtain ⟨g, rfl⟩ := resolvePair_eq hp
        refine ⟨⟨g'', rfl⟩, ?_⟩
        intro r hr
        cases hr
        refine ⟨?_, h0, h1, h2⟩
        rcases hx with ⟨-, hlo, -⟩ | ⟨y, rfl, rfl⟩
        · linarith
        · obtain ⟨q, hq, hlt⟩ := validateFault_factor hv
          rw [hq]
          exact hlt
  | crash node at_ =>
      simp only [resolve, resolveCrash, Option.some.injEq] at h
      rcases hf : s.pinnedOr at_ 0 window with ⟨x, u⟩
      rw [hf] at h
      obtain ⟨⟨g, rfl⟩, hx⟩ := pinnedOr_eq hf hw
      have hok : 0 ≤ x ∧ x ≤ window := by
        rcases hx with ⟨-, hlo, hhi⟩ | ⟨y, rfl, rfl⟩
        · exact ⟨hlo, hhi⟩
        · obtain ⟨q, hq, h0, h1⟩ := validateFault_at hv
          rw [hq]
          exact ⟨h0, h1⟩
      cases node with
      | some n =>
          simp only [Prod.mk.injEq] at h
          obtain ⟨rfl, rfl⟩ := h
          refine ⟨⟨g, rfl⟩, ?_⟩
          intro r hr
          cases hr
          exact hok
      | none =>
          dsimp only at h
          generalize hu : { s with faultsRng := g } = u at h
          rcases hc : u.faultChoice u.boundAddresses with ⟨v, n⟩
          rw [hc] at h
          simp only [Prod.mk.injEq] at h
          obtain ⟨rfl, rfl⟩ := h
          obtain ⟨g', rfl⟩ := faultChoice_eq hc
          subst hu
          refine ⟨⟨g', rfl⟩, ?_⟩
          intro r hr
          rw [Option.map_eq_some_iff] at hr
          obtain ⟨n, -, rfl⟩ := hr
          exact hok

/-- Settled faults put on the heap, in order. -/
def scheduleAll (s : Net ρ μ υ) (now : ℚ) (rs : List Resolved) : Net ρ μ υ :=
  rs.foldl (fun s r => s.schedule now r) s

omit [Random ρ] in
@[simp] theorem schedule_time (s : Net ρ μ υ) (now : ℚ) (r : Resolved) :
    (s.schedule now r).loop.time = s.loop.time := by
  cases r <;> rfl

omit [Random ρ] in
theorem schedule_faultsRng (s : Net ρ μ υ) (now : ℚ) (r : Resolved) (g : ρ) :
    { s.schedule now r with faultsRng := g } =
      schedule { s with faultsRng := g } now r := by
  cases r <;> rfl

omit [Random ρ] in
theorem scheduleAll_effects {window : ℚ} {rs : List Resolved}
    (h : ∀ r ∈ rs, r.Ok window) (s : Net ρ μ υ) :
    Effects s (s.scheduleAll s.loop.time rs) := by
  induction rs generalizing s with
  | nil => exact .refl
  | cons r rs ih =>
      have hr := Effect.schedule s window r (h r (by simp))
      have := ih (fun r hr => h r (by simp [hr])) (s.schedule s.loop.time r)
      rw [schedule_time] at this
      exact .head hr this

/-- What the second pass of a `run_for` resolves, fault by fault. -/
def resolvedBy (s : Net ρ μ υ) (fuel : ℕ) (seconds : ℚ) :
    List Fault → List Resolved
  | [] => []
  | f :: rest =>
      match s.resolve fuel seconds f with
      | some (u, some r) =>
          r :: (u.schedule s.loop.time r).resolvedBy fuel seconds rest
      | _ => []

/-- What a `run_for` schedules: nothing, if its first pass fails. -/
def scheduledBy (s : Net ρ μ υ) (fuel : ℕ) (seconds : Num)
    (faults : List Fault) : List Resolved :=
  match checkSeconds seconds with
  | .error _ => []
  | .ok window =>
      match validateFaults s.boundAddresses seconds window faults with
      | .error _ => []
      | .ok () => s.resolvedBy fuel window faults

/-- The second pass, after the first one. -/
theorem commitFaults_eq {s t : Net ρ μ υ} {fuel : ℕ} {bound : List Address}
    {seconds : Num} {window : ℚ} {fs : List Fault}
    {res : Except ApiError Unit} (hw : 0 ≤ window)
    (hv : validateFaults bound seconds window fs = .ok ())
    (h : s.commitFaults fuel window fs = some (t, res)) :
    ∃ rs g, rs = s.resolvedBy fuel window fs ∧
      t = scheduleAll { s with faultsRng := g } s.loop.time rs ∧
      (∀ r ∈ rs, r.Ok window) ∧ (res = .ok () → rs.length = fs.length) := by
  induction fs generalizing s with
  | nil =>
      simp only [commitFaults, Option.some.injEq, Prod.mk.injEq] at h
      exact ⟨[], s.faultsRng, rfl, h.1.symm, by simp, by simp⟩
  | cons f fs ih =>
      have hhead := validateFaults_cons hv
      simp only [commitFaults, commitFault] at h
      rcases hr : s.resolve fuel window f with _ | ⟨u, o⟩
      · simp [hr] at h
      obtain ⟨⟨g, rfl⟩, hok⟩ := resolve_eq hw hhead.1 hr
      cases o with
      | none =>
          simp only [hr, Option.map_some, Option.some.injEq,
            Prod.mk.injEq] at h
          obtain ⟨rfl, rfl⟩ := h
          exact ⟨[], g, by rw [resolvedBy, hr], rfl, by simp, by simp⟩
      | some r =>
          simp only [hr, Option.map_some] at h
          obtain ⟨rs, g', hrs, rfl, hall, hlen⟩ := ih hhead.2 h
          refine ⟨r :: rs, g', by rw [resolvedBy, hr, hrs], ?_, ?_,
            by simpa using hlen⟩
          · rw [schedule_faultsRng, schedule_time]
            rfl
          · intro r' hr'
            rcases List.mem_cons.mp hr' with rfl | hmem
            · exact hok _ rfl
            · exact hall r' hmem

/-- `run_for` up to where its task suspends, or the error it raises. -/
theorem runFor_eq {s t : Net ρ μ υ} {fuel : ℕ} {seconds : Num}
    {faults : List Fault} {k : υ} {res : Except ApiError Unit}
    (h : s.runFor fuel seconds faults k = some (t, res)) :
    ∃ window rs g, rs = s.scheduledBy fuel seconds faults ∧
      (∀ r ∈ rs, r.Ok window) ∧
      ((∃ e, res = .error e ∧
        t = scheduleAll { s with faultsRng := g } s.loop.time rs) ∨
      (res = .ok () ∧ seconds.value? = some window ∧ 0 ≤ window ∧
        rs.length = faults.length ∧
        t = (scheduleAll { s with faultsRng := g } s.loop.time rs).sleep
          window k)) := by
  simp only [runFor, prepareRunFor, Option.map_eq_some_iff] at h
  obtain ⟨⟨u, res'⟩, hprep, hmap⟩ := h
  cases hs : checkSeconds seconds with
  | error e =>
      simp only [hs, Option.some.injEq, Prod.mk.injEq] at hprep
      obtain ⟨rfl, rfl⟩ := hprep
      simp only [Prod.mk.injEq] at hmap
      exact ⟨0, [], s.faultsRng, by rw [scheduledBy, hs], by simp,
        .inl ⟨e, hmap.2.symm, hmap.1.symm⟩⟩
  | ok window =>
      obtain ⟨hval, hw⟩ := checkSeconds_ok hs
      simp only [hs] at hprep
      cases hv : validateFaults s.boundAddresses seconds window faults with
      | error e =>
          simp only [hv, Option.some.injEq, Prod.mk.injEq] at hprep
          obtain ⟨rfl, rfl⟩ := hprep
          simp only [Prod.mk.injEq] at hmap
          exact ⟨0, [], s.faultsRng, by simp only [scheduledBy, hs, hv],
            by simp, .inl ⟨e, hmap.2.symm, hmap.1.symm⟩⟩
      | ok _ =>
          simp only [hv, Option.map_eq_some_iff] at hprep
          obtain ⟨⟨v, res''⟩, hcommit, hprep⟩ := hprep
          obtain ⟨rs, g, hrs, rfl, hall, hlen⟩ := commitFaults_eq hw hv hcommit
          have hrs : rs = s.scheduledBy fuel seconds faults := by
            simp only [scheduledBy, hs, hv, hrs]
          cases res'' with
          | error e =>
              simp only [Prod.mk.injEq] at hprep
              obtain ⟨rfl, rfl⟩ := hprep
              simp only [Prod.mk.injEq] at hmap
              exact ⟨window, rs, g, hrs, hall,
                .inl ⟨e, hmap.2.symm, hmap.1.symm⟩⟩
          | ok _ =>
              simp only [Prod.mk.injEq] at hprep
              obtain ⟨rfl, rfl⟩ := hprep
              simp only [Prod.mk.injEq] at hmap
              exact ⟨window, rs, g, hrs, hall, .inr ⟨hmap.2.symm, hval, hw,
                hlen rfl, hmap.1.symm⟩⟩

theorem runFor_effects {s t : Net ρ μ υ} {fuel : ℕ} {seconds : Num}
    {faults : List Fault} {k : υ} {res : Except ApiError Unit}
    (h : s.runFor fuel seconds faults k = some (t, res)) : Effects s t := by
  obtain ⟨window, rs, g, -, hall, h⟩ := runFor_eq h
  have hdraws := Effect.draws s s.netRng g
  have hsched := scheduleAll_effects hall { s with faultsRng := g }
  rcases h with ⟨e, -, rfl⟩ | ⟨-, -, -, -, rfl⟩
  · exact .head hdraws hsched
  · exact .tail (.head hdraws hsched) (.sleep _ window k)

/-! ## Every operation -/

omit [Random ρ] in
theorem userCallAt_effects (s : Net ρ μ υ) (when : Num) (k : υ) :
    Effects s (s.userCallAt when k).1 := by
  unfold userCallAt
  cases checkWhen when with
  | error e => exact .refl
  | ok w => exact .single (.userTimer s w k)

omit [Random ρ] in
theorem userCallLater_effects (s : Net ρ μ υ) (delay : Num) (k : υ) :
    Effects s (s.userCallLater delay k).1 := by
  unfold userCallLater
  cases delay.after s.loop.time with
  | none => exact .refl
  | some when => exact userCallAt_effects s when k

omit [Random ρ] in
theorem inboxAct_effects {s t : Net ρ μ υ} {address : Address}
    {a : Inbox.Act μ} {r : Reply μ} (hin : ∀ b : Inbox μ, b.delivered a = [])
    (h : s.inboxAct address a = some (t, r)) : Effects s t := by
  unfold inboxAct at h
  split at h
  · cases h
  · next endpoint hlook =>
    simp only [Option.map_eq_some_iff, Prod.mk.injEq] at h
    obtain ⟨⟨inbox, out⟩, hact, rfl, -⟩ := h
    exact .single (.inbox s address endpoint inbox a hlook (hin _)
      (by rw [Inbox.step, hact]; rfl))

omit [Random ρ] in
theorem bind_effects {s t : Net ρ μ υ} {address : Address} {reliable : Bool}
    {loss duplicate : Num}
    (h : s.bind address reliable loss duplicate = .ok t) : Effects s t := by
  unfold Net.bind at h
  split at h
  · cases h
  · next hfree =>
    split at h
    · cases h
    · cases h
    · cases h
      exact .single (.bind s address _ hfree)

/-- An operation that does not send is a sequence of effects. -/
theorem op_effects {s t : Net ρ μ υ} {o : Op μ υ} {r : Reply μ}
    (h : s.op o = some (t, r)) (hsend : ∀ src dst msg, o ≠ .send src dst msg) :
    Effects s t := by
  cases o with
  | callSoon k =>
      cases h
      exact .single (.userSoon s k)
  | callAt when k =>
      have := userCallAt_effects s when k
      rwa [Option.some.inj h] at this
  | callLater delay k =>
      have := userCallLater_effects s delay k
      rwa [Option.some.inj h] at this
  | cancel handle =>
      simp only [op] at h
      split at h
      · next hown =>
        cases h
        exact .single (.cancel s handle hown)
      · cases h
  | stop =>
      cases h
      exact .single (.stop s)
  | record event =>
      cases h
      exact .single (.record s event)
  | bind address reliable loss duplicate =>
      simp only [op] at h
      split at h
      · cases h
        exact .refl
      · next hb =>
        cases h
        exact bind_effects hb
  | partition groups =>
      cases h
      exact .single (.setPartition s (some groups))
  | heal =>
      cases h
      exact .single (.setPartition s none)
  | send src dst msg => exact absurd rfl (hsend src dst msg)
  | recv address task mustCancel | cancelRecv address task
    | resumeRecv address task => exact inboxAct_effects (fun _ => rfl) h
  | runFor seconds faults fuel k =>
      simp only [op, Option.map_eq_some_iff] at h
      obtain ⟨⟨u, res⟩, hrun, hmap⟩ := h
      have := runFor_effects hrun
      cases res with
      | error e =>
          cases hmap
          exact this
      | ok _ =>
          cases hmap
          exact this
  | cancelRunFor fut =>
      cases h
      exact .single (.cancelRunFor s fut)

/-- Every operation is a send or a sequence of effects. -/
theorem op_cases {s t : Net ρ μ υ} {o : Op μ υ} {r : Reply μ}
    (h : s.op o = some (t, r)) :
    (∃ src dst msg endpoint how, o = .send src dst msg ∧
      Sends s t src dst msg endpoint how) ∨
    ((∀ src dst msg, o ≠ .send src dst msg) ∧ Effects s t) := by
  by_cases hsend : ∃ src dst msg, o = .send src dst msg
  · obtain ⟨src, dst, msg, rfl⟩ := hsend
    simp only [op, Option.map_eq_some_iff, Prod.mk.injEq] at h
    obtain ⟨endpoint, hlook, rfl, -⟩ := h
    obtain ⟨how, hsends⟩ := send_sends hlook dst msg
    exact .inl ⟨src, dst, msg, endpoint, how, rfl, hsends⟩
  · have hsend : ∀ src dst msg, o ≠ .send src dst msg :=
      fun src dst msg heq => hsend ⟨src, dst, msg, heq⟩
    exact .inr ⟨hsend, op_effects h hsend⟩

/-! ## Stopping -/

omit [Random ρ] in
theorem schedule_stopping (s : Net ρ μ υ) (now : ℚ) (r : Resolved) :
    (s.schedule now r).loop.stopping = s.loop.stopping := by
  cases r <;> rfl

omit [Random ρ] in
theorem scheduleAll_stopping (s : Net ρ μ υ) (now : ℚ) (rs : List Resolved) :
    (s.scheduleAll now rs).loop.stopping = s.loop.stopping := by
  induction rs generalizing s with
  | nil => rfl
  | cons r rs ih => exact (ih _).trans (schedule_stopping s now r)

omit [Random ρ] in
theorem finishSleep_stopping (s : Net ρ μ υ) (fut : ℕ) :
    (s.finishSleep fut).loop.stopping = s.loop.stopping := by
  unfold finishSleep
  split <;> rfl

omit [Random ρ] in
theorem runCallback_stopping (s : Net ρ μ υ) (c : Callback μ υ) :
    (s.runCallback c).loop.stopping = s.loop.stopping := by
  cases c with
  | user | resume => rfl
  | wake fut k => exact finishSleep_stopping s fut
  | fault c => cases c <;> rfl
  | deliver mid src dst msg =>
      simp only [runCallback, deliver]
      split
      · rfl
      · split
        · rfl
        · split <;> rfl

omit [Random ρ] in
theorem Sends.stopping {s t : Net ρ μ υ} {src dst : Address} {msg : μ}
    {endpoint : Endpoint μ} {how : Sent}
    (h : Sends s t src dst msg endpoint how) :
    t.loop.stopping = s.loop.stopping := by
  obtain ⟨g, f, rfl⟩ := h.eq
  cases how <;> rfl

omit [Random ρ] in
theorem sleep_stopping (s : Net ρ μ υ) (seconds : ℚ) (k : υ) :
    (s.sleep seconds k).loop.stopping = s.loop.stopping := by
  unfold sleep
  split <;> rfl

/-- Only `stop` asks the loop to stop. -/
theorem op_stopping {s t : Net ρ μ υ} {o : Op μ υ} {r : Reply μ}
    (h : s.op o = some (t, r)) (ho : o ≠ .stop) :
    t.loop.stopping = s.loop.stopping := by
  have hcallAt : ∀ when k,
      (s.userCallAt when k).1.loop.stopping = s.loop.stopping := by
    intro when k
    unfold userCallAt
    split <;> rfl
  have hcallLater : ∀ delay k,
      (s.userCallLater delay k).1.loop.stopping = s.loop.stopping := by
    intro delay k
    unfold userCallLater
    split
    · rfl
    · exact hcallAt _ k
  have hinbox : ∀ address a, s.inboxAct address a = some (t, r) →
      t.loop.stopping = s.loop.stopping := by
    intro address a h
    unfold inboxAct at h
    split at h
    · cases h
    · simp only [Option.map_eq_some_iff, Prod.mk.injEq] at h
      obtain ⟨-, -, rfl, -⟩ := h
      rfl
  cases o with
  | stop => exact absurd rfl ho
  | callSoon | record | partition | heal =>
      cases h
      rfl
  | callAt when k =>
      have := hcallAt when k
      rwa [Option.some.inj h] at this
  | callLater delay k =>
      have := hcallLater delay k
      rwa [Option.some.inj h] at this
  | cancel handle =>
      simp only [op] at h
      split at h
      · cases h
        rfl
      · cases h
  | bind address reliable loss duplicate =>
      simp only [op] at h
      split at h
      · cases h
        rfl
      · next hb =>
        cases h
        unfold Net.bind at hb
        split at hb
        · cases hb
        · split at hb
          · cases hb
          · cases hb
          · cases hb
            rfl
  | send src dst msg =>
      simp only [op, Option.map_eq_some_iff, Prod.mk.injEq] at h
      obtain ⟨endpoint, hlook, rfl, -⟩ := h
      obtain ⟨how, hsend⟩ := send_sends hlook dst msg
      exact hsend.stopping
  | recv address task mustCancel | cancelRecv address task
    | resumeRecv address task => exact hinbox _ _ h
  | runFor seconds faults fuel k =>
      simp only [op, Option.map_eq_some_iff] at h
      obtain ⟨⟨u, res⟩, hrun, hmap⟩ := h
      have hu : u.loop.stopping = s.loop.stopping := by
        obtain ⟨window, rs, g, -, -, ⟨e, -, rfl⟩ | ⟨-, -, -, -, rfl⟩⟩ :=
          runFor_eq hrun
        · exact scheduleAll_stopping _ _ rs
        · exact (sleep_stopping _ window k).trans (scheduleAll_stopping _ _ rs)
      cases res with
      | error e =>
          cases hmap
          exact hu
      | ok _ =>
          cases hmap
          exact hu
  | cancelRunFor fut =>
      cases h
      unfold finishSleep
      split <;> rfl
end Net

end Seedloop
