import Seedloop.Lib.Since
import Seedloop.Proofs.StepLimit

/-!
# The first interrupt of a run

`_secondary` lets an interrupt through, and each of the two handlers that catch
everything notes on it what was in flight. So the first interrupt of a run is
what the drive has in flight from there on. Only what is no `Exception` takes
its place afterwards: another interrupt, a check that raises something else, or
what comes of putting a note on it.

What is in flight is not always what the drive holds. Between the end of the
scenario and the second stop step its exception is only in the task, and while
the hooks of a step run, the first failure of a check is a local variable of
the loop. An interrupt that is raised there takes nothing along.
-/

namespace Seedloop

/-- What is in flight at the end of a log. -/
inductive InFlight {μ υ ε : Type} (log : List (Mark μ υ ε)) (f : Exc ε) : Prop
  | scenario (hrun : ∀ m ∈ log, m.isSettling = false)
      (hmain : .finished World.mainTask (.raised f) ∈ log)
  | check (h : Since (· = .checkFailed f) (·.isEvaluated = true) log)
  | settling (hms : ∀ m ∈ log, m.begins = false)
      (hheld : .settling (some f) ∈ log)
  | tearingDown (pending : List ℕ)
      (hheld : .tearingDown (some f) pending ∈ log)

/-- The interrupt that a mark says is on its way out. -/
def Mark.interrupt? {μ υ ε : Type} : Mark μ υ ε → Option (Exc ε)
  | .interrupted e => some e
  | _ => none

/-- What a mark says was raised that can take the place of an exception. -/
def Mark.usurper? {μ υ ε : Type} : Mark μ υ ε → Option (Exc ε)
  | .interrupted e | .checkFailed e | .noteRaised e => some e
  | _ => none

/-- What the drive settles with. -/
def Mark.held? {μ υ ε : Type} : Mark μ υ ε → Option (Option (Exc ε))
  | .settling failure => some failure
  | _ => none

theorem interrupt?_eq_some {μ υ ε : Type} {m : Mark μ υ ε} {e : Exc ε}
    (h : m.interrupt? = some e) : m = .interrupted e := by
  cases m with
  | interrupted f => rw [Option.some.inj h]
  | _ => cases h

theorem interrupted_of_calm {μ υ ε : Type} {ms : List (Mark μ υ ε)}
    (h : ∀ m ∈ ms, m.calm = true) (e : Exc ε) : .interrupted e ∉ ms := by
  intro hm
  cases h _ hm

section

variable {μ υ ε : Type} [Raisable ε]

/-- What is raised after a step is no other interrupt. -/
theorem Alarm.of_interrupted {e g : Exc ε} {as : List (Mark μ υ ε)}
    (h : Alarm e as) (hg : .interrupted g ∈ as) :
    g = e ∧ e.kind = .interrupt ∧ ∃ init, as = init ++ [.interrupted e] ∧
      (init = [] ∨ ∃ f post, init = .checkFailed f :: post ∧
        ∀ m ∈ post, m.isEvaluated = true) := by
  have hnot : ∀ post : List (Mark μ υ ε),
      (∀ m ∈ post, m.isEvaluated = true) → .interrupted g ∉ post := by
    intro post hpost hmem
    cases hpost _ hmem
  cases h with
  | failed => simp at hg
  | check post hpost =>
      rcases List.mem_cons.mp hg with hg | hg
      · cases hg
      · exact absurd hg (hnot post hpost)
  | interrupt hkind =>
      rw [List.mem_singleton] at hg
      cases hg
      exact ⟨rfl, hkind, [], rfl, .inl rfl⟩
  | instead f post m hpost hm =>
      rcases List.mem_cons.mp hg with hg | hg
      · cases hg
      rcases List.mem_append.mp hg with hg | hg
      · exact absurd hg (hnot post hpost)
      rw [List.mem_singleton] at hg
      rcases hm with ⟨rfl, hkind⟩ | ⟨rfl, -⟩
      · cases hg
        exact ⟨rfl, hkind, .checkFailed f :: post, rfl,
          .inr ⟨f, post, rfl, hpost⟩⟩
      · cases hg
  | note f post gs hpost =>
      rcases List.mem_cons.mp hg with hg | hg
      · cases hg
      rcases List.mem_append.mp hg with hg | hg
      · exact absurd hg (hnot post hpost)
      · obtain ⟨x, -, hx⟩ := List.mem_map.mp hg
        cases hx

/-- What is taken for the error of a stopped loop is no interrupt. -/
theorem Subsided.interrupted {ms : List (Mark μ υ ε)} (h : Subsided ms)
    (e : Exc ε) : .interrupted e ∉ ms := by
  induction h with
  | calm ms hcalm => exact interrupted_of_calm hcalm e
  | taken ms as f _ halarm hstop ih =>
      refine fun hm => (List.mem_append.mp hm).elim ih fun hm => ?_
      obtain ⟨-, hkind, -⟩ := halarm.of_interrupted hm
      rw [Exc.saysStopped_kind (by simp [hstop])] at hkind
      cases hkind
  | append ms ms' _ _ ih ih' =>
      exact fun hm => (List.mem_append.mp hm).elim ih ih'

end

namespace World

variable {ρ μ κ υ ε : Type} [Raisable ε]

theorem Minor.interrupted {w : World ρ μ κ υ ε} {failure : Option (Exc ε)}
    {ms : List (Mark μ υ ε)} (h : Minor Subsided w failure ms) (e : Exc ε) :
    .interrupted e ∉ ms := by
  cases h with
  | none _ _ hms => exact hms.interrupted e
  | noted f g ms as hms halarm hkind hnote =>
      refine fun hm => (List.mem_append.mp hm).elim (hms.interrupted e) ?_
      intro hm
      obtain ⟨-, hinterrupt, -⟩ := halarm.of_interrupted hm
      rw [hkind] at hinterrupt
      cases hinterrupt

/-- An interrupt gets past `_secondary`, alone in its step or after a check. -/
theorem Replaces.interrupted {w w' : World ρ μ κ υ ε}
    {failure : Option (Exc ε)} {e g : Exc ε} {ms as : List (Mark μ υ ε)}
    (h : Replaces w failure e ms as w') (hg : .interrupted g ∈ ms ++ as) :
    g = e ∧ e.kind = .interrupt ∧ ∃ init, as = init ++ [.interrupted e] ∧
      (init = [] ∨ ∃ f post, init = .checkFailed f :: post ∧
        ∀ m ∈ post, m.isEvaluated = true) := by
  rcases List.mem_append.mp hg with hg | hg
  · exact absurd hg (h.subsided.interrupted g)
  · exact h.alarm.of_interrupted hg

/-! ## The stage it is raised in -/

/-- The first interrupt of a log, raised where no check of the step has
failed. -/
structure First (e : Exc ε) (pre post : List (Mark μ υ ε)) : Prop where
  first : ∀ g, .interrupted g ∉ pre
  alone : ∀ f, ¬ Since (· = .checkFailed f) (·.isEvaluated = true) pre
  last : ∀ g, Usurps g post → g = e
  notes : ∀ g, .noteRaised g ∈ post → g.kind = .exception

/-- Nothing comes of putting notes on what is in flight after it. -/
theorem First.not_slip {e g : Exc ε} {pre post ms rest : List (Mark μ υ ε)}
    (h : First e pre post) (hslip : Slip g ms)
    (hlog : ms ++ rest = pre ++ .interrupted e :: post)
    (hmem : .interrupted e ∈ ms) : False := by
  obtain ⟨init, rfl⟩ := hslip.last
  have hinit : .interrupted e ∈ init :=
    (List.mem_append.mp hmem).resolve_right (by simp)
  rw [List.append_assoc] at hlog
  have hpre : ∀ m ∈ pre, ¬ ∃ x, m = .interrupted x :=
    fun m hm ⟨x, hx⟩ => h.first x (hx ▸ hm)
  obtain ⟨mid, -, rfl⟩ := exists_of_first hlog hpre hinit ⟨e, rfl⟩
  exact hslip.kind (h.notes g (by simp))

/-- Where the marks of what was raised are the last of a part of the log. -/
theorem First.of_alarm {e g : Exc ε}
    {pre post ms init rest : List (Mark μ υ ε)} (h : First e pre post)
    (hlog : ms ++ (init ++ [.interrupted g]) ++ rest =
      pre ++ .interrupted e :: post)
    (hms : ∀ f, .interrupted f ∉ ms)
    (hinit : init = [] ∨ ∃ f post, init = .checkFailed f :: post ∧
      ∀ m ∈ post, m.isEvaluated = true) :
    g = e ∧ pre = ms ∧ post = rest := by
  have hnot : ∀ m ∈ ms ++ init, ¬ ∃ g, m = .interrupted g := by
    rintro m hm ⟨g, rfl⟩
    refine (List.mem_append.mp hm).elim (hms g) fun hm => ?_
    rcases hinit with rfl | ⟨f, evs, rfl, hevs⟩
    · simp at hm
    · rcases List.mem_cons.mp hm with hm | hm
      · cases hm
      · cases hevs _ hm
  have hcut : ms ++ init ++ .interrupted g :: rest =
      pre ++ .interrupted e :: post := by
    rw [← hlog]
    simp
  obtain ⟨rfl, heq, rfl⟩ := eq_of_first hcut ⟨g, rfl⟩ ⟨e, rfl⟩ hnot
    fun m hm ⟨f, hf⟩ => h.first f (hf ▸ hm)
  cases heq
  rcases hinit with rfl | ⟨f, evs, rfl, hevs⟩
  · exact ⟨rfl, List.append_nil _, rfl⟩
  · exact absurd ⟨ms, _, evs, rfl, rfl, hevs⟩ (h.alone f)

theorem First.of_ended {e f g : Exc ε} {pre post run as rest : List (Mark μ υ ε)}
    (h : First e pre post) (hlog : run ++ as ++ rest = pre ++ .interrupted e :: post)
    (hcalm : ∀ m ∈ run, m.calm = true) (hended : Seedloop.Ended f as)
    (has : .interrupted g ∈ as) :
    f = e ∧ e.kind = .interrupt ∧ pre = run ∧ post = rest := by
  cases hended with
  | stopped => simp at has
  | alarm as halarm =>
      obtain ⟨rfl, hkind, init, rfl, hinit⟩ := halarm.of_interrupted has
      obtain ⟨rfl, hcut⟩ := h.of_alarm hlog (interrupted_of_calm hcalm) hinit
      exact ⟨rfl, hkind, hcut⟩

theorem First.of_replaces {w w' : World ρ μ κ υ ε} {failure : Option (Exc ε)}
    {e g : Exc ε} {pre post run ms as : List (Mark μ υ ε)}
    (h : First e pre post) (hr : Replaces w failure g ms as w')
    (hlog : run ++ (ms ++ as) = pre ++ .interrupted e :: post)
    (hrun : ∀ f, .interrupted f ∉ run) :
    g = e ∧ e.kind = .interrupt ∧ pre = run ++ ms := by
  have hmem : .interrupted e ∈ run ++ (ms ++ as) := by
    rw [hlog]
    simp
  obtain ⟨rfl, hkind, init, rfl, hinit⟩ :=
    hr.interrupted ((List.mem_append.mp hmem).resolve_left (hrun e))
  have hlog' : run ++ ms ++ (init ++ [.interrupted e]) ++ [] =
      pre ++ .interrupted e :: post := by
    rw [← hlog]
    simp
  refine ⟨rfl, hkind, (h.of_alarm hlog' (fun f hf => ?_) hinit).2.1⟩
  exact (List.mem_append.mp hf).elim (hrun f) (hr.subsided.interrupted f)

/-- An interrupt is what is in flight, and has a note of what was. -/
structure Heeded (w : World ρ μ κ υ ε) (failure : Option (Exc ε))
    (e : Exc ε) (pre : List (Mark μ υ ε)) : Prop where
  eq : failure = some e
  kind : e.kind = .interrupt
  noted : ∀ f, InFlight pre f → f ≠ e → Noted w e f

theorem Heeded.past {w w' : World ρ μ κ υ ε} {failure : Option (Exc ε)}
    {e : Exc ε} {pre ms : List (Mark μ υ ε)} (h : Heeded w failure e pre)
    (hpast : Past w ms w') : Heeded w' failure e pre :=
  ⟨h.eq, h.kind, fun f hf hne => (h.noted f hf hne).past hpast⟩

/-- Raised in the run, it is what the drive holds before it settles. -/
theorem heeded_run (u : World ρ μ κ υ ε) {e : Exc ε}
    {pre post : List (Mark μ υ ε)} (hkind : e.kind = .interrupt)
    (hcalm : ∀ m ∈ pre, m.calm = true) (hfirst : First e pre post)
    (hmain : (∀ m ∈ pre, m.isSettling = false) → ∀ f,
      .finished mainTask (.raised f) ∈ pre → f = e) :
    Heeded u (some e) e pre := by
  refine ⟨rfl, hkind, fun f hf hne => ?_⟩
  cases hf with
  | scenario hsettling hf => exact absurd (hmain hsettling f hf) hne
  | check hf => exact absurd hf (hfirst.alone f)
  | settling _ hheld => cases hcalm _ hheld
  | tearingDown _ hheld => cases hcalm _ hheld

theorem Surfaced.heeded {w u : World ρ μ κ υ ε} {failure : Option (Exc ε)}
    {ms pre post : List (Mark μ υ ε)} {e : Exc ε}
    (h : Surfaced w failure ms u) (hms : ms = pre ++ .interrupted e :: post)
    (hfirst : First e pre post)
    (hmain : (∀ m ∈ pre, m.isSettling = false) → ∀ f,
      .finished mainTask (.raised f) ∈ pre → f = e) :
    Heeded u failure e pre := by
  have hmem : .interrupted e ∈ ms := by
    rw [hms]
    simp
  cases h with
  | own _ ms _ hu hcalm hcleared hown =>
      rcases List.mem_append.mp hmem with hmem | hmem
      · exact absurd hmem (interrupted_of_calm hcalm e)
      · simp at hmem
  | kept f ms as v ms' _ hv hcalm hended hsettled =>
      rcases List.mem_append.mp hmem with hmem | hmem
      · have has := (List.mem_append.mp hmem).resolve_left
          (interrupted_of_calm hcalm e)
        obtain ⟨rfl, hkind, rfl, -⟩ := hfirst.of_ended hms hcalm hended has
        exact heeded_run u hkind hcalm hfirst hmain
      · rcases List.mem_cons.mp hmem with hmem | hmem
        · cases hmem
        rcases List.mem_cons.mp hmem with hmem | hmem
        · cases hmem
        exact absurd hmem (hsettled.subsided.interrupted e)
  | replaced f g ms as v b ms' as' t _ hv hcalm hended hb ht hu hnote =>
      by_cases hany : ∃ x, .interrupted x ∈ as
      · obtain ⟨x, has⟩ := hany
        obtain ⟨rfl, hkind, rfl, rfl⟩ := hfirst.of_ended hms hcalm hended has
        rw [hfirst.last g (ht.usurps.of_subset fun m hm => by simp [hm])]
        exact heeded_run u hkind hcalm hfirst hmain
      · have hrun : ∀ x, .interrupted x ∉
            ms ++ as ++ [.settling (some f), .cleared] := by
          intro x hx
          rcases List.mem_append.mp hx with hx | hx
          · exact (List.mem_append.mp hx).elim (interrupted_of_calm hcalm x)
              fun hx => hany ⟨x, hx⟩
          · simp at hx
        have hlog : ms ++ as ++ [.settling (some f), .cleared] ++
            (ms' ++ as') = pre ++ .interrupted e :: post := by
          rw [← hms]
          simp
        obtain ⟨rfl, hkind, rfl⟩ := hfirst.of_replaces ht hlog hrun
        have hmem : .settling (some f) ∈
            ms ++ as ++ [.settling (some f), .cleared] ++ ms' := by simp
        refine ⟨rfl, hkind, fun x hx hne => ?_⟩
        cases hx with
        | scenario hsettling hx => cases hsettling _ hmem
        | check hx => exact absurd hx (hfirst.alone x)
        | settling _ hheld =>
            have hx : x = f := by
              rcases List.mem_append.mp hheld with hheld | hheld
              · rcases List.mem_append.mp hheld with hheld | hheld
                · cases isSettling_of_run hcalm hended _ hheld
                · simpa using hheld
              · cases isSettling_of_subsided ht.subsided _ hheld
            rw [hx] at hne ⊢
            exact hnote (Ne.symm hne)
        | tearingDown pending hheld =>
            rcases List.mem_append.mp hheld with hheld | hheld
            · rcases List.mem_append.mp hheld with hheld | hheld
              · cases List.forall_mem_append.mpr
                  ⟨begins_of_calm hcalm, hended.begins⟩ _ hheld
              · simp at hheld
            · cases ht.subsided.begins _ hheld
  | slipped f g x ms as v b ms' _ hv hcalm hended hb hu hg =>
      exact (hfirst.not_slip (hu.settled _ f) ((List.append_nil _).trans hms) hmem).elim

/-- A run always settles before it is torn down. -/
theorem Surfaced.settles {w u : World ρ μ κ υ ε} {failure : Option (Exc ε)}
    {ms : List (Mark μ υ ε)} (h : Surfaced w failure ms u) :
    ∃ m ∈ ms, m.isSettling = true := by
  cases h with
  | own _ ms _ hu hcalm hcleared hown => exact ⟨.settling none, by simp, rfl⟩
  | kept f => exact ⟨.settling (some f), by simp, rfl⟩
  | replaced f => exact ⟨.settling (some f), by simp, rfl⟩
  | slipped f => exact ⟨.settling (some f), by simp, rfl⟩

/-- An interrupt of the teardown. -/
theorem TornDown.heeded {w u w' : World ρ μ κ υ ε}
    {failure result : Option (Exc ε)} {run ms pre post : List (Mark μ υ ε)}
    {e : Exc ε} (hs : Surfaced w failure run u)
    (h : TornDown u failure result ms w') (hrun : ∀ f, .interrupted f ∉ run)
    (hlog : run ++ ms = pre ++ .interrupted e :: post)
    (hfirst : First e pre post) : Heeded w' result e pre := by
  have hmem : .interrupted e ∈ ms := by
    have : .interrupted e ∈ run ++ ms := by
      rw [hlog]
      simp
    exact (List.mem_append.mp this).resolve_left (hrun e)
  cases h with
  | kept cl ms v _ hv hcl hw' hminor hidle =>
      rcases List.mem_append.mp hmem with hmem | hmem
      · rw [hcl] at hmem
        split at hmem <;> simp at hmem
      · rcases List.mem_cons.mp hmem with hmem | hmem
        · cases hmem
        · exact absurd hmem (hminor.interrupted e)
  | replaced g cl ms as v t _ hv hcl ht hw' hnote hidle =>
      have hquiet : ∀ m ∈ cl, m = .cleared := by
        rw [hcl]
        split <;> simp
      have hlog' : run ++ (cl ++ [.tearingDown failure u.pendingTasks]) ++
          (ms ++ as) = pre ++ .interrupted e :: post := by
        rw [← hlog]
        simp
      obtain ⟨rfl, hkind, rfl⟩ := hfirst.of_replaces ht hlog' (by
        intro f hf
        rcases List.mem_append.mp hf with hf | hf
        · exact hrun f hf
        · rcases List.mem_append.mp hf with hf | hf
          · cases hquiet _ hf
          · simp at hf)
      have hsome : .tearingDown failure u.pendingTasks ∈
          run ++ (cl ++ [.tearingDown failure u.pendingTasks]) ++ ms := by simp
      refine ⟨rfl, hkind, fun f hf hne => ?_⟩
      cases hf with
      | scenario hsettling =>
          obtain ⟨m, hm, hsettles⟩ := hs.settles
          rw [hsettling m (by simp [hm])] at hsettles
          cases hsettles
      | check hf => exact absurd hf (hfirst.alone f)
      | settling hbegins => cases hbegins _ hsome
      | tearingDown pending hheld =>
          have hf : failure = some f := by
            rcases List.mem_append.mp hheld with hheld | hheld
            · rcases List.mem_append.mp hheld with hheld | hheld
              · cases hs.begins _ hheld
              · rcases List.mem_append.mp hheld with hheld | hheld
                · cases hquiet _ hheld
                · rw [List.mem_singleton] at hheld
                  cases hheld
                  rfl
            · cases ht.subsided.begins _ hheld
          exact hnote f hf (Ne.symm hne)
  | slipped f g cl ms v _ hf hv hcl hw' hidle =>
      have hslip : Slip g
          (run ++ (cl ++ .tearingDown failure u.pendingTasks :: ms)) := by
        rw [List.append_cons cl]
        exact (hw'.slip.append _).append _
      exact (hfirst.not_slip hslip ((List.append_nil _).trans hlog)
        (List.mem_append_right _ hmem)).elim

/-- A teardown goes on with an interrupt that the run ended with. -/
theorem TornDown.heeds {u w' : World ρ μ κ υ ε} {failure result : Option (Exc ε)}
    {ms pre : List (Mark μ υ ε)} {e : Exc ε} (h : TornDown u failure result ms w')
    (hheeded : Heeded u failure e pre) (hlast : ∀ g, Usurps g ms → g = e) :
    Heeded w' result e pre := by
  have hw' := hheeded.past h.past
  cases hheeded.eq
  cases h with
  | kept => exact hw'
  | replaced g cl ms as v t _ hv hcl ht =>
      rw [hlast g (ht.usurps.of_subset fun m hm => by simp [hm])]
      exact hw'
  | slipped f g cl ms v _ hf hv hcl ht =>
      rw [hlast g (ht.slip.usurps.of_subset fun m hm => by simp [hm])]
      exact hw'

variable [DecidableEq ε] [Random ρ]

/-- A drive that is cut off has not had anything raised in it. -/
theorem calm_of_pending (main : κ) {w w' : World ρ μ κ υ ε}
    (hrun : drive main w = (.pending, w')) : ∃ ms, Calm w ms w' := by
  cases drive_ends main w with
  | ended ran v hend hdrive hran =>
      rw [hdrive] at hrun
      exact absurd (congrArg Prod.fst hrun) (finishDrive_halts ran v).ne_pending
  | pending v hend hdrive ms hcalm =>
      cases hdrive.symm.trans hrun
      exact ⟨_, (beginDrive_past w main).trans hcalm.past, hcalm.calm⟩

/-- What a drive makes of its first interrupt. -/
theorem drive_heeds (main : κ) {w w' : World ρ μ κ υ ε}
    {r : Res (Exc ε) Unit} (htear : w.tearingDown = false)
    (hrun : drive main w = (r, w')) {pre post : List (Mark μ υ ε)} {e : Exc ε}
    (hlog : w'.log = w.log ++ (pre ++ .interrupted e :: post))
    (hfirst : First e pre post)
    (hmain : (∀ m ∈ pre, m.isSettling = false) → ∀ f,
      .finished mainTask (.raised f) ∈ pre → f = e) :
    r = .raised e ∧ Heeded w' (some e) e pre := by
  have hends : ∀ (failure result : Option (Exc ε)) u run ms,
      Surfaced w failure run u → TornDown u failure result ms w' →
      result = some e ∧ Heeded w' (some e) e pre := by
    intro failure result u run ms hs ht
    have hcut : run ++ ms = pre ++ .interrupted e :: post :=
      List.append_cancel_left
        ((hs.past.trans ht.past).log.symm.trans hlog)
    have hheeded : Heeded w' result e pre := by
      by_cases hany : ∃ f, .interrupted f ∈ run
      · -- It is in the part of the log that the drive has settled.
        obtain ⟨f, hf⟩ := hany
        rcases List.append_eq_append_iff.mp hcut with ⟨as, hpre, -⟩ | ⟨as, hrun, has⟩
        · rw [hpre] at hfirst
          exact absurd (List.mem_append_left _ hf) (hfirst.first f)
        cases as with
        | nil =>
            rw [hrun, List.append_nil] at hf
            exact absurd hf (hfirst.first f)
        | cons m rest =>
            obtain ⟨rfl, rfl⟩ := List.cons.inj has
            have hfirst' : First e pre rest := by
              refine ⟨hfirst.first, hfirst.alone, fun g hg => hfirst.last g ?_,
                fun g hg => hfirst.notes g (List.mem_append_left _ hg)⟩
              exact hg.of_subset (List.subset_append_left _ _)
            exact ht.heeds (hs.heeded hrun hfirst' hmain) fun g hg =>
              hfirst.last g (hg.of_subset (List.subset_append_right _ _))
      · exact ht.heeded hs (fun f hf => hany ⟨f, hf⟩) hcut hfirst
    have heq := hheeded.eq
    rw [heq] at hheeded
    exact ⟨heq, hheeded⟩
  have hcourse := drive_course main htear
  cases r with
  | ok =>
      obtain ⟨u, run, ms, hs, ht⟩ := hcourse.ok_of hrun
      cases (hends none none u run ms hs ht).1
  | raised g =>
      obtain ⟨run, ms, hraises⟩ := hcourse.err_of hrun
      have hcut := List.append_cancel_left
        (hraises.past.log.symm.trans hlog)
      cases hraises with
      | result failure u _ _ _ hs ht =>
          obtain ⟨heq, hheeded⟩ := hends failure (some g) u run ms hs ht
          rw [Option.some.inj heq]
          exact ⟨rfl, hheeded⟩
      | slipped f u _ _ ms hs hslip ht hminor =>
          have hmem : .interrupted e ∈ run ++
              .cleared :: .tearingDown (some f) u.pendingTasks :: ms := by
            rw [hcut]
            simp
          rcases List.mem_append.mp hmem with hmem | hmem
          · exact (hfirst.not_slip hslip hcut hmem).elim
          · have hms : .interrupted e ∈ ms := by simpa using hmem
            exact absurd hms (hminor.interrupted e)
  | pending =>
      obtain ⟨ms, hcalm⟩ := calm_of_pending main hrun
      rw [hcalm.past.log] at hlog
      have hmem : .interrupted e ∈ ms := by
        rw [List.append_cancel_left hlog]
        simp
      exact absurd hmem (interrupted_of_calm hcalm.calm e)

/-- The first interrupt of a run is raised, and has a note of what was in
flight, unless something that is no `Exception` takes its place later or comes
of putting a note on it, a check of the same step has failed, or the scenario
has raised and is not settled. -/
theorem interrupt_kept (netRng faultsRng : ρ) (user : υ) (maxSteps : Option ℕ)
    (script : ℕ → List (List (UserOp μ κ υ ε))) (horizon : ℕ) (main : κ)
    {pre post : List (Mark μ υ ε)} {e : Exc ε}
    (hlog : (drive main (.init netRng faultsRng user maxSteps script
      horizon)).2.log = pre ++ .interrupted e :: post)
    (hfirst : ∀ g, .interrupted g ∉ pre)
    (hlast : ∀ g, Usurps g post → g = e)
    (hnotes : ∀ g, .noteRaised g ∈ post → g.kind = .exception)
    (hchecks : ∀ f, ¬ Since (· = .checkFailed f) (·.isEvaluated = true) pre)
    (hmain : (∀ m ∈ pre, m.isSettling = false) → ∀ f,
      .finished mainTask (.raised f) ∈ pre → f = e) :
    (drive main (.init netRng faultsRng user maxSteps script horizon)).1 =
        .raised e ∧ e.kind = .interrupt ∧
      ∀ f, InFlight pre f → f ≠ e →
        Noted (drive main (.init netRng faultsRng user maxSteps script
          horizon)).2 e f := by
  obtain ⟨hraised, -, hkind, hnoted⟩ :=
    drive_heeds main rfl rfl hlog ⟨hfirst, hchecks, hlast, hnotes⟩ hmain
  exact ⟨hraised, hkind, hnoted⟩

/-! ## Runs with an interrupt -/

omit [Raisable ε] [DecidableEq ε] [Random ρ] in
/-- The interrupt of a log's first such mark. -/
theorem exists_interrupted {log : List (Mark μ υ ε)} {e : Exc ε}
    (h : log.findSome? Mark.interrupt? = some e) : ∃ pre post,
      log = pre ++ .interrupted e :: post ∧ (∀ g, .interrupted g ∉ pre) ∧
      pre = log.takeWhile (fun m => m.interrupt?.isNone) ∧
      log.dropWhile (fun m => m.interrupt?.isNone) = .interrupted e :: post := by
  obtain ⟨m, post, hm, hcut, hdrop⟩ := exists_first h
  rw [interrupt?_eq_some hm] at hcut hdrop
  refine ⟨_, post, hcut, fun g hg => ?_, rfl, hdrop⟩
  cases List.mem_takeWhile_imp hg

/-- A property fails, and the scenario is interrupted when it is cancelled. -/
def interruptedUnwinding : List (List (List (UserOp ℕ ℕ ℕ Plain))) :=
  [[[.always "p" fun _ => .fails, .await 0 [.ready 5]]],
    [[.finish 0 (.raised (.user (.keyboardInterrupt 1)))]]]

theorem interrupt_kept_interruptedUnwinding :
    (driven interruptedUnwinding).1 = .raised (.user (.keyboardInterrupt 1)) ∧
      Noted (driven interruptedUnwinding).2 (.user (.keyboardInterrupt 1))
        (.sys 1 (.invariant "p" 0)) := by
  have hfirst : (driven interruptedUnwinding).2.log.findSome? Mark.interrupt? =
      some (.user (.keyboardInterrupt 1)) := by decide +kernel
  have hheld : (((driven interruptedUnwinding).2.log.takeWhile
      (·.interrupt?.isNone)).filterMap Mark.held?) =
        [some (.sys 1 (.invariant "p" 0))] := by decide +kernel
  have hquiet : ((driven interruptedUnwinding).2.log.takeWhile
      (·.interrupt?.isNone)).all (!·.begins) = true := by decide +kernel
  have hstep : ((driven interruptedUnwinding).2.log.takeWhile
      (·.interrupt?.isNone)).getLast?.map (fun m =>
        m.usurper?.isSome || m.isEvaluated) = some false := by decide +kernel
  have hlast : ((driven interruptedUnwinding).2.log.dropWhile
      (·.interrupt?.isNone)).tail.filterMap Mark.usurper? = [] := by
    decide +kernel
  obtain ⟨pre, post, hlog, hnone, hpre, hpost⟩ := exists_interrupted hfirst
  rw [← hpre] at hheld hquiet hstep
  rw [hpost, List.tail_cons] at hlast
  have hsettling : .settling (some (.sys 1 (.invariant "p" 0))) ∈ pre := by
    have hmem : some (.sys 1 (.invariant "p" 0)) ∈ pre.filterMap Mark.held? := by
      rw [hheld]
      exact List.mem_singleton_self _
    obtain ⟨m, hm, hheld⟩ := List.mem_filterMap.mp hmem
    cases m with
    | settling => rwa [← Option.some.inj hheld]
    | _ => cases hheld
  have hquiet' : ∀ m ∈ post, m.usurper? = none :=
    List.filterMap_eq_nil_iff.mp hlast
  have hlast' : ∀ g, Usurps g post → g = .user (.keyboardInterrupt 1) := by
    rintro g ⟨-, hg | hg | hg⟩ <;> cases hquiet' _ hg
  have hnotes : ∀ g, .noteRaised g ∈ post → g.kind = .exception := by
    intro g hg
    cases hquiet' _ hg
  have hchecks : ∀ f, ¬ Since (· = .checkFailed f) (·.isEvaluated = true)
      pre := by
    intro f hf
    obtain ⟨m, hm, hkind⟩ := hf.getLast?
    rw [hm] at hstep
    rcases hkind with rfl | hkind
    · cases hstep
    · simp [hkind] at hstep
  have hkept := interrupt_kept Toggle.low Toggle.low 0 (some 50)
    (fun n => interruptedUnwinding.getD (n - 1) []) 0 0 hlog hnone hlast' hnotes
    hchecks fun hsettles => by cases hsettles _ hsettling
  refine ⟨hkept.1, hkept.2.2 _ (.settling (fun m hm => ?_) hsettling) (by simp)⟩
  simpa using List.all_eq_true.mp hquiet m hm

/-- Interrupted while it waits, a scenario is interrupted again when it is
cancelled. -/
def interruptedTwice : List (List (List (UserOp ℕ ℕ ℕ Plain))) :=
  [[[.createTask true 1, .await 0 [.ready 5]]],
    [[.interrupt (.user (.keyboardInterrupt 1))]],
    [[.finish 0 (.raised (.user (.keyboardInterrupt 2)))]]]

theorem first_interrupt_replaced : ∃ pre post,
    (driven interruptedTwice).2.log =
        pre ++ .interrupted (.user (.keyboardInterrupt 1)) :: post ∧
      (∀ g, .interrupted g ∉ pre) ∧
      (driven interruptedTwice).1 = .raised (.user (.keyboardInterrupt 2)) := by
  have hfirst : (driven interruptedTwice).2.log.findSome? Mark.interrupt? =
      some (.user (.keyboardInterrupt 1)) := by decide +kernel
  have hraised : (driven interruptedTwice).1.error? =
      some (.user (.keyboardInterrupt 2)) := by decide +kernel
  obtain ⟨pre, post, hlog, hnone, -⟩ := exists_interrupted hfirst
  exact ⟨pre, post, hlog, hnone, Res.eq_raised hraised⟩

end World

end Seedloop
