import Seedloop.Proofs.History

/-!
# One step of the loop

A step begins, unless the limit is reached or nothing can happen; then its
batch runs; and then the after-step checks look at what has come of it. What
the checks do changes nothing that a predicate can see, so all of them see one
view, and a step that passes its checks with the hook of the properties in the
list has found every registered property to hold there.

What a step adds to the log is put down once, for each of the ways it can end.
-/

namespace Seedloop

/-- A mark that the after-step checks leave, if they do not raise what is not
an `Exception`. -/
def Mark.byCheck {μ υ ε : Type} : Mark μ υ ε → Bool
  | .evaluated _ | .checkFailed _ => true
  | _ => false

/-- What the scenario ended with, if it did not return. -/
def Outcome.failure? {ε : Type} : Outcome ε → Option (Exc ε)
  | .returned => none
  | .raised e => some e
  | .cancelled => some World.cancelledError

/-- A failure of the scenario, of a check, of the loop or of the drive. Where
the drive has begun to settle the scenario, its being cancelled is none. -/
def Mark.failure? {μ υ ε : Type} : Mark μ υ ε → Option (Exc ε)
  | .checkFailed e | .failed e => some e
  | .finished task outcome =>
      if task = World.mainTask then outcome.failure? else none
  | _ => none

namespace World

variable {ρ μ κ υ ε : Type}

theorem Past.outcome_eq {w w' : World ρ μ κ υ ε} {ms : List (Mark μ υ ε)}
    (h : Past w ms w') (hms : ∀ t o, .finished t o ∉ ms) :
    w'.outcome? = w.outcome? := by
  funext t
  cases hw : w.outcome? t with
  | some o => exact h.outcome t o hw
  | none =>
      cases hw' : w'.outcome? t with
      | none => rfl
      | some o => exact absurd ((h.finished t o).mpr ⟨hw, hw'⟩) (hms t o)

/-- From `w` to `w'` by after-step checks. -/
structure Checks (w : World ρ μ κ υ ε) (ms : List (Mark μ υ ε))
    (w' : World ρ μ κ υ ε) : Prop where
  past : Past w ms w'
  settings : w'.settings = w.settings
  hooks : w'.hooks = w.hooks
  view : w'.view = w.view
  stopping : w'.net.loop.stopping = w.net.loop.stopping
  byCheck : ∀ m ∈ ms, m.byCheck = true

theorem Checks.refl (w : World ρ μ κ υ ε) : Checks w [] w :=
  ⟨.refl w, rfl, rfl, rfl, rfl, by simp⟩

theorem Checks.trans {w w' w'' : World ρ μ κ υ ε}
    {ms ms' : List (Mark μ υ ε)} (h : Checks w ms w')
    (h' : Checks w' ms' w'') : Checks w (ms ++ ms') w'' := by
  refine ⟨h.past.trans h'.past, h'.settings.trans h.settings,
    h'.hooks.trans h.hooks, h'.view.trans h.view,
    h'.stopping.trans h.stopping, fun m hm => ?_⟩
  rcases List.mem_append.mp hm with hm | hm
  · exact h.byCheck m hm
  · exact h'.byCheck m hm

theorem Checks.invariants_eq {w w' : World ρ μ κ υ ε}
    {ms : List (Mark μ υ ε)} (h : Checks w ms w') :
    w'.invariants = w.invariants := by
  have hnone : ms.filterMap Mark.property? = [] := by
    rw [List.filterMap_eq_nil_iff]
    intro m hm
    have hby := h.byCheck m hm
    cases m with
    | evaluated name => rfl
    | checkFailed e => rfl
    | _ => cases hby
  rw [h.past.invariants, hnone, List.append_nil]

/-- The failures in a part of the log. -/
def failures (ms : List (Mark μ υ ε)) : List (Exc ε) :=
  ms.filterMap Mark.failure?

@[simp] theorem failures_append (ms ms' : List (Mark μ υ ε)) :
    failures (ms ++ ms') = failures ms ++ failures ms' :=
  List.filterMap_append

/-- From `w` to `w'` by after-step checks of which none failed. -/
def Looked (w w' : World ρ μ κ υ ε) : Prop :=
  ∃ ms, Checks w ms w' ∧ failures ms = []

theorem Looked.refl (w : World ρ μ κ υ ε) : Looked w w := ⟨[], .refl w, rfl⟩

theorem Looked.trans {w w' w'' : World ρ μ κ υ ε} (h : Looked w w')
    (h' : Looked w' w'') : Looked w w'' := by
  obtain ⟨ms, h, hms⟩ := h
  obtain ⟨ms', h', hms'⟩ := h'
  exact ⟨_, h.trans h', by rw [failures_append, hms, hms']; rfl⟩

theorem Looked.hooks {w w' : World ρ μ κ υ ε} (h : Looked w w') :
    w'.hooks = w.hooks := by
  obtain ⟨ms, h, -⟩ := h
  exact h.hooks

theorem Looked.view {w w' : World ρ μ κ υ ε} (h : Looked w w') :
    w'.view = w.view := by
  obtain ⟨ms, h, -⟩ := h
  exact h.view

theorem evaluated_looked {w : World ρ μ κ υ ε} (name : String)
    (hhook : .checkInvariants ∈ w.hooks) :
    Looked w (w.mark (.evaluated name)) := by
  refine ⟨[.evaluated name], ⟨.mark w (by simp) (by simp) rfl ?_, rfl, rfl, rfl,
    rfl, by simp [Mark.byCheck]⟩, rfl⟩
  have hhooked : w.monitor.hooked = true := decide_eq_true hhook
  rw [Monitor.step, hhooked]
  rfl

theorem checkFailed_checks (w : World ρ μ κ υ ε) (e : Exc ε) :
    Checks w [.checkFailed e] (w.mark (.checkFailed e)) :=
  ⟨.mark w (by simp) (by simp) rfl rfl, rfl, rfl, rfl, rfl,
    by simp [Mark.byCheck]⟩

/-- The turn of one property in a check of all of them. -/
def checkProperty (p : String × Predicate μ υ ε) : Run ρ μ κ υ ε Unit :=
  Exec.look fun w => do
    Exec.update (·.mark (.evaluated p.1))
    match p.2 w.view with
    | .holds => pure ()
    | .fails => Exec.raise (.sys w.steps (.invariant p.1 w.net.loop.time))
    | .raises e => Exec.raise e

theorem checkInvariants_eq :
    (checkInvariants : Run ρ μ κ υ ε Unit) =
      Exec.look fun w => Exec.forEach checkProperty w.invariants := rfl

/-- The properties hold, or one of them is where the check stops. -/
theorem checkInvariants_looked (w : World ρ μ κ υ ε)
    (hhook : .checkInvariants ∈ w.hooks) :
    Exec.wp checkInvariants
      (fun _ w' => Looked w w' ∧ ∀ p ∈ w.invariants, p.2 w.view = .holds)
      (fun _ w' => Looked w w') (fun _ => False) w := by
  rw [checkInvariants_eq, Exec.wp_look_apply]
  generalize w.invariants = ps
  suffices h : ∀ u, Looked w u → Exec.wp (Exec.forEach checkProperty ps)
      (fun _ w' => Looked w w' ∧ ∀ p ∈ ps, p.2 w.view = .holds)
      (fun _ w' => Looked w w') (fun _ => False) u from h w (.refl w)
  induction ps with
  | nil => exact fun u hu => ⟨hu, by simp⟩
  | cons p ps ih =>
      intro u hu
      have hmark : Looked w (u.mark (.evaluated p.1)) :=
        hu.trans (evaluated_looked p.1 (by rw [hu.hooks]; exact hhook))
      rw [Exec.forEach, Exec.wp_bind, checkProperty, Exec.wp_look_apply,
        Exec.wp_bind, Exec.wp_update]
      simp only []
      split
      · next hp =>
        refine (ih _ hmark).mono ?_ (fun _ _ h => h) fun _ h => h
        rintro _ v ⟨hv, hps⟩
        refine ⟨hv, fun q hq => ?_⟩
        rcases List.mem_cons.mp hq with rfl | hq
        · rw [← hu.view]
          exact hp
        · exact hps q hq
      · exact hmark
      · exact hmark

theorem resolve_looked (w : World ρ μ κ υ ε) (r : RunUntil μ κ υ ε)
    (d : Decision ε) : Looked w (w.resolve r d) := by
  have hturn := resolve_turn w r d
  refine ⟨[], ⟨hturn.past, hturn.settings, ?_, ?_, ?_, by simp⟩, rfl⟩
  · simp only [resolve]
    split <;> rfl
  · simp only [resolve]
    split <;> rfl
  · simp only [resolve]
    split <;> rfl

variable [Raisable ε]

theorem check_looked (call : ℕ) (w : World ρ μ κ υ ε) :
    Exec.wp (check call) (fun _ w' => Looked w w')
      (fun e w' => Looked w w' ∧ e.kind ≠ .exception) (fun _ => False) w := by
  rw [check, Exec.wp_look_apply]
  split
  · exact .refl w
  · split
    · exact .refl w
    · split
      · split
        · exact resolve_looked w _ _
        · next he => exact ⟨.refl w, he⟩
      · exact resolve_looked w _ _
      · split
        · split
          · exact resolve_looked w _ _
          · exact .refl w
        · exact .refl w

theorem runHook_looked (hook : Hook) (w : World ρ μ κ υ ε)
    (hhook : hook ∈ w.hooks) :
    Exec.wp (runHook hook)
      (fun _ w' => Looked w w' ∧
        (hook = .checkInvariants → ∀ p ∈ w.invariants, p.2 w.view = .holds))
      (fun _ w' => Looked w w') (fun _ => False) w := by
  cases hook with
  | checkInvariants =>
      rw [runHook, Exec.wp_bind]
      refine (checkInvariants_looked w hhook).mono ?_ (fun _ _ h => h)
        fun _ h => h
      exact fun _ w' h => ⟨h.1, fun _ => h.2⟩
  | check call =>
      refine (check_looked call w).mono ?_ (fun _ _ h => h.1) fun _ h => h
      exact fun _ w' h => ⟨h, by rintro ⟨⟩⟩

/-- How the hooks of a step end when one of them raises what is not an
`Exception`. At most one other failed before it. -/
def Aborted (w : World ρ μ κ υ ε) (e : Exc ε) (w' : World ρ μ κ υ ε) : Prop :=
  ∃ ms u, Checks w ms u ∧ (failures ms).length ≤ 1 ∧
    ((e.kind = .interrupt ∧ w' = u.mark (.interrupted e)) ∨
      (e.kind = .other ∧ w' = u.mark (.checkFailed e)))

/-- What the hooks say, started with `first` as the first failure. -/
structure Verdict (w : World ρ μ κ υ ε) (hooks : List Hook)
    (first : Option (Exc ε)) (r : Option (Exc ε)) (w' : World ρ μ κ υ ε) :
    Prop where
  checks : ∃ ms, Checks w ms w' ∧ failures ms = r.toList
  kind : ∀ e, r = some e → e.kind = .exception
  first : ∀ e, first = some e → r = some e
  holds : r = none → .checkInvariants ∈ hooks →
    ∀ p ∈ w.invariants, p.2 w.view = .holds

/-- The hooks that are left, with `first` the first failure of those that are
not. -/
theorem runHooks_verdict (hooks : List Hook) (first : Option (Exc ε))
    (notes : List (Exc ε)) {w u : World ρ μ κ υ ε} {ms : List (Mark μ υ ε)}
    (hsub : ∀ h ∈ hooks, h ∈ w.hooks) (hu : Checks w ms u)
    (hms : failures ms = first.toList)
    (hfirst : ∀ e, first = some e → e.kind = .exception) :
    Exec.wp (runHooks hooks first notes)
      (fun r w' => Verdict w hooks first r.1 w') (Aborted w)
      (fun _ => False) u := by
  induction hooks generalizing first notes u ms with
  | nil => exact ⟨⟨ms, hu, hms⟩, hfirst, fun _ h => h, by simp⟩
  | cons hook hooks ih =>
      have hin : hook ∈ u.hooks := by
        rw [hu.hooks]
        exact hsub hook List.mem_cons_self
      have hsub' : ∀ h ∈ hooks, h ∈ w.hooks := fun h hh =>
        hsub h (List.mem_cons_of_mem _ hh)
      rw [runHooks, Exec.wp_bind, Exec.wp_attempt]
      refine (runHook_looked hook u hin).mono ?_ ?_ fun _ h => h
      · rintro soft v ⟨⟨ms', hv, hms'⟩, hholds⟩
        have hfail : failures (ms ++ ms') = first.toList := by
          rw [failures_append, hms, hms', List.append_nil]
        have hrest : ∀ notes, Exec.wp (runHooks hooks first notes)
            (fun r w' => Verdict w (hook :: hooks) first r.1 w') (Aborted w)
            (fun _ => False) v := by
          intro notes
          refine (ih first notes hsub' (hu.trans hv) hfail hfirst).mono ?_
            (fun _ _ h => h) fun _ h => h
          intro r w' h
          refine ⟨h.checks, h.kind, h.first, fun hnone hmem => ?_⟩
          rcases List.mem_cons.mp hmem with heq | hmem
          · rw [← hu.view, ← hu.invariants_eq]
            exact hholds heq.symm
          · exact h.holds hnone hmem
        cases soft with
        | none => exact hrest notes
        | some e => exact hrest (notes ++ [e])
      · rintro e v ⟨ms', hv, hms'⟩
        have hwv := hu.trans hv
        have hfail : failures (ms ++ ms') = first.toList := by
          rw [failures_append, hms, hms', List.append_nil]
        -- A failure is in the way of what `Verdict.holds` says.
        have hlate : ∀ f, ∀ r : Option (Exc ε) × List (Exc ε), ∀ w',
            Verdict w hooks (some f) r.1 w' →
            (∀ e, first = some e → f = e) →
            Verdict w (hook :: hooks) first r.1 w' := by
          intro f r w' h hf
          refine ⟨h.checks, h.kind, fun e he => ?_, fun hnone => ?_⟩
          · rw [h.first f rfl, hf e he]
          · rw [h.first f rfl] at hnone
            cases hnone
        simp only []
        split
        · next he =>
          cases first with
          | some f =>
              refine (ih (some f) _ hsub' hwv hfail hfirst).mono ?_
                (fun _ _ h => h) fun _ h => h
              intro r w' h
              exact hlate f r w' h fun e he => Option.some.inj he
          | none =>
              have hmark := hwv.trans (checkFailed_checks v e)
              simp only [Exec.wp_bind, Exec.wp_update]
              refine (ih (some e) _ hsub' hmark ?_ ?_).mono ?_
                (fun _ _ h => h) fun _ h => h
              · rw [failures_append, hfail]
                rfl
              · intro e' he'
                cases he'
                exact he
              · intro r w' h
                exact hlate e r w' h (by simp)
        · next he =>
          have hlength : (failures (ms ++ ms')).length ≤ 1 := by
            rw [hfail]
            cases first <;> simp
          split
          · next hint =>
            exact ⟨_, v, hwv, hlength, .inl ⟨hint, rfl⟩⟩
          · next hint =>
            refine ⟨_, v, hwv, hlength, .inr ⟨?_, rfl⟩⟩
            cases hk : e.kind with
            | exception => exact absurd hk he
            | interrupt => exact absurd hk hint
            | other => rfl

/-! ## The end of a step -/

omit [Raisable ε] in
theorem stepEnd_past (w : World ρ μ κ υ ε) :
    Past w [.stepEnd w.view] (w.mark (.stepEnd w.view)) :=
  .mark w (by simp) (by simp) rfl rfl

/-- Notes were put on exceptions. -/
def Annotated (w w' : World ρ μ κ υ ε) : Prop :=
  ∃ notes, w' = { w with notes := w.notes ++ notes }

omit [Raisable ε] in
theorem Annotated.refl (w : World ρ μ κ υ ε) : Annotated w w :=
  ⟨[], by simp⟩

omit [Raisable ε] in
theorem Annotated.trans {w w' w'' : World ρ μ κ υ ε} (h : Annotated w w')
    (h' : Annotated w' w'') : Annotated w w'' := by
  obtain ⟨notes, rfl⟩ := h
  obtain ⟨notes', rfl⟩ := h'
  exact ⟨notes ++ notes', by rw [List.append_assoc]⟩

omit [Raisable ε] in
theorem Annotated.past {w w' : World ρ μ κ υ ε} (h : Annotated w w') :
    Past w [] w' := by
  obtain ⟨notes, rfl⟩ := h
  exact .of_outcome (List.append_nil _).symm rfl (by simp) (by simp)
    (fun _ hn => List.mem_append_left _ hn) (List.append_nil _).symm rfl

/-- A note that cannot be put on an exception: what that raised. -/
def NoteRaised (w : World ρ μ κ υ ε) (e : Exc ε) (w' : World ρ μ κ υ ε) :
    Prop :=
  ∃ u, Annotated w u ∧ w' = u.mark (.noteRaised e)

theorem addStepNote_annotated (first note : Exc ε) (w : World ρ μ κ υ ε) :
    Exec.wp (addStepNote first note) (fun _ w' => Annotated w w')
      (NoteRaised w) (fun _ => False) w := by
  rw [addStepNote]
  split
  · exact ⟨_, rfl⟩
  · exact ⟨w, .refl w, rfl⟩
  · exact ⟨w, .refl w, rfl⟩

theorem addStepNotes_annotated (first : Exc ε) (notes : List (Exc ε))
    (w : World ρ μ κ υ ε) :
    Exec.wp (Exec.forEach (addStepNote first) notes)
      (fun _ w' => Annotated w w') (NoteRaised w) (fun _ => False) w := by
  refine Exec.wp_forEach (fun note _ u hu => ?_) (.refl w)
  refine (addStepNote_annotated first note u).mono
    (fun _ _ hv => hu.trans hv) ?_ fun _ h => h
  rintro e v ⟨u', hu', rfl⟩
  exact ⟨u', hu.trans hu', rfl⟩

/-! ## The notes of the drive -/

theorem Exc.describe_kind {e x : Exc ε} (h : e.describe = .error x) :
    x.kind ≠ .exception := by
  rw [Exc.describe] at h
  split at h
  · cases h
  · split at h
    · cases h
    · next hkind =>
      cases h
      exact hkind

/-- What gets out of a note of the drive. -/
structure Escapes (w : World ρ μ κ υ ε) (e : Exc ε) (w' : World ρ μ κ υ ε) :
    Prop where
  kind : e.kind ≠ .exception
  raised : NoteRaised w e w'

section

variable [DecidableEq ε]

theorem noteError_annotated (failure e : Exc ε) (w : World ρ μ κ υ ε) :
    Exec.wp (noteError failure e) (fun _ w' => Annotated w w') (Escapes w)
      (fun _ => False) w := by
  rw [noteError]
  split
  · rw [note, Exec.wp_look_apply]
    split
    · exact .refl w
    · split
      · exact ⟨_, rfl⟩
      · next x _ =>
        split
        · exact .refl w
        · next hkind => exact ⟨hkind, w, .refl w, rfl⟩
  · next x hx => exact ⟨Exc.describe_kind hx, w, .refl w, rfl⟩

theorem noteReplaced_annotated (failure : Option (Exc ε)) (e : Exc ε)
    (w : World ρ μ κ υ ε) :
    Exec.wp (noteReplaced failure e) (fun _ w' => Annotated w w') (Escapes w)
      (fun _ => False) w := by
  cases failure with
  | none => exact .refl w
  | some failure =>
      rw [noteReplaced]
      split
      · exact noteError_annotated e failure w
      · exact .refl w

theorem noteUnwound_annotated (failure : Option (Exc ε))
    (w : World ρ μ κ υ ε) :
    Exec.wp (noteUnwound failure) (fun _ w' => Annotated w w') (Escapes w)
      (fun _ => False) w := by
  rw [noteUnwound, Exec.wp_look_apply]
  split
  · split
    · exact noteError_annotated _ _ w
    · exact .refl w
  · exact .refl w

end

/-! ## The checks of a step -/

/-- How the checks at the end of a step fail. -/
inductive CheckFails (w : World ρ μ κ υ ε) (e : Exc ε)
    (w' : World ρ μ κ υ ε) : Prop
  | aborted (h : Aborted (w.mark (.stepEnd w.view)) e w')
  | failed (ms : List (Mark μ υ ε)) (u : World ρ μ κ υ ε)
      (hu : Checks (w.mark (.stepEnd w.view)) ms u) (hms : failures ms = [e])
      (hkind : e.kind = .exception) (hw' : Annotated u w')
  | noteRaised (ms : List (Mark μ υ ε)) (u : World ρ μ κ υ ε) (first : Exc ε)
      (hu : Checks (w.mark (.stepEnd w.view)) ms u)
      (hms : failures ms = [first]) (hw' : NoteRaised u e w')

theorem afterStep_checks (w : World ρ μ κ υ ε) :
    Exec.wp afterStep
      (fun _ w' => Looked (w.mark (.stepEnd w.view)) w' ∧
        (.checkInvariants ∈ w.hooks →
          ∀ p ∈ w.invariants, p.2 w.view = .holds))
      (CheckFails w) (fun _ => False) w := by
  rw [afterStep, Exec.wp_look_apply, Exec.wp_bind, Exec.wp_update]
  simp only [Exec.wp_bind]
  have hhooks := runHooks_verdict (w := w.mark (.stepEnd w.view)) w.hooks
    none [] (fun _ h => h) (.refl _) rfl (by simp)
  refine hhooks.mono ?_ (fun e u h => .aborted (w := w) h) fun _ h => h
  rintro ⟨first, notes⟩ u ⟨⟨ms, hu, hms⟩, hkind, -, hholds⟩
  cases first with
  | none => exact ⟨⟨ms, hu, hms⟩, hholds rfl⟩
  | some first =>
      simp only [Exec.wp_bind, Exec.wp_raise]
      refine (addStepNotes_annotated first notes u).mono ?_ ?_ fun _ h => h
      · exact fun _ v hv => .failed ms u hu hms (hkind first rfl) hv
      · exact fun e v hv => .noteRaised ms u first hu hms hv

/-- What the end of a step does to the watch. -/
inductive Counted (w : World ρ μ κ υ ε) : World ρ μ κ υ ε → Prop
  | idle (hwatch : w.watch = none) : Counted w w
  | waiting (fut : ℕ) (hwatch : w.watch = some fut) (hstop : w.stopIn = none)
      (hdone : w.done fut = false) : Counted w w
  | noticed (fut : ℕ) (hwatch : w.watch = some fut) (hstop : w.stopIn = none)
      (hdone : w.done fut = true) : Counted w { w with stopIn := some 2 }
  | counted (fut n : ℕ) (hwatch : w.watch = some fut)
      (hstop : w.stopIn = some n) (hn : n - 1 ≠ 0)
      (hsettle : ¬(n - 1 = 1 ∧ w.settle = true)) :
      Counted w { w with stopIn := some (n - 1) }
  | settled (fut n : ℕ) (hwatch : w.watch = some fut)
      (hstop : w.stopIn = some n) (hn : n - 1 = 1) (hsettle : w.settle = true) :
      Counted w (clearHooks { w with stopIn := some (n - 1) })
  | stopped (fut n : ℕ) (hwatch : w.watch = some fut)
      (hstop : w.stopIn = some n) (hn : n - 1 = 0) :
      Counted w (stopLoop { w with stopIn := some (n - 1) })

omit [Raisable ε] in
theorem countStop_counted (w : World ρ μ κ υ ε) : Counted w w.countStop := by
  rw [countStop]
  split
  · next hwatch => exact .idle hwatch
  · next fut hwatch =>
    split
    · next hstop =>
      split
      · next hdone => exact .noticed fut hwatch hstop hdone
      · next hdone =>
        exact .waiting fut hwatch hstop (Bool.eq_false_iff.mpr hdone)
    · next n hstop =>
      simp only []
      by_cases hzero : n - 1 = 0
      · rw [if_pos hzero, if_neg (by omega)]
        exact .stopped fut n hwatch hstop hzero
      · rw [if_neg hzero]
        split
        · next h => exact .settled fut n hwatch hstop h.1 h.2
        · next h => exact .counted fut n hwatch hstop hzero h

omit [Raisable ε] in
theorem clearHooks_past (w : World ρ μ κ υ ε) :
    Past w [.cleared] w.clearHooks :=
  .of_outcome rfl rfl (by simp) (by simp [clearHooks, mark])
    (fun _ hn => hn) (List.append_nil _).symm rfl

omit [Raisable ε] in
theorem Counted.past {w w' : World ρ μ κ υ ε} (h : Counted w w') :
    ∃ ms, Past w ms w' ∧ ∀ m ∈ ms, m = .cleared := by
  cases h with
  | idle | waiting => exact ⟨[], .refl w, by simp⟩
  | noticed | counted | stopped => exact ⟨[], .of_memory rfl, by simp⟩
  | settled fut n _ _ hn _ =>
      have hcount : Past w [] { w with stopIn := some (n - 1) } :=
        .of_memory rfl
      exact ⟨_, hcount.trans (clearHooks_past _), by simp⟩

omit [Raisable ε] in
theorem Counted.settings {w w' : World ρ μ κ υ ε} (h : Counted w w') :
    w'.settings = { w.settings with stopIn := w'.stopIn } := by
  cases h <;> rfl

/-! ## The whole step -/

/-- A step has begun, and its batch has not. -/
structure Begun (w w' : World ρ μ κ υ ε) : Prop where
  past : Past w [.stepBegin] w'
  settings : w'.settings = { w.settings with
    steps := w.steps + 1
    stepsLeft := w.stepsLeft.map (· - 1) }
  allowed : w.stepsLeft ≠ some 0
  hooks : w'.hooks = w.hooks
  stopping : w'.net.loop.stopping = w.net.loop.stopping

/-- A step that raises nothing. -/
def Stepped (w w' : World ρ μ κ υ ε) : Prop :=
  ∃ b ms v x, Begun w b ∧ Turn b ms v ∧
    Looked (v.mark (.stepEnd v.view)) x ∧
    (.checkInvariants ∈ v.hooks → ∀ p ∈ v.invariants, p.2 v.view = .holds) ∧
    w' = x.countStop

/-- How a step raises. -/
inductive StepRaises (w : World ρ μ κ υ ε) (e : Exc ε)
    (w' : World ρ μ κ υ ε) : Prop
  | limit (hleft : w.stepsLeft = some 0)
      (he : e = .sys w.steps w.makeStepError) (hw' : Past w [.failed e] w')
      (hsettings : w'.settings = { w.settings with steps := w.steps + 1 })
  | deadlock (b : World ρ μ κ υ ε) (blocked : List ℕ) (hb : Begun w b)
      (he : e = .sys b.steps (.deadlock blocked))
      (hw' : w' = b.mark (.failed e))
  | interrupted (b : World ρ μ κ υ ε) (hb : Begun w b)
      (hw' : Interrupted b e w')
  | checks (b : World ρ μ κ υ ε) (ms : List (Mark μ υ ε))
      (v : World ρ μ κ υ ε) (hb : Begun w b) (hv : Turn b ms v)
      (hw' : CheckFails v e w')

variable [Random ρ]

theorem runOnce_steps (w : World ρ μ κ υ ε) :
    Exec.wp runOnce (fun _ w' => Stepped w w') (StepRaises w)
      (fun _ => False) w := by
  have hbegin : ∀ b : World ρ μ κ υ ε, Begun w b → Exec.wp (do
      takeTurns
      afterStep
      Exec.update countStop) (fun _ w' => Stepped w w') (StepRaises w)
      (fun _ => False) b := by
    intro b hb
    simp only [Exec.wp_bind, Exec.wp_update]
    refine (takeTurns_turn b).mono ?_
      (fun e v h => .interrupted b hb h) fun _ h => h
    rintro _ v ⟨ms, hv⟩
    refine (afterStep_checks v).mono ?_
      (fun e x h => .checks b ms v hb hv h) fun _ h => h
    rintro _ x ⟨hx, hholds⟩
    exact ⟨b, ms, v, x, hb, hv, hx, hholds, rfl⟩
  have hloop : ∀ t : World ρ μ κ υ ε, Begun w t → Exec.wp (do
      beginStep
      takeTurns
      afterStep
      Exec.update countStop) (fun _ w' => Stepped w w') (StepRaises w)
      (fun _ => False) t := by
    intro t ht
    rw [Exec.wp_bind, beginStep, Exec.wp_look_apply]
    have hstop := t.net.loop.beginStep_stopping t.stopIn.isSome
    generalize t.net.loop.beginStep t.stopIn.isSome = r at hstop
    obtain ⟨loop, deadlock⟩ := r
    have hb : Begun w { t with net := { t.net with loop := loop } } := by
      have hnet : Past t [] { t with net := { t.net with loop := loop } } :=
        .of_memory rfl
      exact ⟨ht.past.trans hnet, ht.settings, ht.allowed, ht.hooks,
        hstop.trans ht.stopping⟩
    rw [Exec.wp_bind, Exec.wp_update]
    simp only []
    split
    · exact .deadlock _ _ hb rfl rfl
    · exact hbegin _ hb
  rw [runOnce, Exec.wp_bind, takeStep, Exec.wp_look_apply, Exec.wp_bind,
    Exec.wp_update]
  have hmark : ∀ t : World ρ μ κ υ ε, t.memory = w.memory →
      Past w [.stepBegin] (t.mark .stepBegin) := fun t ht =>
    (Past.of_memory ht).trans (.mark t (by simp) (by simp) rfl rfl)
  simp only []
  split
  · next hleft =>
    refine hloop _ ⟨hmark _ rfl, ?_, by simp [hleft], rfl, rfl⟩
    simp only [settings, mark, hleft]
    rfl
  · next hleft =>
    have hcount : Past w [] { w with steps := w.steps + 1 } := .of_memory rfl
    exact .limit hleft rfl (hcount.trans (.mark _ (by simp) (by simp) rfl rfl)) rfl
  · next n hleft =>
    refine hloop _ ⟨hmark { w with
      steps := w.steps + 1, stepsLeft := some n } rfl, ?_, by simp [hleft],
      rfl, rfl⟩
    simp only [settings, mark, hleft]
    rfl

end World

end Seedloop
