import Seedloop.Proofs.Course

/-!
# What is in flight

The drive runs three things that can raise: the scenario, the settling of its
task, and the teardown. The rest is what it makes of what they raise. What is
in flight when the teardown begins is `Surfaced`, and `TornDown` says what
becomes of it. Together with the notes that are left, that is all there is to
know about what a drive raises, and `drive_course` puts it together.

Putting a note on something can itself raise. An `Exception` is dropped; anything
else is a `Slip`, and goes ahead of what is in flight.
-/

namespace Seedloop

/-- How the log says that the scenario's run was ended by `e`. -/
inductive Ended {μ υ ε : Type} [Raisable ε] (e : Exc ε) :
    List (Mark μ υ ε) → Prop
  | alarm (as : List (Mark μ υ ε)) (h : Alarm e as) : Ended e as
  | stopped (n : ℕ) (he : e = .sys n .loopStopped) : Ended e [.failed e]

/-- The mark where the teardown begins. -/
def Mark.begins {μ υ ε : Type} : Mark μ υ ε → Bool
  | .tearingDown _ _ => true
  | _ => false

/-- What the teardown begins with. -/
def Mark.teardown? {μ υ ε : Type} :
    Mark μ υ ε → Option (Option (Exc ε) × List ℕ)
  | .tearingDown failure pending => some (failure, pending)
  | _ => none

theorem begins_of_calm {μ υ ε : Type} {ms : List (Mark μ υ ε)}
    (h : ∀ m ∈ ms, m.calm = true) : ∀ m ∈ ms, m.begins = false := by
  intro m hm
  have hm := h m hm
  cases m with
  | tearingDown => cases hm
  | _ => rfl

theorem Monitor.run_tearing {μ υ ε : Type} {ms : List (Mark μ υ ε)}
    {m m' : Monitor} (h : Machine.run Monitor.step m ms = some m')
    (hms : ∀ x ∈ ms, x.begins = false) : m'.tearing = m.tearing := by
  induction ms generalizing m with
  | nil =>
      cases h
      rfl
  | cons x ms ih =>
      obtain ⟨u, hu, hrun⟩ := Machine.run_cons_eq_some.mp h
      have hx := hms x List.mem_cons_self
      refine (ih hrun fun y hy => hms y (List.mem_cons_of_mem _ hy)).trans ?_
      cases x with
      | tearingDown => cases hx
      | always | installed =>
          simp only [Monitor.step] at hu
          split at hu
          · cases hu
          · cases hu
            rfl
      | evaluated =>
          simp only [Monitor.step] at hu
          split at hu
          · cases hu
            rfl
          · cases hu
      | _ =>
          cases hu
          rfl

section

variable {μ υ ε : Type} [Raisable ε]

theorem Alarm.begins {e : Exc ε} {as : List (Mark μ υ ε)} (h : Alarm e as) :
    ∀ m ∈ as, m.begins = false := by
  cases h with
  | failed | interrupt => simp [Mark.begins]
  | check post hpost =>
      refine List.forall_mem_cons.mpr ⟨rfl, ?_⟩
      exact begins_of_calm (World.calm_of_isEvaluated hpost)
  | instead f post m hpost hm =>
      refine List.forall_mem_cons.mpr ⟨rfl, List.forall_mem_append.mpr
        ⟨begins_of_calm (World.calm_of_isEvaluated hpost), ?_⟩⟩
      intro m' hm'
      rw [List.mem_singleton] at hm'
      rcases hm with ⟨rfl, -⟩ | ⟨rfl, -⟩ <;> rw [hm'] <;> rfl
  | note f post gs hpost =>
      refine List.forall_mem_cons.mpr ⟨rfl, List.forall_mem_append.mpr
        ⟨begins_of_calm (World.calm_of_isEvaluated hpost), ?_⟩⟩
      exact List.forall_mem_map.mpr fun _ _ => rfl

theorem Ended.begins {e : Exc ε} {as : List (Mark μ υ ε)} (h : Ended e as) :
    ∀ m ∈ as, m.begins = false := by
  cases h with
  | alarm as h => exact h.begins
  | stopped n he => simp [Mark.begins]

theorem Subsided.begins {ms : List (Mark μ υ ε)} (h : Subsided ms) :
    ∀ m ∈ ms, m.begins = false := by
  induction h with
  | calm ms hcalm => exact begins_of_calm hcalm
  | taken ms as e _ halarm _ ih =>
      exact List.forall_mem_append.mpr ⟨ih, halarm.begins⟩
  | append ms ms' _ _ ih ih' => exact List.forall_mem_append.mpr ⟨ih, ih'⟩

end

namespace World

variable {ρ μ κ υ ε : Type}

theorem Past.tearingDown {w w' : World ρ μ κ υ ε} {ms : List (Mark μ υ ε)}
    (h : Past w ms w') (hms : ∀ m ∈ ms, m.begins = false) :
    w'.tearingDown = w.tearingDown :=
  Monitor.run_tearing h.monitor hms

variable [Raisable ε]

/-- Among the notes of `failure` is the one about `e`, if it accepts notes. -/
def Noted (w : World ρ μ κ υ ε) (failure e : Exc ε) : Prop :=
  failure.addNote = .ok () →
    ∃ text, e.describe = .ok text ∧ (failure, text) ∈ w.notes

theorem Noted.past {w w' : World ρ μ κ υ ε} {ms : List (Mark μ υ ε)}
    {failure e : Exc ε} (h : Noted w failure e) (hpast : Past w ms w') :
    Noted w' failure e := by
  intro hok
  obtain ⟨text, htext, hnoted⟩ := h hok
  exact ⟨text, htext, hpast.notes _ hnoted⟩

/-- It is no `Exception`, came of putting a note on something, and is the last
that happened. -/
structure Slip (e : Exc ε) (ms : List (Mark μ υ ε)) : Prop where
  kind : e.kind ≠ .exception
  last : ∃ init, ms = init ++ [.noteRaised e]

theorem Slip.append {e : Exc ε} {ms : List (Mark μ υ ε)} (h : Slip e ms)
    (pre : List (Mark μ υ ε)) : Slip e (pre ++ ms) := by
  obtain ⟨init, rfl⟩ := h.last
  exact ⟨h.kind, pre ++ init, (List.append_assoc _ _ _).symm⟩

theorem Slip.mem {e : Exc ε} {ms : List (Mark μ υ ε)} (h : Slip e ms) :
    .noteRaised e ∈ ms := by
  obtain ⟨init, rfl⟩ := h.last
  simp

/-- It comes after every other mark that is not one of what follows. -/
theorem Slip.after {e : Exc ε} {ms rest pre post : List (Mark μ υ ε)}
    {m : Mark μ υ ε} (h : Slip e ms) (hlog : ms ++ rest = pre ++ m :: post)
    (hrest : m ∉ rest) (hm : m ≠ .noteRaised e) : .noteRaised e ∈ post := by
  obtain ⟨init, rfl⟩ := h.last
  rw [List.append_assoc, List.singleton_append] at hlog
  rcases List.append_eq_append_iff.mp hlog with ⟨as, -, has⟩ | ⟨as, -, has⟩
  · rcases List.cons_eq_append_iff.mp has with ⟨-, has⟩ | ⟨as', -, has⟩
    · exact absurd (List.cons.inj has).1 hm
    · rw [has] at hrest
      simp at hrest
  · rcases List.cons_eq_append_iff.mp has with ⟨-, has⟩ | ⟨as', -, has⟩
    · exact absurd (List.cons.inj has).1.symm hm
    · rw [has]
      simp

/-- A part of a run that ends so. -/
structure Slips (w : World ρ μ κ υ ε) (e : Exc ε) (ms : List (Mark μ υ ε))
    (w' : World ρ μ κ υ ε) : Prop where
  past : Past w ms w'
  begins : ∀ m ∈ ms, m.begins = false
  slip : Slip e ms

theorem Slips.of_escapes {w w' w'' : World ρ μ κ υ ε} {ms : List (Mark μ υ ε)}
    {e : Exc ε} (h : Past w ms w') (hms : ∀ m ∈ ms, m.begins = false)
    (h' : Escapes w' e w'') : Slips w e (ms ++ [.noteRaised e]) w'' := by
  obtain ⟨hkind, u, hu, rfl⟩ := h'
  refine ⟨?_, List.forall_mem_append.mpr ⟨hms, by simp [Mark.begins]⟩,
    hkind, ms, rfl⟩
  exact h.trans (hu.past.trans (.mark u (by simp) (by simp) rfl rfl))

theorem Slips.annotated {w w' w'' : World ρ μ κ υ ε} {ms : List (Mark μ υ ε)}
    {e : Exc ε} (h : Slips w e ms w') (h' : Annotated w' w'') :
    Slips w e ms w'' := by
  have := h.past.trans h'.past
  rw [List.append_nil] at this
  exact ⟨this, h.begins, h.slip⟩

theorem Slips.escapes {w w' w'' : World ρ μ κ υ ε} {ms : List (Mark μ υ ε)}
    {e e' : Exc ε} (h : Slips w e ms w') (h' : Escapes w' e' w'') :
    Slips w e' (ms ++ [.noteRaised e']) w'' :=
  .of_escapes h.past h.begins h'

/-- So it is the last of all marks when it comes of the settling. -/
theorem Slips.settled {w w' : World ρ μ κ υ ε} {ms : List (Mark μ υ ε)}
    {e : Exc ε} (h : Slips w e ms w') (run : List (Mark μ υ ε)) (f : Exc ε) :
    Slip e (run ++ .settling (some f) :: .cleared :: ms) := by
  rw [List.append_cons, List.append_cons _ Mark.cleared]
  exact h.slip.append _

variable [DecidableEq ε]

/-- A note is put, cannot be put, or something gets out of that. -/
theorem noteError_noted (failure e : Exc ε) (w : World ρ μ κ υ ε) :
    Exec.wp (noteError failure e)
      (fun _ w' => Annotated w w' ∧ Noted w' failure e) (Escapes w)
      (fun _ => False) w := by
  have hnoted : Exec.wp (noteError failure e)
      (fun _ w' => Noted w' failure e) (fun _ _ => True) (fun _ => True) w := by
    rw [noteError]
    split
    · next text htext =>
      rw [note, Exec.wp_look_apply]
      split
      · next hmem => exact fun _ => ⟨text, htext, hmem⟩
      · split
        · exact fun _ => ⟨text, htext, List.mem_append_right _ (by simp)⟩
        · next x hx =>
          split
          · intro hok
            rw [hx] at hok
            cases hok
          · trivial
    · trivial
  exact ((noteError_annotated failure e w).and hnoted).mono (fun _ _ h => h)
    (fun _ _ h => h.1) fun _ h => h.1

theorem noteReplaced_noted (failure : Option (Exc ε)) (e : Exc ε)
    (w : World ρ μ κ υ ε) :
    Exec.wp (noteReplaced failure e)
      (fun _ w' => Annotated w w' ∧ ∀ f, failure = some f → e ≠ f →
        Noted w' e f) (Escapes w) (fun _ => False) w := by
  cases failure with
  | none => exact ⟨.refl w, by simp⟩
  | some f =>
      rw [noteReplaced]
      split
      · refine (noteError_noted e f w).mono ?_ (fun _ _ h => h) fun _ h => h
        rintro _ w' ⟨hw', hnoted⟩
        refine ⟨hw', fun f' hf' _ => ?_⟩
        cases hf'
        exact hnoted
      · next heq =>
        refine ⟨.refl w, fun f' hf' hne => ?_⟩
        cases hf'
        exact absurd hne heq

/-- What an error that does not replace the one in flight leaves: marks that are
all like `P`, but for those of the error itself. -/
inductive Minor (P : List (Mark μ υ ε) → Prop) (w : World ρ μ κ υ ε) :
    Option (Exc ε) → List (Mark μ υ ε) → Prop
  | none (failure : Option (Exc ε)) (ms : List (Mark μ υ ε)) (hms : P ms) :
      Minor P w failure ms
  | noted (failure e : Exc ε) (ms as : List (Mark μ υ ε)) (hms : P ms)
      (halarm : Alarm e as) (hkind : e.kind = .exception)
      (hnote : Noted w failure e) : Minor P w (some failure) (ms ++ as)

section

variable {P Q : List (Mark μ υ ε) → Prop}

omit [DecidableEq ε] in
theorem Minor.mono {w : World ρ μ κ υ ε} {failure : Option (Exc ε)}
    {ms : List (Mark μ υ ε)} (h : Minor P w failure ms)
    (hPQ : ∀ ms, P ms → Q ms) : Minor Q w failure ms := by
  cases h with
  | none _ _ hms => exact .none _ _ (hPQ _ hms)
  | noted f e ms as hms halarm hkind hnote =>
      exact .noted f e ms as (hPQ _ hms) halarm hkind hnote

omit [DecidableEq ε] in
theorem Minor.past {w w' : World ρ μ κ υ ε} {failure : Option (Exc ε)}
    {ms ms' : List (Mark μ υ ε)} (h : Minor P w failure ms)
    (hpast : Past w ms' w') : Minor P w' failure ms := by
  cases h with
  | none _ _ hms => exact .none _ _ hms
  | noted f e ms as hms halarm hkind hnote =>
      exact .noted f e ms as hms halarm hkind (hnote.past hpast)

omit [DecidableEq ε] in
theorem Minor.begins {w : World ρ μ κ υ ε} {failure : Option (Exc ε)}
    {ms : List (Mark μ υ ε)} (h : Minor Subsided w failure ms) :
    ∀ m ∈ ms, m.begins = false := by
  cases h with
  | none _ _ hms => exact hms.begins
  | noted f e ms as hms halarm hkind hnote =>
      exact List.forall_mem_append.mpr ⟨hms.begins, halarm.begins⟩

/-- What gets past `_secondary`. -/
structure Replaces (w : World ρ μ κ υ ε) (failure : Option (Exc ε))
    (e : Exc ε) (ms as : List (Mark μ υ ε)) (w' : World ρ μ κ υ ε) : Prop where
  past : Past w (ms ++ as) w'
  subsided : Subsided ms
  alarm : Alarm e as
  kind : failure = none ∨ e.kind ≠ .exception

theorem secondary_minor (failure : Option (Exc ε)) {x : Run ρ μ κ υ ε Unit}
    {w : World ρ μ κ υ ε} {cut : World ρ μ κ υ ε → Prop}
    (hP : ∀ ms, P ms → Subsided ms)
    (h : Exec.wp x (fun _ w' => ∃ ms, Past w ms w' ∧ P ms)
      (fun e w' => ∃ ms as, Past w (ms ++ as) w' ∧ P ms ∧ Alarm e as) cut w) :
    Exec.wp (secondary failure x)
      (fun _ w' => ∃ ms, Past w ms w' ∧ Minor P w' failure ms)
      (fun e w' => (∃ ms as, Replaces w failure e ms as w') ∨
        ∃ ms, failure.isSome = true ∧ Slips w e ms w') cut w := by
  rw [secondary, Exec.wp_bind, Exec.wp_attempt]
  refine h.mono ?_ ?_ fun _ h => h
  · rintro _ w' ⟨ms, hpast, hms⟩
    exact ⟨ms, hpast, .none _ _ hms⟩
  · rintro e w' ⟨ms, as, hpast, hms, halarm⟩
    simp only []
    split
    · next hkind =>
      cases failure with
      | none => exact .inl ⟨ms, as, hpast, hP ms hms, halarm, .inl rfl⟩
      | some failure =>
          have hbegins := List.forall_mem_append.mpr
            ⟨(hP ms hms).begins, halarm.begins⟩
          refine (noteError_noted failure e w').mono ?_ ?_ fun _ h => h.elim
          · rintro _ v ⟨hv, hnoted⟩
            have := hpast.trans hv.past
            rw [List.append_nil] at this
            exact ⟨_, this, .noted failure e ms as hms halarm hkind hnoted⟩
          · intro x v hv
            exact .inr ⟨_, rfl, .of_escapes hpast hbegins hv⟩
    · next hkind => exact .inl ⟨ms, as, hpast, hP ms hms, halarm, .inr hkind⟩

end

/-- What was in flight is noted on what takes its place, as far as it can be. -/
theorem noteReplaced_replaces {v t : World ρ μ κ υ ε} {f e : Exc ε}
    (h : (∃ ms as, Replaces v (some f) e ms as t) ∨ ∃ ms, Slips v e ms t) :
    Exec.wp (noteReplaced (some f) e)
      (fun _ u => (∃ ms as t, Replaces v (some f) e ms as t ∧ Past t [] u ∧
          (e ≠ f → Noted u e f)) ∨ ∃ ms, Slips v e ms u)
      (fun x u => ∃ ms, Slips v x ms u) (fun _ => False) t := by
  rcases h with ⟨ms, as, ht⟩ | ⟨ms, ht⟩
  · have hbegins := List.forall_mem_append.mpr
      ⟨ht.subsided.begins, ht.alarm.begins⟩
    refine (noteReplaced_noted (some f) e t).mono ?_ ?_ fun _ h => h
    · rintro _ u ⟨hu, hnoted⟩
      exact .inl ⟨ms, as, t, ht, hu.past, hnoted f rfl⟩
    · exact fun x u hu => ⟨_, .of_escapes ht.past hbegins hu⟩
  · refine (noteReplaced_annotated (some f) e t).mono ?_ ?_ fun _ h => h
    · exact fun _ u hu => .inr ⟨ms, ht.annotated hu⟩
    · exact fun x u hu => ⟨_, ht.escapes hu⟩

omit [Raisable ε] [DecidableEq ε] in
theorem exception?_eq_some {w : World ρ μ κ υ ε} {task : ℕ} {e : Exc ε} :
    w.exception? task = some e ↔ w.outcome? task = some (.raised e) := by
  rw [exception?, outcome?]
  cases w.tasks[task]? with
  | none => simp
  | some t =>
      obtain ⟨seq, outcome, onCancel⟩ := t
      cases outcome with
      | none => simp
      | some o => cases o <;> simp

variable [Random ρ]

/-! ## The scenario -/

/-- How the scenario was run. -/
inductive Ran (w v : World ρ μ κ υ ε) : Except (Exc ε) Unit → Prop
  | ok (ms : List (Mark μ υ ε)) (hv : Calm w ms v)
      (hdone : v.done mainTask = true) (hcleared : .cleared ∈ ms) :
      Ran w v (.ok ())
  | error (f : Exc ε) (ms as : List (Mark μ υ ε)) (hv : Past w (ms ++ as) v)
      (hcalm : ∀ m ∈ ms, m.calm = true) (hended : Ended f as) :
      Ran w v (.error f)

omit [DecidableEq ε] in
theorem runScenario_ran (w : World ρ μ κ υ ε) :
    Exec.wp runScenario (fun _ v => Ran w v (.ok ()))
      (fun f v => Ran w v (.error f)) (fun v => ∃ ms, Calm w ms v) w := by
  rw [runScenario, Exec.wp_bind]
  refine (runUntilDone_clears _ w).mono ?_ ?_ fun _ h => h
  · rintro _ t ⟨ms, ht, hcleared⟩
    rw [Exec.wp_look_apply]
    split
    · next hdone => exact .ok ms ht hdone (hcleared hdone)
    · exact .error _ ms _ (ht.past.trans (.mark t (by simp) (by simp) rfl rfl))
        ht.calm (.stopped _ rfl)
  · rintro f t ⟨ms, as, hpast, hcalm, halarm⟩
    exact .error f ms as hpast hcalm (.alarm as halarm)

/-! ## Settling -/

/-- The scenario's task has settled, with `f` in flight. -/
structure Settled (w : World ρ μ κ υ ε) (f : Exc ε) (ms : List (Mark μ υ ε))
    (w' : World ρ μ κ υ ε) : Prop where
  past : Past w (.settling (some f) :: .cleared :: ms) w'
  minor : Minor (fun ms => ∀ m ∈ ms, m.calm = true) w' (some f) ms
  unwound : ∀ e, .finished mainTask (.raised e) ∈ ms → e ≠ f → Noted w' f e

omit [DecidableEq ε] [Random ρ] in
theorem Settled.subsided {w w' : World ρ μ κ υ ε} {f : Exc ε}
    {ms : List (Mark μ υ ε)} (h : Settled w f ms w') :
    Minor Subsided w' (some f) ms :=
  h.minor.mono fun ms hms => .calm ms hms

omit [Raisable ε] [DecidableEq ε] [Random ρ] in
theorem beginSettle_past (w : World ρ μ κ υ ε) (f : Exc ε) :
    Past w [.settling (some f), .cleared]
      ((w.limitTeardownSteps 0).mark (.settling (some f))).clearHooks := by
  have hlimit : Past w [] (w.limitTeardownSteps 0) := .of_memory rfl
  have hmark : Past (w.limitTeardownSteps 0) [.settling (some f)]
      ((w.limitTeardownSteps 0).mark (.settling (some f))) :=
    .mark _ (by simp) (by simp) rfl rfl
  exact (hlimit.trans hmark).trans (clearHooks_past _)

omit [Random ρ] in
/-- The scenario's task, unwound, and what it raised on the way. -/
theorem noteUnwound_settled {w b t : World ρ μ κ υ ε} {f : Exc ε}
    {ms : List (Mark μ υ ε)}
    (hb : Past w [.settling (some f), .cleared] b) (ht : Past b ms t)
    (hminor : Minor (fun ms => ∀ m ∈ ms, m.calm = true) t (some f) ms) :
    Exec.wp (noteUnwound (some f)) (fun _ w' => Settled w f ms w') (Escapes t)
      (fun _ => False) t := by
  have hpast := hb.trans ht
  rw [noteUnwound, Exec.wp_look_apply]
  cases hexc : t.exception? mainTask with
  | none =>
      refine ⟨hpast, hminor, fun e he => ?_⟩
      have := ((ht.finished _ _).mp he).2
      rw [← exception?_eq_some, hexc] at this
      cases this
  | some e =>
      have hunwound : ∀ e', .finished mainTask (.raised e') ∈ ms → e' = e := by
        intro e' he'
        have := ((ht.finished _ _).mp he').2
        rw [← exception?_eq_some, hexc] at this
        exact (Option.some.inj this).symm
      simp only []
      split
      · refine (noteError_noted f e t).mono ?_ (fun _ _ h => h) fun _ h => h
        rintro _ w' ⟨hw', hnoted⟩
        have hall := hpast.trans hw'.past
        rw [List.append_nil] at hall
        refine ⟨hall, hminor.past hw'.past, fun e' he' _ => ?_⟩
        rw [hunwound e' he']
        exact hnoted
      · next heq =>
        refine ⟨hpast, hminor, fun e' he' hne => absurd ?_ hne⟩
        rw [hunwound e' he']
        exact not_not.mp heq

theorem settleScenario_settled (f : Exc ε) (w : World ρ μ κ υ ε) :
    Exec.wp (settleScenario (some f))
      (fun _ w' => ∃ ms, Settled w f ms w')
      (fun e w' => ∃ b, Past w [.settling (some f), .cleared] b ∧
        ((∃ ms as, Replaces b (some f) e ms as w') ∨ ∃ ms, Slips b e ms w'))
      (fun w' => ∃ ms, Past w ms w' ∧ ∀ m ∈ ms, m.begins = false) w := by
  have hbegin := beginSettle_past w f
  rw [settleScenario]
  simp only [Option.isSome_some, if_true, Exec.wp_bind, Exec.wp_update,
    Exec.wp_look]
  generalize ((w.limitTeardownSteps 0).mark (.settling (some f))).clearHooks
    = b at hbegin
  have hsub : ∀ ms : List (Mark μ υ ε), (∀ m ∈ ms, m.calm = true) →
      Subsided ms := fun ms hms => .calm ms hms
  have hcut : ∀ b' t, Past w [.settling (some f), .cleared] b' → Lasts b' t →
      ∃ ms, Past w ms t ∧ ∀ m ∈ ms, m.begins = false := by
    rintro b' t hb' ⟨ms, ht, hms⟩
    refine ⟨_, hb'.trans ht, List.forall_mem_append.mpr ⟨?_, hms.begins⟩⟩
    simp [Mark.begins]
  split
  · simp only [Exec.wp_bind, Exec.wp_update]
    have hcancel := (cancelTask_turn b mainTask).past
    have hb' := hbegin.trans hcancel
    rw [List.append_nil] at hb'
    generalize b.cancelTask mainTask = b' at hcancel hb'
    have hloop : Goes (Exec.look fun w => Exec.whileDo
        (fun w => !w.done mainTask) (runUntilDone mainTask false) w.fuel)
        b' := by
      rw [Goes, Exec.wp_look_apply]
      refine Exec.wp_whileDo (I := fun _ t => ∃ ms, Calm b' ms t)
        (fun k s hs _ => ?_) (fun _ hs _ => hs) (fun _ _ hs _ => hs) _
        ⟨[], .refl b'⟩
      obtain ⟨ms, hs⟩ := hs
      exact Goes.after hs (runUntilDone_goes _ _ s)
    refine (secondary_minor (some f) hsub hloop.split).mono ?_ ?_ ?_
    · rintro _ t ⟨ms, ht, hminor⟩
      refine (noteUnwound_settled hb' ht hminor).mono ?_ ?_ fun _ h => h.elim
      · exact fun _ w' hw' => ⟨ms, hw'⟩
      · intro e w' hw'
        exact ⟨b', hb', .inr ⟨_, .of_escapes ht
          (hminor.mono hsub).begins hw'⟩⟩
    · rintro e t (⟨ms, as, ht⟩ | ⟨ms, -, ht⟩)
      · exact ⟨b', hb', .inl ⟨ms, as, ht⟩⟩
      · exact ⟨b', hb', .inr ⟨ms, ht⟩⟩
    · rintro t ⟨ms, ht⟩
      exact hcut _ _ hb' ht.lasts
  · next hdone =>
    refine (secondary_minor (some f) hsub
      (runOneMoreStep_goes _ b).split).mono ?_ ?_ ?_
    · rintro _ t ⟨ms, ht, hminor⟩
      refine ⟨ms, hbegin.trans ht, hminor, fun e he => ?_⟩
      have hnone := ((ht.finished _ _).mp he).1
      rw [done_eq, hnone] at hdone
      exact absurd rfl hdone
    · rintro e t (⟨ms, as, ht⟩ | ⟨ms, -, ht⟩)
      · exact ⟨b, hbegin, .inl ⟨ms, as, ht⟩⟩
      · exact ⟨b, hbegin, .inr ⟨ms, ht⟩⟩
    · rintro t ⟨ms, ht⟩
      exact hcut _ _ hbegin ht.lasts

/-! ## What surfaces -/

/-- What a run has in flight that nothing has ended early. -/
inductive Own (w : World ρ μ κ υ ε) : Option (Exc ε) → Prop
  | raised (e : Exc ε) (hmain : w.outcome? mainTask = some (.raised e)) :
      Own w (some e)
  | cancelled (hmain : w.outcome? mainTask = some .cancelled) :
      Own w (some cancelledError)
  | node (e : Exc ε) (task : ℕ) (hmain : w.outcome? mainTask = some .returned)
      (hstarted : task ∈ w.started)
      (hnode : w.outcome? task = some (.raised e)) : Own w (some e)
  | passed (hmain : w.outcome? mainTask = some .returned)
      (hnodes : ∀ task ∈ w.started, ∀ e, w.outcome? task ≠ some (.raised e)) :
      Own w none

/-- What is in flight when the teardown begins, with what the log says of
it. -/
inductive Surfaced (w : World ρ μ κ υ ε) :
    Option (Exc ε) → List (Mark μ υ ε) → World ρ μ κ υ ε → Prop
  | own (failure : Option (Exc ε)) (ms : List (Mark μ υ ε))
      (u : World ρ μ κ υ ε) (hu : Past w (ms ++ [.settling none]) u)
      (hcalm : ∀ m ∈ ms, m.calm = true) (hcleared : .cleared ∈ ms)
      (hown : Own u failure) :
      Surfaced w failure (ms ++ [.settling none]) u
  | kept (f : Exc ε) (ms as : List (Mark μ υ ε)) (v : World ρ μ κ υ ε)
      (ms' : List (Mark μ υ ε)) (u : World ρ μ κ υ ε)
      (hv : Past w (ms ++ as) v) (hcalm : ∀ m ∈ ms, m.calm = true)
      (hended : Ended f as) (hsettled : Settled v f ms' u) :
      Surfaced w (some f) (ms ++ as ++ .settling (some f) :: .cleared :: ms') u
  | replaced (f e : Exc ε) (ms as : List (Mark μ υ ε)) (v b : World ρ μ κ υ ε)
      (ms' as' : List (Mark μ υ ε)) (t u : World ρ μ κ υ ε)
      (hv : Past w (ms ++ as) v) (hcalm : ∀ m ∈ ms, m.calm = true)
      (hended : Ended f as) (hb : Past v [.settling (some f), .cleared] b)
      (ht : Replaces b (some f) e ms' as' t) (hu : Past t [] u)
      (hnote : e ≠ f → Noted u e f) :
      Surfaced w (some e)
        (ms ++ as ++ .settling (some f) :: .cleared :: (ms' ++ as')) u
  | slipped (f g e : Exc ε) (ms as : List (Mark μ υ ε))
      (v b : World ρ μ κ υ ε) (ms' : List (Mark μ υ ε)) (u : World ρ μ κ υ ε)
      (hv : Past w (ms ++ as) v) (hcalm : ∀ m ∈ ms, m.calm = true)
      (hended : Ended f as) (hb : Past v [.settling (some f), .cleared] b)
      (hu : Slips b e ms' u) (hg : g = f ∨ g = e) :
      Surfaced w (some g)
        (ms ++ as ++ .settling (some f) :: .cleared :: ms') u

omit [DecidableEq ε] [Random ρ] in
theorem Surfaced.past {w u : World ρ μ κ υ ε} {failure : Option (Exc ε)}
    {ms : List (Mark μ υ ε)} (h : Surfaced w failure ms u) : Past w ms u := by
  cases h with
  | own _ ms _ hu hcalm hcleared hown => exact hu
  | kept f ms as v ms' _ hv hcalm hended hsettled => exact hv.trans hsettled.past
  | replaced f e ms as v b ms' as' t _ hv hcalm hended hb ht hu hnote =>
      have := hv.trans ((hb.trans ht.past).trans hu)
      rwa [List.append_nil] at this
  | slipped f g e ms as v b ms' _ hv hcalm hended hb hu hg =>
      exact hv.trans (hb.trans hu.past)

omit [DecidableEq ε] [Random ρ] in
theorem Surfaced.begins {w u : World ρ μ κ υ ε} {failure : Option (Exc ε)}
    {ms : List (Mark μ υ ε)} (h : Surfaced w failure ms u) :
    ∀ m ∈ ms, m.begins = false := by
  cases h with
  | own _ ms _ hu hcalm hcleared hown =>
      exact List.forall_mem_append.mpr
        ⟨begins_of_calm hcalm, by simp [Mark.begins]⟩
  | kept f ms as v ms' _ hv hcalm hended hsettled =>
      refine List.forall_mem_append.mpr ⟨List.forall_mem_append.mpr
        ⟨begins_of_calm hcalm, hended.begins⟩, ?_⟩
      exact List.forall_mem_cons.mpr ⟨rfl,
        List.forall_mem_cons.mpr ⟨rfl, hsettled.subsided.begins⟩⟩
  | replaced f e ms as v b ms' as' t _ hv hcalm hended hb ht hu hnote =>
      refine List.forall_mem_append.mpr ⟨List.forall_mem_append.mpr
        ⟨begins_of_calm hcalm, hended.begins⟩, ?_⟩
      exact List.forall_mem_cons.mpr ⟨rfl, List.forall_mem_cons.mpr ⟨rfl,
        List.forall_mem_append.mpr ⟨ht.subsided.begins, ht.alarm.begins⟩⟩⟩
  | slipped f g e ms as v b ms' _ hv hcalm hended hb hu hg =>
      refine List.forall_mem_append.mpr ⟨List.forall_mem_append.mpr
        ⟨begins_of_calm hcalm, hended.begins⟩, ?_⟩
      exact List.forall_mem_cons.mpr ⟨rfl,
        List.forall_mem_cons.mpr ⟨rfl, hu.begins⟩⟩

omit [DecidableEq ε] [Random ρ] in
/-- A run that passes has its list cleared. -/
theorem Surfaced.cleared {w u : World ρ μ κ υ ε} {ms : List (Mark μ υ ε)}
    (h : Surfaced w none ms u) : .cleared ∈ ms := by
  cases h with
  | own _ ms _ hu hcalm hcleared hown => exact List.mem_append_left _ hcleared

omit [DecidableEq ε] [Random ρ] in
theorem Surfaced.returned {w u : World ρ μ κ υ ε} {ms : List (Mark μ υ ε)}
    (h : Surfaced w none ms u) : u.outcome? mainTask = some .returned := by
  cases h with
  | own _ ms _ hu hcalm hcleared hown =>
      cases hown with
      | passed hmain hnodes => exact hmain

omit [DecidableEq ε] [Raisable ε] [Random ρ] in
/-- Nothing was raised: the scenario's outcome, then that of the nodes. -/
theorem mainResult_own (w : World ρ μ κ υ ε) (hdone : w.done mainTask = true) :
    Exec.wp (mainResult >>= fun _ => nodeFailures)
      (fun _ w' => w' = w ∧ Own w none) (fun e w' => w' = w ∧ Own w (some e))
      (fun _ => False) w := by
  rw [done_eq] at hdone
  obtain ⟨o, ho⟩ := Option.isSome_iff_exists.mp hdone
  have houtcome := ho
  rw [outcome?] at ho
  rw [Exec.wp_bind, mainResult, Exec.wp_look_apply]
  cases htask : w.tasks[mainTask]? with
  | none =>
      rw [htask] at ho
      cases ho
  | some t =>
      obtain ⟨seq, outcome, onCancel⟩ := t
      rw [htask] at ho
      subst ho
      cases o with
      | raised e => exact ⟨rfl, .raised e houtcome⟩
      | cancelled => exact ⟨rfl, .cancelled houtcome⟩
      | returned =>
          simp only [Exec.wp_pure, nodeFailures, Exec.wp_look_apply]
          split
          · next e he =>
            obtain ⟨task, htask, he⟩ := List.exists_of_findSome?_eq_some he
            exact ⟨rfl, .node e task houtcome htask
              (exception?_eq_some.mp he)⟩
          · next hnone =>
            refine ⟨rfl, .passed houtcome fun task htask e he => ?_⟩
            rw [List.findSome?_eq_none_iff] at hnone
            have := hnone task htask
            rw [exception?_eq_some.mpr he] at this
            cases this

/-- What comes of a run: nothing, or what is raised, which is in flight unless
something came of putting a note on it. -/
inductive Surfaces (w v : World ρ μ κ υ ε) :
    Option (Exc ε) × Except (Exc ε) Unit → World ρ μ κ υ ε → Prop
  | passed (u : World ρ μ κ υ ε) (ms : List (Mark μ υ ε))
      (hv : Past v [.settling none] u) (hu : Surfaced w none ms u) :
      Surfaces w v (none, .ok ()) u
  | raised (u : World ρ μ κ υ ε) (failure : Option (Exc ε)) (e : Exc ε)
      (ms : List (Mark μ υ ε)) (hu : Surfaced w failure ms u)
      (he : failure = some e ∨ ∃ f, failure = some f ∧ Slip e ms) :
      Surfaces w v (failure, .error e) u

/-- With nothing in flight there is nothing to settle. -/
theorem surface_own {v : World ρ μ κ υ ε} (hdone : v.done mainTask = true) :
    Exec.wp (surface (.ok ()))
      (fun r u => Past v [.settling none] u ∧ Own u r.1 ∧
        (r = (none, .ok ()) ∨ ∃ e, r = (some e, .error e)))
      (fun _ _ => False) (fun _ => False) v := by
  have hlimit : Past v [] (v.limitTeardownSteps 0) := .of_memory rfl
  have hmark : Past v [.settling none]
      ((v.limitTeardownSteps 0).mark (.settling none)) :=
    hlimit.trans (.mark _ (by simp) (by simp) rfl rfl)
  have hown := mainResult_own
    ((v.limitTeardownSteps 0).mark (.settling none)) hdone
  have hdone' : ((v.limitTeardownSteps 0).mark (.settling none)).done
      mainTask = true := hdone
  have hnone : (.ok () : Except (Exc ε) Unit).error? = none := rfl
  rw [Exec.wp_bind] at hown
  rw [surface, settleRun, hnone]
  simp only [Exec.wp_bind, Exec.wp_attempt, settleScenario, Exec.wp_update,
    Option.isSome_none, Exec.reraise, noteReplaced]
  generalize (v.limitTeardownSteps 0).mark (.settling none) = t
    at hown hdone' hmark
  rw [if_neg (by simp), Exec.wp_pure, Exec.wp_look_apply, hdone']
  simp only [Bool.not_true, Bool.false_eq_true, if_false, Exec.wp_pure]
  refine hown.mono (fun _ u hnodes => hnodes.mono ?_ ?_ fun _ h => h) ?_
    fun _ h => h
  · rintro _ u ⟨rfl, hown⟩
    exact ⟨hmark, hown, .inl trivial⟩
  · rintro e u ⟨rfl, hown⟩
    exact ⟨hmark, hown, .inr ⟨e, rfl⟩⟩
  · rintro e u ⟨rfl, hown⟩
    exact ⟨hmark, hown, .inr ⟨e, rfl⟩⟩

/-- What is in flight and what is on its way once the scenario is settled with
`f` in flight. -/
inductive Resurfaces (v : World ρ μ κ υ ε) (f : Exc ε) :
    Option (Exc ε) × Except (Exc ε) Unit → World ρ μ κ υ ε → Prop
  | kept (ms : List (Mark μ υ ε)) (u : World ρ μ κ υ ε)
      (hsettled : Settled v f ms u) : Resurfaces v f (some f, .error f) u
  | replaced (e : Exc ε) (b : World ρ μ κ υ ε) (ms as : List (Mark μ υ ε))
      (t u : World ρ μ κ υ ε) (hb : Past v [.settling (some f), .cleared] b)
      (ht : Replaces b (some f) e ms as t) (hu : Past t [] u)
      (hnote : e ≠ f → Noted u e f) : Resurfaces v f (some e, .error e) u
  | slipped (g e : Exc ε) (b : World ρ μ κ υ ε) (ms : List (Mark μ υ ε))
      (u : World ρ μ κ υ ε) (hb : Past v [.settling (some f), .cleared] b)
      (hu : Slips b e ms u) (hg : g = f ∨ g = e) :
      Resurfaces v f (some g, .error e) u

theorem surface_resurfaces {f : Exc ε} {v : World ρ μ κ υ ε}
    {cut : World ρ μ κ υ ε → Prop}
    (h : Exec.wp (settleScenario (some f))
      (fun _ w' => ∃ ms, Settled v f ms w')
      (fun e w' => ∃ b, Past v [.settling (some f), .cleared] b ∧
        ((∃ ms as, Replaces b (some f) e ms as w') ∨ ∃ ms, Slips b e ms w'))
      cut v) :
    Exec.wp (surface (.error f)) (fun r u => Resurfaces v f r u)
      (fun _ _ => False) cut v := by
  have hsome : (.error f : Except (Exc ε) Unit).error? = some f := rfl
  rw [surface, settleRun, hsome]
  simp only [Exec.wp_bind, Exec.wp_attempt, Exec.reraise, Exec.wp_raise]
  refine h.mono ?_ ?_ fun _ h => h
  · rintro _ u ⟨ms, hsettled⟩
    simp only [noteReplaced, ne_eq, not_true_eq_false, if_false, Exec.wp_pure]
    exact .kept ms u hsettled
  · rintro e t ⟨b, hb, ht⟩
    refine (noteReplaced_replaces ht).mono ?_ ?_ fun _ h => h.elim
    · rintro _ u (⟨ms, as, t, ht, hu, hnote⟩ | ⟨ms, hu⟩)
      · exact .replaced e b ms as t u hb ht hu hnote
      · exact .slipped e e b ms u hb hu (.inr rfl)
    · rintro x u ⟨ms, hu⟩
      exact .slipped f x b ms u hb hu (.inl rfl)

omit [DecidableEq ε] [Random ρ] in
theorem Resurfaces.surfaces {w v u : World ρ μ κ υ ε} {f : Exc ε}
    {r : Option (Exc ε) × Except (Exc ε) Unit} {ms as : List (Mark μ υ ε)}
    (h : Resurfaces v f r u) (hv : Past w (ms ++ as) v)
    (hcalm : ∀ m ∈ ms, m.calm = true) (hended : Ended f as) :
    Surfaces w v r u ∧ ∃ e, r.2 = .error e := by
  cases h with
  | kept ms' _ hsettled =>
      exact ⟨.raised u _ f _ (.kept f ms as v ms' u hv hcalm hended hsettled)
        (.inl rfl), f, rfl⟩
  | replaced e b ms' as' t _ hb ht hu hnote =>
      exact ⟨.raised u _ e _ (.replaced f e ms as v b ms' as' t u hv hcalm hended
        hb ht hu hnote) (.inl rfl), e, rfl⟩
  | slipped g e b ms' _ hb hu hg =>
      refine ⟨.raised u _ e _ (.slipped f g e ms as v b ms' u hv hcalm hended hb
        hu hg) ?_, e, rfl⟩
      rcases hg with rfl | rfl
      · exact .inr ⟨g, rfl, hu.settled _ g⟩
      · exact .inl rfl

theorem surface_surfaced {w v : World ρ μ κ υ ε} {ran : Except (Exc ε) Unit}
    (hran : Ran w v ran) :
    Exec.wp (surface ran)
      (fun r u => Surfaces w v r u ∧ (r.2 = .ok () → ran = .ok ()))
      (fun _ _ => False)
      (fun u => ∃ ms, Past w ms u ∧ ∀ m ∈ ms, m.begins = false) v := by
  cases hran with
  | ok ms hv hdone hcleared =>
      refine (surface_own hdone).mono ?_ (fun _ _ h => h) fun _ h => h.elim
      rintro r u ⟨hu, hown, hr⟩
      have hs : Surfaced w r.1 (ms ++ [.settling none]) u :=
        .own r.1 ms u (hv.past.trans hu) hv.calm hcleared hown
      refine ⟨?_, fun _ => rfl⟩
      rcases hr with rfl | ⟨e, rfl⟩
      · exact .passed u _ hu hs
      · exact .raised u _ e _ hs (.inl rfl)
  | error f ms as hv hcalm hended =>
      refine (surface_resurfaces (settleScenario_settled f v)).mono ?_
        (fun _ _ h => h) ?_
      · rintro r u hu
        obtain ⟨hs, e, hr⟩ := hu.surfaces hv hcalm hended
        exact ⟨hs, fun hok => by cases hr.symm.trans hok⟩
      · rintro u ⟨ms', hu, hms'⟩
        exact ⟨_, hv.trans hu, List.forall_mem_append.mpr
          ⟨List.forall_mem_append.mpr
            ⟨begins_of_calm hcalm, hended.begins⟩, hms'⟩⟩

/-! ## The teardown -/

/-- What becomes of what is in flight when the teardown begins. -/
inductive TornDown (u : World ρ μ κ υ ε) (failure : Option (Exc ε)) :
    Option (Exc ε) → List (Mark μ υ ε) → World ρ μ κ υ ε → Prop
  | kept (pre ms : List (Mark μ υ ε)) (v w' : World ρ μ κ υ ε)
      (hv : Past u (pre ++ [.tearingDown failure u.pendingTasks]) v)
      (hpre : pre = if failure.isSome then [.cleared] else [])
      (hw' : Past v ms w') (hminor : Minor Subsided w' failure ms)
      (hidle : u.pendingTasks = [] → ms = []) :
      TornDown u failure failure
        (pre ++ .tearingDown failure u.pendingTasks :: ms) w'
  | replaced (e : Exc ε) (pre ms as : List (Mark μ υ ε))
      (v t w' : World ρ μ κ υ ε)
      (hv : Past u (pre ++ [.tearingDown failure u.pendingTasks]) v)
      (hpre : pre = if failure.isSome then [.cleared] else [])
      (ht : Replaces v failure e ms as t) (hw' : Past t [] w')
      (hnote : ∀ f, failure = some f → e ≠ f → Noted w' e f)
      (hidle : u.pendingTasks ≠ []) :
      TornDown u failure (some e)
        (pre ++ .tearingDown failure u.pendingTasks :: (ms ++ as)) w'
  | slipped (f e : Exc ε) (pre ms : List (Mark μ υ ε))
      (v w' : World ρ μ κ υ ε) (hf : failure = some f)
      (hv : Past u (pre ++ [.tearingDown failure u.pendingTasks]) v)
      (hpre : pre = if failure.isSome then [.cleared] else [])
      (hw' : Slips v e ms w') (hidle : u.pendingTasks ≠ []) :
      TornDown u failure (some e)
        (pre ++ .tearingDown failure u.pendingTasks :: ms) w'

omit [DecidableEq ε] [Random ρ] in
theorem TornDown.past {u w' : World ρ μ κ υ ε}
    {failure result : Option (Exc ε)} {ms : List (Mark μ υ ε)}
    (h : TornDown u failure result ms w') : Past u ms w' := by
  cases h with
  | kept pre ms v _ hv hpre hw' hminor hidle =>
      have := hv.trans hw'
      rwa [List.append_assoc] at this
  | replaced e pre ms as v t _ hv hpre ht hw' hnote hidle =>
      have := (hv.trans ht.past).trans hw'
      rwa [List.append_nil, List.append_assoc] at this
  | slipped f e pre ms v _ hf hv hpre hw' hidle =>
      have := hv.trans hw'.past
      rwa [List.append_assoc] at this

omit [DecidableEq ε] [Random ρ] in
/-- Nothing is done where there is nothing to cancel. -/
theorem TornDown.idle {u w' : World ρ μ κ υ ε}
    {failure result : Option (Exc ε)} {ms : List (Mark μ υ ε)}
    (h : TornDown u failure result ms w') (hidle : u.pendingTasks = []) :
    ms = (if failure.isSome then [.cleared] else []) ++
      [.tearingDown failure []] := by
  cases h with
  | kept pre ms v _ hv hpre hw' hminor hempty =>
      rw [hempty hidle, hidle, hpre]
  | replaced e pre ms as v t _ hv hpre ht hw' hnote hsome =>
      exact absurd hidle hsome
  | slipped f e pre ms v _ hf hv hpre hw' hsome => exact absurd hidle hsome

omit [DecidableEq ε] [Random ρ] in
/-- What closes the loop changes nothing of that. -/
theorem TornDown.of_memory {u w' w'' : World ρ μ κ υ ε}
    {failure result : Option (Exc ε)} {ms : List (Mark μ υ ε)}
    (h : TornDown u failure result ms w') (hm : w''.memory = w'.memory) :
    TornDown u failure result ms w'' := by
  have hpast : Past w' [] w'' := .of_memory hm
  cases h with
  | kept pre ms v _ hv hpre hw' hminor hidle =>
      have hw := hw'.trans hpast
      rw [List.append_nil] at hw
      exact .kept pre ms v _ hv hpre hw (hminor.past hpast) hidle
  | replaced e pre ms as v t _ hv hpre ht hw' hnote hidle =>
      exact .replaced e pre ms as v t _ hv hpre ht (hw'.trans hpast)
        (fun f hf hne => (hnote f hf hne).past hpast) hidle
  | slipped f e pre ms v _ hf hv hpre hw' hidle =>
      have hw := hw'.past.trans hpast
      rw [List.append_nil] at hw
      exact .slipped f e pre ms v _ hf hv hpre
        ⟨hw, hw'.begins, hw'.slip⟩ hidle

omit [Raisable ε] [DecidableEq ε] [Random ρ] in
theorem beginTearDown_past {w : World ρ μ κ υ ε} (htear : w.tearingDown = false)
    (failure : Option (Exc ε)) :
    Past w [.tearingDown failure w.pendingTasks]
      (mark { w with tearingDown := true }
        (.tearingDown failure w.pendingTasks)) := by
  refine .of_outcome rfl rfl (by simp) (by simp [mark]) (fun _ hn => hn)
    (List.append_nil _).symm ?_
  have hmon : w.monitor.tearing = false := htear
  rw [Machine.run_cons_eq_some, Monitor.step, hmon]
  exact ⟨_, rfl, rfl⟩

/-- Cancelling what is left, if anything is. -/
theorem cancelEverything_minor (failure : Option (Exc ε))
    (v : World ρ μ κ υ ε) :
    Exec.wp (secondary failure cancelEverything)
      (fun _ w' => ∃ ms, Past v ms w' ∧ Minor Subsided w' failure ms ∧
        (v.pendingTasks = [] → ms = []))
      (fun e w' => ((∃ ms as, Replaces v failure e ms as w') ∨
        ∃ ms, failure.isSome = true ∧ Slips v e ms w') ∧ v.pendingTasks ≠ [])
      (fun _ => False) v := by
  by_cases hidle : v.pendingTasks = []
  · rw [secondary, cancelEverything, teardownRounds, cancelRounds,
      Exec.wp_bind, Exec.wp_attempt, Exec.wp_look_apply, hidle]
    simp only [byCreation, List.mergeSort_nil, List.isEmpty_nil, if_true,
      Exec.wp_pure]
    exact ⟨[], .refl v, .none _ _ (.calm [] (by simp)), fun _ => rfl⟩
  · have hends := ((cancelRounds_holds teardownRounds v).and
      (cancelEverything_ends v)).mono (fun _ _ h => h.1) (fun _ _ h => h.1)
      fun _ h => h.2
    refine (secondary_minor failure (fun _ h => h) hends).mono ?_ ?_ fun _ h => h
    · rintro _ w' ⟨ms, hw', hminor⟩
      exact ⟨ms, hw', hminor, fun h => absurd h hidle⟩
    · exact fun e w' hw' => ⟨hw', hidle⟩

/-- The teardown from where the hooks are cleared, if they have to be. -/
theorem tearDown_rest {u b : World ρ μ κ υ ε} {failure : Option (Exc ε)}
    {pre : List (Mark μ υ ε)} (hb : Past u pre b)
    (htear : b.tearingDown = false) (hpending : b.pendingTasks = u.pendingTasks)
    (hpre : pre = if failure.isSome then [.cleared] else []) :
    Exec.wp (do
        Exec.update fun w => mark { w with tearingDown := true }
          (.tearingDown failure w.pendingTasks)
        secondary failure cancelEverything)
      (fun _ w' => ∃ ms, Minor Subsided w' failure ms ∧ TornDown u failure
        failure (pre ++ .tearingDown failure u.pendingTasks :: ms) w')
      (fun e w' => ∃ v, Past u
          (pre ++ [.tearingDown failure u.pendingTasks]) v ∧
        ((∃ ms as, Replaces v failure e ms as w') ∨
          ∃ ms, failure.isSome = true ∧ Slips v e ms w') ∧ u.pendingTasks ≠ [])
      (fun _ => False) b := by
  have hv := hb.trans (beginTearDown_past htear failure)
  rw [hpending] at hv
  rw [Exec.wp_bind, Exec.wp_update]
  simp only [hpending]
  refine (cancelEverything_minor failure _).mono ?_ ?_ fun _ h => h
  · rintro _ w' ⟨ms, hw', hminor, hidle⟩
    exact ⟨ms, hminor, .kept pre ms _ w' hv hpre hw' hminor
      fun h => hidle (hpending.trans h)⟩
  · rintro e t ⟨ht, hidle⟩
    exact ⟨_, hv, ht, fun h => hidle (hpending.trans h)⟩

theorem tearDown_tornDown (failure : Option (Exc ε)) {u : World ρ μ κ υ ε}
    (htear : u.tearingDown = false) :
    Exec.wp (tearDown failure)
      (fun _ w' => ∃ pre ms, pre = (if failure.isSome then [.cleared] else []) ∧
        Minor Subsided w' failure ms ∧ TornDown u failure failure
          (pre ++ .tearingDown failure u.pendingTasks :: ms) w')
      (fun e w' => ∃ ms, TornDown u failure (some e) ms w')
      (fun _ => False) u := by
  unfold tearDown
  rw [Exec.wp_bind, Exec.wp_attempt]
  cases failure with
  | none =>
      refine (tearDown_rest (.refl u) htear rfl rfl).mono
        (fun _ _ ⟨ms, h⟩ => ⟨[], ms, rfl, h⟩) ?_ fun _ h => h
      rintro e t ⟨v, hv, ⟨ms, as, ht⟩ | ⟨ms, hsome, -⟩, hidle⟩
      · exact ⟨_, .replaced e [] ms as v t t hv rfl ht (.refl t) (by simp)
          hidle⟩
      · cases hsome
  | some f =>
      refine (tearDown_rest (clearHooks_past u) htear rfl rfl).mono
        (fun _ _ ⟨ms, h⟩ => ⟨_, ms, rfl, h⟩) ?_ fun _ h => h
      rintro e t ⟨v, hv, ht, hidle⟩
      simp only [Exec.wp_bind, Exec.wp_raise]
      refine (noteReplaced_replaces (ht.imp_right fun ⟨ms, _, h⟩ =>
        ⟨ms, h⟩)).mono ?_ ?_ fun _ h => h
      · rintro _ w' (⟨ms, as, t, ht, hw', hnoted⟩ | ⟨ms, hw'⟩)
        · refine ⟨_, .replaced e [.cleared] ms as v t w' hv rfl ht hw' ?_ hidle⟩
          rintro _ ⟨⟩
          exact hnoted
        · exact ⟨_, .slipped f e [.cleared] ms v w' rfl hv rfl hw' hidle⟩
      · rintro x w' ⟨ms, hw'⟩
        exact ⟨_, .slipped f x [.cleared] ms v w' rfl hv rfl hw' hidle⟩

/-! ## The drive -/

omit [DecidableEq ε] [Raisable ε] [Random ρ] in
theorem beginDrive_past (w : World ρ μ κ υ ε) (main : κ) :
    Past w [] ((w.limitSteps w.maxSteps .livelock).createTask true main) := by
  have hlimit : Past w [] (w.limitSteps w.maxSteps .livelock) := .of_memory rfl
  exact hlimit.trans (createTask_turn _ true main).past

/-- What a drive raises: what its teardown comes to, or what came of putting a
note on what was in flight, where the teardown leaves that as it is. -/
inductive DriveRaises (w : World ρ μ κ υ ε) (e : Exc ε) :
    List (Mark μ υ ε) → List (Mark μ υ ε) → World ρ μ κ υ ε → Prop
  | result (failure : Option (Exc ε)) (u w' : World ρ μ κ υ ε)
      (ms ms' : List (Mark μ υ ε)) (hs : Surfaced w failure ms u)
      (ht : TornDown u failure (some e) ms' w') : DriveRaises w e ms ms' w'
  | slipped (f : Exc ε) (u w' : World ρ μ κ υ ε) (ms ms' : List (Mark μ υ ε))
      (hs : Surfaced w (some f) ms u) (hslip : Slip e ms)
      (ht : TornDown u (some f) (some f)
        (.cleared :: .tearingDown (some f) u.pendingTasks :: ms') w')
      (hminor : Minor Subsided w' (some f) ms') :
      DriveRaises w e ms
        (.cleared :: .tearingDown (some f) u.pendingTasks :: ms') w'

omit [DecidableEq ε] [Random ρ] in
theorem DriveRaises.past {w w' : World ρ μ κ υ ε} {e : Exc ε}
    {ms ms' : List (Mark μ υ ε)} (h : DriveRaises w e ms ms' w') :
    Past w (ms ++ ms') w' := by
  cases h with
  | result failure u _ _ _ hs ht => exact hs.past.trans ht.past
  | slipped f u _ _ ms' hs hslip ht => exact hs.past.trans ht.past

/-- What is in flight when the teardown begins is in flight when the loop is
closed. -/
theorem Surfaced.closed {w u : World ρ μ κ υ ε} {failure : Option (Exc ε)}
    {ms : List (Mark μ υ ε)} (h : Surfaced w failure ms u)
    (htear : w.tearingDown = false) :
    Exec.wp (tearDown failure)
      (fun _ w' => ∃ pre ms, pre =
          (if failure.isSome then [.cleared] else []) ∧
        Minor Subsided { w' with closed := true } failure ms ∧
        TornDown u failure failure
          (pre ++ .tearingDown failure u.pendingTasks :: ms)
          { w' with closed := true })
      (fun e w' => ∃ ms, TornDown u failure (some e) ms
        { w' with closed := true }) (fun _ => False) u := by
  have htear' := (h.past.tearingDown h.begins).trans htear
  refine (tearDown_tornDown failure htear').mono ?_ ?_ fun _ h => h
  · rintro _ w' ⟨pre, ms', hpre, hminor, hw'⟩
    exact ⟨pre, ms', hpre, hminor.past (.of_memory rfl), hw'.of_memory rfl⟩
  · rintro e w' ⟨ms', hw'⟩
    exact ⟨ms', hw'.of_memory rfl⟩

/-- All that a drive does to what is raised in it. -/
theorem drive_course (main : κ) {w : World ρ μ κ υ ε}
    (htear : w.tearingDown = false) :
    Exec.wp (drive main)
      (fun _ w' => ∃ u ms ms', Surfaced w none ms u ∧
        TornDown u none none ms' w')
      (fun e w' => ∃ ms ms', DriveRaises w e ms ms' w')
      (fun w' => ∃ ms, Past w ms w' ∧ ∀ m ∈ ms, m.begins = false) w := by
  have hbegin := beginDrive_past w main
  rw [drive]
  simp only [Exec.wp_bind, Exec.wp_update, Exec.wp_attempt, Exec.wp_andFinally]
  generalize (w.limitSteps w.maxSteps .livelock).createTask true main = b
    at hbegin
  have hran : ∀ ran v, Ran b v ran → Ran w v ran := by
    intro ran v h
    cases h with
    | ok ms hv hdone hcleared =>
        exact .ok ms ⟨hbegin.trans hv.past, hv.calm⟩ hdone hcleared
    | error f ms as hv hcalm hended =>
        exact .error f ms as (hbegin.trans hv) hcalm hended
  have hrest : ∀ ran v, Ran w v ran → Exec.wp (surface ran)
      (fun r u => Exec.wp (tearDown r.1)
        (fun _ w' => Exec.wp (Exec.reraise r.2)
          (fun _ w' => ∃ u ms ms', Surfaced w none ms u ∧
            TornDown u none none ms' w')
          (fun e w' => ∃ ms ms', DriveRaises w e ms ms' w')
          (fun w' => ∃ ms, Past w ms w' ∧ ∀ m ∈ ms, m.begins = false)
          { w' with closed := true })
        (fun e w' => ∃ ms ms', DriveRaises w e ms ms'
          { w' with closed := true })
        (fun w' => ∃ ms, Past w ms w' ∧ ∀ m ∈ ms, m.begins = false) u)
      (fun _ _ => False)
      (fun w' => ∃ ms, Past w ms w' ∧ ∀ m ∈ ms, m.begins = false) v := by
    intro ran v h
    refine (surface_surfaced h).mono ?_ (fun _ _ h => h) fun _ h => h
    rintro r u ⟨hr, -⟩
    have hraises : ∀ failure ms e (w' : World ρ μ κ υ ε),
        Surfaced w failure ms u →
        (∃ ms', TornDown u failure (some e) ms' { w' with closed := true }) →
        ∃ ms ms', DriveRaises w e ms ms' { w' with closed := true } := by
      rintro failure ms e w' hu ⟨ms', hw'⟩
      exact ⟨ms, ms', .result failure u _ ms ms' hu hw'⟩
    cases hr with
    | passed _ ms hv hu =>
        refine (hu.closed htear).mono ?_
          (fun e w' => hraises none ms e w' hu) fun _ h => h.elim
        rintro _ w' ⟨pre, ms', -, -, hw'⟩
        exact ⟨u, ms, _, hu, hw'⟩
    | raised _ failure e ms hu he =>
        refine (hu.closed htear).mono ?_
          (fun e w' => hraises failure ms e w' hu) fun _ h => h.elim
        rintro _ w' ⟨pre, ms', hpre, hminor, hw'⟩
        rcases he with rfl | ⟨f, rfl, hslip⟩
        · exact hraises (some e) ms e w' hu ⟨_, hw'⟩
        · subst hpre
          exact ⟨ms, _, .slipped f u _ ms ms' hu hslip hw' hminor⟩
  refine (runScenario_ran b).mono (fun _ v hv => ?_) (fun f v hv => ?_) ?_
  · exact (hrest _ v (hran _ v hv)).mono (fun _ _ h => h)
      (fun _ _ h => h.elim) fun _ h => h
  · exact (hrest _ v (hran _ v hv)).mono (fun _ _ h => h)
      (fun _ _ h => h.elim) fun _ h => h
  · rintro v ⟨ms, hv⟩
    exact ⟨ms, hbegin.trans hv.past, begins_of_calm hv.calm⟩

/-! ## The log of a whole drive -/

omit [Raisable ε] [DecidableEq ε] [Random ρ] in
/-- There is one mark where a teardown begins. -/
theorem begins_split {pre post ms ms' : List (Mark μ υ ε)}
    {f f' : Option (Exc ε)} {p p' : List ℕ}
    (h : pre ++ .tearingDown f p :: post = ms ++ .tearingDown f' p' :: ms')
    (hms : ∀ m ∈ ms, m.begins = false) (hms' : ∀ m ∈ ms', m.begins = false) :
    pre = ms ∧ f = f' ∧ p = p' ∧ post = ms' := by
  induction ms generalizing pre with
  | nil =>
      cases pre with
      | nil =>
          cases h
          exact ⟨rfl, rfl, rfl, rfl⟩
      | cons m pre =>
          obtain ⟨-, h⟩ := List.cons.inj h
          have := hms' (.tearingDown f p) (by rw [← h]; simp)
          cases this
  | cons m ms ih =>
      cases pre with
      | nil =>
          obtain ⟨rfl, -⟩ := List.cons.inj h
          cases hms _ List.mem_cons_self
      | cons m' pre =>
          obtain ⟨rfl, htail⟩ := List.cons.inj h
          obtain ⟨rfl, hf, hp, hpost⟩ :=
            ih htail fun x hx => hms x (List.mem_cons_of_mem _ hx)
          exact ⟨rfl, hf, hp, hpost⟩

/-- A drive that got as far as the teardown, by its log. -/
structure Drove (w : World ρ μ κ υ ε) (failure result : Option (Exc ε))
    (pre : List (Mark μ υ ε)) (pending : List ℕ) (post : List (Mark μ υ ε))
    (w' : World ρ μ κ υ ε) : Prop where
  surfaced : ∃ u ms, Surfaced w failure ms u ∧ u.pendingTasks = pending ∧
    pre = ms ++ (if failure.isSome then [.cleared] else []) ∧
    TornDown u failure result ((if failure.isSome then [.cleared] else []) ++
      .tearingDown failure pending :: post) w'

omit [DecidableEq ε] [Random ρ] in
theorem TornDown.split {u w' : World ρ μ κ υ ε}
    {failure result : Option (Exc ε)} {ms : List (Mark μ υ ε)}
    (h : TornDown u failure result ms w') : ∃ rest,
      ms = (if failure.isSome then [.cleared] else []) ++
        .tearingDown failure u.pendingTasks :: rest ∧
      ∀ m ∈ rest, m.begins = false := by
  cases h with
  | kept pre ms v _ hv hpre hw' hminor hidle =>
      exact ⟨ms, by rw [hpre], hminor.begins⟩
  | replaced e pre ms as v t _ hv hpre ht hw' hnote hidle =>
      exact ⟨ms ++ as, by rw [hpre], List.forall_mem_append.mpr
        ⟨ht.subsided.begins, ht.alarm.begins⟩⟩
  | slipped f e pre ms v _ hf hv hpre hw' hidle =>
      exact ⟨ms, by rw [hpre], hw'.begins⟩

omit [DecidableEq ε] [Random ρ] in
theorem TornDown.drove {w u w' : World ρ μ κ υ ε}
    {failure failure' result : Option (Exc ε)} {pending : List ℕ}
    {ms ms' pre post : List (Mark μ υ ε)} (ht : TornDown u failure' result ms' w')
    (hs : Surfaced w failure' ms u)
    (hlog : w.log ++ (ms ++ ms') =
      w.log ++ (pre ++ .tearingDown failure pending :: post)) :
    Drove w failure result pre pending post w' := by
  have hlog := List.append_cancel_left hlog
  obtain ⟨rest, hrest, hbegins⟩ := ht.split
  have hms : ∀ m ∈ ms ++ (if failure'.isSome then [.cleared] else []),
      m.begins = false := by
    refine List.forall_mem_append.mpr ⟨hs.begins, ?_⟩
    split <;> simp [Mark.begins]
  rw [hrest, ← List.append_assoc] at hlog
  obtain ⟨rfl, rfl, rfl, rfl⟩ := begins_split hlog.symm hms hbegins
  exact ⟨u, ms, hs, rfl, rfl, hrest ▸ ht⟩

/-- What a drive returned or raised, if it got as far as the teardown. -/
theorem drive_drove (main : κ) {w w' : World ρ μ κ υ ε}
    {r : Res (Exc ε) Unit} (htear : w.tearingDown = false)
    (hrun : drive main w = (r, w')) {pre post : List (Mark μ υ ε)}
    {failure : Option (Exc ε)} {pending : List ℕ}
    (hlog : w'.log = w.log ++ (pre ++ .tearingDown failure pending :: post)) :
    ∃ result, Drove w failure result pre pending post w' ∧
      (r = (match result with
        | none => .ok ()
        | some e => .raised e) ∨
        ∃ e ms, r = .raised e ∧ pre = ms ++ [.cleared] ∧ Slip e ms) := by
  have hcourse := drive_course main htear
  cases r with
  | ok =>
      obtain ⟨u, ms, ms', hs, ht⟩ := hcourse.ok_of hrun
      have hpast := hs.past.trans ht.past
      exact ⟨none, ht.drove hs (hpast.log ▸ hlog), .inl rfl⟩
  | raised e =>
      obtain ⟨ms, ms', hraises⟩ := hcourse.err_of hrun
      have hpast := hraises.past
      cases hraises with
      | result failure' u _ _ _ hs ht =>
          exact ⟨some e, ht.drove hs (hpast.log ▸ hlog), .inl rfl⟩
      | slipped f u _ _ ms' hs hslip ht =>
          refine ⟨some f, ht.drove hs (hpast.log ▸ hlog),
            .inr ⟨e, ms, rfl, ?_, hslip⟩⟩
          have hcut : pre ++ .tearingDown failure pending :: post =
              ms ++ [.cleared] ++ .tearingDown (some f) u.pendingTasks :: ms' := by
            rw [← List.append_cancel_left (hpast.log.symm.trans hlog)]
            simp
          obtain ⟨rest, hrest, hbegins⟩ := ht.split
          cases hrest
          refine (begins_split hcut ?_ hbegins).1
          exact List.forall_mem_append.mpr ⟨hs.begins, by simp [Mark.begins]⟩
  | pending =>
      obtain ⟨ms, hpast, hms⟩ := hcourse.cut_of hrun
      rw [hpast.log] at hlog
      have := hms (.tearingDown failure pending)
        (by rw [List.append_cancel_left hlog]; simp)
      cases this

/-- A program by what its handles do in each step, with at most fifty of
them. -/
def driven (steps : List (List (List (UserOp ℕ ℕ ℕ Plain)))) :
    Res (Exc Plain) Unit × World Toggle ℕ ℕ ℕ Plain :=
  drive 0 (.init Toggle.low Toggle.low 0 (some 50)
    (fun n => steps.getD (n - 1) []) 0)

omit [Raisable ε] [DecidableEq ε] [Random ρ] in
/-- Where a teardown begins in a log that has one. -/
theorem exists_begins {log : List (Mark μ υ ε)} {f : Option (Exc ε)}
    {p : List ℕ} (h : log.findSome? Mark.teardown? = some (f, p)) :
    ∃ post, log = log.takeWhile (!·.begins) ++ .tearingDown f p :: post ∧
      log.dropWhile (!·.begins) = .tearingDown f p :: post := by
  induction log with
  | nil => cases h
  | cons m log ih =>
      cases m with
      | tearingDown f' p' =>
          cases h
          exact ⟨log, rfl, rfl⟩
      | _ =>
          obtain ⟨post, hlog, hdrop⟩ := ih h
          exact ⟨post, congrArg (List.cons _) hlog, hdrop⟩

end World

end Seedloop
