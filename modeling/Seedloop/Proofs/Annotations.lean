import Seedloop.Proofs.Steps
import Seedloop.Ref.Annotate
import Seedloop.Ref.Drive

/-!
# Annotating a failure does not replace it, where that is guarded

A note is put on a failure in four places. Two of them keep an `Exception` that
comes of putting it there to themselves, so the failure is what propagates,
unless something else comes of it that is none. The other two do not: a step
loses its first failure to a `__repr__` or an `add_note` that raises, and
`given_seed` to an `add_note`.

For a step, `outcomes` is what its hooks come to, each called once and in
order, and the source is compared with what there is to say of that list: the
first exception raised is what the step raises, and the others are noted on it
as far as they can be. An exception may raise itself while it is annotated; so
what makes the difference is not that nothing is raised, but that nothing else
is, and that nothing is lost by stopping there.
-/

namespace Seedloop

namespace World

variable {ρ μ κ υ ε : Type} [Raisable ε]

/-- What a hook came to. -/
abbrev HookOutcome (ε : Type) : Type := Except (Exc ε) (Option (Exc ε))

/-- Each hook, called once and in order. -/
def outcomes : List (StepHook ρ μ κ υ ε) → Run ρ μ κ υ ε (List (HookOutcome ε))
  | [] => pure []
  | hook :: hooks => do
      let outcome ← Exec.attempt hook
      let rest ← outcomes hooks
      pure (outcome :: rest)

/-- A hook returns, or raises an `Exception`. -/
def Ordinary : HookOutcome ε → Prop
  | .ok _ => True
  | .error e => e.kind = .exception

/-- The failures of a step, in order. -/
def failuresOf : List (HookOutcome ε) → List (Exc ε)
  | [] => []
  | .ok soft :: rest => soft.toList ++ failuresOf rest
  | .error e :: rest => e :: failuresOf rest

/-- The first one that was raised. -/
def firstRaised : List (HookOutcome ε) → Option (Exc ε)
  | [] => none
  | .ok _ :: rest => firstRaised rest
  | .error e :: _ => some e

/-- All but that. -/
def otherFailures : List (HookOutcome ε) → List (Exc ε)
  | [] => []
  | .ok soft :: rest => soft.toList ++ otherFailures rest
  | .error _ :: rest => failuresOf rest

theorem collect_eq {hooks : List (StepHook ρ μ κ υ ε)} {w w' : World ρ μ κ υ ε}
    {rs : List (HookOutcome ε)} (h : outcomes hooks w = (.ok rs, w'))
    (hrs : ∀ r ∈ rs, Ordinary r) (first : Option (Exc ε))
    (notes : List (Exc ε)) :
    collect hooks first notes w = (.ok (match first with
      | none => (firstRaised rs, notes ++ otherFailures rs)
      | some first => (some first, notes ++ failuresOf rs)), w') := by
  induction hooks generalizing w rs first notes with
  | nil =>
      cases h
      cases first with
      | none => simp [collect, firstRaised, otherFailures, pure]
      | some first => simp [collect, failuresOf, pure]
  | cons hook hooks ih =>
      obtain ⟨r, u, hr, h⟩ := Exec.bind_eq_ok h
      obtain ⟨rest, v, hrest, h⟩ := Exec.bind_eq_ok h
      cases h
      rw [List.forall_mem_cons] at hrs
      have ih := fun first notes => ih hrest hrs.2 first notes
      rw [collect, Exec.bind_of_ok hr]
      cases r with
      | ok soft =>
          cases soft with
          | none => exact ih first notes
          | some soft =>
              refine (ih first (notes ++ [soft])).trans ?_
              cases first <;> simp [firstRaised, otherFailures, failuresOf]
      | error e =>
          have hkind : e.kind = .exception := hrs.1
          simp only [if_pos hkind]
          cases first with
          | none => exact ih (some e) notes
          | some first =>
              refine (ih (some first) (notes ++ [e])).trans ?_
              simp [failuresOf]

/-! ## The notes of a step -/

/-- What comes of an attempt to note a failure on the first one. -/
def stepNoteText (first note : Exc ε) : Except (Exc ε) String :=
  match note.repr, first.addNote with
  | .ok text, .ok () =>
      .ok ("another after-step check also failed this step: " ++ text)
  | .error e, _ | .ok _, .error e => .error e

/-- Every failure that can be noted on the first one is. -/
def noted (first : Exc ε) (others : List (Exc ε)) (w : World ρ μ κ υ ε) :
    World ρ μ κ υ ε :=
  { w with notes := w.notes ++ others.filterMap fun note =>
    (stepNoteText first note).toOption.map (first, ·) }

/-- Nothing but the first failure is raised where the others are noted on it,
and if that is, nothing that could be noted comes after it. -/
def Annotates (first : Exc ε) : List (Exc ε) → Prop
  | [] => True
  | note :: notes =>
      match stepNoteText first note with
      | .ok _ => Annotates first notes
      | .error e => e = first ∧
          ∀ later ∈ notes, (stepNoteText first later).toOption = none

theorem stepNote_eq (first note : Exc ε) (w : World ρ μ κ υ ε) :
    stepNote first note w = match stepNoteText first note with
      | .ok text => (.ok (), { w with notes := w.notes ++ [(first, text)] })
      | .error e => (.raised e, w) := by
  rw [stepNote, stepNoteText]
  cases note.repr with
  | error e => rfl
  | ok text =>
      simp only [addNote]
      cases first.addNote with
      | error e => rfl
      | ok => rfl

theorem noted_eq_self {first : Exc ε} {others : List (Exc ε)}
    {w : World ρ μ κ υ ε} : noted first others w = w ↔
      ∀ note ∈ others, (stepNoteText first note).toOption = none := by
  constructor
  · intro h
    have hnotes : w.notes ++ _ = w.notes := congrArg notes h
    have hnone := List.append_right_eq_self.mp hnotes
    rw [List.filterMap_eq_nil_iff] at hnone
    intro note hnote
    exact Option.map_eq_none_iff.mp (hnone note hnote)
  · intro h
    have : others.filterMap (fun note =>
        (stepNoteText first note).toOption.map (first, ·)) = [] := by
      rw [List.filterMap_eq_nil_iff]
      exact fun note hnote => by rw [h note hnote]; rfl
    rw [noted, this, List.append_nil]

theorem stepNotes_iff {first : Exc ε} {others : List (Exc ε)}
    {w : World ρ μ κ υ ε} :
    (do Exec.forEach (stepNote first) others; Exec.raise first :
        Run ρ μ κ υ ε Unit) w = (.raised first, noted first others w) ↔
      Annotates first others := by
  induction others generalizing w with
  | nil => simp [Exec.forEach, Annotates, noted, Exec.raise, bind, pure]
  | cons note others ih =>
      have hnote := stepNote_eq first note w
      rw [Annotates]
      cases htext : stepNoteText first note with
      | ok text =>
          rw [htext] at hnote
          have hnoted : noted first (note :: others) w = noted first others
              { w with notes := w.notes ++ [(first, text)] } := by
            simp [noted, htext, Except.toOption]
          rw [hnoted, ← ih, Exec.forEach]
          simp only [bind, hnote]
          rfl
      | error e =>
          rw [htext] at hnote
          have hnoted : noted first (note :: others) w =
              noted first others w := by
            simp [noted, htext, Except.toOption]
          rw [hnoted, Exec.forEach]
          simp only [bind, hnote, Prod.mk.injEq, Res.raised.injEq]
          rw [eq_comm (a := w), noted_eq_self]

/-- A step raises if a hook raised, and then the first exception raised, with
the other failures noted on it where that can be done. -/
def StepKeeps (hooks : List (StepHook ρ μ κ υ ε)) (w : World ρ μ κ υ ε) : Prop :=
  ∀ rs w', outcomes hooks w = (.ok rs, w') → (∀ r ∈ rs, Ordinary r) →
    stepHooks hooks w = match firstRaised rs with
      | none => (.ok (), w')
      | some first => (.raised first, noted first (otherFailures rs) w')

/-- Where a hook raised, noting the others replaces nothing. -/
def StepAnnotates (hooks : List (StepHook ρ μ κ υ ε)) (w : World ρ μ κ υ ε) :
    Prop :=
  ∀ rs w', outcomes hooks w = (.ok rs, w') → (∀ r ∈ rs, Ordinary r) →
    ∀ first, firstRaised rs = some first → Annotates first (otherFailures rs)

theorem stepKeeps_iff {hooks : List (StepHook ρ μ κ υ ε)}
    {w : World ρ μ κ υ ε} : StepKeeps hooks w ↔ StepAnnotates hooks w := by
  refine forall₄_congr fun rs w' houtcomes hrs => ?_
  have hcollect := collect_eq houtcomes hrs none []
  rw [stepHooks, Exec.bind_of_ok hcollect]
  cases hfirst : firstRaised rs with
  | none => simp [pure]
  | some first =>
      simp only [List.nil_append, Option.some.injEq, forall_eq']
      exact stepNotes_iff

/-! ## The hooks of a world -/

/-- The same world, but for its log. -/
def Unlogged (w w' : World ρ μ κ υ ε) : Prop := ∃ log, w' = { w with log := log }

omit [Raisable ε] in
theorem checkInvariants_sync :
    Exec.Sync Unlogged (checkInvariants : Run ρ μ κ υ ε Unit)
      checkInvariants := by
  rw [checkInvariants_eq]
  refine Exec.sync_look fun w w' h => ?_
  obtain ⟨log, rfl⟩ := h
  refine Exec.Sync.forEach fun p _ => ?_
  rw [checkProperty]
  refine Exec.sync_look fun w w' h => ?_
  obtain ⟨log, rfl⟩ := h
  refine (Exec.sync_update ?_).bind fun _ => ?_
  · rintro s _ ⟨log, rfl⟩
    exact ⟨_, rfl⟩
  · have hview : World.view { w with log := log } = w.view := rfl
    rw [hview]
    cases p.2 w.view with
    | holds => exact Exec.sync_pure ()
    | fails => exact Exec.sync_raise _
    | raises e => exact Exec.sync_raise e

omit [Raisable ε] in
theorem resolve_unlogged {s t : World ρ μ κ υ ε} (h : Unlogged s t)
    (r : RunUntil μ κ υ ε) (d : Decision ε) :
    Unlogged (s.resolve r d) (t.resolve r d) := by
  obtain ⟨log, rfl⟩ := h
  simp only [resolve]
  split <;> exact ⟨log, rfl⟩

theorem check_sync (call : ℕ) :
    Exec.Sync Unlogged (World.check call : StepHook ρ μ κ υ ε)
      (World.check call) := by
  have hresolve : ∀ r d (soft : Option (Exc ε)), Exec.Sync Unlogged
      (do
        Exec.update (·.resolve r d)
        pure soft : Run ρ μ κ υ ε (Option (Exc ε)))
      (do
        Exec.update (·.resolve r d)
        pure soft) := fun r d soft =>
    (Exec.sync_update fun _ _ h => resolve_unlogged h r d).bind
      fun _ => Exec.sync_pure soft
  refine Exec.sync_look fun w w' h => ?_
  obtain ⟨log, rfl⟩ := h
  dsimp only
  cases w.runUntil with
  | none => exact Exec.sync_pure none
  | some r =>
      dsimp only
      split
      · exact Exec.sync_pure none
      · have hview : World.view { w with runUntil := some r, log := log } =
            w.view := rfl
        rw [hview]
        cases r.predicate w.view with
        | raises e =>
            dsimp only
            split
            · exact hresolve r _ _
            · exact Exec.sync_raise e
        | holds => exact hresolve r _ _
        | fails =>
            dsimp only
            split
            · split
              · exact hresolve r _ _
              · exact Exec.sync_pure none
            · exact Exec.sync_pure none

omit [Raisable ε] in
theorem mark_unlogged {s t : World ρ μ κ υ ε} (h : Unlogged s t)
    (m : Mark μ υ ε) : Unlogged (s.mark m) t := by
  obtain ⟨log, rfl⟩ := h
  exact ⟨log, rfl⟩

theorem addStepNote_sync (first note : Exc ε) :
    Exec.Sync Unlogged (addStepNote first note : Run ρ μ κ υ ε Unit)
      (stepNote first note) := by
  have hraise : ∀ e : Exc ε, Exec.Sync Unlogged
      (noteRaised e : Run ρ μ κ υ ε Unit) (Exec.raise e) := fun e =>
    (Exec.sync_raise e).update_left fun _ _ h => mark_unlogged h _
  rw [addStepNote, stepNote]
  cases note.repr with
  | error e => exact hraise e
  | ok text =>
      simp only [addNote]
      cases first.addNote with
      | error e => exact hraise e
      | ok =>
          refine Exec.sync_update ?_
          rintro s _ ⟨log, rfl⟩
          exact ⟨log, rfl⟩

theorem runHook_sync (hook : Hook) :
    Exec.Sync Unlogged (runHook hook : StepHook ρ μ κ υ ε) (runHook hook) := by
  cases hook with
  | checkInvariants =>
      exact checkInvariants_sync.bind fun _ => Exec.sync_pure none
  | check call => exact check_sync call

/-- The hooks of a world, with the marks and without. -/
theorem runHooks_sync (hooks : List Hook) (first : Option (Exc ε))
    (notes : List (Exc ε)) :
    Exec.Sync Unlogged
      (runHooks hooks first notes :
        Run ρ μ κ υ ε (Option (Exc ε) × List (Exc ε)))
      (collect (hooks.map runHook) first notes) := by
  have hmark : ∀ (m : Mark μ υ ε) (s t : World ρ μ κ υ ε), Unlogged s t →
      Unlogged (s.mark m) t := fun m _ _ h => mark_unlogged h m
  induction hooks generalizing first notes with
  | nil => exact Exec.sync_pure (first, notes)
  | cons hook hooks ih =>
      rw [runHooks, List.map_cons, collect]
      refine (runHook_sync hook).attempt.bind fun r => ?_
      cases r with
      | ok soft =>
          cases soft with
          | none => exact ih first notes
          | some soft => exact ih first (notes ++ [soft])
      | error e =>
          dsimp only
          split
          · cases first with
            | none => exact (ih (some e) notes).update_left (hmark _)
            | some first => exact ih (some first) (notes ++ [e])
          · split
            · exact (Exec.sync_raise e).update_left (hmark _)
            · exact (Exec.sync_raise e).update_left (hmark _)

/-- The end of a step of a world raises what its hooks do. -/
theorem afterStep_sync :
    Exec.Sync Unlogged (afterStep : Run ρ μ κ υ ε Unit)
      (Exec.look fun w => stepHooks (w.hooks.map runHook)) := by
  refine Exec.sync_look fun w w' h => ?_
  obtain ⟨log, rfl⟩ := h
  refine Exec.Sync.update_left ?_ ?_
  · refine (runHooks_sync w.hooks none []).bind fun r => ?_
    obtain ⟨first, notes⟩ := r
    cases first with
    | none => exact Exec.sync_pure ()
    | some first =>
        exact Exec.Sync.bind
          (Exec.Sync.forEach fun note _ => addStepNote_sync first note)
          fun _ => Exec.sync_raise first
  · exact fun _ _ h => mark_unlogged h _

/-! ## `given_seed`, `check` and the drive -/

/-- An exception of the test is what `given_seed` raises. -/
def GivenSeedKeeps (isUsageError : Exc ε → Bool)
    (test : ℤ → Run ρ μ κ υ ε Unit) (seed : ℤ) (w : World ρ μ κ υ ε) : Prop :=
  ∀ exc w', test seed w = (.raised exc, w') →
    (annotated isUsageError test seed w).1 = .raised exc

/-- Where it is annotated, it takes the note. -/
def GivenSeedAnnotates (isUsageError : Exc ε → Bool)
    (test : ℤ → Run ρ μ κ υ ε Unit) (seed : ℤ) (w : World ρ μ κ υ ε) : Prop :=
  ∀ exc w', test seed w = (.raised exc, w') → isUsageError exc = false →
    exc.kind = .exception → ∀ e, exc.addNote = .error e → e = exc

theorem givenSeedKeeps_iff {isUsageError : Exc ε → Bool}
    {test : ℤ → Run ρ μ κ υ ε Unit} {seed : ℤ} {w : World ρ μ κ υ ε} :
    GivenSeedKeeps isUsageError test seed w ↔
      GivenSeedAnnotates isUsageError test seed w := by
  refine forall₃_congr fun exc w' htest => ?_
  have hattempt : Exec.attempt (test seed) w = (.ok (.error exc), w') := by
    simp only [Exec.attempt, htest]
  rw [annotated, Exec.bind_of_ok hattempt]
  by_cases husage : isUsageError exc = true
  · simp [husage, Exec.raise]
  · by_cases hkind : exc.kind = .exception
    · simp only [husage, hkind, addNote]
      cases hnote : exc.addNote with
      | ok => simp [Exec.raise, Exec.update, bind]
      | error e => simp [Exec.raise, bind]
    · simp [husage, hkind, Exec.raise]

/-- What `add_note` raises that `contextlib.suppress(Exception)` lets out. -/
def escaping (failure : Exc ε) : Option (Exc ε) :=
  match failure.addNote with
  | .ok () => none
  | .error e => if e.kind = .exception then none else some e

theorem escaping_eq_none {failure : Exc ε} : escaping failure = none ↔
    ∀ e, failure.addNote = .error e → e.kind = .exception := by
  rw [escaping]
  cases failure.addNote with
  | ok => simp
  | error e => simp

theorem suppress_addNote (failure : Exc ε) (text : String)
    (w : World ρ μ κ υ ε) : ∃ notes, suppress (addNote failure text) w =
      ((escaping failure).elim (.ok ()) .raised, { w with notes := notes }) := by
  rw [suppress, addNote, escaping]
  cases failure.addNote with
  | ok => exact ⟨_, rfl⟩
  | error e =>
      refine ⟨w.notes, ?_⟩
      by_cases hkind : e.kind = .exception
      · simp [bind, Exec.attempt, Exec.raise, hkind, pure]
      · simp [bind, Exec.attempt, Exec.raise, hkind]

/-- Runs that return leave the rest of the sweep to be done. -/
theorem check_append (isUsageError : Exc ε → Bool)
    (run : ℤ → Run ρ μ κ υ ε Unit) (onFailure : OnFailure) {pre : List ℤ}
    (seeds : List ℤ) {checked : ℕ} {w u : World ρ μ κ υ ε}
    (h : Exec.forEach run pre w = (.ok (), u)) :
    Seedloop.check isUsageError run onFailure (pre ++ seeds) checked w =
      Seedloop.check isUsageError run onFailure seeds (checked + pre.length)
        u := by
  induction pre generalizing w checked with
  | nil =>
      obtain rfl : w = u := congrArg Prod.snd h
      rfl
  | cons seed pre ih =>
      rw [Exec.forEach] at h
      obtain ⟨_, t, ht, h⟩ := Exec.bind_eq_ok h
      have hattempt : Exec.attempt (run seed) w = (.ok (.ok ()), t) := by
        simp only [Exec.attempt, ht]
      rw [List.cons_append, Seedloop.check, Exec.bind_of_ok hattempt]
      refine (ih h).trans ?_
      rw [List.length_cons, Nat.add_assoc checked 1, Nat.add_comm 1]

/-- What `check` makes of a run that raised, if the note can be put on that. -/
def reported (isUsageError : Exc ε → Bool) (onFailure : OnFailure)
    (checked : ℕ) (seed : ℤ) (error : Exc ε) : Res (Exc ε) (CheckResult ε) :=
  if isUsageError error ∨ error.kind ≠ .exception ∨ onFailure = .raise then
    .raised error
  else .ok ⟨checked + 1, some seed, some error⟩

/-- `check` puts a note on what a run raised, and nothing gets out of that. -/
def CheckAnnotates (isUsageError : Exc ε → Bool) (error : Exc ε) : Prop :=
  isUsageError error = false → error.kind = .exception →
    ∀ e, error.addNote = .error e → e.kind = .exception

/-- A run that raises ends the sweep. -/
theorem check_raised (isUsageError : Exc ε → Bool)
    (run : ℤ → Run ρ μ κ υ ε Unit) (onFailure : OnFailure) {seed : ℤ}
    (post : List ℤ) (checked : ℕ) {u v : World ρ μ κ υ ε} {error : Exc ε}
    (hrun : run seed u = (.raised error, v)) :
    ∃ notes r, Seedloop.check isUsageError run onFailure (seed :: post) checked
        u = (r, { v with notes := notes }) ∧
      (r = reported isUsageError onFailure checked seed error ↔
        CheckAnnotates isUsageError error) := by
  have hattempt : Exec.attempt (run seed) u = (.ok (.error error), v) := by
    simp only [Exec.attempt, hrun]
  obtain ⟨notes, hnote⟩ := suppress_addNote error
    ("seedloop: failing seed=" ++ toString seed
      ++ " (replay with seedloop.replay)") v
  rw [Seedloop.check, Exec.bind_of_ok hattempt]
  by_cases husage : isUsageError error = true
  · refine ⟨v.notes, .raised error, by simp [husage, Exec.raise], ?_⟩
    simp [reported, CheckAnnotates, husage]
  · by_cases hkind : error.kind = .exception
    · simp only [if_neg husage, if_pos hkind]
      cases hescaping : escaping error with
      | none =>
          rw [hescaping] at hnote
          rw [Exec.bind_of_ok hnote]
          have hannotates : CheckAnnotates isUsageError error :=
            fun _ _ => escaping_eq_none.mp hescaping
          cases onFailure with
          | raise =>
              refine ⟨notes, .raised error, rfl, ?_⟩
              simp [reported, hannotates]
          | return_ =>
              refine ⟨notes, .ok ⟨checked + 1, some seed, some error⟩, rfl, ?_⟩
              simp [reported, husage, hkind, hannotates]
      | some e =>
          rw [hescaping] at hnote
          rw [Exec.bind_of_raised (congrArg Prod.fst hnote), hnote]
          refine ⟨notes, .raised e, rfl, ?_⟩
          have hnot : ¬ CheckAnnotates isUsageError error := by
            intro h
            rw [escaping_eq_none.mpr (h (by simpa using husage) hkind)]
              at hescaping
            cases hescaping
          -- What gets out is no `Exception`, so it is not what the run raised.
          have hother : e ≠ error := by
            rintro rfl
            rw [escaping] at hescaping
            split at hescaping
            · cases hescaping
            · split at hescaping
              · cases hescaping
              · next hne =>
                cases hescaping
                exact hne hkind
          have hne : Res.raised e ≠
              reported isUsageError onFailure checked seed error := by
            rw [reported]
            split
            · exact fun h => hother (Res.raised.inj h)
            · simp
          exact iff_of_false hne hnot
    · refine ⟨v.notes, .raised error, by simp [husage, hkind, Exec.raise], ?_⟩
      simp [reported, CheckAnnotates, hkind]

/-- What the first seed that fails raises is what `check` raises or returns,
if and only if nothing gets out of annotating it. -/
theorem check_keeps_iff (isUsageError : Exc ε → Bool)
    (run : ℤ → Run ρ μ κ υ ε Unit) (onFailure : OnFailure) {pre : List ℤ}
    {seed : ℤ} {post : List ℤ} {checked : ℕ} {w u v : World ρ μ κ υ ε}
    {error : Exc ε} (hpre : Exec.forEach run pre w = (.ok (), u))
    (hrun : run seed u = (.raised error, v)) :
    (Seedloop.check isUsageError run onFailure (pre ++ seed :: post)
        checked w).1 =
      reported isUsageError onFailure (checked + pre.length) seed error ↔
    CheckAnnotates isUsageError error := by
  obtain ⟨notes, r, hend, hr⟩ :=
    check_raised isUsageError run onFailure post (checked + pre.length) hrun
  rw [check_append isUsageError run onFailure (seed :: post) hpre, hend]
  exact hr

section

variable [DecidableEq ε]

/-- Nothing is raised but `f`. -/
def Keeps (f : Exc ε) (r : Res (Exc ε) Unit) : Prop := r = .ok () ∨ r = .raised f

/-- What comes of asking `e` for its text, and of putting that on `f` where it
is not yet, is an `Exception` or `f`. -/
structure TakesNote (f e : Exc ε) (w : World ρ μ κ υ ε) : Prop where
  text : ∀ x, e.describe = .error x → x = f
  note : ∀ text, e.describe = .ok text → (f, text) ∉ w.notes →
    ∀ x, f.addNote = .error x → x.kind = .exception ∨ x = f

theorem noteError_keeps_iff {f e : Exc ε} {w : World ρ μ κ υ ε} :
    Keeps f (noteError f e w).1 ↔ TakesNote f e w := by
  have hraised : ∀ (x : Exc ε) (w : World ρ μ κ υ ε),
      (noteRaised x w : Res (Exc ε) Unit × World ρ μ κ υ ε).1 = .raised x :=
    fun _ _ => rfl
  rw [noteError]
  cases htext : e.describe with
  | error x =>
      rw [hraised]
      refine ⟨fun h => ⟨fun y hy => ?_, by simp [htext]⟩, fun h => ?_⟩
      · cases htext.symm.trans hy
        simpa [Keeps] using h
      · rw [h.text x htext]
        exact .inr rfl
  | ok text =>
      have hiff : TakesNote f e w ↔ ((f, text) ∉ w.notes →
          ∀ x, f.addNote = .error x → x.kind = .exception ∨ x = f) := by
        refine ⟨fun h => h.note text htext, fun h => ⟨by simp [htext], ?_⟩⟩
        intro text' htext'
        cases htext.symm.trans htext'
        exact h
      rw [hiff]
      simp only [World.note, Exec.look]
      split
      · next hnoted => exact iff_of_true (.inl rfl) fun h => absurd hnoted h
      · next hnew =>
        cases f.addNote with
        | ok => exact iff_of_true (.inl rfl) (by simp)
        | error x =>
            by_cases hkind : x.kind = .exception
            · simp [hkind, Keeps, pure]
            · simp [hkind, hraised, Keeps, hnew]

theorem secondary_of_raised {f e : Exc ε} {x : Run ρ μ κ υ ε Unit}
    {w v : World ρ μ κ υ ε} (hx : x w = (.raised e, v)) :
    secondary (some f) x w =
      if e.kind = .exception then noteError f e v else (.raised e, v) := by
  simp only [secondary, bind, Exec.attempt, hx]
  split <;> rfl

theorem noteUnwound_of_raised {f e : Exc ε} {w : World ρ μ κ υ ε}
    (he : w.exception? mainTask = some e) (hne : e ≠ f) :
    noteUnwound (some f) w = noteError f e w := by
  simp only [noteUnwound, Exec.look, he]
  rw [if_pos hne]

theorem noteReplaced_of_ne {f e : Exc ε} (hne : e ≠ f) :
    (noteReplaced (some f) e : Run ρ μ κ υ ε Unit) = noteError e f := by
  rw [noteReplaced, if_pos hne]

variable [Random ρ]

theorem tearDown_of_raised {f e : Exc ε} {w v : World ρ μ κ υ ε} (hne : e ≠ f)
    (hx : secondary (some f) cancelEverything
      (mark { w.clearHooks with tearingDown := true }
        (.tearingDown (some f) w.clearHooks.pendingTasks)) = (.raised e, v)) :
    Keeps e (tearDown (some f) w).1 ↔ TakesNote e f v := by
  rw [← noteError_keeps_iff]
  have hbody : tearDown (some f) w =
      (noteReplaced (some f) e >>= fun _ => Exec.raise e) v := by
    simp [tearDown, bind, Exec.attempt, Exec.update, hx]
  rw [hbody, noteReplaced_of_ne hne]
  simp only [bind]
  rcases noteError e f v with ⟨r, t⟩
  cases r with
  | ok => simp [Keeps, Exec.raise]
  | raised x => rfl
  | pending => rfl

/-- What `_drive` puts a note on goes on, if and only if nothing else gets out
of that: what is in flight, where a later error is absorbed, where the scenario
has raised on its way out, and the error that takes its place where one is not
absorbed. -/
structure DriveKeeps (ρ μ κ υ ε : Type) [Raisable ε] [DecidableEq ε]
    [Random ρ] : Prop where
  secondary : ∀ (f e : Exc ε) (x : Run ρ μ κ υ ε Unit) w v,
    x w = (.raised e, v) → e.kind = .exception →
    (Keeps f (World.secondary (some f) x w).1 ↔ TakesNote f e v)
  unwound : ∀ (f e : Exc ε) (w : World ρ μ κ υ ε),
    w.exception? mainTask = some e → e ≠ f →
    (Keeps f (noteUnwound (some f) w).1 ↔ TakesNote f e w)
  replaced : ∀ (f e : Exc ε) (w : World ρ μ κ υ ε), e ≠ f →
    (Keeps e (noteReplaced (some f) e w).1 ↔ TakesNote e f w)
  tearDown : ∀ (f e : Exc ε) (w v : World ρ μ κ υ ε), e ≠ f →
    World.secondary (some f) cancelEverything
      (mark { w.clearHooks with tearingDown := true }
        (.tearingDown (some f) w.clearHooks.pendingTasks)) = (.raised e, v) →
    (Keeps e (World.tearDown (some f) w).1 ↔ TakesNote e f v)

theorem drive_keeps : DriveKeeps ρ μ κ υ ε where
  secondary f e x w v hx hkind := by
    rw [secondary_of_raised hx, if_pos hkind]
    exact noteError_keeps_iff
  unwound f e w he hne := by
    rw [noteUnwound_of_raised he hne]
    exact noteError_keeps_iff
  replaced f e w hne := by
    rw [noteReplaced_of_ne hne]
    exact noteError_keeps_iff
  tearDown _ _ _ _ hne hx := tearDown_of_raised hne hx

/-- The failure that is annotated is what propagates exactly where nothing else
comes of annotating it: in a step and in `given_seed` nothing at all, and in
`check` and the drive nothing that is no `Exception`. -/
theorem annotated_failure_kept_iff (isUsageError : Exc ε → Bool) :
    (∀ (hooks : List (StepHook ρ μ κ υ ε)) w,
      StepKeeps hooks w ↔ StepAnnotates hooks w) ∧
    (∀ w : World ρ μ κ υ ε,
      (afterStep w).1 = (stepHooks (w.hooks.map runHook) w).1) ∧
    (∀ (test : ℤ → Run ρ μ κ υ ε Unit) seed w,
      GivenSeedKeeps isUsageError test seed w ↔
        GivenSeedAnnotates isUsageError test seed w) ∧
    (∀ (run : ℤ → Run ρ μ κ υ ε Unit) onFailure pre seed post checked w u v
        error, Exec.forEach run pre w = (.ok (), u) →
      run seed u = (.raised error, v) →
      ((Seedloop.check isUsageError run onFailure (pre ++ seed :: post)
          checked w).1 =
        reported isUsageError onFailure (checked + pre.length) seed error ↔
      CheckAnnotates isUsageError error)) ∧
    DriveKeeps ρ μ κ υ ε := by
  refine ⟨fun hooks w => stepKeeps_iff, fun w => ?_,
    fun test seed w => givenSeedKeeps_iff, ?_, drive_keeps⟩
  · exact (afterStep_sync w w ⟨w.log, rfl⟩).1
  · intro run onFailure pre seed post checked w u v error hpre hrun
    exact check_keeps_iff isUsageError run onFailure hpre hrun

end

/-- An exception without a text: asking for one raises another. -/
inductive Unprintable where
  | unprintable
  | fromRepr
  deriving DecidableEq

instance : Raisable Unprintable where
  kind _ := .exception
  isRuntimeError _ := false
  typeName _ := "Exception"
  str _ := .error .fromRepr
  repr _ := .error .fromRepr
  addNote _ := .ok ()
  text := SysError.typeName
  textRepr := SysError.typeName

/-- A property fails in the step in which the predicate of a `run_until`
raises what cannot be printed. -/
def hiddenCheck : List (List (List (UserOp ℕ ℕ ℕ Unprintable))) :=
  [[[.always "p" fun v => if v.user = 0 then .holds else .fails,
    .runUntil (fun v => if v.user = 0 then .fails
      else .raises (.user .unprintable)) none 5,
    .await 0 [.runUntil], .set 1]],
    [[.endRunUntil, .finish 0 .cancelled]]]

/-- The first failure of the run is the property's, and it is neither what the
run ends with nor a note on that. -/
theorem hiddenCheck_loses_the_failure :
    let ended := drive 0 (.init Toggle.low Toggle.low 0 (some 50)
      (fun n => hiddenCheck.getD (n - 1) []) 0)
    ended.2.log.findSome? Mark.failure? =
        some (.sys 1 (.invariant "p" 0)) ∧
      ended.1 = .raised (.user .fromRepr) ∧ ended.2.notes = [] := by
  intro ended
  have hraised : (match ended.1 with
      | .raised e => some e
      | _ => none) = some (.user .fromRepr) := by decide +kernel
  refine ⟨by decide +kernel, ?_, by decide +kernel⟩
  generalize ended.1 = r at hraised
  cases r with
  | raised e => rw [Option.some.inj hraised]
  | _ => cases hraised

end World

end Seedloop
