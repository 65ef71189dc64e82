import Seedloop.Proofs.Annotations
import Seedloop.Ref.Sweep

/-!
# What a sweep reports

`check` goes from seed to seed as long as the runs return. What the first run
to raise has raised it sorts by class: an `Exception` is the failing seed, and
what is not one ends the sweep. That is meant for an interrupt, which the run
of a long sweep is stopped with; but a scenario can also end cancelled, and a
`CancelledError` is no `Exception`. Nor need it be what comes of putting the
note on an `Exception`, and then the sweep ends with that.
-/

namespace Seedloop

namespace World

variable {ρ μ κ υ ε : Type} [Raisable ε]

/-- The runs of the seeds before `seed` returned, and its own raised. -/
structure FirstToRaise (run : ℤ → Run ρ μ κ υ ε Unit) (seeds : List ℤ)
    (w : World ρ μ κ υ ε) (pre : List ℤ) (seed : ℤ) (error : Exc ε)
    (v : World ρ μ κ υ ε) : Prop where
  seeds_eq : ∃ post, seeds = pre ++ seed :: post
  raised : ∃ u, Exec.forEach run pre w = (.ok (), u) ∧
    run seed u = (.raised error, v)

/-- The first run to raise is reported, as it left things but for the note;
and if none does, that all of them were run. -/
structure SweepReports (isUsageError : Exc ε → Bool)
    (run : ℤ → Run ρ μ κ υ ε Unit) (seeds : List ℤ) (w : World ρ μ κ υ ε) :
    Prop where
  failing : ∀ pre seed error v, FirstToRaise run seeds w pre seed error v →
    ∃ notes, Seedloop.check isUsageError run .return_ seeds 0 w =
      (.ok ⟨pre.length + 1, some seed, some error⟩, { v with notes := notes })
  passing : ∀ u, Exec.forEach run seeds w = (.ok (), u) →
    Seedloop.check isUsageError run .return_ seeds 0 w =
      (.ok ⟨seeds.length, none, none⟩, u)

/-- What `check` can report: an `Exception`, and nothing gets out of putting a
note on it. -/
structure Reportable (error : Exc ε) : Prop where
  kind : error.kind = .exception
  note : ∀ e, error.addNote = .error e → e.kind = .exception

theorem SweepReports.iff {isUsageError : Exc ε → Bool}
    {run : ℤ → Run ρ μ κ υ ε Unit} {seeds : List ℤ} {w : World ρ μ κ υ ε}
    (h : ∀ pre seed error v, FirstToRaise run seeds w pre seed error v →
      isUsageError error = false) :
    SweepReports isUsageError run seeds w ↔
      ∀ pre seed error v, FirstToRaise run seeds w pre seed error v →
        Reportable error := by
  have hends : ∀ pre seed error v,
      FirstToRaise run seeds w pre seed error v →
      ∃ notes r, Seedloop.check isUsageError run .return_ seeds 0 w =
          (r, { v with notes := notes }) ∧
        (r = .ok ⟨pre.length + 1, some seed, some error⟩ ↔
          Reportable error) := by
    intro pre seed error v hfirst
    have husage := h pre seed error v hfirst
    obtain ⟨⟨post, rfl⟩, u, hpre, hrun⟩ := hfirst
    obtain ⟨notes, r, hend, hr⟩ := check_raised isUsageError run .return_ post
      (0 + pre.length) hrun
    refine ⟨notes, r, ?_, ?_⟩
    · rw [check_append isUsageError run .return_ (seed :: post) hpre, hend]
    · by_cases hkind : error.kind = .exception
      · have hreported : reported isUsageError .return_ (0 + pre.length) seed
            error = .ok ⟨pre.length + 1, some seed, some error⟩ := by
          simp [reported, husage, hkind]
        rw [← hreported, hr]
        exact ⟨fun hnote => ⟨hkind, hnote husage hkind⟩, fun h _ _ => h.note⟩
      · have hraised : r = .raised error := by
          have := hr.mpr fun _ hk => absurd hk hkind
          simpa [reported, hkind] using this
        rw [hraised]
        exact iff_of_false (by simp) fun h => hkind h.kind
  constructor
  · intro hreports pre seed error v hfirst
    obtain ⟨notes, r, hend, hr⟩ := hends pre seed error v hfirst
    obtain ⟨notes', hend'⟩ := hreports.failing pre seed error v hfirst
    exact hr.mp (congrArg Prod.fst (hend.symm.trans hend'))
  · intro hreportable
    refine ⟨fun pre seed error v hfirst => ?_, fun u hu => ?_⟩
    · obtain ⟨notes, r, hend, hr⟩ := hends pre seed error v hfirst
      rw [hr.mpr (hreportable pre seed error v hfirst)] at hend
      exact ⟨notes, hend⟩
    · have hend : Seedloop.check isUsageError run .return_ (seeds ++ []) 0 w =
          _ := check_append isUsageError run .return_ [] hu
      rw [List.append_nil, Nat.zero_add] at hend
      exact hend

section

variable [DecidableEq ε] [Random ρ]

/-- A sweep over worlds of their own reports the first run to raise, and that
none did, if and only if what that run raised is an `Exception` and nothing
gets out of putting the note on it; interrupts and usage errors apart. -/
theorem sweep_reports_iff (isUsageError : Exc ε → Bool) (streams : ℤ → ρ × ρ)
    (maxSteps : Option ℕ) (horizon : ℕ) (main : κ)
    (scenario : Scenario μ κ υ ε) (seeds : List ℤ) (w : World ρ μ κ υ ε)
    (h : ∀ pre seed error v,
      FirstToRaise (runOne streams maxSteps horizon main scenario) seeds w pre
        seed error v →
      error.kind ≠ .interrupt ∧ isUsageError error = false) :
    SweepReports isUsageError
        (runOne streams maxSteps horizon main scenario) seeds w ↔
      ∀ pre seed error v,
        FirstToRaise (runOne streams maxSteps horizon main scenario) seeds w
          pre seed error v →
        Reportable error :=
  SweepReports.iff fun pre seed error v hfirst =>
    (h pre seed error v hfirst).2

end

theorem addNote_plain (e : Exc Plain) : e.addNote = .ok () := by
  cases e <;> rfl

theorem FirstToRaise.error_eq {run : ℤ → Run ρ μ κ υ Plain Unit}
    {seeds : List ℤ} {w v : World ρ μ κ υ Plain} {pre : List ℤ} {seed : ℤ}
    {error : Exc Plain} (h : FirstToRaise run seeds w pre seed error v) :
    (Seedloop.check (fun _ => false) run .raise seeds 0 w).1.error? =
      some error := by
  obtain ⟨⟨post, rfl⟩, u, hpre, hrun⟩ := h
  have hannotates : CheckAnnotates (fun _ => false) error := by
    intro _ _ e he
    rw [addNote_plain] at he
    cases he
  rw [(check_keeps_iff (fun _ => false) run .raise hpre hrun).mpr hannotates,
    reported, if_pos (by simp)]
  rfl

/-- What a scenario does with each seed, as the outcome of its task. -/
def endsWith (outcome : ℤ → Outcome Plain) : Scenario ℕ ℕ ℕ Plain :=
  fun seed user => (user, .ok fun _ => [[.finish 0 (outcome seed)]])

/-- A limit of fifty steps for each run. -/
abbrev sweepOf (outcome : ℤ → Outcome Plain) :
    ℤ → Run Toggle ℕ ℕ ℕ Plain Unit :=
  runOne (fun _ => (.low, .low)) (some 50) 0 0 (endsWith outcome)

/-- The world a sweep begins in: nothing was run. -/
def nothingRun : World Toggle ℕ ℕ ℕ Plain :=
  .init .low .low 0 (some 50) (fun _ => []) 0

/-- A scenario that fails on seed 1. -/
def failsOnOne (seed : ℤ) : Outcome Plain :=
  if seed = 1 then .raised (.user (.exception 3)) else .returned

theorem sweep_reports_iff_failsOnOne :
    SweepReports (fun _ => false) (sweepOf failsOnOne) [0, 1, 2] nothingRun := by
  have hcheck : (Seedloop.check (fun _ => false) (sweepOf failsOnOne) .raise
      [0, 1, 2] 0 nothingRun).1.error? = some (.user (.exception 3)) := by
    decide +kernel
  have hfirst : ∀ pre seed error v,
      FirstToRaise (sweepOf failsOnOne) [0, 1, 2] nothingRun pre seed error v →
      error = .user (.exception 3) := by
    intro pre seed error v h
    have herror := h.error_eq
    rw [hcheck, Option.some.injEq] at herror
    exact herror.symm
  have hapart : ∀ pre seed error v,
      FirstToRaise (sweepOf failsOnOne) [0, 1, 2] nothingRun pre seed error v →
      error.kind ≠ .interrupt ∧ false = false := by
    intro pre seed error v h
    rw [hfirst pre seed error v h]
    exact ⟨by decide, rfl⟩
  have hiff := sweep_reports_iff (fun _ => false) (fun _ => (Toggle.low, .low))
    (some 50) 0 0 (endsWith failsOnOne) [0, 1, 2] nothingRun hapart
  refine hiff.mpr ?_
  intro pre seed error v h
  rw [hfirst pre seed error v h]
  exact ⟨rfl, fun e he => by cases (addNote_plain _).symm.trans he⟩

/-- A scenario that ends cancelled raises no interrupt and is no misuse, yet it
ends the sweep, and no result names its seed. -/
theorem sweep_reports_cancelled :
    (∀ pre seed error v, FirstToRaise (sweepOf fun _ => .cancelled) [0, 1]
      nothingRun pre seed error v → error.kind ≠ .interrupt) ∧
    (Seedloop.check (fun _ => false) (sweepOf fun _ => .cancelled) .return_
      [0, 1] 0 nothingRun).1.error?.map Exc.kind = some .other ∧
    ¬ SweepReports (fun _ => false) (sweepOf fun _ => .cancelled) [0, 1]
      nothingRun := by
  have hraise : (Seedloop.check (fun _ => false) (sweepOf fun _ => .cancelled)
      .raise [0, 1] 0 nothingRun).1.error?.map Exc.kind = some .other := by
    decide +kernel
  have hcheck : (Seedloop.check (fun _ => false) (sweepOf fun _ => .cancelled)
      .return_ [0, 1] 0 nothingRun).1.error?.map Exc.kind = some .other := by
    decide +kernel
  have hrun : (sweepOf (fun _ => .cancelled) 0 nothingRun).1.error?.map
      Exc.kind = some .other := by
    decide +kernel
  refine ⟨?_, hcheck, fun hreports => ?_⟩
  · intro pre seed error v h
    rw [h.error_eq, Option.map_some, Option.some.injEq] at hraise
    rw [hraise]
    decide
  · rcases hr : sweepOf (fun _ => .cancelled) 0 nothingRun with ⟨r, v⟩
    rw [hr] at hrun
    cases r with
    | ok | pending => cases hrun
    | raised error =>
        obtain ⟨notes, hend⟩ := hreports.failing [] 0 error v
          ⟨⟨[1], rfl⟩, nothingRun, rfl, hr⟩
        rw [hend] at hcheck
        cases hcheck

end World

end Seedloop
