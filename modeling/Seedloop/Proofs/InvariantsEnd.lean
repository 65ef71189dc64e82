import Seedloop.Proofs.InFlight

/-!
# Invariants end with the run

The hook of the properties is put on the after-step list once, by the first
property that is registered, and taken off with the rest of the list: between
the two steps that wind a passing run up, or before the teardown when an error
is in flight. `always` does nothing once the teardown has begun. So the hook is
on the list in a teardown only if it was put there after the clearing, which
takes a run that passes and whose first property is registered in its very last
step; and then, if anything is left to cancel, its steps are checked.
-/

namespace Seedloop

/-- What a mark does to the hook of the properties. -/
def Mark.hook? {μ υ ε : Type} : Mark μ υ ε → Option Bool
  | .installed => some true
  | .cleared => some false
  | _ => none

namespace Monitor

variable {μ υ ε : Type}

theorem run_hooked {ms : List (Mark μ υ ε)} {m m' : Monitor}
    (h : Machine.run Monitor.step m ms = some m') (hms : .installed ∉ ms)
    (hm : m.hooked = false) :
    m'.hooked = false ∧ ∀ name, .evaluated name ∉ ms := by
  induction ms generalizing m with
  | nil =>
      cases h
      exact ⟨hm, by simp⟩
  | cons x ms ih =>
      obtain ⟨u, hu, hrun⟩ := Machine.run_cons_eq_some.mp h
      rw [List.mem_cons, not_or] at hms
      have hstep : u.hooked = false ∧ ∀ name, x ≠ .evaluated name := by
        cases x with
        | installed => exact absurd rfl hms.1
        | evaluated name =>
            rw [Monitor.step, hm] at hu
            cases hu
        | cleared =>
            cases hu
            exact ⟨rfl, by simp⟩
        | always | tearingDown =>
            simp only [Monitor.step] at hu
            split at hu
            · cases hu
            · cases hu
              exact ⟨hm, by simp⟩
        | _ =>
            cases hu
            exact ⟨hm, by simp⟩
      obtain ⟨hhooked, hnone⟩ := ih hrun hms.2 hstep.1
      refine ⟨hhooked, fun name => ?_⟩
      rw [List.mem_cons, not_or]
      exact ⟨(hstep.2 name).symm, hnone name⟩

/-- Nothing puts the hook on the list in a teardown. -/
theorem run_tearingDown {ms : List (Mark μ υ ε)} {m m' : Monitor}
    (h : Machine.run Monitor.step m ms = some m') (hm : m.tearing = true) :
    .installed ∉ ms := by
  induction ms generalizing m with
  | nil => simp
  | cons x ms ih =>
      obtain ⟨u, hu, hrun⟩ := Machine.run_cons_eq_some.mp h
      have hstep : u.tearing = true ∧ x ≠ .installed := by
        cases x with
        | installed =>
            simp [Monitor.step, hm] at hu
        | always | tearingDown | evaluated =>
            simp only [Monitor.step] at hu
            split at hu <;> cases hu <;> exact ⟨hm, by simp⟩
        | _ =>
            cases hu
            exact ⟨hm, by simp⟩
      rw [List.mem_cons, not_or]
      exact ⟨hstep.2.symm, ih hrun hstep.1⟩

end Monitor

namespace World

variable {ρ μ κ υ ε : Type} [DecidableEq ε] [Raisable ε] [Random ρ]

/-- No property is evaluated in a teardown, unless no error is in flight,
something is left to cancel, and the first property of the run was registered
after its list was cleared. -/
theorem teardown_evaluates_nothing (netRng faultsRng : ρ) (user : υ)
    (maxSteps : Option ℕ) (script : ℕ → List (List (UserOp μ κ υ ε)))
    (horizon : ℕ) (main : κ) {pre post : List (Mark μ υ ε)}
    {failure : Option (Exc ε)} {pending : List ℕ}
    (hlog : (drive main (.init netRng faultsRng user maxSteps script
      horizon)).2.log = pre ++ .tearingDown failure pending :: post)
    (hfirst : failure = none → pending ≠ [] →
      ¬ [.cleared, .installed].Sublist pre) (name : String) :
    .evaluated name ∉ post := by
  obtain ⟨result, ⟨u, ms, hs, hpending, hpre, ht⟩, -⟩ :=
    drive_drove main rfl rfl hlog
  have hpast := hs.past.trans ht.past
  have hmon := hpast.monitor
  rw [← List.append_assoc, ← hpre] at hmon
  obtain ⟨m, hm, hrest⟩ := Machine.run_append_eq_some.mp hmon
  obtain ⟨m', htear, hpost⟩ := Machine.run_cons_eq_some.mp hrest
  simp only [Monitor.step] at htear
  split at htear
  · cases htear
  cases htear
  have hnone := Monitor.run_tearingDown hpost rfl
  by_cases hidle : pending = []
  · have hms := ht.idle (hpending.trans hidle)
    rw [hidle] at hms
    have := (List.cons.inj (List.append_cancel_left hms)).2
    rw [this]
    simp
  -- The list has not got the hook when the teardown begins.
  refine (Monitor.run_hooked hpost hnone ?_).2 name
  cases failure with
  | some f =>
      rw [hpre] at hm
      obtain ⟨u, -, hu⟩ := Machine.run_concat_eq_some.mp hm
      cases hu
      rfl
  | none =>
      have hcleared : .cleared ∈ pre := by
        rw [hpre]
        exact List.mem_append_left _ hs.cleared
      have hsub := hfirst rfl hidle
      obtain ⟨a, b, rfl⟩ := List.append_of_mem hcleared
      obtain ⟨u, -, hu⟩ := Machine.run_append_eq_some.mp hm
      obtain ⟨v, hv, hb⟩ := Machine.run_cons_eq_some.mp hu
      cases hv
      refine (Monitor.run_hooked hb (fun hmem => hsub ?_) rfl).1
      refine List.Sublist.trans ?_ (List.sublist_append_right a _)
      exact (List.singleton_sublist.mpr hmem).cons_cons _

/-- A task is left when the scenario returns, and a property was registered
before. -/
def earlyProperty : List (List (List (UserOp ℕ ℕ ℕ Plain))) :=
  [[[.always "p" fun _ => .holds, .createTask true 1, .finish 0 .returned]],
    [[.await 1 [.ready 5]]], [], [[.finish 1 .cancelled]]]

theorem teardown_evaluates_nothing_earlyProperty :
    ∃ pre post, (driven earlyProperty).2.log =
      pre ++ .tearingDown none [1] :: post ∧ .evaluated "p" ∉ post := by
  have hbegins : (driven earlyProperty).2.log.findSome? Mark.teardown? =
      some (none, [1]) := by decide +kernel
  have horder : ¬ [false, true].Sublist
      (((driven earlyProperty).2.log.takeWhile (!·.begins)).filterMap
        Mark.hook?) := by decide +kernel
  obtain ⟨post, hlog, -⟩ := exists_begins hbegins
  refine ⟨_, post, hlog, ?_⟩
  refine teardown_evaluates_nothing Toggle.low Toggle.low 0 (some 50)
    (fun n => earlyProperty.getD (n - 1) []) 0 0 hlog (fun _ _ h => ?_) "p"
  exact horder (h.filterMap Mark.hook?)

/-- The first property is registered in the last step of a run that passes,
and fails when the task that is left is cancelled. -/
def lateProperty : List (List (List (UserOp ℕ ℕ ℕ Plain))) :=
  [[[.createTask true 1, .finish 0 .returned]],
    [[.await 1 [.ready 5], .net (.callSoon 9)]],
    [[.always "p" fun v => if v.user = 0 then .holds else .fails]],
    [[.set 1, .finish 1 .cancelled]]]

theorem late_property_evaluated :
    ∃ pre post, (driven lateProperty).2.log =
        pre ++ .tearingDown none [1] :: post ∧
      (∃ name, .evaluated name ∈ post) ∧
      ∃ n t, (driven lateProperty).1 = .raised (.sys n (.invariant "p" t)) := by
  have hbegins : (driven lateProperty).2.log.findSome? Mark.teardown? =
      some (none, [1]) := by decide +kernel
  have hany : (((driven lateProperty).2.log.dropWhile (!·.begins)).tail.any
      Mark.isEvaluated) = true := by decide +kernel
  have hraised : (driven lateProperty).1.error? =
      some (.sys 4 (.invariant "p" 0)) := by decide +kernel
  obtain ⟨post, hlog, hdrop⟩ := exists_begins hbegins
  refine ⟨_, post, hlog, ?_, 4, 0, ?_⟩
  · rw [hdrop] at hany
    obtain ⟨m, hm, hm'⟩ := List.any_eq_true.mp hany
    cases m with
    | evaluated name => exact ⟨name, hm⟩
    | _ => cases hm'
  · exact Res.eq_raised hraised

end World

end Seedloop
