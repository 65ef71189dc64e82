import Seedloop.Proofs.NodeFailures

/-!
# The first failure of a run

What ends the run is in the variable of the drive, and what settles and tears
down after it goes through `_secondary`: a later error is a note on it. So the
first failure is kept once the drive has it. It has it from the moment on at
which a check or the loop raises; a scenario that raises is only looked at when
the stop steps are through, and what they raise takes its place. That goes for
one that lets a `CancelledError` out too. When the drive has begun to settle the
scenario, its being cancelled is the drive's own doing.

The rest is at the two ends. In one step, a check that raises something that is
no `Exception` ends the step at once, and a note that cannot be put on the first
failure is raised instead of it, as is what comes of a note of the drive if it
is no `Exception`. In the teardown, what says that the loop was stopped is taken
for that, and what the scenario raises is looked at no more.
-/

namespace Seedloop

section

variable {μ υ ε : Type} [Raisable ε]

/-- Nothing that takes the place of a failure. -/
structure Fine (ms : List (Mark μ υ ε)) : Prop where
  interrupted : ∀ e, .interrupted e ∉ ms
  noteRaised : ∀ e, .noteRaised e ∉ ms
  checks : ∀ e, .checkFailed e ∈ ms → e.kind = .exception

theorem Fine.of_subset {ms ms' : List (Mark μ υ ε)} (h : Fine ms)
    (hsub : ms' ⊆ ms) : Fine ms' :=
  ⟨fun e he => h.interrupted e (hsub he), fun e he => h.noteRaised e (hsub he),
    fun e he => h.checks e (hsub he)⟩

theorem Fine.not_usurps {ms : List (Mark μ υ ε)} (h : Fine ms) (e : Exc ε) :
    ¬ World.Usurps e ms := by
  rintro ⟨hkind, he | he | he⟩
  · exact h.interrupted e he
  · exact hkind (h.checks e he)
  · exact h.noteRaised e he

omit [Raisable ε] in
theorem failure?_of_isEvaluated {m : Mark μ υ ε} (h : m.isEvaluated = true) :
    m.failure? = none := by
  cases m with
  | evaluated => rfl
  | _ => cases h

omit [Raisable ε] in
theorem failure?_of_calm {m : Mark μ υ ε} {g : Exc ε} (h : m.calm = true)
    (hg : m.failure? = some g) :
    ∃ o, m = .finished World.mainTask o ∧ o.failure? = some g := by
  cases m with
  | finished task o =>
      rw [Mark.failure?] at hg
      split at hg
      · next htask => exact ⟨o, by rw [htask], hg⟩
      · cases hg
  | checkFailed | failed => cases h
  | _ => cases hg

/-- The first mark of what was raised is a failure, and it is what was raised
unless something took its place. -/
theorem Alarm.head {e : Exc ε} {as : List (Mark μ υ ε)} (h : Alarm e as)
    (hint : ∀ g, .interrupted g ∉ as) : ∃ m as', as = m :: as' ∧
      m.failure?.isSome = true ∧ (Fine as' →
        (m = .failed e ∧ e.saysStopped = .ok false ∨ m = .checkFailed e) ∧
          ∀ x ∈ as', x.failure? = none) := by
  cases h with
  | failed hkind hstop =>
      exact ⟨_, [], rfl, rfl, fun _ => ⟨.inl ⟨rfl, hstop⟩, by simp⟩⟩
  | check post hpost =>
      exact ⟨_, post, rfl, rfl, fun _ => ⟨.inr rfl, fun x hx =>
        failure?_of_isEvaluated (hpost x hx)⟩⟩
  | interrupt => exact absurd (List.mem_singleton_self _) (hint e)
  | instead f post m hpost hm =>
      refine ⟨_, _, rfl, rfl, fun hfine => ?_⟩
      rcases hm with ⟨rfl, -⟩ | ⟨rfl, hkind⟩
      · exact absurd (by simp) (hint e)
      · have := hfine.checks e (by simp)
        rw [hkind] at this
        cases this
  | note f post gs hpost =>
      exact ⟨_, _, rfl, rfl, fun hfine =>
        absurd (by simp) (hfine.noteRaised e)⟩

theorem Ended.head {e : Exc ε} {as : List (Mark μ υ ε)} (h : Ended e as)
    (hint : ∀ g, .interrupted g ∉ as) : ∃ m as', as = m :: as' ∧
      m.failure?.isSome = true ∧ (Fine as' →
        m.failure? = some e ∧ ∀ x ∈ as', x.failure? = none) := by
  cases h with
  | stopped n he => exact ⟨_, [], rfl, rfl, fun _ => ⟨rfl, by simp⟩⟩
  | alarm as h =>
      obtain ⟨m, as', rfl, hm, hfine⟩ := h.head hint
      refine ⟨m, as', rfl, hm, fun hf => ?_⟩
      obtain ⟨⟨rfl, -⟩ | rfl, hnone⟩ := hfine hf
      · exact ⟨rfl, hnone⟩
      · exact ⟨rfl, hnone⟩

/-- Nothing is taken for the error of a stopped loop. -/
structure Quiet (ms : List (Mark μ υ ε)) : Prop where
  interrupted : ∀ e, .interrupted e ∉ ms
  noteRaised : ∀ e, .noteRaised e ∉ ms
  taken : ∀ e, .checkFailed e ∈ ms → e.saysStopped ≠ .ok true
  unwound : ∀ e, .finished World.mainTask (.raised e) ∉ ms

theorem Quiet.of_subset {ms ms' : List (Mark μ υ ε)} (h : Quiet ms)
    (hsub : ms' ⊆ ms) : Quiet ms' :=
  ⟨fun e he => h.interrupted e (hsub he), fun e he => h.noteRaised e (hsub he),
    fun e he => h.taken e (hsub he), fun e he => h.unwound e (hsub he)⟩

theorem Quiet.append {ms ms' : List (Mark μ υ ε)} (h : Quiet ms)
    (h' : Quiet ms') : Quiet (ms ++ ms') :=
  ⟨fun e he => (List.mem_append.mp he).elim (h.interrupted e) (h'.interrupted e),
    fun e he => (List.mem_append.mp he).elim (h.noteRaised e) (h'.noteRaised e),
    fun e he => (List.mem_append.mp he).elim (h.taken e) (h'.taken e),
    fun e he => (List.mem_append.mp he).elim (h.unwound e) (h'.unwound e)⟩

theorem Subsided.failure? {ms : List (Mark μ υ ε)} (h : Subsided ms)
    (hquiet : Quiet ms) : ∀ m ∈ ms, m ≠ .finished World.mainTask .cancelled →
      m.failure? = none := by
  induction h with
  | calm ms hcalm =>
      intro m hm hne
      refine Option.eq_none_iff_forall_ne_some.mpr fun g hg => ?_
      obtain ⟨o, rfl, ho⟩ := failure?_of_calm (hcalm m hm) hg
      cases o with
      | returned => cases ho
      | raised e => exact hquiet.unwound e hm
      | cancelled => exact hne rfl
  | taken ms as e _ halarm hstop ih =>
      have has := hquiet.of_subset (List.subset_append_right ms as)
      exfalso
      cases halarm with
      | failed hkind hnot =>
          rw [hstop] at hnot
          cases hnot
      | check post => exact has.taken e List.mem_cons_self hstop
      | interrupt => exact has.interrupted e List.mem_cons_self
      | instead f post m hpost hm =>
          rcases hm with ⟨rfl, -⟩ | ⟨rfl, -⟩
          · exact has.interrupted e (by simp)
          · exact has.taken e (by simp) hstop
      | note f post gs hpost => exact has.noteRaised e (by simp)
  | append ms ms' _ _ ih ih' =>
      exact List.forall_mem_append.mpr
        ⟨ih (hquiet.of_subset (List.subset_append_left _ _)),
          ih' (hquiet.of_subset (List.subset_append_right _ _))⟩

end

namespace World

variable {ρ μ κ υ ε : Type} [Raisable ε]

/-- Every failure in `ms` but `f` itself is noted on `f`, if the scenario's
being cancelled is none. -/
def Reported (w : World ρ μ κ υ ε) (f : Exc ε) (ms : List (Mark μ υ ε)) : Prop :=
  ∀ m ∈ ms, m ≠ .finished mainTask .cancelled →
    ∀ g, m.failure? = some g → g ≠ f → Noted w f g

theorem Reported.append {w : World ρ μ κ υ ε} {f : Exc ε}
    {ms ms' : List (Mark μ υ ε)} (h : Reported w f ms)
    (h' : Reported w f ms') : Reported w f (ms ++ ms') :=
  List.forall_mem_append.mpr ⟨h, h'⟩

theorem Reported.cons {w : World ρ μ κ υ ε} {f : Exc ε} {m : Mark μ υ ε}
    {ms : List (Mark μ υ ε)} (h : Reported w f ms) (hm : m.failure? = none) :
    Reported w f (m :: ms) := by
  refine List.forall_mem_cons.mpr ⟨fun _ g hg => ?_, h⟩
  rw [hm] at hg
  cases hg

theorem Reported.past {w w' : World ρ μ κ υ ε} {f : Exc ε}
    {ms past : List (Mark μ υ ε)} (h : Reported w f ms)
    (hpast : Past w past w') : Reported w' f ms :=
  fun m hm hcancelled g hg hne => (h m hm hcancelled g hg hne).past hpast

theorem reported_of_none {w : World ρ μ κ υ ε} {f : Exc ε}
    {ms : List (Mark μ υ ε)} (h : ∀ m ∈ ms,
      m ≠ .finished mainTask .cancelled → m.failure? = none) :
    Reported w f ms := by
  intro m hm hne g hg
  rw [h m hm hne] at hg
  cases hg

/-- What was raised and is noted is the one failure among its marks. -/
theorem reported_of_alarm {w : World ρ μ κ υ ε} {f e : Exc ε}
    {as : List (Mark μ υ ε)} (halarm : Alarm e as) (hfine : Fine as)
    (hnote : Noted w f e) : Reported w f as := by
  obtain ⟨m, as', rfl, -, hhead⟩ := halarm.head hfine.interrupted
  obtain ⟨hm, hnone⟩ := hhead (hfine.of_subset (List.subset_cons_self _ _))
  refine List.forall_mem_cons.mpr ⟨fun _ g hg _ => ?_,
    reported_of_none fun x hx _ => hnone x hx⟩
  rcases hm with ⟨rfl, -⟩ | rfl
  · cases hg
    exact hnote
  · cases hg
    exact hnote

theorem Settled.reported {w w' : World ρ μ κ υ ε} {f : Exc ε}
    {ms : List (Mark μ υ ε)} (h : Settled w f ms w') (hfine : Fine ms) :
    Reported w' f ms := by
  have hminor := h.minor
  have hcalm : ∀ ms' : List (Mark μ υ ε), ms' ⊆ ms →
      (∀ m ∈ ms', m.calm = true) → Reported w' f ms' := by
    intro ms' hsub hcalm m hm hcancelled g hg hne
    have hm' := hsub hm
    obtain ⟨o, rfl, ho⟩ := failure?_of_calm (hcalm m hm) hg
    cases o with
    | returned => cases ho
    | raised e =>
        cases ho
        exact h.unwound g hm' hne
    | cancelled => exact absurd rfl hcancelled
  cases hminor with
  | none _ _ hms => exact hcalm ms (List.Subset.refl ms) hms
  | noted _ e ms as hms halarm hkind hnote =>
      exact (hcalm ms (List.subset_append_left ms as) hms).append
        (reported_of_alarm halarm
          (hfine.of_subset (List.subset_append_right ms as)) hnote)

/-- With `f` in flight, a teardown raises it and notes what fails. -/
theorem TornDown.reported {u w' : World ρ μ κ υ ε} {f : Exc ε}
    {result : Option (Exc ε)} {ms : List (Mark μ υ ε)}
    (h : TornDown u (some f) result ms w') (hfine : Fine ms)
    (hquiet : Quiet ms) : result = some f ∧ Reported w' f ms := by
  cases h with
  | kept cl ms v _ hv hcl hw' hminor hidle =>
      have hbegin : ∀ m ∈ cl ++ [.tearingDown (some f) u.pendingTasks],
          m.failure? = none := by
        rw [hcl]
        simp [Mark.failure?]
      have hsub : ms ⊆ cl ++ .tearingDown (some f) u.pendingTasks :: ms := by
        simp
      rw [List.append_cons]
      refine ⟨rfl, (reported_of_none fun x hx _ => hbegin x hx).append ?_⟩
      have hquiet := hquiet.of_subset hsub
      have hfine := hfine.of_subset hsub
      cases hminor with
      | none _ _ hms => exact reported_of_none (hms.failure? hquiet)
      | noted _ e ms as hms halarm hkind hnote =>
          refine Reported.append (reported_of_none (hms.failure?
            (hquiet.of_subset (List.subset_append_left ms as)))) ?_
          exact reported_of_alarm halarm
            (hfine.of_subset (List.subset_append_right ms as)) hnote
  | replaced e cl ms as v t _ hv hcl ht hw' hnote hidle =>
      refine absurd ht.usurps ((hfine.of_subset fun x hx => ?_).not_usurps e)
      simp [hx]
  | slipped g e cl ms v _ hf hv hcl hw' hidle =>
      have hmem := hw'.slip.mem
      exact absurd (by simp [hmem]) (hfine.noteRaised e)

/-! ## The first failure -/

/-- The first failure of a log, without an interrupt before it and with nothing
after it that takes its place: of the kinds that do, and where it is the
scenario's own, no other failure before that is settled. -/
structure FirstFailure (m : Mark μ υ ε) (f : Exc ε)
    (pre post : List (Mark μ υ ε)) : Prop where
  failure : m.failure? = some f
  first : ∀ x ∈ pre, x.failure? = none
  interrupted : ∀ e, .interrupted e ∉ pre
  fine : Fine post
  scenario : ∀ o, m = .finished mainTask o →
    ∀ x ∈ post.takeWhile (!·.isSettling), ∀ g, x.failure? = some g → g = f

theorem FirstFailure.pre {m : Mark μ υ ε} {f : Exc ε}
    {pre post : List (Mark μ υ ε)} (h : FirstFailure m f pre post) :
    ∀ x ∈ pre, ¬ x.failure?.isSome = true := by
  intro x hx
  rw [h.first x hx]
  simp

theorem FirstFailure.isSome {m : Mark μ υ ε} {f : Exc ε}
    {pre post : List (Mark μ υ ε)} (h : FirstFailure m f pre post) :
    m.failure?.isSome = true := by
  rw [h.failure]
  rfl

/-- What ended the run is the first failure. -/
theorem FirstFailure.of_ended {m : Mark μ υ ε} {f e : Exc ε}
    {pre post run as rest : List (Mark μ υ ε)} (h : FirstFailure m f pre post)
    (hcalm : ∀ x ∈ run, x.calm = true)
    (hended : Seedloop.Ended e as)
    (hlog : run ++ as ++ .settling (some e) :: rest = pre ++ m :: post) :
    e = f ∧ ∃ post', post = post' ++ .settling (some e) :: rest ∧
      ∀ x ∈ post', ∀ g, x.failure? = some g → g = f := by
  have hint : ∀ g, .interrupted g ∉ as := by
    intro g hg
    have hmem : .interrupted g ∈ pre ++ m :: post := by
      rw [← hlog]
      simp [hg]
    rcases List.mem_append.mp hmem with hmem | hmem
    · exact h.interrupted g hmem
    rcases List.mem_cons.mp hmem with rfl | hmem
    · cases h.failure
    · exact h.fine.interrupted g hmem
  obtain ⟨m', as', rfl, hm', hhead⟩ := hended.head hint
  by_cases hany : ∃ x ∈ run, x.failure?.isSome = true
  · -- The scenario had ended with it, and is not looked at.
    obtain ⟨x, hx, hsome⟩ := hany
    rw [List.append_assoc] at hlog
    obtain ⟨mid, rfl, rfl⟩ := exists_of_first hlog h.pre hx hsome
    obtain ⟨o, hmain, -⟩ := failure?_of_calm (hcalm m (by simp)) h.failure
    have hpart : ∀ x ∈ mid ++ m' :: as', x.isSettling = false := by
      refine List.forall_mem_append.mpr ⟨fun x hx => ?_, ?_⟩
      · exact isSettling_of_calm hcalm x (by simp [hx])
      · exact isSettling_of_ended hended
    have htake : (mid ++ (m' :: as' ++ .settling (some e) :: rest)).takeWhile
        (!·.isSettling) = mid ++ m' :: as' := by
      rw [← List.append_assoc, List.takeWhile_append_of_pos fun x hx => by
        rw [hpart x hx]
        rfl]
      simp [Mark.isSettling]
    have hall := h.scenario _ hmain
    rw [htake] at hall
    have hfine : Fine as' := h.fine.of_subset (by
      intro x hx
      simp [hx])
    refine ⟨hall m' (by simp) e (hhead hfine).1, mid ++ m' :: as', by simp, hall⟩
  · have hnone : ∀ x ∈ run, ¬ x.failure?.isSome = true :=
      fun x hx hsome => hany ⟨x, hx, hsome⟩
    have hcut : run ++ m' :: (as' ++ .settling (some e) :: rest) =
        pre ++ m :: post := by
      rw [← hlog]
      simp
    obtain ⟨rfl, rfl, rfl⟩ := eq_of_first hcut hm' h.isSome hnone h.pre
    obtain ⟨heq, has'⟩ := hhead (h.fine.of_subset (List.subset_append_left _ _))
    refine ⟨Option.some.inj (heq.symm.trans h.failure), as', rfl, ?_⟩
    intro x hx g hg
    rw [has' x hx] at hg
    cases hg

/-- What is in flight before the teardown is the first failure, if there was
one. -/
theorem Surfaced.of_first {w u : World ρ μ κ υ ε} {failure : Option (Exc ε)}
    {ms rest pre post : List (Mark μ υ ε)} {m : Mark μ υ ε} {f : Exc ε}
    (hs : Surfaced w failure ms u) (h : FirstFailure m f pre post)
    (hlog : ms ++ rest = pre ++ m :: post) :
    (failure = some f ∧ ∃ run held settle,
      post = run ++ .settling held :: (settle ++ rest) ∧
      (∀ x ∈ run, ∀ g, x.failure? = some g → g = f) ∧ Reported u f settle) ∨
      ∀ x ∈ ms, x.failure? = none := by
  cases hs with
  | own _ ms _ hu hcalm hcleared hown =>
      by_cases hany : ∃ x ∈ ms, x.failure?.isSome = true
      · left
        obtain ⟨x, hx, hsome⟩ := hany
        rw [List.append_assoc] at hlog
        obtain ⟨mid, rfl, rfl⟩ := exists_of_first hlog h.pre hx hsome
        have hended : ∀ g, ∀ y ∈ pre ++ m :: mid, y.failure? = some g →
            ∃ o, u.outcome? mainTask = some o ∧ o.failure? = some g := by
          intro g y hy hg
          obtain ⟨o, rfl, ho⟩ := failure?_of_calm (hcalm y hy) hg
          exact ⟨o, ((hu.finished _ _).mp (List.mem_append_left _ hy)).2, ho⟩
        obtain ⟨o, hmain, ho⟩ := hended f m (by simp) h.failure
        have hsame : ∀ o', u.outcome? mainTask = some o' → o' = o :=
          fun o' ho' => Option.some.inj (ho'.symm.trans hmain)
        refine ⟨?_, mid, none, [], by simp, fun y hy g hg => ?_, by simp [Reported]⟩
        · cases hown with
          | raised e he =>
              rw [← hsame _ he] at ho
              exact ho
          | cancelled he =>
              rw [← hsame _ he] at ho
              exact ho
          | node e task he =>
              rw [← hsame _ he] at ho
              cases ho
          | passed he =>
              rw [← hsame _ he] at ho
              cases ho
        · obtain ⟨o', ho', hg⟩ := hended g y (by simp [hy]) hg
          rw [hsame o' ho', ho] at hg
          exact (Option.some.inj hg).symm
      · right
        refine List.forall_mem_append.mpr ⟨fun x hx => ?_, by simp [Mark.failure?]⟩
        exact Option.not_isSome_iff_eq_none.mp fun hsome => hany ⟨x, hx, hsome⟩
  | kept e ms as v ms' _ hv hcalm hended hsettled =>
      left
      have hcut : ms ++ as ++ .settling (some e) :: (.cleared :: ms' ++ rest) =
          pre ++ m :: post := by
        rw [← hlog]
        simp
      obtain ⟨rfl, run, rfl, hrun⟩ := h.of_ended hcalm hended hcut
      have hfine : Fine ms' := h.fine.of_subset fun x hx => by simp [hx]
      exact ⟨rfl, run, some e, .cleared :: ms', rfl, hrun,
        (hsettled.reported hfine).cons rfl⟩
  | replaced e g ms as v b ms' as' t _ hv hcalm hended hb ht hu hnote =>
      have hcut : ms ++ as ++ .settling (some e) ::
          (.cleared :: (ms' ++ as') ++ rest) = pre ++ m :: post := by
        rw [← hlog]
        simp
      obtain ⟨-, run, rfl, -⟩ := h.of_ended hcalm hended hcut
      have hfine : Fine as' := h.fine.of_subset fun x hx => by simp [hx]
      exact absurd ht.usurps (hfine.not_usurps g)
  | slipped e g x ms as v b ms' _ hv hcalm hended hb hu hg =>
      have hcut : ms ++ as ++ .settling (some e) :: (.cleared :: ms' ++ rest) =
          pre ++ m :: post := by
        rw [← hlog]
        simp
      obtain ⟨-, run, rfl, -⟩ := h.of_ended hcalm hended hcut
      have hmem := hu.slip.mem
      exact absurd (by simp [hmem]) (h.fine.noteRaised x)

/-- The first failure of a run that is torn down with none in flight. -/
theorem TornDown.of_first {u w' : World ρ μ κ υ ε} {result : Option (Exc ε)}
    {ms init pre post : List (Mark μ υ ε)} {m : Mark μ υ ε} {f : Exc ε}
    (ht : TornDown u none result ms w') (h : FirstFailure m f pre post)
    (hlog : init ++ ms = pre ++ m :: post)
    (hinit : ∀ x ∈ init, x.failure? = none) (hquiet : Quiet ms)
    (hmain : ∀ o, .finished mainTask o ∉ ms) :
    result = some f ∧ Reported w' f post := by
  have hnot : ∀ ms : List (Mark μ υ ε), (∀ x ∈ ms, x.failure? = none) →
      ∀ x ∈ ms, ¬ x.failure?.isSome = true := by
    intro ms hms x hx
    rw [hms x hx]
    simp
  -- The scenario has ended long before.
  have hnone : ∀ ms' : List (Mark μ υ ε), ms' ⊆ ms → Subsided ms' →
      ∀ x ∈ ms', x.failure? = none := by
    intro ms' hsub hms' x hx
    refine hms'.failure? (hquiet.of_subset hsub) x hx ?_
    rintro rfl
    exact hmain _ (hsub hx)
  cases ht with
  | kept cl ms v _ hv hcl hw' hminor hidle =>
      cases hminor with
      | none _ _ hms =>
          have hall : ∀ x ∈ init ++ (cl ++ .tearingDown none u.pendingTasks ::
              ms), x.failure? = none := by
            rw [hcl]
            refine List.forall_mem_append.mpr ⟨hinit, ?_⟩
            simpa [Mark.failure?] using
              hnone ms (fun x hx => by simp [hx]) hms
          have := hall m (by rw [hlog]; simp)
          rw [h.failure] at this
          cases this
  | replaced e cl ms as v t _ hv hcl ht hw' hnote hidle =>
      have hms := hnone ms (fun x hx => by simp [hx]) ht.subsided
      have hint : ∀ g, .interrupted g ∉ as := fun g hg =>
        hquiet.interrupted g (by simp [hg])
      obtain ⟨m', as', rfl, hm', hhead⟩ := ht.alarm.head hint
      have hcut : init ++ (cl ++ .tearingDown none u.pendingTasks :: ms) ++
          m' :: as' = pre ++ m :: post := by
        rw [← hlog]
        simp
      have hbefore : ∀ x ∈ init ++ (cl ++ .tearingDown none u.pendingTasks ::
          ms), x.failure? = none := by
        rw [hcl]
        refine List.forall_mem_append.mpr ⟨hinit, ?_⟩
        simpa [Mark.failure?] using hms
      obtain ⟨-, rfl, rfl⟩ := eq_of_first hcut hm' h.isSome (hnot _ hbefore) h.pre
      obtain ⟨⟨rfl, -⟩ | rfl, hlater⟩ := hhead h.fine
      · exact ⟨h.failure, reported_of_none fun x hx _ => hlater x hx⟩
      · exact ⟨h.failure, reported_of_none fun x hx _ => hlater x hx⟩
  | slipped g e cl ms v _ hf hv hcl hw' hidle => cases hf

/-- Every failure in `post` but `f` itself is noted on `f`, and where the
scenario is cancelled there, the drive has begun to settle it. -/
def Followed (w : World ρ μ κ υ ε) (f : Exc ε) (pre post : List (Mark μ υ ε)) :
    Prop :=
  ∀ a x b, post = a ++ x :: b → ∀ g, x.failure? = some g → g ≠ f →
    Noted w f g ∨ x = .finished mainTask .cancelled ∧
      ∃ y ∈ pre ++ a, y.isSettling = true

/-- Before anything has failed no teardown begins with a failure in flight. -/
theorem FirstFailure.not_surfaced {m : Mark μ υ ε} {f : Exc ε}
    {pre post : List (Mark μ υ ε)} (h : FirstFailure m f pre post)
    (hsurfaced : ∀ e pending, .tearingDown (some e) pending ∉ pre) {e : Exc ε}
    {pending : List ℕ} {ms rest : List (Mark μ υ ε)}
    (hms : ∀ x ∈ ms, x.failure? = none)
    (hcut : ms ++ .cleared :: .tearingDown (some e) pending :: rest =
      pre ++ m :: post) : False := by
  have hnone : ∀ x ∈ ms ++ [.cleared, .tearingDown (some e) pending],
      ¬ x.failure?.isSome = true := by
    refine List.forall_mem_append.mpr ⟨fun x hx => ?_, ?_⟩
    · rw [hms x hx]
      simp
    · simp [Mark.failure?]
  have hcut' : ms ++ [.cleared, .tearingDown (some e) pending] ++ rest =
      pre ++ m :: post := by
    rw [← hcut]
    simp
  obtain ⟨mid, rfl, -⟩ := exists_of_later hcut' hnone h.isSome
  exact hsurfaced e pending (by simp)

/-- From where the tasks are torn down on, if nothing is mistaken there. -/
theorem TornDown.quiet {w u w' : World ρ μ κ υ ε}
    {failure result : Option (Exc ε)} {ms ms' : List (Mark μ υ ε)}
    (h : TornDown u failure result ms' w') (hs : Surfaced w failure ms u)
    (hquiet : Quiet ((ms ++ ms').dropWhile (!·.begins))) : Quiet ms' := by
  obtain ⟨rest, hms', -⟩ := h.split
  have hcl : ∀ x ∈ (if failure.isSome then [.cleared] else [] :
      List (Mark μ υ ε)), x = .cleared := by
    split <;> simp
  have hbefore : ∀ x ∈ ms ++ (if failure.isSome then [.cleared] else []),
      (!x.begins) = true := by
    refine List.forall_mem_append.mpr ⟨fun x hx => ?_, fun x hx => ?_⟩
    · rw [hs.begins x hx]
      rfl
    · rw [hcl x hx]
      rfl
  rw [hms', ← List.append_assoc, List.dropWhile_append_of_pos hbefore,
    List.dropWhile_cons_of_neg (by simp [Mark.begins])] at hquiet
  rw [hms']
  refine Quiet.append ⟨?_, ?_, ?_, ?_⟩ hquiet <;>
    intro e he <;> cases hcl _ he

/-- With the first failure in flight, when what it ended is settled. -/
theorem followed_of_settled {w' : World ρ μ κ υ ε} {f : Exc ε}
    {held : Option (Exc ε)} {pre post run later : List (Mark μ υ ε)}
    (hpost : post = run ++ .settling held :: later)
    (hrun : ∀ x ∈ run, ∀ g, x.failure? = some g → g = f)
    (hlater : Reported w' f later) : Followed w' f pre post := by
  intro a x b hab g hg hne
  have hnot : ∀ y ∈ run, ¬ y = x := by
    rintro y hy rfl
    exact hne (hrun y hy g hg)
  obtain ⟨mid, rfl, hmid⟩ := exists_of_later (hpost.symm.trans hab) hnot rfl
  cases mid with
  | nil =>
      obtain ⟨rfl, -⟩ := List.cons.inj hmid
      cases hg
  | cons y mid =>
      obtain ⟨rfl, rfl⟩ := List.cons.inj hmid
      by_cases hx : x = .finished mainTask .cancelled
      · exact .inr ⟨hx, .settling held, by simp, rfl⟩
      · exact .inl (hlater x (by simp) hx g hg hne)

/-- The first failure of a drive is what it ends with. -/
theorem TornDown.followed {w u w' : World ρ μ κ υ ε}
    {failure result : Option (Exc ε)} {ms ms' pre post : List (Mark μ υ ε)}
    {m : Mark μ υ ε} {f : Exc ε} (ht : TornDown u failure result ms' w')
    (hs : Surfaced w failure ms u) (hfirst : FirstFailure m f pre post)
    (hsurfaced : ∀ e pending, .tearingDown (some e) pending ∉ pre)
    (hquiet : Quiet ((pre ++ m :: post).dropWhile (!·.begins)))
    (hcut : ms ++ ms' = pre ++ m :: post) :
    result = some f ∧ Followed w' f pre post := by
  have hquiet' : Quiet ms' := ht.quiet hs (hcut ▸ hquiet)
  rcases hs.of_first hfirst hcut with
    ⟨rfl, run, held, settle, rfl, hrun, hsettle⟩ | hnone
  · have hfine : Fine ms' := hfirst.fine.of_subset fun x hx => by simp [hx]
    obtain ⟨rfl, hms'⟩ := ht.reported hfine hquiet'
    exact ⟨rfl, followed_of_settled rfl hrun ((hsettle.past ht.past).append hms')⟩
  cases failure with
  | none =>
      -- The scenario is done, so that it is cancelled came before.
      have hmain : ∀ o, .finished mainTask o ∉ ms' := by
        intro o ho
        have hreturned := hs.returned
        rw [((ht.past.finished _ _).mp ho).1] at hreturned
        cases hreturned
      obtain ⟨rfl, hpost⟩ := ht.of_first hfirst hcut hnone hquiet' hmain
      refine ⟨rfl, fun a x b hab g hg hne => ?_⟩
      by_cases hx : x = .finished mainTask .cancelled
      · have hms : ∀ y ∈ ms, ¬ y.failure?.isSome = true := by
          intro y hy
          rw [hnone y hy]
          simp
        obtain ⟨mid, rfl, -⟩ := exists_of_later hcut hms hfirst.isSome
        obtain ⟨y, hy, hsettling⟩ := hs.settles
        exact .inr ⟨hx, y, by simp [hy], hsettling⟩
      · exact .inl (hpost x (by rw [hab]; simp) hx g hg hne)
  | some e =>
      obtain ⟨rest, hms', -⟩ := ht.split
      rw [hms'] at hcut
      exact (hfirst.not_surfaced hsurfaced hnone hcut).elim

/-- Nothing that a note of the drive raised takes its place. -/
theorem FirstFailure.not_slipped {w u : World ρ μ κ υ ε} {m : Mark μ υ ε}
    {f g e : Exc ε} {pending : List ℕ} {pre post ms ms' : List (Mark μ υ ε)}
    (h : FirstFailure m f pre post)
    (hsurfaced : ∀ e pending, .tearingDown (some e) pending ∉ pre)
    (hs : Surfaced w (some g) ms u) (hslip : Slip e ms)
    (hminor : ∀ x ∈ ms', x.isSettling = false)
    (hcut : ms ++ .cleared :: .tearingDown (some g) pending :: ms' =
      pre ++ m :: post) : False := by
  rcases hs.of_first h hcut with ⟨-, run, held, settle, rfl, -⟩ | hnone
  · have hlater : .settling held ∉
        .cleared :: .tearingDown (some g) pending :: ms' := by
      simpa using fun hm => by cases hminor _ hm
    have hcut' : ms ++ .cleared :: .tearingDown (some g) pending :: ms' =
        pre ++ m :: run ++ .settling held :: (settle ++
          .cleared :: .tearingDown (some g) pending :: ms') := by
      rw [hcut]
      simp
    have hmem := hslip.after hcut' hlater (by simp)
    exact h.fine.noteRaised e
      (List.mem_append_right _ (List.mem_cons_of_mem _ hmem))
  · exact h.not_surfaced hsurfaced hnone hcut

variable [DecidableEq ε] [Random ρ]

/-- What comes of the first failure of a drive that comes to an end. -/
theorem drive_first (main : κ) {w w' : World ρ μ κ υ ε} {r : Res (Exc ε) Unit}
    (htear : w.tearingDown = false) (hrun : drive main w = (r, w'))
    (hends : r ≠ .pending) {pre post : List (Mark μ υ ε)} {m : Mark μ υ ε}
    {f : Exc ε} (hlog : w'.log = w.log ++ (pre ++ m :: post))
    (hfirst : FirstFailure m f pre post)
    (hsurfaced : ∀ e pending, .tearingDown (some e) pending ∉ pre)
    (hquiet : Quiet ((pre ++ m :: post).dropWhile (!·.begins))) :
    r = .raised f ∧ Followed w' f pre post := by
  have hcourse := drive_course main htear
  cases r with
  | ok =>
      obtain ⟨u, ms, ms', hs, ht⟩ := hcourse.ok_of hrun
      have hcut := List.append_cancel_left
        ((hs.past.trans ht.past).log.symm.trans hlog)
      cases (ht.followed hs hfirst hsurfaced hquiet hcut).1
  | raised e =>
      obtain ⟨ms, ms', hraises⟩ := hcourse.err_of hrun
      have hcut := List.append_cancel_left
        (hraises.past.log.symm.trans hlog)
      cases hraises with
      | result failure u _ _ _ hs ht =>
          obtain ⟨heq, hfollowed⟩ :=
            ht.followed hs hfirst hsurfaced hquiet hcut
          rw [Option.some.inj heq]
          exact ⟨rfl, hfollowed⟩
      | slipped g u _ _ ms' hs hslip ht hminor =>
          exact (hfirst.not_slipped hsurfaced hs hslip hminor.isSettling
            hcut).elim
  | pending => exact absurd rfl hends

/-- The first failure of a run that comes to an end is what it raises, and every
later one is noted on it, unless something takes its place, it is a failure of
the teardown with another in flight, or the teardown drops a failure. A scenario
that the drive has cancelled is no later failure. -/
theorem first_failure_kept (netRng faultsRng : ρ) (user : υ)
    (maxSteps : Option ℕ) (script : ℕ → List (List (UserOp μ κ υ ε)))
    (horizon : ℕ) (main : κ) {pre post : List (Mark μ υ ε)} {m : Mark μ υ ε}
    {f : Exc ε}
    (hlog : (drive main (.init netRng faultsRng user maxSteps script
      horizon)).2.log = pre ++ m :: post)
    (hends : (drive main (.init netRng faultsRng user maxSteps script
      horizon)).1 ≠ .pending)
    (hfirst : FirstFailure m f pre post)
    (hsurfaced : ∀ e pending, .tearingDown (some e) pending ∉ pre)
    (hquiet : Quiet ((pre ++ m :: post).dropWhile (!·.begins))) :
    (drive main (.init netRng faultsRng user maxSteps script horizon)).1 =
        .raised f ∧
      ∀ a x b, post = a ++ x :: b → ∀ g, x.failure? = some g → g ≠ f →
        Noted (drive main (.init netRng faultsRng user maxSteps script
          horizon)).2 f g ∨ x = .finished mainTask .cancelled ∧
            ∃ y ∈ pre ++ a, y.isSettling = true :=
  drive_first main rfl rfl hends hlog hfirst hsurfaced hquiet

/-! ## Runs with a failure -/

/-- A property fails, and the scenario fails when it is cancelled. -/
def failingUnwinding : List (List (List (UserOp ℕ ℕ ℕ Plain))) :=
  [[[.always "p" fun _ => .fails, .await 0 [.ready 5]]],
    [[.finish 0 (.raised (.user (.exception 1)))]]]

theorem first_failure_kept_failingUnwinding :
    (driven failingUnwinding).1 = .raised (.sys 1 (.invariant "p" 0)) ∧
      Noted (driven failingUnwinding).2 (.sys 1 (.invariant "p" 0))
        (.user (.exception 1)) := by
  have hfailure : (driven failingUnwinding).2.log.findSome? Mark.failure? =
      some (.sys 1 (.invariant "p" 0)) := by decide +kernel
  have hhead : (((driven failingUnwinding).2.log.dropWhile
      (·.failure?.isNone)).head?.bind Mark.usurper?) =
        some (.sys 1 (.invariant "p" 0)) := by decide +kernel
  have hearly : ((driven failingUnwinding).2.log.takeWhile
      (·.failure?.isNone)).all (fun m => m.alarm?.isNone && !m.begins) = true := by
    decide +kernel
  have hpost : ((driven failingUnwinding).2.log.dropWhile
      (·.failure?.isNone)).tail.filterMap Mark.alarm? = [] := by decide +kernel
  have hunwound : ((driven failingUnwinding).2.log.dropWhile
      (·.failure?.isNone)).tail.filterMap Mark.finished? =
        [(0, .raised (.user (.exception 1)))] := by decide +kernel
  have hlate : ((driven failingUnwinding).2.log.dropWhile
      (!·.begins)).filterMap Mark.alarm? = [] := by decide +kernel
  have hmain : ((driven failingUnwinding).2.log.dropWhile
      (!·.begins)).filterMap Mark.finished? = [] := by decide +kernel
  have hraised : (driven failingUnwinding).1.error? =
      some (.sys 1 (.invariant "p" 0)) := by decide +kernel
  have hends := Res.eq_raised hraised
  obtain ⟨m, post, hm, hlog, hdrop⟩ := exists_first hfailure
  rw [hdrop, List.tail_cons] at hpost hunwound
  rw [hdrop, List.head?_cons, Option.bind_some] at hhead
  generalize hpre : (driven failingUnwinding).2.log.takeWhile
    (fun x => x.failure?.isNone) = pre at hlog hearly
  have hnone : ∀ ms : List (Mark ℕ ℕ Plain), ms.filterMap Mark.alarm? = [] →
      ∀ x ∈ ms, x.alarm? = none := fun ms => List.filterMap_eq_nil_iff.mp
  have hfirst : FirstFailure m (.sys 1 (.invariant "p" 0)) pre post := by
    refine ⟨hm, fun x hx => ?_, fun e he => ?_, ⟨fun e he => ?_, fun e he => ?_,
      fun e he => ?_⟩, ?_⟩
    · rw [← hpre] at hx
      have := List.mem_takeWhile_imp hx
      exact Option.isNone_iff_eq_none.mp this
    · cases List.all_eq_true.mp hearly _ he
    · cases hnone post hpost _ he
    · cases hnone post hpost _ he
    · cases hnone post hpost _ he
    · rintro o rfl
      cases hhead
  have hsurfaced : ∀ e pending, .tearingDown (some e) pending ∉ pre := by
    intro e pending he
    cases List.all_eq_true.mp hearly _ he
  have hquiet : Quiet ((pre ++ m :: post).dropWhile (!·.begins)) := by
    rw [← hlog]
    refine ⟨fun e he => ?_, fun e he => ?_, fun e he => ?_, fun e he => ?_⟩
    · cases hnone _ hlate _ he
    · cases hnone _ hlate _ he
    · cases hnone _ hlate _ he
    · have := finished?_mem.mpr he
      rw [hmain] at this
      cases this
  have hkept := first_failure_kept Toggle.low Toggle.low 0 (some 50)
    (fun n => failingUnwinding.getD (n - 1) []) 0 0 hlog
    (fun h => by cases h.symm.trans hends) hfirst hsurfaced hquiet
  have hlater : .finished 0 (.raised (.user (.exception 1))) ∈ post :=
    finished?_mem.mp (by rw [hunwound]; exact List.mem_singleton_self _)
  obtain ⟨a, b, hab⟩ := List.append_of_mem hlater
  refine ⟨hkept.1, (hkept.2 a _ b hab _ rfl (by simp)).resolve_right ?_⟩
  rintro ⟨⟨⟩, -⟩

/-- The scenario fails, and a property fails in the stop step after it. -/
def checkAfterScenario : List (List (List (UserOp ℕ ℕ ℕ Plain))) :=
  [[[.always "p" fun v => if v.user = 0 then .holds else .fails,
      .net (.callSoon 9), .finish 0 (.raised (.user (.exception 1)))]],
    [[.set 1]]]

theorem scenario_failure_lost : ∃ pre m post,
    (driven checkAfterScenario).2.log = pre ++ m :: post ∧
      m.failure? = some (.user (.exception 1)) ∧
      (∀ x ∈ pre, x.failure? = none) ∧
      (∀ e, .interrupted e ∉ (driven checkAfterScenario).2.log) ∧
      (driven checkAfterScenario).1 = .raised (.sys 2 (.invariant "p" 0)) := by
  have hfailure : (driven checkAfterScenario).2.log.findSome? Mark.failure? =
      some (.user (.exception 1)) := by decide +kernel
  have hnone : (driven checkAfterScenario).2.log.filterMap Mark.interrupt? =
      [] := by decide +kernel
  have hraised : (driven checkAfterScenario).1.error? =
      some (.sys 2 (.invariant "p" 0)) := by decide +kernel
  obtain ⟨m, post, hm, hlog, -⟩ := exists_first hfailure
  refine ⟨_, m, post, hlog, hm, fun x hx => ?_, fun e he => ?_,
    Res.eq_raised hraised⟩
  · have := List.mem_takeWhile_imp hx
    exact Option.isNone_iff_eq_none.mp this
  · cases List.filterMap_eq_nil_iff.mp hnone _ he

end World

end Seedloop
