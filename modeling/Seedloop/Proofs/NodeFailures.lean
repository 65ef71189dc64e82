import Seedloop.Proofs.Interrupts

/-!
# The failure of a node

The drive asks for the exceptions of the started nodes in one place, where
nothing was raised and the scenario's own result was none. So a node's failure
comes up if it is all that went wrong before the teardown, and is lost beside
another. Once it is in flight it stays, or is noted on the one exception that
takes its place; a second one would carry a note of the first only.
-/

namespace Seedloop

/-- What a mark says was raised into the drive. -/
def Mark.alarm? {μ υ ε : Type} : Mark μ υ ε → Option (Exc ε)
  | .checkFailed e | .failed e | .interrupted e | .noteRaised e => some e
  | _ => none

/-- The node that a mark says was started. -/
def Mark.started? {μ υ ε : Type} : Mark μ υ ε → Option ℕ
  | .started task => some task
  | _ => none

/-- How a mark says that a task ended. -/
def Mark.finished? {μ υ ε : Type} : Mark μ υ ε → Option (ℕ × Outcome ε)
  | .finished task outcome => some (task, outcome)
  | _ => none

theorem started?_mem {μ υ ε : Type} {ms : List (Mark μ υ ε)} {t : ℕ} :
    t ∈ ms.filterMap Mark.started? ↔ .started t ∈ ms := by
  refine ⟨fun h => ?_, fun h => List.mem_filterMap.mpr ⟨_, h, rfl⟩⟩
  obtain ⟨m, hm, ht⟩ := List.mem_filterMap.mp h
  cases m with
  | started => rwa [← Option.some.inj ht]
  | _ => cases ht

theorem finished?_mem {μ υ ε : Type} {ms : List (Mark μ υ ε)} {t : ℕ}
    {o : Outcome ε} :
    (t, o) ∈ ms.filterMap Mark.finished? ↔ .finished t o ∈ ms := by
  refine ⟨fun h => ?_, fun h => List.mem_filterMap.mpr ⟨_, h, rfl⟩⟩
  obtain ⟨m, hm, ht⟩ := List.mem_filterMap.mp h
  cases m with
  | finished =>
      cases ht
      exact hm
  | _ => cases ht

section

variable {μ υ ε : Type} [Raisable ε]

omit [Raisable ε] in
theorem alarm?_of_calm {ms : List (Mark μ υ ε)}
    (h : ∀ m ∈ ms, m.calm = true) : ∀ m ∈ ms, m.alarm? = none := by
  intro m hm
  have hm := h m hm
  cases m with
  | checkFailed | failed | interrupted | noteRaised => cases hm
  | _ => rfl

theorem Ended.exists_alarm {f : Exc ε} {as : List (Mark μ υ ε)}
    (h : Ended f as) : ∃ m ∈ as, m.alarm? = some f := by
  cases h with
  | stopped n he => exact ⟨_, List.mem_singleton_self _, rfl⟩
  | alarm as h =>
      cases h with
      | failed | interrupt => exact ⟨_, List.mem_singleton_self _, rfl⟩
      | check => exact ⟨_, List.mem_cons_self, rfl⟩
      | instead g post m hpost hm =>
          refine ⟨m, by simp, ?_⟩
          rcases hm with ⟨rfl, -⟩ | ⟨rfl, -⟩ <;> rfl
      | note g post gs hpost => exact ⟨.noteRaised f, by simp, rfl⟩

end

namespace World

variable {ρ μ κ υ ε : Type} [Raisable ε]

omit [Raisable ε] in
/-- There is one mark where the drive settles. -/
theorem settling_split {pre post run settle : List (Mark μ υ ε)}
    {f held : Option (Exc ε)}
    (hlog : pre ++ .settling f :: post = run ++ .settling held :: settle)
    (hpre : ∀ m ∈ pre, m.isSettling = false)
    (hpost : ∀ m ∈ post, m.isSettling = false) :
    pre = run ∧ f = held ∧ post = settle := by
  have hnot : ∀ ms : List (Mark μ υ ε), (∀ m ∈ ms, m.isSettling = false) →
      .settling held ∉ ms := fun ms hms hm => by cases hms _ hm
  obtain ⟨hpre, heq, hpost⟩ := (List.append_cons_inj_of_notMem
    (hnot pre hpre) (hnot post hpost)).mp hlog
  exact ⟨hpre, Mark.settling.inj heq, hpost⟩

theorem Minor.isSettling {w : World ρ μ κ υ ε} {failure : Option (Exc ε)}
    {ms : List (Mark μ υ ε)} (h : Minor Subsided w failure ms) :
    ∀ m ∈ ms, m.isSettling = false := by
  cases h with
  | none _ _ hms => exact isSettling_of_subsided hms
  | noted f e ms as hms halarm hkind hnote =>
      exact List.forall_mem_append.mpr
        ⟨isSettling_of_subsided hms, isSettling_of_alarm halarm⟩

/-- What is in flight stays, or is noted on what takes its place. -/
theorem TornDown.of_some {u w' : World ρ μ κ υ ε} {f : Exc ε}
    {result : Option (Exc ε)} {ms : List (Mark μ υ ε)}
    (h : TornDown u (some f) result ms w')
    (hnotes : ∀ e, .noteRaised e ∈ ms → e.kind = .exception) :
    ∃ e, result = some e ∧ (e ≠ f → Usurps e ms ∧ Noted w' e f) := by
  cases h with
  | kept => exact ⟨f, rfl, fun hne => absurd rfl hne⟩
  | replaced e pre ms as v t _ hv hpre ht hw' hnote hidle =>
      refine ⟨e, rfl, fun hne => ⟨?_, hnote f rfl hne⟩⟩
      exact ht.usurps.of_subset fun m hm => by simp [hm]
  | slipped g e pre ms v _ hf hv hpre hw' hidle =>
      have hmem := hw'.slip.mem
      exact absurd (hnotes e (by simp [hmem])) hw'.slip.kind

/-- Nothing was raised into the drive before it settled but `g`, or nothing at
all and the tasks it looks at then ended with nothing but `g`. -/
structure Alone (g : Exc ε) (run : List (Mark μ υ ε)) : Prop where
  alarm : ∀ m ∈ run, ∀ f, m.alarm? = some f → f = g
  main : (∀ m ∈ run, m.alarm? = none) → ∀ o,
    .finished mainTask o ∈ run → o = .returned ∨ o = .raised g
  nodes : (∀ m ∈ run, m.alarm? = none) → ∀ t f,
    .started t ∈ run → .finished t (.raised f) ∈ run → f = g

/-- A started node ended with `g` in a log, and nothing else went wrong. -/
theorem Surfaced.of_node {w u : World ρ μ κ υ ε} {failure held : Option (Exc ε)}
    {ms cl run settle : List (Mark μ υ ε)} {node : ℕ} {g : Exc ε}
    (hs : Surfaced w failure ms u) (hw : ∀ t, w.outcome? t = none)
    (hnone : w.started = []) (hcl : ∀ m ∈ cl, m = .cleared)
    (hlog : ms ++ cl = run ++ .settling held :: settle)
    (hstarted : .started node ∈ run ++ settle)
    (hended : .finished node (.raised g) ∈ run ++ settle)
    (halone : Alone g run)
    (hnotes : ∀ e, .noteRaised e ∈ settle → e.kind = .exception) :
    ∃ e, failure = some e ∧ (e ≠ g → Usurps e settle ∧ Noted u e g) := by
  have hclSettling : ∀ m ∈ cl, m.isSettling = false := fun m hm =>
    (hcl m hm) ▸ rfl
  cases hs with
  | own _ ms _ hu hcalm hcleared hown =>
      rw [List.append_assoc] at hlog
      obtain ⟨rfl, -, rfl⟩ :=
        settling_split hlog (isSettling_of_calm hcalm) hclSettling
      have hquiet := alarm?_of_calm hcalm
      have hfinished : ∀ t o, u.outcome? t = some o → .finished t o ∈ ms := by
        intro t o ho
        have := (hu.finished t o).mpr ⟨hw t, ho⟩
        exact (List.mem_append.mp this).resolve_right (by simp)
      have hstart : ∀ t, t ∈ u.started → .started t ∈ ms := by
        intro t ht
        have := (hu.started t).mp ht
        rw [hnone] at this
        simpa using this
      cases hown with
      | raised e hmain =>
          have heq := (halone.main hquiet _ (hfinished _ _ hmain)).resolve_left
            (by simp)
          exact ⟨e, rfl, fun hne => absurd (Outcome.raised.inj heq) hne⟩
      | cancelled hmain =>
          simpa using halone.main hquiet _ (hfinished _ _ hmain)
      | node e task hmain ht hnode =>
          have heq := halone.nodes hquiet _ _ (hstart _ ht) (hfinished _ _ hnode)
          exact ⟨e, rfl, fun hne => absurd heq hne⟩
      | passed hmain hnodes =>
          have hmem : ∀ m : Mark μ υ ε, m ≠ .cleared → m ∈ ms ++ cl →
              m ∈ ms ++ [.settling Option.none] := fun m hne hm =>
            List.mem_append_left _ ((List.mem_append.mp hm).resolve_right
              fun h => hne (hcl m h))
          have hmain' := (hu.started node).mpr
            (.inr (hmem _ (by simp) hstarted))
          exact absurd ((hu.finished _ _).mp (hmem _ (by simp) hended)).2
            (hnodes node hmain' g)
  | kept f ms as v ms' _ hv hcalm hended' hsettled =>
      have hcut : ms ++ as ++ .settling (some f) :: (.cleared :: ms' ++ cl) =
          run ++ .settling held :: settle := by
        rw [← hlog]
        simp
      obtain ⟨rfl, -, rfl⟩ := settling_split hcut
        (isSettling_of_run hcalm hended')
        (List.forall_mem_append.mpr
          ⟨List.forall_mem_cons.mpr ⟨rfl, hsettled.subsided.isSettling⟩,
            hclSettling⟩)
      obtain ⟨m, hm, halarm⟩ := hended'.exists_alarm
      have heq := halone.alarm m (List.mem_append_right _ hm) f halarm
      exact ⟨f, rfl, fun hne => absurd heq hne⟩
  | replaced f e ms as v b ms' as' t _ hv hcalm hended' hb ht hu hnote =>
      have hcut : ms ++ as ++ .settling (some f) ::
          (.cleared :: (ms' ++ as') ++ cl) =
          run ++ .settling held :: settle := by
        rw [← hlog]
        simp
      obtain ⟨rfl, -, rfl⟩ := settling_split hcut
        (isSettling_of_run hcalm hended')
        (List.forall_mem_append.mpr
          ⟨List.forall_mem_cons.mpr ⟨rfl, List.forall_mem_append.mpr
            ⟨isSettling_of_subsided ht.subsided,
              isSettling_of_alarm ht.alarm⟩⟩, hclSettling⟩)
      obtain ⟨m, hm, halarm⟩ := hended'.exists_alarm
      have heq := halone.alarm m (List.mem_append_right _ hm) f halarm
      rw [heq] at hnote
      refine ⟨e, rfl, fun hne => ⟨?_, hnote hne⟩⟩
      exact ht.usurps.of_subset fun m hm => by simp [hm]
  | slipped f h e ms as v b ms' _ hv hcalm hended' hb hu hh =>
      have hslip := hu.settled (ms ++ as) f
      refine absurd (hnotes e (hslip.after hlog (fun hm => ?_) (by simp)))
        hslip.kind
      cases hclSettling _ hm

theorem Usurps.of_teardown {e : Exc ε} {cl post : List (Mark μ υ ε)}
    {failure : Option (Exc ε)} {pending : List ℕ}
    (h : Usurps e (cl ++ .tearingDown failure pending :: post))
    (hcl : ∀ m ∈ cl, m = .cleared) : Usurps e post := by
  have hpart : ∀ m : Mark μ υ ε, m ∈ cl ++ .tearingDown failure pending :: post →
      m ≠ .cleared → m ≠ .tearingDown failure pending → m ∈ post := by
    intro m hm hcleared hbegins
    refine (List.mem_append.mp hm).elim (fun h => absurd (hcl m h) hcleared)
      fun h => ?_
    exact (List.mem_cons.mp h).resolve_left hbegins
  refine ⟨h.1, h.2.imp (hpart _ · (by simp) (by simp)) ?_⟩
  exact Or.imp (hpart _ · (by simp) (by simp)) (hpart _ · (by simp) (by simp))

variable [DecidableEq ε] [Random ρ]

/-- The failure of a started node is raised, or is noted on what is, if it is
all that went wrong before the teardown, what was in flight then was not
replaced twice, and nothing but an `Exception` came of the notes. -/
theorem node_failure_reported (netRng faultsRng : ρ) (user : υ)
    (maxSteps : Option ℕ) (script : ℕ → List (List (UserOp μ κ υ ε)))
    (horizon : ℕ) (main : κ) {run settle post : List (Mark μ υ ε)}
    {held failure : Option (Exc ε)} {pending : List ℕ}
    (hlog : (drive main (.init netRng faultsRng user maxSteps script
      horizon)).2.log =
        run ++ .settling held :: settle ++ .tearingDown failure pending :: post)
    {node : ℕ} {g : Exc ε} (hstarted : .started node ∈ run ++ settle)
    (hended : .finished node (.raised g) ∈ run ++ settle)
    (halone : Alone g run)
    (honce : (∀ e, Usurps e settle → e = g) ∨ ∀ e, Usurps e post → e = g)
    (hnotes : ∀ e, .noteRaised e ∈ settle ++ post → e.kind = .exception) :
    ∃ e, (drive main (.init netRng faultsRng user maxSteps script
        horizon)).1 = .raised e ∧
      (e = g ∨ Noted (drive main (.init netRng faultsRng user maxSteps script
        horizon)).2 e g) := by
  obtain ⟨result, ⟨u, ms, hs, -, hpre, ht⟩, hresult⟩ :=
    drive_drove main rfl rfl hlog
  have hcl : ∀ m ∈ (if failure.isSome then [.cleared] else [] :
      List (Mark μ υ ε)), m = .cleared := by
    split <;> simp
  have hsettle : ∀ e, .noteRaised e ∈ settle → e.kind = .exception :=
    fun e he => hnotes e (List.mem_append_left _ he)
  obtain ⟨e, rfl, he⟩ := hs.of_node (fun _ => rfl) rfl hcl hpre.symm hstarted
    hended halone hsettle
  obtain ⟨e', rfl, he'⟩ := ht.of_some fun e he =>
    hnotes e (List.mem_append_right _ (by simpa using he))
  refine ⟨e', hresult.resolve_right ?_, ?_⟩
  · rintro ⟨x, rest, -, hcut, hslip⟩
    exact hslip.kind (hsettle x (hslip.after hcut.symm (by simp) (by simp)))
  by_cases hsame : e' = e
  · by_cases hg : e = g
    · exact .inl (hsame.trans hg)
    · rw [hsame]
      exact .inr ((he hg).2.past ht.past)
  · obtain ⟨husurps, hnoted⟩ := he' hsame
    by_cases hg : e = g
    · exact .inr (hg ▸ hnoted)
    · -- Replaced a second time, it would be noted on nothing that is left.
      refine .inl ((honce.resolve_left fun h => hg ?_) e' (husurps.of_teardown hcl))
      exact h e (he hg).1

/-! ## Runs with a node that fails -/

/-- A node fails, and the scenario it wakes returns. -/
def failingNode : List (List (List (UserOp ℕ ℕ ℕ Plain))) :=
  [[[.start 1]],
    [[.finish 1 (.raised (.user (.exception 1))), .net (.callSoon 5)]],
    [[.finish 0 .returned]]]

theorem node_failure_reported_failingNode : ∃ e,
    (driven failingNode).1 = .raised e ∧ (e = .user (.exception 1) ∨
      Noted (driven failingNode).2 e (.user (.exception 1))) := by
  have hbegins : (driven failingNode).2.log.findSome? Mark.teardown? =
      some (some (.user (.exception 1)), []) := by decide +kernel
  have hheld : ((driven failingNode).2.log.takeWhile (!·.begins)).findSome?
      Mark.held? = some none := by decide +kernel
  have halarms : (driven failingNode).2.log.filterMap Mark.alarm? = [] := by
    decide +kernel
  have hstarts : ((driven failingNode).2.log.takeWhile (!·.begins)).filterMap
      Mark.started? = [1] := by decide +kernel
  have hends : ((driven failingNode).2.log.takeWhile (!·.begins)).filterMap
      Mark.finished? = [(1, .raised (.user (.exception 1))), (0, .returned)] := by
    decide +kernel
  obtain ⟨post, hlog, -⟩ := exists_begins hbegins
  generalize (driven failingNode).2.log.takeWhile (!·.begins) = pre
    at hheld hstarts hends hlog
  obtain ⟨m, settle, hm, hcut, -⟩ := exists_first hheld
  generalize pre.takeWhile (fun x => x.held?.isNone) = run at hcut
  obtain rfl : m = .settling none := by
    cases m with
    | settling => rw [Option.some.inj hm]
    | _ => cases hm
  have hmem : ∀ x, x ∈ pre → x.held? = none → x ∈ run ++ settle := by
    intro x hx hne
    rw [hcut] at hx
    rcases List.mem_append.mp hx with hx | hx
    · exact List.mem_append_left _ hx
    · rcases List.mem_cons.mp hx with rfl | hx
      · cases hne
      · exact List.mem_append_right _ hx
  have hrun : ∀ x ∈ run, x ∈ pre := fun x hx => by
    rw [hcut]
    exact List.mem_append_left _ hx
  have hquiet : ∀ x ∈ (driven failingNode).2.log, x.alarm? = none :=
    List.filterMap_eq_nil_iff.mp halarms
  have hfinished : ∀ t o, .finished t o ∈ run →
      t = 1 ∧ o = .raised (.user (.exception 1)) ∨ t = 0 ∧ o = .returned := by
    intro t o ho
    have := finished?_mem.mpr (hrun _ ho)
    rw [hends] at this
    simpa using this
  have halone : Alone (.user (.exception 1)) run := by
    refine ⟨fun x hx f hf => ?_, fun _ o ho => ?_, fun _ t f ht hf => ?_⟩
    · have hx' : x ∈ (driven failingNode).2.log := by
        rw [hlog]
        exact List.mem_append_left _ (hrun x hx)
      rw [hquiet x hx'] at hf
      cases hf
    · rcases hfinished _ _ ho with ⟨h, -⟩ | ⟨-, h⟩
      · cases h
      · exact .inl h
    · rcases hfinished _ _ hf with ⟨-, h⟩ | ⟨-, h⟩
      · exact Outcome.raised.inj h
      · cases h
  have hstarted : .started 1 ∈ run ++ settle :=
    hmem _ (started?_mem.mp (by rw [hstarts]; simp)) rfl
  have hended : .finished 1 (.raised (.user (.exception 1))) ∈ run ++ settle :=
    hmem _ (finished?_mem.mp (by rw [hends]; simp)) rfl
  rw [hcut] at hlog
  have hlater : ∀ x ∈ settle ++ post, x.alarm? = none := by
    refine fun x hx => hquiet x ?_
    rw [hlog]
    rcases List.mem_append.mp hx with hx | hx <;> simp [hx]
  refine node_failure_reported Toggle.low Toggle.low 0 (some 50)
    (fun n => failingNode.getD (n - 1) []) 0 0 hlog hstarted hended halone
    (.inr fun e he => ?_) fun e he => ?_
  · rcases he.2 with hx | hx | hx <;>
      cases hlater _ (List.mem_append_right _ hx)
  · cases hlater _ he

/-- A node fails, and the scenario it wakes fails otherwise. -/
def nodeAndScenario : List (List (List (UserOp ℕ ℕ ℕ Plain))) :=
  [[[.start 1]],
    [[.finish 1 (.raised (.user (.exception 1))), .net (.callSoon 5)]],
    [[.finish 0 (.raised (.user (.exception 2)))]]]

theorem node_failure_lost : ∃ pre failure pending post,
    (driven nodeAndScenario).2.log = pre ++ .tearingDown failure pending :: post ∧
      .started 1 ∈ pre ∧ .finished 1 (.raised (.user (.exception 1))) ∈ pre ∧
      (driven nodeAndScenario).1 = .raised (.user (.exception 2)) ∧
      ¬ Noted (driven nodeAndScenario).2 (.user (.exception 2))
        (.user (.exception 1)) := by
  have hbegins : (driven nodeAndScenario).2.log.findSome? Mark.teardown? =
      some (some (.user (.exception 2)), []) := by decide +kernel
  have hstarts : ((driven nodeAndScenario).2.log.takeWhile
      (!·.begins)).filterMap Mark.started? = [1] := by decide +kernel
  have hends : ((driven nodeAndScenario).2.log.takeWhile
      (!·.begins)).filterMap Mark.finished? =
        [(1, .raised (.user (.exception 1))),
          (0, .raised (.user (.exception 2)))] := by decide +kernel
  have hraised : (driven nodeAndScenario).1.error? =
      some (.user (.exception 2)) := by decide +kernel
  have hnotes : (driven nodeAndScenario).2.notes = [] := by decide +kernel
  obtain ⟨post, hlog, -⟩ := exists_begins hbegins
  refine ⟨_, _, _, post, hlog, started?_mem.mp (by rw [hstarts]; simp),
    finished?_mem.mp (by rw [hends]; simp), Res.eq_raised hraised, fun h => ?_⟩
  obtain ⟨text, -, hmem⟩ := h rfl
  rw [hnotes] at hmem
  cases hmem

end World

end Seedloop
