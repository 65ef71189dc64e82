import Seedloop.Proofs.Blind
import Seedloop.Proofs.InFlight

/-!
# After the scenario

The settling begins with an allowance of its own, and each round of the
teardown with another. So what is left of the limit of the run is gone, and two
worlds that are alike but for the limit they started with stay that way until
the drive is over: the number is looked at again only to say how large it was,
and that is no longer said.
-/

namespace Seedloop

namespace World

variable {ρ μ κ υ ε α β : Type}

/-- The same world, started with another limit. -/
def relimit (w : World ρ μ κ υ ε) (m : Option ℕ) (h : ℕ) : World ρ μ κ υ ε :=
  { w with maxSteps := m, horizon := h }

/-- `s` is `t` started with another limit, and that limit is over. -/
structure Alike (m : Option ℕ) (h : ℕ) (s t : World ρ μ κ υ ε) : Prop where
  eq : s = t.relimit m h
  left : t.stepsLeft ≠ none
  error : t.stepError = .teardown

variable {m : Option ℕ} {h : ℕ}

/-- Both do the same from such worlds on. -/
def Unaware (x : Run ρ μ κ υ ε α) : Prop :=
  ∀ m h, Exec.Sync (Alike m h) x x

section

variable {x : Run ρ μ κ υ ε α} {f : α → Run ρ μ κ υ ε β}

theorem Unaware.bind (hx : Unaware x) (hf : ∀ a, Unaware (f a)) :
    Unaware (x >>= f) :=
  fun m h => (hx m h).bind fun a => hf a m h

theorem Unaware.attempt (hx : Unaware x) : Unaware (Exec.attempt x) :=
  fun m h => (hx m h).attempt

theorem Unaware.andFinally {y : Run ρ μ κ υ ε Unit} (hx : Unaware x)
    (hy : Unaware y) : Unaware (Exec.andFinally x y) :=
  fun m h => (hx m h).andFinally (hy m h)

/-- What is looked at is the same. -/
theorem Unaware.look {g : World ρ μ κ υ ε → Run ρ μ κ υ ε α}
    (hsame : ∀ (t : World ρ μ κ υ ε) m h, t.stepsLeft ≠ none →
      g (t.relimit m h) = g t)
    (hg : ∀ t, Unaware (g t)) : Unaware (Exec.look g) :=
  fun m h => Exec.sync_look fun s t hst => by
    rw [hst.eq, hsame t m h hst.left]
    exact hg t m h

end

variable [DecidableEq ε] [Raisable ε] [Random ρ]

section

omit [Random ρ]

end

/-! ## The settling -/

/-- All that a drive does when its scenario was run. -/
def finishDrive (ran : Except (Exc ε) Unit) : Run ρ μ κ υ ε Unit := do
  let (failure, surfaced) ← surface ran
  Exec.andFinally (tearDown failure)
    (Exec.update fun w => { w with closed := true })
  Exec.reraise surfaced

/-- It is not cut off. -/
def Halts (x : Run ρ μ κ υ ε α) (w : World ρ μ κ υ ε) : Prop :=
  Exec.wp x (fun _ _ => True) (fun _ _ => True) (fun _ => False) w

omit [DecidableEq ε] [Raisable ε] [Random ρ] in
theorem Halts.ne_pending {x : Run ρ μ κ υ ε α} {w : World ρ μ κ υ ε}
    (h : Halts x w) : (x w).1 ≠ .pending :=
  fun hpending => h.cut_of (Prod.ext hpending rfl)

omit [DecidableEq ε] in
theorem runUntilDone_passed (fut : ℕ) {w : World ρ μ κ υ ε} {n : ℕ}
    (hn : w.stepsLeft = some n) :
    Exec.wp (runUntilDone fut false) (fun _ w' => Passed w w')
      (fun _ _ => True) (fun _ => False) w := by
  have hwatch : ∀ (t : World ρ μ κ υ ε) watch stopIn settle,
      Spent t [] (t.setWatch watch stopIn settle) := fun _ _ _ _ =>
    .of_eq (List.append_nil _).symm (by simp) rfl rfl
  have hpassed : ∀ u v : World ρ μ κ υ ε, (∃ ms, Spent w ms u) → Passed u v →
      Passed w (v.setWatch none none false) := by
    rintro u v ⟨ms, hu⟩ ⟨ms', hv, hone⟩
    refine ⟨_, (hu.trans hv).trans (hwatch v none none false), ?_⟩
    simp only [stepsIn_append]
    omega
  rw [runUntilDone, Exec.wp_bind, Exec.wp_update, Exec.wp_andFinally,
    Exec.wp_bind]
  simp only [Exec.wp_update]
  have hbegin := hwatch w (some fut) none false
  refine (runForever_passed (w := w.setWatch (some fut) none false) hn).mono ?_
    (fun _ _ _ => trivial) fun _ h => h
  rintro _ u ⟨ms, hu, hone⟩
  rw [Exec.wp_look_apply]
  split
  · have hstop : Spent u [] { u with stopIn := some 1 } :=
      .of_eq (List.append_nil _).symm (by simp) rfl rfl
    have hwu := (hbegin.trans hu).trans hstop
    obtain ⟨n', hn', -⟩ := hwu.steps n hn
    rw [if_neg (by simp)]
    refine (runForever_passed hn').mono (fun _ v hv => ?_)
      (fun _ _ _ => trivial) fun _ h => h
    exact hpassed _ v ⟨_, hwu⟩ hv
  · exact hpassed _ u ⟨_, hbegin⟩ ⟨ms, hu, hone⟩

omit [DecidableEq ε] in
/-- The scenario's task is run until it is done, or something is raised. -/
theorem unwind_halts {w : World ρ μ κ υ ε} (hleft : w.stepsLeft ≠ none) :
    Halts (Exec.look fun w : World ρ μ κ υ ε =>
      Exec.whileDo (fun w => !w.done mainTask)
        (runUntilDone mainTask false) w.fuel) w := by
  obtain ⟨n, hn⟩ := Option.ne_none_iff_exists'.mp hleft
  have hfuel : w.fuel = n + 1 := by rw [fuel, hn]
  rw [Halts, Exec.wp_look_apply, hfuel]
  refine Exec.wp_whileDo (I := fun k t => ∃ m, t.stepsLeft = some m ∧ m < k)
    (fun k s hs _ => ?_) ?_ (fun _ _ _ _ => trivial) _
    ⟨n, hn, Nat.lt_succ_self n⟩
  · obtain ⟨m, hm, hlt⟩ := hs
    refine (runUntilDone_passed _ hm).mono ?_ (fun _ _ _ => trivial)
      fun _ h => h
    rintro _ t ⟨ms, ht, hone⟩
    obtain ⟨m', hm', hle⟩ := ht.steps m hm
    exact ⟨m', hm', by omega⟩
  · rintro s ⟨m, -, hlt⟩ -
    exact absurd hlt (Nat.not_lt_zero m)

section

omit [Random ρ]

theorem noteError_halts (failure e : Exc ε) (w : World ρ μ κ υ ε) :
    Halts (noteError failure e) w :=
  (noteError_annotated failure e w).mono (fun _ _ _ => trivial)
    (fun _ _ _ => trivial) fun _ h => h

theorem noteReplaced_halts (failure : Option (Exc ε)) (e : Exc ε)
    (w : World ρ μ κ υ ε) : Halts (noteReplaced failure e) w :=
  (noteReplaced_annotated failure e w).mono (fun _ _ _ => trivial)
    (fun _ _ _ => trivial) fun _ h => h

theorem noteUnwound_halts (failure : Option (Exc ε)) (w : World ρ μ κ υ ε) :
    Halts (noteUnwound failure) w :=
  (noteUnwound_annotated failure w).mono (fun _ _ _ => trivial)
    (fun _ _ _ => trivial) fun _ h => h

theorem secondary_halts (failure : Option (Exc ε)) {x : Run ρ μ κ υ ε Unit}
    {w : World ρ μ κ υ ε} (h : Halts x w) : Halts (secondary failure x) w := by
  rw [Halts, secondary, Exec.wp_bind, Exec.wp_attempt]
  refine h.mono (fun _ _ _ => trivial) (fun e t _ => ?_) fun _ h => h
  simp only []
  split
  · cases failure with
    | none => exact trivial
    | some f => exact noteError_halts f e t
  · exact trivial

end

theorem unwindScenario_halts (failure : Option (Exc ε)) {w : World ρ μ κ υ ε}
    (hleft : w.stepsLeft ≠ none) :
    Halts (do
      Exec.update (·.cancelTask mainTask)
      secondary failure (Exec.look fun w =>
        Exec.whileDo (fun w => !w.done mainTask)
          (runUntilDone mainTask false) w.fuel)
      noteUnwound failure : Run ρ μ κ υ ε Unit) w := by
  have hcancel : (w.cancelTask mainTask).stepsLeft = w.stepsLeft :=
    congrArg Settings.stepsLeft (cancelTask_turn w mainTask).settings
  rw [Halts, Exec.wp_bind, Exec.wp_update, Exec.wp_bind]
  refine (secondary_halts failure
    (unwind_halts (by rw [hcancel]; exact hleft))).mono
    (fun _ t _ => noteUnwound_halts failure t) (fun _ _ _ => trivial)
    fun _ h => h

theorem settleScenario_halts (failure : Option (Exc ε))
    (w : World ρ μ κ υ ε) : Halts (settleScenario failure) w := by
  have hleft : ((w.limitTeardownSteps 0).mark (.settling failure)).stepsLeft ≠
      none := by simp [limitTeardownSteps, limitSteps, mark]
  have hmore : ∀ t : World ρ μ κ υ ε, t.stepsLeft ≠ none →
      Halts (runOneMoreStep mainTask) t := by
    intro t ht
    obtain ⟨n, hn⟩ := Option.ne_none_iff_exists'.mp ht
    rw [Halts, runOneMoreStep, Exec.wp_bind, Exec.wp_update,
      Exec.wp_andFinally]
    exact (runForever_passed (w := t.setWatch (some mainTask) (some 1) false)
      hn).mono (fun _ _ _ => trivial) (fun _ _ _ => trivial) fun _ h => h
  rw [Halts, settleScenario, Exec.wp_bind, Exec.wp_update]
  dsimp only
  split
  · rw [Exec.wp_bind, Exec.wp_update]
    dsimp only
    rw [Exec.wp_look_apply]
    split
    · exact unwindScenario_halts failure hleft
    · exact secondary_halts failure (hmore _ hleft)
  · rw [Exec.wp_look_apply]
    split
    · exact unwindScenario_halts failure hleft
    · exact trivial

theorem settleRun_halts (ran : Except (Exc ε) Unit) (w : World ρ μ κ υ ε) :
    Halts (settleRun ran) w := by
  have hresult : ∀ t : World ρ μ κ υ ε, Halts mainResult t := by
    intro t
    rw [Halts, mainResult, Exec.wp_look_apply]
    split <;> exact trivial
  have hnodes : ∀ t : World ρ μ κ υ ε, Halts nodeFailures t := by
    intro t
    rw [Halts, nodeFailures, Exec.wp_look_apply]
    split <;> exact trivial
  rw [Halts, settleRun, Exec.wp_bind]
  refine (settleScenario_halts _ w).mono (fun _ t _ => ?_)
    (fun _ _ _ => trivial) fun _ h => h
  rw [Exec.wp_bind]
  cases ran with
  | error f => exact trivial
  | ok a =>
      simp only [Exec.reraise, Exec.wp_pure, Exec.wp_bind]
      refine (hresult t).mono (fun _ t _ => ?_) (fun e t _ => trivial)
        fun _ h => h
      exact (hnodes t).mono (fun _ _ _ => trivial) (fun e t _ => trivial)
        fun _ h => h

theorem surface_halts (ran : Except (Exc ε) Unit) (w : World ρ μ κ υ ε) :
    Halts (surface ran) w := by
  rw [Halts, surface, Exec.wp_bind, Exec.wp_attempt]
  refine (settleRun_halts ran w).mono (fun _ _ _ => trivial) (fun e t _ => ?_)
    fun _ h => h
  simp only [Exec.wp_bind, Exec.wp_attempt]
  exact (noteReplaced_halts _ e t).mono (fun _ _ _ => trivial)
    (fun _ _ _ => trivial) fun _ h => h

theorem tearDown_halts (failure : Option (Exc ε)) (w : World ρ μ κ υ ε) :
    Halts (tearDown failure) w := by
  have hrest : ∀ t : World ρ μ κ υ ε, Exec.wp (do
      Exec.update fun w => mark { w with tearingDown := true }
        (.tearingDown failure w.pendingTasks)
      secondary failure cancelEverything) (fun _ _ => True) (fun _ _ => True)
      (fun _ => False) t := by
    intro t
    rw [Exec.wp_bind, Exec.wp_update]
    exact (cancelEverything_minor failure _).mono (fun _ _ _ => trivial)
      (fun _ _ _ => trivial) fun _ h => h
  have hreplace : ∀ e t, True → Halts (do
      noteReplaced failure e
      Exec.raise e : Run ρ μ κ υ ε Unit) t := by
    intro e t _
    rw [Halts, Exec.wp_bind]
    exact (noteReplaced_halts failure e t).mono (fun _ _ _ => trivial)
      (fun _ _ _ => trivial) fun _ h => h
  unfold tearDown
  rw [Halts, Exec.wp_bind, Exec.wp_attempt]
  split
  · rw [Exec.wp_bind, Exec.wp_update]
    exact (hrest w.clearHooks).mono (fun _ _ _ => trivial) hreplace fun _ h => h
  · exact (hrest w).mono (fun _ _ _ => trivial) hreplace fun _ h => h

theorem finishDrive_halts (ran : Except (Exc ε) Unit) (w : World ρ μ κ υ ε) :
    Halts (finishDrive ran) w := by
  rw [Halts, finishDrive, Exec.wp_bind]
  refine (surface_halts ran w).mono (fun r t _ => ?_) (fun _ _ _ => trivial)
    fun _ h => h
  simp only [Exec.wp_bind, Exec.wp_andFinally, Exec.wp_update]
  refine (tearDown_halts r.1 t).mono (fun _ u _ => ?_) (fun _ _ _ => trivial)
    fun _ h => h
  cases r.2 with
  | error e => exact trivial
  | ok a => exact trivial

/-! ## What comes of the scenario's own failure -/

omit [DecidableEq ε] [Random ρ] in
/-- It is none of the exceptions that are put down as notes, and was raised in
this part of the log. -/
def Usurps (e : Exc ε) (ms : List (Mark μ υ ε)) : Prop :=
  e.kind ≠ .exception ∧
    (.interrupted e ∈ ms ∨ .checkFailed e ∈ ms ∨ .noteRaised e ∈ ms)

omit [DecidableEq ε] [Random ρ] in
theorem Usurps.of_subset {e : Exc ε} {ms ms' : List (Mark μ υ ε)}
    (h : Usurps e ms) (hsub : ms ⊆ ms') : Usurps e ms' := by
  refine ⟨h.1, h.2.imp (fun hm => hsub hm) ?_⟩
  exact Or.imp (fun hm => hsub hm) fun hm => hsub hm

omit [DecidableEq ε] [Random ρ] in
theorem Slip.usurps {e : Exc ε} {ms : List (Mark μ υ ε)} (h : Slip e ms) :
    Usurps e ms :=
  ⟨h.kind, .inr (.inr h.mem)⟩

omit [DecidableEq ε] [Random ρ] in
theorem usurps_of_alarm {e : Exc ε} {as : List (Mark μ υ ε)} (h : Alarm e as)
    (hkind : e.kind ≠ .exception) : Usurps e as := by
  refine ⟨hkind, ?_⟩
  cases h with
  | failed hk => exact absurd hk hkind
  | check post hpost hk => exact .inr (.inl List.mem_cons_self)
  | interrupt hk => exact .inl List.mem_cons_self
  | instead f post m hpost hm =>
      rcases hm with ⟨rfl, -⟩ | ⟨rfl, -⟩
      · exact .inl (by simp)
      · exact .inr (.inl (by simp))
  | note f post gs hpost => exact .inr (.inr (by simp))

omit [DecidableEq ε] [Random ρ] in
theorem Replaces.usurps {w w' : World ρ μ κ υ ε} {f e : Exc ε}
    {ms as : List (Mark μ υ ε)} (h : Replaces w (some f) e ms as w') :
    Usurps e as :=
  usurps_of_alarm h.alarm (h.kind.resolve_left (by simp))

omit [DecidableEq ε] [Random ρ] in
/-- Each of them is `f` or usurps it. -/
theorem Resurfaces.usurps {v u : World ρ μ κ υ ε} {f : Exc ε}
    {r : Option (Exc ε) × Except (Exc ε) Unit} (h : Resurfaces v f r u) :
    ∃ g e ms, r = (some g, .error e) ∧ Past v (.settling (some f) :: ms) u ∧
      (∀ m ∈ ms, m.begins = false) ∧ (g = f ∨ Usurps g ms) ∧
        (e = f ∨ Usurps e ms) := by
  cases h with
  | kept ms _ hsettled =>
      exact ⟨f, f, _, rfl, hsettled.past,
        List.forall_mem_cons.mpr ⟨rfl, hsettled.subsided.begins⟩, .inl rfl,
        .inl rfl⟩
  | replaced e b ms as t _ hb ht hu hnote =>
      have hpast := (hb.trans ht.past).trans hu
      rw [List.append_nil] at hpast
      have husurps : Usurps e (.cleared :: (ms ++ as)) :=
        ht.usurps.of_subset fun m hm => by simp [hm]
      have hbegins := List.forall_mem_append.mpr
        ⟨ht.subsided.begins, ht.alarm.begins⟩
      exact ⟨e, e, .cleared :: (ms ++ as), rfl, hpast,
        List.forall_mem_cons.mpr ⟨rfl, hbegins⟩, .inr husurps, .inr husurps⟩
  | slipped g e b ms _ hb hu hg =>
      have husurps : Usurps e (.cleared :: ms) :=
        hu.slip.usurps.of_subset (List.subset_cons_self _ _)
      refine ⟨g, e, .cleared :: ms, rfl, hb.trans hu.past,
        List.forall_mem_cons.mpr ⟨rfl, hu.begins⟩, ?_, .inr husurps⟩
      rcases hg with rfl | rfl
      · exact .inl rfl
      · exact .inr husurps

omit [DecidableEq ε] [Random ρ] in
theorem TornDown.usurps {u w' : World ρ μ κ υ ε} {e e' : Exc ε}
    {ms : List (Mark μ υ ε)} (h : TornDown u (some e) (some e') ms w') :
    e' = e ∨ Usurps e' ms := by
  cases h with
  | kept pre ms v _ hv hpre hw' hminor hidle => exact .inl rfl
  | replaced _ pre ms as v t _ hv hpre ht hw' hnote hidle =>
      exact .inr (ht.usurps.of_subset fun m hm => by simp [hm])
  | slipped f _ pre ms v _ hf hv hpre hw' hidle =>
      exact .inr (hw'.slip.usurps.of_subset fun m hm => by simp [hm])

end World

end Seedloop
