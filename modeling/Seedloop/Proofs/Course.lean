import Seedloop.Proofs.TeardownEnds

/-!
# The course of a drive

What is raised in a run leaves a mark, and the marks of what is raised are the
last ones of the pass that it ends: `Alarm` lists the ways. Between them a run
is calm, and everything that the loops of the drive can do is one of three: to
be calm and return, to be calm and be cut off, or to be calm and then raise.

In the teardown, what looks like the error of a loop that user code stopped is
not raised any further, whatever it is; a part of the log with such errors in
it has `Subsided`.
-/

namespace Seedloop

/-- A mark that is neither an error nor a phase of the drive. -/
def Mark.calm {μ υ ε : Type} : Mark μ υ ε → Bool
  | .checkFailed _ | .failed _ | .interrupted _ | .noteRaised _
  | .settling _ | .tearingDown _ _ => false
  | _ => true

def Mark.isEvaluated {μ υ ε : Type} : Mark μ υ ε → Bool
  | .evaluated _ => true
  | _ => false

namespace World

variable {ρ μ κ υ ε : Type}

/-- From `w` to `w'` with nothing raised. -/
structure Calm (w : World ρ μ κ υ ε) (ms : List (Mark μ υ ε))
    (w' : World ρ μ κ υ ε) : Prop where
  past : Past w ms w'
  calm : ∀ m ∈ ms, m.calm = true

theorem Calm.of_memory {w w' : World ρ μ κ υ ε} (h : w'.memory = w.memory) :
    Calm w [] w' :=
  ⟨.of_memory h, by simp⟩

theorem Calm.refl (w : World ρ μ κ υ ε) : Calm w [] w := .of_memory rfl

theorem Calm.trans {w w' w'' : World ρ μ κ υ ε} {ms ms' : List (Mark μ υ ε)}
    (h : Calm w ms w') (h' : Calm w' ms' w'') : Calm w (ms ++ ms') w'' :=
  ⟨h.past.trans h'.past, List.forall_mem_append.mpr ⟨h.calm, h'.calm⟩⟩

theorem Turn.calm {w w' : World ρ μ κ υ ε} {ms : List (Mark μ υ ε)}
    (h : Turn w ms w') : Calm w ms w' := by
  refine ⟨h.past, fun m hm => ?_⟩
  have hby := h.byUser m hm
  cases m with
  | always | installed | stop | started | finished => rfl
  | _ => cases hby

theorem Counted.calm {w w' : World ρ μ κ υ ε} (h : Counted w w') :
    ∃ ms, Calm w ms w' := by
  obtain ⟨ms, hpast, hms⟩ := h.past
  exact ⟨ms, hpast, fun m hm => hms m hm ▸ rfl⟩

theorem Begun.calm {w w' : World ρ μ κ υ ε} (h : Begun w w') :
    Calm w [.stepBegin] w' :=
  ⟨h.past, by simp [Mark.calm]⟩

theorem stepEnd_calm (w : World ρ μ κ υ ε) :
    Calm w [.stepEnd w.view] (w.mark (.stepEnd w.view)) :=
  ⟨stepEnd_past w, by simp [Mark.calm]⟩

theorem calm_of_isEvaluated {ms : List (Mark μ υ ε)}
    (h : ∀ m ∈ ms, m.isEvaluated = true) : ∀ m ∈ ms, m.calm = true := by
  intro m hm
  have hm := h m hm
  cases m with
  | evaluated => rfl
  | _ => cases hm

/-- Checks of which at most one failed. -/
theorem Checks.split {w w' : World ρ μ κ υ ε} {ms : List (Mark μ υ ε)}
    (h : Checks w ms w') (hms : (failures ms).length ≤ 1) :
    (failures ms = [] ∧ ∀ m ∈ ms, m.isEvaluated = true) ∨
      ∃ pre f post, failures ms = [f] ∧ ms = pre ++ .checkFailed f :: post ∧
        (∀ m ∈ pre, m.isEvaluated = true) ∧
        ∀ m ∈ post, m.isEvaluated = true := by
  have hby := h.byCheck
  clear h
  induction ms with
  | nil => exact .inl ⟨rfl, by simp⟩
  | cons m ms ih =>
      have hm := hby m List.mem_cons_self
      have hrest := fun m' hm' => hby m' (List.mem_cons_of_mem _ hm')
      cases m with
      | evaluated name =>
          rcases ih hms hrest with ⟨hnone, hall⟩ |
            ⟨pre, f, post, hf, rfl, hpre, hpost⟩
          · exact .inl ⟨hnone, List.forall_mem_cons.mpr ⟨rfl, hall⟩⟩
          · exact .inr ⟨.evaluated name :: pre, f, post, hf, rfl,
              List.forall_mem_cons.mpr ⟨rfl, hpre⟩, hpost⟩
      | checkFailed f =>
          have hnone : failures ms = [] := List.length_eq_zero_iff.mp
            (Nat.le_zero.mp (Nat.le_of_succ_le_succ hms))
          rcases ih (by rw [hnone]; exact Nat.zero_le 1) hrest with
            ⟨-, hall⟩ | ⟨-, g, -, hg, -⟩
          · exact .inr ⟨[], f, ms, congrArg (f :: ·) hnone, rfl, by simp, hall⟩
          · rw [hnone] at hg
            cases hg
      | _ => cases hm

end World

/-- How the last marks of a pass say that `e` was raised. In a step whose
checks have failed with `f`, something else can be raised instead: by a later
check, or where `f` is annotated, or asked for its text in a teardown. -/
inductive Alarm {μ υ ε : Type} [Raisable ε] (e : Exc ε) :
    List (Mark μ υ ε) → Prop
  | failed (hkind : e.kind = .exception) (hstop : e.saysStopped = .ok false) :
      Alarm e [.failed e]
  | check (post : List (Mark μ υ ε))
      (hpost : ∀ m ∈ post, m.isEvaluated = true)
      (hkind : e.kind ≠ .interrupt) : Alarm e (.checkFailed e :: post)
  | interrupt (hkind : e.kind = .interrupt) : Alarm e [.interrupted e]
  | instead (f : Exc ε) (post : List (Mark μ υ ε)) (m : Mark μ υ ε)
      (hpost : ∀ m ∈ post, m.isEvaluated = true)
      (hm : m = .interrupted e ∧ e.kind = .interrupt ∨
        m = .checkFailed e ∧ e.kind = .other) :
      Alarm e (.checkFailed f :: (post ++ [m]))
  | note (f : Exc ε) (post : List (Mark μ υ ε)) (gs : List (Exc ε))
      (hpost : ∀ m ∈ post, m.isEvaluated = true) :
      Alarm e (.checkFailed f :: (post ++ (gs ++ [e]).map .noteRaised))

namespace World

variable {ρ μ κ υ ε : Type} [Raisable ε]

/-- From `w` to `w'`, where `e` is raised. -/
def Fails (w : World ρ μ κ υ ε) (e : Exc ε) (w' : World ρ μ κ υ ε) : Prop :=
  ∃ ms as, Past w (ms ++ as) w' ∧ (∀ m ∈ ms, m.calm = true) ∧ Alarm e as

theorem Calm.fails {w w' w'' : World ρ μ κ υ ε} {ms : List (Mark μ υ ε)}
    {e : Exc ε} (h : Calm w ms w') (h' : Fails w' e w'') : Fails w e w'' := by
  obtain ⟨ms', as, hpast, hcalm, halarm⟩ := h'
  refine ⟨ms ++ ms', as, ?_, List.forall_mem_append.mpr ⟨h.calm, hcalm⟩,
    halarm⟩
  rw [List.append_assoc]
  exact h.past.trans hpast

/-- What changes nothing that a run remembers does not change how it failed. -/
theorem Fails.of_memory {w w' w'' : World ρ μ κ υ ε} {e : Exc ε}
    (h : Fails w e w') (hm : w''.memory = w'.memory) : Fails w e w'' := by
  obtain ⟨ms, as, hpast, hcalm, halarm⟩ := h
  refine ⟨ms, as, ?_, hcalm, halarm⟩
  have := hpast.trans (.of_memory hm)
  rwa [List.append_nil] at this

/-! ## Steps -/

omit [Raisable ε] in
theorem Checks.calm {w w' : World ρ μ κ υ ε} {ms : List (Mark μ υ ε)}
    (h : Checks w ms w') (hms : failures ms = []) : Calm w ms w' := by
  refine ⟨h.past, ?_⟩
  rcases h.split (by rw [hms]; exact Nat.zero_le 1) with
    ⟨-, hall⟩ | ⟨-, f, -, hf, -⟩
  · exact calm_of_isEvaluated hall
  · rw [hms] at hf
    cases hf

omit [Raisable ε] in
theorem Stepped.calm {w w' : World ρ μ κ υ ε} (h : Stepped w w') :
    ∃ ms, Calm w ms w' := by
  obtain ⟨b, ms, v, x, hb, hv, ⟨ms', hx, hnone⟩, -, rfl⟩ := h
  obtain ⟨ms'', hcount⟩ := (countStop_counted x).calm
  exact ⟨_, ((hb.calm.trans hv.calm).trans (stepEnd_calm v)).trans
    ((hx.calm hnone).trans hcount)⟩

/-- A mark of something raised, after checks of which at most one failed. -/
theorem Checks.fails {w u w' : World ρ μ κ υ ε} {ms : List (Mark μ υ ε)}
    {e : Exc ε} {m : Mark μ υ ε} (h : Checks w ms u)
    (hms : (failures ms).length ≤ 1) (hw' : Past u [m] w')
    (halone : Alarm e [m])
    (hm : m = .interrupted e ∧ e.kind = .interrupt ∨
      m = .checkFailed e ∧ e.kind = .other) : Fails w e w' := by
  have hpast := h.past.trans hw'
  rcases h.split hms with ⟨-, hall⟩ | ⟨pre, f, post, -, rfl, hpre, hpost⟩
  · exact ⟨ms, [m], hpast, calm_of_isEvaluated hall, halone⟩
  · refine ⟨pre, _, ?_, calm_of_isEvaluated hpre, .instead f post m hpost hm⟩
    rw [List.append_assoc] at hpast
    exact hpast

theorem Interrupted.fails {w w' : World ρ μ κ υ ε} {e : Exc ε}
    (h : Interrupted w e w') : Fails w e w' := by
  obtain ⟨hkind, ms, u, hu, rfl⟩ := h
  exact hu.calm.fails ⟨[], _, .mark u (by simp) (by simp) rfl rfl, by simp,
    .interrupt hkind⟩

theorem CheckFails.fails {w w' : World ρ μ κ υ ε} {e : Exc ε}
    (h : CheckFails w e w') : Fails w e w' := by
  refine (stepEnd_calm w).fails ?_
  cases h with
  | aborted h =>
      obtain ⟨ms, u, hu, hms, ⟨hkind, rfl⟩ | ⟨hkind, rfl⟩⟩ := h
      · exact hu.fails hms (.mark u (by simp) (by simp) rfl rfl)
          (.interrupt hkind) (.inl ⟨rfl, hkind⟩)
      · exact hu.fails hms (.mark u (by simp) (by simp) rfl rfl)
          (.check [] (by simp) (by rw [hkind]; simp)) (.inr ⟨rfl, hkind⟩)
  | failed ms u hu hms hkind hw' =>
      rcases hu.split (by rw [hms]; exact Nat.le_refl 1) with
        ⟨hnone, -⟩ | ⟨pre, f, post, hf, rfl, hpre, hpost⟩
      · rw [hms] at hnone
        cases hnone
      · rw [hms] at hf
        cases hf
        have hpast := hu.past.trans hw'.past
        rw [List.append_nil] at hpast
        exact ⟨pre, _, hpast, calm_of_isEvaluated hpre,
          .check post hpost (by rw [hkind]; simp)⟩
  | noteRaised ms u first hu hms hw' =>
      obtain ⟨v, hv, rfl⟩ := hw'
      have hmark : Past u [.noteRaised e] (v.mark (.noteRaised e)) :=
        hv.past.trans (.mark v (by simp) (by simp) rfl rfl)
      rcases hu.split (by rw [hms]; exact Nat.le_refl 1) with
        ⟨hnone, -⟩ | ⟨pre, f, post, -, rfl, hpre, hpost⟩
      · rw [hms] at hnone
        cases hnone
      · have hpast := hu.past.trans hmark
        rw [List.append_assoc] at hpast
        exact ⟨pre, _, hpast, calm_of_isEvaluated hpre,
          .note f post [] hpost⟩

theorem StepRaises.fails {w w' : World ρ μ κ υ ε} {e : Exc ε}
    (h : StepRaises w e w') : Fails w e w' := by
  cases h with
  | limit hleft he hw' hsettings =>
      refine ⟨[], _, hw', by simp, .failed ?_ ?_⟩
      · rw [he, makeStepError]
        split <;> rfl
      · rw [he, makeStepError]
        split <;> rfl
  | deadlock b blocked hb he hw' =>
      refine hb.calm.fails ⟨[], [.failed e], ?_, by simp, ?_⟩
      · rw [hw']
        exact .mark b (by simp) (by simp) rfl rfl
      · rw [he]
        exact .failed rfl rfl
  | interrupted b hb hw' => exact hb.calm.fails hw'.fails
  | checks b ms v hb hv hw' => exact (hb.calm.trans hv.calm).fails hw'.fails

/-! ## The loops -/

/-- A loop of the drive: it is calm, or calm until it raises. -/
def Goes (x : Run ρ μ κ υ ε Unit) (w : World ρ μ κ υ ε) : Prop :=
  Exec.wp x (fun _ w' => ∃ ms, Calm w ms w') (Fails w)
    (fun w' => ∃ ms, Calm w ms w') w

theorem Goes.after {x : Run ρ μ κ υ ε Unit} {w w' : World ρ μ κ υ ε}
    {ms : List (Mark μ υ ε)} (h : Calm w ms w') (hx : Goes x w') :
    Exec.wp x (fun _ w' => ∃ ms, Calm w ms w') (Fails w)
      (fun w' => ∃ ms, Calm w ms w') w' := by
  refine hx.mono ?_ (fun _ _ hfails => h.fails hfails) ?_
  · rintro _ t ⟨ms', ht⟩
    exact ⟨_, h.trans ht⟩
  · rintro t ⟨ms', ht⟩
    exact ⟨_, h.trans ht⟩

theorem Goes.split {x : Run ρ μ κ υ ε Unit} {w : World ρ μ κ υ ε}
    (hx : Goes x w) :
    Exec.wp x (fun _ w' => ∃ ms, Past w ms w' ∧ ∀ m ∈ ms, m.calm = true)
      (Fails w) (fun w' => ∃ ms, Calm w ms w') w := by
  refine hx.mono ?_ (fun _ _ h => h) fun _ h => h
  rintro _ w' ⟨ms, h⟩
  exact ⟨ms, h.past, h.calm⟩

/-- A `finally` block that changes nothing that a run remembers. -/
theorem Goes.andFinally {x : Run ρ μ κ υ ε Unit} {w : World ρ μ κ υ ε}
    {f : World ρ μ κ υ ε → World ρ μ κ υ ε} (hx : Goes x w)
    (hf : ∀ t, (f t).memory = t.memory) :
    Goes (Exec.andFinally x (Exec.update f)) w := by
  rw [Goes, Exec.wp_andFinally]
  simp only [Exec.wp_update]
  refine hx.mono ?_ (fun _ t ht => ht.of_memory (hf t)) fun _ h => h
  rintro _ t ⟨ms, ht⟩
  exact ⟨_, ht.trans (.of_memory (hf t))⟩

variable [Random ρ]

theorem runForever_goes (w : World ρ μ κ υ ε) : Goes runForever w := by
  have hloop : Goes (Exec.doUntil (fun w => w.net.loop.stopping) runOnce
      w.fuel) w := by
    refine Exec.wp_doUntil (I := fun _ t => ∃ ms, Calm w ms t)
      (fun _ s hs => ?_) (fun _ hs => hs) _ ⟨[], .refl w⟩
    obtain ⟨ms, hs⟩ := hs
    refine (runOnce_steps s).mono ?_ (fun _ _ h => hs.fails h.fails)
      fun _ h => h.elim
    rintro _ t ht
    obtain ⟨ms', ht⟩ := ht.calm
    exact ⟨fun _ => ⟨_, hs.trans ht⟩, fun _ => ⟨_, hs.trans ht⟩⟩
  exact hloop.andFinally fun _ => rfl

/-- Winding up after `fut`: the list is cleared after the first of the two
steps, or before the second if there is no first. -/
structure Winds (w : World ρ μ κ υ ε) (fut : ℕ) (ms : List (Mark μ υ ε))
    (t : World ρ μ κ υ ε) : Prop where
  calm : Calm w ms t
  watch : t.watch = some fut
  settle : t.settle = true
  cleared : t.stopIn = none ∨ t.stopIn = some 2 ∨ .cleared ∈ ms

omit [Raisable ε] [Random ρ] in
/-- The watch stays what it is until the end of the step. -/
theorem Stepped.counted {w w' : World ρ μ κ υ ε} (h : Stepped w w') :
    ∃ ms x, Calm w ms x ∧ x.watch = w.watch ∧ x.settle = w.settle ∧
      x.stopIn = w.stopIn ∧ Counted x w' := by
  obtain ⟨b, ms, v, x, hb, hv, ⟨ms', hx, hnone⟩, -, rfl⟩ := h
  have hcalm := (hb.calm.trans hv.calm).trans
    ((stepEnd_calm v).trans (hx.calm hnone))
  have hset : x.settings = { w.settings with
      steps := w.steps + 1
      stepsLeft := w.stepsLeft.map (· - 1) } := by
    rw [hx.settings]
    exact hv.settings.trans hb.settings
  exact ⟨_, x, hcalm, congrArg Settings.watch hset,
    congrArg Settings.settle hset, congrArg Settings.stopIn hset,
    countStop_counted x⟩

omit [Raisable ε] [Random ρ] in
theorem Winds.step {w t t' : World ρ μ κ υ ε} {fut : ℕ}
    {ms : List (Mark μ υ ε)} (h : Winds w fut ms t) (hstep : Stepped t t') :
    ∃ ms, Winds w fut ms t' ∧
      (t'.done fut = true → t'.stopIn = some 2 ∨ .cleared ∈ ms) := by
  obtain ⟨ms', x, hx, hwatch, hsettle, hstop, hcount⟩ := hstep.counted
  have hcalm := h.calm.trans hx
  have hkeep : .cleared ∈ ms → (Mark.cleared : Mark μ υ ε) ∈ ms ++ ms' :=
    List.mem_append_left _
  rw [h.watch] at hwatch
  rw [h.settle] at hsettle
  cases hcount with
  | idle hw =>
      rw [hw] at hwatch
      cases hwatch
  | waiting f hw hs hdone =>
      cases hw.symm.trans hwatch
      refine ⟨_, ⟨hcalm, hwatch, hsettle, .inl hs⟩, fun hdone' => ?_⟩
      rw [hdone] at hdone'
      cases hdone'
  | noticed f hw hs hdone =>
      have hpast : Calm x [] { x with stopIn := some 2 } := .of_memory rfl
      exact ⟨_, ⟨hcalm.trans hpast, hwatch, hsettle, .inr (.inl rfl)⟩,
        fun _ => .inl rfl⟩
  | counted f n hw hs hn hnot =>
      have hpast : Calm x [] { x with stopIn := some (n - 1) } :=
        .of_memory rfl
      -- From two, one step less is where the list is cleared.
      have hcleared : .cleared ∈ ms := by
        rcases h.cleared with hnone | htwo | hmem
        · rw [← hstop, hs] at hnone
          cases hnone
        · rw [← hstop, hs] at htwo
          cases htwo
          exact absurd ⟨rfl, hsettle⟩ hnot
        · exact hmem
      have hmem := hkeep hcleared
      rw [← List.append_nil (ms ++ ms')] at hmem
      exact ⟨_, ⟨hcalm.trans hpast, hwatch, hsettle, .inr (.inr hmem)⟩,
        fun _ => .inr hmem⟩
  | settled f n hw hs hn hsettle' =>
      have hpast : Calm x [.cleared] (clearHooks { x with
          stopIn := some (n - 1) }) := by
        have hcount : Past x [] { x with stopIn := some (n - 1) } :=
          .of_memory rfl
        exact ⟨hcount.trans (clearHooks_past _), by simp [Mark.calm]⟩
      have hmem : (Mark.cleared : Mark μ υ ε) ∈ ms ++ ms' ++ [.cleared] := by
        simp
      exact ⟨_, ⟨hcalm.trans hpast, hwatch, hsettle, .inr (.inr hmem)⟩,
        fun _ => .inr hmem⟩
  | stopped f n hw hs hn =>
      have hpast : Calm x [] (stopLoop { x with stopIn := some (n - 1) }) :=
        .of_memory rfl
      have hcleared : .cleared ∈ ms := by
        rcases h.cleared with hnone | htwo | hmem
        · rw [← hstop, hs] at hnone
          cases hnone
        · rw [← hstop, hs] at htwo
          cases htwo
          cases hn
        · exact hmem
      have hmem := hkeep hcleared
      rw [← List.append_nil (ms ++ ms')] at hmem
      exact ⟨_, ⟨hcalm.trans hpast, hwatch, hsettle, .inr (.inr hmem)⟩,
        fun _ => .inr hmem⟩

/-- The run of the scenario: it is wound up when its task is done. -/
theorem runForever_winds {w : World ρ μ κ υ ε} {fut : ℕ}
    (hwatch : w.watch = some fut) (hsettle : w.settle = true)
    (hstop : w.stopIn = none) :
    Exec.wp runForever
      (fun _ t => ∃ ms, Calm w ms t ∧
        (t.done fut = true → t.stopIn = some 2 ∨ .cleared ∈ ms))
      (Fails w) (fun t => ∃ ms, Calm w ms t) w := by
  rw [runForever, Exec.wp_look_apply, Exec.wp_andFinally]
  simp only [Exec.wp_update]
  refine Exec.wp_doUntil (I := fun _ t => ∃ ms, Winds w fut ms t)
    (fun _ s hs => ?_) (fun _ h => h.imp fun _ hs => hs.calm) _
    ⟨[], .refl w, hwatch, hsettle, .inl hstop⟩
  obtain ⟨ms, hs⟩ := hs
  refine (runOnce_steps s).mono ?_ ?_ fun _ h => h.elim
  · rintro _ t ht
    obtain ⟨ms', hwinds, hdone⟩ := hs.step ht
    refine ⟨fun _ => ⟨ms', ?_, hdone⟩, fun _ => ⟨ms', hwinds⟩⟩
    have hclear : Calm t [] { t with net := { t.net with
        loop := { t.net.loop with stopping := false } } } := .of_memory rfl
    have := hwinds.calm.trans hclear
    rwa [List.append_nil] at this
  · exact fun e t ht => (hs.calm.fails ht.fails).of_memory rfl

theorem runUntilDone_goes (fut : ℕ) (settle : Bool) (w : World ρ μ κ υ ε) :
    Goes (runUntilDone fut settle) w := by
  have hwatch : Calm w [] (w.setWatch (some fut) none settle) := .of_memory rfl
  rw [Goes, runUntilDone, Exec.wp_bind, Exec.wp_update]
  refine Goes.after hwatch (Goes.andFinally ?_ fun _ => rfl)
  rw [Goes, Exec.wp_bind]
  refine (runForever_goes _).mono ?_ (fun _ _ h => h) fun _ h => h
  rintro _ t ⟨ms, ht⟩
  rw [Exec.wp_look_apply]
  split
  · split
    · have hclear : Calm t [.cleared] t.clearHooks :=
        ⟨clearHooks_past t, by simp [Mark.calm]⟩
      have hstop : Calm t.clearHooks [] { t.clearHooks with stopIn := some 1 } :=
        .of_memory rfl
      simp only [Exec.wp_bind, Exec.wp_update]
      exact Goes.after ((ht.trans hclear).trans hstop) (runForever_goes _)
    · have hstop : Calm t [] { t with stopIn := some 1 } := .of_memory rfl
      simp only [Exec.wp_bind, Exec.wp_update]
      exact Goes.after (ht.trans hstop) (runForever_goes _)
  · exact ⟨ms, ht⟩

/-- A run that is wound up has its list cleared. -/
theorem runUntilDone_clears (fut : ℕ) (w : World ρ μ κ υ ε) :
    Exec.wp (runUntilDone fut true)
      (fun _ w' => ∃ ms, Calm w ms w' ∧
        (w'.done fut = true → .cleared ∈ ms))
      (Fails w) (fun w' => ∃ ms, Calm w ms w') w := by
  have hwatch : Calm w [] (w.setWatch (some fut) none true) := .of_memory rfl
  have hend : ∀ t ms, Calm w ms t → Calm w ms (t.setWatch none none false) := by
    intro t ms ht
    have hreset : Calm t [] (t.setWatch none none false) := .of_memory rfl
    have := ht.trans hreset
    rwa [List.append_nil] at this
  rw [runUntilDone, Exec.wp_bind, Exec.wp_update, Exec.wp_andFinally,
    Exec.wp_bind]
  simp only [Exec.wp_update]
  refine (runForever_winds rfl rfl rfl).mono ?_
    (fun _ _ h => (hwatch.fails h).of_memory rfl)
    fun _ ⟨ms, ht⟩ => ⟨_, hwatch.trans ht⟩
  rintro _ t ⟨ms, ht, hcleared⟩
  have ht := hwatch.trans ht
  have hlast : ∀ b ms', Calm w ms' b → .cleared ∈ ms' →
      Exec.wp runForever
        (fun _ t => ∃ ms, Calm w ms (t.setWatch none none false) ∧
          ((t.setWatch none none false).done fut = true → .cleared ∈ ms))
        (fun e t => Fails w e (t.setWatch none none false))
        (fun t => ∃ ms, Calm w ms t) b := by
    intro b ms' hb hmem
    refine (runForever_goes b).mono ?_
      (fun _ _ h => (hb.fails h).of_memory rfl)
      fun _ ⟨ms, ht⟩ => ⟨_, hb.trans ht⟩
    rintro _ t ⟨ms, ht⟩
    exact ⟨_, hend t _ (hb.trans ht), fun _ => List.mem_append_left _ hmem⟩
  rw [Exec.wp_look_apply]
  split
  · next hstop =>
    split
    · have hclear : Calm t [.cleared] t.clearHooks :=
        ⟨clearHooks_past t, by simp [Mark.calm]⟩
      have hone : Calm t.clearHooks [] { t.clearHooks with stopIn := some 1 } :=
        .of_memory rfl
      simp only [Exec.wp_bind, Exec.wp_update]
      exact hlast _ _ ((ht.trans hclear).trans hone) (by simp)
    · next htwo =>
      have hone : Calm t [] { t with stopIn := some 1 } := .of_memory rfl
      simp only [Exec.wp_bind, Exec.wp_update]
      refine hlast _ _ (ht.trans hone) (List.mem_append_left _ ?_)
      refine (hcleared hstop.1).resolve_left fun h => htwo ⟨h, trivial⟩
  · next hstop =>
    refine ⟨_, hend t _ ht, fun hdone => ?_⟩
    exact (hcleared hdone).resolve_left fun h => hstop ⟨hdone, .inr h⟩

theorem runOneMoreStep_goes (fut : ℕ) (w : World ρ μ κ υ ε) :
    Goes (runOneMoreStep fut) w := by
  have hwatch : Calm w [] (w.setWatch (some fut) (some 1) false) :=
    .of_memory rfl
  rw [Goes, runOneMoreStep, Exec.wp_bind, Exec.wp_update]
  exact Goes.after hwatch ((runForever_goes _).andFinally fun _ => rfl)

end World

/-! ## The teardown -/

/-- Calm, but for what is taken for the error of a loop that was stopped. -/
inductive Subsided {μ υ ε : Type} [Raisable ε] : List (Mark μ υ ε) → Prop
  | calm (ms : List (Mark μ υ ε)) (hcalm : ∀ m ∈ ms, m.calm = true) :
      Subsided ms
  | taken (ms as : List (Mark μ υ ε)) (e : Exc ε) (hms : Subsided ms)
      (halarm : Alarm e as) (hstop : e.saysStopped = .ok true) :
      Subsided (ms ++ as)
  | append (ms ms' : List (Mark μ υ ε)) (hms : Subsided ms)
      (hms' : Subsided ms') : Subsided (ms ++ ms')

/-- What is raised where an exception is asked for its text. -/
theorem Alarm.of_text {μ υ ε : Type} [Raisable ε] {e exc : Exc ε} {as : List (Mark μ υ ε)}
    (h : Alarm e as) (htext : e.saysStopped = .error exc) :
    Alarm exc (as ++ [.noteRaised exc]) := by
  have hkind : e.kind = .exception := Exc.saysStopped_kind (by simp [htext])
  cases h with
  | failed _ hstop =>
      rw [htext] at hstop
      cases hstop
  | check post hpost => exact .note e post [] hpost
  | interrupt hinterrupt =>
      rw [hkind] at hinterrupt
      cases hinterrupt
  | instead f post m hpost hm =>
      rcases hm with ⟨-, hinterrupt⟩ | ⟨-, hother⟩
      · rw [hkind] at hinterrupt
        cases hinterrupt
      · rw [hkind] at hother
        cases hother
  | note f post gs hpost =>
      rw [List.cons_append, List.append_assoc,
        show [.noteRaised exc] = [exc].map Mark.noteRaised from rfl,
        ← List.map_append]
      exact .note f post _ hpost

namespace World

variable {ρ μ κ υ ε : Type} [Raisable ε]

/-- From `w` to `w'` without anything raised. -/
def Lasts (w w' : World ρ μ κ υ ε) : Prop :=
  ∃ ms, Past w ms w' ∧ Subsided ms

/-- From `w` to `w'`, where `e` is raised. -/
def Breaks (w : World ρ μ κ υ ε) (e : Exc ε) (w' : World ρ μ κ υ ε) : Prop :=
  ∃ ms as, Past w (ms ++ as) w' ∧ Subsided ms ∧ Alarm e as

theorem Calm.lasts {w w' : World ρ μ κ υ ε} {ms : List (Mark μ υ ε)}
    (h : Calm w ms w') : Lasts w w' := ⟨ms, h.past, .calm ms h.calm⟩

theorem Lasts.of_memory {w w' : World ρ μ κ υ ε} (h : w'.memory = w.memory) :
    Lasts w w' := (Calm.of_memory h).lasts

theorem Lasts.trans {w w' w'' : World ρ μ κ υ ε} (h : Lasts w w')
    (h' : Lasts w' w'') : Lasts w w'' := by
  obtain ⟨ms, hpast, hms⟩ := h
  obtain ⟨ms', hpast', hms'⟩ := h'
  exact ⟨_, hpast.trans hpast', .append ms ms' hms hms'⟩

theorem Lasts.breaks {w w' w'' : World ρ μ κ υ ε} {e : Exc ε} (h : Lasts w w')
    (h' : Breaks w' e w'') : Breaks w e w'' := by
  obtain ⟨ms, hpast, hms⟩ := h
  obtain ⟨ms', as, hpast', hms', halarm⟩ := h'
  refine ⟨ms ++ ms', as, ?_, .append ms ms' hms hms', halarm⟩
  rw [List.append_assoc]
  exact hpast.trans hpast'

theorem Fails.breaks {w w' : World ρ μ κ υ ε} {e : Exc ε}
    (h : Fails w e w') : Breaks w e w' := by
  obtain ⟨ms, as, hpast, hcalm, halarm⟩ := h
  exact ⟨ms, as, hpast, .calm ms hcalm, halarm⟩

theorem Breaks.lasts {w w' : World ρ μ κ υ ε} {e : Exc ε}
    (h : Breaks w e w') (hstop : e.saysStopped = .ok true) : Lasts w w' := by
  obtain ⟨ms, as, hpast, hms, halarm⟩ := h
  exact ⟨_, hpast, .taken ms as e hms halarm hstop⟩

theorem Breaks.of_text {w w' : World ρ μ κ υ ε} {e exc : Exc ε}
    (h : Breaks w e w') (htext : e.saysStopped = .error exc) :
    Breaks w exc (w'.mark (.noteRaised exc)) := by
  obtain ⟨ms, as, hpast, hms, halarm⟩ := h
  refine ⟨ms, as ++ [.noteRaised exc], ?_, hms, halarm.of_text htext⟩
  rw [← List.append_assoc]
  exact hpast.trans (.mark _ (by simp) (by simp) rfl rfl)

/-- How a part of the teardown goes. -/
def Holds (x : Run ρ μ κ υ ε Unit) (w : World ρ μ κ υ ε) : Prop :=
  Exec.wp x (fun _ w' => Lasts w w') (Breaks w) (Lasts w) w

theorem Goes.holds {x : Run ρ μ κ υ ε Unit} {w : World ρ μ κ υ ε}
    (h : Goes x w) : Holds x w := by
  refine h.mono ?_ (fun _ _ h => h.breaks) ?_
  · rintro _ w' ⟨ms, hms⟩
    exact hms.lasts
  · rintro w' ⟨ms, hms⟩
    exact hms.lasts

theorem Holds.after {x : Run ρ μ κ υ ε Unit} {w w' : World ρ μ κ υ ε}
    (h : Lasts w w') (hx : Holds x w') :
    Exec.wp x (fun _ w' => Lasts w w') (Breaks w) (Lasts w) w' :=
  hx.mono (fun _ _ ht => h.trans ht) (fun _ _ ht => h.breaks ht)
    fun _ ht => h.trans ht

variable [Random ρ]

theorem runUntilGathered_holds (w : World ρ μ κ υ ε) :
    Holds runUntilGathered w := by
  rw [Holds, runUntilGathered, Exec.wp_look_apply]
  refine Exec.wp_whileDo (I := fun _ t => Lasts w t) (fun k s hs _ => ?_)
    (fun _ hs _ => hs) (fun _ _ hs _ => hs) _ (.of_memory rfl)
  have hgather : ∀ t : World ρ μ κ υ ε, ∀ g, Lasts t { t with gather := g } :=
    fun _ _ => .of_memory rfl
  have hrun : Goes (Exec.andFinally runForever (Exec.update fun w =>
      { w with gather := { w.gather with stopsLoop := false } }))
      { s with gather := { s.gather with stopsLoop := true } } :=
    (runForever_goes _).andFinally fun _ => rfl
  have hs := hs.trans (hgather s { s.gather with stopsLoop := true })
  simp only [Exec.wp_bind, Exec.wp_attempt, runUntilComplete, Exec.wp_update]
  refine (Holds.after hs hrun.holds).mono ?_ ?_ fun _ h => h
  · intro _ t ht
    rw [Exec.wp_look_apply]
    split
    · exact ht
    · next hdone =>
      simp only [Exec.wp_raise, Exec.wp_look]
      rw [if_neg hdone]
      exact ht
  · intro e t ht
    rw [Exec.wp_look_apply]
    split
    · exact ht
    · cases htext : e.saysStopped with
      | error exc => exact ht.of_text htext
      | ok stopped =>
          cases stopped with
          | true => exact ht.lasts htext
          | false => exact ht

theorem cancelRounds_holds (k : ℕ) (w : World ρ μ κ υ ε) :
    Holds (cancelRounds k) w := by
  induction k generalizing w with
  | zero =>
      exact ⟨[], _, .mark w (by simp) (by simp) rfl rfl, .calm [] (by simp),
        .failed rfl rfl⟩
  | succ k ih =>
      rw [Holds, cancelRounds, Exec.wp_look_apply]
      simp only []
      split
      · exact .of_memory rfl
      · generalize w.byCreation w.pendingTasks = pending
        have hmark : Calm w [.round pending] (w.mark (.round pending)) :=
          ⟨.mark w (by simp) (by simp) rfl rfl, by simp [Mark.calm]⟩
        have hcancel := (foldl_cancelTask_turn pending
          (w.mark (.round pending))).calm.lasts
        have hround : Lasts w (((pending.foldl cancelTask
            (w.mark (.round pending))).limitTeardownSteps
              pending.length).gatherTasks pending) :=
          (hmark.lasts.trans hcancel).trans (.of_memory rfl)
        simp only [Exec.wp_bind, Exec.wp_update]
        refine (Holds.after hround (runUntilGathered_holds _)).mono ?_
          (fun _ _ h => h) fun _ h => h
        exact fun _ t ht => Holds.after ht (ih t)

end World

end Seedloop
