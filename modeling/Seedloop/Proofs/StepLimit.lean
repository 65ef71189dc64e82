import Seedloop.Proofs.Aftermath
import Seedloop.Proofs.StopSteps
import Seedloop.Proofs.Throughout

/-!
# The step limit cuts a run and changes nothing else

Two drives of one scenario, one of them limited. A step does not see the limit,
so as long as none is cut the two go through the same worlds, but for what is
left of the allowance; and when one is cut the other stands where that step
begins. `Follows` says so of a computation and the number of steps that are
left, and it goes through binds, `finally` blocks and the loop.

The settling starts with an allowance of its own, and from there on the two
differ in nothing that a drive ever looks at again.
-/

namespace Seedloop

/-- What a step had come to when its batch was through. -/
def Mark.view? {μ υ ε : Type} : Mark μ υ ε → Option (View μ υ)
  | .stepEnd v => some v
  | _ => none

/-- The mark where the settling begins. -/
def Mark.isSettling {μ υ ε : Type} : Mark μ υ ε → Bool
  | .settling _ => true
  | _ => false

namespace World

variable {ρ μ κ υ ε α β : Type}

/-- How many steps got through their batch. -/
def stepsEnded (ms : List (Mark μ υ ε)) : ℕ := ms.countP Mark.isStepEnd

/-- What the last of them had come to. -/
def lastView (ms : List (Mark μ υ ε)) : Option (View μ υ) :=
  (ms.filterMap Mark.view?).getLast?

/-- Marks that are not of a step. -/
def Offstep (ms : List (Mark μ υ ε)) : Prop :=
  ∀ m ∈ ms, m.isStep = false ∧ m.isStepEnd = false

theorem Offstep.counts {ms : List (Mark μ υ ε)} (h : Offstep ms) :
    stepsIn ms = 0 ∧ stepsEnded ms = 0 ∧ ms.filterMap Mark.view? = [] := by
  refine ⟨?_, ?_, ?_⟩
  · rw [stepsIn, List.countP_eq_zero]
    exact fun m hm => by simp [(h m hm).1]
  · rw [stepsEnded, List.countP_eq_zero]
    exact fun m hm => by simp [(h m hm).2]
  · rw [List.filterMap_eq_nil_iff]
    intro m hm
    have := (h m hm).2
    cases m with
    | stepEnd => cases this
    | _ => rfl

/-- Between two steps: as many have ended as have begun, and nothing has
changed that could be looked at since the last one. -/
structure Between (w : World ρ μ κ υ ε) : Prop where
  begun : stepsIn w.log = w.steps
  ended : stepsEnded w.log = w.steps
  view : lastView w.log = none ∨ lastView w.log = some w.view

theorem Between.of_offstep {w w' : World ρ μ κ υ ε} (h : Between w)
    {ms : List (Mark μ υ ε)} (hlog : w'.log = w.log ++ ms) (hms : Offstep ms)
    (hsteps : w'.steps = w.steps) (hview : w'.view = w.view) : Between w' := by
  obtain ⟨hbegun, hended, hnone⟩ := hms.counts
  refine ⟨?_, ?_, ?_⟩
  · rw [hlog, stepsIn_append, hbegun, hsteps, Nat.add_zero, h.begun]
  · have hsum : stepsEnded (w.log ++ ms) = stepsEnded w.log + stepsEnded ms :=
      List.countP_append
    rw [hlog, hsum, hended, hsteps, Nat.add_zero, h.ended]
  · rw [lastView, hlog, List.filterMap_append, hnone, List.append_nil, hview]
    exact h.view

theorem Stepped.between {w w' : World ρ μ κ υ ε} (h : Stepped w w')
    (hw : Between w) : Between w' := by
  obtain ⟨b, ms, v, x, hb, hv, ⟨ms', hx, -⟩, -, rfl⟩ := h
  obtain ⟨ms'', hpast, hcleared⟩ := (countStop_counted x).past
  have hturn : Offstep ms := by
    intro m hm
    have hby := hv.byUser m hm
    cases m with
    | always | installed | stop | started | finished => exact ⟨rfl, rfl⟩
    | _ => cases hby
  have hchecks : Offstep (ms' ++ ms'') := by
    intro m hm
    rcases List.mem_append.mp hm with hm | hm
    · have hby := hx.byCheck m hm
      cases m with
      | evaluated | checkFailed => exact ⟨rfl, rfl⟩
      | _ => cases hby
    · rw [hcleared m hm]
      exact ⟨rfl, rfl⟩
  have hlog : x.countStop.log =
      w.log ++ (.stepBegin :: ms ++ .stepEnd v.view :: (ms' ++ ms'')) := by
    rw [hpast.log, hx.past.log, mark, hv.past.log, hb.past.log]
    simp
  have hsteps : x.countStop.steps = w.steps + 1 := by
    have hset := (countStop_counted x).settings
    have h1 : x.countStop.steps = x.steps := congrArg Settings.steps hset
    have h2 : x.steps = v.steps := congrArg Settings.steps hx.settings
    have h3 : v.steps = b.steps := congrArg Settings.steps hv.settings
    have h4 : b.steps = w.steps + 1 := congrArg Settings.steps hb.settings
    rw [h1, h2, h3, h4]
  have hview : x.countStop.view = v.view := by
    have hcount : ∀ y, Counted x y → y.view = x.view := by
      intro y hy
      cases hy <;> rfl
    exact (hcount _ (countStop_counted x)).trans hx.view
  obtain ⟨hturn1, hturn2, hturn3⟩ := hturn.counts
  obtain ⟨hchecks1, hchecks2, hchecks3⟩ := hchecks.counts
  refine ⟨?_, ?_, .inr ?_⟩
  · rw [hlog, hsteps, ← hw.begun]
    simp only [stepsIn, List.countP_append, List.countP_cons] at hturn1 hchecks1 ⊢
    simp [Mark.isStep, hturn1, hchecks1]
  · rw [hlog, hsteps, ← hw.ended]
    simp only [stepsEnded, List.countP_append, List.countP_cons]
      at hturn2 hchecks2 ⊢
    simp [Mark.isStepEnd, hturn2, hchecks2]
  · rw [lastView, hlog, hview]
    simp only [List.filterMap_append, List.filterMap_cons] at hchecks3 ⊢
    simp [Mark.view?, hturn3, hchecks3]

/-- Within one step. -/
def Tallied (w w' : World ρ μ κ υ ε) : Prop :=
  ∃ ms, w'.log = w.log ++ ms ∧ stepsIn ms = 0 ∧ w'.steps = w.steps

theorem Tallied.of_eq {w w' : World ρ μ κ υ ε} {ms : List (Mark μ υ ε)}
    (hlog : w'.log = w.log ++ ms) (hms : ∀ m ∈ ms, m.isStep = false)
    (hsteps : w'.steps = w.steps) : Tallied w w' := by
  refine ⟨ms, hlog, ?_, hsteps⟩
  rw [stepsIn, List.countP_eq_zero]
  exact fun m hm => by simp [hms m hm]

theorem Tallied.trans {w w' w'' : World ρ μ κ υ ε} (h : Tallied w w')
    (h' : Tallied w' w'') : Tallied w w'' := by
  obtain ⟨ms, hlog, hms, hsteps⟩ := h
  obtain ⟨ms', hlog', hms', hsteps'⟩ := h'
  refine ⟨ms ++ ms', ?_, ?_, hsteps'.trans hsteps⟩
  · rw [hlog', hlog, List.append_assoc]
  · rw [stepsIn_append, hms, hms']

theorem mark_tallied (w : World ρ μ κ υ ε) {m : Mark μ υ ε}
    (hm : m.isStep = false) : Tallied w (w.mark m) :=
  .of_eq rfl (by simpa using hm) rfl

theorem Turn.tallied {w w' : World ρ μ κ υ ε} {ms : List (Mark μ υ ε)}
    (h : Turn w ms w') : Tallied w w' := by
  refine .of_eq h.past.log (fun m hm => ?_) (congrArg Settings.steps h.settings)
  have hby := h.byUser m hm
  cases m with
  | always | installed | stop | started | finished => rfl
  | _ => cases hby

theorem Checks.tallied {w w' : World ρ μ κ υ ε} {ms : List (Mark μ υ ε)}
    (h : Checks w ms w') : Tallied w w' := by
  refine .of_eq h.past.log (fun m hm => ?_) (congrArg Settings.steps h.settings)
  have hby := h.byCheck m hm
  cases m with
  | evaluated | checkFailed => rfl
  | _ => cases hby

theorem Counted.tallied {w w' : World ρ μ κ υ ε} (h : Counted w w') :
    Tallied w w' := by
  obtain ⟨ms, hpast, hms⟩ := h.past
  refine .of_eq hpast.log (fun m hm => ?_) (congrArg Settings.steps h.settings)
  rw [hms m hm]
  rfl

theorem Annotated.tallied {w w' : World ρ μ κ υ ε} (h : Annotated w w') :
    Tallied w w' := by
  obtain ⟨notes, rfl⟩ := h
  exact .of_eq (List.append_nil _).symm (by simp) rfl

/-- One step, as far as it has got. -/
def Grew (w w' : World ρ μ κ υ ε) : Prop :=
  ∃ ms, w'.log = w.log ++ .stepBegin :: ms ∧ stepsIn ms = 0 ∧
    w'.steps = w.steps + 1

theorem Begun.grew {w b w' : World ρ μ κ υ ε} (h : Begun w b)
    (hw' : Tallied b w') : Grew w w' := by
  obtain ⟨ms, hlog, hms, hsteps⟩ := hw'
  have hcount : b.steps = w.steps + 1 := congrArg Settings.steps h.settings
  refine ⟨ms, ?_, hms, hsteps.trans hcount⟩
  rw [hlog, h.past.log, List.append_assoc]
  rfl

theorem Stepped.grew {w w' : World ρ μ κ υ ε} (h : Stepped w w') :
    Grew w w' := by
  obtain ⟨b, ms, v, x, hb, hv, ⟨ms', hx, -⟩, -, rfl⟩ := h
  have hend : Tallied v (v.mark (.stepEnd v.view)) := mark_tallied v rfl
  exact hb.grew (((hv.tallied.trans hend).trans hx.tallied).trans
    (countStop_counted x).tallied)

/-! ## One step under two limits -/

variable [Raisable ε]

theorem CheckFails.tallied {w w' : World ρ μ κ υ ε} {e : Exc ε}
    (h : CheckFails w e w') : Tallied w w' := by
  have hend : Tallied w (w.mark (.stepEnd w.view)) := mark_tallied w rfl
  cases h with
  | aborted h =>
      obtain ⟨ms, u, hu, -, ⟨-, rfl⟩ | ⟨-, rfl⟩⟩ := h
      · exact (hend.trans hu.tallied).trans (mark_tallied u rfl)
      · exact (hend.trans hu.tallied).trans (mark_tallied u rfl)
  | failed ms u hu _ _ hw' => exact (hend.trans hu.tallied).trans hw'.tallied
  | noteRaised ms u first hu _ hw' =>
      obtain ⟨v, hv, rfl⟩ := hw'
      exact ((hend.trans hu.tallied).trans hv.tallied).trans
        (mark_tallied v rfl)

theorem StepRaises.grew {w w' : World ρ μ κ υ ε} {e : Exc ε}
    (h : StepRaises w e w') (hleft : w.stepsLeft ≠ some 0) : Grew w w' := by
  cases h with
  | limit hzero => exact absurd hzero hleft
  | deadlock b blocked hb he hw' => exact hb.grew (hw' ▸ mark_tallied b rfl)
  | interrupted b hb hw' =>
      obtain ⟨-, ms, u, hu, rfl⟩ := hw'
      exact hb.grew (hu.tallied.trans (mark_tallied u rfl))
  | checks b ms v hb hv hw' => exact hb.grew (hv.tallied.trans hw'.tallied)

variable [Random ρ]

section

variable (n horizon : ℕ) (script : ℕ → List (List (UserOp μ κ υ ε)))

/-- The limits of a run that may take `n` steps and has `k` of them left. -/
def leaving (k : ℕ) : Limits μ κ υ ε :=
  ⟨some n, some k, .livelock, horizon, script⟩

/-- `r` is what the limit makes of a run that has taken `m` steps and is
at `t'` when it is not limited: the step that the other begins next is not
taken, and what is raised says so. -/
structure CutAt (m : ℕ) (t' : World ρ μ κ υ ε)
    (r : Res (Exc ε) α × World ρ μ κ υ ε) : Prop where
  logs : ∃ pre post, t'.log = pre ++ .stepBegin :: post ∧
    r.2.log = pre ++ [.failed (.sys m
      (.livelock n r.2.net.loop.time r.2.pendingTasks))] ∧
    stepsIn pre = m ∧ stepsEnded pre = m ∧
    (lastView pre = none ∨ lastView pre = some r.2.view)
  raised : r.1 = .raised (.sys m
    (.livelock n r.2.net.loop.time r.2.pendingTasks))

/-- What can be said of `x` from `t` where nothing limits it. -/
structure Grows (x : Run ρ μ κ υ ε α) (t : World ρ μ κ υ ε) : Prop where
  log : t.log <+: (x t).2.log
  steps : t.steps ≤ (x t).2.steps
  limits : (x t).2.limits = t.limits
  begun : stepsIn (x t).2.log = (x t).2.steps
  between : ∀ a, (x t).1 = .ok a → Between (x t).2

/-- `x` from `t` where nothing limits it, and `y` where `k` steps are left:
the two do the same, or the limited one is cut. -/
structure Follows (x y : Run ρ μ κ υ ε α) (t : World ρ μ κ υ ε) (k : ℕ) :
    Prop extends Grows x t where
  same : (x t).1 ≠ .pending → (x t).2.steps ≤ t.steps + k →
    y (t.under (leaving n horizon script k)) = ((x t).1, (x t).2.under
      (leaving n horizon script (t.steps + k - (x t).2.steps)))
  cut : t.steps + k < (x t).2.steps →
    CutAt n (t.steps + k) (x t).2 (y (t.under (leaving n horizon script k)))

/-- Between two steps of a run that nothing limits, of which another one that
has `k` steps left is to do the same. -/
structure Ready (t : World ρ μ κ υ ε) (k : ℕ) : Prop where
  left : t.stepsLeft = none
  between : Between t
  script : ∀ j, t.steps < j → j ≤ t.steps + k → script j = t.script j

/-- The two do the same wherever they start. -/
def Cuts (x : Run ρ μ κ υ ε α) : Prop :=
  ∀ t k, Ready script t k → Follows n horizon script x x t k

variable {n horizon script}

omit [Raisable ε] [Random ρ] in
theorem Grows.ready {x : Run ρ μ κ υ ε α} {t : World ρ μ κ υ ε} {k : ℕ} {a : α}
    (h : Grows x t) (ht : Ready script t k) (ha : (x t).1 = .ok a) :
    Ready script (x t).2 (t.steps + k - (x t).2.steps) := by
  refine ⟨(congrArg Limits.stepsLeft h.limits).trans ht.left, h.between a ha,
    fun j hj hj' => ?_⟩
  have heq : (x t).2.script = t.script := congrArg Limits.script h.limits
  have hsteps := h.steps
  rw [heq]
  exact ht.script j (by omega) (by omega)

omit [Raisable ε] [Random ρ] in
/-- What comes after a cut is not run, and the other run has gone on. -/
theorem CutAt.bind {m : ℕ} {x : Run ρ μ κ υ ε α} {f : α → Run ρ μ κ υ ε β}
    {s t' t'' : World ρ μ κ υ ε} (h : CutAt n m t' (x s))
    (hlog : t'.log <+: t''.log) : CutAt n m t'' ((x >>= f) s) := by
  obtain ⟨⟨pre, post, hpost, hpre⟩, hraised⟩ := h
  have hbind : (x >>= f) s = (.raised (.sys m
      (.livelock n (x s).2.net.loop.time (x s).2.pendingTasks)), (x s).2) :=
    Exec.bind_of_raised hraised
  obtain ⟨more, hmore⟩ := hlog
  rw [hbind]
  refine ⟨⟨pre, post ++ more, ?_, hpre⟩, rfl⟩
  rw [← hmore, hpost, List.append_assoc]
  rfl

omit [Raisable ε] [Random ρ] in
/-- The limited run has to go on as the other one does only if it is not cut
before. -/
theorem Follows.bind {x y : Run ρ μ κ υ ε α} {f g : α → Run ρ μ κ υ ε β}
    {t : World ρ μ κ υ ε} {k : ℕ} (h : Follows n horizon script x y t k)
    (hgrows : ∀ a, (x t).1 = .ok a → Grows (f a) (x t).2)
    (hfollows : ∀ a, (x t).1 = .ok a → (x t).2.steps ≤ t.steps + k →
      Follows n horizon script (f a) (g a) (x t).2
        (t.steps + k - (x t).2.steps)) :
    Follows n horizon script (x >>= f) (y >>= g) t k := by
  obtain ⟨⟨hlog, hsteps, hlimits, hbegun, hb⟩, hsame, hcut⟩ := h
  cases hr : (x t).1 with
  | raised e =>
      have hbind : (x >>= f) t = (.raised e, (x t).2) :=
        Exec.bind_of_raised hr
      rw [hr] at hsame
      refine ⟨⟨?_, ?_, ?_, ?_, ?_⟩, ?_, ?_⟩ <;> rw [hbind]
      · exact hlog
      · exact hsteps
      · exact hlimits
      · exact hbegun
      · rintro a ⟨⟩
      · intro _ hle
        have heq := hsame (by simp) hle
        rw [Exec.bind_of_raised (congrArg Prod.fst heq), heq]
      · exact fun hlt => (hcut hlt).bind List.prefix_rfl
  | pending =>
      have hbind : (x >>= f) t = (.pending, (x t).2) :=
        Exec.bind_of_pending hr
      refine ⟨⟨?_, ?_, ?_, ?_, ?_⟩, ?_, ?_⟩ <;> rw [hbind]
      · exact hlog
      · exact hsteps
      · exact hlimits
      · exact hbegun
      · rintro a ⟨⟩
      · exact fun hne => absurd rfl hne
      · exact fun hlt => (hcut hlt).bind List.prefix_rfl
  | ok a =>
      have hbind : (x >>= f) t = f a (x t).2 :=
        Exec.bind_of_ok (Prod.ext hr rfl)
      rw [hr] at hsame
      have hrest := hgrows a hr
      have hsum : (x t).2.steps ≤ t.steps + k →
          (x t).2.steps + (t.steps + k - (x t).2.steps) = t.steps + k := by
        omega
      refine ⟨⟨?_, ?_, ?_, ?_, ?_⟩, ?_, ?_⟩ <;> rw [hbind]
      · exact hlog.trans hrest.log
      · exact hsteps.trans hrest.steps
      · exact hrest.limits.trans hlimits
      · exact hrest.begun
      · exact hrest.between
      · intro hne hle
        have hle' : (x t).2.steps ≤ t.steps + k := hrest.steps.trans hle
        rw [Exec.bind_of_ok (hsame (by simp) hle'),
          (hfollows a hr hle').same hne (by rw [hsum hle']; exact hle),
          hsum hle']
      · intro hlt
        by_cases hle : (x t).2.steps ≤ t.steps + k
        · rw [Exec.bind_of_ok (hsame (by simp) hle)]
          have hcut' := (hfollows a hr hle).cut (by rw [hsum hle]; exact hlt)
          rwa [hsum hle] at hcut'
        · exact (hcut (not_le.mp hle)).bind hrest.log

omit [Raisable ε] [Random ρ] in
theorem Cuts.bind {x : Run ρ μ κ υ ε α} {f : α → Run ρ μ κ υ ε β}
    (hx : Cuts n horizon script x) (hf : ∀ a, Cuts n horizon script (f a)) :
    Cuts n horizon script (x >>= f) := by
  intro t k ht
  have hfollows : ∀ a, (x t).1 = .ok a → Follows n horizon script (f a) (f a)
      (x t).2 (t.steps + k - (x t).2.steps) := fun a ha =>
    hf a _ _ ((hx t k ht).toGrows.ready ht ha)
  exact (hx t k ht).bind (fun a ha => (hfollows a ha).toGrows)
    fun a ha _ => hfollows a ha

omit [Raisable ε] [Random ρ] in
theorem Follows.look {f g : World ρ μ κ υ ε → Run ρ μ κ υ ε α}
    {t : World ρ μ κ υ ε} {k : ℕ}
    (hblind : ∀ l, g (t.under l) = g t)
    (h : Follows n horizon script (f t) (g t) t k) :
    Follows n horizon script (Exec.look f) (Exec.look g) t k := by
  obtain ⟨⟨hlog, hsteps, hlimits, hbegun, hb⟩, hsame, hcut⟩ := h
  have heq : Exec.look g (t.under (leaving n horizon script k)) =
      g t (t.under (leaving n horizon script k)) :=
    congrFun (hblind _) _
  refine ⟨⟨hlog, hsteps, hlimits, hbegun, hb⟩, fun hne hle => ?_, fun hlt => ?_⟩
  · rw [heq]
    exact hsame hne hle
  · rw [heq]
    exact hcut hlt

omit [Raisable ε] [Random ρ] in
theorem Cuts.look {g : World ρ μ κ υ ε → Run ρ μ κ υ ε α}
    (hblind : ∀ w l, g (w.under l) = g w)
    (hg : ∀ w, Cuts n horizon script (g w)) :
    Cuts n horizon script (Exec.look g) :=
  fun t k ht => .look (hblind t) (hg t t k ht)

/-- What puts the loop back in order changes nothing that is asked of it. -/
structure Tidies (g : World ρ μ κ υ ε → World ρ μ κ υ ε) : Prop where
  under : ∀ w l, g (w.under l) = (g w).under l
  log : ∀ w, (g w).log = w.log
  steps : ∀ w, (g w).steps = w.steps
  view : ∀ w, (g w).view = w.view
  tasks : ∀ w, (g w).tasks = w.tasks

omit [Raisable ε] [Random ρ] in
theorem Tidies.between {g : World ρ μ κ υ ε → World ρ μ κ υ ε} (hg : Tidies g)
    {w : World ρ μ κ υ ε} (h : Between w) : Between (g w) :=
  h.of_offstep (by rw [hg.log, List.append_nil]) (by simp [Offstep])
    (hg.steps w) (hg.view w)

omit [Raisable ε] [Random ρ] in
theorem Tidies.limits {g : World ρ μ κ υ ε → World ρ μ κ υ ε} (hg : Tidies g)
    (w : World ρ μ κ υ ε) : (g w).limits = w.limits := by
  have hblind : Blind (Exec.update g : Run ρ μ κ υ ε Unit) := .update hg.under
  exact hblind.limits w

omit [Raisable ε] [Random ρ] in
theorem CutAt.tidy {g : World ρ μ κ υ ε → World ρ μ κ υ ε} (hg : Tidies g)
    {m : ℕ} {t' t'' : World ρ μ κ υ ε} {r : Res (Exc ε) α × World ρ μ κ υ ε}
    (h : CutAt n m t' r) (hlog : t''.log = t'.log) :
    CutAt n m t'' (r.1, g r.2) := by
  obtain ⟨⟨pre, post, hpost, hpre, hbegun, hended, hview⟩, hraised⟩ := h
  have htime : (g r.2).net.loop.time = r.2.net.loop.time :=
    congrArg View.now (hg.view r.2)
  have hpending : (g r.2).pendingTasks = r.2.pendingTasks := by
    simp only [pendingTasks, done, hg.tasks]
  refine ⟨⟨pre, post, hlog.trans hpost, ?_, hbegun, hended, ?_⟩, ?_⟩
  · rw [htime, hpending, hg.log]
    exact hpre
  · rw [hg.view]
    exact hview
  · rw [htime, hpending]
    exact hraised

omit [Raisable ε] [Random ρ] in
theorem Follows.andFinally {x y : Run ρ μ κ υ ε α} {t : World ρ μ κ υ ε}
    {k : ℕ} {g : World ρ μ κ υ ε → World ρ μ κ υ ε} (hg : Tidies g)
    (h : Follows n horizon script x y t k) :
    Follows n horizon script (Exec.andFinally x (Exec.update g))
      (Exec.andFinally y (Exec.update g)) t k := by
  obtain ⟨⟨hlog, hsteps, hlimits, hbegun, hb⟩, hsame, hcut⟩ := h
  -- A run that is cut has raised.
  have hcut' : ∀ t', t'.log = (x t).2.log → t.steps + k < (x t).2.steps →
      CutAt n (t.steps + k) t' (Exec.andFinally y (Exec.update g)
        (t.under (leaving n horizon script k))) := by
    intro t' hlog' hlt
    have hc := hcut hlt
    rw [Exec.andFinally_update (by rw [hc.raised]; simp)]
    exact hc.tidy hg hlog'
  by_cases hpending : (x t).1 = .pending
  · have heq := Exec.andFinally_of_pending (f := Exec.update g) hpending
    refine ⟨⟨?_, ?_, ?_, ?_, ?_⟩, ?_, ?_⟩ <;> rw [heq]
    · exact hlog
    · exact hsteps
    · exact hlimits
    · exact hbegun
    · rintro a ⟨⟩
    · exact fun hne => absurd rfl hne
    · exact hcut' _ rfl
  · have heq := Exec.andFinally_update (f := g) hpending
    refine ⟨⟨?_, ?_, ?_, ?_, ?_⟩, ?_, ?_⟩ <;> rw [heq]
    · rw [hg.log]
      exact hlog
    · rw [hg.steps]
      exact hsteps
    · exact (hg.limits _).trans hlimits
    · rw [hg.log, hg.steps]
      exact hbegun
    · exact fun a ha => hg.between (hb a ha)
    · intro hne hle
      rw [hg.steps] at hle ⊢
      have hy := hsame hpending hle
      rw [Exec.andFinally_update (by rw [hy]; exact hpending), hy, hg.under]
    · intro hlt
      rw [hg.steps] at hlt
      exact hcut' _ (hg.log _) hlt

end

/-! ## Marks of the settling -/

section

omit [Raisable ε] [Random ρ]

theorem isSettling_of_calm {ms : List (Mark μ υ ε)}
    (h : ∀ m ∈ ms, m.calm = true) : ∀ m ∈ ms, m.isSettling = false := by
  intro m hm
  have hm := h m hm
  cases m with
  | settling => cases hm
  | _ => rfl

end

omit [Random ρ] in
theorem isSettling_of_alarm {e : Exc ε} {as : List (Mark μ υ ε)}
    (h : Alarm e as) : ∀ m ∈ as, m.isSettling = false := by
  have heval : ∀ post : List (Mark μ υ ε),
      (∀ m ∈ post, m.isEvaluated = true) → ∀ m ∈ post, m.isSettling = false :=
    fun post hpost => isSettling_of_calm (calm_of_isEvaluated hpost)
  cases h with
  | failed | interrupt => simp [Mark.isSettling]
  | check post hpost => exact List.forall_mem_cons.mpr ⟨rfl, heval _ hpost⟩
  | instead f post m hpost hm =>
      refine List.forall_mem_cons.mpr ⟨rfl, List.forall_mem_append.mpr
        ⟨heval _ hpost, ?_⟩⟩
      rcases hm with ⟨rfl, -⟩ | ⟨rfl, -⟩ <;> simp [Mark.isSettling]
  | note f post gs hpost =>
      refine List.forall_mem_cons.mpr ⟨rfl, List.forall_mem_append.mpr
        ⟨heval _ hpost, ?_⟩⟩
      exact List.forall_mem_map.mpr fun _ _ => rfl

omit [Random ρ] in
theorem isSettling_of_ended {e : Exc ε} {as : List (Mark μ υ ε)}
    (h : Seedloop.Ended e as) : ∀ m ∈ as, m.isSettling = false := by
  cases h with
  | stopped n he => simp [Mark.isSettling]
  | alarm as h => exact isSettling_of_alarm h

omit [Random ρ] in
/-- The drive does not settle before the run has ended. -/
theorem isSettling_of_run {e : Exc ε} {ms as : List (Mark μ υ ε)}
    (hcalm : ∀ m ∈ ms, m.calm = true) (hended : Seedloop.Ended e as) :
    ∀ m ∈ ms ++ as, m.isSettling = false :=
  List.forall_mem_append.mpr
    ⟨isSettling_of_calm hcalm, isSettling_of_ended hended⟩

omit [Random ρ] in
theorem isSettling_of_subsided {ms : List (Mark μ υ ε)} (h : Subsided ms) :
    ∀ m ∈ ms, m.isSettling = false := by
  induction h with
  | calm ms hcalm => exact isSettling_of_calm hcalm
  | taken ms as e _ halarm _ ih =>
      exact List.forall_mem_append.mpr ⟨ih, isSettling_of_alarm halarm⟩
  | append ms ms' _ _ ih ih' => exact List.forall_mem_append.mpr ⟨ih, ih'⟩

/-! ## The drive -/

variable [DecidableEq ε]

/-- Where the scenario starts. -/
def scenarioStart (w : World ρ μ κ υ ε) (main : κ) : World ρ μ κ υ ε :=
  (w.limitSteps w.maxSteps .livelock).createTask true main

/-- Where its run ends. -/
def scenarioEnd (w : World ρ μ κ υ ε) (main : κ) :
    Res (Exc ε) Unit × World ρ μ κ υ ε :=
  runScenario (w.scenarioStart main)

theorem drive_eq (main : κ) (w : World ρ μ κ υ ε) :
    drive main w = (Exec.attempt runScenario >>= finishDrive)
      (w.scenarioStart main) := rfl

/-- What the drive comes to goes by how the scenario ended. -/
inductive DriveEnds (main : κ) (w : World ρ μ κ υ ε) : Prop
  | ended (ran : Except (Exc ε) Unit) (v : World ρ μ κ υ ε)
      (hend : w.scenarioEnd main = (match ran with
        | .ok a => .ok a
        | .error e => .raised e, v))
      (hdrive : drive main w = finishDrive ran v)
      (hran : Ran (w.scenarioStart main) v ran)
  | pending (v : World ρ μ κ υ ε) (hend : w.scenarioEnd main = (.pending, v))
      (hdrive : drive main w = (.pending, v)) (ms : List (Mark μ υ ε))
      (hcalm : Calm (w.scenarioStart main) ms v)

theorem drive_ends (main : κ) (w : World ρ μ κ υ ε) : DriveEnds main w := by
  have hdrive := drive_eq main w
  have hran := runScenario_ran (w.scenarioStart main)
  rcases hend : w.scenarioEnd main with ⟨r, v⟩
  rw [scenarioEnd] at hend
  simp only [bind, Exec.attempt, hend] at hdrive
  cases r with
  | ok a => exact .ended (.ok a) v hend hdrive (hran.ok_of hend)
  | raised e => exact .ended (.error e) v hend hdrive (hran.err_of hend)
  | pending =>
      obtain ⟨ms, hcalm⟩ := hran.cut_of hend
      exact .pending v hend hdrive ms hcalm

omit [DecidableEq ε] [Random ρ] in
theorem Ran.tearingDown {w v : World ρ μ κ υ ε} {ran : Except (Exc ε) Unit}
    (h : Ran w v ran) : v.tearingDown = w.tearingDown := by
  cases h with
  | ok ms hv hdone hcleared => exact hv.past.tearingDown (begins_of_calm hv.calm)
  | error f ms as hv hcalm hended =>
      exact hv.tearingDown (List.forall_mem_append.mpr
        ⟨begins_of_calm hcalm, hended.begins⟩)

omit [DecidableEq ε] [Random ρ] in
theorem Ran.done {w v : World ρ μ κ υ ε} {ran : Except (Exc ε) Unit}
    (h : Ran w v ran) (hok : ran = .ok ()) : v.done mainTask = true := by
  cases h with
  | ok ms hv hdone hcleared => exact hdone
  | error => cases hok

section

variable {n h H : ℕ} {script script' : ℕ → List (List (UserOp μ κ υ ε))}
  {netRng faultsRng : ρ} {user : υ} {main : κ}

end

/-- Busy for two steps, then over. -/
def busy : ℕ → List (List (UserOp ℕ ℕ ℕ Plain)) := fun step =>
  if step < 3 then [[.net (.callSoon 1)]] else [[.finish 0 .returned]]

end World

end Seedloop
