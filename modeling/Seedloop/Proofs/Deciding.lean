import Seedloop.Proofs.RunUntil

/-!
# `run_until` decides at its first decisive evaluation

A predicate is evaluated at the call and at the end of every step after it, and
an evaluation is decisive when the predicate holds, when it raises, or when it
does not hold and the deadline has come. The first decisive one is what the call
comes to.

That the deadline is met exactly is the work of a timer that does nothing. While
the call waits between two steps the clock is before the deadline and the timer
is in the heap, live, for no cancellation can name it; so no step finds nothing
to wait for, and none jumps past the deadline, since it would jump past the
timer. A step that begins before the deadline has it behind it or right at its
end, and there the check looks again.
-/

namespace Seedloop

/-- The future of a call was cancelled. -/
def Decision.isCancelled {ε : Type} : Decision ε → Bool
  | cancelled => true
  | held | raised _ => false

namespace Net

variable {ρ μ υ : Type}

/-- The beginning of a step names nothing. -/
theorem Names.beginStep (s : Net ρ μ υ) (stopStep : Bool) :
    Names s { s with loop := (s.loop.beginStep stopStep).1 } := by
  obtain ⟨hc, -, hnext, -⟩ := Loop.beginStep_spec
    (l := s.loop) (b := stopStep) rfl
  exact .of_sub (s.loop.pending_beginStep stopStep).1.subset hnext
    (fun h => .inl (hc ▸ h)) rfl fun h => h

/-- No timer goes between two beginnings of steps. -/
theorem Quiet.timer_mem {s t : Net ρ μ υ} (h : Quiet s t)
    {x : Timer (Callback μ υ)} (hx : x ∈ s.loop.timers.entries) :
    x ∈ t.loop.timers.entries := by
  obtain ⟨⟨ms, hms, hrun⟩, -⟩ := h
  generalize s.loop = l at hrun hx
  induction ms generalizing l with
  | nil =>
      rw [Machine.run_nil, Option.some.injEq] at hrun
      exact hrun ▸ hx
  | cons m ms ih =>
      obtain ⟨l', hl', hrun⟩ := Machine.run_cons_eq_some.mp hrun
      have hkept := (Loop.step_quiet (hms m List.mem_cons_self) hl').2.2.2.2.1
      exact ih (fun m hm => hms m (List.mem_cons_of_mem _ hm)) l' hrun
        (hkept x hx)

/-- The timer that user code has no hand on. -/
theorem not_token_callAt {s : Net ρ μ υ} {when : When} {k : υ}
    (hs : ∀ {i}, Token s i → i < s.loop.nextHandle) :
    ¬ Token { s with loop := s.loop.callAt when (.user k) }
      s.loop.nextHandle := by
  rintro (h | h | h | ⟨h, hh, hfut⟩)
  · exact absurd (hs (.inl h)) (lt_irrefl _)
  · exact absurd (hs (.inr (.inl h))) (lt_irrefl _)
  · exact absurd (hs (.inr (.inr (.inl h)))) (lt_irrefl _)
  · have hpend := s.loop.pending_callAt when (.user k)
    rcases List.mem_cons.mp (hpend.subset hh) with rfl | hmem
    · cases hfut
    · exact absurd (hs (.inr (.inr (.inr ⟨h, hmem, hfut⟩)))) (lt_irrefl _)

end Net

/-- An evaluation that settles what the call comes to: any but one that does
not hold before the deadline. -/
def RunUntil.Decisive {μ κ υ ε : Type} (r : RunUntil μ κ υ ε) (v : View μ υ) :
    Prop :=
  r.predicate v = .fails → ∃ t, r.deadlineAt = some t ∧ t ≤ v.now

/-- The first decisive evaluation, and the step it is made in. -/
def RunUntil.First {μ κ υ ε : Type} (r : RunUntil μ κ υ ε)
    (evals : List (ℕ × View μ υ)) (n : ℕ) (v : View μ υ) : Prop :=
  ∃ before after, evals = before ++ (n, v) :: after ∧ r.Decisive v ∧
    ∀ x ∈ before, ¬ r.Decisive x.2

/-- What the call has come to after `evals`. -/
structure RunUntil.Decides {μ κ υ ε : Type} (r : RunUntil μ κ υ ε)
    (called : ℚ) (evals : List (ℕ × View μ υ)) (δ : Option (Decision ε)) :
    Prop where
  held : δ = some .held ↔ ∃ n v, r.First evals n v ∧ r.predicate v = .holds
  raised : ∀ e, δ = some (.raised e) ↔ ∃ n v, r.First evals n v ∧
    (r.predicate v = .raises e ∨ r.predicate v = .fails ∧
      ∃ d, r.deadline = some d ∧ e = .sys n (.timeout d))
  undecided : δ = none ↔ ∀ n v, ¬ r.First evals n v
  onTime : ∀ t n v, r.deadlineAt = some t → called ≤ t → r.First evals n v →
    r.predicate v = .fails → v.now = t

namespace World

variable {ρ μ κ υ ε : Type}

/-! ## The first decisive evaluation -/

section

variable {r : RunUntil μ κ υ ε} {evals : List (ℕ × View μ υ)}

/-- A deadline and the time it comes go together. -/
def Timed (r : RunUntil μ κ υ ε) : Prop :=
  r.deadline.isSome = r.deadlineAt.isSome

theorem newCall_timed (w : World ρ μ κ υ ε) (p : Predicate μ υ ε)
    (deadline : Option (Num × ℚ)) (k : κ) :
    Timed (w.newCall p deadline k) := by
  cases deadline <;> rfl

theorem verdict_eq_none (hr : Timed r) {n : ℕ} {v : View μ υ} :
    r.verdict n v = none ↔ ¬ r.Decisive v := by
  simp only [RunUntil.verdict, RunUntil.Decisive]
  cases hp : r.predicate v with
  | holds => simp
  | raises e => simp
  | fails =>
      cases hd : r.deadline with
      | none =>
          have : r.deadlineAt = none := by simpa [Timed, hd] using hr
          simp [this]
      | some d =>
          obtain ⟨t, ht⟩ : ∃ t, r.deadlineAt = some t := by
            have : r.deadlineAt.isSome = true := by simpa [Timed, hd] using hr
            exact Option.isSome_iff_exists.mp this
          simp [ht]

theorem verdict_eq_held {n : ℕ} {v : View μ υ} :
    r.verdict n v = some .held ↔ r.predicate v = .holds := by
  simp only [RunUntil.verdict]
  split
  · next hp => simp [hp]
  · next hp => simp [hp]
  · next hp =>
    split
    · split <;> simp [hp]
    · simp [hp]

theorem verdict_eq_raised {n : ℕ} {v : View μ υ} (hv : r.Decisive v)
    {e : Exc ε} :
    r.verdict n v = some (.raised e) ↔ r.predicate v = .raises e ∨
      r.predicate v = .fails ∧
        ∃ d, r.deadline = some d ∧ e = .sys n (.timeout d) := by
  simp only [RunUntil.verdict]
  split
  · next hp => simp [hp]
  · next hp => simp [hp]
  · next hp =>
    obtain ⟨t, ht, hle⟩ := hv hp
    simp only [hp, reduceCtorEq, false_or, true_and, ht]
    cases r.deadline with
    | none => simp
    | some d => simp [hle, eq_comm]

theorem first_decisive {n : ℕ} {v : View μ υ} (h : r.First evals n v) :
    r.Decisive v := by
  obtain ⟨before, after, -, hv, -⟩ := h
  exact hv

/-- One more evaluation: the first decisive one is among those before, or it
is this one. -/
theorem first_of_append {x : ℕ × View μ υ} {n : ℕ} {v : View μ υ}
    (h : r.First (evals ++ [x]) n v) :
    r.First evals n v ∨ (∀ y ∈ evals, ¬ r.Decisive y.2) ∧ x = (n, v) := by
  obtain ⟨before, after, heq, hv, hbefore⟩ := h
  rcases List.eq_nil_or_concat after with rfl | ⟨after, y, rfl⟩
  · obtain ⟨rfl, hx⟩ := List.append_inj' heq rfl
    exact .inr ⟨hbefore, List.head_eq_of_cons_eq hx⟩
  · rw [List.concat_eq_append, ← List.cons_append, ← List.append_assoc] at heq
    obtain ⟨hevals, -⟩ := List.append_inj' heq rfl
    exact .inl ⟨before, after, hevals, hv, hbefore⟩

theorem first_cons {x : ℕ × View μ υ} (hx : ¬ r.Decisive x.2) {n : ℕ}
    {v : View μ υ} (h : r.First (x :: evals) n v) : r.First evals n v := by
  obtain ⟨before, after, heq, hv, hbefore⟩ := h
  cases before with
  | nil =>
      cases heq
      exact absurd hv hx
  | cons y before =>
      cases heq
      exact ⟨before, after, rfl, hv,
        fun z hz => hbefore z (List.mem_cons_of_mem _ hz)⟩

/-- What the checks have decided, and that the clock was on time. -/
theorem decides_of_verdicts (hr : Timed r) {called : ℚ}
    {δ : Option (Decision ε)}
    (hδ : δ = evals.findSome? fun x => r.verdict x.1 x.2)
    (htime : ∀ t n v, r.deadlineAt = some t → called ≤ t →
      r.First evals n v → r.predicate v = .fails → v.now = t) :
    r.Decides called evals δ := by
  have hsome : ∀ d, δ = some d ↔
      ∃ n v, r.First evals n v ∧ r.verdict n v = some d := by
    intro d
    rw [hδ, List.findSome?_eq_some_iff]
    constructor
    · rintro ⟨before, x, after, heq, hx, hbefore⟩
      refine ⟨x.1, x.2, ⟨before, after, heq, ?_, ?_⟩, hx⟩
      · rw [← not_not (a := r.Decisive x.2), ← verdict_eq_none hr (n := x.1), hx]
        simp
      · exact fun y hy => (verdict_eq_none hr).mp (hbefore y hy)
    · rintro ⟨n, v, ⟨before, after, heq, -, hbefore⟩, hv⟩
      exact ⟨before, (n, v), after, heq, hv,
        fun y hy => (verdict_eq_none hr).mpr (hbefore y hy)⟩
  refine ⟨?_, ?_, ?_, htime⟩
  · simp only [hsome, verdict_eq_held]
  · intro e
    rw [hsome]
    refine exists_congr fun n => exists_congr fun v => and_congr_right fun h => ?_
    exact verdict_eq_raised (first_decisive h)
  · rw [Option.eq_none_iff_forall_ne_some]
    constructor
    · intro hnone n v hfirst
      cases hv : r.verdict n v with
      | none => exact (verdict_eq_none hr).mp hv (first_decisive hfirst)
      | some d => exact hnone d ((hsome d).mpr ⟨n, v, hfirst, hv⟩)
    · intro hnone d hd
      obtain ⟨n, v, hfirst, -⟩ := (hsome d).mp hd
      exact hnone n v hfirst

end

/-! ## Numbers of handles -/

/-- What a cancellation can name has been numbered, and so has the timer of the
call. -/
structure Numbered (w : World ρ μ κ υ ε) : Prop where
  token_lt : ∀ {i}, Net.Token w.net i → i < w.net.loop.nextHandle
  timer_lt : ∀ {r t}, w.runUntil = some r → r.timer = some t →
    t < w.net.loop.nextHandle

theorem init_numbered (netRng faultsRng : ρ) (user : υ) (maxSteps : Option ℕ)
    (script : ℕ → List (List (UserOp μ κ υ ε))) (horizon : ℕ) :
    Numbered (init netRng faultsRng user maxSteps script horizon) where
  token_lt h := by
    simp [Net.Token, init, Net.init, Loop.init, Loop.pending] at h
  timer_lt h := by cases h

theorem Numbered.of_names {w w' : World ρ μ κ υ ε} (h : Numbered w)
    (hnames : Net.Names w.net w'.net)
    (hcall : ∀ r' t, w'.runUntil = some r' → r'.timer = some t →
      t < w'.net.loop.nextHandle ∨
        ∃ r, w.runUntil = some r ∧ r.timer = some t) : Numbered w' where
  token_lt hi := by
    rcases hnames.token hi with hi | hi
    · exact (h.token_lt hi).trans_le hnames.nextHandle
    · exact hi.2
  timer_lt hr' ht := by
    rcases hcall _ _ hr' ht with hlt | ⟨r, hr, ht⟩
    · exact hlt
    · exact (h.timer_lt hr ht).trans_le hnames.nextHandle

theorem Serves.timer {P : Decision ε → Prop} {w w' : World ρ μ κ υ ε}
    (h : Serves P w w') {r' : RunUntil μ κ υ ε} (hr' : w'.runUntil = some r') :
    ∃ r, w.runUntil = some r ∧ r.timer = r'.timer := by
  rcases h.runUntil with heq | ⟨r, d, hr, -, -, heq⟩
  · exact ⟨r', heq ▸ hr', rfl⟩
  · rw [heq, Option.some.injEq] at hr'
    exact ⟨r, hr, hr' ▸ rfl⟩

theorem Starts.names {w w' : World ρ μ κ υ ε} (h : Starts w w') :
    Net.Names w.net w'.net := by
  rcases h.net with hnet | hnet
  · rw [hnet]
    exact .refl _
  · rw [hnet]
    exact .beginStep _ _

theorem Numbered.endRunUntil {w : World ρ μ κ υ ε} (h : Numbered w) :
    Numbered w.endRunUntil := by
  cases hr : w.runUntil with
  | none =>
      have : w.endRunUntil = w := by simp only [World.endRunUntil, hr]
      rwa [this]
  | some r =>
      simp only [World.endRunUntil, hr]
      split
      · exact ⟨h.token_lt, by simp⟩
      · next t ht =>
        refine ⟨?_, by simp⟩
        rintro i (hi | hi)
        · rcases Finset.mem_insert.mp hi with rfl | hi
          · exact h.timer_lt hr ht
          · exact h.token_lt (.inl hi)
        · exact h.token_lt (.inr hi)

theorem Numbered.openCall {w : World ρ μ κ υ ε} (h : Numbered w)
    (p : Predicate μ υ ε) (deadline : Option (Num × ℚ)) (k : κ) :
    Numbered (w.openCall p deadline k) := by
  cases deadline with
  | none =>
      refine h.of_names (.refl _) fun r' t hr' ht => ?_
      cases hr'
      cases ht
  | some d =>
      refine h.of_names (.callAt w.net _ _ (by rintro i ⟨⟩)) fun r' t hr' ht => ?_
      cases hr'
      cases ht
      exact .inl (Nat.lt_succ_self _)

variable [Raisable ε]

theorem Moves.numbered [Random ρ] {p q : Point ρ μ κ υ ε} {m : Move μ κ υ ε}
    (hp : Numbered p.world) (h : Moves p m q) : Numbered q.world := by
  rcases h.cases with h | h | ⟨-, h⟩ | ⟨o, -, ho, h⟩
  · refine hp.of_names h.net.names fun r' t hr' ht => ?_
    obtain ⟨r, hr, heq⟩ := h.timer hr'
    exact .inr ⟨r, hr, heq.trans ht⟩
  · refine hp.of_names h.names fun r' t hr' ht => .inr ⟨r', ?_, ht⟩
    exact h.runUntil ▸ hr'
  · rw [h]
    exact hp.of_names (.refl _) fun r' t hr' ht => .inr ⟨r', hr', ht⟩
  · rw [h]
    cases o with
    | endRunUntil => exact hp.endRunUntil
    | runUntil pred d k =>
        rcases callRunUntil_cases p.world pred d k with
          ⟨e, -, hw⟩ | ⟨deadline, -, ⟨v, -, hw⟩ | ⟨-, hw⟩⟩
        · rw [hw]
          exact hp
        · rw [hw]
          exact (hp.openCall _ _ _).endRunUntil
        · rw [hw]
          have hopen := hp.openCall pred deadline k
          refine hopen.of_names (.refl _) fun r' t hr' ht => ?_
          cases hr'
          exact .inr ⟨_, rfl, ht⟩
    | _ => cases ho

/-! ## What the checks of a step make of the call -/

section

omit [Raisable ε]

/-- The call is resolved as `δ` says, its task is woken if that is new, and what
a check looks at is as it was. -/
structure Seen (r : RunUntil μ κ υ ε) (δ : Option (Decision ε))
    (w u : World ρ μ κ υ ε) : Prop where
  call : u.runUntil = some { r with done := δ }
  woken : r.done = none → δ ≠ none → r.awaited = true →
    ∃ h ∈ u.net.loop.ready, h.callback = .user (.user r.k)
  view : u.view = w.view
  steps : u.steps = w.steps

/-- The call and what it looks at stay as they are. -/
def Unseen (u u' : World ρ μ κ υ ε) : Prop :=
  u'.runUntil = u.runUntil ∧ u'.net = u.net ∧ u'.user = u.user ∧
    u'.steps = u.steps

instance : Std.Refl (Unseen : World ρ μ κ υ ε → _ → Prop) :=
  ⟨fun _ => ⟨rfl, rfl, rfl, rfl⟩⟩

instance : IsTrans (World ρ μ κ υ ε) Unseen :=
  ⟨fun _ _ _ ⟨hr, hn, hu, hs⟩ ⟨hr', hn', hu', hs'⟩ =>
    ⟨hr'.trans hr, hn'.trans hn, hu'.trans hu, hs'.trans hs⟩⟩

theorem Seen.unseen {r : RunUntil μ κ υ ε} {δ : Option (Decision ε)}
    {w u u' : World ρ μ κ υ ε} (h : Seen r δ w u) (h' : Unseen u u') :
    Seen r δ w u' := by
  obtain ⟨hr, hnet, huser, hsteps⟩ := h'
  refine ⟨hr.trans h.call, hnet ▸ h.woken, ?_, hsteps.trans h.steps⟩
  rw [← h.view, World.view, World.view, hnet, huser]

theorem mark_unseen (m : Mark μ υ ε) :
    Exec.Within Unseen (Exec.update (·.mark m) : Run ρ μ κ υ ε Unit) :=
  fun _ => ⟨rfl, rfl, rfl, rfl⟩

theorem checkInvariants_unseen :
    Exec.Within Unseen (checkInvariants : Run ρ μ κ υ ε Unit) := by
  refine .look fun w => Exec.Within.forEach (fun p => ?_) _
  refine .look fun w => .bind (mark_unseen _) fun _ => ?_
  split
  · exact Exec.within_pure
  · exact Exec.within_raise
  · exact Exec.within_raise

theorem Seen.resolve {r : RunUntil μ κ υ ε} {w u : World ρ μ κ υ ε}
    (h : Seen r none w u) (d : Decision ε) :
    Seen r (some d) w (u.resolve { r with done := none } d) := by
  simp only [World.resolve]
  split
  · next hawaited =>
    refine ⟨rfl, fun _ _ _ => ?_, h.view, h.steps⟩
    exact ⟨_, List.mem_append_right _ (List.mem_singleton_self _), rfl⟩
  · next hawaited =>
    exact ⟨rfl, fun _ _ h => absurd h hawaited, h.view, h.steps⟩

end

/-- The check of a call, its own or another's. -/
theorem check_seen {r : RunUntil μ κ υ ε} {δ : Option (Decision ε)}
    {w u : World ρ μ κ υ ε} (h : Seen r δ w u) (call : ℕ) :
    Exec.wp (World.check call)
      (fun _ => Seen r (if call = r.call then
        δ.or (r.verdict w.steps w.view) else δ) w)
      (fun e _ => e.kind ≠ .exception) (fun _ => True) u := by
  by_cases hcall : call = r.call
  · subst hcall
    rw [if_pos rfl]
    cases δ with
    | some d =>
        have hdone : World.check r.call u = (.ok none, u) := by
          simp [World.check, Exec.look, h.call, pure]
        rw [Exec.wp, hdone]
        exact h
    | none =>
        have hverdict : ∀ n v, RunUntil.verdict { r with done := none } n v =
            r.verdict n v := fun _ _ => rfl
        rw [Exec.wp, Option.none_or]
        rcases check_cases h.call rfl with
          ⟨hv, hc⟩ | ⟨d, soft, hv, hc⟩ | ⟨e, -, he, hc⟩
        · rw [hverdict, h.steps, h.view] at hv
          rw [hc, hv]
          exact h
        · rw [hverdict, h.steps, h.view] at hv
          rw [hc, hv]
          exact h.resolve d
        · rw [hc]
          exact he
  · have hother : World.check call u = (.ok none, u) := by
      have hne : r.call ≠ call := fun heq => hcall heq.symm
      simp [World.check, Exec.look, h.call, hne, pure]
    rw [Exec.wp, hother, if_neg hcall]
    exact h

/-- What the checks make of the call once `hooks` have been called. -/
def seenBy (w : World ρ μ κ υ ε) (r : RunUntil μ κ υ ε) (hooks : List Hook)
    (δ : Option (Decision ε)) : Option (Decision ε) :=
  if .check r.call ∈ hooks then δ.or (r.verdict w.steps w.view) else δ

theorem runHook_seen {r : RunUntil μ κ υ ε} {δ : Option (Decision ε)}
    {w u : World ρ μ κ υ ε} (h : Seen r δ w u) (hook : Hook) :
    Exec.wp (runHook hook)
      (fun _ => Seen r (w.seenBy r [hook] δ) w)
      (fun e u => e.kind = .exception → Seen r (w.seenBy r [hook] δ) w u)
      (fun _ => True) u := by
  cases hook with
  | checkInvariants =>
      have hnone : w.seenBy r [.checkInvariants] δ = δ := if_neg (by simp)
      rw [runHook, Exec.wp_bind, hnone]
      refine checkInvariants_unseen.wp.mono ?_ ?_ fun _ _ => trivial
      · exact fun _ v hv => h.unseen hv
      · exact fun e v hv _ => h.unseen hv
  | check call =>
      refine (check_seen h call).mono (fun _ v hv => ?_)
        (fun e v he hkind => absurd hkind he) fun _ h => h
      simpa [seenBy, eq_comm] using hv

/-- When every hook has been called, the check of the call has been. -/
theorem runHooks_seen {r : RunUntil μ κ υ ε} {w : World ρ μ κ υ ε}
    (hooks : List Hook) (first : Option (Exc ε)) (notes : List (Exc ε))
    {δ : Option (Decision ε)} {u : World ρ μ κ υ ε} (h : Seen r δ w u) :
    Exec.wp (runHooks hooks first notes)
      (fun _ => Seen r (w.seenBy r hooks δ) w)
      (fun e _ => e.kind ≠ .exception) (fun _ => True) u := by
  induction hooks generalizing first notes δ u with
  | nil => exact h
  | cons hook hooks ih =>
      have hsplit : w.seenBy r hooks (w.seenBy r [hook] δ) =
          w.seenBy r (hook :: hooks) δ := by
        simp only [seenBy, List.mem_cons, List.not_mem_nil, or_false]
        by_cases hhook : Hook.check r.call = hook
        · by_cases hmem : Hook.check r.call ∈ hooks
          · simp [← hhook, hmem, Option.or_assoc]
          · simp [← hhook, hmem]
        · simp [hhook]
      rw [runHooks, Exec.wp_bind, Exec.wp_attempt]
      refine (runHook_seen h hook).mono ?_ ?_ fun _ h => h
      · intro soft v hv
        rw [← hsplit]
        cases soft with
        | none => exact ih first notes hv
        | some e => exact ih first _ hv
      · intro e v hv
        rw [← hsplit]
        simp only []
        split
        · next he =>
          cases first with
          | some first => exact ih _ _ (hv he)
          | none =>
              simp only [Exec.wp_bind, Exec.wp_update]
              exact ih _ notes ((hv he).unseen ⟨rfl, rfl, rfl, rfl⟩)
        · next he =>
          split
          · exact he
          · exact he

theorem afterStep_seen {r : RunUntil μ κ υ ε} {w : World ρ μ κ υ ε}
    (hr : w.runUntil = some r) :
    Exec.wp afterStep (fun _ => Seen r (w.seenBy r w.hooks r.done) w)
      (fun e u => e.kind = .exception →
        Seen r (w.seenBy r w.hooks r.done) w u) (fun _ => True) w := by
  have hmark : Seen r r.done w (w.mark (.stepEnd w.view)) :=
    ⟨hr, fun h h' => absurd h h', rfl, rfl⟩
  have hnote : ∀ first note : Exc ε, Exec.Within Unseen
      (addStepNote first note : Run ρ μ κ υ ε Unit) := by
    intro first note
    rw [addStepNote]
    split
    · exact fun w => ⟨rfl, rfl, rfl, rfl⟩
    · exact (mark_unseen _).bind fun _ => Exec.within_raise
    · exact (mark_unseen _).bind fun _ => Exec.within_raise
  rw [afterStep, Exec.wp_look_apply, Exec.wp_bind, Exec.wp_update]
  simp only [Exec.wp_bind]
  refine (runHooks_seen w.hooks none [] hmark).mono ?_
    (fun e u he hkind => absurd hkind he) fun _ h => h
  rintro ⟨first, notes⟩ u hu
  cases first with
  | none => exact hu
  | some first =>
      simp only [Exec.wp_bind, Exec.wp_raise]
      refine (Exec.Within.forEach (hnote first) notes).wp.mono ?_ ?_
        fun _ _ => trivial
      · exact fun _ v hv _ => hu.unseen hv
      · exact fun _ v hv _ => hu.unseen hv

/-! ## Waiting -/

/-- The timer of a call that waits for `t`: between two steps the clock has not
come to `t`, and as long as it has not, the timer is in the heap, and nothing
can cancel it. -/
structure Armed (t : ℚ) (i : ℕ) (q : Point ρ μ κ υ ε) : Prop where
  le : q.world.net.loop.time ≤ t
  lt : q.inStep = false → q.world.net.loop.time < t
  timer : q.world.net.loop.time < t →
    ∃ x ∈ q.world.net.loop.timers.entries, x.when = .fin t ∧ x.handle.id = i
  given : i < q.world.net.loop.nextHandle
  safe : ¬ Net.Token q.world.net i

section

omit [Raisable ε]

variable {t : ℚ} {i : ℕ} {q : Point ρ μ κ υ ε}

theorem Armed.tame (h : Armed t i q) {w : World ρ μ κ υ ε}
    (hnet : Net.Tame q.world.net w.net) : Armed t i ⟨w, q.inStep⟩ := by
  have htime := hnet.quiet.time_eq
  refine ⟨htime ▸ h.le, fun hq => htime ▸ h.lt hq, fun hlt => ?_, ?_, ?_⟩
  · obtain ⟨x, hx, hwhen, hid⟩ := h.timer (htime ▸ hlt)
    exact ⟨x, hnet.quiet.timer_mem hx, hwhen, hid⟩
  · exact h.given.trans_le hnet.names.nextHandle
  · intro htok
    rcases hnet.names.token htok with hi | ⟨hle, -⟩
    · exact h.safe hi
    · exact absurd h.given (not_lt.mpr hle)

/-- A step does not go past the timer. -/
theorem Armed.begin (h : Armed t i q) (hq : q.inStep = false)
    {w : World ρ μ κ υ ε} (hw : Starts q.world w) : Armed t i ⟨w, true⟩ := by
  have hnames := hw.names
  have hlt := h.lt hq
  obtain ⟨x, hx, hwhen, hid⟩ := h.timer hlt
  have hlive : x.handle.id ∉ q.world.net.loop.cancelled :=
    fun hc => h.safe (.inl (hid ▸ hc))
  have hsafe : ¬ Net.Token w.net i := by
    intro htok
    rcases hnames.token htok with hi | ⟨hle, -⟩
    · exact h.safe hi
    · exact absurd h.given (not_lt.mpr hle)
  have hgiven := h.given.trans_le hnames.nextHandle
  rcases hw.net with hnet | hnet
  · refine ⟨hnet ▸ h.le, by simp, fun _ => ?_, hgiven, hsafe⟩
    exact ⟨x, hnet ▸ hx, hwhen, hid⟩
  · obtain ⟨-, -, -, -, -, -, -, hgone, hkept, hclock⟩ := Loop.beginStep_spec
      (l := q.world.net.loop) (b := q.world.stopIn.isSome) rfl
    have hloop : w.net.loop =
        (q.world.net.loop.beginStep q.world.stopIn.isSome).1 := by rw [hnet]
    rw [← hloop] at hgone hkept hclock
    refine ⟨?_, by simp, fun hbefore => ?_, hgiven, hsafe⟩
    · rcases hclock with htime | ⟨-, hall⟩
      · exact htime ▸ h.le
      · have := hall x hx hlive
        rw [hwhen] at this
        exact When.fin_le_fin.mp this
    · refine ⟨x, (hkept x hx hlive fun hpromoted => ?_).1, hwhen, hid⟩
      have := (hgone x hpromoted).1
      rw [hwhen] at this
      exact absurd (When.fin_le_fin.mp this) (not_le.mpr hbefore)

end

/-- The evaluations of the moves, of a predicate that no step has decided. -/
def evaluations (ms : List (Move μ κ υ ε)) : List (ℕ × View μ υ) :=
  ms.filterMap fun
    | .checks n v => some (n, v)
    | _ => none

/-- A call that is awaited, with what its evaluations have decided. -/
structure Waiting (r : RunUntil μ κ υ ε) (evals : List (ℕ × View μ υ))
    (δ : Option (Decision ε)) (q : Point ρ μ κ υ ε) : Prop where
  call : q.world.runUntil = some { r with awaited := true, done := δ }
  hook : .check r.call ∈ q.world.hooks
  done : δ ≠ some .cancelled → δ = evals.findSome? fun x => r.verdict x.1 x.2
  onTime : δ ≠ some .cancelled → ∀ t n v, r.deadlineAt = some t →
    r.First evals n v → r.predicate v = .fails → v.now = t
  armed : δ = none → ∀ t, r.deadlineAt = some t → ∃ i, Armed t i q

/-- What the checks of a step make of the call, and of the task that awaits
it. -/
theorem Waiting.checks {r : RunUntil μ κ υ ε} {evals : List (ℕ × View μ υ)}
    {δ : Option (Decision ε)} {w w' : World ρ μ κ υ ε} (hr : Timed r)
    (h : Waiting r evals δ ⟨w, true⟩) {res : Res (Exc ε) Unit}
    (hw : afterStep w = (res, w'))
    (hres : ∀ e, res = .raised e → e.kind = .exception) :
    Waiting r (evals ++ [(w.steps, w.view)])
      (δ.or (r.verdict w.steps w.view)) ⟨w', false⟩ ∧
    (δ = none → r.verdict w.steps w.view ≠ none →
      ∃ x ∈ w'.net.loop.ready, x.callback = .user (.user r.k)) := by
  have hserves : Serves (fun _ => True) w w' := by
    obtain rfl : (afterStep w).2 = w' := congrArg Prod.snd hw
    exact afterStep_serves (fun _ => trivial) w
  have hseen : Seen { r with awaited := true, done := δ }
      (δ.or (r.verdict w.steps w.view)) w w' := by
    have hafter := (afterStep_seen h.call).and (afterStep_checks w)
    have hseenBy : ∀ δ', w.seenBy { r with awaited := true, done := δ } w.hooks δ' =
        δ'.or (r.verdict w.steps w.view) := fun δ' => if_pos h.hook
    simp only [hseenBy] at hafter
    cases res with
    | ok => exact (hafter.ok_of hw).1
    | raised e => exact (hafter.err_of hw).1 (hres e rfl)
    | pending => exact (hafter.cut_of hw).2.elim
  refine ⟨⟨hseen.call, ?_, ?_, ?_, ?_⟩, fun hδ hv => ?_⟩
  · obtain ⟨added, hadded, -⟩ := hserves.hooks
    show Hook.check r.call ∈ w'.hooks
    rw [hadded]
    exact List.mem_append_left _ h.hook
  · intro hnot
    rw [List.findSome?_append]
    cases δ with
    | some d => rw [← h.done hnot, Option.some_or, Option.some_or]
    | none =>
        rw [← h.done (by simp), Option.none_or, Option.none_or]
        simp
  · intro hnot t n v ht hfirst hfails
    have hδ : δ ≠ some .cancelled := by
      rintro rfl
      exact hnot rfl
    rcases first_of_append hfirst with hfirst | ⟨hall, hx⟩
    · exact h.onTime hδ t n v ht hfirst hfails
    · have hnone : δ = none := by
        rw [h.done hδ, List.findSome?_eq_none_iff]
        exact fun y hy => (verdict_eq_none hr).mpr (hall y hy)
      obtain ⟨i, harmed⟩ := h.armed hnone t ht
      obtain ⟨t', ht', hle⟩ := first_decisive hfirst hfails
      rw [ht, Option.some.injEq] at ht'
      obtain ⟨-, rfl⟩ := Prod.mk.inj hx
      exact le_antisymm harmed.le (ht' ▸ hle)
  · intro hnone t ht
    rw [Option.or_eq_none_iff] at hnone
    obtain ⟨i, harmed⟩ := h.armed hnone.1 t ht
    have harmed := harmed.tame hserves.net
    have hnot := (verdict_eq_none hr).mp hnone.2
    have hlt : w'.net.loop.time < t := by
      rw [hserves.net.quiet.time_eq]
      by_contra hle
      exact hnot fun _ => ⟨t, ht, not_lt.mp hle⟩
    exact ⟨i, harmed.le, fun _ => hlt, harmed.timer, harmed.given, harmed.safe⟩
  · refine hseen.woken hδ (by simpa [hδ] using hv) rfl

omit [Raisable ε] in
/-- What else happens does not decide the call, but can cancel it. -/
theorem Waiting.serves {r : RunUntil μ κ υ ε} {evals : List (ℕ × View μ υ)}
    {δ : Option (Decision ε)} {q : Point ρ μ κ υ ε} (h : Waiting r evals δ q)
    {w : World ρ μ κ υ ε} (hw : Serves (· = .cancelled) q.world w) :
    ∃ δ', Waiting r evals δ' ⟨w, q.inStep⟩ ∧
      (δ' = δ ∨ δ' = some .cancelled) := by
  obtain ⟨added, hadded, -⟩ := hw.hooks
  have hhook : Hook.check r.call ∈ w.hooks :=
    hadded ▸ List.mem_append_left _ h.hook
  rcases hw.runUntil with heq | ⟨r', d, hr', -, rfl, heq⟩
  · refine ⟨δ, ⟨heq.trans h.call, hhook, h.done, h.onTime, ?_⟩, .inl rfl⟩
    intro hnone t ht
    obtain ⟨i, harmed⟩ := h.armed hnone t ht
    exact ⟨i, harmed.tame hw.net⟩
  · rw [h.call, Option.some.injEq] at hr'
    refine ⟨some .cancelled, ⟨?_, hhook, ?_, ?_, ?_⟩, .inr rfl⟩
    · rw [heq, ← hr']
    · exact fun hne => absurd rfl hne
    · exact fun hne => absurd rfl hne
    · rintro ⟨⟩

variable [Random ρ]

/-- What a move makes of a call that is awaited; a decision wakes its task. -/
theorem Moves.waiting {r : RunUntil μ κ υ ε} {evals : List (ℕ × View μ υ)}
    {δ : Option (Decision ε)} {q q' : Point ρ μ κ υ ε} {m : Move μ κ υ ε}
    (hr : Timed r) (hflag : q.world.runUntilActive = true)
    (h : Waiting r evals δ q) (hm : Moves q m q') (hend : m ≠ .op .endRunUntil)
    (hclear : m ≠ .clear) (haborted : m ≠ .aborted) :
    ∃ δ', Waiting r (evals ++ evaluations [m]) δ' q' ∧
      (δ = none → δ' ≠ none → δ' ≠ some .cancelled →
        ∃ x ∈ q'.world.net.loop.ready, x.callback = .user (.user r.k)) := by
  have hquiet : ∀ {w : World ρ μ κ υ ε}, Serves (· = .cancelled) q.world w →
      ∃ δ', Waiting r (evals ++ []) δ' ⟨w, q.inStep⟩ ∧
        (δ = none → δ' ≠ none → δ' ≠ some .cancelled →
          ∃ x ∈ w.net.loop.ready, x.callback = .user (.user r.k)) := by
    intro w hw
    obtain ⟨δ', hδ', hor⟩ := h.serves hw
    refine ⟨δ', by rwa [List.append_nil], fun hδ hsome hnot => ?_⟩
    rcases hor with heq | heq
    · exact absurd (heq.trans hδ) hsome
    · exact absurd heq hnot
  cases hm with
  | op w b o =>
      cases o with
      | endRunUntil => exact absurd rfl hend
      | runUntil pred d k =>
          rcases callRunUntil_cases w pred d k with
            ⟨e, -, hw⟩ | ⟨deadline, hg, -⟩
          · have hsame : Tidy w (userOp (.runUntil pred d k) w).2 := by
              rw [hw]
              exact .of_net (.refl _) rfl
            exact hquiet hsame.serves
          · rw [guards_flag hg] at hflag
            cases hflag
      | _ => exact hquiet (userOp_serves (P := (· = .cancelled)) rfl (by rfl) w)
  | begin hw =>
      have hstarts := startStep_starts hw
      refine ⟨δ, ⟨?_, ?_, ?_, ?_, ?_⟩, fun hδ hsome => absurd hδ hsome⟩
      · exact hstarts.runUntil.trans h.call
      · exact hstarts.hooks ▸ h.hook
      · simpa [evaluations] using h.done
      · simpa [evaluations] using h.onTime
      · intro hnone t ht
        obtain ⟨i, harmed⟩ := h.armed hnone t ht
        exact ⟨i, harmed.begin rfl hstarts⟩
  | stuck => exact absurd rfl haborted
  | interrupted => exact absurd rfl haborted
  | checks hw hres =>
      obtain ⟨hwaiting, hwoken⟩ := h.checks hr hw hres
      refine ⟨_, hwaiting, fun hδ hsome _ => hwoken hδ ?_⟩
      simpa [hδ] using hsome
  | cut => exact absurd rfl haborted
  | clear => exact absurd rfl hclear
  | tidy b hw => exact hquiet hw.serves

/-! ## The call -/

omit [Raisable ε] [Random ρ] in
/-- A call that its first evaluation does not decide waits. -/
theorem Numbered.waiting {w : World ρ μ κ υ ε} (hw : Numbered w)
    (p : Predicate μ υ ε) (deadline : Option (Num × ℚ)) (k : κ) (b : Bool)
    (hnot : p w.view = .fails ∧ ∀ t,
      (w.newCall p deadline k).deadlineAt = some t → w.net.loop.time < t) :
    Waiting (w.newCall p deadline k) [] none
      ⟨(w.openCall p deadline k).awaitCall (w.newCall p deadline k), b⟩ where
  call := rfl
  hook := List.mem_append_right _ (List.mem_singleton_self _)
  done _ := rfl
  onTime _ t n v _ hfirst := by
    obtain ⟨before, after, heq, -⟩ := hfirst
    simp at heq
  armed _ t ht := by
    cases deadline with
    | none => cases ht
    | some d =>
        have hlt := hnot.2 t ht
        refine ⟨w.net.loop.nextHandle, hlt.le, fun _ => hlt, fun _ => ?_,
          Nat.lt_succ_self _, Net.not_token_callAt hw.token_lt⟩
        refine ⟨_, PQueue.mem_push.mpr (.inl rfl), ?_, rfl⟩
        cases ht
        rfl

omit [Random ρ] in
/-- The first evaluation of a call, and what `check` makes of it. What is not
an `Exception` comes out of `check` as it is. -/
theorem check_openCall (w : World ρ μ κ υ ε) (p : Predicate μ υ ε)
    (deadline : Option (Num × ℚ)) (k : κ) :
    (∃ soft u δ, World.check w.nextCall (w.openCall p deadline k) =
        (.ok soft, u) ∧
      u.runUntil = some { w.newCall p deadline k with done := δ } ∧
      δ = (w.newCall p deadline k).verdict w.steps w.view) ∨
    ∃ e, p w.view = .raises e ∧ e.kind ≠ .exception ∧
      World.check w.nextCall (w.openCall p deadline k) =
        (.raised e, w.openCall p deadline k) := by
  have hview : (w.openCall p deadline k).view = w.view := by
    cases deadline <;> rfl
  have hsteps : (w.openCall p deadline k).steps = w.steps := rfl
  rcases check_cases (w := w.openCall p deadline k)
    (r := w.newCall p deadline k) rfl rfl with
    ⟨hv, hc⟩ | ⟨d, soft, hv, hc⟩ | ⟨e, hp, he, hc⟩
  · rw [hview, hsteps] at hv
    exact .inl ⟨none, _, none, hc, rfl, hv.symm⟩
  · rw [hview, hsteps] at hv
    refine .inl ⟨soft, _, some d, hc, ?_, hv.symm⟩
    simp only [resolve]
    split <;> rfl
  · rw [hview] at hp
    exact .inr ⟨e, hp, he, hc⟩

/-- A step that the limit cuts does not deadlock. -/
theorem Deadlocks.limit {w : World ρ μ κ υ ε} (h : Deadlocks w) :
    w.stepsLeft ≠ some 0 := by
  intro hlimit
  obtain ⟨w', hw', hlog⟩ := h
  obtain rfl : (runOnce w).2 = w' := congrArg Prod.snd hw'
  have hlength := congrArg List.length hlog
  simp only [runOnce, takeStep, Exec.look, bind, Exec.update, hlimit, fail,
    Exec.raise, mark, List.length_append] at hlength
  simp at hlength

theorem Armed.not_deadlocks {t : ℚ} {i : ℕ} {q : Point ρ μ κ υ ε}
    (h : Armed t i q) (hq : q.inStep = false) : ¬ Deadlocks q.world := by
  intro hdead
  obtain ⟨x, hx, hwhen, hid⟩ := h.timer (h.lt hq)
  obtain ⟨⟨-, hlive⟩, -⟩ := Loop.beginStep_deadlock.mp
    ((deadlocks_iff hdead.limit).mp hdead)
  have := hlive x (Loop.mem_live.mpr ⟨hx, fun hc => h.safe (.inl (hid ▸ hc))⟩)
  rw [hwhen] at this
  cases this

omit [Raisable ε] [Random ρ] in
theorem guards_deadline {w : World ρ μ κ υ ε} {d : Option Num}
    {deadline : Option (Num × ℚ)} (h : w.runUntilGuards d = .ok deadline)
    (hd : d ≠ none) : ∃ x, deadline = some x := by
  obtain ⟨d, rfl⟩ := Option.ne_none_iff_exists'.mp hd
  simp only [runUntilGuards, guards_flag h, Bool.false_eq_true, if_false] at h
  split at h
  · cases h
  · cases h
    exact ⟨_, rfl⟩
  · cases h

/-- What a call that waits has come to, at the end of a walk. -/
theorem Waiting.walk {r : RunUntil μ κ υ ε} {p q : Point ρ μ κ υ ε}
    {ms : List (Move μ κ υ ε)} (hr : Timed r) (hp : Exclusive p.world)
    (h : Waiting r [] none p) (hwalk : Walk Moves p ms q)
    (hend : .op .endRunUntil ∉ ms) (hclear : .clear ∉ ms)
    (haborted : .aborted ∉ ms) :
    ∃ δ, Waiting r (evaluations ms) δ q := by
  induction hwalk with
  | nil => exact ⟨none, h⟩
  | snoc hwalk hm ih =>
      simp only [List.mem_append, List.mem_singleton, not_or]
        at hend hclear haborted
      obtain ⟨δ, hδ⟩ := ih hend.1 hclear.1 haborted.1
      have hq := hwalk.invariant (I := fun p => Exclusive p.world)
        Moves.exclusive hp
      have hflag := hq.flag.trans (by rw [hδ.call])
      obtain ⟨δ', hδ', -⟩ := hm.waiting hr hflag hδ (Ne.symm hend.2)
        (Ne.symm hclear.2) (Ne.symm haborted.2)
      refine ⟨δ', ?_⟩
      rwa [evaluations, List.filterMap_append]

/-- A call that its first evaluation does not decide, at the end of a walk from
where it was made. -/
theorem newCall_decides {p q : Point ρ μ κ υ ε} (hexclusive : Exclusive p.world)
    (hnumbered : Numbered p.world) {predicate : Predicate μ υ ε}
    {d : Option Num} {k : κ} {deadline : Option (Num × ℚ)}
    (hcall : p.world.runUntilGuards d = .ok deadline)
    (hnot : ¬ (p.world.newCall predicate deadline k).Decisive p.world.view)
    {ms : List (Move μ κ υ ε)}
    (hwalk : Walk Moves ⟨(p.world.openCall predicate deadline k).awaitCall
      (p.world.newCall predicate deadline k), p.inStep⟩ ms q)
    (hend : .op .endRunUntil ∉ ms) (hclear : .clear ∉ ms)
    (haborted : .aborted ∉ ms) : ∃ δ,
      Waiting (p.world.newCall predicate deadline k) (evaluations ms) δ q ∧
      (δ ≠ some .cancelled →
        (p.world.newCall predicate deadline k).Decides p.world.net.loop.time
          ((p.world.steps, p.world.view) :: evaluations ms) δ) := by
  have hr := newCall_timed p.world predicate deadline k
  have hverdict := verdict_eq_none hr (n := p.world.steps) (v := p.world.view)
  have hfails : predicate p.world.view = .fails ∧ ∀ t,
      (p.world.newCall predicate deadline k).deadlineAt = some t →
        p.world.net.loop.time < t := by
    simp only [RunUntil.Decisive, not_forall, not_exists, not_and] at hnot
    obtain ⟨hfails, hlate⟩ := hnot
    exact ⟨hfails, fun t ht => not_le.mp (hlate t ht)⟩
  have hopen := (hexclusive.openCall (guards_flag hcall) predicate deadline
    k).awaitCall rfl
  obtain ⟨δ, hδ⟩ := Waiting.walk hr hopen
    (hnumbered.waiting predicate deadline k p.inStep hfails) hwalk hend hclear
    haborted
  refine ⟨δ, hδ, fun hsome => decides_of_verdicts hr ?_ ?_⟩
  · rw [hδ.done hsome, List.findSome?_cons, hverdict.mpr hnot]
  · intro t n v ht _ hfirst hfails
    exact hδ.onTime hsome t n v ht (first_cons hnot hfirst) hfails

/-- What a call comes to, in every drive. At the call: the future is resolved
as its first evaluation says, and the call goes on to wait if that decides
nothing. Waiting: as long as the call is not ended, the checks are not cleared,
no step is cut short and the task is not cancelled, the future is resolved as
the first decisive evaluation says, and resolving it wakes the task; no step
deadlocks before that. -/
theorem run_until_decides {netRng faultsRng : ρ} {user : υ}
    {maxSteps : Option ℕ} {script : ℕ → List (List (UserOp μ κ υ ε))}
    {horizon : ℕ} {ms : List (Move μ κ υ ε)} {p : Point ρ μ κ υ ε}
    (h : Walk Moves
      ⟨init netRng faultsRng user maxSteps script horizon, false⟩ ms p)
    {predicate : Predicate μ υ ε} {d : Option Num} {k : κ}
    {deadline : Option (Num × ℚ)}
    (hcall : p.world.runUntilGuards d = .ok deadline) :
    let w := p.world
    let r := w.newCall predicate deadline k
    let first := (w.steps, w.view)
    let called := w.net.loop.time
    ((∃ soft u δ, World.check r.call (w.openCall predicate deadline k) =
        (.ok soft, u) ∧ u.runUntil = some { r with done := δ } ∧
        r.Decides called [first] δ) ∨
      ∃ e, predicate w.view = .raises e ∧ e.kind ≠ .exception ∧
        World.check r.call (w.openCall predicate deadline k) =
          (.raised e, w.openCall predicate deadline k)) ∧
    (r.Decisive w.view → userOp (.runUntil predicate d k) w =
      (.ok (), (w.openCall predicate deadline k).endRunUntil)) ∧
    (¬ r.Decisive w.view → userOp (.runUntil predicate d k) w =
      (.ok (), (w.openCall predicate deadline k).awaitCall r) ∧
      ∀ ms' q, Walk Moves
          ⟨(w.openCall predicate deadline k).awaitCall r, p.inStep⟩ ms' q →
        .op .endRunUntil ∉ ms' → .clear ∉ ms' → .aborted ∉ ms' →
        ∃ δ, q.world.runUntil = some { r with awaited := true, done := δ } ∧
          (δ ≠ some .cancelled →
            r.Decides called (first :: evaluations ms') δ) ∧
          (δ = none → d ≠ none → q.inStep = false → ¬ Deadlocks q.world) ∧
          ∀ m q', Moves q m q' → m ≠ .op .endRunUntil → m ≠ .clear →
            m ≠ .aborted → δ = none → ∀ d', q'.world.runUntil =
              some { r with awaited := true, done := some d' } →
            d' ≠ .cancelled →
            ∃ x ∈ q'.world.net.loop.ready, x.callback = .user (.user k)) := by
  intro w r first called
  have hexclusive : Exclusive w := h.invariant (I := fun p => Exclusive p.world)
    Moves.exclusive (init_exclusive _ _ _ _ _ _)
  have hnumbered : Numbered w := h.invariant (I := fun p => Numbered p.world)
    Moves.numbered (init_numbered _ _ _ _ _ _)
  have hr : Timed r := newCall_timed w predicate deadline k
  have hverdict := verdict_eq_none hr (n := w.steps) (v := w.view)
  have hcases := callRunUntil_cases w predicate d k
  refine ⟨?_, fun hdecisive => ?_, fun hnot => ⟨?_, ?_⟩⟩
  · refine (check_openCall w predicate deadline k).imp_left ?_
    rintro ⟨soft, u, δ, hc, hu, hδ⟩
    refine ⟨soft, u, δ, hc, hu, decides_of_verdicts hr ?_ ?_⟩
    · rw [hδ, List.findSome?_singleton]
    · intro t n v ht hle hfirst hfails
      have hsingle : r.First ([] ++ [first]) n v := hfirst
      rcases first_of_append hsingle with ⟨before, after, heq, -⟩ | ⟨-, hx⟩
      · simp at heq
      · obtain ⟨t', ht', hle'⟩ := first_decisive hfirst hfails
        rw [ht, Option.some.injEq] at ht'
        obtain ⟨-, rfl⟩ := Prod.mk.inj hx
        exact le_antisymm hle (ht' ▸ hle')
  · rcases hcases with ⟨e, hg, -⟩ | ⟨deadline', hg, ⟨v, -, hw⟩ | ⟨hv, -⟩⟩
    · cases hcall.symm.trans hg
    · cases hcall.symm.trans hg
      exact hw
    · cases hcall.symm.trans hg
      exact absurd hdecisive (hverdict.mp hv)
  · rcases hcases with ⟨e, hg, -⟩ | ⟨deadline', hg, ⟨v, hv, -⟩ | ⟨-, hw⟩⟩
    · cases hcall.symm.trans hg
    · cases hcall.symm.trans hg
      cases (hverdict.mpr hnot).symm.trans hv
    · cases hcall.symm.trans hg
      exact hw
  · intro ms' q hwalk hend hclear haborted
    have hopen := (hexclusive.openCall (guards_flag hcall) predicate deadline
      k).awaitCall (r := r) rfl
    obtain ⟨δ, hδ, hdecides⟩ := newCall_decides hexclusive hnumbered hcall hnot
      hwalk hend hclear haborted
    have hq := hwalk.invariant (I := fun p => Exclusive p.world)
      Moves.exclusive hopen
    refine ⟨δ, hδ.call, hdecides, ?_, ?_⟩
    · intro hnone hd hstep
      obtain ⟨x, rfl⟩ := guards_deadline hcall hd
      obtain ⟨t, ht⟩ : ∃ t, r.deadlineAt = some t := ⟨_, rfl⟩
      obtain ⟨i, harmed⟩ := hδ.armed hnone t ht
      exact harmed.not_deadlocks hstep
    · intro m q' hm hend hclear haborted hnone d' hd' hne
      have hflag := hq.flag.trans (by rw [hδ.call])
      obtain ⟨δ', hδ', hwoken⟩ := hm.waiting hr hflag hδ hend hclear haborted
      have heq : δ' = some d' := by
        have := hδ'.call.symm.trans hd'
        simpa using this
      exact hwoken hnone (by simp [heq]) (by simpa [heq] using hne)

/-- A call that is made at a point of a drive and waits is resolved, at every
point to which it goes on, as the first decisive evaluation says, as long as it
is not ended, the checks are not cleared, no step is cut short and the task is
not cancelled. -/
theorem drive_decides [DecidableEq ε] {netRng faultsRng : ρ} {user : υ}
    {maxSteps : Option ℕ} {script : ℕ → List (List (UserOp μ κ υ ε))}
    {horizon : ℕ} {main : κ} {p q : Point ρ μ κ υ ε}
    (h : OnDrive main (init netRng faultsRng user maxSteps script horizon) p)
    {predicate : Predicate μ υ ε} {d : Option Num} {k : κ}
    {deadline : Option (Num × ℚ)}
    (hcall : p.world.runUntilGuards d = .ok deadline)
    (hnot : ¬ (p.world.newCall predicate deadline k).Decisive p.world.view)
    {ms : List (Move μ κ υ ε)}
    (hwalk : Walk Moves ⟨(p.world.openCall predicate deadline k).awaitCall
      (p.world.newCall predicate deadline k), p.inStep⟩ ms q)
    (hend : .op .endRunUntil ∉ ms) (hclear : .clear ∉ ms)
    (haborted : .aborted ∉ ms) : ∃ δ,
      q.world.runUntil = some { p.world.newCall predicate deadline k with
        awaited := true, done := δ } ∧
      (δ ≠ some .cancelled →
        (p.world.newCall predicate deadline k).Decides p.world.net.loop.time
          ((p.world.steps, p.world.view) :: evaluations ms) δ) := by
  have hexclusive : Exclusive p.world :=
    h.invariant (I := fun p => Exclusive p.world) Moves.exclusive
      (init_exclusive _ _ _ _ _ _)
  have hnumbered : Numbered p.world :=
    h.invariant (I := fun p => Numbered p.world) Moves.numbered
      (init_numbered _ _ _ _ _ _)
  obtain ⟨δ, hδ, hdecides⟩ := newCall_decides hexclusive hnumbered hcall hnot
    hwalk hend hclear haborted
  exact ⟨δ, hδ.call, hdecides⟩

/-- A world in which nothing is scheduled. -/
def idle : World Toggle ℕ ℕ ℕ Plain :=
  init Toggle.low Toggle.low 0 none (fun _ => []) 0

/-- The step that the deadline of `polling` comes in. -/
def expiring : World Toggle ℕ ℕ ℕ Plain := (startStep polling).2

theorem run_until_decides_polling : ∃ q r, Walk Moves ⟨polling, false⟩
      [.begin, .checks expiring.steps expiring.view] q ∧
    q.world.runUntil = some r ∧ r.done = some (.raised
      (.sys expiring.steps (.timeout (.int 5)))) ∧ expiring.view.now = 5 := by
  have hstarted : (startStep polling).1.isOk = true := by decide +kernel
  have hbegin : startStep polling = (.ok (), expiring) := by
    rcases hx : startStep polling with ⟨r, w⟩
    rw [hx] at hstarted
    cases r with
    | ok => exact congrArg (Prod.mk _) (congrArg Prod.snd hx).symm
    | _ => cases hstarted
  have hchecked : (afterStep expiring).1.isOk = true := by decide +kernel
  have hopen : (afterStep expiring).2.runUntil.all
      (fun r => !r.done.any Decision.isCancelled) = true := by decide +kernel
  rcases hchecks : afterStep expiring with ⟨res, u⟩
  rw [hchecks] at hchecked hopen
  have hwalk : Walk Moves ⟨polling, false⟩
      [.begin, .checks expiring.steps expiring.view] ⟨u, false⟩ :=
    (Walk.single (.begin hbegin)).snoc (.checks hchecks fun e he => by
      rw [he] at hchecked
      cases hchecked)
  have htime : expiring.view.now = 5 := by decide +kernel
  have hnot : ¬ (idle.newCall (fun _ => .fails) (some (.int 5, 5)) 7).Decisive
      idle.view := by
    intro h
    obtain ⟨t, ht, hle⟩ := h rfl
    cases ht
    exact absurd hle (by decide +kernel)
  have hguards : idle.runUntilGuards (some (.int 5)) =
      .ok (some (.int 5, 5)) := by
    simp only [runUntilGuards,
      show (Num.int 5).isFinite? = some true by decide +kernel]
    rfl
  obtain ⟨hcall, hwaits⟩ := (run_until_decides (p := ⟨idle, false⟩)
    (d := some (.int 5)) .nil hguards).2.2 hnot
  have hpolling := congrArg Prod.snd hcall
  dsimp only at hpolling
  rw [← hpolling] at hwaits
  obtain ⟨δ, hδ, hdecides, -⟩ := hwaits _ _ hwalk (by simp) (by simp) (by simp)
  refine ⟨_, _, hwalk, hδ, ?_, htime⟩
  have hne : δ ≠ some .cancelled := by
    rintro rfl
    rw [hδ] at hopen
    cases hopen
  refine ((hdecides hne).raised _).mpr ⟨_, _, ⟨[_], [], rfl, ?_, ?_⟩, .inr
    ⟨rfl, _, rfl, rfl⟩⟩
  · exact fun _ => ⟨5, by decide +kernel, htime.ge⟩
  · intro x hx
    rw [List.mem_singleton] at hx
    exact hx ▸ hnot

end World

end Seedloop
