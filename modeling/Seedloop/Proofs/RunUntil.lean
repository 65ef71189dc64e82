import Seedloop.Proofs.Moves
import Seedloop.Ref.RunUntil

/-!
# `run_until` cleans up and excludes itself

Three things have to be put back on the way out of a `run_until`: its hook, its
timer and the flag. The list of hooks is not its own, and it may have been
emptied meanwhile; the `finally` block asks before it removes, so it never
raises, and what was in flight stays in flight.

That a hook in the list is that of the call that is active, and there once, is
an invariant of every walk, as is that the flag tells whether a call is active.
So taking out the first occurrence of the hook takes out every one, and leaves
the others in their order.
-/

namespace Seedloop

/-- The hook of a `run_until`. -/
def Hook.isCheck : Hook → Bool
  | .check _ => true
  | .checkInvariants => false

/-- What an evaluation decides, in the step it is in and on what it sees. -/
def RunUntil.verdict {μ κ υ ε : Type} (r : RunUntil μ κ υ ε) (step : ℕ) (v : View μ υ) :
    Option (Decision ε) :=
  match r.predicate v with
  | .raises e => some (.raised e)
  | .holds => some .held
  | .fails =>
      match r.deadline, r.deadlineAt with
      | some deadline, some deadlineAt =>
          if deadlineAt ≤ v.now then some (.raised (.sys step (.timeout deadline)))
          else none
      | _, _ => none

namespace World

variable {ρ μ κ υ ε : Type}

/-- A call of `run_until` as it begins. -/
def newCall (w : World ρ μ κ υ ε) (predicate : Predicate μ υ ε)
    (deadline : Option (Num × ℚ)) (k : κ) : RunUntil μ κ υ ε :=
  ⟨w.nextCall, predicate, deadline.map Prod.fst,
    deadline.map fun d => w.net.loop.time + d.2,
    deadline.map fun _ => w.net.loop.nextHandle, k, false, none⟩

/-- The flag is set, the hook appended and the timer armed. -/
def openCall (w : World ρ μ κ υ ε) (predicate : Predicate μ υ ε)
    (deadline : Option (Num × ℚ)) (k : κ) : World ρ μ κ υ ε :=
  { w with
    runUntilActive := true
    runUntil := some (w.newCall predicate deadline k)
    nextCall := w.nextCall + 1
    hooks := w.hooks ++ [.check w.nextCall]
    net := match (w.newCall predicate deadline k).deadlineAt with
      | some t => w.net.callAt t (.user .deadline)
      | none => w.net }

/-- The task of the call awaits its future. -/
def awaitCall (w : World ρ μ κ υ ε) (r : RunUntil μ κ υ ε) : World ρ μ κ υ ε :=
  { w with runUntil := some { r with awaited := true } }

variable [Raisable ε]

theorem callRunUntil_eq (w : World ρ μ κ υ ε) (p : Predicate μ υ ε)
    (d : Option Num) (k : κ) : callRunUntil p d k w =
      match w.runUntilGuards d with
      | .error _ => (.ok (), w)
      | .ok deadline => startRunUntil p deadline k w := by
  simp only [callRunUntil, runUntilGuards, Exec.look]
  split
  · rfl
  · cases d with
    | none => rfl
    | some d =>
        dsimp only
        rcases d.isFinite? with _ | _ | _ <;> cases d.value? <;> rfl

/-- The check of a call that is undecided. What is not an `Exception` is not
caught in it. -/
theorem check_cases {w : World ρ μ κ υ ε} {r : RunUntil μ κ υ ε}
    (hr : w.runUntil = some r) (hdone : r.done = none) :
    (r.verdict w.steps w.view = none ∧
      World.check r.call w = (.ok none, w)) ∨
    (∃ d soft, r.verdict w.steps w.view = some d ∧
      World.check r.call w = (.ok soft, w.resolve r d)) ∨
    ∃ e, r.predicate w.view = .raises e ∧ e.kind ≠ .exception ∧
      World.check r.call w = (.raised e, w) := by
  have hopen : ¬ (r.call ≠ r.call ∨ r.done.isSome = true) := by simp [hdone]
  simp only [World.check, Exec.look, hr, if_neg hopen, RunUntil.verdict]
  cases r.predicate w.view with
  | raises e =>
      by_cases he : e.kind = .exception
      · exact .inr (.inl ⟨_, some e, rfl, by simp only [if_pos he]; rfl⟩)
      · exact .inr (.inr ⟨e, rfl, he, by simp only [if_neg he]; rfl⟩)
  | holds => exact .inr (.inl ⟨_, none, rfl, rfl⟩)
  | fails =>
      cases r.deadline with
      | none => exact .inl ⟨rfl, rfl⟩
      | some d =>
          cases r.deadlineAt with
          | none => exact .inl ⟨rfl, rfl⟩
          | some t =>
              by_cases ht : t ≤ w.net.loop.time
              · refine .inr (.inl ⟨_, none, if_pos ht, ?_⟩)
                simp only [if_pos ht]
                rfl
              · refine .inl ⟨if_neg ht, ?_⟩
                simp only [if_neg ht]
                rfl

/-- A call that is not refused ends at once if it is decided, and is awaited
if it is not. -/
theorem startRunUntil_eq (w : World ρ μ κ υ ε) (p : Predicate μ υ ε)
    (deadline : Option (Num × ℚ)) (k : κ) :
    startRunUntil p deadline k w = (.ok (),
      match (w.newCall p deadline k).verdict w.steps w.view with
      | some _ => (w.openCall p deadline k).endRunUntil
      | none => (w.openCall p deadline k).awaitCall
          (w.newCall p deadline k)) := by
  generalize hu : w.openCall p deadline k = u
  generalize hr : w.newCall p deadline k = r
  have hcall : u.runUntil = some r := by rw [← hu, ← hr]; rfl
  have hview : u.view = w.view := by
    rw [← hu]
    cases deadline <;> rfl
  have hstart : startRunUntil p deadline k w = (do
      let checked ← Exec.attempt (World.check r.call)
      Exec.update (openOrEnd checked) : Run ρ μ κ υ ε Unit) u := by
    rw [← hu, ← hr]
    cases deadline <;> rfl
  have hend : ∀ d : Decision ε, (u.resolve r d).endRunUntil = u.endRunUntil := by
    intro d
    have hawaited : r.awaited = false := by rw [← hr]; rfl
    simp only [resolve, hawaited, Bool.false_eq_true, if_false, endRunUntil,
      hcall]
  have hdone : ∀ d : Decision ε,
      (u.resolve r d).runUntil = some { r with done := some d } := by
    intro d
    simp only [resolve]
    split <;> rfl
  have hopen : r.done = none := by rw [← hr]; rfl
  have hsteps : u.steps = w.steps := by rw [← hu]; rfl
  rw [hstart, ← hview, ← hsteps]
  rcases check_cases hcall hopen with
    ⟨hv, hc⟩ | ⟨d, soft, hv, hc⟩ | ⟨e, hp, he, hc⟩
  · have hattempt : Exec.attempt (World.check r.call) u =
        (.ok (.ok none), u) := by simp only [Exec.attempt, hc]
    rw [Exec.bind_of_ok hattempt, hv]
    simp only [Exec.update, openOrEnd, hcall, hopen, Option.isSome_none,
      Bool.false_eq_true, if_false, awaitCall]
  · have hattempt : Exec.attempt (World.check r.call) u =
        (.ok (.ok soft), u.resolve r d) := by simp only [Exec.attempt, hc]
    rw [Exec.bind_of_ok hattempt, hv]
    simp only [Exec.update, openOrEnd, hdone, Option.isSome_some, if_true,
      hend]
  · have hattempt : Exec.attempt (World.check r.call) u =
        (.ok (.error e), u) := by simp only [Exec.attempt, hc]
    have hv : r.verdict u.steps u.view = some (.raised e) := by
      rw [RunUntil.verdict, hp]
    rw [Exec.bind_of_ok hattempt, hv]
    rfl

/-! ## The way out -/

section

omit [Raisable ε]

/-- The `finally` block does what the way out does, and does not raise. -/
theorem runUntilFinally_eq {w : World ρ μ κ υ ε} {r : RunUntil μ κ υ ε}
    (hr : w.runUntil = some r) (valueError : Exc ε) :
    runUntilFinally valueError r w = (.ok (), w.endRunUntil) := by
  have hremove : (Exec.look fun w : World ρ μ κ υ ε =>
      if .check r.call ∈ w.hooks then removeHook valueError (.check r.call)
      else pure ()) w =
      (.ok (), { w with hooks := w.hooks.erase (.check r.call) }) := by
    by_cases hmem : .check r.call ∈ w.hooks
    · simp [Exec.look, removeHook, hmem, Exec.update]
    · simp [Exec.look, hmem, pure, List.erase_of_not_mem hmem]
  rw [runUntilFinally, Exec.bind_of_ok hremove, endRunUntil, hr]
  cases ht : r.timer with
  | none =>
      simp only [ht]
      rfl
  | some timer =>
      simp only [ht]
      rfl

/-- What is left of a call after it. -/
structure Ended (r : RunUntil μ κ υ ε) (w w' : World ρ μ κ υ ε) : Prop where
  flag : w'.runUntilActive = false
  call : w'.runUntil = none
  timer : ∀ t, r.timer = some t → t ∈ w'.net.loop.cancelled
  gone : ∀ c, .check c ∉ w'.hooks
  hooks : w'.hooks = w.hooks.filter (!·.isCheck)

/-! ## The invariant -/

/-- The flag tells whether a call is active, and its hook is the only one of a
`run_until`, and there at most once. -/
structure Exclusive (w : World ρ μ κ υ ε) : Prop where
  flag : w.runUntilActive = w.runUntil.isSome
  hooks : ∀ c, .check c ∈ w.hooks → ∃ r, w.runUntil = some r ∧ r.call = c
  once : ∀ c, w.hooks.count (.check c) ≤ 1
  call_lt : ∀ r, w.runUntil = some r → r.call < w.nextCall

theorem init_exclusive (netRng faultsRng : ρ) (user : υ) (maxSteps : Option ℕ)
    (script : ℕ → List (List (UserOp μ κ υ ε))) (horizon : ℕ) :
    Exclusive (init netRng faultsRng user maxSteps script horizon) :=
  ⟨rfl, by simp [init], by simp [init], by simp [init]⟩

theorem filter_eq_self_of {l : List Hook} (h : ∀ c, .check c ∉ l) :
    l.filter (!·.isCheck) = l := by
  rw [List.filter_eq_self]
  intro hook hmem
  cases hook with
  | checkInvariants => rfl
  | check c => exact absurd hmem (h c)

/-- Where one hook is there and once, taking it out leaves the others. -/
theorem erase_eq_filter {l : List Hook} {c : ℕ}
    (hall : ∀ c', .check c' ∈ l → c' = c) (hone : l.count (.check c) ≤ 1) :
    l.erase (.check c) = l.filter (!·.isCheck) := by
  induction l with
  | nil => rfl
  | cons hook l ih =>
      have hall' : ∀ c', .check c' ∈ l → c' = c := fun c' hc =>
        hall c' (List.mem_cons_of_mem _ hc)
      cases hook with
      | checkInvariants =>
          rw [List.count_cons_of_ne (by simp)] at hone
          rw [List.erase_cons_tail (by simp), ih hall' hone]
          rfl
      | check c' =>
          obtain rfl := hall c' List.mem_cons_self
          rw [List.count_cons_self] at hone
          have hnone : .check c' ∉ l := List.count_eq_zero.mp (by omega)
          rw [List.erase_cons_head]
          refine (filter_eq_self_of fun c hc => ?_).symm
          exact hnone (hall' c hc ▸ hc)

/-- After the way out the list has the other hooks, in their order. -/
theorem Exclusive.ended {w : World ρ μ κ υ ε} (h : Exclusive w)
    {r : RunUntil μ κ υ ε} (hr : w.runUntil = some r) :
    Ended r w w.endRunUntil := by
  have herase : w.hooks.erase (.check r.call) =
      w.hooks.filter (!·.isCheck) := by
    refine erase_eq_filter (fun c hc => ?_) (h.once _)
    obtain ⟨r', hr', rfl⟩ := h.hooks c hc
    rw [hr, Option.some.injEq] at hr'
    rw [hr']
  have hgone : ∀ c, .check c ∉ w.hooks.filter (!·.isCheck) := fun c hc => by
    simp [Hook.isCheck] at hc
  simp only [endRunUntil, hr]
  split
  · next ht =>
    exact ⟨rfl, rfl, by simp [ht], herase ▸ hgone, herase⟩
  · next t ht =>
    refine ⟨rfl, rfl, fun t' ht' => ?_, herase ▸ hgone, herase⟩
    rw [ht, Option.some.injEq] at ht'
    exact ht' ▸ Finset.mem_insert_self _ _

theorem Ended.exclusive {r : RunUntil μ κ υ ε} {w w' : World ρ μ κ υ ε}
    (h : Ended r w w') : Exclusive w' where
  flag := by rw [h.flag, h.call]; rfl
  hooks c hc := absurd hc (h.gone c)
  once c := by
    rw [List.count_eq_zero.mpr (h.gone c)]
    exact Nat.zero_le 1
  call_lt r hr := by
    rw [h.call] at hr
    cases hr

theorem Exclusive.none_of_flag {w : World ρ μ κ υ ε} (h : Exclusive w)
    (hflag : w.runUntilActive = false) : w.runUntil = none := by
  have := h.flag
  rw [hflag] at this
  exact Option.isSome_eq_false_iff.mp this.symm |> Option.isNone_iff_eq_none.mp

theorem Exclusive.no_check {w : World ρ μ κ υ ε} (h : Exclusive w)
    (hflag : w.runUntilActive = false) (c : ℕ) : .check c ∉ w.hooks := by
  intro hc
  obtain ⟨r, hr, -⟩ := h.hooks c hc
  rw [h.none_of_flag hflag] at hr
  cases hr

theorem Exclusive.openCall {w : World ρ μ κ υ ε} (h : Exclusive w)
    (hflag : w.runUntilActive = false) (p : Predicate μ υ ε)
    (deadline : Option (Num × ℚ)) (k : κ) :
    Exclusive (w.openCall p deadline k) where
  flag := rfl
  hooks c hc := by
    rcases List.mem_append.mp hc with hc | hc
    · exact absurd hc (h.no_check hflag c)
    · rw [List.mem_singleton, Hook.check.injEq] at hc
      exact ⟨_, rfl, hc.symm⟩
  once c := by
    have hnone := List.count_eq_zero.mpr (h.no_check hflag c)
    show (w.hooks ++ [Hook.check w.nextCall]).count (Hook.check c) ≤ 1
    rw [List.count_append, hnone, Nat.zero_add]
    exact List.count_le_length
  call_lt r hr := by
    cases hr
    exact Nat.lt_succ_self _

theorem Exclusive.awaitCall {w : World ρ μ κ υ ε} (h : Exclusive w)
    {r : RunUntil μ κ υ ε} (hr : w.runUntil = some r) :
    Exclusive (w.awaitCall r) where
  flag := by
    have := h.flag
    rw [hr] at this
    exact this
  hooks c hc := by
    obtain ⟨r', hr', hc⟩ := h.hooks c hc
    rw [hr, Option.some.injEq] at hr'
    exact ⟨_, rfl, hr' ▸ hc⟩
  once := h.once
  call_lt r' hr' := by
    cases hr'
    exact h.call_lt r hr

theorem Exclusive.endRunUntil {w : World ρ μ κ υ ε} (h : Exclusive w) :
    Exclusive w.endRunUntil := by
  cases hr : w.runUntil with
  | none =>
      have : w.endRunUntil = w := by simp only [World.endRunUntil, hr]
      rwa [this]
  | some r => exact (h.ended hr).exclusive

theorem Serves.call {P : Decision ε → Prop} {w w' : World ρ μ κ υ ε}
    (h : Serves P w w') :
    w'.runUntil.map RunUntil.call = w.runUntil.map RunUntil.call := by
  rcases h.runUntil with heq | ⟨r, d, hr, -, -, heq⟩
  · rw [heq]
  · rw [heq, hr]
    rfl

/-- What leaves the call and its hooks as they are, but for hooks of others. -/
theorem Exclusive.of_call {w w' : World ρ μ κ υ ε} (h : Exclusive w)
    (hflag : w'.runUntilActive = w.runUntilActive)
    (hcall : w'.runUntil.map RunUntil.call = w.runUntil.map RunUntil.call)
    (hnext : w'.nextCall = w.nextCall)
    (hhooks : ∀ c, w'.hooks.count (Hook.check c) ≤
      w.hooks.count (Hook.check c)) :
    Exclusive w' where
  flag := by
    have := congrArg Option.isSome hcall
    rw [Option.isSome_map, Option.isSome_map] at this
    rw [hflag, this, h.flag]
  hooks c hc := by
    have hpos := List.count_pos_iff.mpr hc
    have hmem := List.count_pos_iff.mp (hpos.trans_le (hhooks c))
    obtain ⟨r, hr, hrc⟩ := h.hooks c hmem
    rw [hr] at hcall
    obtain ⟨r', hr', hc'⟩ := Option.map_eq_some_iff.mp hcall
    exact ⟨r', hr', hc'.trans hrc⟩
  once c := (hhooks c).trans (h.once c)
  call_lt r hr := by
    rw [hr] at hcall
    obtain ⟨r', hr', hc'⟩ := Option.map_eq_some_iff.mp hcall.symm
    rw [hnext, ← hc']
    exact h.call_lt r' hr'

theorem count_check_added {added : List Hook}
    (h : ∀ hook ∈ added, hook = .checkInvariants) (c : ℕ) :
    added.count (Hook.check c) = 0 :=
  List.count_eq_zero.mpr fun hmem => by cases h _ hmem

end

variable [Random ρ]

omit [Random ρ] [Raisable ε] in
theorem guards_flag {w : World ρ μ κ υ ε} {d : Option Num}
    {deadline : Option (Num × ℚ)} (h : w.runUntilGuards d = .ok deadline) :
    w.runUntilActive = false := by
  cases hflag : w.runUntilActive with
  | false => rfl
  | true =>
      simp only [runUntilGuards, hflag, if_true] at h
      cases h

/-- A call that its guards let through and its first check does not decide. -/
def Suspends (w : World ρ μ κ υ ε) (p : Predicate μ υ ε) (d : Option Num)
    (k : κ) : Prop :=
  ∃ deadline, w.runUntilGuards d = .ok deadline ∧
    (w.newCall p deadline k).verdict w.steps w.view = none

/-- What comes of a call: it is refused, decided at once, or suspended. -/
theorem callRunUntil_cases (w : World ρ μ κ υ ε) (p : Predicate μ υ ε)
    (d : Option Num) (k : κ) :
    (∃ e, w.runUntilGuards d = .error e ∧
      userOp (.runUntil p d k) w = (.ok (), w)) ∨
    ∃ deadline, w.runUntilGuards d = .ok deadline ∧
      ((∃ v, (w.newCall p deadline k).verdict w.steps w.view = some v ∧
        userOp (.runUntil p d k) w =
          (.ok (), (w.openCall p deadline k).endRunUntil)) ∨
      (w.newCall p deadline k).verdict w.steps w.view = none ∧
        userOp (.runUntil p d k) w = (.ok (),
          (w.openCall p deadline k).awaitCall (w.newCall p deadline k))) := by
  have hcall : userOp (.runUntil p d k) w = callRunUntil p d k w := rfl
  rw [hcall, callRunUntil_eq]
  cases hguards : w.runUntilGuards d with
  | error e => exact .inl ⟨e, rfl, rfl⟩
  | ok deadline =>
      refine .inr ⟨deadline, rfl, ?_⟩
      dsimp only
      rw [startRunUntil_eq]
      cases hv : (w.newCall p deadline k).verdict w.steps w.view with
      | some v => exact .inl ⟨v, rfl, rfl⟩
      | none => exact .inr ⟨rfl, rfl⟩

theorem Moves.exclusive {p q : Point ρ μ κ υ ε} {m : Move μ κ υ ε}
    (hp : Exclusive p.world) (h : Moves p m q) : Exclusive q.world := by
  rcases h.cases with h | h | ⟨-, h⟩ | ⟨o, -, ho, h⟩
  · obtain ⟨added, hadded, hall⟩ := h.hooks
    refine hp.of_call h.runUntilActive h.call h.nextCall fun c => ?_
    rw [hadded, List.count_append, count_check_added hall, Nat.add_zero]
  · refine hp.of_call h.runUntilActive (by rw [h.runUntil]) h.nextCall
      fun c => ?_
    rw [h.hooks]
  · rw [h]
    exact hp.of_call rfl rfl rfl fun c => Nat.zero_le _
  · rw [h]
    cases o with
    | endRunUntil => exact hp.endRunUntil
    | runUntil pred d k =>
        rcases callRunUntil_cases p.world pred d k with
          ⟨e, -, hw⟩ | ⟨deadline, hguards, ⟨v, -, hw⟩ | ⟨-, hw⟩⟩
        · rw [hw]
          exact hp
        · rw [hw]
          exact (hp.openCall (guards_flag hguards) _ _ _).endRunUntil
        · rw [hw]
          exact (hp.openCall (guards_flag hguards) _ _ _).awaitCall rfl
    | _ => cases ho

omit [Random ρ] [Raisable ε] in
theorem Exclusive.openCall_ended {w : World ρ μ κ υ ε} (h : Exclusive w)
    (hflag : w.runUntilActive = false) (p : Predicate μ υ ε)
    (deadline : Option (Num × ℚ)) (k : κ) :
    (w.openCall p deadline k).endRunUntil.hooks = w.hooks := by
  have hended := (h.openCall hflag p deadline k).ended
    (r := w.newCall p deadline k) rfl
  rw [hended.hooks]
  show (w.hooks ++ [Hook.check w.nextCall]).filter (!·.isCheck) = w.hooks
  rw [List.filter_append, filter_eq_self_of (h.no_check hflag)]
  exact List.append_nil _

/-- The flag is set by a call that suspends, and cleared by its way out. -/
theorem Moves.flag_iff {p q : Point ρ μ κ υ ε} {m : Move μ κ υ ε}
    (hp : Exclusive p.world) (h : Moves p m q) :
    q.world.runUntilActive = true ↔
      (p.world.runUntilActive = true ∧ m ≠ .op .endRunUntil) ∨
      ∃ pred d k, m = .op (.runUntil pred d k) ∧ Suspends p.world pred d k := by
  by_cases hm : ∃ o : UserOp μ κ υ ε, m = .op o ∧ o.isApart = false
  · obtain ⟨o, rfl, ho⟩ := hm
    cases h with
    | op w b o =>
        cases o with
        | endRunUntil =>
            have hflag : w.endRunUntil.runUntilActive = false := by
              cases hr : w.runUntil with
              | none =>
                  have : w.endRunUntil = w := by
                    simp only [World.endRunUntil, hr]
                  rw [this, hp.flag]
                  simp only [hr]
                  rfl
              | some r => exact (hp.ended hr).flag
            have hflag : (userOp .endRunUntil w).2.runUntilActive = false := hflag
            simp [hflag]
        | runUntil pred d k =>
            rcases callRunUntil_cases w pred d k with
              ⟨e, hg, hw⟩ | ⟨deadline, hg, ⟨v, hv, hw⟩ | ⟨hv, hw⟩⟩
            · have hno : ¬ Suspends w pred d k := by
                rintro ⟨deadline, hok, -⟩
                rw [hg] at hok
                cases hok
              simp [hw, hno]
            · have hno : ¬ Suspends w pred d k := by
                rintro ⟨deadline', hok, hv'⟩
                rw [hg, Except.ok.injEq] at hok
                rw [← hok, hv] at hv'
                cases hv'
              have hended := (hp.openCall (guards_flag hg) pred deadline k).ended
                (r := w.newCall pred deadline k) rfl
              simp [hw, hno, hended.flag, guards_flag hg]
            · have hyes : Suspends w pred d k := ⟨deadline, hg, hv⟩
              have hflag : ((w.openCall pred deadline k).awaitCall
                (w.newCall pred deadline k)).runUntilActive = true := rfl
              simp [hw, hyes, hflag]
        | _ => cases ho
  · have hsame : q.world.runUntilActive = p.world.runUntilActive := by
      rcases h.cases with h | h | ⟨-, h⟩ | ⟨o, hop, ho, -⟩
      · exact h.runUntilActive
      · exact h.runUntilActive
      · rw [h]
        rfl
      · exact absurd ⟨o, hop, ho⟩ hm
    have hend : m ≠ .op .endRunUntil := fun h => hm ⟨_, h, rfl⟩
    have hcall : ¬ ∃ pred d k, m = .op (.runUntil pred d k) ∧
        Suspends p.world pred d k := by
      rintro ⟨pred, d, k, h, -⟩
      exact hm ⟨_, h, rfl⟩
    simp [hsame, hend, hcall]

/-- Nothing but a clearing takes a hook of others out of the list. -/
theorem Moves.others {p q : Point ρ μ κ υ ε} {m : Move μ κ υ ε}
    (hp : Exclusive p.world) (h : Moves p m q) (hm : m ≠ .clear) :
    p.world.hooks.filter (!·.isCheck) <+: q.world.hooks.filter (!·.isCheck) := by
  rcases h.cases with h | h | ⟨hclear, -⟩ | ⟨o, -, ho, h⟩
  · obtain ⟨added, hadded, -⟩ := h.hooks
    rw [hadded, List.filter_append]
    exact List.prefix_append _ _
  · rw [h.hooks]
  · exact absurd hclear hm
  · rw [h]
    cases o with
    | endRunUntil =>
        show _ <+: p.world.endRunUntil.hooks.filter _
        cases hr : p.world.runUntil with
        | none => simp only [World.endRunUntil, hr, List.prefix_rfl]
        | some r =>
            rw [(hp.ended hr).hooks, List.filter_filter]
            simp
    | runUntil pred d k =>
        rcases callRunUntil_cases p.world pred d k with
          ⟨e, -, hw⟩ | ⟨deadline, hguards, ⟨v, -, hw⟩ | ⟨-, hw⟩⟩
        · rw [hw]
        · rw [hw, hp.openCall_ended (guards_flag hguards)]
        · rw [hw]
          show _ <+:
            (p.world.hooks ++ [Hook.check p.world.nextCall]).filter _
          rw [List.filter_append]
          exact List.prefix_append _ _
    | _ => cases ho

/-- In every world that a drive passes through: the flag is set as long as a
call is suspended; a call made meanwhile is refused and changes nothing; a way
out of the call, whenever it is taken, leaves nothing of it and raises nothing,
and one that is decided at once takes it at once. As long as the list is not
cleared, the hooks of others stay in it, in their order. -/
theorem run_until_cleans_up {netRng faultsRng : ρ} {user : υ}
    {maxSteps : Option ℕ} {script : ℕ → List (List (UserOp μ κ υ ε))}
    {horizon : ℕ} {ms : List (Move μ κ υ ε)} {p : Point ρ μ κ υ ε}
    (h : Walk Moves
      ⟨init netRng faultsRng user maxSteps script horizon, false⟩ ms p) :
    (p.world.runUntilActive = p.world.runUntil.isSome ∧
      ∀ m q, Moves p m q → (q.world.runUntilActive = true ↔
        (p.world.runUntilActive = true ∧ m ≠ .op .endRunUntil) ∨
        ∃ pred d k, m = .op (.runUntil pred d k) ∧
          Suspends p.world pred d k)) ∧
    (p.world.runUntilActive = true → ∀ pred d k,
      p.world.runUntilGuards d = .error .concurrent ∧
      userOp (.runUntil pred d k) p.world = (.ok (), p.world)) ∧
    (∀ r, p.world.runUntil = some r →
      Ended r p.world p.world.endRunUntil ∧ ∀ valueError e,
        (Exec.andFinally (Exec.raise e) (runUntilFinally valueError r) :
          Run ρ μ κ υ ε Unit) p.world = (.raised e, p.world.endRunUntil)) ∧
    (∀ pred d k deadline v, p.world.runUntilGuards d = .ok deadline →
      (p.world.newCall pred deadline k).verdict p.world.steps p.world.view =
        some v →
      ∃ w, userOp (.runUntil pred d k) p.world = (.ok (), w) ∧
        Ended (p.world.newCall pred deadline k)
          (p.world.openCall pred deadline k) w ∧
        w.hooks = p.world.hooks) ∧
    ∀ ms' q, Walk Moves p ms' q → .clear ∉ ms' →
      p.world.hooks.filter (!·.isCheck) <+:
        q.world.hooks.filter (!·.isCheck) := by
  have hexclusive : Exclusive p.world :=
    h.invariant (I := fun p => Exclusive p.world) Moves.exclusive
      (init_exclusive _ _ _ _ _ _)
  refine ⟨⟨hexclusive.flag, fun m q hm => hm.flag_iff hexclusive⟩, ?_, ?_, ?_,
    ?_⟩
  · intro hactive pred d k
    have hguards : p.world.runUntilGuards d = .error .concurrent := by
      simp only [runUntilGuards, hactive, if_true]
    refine ⟨hguards, ?_⟩
    rcases callRunUntil_cases p.world pred d k with ⟨e, -, hw⟩ | ⟨_, hg, -⟩
    · exact hw
    · rw [hguards] at hg
      cases hg
  · intro r hr
    refine ⟨hexclusive.ended hr, fun valueError e => ?_⟩
    simp only [Exec.andFinally, bind, Exec.attempt, Exec.raise,
      runUntilFinally_eq hr, Exec.reraise]
  · intro pred d k deadline v hg hv
    have hflag := guards_flag hg
    refine ⟨_, ?_, (hexclusive.openCall hflag pred deadline k).ended rfl,
      hexclusive.openCall_ended hflag pred deadline k⟩
    rcases callRunUntil_cases p.world pred d k with
      ⟨e, hg', -⟩ | ⟨deadline', hg', ⟨_, -, hw⟩ | ⟨hv', -⟩⟩
    · rw [hg] at hg'
      cases hg'
    · rw [hg, Except.ok.injEq] at hg'
      rw [hg']
      exact hw
    · rw [hg, Except.ok.injEq] at hg'
      rw [← hg', hv] at hv'
      cases hv'
  · intro ms' q hwalk hclear
    induction hwalk with
    | nil => exact List.prefix_rfl
    | snoc hw hm ih =>
        rw [List.mem_append, not_or, List.mem_singleton] at hclear
        have hq := hw.invariant (I := fun p => Exclusive p.world)
          Moves.exclusive hexclusive
        exact (ih hclear.1).trans (hm.others hq (Ne.symm hclear.2))

/-- At every point of a drive, and where it ends, the flag is set as long as a
call is suspended, no hook of another call is left, and the way out of the call
leaves nothing of it. -/
theorem drive_exclusive [DecidableEq ε] {netRng faultsRng : ρ} {user : υ}
    {maxSteps : Option ℕ} {script : ℕ → List (List (UserOp μ κ υ ε))}
    {horizon : ℕ} {main : κ} {p : Point ρ μ κ υ ε}
    (h : OnDrive main (init netRng faultsRng user maxSteps script horizon) p) :
    Exclusive p.world ∧ ∀ r, p.world.runUntil = some r →
      Ended r p.world p.world.endRunUntil := by
  have hexclusive : Exclusive p.world :=
    h.invariant (I := fun p => Exclusive p.world) Moves.exclusive
      (init_exclusive _ _ _ _ _ _)
  exact ⟨hexclusive, fun r hr => hexclusive.ended hr⟩

/-- A call that its first check does not decide. -/
def polling : World Toggle ℕ ℕ ℕ Plain :=
  (userOp (.runUntil (fun _ => .fails) (some (.int 5)) 7)
    (init Toggle.low Toggle.low 0 none (fun _ => []) 0)).2

theorem run_until_cleans_up_polling : ∃ r, polling.runUntil = some r ∧
    polling.runUntilActive = true ∧ Ended r polling polling.endRunUntil := by
  have hwalk : Walk Moves
      ⟨init Toggle.low Toggle.low 0 none (fun _ => []) 0, false⟩ _
      ⟨polling, false⟩ :=
    .single (.op _ false (.runUntil (fun _ => .fails) (some (.int 5)) 7))
  obtain ⟨⟨hflag, -⟩, -, hended, -⟩ := run_until_cleans_up hwalk
  obtain ⟨r, hr⟩ : ∃ r, polling.runUntil = some r :=
    Option.isSome_iff_exists.mp (by decide +kernel)
  refine ⟨r, hr, ?_, (hended r hr).1⟩
  rw [hflag]
  simp only [hr]
  rfl

end World

end Seedloop
