import Seedloop.Proofs.Deadlock
import Seedloop.Ref.Drive

/-!
# What every move keeps, a drive keeps

A drive is put together from few things: operations of user code, the beginning
of a step, handles that are taken off the ready queue, the checks after a step,
and what the drive writes down for itself. A preorder that goes along each of
these goes along the whole drive, whatever way it takes through its loops and
`finally` blocks and however it ends.
-/

namespace Seedloop

namespace World

variable {ρ μ κ υ ε : Type}

/-- What the loop and the drive write down for themselves. -/
def Bookkeeping (w w' : World ρ μ κ υ ε) : Prop :=
  w' = { w with
    tearingDown := w'.tearingDown, hooks := w'.hooks, watch := w'.watch
    stopIn := w'.stopIn, settle := w'.settle, stepsLeft := w'.stepsLeft
    stepError := w'.stepError, gather := w'.gather, notes := w'.notes
    steps := w'.steps, closed := w'.closed, log := w'.log }

/-- A world with another loop under its network. -/
def withLoop (w : World ρ μ κ υ ε) (loop : Loop (Callback μ (Job κ))) :
    World ρ μ κ υ ε :=
  { w with net := { w.net with loop := loop } }

variable [Raisable ε]

/-- What a check of `run_until` does is resolve a call. -/
theorem check_within {R : World ρ μ κ υ ε → World ρ μ κ υ ε → Prop}
    (hrefl : ∀ w, R w w)
    (hresolved : ∀ w r d, w.runUntil = some r → R w (w.resolve r d))
    (call : ℕ) :
    Exec.Within R (World.check call : Run ρ μ κ υ ε (Option (Exc ε))) := by
  refine Exec.within_look fun w => ?_
  cases hr : w.runUntil with
  | none => exact hrefl w
  | some r =>
      have hresolve : ∀ d, R w (w.resolve r d) := fun d => hresolved w r d hr
      dsimp only
      split
      · exact hrefl w
      · cases r.predicate w.view with
        | holds => exact hresolve _
        | raises e =>
            dsimp only
            split
            · exact hresolve _
            · exact hrefl w
        | fails =>
            cases r.deadline with
            | none => exact hrefl w
            | some d =>
                cases r.deadlineAt with
                | none => exact hrefl w
                | some t =>
                    dsimp only
                    split
                    · exact hresolve _
                    · exact hrefl w

variable [Random ρ]

/-- A preorder along which everything goes that a drive is put together
from. -/
structure Kept (R : World ρ μ κ υ ε → World ρ μ κ υ ε → Prop) : Prop where
  refl : ∀ w, R w w
  trans : ∀ {w w' w''}, R w w' → R w' w'' → R w w''
  bookkeeping : ∀ {w w'}, Bookkeeping w w' → R w w'
  userOp : ∀ o, Exec.Within R (userOp o)
  beginStep : ∀ w b, R w (w.withLoop (w.net.loop.beginStep b).1)
  skipped : ∀ {w h ready}, w.net.loop.ready = h :: ready →
    w.net.loop.isCancelled h = true →
    R w (w.withLoop { w.net.loop with ready := ready })
  ran : ∀ {w h ready} (v : World ρ μ κ υ ε), w.net.loop.ready = h :: ready →
    v = w.withLoop { w.net.loop with ready := ready } →
    w.net.loop.isCancelled h = false →
    R w { v with net := v.net.runCallback h.callback }
  gatherChild : ∀ w, R w w.gatherChild
  stopping : ∀ w b, R w (w.withLoop { w.net.loop with stopping := b })
  resolved : ∀ w r d, w.runUntil = some r → R w (w.resolve r d)

namespace Kept

variable {R : World ρ μ κ υ ε → World ρ μ κ υ ε → Prop} (hR : Kept R)

include hR

theorem pure {α : Type} (a : α) :
    Exec.Within R (Pure.pure a : Run ρ μ κ υ ε α) := fun w => hR.refl w

theorem raise {α : Type} (e : Exc ε) :
    Exec.Within R (Exec.raise e : Run ρ μ κ υ ε α) := fun w => hR.refl w

theorem bind {α β : Type} {x : Run ρ μ κ υ ε α} {f : α → Run ρ μ κ υ ε β}
    (hx : Exec.Within R x) (hf : ∀ a, Exec.Within R (f a)) :
    Exec.Within R (x >>= f) :=
  haveI : IsTrans _ R := ⟨fun _ _ _ => hR.trans⟩
  hx.bind hf

theorem andFinally {α : Type} {x : Run ρ μ κ υ ε α} {f : Run ρ μ κ υ ε Unit}
    (hx : Exec.Within R x) (hf : Exec.Within R f) :
    Exec.Within R (Exec.andFinally x f) :=
  haveI : Std.Refl R := ⟨hR.refl⟩
  haveI : IsTrans _ R := ⟨fun _ _ _ => hR.trans⟩
  hx.andFinally hf

theorem forEach {γ : Type} {f : γ → Run ρ μ κ υ ε Unit}
    (hf : ∀ a, Exec.Within R (f a)) (as : List γ) :
    Exec.Within R (Exec.forEach f as) :=
  haveI : Std.Refl R := ⟨hR.refl⟩
  haveI : IsTrans _ R := ⟨fun _ _ _ => hR.trans⟩
  .forEach hf as

theorem whileDo {cond : World ρ μ κ υ ε → Bool} {x : Run ρ μ κ υ ε Unit}
    (hx : Exec.Within R x) (n : ℕ) : Exec.Within R (Exec.whileDo cond x n) :=
  haveI : Std.Refl R := ⟨hR.refl⟩
  haveI : IsTrans _ R := ⟨fun _ _ _ => hR.trans⟩
  hx.whileDo n

theorem doUntil {stop : World ρ μ κ υ ε → Bool} {x : Run ρ μ κ υ ε Unit}
    (hx : Exec.Within R x) (n : ℕ) : Exec.Within R (Exec.doUntil stop x n) :=
  haveI : Std.Refl R := ⟨hR.refl⟩
  haveI : IsTrans _ R := ⟨fun _ _ _ => hR.trans⟩
  hx.doUntil n

theorem books {f : World ρ μ κ υ ε → World ρ μ κ υ ε}
    (h : ∀ w, Bookkeeping w (f w)) :
    Exec.Within R (Exec.update f : Run ρ μ κ υ ε Unit) :=
  fun w => hR.bookkeeping (h w)

theorem clearHooks :
    Exec.Within R (Exec.update World.clearHooks : Run ρ μ κ υ ε Unit) :=
  hR.books fun _ => rfl

theorem fail {α : Type} (e : Exc ε) :
    Exec.Within R (World.fail e : Run ρ μ κ υ ε α) :=
  hR.bind (hR.books fun _ => rfl) fun _ => hR.raise e

theorem interrupt {α : Type} (e : Exc ε) :
    Exec.Within R (World.interrupt e : Run ρ μ κ υ ε α) :=
  hR.bind (hR.books fun _ => rfl) fun _ => hR.raise e

/-! ## A step -/

theorem takeStep : Exec.Within R (World.takeStep : Run ρ μ κ υ ε Unit) := by
  refine .look fun w => hR.bind (hR.books fun _ => rfl) fun _ => ?_
  split
  · exact hR.books fun _ => rfl
  · exact hR.fail _
  · exact hR.books fun _ => rfl

theorem begun : Exec.Within R (World.beginStep : Run ρ μ κ υ ε Unit) := by
  refine Exec.Within.of_wp fun w => ?_
  rw [World.beginStep, Exec.wp_look_apply]
  have hloop := hR.beginStep w w.stopIn.isSome
  generalize w.net.loop.beginStep w.stopIn.isSome = x at hloop ⊢
  obtain ⟨loop, deadlock⟩ := x
  dsimp only at hloop ⊢
  rw [Exec.wp_bind]
  show Exec.wp _ _ _ _ (w.withLoop loop)
  split
  · exact (hR.fail _).wp.mono (fun _ _ => hR.trans hloop)
      (fun _ _ => hR.trans hloop) fun _ => hR.trans hloop
  · exact hloop

/-- What comes of a handle off the queue that was not cancelled. -/
theorem runJob {w : World ρ μ κ υ ε} {h : Handle (Callback μ (Job κ))}
    {ready : List (Handle (Callback μ (Job κ)))}
    (hready : w.net.loop.ready = h :: ready)
    (hlive : w.net.loop.isCancelled h = false)
    (turn : List (UserOp μ κ υ ε)) :
    R w (World.runJob h.callback turn
      (w.withLoop { w.net.loop with ready := ready })).2 := by
  have hran := hR.ran _ hready rfl hlive
  generalize h.callback = c at hran ⊢
  cases c with
  | user job =>
      cases job with
      | gatherChild => exact hR.trans hran (hR.gatherChild _)
      | stopLoop =>
          exact hR.trans hran (hR.trans (hR.stopping _ true)
            (hR.bookkeeping rfl))
      | deadline => exact hran
      | user k => exact hR.trans hran (hR.forEach hR.userOp turn _)
  | _ => exact hR.trans hran (hR.forEach hR.userOp turn _)

theorem runBatch (n : ℕ) (turns : List (List (UserOp μ κ υ ε))) :
    Exec.Within R (World.runBatch n turns : Run ρ μ κ υ ε Unit) := by
  induction n generalizing turns with
  | zero => exact hR.pure ()
  | succ n ih =>
      rw [World.runBatch]
      refine Exec.within_look fun w => ?_
      cases hready : w.net.loop.ready with
      | nil => exact hR.refl w
      | cons h ready =>
          dsimp only
          split
          · next hc => exact hR.trans (hR.skipped hready hc) (ih turns _)
          · next hc =>
            have hjob := hR.runJob hready (Bool.eq_false_iff.mpr hc)
              (turns.headD [])
            show R w ((do
              World.runJob h.callback (turns.headD [])
              World.runBatch n turns.tail : Run ρ μ κ υ ε Unit)
                (w.withLoop { w.net.loop with ready := ready })).2
            simp only [Bind.bind]
            rcases hx : World.runJob h.callback (turns.headD [])
              (w.withLoop { w.net.loop with ready := ready }) with ⟨r, v⟩
            rw [hx] at hjob
            cases r with
            | ok => exact hR.trans hjob (ih _ v)
            | raised e => exact hjob
            | pending => exact hjob

theorem checkInvariants :
    Exec.Within R (World.checkInvariants : Run ρ μ κ υ ε Unit) := by
  refine .look fun w => hR.forEach (fun p => .look fun w => ?_) w.invariants
  refine hR.bind (hR.books fun _ => rfl) fun _ => ?_
  split
  · exact hR.pure ()
  · exact hR.raise _
  · exact hR.raise _

theorem runHooks (hooks : List Hook) (first : Option (Exc ε))
    (notes : List (Exc ε)) : Exec.Within R (World.runHooks hooks first notes :
      Run ρ μ κ υ ε (Option (Exc ε) × List (Exc ε))) := by
  induction hooks generalizing first notes with
  | nil => exact hR.pure _
  | cons hook hooks ih =>
      have hhook : Exec.Within R (runHook hook : Run ρ μ κ υ ε _) := by
        cases hook with
        | checkInvariants => exact hR.bind hR.checkInvariants fun _ => hR.pure _
        | check call => exact check_within hR.refl hR.resolved call
      refine hR.bind hhook.attempt fun r => ?_
      split
      · exact ih _ _
      · exact ih _ _
      · split
        · split
          · exact hR.bind (hR.books fun _ => rfl) fun _ => ih _ _
          · exact ih _ _
        · split
          · exact hR.interrupt _
          · exact hR.bind (hR.books fun _ => rfl) fun _ => hR.raise _

theorem noteRaised {α : Type} (e : Exc ε) :
    Exec.Within R (World.noteRaised e : Run ρ μ κ υ ε α) :=
  hR.bind (hR.books fun _ => rfl) fun _ => hR.raise e

theorem afterStep : Exec.Within R (World.afterStep : Run ρ μ κ υ ε Unit) := by
  have hnote : ∀ first note : Exc ε,
      Exec.Within R (addStepNote first note : Run ρ μ κ υ ε Unit) := by
    intro first note
    rw [addStepNote]
    split
    · exact hR.books fun _ => rfl
    · exact hR.noteRaised _
    · exact hR.noteRaised _
  refine .look fun w => hR.bind (hR.books fun _ => rfl) fun _ =>
    hR.bind (hR.runHooks _ _ _) fun r => ?_
  split
  · exact hR.pure ()
  · exact hR.bind (hR.forEach (hnote _) _) fun _ => hR.raise _

theorem countStop :
    Exec.Within R (Exec.update World.countStop : Run ρ μ κ υ ε Unit) := by
  refine Exec.within_update fun w => ?_
  rw [World.countStop]
  split
  · exact hR.refl w
  · split
    · split
      · exact hR.bookkeeping rfl
      · exact hR.refl w
    · have hbooks : ∀ {u v : World ρ μ κ υ ε}, Bookkeeping u v →
          R u v.stopLoop := fun h =>
        hR.trans (hR.bookkeeping h) (hR.stopping _ true)
      dsimp only
      split
      · split
        · exact hbooks rfl
        · exact hbooks rfl
      · split
        · exact hR.bookkeeping rfl
        · exact hR.bookkeeping rfl

theorem runOnce : Exec.Within R (World.runOnce : Run ρ μ κ υ ε Unit) :=
  hR.bind hR.takeStep fun _ => hR.bind hR.begun fun _ =>
    hR.bind (.look fun _ => hR.runBatch _ _) fun _ =>
      hR.bind hR.afterStep fun _ => hR.countStop

/-! ## The drive -/

theorem runForever : Exec.Within R (World.runForever : Run ρ μ κ υ ε Unit) :=
  .look fun _ => hR.andFinally (hR.doUntil hR.runOnce _) fun w =>
    hR.stopping w false

theorem runUntilDone (fut : ℕ) (settle : Bool) :
    Exec.Within R (World.runUntilDone fut settle : Run ρ μ κ υ ε Unit) := by
  refine hR.bind (hR.books fun _ => rfl) fun _ =>
    hR.andFinally ?_ (hR.books fun _ => rfl)
  refine hR.bind hR.runForever fun _ => .look fun w => ?_
  have hlast := hR.bind (f := fun _ => World.runForever)
    (hR.books (f := fun w => { w with stopIn := some 1 }) fun _ => rfl)
    fun _ => hR.runForever
  split
  · split
    · exact hR.bind hR.clearHooks fun _ => hlast
    · exact hlast
  · exact hR.pure ()

theorem runOneMoreStep (fut : ℕ) :
    Exec.Within R (World.runOneMoreStep fut : Run ρ μ κ υ ε Unit) :=
  hR.bind (hR.books fun _ => rfl) fun _ =>
    hR.andFinally hR.runForever (hR.books fun _ => rfl)

theorem runScenario :
    Exec.Within R (World.runScenario : Run ρ μ κ υ ε Unit) := by
  refine hR.bind (hR.runUntilDone _ _) fun _ => .look fun w => ?_
  split
  · exact hR.pure ()
  · exact hR.fail _

theorem runUntilGathered :
    Exec.Within R (World.runUntilGathered : Run ρ μ κ υ ε Unit) := by
  have hpass : Exec.Within R
      (World.runUntilComplete : Run ρ μ κ υ ε Unit) := by
    refine hR.bind (hR.books fun _ => rfl) fun _ => hR.bind
      (hR.andFinally hR.runForever (hR.books fun _ => rfl)) fun _ =>
        .look fun w => ?_
    split
    · exact hR.pure ()
    · exact hR.raise _
  refine .look fun w => hR.whileDo (hR.bind hpass.attempt fun r => ?_) _
  split
  · exact hR.pure ()
  · refine .look fun w => ?_
    split
    · exact hR.raise _
    · split
      · exact hR.pure ()
      · exact hR.raise _
      · exact hR.noteRaised _

theorem cancelTasks (pending : List ℕ) :
    Exec.Within R (Exec.update fun w => pending.foldl cancelTask w :
      Run ρ μ κ υ ε Unit) := by
  intro w
  show R w (pending.foldl cancelTask w)
  induction pending generalizing w with
  | nil => exact hR.refl w
  | cons t pending ih =>
      exact hR.trans (hR.userOp (.cancelTask t) w) (ih _)

theorem cancelRounds (rounds : ℕ) :
    Exec.Within R (World.cancelRounds rounds : Run ρ μ κ υ ε Unit) := by
  induction rounds with
  | zero => exact .look fun w => hR.fail _
  | succ rounds ih =>
      refine .look fun w => ?_
      dsimp only
      split
      · exact hR.pure ()
      · exact hR.bind (hR.books fun _ => rfl) fun _ =>
          hR.bind (hR.cancelTasks _) fun _ =>
            hR.bind (hR.books fun _ => rfl) fun _ =>
              hR.bind (hR.books fun _ => rfl) fun _ =>
                hR.bind hR.runUntilGathered fun _ => ih

section

variable [DecidableEq ε]

theorem noteError (failure e : Exc ε) :
    Exec.Within R (World.noteError failure e : Run ρ μ κ υ ε Unit) := by
  rw [World.noteError]
  split
  · refine .look fun w => ?_
    split
    · exact hR.pure ()
    · split
      · exact hR.books fun _ => rfl
      · split
        · exact hR.pure ()
        · exact hR.noteRaised _
  · exact hR.noteRaised _

theorem secondary (failure : Option (Exc ε)) {x : Run ρ μ κ υ ε Unit}
    (hx : Exec.Within R x) :
    Exec.Within R (World.secondary failure x) := by
  refine hR.bind hx.attempt fun r => ?_
  split
  · exact hR.pure ()
  · split
    · split
      · exact hR.raise _
      · exact hR.noteError _ _
    · exact hR.raise _

theorem noteReplaced (failure : Option (Exc ε)) (e : Exc ε) :
    Exec.Within R (World.noteReplaced failure e : Run ρ μ κ υ ε Unit) := by
  unfold World.noteReplaced
  split
  · split
    · exact hR.noteError _ _
    · exact hR.pure ()
  · exact hR.pure ()

/-- The scenario's task is cancelled and run until it is done. -/
theorem unwindScenario (failure : Option (Exc ε)) :
    Exec.Within R (do
      Exec.update (·.cancelTask mainTask)
      World.secondary failure (Exec.look fun w =>
        Exec.whileDo (fun w => !w.done mainTask)
          (World.runUntilDone mainTask false) w.fuel)
      noteUnwound failure : Run ρ μ κ υ ε Unit) := by
  refine hR.bind (hR.userOp (.cancelTask mainTask)) fun _ =>
    hR.bind (hR.secondary _ (.look fun w => hR.whileDo (hR.runUntilDone _ _) _))
      fun _ => .look fun w => ?_
  split
  · split
    · exact hR.noteError _ _
    · exact hR.pure ()
  · exact hR.pure ()

theorem settleScenario (failure : Option (Exc ε)) :
    Exec.Within R (World.settleScenario failure : Run ρ μ κ υ ε Unit) := by
  refine hR.bind (hR.books fun _ => rfl) fun _ => ?_
  split
  · refine hR.bind hR.clearHooks fun _ => .look fun w => ?_
    split
    · exact hR.unwindScenario failure
    · exact hR.secondary _ (hR.runOneMoreStep _)
  · refine Exec.Within.look fun w => ?_
    split
    · exact hR.unwindScenario failure
    · exact hR.pure ()

theorem settleRun (ran : Except (Exc ε) Unit) :
    Exec.Within R (World.settleRun ran : Run ρ μ κ υ ε Unit) := by
  have hran : Exec.Within R (Exec.reraise ran : Run ρ μ κ υ ε Unit) := by
    cases ran with
    | ok => exact hR.pure ()
    | error e => exact hR.raise e
  have hmain : Exec.Within R (mainResult : Run ρ μ κ υ ε Unit) := by
    refine .look fun w => ?_
    split
    · exact hR.pure ()
    · exact hR.raise _
    · exact hR.raise _
    · exact hR.raise _
  have hnodes : Exec.Within R (nodeFailures : Run ρ μ κ υ ε Unit) := by
    refine .look fun w => ?_
    split
    · exact hR.raise _
    · exact hR.pure ()
  exact hR.bind (hR.settleScenario _) fun _ => hR.bind hran fun _ =>
    hR.bind hmain fun _ => hnodes

theorem surface (ran : Except (Exc ε) Unit) :
    Exec.Within R (World.surface ran : Run ρ μ κ υ ε _) := by
  refine hR.bind (hR.settleRun ran).attempt fun r => ?_
  split
  · exact hR.pure _
  · refine hR.bind (hR.noteReplaced _ _).attempt fun noted => ?_
    split
    · exact hR.pure _
    · exact hR.pure _

theorem tearDown (failure : Option (Exc ε)) :
    Exec.Within R (World.tearDown failure : Run ρ μ κ υ ε Unit) := by
  have hrest : Exec.Within R (do
      Exec.update fun w => mark { w with tearingDown := true }
        (.tearingDown failure w.pendingTasks)
      World.secondary failure cancelEverything : Run ρ μ κ υ ε Unit) :=
    hR.bind (hR.books fun _ => rfl) fun _ =>
      hR.secondary _ (hR.cancelRounds _)
  refine hR.bind (Exec.Within.attempt ?_) fun r => ?_
  · split
    · exact hR.bind hR.clearHooks fun _ => hrest
    · exact hrest
  · split
    · exact hR.pure ()
    · exact hR.bind (hR.noteReplaced _ _) fun _ => hR.raise _

/-- The rule of a drive. -/
theorem drive (main : κ) :
    Exec.Within R (World.drive main : Run ρ μ κ υ ε Unit) := by
  refine hR.bind (hR.books fun _ => rfl) fun _ =>
    hR.bind (hR.userOp (.createTask true main)) fun _ =>
      hR.bind hR.runScenario.attempt fun ran =>
        hR.bind (hR.surface ran) fun r =>
          hR.bind (hR.andFinally (hR.tearDown _) (hR.books fun _ => rfl))
            fun _ => ?_
  cases r.2 with
  | ok => exact hR.pure ()
  | error e => exact hR.raise e

end

end Kept

end World

end Seedloop
