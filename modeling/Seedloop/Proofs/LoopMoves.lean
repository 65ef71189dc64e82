import Seedloop.Ref.Sim

/-!
# What a move does to the loop

The network, the world and user code reach the loop through seven moves and no
others. `Loop.step` is the machine of those moves, and this file says once
what each can do: `beginStep_spec` is the whole of `_run_once` before its
batch, and `step_loop` is the reason nothing about timers has to be proved of
the network — whatever it does, its loop moves.
-/

namespace Seedloop

namespace Loop

variable {κ : Type}

/-- A move of the loop. -/
inductive Move (κ : Type) where
  | callSoon (callback : κ)
  | callAt (when : When) (callback : κ)
  | cancel (id : ℕ)
  | stop
  | clearStop
  | beginStep (stopStep : Bool)
  | popReady

/-- The machine of the moves. -/
def step (l : Loop κ) : Move κ → Option (Loop κ)
  | .callSoon callback => some (l.callSoon callback)
  | .callAt when callback => some (l.callAt when callback)
  | .cancel id => some (l.cancel id)
  | .stop => some l.stop
  | .clearStop => some { l with stopping := false }
  | .beginStep stopStep => some (l.beginStep stopStep).1
  | .popReady =>
      match l.ready with
      | [] => none
      | _ :: rest => some { l with ready := rest }

/-- The timers a move promotes. -/
def promotedBy (l : Loop κ) : Move κ → List (Timer κ)
  | .beginStep stopStep => l.promotedAt stopStep
  | _ => []

/-! ## The promotion of due timers -/

theorem isDue_of_le {l : Loop κ} {t u : Timer κ} (h : t.key ≤ u.key)
    (hu : l.isDue u = true) : l.isDue t = true := by
  simp only [isDue, decide_eq_true_eq] at hu ⊢
  refine le_trans ?_ hu
  rcases Prod.Lex.toLex_le_toLex.mp h with hlt | ⟨heq, _⟩
  · exact hlt.le
  · exact heq.le

theorem mem_promoted {l : Loop κ} {t : Timer κ} :
    t ∈ l.promoted ↔
      t ∈ l.timers.entries ∧ t.when ≤ .fin l.time ∧
        t.handle.id ∉ l.cancelled := by
  have hsplit := l.timers.takeWhile_append_dropWhile l.isDue
  simp only [promoted, List.mem_filter, isCancelled, Bool.not_eq_true',
    decide_eq_false_iff_not]
  constructor
  · rintro ⟨ht, hc⟩
    have hdue : l.isDue t = true := List.mem_takeWhile_imp ht
    refine ⟨?_, by simpa [isDue] using hdue, hc⟩
    rw [← hsplit]
    exact List.mem_append_left _ ht
  · rintro ⟨ht, hdue, hc⟩
    refine ⟨?_, hc⟩
    rw [← hsplit] at ht
    rcases List.mem_append.mp ht with h | h
    · exact h
    · have hno := l.timers.not_of_mem_dropWhile isDue_of_le h
      simp [isDue, hdue] at hno

/-- What is left in the heap is not due. -/
theorem mem_fireDueTimers {l : Loop κ} {t : Timer κ} :
    t ∈ l.fireDueTimers.timers.entries ↔
      t ∈ l.timers.entries ∧ .fin l.time < t.when := by
  have hsplit := l.timers.takeWhile_append_dropWhile l.isDue
  constructor
  · intro ht
    have hno := l.timers.not_of_mem_dropWhile isDue_of_le ht
    exact ⟨PQueue.mem_of_mem_dropWhile ht, by simpa [isDue] using hno⟩
  · rintro ⟨ht, hlt⟩
    rw [← hsplit] at ht
    rcases List.mem_append.mp ht with h | h
    · have hdue : l.isDue t = true := List.mem_takeWhile_imp h
      simp only [isDue, decide_eq_true_eq] at hdue
      exact absurd hdue (not_le.mpr hlt)
    · exact h

theorem fireDueTimers_sublist (l : Loop κ) :
    l.fireDueTimers.timers.entries.Sublist l.timers.entries :=
  List.dropWhile_sublist _

/-! ## The autojump -/

theorem mem_purgeCancelledTimers {l : Loop κ} {t : Timer κ}
    (hc : t.handle.id ∉ l.cancelled) :
    t ∈ l.purgeCancelledTimers.timers.entries ↔ t ∈ l.timers.entries := by
  constructor
  · exact PQueue.mem_of_mem_dropWhile
  · intro ht
    have hsplit := l.timers.takeWhile_append_dropWhile
      fun t => l.isCancelled t.handle
    rw [← hsplit] at ht
    rcases List.mem_append.mp ht with h | h
    · have : l.isCancelled t.handle = true :=
        List.mem_takeWhile_imp
          (p := fun t : Timer κ => l.isCancelled t.handle) h
      simp only [isCancelled, decide_eq_true_eq] at this
      exact absurd this hc
    · exact h

/-- After the purge the front of the heap is live. -/
theorem purge_head_live {l : Loop κ} {t : Timer κ}
    (h : l.purgeCancelledTimers.timers.head? = some t) :
    t ∈ l.timers.entries ∧ t.handle.id ∉ l.cancelled := by
  have hnot := List.head?_dropWhile_not
    (fun t => l.isCancelled t.handle) l.timers.entries
  have hd : (l.timers.entries.dropWhile fun t => l.isCancelled t.handle).head?
      = some t := h
  rw [hd] at hnot
  refine ⟨?_, by simpa [isCancelled] using hnot⟩
  obtain ⟨rest, hrest⟩ := List.head?_eq_some_iff.mp hd
  exact (List.dropWhile_sublist _).subset (by rw [hrest]; simp)

/-- The three ways an autojump goes: it does not look at the heap, it jumps to
the head of the purged heap, or the purged heap has nothing to wait for. -/
theorem autojump_cases (l : Loop κ) (stopStep : Bool) :
    (¬ (l.ready = [] ∧ stopStep = false) ∧
      l.autojump stopStep = (l, false)) ∨
    (l.ready = [] ∧ stopStep = false ∧ ∃ t,
      l.purgeCancelledTimers.timers.head? = some t ∧ t.when ≠ .posInf ∧
      l.autojump stopStep =
        ({ l.purgeCancelledTimers with time := jumpTo l.time t.when }, false)) ∨
    (l.ready = [] ∧ stopStep = false ∧
      (∀ t, l.purgeCancelledTimers.timers.head? = some t →
        t.when = .posInf) ∧
      l.autojump stopStep = (l.purgeCancelledTimers, !l.stopping)) := by
  unfold autojump
  by_cases hc : l.ready = [] ∧ stopStep = false
  · obtain ⟨hr, hs⟩ := hc
    right
    rw [if_pos (by simp [hr, hs])]
    dsimp only
    cases hh : l.purgeCancelledTimers.timers.head? with
    | none => exact .inr ⟨hr, hs, by simp, rfl⟩
    | some t =>
        by_cases hw : t.when = .posInf
        · right
          refine ⟨hr, hs, ?_, ?_⟩
          · intro u hu
            rw [Option.some.injEq] at hu
            exact hu ▸ hw
          · simp only [hw, ne_eq, not_true, if_false]
            rfl
        · left
          refine ⟨hr, hs, t, rfl, hw, ?_⟩
          simp only [ne_eq, hw, not_false_eq_true, if_true]
          rfl
  · left
    refine ⟨hc, if_neg ?_⟩
    simpa [List.isEmpty_iff] using hc

theorem jumpTo_le {time q : ℚ} {w : When} (hw : w ≠ .posInf) :
    jumpTo time w ≤ q ↔ time ≤ q ∧ w ≤ .fin q := by
  cases w <;> simp_all [jumpTo]

theorem le_jumpTo (time : ℚ) (w : When) : time ≤ jumpTo time w := by
  cases w <;> simp [jumpTo]

/-- What the autojump leaves alone, and what it can do to the clock: nothing,
or move it to the deadline of a live timer that no live timer precedes. -/
theorem autojump_spec (l : Loop κ) (stopStep : Bool) :
    ∃ l' dead, l.autojump stopStep = (l', dead) ∧
      l'.ready = l.ready ∧ l'.cancelled = l.cancelled ∧
      l'.timerSeq = l.timerSeq ∧ l'.nextHandle = l.nextHandle ∧
      l'.timers.entries.Sublist l.timers.entries ∧
      (∀ t, t.handle.id ∉ l.cancelled →
        (t ∈ l'.timers.entries ↔ t ∈ l.timers.entries)) ∧
      (l'.time = l.time ∨
        l.time < l'.time ∧ dead = false ∧
        (∃ t ∈ l.timers.entries, t.handle.id ∉ l.cancelled ∧
          t.when = .fin l'.time) ∧
        ∀ t ∈ l.timers.entries, t.handle.id ∉ l.cancelled →
          .fin l'.time ≤ t.when) := by
  have hpurge : l.purgeCancelledTimers.timers.entries.Sublist
      l.timers.entries := List.dropWhile_sublist _
  rcases autojump_cases l stopStep with
    ⟨-, h⟩ | ⟨-, -, t, ht, hw, h⟩ | ⟨-, -, -, h⟩
  · exact ⟨_, _, h, rfl, rfl, rfl, rfl, .refl _, fun _ _ => .rfl, .inl rfl⟩
  · refine ⟨_, _, h, rfl, rfl, rfl, rfl, hpurge,
      fun u hu => mem_purgeCancelledTimers hu, ?_⟩
    obtain ⟨hmem, hlive⟩ := purge_head_live ht
    by_cases hle : jumpTo l.time t.when ≤ l.time
    · exact .inl (le_antisymm hle (le_jumpTo _ _))
    · right
      have heq : t.when = .fin (jumpTo l.time t.when) := by
        cases htw : t.when with
        | posInf => exact absurd htw hw
        | negInf => rw [htw] at hle; simp [jumpTo] at hle
        | fin q =>
            rw [htw] at hle
            simp only [jumpTo, max_le_iff, le_refl, true_and, not_le] at hle
            simp [jumpTo, max_eq_right hle.le]
      refine ⟨lt_of_not_ge hle, rfl, ⟨t, hmem, hlive, heq⟩, ?_⟩
      intro u hu huc
      have hu' := (mem_purgeCancelledTimers huc).mpr hu
      have hkey := PQueue.head_le ht hu'
      show When.fin (jumpTo l.time t.when) ≤ u.when
      rw [← heq]
      rcases Prod.Lex.toLex_le_toLex.mp hkey with hlt | ⟨he, -⟩
      · exact hlt.le
      · exact he.le
  · exact ⟨_, _, h, rfl, rfl, rfl, rfl, hpurge,
      fun u hu => mem_purgeCancelledTimers hu, .inl rfl⟩

/-! ## A whole step before its batch -/

/-- `beginStep` and what it promotes, in terms of the autojump. -/
theorem beginStep_eq (l : Loop κ) (stopStep : Bool) :
    (∃ l', l.autojump stopStep = (l', true) ∧
      (l.beginStep stopStep).1 = l' ∧ l.promotedBy (.beginStep stopStep) = []) ∨
    (∃ l', l.autojump stopStep = (l', false) ∧
      (l.beginStep stopStep).1 = l'.fireDueTimers ∧
      l.promotedBy (.beginStep stopStep) = l'.promoted) := by
  simp only [beginStep, promotedBy, promotedAt]
  rcases l.autojump stopStep with ⟨l', _ | _⟩
  · exact .inr ⟨l', rfl, rfl, rfl⟩
  · exact .inl ⟨l', rfl, rfl, rfl⟩

/-- Everything a `beginStep` does. A timer it promotes was live in the heap and
is due at the new clock; a live timer it does not promote stays, and is later
than everything promoted; and a clock that moved stands at the deadline of a
live timer, promoted in this very step, that no live timer precedes. -/
theorem beginStep_spec {l l' : Loop κ} {b : Bool}
    (h : (l.beginStep b).1 = l') :
    l'.cancelled = l.cancelled ∧ l'.timerSeq = l.timerSeq ∧
    l'.nextHandle = l.nextHandle ∧ l.time ≤ l'.time ∧
    l'.ready = l.ready ++ (l.promotedBy (.beginStep b)).map Timer.handle ∧
    l'.timers.entries.Sublist l.timers.entries ∧
    (l.promotedBy (.beginStep b)).Sublist l.timers.entries ∧
    (∀ t ∈ l.promotedBy (.beginStep b),
      t.when ≤ .fin l'.time ∧ t.handle.id ∉ l.cancelled ∧
        t ∉ l'.timers.entries) ∧
    (∀ t ∈ l.timers.entries, t.handle.id ∉ l.cancelled →
      t ∉ l.promotedBy (.beginStep b) →
      t ∈ l'.timers.entries ∧
        ∀ u ∈ l.promotedBy (.beginStep b), u.when < t.when) ∧
    (l'.time = l.time ∨
      (∃ t ∈ l.promotedBy (.beginStep b), t.when = .fin l'.time) ∧
      ∀ t ∈ l.timers.entries, t.handle.id ∉ l.cancelled →
        .fin l'.time ≤ t.when) := by
  obtain ⟨m, dead, hm, hready, hcanc, hseq, hnext, hsub, hlive, htime⟩ :=
    autojump_spec l b
  have hle : l.time ≤ m.time := by
    rcases htime with h | ⟨h, -⟩
    · exact h.ge
    · exact h.le
  rcases beginStep_eq l b with ⟨x, hx, hl', hp⟩ | ⟨x, hx, hl', hp⟩
  · rw [hm, Prod.mk.injEq] at hx
    obtain ⟨rfl, rfl⟩ := hx
    rw [h] at hl'
    subst hl'
    rw [hp]
    refine ⟨hcanc, hseq, hnext, hle, by simp [hready], hsub, by simp, by simp,
      fun t ht hc _ => ⟨(hlive t hc).mpr ht, by simp⟩, ?_⟩
    rcases htime with h | ⟨-, h, -⟩
    · exact .inl h
    · cases h
  · rw [hm, Prod.mk.injEq] at hx
    obtain ⟨rfl, rfl⟩ := hx
    rw [h] at hl'
    subst hl'
    rw [hp]
    refine ⟨hcanc, hseq, hnext, hle, ?_, (fireDueTimers_sublist m).trans hsub,
      ?_, ?_, ?_, ?_⟩
    · show m.ready ++ _ = _
      rw [hready]
    · exact (List.filter_sublist.trans (List.takeWhile_sublist _)).trans hsub
    · intro t ht
      obtain ⟨-, hdue, hc⟩ := mem_promoted.mp ht
      refine ⟨hdue, hcanc ▸ hc, fun hmem => ?_⟩
      exact absurd hdue (not_le.mpr (mem_fireDueTimers.mp hmem).2)
    · intro t ht hc hnot
      have hmem := (hlive t hc).mpr ht
      have hlt : When.fin m.time < t.when := by
        rw [← not_le]
        intro hdue
        exact hnot (mem_promoted.mpr ⟨hmem, hdue, hcanc ▸ hc⟩)
      exact ⟨mem_fireDueTimers.mpr ⟨hmem, hlt⟩,
        fun u hu => lt_of_le_of_lt (mem_promoted.mp hu).2.1 hlt⟩
    · rcases htime with h | ⟨-, -, ⟨t, ht, hc, heq⟩, hall⟩
      · exact .inl h
      · refine .inr ⟨⟨t, mem_promoted.mpr ⟨(hlive t hc).mpr ht, ?_, hcanc ▸ hc⟩,
          heq⟩, hall⟩
        exact heq.le

theorem beginStep_stopping (l : Loop κ) (stopStep : Bool) :
    (l.beginStep stopStep).1.stopping = l.stopping := by
  have hauto : (l.autojump stopStep).1.stopping = l.stopping := by
    rcases autojump_cases l stopStep with
      ⟨-, h⟩ | ⟨-, -, t, -, -, h⟩ | ⟨-, -, -, h⟩
    · rw [h]
    · rw [h]
      rfl
    · rw [h]
      rfl
  rcases beginStep_eq l stopStep with ⟨l', hl, h, -⟩ | ⟨l', hl, h, -⟩
  · rw [h, ← hauto, hl]
  · rw [h, ← hauto, hl]
    rfl

/-- The clock stands still while anything is ready. -/
theorem beginStep_time_of_ready {l : Loop κ} (h : l.ready ≠ [])
    (stopStep : Bool) : (l.beginStep stopStep).1.time = l.time := by
  have hauto : l.autojump stopStep = (l, false) := by
    rcases autojump_cases l stopStep with
      ⟨-, h'⟩ | ⟨hr, -⟩ | ⟨hr, -⟩
    · exact h'
    · exact absurd hr h
    · exact absurd hr h
  rw [beginStep, hauto]
  rfl

end Loop

end Seedloop
