import Seedloop.Proofs.Moves

/-!
# The order in which tasks are cancelled

A round of cancelling sorts what `asyncio.all_tasks` gives, which is a set, by
the stamp of `create_task`. Whatever order the set is gone through in, stamped
tasks come out in the order in which they were created and after the others.
Tasks without a stamp all have the same key, and since the sort is stable they
come out in the order in which they went in. So the order is fixed as long as
there is one of them, and only then.

That stamps tell tasks apart, and in the order of their creation, is an
invariant of every walk: the counter is past every stamp that was given.
-/

namespace Seedloop

namespace World

variable {ρ μ κ υ ε : Type}

/-- What the sort takes for the `_sl_seq` of a task. -/
def stamp (w : World ρ μ κ υ ε) (task : ℕ) : ℤ :=
  (w.tasks[task]?.map Task.seq).getD (-1)

/-- A task of `DeterministicLoop.create_task`. -/
def Stamped (w : World ρ μ κ υ ε) (task : ℕ) : Prop := w.stamp task ≠ -1

instance (w : World ρ μ κ υ ε) : DecidablePred w.Stamped :=
  fun task => inferInstanceAs (Decidable (w.stamp task ≠ -1))

/-- The pending tasks that have no stamp. -/
def unstamped (w : World ρ μ κ υ ε) : List ℕ :=
  w.pendingTasks.filter fun task => ¬ w.Stamped task

/-- Tasks are cancelled in one order, whatever order the set has. -/
def OrderFixed (w : World ρ μ κ υ ε) : Prop :=
  ∀ l l' : List ℕ, l.Perm w.pendingTasks → l'.Perm w.pendingTasks →
    w.byCreation l = w.byCreation l'

/-- After a stamped task come stamped tasks that were created after it. -/
def InCreationOrder (w : World ρ μ κ υ ε) : Prop :=
  ∀ l : List ℕ, l.Perm w.pendingTasks →
    (w.byCreation l).Pairwise fun s t => w.Stamped s → w.Stamped t ∧ s < t

/-! ## Stamps -/

/-- Stamps are in the order of creation, and below the one that is next. -/
structure Ordered (s : List ℤ × ℤ) : Prop where
  next_nonneg : 0 ≤ s.2
  seq : ∀ x ∈ s.1, x = -1 ∨ 0 ≤ x ∧ x < s.2
  ordered : s.1.Pairwise fun x y => x ≠ -1 → y ≠ -1 → x < y

theorem Ordered.give {s : List ℤ × ℤ} (h : Ordered s) (stamped : Bool) :
    Ordered (give s stamped) := by
  have hnext := h.next_nonneg
  cases stamped with
  | false =>
      refine ⟨hnext, fun x hx => ?_, ?_⟩
      · rcases List.mem_append.mp hx with hx | hx
        · exact h.seq x hx
        · exact .inl (List.mem_singleton.mp hx)
      · refine List.pairwise_append.mpr
          ⟨h.ordered, List.pairwise_singleton _ _, ?_⟩
        intro x _ y hy _ hyne
        exact absurd (List.mem_singleton.mp hy) hyne
  | true =>
      refine ⟨Int.add_nonneg hnext (by decide), fun x hx => ?_, ?_⟩
      · show x = -1 ∨ 0 ≤ x ∧ x < s.2 + 1
        rcases List.mem_append.mp hx with hx | hx
        · have := h.seq x hx
          omega
        · rw [List.mem_singleton] at hx
          omega
      · refine List.pairwise_append.mpr
          ⟨h.ordered, List.pairwise_singleton _ _, ?_⟩
        intro x hx y hy hxne _
        rw [List.mem_singleton] at hy
        have := h.seq x hx
        omega

theorem Ordered.foldl {s : List ℤ × ℤ} (h : Ordered s) (flags : List Bool) :
    Ordered (flags.foldl World.give s) := by
  induction flags generalizing s with
  | nil => exact h
  | cons stamped flags ih => exact ih (h.give stamped)

theorem Serves.ordered {P : Decision ε → Prop} {w w' : World ρ μ κ υ ε}
    (h : Serves P w w') (hw : Ordered w.stamps) : Ordered w'.stamps := by
  obtain ⟨flags, hflags⟩ := h.stamps
  rw [hflags]
  exact hw.foldl flags

theorem Starts.ordered {w w' : World ρ μ κ υ ε} (h : Starts w w')
    (hw : Ordered w.stamps) : Ordered w'.stamps := h.stamps.symm ▸ hw

theorem endRunUntil_stamps (w : World ρ μ κ υ ε) :
    w.endRunUntil.stamps = w.stamps := by
  rw [endRunUntil]
  split
  · rfl
  · dsimp only
    split
    · rfl
    · rfl

/-- Whatever `w'` is, it has its stamps in order if `w` has. -/
def KeepsOrder (w w' : World ρ μ κ υ ε) : Prop :=
  Ordered w.stamps → Ordered w'.stamps

instance : IsTrans (World ρ μ κ υ ε) KeepsOrder :=
  ⟨fun _ _ _ h h' hw => h' (h hw)⟩

variable [Raisable ε] [Random ρ]

omit [Random ρ] in
theorem startRunUntil_keepsOrder (p : Predicate μ υ ε)
    (deadline : Option (Num × ℚ)) (k : κ) : Exec.Within KeepsOrder
      (startRunUntil p deadline k : Run ρ μ κ υ ε Unit) := by
  refine .look fun w => .bind (fun w hw => hw) fun _ =>
    .bind (Exec.Within.attempt fun w hw => ?_) fun r => fun w hw => ?_
  · exact (check_serves (P := fun _ => True) (fun _ => trivial) _ w).ordered hw
  · show Ordered (openOrEnd r w).stamps
    have hend : Ordered w.endRunUntil.stamps :=
      (endRunUntil_stamps w).symm ▸ hw
    unfold openOrEnd
    split
    · split
      · exact hend
      · exact hw
    · exact hend

theorem userOp_keepsOrder (o : UserOp μ κ υ ε) :
    Exec.Within KeepsOrder (userOp o : Run ρ μ κ υ ε Unit) := by
  cases ho : o.isApart with
  | true =>
      intro w hw
      have hserves : Serves (fun _ => True) w (userOp o w).2 :=
        userOp_serves trivial ho w
      exact hserves.ordered hw
  | false =>
      cases o with
      | endRunUntil =>
          exact fun w hw => (endRunUntil_stamps w).symm ▸ hw
      | runUntil p d k =>
          refine .of_wp fun w => ?_
          rw [userOp, callRunUntil.eq_def, Exec.wp_look_apply]
          split
          · exact id
          · split
            · exact (startRunUntil_keepsOrder p none k).wp
            · split
              · exact (startRunUntil_keepsOrder p _ k).wp
              · exact id
      | _ => cases ho

theorem Moves.ordered {p q : Point ρ μ κ υ ε} {m : Move μ κ υ ε}
    (hp : Ordered p.world.stamps) (h : Moves p m q) :
    Ordered q.world.stamps := by
  rcases h.cases with h | h | ⟨-, h⟩ | ⟨o, -, -, h⟩
  · exact h.ordered hp
  · exact h.ordered hp
  · exact h ▸ hp
  · exact h ▸ userOp_keepsOrder o _ hp

omit [Raisable ε] [Random ρ] in
theorem init_ordered (netRng faultsRng : ρ) (user : υ) (maxSteps : Option ℕ)
    (script : ℕ → List (List (UserOp μ κ υ ε))) (horizon : ℕ) :
    Ordered (init netRng faultsRng user maxSteps script horizon).stamps :=
  ⟨le_rfl, by simp [stamps, init], by simp [stamps, init]⟩

/-! ## The order -/

section

omit [Raisable ε] [Random ρ]

variable {w : World ρ μ κ υ ε}

theorem mem_pendingTasks {task : ℕ} (h : task ∈ w.pendingTasks) :
    task < w.tasks.length :=
  List.mem_range.mp (List.mem_filter.mp h).1

theorem pendingTasks_pairwise (w : World ρ μ κ υ ε) :
    w.pendingTasks.Pairwise (· < ·) :=
  List.pairwise_lt_range.filter _

/-- Of two stamped tasks, the one that was created first has the lower
stamp. -/
theorem Ordered.stamp_lt (h : Ordered w.stamps) {s t : ℕ} (hst : s < t)
    (ht : t < w.tasks.length) (hs' : w.Stamped s) (ht' : w.Stamped t) :
    w.stamp s < w.stamp t := by
  have hs : s < w.tasks.length := hst.trans ht
  simp only [Stamped, stamp, List.getElem?_eq_getElem hs,
    List.getElem?_eq_getElem ht, Option.map_some, Option.getD_some] at hs' ht' ⊢
  have hpair := List.pairwise_iff_getElem.mp h.ordered s t
    (by simpa [stamps] using hs) (by simpa [stamps] using ht) hst
  simp only [stamps, List.getElem_map] at hpair
  exact hpair hs' ht'

theorem Ordered.neg_one_le (h : Ordered w.stamps) {t : ℕ}
    (ht : t < w.tasks.length) : w.stamp t = -1 ∨ 0 ≤ w.stamp t := by
  simp only [stamp, List.getElem?_eq_getElem ht, Option.map_some,
    Option.getD_some]
  have := h.seq w.tasks[t].seq (List.mem_map_of_mem (List.getElem_mem ht))
  omega

theorem byCreation_perm (w : World ρ μ κ υ ε) (l : List ℕ) :
    (w.byCreation l).Perm l := List.mergeSort_perm _ _

/-- The order that the sort goes by. -/
def before (w : World ρ μ κ υ ε) (s t : ℕ) : Bool := w.stamp s ≤ w.stamp t

theorem before_trans (w : World ρ μ κ υ ε) (a b c : ℕ)
    (hab : w.before a b = true) (hbc : w.before b c = true) :
    w.before a c = true := by
  simp only [before, decide_eq_true_eq] at hab hbc ⊢
  exact hab.trans hbc

theorem before_total (w : World ρ μ κ υ ε) (a b : ℕ) :
    (w.before a b || w.before b a) = true := by
  simpa [before] using le_total (w.stamp a) (w.stamp b)

theorem byCreation_pairwise (w : World ρ μ κ υ ε) (l : List ℕ) :
    (w.byCreation l).Pairwise fun s t => w.stamp s ≤ w.stamp t := by
  have hsorted := List.pairwise_mergeSort w.before_trans w.before_total l
  exact hsorted.imp fun h => by simpa [before] using h

/-- The sort leaves tasks with equal keys in the order they came in. -/
theorem byCreation_stable {l : List ℕ} {s t : ℕ}
    (hst : w.stamp s ≤ w.stamp t) (h : [s, t].Sublist l) :
    [s, t].Sublist (w.byCreation l) :=
  List.pair_sublist_mergeSort w.before_trans w.before_total
    (decide_eq_true hst) h

theorem Ordered.inCreationOrder (h : Ordered w.stamps) :
    w.InCreationOrder := by
  intro l hl
  have hperm := (w.byCreation_perm l).trans hl
  have hnodup : (w.byCreation l).Nodup :=
    hperm.nodup_iff.mpr (w.pendingTasks_pairwise.imp ne_of_lt)
  refine ((w.byCreation_pairwise l).and hnodup).imp_of_mem ?_
  intro s t hs ht hst hs'
  have hslt := mem_pendingTasks (hperm.subset hs)
  have htlt := mem_pendingTasks (hperm.subset ht)
  have ht' : w.Stamped t := by
    have := h.neg_one_le hslt
    simp only [Stamped] at hs' ⊢
    omega
  refine ⟨ht', ?_⟩
  rcases lt_trichotomy s t with hlt | heq | hgt
  · exact hlt
  · exact absurd heq hst.2
  · exact absurd (h.stamp_lt hgt hslt ht' hs') (not_lt_of_ge hst.1)

theorem unstamped_of_length_le (h : w.unstamped.length ≤ 1) {s t : ℕ}
    (hs : s ∈ w.pendingTasks) (ht : t ∈ w.pendingTasks)
    (hs' : ¬ w.Stamped s) (ht' : ¬ w.Stamped t) : s = t := by
  have hsmem : s ∈ w.unstamped := List.mem_filter.mpr ⟨hs, by simpa using hs'⟩
  have htmem : t ∈ w.unstamped := List.mem_filter.mpr ⟨ht, by simpa using ht'⟩
  obtain ⟨u, hu⟩ := List.length_eq_one_iff.mp
    (le_antisymm h (List.length_pos_of_mem hsmem))
  rw [hu, List.mem_singleton] at hsmem htmem
  rw [hsmem, htmem]

theorem not_both_orders {l : List ℕ} (h : l.Nodup) {s t : ℕ}
    (hst : [s, t].Sublist l) (hts : [t, s].Sublist l) : False := by
  have hlen : (l.filter (· ∈ [s, t])).length ≤ 2 := by
    have hsub : l.filter (· ∈ [s, t]) ⊆ [s, t] := fun x hx => by
      simpa using (List.mem_filter.mp hx).2
    exact ((h.filter _).subperm hsub).length_le
  have hone := (hst.filter (· ∈ [s, t])).eq_of_length_le (by simpa using hlen)
  have hother := (hts.filter (· ∈ [s, t])).eq_of_length_le (by simpa using hlen)
  have hboth : [s, t] = [t, s] := by simpa using hone.trans hother.symm
  have hne : s ≠ t := by simpa using h.sublist hst
  exact hne (List.cons.inj hboth).1

theorem Ordered.orderFixed_iff (h : Ordered w.stamps) :
    w.OrderFixed ↔ w.unstamped.length ≤ 1 := by
  constructor
  · intro hfixed
    by_contra hlen
    obtain ⟨s, t, rest, hst⟩ : ∃ s t rest, w.unstamped = s :: t :: rest := by
      match hu : w.unstamped with
      | [] => simp [hu] at hlen
      | [s] => simp [hu] at hlen
      | s :: t :: rest => exact ⟨s, t, rest, rfl⟩
    have hunstamped : w.unstamped.Sublist w.pendingTasks := List.filter_sublist
    rw [hst] at hunstamped
    have hsub : [s, t].Sublist w.pendingTasks :=
      (((List.nil_sublist rest).cons_cons t).cons_cons s).trans hunstamped
    have hmem : ∀ u ∈ w.unstamped, w.stamp u = -1 := by
      intro u hu
      simpa [Stamped] using (List.mem_filter.mp hu).2
    have hs := hmem s (by simp [hst])
    have ht := hmem t (by simp [hst])
    have hone := byCreation_stable (w := w) (by omega) hsub
    have hother := byCreation_stable (w := w) (s := t) (t := s) (by omega)
      hsub.reverse
    rw [hfixed w.pendingTasks.reverse w.pendingTasks (List.reverse_perm _)
      (List.Perm.refl _)] at hother
    have hnodup : (w.byCreation w.pendingTasks).Nodup :=
      (w.byCreation_perm _).nodup_iff.mpr (w.pendingTasks_pairwise.imp ne_of_lt)
    exact not_both_orders hnodup hone hother
  · intro hlen l l' hl hl'
    have hperm := (w.byCreation_perm l).trans hl
    have hperm' := (w.byCreation_perm l').trans hl'
    refine List.Perm.eq_of_pairwise ?_ (w.byCreation_pairwise l)
      (w.byCreation_pairwise l') (hperm.trans hperm'.symm)
    intro s t hs ht hst hts
    have hs := hperm.subset hs
    have ht := hperm'.subset ht
    by_cases hs' : w.Stamped s
    · have ht' : w.Stamped t := fun h' => hs' (by omega)
      rcases lt_trichotomy s t with hlt | heq | hgt
      · have := h.stamp_lt hlt (mem_pendingTasks ht) hs' ht'
        omega
      · exact heq
      · have := h.stamp_lt hgt (mem_pendingTasks hs) ht' hs'
        omega
    · refine unstamped_of_length_le hlen hs ht hs' fun ht' => ?_
      simp only [Stamped, not_not] at hs' ht'
      omega

theorem Ordered.cancelOrder_iff (h : Ordered w.stamps) :
    (w.OrderFixed ∧ w.InCreationOrder) ↔ w.unstamped.length ≤ 1 :=
  ⟨fun hw => h.orderFixed_iff.mp hw.1,
    fun hw => ⟨h.orderFixed_iff.mpr hw, h.inCreationOrder⟩⟩

end

/-- In every world that a drive passes through, tasks are cancelled in the same
order for every order of the set if at most one of those pending has no stamp,
and only then; stamped ones come in the order of their creation and after the
others in any case. -/
theorem cancel_order_iff {netRng faultsRng : ρ} {user : υ}
    {maxSteps : Option ℕ} {script : ℕ → List (List (UserOp μ κ υ ε))}
    {horizon : ℕ} {ms : List (Move μ κ υ ε)} {p : Point ρ μ κ υ ε}
    (h : Walk Moves
      ⟨init netRng faultsRng user maxSteps script horizon, false⟩ ms p) :
    (p.world.OrderFixed ∧ p.world.InCreationOrder) ↔
      p.world.unstamped.length ≤ 1 := by
  have hordered := h.invariant (I := fun p => Ordered p.world.stamps)
    Moves.ordered (init_ordered _ _ _ _ _ _)
  exact hordered.cancelOrder_iff

/-- At every point of a drive, whenever the teardown comes to cancel the tasks,
one order of the set is as good as another if there is at most one of them
without a stamp, and only then. -/
theorem drive_cancelOrder [DecidableEq ε] {netRng faultsRng : ρ} {user : υ}
    {maxSteps : Option ℕ} {script : ℕ → List (List (UserOp μ κ υ ε))}
    {horizon : ℕ} {main : κ} {p : Point ρ μ κ υ ε}
    (h : OnDrive main (init netRng faultsRng user maxSteps script horizon) p) :
    (p.world.OrderFixed ∧ p.world.InCreationOrder) ↔
      p.world.unstamped.length ≤ 1 := by
  have hordered := h.invariant (I := fun p => Ordered p.world.stamps)
    Moves.ordered (init_ordered _ _ _ _ _ _)
  exact hordered.cancelOrder_iff

/-- The scenario's task and two that were built without the loop. -/
def twoUnstamped : World Toggle ℕ ℕ ℕ Plain :=
  (((init Toggle.low Toggle.low 0 none (fun _ => []) 0).createTask
    true 0).createTask false 1).createTask false 2

theorem twoUnstamped_walk : ∃ ms, Walk Moves
    ⟨init Toggle.low Toggle.low 0 none (fun _ => []) 0, false⟩ ms
    ⟨twoUnstamped, false⟩ :=
  ⟨_, ((Walk.nil.snoc (.op _ false (.createTask true 0))).snoc
    (.op _ false (.createTask false 1))).snoc (.op _ false (.createTask false 2))⟩

theorem cancel_order_iff_twoUnstamped :
    (twoUnstamped.OrderFixed ∧ twoUnstamped.InCreationOrder) ↔
      twoUnstamped.unstamped.length ≤ 1 := by
  obtain ⟨ms, h⟩ := twoUnstamped_walk
  exact cancel_order_iff h

/-- Two orders of one set, and each is the order in which its tasks are
cancelled. -/
theorem twoUnstamped_cancelled_by_hash_order :
    [1, 2, 0].Perm twoUnstamped.pendingTasks ∧
    [2, 1, 0].Perm twoUnstamped.pendingTasks ∧
    twoUnstamped.byCreation [1, 2, 0] = [1, 2, 0] ∧
    twoUnstamped.byCreation [2, 1, 0] = [2, 1, 0] := by
  have hsorted : ∀ l : List ℕ,
      l.Pairwise (fun s t => decide (twoUnstamped.stamp s ≤ twoUnstamped.stamp t)) →
      twoUnstamped.byCreation l = l := fun l h =>
    List.mergeSort_of_pairwise h
  exact ⟨by decide, by decide, hsorted _ (by decide), hsorted _ (by decide)⟩

end World

end Seedloop
