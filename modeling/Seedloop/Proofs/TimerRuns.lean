import Seedloop.Proofs.LoopMoves

/-!
# Timers over whole runs of the loop

Three invariants, each of one timer or one pair of timers, and each kept by
every move. `Tracked` ties a heap entry to the clock it was scheduled at: a
live timer is never behind the clock by more than it was to begin with, which
is what makes the clock at its promotion a `max` and not a bound. `Fresh` says
that handles are numbered, so a timer that left the heap cannot come back.
`InOrder` follows two timers until both are out.

Only `beginStep` moves the clock or takes timers off the heap, so every other
move is a remark, and the case of `beginStep` is `beginStep_spec`.
-/

namespace Seedloop

namespace Loop

variable {κ : Type}

/-- Handles in the heap are numbered apart, below the counter, and so are the
sequence numbers. -/
structure Wf (l : Loop κ) : Prop where
  id_lt : ∀ t ∈ l.timers.entries, t.handle.id < l.nextHandle
  ids_nodup : (l.timers.entries.map fun t => t.handle.id).Nodup
  seq_lt : ∀ t ∈ l.timers.entries, t.seq < l.timerSeq
  seqs_nodup : (l.timers.entries.map Timer.seq).Nodup

theorem init_wf : (init : Loop κ).Wf :=
  ⟨by simp [init], by simp [init], by simp [init], by simp [init]⟩

theorem Wf.eq_of_id {l : Loop κ} (h : l.Wf) {t u : Timer κ}
    (ht : t ∈ l.timers.entries) (hu : u ∈ l.timers.entries)
    (hid : t.handle.id = u.handle.id) : t = u :=
  List.inj_on_of_nodup_map h.ids_nodup ht hu hid

/-- Two timers of the heap are never tied. -/
theorem Wf.key_lt_or_lt {l : Loop κ} (h : l.Wf) {t u : Timer κ}
    (ht : t ∈ l.timers.entries) (hu : u ∈ l.timers.entries) (hne : t ≠ u) :
    t.key < u.key ∨ u.key < t.key := by
  refine lt_or_gt_of_ne fun heq => hne ?_
  exact List.inj_on_of_nodup_map h.seqs_nodup ht hu
    (Prod.ext_iff.mp (toLex.injective heq)).2

theorem Wf.of_sublist {l l' : Loop κ} (h : l.Wf)
    (hsub : l'.timers.entries.Sublist l.timers.entries)
    (hnext : l.nextHandle ≤ l'.nextHandle)
    (hseq : l.timerSeq ≤ l'.timerSeq) : l'.Wf where
  id_lt t ht := lt_of_lt_of_le (h.id_lt t (hsub.subset ht)) hnext
  ids_nodup := h.ids_nodup.sublist (hsub.map _)
  seq_lt t ht := lt_of_lt_of_le (h.seq_lt t (hsub.subset ht)) hseq
  seqs_nodup := h.seqs_nodup.sublist (hsub.map _)

/-- An entry numbered by a counter keeps a heap's numbers apart. -/
theorem push_nodup {q : PQueue (Timer κ) Timer.key} {t : Timer κ}
    {f : Timer κ → ℕ} (hlt : ∀ u ∈ q.entries, f u < f t)
    (h : (q.entries.map f).Nodup) : ((q.push t).entries.map f).Nodup := by
  refine (((q.push_perm t).map f).nodup_iff).mpr ?_
  rw [List.map_cons, List.nodup_cons]
  refine ⟨?_, h⟩
  intro hmem
  obtain ⟨u, hu, heq⟩ := List.mem_map.mp hmem
  exact (hlt u hu).ne heq

theorem Wf.callAt {l : Loop κ} (h : l.Wf) (when : When) (c : κ) :
    (l.callAt when c).Wf where
  id_lt t ht := by
    rcases PQueue.mem_push.mp ht with rfl | hmem
    · exact Nat.lt_succ_self _
    · exact Nat.lt_succ_of_lt (h.id_lt t hmem)
  ids_nodup := push_nodup h.id_lt h.ids_nodup
  seq_lt t ht := by
    rcases PQueue.mem_push.mp ht with rfl | hmem
    · exact Nat.lt_succ_self _
    · exact Nat.lt_succ_of_lt (h.seq_lt t hmem)
  seqs_nodup := push_nodup h.seq_lt h.seqs_nodup

/-- The moves other than `beginStep`: the clock stands still, nothing leaves
the heap, no handle is forgiven a cancellation, and the counter goes up. -/
theorem step_quiet {l l' : Loop κ} {m : Move κ}
    (hm : ∀ stopStep, m ≠ .beginStep stopStep) (h : step l m = some l') :
    l'.time = l.time ∧ l.nextHandle ≤ l'.nextHandle ∧
    l.cancelled ⊆ l'.cancelled ∧ l.promotedBy m = [] ∧
    (∀ t ∈ l.timers.entries, t ∈ l'.timers.entries) ∧
    (∀ t ∈ l'.timers.entries, t ∈ l.timers.entries ∨
      t.handle.id = l.nextHandle ∧ l.nextHandle < l'.nextHandle ∧
        t.seq = l.timerSeq) ∧
    l.timerSeq ≤ l'.timerSeq := by
  cases m with
  | beginStep stopStep => exact absurd rfl (hm stopStep)
  | callAt when c =>
      simp only [step, Option.some.injEq] at h
      subst h
      refine ⟨rfl, Nat.le_succ _, Finset.Subset.refl _, rfl,
        fun t ht => PQueue.mem_push.mpr (.inr ht), ?_, Nat.le_succ _⟩
      intro t ht
      rcases PQueue.mem_push.mp ht with rfl | hmem
      · exact .inr ⟨rfl, Nat.lt_succ_self _, rfl⟩
      · exact .inl hmem
  | callSoon c =>
      simp only [step, Option.some.injEq] at h
      subst h
      exact ⟨rfl, Nat.le_succ _, Finset.Subset.refl _, rfl, fun _ h => h,
        fun _ h => .inl h, le_rfl⟩
  | cancel id =>
      simp only [step, Option.some.injEq] at h
      subst h
      exact ⟨rfl, le_rfl, Finset.subset_insert _ _, rfl, fun _ h => h,
        fun _ h => .inl h, le_rfl⟩
  | stop | clearStop =>
      simp only [step, Option.some.injEq] at h
      subst h
      exact ⟨rfl, le_rfl, Finset.Subset.refl _, rfl, fun _ h => h,
        fun _ h => .inl h, le_rfl⟩
  | popReady =>
      simp only [step] at h
      split at h
      · cases h
      · simp only [Option.some.injEq] at h
        subst h
        exact ⟨rfl, le_rfl, Finset.Subset.refl _, rfl, fun _ h => h,
          fun _ h => .inl h, le_rfl⟩

theorem step_wf {l l' : Loop κ} {m : Move κ} (hwf : l.Wf)
    (h : step l m = some l') : l'.Wf := by
  cases m with
  | beginStep stopStep =>
      simp only [step, Option.some.injEq] at h
      obtain ⟨-, hseq, hnext, -, -, hsub, -⟩ := beginStep_spec h
      exact hwf.of_sublist hsub hnext.ge hseq.ge
  | callAt when c =>
      simp only [step, Option.some.injEq] at h
      exact h ▸ hwf.callAt when c
  | callSoon c =>
      simp only [step, Option.some.injEq] at h
      subst h
      exact hwf.of_sublist (.refl _) (Nat.le_succ _) le_rfl
  | cancel id | stop | clearStop =>
      simp only [step, Option.some.injEq] at h
      subst h
      exact hwf.of_sublist (.refl _) le_rfl le_rfl
  | popReady =>
      simp only [step] at h
      split at h
      · cases h
      · simp only [Option.some.injEq] at h
        subst h
        exact hwf.of_sublist (.refl _) le_rfl le_rfl

theorem step_time_le {l l' : Loop κ} {m : Move κ} (h : step l m = some l') :
    l.time ≤ l'.time := by
  by_cases hm : ∃ stopStep, m = .beginStep stopStep
  · obtain ⟨stopStep, rfl⟩ := hm
    simp only [step, Option.some.injEq] at h
    obtain ⟨-, -, -, hle, -⟩ := beginStep_spec h
    exact hle
  · rw [not_exists] at hm
    exact (step_quiet hm h).1.ge

theorem run_time_le {l l' : Loop κ} {ms : List (Move κ)}
    (h : Machine.run step l ms = some l') : l.time ≤ l'.time :=
  Machine.run_preorder (r := fun l l' : Loop κ => l.time ≤ l'.time)
    (fun _ => le_rfl) le_trans step_time_le h

theorem step_cancelled {l l' : Loop κ} {m : Move κ}
    (h : step l m = some l') : l.cancelled ⊆ l'.cancelled := by
  by_cases hm : ∃ stopStep, m = .beginStep stopStep
  · obtain ⟨stopStep, rfl⟩ := hm
    simp only [step, Option.some.injEq] at h
    obtain ⟨hc, -⟩ := beginStep_spec h
    exact hc.ge
  · rw [not_exists] at hm
    exact (step_quiet hm h).2.2.1

/-! ## One timer and the clock -/

/-- A timer scheduled when the clock read `c`: no other entry has its handle,
and while it is live and in the heap the clock is not past both its deadline
and `c`. -/
structure Tracked (t : Timer κ) (c : ℚ) (l : Loop κ) : Prop where
  id_lt : t.handle.id < l.nextHandle
  le_time : c ≤ l.time
  unique : ∀ u ∈ l.timers.entries, u.handle.id = t.handle.id → u = t
  time_le : t ∈ l.timers.entries → t.handle.id ∉ l.cancelled →
    .fin l.time ≤ max t.when (.fin c)

theorem Tracked.of_mem {l : Loop κ} (h : l.Wf) {t : Timer κ}
    (ht : t ∈ l.timers.entries) : Tracked t l.time l where
  id_lt := h.id_lt t ht
  le_time := le_rfl
  unique _ hu hid := h.eq_of_id hu ht hid
  time_le _ _ := le_max_right _ _

theorem Tracked.step {l l' : Loop κ} {t : Timer κ} {c : ℚ} {m : Move κ}
    (ht : Tracked t c l) (h : step l m = some l') : Tracked t c l' := by
  by_cases hm : ∃ stopStep, m = .beginStep stopStep
  · obtain ⟨stopStep, rfl⟩ := hm
    simp only [Loop.step, Option.some.injEq] at h
    obtain ⟨hc, -, hnext, hle, -, hsub, -, -, -, htime⟩ := beginStep_spec h
    refine ⟨hnext ▸ ht.id_lt, ht.le_time.trans hle,
      fun u hu => ht.unique u (hsub.subset hu), ?_⟩
    intro hmem hlive
    rw [hc] at hlive
    rcases htime with heq | ⟨-, hall⟩
    · rw [heq]
      exact ht.time_le (hsub.subset hmem) hlive
    · exact (hall t (hsub.subset hmem) hlive).trans (le_max_left _ _)
  · rw [not_exists] at hm
    obtain ⟨htime, hnext, hc, -, -, hback, -⟩ := step_quiet hm h
    have hid := ht.id_lt
    refine ⟨by omega, htime ▸ ht.le_time, ?_, ?_⟩
    · intro u hu heq
      rcases hback u hu with hmem | ⟨hnew, -⟩
      · exact ht.unique u hmem heq
      · omega
    · intro hmem hlive
      rw [htime]
      rcases hback t hmem with hmem | ⟨hnew, -⟩
      · exact ht.time_le hmem fun hcl => hlive (hc hcl)
      · omega

theorem Tracked.run {l l' : Loop κ} {t : Timer κ} {c : ℚ}
    {ms : List (Move κ)} (ht : Tracked t c l)
    (h : Machine.run Loop.step l ms = some l') : Tracked t c l' :=
  Machine.run_invariant (fun hi hs => hi.step hs) ht h

/-- The clock at a promotion. -/
theorem Tracked.promoted {l l' : Loop κ} {t : Timer κ} {c : ℚ} {m : Move κ}
    (ht : Tracked t c l) (h : Loop.step l m = some l')
    (hp : t ∈ l.promotedBy m) : .fin l'.time = max t.when (.fin c) := by
  cases m with
  | beginStep stopStep =>
      simp only [Loop.step, Option.some.injEq] at h
      obtain ⟨-, -, -, hle, -, -, hsub, hdue, -, htime⟩ := beginStep_spec h
      obtain ⟨hwhen, hlive, -⟩ := hdue t hp
      have hmem := hsub.subset hp
      refine le_antisymm ?_
        (max_le hwhen (When.fin_le_fin.mpr (ht.le_time.trans hle)))
      rcases htime with heq | ⟨-, hall⟩
      · rw [heq]
        exact ht.time_le hmem hlive
      · exact (hall t hmem hlive).trans (le_max_left _ _)
  | _ => simp [promotedBy] at hp

theorem when_le_of_promoted {l l' : Loop κ} {m : Move κ} {t : Timer κ}
    (h : step l m = some l') (hp : t ∈ l.promotedBy m) :
    t.when ≤ .fin l'.time ∧ t ∈ l.timers.entries ∧
      t.handle.id ∉ l.cancelled ∧ t ∉ l'.timers.entries := by
  cases m with
  | beginStep stopStep =>
      simp only [step, Option.some.injEq] at h
      obtain ⟨-, -, -, -, -, -, hsub, hdue, -⟩ := beginStep_spec h
      obtain ⟨hwhen, hlive, hout⟩ := hdue t hp
      exact ⟨hwhen, hsub.subset hp, hlive, hout⟩
  | _ => simp [promotedBy] at hp

/-- A timer that is new after a quiet stretch has a new number. -/
theorem quiet_run_seq {l l' : Loop κ} {ms : List (Move κ)} {t : Timer κ}
    (hms : ∀ m ∈ ms, ∀ stopStep, m ≠ .beginStep stopStep)
    (h : Machine.run step l ms = some l') (hin : t ∈ l'.timers.entries)
    (hout : t ∉ l.timers.entries) : l.timerSeq ≤ t.seq := by
  induction ms generalizing l with
  | nil =>
      rw [Machine.run_nil, Option.some.injEq] at h
      exact absurd (h ▸ hin) hout
  | cons m ms ih =>
      obtain ⟨r, hr, hrun⟩ := Machine.run_cons_eq_some.mp h
      obtain ⟨-, -, -, -, -, hback, hseq⟩ :=
        step_quiet (hms m List.mem_cons_self) hr
      by_cases ht : t ∈ r.timers.entries
      · rcases hback t ht with hmem | ⟨-, -, heq⟩
        · exact absurd hmem hout
        · exact heq.ge
      · exact hseq.trans (ih (fun m hm => hms m (List.mem_cons_of_mem _ hm))
          hrun ht)

theorem run_when_ne_posInf {l l' : Loop κ} {ms : List (Move κ)}
    (h : Machine.run step l ms = some l') :
    ∀ t ∈ Machine.outputs step promotedBy l ms, t.when ≠ .posInf := by
  have hstep : ∀ {l : Loop κ} {m l'} {ts : List (Timer κ)},
      (∀ t ∈ ts, t.when ≠ .posInf) → step l m = some l' →
      ∀ t ∈ ts ++ l.promotedBy m, t.when ≠ .posInf := by
    intro l m l' ts hts hs t ht
    rcases List.mem_append.mp ht with ht | ht
    · exact hts t ht
    · intro hinf
      have hle := (when_le_of_promoted hs ht).1
      rw [hinf] at hle
      exact When.not_posInf_le_fin _ hle
  have hnil : ∀ t ∈ ([] : List (Timer κ)), t.when ≠ .posInf := by simp
  have := Machine.run_outputs_invariant
    (I := fun _ (ts : List (Timer κ)) => ∀ t ∈ ts, t.when ≠ .posInf)
    hstep hnil h
  simpa using this

/-! ## No timer is promoted twice -/

/-- What has been promoted so far: each once, and none of it in the heap. -/
structure Fresh (l : Loop κ) (ts : List (Timer κ)) : Prop where
  wf : l.Wf
  nodup : (ts.map fun t => t.handle.id).Nodup
  id_lt : ∀ t ∈ ts, t.handle.id < l.nextHandle
  gone : ∀ t ∈ ts, ∀ u ∈ l.timers.entries, u.handle.id ≠ t.handle.id

theorem Fresh.step {l l' : Loop κ} {m : Move κ} {ts : List (Timer κ)}
    (hf : Fresh l ts) (h : step l m = some l') :
    Fresh l' (ts ++ l.promotedBy m) := by
  refine ⟨step_wf hf.wf h, ?_, ?_, ?_⟩
  all_goals by_cases hm : ∃ stopStep, m = .beginStep stopStep
  all_goals first | obtain ⟨stopStep, rfl⟩ := hm | rw [not_exists] at hm
  · -- What a step promotes comes out of the heap, so it was not out already.
    simp only [Loop.step, Option.some.injEq] at h
    obtain ⟨-, -, -, -, -, -, hsub, -⟩ := beginStep_spec h
    rw [List.map_append, List.nodup_append]
    refine ⟨hf.nodup, hf.wf.ids_nodup.sublist (hsub.map _), ?_⟩
    intro a ha b hb hab
    obtain ⟨t, ht, rfl⟩ := List.mem_map.mp ha
    obtain ⟨u, hu, rfl⟩ := List.mem_map.mp hb
    exact hf.gone t ht u (hsub.subset hu) hab.symm
  · obtain ⟨-, -, -, hnone, -⟩ := step_quiet hm h
    rw [hnone, List.append_nil]
    exact hf.nodup
  · simp only [Loop.step, Option.some.injEq] at h
    obtain ⟨-, -, hnext, -, -, -, hsub, -⟩ := beginStep_spec h
    intro t ht
    rw [hnext]
    rcases List.mem_append.mp ht with ht | ht
    · exact hf.id_lt t ht
    · exact hf.wf.id_lt t (hsub.subset ht)
  · obtain ⟨-, hnext, -, hnone, -⟩ := step_quiet hm h
    intro t ht
    rw [hnone, List.append_nil] at ht
    exact lt_of_lt_of_le (hf.id_lt t ht) hnext
  · simp only [Loop.step, Option.some.injEq] at h
    obtain ⟨-, -, -, -, -, hrest, hsub, hdue, -⟩ := beginStep_spec h
    intro t ht u hu hid
    rcases List.mem_append.mp ht with ht | ht
    · exact hf.gone t ht u (hrest.subset hu) hid
    · have heq := hf.wf.eq_of_id (hrest.subset hu) (hsub.subset ht) hid
      exact (hdue t ht).2.2 (heq ▸ hu)
  · obtain ⟨-, -, -, hnone, -, hback, -⟩ := step_quiet hm h
    intro t ht u hu hid
    rw [hnone, List.append_nil] at ht
    rcases hback u hu with hmem | ⟨hnew, -⟩
    · exact hf.gone t ht u hmem hid
    · have := hf.id_lt t ht
      omega

theorem Fresh.run {l l' : Loop κ} {ms : List (Move κ)} (hwf : l.Wf)
    (h : Machine.run Loop.step l ms = some l') :
    Fresh l' (Machine.outputs Loop.step promotedBy l ms) := by
  have hstart : Fresh l [] := ⟨hwf, by simp, by simp, by simp⟩
  simpa using Machine.run_outputs_invariant
    (fun hi hs => hi.step hs) hstart h

/-! ## Two timers pending together -/

theorem pair_sublist {ts : List (Timer κ)}
    (hs : ts.Pairwise fun a b => a.key ≤ b.key) {t u : Timer κ} (ht : t ∈ ts)
    (hu : u ∈ ts) (hlt : t.key < u.key) : [t, u].Sublist ts := by
  obtain ⟨as, bs, rfl⟩ := List.append_of_mem ht
  rcases List.mem_append.mp hu with hu | hu
  · have := (List.pairwise_append.mp hs).2.2 u hu t (by simp)
    exact absurd hlt (not_lt.mpr this)
  · rcases List.mem_cons.mp hu with rfl | hu
    · exact absurd hlt (lt_irrefl _)
    · refine List.Sublist.trans ?_ (List.sublist_append_right _ _)
      exact List.cons_sublist_cons.mpr (List.singleton_sublist.mpr hu)

/-- Of two timers the one with the smaller key is out first, unless it was
cancelled. -/
def InOrder (t u : Timer κ) (l : Loop κ) (ts : List (Timer κ)) : Prop :=
  t.handle.id ∈ l.cancelled ∨ (t ∈ l.timers.entries ∧ u ∉ ts) ∨
    (t ∈ ts ∧ u ∉ ts) ∨ [t, u].Sublist ts

theorem InOrder.step {l l' : Loop κ} {t u : Timer κ} {m : Move κ}
    {ts : List (Timer κ)} (hlt : t.key < u.key) (hi : InOrder t u l ts)
    (h : step l m = some l') : InOrder t u l' (ts ++ l.promotedBy m) := by
  rcases hi with hc | ⟨ht, hu⟩ | ⟨ht, hu⟩ | hsub
  · exact .inl (step_cancelled h hc)
  · by_cases hm : ∃ stopStep, m = .beginStep stopStep
    · obtain ⟨stopStep, rfl⟩ := hm
      simp only [Loop.step, Option.some.injEq] at h
      obtain ⟨hcanc, -, -, -, -, -, hsub, -, hstay, -⟩ := beginStep_spec h
      by_cases hc : t.handle.id ∈ l.cancelled
      · exact .inl (hcanc ▸ hc)
      right
      by_cases htp : t ∈ l.promotedBy (.beginStep stopStep)
      · by_cases hup : u ∈ l.promotedBy (.beginStep stopStep)
        · refine .inr (.inr ?_)
          exact (pair_sublist (l.timers.sorted.sublist hsub) htp hup hlt).trans
            (List.sublist_append_right _ _)
        · refine .inr (.inl ⟨List.mem_append_right _ htp, ?_⟩)
          simp [hu, hup]
      · obtain ⟨hmem, hlater⟩ := hstay t ht hc htp
        refine .inl ⟨hmem, ?_⟩
        intro hmem'
        rcases List.mem_append.mp hmem' with h | h
        · exact hu h
        · -- A promoted `u` would be earlier than the `t` left behind.
          have hwhen := hlater u h
          rcases Prod.Lex.toLex_lt_toLex.mp hlt with hlt | ⟨heq, -⟩
          · exact absurd hlt (not_lt.mpr hwhen.le)
          · exact absurd heq hwhen.ne'
    · rw [not_exists] at hm
      obtain ⟨-, -, -, hnone, hkeep, -⟩ := step_quiet hm h
      rw [hnone, List.append_nil]
      exact .inr (.inl ⟨hkeep t ht, hu⟩)
  · right
    right
    by_cases hup : u ∈ l.promotedBy m
    · right
      exact (List.singleton_sublist.mpr ht).append
        (List.singleton_sublist.mpr hup)
    · refine .inl ⟨List.mem_append_left _ ht, ?_⟩
      simp [hu, hup]
  · exact .inr (.inr (.inr (hsub.trans (List.sublist_append_left _ _))))

theorem InOrder.run {l l' : Loop κ} {t u : Timer κ} {ms : List (Move κ)}
    (ht : t ∈ l.timers.entries) (hlt : t.key < u.key)
    (h : Machine.run Loop.step l ms = some l') :
    InOrder t u l' (Machine.outputs Loop.step promotedBy l ms) := by
  have hstart : InOrder t u l [] := .inr (.inl ⟨ht, by simp⟩)
  simpa using Machine.run_outputs_invariant
    (fun hi hs => hi.step hlt hs) hstart h

end Loop

end Seedloop
