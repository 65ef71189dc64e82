import Seedloop.Proofs.Pending

/-!
# Runs with nothing to order them

In a free run any handle that waits may fire next, faults may begin and end at
any time, and the clock may read anything. `freeStep_cases` is what a step of
one can do, and the invariants proved over it hold in particular when the loop
decides the order, since each step of the loop is a free step.

A firing takes one handle out of what waits and, because a handle of the
network is never cancelled, runs it.
-/

namespace Seedloop

/-- `h` is taken out of what waits. -/
structure Loop.Takes {κ : Type} (l : Loop κ) (h : Handle κ) (l' : Loop κ) :
    Prop where
  split : ∃ as bs, l.pending = as ++ h :: bs ∧ l'.pending = as ++ bs
  time : l'.time = l.time
  cancelled : l'.cancelled = l.cancelled
  nextHandle : l'.nextHandle = l.nextHandle

namespace Loop.Takes

variable {κ : Type} {l l' : Loop κ} {h : Handle κ}

theorem perm (hl : l.Takes h l') : l.pending.Perm (h :: l'.pending) := by
  obtain ⟨as, bs, heq, heq'⟩ := hl.split
  rw [heq, heq']
  exact List.perm_middle

/-- The others keep their order. -/
theorem filter_of_not (hl : l.Takes h l') {p : Handle κ → Bool}
    (hp : p h = false) : l'.pending.filter p = l.pending.filter p := by
  obtain ⟨as, bs, heq, heq'⟩ := hl.split
  rw [heq, heq', List.filter_append, List.filter_append,
    List.filter_cons_of_neg (by simp [hp])]

end Loop.Takes

namespace Net

variable {ρ μ υ : Type}

theorem takes_pop {l : Loop (Callback μ υ)} {h : Handle (Callback μ υ)}
    {rest : List (Handle (Callback μ υ))} (hready : l.ready = h :: rest) :
    l.Takes h { l with ready := rest } :=
  ⟨⟨[], _, by rw [Loop.pending, hready]; rfl, rfl⟩, rfl, rfl, rfl⟩

theorem takes_dropHandle {l : Loop (Callback μ υ)} {id : ℕ}
    {h : Handle (Callback μ υ)} (hnd : (l.pending.map Handle.id).Nodup)
    (hfind : (l.pending.find? fun h => h.id = id) = some h) :
    l.Takes h (dropHandle l id) := by
  refine ⟨?_, rfl, rfl, rfl⟩
  have hmem := List.mem_of_find?_eq_some hfind
  have hid : h.id = id := by simpa using List.find?_some hfind
  have herase : (dropHandle l id).pending =
      l.pending.eraseP fun h => h.id = id := by
    by_cases hr : ∃ h' ∈ l.ready, h'.id = id
    · obtain ⟨h', hr', hid'⟩ := hr
      have hnone : ∀ t ∈ l.timers.entries,
          ¬ decide (t.handle.id = id) = true := by
        intro t ht hdec
        rw [Loop.pending, List.map_append, List.nodup_append] at hnd
        refine hnd.2.2 h'.id (List.mem_map_of_mem hr') t.handle.id ?_ ?_
        · exact List.mem_map_of_mem (List.mem_map_of_mem ht)
        · rw [hid', of_decide_eq_true hdec]
      simp only [dropHandle, Loop.pending, PQueue.eraseP]
      rw [List.eraseP_of_forall_not hnone,
        List.eraseP_append_left (p := fun h => decide (h.id = id))
          (by simpa using hid') _ hr']
    · simp only [dropHandle, Loop.pending, PQueue.eraseP]
      have hnone : ∀ h' ∈ l.ready, ¬ decide (h'.id = id) = true :=
        fun h' hr' hdec => hr ⟨h', hr', of_decide_eq_true hdec⟩
      rw [List.eraseP_append_right _ hnone, List.eraseP_of_forall_not hnone,
        List.eraseP_map]
      rfl
  obtain ⟨a, as, bs, -, ha, heq, heq'⟩ := List.exists_of_eraseP hmem
    (p := fun h => decide (h.id = id)) (by simpa using hid)
  have hah : a = h := List.inj_on_of_nodup_map hnd (by simp [heq]) hmem
    (by rw [of_decide_eq_true ha, hid])
  exact ⟨as, bs, hah ▸ heq, herase.trans heq'⟩

/-- `h` is the handle that `a` runs in `s`. -/
def Fires (s : Net ρ μ υ) (a : FreeAct μ υ) (h : Handle (Callback μ υ)) :
    Prop :=
  (a = .fire h.id ∧ h ∈ s.loop.pending) ∨
    (a = .act .runReady ∧ s.loop.ready.head? = some h)

theorem Fires.mem {s : Net ρ μ υ} {a : FreeAct μ υ}
    {h : Handle (Callback μ υ)} (hf : Fires s a h) : h ∈ s.loop.pending := by
  rcases hf with ⟨-, hmem⟩ | ⟨-, hhead⟩
  · exact hmem
  · obtain ⟨rest, hready⟩ := List.head?_eq_some_iff.mp hhead
    simp [Loop.pending, hready]

variable [Random ρ]

/-- What a free step can do. -/
theorem freeStep_cases {s t : Net ρ μ υ} {a : FreeAct μ υ} (hs : Handles s)
    (h : freeStep s a = some t) :
    (∃ src dst msg endpoint how, a = .act (.op (.send src dst msg)) ∧
      Sends s t src dst msg endpoint how) ∨
    Effects s t ∨
    (∃ stopStep, t = { s with loop := (s.loop.beginStep stopStep).1 }) ∨
    (∃ l : Loop (Callback μ υ), l.pending = s.loop.pending ∧
      l.cancelled = s.loop.cancelled ∧ l.nextHandle = s.loop.nextHandle ∧
      t = { s with loop := l }) ∨
    (∃ h l, Fires s a h ∧ s.loop.Takes h l ∧
      t = runHandle { s with loop := l } h) ∨
    ∃ c, t = s.runFault c := by
  cases a with
  | act a =>
      cases a with
      | op o =>
          simp only [freeStep, step, Option.map_eq_some_iff] at h
          obtain ⟨⟨t', r⟩, hop, rfl⟩ := h
          rcases op_cases hop with
            ⟨src, dst, msg, e, how, rfl, hsends⟩ | ⟨-, heff⟩
          · exact .inl ⟨src, dst, msg, e, how, rfl, hsends⟩
          · exact .inr (.inl heff)
      | beginStep stopStep =>
          cases h
          exact .inr (.inr (.inl ⟨stopStep, rfl⟩))
      | runReady =>
          simp only [freeStep, step] at h
          split at h
          · cases h
          · next hd rest hready =>
            cases h
            exact .inr (.inr (.inr (.inr (.inl ⟨hd, _,
              .inr ⟨rfl, by simp [hready]⟩, takes_pop hready, rfl⟩))))
      | clearStop =>
          cases h
          exact .inr (.inr (.inr (.inl
            ⟨{ s.loop with stopping := false }, rfl, rfl, rfl, rfl⟩)))
  | fault c =>
      cases h
      exact .inr (.inr (.inr (.inr (.inr ⟨c, rfl⟩))))
  | fire id =>
      simp only [freeStep, Option.map_eq_some_iff] at h
      obtain ⟨hd, hfind, rfl⟩ := h
      have hid : hd.id = id := by simpa using List.find?_some hfind
      exact .inr (.inr (.inr (.inr (.inl ⟨hd, _,
        .inl ⟨by rw [hid], List.mem_of_find?_eq_some hfind⟩,
        takes_dropHandle hs.ids_nodup hfind, rfl⟩))))
  | setClock time =>
      cases h
      exact .inr (.inr (.inr (.inl
        ⟨{ s.loop with time := time }, rfl, rfl, rfl, rfl⟩)))

/-- A firing is the run of one handle, and no other. -/
theorem Fires.step {s t : Net ρ μ υ} {a : FreeAct μ υ}
    {h : Handle (Callback μ υ)} (hs : Handles s) (hf : Fires s a h)
    (hstep : freeStep s a = some t) :
    ∃ l, s.loop.Takes h l ∧ t = runHandle { s with loop := l } h := by
  rcases hf with ⟨rfl, hmem⟩ | ⟨rfl, hhead⟩
  · simp only [freeStep, Option.map_eq_some_iff] at hstep
    obtain ⟨hd, hfind, rfl⟩ := hstep
    have hid : hd.id = h.id := by simpa using List.find?_some hfind
    obtain rfl := hs.eq_of_id (List.mem_of_find?_eq_some hfind) hmem hid
    exact ⟨_, takes_dropHandle hs.ids_nodup hfind, rfl⟩
  · obtain ⟨rest, hready⟩ := List.head?_eq_some_iff.mp hhead
    simp only [freeStep, Net.step, hready, Option.some.injEq] at hstep
    exact ⟨_, takes_pop hready, hstep.symm⟩

omit [Random ρ] in
/-- A handle of the network runs when its turn comes. -/
theorem Handles.runHandle_eq {s : Net ρ μ υ} (hs : Handles s)
    {h : Handle (Callback μ υ)} (hh : h ∈ s.loop.pending)
    (hnet : h.callback.isNet = true) {l : Loop (Callback μ υ)}
    (hl : s.loop.Takes h l) :
    runHandle { s with loop := l } h =
      runCallback { s with loop := l } h.callback := by
  refine if_neg ?_
  have := hs.live hh hnet
  simpa [Loop.isCancelled, hl.cancelled] using this

/-! ## The handles of a free run -/

omit [Random ρ] in
theorem Handles.takes {s : Net ρ μ υ} (hs : Handles s)
    {h : Handle (Callback μ υ)} {l : Loop (Callback μ υ)}
    (hl : s.loop.Takes h l) : Handles { s with loop := l } := by
  refine hs.of_sub ?_ hl.nextHandle.ge ?_
  · exact (List.sublist_cons_self h l.pending).subperm.trans
      hl.perm.symm.subperm
  · rintro i (h' | h' | h' | ⟨h', hh', hfut⟩)
    · exact .inl (hl.cancelled ▸ h')
    · exact .inr (.inl h')
    · exact .inr (.inr (.inl h'))
    · exact .inr (.inr (.inr
        ⟨h', hl.perm.symm.subset (List.mem_cons_of_mem _ hh'), hfut⟩))

omit [Random ρ] in
/-- A delivery writes to the timeline and to one queue. -/
theorem deliver_eq (s : Net ρ μ υ) (mid : ℕ) (src dst : Address) (msg : μ) :
    ∃ timeline endpoints, s.deliver mid src dst msg =
      { s with timeline := timeline, endpoints := endpoints } := by
  unfold deliver
  split
  · exact ⟨_, _, rfl⟩
  · split
    · exact ⟨_, _, rfl⟩
    · dsimp only
      split <;> exact ⟨_, _, rfl⟩

omit [Random ρ] in
theorem Handles.runFault {s : Net ρ μ υ} (hs : Handles s) (c : FaultCallback) :
    Handles (s.runFault c) := by
  cases c
  all_goals exact hs.of_loop rfl rfl fun h => h

omit [Random ρ] in
/-- A handle that is run is out of what waits before it runs. -/
theorem Handles.runHandle {s : Net ρ μ υ} (hs : Handles s)
    {h : Handle (Callback μ υ)} (hh : h ∈ s.loop.pending)
    {l : Loop (Callback μ υ)} (hl : s.loop.Takes h l) :
    Handles (runHandle { s with loop := l } h) := by
  have ht := hs.takes hl
  unfold Net.runHandle
  split
  · exact ht
  · unfold runCallback
    split
    · exact ht
    · next mid src dst msg _ =>
      obtain ⟨timeline, endpoints, heq⟩ :=
        deliver_eq { s with loop := l } mid src dst msg
      rw [heq]
      exact ht.of_loop rfl rfl fun h => h
    · exact ht.runFault _
    · exact ht.finishSleep _
    · next fut k hcb =>
      -- The name is gone with the handle that carried it; before that it was
      -- one, and that is enough.
      refine (hs.cancel (i := fut) (.inr (.inr (.inr
        ⟨h, hh, by rw [hcb]; rfl⟩)))).of_sub ?_ hl.nextHandle.ge ?_
      · exact (List.sublist_cons_self h l.pending).subperm.trans
          hl.perm.symm.subperm
      · rintro i (h' | h' | h' | ⟨h', hh', hfut⟩)
        · refine .inl ?_
          simpa [Loop.cancel, hl.cancelled] using h'
        · exact .inr (.inl h')
        · exact .inr (.inr (.inl h'))
        · exact .inr (.inr (.inr
            ⟨h', hl.perm.symm.subset (List.mem_cons_of_mem _ hh'), hfut⟩))

theorem Handles.freeStep {s t : Net ρ μ υ} {a : FreeAct μ υ}
    (hs : Handles s) (h : freeStep s a = some t) : Handles t := by
  rcases freeStep_cases hs h with ⟨_, _, _, _, _, -, hsends⟩ | he |
    ⟨stopStep, rfl⟩ | ⟨l, hp, hc, hn, rfl⟩ | ⟨h, l, hf, hl, rfl⟩ | ⟨c, rfl⟩
  · exact hsends.handles hs
  · exact Effects.invariant (fun he hs => he.handles hs) he hs
  · obtain ⟨hc, -, hn, -⟩ :=
      Loop.beginStep_spec (l := s.loop) (b := stopStep) rfl
    have hsub := (s.loop.pending_beginStep stopStep).1
    refine hs.of_sub hsub.subperm hn.ge ?_
    rintro i (h | h | h | ⟨h, hh, hfut⟩)
    · exact .inl (hc ▸ h)
    · exact .inr (.inl h)
    · exact .inr (.inr (.inl h))
    · exact .inr (.inr (.inr ⟨h, hsub.subset hh, hfut⟩))
  · refine hs.of_sub (by rw [hp]) hn.ge ?_
    rintro i (h | h | h | h)
    · exact .inl (hc ▸ h)
    · exact .inr (.inl h)
    · exact .inr (.inr (.inl h))
    · exact .inr (.inr (.inr (hp ▸ h)))
  · exact hs.runHandle hf.mem hl
  · exact hs.runFault c

theorem freeRun_handles {g f : ρ} {s : Net ρ μ υ} {as : List (FreeAct μ υ)}
    (h : Machine.run freeStep (init g f) as = some s) : Handles s :=
  Machine.run_invariant (fun hi hs => hi.freeStep hs) (init_handles g f) h

/-- The loop decides an order of a free run. -/
theorem run_free {s t : Net ρ μ υ} {as : List (Act μ υ)}
    (h : Machine.run step s as = some t) :
    Machine.run freeStep s (as.map .act) = some t := by
  induction as generalizing s with
  | nil => exact h
  | cons a as ih =>
      obtain ⟨r, hr, hrun⟩ := Machine.run_cons_eq_some.mp h
      exact Machine.run_cons_eq_some.mpr ⟨r, hr, ih hrun⟩

theorem run_handles {g f : ρ} {s : Net ρ μ υ} {as : List (Act μ υ)}
    (h : Machine.run step (init g f) as = some s) : Handles s :=
  freeRun_handles (run_free h)

end Net

end Seedloop
