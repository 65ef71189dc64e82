import Seedloop.Lib.Walks
import Seedloop.Proofs.Deadlock
import Seedloop.Proofs.Pending
import Seedloop.Proofs.Timers
import Seedloop.Ref.Drive

/-!
# A drive is a walk

`_drive` as one move after another. A move is an operation of user code, the
beginning of a step, its checks, a clearing of the checks, or something that the
loop, the network or the drive does for itself and that leaves tasks and checks
as they are (`Tidy`). Whatever way the drive takes through its loops and
`finally` blocks, it is a walk along these, so what every move keeps holds at
every point of every run.

A point knows whether it is in a step. That is what keeps two beginnings apart:
between them are the checks, or the step was cut short.
-/

namespace Seedloop

namespace Net

variable {ρ μ υ : Type}

/-! ## What a cancellation can name -/

/-- Names for a cancellation are those there were, and numbers given since. -/
structure Names (s t : Net ρ μ υ) : Prop where
  nextHandle : s.loop.nextHandle ≤ t.loop.nextHandle
  token : ∀ {i}, Token t i →
    Token s i ∨ s.loop.nextHandle ≤ i ∧ i < t.loop.nextHandle

theorem Names.trans {s t u : Net ρ μ υ} (h : Names s t) (h' : Names t u) :
    Names s u where
  nextHandle := h.nextHandle.trans h'.nextHandle
  token hi := by
    rcases h'.token hi with hi | ⟨hle, hlt⟩
    · exact (h.token hi).imp_right fun hi =>
        ⟨hi.1, hi.2.trans_le h'.nextHandle⟩
    · exact .inr ⟨h.nextHandle.trans hle, hlt⟩

theorem Names.of_sub {s t : Net ρ μ υ} (hpend : t.loop.pending ⊆ s.loop.pending)
    (hnext : t.loop.nextHandle = s.loop.nextHandle)
    (hc : ∀ {i}, i ∈ t.loop.cancelled → Token s i) (ho : t.owned = s.owned)
    (hs : ∀ {i}, i ∈ t.sleeping → i ∈ s.sleeping) : Names s t where
  nextHandle := hnext.ge
  token := by
    rintro i (h | h | h | ⟨h, hh, hf⟩)
    · exact .inl (hc h)
    · exact .inl (.inr (.inl (ho ▸ h)))
    · exact .inl (.inr (.inr (.inl (hs h))))
    · exact .inl (.inr (.inr (.inr ⟨h, hpend hh, hf⟩)))

theorem Names.of_loop {s t : Net ρ μ υ} (hl : t.loop = s.loop)
    (ho : t.owned = s.owned) (hs : ∀ {i}, i ∈ t.sleeping → i ∈ s.sleeping) :
    Names s t :=
  .of_sub (by rw [hl]; exact List.Subset.refl _) (by rw [hl])
    (fun h => .inl (hl ▸ h)) ho hs

theorem Names.refl (s : Net ρ μ υ) : Names s s := .of_loop rfl rfl fun h => h

/-- One more handle, under the number the counter had. -/
theorem Names.push {s t : Net ρ μ υ} {c : Callback μ υ} {when? : Option When}
    (hpend : t.loop.pending.Perm
      (⟨s.loop.nextHandle, c, when?⟩ :: s.loop.pending))
    (hnext : t.loop.nextHandle = s.loop.nextHandle + 1)
    (hc : t.loop.cancelled = s.loop.cancelled)
    (ho : ∀ {i}, i ∈ t.owned → i ∈ s.owned ∨ i = s.loop.nextHandle)
    (hs : ∀ {i}, i ∈ t.sleeping → i ∈ s.sleeping ∨ i = s.loop.nextHandle)
    (hf : ∀ {i}, c.fut? = some i → Token s i ∨ i = s.loop.nextHandle) :
    Names s t where
  nextHandle := hnext ▸ Nat.le_succ _
  token := by
    have hnew : ∀ {i}, i = s.loop.nextHandle →
        s.loop.nextHandle ≤ i ∧ i < t.loop.nextHandle := by
      rintro i rfl
      exact ⟨le_rfl, hnext ▸ Nat.lt_succ_self _⟩
    rintro i (h | h | h | ⟨h, hh, hfut⟩)
    · exact .inl (.inl (hc ▸ h))
    · exact (ho h).imp (fun h => .inr (.inl h)) hnew
    · exact (hs h).imp (fun h => .inr (.inr (.inl h))) hnew
    · rcases List.mem_cons.mp (hpend.subset hh) with rfl | hmem
      · exact (hf hfut).imp_right hnew
      · exact .inl (.inr (.inr (.inr ⟨h, hmem, hfut⟩)))

theorem Names.callAt (s : Net ρ μ υ) (when : When) (c : Callback μ υ)
    (hc : ∀ i, c.fut? = some i → i = s.loop.nextHandle) :
    Names s { s with loop := s.loop.callAt when c } :=
  .push (s.loop.pending_callAt _ c) rfl rfl .inl .inl fun h => .inr (hc _ h)

theorem Names.record {s t : Net ρ μ υ} (h : Names s t) (e : Event μ) :
    Names s (t.record e) := h.trans (.of_loop rfl rfl fun h => h)

theorem Names.netAt {s t : Net ρ μ υ} (h : Names s t) (when : ℚ)
    {c : Callback μ υ} (hc : c.isNet = true) : Names s (t.callAt when c) := by
  refine h.trans (.callAt t _ c fun i hi => ?_)
  cases c with
  | deliver | fault => cases hi
  | _ => cases hc

theorem Names.schedule (s : Net ρ μ υ) (now : ℚ) (r : Resolved) :
    Names s (s.schedule now r) := by
  have hid : ∀ e, Names s (recordAt
      { s with nextFaultId := s.nextFaultId + 1 } now e) :=
    fun e => .of_loop rfl rfl fun h => h
  cases r with
  | partition groups start stop => exact ((hid _).netAt _ rfl).netAt _ rfl
  | slowLink a b factor start stop => exact ((hid _).netAt _ rfl).netAt _ rfl
  | crash node at_ => exact (hid _).netAt _ rfl

theorem Names.sendAs (s : Net ρ μ υ) (src dst : Address) (msg : μ)
    (how : Sent) : Names s (s.sendAs src dst msg how) := by
  have hbegin : Names s (s.beginSend src dst) := .of_loop rfl rfl fun h => h
  cases how with
  | reliable base =>
      refine Names.netAt (hbegin.trans (.of_loop ?_ ?_ ?_)) _ rfl
      · rfl
      · rfl
      · exact fun h => h
  | dropped => exact hbegin.record _
  | once base => exact hbegin.netAt _ rfl
  | twice base extra => exact ((hbegin.netAt _ rfl).record _).netAt _ rfl

theorem Names.sleep (s : Net ρ μ υ) (seconds : ℚ) (k : υ) :
    Names s (s.sleep seconds k) := by
  unfold Net.sleep
  dsimp only
  split
  · refine .push (c := .wake s.loop.nextHandle k)
      (s.loop.pending_callAt _ _) rfl rfl .inl ?_ ?_
    · intro i h
      exact ((AList.mem_insert _).mp h).symm
    · rintro i ⟨⟩
      exact .inr rfl
  · refine .push (c := .resume s.loop.nextHandle k)
      (s.loop.pending_callSoon _) rfl rfl .inl .inl ?_
    rintro i ⟨⟩
    exact .inr rfl

theorem Names.finishSleep (s : Net ρ μ υ) (fut : ℕ) :
    Names s (s.finishSleep fut) := by
  unfold Net.finishSleep
  split
  · exact .refl s
  · next k hk =>
    have hmem : fut ∈ s.sleeping := AList.lookup_isSome.mp (by rw [hk]; rfl)
    refine .push (c := .resume fut k) (s.loop.pending_callSoon _) rfl rfl .inl
      ?_ ?_
    · intro i h
      exact .inl (AList.mem_erase.mp h).2
    · rintro i ⟨⟩
      exact .inl (.inr (.inr (.inl hmem)))

theorem Effect.names {s t : Net ρ μ υ} (h : Effect s t) : Names s t := by
  cases h with
  | draws | setPartition | bind | inbox => exact .of_loop rfl rfl fun h => h
  | userSoon k =>
      refine .push (c := .user k) (s.loop.pending_callSoon _) rfl rfl ?_ .inl
        (by rintro i ⟨⟩)
      intro i h
      exact (Finset.mem_insert.mp h).symm
  | userTimer when k =>
      refine .push (c := .user k) (s.loop.pending_callAt _ _) rfl rfl ?_ .inl
        (by rintro i ⟨⟩)
      intro i h
      exact (Finset.mem_insert.mp h).symm
  | cancel handle hown =>
      refine .of_sub (List.Subset.refl _) rfl ?_ rfl fun h => h
      intro i h
      rcases Finset.mem_insert.mp h with rfl | h
      · exact .inr (.inl hown)
      · exact .inl h
  | stop => exact .of_sub (List.Subset.refl _) rfl .inl rfl fun h => h
  | record event => exact (Names.refl s).record _
  | schedule seconds r _ => exact .schedule s _ r
  | sleep seconds k => exact .sleep s seconds k
  | cancelRunFor fut =>
      have hgiven : Names s { s with abandoned := insert fut s.abandoned } :=
        .of_loop rfl rfl fun h => h
      exact hgiven.trans (.finishSleep _ fut)

theorem Effects.names {s t : Net ρ μ υ} (h : Effects s t) : Names s t :=
  h.invariant (I := Names s) (fun he hs => hs.trans he.names) (.refl s)

theorem Sends.names {s t : Net ρ μ υ} {src dst : Address} {msg : μ}
    {endpoint : Endpoint μ} {how : Sent} (h : Sends s t src dst msg endpoint how) :
    Names s t := by
  obtain ⟨g, f, rfl⟩ := h.eq
  have hdrawn : Names s { s with netRng := g, faultsRng := f } :=
    .of_loop rfl rfl fun h => h
  exact hdrawn.trans (.sendAs _ _ dst msg how)

theorem Names.deliver (s : Net ρ μ υ) (mid : ℕ) (src dst : Address) (msg : μ) :
    Names s (s.deliver mid src dst msg) := by
  unfold Net.deliver
  split
  · exact .of_loop rfl rfl fun h => h
  · split
    · exact .of_loop rfl rfl fun h => h
    · dsimp only
      split
      · exact .of_loop rfl rfl fun h => h
      · exact .of_loop rfl rfl fun h => h

theorem Names.runFault (s : Net ρ μ υ) (c : FaultCallback) :
    Names s (s.runFault c) := by
  cases c
  all_goals exact .of_loop rfl rfl fun h => h

/-- Nothing but `beginStep` is left out: the loop makes other moves, and no
handle becomes one that can be cancelled. -/
structure Tame (s t : Net ρ μ υ) : Prop where
  quiet : Quiet s t
  names : Names s t

theorem Tame.refl (s : Net ρ μ υ) : Tame s s := ⟨.of_eq rfl rfl, .refl s⟩

theorem Tame.trans {s t u : Net ρ μ υ} (h : Tame s t) (h' : Tame t u) :
    Tame s u := ⟨h.quiet.trans h'.quiet, h.names.trans h'.names⟩

theorem Tame.callSoon (s : Net ρ μ υ) (k : υ) :
    Tame s { s with loop := s.loop.callSoon (.user k) } :=
  ⟨.of_move (m := .callSoon (.user k)) (by simp) rfl rfl,
    .push (c := .user k) (s.loop.pending_callSoon _) rfl rfl .inl .inl
      (by rintro i ⟨⟩)⟩

theorem Tame.stop (s : Net ρ μ υ) : Tame s { s with loop := s.loop.stop } :=
  ⟨.of_move (m := .stop) (by simp) rfl rfl,
    .of_sub (List.Subset.refl _) rfl .inl rfl fun h => h⟩

theorem Tame.clearStop (s : Net ρ μ υ) :
    Tame s { s with loop := { s.loop with stopping := false } } :=
  ⟨.of_move (m := .clearStop) (by simp) rfl rfl,
    .of_sub (List.Subset.refl _) rfl .inl rfl fun h => h⟩

theorem Tame.pop {s : Net ρ μ υ} {h : Handle (Callback μ υ)}
    {rest : List (Handle (Callback μ υ))} (hready : s.loop.ready = h :: rest) :
    Tame s { s with loop := { s.loop with ready := rest } } := by
  refine ⟨.of_move (m := .popReady) (by simp) (by simp [Loop.step, hready]) rfl,
    .of_sub ?_ rfl .inl rfl fun h => h⟩
  intro x hx
  rw [Loop.pending, hready]
  exact List.mem_cons_of_mem _ hx

/-- What the callback of a handle that was ready does. -/
theorem Tame.runCallback {s : Net ρ μ υ} {h : Handle (Callback μ υ)}
    {rest : List (Handle (Callback μ υ))} (hready : s.loop.ready = h :: rest) :
    Tame s (Net.runCallback { s with loop := { s.loop with ready := rest } }
      h.callback) := by
  have hpop := Tame.pop hready
  refine ⟨hpop.quiet.trans (.runCallback _ _), ?_⟩
  have hnamed : ∀ fut, h.callback.fut? = some fut → Token s fut := fun fut hfut =>
    .inr (.inr (.inr ⟨h, by simp [Loop.pending, hready], hfut⟩))
  cases hc : h.callback with
  | user k => exact hpop.names
  | deliver mid src dst msg => exact hpop.names.trans (.deliver _ mid src dst msg)
  | fault c => exact hpop.names.trans (.runFault _ c)
  | wake fut k => exact hpop.names.trans (.finishSleep _ fut)
  | resume fut k =>
      refine .of_sub ?_ rfl ?_ rfl fun h => h
      · intro x hx
        rw [Loop.pending, hready]
        exact List.mem_cons_of_mem _ hx
      · intro i hi
        rcases Finset.mem_insert.mp hi with rfl | hi
        · exact hnamed _ (by rw [hc]; rfl)
        · exact .inl hi

theorem Tame.op [Random ρ] {s t : Net ρ μ υ} {o : Op μ υ} {r : Reply μ}
    (h : s.op o = some (t, r)) : Tame s t := by
  rcases op_cases h with ⟨_, _, _, _, _, -, hsends⟩ | ⟨-, heff⟩
  · exact ⟨hsends.quiet, hsends.names⟩
  · exact ⟨heff.quiet, heff.names⟩

end Net

/-- An operation that neither calls nor ends a `run_until`. -/
def UserOp.isApart {μ κ υ ε : Type} : UserOp μ κ υ ε → Bool
  | .runUntil _ _ _ | .endRunUntil => false
  | _ => true

namespace World

variable {ρ μ κ υ ε : Type}

/-! ## Moves -/

/-- A world, and whether it is in a step. -/
structure Point (ρ μ κ υ ε : Type) where
  world : World ρ μ κ υ ε
  inStep : Bool

/-- A move of a drive. Checks are known by the step they are of and what they
had to look at. -/
inductive Move (μ κ υ ε : Type) where
  | op (o : UserOp μ κ υ ε)
  | begin
  | checks (step : ℕ) (view : View μ υ)
  | aborted
  | clear
  | tidy

/-- What is done to a world without a task, a check or a `run_until` having to
do with it. -/
structure Tidy (w w' : World ρ μ κ υ ε) : Prop where
  net : Net.Tame w.net w'.net
  tasks : w'.tasks = w.tasks
  taskSeq : w'.taskSeq = w.taskSeq
  hooks : w'.hooks = w.hooks
  runUntilActive : w'.runUntilActive = w.runUntilActive
  runUntil : w'.runUntil = w.runUntil
  nextCall : w'.nextCall = w.nextCall

variable [Raisable ε] [Random ρ]

/-- The moves. A step is aborted when it deadlocks or is cut by the limit, when
an interrupt ends its batch, and when one ends its checks. -/
inductive Moves : Point ρ μ κ υ ε → Move μ κ υ ε → Point ρ μ κ υ ε → Prop
  | op (w : World ρ μ κ υ ε) (b : Bool) (o : UserOp μ κ υ ε) :
      Moves ⟨w, b⟩ (.op o) ⟨(userOp o w).2, b⟩
  | begin {w w' : World ρ μ κ υ ε} (h : startStep w = (.ok (), w')) :
      Moves ⟨w, false⟩ .begin ⟨w', true⟩
  | stuck {w w' : World ρ μ κ υ ε} {r : Res (Exc ε) Unit}
      (h : startStep w = (r, w')) (hr : r ≠ .ok ()) :
      Moves ⟨w, false⟩ .aborted ⟨w', false⟩
  | interrupted (w : World ρ μ κ υ ε) :
      Moves ⟨w, true⟩ .aborted ⟨w, false⟩
  | checks {w w' : World ρ μ κ υ ε} {r : Res (Exc ε) Unit}
      (h : afterStep w = (r, w'))
      (hr : ∀ e, r = .raised e → e.kind = .exception) :
      Moves ⟨w, true⟩ (.checks w.steps w.view) ⟨w', false⟩
  | cut {w w' : World ρ μ κ υ ε} {e : Exc ε}
      (h : afterStep w = (.raised e, w')) (he : e.kind ≠ .exception) :
      Moves ⟨w, true⟩ .aborted ⟨w', false⟩
  | clear (w : World ρ μ κ υ ε) (b : Bool) :
      Moves ⟨w, b⟩ .clear ⟨w.clearHooks, b⟩
  | tidy {w w' : World ρ μ κ υ ε} (b : Bool) (h : Tidy w w') :
      Moves ⟨w, b⟩ .tidy ⟨w', b⟩

/-- From one world to another, in a step or between two. -/
def Stays (b : Bool) (w w' : World ρ μ κ υ ε) : Prop :=
  Leads Moves ⟨w, b⟩ ⟨w', b⟩

instance (b : Bool) : Std.Refl (Stays b : World ρ μ κ υ ε → _ → Prop) :=
  ⟨fun _ => ⟨[], .nil⟩⟩

instance (b : Bool) : IsTrans (World ρ μ κ υ ε) (Stays b) :=
  ⟨fun _ _ _ ⟨ms, h⟩ ⟨ms', h'⟩ => ⟨ms ++ ms', h.trans h'⟩⟩

theorem Tidy.stays {w w' : World ρ μ κ υ ε} (h : Tidy w w') (b : Bool) :
    Stays b w w' := .of_step (.tidy b h)

omit [Raisable ε] [Random ρ] in
/-- Marks, notes and what limits and watches the loop. -/
theorem Tidy.of_net {w w' : World ρ μ κ υ ε} (hnet : Net.Tame w.net w'.net)
    (h : w' = { w with
      net := w'.net, tearingDown := w'.tearingDown, watch := w'.watch
      stopIn := w'.stopIn, settle := w'.settle, stepsLeft := w'.stepsLeft
      stepError := w'.stepError, gather := w'.gather, notes := w'.notes
      steps := w'.steps, closed := w'.closed, log := w'.log }) :
    Tidy w w' := by
  rw [h] at hnet ⊢
  exact ⟨hnet, rfl, rfl, rfl, rfl, rfl, rfl⟩

/-! ## What user code and the checks do -/

/-- The stamps that were given, and the one that is next. -/
def stamps (w : World ρ μ κ υ ε) : List ℤ × ℤ :=
  (w.tasks.map Task.seq, w.taskSeq)

/-- One more task, with a stamp or without one. -/
def give (s : List ℤ × ℤ) (stamped : Bool) : List ℤ × ℤ :=
  if stamped then (s.1 ++ [s.2], s.2 + 1) else (s.1 ++ [-1], s.2)

/-- From `w` to `w'` by what neither calls nor ends a `run_until`: tasks may be
created, the hook of the properties installed, and the `run_until` that waits
resolved in a way that `P` has. -/
structure Serves (P : Decision ε → Prop) (w w' : World ρ μ κ υ ε) : Prop where
  net : Net.Tame w.net w'.net
  stamps : ∃ flags : List Bool, w'.stamps = flags.foldl give w.stamps
  hooks : ∃ added : List Hook, w'.hooks = w.hooks ++ added ∧
    ∀ h ∈ added, h = .checkInvariants
  runUntilActive : w'.runUntilActive = w.runUntilActive
  runUntil : w'.runUntil = w.runUntil ∨ ∃ r d, w.runUntil = some r ∧
    r.done = none ∧ P d ∧ w'.runUntil = some { r with done := some d }
  nextCall : w'.nextCall = w.nextCall

section

omit [Raisable ε] [Random ρ]

variable {P : Decision ε → Prop} {w w' w'' : World ρ μ κ υ ε}

theorem Tidy.serves (h : Tidy w w') : Serves P w w' where
  net := h.net
  stamps := ⟨[], by simp [stamps, h.tasks, h.taskSeq]⟩
  hooks := ⟨[], by simp [h.hooks], by simp⟩
  runUntilActive := h.runUntilActive
  runUntil := .inl h.runUntil
  nextCall := h.nextCall

theorem Serves.trans (h : Serves P w w') (h' : Serves P w' w'') :
    Serves P w w'' where
  net := h.net.trans h'.net
  stamps := by
    obtain ⟨flags, hflags⟩ := h.stamps
    obtain ⟨flags', hflags'⟩ := h'.stamps
    exact ⟨flags ++ flags', by rw [List.foldl_append, ← hflags, hflags']⟩
  hooks := by
    obtain ⟨added, hadded, hall⟩ := h.hooks
    obtain ⟨added', hadded', hall'⟩ := h'.hooks
    refine ⟨added ++ added', by rw [hadded', hadded, List.append_assoc], ?_⟩
    exact fun x hx => (List.mem_append.mp hx).elim (hall x) (hall' x)
  runUntilActive := h'.runUntilActive.trans h.runUntilActive
  runUntil := by
    rcases h.runUntil with heq | ⟨r, d, hr, hd, hP, heq⟩
    · rw [← heq]
      exact h'.runUntil
    · rcases h'.runUntil with heq' | ⟨r', d', hr', hd', -, -⟩
      · exact .inr ⟨r, d, hr, hd, hP, heq'.trans heq⟩
      · rw [heq, Option.some.injEq] at hr'
        rw [← hr'] at hd'
        cases hd'
  nextCall := h'.nextCall.trans h.nextCall

theorem stamps_modify (w : World ρ μ κ υ ε) (task : ℕ)
    (f : Task κ ε → Task κ ε) (hf : ∀ t, (f t).seq = t.seq) :
    stamps { w with tasks := w.tasks.modify task f } = w.stamps := by
  have hseqs : (w.tasks.modify task f).map Task.seq = w.tasks.map Task.seq := by
    refine List.ext_getElem? fun i => ?_
    rw [List.getElem?_map, List.getElem?_map, List.getElem?_modify]
    cases w.tasks[i]? with
    | none => rfl
    | some t =>
        by_cases h : task = i
        · simp [h, hf]
        · simp [h]
  exact congrArg (·, w.taskSeq) hseqs

theorem modify_serves (w : World ρ μ κ υ ε) (task : ℕ)
    (f : Task κ ε → Task κ ε) (hf : ∀ t, (f t).seq = t.seq) :
    Serves P w { w with tasks := w.tasks.modify task f } where
  net := .refl _
  stamps := ⟨[], stamps_modify w task f hf⟩
  hooks := ⟨[], (List.append_nil _).symm, by simp⟩
  runUntilActive := rfl
  runUntil := .inl rfl
  nextCall := rfl

theorem callSoon_tidy (w : World ρ μ κ υ ε) (job : Job κ) :
    Tidy w (w.callSoon job) := .of_net (.callSoon _ _) rfl

theorem mark_tidy (w : World ρ μ κ υ ε) (m : Mark μ υ ε) : Tidy w (w.mark m) :=
  .of_net (.refl _) rfl

theorem createTask_serves (w : World ρ μ κ υ ε) (stamped : Bool) (k : κ) :
    Serves P w (w.createTask stamped k) where
  net := .callSoon _ _
  stamps := by
    refine ⟨[stamped], ?_⟩
    cases stamped <;> simp [stamps, createTask, callSoon, give]
  hooks := ⟨[], (List.append_nil _).symm, by simp⟩
  runUntilActive := rfl
  runUntil := .inl rfl
  nextCall := rfl

theorem start_serves (w : World ρ μ κ υ ε) (k : κ) : Serves P w (w.start k) := by
  have hstart : Tidy w (mark { w with started := w.started ++ [w.tasks.length] }
      (.started w.tasks.length)) := ⟨.refl _, rfl, rfl, rfl, rfl, rfl, rfl⟩
  exact hstart.serves.trans (createTask_serves _ true k)

theorem finishTask_serves (w : World ρ μ κ υ ε) (task : ℕ) (o : Outcome ε) :
    Serves P w (w.finishTask task o) := by
  have hmodify : Serves P w _ := modify_serves w task
    (fun t => { t with outcome := some o }) fun _ => rfl
  have hmark := hmodify.trans (mark_tidy _ (.finished task o)).serves
  simp only [finishTask]
  split
  · exact hmark.trans (callSoon_tidy _ _).serves
  · exact hmark

theorem always_serves (w : World ρ μ κ υ ε) (name : String)
    (p : Predicate μ υ ε) : Serves P w (w.always name p) := by
  have hrefl : Tidy w w := .of_net (.refl _) rfl
  simp only [always]
  split
  · exact hrefl.serves
  · split
    · have hadd : Tidy w (mark { w with
          invariants := w.invariants ++ [(name, p)] } (.always name p)) :=
        ⟨.refl _, rfl, rfl, rfl, rfl, rfl, rfl⟩
      exact hadd.serves
    · exact ⟨.refl _, ⟨[], rfl⟩, ⟨[.checkInvariants], rfl, by simp⟩, rfl,
        .inl rfl, rfl⟩

theorem wake_serves (hP : P .cancelled) (w : World ρ μ κ υ ε) (x : Wake κ) :
    Serves P w (w.wake x) := by
  have hrefl : Tidy w w := .of_net (.refl _) rfl
  cases x with
  | ready k => exact (callSoon_tidy w _).serves
  | runUntil =>
      simp only [wake, cancelRunUntil]
      split
      · next r hr =>
        split
        · exact hrefl.serves
        · next hdone =>
          refine Serves.trans ?_ (callSoon_tidy _ _).serves
          have hnone : r.done = none := by simpa using hdone
          exact ⟨.refl _, ⟨[], rfl⟩, ⟨[], (List.append_nil _).symm, by simp⟩,
            rfl, .inr ⟨r, .cancelled, hr, hnone, hP, rfl⟩, rfl⟩
      · exact hrefl.serves

theorem cancelTask_serves (hP : P .cancelled) (w : World ρ μ κ υ ε)
    (task : ℕ) : Serves P w (w.cancelTask task) := by
  have hrefl : Tidy w w := .of_net (.refl _) rfl
  have hfold : ∀ (xs : List (Wake κ)) (u : World ρ μ κ υ ε), Serves P w u →
      Serves P w (xs.foldl wake u) := by
    intro xs
    induction xs with
    | nil => exact fun u hu => hu
    | cons x xs ih => exact fun u hu => ih _ (hu.trans (wake_serves hP u x))
  rw [cancelTask]
  split
  · split
    · exact hrefl.serves
    · exact hfold _ _ (modify_serves w task _ fun _ => rfl)
  · exact hrefl.serves

theorem resolve_serves {r : RunUntil μ κ υ ε} {d : Decision ε} (hP : P d)
    (hr : w.runUntil = some r) (hdone : r.done = none) :
    Serves P w (w.resolve r d) := by
  have hset : Serves P w
      { w with runUntil := some { r with done := some d } } :=
    ⟨.refl _, ⟨[], rfl⟩, ⟨[], (List.append_nil _).symm, by simp⟩, rfl,
      .inr ⟨r, d, hr, hdone, hP, rfl⟩, rfl⟩
  simp only [resolve]
  split
  · exact hset.trans (callSoon_tidy _ _).serves
  · exact hset

end

instance (P : Decision ε → Prop) :
    Std.Refl (Serves P : World ρ μ κ υ ε → _ → Prop) :=
  ⟨fun w => (Tidy.of_net (.refl w.net) rfl).serves⟩

instance (P : Decision ε → Prop) : IsTrans (World ρ μ κ υ ε) (Serves P) :=
  ⟨fun _ _ _ h h' => h.trans h'⟩

theorem userOp_serves {P : Decision ε → Prop} (hP : P .cancelled)
    {o : UserOp μ κ υ ε} (ho : o.isApart = true) :
    Exec.Within (Serves P) (userOp o : Run ρ μ κ υ ε Unit) := by
  have hinterrupt : ∀ e : Exc ε, Exec.Within (Serves P)
      (interrupt e : Run ρ μ κ υ ε Unit) := fun e =>
    Exec.Within.bind (fun w => (mark_tidy w _).serves) fun _ =>
      Exec.within_raise
  cases o with
  | net o =>
      intro w
      simp only [userOp, Exec.update]
      cases hop : w.net.op (o.map .user) with
      | none => exact Std.Refl.refl w
      | some r =>
          obtain ⟨net, r⟩ := r
          have hnet : Tidy w { w with net := net } := .of_net (.op hop) rfl
          cases o with
          | stop => exact (hnet.serves).trans (mark_tidy _ _).serves
          | _ => exact hnet.serves
  | set user =>
      intro w
      have hset : Tidy w { w with user := user } :=
        ⟨.refl _, rfl, rfl, rfl, rfl, rfl, rfl⟩
      exact hset.serves
  | always name p => exact fun w => always_serves w name p
  | runUntil p d k => cases ho
  | endRunUntil => cases ho
  | createTask stamped k => exact fun w => createTask_serves w stamped k
  | start k => exact fun w => start_serves w k
  | finish task outcome =>
      have hfinish : Exec.Within (Serves P) (Exec.update
          (·.finishTask task outcome) : Run ρ μ κ υ ε Unit) :=
        fun w => finishTask_serves w task outcome
      cases outcome with
      | raised e =>
          simp only [userOp]
          refine .look fun w => ?_
          split
          · refine hfinish.bind fun _ => ?_
            split
            · exact hinterrupt e
            · exact Exec.within_pure
          · exact Exec.within_pure
      | returned | cancelled =>
          simp only [userOp]
          refine .look fun w => ?_
          split
          · exact hfinish.bind fun _ => Exec.within_pure
          · exact Exec.within_pure
  | await task onCancel =>
      exact fun w => modify_serves w task _ fun _ => rfl
  | cancelTask task => exact fun w => cancelTask_serves hP w task
  | interrupt e =>
      rw [userOp]
      split
      · exact hinterrupt e
      · exact Exec.within_pure

omit [Raisable ε] [Random ρ] in
theorem mark_serves {P : Decision ε → Prop} (m : Mark μ υ ε) :
    Exec.Within (Serves P) (Exec.update (·.mark m) : Run ρ μ κ υ ε Unit) :=
  fun w => (mark_tidy w m).serves

omit [Raisable ε] [Random ρ] in
theorem checkInvariants_serves {P : Decision ε → Prop} :
    Exec.Within (Serves P) (checkInvariants : Run ρ μ κ υ ε Unit) := by
  refine .look fun w => Exec.Within.forEach (fun p => ?_) _
  refine .look fun w => .bind (mark_serves _) fun _ => ?_
  split
  · exact Exec.within_pure
  · exact Exec.within_raise
  · exact Exec.within_raise

omit [Random ρ] in
theorem check_serves {P : Decision ε → Prop} (hP : ∀ d, P d) (call : ℕ) :
    Exec.Within (Serves P)
      (World.check call : Run ρ μ κ υ ε (Option (Exc ε))) := by
  refine .of_wp fun w => ?_
  rw [World.check, Exec.wp_look_apply]
  split
  · exact Std.Refl.refl w
  · next r hr =>
    split
    · exact Std.Refl.refl w
    · next hopen =>
      have hnone : r.done = none := by
        rw [not_or, Option.not_isSome_iff_eq_none] at hopen
        exact hopen.2
      split
      · split
        · exact resolve_serves (hP _) hr hnone
        · exact Std.Refl.refl w
      · exact resolve_serves (hP _) hr hnone
      · split
        · split
          · exact resolve_serves (hP _) hr hnone
          · exact Std.Refl.refl w
        · exact Std.Refl.refl w

omit [Random ρ] in
theorem runHooks_serves {P : Decision ε → Prop} (hP : ∀ d, P d)
    (hooks : List Hook) (first : Option (Exc ε)) (notes : List (Exc ε)) :
    Exec.Within (Serves P) (runHooks hooks first notes :
      Run ρ μ κ υ ε (Option (Exc ε) × List (Exc ε))) := by
  have hhook : ∀ hook : Hook, Exec.Within (Serves P)
      (runHook hook : Run ρ μ κ υ ε (Option (Exc ε))) := by
    intro hook
    cases hook with
    | checkInvariants =>
        exact checkInvariants_serves.bind fun _ => Exec.within_pure
    | check call => exact check_serves hP call
  induction hooks generalizing first notes with
  | nil => exact Exec.within_pure
  | cons hook hooks ih =>
      rw [runHooks]
      refine (hhook hook).attempt.bind fun r => ?_
      split
      · exact ih first notes
      · exact ih first _
      · split
        · split
          · exact (mark_serves _).bind fun _ => ih _ notes
          · exact ih _ _
        · split
          · exact (mark_serves _).bind fun _ => Exec.within_raise
          · exact (mark_serves _).bind fun _ => Exec.within_raise

omit [Random ρ] in
theorem afterStep_serves {P : Decision ε → Prop} (hP : ∀ d, P d) :
    Exec.Within (Serves P) (afterStep : Run ρ μ κ υ ε Unit) := by
  have hnote : ∀ first note : Exc ε, Exec.Within (Serves P)
      (addStepNote first note : Run ρ μ κ υ ε Unit) := by
    intro first note
    rw [addStepNote]
    split
    · next text _ _ =>
      have hadd : ∀ w : World ρ μ κ υ ε, Tidy w { w with
          notes := w.notes ++ [(first,
            "another after-step check also failed this step: " ++ text)] } :=
        fun w => .of_net (.refl _) rfl
      exact fun w => (hadd w).serves
    · exact (mark_serves _).bind fun _ => Exec.within_raise
    · exact (mark_serves _).bind fun _ => Exec.within_raise
  refine .look fun w => .bind (mark_serves _) fun _ =>
    (runHooks_serves hP _ _ _).bind fun r => ?_
  split
  · exact Exec.within_pure
  · exact (Exec.Within.forEach (hnote _) _).bind fun _ => Exec.within_raise

/-- What a step does before its batch. -/
structure Starts (w w' : World ρ μ κ υ ε) : Prop where
  net : w'.net = w.net ∨ w'.net = { w.net with
    loop := (w.net.loop.beginStep w.stopIn.isSome).1 }
  stamps : w'.stamps = w.stamps
  hooks : w'.hooks = w.hooks
  runUntilActive : w'.runUntilActive = w.runUntilActive
  runUntil : w'.runUntil = w.runUntil
  nextCall : w'.nextCall = w.nextCall

omit [Raisable ε] [Random ρ] in
theorem startStep_starts {w w' : World ρ μ κ υ ε} {r : Res (Exc ε) Unit}
    (h : startStep w = (r, w')) : Starts w w' := by
  obtain rfl : (startStep w).2 = w' := congrArg Prod.snd h
  by_cases hlimit : w.stepsLeft = some 0
  · simp only [startStep, takeStep, Exec.look, bind, Exec.update, hlimit, fail,
      Exec.raise]
    exact ⟨.inl rfl, rfl, rfl, rfl, rfl, rfl⟩
  · simp only [startStep, bind, takeStep_eq hlimit, beginStep_eq]
    split
    · exact ⟨.inr rfl, rfl, rfl, rfl, rfl, rfl⟩
    · exact ⟨.inr rfl, rfl, rfl, rfl, rfl, rfl⟩

/-- What a move can do: serve, begin a step, clear the checks, or what user
code does about a `run_until`. -/
theorem Moves.cases {p q : Point ρ μ κ υ ε} {m : Move μ κ υ ε}
    (h : Moves p m q) :
    Serves (fun _ => True) p.world q.world ∨ Starts p.world q.world ∨
      m = .clear ∧ q.world = p.world.clearHooks ∨
      ∃ o, m = .op o ∧ o.isApart = false ∧ q.world = (userOp o p.world).2 := by
  have hchecks : ∀ {w w' : World ρ μ κ υ ε} {r}, afterStep w = (r, w') →
      Serves (fun _ => True) w w' := by
    intro w w' r h
    obtain rfl : (afterStep w).2 = w' := congrArg Prod.snd h
    exact afterStep_serves (fun _ => trivial) w
  cases h with
  | op w b o =>
      cases ho : o.isApart with
      | true => exact .inl (userOp_serves trivial ho w)
      | false => exact .inr (.inr (.inr ⟨o, rfl, ho, rfl⟩))
  | begin h => exact .inr (.inl (startStep_starts h))
  | stuck h _ => exact .inr (.inl (startStep_starts h))
  | interrupted w => exact .inl (Std.Refl.refl w)
  | checks h _ => exact .inl (hchecks h)
  | cut h _ => exact .inl (hchecks h)
  | clear w b => exact .inr (.inr (.inl ⟨rfl, rfl⟩))
  | tidy b h => exact .inl h.serves

theorem update_tidy {b : Bool} {f : World ρ μ κ υ ε → World ρ μ κ υ ε}
    (h : ∀ w, Tidy w (f w)) :
    Exec.Within (Stays b) (Exec.update f : Run ρ μ κ υ ε Unit) :=
  Exec.within_update fun w => (h w).stays b

theorem userOp_stays (b : Bool) (o : UserOp μ κ υ ε) :
    Exec.Within (Stays b) (userOp o : Run ρ μ κ υ ε Unit) :=
  fun w => .of_step (.op w b o)

/-! ## A step -/

/-- The world when the next handle is off its queue. -/
def popped (w : World ρ μ κ υ ε)
    (ready : List (Handle (Callback μ (Job κ)))) : World ρ μ κ υ ε :=
  { w with net := { w.net with loop := { w.net.loop with ready := ready } } }

omit [Raisable ε] [Random ρ] in
theorem popped_tidy {w : World ρ μ κ υ ε} {h : Handle (Callback μ (Job κ))}
    {ready : List (Handle (Callback μ (Job κ)))}
    (hready : w.net.loop.ready = h :: ready) : Tidy w (w.popped ready) :=
  .of_net (.pop hready) rfl

omit [Raisable ε] [Random ρ] in
theorem ran_tidy {w : World ρ μ κ υ ε} {h : Handle (Callback μ (Job κ))}
    {ready : List (Handle (Callback μ (Job κ)))}
    (hready : w.net.loop.ready = h :: ready) :
    Tidy w { w.popped ready with
      net := (w.popped ready).net.runCallback h.callback } :=
  .of_net (.runCallback hready) rfl

omit [Raisable ε] [Random ρ] in
theorem gatherChild_tidy (w : World ρ μ κ υ ε) : Tidy w w.gatherChild := by
  rw [gatherChild]
  dsimp only
  split
  · split
    · exact .of_net (.callSoon _ _) rfl
    · exact .of_net (.refl _) rfl
  · exact .of_net (.refl _) rfl

/-- What comes of a handle off the queue. -/
theorem runJob_stays {w : World ρ μ κ υ ε} {h : Handle (Callback μ (Job κ))}
    {ready : List (Handle (Callback μ (Job κ)))}
    (hready : w.net.loop.ready = h :: ready)
    (turn : List (UserOp μ κ υ ε)) :
    Stays true w (runJob h.callback turn (w.popped ready)).2 := by
  have htrans : ∀ {s t u : World ρ μ κ υ ε}, Stays true s t → Stays true t u →
      Stays true s u := IsTrans.trans _ _ _
  have hpop : Stays true w (w.popped ready) := (popped_tidy hready).stays true
  have hstop : Tidy (w.popped ready) ((w.popped ready).stopLoop.mark .stop) :=
    .of_net (.stop _) rfl
  have hran := htrans ((ran_tidy hready).stays true)
    (Exec.Within.forEach (userOp_stays true) turn _)
  generalize h.callback = c at hran ⊢
  cases c with
  | user job =>
      cases job with
      | gatherChild => exact htrans hpop ((gatherChild_tidy _).stays true)
      | stopLoop => exact htrans hpop (hstop.stays true)
      | deadline => exact hpop
      | user k => exact hran
  | _ => exact hran

theorem runBatch_stays (n : ℕ) (turns : List (List (UserOp μ κ υ ε))) :
    Exec.Within (Stays true) (runBatch n turns : Run ρ μ κ υ ε Unit) := by
  have htrans : ∀ {s t u : World ρ μ κ υ ε}, Stays true s t → Stays true t u →
      Stays true s u := IsTrans.trans _ _ _
  induction n generalizing turns with
  | zero => exact Exec.within_pure
  | succ n ih =>
      rw [runBatch]
      refine Exec.within_look fun w => ?_
      cases hready : w.net.loop.ready with
      | nil => exact Std.Refl.refl w
      | cons h ready =>
          dsimp only
          split
          · exact htrans ((popped_tidy hready).stays true) (ih turns _)
          · have hjob := runJob_stays hready (turns.headD [])
            show Stays true w ((do
              runJob h.callback (turns.headD [])
              runBatch n turns.tail : Run ρ μ κ υ ε Unit) (w.popped ready)).2
            simp only [bind]
            rcases hx : runJob h.callback (turns.headD []) (w.popped ready)
              with ⟨r, v⟩
            rw [hx] at hjob
            cases r with
            | ok => exact htrans hjob (ih _ v)
            | raised e => exact hjob
            | pending => exact hjob

theorem takeTurns_stays :
    Exec.Within (Stays true) (takeTurns : Run ρ μ κ υ ε Unit) :=
  .look fun _ => runBatch_stays _ _

theorem countStop_stays (b : Bool) :
    Exec.Within (Stays b) (Exec.update countStop : Run ρ μ κ υ ε Unit) := by
  have htrans : ∀ {s t u : World ρ μ κ υ ε}, Stays b s t → Stays b t u →
      Stays b s u := IsTrans.trans _ _ _
  refine Exec.within_update fun w => ?_
  have hstopIn : ∀ n, Tidy w { w with stopIn := some n } := fun n =>
    .of_net (.refl _) rfl
  have hcount := fun n => (hstopIn n).stays b
  have hclear : ∀ u : World ρ μ κ υ ε, Stays b u u.clearHooks := fun u =>
    .of_step (.clear u b)
  have htidy : ∀ u : World ρ μ κ υ ε, Tidy u u.stopLoop := fun u =>
    .of_net (.stop _) rfl
  have hstop := fun u => (htidy u).stays b
  rw [countStop]
  split
  · exact Std.Refl.refl w
  · split
    · split
      · exact hcount 2
      · exact Std.Refl.refl w
    · dsimp only
      split
      · split
        · exact htrans (htrans (hcount _) (hclear _)) (hstop _)
        · exact htrans (hcount _) (hstop _)
      · split
        · exact htrans (hcount _) (hclear _)
        · exact hcount _

/-- A step, whatever comes of it. -/
theorem runOnce_stays :
    Exec.Within (Stays false) (runOnce : Run ρ μ κ υ ε Unit) := by
  have htrans : ∀ {p q r : Point ρ μ κ υ ε}, Leads Moves p q → Leads Moves q r →
      Leads Moves p r := IsTrans.trans _ _ _
  refine .of_wp fun w => ?_
  have hstart : Exec.wp startStep
      (fun _ => Exec.wp (do
          takeTurns
          afterStep
          Exec.update countStop)
        (fun _ => Stays false w) (fun _ => Stays false w) (Stays false w))
      (fun _ => Stays false w) (Stays false w) w := by
    rw [Exec.wp]
    rcases hs : startStep w with ⟨r, u⟩
    cases r with
    | raised e => exact .of_step (.stuck hs (by simp))
    | pending => exact .of_step (.stuck hs (by simp))
    | ok =>
        have hbegin : Leads Moves ⟨w, false⟩ ⟨u, true⟩ := .of_step (.begin hs)
        dsimp only
        simp only [Exec.wp_bind]
        refine (takeTurns_stays.wp (s := u)).mono ?_ ?_ ?_
        · intro _ v hv
          have hv := htrans hbegin hv
          rw [Exec.wp]
          rcases ha : afterStep v with ⟨r, x⟩
          cases r with
          | pending => exact htrans hv (.of_step (.checks ha (by simp)))
          | ok =>
              refine htrans (htrans hv (.of_step (.checks ha (by simp)))) ?_
              exact countStop_stays false x
          | raised e =>
              by_cases he : e.kind = .exception
              · exact htrans hv (.of_step (.checks ha (by simpa using he)))
              · exact htrans hv (.of_step (.cut ha he))
        · exact fun _ v hv =>
            htrans (htrans hbegin hv) (.of_step (.interrupted v))
        · exact fun v hv =>
            htrans (htrans hbegin hv) (.of_step (.interrupted v))
  rw [startStep, Exec.wp_bind] at hstart
  rw [runOnce, Exec.wp_bind]
  simp only [Exec.wp_bind] at hstart ⊢
  exact hstart

/-! ## The drive -/

theorem clearHooks_stays :
    Exec.Within (Stays false) (Exec.update clearHooks : Run ρ μ κ υ ε Unit) :=
  fun w => .of_step (.clear w false)

theorem cancelTasks_stays (pending : List ℕ) :
    Exec.Within (Stays false) (Exec.update fun w => pending.foldl cancelTask w :
      Run ρ μ κ υ ε Unit) := by
  intro w
  show Stays false w (pending.foldl cancelTask w)
  induction pending generalizing w with
  | nil => exact Std.Refl.refl w
  | cons t pending ih =>
      have ht : Stays false w (w.cancelTask t) :=
        .of_step (.op w false (.cancelTask t))
      exact IsTrans.trans _ _ _ ht (ih _)

theorem setWatch_stays (watch stopIn : Option ℕ) (settle : Bool) :
    Exec.Within (Stays false) (Exec.update (·.setWatch watch stopIn settle) :
      Run ρ μ κ υ ε Unit) :=
  update_tidy fun _ => .of_net (.refl _) rfl

theorem runForever_stays :
    Exec.Within (Stays false) (runForever : Run ρ μ κ υ ε Unit) := by
  refine .look fun w => (runOnce_stays.doUntil _).andFinally ?_
  exact update_tidy fun _ => .of_net (.clearStop _) rfl

theorem runUntilDone_stays (fut : ℕ) (settle : Bool) :
    Exec.Within (Stays false) (runUntilDone fut settle : Run ρ μ κ υ ε Unit) := by
  refine (setWatch_stays _ _ _).bind fun _ =>
    Exec.Within.andFinally ?_ (setWatch_stays _ _ _)
  refine runForever_stays.bind fun _ => .look fun w => ?_
  have hlast : Exec.Within (Stays false) (do
      Exec.update fun w => { w with stopIn := some 1 }
      runForever : Run ρ μ κ υ ε Unit) := by
    refine .bind (update_tidy fun w => ?_) fun _ => runForever_stays
    exact .of_net (.refl _) rfl
  split
  · split
    · exact clearHooks_stays.bind fun _ => hlast
    · exact hlast
  · exact Exec.within_pure

theorem runOneMoreStep_stays (fut : ℕ) :
    Exec.Within (Stays false) (runOneMoreStep fut : Run ρ μ κ υ ε Unit) :=
  (setWatch_stays _ _ _).bind fun _ =>
    runForever_stays.andFinally (setWatch_stays _ _ _)

theorem fail_stays {α : Type} (e : Exc ε) :
    Exec.Within (Stays false) (fail e : Run ρ μ κ υ ε α) := by
  refine .bind (update_tidy fun w => ?_) fun _ => Exec.within_raise
  exact .of_net (.refl _) rfl

theorem noteRaised_stays {α : Type} (e : Exc ε) :
    Exec.Within (Stays false) (noteRaised e : Run ρ μ κ υ ε α) := by
  refine .bind (update_tidy fun w => ?_) fun _ => Exec.within_raise
  exact .of_net (.refl _) rfl

theorem runScenario_stays :
    Exec.Within (Stays false) (runScenario : Run ρ μ κ υ ε Unit) := by
  refine (runUntilDone_stays _ _).bind fun _ => .look fun w => ?_
  split
  · exact Exec.within_pure
  · exact fail_stays _

theorem runUntilComplete_stays :
    Exec.Within (Stays false) (runUntilComplete : Run ρ μ κ υ ε Unit) := by
  refine .bind (update_tidy fun w => ?_) fun _ => .bind ?_ fun _ => .look fun w => ?_
  · exact .of_net (.refl _) rfl
  · refine runForever_stays.andFinally (update_tidy fun w => ?_)
    exact .of_net (.refl _) rfl
  · split
    · exact Exec.within_pure
    · exact Exec.within_raise

theorem runUntilGathered_stays :
    Exec.Within (Stays false) (runUntilGathered : Run ρ μ κ υ ε Unit) := by
  refine .look fun w => .whileDo (.bind ?_ fun r => ?_) _
  · exact runUntilComplete_stays.attempt
  · split
    · exact Exec.within_pure
    · refine .look fun w => ?_
      split
      · exact Exec.within_raise
      · split
        · exact Exec.within_pure
        · exact Exec.within_raise
        · exact noteRaised_stays _

theorem cancelRounds_stays (rounds : ℕ) :
    Exec.Within (Stays false) (cancelRounds rounds : Run ρ μ κ υ ε Unit) := by
  induction rounds with
  | zero => exact .look fun w => fail_stays _
  | succ rounds ih =>
      refine .look fun w => ?_
      dsimp only
      split
      · exact Exec.within_pure
      · refine .bind (update_tidy fun w => ?_) fun _ => .bind ?_ fun _ =>
          .bind (update_tidy fun w => ?_) fun _ =>
            .bind (update_tidy fun w => ?_) fun _ => .bind ?_ fun _ => ih
        · exact .of_net (.refl _) rfl
        · exact cancelTasks_stays _
        · exact .of_net (.refl _) rfl
        · exact .of_net (.refl _) rfl
        · exact runUntilGathered_stays

/-- Notes, and a mark where something gets out. -/
theorem stays_of_annotated {x : Run ρ μ κ υ ε Unit} {w : World ρ μ κ υ ε}
    (h : Exec.wp x (fun _ w' => Annotated w w') (Escapes w) (fun _ => False)
      w) :
    Exec.wp x (fun _ w' => Stays false w w') (fun _ w' => Stays false w w')
      (fun w' => Stays false w w') w := by
  have htidy : ∀ {w w' : World ρ μ κ υ ε}, Annotated w w' → Tidy w w' := by
    rintro w _ ⟨notes, rfl⟩
    exact .of_net (.refl _) rfl
  refine h.mono (fun _ _ h => (htidy h).stays false) ?_ fun _ h => h.elim
  rintro e _ ⟨-, u, hu, rfl⟩
  exact IsTrans.trans _ _ _ ((htidy hu).stays false)
    ((mark_tidy u _).stays false)

section

variable [DecidableEq ε]

theorem secondary_stays (failure : Option (Exc ε)) {x : Run ρ μ κ υ ε Unit}
    (hx : Exec.Within (Stays false) x) :
    Exec.Within (Stays false) (secondary failure x) := by
  refine hx.attempt.bind fun r => ?_
  split
  · exact Exec.within_pure
  · split
    · split
      · exact Exec.within_raise
      · exact .of_wp fun w => stays_of_annotated (noteError_annotated _ _ w)
    · exact Exec.within_raise

theorem noteReplaced_stays (failure : Option (Exc ε)) (e : Exc ε) :
    Exec.Within (Stays false) (noteReplaced failure e : Run ρ μ κ υ ε Unit) :=
  .of_wp fun w => stays_of_annotated (noteReplaced_annotated failure e w)

/-- The scenario's task is cancelled and run until it is done. -/
theorem unwindScenario_stays (failure : Option (Exc ε)) :
    Exec.Within (Stays false) (do
      Exec.update (·.cancelTask mainTask)
      secondary failure (Exec.look fun w =>
        Exec.whileDo (fun w => !w.done mainTask)
          (runUntilDone mainTask false) w.fuel)
      noteUnwound failure : Run ρ μ κ υ ε Unit) := by
  refine .bind (fun w => .of_step (.op w false (.cancelTask mainTask))) fun _ =>
    .bind (secondary_stays _ (.look fun w => ?_)) fun _ =>
      .of_wp fun w => stays_of_annotated (noteUnwound_annotated failure w)
  exact (runUntilDone_stays _ _).whileDo _

theorem settleScenario_stays (failure : Option (Exc ε)) :
    Exec.Within (Stays false)
      (settleScenario failure : Run ρ μ κ υ ε Unit) := by
  refine .bind (update_tidy fun w => ?_) fun _ => ?_
  · exact .of_net (.refl _) rfl
  · split
    · refine clearHooks_stays.bind fun _ => .look fun w => ?_
      split
      · exact unwindScenario_stays failure
      · exact secondary_stays _ (runOneMoreStep_stays _)
    · refine Exec.Within.look fun w => ?_
      split
      · exact unwindScenario_stays failure
      · exact Exec.within_pure

theorem settleRun_stays (ran : Except (Exc ε) Unit) :
    Exec.Within (Stays false) (settleRun ran : Run ρ μ κ υ ε Unit) := by
  have hmain : Exec.Within (Stays false) (mainResult : Run ρ μ κ υ ε Unit) := by
    refine .look fun w => ?_
    split
    · exact Exec.within_pure
    · exact Exec.within_raise
    · exact Exec.within_raise
    · exact Exec.within_raise
  have hnodes : Exec.Within (Stays false)
      (nodeFailures : Run ρ μ κ υ ε Unit) := by
    refine .look fun w => ?_
    split
    · exact Exec.within_raise
    · exact Exec.within_pure
  exact (settleScenario_stays _).bind fun _ => Exec.within_reraise.bind
    fun _ => hmain.bind fun _ => hnodes

theorem surface_stays (ran : Except (Exc ε) Unit) :
    Exec.Within (Stays false) (surface ran : Run ρ μ κ υ ε _) := by
  refine (settleRun_stays ran).attempt.bind fun r => ?_
  split
  · exact Exec.within_pure
  · refine (noteReplaced_stays _ _).attempt.bind fun noted => ?_
    split
    · exact Exec.within_pure
    · exact Exec.within_pure

theorem tearDown_stays (failure : Option (Exc ε)) :
    Exec.Within (Stays false) (tearDown failure : Run ρ μ κ υ ε Unit) := by
  have hrest : Exec.Within (Stays false) (do
      Exec.update fun w => mark { w with tearingDown := true }
        (.tearingDown failure w.pendingTasks)
      secondary failure cancelEverything : Run ρ μ κ υ ε Unit) := by
    refine .bind (update_tidy fun w => ?_) fun _ =>
      secondary_stays _ (cancelRounds_stays _)
    exact .of_net (.refl _) rfl
  refine .bind (Exec.Within.attempt ?_) fun r => ?_
  · split
    · exact clearHooks_stays.bind fun _ => hrest
    · exact hrest
  · split
    · exact Exec.within_pure
    · exact (noteReplaced_stays _ _).bind fun _ => Exec.within_raise

/-- A drive is a walk from where it starts to where it ends. -/
theorem drive_stays (main : κ) :
    Exec.Within (Stays false) (drive main : Run ρ μ κ υ ε Unit) := by
  refine .bind (update_tidy fun w => ?_) fun _ =>
    .bind (fun w => .of_step (.op w false (.createTask true main))) fun _ =>
      runScenario_stays.attempt.bind fun ran =>
        (surface_stays ran).bind fun r => .bind ?_ fun _ =>
          Exec.within_reraise
  · exact .of_net (.refl _) rfl
  · refine (tearDown_stays _).andFinally (update_tidy fun w => ?_)
    exact .of_net (.refl _) rfl

/-! ## The points of a drive -/

/-- A walk leads to it from where the drive starts, and one leads from it to
where the drive ends. -/
structure OnDrive (main : κ) (w : World ρ μ κ υ ε) (p : Point ρ μ κ υ ε) :
    Prop where
  past : Leads Moves ⟨w, false⟩ p
  future : Leads Moves p ⟨(drive main w).2, false⟩

theorem onDrive_start (main : κ) (w : World ρ μ κ υ ε) :
    OnDrive main w ⟨w, false⟩ :=
  ⟨⟨[], .nil⟩, drive_stays main w⟩

theorem onDrive_end (main : κ) (w : World ρ μ κ υ ε) :
    OnDrive main w ⟨(drive main w).2, false⟩ :=
  ⟨drive_stays main w, ⟨[], .nil⟩⟩

/-- There is such a point after every move of the drive. -/
theorem exists_onDrive (main : κ) (w : World ρ μ κ υ ε) : ∃ ms,
    Walk Moves ⟨w, false⟩ ms ⟨(drive main w).2, false⟩ ∧
      ∀ pre post, ms = pre ++ post → ∃ p, Walk Moves ⟨w, false⟩ pre p ∧
        Walk Moves p post ⟨(drive main w).2, false⟩ ∧ OnDrive main w p := by
  obtain ⟨ms, h⟩ := drive_stays main w
  refine ⟨ms, h, ?_⟩
  rintro pre post rfl
  obtain ⟨p, hpre, hpost⟩ := h.of_append
  exact ⟨p, hpre, hpost, ⟨_, hpre⟩, ⟨_, hpost⟩⟩

/-- What every move keeps holds at every point of a drive. -/
theorem OnDrive.invariant {main : κ} {w : World ρ μ κ υ ε}
    {p : Point ρ μ κ υ ε} {I : Point ρ μ κ υ ε → Prop}
    (h : OnDrive main w p) (hstep : ∀ {p m q}, I p → Moves p m q → I q)
    (hw : I ⟨w, false⟩) : I p := by
  obtain ⟨ms, hwalk⟩ := h.past
  exact hwalk.invariant hstep hw

end

end World

end Seedloop
