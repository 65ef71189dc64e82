import Seedloop.Proofs.Scheduling

/-!
# What waits to run, and that it will

A handle waits in the ready queue or on the heap until it runs or, if it was
cancelled, until it is dropped. The handles of the network itself — deliveries
and faults — are never cancelled: a cancellation names a handle that user code
holds or the timer of a sleep, and `Handles` keeps the numbers of those apart
from the numbers of these. So the network's handles only leave by running,
which is what every count and every order below rests on.
-/

namespace Seedloop

namespace Loop

variable {κ : Type}

theorem pending_callSoon (l : Loop κ) (c : κ) :
    (l.callSoon c).pending.Perm (⟨l.nextHandle, c, none⟩ :: l.pending) := by
  simp only [pending, callSoon, List.append_assoc, List.singleton_append]
  exact List.perm_middle

theorem pending_callAt (l : Loop κ) (when : When) (c : κ) :
    (l.callAt when c).pending.Perm
      (⟨l.nextHandle, c, some when⟩ :: l.pending) := by
  have := (l.timers.push_perm
    ⟨when, l.timerSeq, ⟨l.nextHandle, c, some when⟩⟩).map Timer.handle
  exact (this.append_left l.ready).trans List.perm_middle

theorem filter_callSoon_of_not (l : Loop κ) {c : κ} {p : Handle κ → Bool}
    (hp : p ⟨l.nextHandle, c, none⟩ = false) :
    (l.callSoon c).pending.filter p = l.pending.filter p := by
  simp [pending, callSoon, hp]

theorem filter_callAt_of_not (l : Loop κ) {when : When} {c : κ}
    {p : Handle κ → Bool} (hp : p ⟨l.nextHandle, c, some when⟩ = false) :
    (l.callAt when c).pending.filter p = l.pending.filter p := by
  have := l.timers.filter_push_of_not
    (a := ⟨when, l.timerSeq, ⟨l.nextHandle, c, some when⟩⟩)
    (p := fun t => p t.handle) hp
  simp only [pending, callAt, List.filter_append, List.filter_map]
  exact congrArg (fun ts => _ ++ ts.map Timer.handle) this

/-- A timer that no selected one is behind waits behind all of them. -/
theorem filter_callAt (l : Loop κ) {w : When} {c : κ}
    {p : Handle κ → Bool} (hp : p ⟨l.nextHandle, c, some w⟩ = true)
    (hle : ∀ t ∈ l.timers.entries, p t.handle = true →
      t.when ≤ w ∧ t.seq < l.timerSeq) :
    (l.callAt w c).pending.filter p =
      l.pending.filter p ++ [⟨l.nextHandle, c, some w⟩] := by
  have := l.timers.filter_push
    (a := ⟨w, l.timerSeq, ⟨l.nextHandle, c, some w⟩⟩)
    (p := fun t => p t.handle) hp (fun t ht hpt => by
      obtain ⟨hwhen, hseq⟩ := hle t ht hpt
      refine Prod.Lex.toLex_lt_toLex.mpr ?_
      rcases hwhen.lt_or_eq with hlt | heq
      · exact .inl hlt
      · exact .inr ⟨heq, hseq⟩)
  simp only [pending, callAt, List.filter_append, List.filter_map,
    List.append_assoc]
  exact congrArg _ ((congrArg (List.map Timer.handle) this).trans
    List.map_append)

/-- Before its batch a step drops cancelled handles and moves others, in the
order they wait in. -/
theorem pending_beginStep (l : Loop κ) (stopStep : Bool) :
    (l.beginStep stopStep).1.pending.Sublist l.pending ∧
    ∀ p : Handle κ → Bool,
      (∀ t ∈ l.timers.entries, p t.handle = true →
        t.handle.id ∉ l.cancelled) →
      (l.beginStep stopStep).1.pending.filter p = l.pending.filter p := by
  obtain ⟨m, dead, hm, hready, hcanc, -, -, hsub, -⟩ :=
    autojump_spec l stopStep
  have hmap : ∀ {ts us : List (Timer κ)}, ts.Sublist us →
      (m.ready ++ ts.map Timer.handle).Sublist
        (l.ready ++ us.map Timer.handle) := by
    intro ts us hts
    rw [hready]
    exact (List.Sublist.refl _).append (hts.map _)
  have hjump : ∀ p : Handle κ → Bool,
      (∀ t ∈ l.timers.entries, p t.handle = true →
        t.handle.id ∉ l.cancelled) →
      m.pending.filter p = l.pending.filter p := by
    intro p hp
    have hpurge : l.purgeCancelledTimers.pending.filter p =
        l.pending.filter p := by
      have hwhole := l.timers.takeWhile_append_dropWhile
        fun t => l.isCancelled t.handle
      have hnone : ((l.timers.takeWhile fun t => l.isCancelled t.handle).map
          Timer.handle).filter p = [] := by
        rw [List.filter_eq_nil_iff]
        intro h hh hph
        obtain ⟨t, ht, rfl⟩ := List.mem_map.mp hh
        have hcl : l.isCancelled t.handle = true := List.mem_takeWhile_imp
          (p := fun t : Timer κ => l.isCancelled t.handle) ht
        exact hp t ((List.takeWhile_sublist _).subset ht) hph
          (by simpa [isCancelled] using hcl)
      simp only [pending]
      conv_rhs => rw [← hwhole, List.map_append, List.filter_append,
        List.filter_append, hnone, List.nil_append]
      rw [List.filter_append]
      rfl
    rcases autojump_cases l stopStep with
      ⟨-, h⟩ | ⟨-, -, t, -, -, h⟩ | ⟨-, -, -, h⟩
    all_goals
      rw [h, Prod.mk.injEq] at hm
      obtain ⟨rfl, -⟩ := hm
    · rfl
    · exact hpurge
    · exact hpurge
  rcases beginStep_eq l stopStep with ⟨x, hx, hl', -⟩ | ⟨x, hx, hl', -⟩
  all_goals
    rw [hm, Prod.mk.injEq] at hx
    obtain ⟨rfl, rfl⟩ := hx
    rw [hl']
  · exact ⟨hmap hsub, hjump⟩
  · have hsplit := m.timers.takeWhile_append_dropWhile m.isDue
    have hpend : m.fireDueTimers.pending = m.ready ++
        (m.promoted ++ (m.timers.dropWhile m.isDue).entries).map
          Timer.handle := by
      simp [pending, fireDueTimers]
    constructor
    · rw [hpend]
      refine hmap (List.Sublist.trans ?_ hsub)
      rw [← hsplit]
      exact List.filter_sublist.append (.refl _)
    · intro p hp
      rw [← hjump p hp, hpend]
      -- Of the due timers only the cancelled ones are not promoted.
      have hsame : (m.promoted.map Timer.handle).filter p =
          ((m.timers.takeWhile m.isDue).map Timer.handle).filter p := by
        rw [List.filter_map, List.filter_map]
        congr 1
        simp only [promoted, List.filter_filter]
        refine List.filter_congr fun t ht => ?_
        cases hpt : p t.handle with
        | false => simp [hpt]
        | true =>
            have hmem := hsub.subset ((List.takeWhile_sublist _).subset ht)
            have := hp t hmem hpt
            rw [← hcanc] at this
            simp [hpt, isCancelled, this]
      simp only [pending]
      conv_rhs => rw [← hsplit]
      simp only [List.map_append, List.filter_append, hsame]

end Loop

/-- The future a callback belongs to. -/
def Callback.fut? {μ υ : Type} : Callback μ υ → Option ℕ
  | .wake fut _ => some fut
  | .resume fut _ => some fut
  | _ => none

/-- A callback of the network itself. -/
def Callback.isNet {μ υ : Type} : Callback μ υ → Bool
  | .deliver .. => true
  | .fault _ => true
  | _ => false

namespace Net

variable {ρ μ υ : Type}

/-- The numbers a cancellation can name, or has named. -/
def Token (s : Net ρ μ υ) (i : ℕ) : Prop :=
  i ∈ s.loop.cancelled ∨ i ∈ s.owned ∨ i ∈ s.sleeping ∨
    ∃ h ∈ s.loop.pending, h.callback.fut? = some i

/-- Handles are numbered apart, and no cancellation reaches the network's. -/
structure Handles (s : Net ρ μ υ) : Prop where
  id_lt : ∀ h ∈ s.loop.pending, h.id < s.loop.nextHandle
  ids_nodup : (s.loop.pending.map Handle.id).Nodup
  token_lt : ∀ {i}, Token s i → i < s.loop.nextHandle
  apart : ∀ h ∈ s.loop.pending, h.callback.isNet = true → ¬ Token s h.id

theorem init_handles (g f : ρ) : Handles (init g f : Net ρ μ υ) where
  id_lt := by simp [init, Loop.init, Loop.pending]
  ids_nodup := by simp [init, Loop.init, Loop.pending]
  token_lt h := by simp [Token, init, Loop.init, Loop.pending] at h
  apart := by simp [init, Loop.init, Loop.pending]

theorem Handles.live {s : Net ρ μ υ} (hs : Handles s)
    {h : Handle (Callback μ υ)} (hh : h ∈ s.loop.pending)
    (hnet : h.callback.isNet = true) : h.id ∉ s.loop.cancelled :=
  fun hc => hs.apart h hh hnet (.inl hc)

theorem Handles.eq_of_id {s : Net ρ μ υ} (hs : Handles s)
    {h h' : Handle (Callback μ υ)} (hh : h ∈ s.loop.pending)
    (hh' : h' ∈ s.loop.pending) (hid : h.id = h'.id) : h = h' :=
  List.inj_on_of_nodup_map hs.ids_nodup hh hh' hid

/-- Fewer handles and fewer names to cancel by. -/
theorem Handles.of_sub {s t : Net ρ μ υ} (hs : Handles s)
    (hpend : t.loop.pending.Subperm s.loop.pending)
    (hnext : s.loop.nextHandle ≤ t.loop.nextHandle)
    (htok : ∀ {i}, Token t i → Token s i) : Handles t where
  id_lt h hh := lt_of_lt_of_le (hs.id_lt h (hpend.subset hh)) hnext
  ids_nodup := by
    obtain ⟨l, hl, hsub⟩ := hpend
    exact ((hl.map Handle.id).nodup_iff).mp
      (hs.ids_nodup.sublist (hsub.map Handle.id))
  token_lt h := lt_of_lt_of_le (hs.token_lt (htok h)) hnext
  apart h hh hnet htk := hs.apart h (hpend.subset hh) hnet (htok htk)

/-- One more handle, under the number the counter had. -/
theorem Handles.push {s t : Net ρ μ υ} (hs : Handles s)
    {new : Handle (Callback μ υ)} (hid : new.id = s.loop.nextHandle)
    (hpend : t.loop.pending.Perm (new :: s.loop.pending))
    (hnext : t.loop.nextHandle = s.loop.nextHandle + 1)
    (htok : ∀ {i}, Token t i → Token s i ∨ i = s.loop.nextHandle)
    (hnet : new.callback.isNet = true →
      ∀ {i}, Token t i → Token s i) : Handles t where
  id_lt h hh := by
    rw [hnext]
    rcases List.mem_cons.mp (hpend.subset hh) with rfl | hmem
    · omega
    · have := hs.id_lt h hmem
      omega
  ids_nodup := by
    refine ((hpend.map Handle.id).nodup_iff).mpr ?_
    rw [List.map_cons, List.nodup_cons]
    refine ⟨?_, hs.ids_nodup⟩
    intro hmem
    obtain ⟨h, hh, heq⟩ := List.mem_map.mp hmem
    have := hs.id_lt h hh
    omega
  token_lt h := by
    rw [hnext]
    rcases htok h with h | rfl
    · have := hs.token_lt h
      omega
    · omega
  apart h hh hn htk := by
    rcases List.mem_cons.mp (hpend.subset hh) with rfl | hmem
    · have := hs.token_lt (hnet hn htk)
      omega
    · rcases htok htk with htk | heq
      · exact hs.apart h hmem hn htk
      · have := hs.id_lt h hmem
        omega

/-! ## Handles under an effect -/

/-- A state with the same loop but for what a cancellation can name. -/
theorem Handles.of_loop {s t : Net ρ μ υ} (hs : Handles s)
    (hl : t.loop = s.loop) (ho : t.owned = s.owned)
    (hsl : ∀ {i}, i ∈ t.sleeping → i ∈ s.sleeping) : Handles t := by
  refine hs.of_sub (by rw [hl]) (by rw [hl]) ?_
  rintro i (h | h | h | h)
  · exact .inl (hl ▸ h)
  · exact .inr (.inl (ho ▸ h))
  · exact .inr (.inr (.inl (hsl h)))
  · exact .inr (.inr (.inr (hl ▸ h)))

theorem Handles.record {s : Net ρ μ υ} (hs : Handles s) (e : Event μ) :
    Handles (s.record e) := hs.of_loop rfl rfl fun h => h

/-- The network arms a timer of its own. -/
theorem Handles.callAt {s : Net ρ μ υ} (hs : Handles s) (when : ℚ)
    {c : Callback μ υ} (hc : c.isNet = true) : Handles (s.callAt when c) := by
  have hpend := s.loop.pending_callAt (.fin when) c
  have htok : ∀ {i}, Token (s.callAt when c) i → Token s i := by
    rintro i (h | h | h | ⟨h, hh, hfut⟩)
    · exact .inl h
    · exact .inr (.inl h)
    · exact .inr (.inr (.inl h))
    · rcases List.mem_cons.mp (hpend.subset hh) with rfl | hmem
      · cases c <;> simp [Callback.isNet, Callback.fut?] at hc hfut
      · exact .inr (.inr (.inr ⟨h, hmem, hfut⟩))
  exact hs.push rfl hpend rfl (fun h => .inl (htok h)) fun _ => htok

theorem Handles.schedule {s : Net ρ μ υ} (hs : Handles s) (now : ℚ)
    (r : Resolved) : Handles (s.schedule now r) := by
  have hid : ∀ e, Handles (recordAt
      { s with nextFaultId := s.nextFaultId + 1 } now e) :=
    fun e => hs.of_loop rfl rfl fun h => h
  cases r with
  | partition groups start stop => exact ((hid _).callAt _ rfl).callAt _ rfl
  | slowLink a b factor start stop => exact ((hid _).callAt _ rfl).callAt _ rfl
  | crash node at_ => exact (hid _).callAt _ rfl

theorem Handles.sendAs {s : Net ρ μ υ} (hs : Handles s) (src dst : Address)
    (msg : μ) (how : Sent) : Handles (s.sendAs src dst msg how) := by
  have hbegin : Handles (s.beginSend src dst) :=
    hs.of_loop rfl rfl fun h => h
  cases how with
  | reliable base =>
      refine Handles.callAt (hbegin.of_loop ?_ ?_ ?_) _ rfl
      · rfl
      · rfl
      · exact fun h => h
  | dropped => exact hbegin.record _
  | once base => exact hbegin.callAt _ rfl
  | twice base extra =>
      exact ((hbegin.callAt _ rfl).record _).callAt _ rfl

/-- User code, or the wait of a task, puts a handle up. -/
theorem Handles.push_user {s t : Net ρ μ υ} (hs : Handles s) {c : Callback μ υ}
    {when? : Option When} (hc : c.isNet = false)
    (hpend : t.loop.pending.Perm
      (⟨s.loop.nextHandle, c, when?⟩ :: s.loop.pending))
    (hnext : t.loop.nextHandle = s.loop.nextHandle + 1)
    (hcanc : t.loop.cancelled = s.loop.cancelled)
    (ho : ∀ {i}, i ∈ t.owned → i ∈ s.owned ∨ i = s.loop.nextHandle)
    (hsl : ∀ {i}, i ∈ t.sleeping → i ∈ s.sleeping ∨ i = s.loop.nextHandle)
    (hfut : ∀ {i}, c.fut? = some i → Token s i ∨ i = s.loop.nextHandle) :
    Handles t := by
  refine hs.push rfl hpend hnext ?_ ?_
  · rintro i (h | h | h | ⟨h, hh, hf⟩)
    · exact .inl (.inl (hcanc ▸ h))
    · exact (ho h).imp (fun h => .inr (.inl h)) id
    · exact (hsl h).imp (fun h => .inr (.inr (.inl h))) id
    · rcases List.mem_cons.mp (hpend.subset hh) with rfl | hmem
      · exact hfut hf
      · exact .inl (.inr (.inr (.inr ⟨h, hmem, hf⟩)))
  · intro hnet
    rw [hc] at hnet
    cases hnet

theorem Handles.sleep {s : Net ρ μ υ} (hs : Handles s) (seconds : ℚ) (k : υ) :
    Handles (s.sleep seconds k) := by
  unfold Net.sleep
  dsimp only
  split
  · refine hs.push_user (c := .wake s.loop.nextHandle k) rfl
      (s.loop.pending_callAt _ _) rfl rfl .inl ?_ ?_
    · intro i h
      exact ((AList.mem_insert _).mp h).symm
    · rintro i ⟨⟩
      exact .inr rfl
  · refine hs.push_user (c := .resume s.loop.nextHandle k) rfl
      (s.loop.pending_callSoon _) rfl rfl .inl .inl ?_
    rintro i ⟨⟩
    exact .inr rfl

theorem Handles.finishSleep {s : Net ρ μ υ} (hs : Handles s) (fut : ℕ) :
    Handles (s.finishSleep fut) := by
  unfold Net.finishSleep
  split
  · exact hs
  · next k hk =>
    have hmem : fut ∈ s.sleeping := AList.lookup_isSome.mp (by rw [hk]; rfl)
    refine hs.push_user (c := .resume fut k) rfl (s.loop.pending_callSoon _)
      rfl rfl .inl ?_ ?_
    · intro i h
      exact .inl (AList.mem_erase.mp h).2
    · rintro i ⟨⟩
      exact .inl (.inr (.inr (.inl hmem)))

/-- A cancellation by a name there was. -/
theorem Handles.cancel {s : Net ρ μ υ} (hs : Handles s) {i : ℕ}
    (hi : Token s i) : Handles { s with loop := s.loop.cancel i } := by
  refine hs.of_sub (List.Subperm.refl _) le_rfl ?_
  rintro j (h | h)
  · rcases Finset.mem_insert.mp h with rfl | h
    · exact hi
    · exact .inl h
  · exact .inr h

theorem Effect.handles {s t : Net ρ μ υ} (h : Effect s t) (hs : Handles s) :
    Handles t := by
  cases h with
  | draws | setPartition | bind | inbox =>
      exact hs.of_loop rfl rfl fun h => h
  | userSoon k =>
      refine hs.push_user (c := .user k) rfl (s.loop.pending_callSoon _) rfl
        rfl ?_ .inl (by rintro i ⟨⟩)
      intro i h
      exact (Finset.mem_insert.mp h).symm
  | userTimer when k =>
      refine hs.push_user (c := .user k) rfl (s.loop.pending_callAt _ _) rfl
        rfl ?_ .inl (by rintro i ⟨⟩)
      intro i h
      exact (Finset.mem_insert.mp h).symm
  | cancel handle hown => exact hs.cancel (.inr (.inl hown))
  | stop => exact hs.of_sub (List.Subperm.refl _) le_rfl fun h => h
  | record event => exact hs.record _
  | schedule seconds r _ => exact hs.schedule _ r
  | sleep seconds k => exact hs.sleep seconds k
  | cancelRunFor fut =>
      have hgiven : Handles { s with abandoned := insert fut s.abandoned } :=
        hs.of_loop rfl rfl fun h => h
      exact hgiven.finishSleep fut

theorem Sends.handles {s t : Net ρ μ υ} {src dst : Address} {msg : μ}
    {endpoint : Endpoint μ} {how : Sent} (h : Sends s t src dst msg endpoint how)
    (hs : Handles s) : Handles t := by
  obtain ⟨g, f, rfl⟩ := h.eq
  have hdrawn : Handles { s with netRng := g, faultsRng := f } :=
    hs.of_loop rfl rfl fun h => h
  exact hdrawn.sendAs _ dst msg how

end Net

end Seedloop
