import Seedloop.Proofs.Messages

/-!
# The balance of a message

`Balanced` is the conservation law: deliveries under way, deliveries that
ended and drops are together what was sent and what was duplicated. A send
starts a message off in balance, a delivery that ends moves one from the first
count to the second, and nothing else touches any of them.

`Logged` keeps the history the counts forget. Against the list of what was
sent it says which message every event and every pending delivery is about, so
a delivery carries the ends and the contents of its own send.
-/

namespace Seedloop

namespace Net

variable {ρ μ υ : Type}

/-! ## Counts -/

theorem underWay_eq (s : Net ρ μ υ) (mid : ℕ) : s.underWay mid =
    (s.loop.pending.filter fun h => h.callback.isDeliver).countP
      fun h => h.callback.delivers mid := by
  rw [List.countP_filter]
  refine List.countP_congr fun h _ => ?_
  cases h.callback <;> simp [Callback.delivers, Callback.isDeliver]

theorem Idle.events {s t : Net ρ μ υ} (h : Idle s t) (kind : MsgEvent)
    (mid : ℕ) : t.events kind mid = s.events kind mid := by
  obtain ⟨new, hnew, hno⟩ := h.timeline
  rw [events_append hnew, Nat.add_eq_left, List.countP_eq_zero]
  intro e he hm
  obtain ⟨time, e⟩ := e
  cases e with
  | message k m src dst => exact hno _ he k m src dst rfl
  | _ => simp [Event.isMessage] at hm

theorem Idle.underWay {s t : Net ρ μ υ} (h : Idle s t) (mid : ℕ) :
    t.underWay mid = s.underWay mid := by
  rw [underWay_eq, underWay_eq]
  rw [h.pending]

theorem Sends.events {s t : Net ρ μ υ} {src dst : Address} {msg : μ}
    {endpoint : Endpoint μ} {how : Sent} (h : Sends s t src dst msg endpoint how)
    (kind : MsgEvent) (mid : ℕ) : t.events kind mid = s.events kind mid +
      if mid = s.nextMid then how.events.count kind else 0 := by
  rw [events_append h.timeline, List.countP_map]
  congr 1
  split_ifs with hm
  · rw [List.count]
    refine List.countP_congr fun k _ => ?_
    simp [Event.isMessage, hm]
  · rw [List.countP_eq_zero]
    intro k _
    simp [Event.isMessage, Ne.symm hm]

theorem Sends.underWay {s t : Net ρ μ υ} {src dst : Address} {msg : μ}
    {endpoint : Endpoint μ} {how : Sent} (h : Sends s t src dst msg endpoint how)
    (mid : ℕ) : t.underWay mid =
      (if mid = s.nextMid then how.copies else 0) + s.underWay mid := by
  obtain ⟨hs, hperm, hlen, hall⟩ := h.pending
  rw [Net.underWay, hperm.countP_eq, List.countP_append]
  congr 1
  split_ifs with hm
  · rw [← hlen, List.countP_eq_length]
    intro h hh
    simp [hall h hh, Callback.delivers, hm]
  · rw [List.countP_eq_zero]
    intro h hh
    simp [hall h hh, Callback.delivers, Ne.symm hm]

theorem Ends.events {s t : Net ρ μ υ} {m : ℕ} {src dst : Address} {msg : μ}
    (h : Ends s t m src dst msg) (kind : MsgEvent) (mid : ℕ) :
    t.events kind mid = s.events kind mid +
      if s.fate src dst = kind ∧ m = mid then 1 else 0 := by
  rw [events_append h.timeline]
  simp [Event.isMessage]

theorem Ends.underWay {s t : Net ρ μ υ} {m : ℕ} {src dst : Address} {msg : μ}
    (h : Ends s t m src dst msg) (mid : ℕ) : s.underWay mid =
      t.underWay mid + if m = mid then 1 else 0 := by
  obtain ⟨hd, hc, hperm⟩ := h.perm
  rw [Net.underWay, hperm.countP_eq, List.countP_cons, hc]
  simp [Callback.delivers, Net.underWay]

theorem fate_cases (s : Net ρ μ υ) (src dst : Address) :
    s.fate src dst = .deliver ∨ s.fate src dst = .dropCrashed ∨
      s.fate src dst = .dropPartitioned := by
  unfold fate
  split
  · exact .inr (.inl rfl)
  · split
    · exact .inr (.inr rfl)
    · exact .inl rfl

/-- A delivery that ends is one more that ended, and no send, drop or
duplicate. -/
theorem Ends.ended {s t : Net ρ μ υ} {m : ℕ} {src dst : Address} {msg : μ}
    (h : Ends s t m src dst msg) (mid : ℕ) :
    t.ended mid = s.ended mid + (if m = mid then 1 else 0) ∧
    t.events .send mid = s.events .send mid ∧
    t.events .drop mid = s.events .drop mid ∧
    t.events .duplicate mid = s.events .duplicate mid := by
  simp only [Net.ended, h.events]
  rcases s.fate_cases src dst with hf | hf | hf
  all_goals
    simp only [hf, reduceCtorEq, false_and, true_and, if_false]
    omega

/-! ## The balance -/

/-- The conservation law of one message. -/
structure Balanced (s : Net ρ μ υ) (mid : ℕ) : Prop where
  total : s.ended mid + s.underWay mid + s.events .drop mid =
    (if mid < s.nextMid then 1 else 0) + s.events .duplicate mid
  send : s.events .send mid = if mid < s.nextMid then 1 else 0
  duplicate_le : s.events .duplicate mid ≤ if mid < s.nextMid then 1 else 0
  drop_or : s.events .drop mid = 0 ∨ s.events .duplicate mid = 0

theorem init_balanced (g f : ρ) (mid : ℕ) :
    Balanced (init g f : Net ρ μ υ) mid := by
  constructor <;>
    simp [init, Net.ended, Net.events, Net.underWay, Loop.init, Loop.pending]

theorem Balanced.idle {s t : Net ρ μ υ} {mid : ℕ} (hs : Balanced s mid)
    (h : Idle s t) : Balanced t mid := by
  constructor
  all_goals simp only [Net.ended, h.events, h.underWay, h.nextMid]
  · exact hs.total
  · exact hs.send
  · exact hs.duplicate_le
  · exact hs.drop_or

theorem Balanced.sends {s t : Net ρ μ υ} {mid : ℕ} (hs : Balanced s mid)
    {src dst : Address} {msg : μ} {endpoint : Endpoint μ} {how : Sent}
    (h : Sends s t src dst msg endpoint how) : Balanced t mid := by
  have hnext := h.nextMid
  obtain ⟨hb, hdup, hor, hdel, hcr, hpart⟩ := how.balance
  have hone : how.events.count .send = 1 := by cases how <;> rfl
  by_cases hm : mid = s.nextMid
  · -- The counts of a fresh id were all zero.
    have hlt : mid < t.nextMid := by omega
    have hnot : ¬ mid < s.nextMid := by omega
    have htotal := hs.total
    have hsend := hs.send
    have hd := hs.duplicate_le
    rw [if_neg hnot] at htotal hsend hd
    unfold Net.ended at htotal
    constructor
    all_goals simp only [Net.ended, h.events, h.underWay, if_pos hm, if_pos hlt]
    all_goals omega
  · have hlt : mid < t.nextMid ↔ mid < s.nextMid := by omega
    constructor
    all_goals
      simp only [Net.ended, h.events, h.underWay, if_neg hm, hlt, add_zero,
        zero_add]
    · exact hs.total
    · exact hs.send
    · exact hs.duplicate_le
    · exact hs.drop_or

theorem Balanced.ends {s t : Net ρ μ υ} {mid m : ℕ} (hs : Balanced s mid)
    {src dst : Address} {msg : μ} (h : Ends s t m src dst msg) :
    Balanced t mid := by
  obtain ⟨hended, hsend, hdrop, hdup⟩ := h.ended mid
  have hway := h.underWay mid
  have htotal := hs.total
  constructor
  · rw [hended, hdrop, hdup, h.nextMid]
    omega
  · rw [hsend, h.nextMid]
    exact hs.send
  · rw [hdup, h.nextMid]
    exact hs.duplicate_le
  · rw [hdrop, hdup]
    exact hs.drop_or

/-! ## The log of what was sent -/

/-- What was sent accounts for every id, every event and every pending
delivery, and a reliable sender's messages are neither dropped nor
duplicated. -/
structure Logged (s : Net ρ μ υ) (log : List (ℕ × Address × Address × μ)) :
    Prop where
  ids : log.map Prod.fst = List.range s.nextMid
  sentMids : s.sentMids = List.range s.nextMid
  recorded : ∀ x ∈ log, ∃ e ∈ s.timeline,
    e.2 = .message .send x.1 x.2.1 x.2.2.1
  events : ∀ e ∈ s.timeline, ∀ kind mid src dst,
    e.2 = .message kind mid src dst → ∃ msg, (mid, src, dst, msg) ∈ log
  pending : ∀ h ∈ s.loop.pending, ∀ mid src dst msg,
    h.callback = .deliver mid src dst msg → (mid, src, dst, msg) ∈ log
  reliable : ∀ x ∈ log, ∃ e, s.endpoints.lookup x.2.1 = some e ∧
    (e.policy.reliable = true →
      s.events .drop x.1 = 0 ∧ s.events .duplicate x.1 = 0)
  addressed : Addressed s

theorem init_logged (g f : ρ) : Logged (init g f : Net ρ μ υ) [] := by
  constructor
  all_goals simp [init, Net.sentMids, Loop.init, Loop.pending, Addressed]

theorem sentMids_append {s t : Net ρ μ υ} {new : List (ℚ × Event μ)}
    (h : t.timeline = s.timeline ++ new) :
    t.sentMids = s.sentMids ++ new.filterMap fun e => e.2.sentMid? := by
  rw [Net.sentMids, h, List.filterMap_append]
  rfl

theorem Logged.idle {s t : Net ρ μ υ}
    {log : List (ℕ × Address × Address × μ)} (hs : Logged s log)
    (h : Idle s t) (hk : Keeps s t) : Logged t log := by
  obtain ⟨new, hnew, hno⟩ := h.timeline
  refine ⟨h.nextMid ▸ hs.ids, ?_, ?_, ?_, ?_, ?_, hk.addressed hs.addressed⟩
  · have hnone : new.filterMap (fun e => e.2.sentMid?) = [] := by
      rw [List.filterMap_eq_nil_iff]
      rintro ⟨time, e⟩ he
      cases e with
      | message kind m src dst => exact absurd rfl (hno _ he kind m src dst)
      | _ => rfl
    rw [sentMids_append hnew, hnone, List.append_nil, hs.sentMids, h.nextMid]
  · intro x hx
    obtain ⟨e, he, heq⟩ := hs.recorded x hx
    exact ⟨e, hnew ▸ List.mem_append_left _ he, heq⟩
  · intro e he kind mid src dst heq
    rw [hnew] at he
    rcases List.mem_append.mp he with he | he
    · exact hs.events e he kind mid src dst heq
    · exact absurd heq (hno e he kind mid src dst)
  · intro hd hmem mid src dst msg hc
    have : hd ∈ t.loop.pending.filter fun h => h.callback.isDeliver := by
      rw [List.mem_filter]
      exact ⟨hmem, by rw [hc]; rfl⟩
    exact hs.pending hd (List.mem_of_mem_filter (h.pending ▸ this)) mid
      src dst msg hc
  · intro x hx
    obtain ⟨e, he, hrel⟩ := hs.reliable x hx
    obtain ⟨e', he', hp⟩ := hk.policy _ e he
    refine ⟨e', he', ?_⟩
    rw [hp, h.events, h.events]
    exact hrel

theorem Logged.ends {s t : Net ρ μ υ}
    {log : List (ℕ × Address × Address × μ)} (hs : Logged s log)
    {m : ℕ} {src dst : Address} {msg : μ} (h : Ends s t m src dst msg) :
    Logged t log := by
  obtain ⟨hd, hc, hperm⟩ := h.perm
  refine ⟨h.nextMid ▸ hs.ids, ?_, ?_, ?_, ?_, ?_,
    h.keeps.addressed hs.addressed⟩
  · have hnone : (Event.message (s.fate src dst) m src dst : Event μ).sentMid?
        = none := by
      rcases s.fate_cases src dst with hf | hf | hf <;> rw [hf] <;> rfl
    rw [sentMids_append h.timeline, hs.sentMids, h.nextMid]
    simp [hnone]
  · intro x hx
    obtain ⟨e, he, heq⟩ := hs.recorded x hx
    exact ⟨e, h.timeline ▸ List.mem_append_left _ he, heq⟩
  · intro e he kind mid src' dst' heq
    rw [h.timeline] at he
    rcases List.mem_append.mp he with he | he
    · exact hs.events e he kind mid src' dst' heq
    · rw [List.mem_singleton] at he
      subst he
      simp only [Event.message.injEq] at heq
      obtain ⟨-, rfl, rfl, rfl⟩ := heq
      exact ⟨msg, hs.pending hd (hperm.symm.subset List.mem_cons_self) _ _ _ _
        hc⟩
  · intro h' hmem
    exact hs.pending h' (hperm.symm.subset (List.mem_cons_of_mem _ hmem))
  · intro x hx
    obtain ⟨e, he, hrel⟩ := hs.reliable x hx
    obtain ⟨e', he', hp⟩ := h.keeps.policy _ e he
    obtain ⟨-, -, hdrop, hdup⟩ := h.ended x.1
    refine ⟨e', he', ?_⟩
    rw [hp, hdrop, hdup]
    exact hrel

theorem Logged.sends {s t : Net ρ μ υ}
    {log : List (ℕ × Address × Address × μ)} (hs : Logged s log)
    (hb : ∀ mid, Balanced s mid) {src dst : Address} {msg : μ}
    {endpoint : Endpoint μ} {how : Sent}
    (h : Sends s t src dst msg endpoint how) :
    Logged t (log ++ [(s.nextMid, src, dst, msg)]) := by
  have haddr : endpoint.address = src := hs.addressed src endpoint h.bound
  have hk := h.frame.keeps
  have hev := h.events
  have hmids : ∀ x ∈ log, x.1 < s.nextMid := by
    intro x hx
    rw [← List.mem_range, ← hs.ids]
    exact List.mem_map_of_mem hx
  have hnext := h.nextMid
  have hline := h.timeline
  obtain ⟨hs', hperm, -, hall⟩ := h.pending
  rw [haddr] at hline hall
  refine ⟨?_, ?_, ?_, ?_, ?_, ?_, hk.addressed hs.addressed⟩
  · rw [List.map_append, hs.ids, hnext, List.range_succ]
    rfl
  · rw [sentMids_append hline, hs.sentMids, hnext, List.range_succ]
    cases how <;> rfl
  · intro x hx
    rcases List.mem_append.mp hx with hx | hx
    · obtain ⟨e, he, heq⟩ := hs.recorded x hx
      exact ⟨e, hline ▸ List.mem_append_left _ he, heq⟩
    · rw [List.mem_singleton] at hx
      subst hx
      refine ⟨_, hline ▸ List.mem_append_right _
        (List.mem_map_of_mem (a := MsgEvent.send) ?_), rfl⟩
      cases how <;> simp [Sent.events]
  · intro e he kind mid src' dst' heq
    rw [hline] at he
    rcases List.mem_append.mp he with he | he
    · obtain ⟨msg', hmem⟩ := hs.events e he kind mid src' dst' heq
      exact ⟨msg', List.mem_append_left _ hmem⟩
    · obtain ⟨kind', -, rfl⟩ := List.mem_map.mp he
      simp only [Event.message.injEq] at heq
      obtain ⟨-, rfl, rfl, rfl⟩ := heq
      exact ⟨msg, by simp⟩
  · intro hd hmem mid src' dst' msg' hc
    rcases List.mem_append.mp (hperm.subset hmem) with hmem | hmem
    · rw [hall hd hmem] at hc
      simp only [Callback.deliver.injEq] at hc
      obtain ⟨rfl, rfl, rfl, rfl⟩ := hc
      exact List.mem_append_right _ (List.mem_singleton_self _)
    · exact List.mem_append_left _ (hs.pending hd hmem mid src' dst' msg' hc)
  · intro x hx
    rcases List.mem_append.mp hx with hx | hx
    · obtain ⟨e, he, hrel⟩ := hs.reliable x hx
      obtain ⟨e', he', hp⟩ := hk.policy _ e he
      refine ⟨e', he', ?_⟩
      have := hmids x hx
      rw [hp, hev, hev, if_neg (by omega), if_neg (by omega)]
      exact hrel
    · rw [List.mem_singleton] at hx
      subst hx
      obtain ⟨e', he', hp⟩ := hk.policy _ endpoint h.bound
      refine ⟨e', he', ?_⟩
      rw [hp]
      intro hrel
      have hallow := h.allowed
      rw [hrel] at hallow
      have htotal := (hb s.nextMid).total
      have hdup := (hb s.nextMid).duplicate_le
      rw [if_neg (lt_irrefl _)] at htotal hdup
      show t.events .drop s.nextMid = 0 ∧ t.events .duplicate s.nextMid = 0
      rw [hev, hev, if_pos rfl, if_pos rfl, hallow.reliable]
      have h₁ : [MsgEvent.send].count .drop = 0 := rfl
      have h₂ : [MsgEvent.send].count .duplicate = 0 := rfl
      omega

/-! ## Over every free run -/

variable [Random ρ]

/-- Everything a free run keeps about messages. -/
structure Accounted (s : Net ρ μ υ)
    (log : List (ℕ × Address × Address × μ)) : Prop where
  handles : Handles s
  balanced : ∀ mid, Balanced s mid
  logged : Logged s log

theorem Accounted.freeStep {s t : Net ρ μ υ} {a : FreeAct μ υ}
    {log : List (ℕ × Address × Address × μ)} (hs : Accounted s log)
    (h : freeStep s a = some t) :
    Accounted t (log ++ sends s a) := by
  have hh := hs.handles.freeStep h
  by_cases hsend : ∃ src dst msg, a = .act (.op (.send src dst msg))
  · obtain ⟨src, dst, msg, rfl⟩ := hsend
    simp only [Net.freeStep, step, Option.map_eq_some_iff] at h
    obtain ⟨⟨t', r⟩, hop, rfl⟩ := h
    rcases op_cases hop with ⟨_, _, _, endpoint, how, heq, hsends⟩ | ⟨hne, -⟩
    · cases heq
      exact ⟨hh, fun mid => (hs.balanced mid).sends hsends,
        hs.logged.sends hs.balanced hsends⟩
    · exact absurd rfl (hne src dst msg)
  · have hnone : sends s a = [] := by
      unfold sends
      split
      · next src dst msg => exact absurd ⟨src, dst, msg, rfl⟩ hsend
      · rfl
    rw [hnone, List.append_nil]
    rcases freeStep_messages hs.handles h with
      ⟨src, dst, msg, -, -, rfl, -⟩ | ⟨hi, hf⟩ | ⟨hi, c, hf⟩ |
        ⟨mid, src, dst, msg, he⟩
    · exact absurd ⟨src, dst, msg, rfl⟩ hsend
    · exact ⟨hh, fun mid => (hs.balanced mid).idle hi, hs.logged.idle hi
        hf.keeps⟩
    · exact ⟨hh, fun mid => (hs.balanced mid).idle hi, hs.logged.idle hi
        (.of_eq hf.endpoints)⟩
    · exact ⟨hh, fun mid => (hs.balanced mid).ends he, hs.logged.ends he⟩

theorem freeRun_accounted {g f : ρ} {s : Net ρ μ υ}
    {as : List (FreeAct μ υ)}
    (h : Machine.run freeStep (init g f) as = some s) :
    Accounted s (Machine.outputs freeStep sends (init g f) as) := by
  have hstart : Accounted (init g f : Net ρ μ υ) [] :=
    ⟨init_handles g f, init_balanced g f, init_logged g f⟩
  simpa using Machine.run_outputs_invariant
    (fun hi hs => hi.freeStep hs) hstart h

/-- A step that records a delivery records just that one, of a message that
was sent with those ends and that content, and puts it at the end of the queue
at its destination, if that is bound, and in no other. -/
theorem Accounted.deliver {s t : Net ρ μ υ} {a : FreeAct μ υ}
    {log : List (ℕ × Address × Address × μ)} (hs : Accounted s log)
    (h : Net.freeStep s a = some t) :
    ∃ new, t.timeline = s.timeline ++ new ∧ ∀ e ∈ new, ∀ mid src dst,
      e.2 = .message .deliver mid src dst →
      ∃ msg, (mid, src, dst, msg) ∈ log ∧ new = [e] ∧
        ∀ d, t.queueAt d = if d = dst ∧ d ∈ s.endpoints then
          s.queueAt d ++ [(src, msg)] else s.queueAt d := by
  have hof : Frame s t → ∃ new, t.timeline = s.timeline ++ new ∧
      ∀ e ∈ new, ∀ mid src dst, e.2 ≠ .message .deliver mid src dst := by
    intro hf
    obtain ⟨new, hnew, hop⟩ := hf.timeline
    refine ⟨new, hnew, fun e he mid src dst heq => ?_⟩
    have := hop e he
    rw [heq] at this
    cases this
  rcases freeStep_messages hs.handles h with
    ⟨src, dst, msg, endpoint, how, -, hsends⟩ | ⟨-, hf⟩ | ⟨-, c, hf⟩ |
      ⟨mid, src, dst, msg, he⟩
  · obtain ⟨new, hnew, hno⟩ := hof hsends.frame
    exact ⟨new, hnew, fun e he mid src dst heq =>
      absurd heq (hno e he mid src dst)⟩
  · obtain ⟨new, hnew, hno⟩ := hof hf
    exact ⟨new, hnew, fun e he mid src dst heq =>
      absurd heq (hno e he mid src dst)⟩
  · refine ⟨_, hf.timeline, ?_⟩
    intro e he mid src dst heq
    rw [List.mem_singleton] at he
    subst he
    cases c <;> cases heq
  · refine ⟨_, he.timeline, ?_⟩
    intro e hmem mid' src' dst' heq
    rw [List.mem_singleton] at hmem
    subst hmem
    simp only [Event.message.injEq] at heq
    obtain ⟨hfate, rfl, rfl, rfl⟩ := heq
    obtain ⟨hd, hc, hperm⟩ := he.perm
    refine ⟨msg, hs.logged.pending hd (hperm.symm.subset List.mem_cons_self)
      _ _ _ _ hc, rfl, ?_⟩
    intro d
    rw [he.queue d]
    simp [hfate]

/-- Every message is accounted for, in every order of sends, bindings, splits,
faults, crashes and firings: ids go up along the timeline, and each has one
`send`; a message that was dropped has nothing under way and ended nowhere,
and one that was not has one delivery, or two if it was duplicated, each under
way or ended once; it is never both dropped and duplicated, and from a
reliable sender it is neither; and a delivery carries the ends and the content
of its send and puts that one item in the one queue it is for. -/
theorem message_accounting {g f : ρ} {s : Net ρ μ υ}
    {as : List (FreeAct μ υ)}
    (h : Machine.run freeStep (init g f) as = some s) :
    s.sentMids.Pairwise (· < ·) ∧
    (∀ mid, s.events .send mid = if mid < s.nextMid then 1 else 0) ∧
    (∀ mid < s.nextMid,
      s.events .deliver mid + s.events .dropCrashed mid +
          s.events .dropPartitioned mid + s.underWay mid =
        (if s.events .drop mid = 0 then 1 + s.events .duplicate mid else 0) ∧
      s.events .duplicate mid ≤ 1 ∧
      (s.events .drop mid = 0 ∨ s.events .duplicate mid = 0)) ∧
    (∀ e ∈ s.timeline, ∀ kind mid src dst, e.2 = .message kind mid src dst →
      (∃ e' ∈ s.timeline, e'.2 = .message .send mid src dst) ∧
      ∀ endpoint, s.endpoints.lookup src = some endpoint →
        endpoint.policy.reliable = true →
        s.events .drop mid = 0 ∧ s.events .duplicate mid = 0) ∧
    ∀ a t, freeStep s a = some t →
      ∃ new, t.timeline = s.timeline ++ new ∧ ∀ e ∈ new, ∀ mid src dst,
        e.2 = .message .deliver mid src dst →
        ∃ msg, (mid, src, dst, msg) ∈
            Machine.outputs freeStep sends (init g f) as ∧ new = [e] ∧
          ∀ d, t.queueAt d = if d = dst ∧ d ∈ s.endpoints then
            s.queueAt d ++ [(src, msg)] else s.queueAt d := by
  have hs := freeRun_accounted h
  refine ⟨?_, fun mid => (hs.balanced mid).send, ?_, ?_, ?_⟩
  · rw [hs.logged.sentMids]
    exact List.pairwise_lt_range
  · intro mid hlt
    have htotal := (hs.balanced mid).total
    have hdup := (hs.balanced mid).duplicate_le
    have hor := (hs.balanced mid).drop_or
    rw [if_pos hlt] at htotal hdup
    unfold ended at htotal
    refine ⟨?_, hdup, hor⟩
    split_ifs with hd <;> omega
  · intro e he kind mid src dst heq
    obtain ⟨msg, hmem⟩ := hs.logged.events e he kind mid src dst heq
    refine ⟨hs.logged.recorded _ hmem, ?_⟩
    intro endpoint hlook hrel
    obtain ⟨e', he', hclean⟩ := hs.logged.reliable _ hmem
    rw [hlook, Option.some.injEq] at he'
    exact hclean (he' ▸ hrel)
  · intro a t hstep
    exact hs.deliver hstep

/-- A message the draw duplicates, one of whose copies has fired. -/
def duplicatedSend : List (FreeAct Unit ℕ) :=
  [.act (.op (.bind 1 false (.int 0) (.float (.fin (1 / 2))))),
    .act (.op (.send 1 2 ())), .fire 1]

theorem message_accounting_duplicatedSend : ∃ s,
    Machine.run freeStep (init Toggle.low Toggle.low) duplicatedSend = some s ∧
    s.events .duplicate 0 = 1 ∧ s.events .deliver 0 = 1 ∧
    s.events .dropCrashed 0 + s.events .dropPartitioned 0 + s.underWay 0 = 1 := by
  have hrun : (Machine.run freeStep (init Toggle.low Toggle.low)
      duplicatedSend).isSome := by decide +kernel
  obtain ⟨s, hs⟩ := Option.isSome_iff_exists.mp hrun
  have hcounts : (s.nextMid, s.events .drop 0, s.events .duplicate 0,
      s.events .deliver 0) = (1, 0, 1, 1) := by
    have := congrArg (Option.map fun s => (s.nextMid, s.events .drop 0,
      s.events .duplicate 0, s.events .deliver 0)) hs
    exact Option.some.inj (this.symm.trans (by decide +kernel))
  simp only [Prod.mk.injEq] at hcounts
  obtain ⟨hnext, hdrop, hdup, hdel⟩ := hcounts
  have hbal := ((message_accounting hs).2.2.1 0 (by omega)).1
  rw [if_pos hdrop, hdup, hdel] at hbal
  exact ⟨s, hs, hdup, hdel, by omega⟩

end Net

end Seedloop
