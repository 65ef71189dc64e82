import Seedloop.Lib.Since
import Seedloop.Proofs.Frame

/-!
# Partitions compose

A split is in force because `net.partition` set it and nothing set or healed
the slot since, or because a scheduled fault began it and has not ended it.
The slot and the registry are two fields that no operation writes both of, so
each follows its own "since" of the history, and `_reachable` reads the two
and nothing else. What `heal` and the end of a fault cannot do is then read
off the history they are appended to.
-/

namespace Seedloop

/-- Two addresses are listed in different groups. -/
def Separates (groups : List (Finset Address)) (a b : Address) : Prop :=
  ∃ g ∈ groups, ∃ g' ∈ groups, g ≠ g' ∧ a ∈ g ∧ b ∈ g'

theorem Separates.symm {groups : List (Finset Address)} {a b : Address}
    (h : Separates groups a b) : Separates groups b a := by
  obtain ⟨g, hg, g', hg', hne, ha, hb⟩ := h
  exact ⟨g', hg', g, hg, hne.symm, hb, ha⟩

/-- Two groups of a split share no address, unless they are one group written
twice. -/
def Unambiguous (groups : List (Finset Address)) : Prop :=
  ∀ g ∈ groups, ∀ g' ∈ groups, g ≠ g' → Disjoint g g'

theorem unambiguous_of_pairwise {groups : List (Finset Address)}
    (hd : groups.Pairwise Disjoint) : Unambiguous groups :=
  fun _ hg _ hg' hne => hd.forall hg hg' hne

namespace Unambiguous

variable {groups : List (Finset Address)}

theorem eq_of_mem (hu : Unambiguous groups) {g g' : Finset Address}
    (hg : g ∈ groups) (hg' : g' ∈ groups) {a : Address} (ha : a ∈ g)
    (ha' : a ∈ g') : g = g' := by
  by_contra hne
  exact Finset.disjoint_left.mp (hu g hg g' hg' hne) ha ha'

/-- The group `_cut` finds is the one that lists the address. -/
theorem findIdx? (hu : Unambiguous groups) {g : Finset Address}
    (hg : g ∈ groups) {a : Address} (ha : a ∈ g) :
    ∃ i, groups.findIdx? (a ∈ ·) = some i ∧ groups[i]? = some g := by
  cases hfind : groups.findIdx? (a ∈ ·) with
  | none =>
      rw [List.findIdx?_eq_none_iff] at hfind
      exact absurd ha (by simpa using hfind g hg)
  | some i =>
      obtain ⟨hi, hai, -⟩ := List.findIdx?_eq_some_iff_getElem.mp hfind
      refine ⟨i, rfl, ?_⟩
      rw [List.getElem?_eq_getElem hi]
      exact congrArg some
        (hu.eq_of_mem (List.getElem_mem hi) hg (by simpa using hai) ha)

/-- A split cuts the pairs it separates. -/
theorem cut_iff (hu : Unambiguous groups) (a b : Address) :
    cut (some groups) a b = true ↔ Separates groups a b := by
  unfold cut
  dsimp only
  constructor
  · intro h
    split at h
    · next i j hi hj =>
      obtain ⟨hil, hai, hbefore⟩ := List.findIdx?_eq_some_iff_getElem.mp hi
      obtain ⟨hjl, hbj, -⟩ := List.findIdx?_eq_some_iff_getElem.mp hj
      refine ⟨_, List.getElem_mem hil, _, List.getElem_mem hjl, ?_,
        by simpa using hai, by simpa using hbj⟩
      intro heq
      -- One group written twice: both searches stop at its first place.
      have hsame : groups.findIdx? (b ∈ ·) = some i := by
        refine List.findIdx?_eq_some_iff_getElem.mpr ⟨hil, ?_, ?_⟩
        · rw [heq]
          exact hbj
        · intro k hk hbk
          refine hbefore k hk ?_
          have hgroup : groups[k] = groups[j] :=
            hu.eq_of_mem (List.getElem_mem _) (List.getElem_mem hjl)
              (by simpa using hbk) (by simpa using hbj)
          rw [hgroup, ← heq]
          exact hai
      rw [hsame, Option.some.injEq] at hj
      simp [hj] at h
    · cases h
  · rintro ⟨g, hg, g', hg', hne, ha, hb⟩
    obtain ⟨i, hi, hgi⟩ := hu.findIdx? hg ha
    obtain ⟨j, hj, hgj⟩ := hu.findIdx? hg' hb
    rw [hi, hj]
    have hij : i ≠ j := by
      rintro rfl
      exact hne (Option.some.inj (hgi.symm.trans hgj))
    simpa using hij

end Unambiguous

theorem cut_iff {groups : List (Finset Address)}
    (hd : groups.Pairwise Disjoint) (a b : Address) :
    cut (some groups) a b = true ↔ Separates groups a b :=
  (unambiguous_of_pairwise hd).cut_iff a b

theorem not_separates_self {groups : List (Finset Address)}
    (hd : groups.Pairwise Disjoint) (a : Address) :
    ¬ Separates groups a a := by
  rintro ⟨g, hg, g', hg', hne, ha, ha'⟩
  exact Finset.disjoint_left.mp (hd.forall hg hg' hne) ha ha'

/-- What can happen to the splits of a network. -/
inductive SplitOp where
  | partition (groups : List (Finset Address))
  | heal
  | beginFault (faultId : ℕ) (groups : List (Finset Address))
  | endFault (faultId : ℕ)
  deriving DecidableEq

/-- The slot of `net.partition`, and the registry of the faults. -/
structure Splits where
  net : Option (List (Finset Address))
  faults : AList fun _ : ℕ => List (Finset Address)

namespace SplitOp

/-- The split an entry puts in force. -/
def groups? : SplitOp → Option (List (Finset Address))
  | partition groups | beginFault _ groups => some groups
  | heal | endFault _ => none

/-- The entry is about the slot. -/
def isNet : SplitOp → Bool
  | partition _ | heal => true
  | beginFault .. | endFault _ => false

/-- The entry is about this fault. -/
def isOf (i : ℕ) : SplitOp → Bool
  | beginFault j _ | endFault j => j = i
  | partition _ | heal => false

def apply (x : Splits) : SplitOp → Splits
  | partition groups => { x with net := some groups }
  | heal => { x with net := none }
  | beginFault i groups => { x with faults := x.faults.insert i groups }
  | endFault i => { x with faults := x.faults.erase i }

end SplitOp

/-- The last `net.partition`, if no `heal` followed it. -/
def NetSplit (h : List SplitOp) (groups : List (Finset Address)) : Prop :=
  Since (· = .partition groups) (fun o => o.isNet = false) h

/-- A scheduled fault that has begun and not ended. -/
def FaultSplit (h : List SplitOp) (i : ℕ) (groups : List (Finset Address)) :
    Prop :=
  Since (· = .beginFault i groups) (fun o => o.isOf i = false) h

/-- The splits in force after a history. -/
def InForce (h : List SplitOp) (groups : List (Finset Address)) : Prop :=
  NetSplit h groups ∨ ∃ i, FaultSplit h i groups

theorem InForce.exists_mem {os : List SplitOp} {groups : List (Finset Address)}
    (h : InForce os groups) : ∃ o ∈ os, o.groups? = some groups := by
  rcases h with h | ⟨i, h⟩
  · obtain ⟨o, ho, rfl⟩ := h.exists_mem
    exact ⟨_, ho, rfl⟩
  · obtain ⟨o, ho, rfl⟩ := h.exists_mem
    exact ⟨_, ho, rfl⟩

namespace Splits

def empty : Splits := ⟨none, ∅⟩

theorem net_foldl (h : List SplitOp) (groups : List (Finset Address)) :
    (h.foldl SplitOp.apply empty).net = some groups ↔ NetSplit h groups := by
  induction h using List.reverseRecOn with
  | nil => simp [empty, NetSplit, Since.not_nil]
  | append_singleton h o ih =>
      rw [List.foldl_append, NetSplit, Since.concat, ← NetSplit, ← ih]
      cases o <;> simp [SplitOp.apply, SplitOp.isNet]

theorem faults_foldl (h : List SplitOp) (i : ℕ)
    (groups : List (Finset Address)) :
    (h.foldl SplitOp.apply empty).faults.lookup i = some groups ↔
      FaultSplit h i groups := by
  induction h using List.reverseRecOn with
  | nil => simp [empty, FaultSplit, Since.not_nil]
  | append_singleton h o ih =>
      rw [List.foldl_append, FaultSplit, Since.concat, ← FaultSplit, ← ih]
      cases o with
      | partition _ | heal => simp [SplitOp.apply, SplitOp.isOf]
      | beginFault j groups' =>
          by_cases hj : i = j
          · subst hj
            simp [SplitOp.apply, SplitOp.isOf]
          · simp [SplitOp.apply, SplitOp.isOf, AList.lookup_insert_ne hj,
              Ne.symm hj]
      | endFault j =>
          by_cases hj : i = j
          · subst hj
            simp [SplitOp.apply, SplitOp.isOf]
          · simp [SplitOp.apply, SplitOp.isOf, AList.lookup_erase_ne hj,
              Ne.symm hj]

end Splits

/-- What a fault callback does to the splits. -/
def FaultCallback.splitOps : FaultCallback → List SplitOp
  | .beginFaultPartition i groups => [.beginFault i groups]
  | .endFaultPartition i => [.endFault i]
  | _ => []

/-- What user code does to them. -/
def Op.splitOps {μ υ : Type} : Op μ υ → List SplitOp
  | .partition groups => [.partition groups]
  | .heal => [.heal]
  | _ => []

namespace Net

variable {ρ μ υ : Type}

/-- The handle a move runs. -/
def handleBy (s : Net ρ μ υ) : FreeAct μ υ → Option (Handle (Callback μ υ))
  | .act .runReady => s.loop.ready.head?
  | .fire id => s.loop.pending.find? fun h => h.id = id
  | _ => none

/-- The fault callback a handle runs: none if it was cancelled. -/
def faultOf (s : Net ρ μ υ) (h : Handle (Callback μ υ)) :
    Option FaultCallback :=
  match h.callback with
  | .fault c => if s.loop.isCancelled h then none else some c
  | _ => none

/-- The fault callback a move runs. -/
def faultBy (s : Net ρ μ υ) : FreeAct μ υ → Option FaultCallback
  | .fault c => some c
  | a => (s.handleBy a).bind s.faultOf

/-- What a move does to the splits. -/
def splitOps (s : Net ρ μ υ) : FreeAct μ υ → List SplitOp
  | .act (.op o) => o.splitOps
  | a => ((s.faultBy a).map FaultCallback.splitOps).getD []

def splits (s : Net ρ μ υ) : Splits := ⟨s.partition, s.faultPartitions⟩

/-! ## Each move is its entries -/

theorem schedule_splits (s : Net ρ μ υ) (now : ℚ) (r : Resolved) :
    (s.schedule now r).splits = s.splits := by
  cases r <;> rfl

theorem scheduleAll_splits (s : Net ρ μ υ) (now : ℚ) (rs : List Resolved) :
    (s.scheduleAll now rs).splits = s.splits := by
  induction rs generalizing s with
  | nil => rfl
  | cons r rs ih => exact (ih _).trans (schedule_splits s now r)

theorem sleep_splits (s : Net ρ μ υ) (seconds : ℚ) (k : υ) :
    (s.sleep seconds k).splits = s.splits := by
  unfold Net.sleep
  dsimp only
  split <;> rfl

theorem finishSleep_splits (s : Net ρ μ υ) (fut : ℕ) :
    (s.finishSleep fut).splits = s.splits := by
  unfold Net.finishSleep
  split <;> rfl

theorem runFault_splits (s : Net ρ μ υ) (c : FaultCallback) :
    (s.runFault c).splits = c.splitOps.foldl SplitOp.apply s.splits := by
  cases c <;> rfl

theorem inboxAct_splits {s t : Net ρ μ υ} {address : Address}
    {a : Inbox.Act μ} {r : Reply μ}
    (h : s.inboxAct address a = some (t, r)) : t.splits = s.splits := by
  unfold inboxAct at h
  split at h
  · cases h
  · simp only [Option.map_eq_some_iff, Prod.mk.injEq] at h
    obtain ⟨_, -, rfl, -⟩ := h
    rfl

theorem runHandle_splits (s : Net ρ μ υ) (h : Handle (Callback μ υ)) :
    (s.runHandle h).splits =
      ((s.faultOf h).map FaultCallback.splitOps |>.getD []).foldl
        SplitOp.apply s.splits := by
  unfold runHandle faultOf
  cases h.callback with
  | fault c =>
      split
      · rfl
      · exact runFault_splits s c
  | deliver mid src dst msg =>
      split
      · rfl
      · obtain ⟨_, _, heq⟩ := deliver_eq s mid src dst msg
        rw [runCallback, heq]
        rfl
  | wake fut k =>
      split
      · rfl
      · exact finishSleep_splits s fut
  | user k | resume fut k => split <;> rfl

section

variable [Random ρ]

theorem op_splits {s t : Net ρ μ υ} {o : Op μ υ} {r : Reply μ}
    (h : s.op o = some (t, r)) :
    t.splits = o.splitOps.foldl SplitOp.apply s.splits := by
  cases o with
  | send src dst msg =>
      simp only [op, Option.map_eq_some_iff, Prod.mk.injEq] at h
      obtain ⟨endpoint, hlook, rfl, -⟩ := h
      obtain ⟨how, hsends⟩ := send_sends hlook dst msg
      obtain ⟨g, f, heq⟩ := hsends.eq
      rw [heq]
      cases how <;> rfl
  | callSoon k | stop | record event | partition groups | heal =>
      cases h
      rfl
  | callAt when k | callLater delay k =>
      simp only [op, Option.some.injEq, userCallLater, userCallAt] at h
      repeat' split at h
      all_goals
        cases h
        rfl
  | cancel handle =>
      simp only [op] at h
      split at h
      · cases h
        rfl
      · cases h
  | bind address reliable loss duplicate =>
      simp only [op] at h
      split at h
      · cases h
        rfl
      · next hb =>
        cases h
        unfold Net.bind at hb
        split at hb
        · cases hb
        · split at hb
          · cases hb
          · cases hb
          · cases hb
            rfl
  | recv address task mustCancel | cancelRecv address task
    | resumeRecv address task => exact inboxAct_splits h
  | runFor seconds faults fuel k =>
      simp only [op, Option.map_eq_some_iff] at h
      obtain ⟨⟨u, res⟩, hrun, hmap⟩ := h
      obtain ⟨window, rs, g, -, -, hu⟩ := runFor_eq hrun
      have hsplits : u.splits = s.splits := by
        rcases hu with ⟨e, -, rfl⟩ | ⟨-, -, -, -, rfl⟩
        · exact scheduleAll_splits _ _ rs
        · exact (sleep_splits _ _ k).trans (scheduleAll_splits _ _ rs)
      cases res with
      | error e =>
          cases hmap
          exact hsplits
      | ok _ =>
          cases hmap
          exact hsplits
  | cancelRunFor fut =>
      cases h
      exact finishSleep_splits _ fut

theorem freeStep_splits {s t : Net ρ μ υ} {a : FreeAct μ υ}
    (h : freeStep s a = some t) :
    t.splits = (s.splitOps a).foldl SplitOp.apply s.splits := by
  cases a with
  | act a =>
      cases a with
      | op o =>
          simp only [freeStep, step, Option.map_eq_some_iff] at h
          obtain ⟨⟨t', r⟩, hop, rfl⟩ := h
          exact op_splits hop
      | beginStep stopStep | clearStop =>
          cases h
          rfl
      | runReady =>
          simp only [freeStep, step] at h
          split at h
          · cases h
          · next hd rest hready =>
            cases h
            rw [runHandle_splits]
            simp only [splitOps, faultBy, handleBy, hready, List.head?_cons,
              Option.bind_some]
            rfl
  | fault c =>
      cases h
      exact runFault_splits s c
  | fire id =>
      simp only [freeStep, Option.map_eq_some_iff] at h
      obtain ⟨hd, hfind, rfl⟩ := h
      rw [runHandle_splits]
      simp only [splitOps, faultBy, handleBy, hfind, Option.bind_some]
      rfl
  | setClock time =>
      cases h
      rfl

/-- What the moves of a run did to the splits, in order. -/
def splitHistory (s : Net ρ μ υ) (as : List (FreeAct μ υ)) : List SplitOp :=
  Machine.outputs freeStep splitOps s as

/-- The splits of a network are its history's. -/
theorem freeRun_splits {g f : ρ} {s : Net ρ μ υ} {as : List (FreeAct μ υ)}
    (h : Machine.run freeStep (init g f) as = some s) :
    s.splits =
      (splitHistory (init g f) as).foldl SplitOp.apply Splits.empty := by
  have hinit : (init g f : Net ρ μ υ).splits =
      ([] : List SplitOp).foldl SplitOp.apply Splits.empty := rfl
  have hrun := Machine.run_outputs_invariant
    (I := fun s os => s.splits = os.foldl SplitOp.apply Splits.empty)
    (fun {s a t os} hs hstep => by
      rw [freeStep_splits hstep, hs, List.foldl_append]) hinit h
  exact hrun

end

/-! ## Reachability -/

theorem reachable_iff_cut (s : Net ρ μ υ) (a b : Address) :
    s.reachable a b = true ↔ ∀ groups,
      (s.splits.net = some groups ∨
        ∃ i, s.splits.faults.lookup i = some groups) →
      cut (some groups) a b = false := by
  simp only [reachable, splits, Bool.and_eq_true, Bool.not_eq_true',
    List.all_eq_true]
  constructor
  · rintro ⟨hnet, hfaults⟩ groups (hg | ⟨i, hg⟩)
    · rw [← hg]
      exact hnet
    · exact hfaults _ (AList.mem_lookup_iff.mp hg)
  · intro h
    refine ⟨?_, ?_⟩
    · cases hp : s.partition with
      | none => rfl
      | some groups => exact h groups (.inl hp)
    · rintro ⟨i, groups⟩ hmem
      exact h groups (.inr ⟨i, AList.mem_lookup_iff.mpr hmem⟩)

/-- Splits that come of a history cut what the splits in force separate. -/
theorem reachable_iff {s : Net ρ μ υ} {os : List SplitOp}
    (hs : s.splits = os.foldl SplitOp.apply Splits.empty)
    (hd : ∀ groups, InForce os groups → groups.Pairwise Disjoint)
    (a b : Address) : s.reachable a b = true ↔
      ∀ groups, InForce os groups → ¬ Separates groups a b := by
  rw [reachable_iff_cut, hs]
  simp only [Splits.net_foldl, Splits.faults_foldl]
  refine forall_congr' fun groups => imp_congr_right fun hin => ?_
  rw [← cut_iff (hd groups hin), Bool.not_eq_true]

theorem splitOps_of_faultBy {s : Net ρ μ υ} {a : FreeAct μ υ}
    {c : FaultCallback} (h : s.faultBy a = some c) :
    s.splitOps a = c.splitOps := by
  unfold splitOps
  split
  · cases h
  · rw [h]
    rfl

variable [Random ρ]

/-- Partitions compose. Whatever happens in whatever order, two addresses reach
each other exactly when no split in force separates them. So reachability is
symmetric, every address reaches itself, and one that no split lists reaches
every other; `heal` leaves the split of every scheduled fault in force, and the
end of a fault every split but its own. -/
theorem partitions_compose {g f : ρ} {s : Net ρ μ υ} {as : List (FreeAct μ υ)}
    (h : Machine.run freeStep (init g f) as = some s)
    (hd : ∀ o ∈ splitHistory (init g f) as, ∀ groups,
      o.groups? = some groups → groups.Pairwise Disjoint) :
    let os := splitHistory (init g f) as
    (∀ a b, s.reachable a b = true ↔
      ∀ groups, InForce os groups → ¬ Separates groups a b) ∧
    (∀ a b, s.reachable a b = s.reachable b a) ∧
    (∀ a, s.reachable a a = true) ∧
    (∀ a, (∀ groups, InForce os groups → ∀ g ∈ groups, a ∉ g) →
      ∀ b, s.reachable a b = true) ∧
    (∀ t, freeStep s (.act (.op .heal)) = some t →
      ∀ i groups, FaultSplit os i groups → ∀ a b, Separates groups a b →
        t.reachable a b = false) ∧
    ∀ act i t, s.faultBy act = some (.endFaultPartition i) →
      freeStep s act = some t → ∀ groups,
        (NetSplit os groups ∨ ∃ j, j ≠ i ∧ FaultSplit os j groups) →
        ∀ a b, Separates groups a b → t.reachable a b = false := by
  have hs := freeRun_splits h
  generalize splitHistory (init g f) as = os at hs hd
  intro os
  have hin : ∀ groups, InForce os groups → groups.Pairwise Disjoint := by
    intro groups hg
    obtain ⟨o, ho, heq⟩ := hg.exists_mem
    exact hd o ho groups heq
  have hiff := reachable_iff hs hin
  -- One more entry that puts no split in force cuts what was still cut.
  have hlater : ∀ t act o, freeStep s act = some t → s.splitOps act = [o] →
      o.groups? = none → ∀ groups, InForce (os ++ [o]) groups →
      ∀ a b, Separates groups a b → t.reachable a b = false := by
    intro t act o hstep hop hnone groups hg a b hsep
    have ht : t.splits = (os ++ [o]).foldl SplitOp.apply Splits.empty := by
      rw [freeStep_splits hstep, hop, hs, ← List.foldl_append]
    rw [← Bool.not_eq_true, reachable_iff ht ?_ a b]
    · exact fun hall => hall groups hg hsep
    · intro groups' hg'
      obtain ⟨o', ho', heq⟩ := hg'.exists_mem
      rcases List.mem_append.mp ho' with ho' | ho'
      · exact hd o' ho' groups' heq
      · rw [List.mem_singleton.mp ho', hnone] at heq
        cases heq
  refine ⟨hiff, ?_, ?_, ?_, ?_, ?_⟩
  · intro a b
    rw [Bool.eq_iff_iff, hiff, hiff]
    exact forall₂_congr fun groups _ => not_congr ⟨.symm, .symm⟩
  · intro a
    rw [hiff]
    exact fun groups hg => not_separates_self (hin groups hg) a
  · intro a hno b
    rw [hiff]
    rintro groups hg ⟨g, hmem, _, _, _, ha, _⟩
    exact hno groups hg g hmem ha
  · intro t hstep i groups hg
    refine hlater t _ .heal hstep rfl rfl groups (.inr ⟨i, ?_⟩)
    exact Since.concat.mpr (.inr ⟨hg, rfl⟩)
  · intro act i t hact hstep groups hg
    refine hlater t act (.endFault i) hstep (splitOps_of_faultBy hact) rfl
      groups ?_
    rcases hg with hg | ⟨j, hj, hg⟩
    · exact .inl (Since.concat.mpr (.inr ⟨hg, rfl⟩))
    · refine .inr ⟨j, Since.concat.mpr (.inr ⟨hg, ?_⟩)⟩
      simpa [SplitOp.isOf] using hj.symm

/-- Two faults that overlap, and a split of the scenario's own over both. -/
def overlappingSplits : List (FreeAct Unit ℕ) :=
  [.act (.op (.partition [{1}, {2}])),
    .fault (.beginFaultPartition 0 [{1}, {3}]),
    .fault (.beginFaultPartition 1 [{2}, {3}]), .act (.op .heal)]

theorem partitions_compose_overlappingSplits : ∃ s t,
    Machine.run freeStep (init Toggle.low Toggle.low) overlappingSplits =
      some s ∧
    freeStep s (.fault (.endFaultPartition 0)) = some t ∧
    t.reachable 2 3 = false := by
  have hrun : (Machine.run freeStep (init Toggle.low Toggle.low)
      overlappingSplits).isSome := by decide +kernel
  obtain ⟨s, hs⟩ := Option.isSome_iff_exists.mp hrun
  have hos : splitHistory (init Toggle.low Toggle.low) overlappingSplits =
      [.partition [{1}, {2}], .beginFault 0 [{1}, {3}],
        .beginFault 1 [{2}, {3}], .heal] := by decide +kernel
  refine ⟨s, _, hs, rfl, ?_⟩
  refine (partitions_compose hs ?_).2.2.2.2.2 (.fault (.endFaultPartition 0)) 0
    _ rfl rfl [{2}, {3}] (.inr ⟨1, by decide, ?_⟩) 2 3 ?_
  · rw [hos]
    simp [SplitOp.groups?]
  · rw [hos]
    exact ⟨[.partition [{1}, {2}], .beginFault 0 [{1}, {3}]], _, [.heal], rfl,
      rfl, by simp [SplitOp.isOf]⟩
  · exact ⟨{2}, by simp, {3}, by simp, by decide, by simp, by simp⟩

end Net

end Seedloop
