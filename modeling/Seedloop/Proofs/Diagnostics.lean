import Seedloop.Ref.Diagnostics

/-!
# The text about the tasks that are left

The set `asyncio.all_tasks` gives is in the order of memory addresses, so the
text has to be a function of the set. Stamps tell stamped tasks apart, so that
there is one way to sort them. Unstamped tasks are sorted as texts, and though
there may be many ways to put tasks of one text, it is one list of texts. Where
the limit cuts that list does not matter any more.
-/

namespace Seedloop

/-- The stamped ones among some tasks have different stamps. -/
def StampsDiffer (tasks : List TaskInfo) : Prop :=
  (tasks.filterMap TaskInfo.seq).Nodup

/-- Unstamped tasks come first, and stamped ones as they were created. -/
def Canonical (order : List TaskInfo) : Prop :=
  order.Pairwise fun s t =>
    (t.seq = none → s.seq = none) ∧
      ∀ i j, s.seq = some i → t.seq = some j → i < j

/-- The part about what is left out, if anything is. -/
def leftOut : ℕ → List String
  | 0 => []
  | k + 1 => ["and " ++ toString (k + 1) ++ " more"]

/-! ## Sorting by a key -/

section

variable {α κ : Type} [LinearOrder κ] (key : α → κ)

theorem pairwise_insertionSort_key (l : List α) :
    (l.insertionSort fun a b => key a ≤ key b).Pairwise
      fun a b => key a ≤ key b := by
  have : Std.Total fun a b : α => key a ≤ key b :=
    ⟨fun a b => le_total (key a) (key b)⟩
  have : IsTrans α fun a b => key a ≤ key b :=
    ⟨fun a b c hab hbc => le_trans hab hbc⟩
  exact List.pairwise_insertionSort _ l

/-- Where equal keys are equal items there is one sorted list. -/
theorem insertionSort_key_congr {l l' : List α} (h : l.Perm l')
    (hkey : ∀ a ∈ l, ∀ b ∈ l, key a = key b → a = b) :
    l.insertionSort (fun a b => key a ≤ key b) =
      l'.insertionSort fun a b => key a ≤ key b := by
  have hperm := List.perm_insertionSort (fun a b => key a ≤ key b) l
  have hperm' := List.perm_insertionSort (fun a b => key a ≤ key b) l'
  refine List.Perm.eq_of_pairwise ?_ (pairwise_insertionSort_key key l)
    (pairwise_insertionSort_key key l') (hperm.trans (h.trans hperm'.symm))
  intro a b ha hb hab hba
  have ha : a ∈ l := hperm.mem_iff.mp ha
  have hb : b ∈ l := h.mem_iff.mpr (hperm'.mem_iff.mp hb)
  exact hkey a ha b hb (le_antisymm hab hba)

end

/-! ## Tasks -/

theorem StampsDiffer.pairwise {tasks : List TaskInfo}
    (h : StampsDiffer tasks) : tasks.Pairwise fun s t =>
      ∀ i, s.seq = some i → ∀ j, t.seq = some j → i ≠ j :=
  List.pairwise_filterMap.mp h

theorem StampsDiffer.eq {tasks : List TaskInfo} (h : StampsDiffer tasks)
    {s t : TaskInfo} (hs : s ∈ tasks) (ht : t ∈ tasks) {i : ℤ}
    (hi : s.seq = some i) (hj : t.seq = some i) : s = t := by
  have hsame : ∀ s ∈ tasks, ∀ t ∈ tasks,
      ∀ i, s.seq = some i → t.seq = some i → s = t := by
    refine List.Pairwise.forall_of_forall_of_flip (fun _ _ _ _ _ => rfl) ?_ ?_
    · exact h.pairwise.imp fun hne i hi hj => absurd rfl (hne i hi i hj)
    · exact h.pairwise.imp fun hne i hi hj => absurd rfl (hne i hj i hi)
  exact hsame s hs t ht i hi hj

theorem StampsDiffer.live {tasks : List TaskInfo} (h : StampsDiffer tasks) :
    StampsDiffer (liveTasks tasks) :=
  h.sublist (List.filter_sublist.filterMap TaskInfo.seq)

/-- All tasks that are left, unstamped ones sorted by text. -/
def ordered (live : List TaskInfo) : List TaskInfo :=
  ((live.filter (·.seq.isNone)).insertionSort fun s t =>
    s.describe ≤ t.describe) ++ indexedTasks live

theorem describeTasks_eq (tasks : List TaskInfo) (limit : ℕ) :
    describeTasks tasks limit =
      listing ((ordered (liveTasks tasks)).map TaskInfo.describe) limit := by
  have hmap := List.map_insertionSort (fun s t => s.describe ≤ t.describe)
    (· ≤ ·) TaskInfo.describe ((liveTasks tasks).filter (·.seq.isNone))
    fun _ _ _ _ => Iff.rfl
  unfold describeTasks ordered unindexedTexts
  rw [List.map_append, hmap]

theorem ordered_perm (live : List TaskInfo) : (ordered live).Perm live := by
  have hsplit := List.filter_append_perm (fun t : TaskInfo => t.seq.isNone) live
  have hnot : (live.filter fun t => !t.seq.isNone) =
      live.filter (·.seq.isSome) := by simp
  rw [hnot] at hsplit
  exact ((List.perm_insertionSort _ _).append
    (List.perm_insertionSort _ _)).trans hsplit

theorem mem_indexedTasks {live : List TaskInfo} {t : TaskInfo} :
    t ∈ indexedTasks live ↔ t ∈ live ∧ t.seq.isSome := by
  rw [indexedTasks, List.mem_insertionSort, List.mem_filter]

theorem ordered_canonical {live : List TaskInfo} (hd : StampsDiffer live) :
    Canonical (ordered live) := by
  have hfirst : ∀ t ∈ (live.filter (·.seq.isNone)).insertionSort (fun s t =>
      s.describe ≤ t.describe), t.seq = none := by
    intro t ht
    rw [List.mem_insertionSort, List.mem_filter] at ht
    exact Option.isNone_iff_eq_none.mp ht.2
  refine List.pairwise_append.mpr ⟨?_, ?_, ?_⟩
  · refine (List.pairwise_of_forall_mem_list fun s hs t _ => ⟨?_, ?_⟩)
    · exact fun _ => hfirst s hs
    · intro i j hi
      rw [hfirst s hs] at hi
      cases hi
  · have hle : (indexedTasks live).Pairwise fun s t =>
        s.seq.getD 0 ≤ t.seq.getD 0 :=
      pairwise_insertionSort_key (fun t : TaskInfo => t.seq.getD 0) _
    have hdiff : StampsDiffer (indexedTasks live) := by
      refine ((List.perm_insertionSort _ _).filterMap TaskInfo.seq).nodup_iff.mpr ?_
      exact hd.sublist (List.filter_sublist.filterMap TaskInfo.seq)
    refine (hle.and hdiff.pairwise).imp_of_mem ?_
    rintro s t - ht ⟨hle, hne⟩
    refine ⟨fun hnone => ?_, fun i j hi hj => ?_⟩
    · have hsome := (mem_indexedTasks.mp ht).2
      rw [hnone] at hsome
      cases hsome
    · rw [hi, hj] at hle
      exact lt_of_le_of_ne hle (hne i hi j hj)
  · intro s hs t ht
    refine ⟨fun _ => hfirst s hs, fun i j hi => ?_⟩
    rw [hfirst s hs] at hi
    cases hi

/-- What is shown of some parts, and what is said about the others. -/
theorem listing_map {order : List TaskInfo} (hne : order ≠ []) (limit : ℕ) :
    listing (order.map TaskInfo.describe) limit = "; ".intercalate
      ((order.take limit).map TaskInfo.describe ++
        leftOut (order.drop limit).length) := by
  have hmore : (if limit < (order.map TaskInfo.describe).length then
        ["and " ++ toString ((order.map TaskInfo.describe).length - limit) ++
          " more"]
      else []) = leftOut (order.drop limit).length := by
    rw [List.length_map, List.length_drop]
    split_ifs with hlt
    · obtain ⟨k, hk⟩ := Nat.exists_eq_succ_of_ne_zero (Nat.sub_ne_zero_of_lt hlt)
      rw [hk]
      rfl
    · rw [Nat.sub_eq_zero_of_le (not_lt.mp hlt)]
      rfl
  unfold listing
  rw [hmore, ← List.map_take]
  refine if_neg fun hempty => ?_
  rw [List.isEmpty_iff, List.append_eq_nil_iff, List.map_eq_nil_iff,
    List.take_eq_nil_iff] at hempty
  obtain ⟨rfl | hnil, hrest⟩ := hempty
  · rw [List.drop_zero] at hrest
    cases order with
    | nil => exact hne rfl
    | cons t order => cases hrest
  · exact hne hnil

/-- The text is the same for every order of the tasks. -/
theorem describeTasks_perm {tasks tasks' : List TaskInfo}
    (hd : StampsDiffer tasks) (h : tasks.Perm tasks') (limit : ℕ) :
    describeTasks tasks limit = describeTasks tasks' limit := by
  have hlive : (liveTasks tasks).Perm (liveTasks tasks') := h.filter _
  have hindexed : indexedTasks (liveTasks tasks) =
      indexedTasks (liveTasks tasks') := by
    refine insertionSort_key_congr (fun t : TaskInfo => t.seq.getD 0)
      (hlive.filter _) fun s hs t ht heq => ?_
    obtain ⟨hs, hsome⟩ := List.mem_filter.mp hs
    obtain ⟨ht, hsome'⟩ := List.mem_filter.mp ht
    obtain ⟨i, hi⟩ := Option.isSome_iff_exists.mp hsome
    obtain ⟨j, hj⟩ := Option.isSome_iff_exists.mp hsome'
    have hij : i = j := by simpa [hi, hj] using heq
    exact hd.eq (List.mem_of_mem_filter hs) (List.mem_of_mem_filter ht) hi
      (hij ▸ hj)
  have hunindexed : unindexedTexts (liveTasks tasks) =
      unindexedTexts (liveTasks tasks') :=
    insertionSort_key_congr id ((hlive.filter _).map _) fun _ _ _ _ => id
  unfold describeTasks
  dsimp only
  rw [hindexed, hunindexed]

/-- Diagnostics text is canonical. It is the same for every order the tasks
come in. It is about all tasks that are not done, in one order, unstamped ones
first and stamped ones as they were created; it names the first of them, as
many as the limit allows, and says of how many it does not name, if it leaves
any out. -/
theorem describe_tasks_canonical {tasks : List TaskInfo}
    (hd : StampsDiffer tasks) (limit : ℕ) :
    (∀ tasks' : List TaskInfo, tasks.Perm tasks' →
      describeTasks tasks limit = describeTasks tasks' limit) ∧
    ∃ named rest, (named ++ rest).Perm (tasks.filter fun t => !t.done) ∧
      Canonical (named ++ rest) ∧
      named.length =
        min limit (tasks.filter fun t => !t.done).length ∧
      (named ++ rest = [] → describeTasks tasks limit = "none") ∧
      (named ++ rest ≠ [] → describeTasks tasks limit = "; ".intercalate
        (named.map TaskInfo.describe ++ leftOut rest.length)) := by
  refine ⟨fun tasks' h => describeTasks_perm hd h limit, ?_⟩
  set order := ordered (liveTasks tasks) with horder
  have hperm : order.Perm (tasks.filter fun t => !t.done) :=
    ordered_perm (liveTasks tasks)
  refine ⟨order.take limit, order.drop limit, ?_, ?_, ?_, ?_, ?_⟩
  · rwa [List.take_append_drop]
  · rw [List.take_append_drop]
    exact ordered_canonical hd.live
  · rw [List.length_take, hperm.length_eq]
  · intro hnil
    rw [List.take_append_drop] at hnil
    rw [describeTasks_eq, ← horder, hnil]
    simp [listing]
  · intro hne
    rw [List.take_append_drop] at hne
    rw [describeTasks_eq, ← horder]
    exact listing_map hne limit

/-- Tasks of every kind; the second one is done. -/
def mixed : List TaskInfo :=
  [⟨false, some 7, ⟨some "node", "coroutine"⟩, some "Future"⟩,
    ⟨true, some 1, ⟨some "gone", "coroutine"⟩, none⟩,
    ⟨false, none, ⟨none, "Wrapped"⟩, none⟩,
    ⟨false, some 0, ⟨some "scenario", "coroutine"⟩, some "Event"⟩,
    ⟨false, none, ⟨some "Direct.run", "coroutine"⟩, some "Future"⟩]

theorem describe_tasks_canonical_mixed :
    StampsDiffer mixed ∧
    describeTasks mixed 3 =
      "#? Direct.run awaiting Future; #? Wrapped; " ++
        "#0 scenario awaiting Event; and 1 more" ∧
    ∀ tasks', mixed.Perm tasks' →
      describeTasks mixed 3 = describeTasks tasks' 3 := by
  have hd : StampsDiffer mixed := by
    unfold StampsDiffer
    decide
  exact ⟨hd, by decide +kernel, (describe_tasks_canonical hd 3).1⟩

end Seedloop
