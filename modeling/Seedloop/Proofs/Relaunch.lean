import Seedloop.Ref.HashSeed

/-!
# When the launcher is done

The guard is set to what `PYTHONHASHSEED` is set to, so from the first launch
on it says nothing of its own: a call returns in an interpreter that was
launched with its target, and in no other. That is the half of the claim that
always holds.

The other half is about seeds that pin different values. An interpreter has one
value, so one of the calls launches another, and that one is no better off: its
value is the target of that call, and of the calls that differ from it one
launches again. The chain ends if, and only if, all targets are the same.
-/

namespace Seedloop

variable {hashSeedFor : ℤ → ℕ}

theorem hashSeedTarget_inj {s t : ℤ} :
    hashSeedTarget hashSeedFor s = hashSeedTarget hashSeedFor t ↔
      hashSeedFor s = hashSeedFor t := by
  refine ⟨fun h => ?_, fun h => congrArg Nat.repr h⟩
  have hdigits := congrArg String.toList h
  rw [hashSeedTarget, hashSeedTarget, Nat.toList_repr, Nat.toList_repr]
    at hdigits
  rw [← Nat.ofDigitChars_ten_toDigits (n := hashSeedFor s), hdigits,
    Nat.ofDigitChars_ten_toDigits]

/-- The guard has nothing to say that `PYTHONHASHSEED` does not. -/
def Environ.Pinned (environ : Environ) : Prop :=
  environ.reexecGuard = none ∨ environ.reexecGuard = environ.pythonHashSeed

theorem ensureHashSeed_eq_none {environ : Environ} (h : environ.Pinned)
    {s : ℤ} : ensureHashSeed hashSeedFor environ s = none ↔
      environ.pythonHashSeed = some (hashSeedTarget hashSeedFor s) := by
  rw [ensureHashSeed]
  split
  · next hc =>
    refine ⟨fun _ => ?_, fun _ => rfl⟩
    rcases hc with hguard | hseed
    · rcases h with hnone | heq
      · rw [hnone] at hguard
        cases hguard
      · exact heq ▸ hguard
    · exact hseed
  · next hc => exact ⟨by simp, fun hseed => absurd (.inr hseed) hc⟩

theorem ensureHashSeed_eq_some {environ child : Environ} {s : ℤ}
    (h : ensureHashSeed hashSeedFor environ s = some child) :
    child = ⟨some (hashSeedTarget hashSeedFor s),
      some (hashSeedTarget hashSeedFor s)⟩ := by
  rw [ensureHashSeed] at h
  split at h
  · cases h
  · exact (Option.some.inj h).symm

/-- Of the calls of an entry point, those that return do so by themselves. -/
theorem runEntryPoint_returned {environ : Environ} {seeds : List ℤ} {s : ℤ}
    (h : s ∈ (runEntryPoint hashSeedFor environ seeds).1) :
    ensureHashSeed hashSeedFor environ s = none := by
  induction seeds with
  | nil => cases h
  | cons t seeds ih =>
      rw [runEntryPoint] at h
      split at h
      · cases h
      · next hnone =>
        rcases List.mem_cons.mp h with rfl | h
        · exact hnone
        · exact ih h

theorem runEntryPoint_eq_none {environ : Environ} {seeds : List ℤ} :
    (runEntryPoint hashSeedFor environ seeds).2 = none ↔
      ∀ s ∈ seeds, ensureHashSeed hashSeedFor environ s = none := by
  induction seeds with
  | nil => simp [runEntryPoint]
  | cons t seeds ih =>
      rw [runEntryPoint]
      split
      · next hsome => simp [hsome]
      · next hnone => simp [hnone, ih]

theorem runEntryPoint_eq_some {environ child : Environ} {seeds : List ℤ}
    (h : (runEntryPoint hashSeedFor environ seeds).2 = some child) :
    ∃ s ∈ seeds, ensureHashSeed hashSeedFor environ s = some child := by
  induction seeds with
  | nil => cases h
  | cons t seeds ih =>
      rw [runEntryPoint] at h
      split at h
      · next hsome =>
        cases h
        exact ⟨t, List.mem_cons_self, hsome⟩
      · obtain ⟨s, hs, hsome⟩ := ih h
        exact ⟨s, List.mem_cons_of_mem t hs, hsome⟩

theorem runEntryPoint_pinned {environ child : Environ} {seeds : List ℤ}
    (h : (runEntryPoint hashSeedFor environ seeds).2 = some child) :
    child.Pinned := by
  obtain ⟨s, -, hs⟩ := runEntryPoint_eq_some h
  rw [ensureHashSeed_eq_some hs]
  exact .inr rfl

theorem interpreter_pinned {environ : Environ} {seeds : List ℤ}
    (h : environ.Pinned) {n : ℕ} {e : Environ}
    (he : interpreter hashSeedFor seeds environ n = some e) : e.Pinned := by
  cases n with
  | zero => exact Option.some.inj he ▸ h
  | succ n =>
      obtain ⟨d, -, hd⟩ := Option.bind_eq_some_iff.mp he
      exact runEntryPoint_pinned hd

/-- With one target an interpreter that was launched launches no other. -/
theorem interpreter_two {environ : Environ} {seeds : List ℤ}
    (hsame : ∀ s ∈ seeds, ∀ t ∈ seeds, hashSeedFor s = hashSeedFor t) :
    interpreter hashSeedFor seeds environ 2 = none := by
  rw [interpreter, Option.bind_eq_none_iff]
  intro e he
  obtain ⟨d, -, hd⟩ := Option.bind_eq_some_iff.mp he
  obtain ⟨s, hs, hchild⟩ := runEntryPoint_eq_some hd
  refine runEntryPoint_eq_none.mpr fun t ht => ?_
  rw [ensureHashSeed_eq_none (runEntryPoint_pinned hd),
    ensureHashSeed_eq_some hchild, hashSeedTarget_inj.mpr (hsame s hs t ht)]

/-- With two there is always another. -/
theorem interpreter_isSome {environ : Environ} {seeds : List ℤ}
    (h : environ.Pinned) {s t : ℤ} (hs : s ∈ seeds) (ht : t ∈ seeds)
    (hne : hashSeedFor s ≠ hashSeedFor t) (n : ℕ) :
    ∃ e, interpreter hashSeedFor seeds environ n = some e := by
  induction n with
  | zero => exact ⟨environ, rfl⟩
  | succ n ih =>
      obtain ⟨e, he⟩ := ih
      have hpinned := interpreter_pinned h he
      rw [interpreter, he, Option.bind_some, ← Option.ne_none_iff_exists']
      intro hnone
      have hall := runEntryPoint_eq_none.mp hnone
      have hs := (ensureHashSeed_eq_none hpinned).mp (hall s hs)
      have ht := (ensureHashSeed_eq_none hpinned).mp (hall t ht)
      exact hne (hashSeedTarget_inj.mp (Option.some.inj (hs.symm.trans ht)))

/-- The chain of launches ends, and each call that returns does so in an
interpreter that was launched with its hash seed, if, and only if, all the calls
pin the same value. -/
theorem launches_end_iff (hashSeedFor : ℤ → ℕ) (seeds : List ℤ)
    (pythonHashSeed : Option String) :
    ((∃ n, interpreter hashSeedFor seeds ⟨none, pythonHashSeed⟩ n = none) ∧
      ∀ n environ,
        interpreter hashSeedFor seeds ⟨none, pythonHashSeed⟩ n = some environ →
        ∀ s ∈ (runEntryPoint hashSeedFor environ seeds).1,
          environ.pythonHashSeed = some (hashSeedFor s).repr) ↔
    ∀ s ∈ seeds, ∀ t ∈ seeds, hashSeedFor s = hashSeedFor t := by
  have hpinned : Environ.Pinned ⟨none, pythonHashSeed⟩ := .inl rfl
  constructor
  · rintro ⟨⟨n, hn⟩, -⟩ s hs t ht
    refine Decidable.byContradiction fun hne => ?_
    obtain ⟨e, he⟩ := interpreter_isSome hpinned hs ht hne n
    rw [hn] at he
    cases he
  · intro hsame
    refine ⟨⟨2, interpreter_two hsame⟩, fun n environ he s hs => ?_⟩
    exact (ensureHashSeed_eq_none (interpreter_pinned hpinned he)).mp
      (runEntryPoint_returned hs)

/-- Two seeds that pin two values: the launches never end. -/
theorem launches_never_end :
    ¬ ∃ n, interpreter Int.natAbs [1, 2] ⟨none, none⟩ n = none := by
  rintro ⟨n, hn⟩
  have hseeds : (1 : ℤ).natAbs ≠ (2 : ℤ).natAbs := by decide
  obtain ⟨e, he⟩ : ∃ e, interpreter Int.natAbs [1, 2] ⟨none, none⟩ n = some e :=
    interpreter_isSome (.inl rfl) (by simp) (by simp) hseeds n
  rw [he] at hn
  cases hn

end Seedloop
