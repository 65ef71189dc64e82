import Seedloop.Proofs.Splits

/-!
# A split and the way it is written

`_cut` goes by the first group that lists an address. That is the only one as
long as no two groups share an address, and then the order of the groups and
their repetitions mean nothing. Two groups that differ and do share one can be
told apart by who is written first: put the smaller before the larger, and an
address of the larger is cut from the one they share.
-/

namespace Seedloop

/-- A split means what it lists, however it is written: the order of its groups
does not change who reaches whom, whatever else cuts the network, and what is
listed together is not cut. -/
structure ReadsAlike (groups : List (Finset Address)) : Prop where
  perm : ∀ (ρ μ υ : Type) [Random ρ] (s t t' : Net ρ μ υ)
    (groups' : List (Finset Address)), groups'.Perm groups →
    s.op (.partition groups) = some (t, .done) →
    s.op (.partition groups') = some (t', .done) →
    ∀ a b, t'.reachable a b = t.reachable a b
  together : ∀ g ∈ groups, ∀ a ∈ g, ∀ b ∈ g, cut (some groups) a b = false

theorem Unambiguous.perm {groups groups' : List (Finset Address)}
    (hu : Unambiguous groups) (hp : groups'.Perm groups) :
    Unambiguous groups' :=
  fun g hg g' hg' => hu g (hp.subset hg) g' (hp.subset hg')

theorem separates_perm {groups groups' : List (Finset Address)}
    (hp : groups'.Perm groups) (a b : Address) :
    Separates groups' a b ↔ Separates groups a b := by
  simp only [Separates, hp.mem_iff]

theorem Unambiguous.cut_perm {groups groups' : List (Finset Address)}
    (hu : Unambiguous groups) (hp : groups'.Perm groups) (a b : Address) :
    cut (some groups') a b = cut (some groups) a b := by
  rw [Bool.eq_iff_iff, (hu.perm hp).cut_iff, hu.cut_iff, separates_perm hp]

theorem Unambiguous.not_separates {groups : List (Finset Address)}
    (hu : Unambiguous groups) {g : Finset Address} (hg : g ∈ groups)
    {a b : Address} (ha : a ∈ g) (hb : b ∈ g) : ¬ Separates groups a b := by
  rintro ⟨g₁, hg₁, g₂, hg₂, hne, ha', hb'⟩
  exact hne ((hu.eq_of_mem hg₁ hg ha' ha).trans (hu.eq_of_mem hg hg₂ hb hb'))

/-- With `g'` in front, what `g` has and `g'` has not is cut from what they
share. -/
theorem cut_of_front {groups : List (Finset Address)} {g g' : Finset Address}
    (hg : g ∈ groups) {a b : Address} (ha' : a ∈ g') (hb : b ∈ g)
    (hb' : b ∉ g') : cut (some (g' :: groups)) a b = true := by
  have hfind : (g' :: groups).findIdx? (a ∈ ·) = some 0 := by
    simp [List.findIdx?_cons, ha']
  cases hrest : groups.findIdx? (b ∈ ·) with
  | none =>
      rw [List.findIdx?_eq_none_iff] at hrest
      exact absurd hb (by simpa using hrest g hg)
  | some i =>
      have hlater : (g' :: groups).findIdx? (b ∈ ·) = some (i + 1) := by
        simp [List.findIdx?_cons, hb', hrest]
      simp [cut, hfind, hlater]

/-- Two groups that share an address are one group. -/
theorem ReadsAlike.subset {groups : List (Finset Address)}
    (h : ReadsAlike groups) {g g' : Finset Address} (hg : g ∈ groups)
    (hg' : g' ∈ groups) {a : Address} (ha : a ∈ g) (ha' : a ∈ g') :
    g ⊆ g' := by
  intro b hb
  by_contra hb'
  have hne : g ≠ g' := by
    rintro rfl
    exact hb' hb
  have hfront : (g' :: groups.erase g').Perm groups :=
    (List.perm_cons_erase hg').symm
  have hcut : cut (some (g' :: groups.erase g')) a b = true :=
    cut_of_front ((List.mem_erase_of_ne hne).mpr hg) ha' hb hb'
  have hsame := h.perm Toggle Unit Unit (Net.init .low .low) _ _ _ hfront rfl
    rfl a b
  have htogether := h.together g hg a ha b hb
  simp [Net.reachable, Net.init, hcut, htogether] at hsame

/-- A split does not depend on how it is written, exactly when no two different
groups of it share an address. -/
theorem split_reads_alike_iff (groups : List (Finset Address)) :
    ReadsAlike groups ↔ Unambiguous groups := by
  constructor
  · intro h g hg g' hg' hne
    rw [Finset.disjoint_left]
    intro a ha ha'
    exact hne ((h.subset hg hg' ha ha').antisymm (h.subset hg' hg ha' ha))
  · intro hu
    refine ⟨?_, ?_⟩
    · intro ρ μ υ _ s t t' groups' hp ht ht' a b
      cases ht
      cases ht'
      simp only [Net.reachable, hu.cut_perm hp]
    · intro g hg a ha b hb
      rw [← Bool.not_eq_true, hu.cut_iff]
      exact hu.not_separates hg ha hb

/-- Two groups that share an address, neither within the other. -/
theorem split_reads_alike_overlap : ¬ ReadsAlike [{1, 2}, {2, 3}] := by
  intro h
  have := h.together {2, 3} (by simp) 2 (by simp) 3 (by simp)
  revert this
  decide

end Seedloop
