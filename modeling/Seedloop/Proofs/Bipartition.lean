import Seedloop.Lib.Retry
import Seedloop.Proofs.Latency

/-!
# The drawn bipartition

A round puts every bound address on a side by a draw of its own, so round `k`
reads the `k`-th block of as many draws as there are addresses, and it is kept
as soon as its block is mixed. The loop is the general one, a round its trial;
what is particular here is what a round does with its block.
-/

namespace Seedloop

variable {ρ : Type} [Random ρ]

/-- The `i`-th draw of a stream. -/
def nthDraw (i : ℕ) (g : ρ) : ℚ := (Random.random (Net.drawn i g)).1

/-- The next `n` draws are neither all below one half nor all at least that. -/
def Mixed (n : ℕ) (g : ρ) : Prop :=
  (∃ i < n, nthDraw i g < 1 / 2) ∧ ∃ i < n, ¬ nthDraw i g < 1 / 2

theorem drawn_add (m n : ℕ) (g : ρ) :
    Net.drawn (m + n) g = Net.drawn n (Net.drawn m g) := by
  rw [Nat.add_comm]
  exact Function.iterate_add_apply _ n m g

theorem nthDraw_drawn (m i : ℕ) (g : ρ) :
    nthDraw i (Net.drawn m g) = nthDraw (m + i) g := by
  rw [nthDraw, nthDraw, drawn_add]

/-! ## One round -/

/-- A round draws once an address, and the draw at an address's position says
which side it is on. -/
theorem drawSides_spec (addrs : List Address) (g : ρ) :
    (drawSides addrs g).2 = Net.drawn addrs.length g ∧
    (∀ a, a ∈ (drawSides addrs g).1.1 ↔
      ∃ i, addrs[i]? = some a ∧ nthDraw i g < 1 / 2) ∧
    ∀ a, a ∈ (drawSides addrs g).1.2 ↔
      ∃ i, addrs[i]? = some a ∧ ¬ nthDraw i g < 1 / 2 := by
  induction addrs generalizing g with
  | nil => simp [drawSides, Net.drawn]
  | cons addr addrs ih =>
      obtain ⟨hg, hlow, hhigh⟩ := ih (Random.random g).2
      -- Position `0` reads the first draw, position `i + 1` the rest.
      have hcons : ∀ (P : ℚ → Prop) a,
          (∃ i, (addr :: addrs)[i]? = some a ∧ P (nthDraw i g)) ↔
            (addr = a ∧ P (Random.random g).1) ∨
              ∃ i, addrs[i]? = some a ∧ P (nthDraw i (Random.random g).2) := by
        intro P a
        constructor
        · rintro ⟨_ | i, ha, hP⟩
          · exact .inl ⟨by simpa using ha, hP⟩
          · exact .inr ⟨i, by simpa using ha, hP⟩
        · rintro (⟨rfl, hP⟩ | ⟨i, ha, hP⟩)
          · exact ⟨0, rfl, hP⟩
          · exact ⟨i + 1, by simpa using ha, hP⟩
      unfold drawSides
      dsimp only
      split
      · next hx =>
        refine ⟨hg, fun a => ?_, fun a => ?_⟩
        · rw [hcons (· < 1 / 2), Finset.mem_insert, hlow, @eq_comm _ a,
            and_iff_left hx]
        · rw [hcons (¬ · < 1 / 2), hhigh, or_iff_right fun h => h.2 hx]
      · next hx =>
        refine ⟨hg, fun a => ?_, fun a => ?_⟩
        · rw [hcons (· < 1 / 2), hlow, or_iff_right fun h => hx h.2]
        · rw [hcons (¬ · < 1 / 2), Finset.mem_insert, hhigh, @eq_comm _ a,
            and_iff_left hx]

/-- Both sides of a round that is kept are inhabited. -/
def BothSides (x : Finset Address × Finset Address) : Prop :=
  x.1.Nonempty ∧ x.2.Nonempty

instance : DecidablePred BothSides := fun _ => inferInstanceAs (Decidable (_ ∧ _))

theorem bothSides_iff (addrs : List Address) (g : ρ) :
    BothSides (drawSides addrs g).1 ↔ Mixed addrs.length g := by
  obtain ⟨-, hlow, hhigh⟩ := drawSides_spec addrs g
  have hside : ∀ P : ℕ → Prop,
      (∃ a i, addrs[i]? = some a ∧ P i) ↔ ∃ i < addrs.length, P i := by
    intro P
    constructor
    · rintro ⟨a, i, ha, hP⟩
      exact ⟨i, (List.getElem?_eq_some_iff.mp ha).1, hP⟩
    · rintro ⟨i, hi, hP⟩
      exact ⟨addrs[i], i, List.getElem?_eq_getElem hi, hP⟩
  unfold BothSides Mixed Finset.Nonempty
  simp only [hlow, hhigh, hside fun i => nthDraw i g < 1 / 2,
    hside fun i => ¬ nthDraw i g < 1 / 2]

/-! ## Until a round is kept -/

/-- The loop is the general one. -/
theorem drawBipartition_eq (addrs : List Address) (fuel : ℕ) (g : ρ) :
    drawBipartition addrs fuel g =
      (retry (drawSides addrs) BothSides fuel g).map
        fun x => ([x.1.1, x.1.2], x.2) := by
  induction fuel generalizing g with
  | zero => rfl
  | succ fuel ih =>
      unfold drawBipartition retry
      dsimp only
      split
      · next h =>
        have hsides : BothSides (drawSides addrs g).1 := h
        rw [if_pos hsides, Option.map_some]
      · next h =>
        have hsides : ¬ BothSides (drawSides addrs g).1 := h
        rw [if_neg hsides, ih]

theorem after_drawSides (addrs : List Address) (k : ℕ) (g : ρ) :
    Retry.after (drawSides addrs) k g = Net.drawn (k * addrs.length) g := by
  induction k with
  | zero => rw [Nat.zero_mul]; rfl
  | succ k ih =>
      rw [Retry.after_succ, (drawSides_spec _ _).1, ih, Nat.succ_mul,
        drawn_add]

namespace Net

variable {μ υ : Type}

/-- The split that the `k`-th block of `n` draws puts the addresses in. -/
structure SplitBy (s : Net ρ μ υ) (k : ℕ) (a b : Finset Address) : Prop where
  low : ∀ x, x ∈ a ↔ ∃ i, s.boundAddresses[i]? = some x ∧
    nthDraw (k * s.boundAddresses.length + i) s.faultsRng < 1 / 2
  high : ∀ x, x ∈ b ↔ ∃ i, s.boundAddresses[i]? = some x ∧
    ¬ nthDraw (k * s.boundAddresses.length + i) s.faultsRng < 1 / 2

/-- Every address has one position, so it is on one side. -/
theorem SplitBy.partitions {s : Net ρ μ υ} {k : ℕ} {a b : Finset Address}
    (h : s.SplitBy k a b) :
    Disjoint a b ∧ a ∪ b = s.endpoints.keys.toFinset := by
  constructor
  · rw [Finset.disjoint_left]
    intro x ha hb
    obtain ⟨i, hi, hlow⟩ := (h.low x).mp ha
    obtain ⟨j, hj, hhigh⟩ := (h.high x).mp hb
    obtain ⟨hil, -⟩ := List.getElem?_eq_some_iff.mp hi
    have hij : i = j :=
      (List.getElem?_inj hil s.boundAddresses_nodup).mp (hi.trans hj.symm)
    exact hhigh (hij ▸ hlow)
  · ext x
    have hbound : x ∈ s.endpoints.keys.toFinset ↔ x ∈ s.boundAddresses := by
      rw [List.mem_toFinset, mem_boundAddresses, AList.mem_keys]
    rw [Finset.mem_union, hbound, h.low, h.high, List.mem_iff_getElem?,
      ← exists_or]
    refine exists_congr fun i => ?_
    rw [← and_or_left]
    exact and_iff_left (em _)

/-- Which blocks a returned split was drawn from. -/
theorem splitBy_of_drawBipartition {s : Net ρ μ υ} {fuel : ℕ}
    {groups : List (Finset Address)} {g : ρ}
    (h : drawBipartition s.boundAddresses fuel s.faultsRng =
      some (groups, g)) :
    ∃ a b k, groups = [a, b] ∧ a.Nonempty ∧ b.Nonempty ∧ s.SplitBy k a b ∧
      g = drawn ((k + 1) * s.boundAddresses.length) s.faultsRng ∧
      ∀ j ≤ k, Mixed s.boundAddresses.length
        (drawn (j * s.boundAddresses.length) s.faultsRng) ↔ j = k := by
  have hmixed : ∀ k, BothSides
        (Retry.value (drawSides s.boundAddresses) k s.faultsRng) ↔
      Mixed s.boundAddresses.length
        (drawn (k * s.boundAddresses.length) s.faultsRng) := by
    intro k
    rw [Retry.value, after_drawSides, bothSides_iff]
  rw [drawBipartition_eq, Option.map_eq_some_iff] at h
  obtain ⟨⟨⟨a, b⟩, g'⟩, hretry, heq⟩ := h
  obtain ⟨k, -, hbefore, hsides, hvalue, hafter⟩ :=
    Retry.eq_some_iff.mp hretry
  cases heq
  have hblock : drawSides s.boundAddresses
      (drawn (k * s.boundAddresses.length) s.faultsRng) = ((a, b), g') := by
    rw [← after_drawSides]
    exact Prod.ext hvalue ((Retry.after_succ _ k _).symm.trans hafter)
  rw [after_drawSides] at hafter
  obtain ⟨-, hlow, hhigh⟩ := drawSides_spec s.boundAddresses
    (drawn (k * s.boundAddresses.length) s.faultsRng)
  rw [hblock] at hlow hhigh
  simp only [nthDraw_drawn] at hlow hhigh
  refine ⟨a, b, k, rfl, hsides.1, hsides.2, ⟨hlow, hhigh⟩, hafter.symm, ?_⟩
  intro j hj
  rw [← hmixed]
  constructor
  · intro hkept
    by_contra hne
    exact hbefore j (lt_of_le_of_ne hj hne) hkept
  · rintro rfl
    rw [hvalue]
    exact hsides

/-- The drawn bipartition is a genuine cut. If the loop returns, it returns two
sides that are inhabited, disjoint and together exactly the bound addresses;
some blocks of one draw an address were thrown away, none of them mixed, and the
mixed one after them put each address on the side its draw says; and the stream
is where these blocks end. If the stream has a mixed block, the loop returns.
-/
theorem bipartition_genuine (s : Net ρ μ υ) :
    let n := s.boundAddresses.length
    (s.boundAddresses.Pairwise (· < ·) ∧
      ∀ a, a ∈ s.boundAddresses ↔ a ∈ s.endpoints) ∧
    (∀ fuel groups g,
      drawBipartition s.boundAddresses fuel s.faultsRng = some (groups, g) →
      ∃ a b k, groups = [a, b] ∧ a.Nonempty ∧ b.Nonempty ∧ Disjoint a b ∧
        a ∪ b = s.endpoints.keys.toFinset ∧ s.SplitBy k a b ∧
        g = drawn ((k + 1) * n) s.faultsRng ∧
        (∀ j < k, ¬ Mixed n (drawn (j * n) s.faultsRng)) ∧
        Mixed n (drawn (k * n) s.faultsRng)) ∧
    ∀ k, Mixed n (drawn (k * n) s.faultsRng) → ∀ fuel, k < fuel →
      (drawBipartition s.boundAddresses fuel s.faultsRng).isSome := by
  intro n
  refine ⟨⟨s.boundAddresses_sorted, fun _ => mem_boundAddresses⟩, ?_, ?_⟩
  · intro fuel groups g h
    obtain ⟨a, b, k, hgroups, ha, hb, hsplit, hg, hblocks⟩ :=
      splitBy_of_drawBipartition h
    obtain ⟨hdis, hunion⟩ := hsplit.partitions
    refine ⟨a, b, k, hgroups, ha, hb, hdis, hunion, hsplit, hg, ?_,
      (hblocks k le_rfl).mpr rfl⟩
    exact fun j hj hmixed => hj.ne ((hblocks j hj.le).mp hmixed)
  · intro k hk fuel hfuel
    rw [drawBipartition_eq, Option.isSome_map]
    refine Retry.isSome_of_fits hfuel ?_
    rw [Retry.value, after_drawSides, bothSides_iff]
    exact hk

omit [Random ρ] in
theorem bipartition_genuine_twoBound : ∃ (s : Net Toggle Unit ℕ)
    (a b : Finset Address) (k : ℕ), s.boundAddresses = [1, 2] ∧
    a.Nonempty ∧ b.Nonempty ∧ Disjoint a b ∧ s.SplitBy k a b := by
  have hrun : (Machine.run step (init Toggle.low Toggle.low : Net Toggle Unit ℕ)
      [.op (.bind 2 false (.int 0) (.int 0)),
        .op (.bind 1 false (.int 0) (.int 0))]).isSome := by decide +kernel
  obtain ⟨s, hs⟩ := Option.isSome_iff_exists.mp hrun
  have hview : (s.boundAddresses, s.faultsRng) = ([1, 2], Toggle.low) := by
    have := congrArg (Option.map fun s => (s.boundAddresses, s.faultsRng)) hs
    exact Option.some.inj (this.symm.trans (by decide +kernel))
  simp only [Prod.mk.injEq] at hview
  have hmixed : Mixed s.boundAddresses.length (drawn (0 *
      s.boundAddresses.length) s.faultsRng) := by
    rw [hview.1, hview.2]
    exact ⟨⟨0, by decide, by decide +kernel⟩, 1, by decide, by decide +kernel⟩
  obtain ⟨-, hreturned, hreturns⟩ := bipartition_genuine s
  obtain ⟨⟨groups, g⟩, hdraw⟩ :=
    Option.isSome_iff_exists.mp (hreturns 0 hmixed 1 Nat.one_pos)
  obtain ⟨a, b, k, -, ha, hb, hdis, -, hsplit, -⟩ :=
    hreturned 1 groups g hdraw
  exact ⟨s, a, b, k, hview.1, ha, hb, hdis, hsplit⟩

end Net

end Seedloop
