import Seedloop.Proofs.Bipartition
import Seedloop.Proofs.Commit
import Seedloop.Proofs.Splits

/-!
# The accepted fault and the fault that happens

Validation and commit read the fields of a handle one after the other. An
address or a number reads the same twice, and what is left open is drawn so
that it cannot come out inert: a side of a slow link among the addresses that
are not the other side, a bipartition until both of its sides are inhabited.
Groups are iterated, and an iterator is empty the second time, so a split can
be committed, recorded and begun that cuts less than was asked for. This
happens exactly when a group with an address in it is an iterator or comes out
of one.

A number is checked and compared, and used only later. A `Decimal` passes for a
number and neither adds to a `float` nor multiplies one: as the time of a crash
it ends the commit where it stands, as the factor of a slow link it has every
send on the link raise.
-/

namespace Seedloop

/-! ## What is left of the groups -/

namespace PyVal

theorem addresses_nonempty {items : List PyVal} {as : Finset Address}
    (h : addresses? items = some as) : as.Nonempty ↔ items ≠ [] := by
  cases items with
  | nil =>
      cases h
      simp
  | cons v vs =>
      unfold addresses? at h
      split at h
      · cases h
        simp
      · cases h

/-- `set` keeps at least the first item. -/
theorem toSet_ne_nil {v : PyVal} {items : List PyVal}
    (h : v.toSet = .ok items) : items ≠ [] ↔ v.iterate.1 ≠ [] := by
  have hkept : ∀ (vs kept : List PyVal), kept ≠ [] →
      vs.foldl (fun kept x =>
        if kept.any (sameNumber · x) then kept else kept ++ [x]) kept ≠ [] := by
    intro vs
    induction vs with
    | nil => exact fun kept hne => hne
    | cons x vs ih =>
        intro kept hne
        rw [List.foldl_cons]
        refine ih _ ?_
        split <;> simp [hne]
  unfold toSet at h
  dsimp only at h
  split at h
  · cases h
  · cases h
  · rw [Except.ok.injEq] at h
    subst h
    cases v.iterate.1 with
    | nil => simp
    | cons x vs =>
        have := hkept vs [x] (by simp)
        simpa using this

theorem addrs_nonempty {g : PyVal}
    (h : FaultHandle.addressSet g = .ok g.addrs) :
    g.addrs.Nonempty ↔ g.iterate.1 ≠ [] := by
  unfold FaultHandle.addressSet at h
  split at h
  · cases h
  · next items hset =>
    split at h
    · next as haddrs =>
      rw [← Except.ok.inj h, addresses_nonempty haddrs, toSet_ne_nil hset]
    · cases h

/-- The field pins the address, or leaves it to be one of those bound. -/
def Pins (v : PyVal) (bound : List Address) (a : Address) : Prop :=
  v = .num (.int a) ∨ v = .none ∧ a ∈ bound

/-- The field pins the number, or leaves it to be drawn. -/
def PinsNumber (v : PyVal) (q : ℚ) : Prop :=
  v = .none ∨ ∃ x, v.num? = some x ∧ x.value? = some q

/-- The field as it is given, or the number that is drawn for it. -/
def orDrawn (q : ℚ) : PyVal → PyVal
  | none => num (.float (.fin q))
  | v => v

/-- On the link of the pair, `_slow_factor` comes to `q` times what it was once
the factor is in the registry. -/
def Applies (factor : PyVal) (pair : Finset Address) (q : ℚ) : Prop :=
  ∀ open_ src dst, {src, dst} = pair →
    slowFactorOf (open_ ++ [(pair, factor)]) src dst =
      (slowFactorOf open_ src dst).map (· * q)

theorem slowFactorOf_concat {open_ : List (Finset Address × PyVal)}
    {factor : PyVal} {src dst : Address} :
    slowFactorOf (open_ ++ [({src, dst}, factor)]) src dst =
      slowFactorOf open_ src dst >>= factor.times := by
  unfold slowFactorOf
  rw [List.foldlM_append]
  refine congrArg _ (funext fun m => ?_)
  simp only [List.foldlM_cons, List.foldlM_nil, if_true]
  cases factor.times m <;> rfl

/-- A factor applies unless multiplying by it raises. -/
theorem applies_iff {a b factor : PyVal} {x y : Address} {q : ℚ}
    (h : factor.PinsNumber q) : (factor.orDrawn q).Applies {x, y} q ↔
      (FaultHandle.slowLink a b factor).times = Option.none := by
  have hof : (∀ m, (factor.orDrawn q).times m = .ok (m * q)) →
      (factor.orDrawn q).Applies {x, y} q := by
    intro hall open_ src dst hpair
    rw [← hpair, slowFactorOf_concat]
    cases slowFactorOf open_ src dst with
    | error e => rfl
    | ok m => exact hall m
  cases factor with
  | none => exact iff_of_true (hof fun m => rfl) rfl
  | num z =>
      obtain ⟨⟨⟩⟩ | ⟨z', hz, hq⟩ := h
      cases hz
      refine iff_of_true (hof fun m => ?_) rfl
      simp only [orDrawn, PyVal.times, hq, Option.getD_some]
  | object o items =>
      obtain ⟨⟨⟩⟩ | ⟨z', hz, hq⟩ := h
      cases hz
      cases hq
      cases ht : o.times with
      | none =>
          refine iff_of_true (hof fun m => ?_) ht
          simp only [orDrawn, PyVal.times, ht]
      | some e =>
          refine iff_of_false (fun happlies => ?_) (by simp [FaultHandle.times, ht])
          have hone := happlies [] x y rfl
          rw [slowFactorOf_concat] at hone
          have herror : (.error e : Except PyExc ℚ) = .ok (1 * o.value) := by
            rw [show (.error e : Except PyExc ℚ) =
              (object o items).times 1 by simp only [PyVal.times, ht]]
            exact hone
          cases herror
  | str | list | tuple | iterator =>
      obtain ⟨⟨⟩⟩ | ⟨z', ⟨⟩, -⟩ := h

theorem pins_of_chosen {v : PyVal} {e : HandleError} {o : Option Address}
    {bound : List Address} {a : Address} (h : v.pinned e = .ok o)
    (ha : Chosen bound v.address? a) : v.Pins bound a := by
  unfold pinned at h
  split at h
  · rcases ha with ha | ⟨-, ha⟩
    · cases ha
    · exact .inr ⟨rfl, ha⟩
  · split at h
    · cases h
    · next n _ hn =>
      rcases ha with ha | ⟨ha, -⟩
      · unfold address? at ha
        split at ha
        · cases ha
          exact .inl rfl
        · cases ha
      · rw [hn] at ha
        cases ha
    · cases h

theorem pinsNumber_of_number {v : PyVal} {q : ℚ}
    (h : v = .none ∨ v.num?.isSome)
    (hq : ∀ x, v.num? = some x → x.value? = some q) : v.PinsNumber q := by
  rcases h with rfl | h
  · exact .inl rfl
  · obtain ⟨x, hx⟩ := Option.isSome_iff_exists.mp h
    exact .inr ⟨x, hx, hq x hx⟩

/-- What passes for a number is one. -/
theorem number_isSome {v : PyVal} {o : Option Num} (h : v.number = .ok o) :
    v = .none ∨ v.num?.isSome := by
  cases v with
  | none => exact .inl rfl
  | num x => exact .inr rfl
  | str | list | tuple | iterator | object => cases h

end PyVal

namespace FaultHandle

/-- Validation goes through a group that has an address, and leaves nothing of
it. -/
def UsedUp : FaultHandle → Prop
  | .partition groups => groups.truthy = .ok true ∧ ∃ g ∈ groups.iterate.1,
      g.iterate.1 ≠ [] ∧ (groups.isIterator = true ∨ g.isIterator = true)
  | _ => False

/-- It is there to be used when the commit comes to it, and so is its number
when a message is sent. -/
def Holds (f : FaultHandle) : Prop :=
  ¬ f.UsedUp ∧ f.times = none

/-- The fault is the one the handle asks for: every pinned field is as given,
what is open is bound or drawn, all of it is inside the window, and nothing of
it is inert; a factor applies in both directions. -/
def Honoured (bound : List Address) (window : ℚ) :
    FaultHandle → Resolved → Prop
  | .partition groups, .partition gs start stop =>
      (0 ≤ start ∧ start ≤ stop ∧ stop ≤ window) ∧
      (groups.truthy = .ok true →
        (∀ a, (∃ g ∈ gs, a ∈ g) ↔ ∃ g ∈ givenGroups groups, a ∈ g) ∧
          ∀ a b, Separates (givenGroups groups) a b →
            cut (some gs) a b = true) ∧
      (groups.truthy = .ok false → ∃ a b, gs = [a, b] ∧ a.Nonempty ∧ b.Nonempty ∧
        Disjoint a b ∧ ∀ x, x ∈ a ∪ b ↔ x ∈ bound)
  | .slowLink a b factor, .slowLink x y q start stop =>
      (0 ≤ start ∧ start ≤ stop ∧ stop ≤ window) ∧
      a.Pins bound x ∧ b.Pins bound y ∧ x ≠ y ∧ factor.PinsNumber q ∧ 1 < q ∧
      (factor.orDrawn q).Applies {x, y} q
  | .crash node at_, .crash n t =>
      node.Pins bound n ∧ at_.PinsNumber t ∧ 0 ≤ t ∧ t ≤ window
  | _, _ => False

theorem mem_leftGroups {groups : PyVal} {as : Finset Address} :
    as ∈ leftGroups groups ↔ groups.isIterator = false ∧
      ∃ g ∈ groups.iterate.1, g.spent.addrs = as := by
  cases groups <;> simp [leftGroups, PyVal.isIterator]

/-- No group is lost that has an address. -/
theorem mem_leftGroups_of_not_usedUp {groups : PyVal}
    (h : groups.validateGroups = .ok ()) (htrue : groups.truthy = .ok true)
    (hnot : ¬ (partition groups).UsedUp) {as : Finset Address}
    (hne : as.Nonempty) (hmem : as ∈ givenGroups groups) :
    as ∈ leftGroups groups := by
  obtain ⟨g, hg, rfl⟩ := List.mem_map.mp hmem
  have hitems : g.iterate.1 ≠ [] :=
    (PyVal.addrs_nonempty ((validateGroups_eq_ok h).2.1 g hg)).mp hne
  have hnone : groups.isIterator = false ∧ g.isIterator = false := by
    constructor
    · exact Bool.not_eq_true _ ▸ fun hi =>
        hnot ⟨htrue, g, hg, hitems, .inl hi⟩
    · exact Bool.not_eq_true _ ▸ fun hi =>
        hnot ⟨htrue, g, hg, hitems, .inr hi⟩
  refine mem_leftGroups.mpr ⟨hnone.1, g, hg, ?_⟩
  rw [PyVal.addrs_spent, hnone.2]
  rfl

/-- The split that is left is the split that was given, unless validation has
used up some of it. -/
theorem leftGroups_iff {groups : PyVal} (h : groups.validateGroups = .ok ())
    (htrue : groups.truthy = .ok true) :
    ((∀ a, (∃ g ∈ leftGroups groups, a ∈ g) ↔
        ∃ g ∈ givenGroups groups, a ∈ g) ∧
      ∀ a b, Separates (givenGroups groups) a b →
        cut (some (leftGroups groups)) a b = true) ↔
    ¬ (partition groups).UsedUp := by
  obtain ⟨-, hsets, hpair⟩ := validateGroups_eq_ok h
  have hdis : ∀ g ∈ groups.iterate.1, ∀ g' ∈ groups.iterate.1, g ≠ g' →
      Disjoint g.addrs g'.addrs := by
    have hmap := List.pairwise_map.mp hpair
    have : Std.Symm fun g g' : PyVal => Disjoint g.addrs g'.addrs :=
      ⟨fun _ _ hd => hd.symm⟩
    exact fun g hg g' hg' hne => hmap.forall hg hg' hne
  -- What is left of a group is the group, or nothing.
  have hleft : ∀ as ∈ leftGroups groups, as.Nonempty →
      ∃ g ∈ groups.iterate.1, as = g.addrs ∧ g.isIterator = false := by
    intro as hmem hne
    obtain ⟨-, g, hg, rfl⟩ := mem_leftGroups.mp hmem
    rw [PyVal.addrs_spent] at hne ⊢
    split at hne
    · exact absurd hne Finset.not_nonempty_empty
    · next hiter => exact ⟨g, hg, if_neg hiter, by simpa using hiter⟩
  have hgiven : ∀ as ∈ leftGroups groups, as.Nonempty →
      as ∈ givenGroups groups := by
    intro as hmem hne
    obtain ⟨g, hg, rfl, -⟩ := hleft as hmem hne
    exact List.mem_map.mpr ⟨g, hg, rfl⟩
  constructor
  · rintro ⟨haddr, -⟩ ⟨-, g, hg, hitems, hiter⟩
    obtain ⟨a, ha⟩ := (PyVal.addrs_nonempty (hsets g hg)).mpr hitems
    obtain ⟨as, hmem, has⟩ :=
      (haddr a).mpr ⟨g.addrs, List.mem_map.mpr ⟨g, hg, rfl⟩, ha⟩
    rcases hiter with hiter | hiter
    · rw [(mem_leftGroups.mp hmem).1] at hiter
      cases hiter
    · -- The address is still in some group, and in no other than this one.
      obtain ⟨g', hg', rfl, hiter'⟩ := hleft as hmem ⟨a, has⟩
      have hne : g ≠ g' := by
        rintro rfl
        rw [hiter] at hiter'
        cases hiter'
      exact Finset.disjoint_left.mp (hdis g hg g' hg' hne) ha has
  · intro hnot
    have hkept : ∀ as : Finset Address, as.Nonempty →
        as ∈ givenGroups groups → as ∈ leftGroups groups :=
      fun _ => mem_leftGroups_of_not_usedUp h htrue hnot
    have hu : Unambiguous (leftGroups groups) := by
      intro as has bs hbs hne
      rcases as.eq_empty_or_nonempty with rfl | hna
      · exact Finset.disjoint_empty_left _
      rcases bs.eq_empty_or_nonempty with rfl | hnb
      · exact Finset.disjoint_empty_right _
      exact hpair.forall (hgiven as has hna) (hgiven bs hbs hnb) hne
    refine ⟨fun a => ⟨?_, ?_⟩, fun a b => ?_⟩
    · rintro ⟨as, has, ha⟩
      exact ⟨as, hgiven as has ⟨a, ha⟩, ha⟩
    · rintro ⟨as, has, ha⟩
      exact ⟨as, hkept as ⟨a, ha⟩ has, ha⟩
    · rintro ⟨as, has, bs, hbs, hne, ha, hb⟩
      rw [hu.cut_iff]
      exact ⟨as, hkept as ⟨a, ha⟩ has, bs, hkept bs ⟨b, hb⟩ hbs, hne, ha, hb⟩

end FaultHandle

namespace Net

variable {ρ μ υ : Type} [Random ρ]

/-- A fault acts on the network its window opens in: a split cuts what it
lists apart, a slow link slows both ways, a crashed node is down. -/
def TakesHold (i : ℕ) (v : Net ρ μ υ) : Resolved → Prop
  | .partition groups _ _ => ∀ a b, cut (some groups) a b = true →
      (v.runFault (.beginFaultPartition i groups)).reachable a b = false
  | .slowLink a b factor _ _ =>
      (v.runFault (.beginSlowLink i {a, b} factor)).slowFactor a b =
          factor * v.slowFactor a b ∧
        (v.runFault (.beginSlowLink i {a, b} factor)).slowFactor b a =
          factor * v.slowFactor b a
  | .crash node _ => node ∈ (v.runFault (.beginCrash i node)).crashed

omit [Random ρ] in
theorem slowFactor_begin {i : ℕ} {v : Net ρ μ υ}
    (hv : v.faultSlowLinks.lookup i = none) {pair : Finset Address} {q : ℚ}
    {src dst : Address} (hpair : pair = {src, dst}) :
    (v.runFault (.beginSlowLink i pair q)).slowFactor src dst =
      q * v.slowFactor src dst := by
  have hnew : i ∉ v.faultSlowLinks := AList.lookup_eq_none.mp hv
  have hentries :
      (v.runFault (.beginSlowLink i pair q)).faultSlowLinks.entries =
        ⟨i, (pair, q)⟩ :: v.faultSlowLinks.entries :=
    AList.entries_insert_of_notMem hnew
  rw [slowFactor_eq, slowFactor_eq, openSlowLinks, openSlowLinks, hentries,
    List.filter_cons_of_pos (by simpa using hpair), List.map_cons,
    List.prod_cons]

omit [Random ρ] in
theorem takesHold {i : ℕ} {v : Net ρ μ υ}
    (hv : v.faultSlowLinks.lookup i = none) (r : Resolved) :
    TakesHold i v r := by
  cases r with
  | partition groups start stop =>
      intro a b hcut
      rw [← Bool.not_eq_true, reachable_iff_cut]
      intro hall
      have := hall groups (.inr ⟨i, AList.lookup_insert _⟩)
      rw [hcut] at this
      cases this
  | slowLink a b factor start stop =>
      exact ⟨slowFactor_begin hv rfl, slowFactor_begin hv (Finset.pair_comm a b)⟩
  | crash node at_ => exact Finset.mem_insert_self _ _

/-- A drawn bipartition splits all that is bound. -/
theorem bipartition_of_draw {s : Net ρ μ υ} {fuel : ℕ} {g g' : ρ}
    {gs : List (Finset Address)}
    (h : drawBipartition s.boundAddresses fuel g = some (gs, g')) :
    ∃ a b, gs = [a, b] ∧ a.Nonempty ∧ b.Nonempty ∧ Disjoint a b ∧
      ∀ x, x ∈ a ∪ b ↔ x ∈ s.boundAddresses := by
  obtain ⟨a, b, k, hgs, ha, hb, hsplit, -⟩ :=
    splitBy_of_drawBipartition (s := { s with faultsRng := g }) h
  obtain ⟨hdis, hunion⟩ := hsplit.partitions
  refine ⟨a, b, hgs, ha, hb, hdis, fun x => ?_⟩
  rw [hunion, List.mem_toFinset, mem_boundAddresses, AList.mem_keys]

/-- A validated handle gets the fault it asks for, if that holds. -/
theorem honoured_iff {s : Net ρ μ υ} {seconds : Num} {window : ℚ}
    {f : FaultHandle} {r : Resolved}
    (hv : f.validate s.boundAddresses seconds window = .ok ())
    (hok : r.Ok window) (h : f.Becomes ρ s.boundAddresses r) :
    f.Honoured s.boundAddresses window r ↔ f.Holds := by
  cases f with
  | partition groups =>
      cases r with
      | slowLink | crash => cases h
      | partition gs start stop =>
        obtain ⟨hgiven, hdrawn⟩ := h
        have hholds : (FaultHandle.partition groups).Holds ↔
            ¬ (FaultHandle.partition groups).UsedUp := and_iff_left rfl
        rw [hholds]
        simp only [FaultHandle.validate] at hv
        split at hv
        · cases hv
        · next htrue =>
          rw [hgiven htrue, ← FaultHandle.leftGroups_iff hv htrue]
          constructor
          · exact fun hh => hh.2.1 htrue
          · refine fun hh => ⟨hok, fun _ => hh, fun hfalse => ?_⟩
            rw [htrue] at hfalse
            cases hfalse
        · next hfalse =>
          have hnone : ¬ groups.truthy = .ok true := by
            rw [hfalse]
            rintro ⟨⟩
          refine iff_of_true ⟨hok, fun htrue => absurd htrue hnone, fun _ => ?_⟩
            fun hused => hnone hused.1
          obtain ⟨fuel, g, g', hdraw⟩ := hdrawn hfalse
          exact bipartition_of_draw hdraw
  | slowLink a b factor =>
      cases r with
      | partition | crash => cases h
      | slowLink x y q start stop =>
        obtain ⟨hx, hy, hxy, hq⟩ := h
        obtain ⟨hfactor, hwindow⟩ := hok
        obtain ⟨_, ha, hv⟩ := Except.bind_eq_ok hv
        obtain ⟨_, hb, hv⟩ := Except.bind_eq_ok hv
        obtain ⟨-, -, hv⟩ := Except.bind_eq_ok hv
        have hnumber : factor = .none ∨ factor.num?.isSome := by
          split at hv
          · exact .inr rfl
          · obtain ⟨_, hn, -⟩ := Except.bind_eq_ok hv
            exact PyVal.number_isSome hn
        have hpins := PyVal.pinsNumber_of_number hnumber hq
        have happlies := PyVal.applies_iff (a := a) (b := b) (x := x) (y := y)
          hpins
        constructor
        · exact fun hh => ⟨id, happlies.mp hh.2.2.2.2.2.2⟩
        · exact fun hh => ⟨hwindow, PyVal.pins_of_chosen ha hx,
            PyVal.pins_of_chosen hb hy, hxy, hpins, hfactor,
            happlies.mpr hh.2⟩
  | crash node at_ =>
      cases r with
      | partition | slowLink => cases h
      | crash n t =>
        obtain ⟨hn, ht⟩ := h
        obtain ⟨_, hnode, hv⟩ := Except.bind_eq_ok hv
        have hnumber : at_ = .none ∨ at_.num?.isSome := by
          split at hv
          · exact .inr rfl
          · obtain ⟨_, hat, -⟩ := Except.bind_eq_ok hv
            exact PyVal.number_isSome hat
        exact iff_of_true ⟨PyVal.pins_of_chosen hnode hn,
          PyVal.pinsNumber_of_number hnumber ht, hok⟩ ⟨id, rfl⟩
  | other v =>
      simp only [FaultHandle.validate] at hv
      split at hv <;> cases hv

theorem honoured_all {s : Net ρ μ υ} {seconds : Num} {window : ℚ}
    {faults : List FaultHandle} {rs : List Resolved}
    (hv : ∀ f ∈ faults, f.validate s.boundAddresses seconds window = .ok ())
    (hok : ∀ r ∈ rs, r.Ok window)
    (h : faults.Forall₂ (FaultHandle.Becomes ρ s.boundAddresses) rs) :
    faults.Forall₂ (fun f r =>
      (f.Honoured s.boundAddresses window r ↔ f.Holds) ∧
      (f.times = none → ∀ i (v : Net ρ μ υ), v.faultSlowLinks.lookup i = none →
        TakesHold i v r)) rs := by
  induction h with
  | nil => exact .nil
  | cons hbecomes _ ih =>
      obtain ⟨hf, hfs⟩ := List.forall_mem_cons.mp hv
      obtain ⟨hr, hrs⟩ := List.forall_mem_cons.mp hok
      exact .cons ⟨honoured_iff hf hr hbecomes, fun _ i v hlook =>
        takesHold hlook _⟩ (ih hfs hrs)

/-- An accepted fault is the fault that happens, exactly when it can be
committed and validation leaves it what it needs. If every handle of a call is
accepted, the call ends as soon as its bipartition draws do. It commits one
fault for each handle up to the first whose time cannot be added to the clock,
and raises there; if there is none it does not raise. A fault is the one its
handle asks for if and only if no group that has an address is an iterator or
comes out of one, and no factor is given that cannot multiply a `float`; apart
from such factors each of them acts on the network in which its window opens. -/
theorem accepted_honoured_iff (s : Net ρ μ υ) {seconds : Num} {window : ℚ}
    {faults : List FaultHandle} (hs : checkSeconds seconds = .ok window)
    (hv : FaultHandle.validateAll s.boundAddresses seconds window faults =
      .ok ()) (k : υ) :
    ((∀ f ∈ faults, f.Unpinned → ∀ g : ρ, ∃ fuel,
        (drawBipartition s.boundAddresses fuel g).isSome) →
      ∃ fuel, (s.runForHandles fuel seconds faults k).isSome) ∧
    ∀ fuel t x, s.runForHandles fuel seconds faults k = some (t, x) →
      (x = .ok () ↔ ∀ f ∈ faults, f.adds = none) ∧
      ∃ u v rs, Stopped u faults v x ∧ Committed s u rs ∧
        (x = .ok () → committable faults = faults ∧ t = v.sleep window k) ∧
        (x ≠ .ok () → t = v) ∧
        (committable faults).Forall₂ (fun f r =>
          (f.Honoured s.boundAddresses window r ↔ f.Holds) ∧
          (f.times = none → ∀ i (v : Net ρ μ υ),
            v.faultSlowLinks.lookup i = none → TakesHold i v r)) rs := by
  refine ⟨fun hend => runForHandles_isSome hs hv hend k, fun fuel t x h => ?_⟩
  obtain ⟨u, v, rs, hstop, hrs, hall, hbecome, hdone, hraised⟩ :=
    runForHandles_stopped hs hv h
  have hall' : ∀ f ∈ committable faults,
      f.validate s.boundAddresses seconds window = .ok () :=
    fun f hf => FaultHandle.validate_of_mem hv
      (List.takeWhile_prefix _ |>.subset hf)
  refine ⟨?_, u, v, rs, hstop, hrs, fun hx => ⟨?_, hdone hx⟩, hraised,
    honoured_all hall' hall hbecome⟩
  · rw [← List.findSome?_eq_none_iff]
    cases hstop with
    | done hnone => exact iff_of_true rfl hnone
    | raised e g hsome =>
        refine iff_of_false (by rintro ⟨⟩) ?_
        rw [hsome]
        rintro ⟨⟩
  · cases hstop with
    | done hnone => exact committable_eq_self hnone
    | raised e g hsome => cases hx

/-- `PartitionFault(groups=[[1], (2,)])`. -/
def listedGroups : FaultHandle :=
  .partition (.list [.list [.num (.int 1)], .tuple [.num (.int 2)]])

omit [Random ρ] in
theorem accepted_honoured_listedGroups :
    let s : Net Toggle Unit ℕ := init Toggle.low Toggle.low
    ∃ t u r, s.runForHandles 1 (.int 2) [listedGroups] 0 = some (t, .ok ()) ∧
      Committed s u [r] ∧ listedGroups.Honoured s.boundAddresses 2 r := by
  intro s
  have hv : FaultHandle.validateAll s.boundAddresses (.int 2) 2
      [listedGroups] = .ok () := Except.eq_ok_of_toBool (by decide +kernel)
  have hrun : (s.runForHandles 1 (.int 2) [listedGroups] 0).isSome := by
    decide +kernel
  obtain ⟨⟨t, x⟩, ht⟩ := Option.isSome_iff_exists.mp hrun
  obtain ⟨hdone, u, v, rs, -, hrs, hslept, -, hall⟩ :=
    (accepted_honoured_iff s checkSeconds_two hv 0).2 1 t x ht
  obtain rfl : x = .ok () :=
    hdone.mpr (by simp [listedGroups, FaultHandle.adds])
  rw [(hslept rfl).1] at hall
  cases hall with
  | cons hr hnil =>
    cases hnil
    refine ⟨t, u, _, ht, hrs, hr.1.mpr ⟨?_, rfl⟩⟩
    rintro ⟨-, g, hg, -, hiter⟩
    simp [PyVal.iterate] at hg
    rcases hg with rfl | rfl <;> simp [PyVal.isIterator] at hiter

/-- `PartitionFault(groups=(g for g in [[1], [2]]))`. -/
def generatedGroups : FaultHandle :=
  .partition (.iterator [.list [.num (.int 1)], .list [.num (.int 2)]])

omit [Random ρ] in
/-- A generator is accepted, and the split that is committed has no groups. -/
theorem accepted_honoured_generatedGroups :
    let s : Net Toggle Unit ℕ := init Toggle.low Toggle.low
    ∃ t u r, s.runForHandles 1 (.int 2) [generatedGroups] 0 =
        some (t, .ok ()) ∧ Committed s u [r] ∧
      ¬ generatedGroups.Honoured s.boundAddresses 2 r ∧
      (FaultHandle.groupSets
        (.iterator [.list [.num (.int 1)], .list [.num (.int 2)]])) =
          .ok [{1}, {2}] ∧
      ∃ start stop, r = .partition [] start stop ∧
        cut (some []) 1 2 = false := by
  intro s
  have hv : FaultHandle.validateAll s.boundAddresses (.int 2) 2
      [generatedGroups] = .ok () := Except.eq_ok_of_toBool (by decide +kernel)
  have hrun : (s.runForHandles 1 (.int 2) [generatedGroups] 0).isSome := by
    decide +kernel
  obtain ⟨⟨t, x⟩, ht⟩ := Option.isSome_iff_exists.mp hrun
  obtain ⟨rfl, u, rs, -, hrs, -, hbecome⟩ :=
    runForHandles_ok checkSeconds_two hv
      (by simp [generatedGroups, FaultHandle.adds]) ht
  cases hbecome with
  | cons hr hnil =>
    cases hnil
    next r =>
    cases r with
    | slowLink | crash => cases hr
    | partition gs start stop =>
      obtain rfl : gs = [] := hr.1 rfl
      refine ⟨t, u, _, ht, hrs, ?_, rfl, start, stop, rfl, rfl⟩
      -- `1` was given, and is in no group.
      rintro ⟨-, hgiven, -⟩
      obtain ⟨g, hg, -⟩ := ((hgiven rfl).1 1).mpr ⟨{1}, by decide, by decide⟩
      cases hg

/-- `Decimal`: it compares with a number, and does nothing else with a
`float`. -/
def decimal (q : ℚ) : PyVal :=
  .object {
    truthy := .ok (q ≠ 0)
    hash := none
    isInstance := none
    len := none
    stops := some .typeError
    isFinite := .ok true
    value := q
    compares := fun _ => none
    adds := some .typeError
    times := some .typeError } []

/-- `CrashFault(1, at=Decimal('0.5'))` is accepted, and its commit raises. -/
example :
    let s : Net Toggle Unit ℕ := init Toggle.low Toggle.low
    let faults := [FaultHandle.crash (.num (.int 1)) (decimal (1 / 2))]
    (FaultHandle.validateAll s.boundAddresses (.int 2) 2 faults).toBool ∧
      (s.runForHandles 1 (.int 2) faults 0).map (fun x => x.2.toBool) =
        some false := by
  decide +kernel

end Net

end Seedloop
