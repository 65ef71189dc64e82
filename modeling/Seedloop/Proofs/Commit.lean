import Seedloop.Proofs.Windows
import Seedloop.Ref.FaultHandle

/-!
# `run_for` is all or nothing

The second pass of `run_for` writes as it goes, so all that keeps a call from
half happening is that the first pass leaves nothing for the second to fail
on. Each way a resolver could fail is the empty list of one choice, or a group
that is no set of addresses, and for each the branch of `_validate_fault` that
excludes it is a lemma here. What then comes out of a whole call is said once,
as `Committed`: the events, the timers and the ids of a list of settled
faults, and nothing else but the generator.
-/

namespace Seedloop

/-! ## What validation makes sure of -/

/-- A validated slow link has someone to choose at each open end. -/
theorem validateFault_pair {bound : List Address} {seconds : Num} {window : ℚ}
    {a b : Option Address} {factor : Option Num}
    (h : validateFault bound seconds window (.slowLink a b factor) = .ok ()) :
    match a, b with
    | none, none => 2 ≤ bound.length
    | none, some b => bound.filter (· ≠ b) ≠ []
    | some a, none => bound.filter (· ≠ a) ≠ []
    | some a, some b => a ≠ b := by
  cases a with
  | none =>
      cases b with
      | none =>
          by_contra hlt
          simp [validateFault, bind, Except.bind, not_le.mp hlt, throw,
            throwThe, MonadExceptOf.throw] at h
      | some b =>
          intro hnil
          have hall : bound.any (· != b) = false := by
            simpa [List.filter_eq_nil_iff] using hnil
          simp [validateFault, bind, Except.bind, hall, throw, throwThe,
            MonadExceptOf.throw] at h
  | some a =>
      cases b with
      | none =>
          intro hnil
          have hall : bound.any (· != a) = false := by
            simpa [List.filter_eq_nil_iff] using hnil
          simp [validateFault, bind, Except.bind, hall, throw, throwThe,
            MonadExceptOf.throw] at h
      | some b =>
          intro heq
          simp [validateFault, bind, Except.bind, heq, throw, throwThe,
            MonadExceptOf.throw] at h

/-- A validated crash of nobody in particular has someone to choose. -/
theorem validateFault_node {bound : List Address} {seconds : Num} {window : ℚ}
    {at_ : Option Num}
    (h : validateFault bound seconds window (.crash none at_) = .ok ()) :
    bound ≠ [] := by
  rintro rfl
  cases at_ with
  | none => simp [validateFault, throw, throwThe, MonadExceptOf.throw] at h
  | some x =>
      cases hc : checkNumber x (0 ≤ ·) (.crashAtRange x) with
      | error e => simp [validateFault, bind, Except.bind, hc] at h
      | ok q =>
          simp only [validateFault, bind, Except.bind, hc] at h
          split at h <;> simp [throw, throwThe, MonadExceptOf.throw] at h

/-! ## Handles as they were built -/

theorem Except.bind_eq_ok {ε α β : Type} {x : Except ε α} {f : α → Except ε β}
    {b : β} (h : x >>= f = .ok b) : ∃ a, x = .ok a ∧ f a = .ok b := by
  cases x with
  | error e => cases h
  | ok a => exact ⟨a, rfl, h⟩

theorem Except.eq_ok_of_toBool {ε : Type} {x : Except ε Unit}
    (h : x.toBool = true) : x = .ok () := by
  cases x with
  | error e => cases h
  | ok _ => rfl

theorem liftApi_eq_ok {α : Type} {x : Except ApiError α} {a : α}
    (h : liftApi x = .ok a) : x = .ok a := by
  cases x with
  | error e => cases h
  | ok b => exact congrArg Except.ok (Except.ok.inj h)

namespace PyVal

theorem pinned_eq_ok {v : PyVal} {e : HandleError} {o : Option Address}
    (h : v.pinned e = .ok o) : o = v.address? := by
  unfold pinned at h
  split at h
  · cases h
    rfl
  · split at h
    · cases h
    · next ha =>
      cases h
      exact ha.symm
    · cases h

theorem number_eq_ok {v : PyVal} {o : Option Num} (h : v.number = .ok o) :
    o = v.num? := by
  cases v <;> cases h <;> rfl

/-- An object that passes for a number passes by its value. -/
theorem checkNumber_eq_ok {o : PyObject} {limit : Num} {ok : ℚ → Bool}
    {e : HandleError} (h : o.checkNumber limit ok e = .ok ()) (e' : ApiError) :
    checkNumber (.float (.fin o.value)) ok e' = .ok o.value := by
  unfold PyObject.checkNumber at h
  split at h
  · cases h
  · cases h
  · split at h
    · cases h
    · split_ifs at h with hok
      exact if_pos hok

theorem checkLimit_eq_ok {o : PyObject} {seconds : Num} {window : ℚ}
    {e : HandleError} (h : o.checkLimit seconds window e = .ok ()) :
    ¬ window < o.value := by
  unfold PyObject.checkLimit at h
  split at h
  · cases h
  · split_ifs at h with hlate
    exact hlate

/-- The addresses of a group. -/
def addrs (g : PyVal) : Finset Address :=
  (FaultHandle.addressSet g).toOption.getD ∅

/-- It can be iterated once. -/
def isIterator : PyVal → Bool
  | iterator _ => true
  | _ => false

theorem addrs_spent (g : PyVal) :
    g.spent.addrs = if g.isIterator then ∅ else g.addrs := by
  cases g <;> rfl

/-- What was a set of addresses still is once its iterators are spent. -/
theorem addressSet_spent {g : PyVal}
    (h : FaultHandle.addressSet g = .ok g.addrs) :
    FaultHandle.addressSet g.spent = .ok g.spent.addrs := by
  cases g with
  | iterator items => rfl
  | _ => exact h

/-- Validated groups are sets of addresses, no two of which share one. -/
theorem validateGroups_go {groups : PyVal} {seen : Finset Address}
    {gs : List PyVal} (h : validateGroups.go groups seen gs = .ok ()) :
    (∀ g ∈ gs, FaultHandle.addressSet g = .ok g.addrs) ∧
      (∀ g ∈ gs, Disjoint seen g.addrs) ∧ (gs.map addrs).Pairwise Disjoint := by
  induction gs generalizing seen with
  | nil => simp
  | cons g gs ih =>
      unfold validateGroups.go at h
      split at h
      · cases h
      · next items hitems =>
        split at h
        · cases h
        · cases h
        · next as _ has =>
          split at h
          · cases h
          · next hseen =>
            have hset : FaultHandle.addressSet g = .ok as := by
              simp only [FaultHandle.addressSet, hitems, has]
            have hg : g.addrs = as := by
              rw [addrs, hset]
              rfl
            have hdis : Disjoint seen as :=
              Finset.disjoint_iff_inter_eq_empty.mpr
                (Finset.not_nonempty_iff_eq_empty.mp hseen)
            obtain ⟨hsets, hold, hpair⟩ := ih h
            have hrest : ∀ x ∈ gs, Disjoint seen x.addrs ∧ Disjoint as x.addrs :=
              fun x hx => Finset.disjoint_union_left.mp (hold x hx)
            refine ⟨?_, ?_, ?_⟩
            · exact List.forall_mem_cons.mpr ⟨hset.trans (by rw [hg]), hsets⟩
            · exact List.forall_mem_cons.mpr
                ⟨hg ▸ hdis, fun x hx => (hrest x hx).1⟩
            · refine List.pairwise_cons.mpr ⟨?_, hpair⟩
              intro y hy
              obtain ⟨x, hx, rfl⟩ := List.mem_map.mp hy
              exact hg ▸ (hrest x hx).2

end PyVal

namespace FaultHandle

/-- The groups as they were given. -/
def givenGroups (groups : PyVal) : List (Finset Address) :=
  groups.iterate.1.map PyVal.addrs

/-- The groups that validation leaves to the commit. -/
def leftGroups : PyVal → List (Finset Address)
  | .iterator _ => []
  | groups => groups.iterate.1.map fun g => g.spent.addrs

theorem toList_eq_ok {v : PyVal} {items : List PyVal}
    (h : v.toList = .ok items) : v.iterate = (items, none) := by
  unfold PyVal.toList at h
  split at h
  · cases h
  · cases h
  · next hiter =>
    cases h
    exact hiter

theorem validateGroups_eq_ok {groups : PyVal}
    (h : groups.validateGroups = .ok ()) :
    groups.iterate.2 = none ∧
      (∀ g ∈ groups.iterate.1, addressSet g = .ok g.addrs) ∧
      (givenGroups groups).Pairwise Disjoint := by
  unfold PyVal.validateGroups at h
  split at h
  · cases h
  · next gs hgs =>
    obtain ⟨hsets, -, hpair⟩ := PyVal.validateGroups_go h
    rw [givenGroups, toList_eq_ok hgs]
    exact ⟨rfl, hsets, hpair⟩

/-- Validated groups are still sets of addresses when the commit comes to
them. -/
theorem groupSets_spent {groups : PyVal}
    (h : groups.validateGroups = .ok ()) :
    groupSets (spentGroups groups) = .ok (leftGroups groups) := by
  have hmapM : ∀ gs : List PyVal,
      (∀ g ∈ gs, addressSet g = .ok g.addrs) →
      ((gs.map PyVal.spent).mapM addressSet : Except PyExc _) =
        .ok (gs.map fun g => g.spent.addrs) := by
    intro gs hgs
    induction gs with
    | nil => rfl
    | cons g gs ih =>
        rw [List.map_cons, List.mapM_cons,
          PyVal.addressSet_spent (hgs g (by simp)),
          ih fun g hg => hgs g (by simp [hg])]
        rfl
  obtain ⟨hstops, hsets, -⟩ := validateGroups_eq_ok h
  have hleft := hmapM _ hsets
  cases groups with
  | none | num x => cases hstops
  | str chars =>
      have hmap : (PyVal.str chars).iterate.1.map PyVal.spent =
          (PyVal.str chars).iterate.1 := by
        simp [PyVal.iterate, PyVal.spent]
      rw [hmap] at hleft
      have hiter : (PyVal.str chars).iterate =
          ((PyVal.str chars).iterate.1, none) := rfl
      simp only [groupSets, spentGroups, PyVal.spent]
      rw [hiter]
      simp only [hleft]
      rfl
  | list items | tuple items | object o items =>
      simp only [PyVal.iterate] at hstops hleft
      simp only [spentGroups, groupSets, PyVal.iterate, hleft, hstops]
      rfl
  | iterator items => rfl

/-- With its ends settled, a slow link is its factor. -/
theorem validateFault_of_pair {bound : List Address} {seconds : Num}
    {window : ℚ} {a b : Option Address} {x : Num}
    (h : validateFault bound seconds window (.slowLink a b none) = .ok ()) :
    validateFault bound seconds window (.slowLink a b (some x)) =
      discard (checkNumber x (1 < ·) (.slowLinkFactor x)) := by
  cases a <;> cases b <;>
    simp only [validateFault, bind, Except.bind, pure, Except.pure] at h ⊢
  all_goals
    split at h
    · cases h
    · next hok => rw [if_neg hok]

theorem validate_slowLink {bound : List Address} {seconds : Num} {window : ℚ}
    {a b factor : PyVal}
    (h : (slowLink a b factor).validate bound seconds window = .ok ()) :
    validateFault bound seconds window
      (.slowLink a.address? b.address? factor.num?) = .ok () := by
  obtain ⟨a', ha, h⟩ := Except.bind_eq_ok h
  obtain ⟨b', hb, h⟩ := Except.bind_eq_ok h
  obtain ⟨⟨⟩, hpair, h⟩ := Except.bind_eq_ok h
  rw [PyVal.pinned_eq_ok ha, PyVal.pinned_eq_ok hb] at hpair h
  split at h
  · next o items =>
    rw [PyVal.num?, validateFault_of_pair (liftApi_eq_ok hpair),
      PyVal.checkNumber_eq_ok h]
    rfl
  · obtain ⟨x, hx, h⟩ := Except.bind_eq_ok h
    rw [← PyVal.number_eq_ok hx]
    exact liftApi_eq_ok h

theorem validate_crash {bound : List Address} {seconds : Num} {window : ℚ}
    {node at_ : PyVal}
    (h : (crash node at_).validate bound seconds window = .ok ()) :
    validateFault bound seconds window
      (.crash node.address? at_.num?) = .ok () := by
  obtain ⟨n, hn, h⟩ := Except.bind_eq_ok h
  rw [PyVal.pinned_eq_ok hn] at h
  split at h
  · next o items =>
    obtain ⟨⟨⟩, hnumber, h⟩ := Except.bind_eq_ok h
    obtain ⟨⟨⟩, hlimit, h⟩ := Except.bind_eq_ok h
    have hnobody := liftApi_eq_ok h
    simp only [PyVal.num?, validateFault, bind, Except.bind,
      PyVal.checkNumber_eq_ok hnumber, if_neg (PyVal.checkLimit_eq_ok hlimit)]
    exact hnobody
  · obtain ⟨x, hx, h⟩ := Except.bind_eq_ok h
    rw [← PyVal.number_eq_ok hx]
    exact liftApi_eq_ok h

theorem validateAll_cons {bound : List Address} {seconds : Num} {window : ℚ}
    {f : FaultHandle} {fs : List FaultHandle}
    (h : validateAll bound seconds window (f :: fs) = .ok ()) :
    f.validate bound seconds window = .ok () ∧
      validateAll bound seconds window fs = .ok () := by
  obtain ⟨⟨⟩, hf, h⟩ := Except.bind_eq_ok h
  exact ⟨hf, h⟩

/-- The handle leaves the split to the seed. -/
def Unpinned : FaultHandle → Prop
  | .partition groups => groups.truthy = .ok false
  | _ => False

/-- The kind of fault a handle asks for is the kind it gets. -/
def Settles : FaultHandle → Resolved → Prop
  | .partition _, .partition .. => True
  | .slowLink .., .slowLink .. => True
  | .crash .., .crash .. => True
  | _, _ => False

theorem validate_of_mem {bound : List Address} {seconds : Num} {window : ℚ}
    {fs : List FaultHandle}
    (h : validateAll bound seconds window fs = .ok ()) {f : FaultHandle}
    (hf : f ∈ fs) : f.validate bound seconds window = .ok () := by
  induction fs with
  | nil => cases hf
  | cons g fs ih =>
      obtain ⟨hg, hfs⟩ := validateAll_cons h
      rcases List.mem_cons.mp hf with rfl | hf
      · exact hg
      · exact ih hfs hf

end FaultHandle

/-- An address is the one that was pinned, or else one of those bound. -/
def Chosen (bound : List Address) (pinned : Option Address) (a : Address) :
    Prop :=
  pinned = some a ∨ pinned = none ∧ a ∈ bound

/-- The commit goes by what validation left of the handle. -/
def FaultHandle.Becomes (ρ : Type) [Random ρ] (bound : List Address) :
    FaultHandle → Resolved → Prop
  | .partition groups, .partition gs _ _ =>
      (groups.truthy = .ok true → gs = leftGroups groups) ∧
        (groups.truthy = .ok false → ∃ fuel, ∃ g g' : ρ,
          drawBipartition bound fuel g = some (gs, g'))
  | .slowLink a b factor, .slowLink x y q _ _ =>
      Chosen bound a.address? x ∧ Chosen bound b.address? y ∧ x ≠ y ∧
        ∀ v, factor.num? = some v → v.value? = some q
  | .crash node at_, .crash n t =>
      Chosen bound node.address? n ∧
        ∀ v, at_.num? = some v → v.value? = some t
  | _, _ => False

theorem FaultHandle.Becomes.settles {ρ : Type} [Random ρ]
    {bound : List Address} {f : FaultHandle} {r : Resolved}
    (h : f.Becomes ρ bound r) : f.Settles r := by
  cases f <;> cases r <;> trivial

namespace Net

variable {ρ μ υ : Type}

/-- Two bound addresses leave one to choose, whichever was chosen first. -/
theorem filter_bound_ne_nil {s : Net ρ μ υ} (h : 2 ≤ s.boundAddresses.length)
    (a : Address) : s.boundAddresses.filter (· ≠ a) ≠ [] := by
  intro hnil
  rw [List.filter_eq_nil_iff] at hnil
  have hall : ∀ x ∈ s.boundAddresses, x = a := by simpa using hnil
  have hsub : s.boundAddresses ⊆ [a] := fun x hx => by simp [hall x hx]
  have := (s.boundAddresses_nodup.subperm hsub).length_le
  simp at this
  omega

variable [Random ρ]

theorem faultChoice_ne_nil {seq : List Address} (h : seq ≠ [])
    (s : Net ρ μ υ) :
    ∃ g, ∃ a ∈ seq, s.faultChoice seq = ({ s with faultsRng := g }, some a) := by
  obtain ⟨⟨a, g⟩, hc⟩ :=
    Option.isSome_iff_exists.mp (Random.choice_isSome h s.faultsRng)
  exact ⟨g, a, Random.mem_of_choice hc, by rw [faultChoice, hc]⟩

/-- The two ends of a validated slow link, and all that choosing them
changes. -/
theorem resolvePair_ok {s : Net ρ μ υ} {seconds : Num} {window : ℚ}
    {a b : Option Address} {factor : Option Num}
    (hv : validateFault s.boundAddresses seconds window
      (.slowLink a b factor) = .ok ()) :
    ∃ g x y, s.resolvePair a b = ({ s with faultsRng := g }, some (x, y)) ∧
      Chosen s.boundAddresses a x ∧ Chosen s.boundAddresses b y ∧ x ≠ y := by
  have hpair := validateFault_pair hv
  -- A side that is drawn is bound, and not the other one.
  have hdrawn : ∀ {x y : Address},
      x ∈ s.boundAddresses.filter (· ≠ y) → x ∈ s.boundAddresses ∧ x ≠ y :=
    fun h => by simpa using h
  cases a with
  | none =>
      cases b with
      | none =>
          have hne : s.boundAddresses ≠ [] := by
            intro hnil
            simp [hnil] at hpair
          obtain ⟨g, x, hmem, hx⟩ := faultChoice_ne_nil hne s
          obtain ⟨g', y, hmem', hy⟩ := faultChoice_ne_nil
            (filter_bound_ne_nil (s := { s with faultsRng := g }) hpair x)
            { s with faultsRng := g }
          obtain ⟨hbound, hyx⟩ := hdrawn hmem'
          exact ⟨g', x, y,
            by simp only [resolvePair, hx, hy, Option.map_some],
            .inr ⟨rfl, hmem⟩, .inr ⟨rfl, hbound⟩, hyx.symm⟩
      | some b =>
          obtain ⟨g, x, hmem, hx⟩ := faultChoice_ne_nil hpair s
          obtain ⟨hbound, hxb⟩ := hdrawn hmem
          exact ⟨g, x, b, by simp only [resolvePair, hx, Option.map_some],
            .inr ⟨rfl, hbound⟩, .inl rfl, hxb⟩
  | some a =>
      cases b with
      | none =>
          obtain ⟨g, x, hmem, hx⟩ := faultChoice_ne_nil hpair s
          obtain ⟨hbound, hxa⟩ := hdrawn hmem
          exact ⟨g, a, x, by simp only [resolvePair, hx, Option.map_some],
            .inl rfl, .inr ⟨rfl, hbound⟩, hxa.symm⟩
      | some b =>
          exact ⟨s.faultsRng, a, b, rfl, .inl rfl, .inl rfl, hpair⟩

/-- A pinned number is worth its value. -/
theorem pinnedOr_value {s t : Net ρ μ υ} {pinned : Option Num} {a b x : ℚ}
    (h : s.pinnedOr pinned a b = (x, t))
    (hv : ∀ v, pinned = some v → v.value?.isSome) :
    ∀ v, pinned = some v → v.value? = some x := by
  rintro v rfl
  obtain ⟨q, hq⟩ := Option.isSome_iff_exists.mp (hv v rfl)
  have hx : v.value?.getD 0 = x := congrArg Prod.fst h
  rw [hq] at hx ⊢
  exact congrArg some hx

theorem resolveSlowLink_ok {s : Net ρ μ υ} {seconds : Num} {window : ℚ}
    {a b : Option Address} {factor : Option Num} (hw : 0 ≤ window)
    (hv : validateFault s.boundAddresses seconds window
      (.slowLink a b factor) = .ok ()) :
    ∃ g x y q start stop,
      s.resolveSlowLink a b factor window =
        ({ s with faultsRng := g }, some (.slowLink x y q start stop)) ∧
      (Resolved.slowLink x y q start stop).Ok window ∧
      Chosen s.boundAddresses a x ∧ Chosen s.boundAddresses b y ∧ x ≠ y ∧
      ∀ v, factor = some v → v.value? = some q := by
  obtain ⟨g, x, y, hp, hx, hy, hxy⟩ := resolvePair_ok hv
  rcases hr : s.resolveSlowLink a b factor window with ⟨t, o⟩
  have hresolve : s.resolve 0 window (.slowLink a b factor) = some (t, o) :=
    congrArg some hr
  obtain ⟨⟨g', rfl⟩, hok⟩ := resolve_eq hw hv hresolve
  rcases hf : ({ s with faultsRng := g } : Net ρ μ υ).pinnedOr factor 2 50
    with ⟨q, u⟩
  have hq := pinnedOr_value hf fun v hv' => by
    subst hv'
    obtain ⟨q, hq, -⟩ := validateFault_factor hv
    rw [hq]
    rfl
  have ho : ∃ start stop, o = some (.slowLink x y q start stop) := by
    simp only [resolveSlowLink, hp, hf] at hr
    exact ⟨_, _, (congrArg Prod.snd hr).symm⟩
  obtain ⟨start, stop, rfl⟩ := ho
  exact ⟨g', x, y, q, start, stop, rfl, hok _ rfl, hx, hy, hxy, hq⟩

theorem resolveCrash_ok {s : Net ρ μ υ} {seconds : Num} {window : ℚ}
    {node : Option Address} {at_ : Option Num} (hw : 0 ≤ window)
    (hv : validateFault s.boundAddresses seconds window
      (.crash node at_) = .ok ()) :
    ∃ g n x,
      s.resolveCrash node at_ window =
        ({ s with faultsRng := g }, some (.crash n x)) ∧
      (Resolved.crash n x).Ok window ∧ Chosen s.boundAddresses node n ∧
      ∀ v, at_ = some v → v.value? = some x := by
  rcases hr : s.resolveCrash node at_ window with ⟨t, o⟩
  have hresolve : s.resolve 0 window (.crash node at_) = some (t, o) :=
    congrArg some hr
  obtain ⟨⟨g', rfl⟩, hok⟩ := resolve_eq hw hv hresolve
  rcases hp : s.pinnedOr at_ 0 window with ⟨x, u⟩
  have hx := pinnedOr_value hp fun v hv' => by
    subst hv'
    obtain ⟨q, hq, -⟩ := validateFault_at hv
    rw [hq]
    rfl
  have ho : ∃ n, o = some (.crash n x) ∧ Chosen s.boundAddresses node n := by
    simp only [resolveCrash, hp] at hr
    cases node with
    | some n => exact ⟨n, (congrArg Prod.snd hr).symm, .inl rfl⟩
    | none =>
        obtain ⟨⟨g, rfl⟩, -⟩ := pinnedOr_eq hp hw
        have hne : boundAddresses { s with faultsRng := g } ≠ [] :=
          validateFault_node hv
        obtain ⟨g'', n, hmem, hn⟩ := faultChoice_ne_nil hne
          { s with faultsRng := g }
        simp only [hn, Option.map_some] at hr
        exact ⟨n, (congrArg Prod.snd hr).symm, .inr ⟨rfl, hmem⟩⟩
  obtain ⟨n, rfl, hn⟩ := ho
  exact ⟨g', n, x, rfl, hok _ rfl, hn, hx⟩

/-- A validated handle settles one fault, and draws. -/
theorem resolveHandle_ok {s t : Net ρ μ υ} {fuel : ℕ} {seconds : Num}
    {window : ℚ} {f : FaultHandle} {x : Except HandleError (Option Resolved)}
    (hw : 0 ≤ window)
    (hv : f.validate s.boundAddresses seconds window = .ok ())
    (h : s.resolveHandle fuel window f = some (t, x)) :
    ∃ r g, x = .ok (some r) ∧ t = { s with faultsRng := g } ∧ r.Ok window ∧
      f.Becomes ρ s.boundAddresses r := by
  cases f with
  | partition groups =>
      simp only [resolveHandle, resolveSplit, Option.map_eq_some_iff] at h
      obtain ⟨⟨u, r⟩, h, hx⟩ := h
      simp only [FaultHandle.validate] at hv
      split at h
      · next htrue =>
        rw [htrue] at hv
        cases hv
      · next htrue =>
        rw [htrue] at hv
        rw [FaultHandle.groupSets_spent hv] at h
        rcases hd : s.drawWindow window with ⟨⟨start, stop⟩, v⟩
        obtain ⟨h0, h1, h2, g, rfl⟩ := drawWindow_eq hd hw
        simp only [hd, Option.some.injEq, Prod.mk.injEq] at h
        obtain ⟨rfl, rfl⟩ := h
        cases hx
        refine ⟨.partition _ start stop, g, rfl, rfl, ⟨h0, h1, h2⟩,
          fun _ => rfl, fun hf => ?_⟩
        rw [htrue] at hf
        cases hf
      · next hfalse =>
        rw [hfalse] at hv
        simp only [Option.map_eq_some_iff] at h
        obtain ⟨⟨v, r'⟩, hr, h⟩ := h
        have hbecomes : (FaultHandle.partition groups).Becomes ρ
            s.boundAddresses r' := by
          simp only [resolvePartition, ne_eq, not_true_eq_false, if_false,
            Option.map_eq_some_iff] at hr
          obtain ⟨⟨gs, w⟩, ⟨⟨gs', g⟩, hdraw, hw⟩, hr⟩ := hr
          cases hw
          rw [← (Prod.mk.inj hr).2]
          refine ⟨fun htrue => ?_, fun _ => ⟨fuel, _, _, hdraw⟩⟩
          rw [hfalse] at htrue
          cases htrue
        have hres : s.resolve fuel window (.partition []) =
            some (v, some r') := by
          simp only [resolve, hr, Option.map_some]
        obtain ⟨⟨g, rfl⟩, hok⟩ := resolve_eq hw (liftApi_eq_ok hv) hres
        cases h
        cases hx
        exact ⟨r', g, rfl, rfl, hok _ rfl, hbecomes⟩
  | slowLink a b factor =>
      obtain ⟨g, a', b', q, start, stop, hr, hok, ha, hb, hab, hq⟩ :=
        resolveSlowLink_ok hw (FaultHandle.validate_slowLink hv)
      simp only [resolveHandle, hr, Option.some.injEq, Prod.mk.injEq] at h
      obtain ⟨rfl, rfl⟩ := h
      exact ⟨_, g, rfl, rfl, hok, ha, hb, hab, hq⟩
  | crash node at_ =>
      obtain ⟨g, n, y, hr, hok, hn, hy⟩ :=
        resolveCrash_ok hw (FaultHandle.validate_crash hv)
      simp only [resolveHandle, hr, Option.some.injEq, Prod.mk.injEq] at h
      obtain ⟨rfl, rfl⟩ := h
      exact ⟨_, g, rfl, rfl, hok, hn, hy⟩
  | other v =>
      simp only [FaultHandle.validate] at hv
      split at hv <;> cases hv

/-! ## What a whole call puts up -/

/-- What scheduling settled faults at one reading of the clock comes to: their
events under consecutive ids, their timers, and a generator that moved on. -/
structure Committed (s u : Net ρ μ υ) (rs : List Resolved) : Prop where
  eq : ∃ g l, u = { s with
    loop := l
    faultsRng := g
    timeline := s.timeline ++ (rs.zipIdx s.nextFaultId).map fun x =>
      (s.loop.time, x.1.scheduled x.2 s.loop.time)
    nextFaultId := s.nextFaultId + rs.length }
  loop : u.loop.time = s.loop.time ∧ u.loop.ready = s.loop.ready ∧
    u.loop.cancelled = s.loop.cancelled ∧ u.loop.stopping = s.loop.stopping
  timers : ∃ new, u.loop.timers.entries.Perm (s.loop.timers.entries ++ new) ∧
    (new.map fun τ => (τ.when, τ.handle.callback)) =
      ((rs.zipIdx s.nextFaultId).flatMap fun x =>
        x.1.timers x.2 s.loop.time).map fun y => (.fin y.1, .fault y.2)

omit [Random ρ] in
theorem Committed.refl (s : Net ρ μ υ) (g : ρ) :
    Committed s { s with faultsRng := g } [] where
  eq := ⟨g, s.loop, by simp⟩
  loop := ⟨rfl, rfl, rfl, rfl⟩
  timers := ⟨[], by simp, rfl⟩

omit [Random ρ] in
/-- One fault puts up its own timers. -/
theorem Committed.schedule (s : Net ρ μ υ) (g : ρ) (r : Resolved) :
    Committed s (schedule { s with faultsRng := g } s.loop.time r) [r] where
  eq := by cases r <;> exact ⟨_, _, rfl⟩
  loop := by cases r <;> exact ⟨rfl, rfl, rfl, rfl⟩
  timers := by
    have htwo : ∀ (q : PQueue (Timer (Callback μ υ)) Timer.key) τ τ',
        ((q.push τ).push τ').entries.Perm (q.entries ++ [τ, τ']) := by
      intro q τ τ'
      refine ((q.push τ).push_perm τ').trans (((q.push_perm τ).cons τ').trans ?_)
      have hback : ([τ, τ'] ++ q.entries).Perm (q.entries ++ [τ, τ']) :=
        List.perm_append_comm
      exact (List.Perm.swap _ _ _).trans hback
    cases r with
    | partition groups start stop => exact ⟨[_, _], htwo _ _ _, rfl⟩
    | slowLink a b factor start stop => exact ⟨[_, _], htwo _ _ _, rfl⟩
    | crash node at_ =>
        exact ⟨[_], (s.loop.timers.push_perm _).trans
          (List.perm_append_singleton _ _).symm, rfl⟩

omit [Random ρ] in
theorem Committed.trans {s t u : Net ρ μ υ} {rs rs' : List Resolved}
    (h : Committed s t rs) (h' : Committed t u rs') :
    Committed s u (rs ++ rs') := by
  obtain ⟨⟨g, l, ht⟩, ⟨htime, hready, hcanc, hstop⟩, new, hperm, hnew⟩ := h
  obtain ⟨⟨g', l', hu⟩, hloop', new', hperm', hnew'⟩ := h'
  have hid : t.nextFaultId = s.nextFaultId + rs.length := by rw [ht]
  rw [htime, hready, hcanc, hstop] at hloop'
  rw [htime, hid] at hu hnew'
  refine ⟨⟨g', l', ?_⟩, hloop', new ++ new', ?_, ?_⟩
  · rw [hu, ht, List.zipIdx_append, List.map_append, List.length_append,
      Nat.add_assoc, List.append_assoc]
  · rw [← List.append_assoc]
    exact hperm'.trans (hperm.append_right new')
  · rw [List.zipIdx_append, List.flatMap_append, List.map_append,
      List.map_append, hnew, hnew']

omit [Random ρ] in
theorem Committed.boundAddresses {s t : Net ρ μ υ} {rs : List Resolved}
    (h : Committed s t rs) : t.boundAddresses = s.boundAddresses := by
  obtain ⟨g, l, rfl⟩ := h.eq
  rfl

/-- A validated handle commits one fault, or fails with its id taken: its time
cannot be added to the clock. -/
theorem commitHandle_ok {s t : Net ρ μ υ} {fuel : ℕ} {seconds : Num}
    {window : ℚ} {f : FaultHandle} {x : Except HandleError Unit}
    (hw : 0 ≤ window)
    (hv : f.validate s.boundAddresses seconds window = .ok ())
    (h : s.commitHandle fuel s.loop.time window f = some (t, x)) :
    (∃ r, f.adds = none ∧ x = .ok () ∧ Committed s t [r] ∧ r.Ok window ∧
      f.Becomes ρ s.boundAddresses r) ∨
    ∃ e g, f.adds = some e ∧ x = .error (.raised e) ∧
      t = { s with faultsRng := g, nextFaultId := s.nextFaultId + 1 } := by
  simp only [commitHandle, Option.map_eq_some_iff] at h
  obtain ⟨⟨u, y⟩, hr, h⟩ := h
  obtain ⟨r, g, rfl, rfl, hok, hbecomes⟩ := resolveHandle_ok hw hv hr
  cases hadds : f.adds with
  | none =>
      simp only [hadds, Prod.mk.injEq] at h
      obtain ⟨rfl, rfl⟩ := h
      exact .inl ⟨r, rfl, rfl, .schedule s g r, hok, hbecomes⟩
  | some e =>
      simp only [hadds, Prod.mk.injEq] at h
      obtain ⟨rfl, rfl⟩ := h
      exact .inr ⟨e, g, rfl, rfl, rfl⟩

/-- Where the second pass ends: with the list, or with the first handle whose
time cannot be added to the clock. -/
inductive Stopped (u : Net ρ μ υ) (fs : List FaultHandle) :
    Net ρ μ υ → Except HandleError Unit → Prop
  | done (h : fs.findSome? FaultHandle.adds = none) : Stopped u fs u (.ok ())
  | raised (e : PyExc) (g : ρ) (h : fs.findSome? FaultHandle.adds = some e) :
      Stopped u fs { u with faultsRng := g, nextFaultId := u.nextFaultId + 1 }
        (.error (.raised e))

/-- The handles before the first whose time cannot be added to the clock. -/
def committable (fs : List FaultHandle) : List FaultHandle :=
  fs.takeWhile fun f => f.adds.isNone

omit [Random ρ] in
theorem committable_eq_self {fs : List FaultHandle}
    (h : fs.findSome? FaultHandle.adds = none) : committable fs = fs := by
  rw [committable, List.takeWhile_eq_self_iff]
  intro f hf
  rw [List.findSome?_eq_none_iff.mp h f hf]
  rfl

/-- The second pass, after the first one. -/
theorem commitHandles_stopped {s t : Net ρ μ υ} {fuel : ℕ} {seconds : Num}
    {window : ℚ} {fs : List FaultHandle} {x : Except HandleError Unit}
    (hw : 0 ≤ window)
    (hv : FaultHandle.validateAll s.boundAddresses seconds window fs = .ok ())
    (h : s.commitHandles fuel window fs = some (t, x)) :
    ∃ u rs, Stopped u fs t x ∧ Committed s u rs ∧ (∀ r ∈ rs, r.Ok window) ∧
      (committable fs).Forall₂ (FaultHandle.Becomes ρ s.boundAddresses) rs := by
  induction fs generalizing s with
  | nil =>
      cases h
      exact ⟨t, [], .done rfl, .refl t t.faultsRng, by simp, .nil⟩
  | cons f fs ih =>
      obtain ⟨hf, hfs⟩ := FaultHandle.validateAll_cons hv
      unfold commitHandles at h
      split at h
      · cases h
      · next u e hc =>
        cases h
        obtain ⟨r, -, hok, -⟩ | ⟨e', g, hadds, he, rfl⟩ :=
          commitHandle_ok hw hf hc
        · cases hok
        · cases he
          refine ⟨s, [], .raised e' g (by simp [hadds]),
            .refl s s.faultsRng, by simp, ?_⟩
          rw [committable, List.takeWhile_cons, hadds]
          exact .nil
      · next u hc =>
        obtain ⟨r, hadds, -, hu, hok, hbecomes⟩ | ⟨e', g, -, he, -⟩ :=
          commitHandle_ok hw hf hc
        · obtain ⟨v, rs, hstop, ht, hall, hrest⟩ :=
            ih (hu.boundAddresses ▸ hfs) h
          rw [hu.boundAddresses] at hrest
          refine ⟨v, r :: rs, ?_, hu.trans ht,
            List.forall_mem_cons.mpr ⟨hok, hall⟩, ?_⟩
          · cases hstop with
            | done hnone => exact .done (by simpa [hadds] using hnone)
            | raised e g hsome =>
                exact .raised e g (by simpa [hadds] using hsome)
          · rw [committable, List.takeWhile_cons, hadds]
            exact .cons hbecomes hrest
        · cases he

/-! ## The bipartition draw, when it ends -/

theorem resolveHandle_mono {s : Net ρ μ υ} {fuel fuel' : ℕ} {window : ℚ}
    {f : FaultHandle}
    {x : Net ρ μ υ × Except HandleError (Option Resolved)}
    (hle : fuel ≤ fuel') (h : s.resolveHandle fuel window f = some x) :
    s.resolveHandle fuel' window f = some x := by
  cases f with
  | partition groups =>
      simp only [resolveHandle, resolveSplit] at h ⊢
      split at h
      · exact h
      · exact h
      · simp only [resolvePartition, ne_eq, not_true_eq_false, if_false,
          Option.map_eq_some_iff] at h ⊢
        obtain ⟨y, ⟨z, ⟨w, ⟨v, hv, rfl⟩, rfl⟩, rfl⟩, rfl⟩ := h
        exact ⟨_, ⟨_, ⟨_, ⟨v, drawBipartition_mono hle hv, rfl⟩, rfl⟩, rfl⟩, rfl⟩
  | slowLink | crash | other => exact h

theorem resolveHandle_isSome {s : Net ρ μ υ} {window : ℚ} {f : FaultHandle}
    (hend : f.Unpinned → ∀ g : ρ, ∃ fuel,
      (drawBipartition s.boundAddresses fuel g).isSome) :
    ∃ fuel, (s.resolveHandle fuel window f).isSome := by
  cases f with
  | partition groups =>
      rcases htrue : groups.truthy with e | _ | _
      · refine ⟨0, ?_⟩
        simp only [resolveHandle, resolveSplit, htrue]
        rfl
      · obtain ⟨fuel, hfuel⟩ := hend htrue s.faultsRng
        refine ⟨fuel, ?_⟩
        simp only [resolveHandle, resolveSplit, htrue, resolvePartition, ne_eq, not_true_eq_false, if_false,
          Option.isSome_map]
        exact hfuel
      · refine ⟨0, ?_⟩
        simp only [resolveHandle, resolveSplit, htrue]
        split <;> rfl
  | slowLink a b factor =>
      refine ⟨0, ?_⟩
      unfold resolveHandle
      dsimp only
      split <;> rfl
  | crash node at_ =>
      refine ⟨0, ?_⟩
      unfold resolveHandle
      dsimp only
      split <;> rfl
  | other v => exact ⟨0, rfl⟩

/-- The second pass returns, if every bipartition draw it makes ends. -/
theorem commitHandles_isSome {s : Net ρ μ υ} {seconds : Num} {window : ℚ}
    {fs : List FaultHandle} (hw : 0 ≤ window)
    (hv : FaultHandle.validateAll s.boundAddresses seconds window fs = .ok ())
    (hend : ∀ f ∈ fs, f.Unpinned → ∀ g : ρ, ∃ fuel,
      (drawBipartition s.boundAddresses fuel g).isSome) :
    ∃ fuel, ∀ fuel', fuel ≤ fuel' →
      (s.commitHandles fuel' window fs).isSome := by
  induction fs generalizing s with
  | nil => exact ⟨0, fun _ _ => rfl⟩
  | cons f fs ih =>
      obtain ⟨hf, hfs⟩ := FaultHandle.validateAll_cons hv
      obtain ⟨fuel, hfuel⟩ :
          ∃ fuel, (s.resolveHandle fuel window f).isSome :=
        resolveHandle_isSome (hend f (by simp))
      obtain ⟨⟨t, x⟩, ht⟩ := Option.isSome_iff_exists.mp hfuel
      obtain ⟨r, g, rfl, rfl, -⟩ := resolveHandle_ok hw hf ht
      have hb : boundAddresses (schedule { s with faultsRng := g }
          s.loop.time r) = s.boundAddresses :=
        (Committed.schedule s g r).boundAddresses
      obtain ⟨fuel', hfuel'⟩ := ih (hb ▸ hfs)
        (fun f hf => hb ▸ hend f (by simp [hf]))
      refine ⟨max fuel fuel', fun n hn => ?_⟩
      have ht := resolveHandle_mono (le_trans (le_max_left _ _) hn) ht
      simp only [commitHandles, commitHandle, ht, Option.map_some]
      cases f.adds with
      | none => exact hfuel' n (le_trans (le_max_right _ _) hn)
      | some e => rfl

/-- An accepted call ends, if every bipartition draw it makes ends. -/
theorem runForHandles_isSome {s : Net ρ μ υ} {seconds : Num} {window : ℚ}
    {faults : List FaultHandle} (hs : checkSeconds seconds = .ok window)
    (hv : FaultHandle.validateAll s.boundAddresses seconds window faults =
      .ok ())
    (hend : ∀ f ∈ faults, f.Unpinned → ∀ g : ρ, ∃ fuel,
      (drawBipartition s.boundAddresses fuel g).isSome) (k : υ) :
    ∃ fuel, (s.runForHandles fuel seconds faults k).isSome := by
  obtain ⟨fuel, hfuel⟩ := commitHandles_isSome (checkSeconds_ok hs).2 hv hend
  refine ⟨fuel, ?_⟩
  simp only [runForHandles, prepareHandles, hs, hv, Option.isSome_map]
  exact hfuel fuel le_rfl

/-- An accepted call that ends goes to sleep with one fault committed for each
handle, or has failed on a time that cannot be added to the clock. -/
theorem runForHandles_stopped {s t : Net ρ μ υ} {seconds : Num} {window : ℚ}
    {faults : List FaultHandle} {fuel : ℕ} {k : υ} {x : Except HandleError Unit}
    (hs : checkSeconds seconds = .ok window)
    (hv : FaultHandle.validateAll s.boundAddresses seconds window faults =
      .ok ())
    (h : s.runForHandles fuel seconds faults k = some (t, x)) :
    ∃ u v rs, Stopped u faults v x ∧ Committed s u rs ∧
      (∀ r ∈ rs, r.Ok window) ∧
      (committable faults).Forall₂
        (FaultHandle.Becomes ρ s.boundAddresses) rs ∧
      (x = .ok () → t = v.sleep window k) ∧ (x ≠ .ok () → t = v) := by
  simp only [runForHandles, prepareHandles, hs, hv, Option.map_eq_some_iff] at h
  obtain ⟨y, ⟨⟨v, z⟩, hc, rfl⟩, h⟩ := h
  obtain ⟨u, rs, hstop, hrs, hall, hbecome⟩ :=
    commitHandles_stopped (checkSeconds_ok hs).2 hv hc
  cases z with
  | error e =>
      cases h
      exact ⟨u, t, rs, hstop, hrs, hall, hbecome, (by rintro ⟨⟩), fun _ => rfl⟩
  | ok _ =>
      cases h
      exact ⟨u, v, rs, hstop, hrs, hall, hbecome, fun _ => rfl,
        fun hne => absurd rfl hne⟩

/-- An accepted call that ends has not raised, and has committed one fault for
each handle, if every time can be added to the clock. -/
theorem runForHandles_ok {s t : Net ρ μ υ} {seconds : Num} {window : ℚ}
    {faults : List FaultHandle} {fuel : ℕ} {k : υ} {x : Except HandleError Unit}
    (hs : checkSeconds seconds = .ok window)
    (hv : FaultHandle.validateAll s.boundAddresses seconds window faults =
      .ok ()) (hadds : ∀ f ∈ faults, f.adds = none)
    (h : s.runForHandles fuel seconds faults k = some (t, x)) :
    x = .ok () ∧ ∃ u rs, t = u.sleep window k ∧ Committed s u rs ∧
      (∀ r ∈ rs, r.Ok window) ∧
      faults.Forall₂ (FaultHandle.Becomes ρ s.boundAddresses) rs := by
  have hnone := List.findSome?_eq_none_iff.mpr hadds
  obtain ⟨u, v, rs, hstop, hrs, hall, hbecome, ht, -⟩ :=
    runForHandles_stopped hs hv h
  rw [committable_eq_self hnone] at hbecome
  cases hstop with
  | done _ => exact ⟨rfl, u, rs, ht rfl, hrs, hall, hbecome⟩
  | raised e g hsome =>
      rw [hnone] at hsome
      cases hsome

/-- `run_for` is all or nothing. If the window or any handle is rejected, the
call raises what the check raised and the network is as it was. If all of them
are accepted and every bipartition draw the call makes ends, the call ends;
and when it does and every time adds to the clock, as those of `int` and `float`
do, it has not raised, every handle has become one fault of its kind inside the
window, and what they put up is exactly their events and timers under
consecutive ids. -/
theorem run_for_all_or_nothing (s : Net ρ μ υ) (seconds : Num)
    (faults : List FaultHandle) (k : υ) :
    (∀ e, checkSeconds seconds = .error e → ∀ fuel,
      s.runForHandles fuel seconds faults k = some (s, .error (.api e))) ∧
    ∀ window, checkSeconds seconds = .ok window →
      (∀ e, FaultHandle.validateAll s.boundAddresses seconds window faults =
        .error e → ∀ fuel,
          s.runForHandles fuel seconds faults k = some (s, .error e)) ∧
      (FaultHandle.validateAll s.boundAddresses seconds window faults =
        .ok () →
        ((∀ f ∈ faults, f.Unpinned → ∀ g : ρ, ∃ fuel,
            (drawBipartition s.boundAddresses fuel g).isSome) →
          ∃ fuel, (s.runForHandles fuel seconds faults k).isSome) ∧
        ((∀ f ∈ faults, f.adds = none) →
          ∀ fuel t x, s.runForHandles fuel seconds faults k = some (t, x) →
            x = .ok () ∧ ∃ u rs, t = u.sleep window k ∧ Committed s u rs ∧
              (∀ r ∈ rs, r.Ok window) ∧
              faults.Forall₂ FaultHandle.Settles rs)) := by
  refine ⟨?_, ?_⟩
  · intro e he fuel
    simp only [runForHandles, prepareHandles, he, Option.map_some]
  · intro window hs
    refine ⟨?_, fun hv => ⟨?_, ?_⟩⟩
    · intro e he fuel
      simp only [runForHandles, prepareHandles, hs, he, Option.map_some]
    · exact fun hend => runForHandles_isSome hs hv hend k
    · intro hadds fuel t x h
      obtain ⟨hx, u, rs, ht, hrs, hall, hbecome⟩ :=
        runForHandles_ok hs hv hadds h
      exact ⟨hx, u, rs, ht, hrs, hall, hbecome.imp fun _ _ => (·.settles)⟩

omit [Random ρ] in
theorem checkSeconds_two : checkSeconds (.int 2) = .ok 2 := by
  unfold checkSeconds checkNumber
  rw [show (Num.int 2).isFinite? = some true by decide +kernel]
  rfl

/-- A slow link and a crash, with the crash at a time of its own. -/
def slowAndCrash (at_ : Num) : List FaultHandle :=
  [.slowLink (.num (.int 1)) (.num (.int 2)) .none,
    .crash (.num (.int 3)) (.num at_)]

omit [Random ρ] in
theorem run_for_all_or_nothing_slowAndCrash :
    let s : Net Toggle Unit ℕ := init Toggle.low Toggle.low
    (∃ t u rs,
      s.runForHandles 1 (.int 2) (slowAndCrash (.int 1)) 0 =
        some (t, .ok ()) ∧
      Committed s u rs ∧ (slowAndCrash (.int 1)).Forall₂ FaultHandle.Settles rs) ∧
    ∃ e, s.runForHandles 1 (.int 2) (slowAndCrash (.int 3)) 0 =
      some (s, .error e) := by
  intro s
  have hok : FaultHandle.validateAll s.boundAddresses (.int 2) 2
      (slowAndCrash (.int 1)) = .ok () :=
    Except.eq_ok_of_toBool (by decide +kernel)
  have hbad : (FaultHandle.validateAll s.boundAddresses (.int 2) 2
      (slowAndCrash (.int 3))).toBool = false := by decide +kernel
  constructor
  · have hrun : (s.runForHandles 1 (.int 2) (slowAndCrash (.int 1))
        0).isSome := by decide +kernel
    obtain ⟨⟨t, x⟩, ht⟩ := Option.isSome_iff_exists.mp hrun
    obtain ⟨rfl, u, rs, -, hu, -, hkinds⟩ :=
      (((run_for_all_or_nothing s (.int 2) (slowAndCrash (.int 1)) 0).2 2
        checkSeconds_two).2 hok).2 (by simp [slowAndCrash, FaultHandle.adds])
        1 t x ht
    exact ⟨t, u, rs, ht, hu, hkinds⟩
  · cases hv : FaultHandle.validateAll s.boundAddresses (.int 2) 2
        (slowAndCrash (.int 3)) with
    | error e =>
        exact ⟨e, ((run_for_all_or_nothing s (.int 2) (slowAndCrash (.int 3))
          0).2 2 checkSeconds_two).1 e hv 1⟩
    | ok _ => simp [hv, Except.toBool] at hbad

end Net

end Seedloop
