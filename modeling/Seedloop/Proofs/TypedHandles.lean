import Seedloop.Proofs.Commit

/-!
# Handles of the declared types

A handle that `World` builds, or one built by hand with the types its fields
are declared with, is a `Fault`. Such a handle is validated and committed as
the `Fault` it is, so a call that does not raise is the `runFor` that the
operations of user code are defined by.
-/

namespace Seedloop

namespace PyVal

/-- A pinned address, or `None`. -/
def ofAddress : Option Address → PyVal
  | Option.none => none
  | some a => num (.int a)

/-- A pinned number, or `None`. -/
def ofNum : Option Num → PyVal
  | Option.none => none
  | some x => num x

@[simp] theorem address?_ofAddress (o : Option Address) :
    (ofAddress o).address? = o := by
  cases o <;> rfl

@[simp] theorem num?_ofNum (o : Option Num) : (ofNum o).num? = o := by
  cases o <;> rfl

@[simp] theorem pinned_ofAddress (o : Option Address) (e : HandleError) :
    (ofAddress o).pinned e = .ok o := by
  cases o <;> rfl

theorem foldl_kept {as : List Address} {kept : List Address}
    (h : (kept ++ as).Nodup) :
    (as.map fun a => PyVal.num (.int a)).foldl
      (fun kept x => if kept.any (sameNumber · x) then kept else kept ++ [x])
      (kept.map fun a => PyVal.num (.int a)) =
      (kept ++ as).map fun a => PyVal.num (.int a) := by
  induction as generalizing kept with
  | nil => simp
  | cons a as ih =>
      have hnot : (kept.map fun a => PyVal.num (.int a)).any
          (sameNumber · (.num (.int a))) = false := by
        rw [List.any_eq_false]
        intro x hx
        obtain ⟨b, hb, rfl⟩ := List.mem_map.mp hx
        have hne : b ≠ a := by
          rintro rfl
          exact (List.nodup_append.mp h).2.2 b hb b (by simp) rfl
        simpa [sameNumber, Num.value?] using hne
      rw [List.map_cons, List.foldl_cons, hnot]
      have hrest : (kept ++ [a] ++ as).Nodup := by simpa using h
      have := ih hrest
      simpa using this

theorem hash_ints (as : List Address) :
    (as.map fun a => PyVal.num (.int a)).findSome? hash = Option.none := by
  simp [List.findSome?_eq_none_iff, hash]

theorem areInstances_ints (as : List Address) :
    areInstances (as.map fun a => PyVal.num (.int a)) = Option.none := by
  induction as with
  | nil => rfl
  | cons a as ih => exact ih

theorem addresses?_ints (as : List Address) :
    addresses? (as.map fun a => PyVal.num (.int a)) = some as.toFinset := by
  induction as with
  | nil => rfl
  | cons a as ih => simp [addresses?, address?, ih]

theorem addresses_ofGroup (g : Finset Address) :
    ∃ items, (ofGroup g).toSet = .ok items ∧
      areInstances items = Option.none ∧ addresses? items = some g := by
  refine ⟨(g.sort (· ≤ ·)).map fun a => PyVal.num (.int a), ?_, ?_, ?_⟩
  · have hnodup : ([] ++ g.sort (· ≤ ·)).Nodup := by simp
    have := foldl_kept hnodup
    simp only [ofGroup, toSet, iterate, hash_ints]
    exact congrArg Except.ok this
  · exact areInstances_ints _
  · rw [addresses?_ints, Finset.sort_toFinset]

theorem addressSet_ofGroup (g : Finset Address) :
    FaultHandle.addressSet (ofGroup g) = .ok g := by
  obtain ⟨items, hset, -, haddr⟩ := addresses_ofGroup g
  simp only [FaultHandle.addressSet, hset, haddr]

end PyVal

/-- A handle whose fields are of the types they are declared with. -/
def Fault.toHandle : Fault → FaultHandle
  | .partition groups => .partition (.tuple (groups.map PyVal.ofGroup))
  | .slowLink a b factor =>
      .slowLink (.ofAddress a) (.ofAddress b) (.ofNum factor)
  | .crash node at_ => .crash (.ofAddress node) (.ofNum at_)

theorem validateGroups_ofGroup (seen : Finset Address)
    (all : List (Finset Address)) (v : PyVal) (groups : List (Finset Address)) :
    PyVal.validateGroups.go v seen (groups.map PyVal.ofGroup) = .ok () ↔
      validateGroups.go all seen groups = .ok () := by
  induction groups generalizing seen with
  | nil => simp [PyVal.validateGroups.go, validateGroups.go]
  | cons g groups ih =>
      obtain ⟨items, hset, hints, haddr⟩ := PyVal.addresses_ofGroup g
      simp only [List.map_cons, PyVal.validateGroups.go, hset, hints, haddr,
        validateGroups.go]
      split_ifs
      · simp
      · exact ih _

theorem validateFault_open {bound : List Address} {seconds : Num} {window : ℚ}
    {a b : Option Address} {factor : Option Num}
    (h : validateFault bound seconds window (.slowLink a b factor) = .ok ()) :
    validateFault bound seconds window (.slowLink a b none) = .ok () := by
  cases factor with
  | none => exact h
  | some x =>
      cases a <;> cases b <;>
        simp only [validateFault, bind, Except.bind, pure, Except.pure] at h ⊢
      all_goals
        split at h
        · cases h
        · next hok => rw [if_neg hok]

theorem validate_toHandle {bound : List Address} {seconds : Num} {window : ℚ}
    (f : Fault) : f.toHandle.validate bound seconds window = .ok () ↔
      validateFault bound seconds window f = .ok () := by
  cases f with
  | partition groups =>
      cases groups with
      | nil =>
          exact ⟨liftApi_eq_ok, fun h => congrArg liftApi h⟩
      | cons g groups =>
          exact validateGroups_ofGroup ∅ (g :: groups) _ (g :: groups)
  | slowLink a b factor =>
      refine ⟨fun h => by simpa using FaultHandle.validate_slowLink h,
        fun h => ?_⟩
      cases factor
      all_goals
        simp only [Fault.toHandle, FaultHandle.validate, PyVal.ofNum,
          PyVal.pinned_ofAddress, PyVal.number, bind, Except.bind,
          validateFault_open h, h, liftApi]
  | crash node at_ =>
      refine ⟨fun h => by simpa using FaultHandle.validate_crash h,
        fun h => ?_⟩
      cases at_
      all_goals
        simp only [Fault.toHandle, FaultHandle.validate, PyVal.ofNum,
          PyVal.pinned_ofAddress, PyVal.number, bind, Except.bind, h, liftApi]

theorem validateAll_toHandle {bound : List Address} {seconds : Num}
    {window : ℚ} (fs : List Fault) :
    FaultHandle.validateAll bound seconds window (fs.map Fault.toHandle) =
        .ok () ↔ validateFaults bound seconds window fs = .ok () := by
  induction fs with
  | nil => exact ⟨fun _ => rfl, fun _ => rfl⟩
  | cons f fs ih =>
      constructor
      · intro h
        obtain ⟨hf, hfs⟩ := FaultHandle.validateAll_cons h
        simp only [validateFaults, bind, Except.bind,
          (validate_toHandle f).mp hf, ih.mp hfs]
      · intro h
        obtain ⟨hf, hfs⟩ := validateFaults_cons h
        simp only [List.map_cons, FaultHandle.validateAll, bind, Except.bind,
          (validate_toHandle f).mpr hf, ih.mpr hfs]

theorem groupSets_ofGroup (groups : List (Finset Address)) :
    FaultHandle.groupSets (FaultHandle.spentGroups
      (.tuple (groups.map PyVal.ofGroup))) = .ok groups := by
  have hmap : (groups.map PyVal.ofGroup).map PyVal.spent =
      groups.map PyVal.ofGroup := by
    rw [List.map_map]
    rfl
  have hsets : ((groups.map PyVal.ofGroup).mapM FaultHandle.addressSet :
      Except PyExc _) = .ok groups := by
    clear hmap
    induction groups with
    | nil => rfl
    | cons g groups ih =>
        rw [List.map_cons, List.mapM_cons, PyVal.addressSet_ofGroup, ih]
        rfl
  simp only [FaultHandle.spentGroups, FaultHandle.groupSets, PyVal.iterate,
    hmap, hsets]

theorem Fault.toHandle_adds (f : Fault) : f.toHandle.adds = none := by
  cases f with
  | crash node at_ => cases at_ <;> rfl
  | _ => rfl

namespace Net

variable {ρ μ υ : Type} [Random ρ]

theorem commitHandle_toHandle (s : Net ρ μ υ) (fuel : ℕ) (now window : ℚ)
    (f : Fault) : s.commitHandle fuel now window f.toHandle =
      (s.commitFault fuel now window f).map fun x => (x.1, liftApi x.2) := by
  cases f with
  | partition groups =>
      cases groups with
      | nil =>
          have hfalse : (PyVal.tuple (([] : List (Finset Address)).map
              PyVal.ofGroup)).truthy = .ok false := rfl
          simp only [commitHandle, resolveHandle, Fault.toHandle, resolveSplit,
            commitFault, resolve, hfalse, Option.map_map]
          rfl
      | cons g groups =>
          have htrue : (PyVal.tuple ((g :: groups).map PyVal.ofGroup)).truthy =
              .ok true := rfl
          simp only [commitHandle, resolveHandle, Fault.toHandle, resolveSplit,
            commitFault, resolve, htrue, groupSets_ofGroup]
          rfl
  | slowLink a b factor =>
      simp only [commitHandle, resolveHandle, Fault.toHandle, commitFault,
        resolve, PyVal.address?_ofAddress, PyVal.num?_ofNum]
      rcases s.resolveSlowLink a b factor window with ⟨t, _ | r⟩ <;> rfl
  | crash node at_ =>
      have hadds := (Fault.crash node at_).toHandle_adds
      simp only [Fault.toHandle] at hadds
      simp only [commitHandle, resolveHandle, Fault.toHandle, commitFault,
        resolve, PyVal.address?_ofAddress, PyVal.num?_ofNum, hadds]
      rcases s.resolveCrash node at_ window with ⟨t, _ | r⟩ <;> rfl

theorem commitHandles_toHandle (s : Net ρ μ υ) (fuel : ℕ) (window : ℚ)
    (fs : List Fault) : s.commitHandles fuel window (fs.map Fault.toHandle) =
      (s.commitFaults fuel window fs).map fun x => (x.1, liftApi x.2) := by
  induction fs generalizing s with
  | nil => rfl
  | cons f fs ih =>
      simp only [List.map_cons, commitHandles, commitFaults,
        commitHandle_toHandle]
      rcases s.commitFault fuel s.loop.time window f with _ | ⟨t, _ | _⟩
      · rfl
      · rfl
      · exact ih t

/-- A list of handles of the declared types does what `runFor` says. -/
theorem runForHandles_toHandle (s t : Net ρ μ υ) (fuel : ℕ) (seconds : Num)
    (fs : List Fault) (k : υ) :
    s.runForHandles fuel seconds (fs.map Fault.toHandle) k = some (t, .ok ()) ↔
      s.runFor fuel seconds fs k = some (t, .ok ()) := by
  unfold runForHandles runFor prepareHandles prepareRunFor
  cases checkSeconds seconds with
  | error e => simp
  | ok window =>
      have hval : FaultHandle.validateAll s.boundAddresses seconds window
            (fs.map Fault.toHandle) = .ok () ↔
          validateFaults s.boundAddresses seconds window fs = .ok () :=
        validateAll_toHandle fs
      simp only [commitHandles_toHandle]
      cases hv : validateFaults s.boundAddresses seconds window fs with
      | error e =>
          cases hv' : FaultHandle.validateAll s.boundAddresses seconds window
              (fs.map Fault.toHandle) with
          | error e' => simp
          | ok _ => exact absurd (hv.symm.trans (hval.mp hv')) (by simp)
      | ok _ =>
          rw [hval.mpr hv]
          rcases s.commitFaults fuel window fs with _ | ⟨u, _ | _⟩
          · simp
          · simp [liftApi]
          · simp [liftApi]
end Net

end Seedloop
