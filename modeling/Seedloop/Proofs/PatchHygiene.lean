import Mathlib.Data.List.Nodup
import Seedloop.Ref.Patch

/-!
# Patched names are given back

A name that is bound to a wrapper leads somewhere: to the original that the
wrapper's context read, and if that is the wrapper of a context further out, to
what that one read, and so on. Where it leads does not change when a context is
entered, when one installs its wrapper over what it read, or when one puts back
what it read — that is all these steps are made for. So what a name leads to is
the last thing other code bound it to, and when no context is open it is bound
to that.

The step that can break this is an install over something other than what was
read. That takes other code that rebinds the name in the gap between the two,
and what it put there is then lost.
-/

namespace Seedloop

namespace Patch

/-! ## The steps of one name -/

/-- What is left to do for a name. -/
def Frame.todoOn (f : Frame) (n : Name) : List EntryStep :=
  f.todo.filter fun x => x.name = n

theorem filter_flatMap (names : List Name) (hd : names.Nodup) (n : Name) :
    (names.flatMap fun name =>
        [EntryStep.read name, .register name, .install name]).filter
        (fun x => x.name = n) =
      if n ∈ names then [.read n, .register n, .install n] else [] := by
  induction names with
  | nil => rfl
  | cons m names ih =>
      rw [List.nodup_cons] at hd
      rw [List.flatMap_cons, List.filter_append, ih hd.2]
      by_cases hm : m = n
      · subst hm
        simp [EntryStep.name, hd.1]
      · have hnm : n ≠ m := fun h => hm h.symm
        simp [EntryStep.name, hm, hnm]

theorem names_nodup (has : Name → Bool) (c : Context) :
    (c.names has).Nodup := by
  have hall : (realTime ++ [osUrandom, randomUrandom] ++ randomFuncs ++
      currentTimeFuncs ++ [threadStart]).Nodup := by decide +kernel
  cases c with
  | csprngShim =>
      show [osUrandom, randomUrandom].Nodup
      decide
  | auditMode =>
      refine hall.sublist ?_
      simp only [Context.names, entropySurfaces]
      exact (((List.filter_sublist.append (.refl _)).append
        List.filter_sublist).append List.filter_sublist).append (.refl _)

/-- A context reads, registers and installs each of its names once, in that
order. -/
theorem entry_filter (has : Name → Bool) (c : Context) (n : Name) :
    (c.entry has).filter (fun x => x.name = n) =
      if n ∈ c.names has then [.read n, .register n, .install n] else [] := by
  cases c with
  | auditMode => exact filter_flatMap _ (names_nodup has .auditMode) n
  | csprngShim =>
      show [EntryStep.read osUrandom, .read randomUrandom, .register osUrandom,
          .register randomUrandom, .install osUrandom,
          .install randomUrandom].filter (fun x => x.name = n) =
        if n ∈ [osUrandom, randomUrandom] then _ else _
      by_cases hos : osUrandom = n
      · subst hos
        decide
      · by_cases hrandom : randomUrandom = n
        · subst hrandom
          decide
        · have hos' : n ≠ osUrandom := fun h => hos h.symm
          have hrandom' : n ≠ randomUrandom := fun h => hrandom h.symm
          simp [EntryStep.name, hos, hrandom, hos', hrandom']

theorem unique_of_nodup {undo : List (Name × Obj)} {n : Name} {o o' : Obj}
    (hd : (undo.map Prod.fst).Nodup) (ho : (n, o) ∈ undo)
    (ho' : (n, o') ∈ undo) : o = o' := by
  have h := List.inj_on_of_nodup_map hd ho ho' rfl
  exact (Prod.ext_iff.mp h).2

/-! ## Where a name leads -/

/-- Following the originals from `v` down the open contexts, one gets to
`w`. -/
def Leads (n : Name) (w : Obj) : List Frame → Obj → Prop
  | [], v => v = w
  | f :: fs, v => v = w ∨
      if v = .wrapper f.ctx n then ∃ o, (n, o) ∈ f.undo ∧ Leads n w fs o
      else Leads n w fs v

theorem Leads.self (n : Name) (w : Obj) (fs : List Frame) : Leads n w fs w := by
  cases fs with
  | nil => rfl
  | cons f fs => exact .inl rfl

/-- A wrapper leads nowhere but through its own context. -/
theorem Leads.wrapper {n : Name} {w : Obj} {fs : List Frame} {c : ℕ}
    (h : Leads n w fs (.wrapper c n)) :
    w = .wrapper c n ∨ ∃ f ∈ fs, f.ctx = c := by
  induction fs with
  | nil => exact .inl h.symm
  | cons f fs ih =>
      rcases h with h | h
      · exact .inl h.symm
      · split at h
        · next heq =>
          rw [Obj.wrapper.injEq] at heq
          exact .inr ⟨f, List.mem_cons_self, heq.1.symm⟩
        · rcases ih h with h | ⟨g, hg, hc⟩
          · exact .inl h
          · exact .inr ⟨g, List.mem_cons_of_mem _ hg, hc⟩

/-- A context in which the name is not registered changes nothing. -/
theorem Leads.cons {n : Name} {w v : Obj} {f : Frame} {fs : List Frame}
    (hctx : ∀ g ∈ fs, g.ctx < f.ctx) (h : Leads n w fs v) :
    Leads n w (f :: fs) v := by
  by_cases hv : v = .wrapper f.ctx n
  · subst hv
    rcases h.wrapper with h | ⟨g, hg, hc⟩
    · exact .inl h.symm
    · have := hctx g hg
      omega
  · refine .inr ?_
    rw [if_neg hv]
    exact h

/-- What counts of a context is what it has registered for the name. -/
theorem Leads.congr {n : Name} {w v : Obj} {f f' : Frame} {fs : List Frame}
    (hctx : f'.ctx = f.ctx)
    (hundo : ∀ o, (n, o) ∈ f.undo → (n, o) ∈ f'.undo)
    (h : Leads n w (f :: fs) v) : Leads n w (f' :: fs) v := by
  rcases h with h | h
  · exact .inl h
  · refine .inr ?_
    rw [hctx]
    split at h
    · next hv =>
      obtain ⟨o, ho, hrest⟩ := h
      rw [if_pos hv]
      exact ⟨o, hundo o ho, hrest⟩
    · next hv =>
      rw [if_neg hv]
      exact h

/-- Installing a wrapper over what is registered for the name. -/
theorem Leads.install {n : Name} {w v : Obj} {f : Frame} {fs : List Frame}
    (hundo : (n, v) ∈ f.undo) (hnodup : (f.undo.map Prod.fst).Nodup)
    (h : Leads n w (f :: fs) v) :
    Leads n w (f :: fs) (.wrapper f.ctx n) := by
  refine .inr ?_
  rw [if_pos rfl]
  refine ⟨v, hundo, ?_⟩
  rcases h with rfl | h
  · exact .self n v fs
  · split at h
    · obtain ⟨o, ho, hrest⟩ := h
      rwa [unique_of_nodup hnodup hundo ho]
    · exact h

/-- Putting back what is registered, if the wrapper is still there. -/
theorem Leads.restore {n : Name} {w v o : Obj} {f : Frame} {fs : List Frame}
    {undo : List (Name × Obj)} (hctx : ∀ g ∈ fs, g.ctx < f.ctx)
    (hundo : f.undo = (n, o) :: undo)
    (hnodup : (f.undo.map Prod.fst).Nodup) (hw : w ≠ .wrapper f.ctx n)
    (h : Leads n w (f :: fs) v) :
    Leads n w ({ f with undo := undo } :: fs)
      (if v = .wrapper f.ctx n then o else v) := by
  refine .cons hctx ?_
  rcases h with rfl | h
  · rw [if_neg hw]
    exact .self n v fs
  · split at h
    · next hv =>
      obtain ⟨o', ho', hrest⟩ := h
      rw [if_pos hv]
      have ho : (n, o) ∈ f.undo := by
        rw [hundo]
        exact List.mem_cons_self
      rwa [unique_of_nodup hnodup ho ho']
    · next hv =>
      rwa [if_neg hv]

/-- A context that has put everything back is not needed any more. -/
theorem Leads.pop {n : Name} {w v : Obj} {f : Frame} {fs : List Frame}
    (hundo : f.undo = []) (h : Leads n w (f :: fs) v) : Leads n w fs v := by
  rcases h with rfl | h
  · exact .self n v fs
  · split at h
    · obtain ⟨o, ho, -⟩ := h
      rw [hundo] at ho
      cases ho
    · exact h

/-- Contexts that have not registered the name lead nowhere. -/
theorem Leads.eq_of_not_registered {n : Name} {w v : Obj} {fs : List Frame}
    (hfs : ∀ f ∈ fs, n ∉ f.undo.map Prod.fst) (h : Leads n w fs v) :
    v = w := by
  induction fs with
  | nil => exact h
  | cons f fs ih =>
      rcases h with h | h
      · exact h
      · split at h
        · obtain ⟨o, ho, -⟩ := h
          exact absurd (List.mem_map_of_mem ho)
            (hfs f List.mem_cons_self)
        · exact ih (fun g hg => hfs g (List.mem_cons_of_mem _ hg)) h

/-! ## What one step does to the innermost context -/

/-- A step of the innermost context, and what it does to the bindings. -/
inductive Move (f : Frame) (b : Name → Obj) :
    Patches.Act → Frame → (Name → Obj) → Prop
  | read (name : Name) (todo : List EntryStep) (hexiting : f.exiting = false)
      (htodo : f.todo = .read name :: todo) :
      Move f b .advance
        { f with
          todo := todo
          saved := Function.update f.saved name (some (b name)) } b
  | register (name : Name) (todo : List EntryStep) (o : Obj)
      (hexiting : f.exiting = false) (htodo : f.todo = .register name :: todo)
      (hsaved : f.saved name = some o) :
      Move f b .advance { f with todo := todo, undo := (name, o) :: f.undo } b
  | install (name : Name) (todo : List EntryStep) (hexiting : f.exiting = false)
      (htodo : f.todo = .install name :: todo) :
      Move f b .advance { f with todo := todo }
        (Function.update b name (.wrapper f.ctx name))
  | unwind (a : Patches.Act) (ha : a = .leave ∨ a = .raise) :
      Move f b a { f with todo := [], exiting := true } b
  | restore (name : Name) (o : Obj) (undo : List (Name × Obj))
      (hexiting : f.exiting = true) (hundo : f.undo = (name, o) :: undo) :
      Move f b .restore { f with undo := undo }
        (Function.update b name
          (if b name = .wrapper f.ctx name then o else b name))

theorem Move.ctx_eq {f f' : Frame} {a : Patches.Act}
    {b b' : Name → Obj} (h : Move f b a f' b') :
    f'.ctx = f.ctx := by
  cases h <;> rfl

theorem Move.context_eq {f f' : Frame} {a : Patches.Act}
    {b b' : Name → Obj}
    (h : Move f b a f' b') : f'.context = f.context := by
  cases h <;> rfl

/-- Only an exit makes a context one that exits. -/
theorem Move.exiting_of {f f' : Frame} {a : Patches.Act}
    {b b' : Name → Obj}
    (h : Move f b a f' b') (hf' : f'.exiting = false) : f.exiting = false := by
  cases h with
  | unwind a ha => cases hf'
  | _ => exact hf'

theorem todoOn_head {f : Frame} {x : EntryStep} {todo : List EntryStep}
    (h : f.todo = x :: todo) :
    f.todoOn x.name = x :: { f with todo := todo }.todoOn x.name := by
  rw [Frame.todoOn, h, List.filter_cons_of_pos (by simp)]
  rfl

theorem todoOn_tail {f : Frame} {x : EntryStep} {todo : List EntryStep}
    {n : Name} (h : f.todo = x :: todo) (hn : x.name ≠ n) :
    f.todoOn n = { f with todo := todo }.todoOn n := by
  rw [Frame.todoOn, h, List.filter_cons_of_neg (by simp [hn])]
  rfl

/-! ## How far a context has got -/

/-- How far a context has got with a name, as long as it is not unwinding. -/
inductive Frame.Stage (has : Name → Bool) (f : Frame) (n : Name) : Prop
  | toRead (hn : n ∈ f.context.names has)
      (htodo : f.todoOn n = [.read n, .register n, .install n])
      (hundo : n ∉ f.undo.map Prod.fst)
  | toRegister (hn : n ∈ f.context.names has)
      (htodo : f.todoOn n = [.register n, .install n])
      (hundo : n ∉ f.undo.map Prod.fst)
  | toInstall (hn : n ∈ f.context.names has)
      (htodo : f.todoOn n = [.install n]) (o : Obj)
      (hsaved : f.saved n = some o) (hundo : (n, o) ∈ f.undo)
  | installed (hn : n ∈ f.context.names has) (htodo : f.todoOn n = [])
      (hundo : n ∈ f.undo.map Prod.fst)
  | foreign (hn : n ∉ f.context.names has) (htodo : f.todoOn n = [])
      (hundo : n ∉ f.undo.map Prod.fst)

theorem Frame.stage_enter (has : Name → Bool) (ctx : ℕ) (c : Context)
    (n : Name) :
    Frame.Stage has ⟨ctx, c, c.entry has, fun _ => none, [], false⟩ n := by
  have hentry := entry_filter has c n
  by_cases hn : n ∈ c.names has
  · rw [if_pos hn] at hentry
    exact .toRead hn hentry (by simp)
  · rw [if_neg hn] at hentry
    exact .foreign hn hentry (by simp)

/-- How far it has got with one name, the steps on another do not touch. -/
theorem Frame.Stage.congr {has : Name → Bool} {f f' : Frame} {n : Name}
    (h : f.Stage has n) (hcontext : f'.context = f.context)
    (htodo' : f'.todoOn n = f.todoOn n) (hsaved' : f'.saved n = f.saved n)
    (hundo' : ∀ o, (n, o) ∈ f'.undo ↔ (n, o) ∈ f.undo) : f'.Stage has n := by
  have hkeys : n ∈ f'.undo.map Prod.fst ↔ n ∈ f.undo.map Prod.fst := by
    simp [hundo']
  cases h with
  | toRead hn htodo hundo =>
      exact .toRead (hcontext ▸ hn) (htodo'.trans htodo) (hkeys.not.mpr hundo)
  | toRegister hn htodo hundo =>
      exact .toRegister (hcontext ▸ hn) (htodo'.trans htodo)
        (hkeys.not.mpr hundo)
  | toInstall hn htodo o hsaved hundo =>
      exact .toInstall (hcontext ▸ hn) (htodo'.trans htodo) o
        (hsaved'.trans hsaved) ((hundo' o).mpr hundo)
  | installed hn htodo hundo =>
      exact .installed (hcontext ▸ hn) (htodo'.trans htodo) (hkeys.mpr hundo)
  | foreign hn htodo hundo =>
      exact .foreign (hcontext ▸ hn) (htodo'.trans htodo)
        (hkeys.not.mpr hundo)

theorem Move.stage {has : Name → Bool} {f f' : Frame} {a : Patches.Act}
    {b b' : Name → Obj}
    (h : Move f b a f' b') (hf : f.exiting = true ∨ ∀ n, f.Stage has n) :
    f'.exiting = true ∨ ∀ n, f'.Stage has n := by
  cases h with
  | unwind a ha => exact .inl rfl
  | restore name o undo hexiting hundo => exact .inl hexiting
  | read name todo hexiting htodo =>
      refine .inr fun n => ?_
      have hstage := hf.resolve_left (by simp [hexiting])
      by_cases heq : name = n
      · subst heq
        have hhead := todoOn_head htodo
        cases hstage name with
        | toRead hn ht hu =>
            rw [EntryStep.name, ht, List.cons.injEq] at hhead
            exact .toRegister hn hhead.2.symm hu
        | _ hn ht _ =>
            rw [EntryStep.name, ht] at hhead
            cases hhead
      · exact (hstage n).congr rfl (todoOn_tail htodo heq).symm
          (Function.update_of_ne (Ne.symm heq) _ _) fun _ => Iff.rfl
  | register name todo o hexiting htodo hsaved =>
      refine .inr fun n => ?_
      have hstage := hf.resolve_left (by simp [hexiting])
      by_cases heq : name = n
      · subst heq
        have hhead := todoOn_head htodo
        cases hstage name with
        | toRegister hn ht hu =>
            rw [EntryStep.name, ht, List.cons.injEq] at hhead
            exact .toInstall hn hhead.2.symm o hsaved List.mem_cons_self
        | _ hn ht _ =>
            rw [EntryStep.name, ht] at hhead
            cases hhead
      · refine (hstage n).congr rfl (todoOn_tail htodo heq).symm rfl fun o' => ?_
        simp [Ne.symm heq]
  | install name todo hexiting htodo =>
      refine .inr fun n => ?_
      have hstage := hf.resolve_left (by simp [hexiting])
      by_cases heq : name = n
      · subst heq
        have hhead := todoOn_head htodo
        cases hstage name with
        | toInstall hn ht o hsaved hu =>
            rw [EntryStep.name, ht, List.cons.injEq] at hhead
            exact .installed hn hhead.2.symm (List.mem_map_of_mem hu)
        | _ hn ht _ =>
            rw [EntryStep.name, ht] at hhead
            cases hhead
      · exact (hstage n).congr rfl (todoOn_tail htodo heq).symm rfl
          fun _ => Iff.rfl

/-- Nothing is registered twice. -/
theorem Move.nodup {has : Name → Bool} {f f' : Frame} {a : Patches.Act}
    {b b' : Name → Obj}
    (h : Move f b a f' b') (hf : f.exiting = true ∨ ∀ n, f.Stage has n)
    (hnodup : (f.undo.map Prod.fst).Nodup) :
    (f'.undo.map Prod.fst).Nodup := by
  cases h with
  | read name todo hexiting htodo => exact hnodup
  | install name todo hexiting htodo => exact hnodup
  | unwind a ha => exact hnodup
  | restore name o undo hexiting hundo =>
      rw [hundo] at hnodup
      exact (List.nodup_cons.mp hnodup).2
  | register name todo o hexiting htodo hsaved =>
      have hstage := hf.resolve_left (by simp [hexiting])
      have hhead := todoOn_head htodo
      refine List.nodup_cons.mpr ⟨?_, hnodup⟩
      cases hstage name with
      | toRegister hn ht hu => exact hu
      | _ hn ht _ =>
          rw [EntryStep.name, ht] at hhead
          cases hhead

theorem Move.exiting_of_advance {f f' : Frame} {b b' : Name → Obj}
    (h : Move f b .advance f' b') : f.exiting = false := by
  cases h with
  | unwind a ha => rcases ha with ha | ha <;> cases ha
  | _ => assumption

/-- A context is done with a name when it has installed its wrapper. -/
theorem Move.installed {has : Name → Bool} {f f' : Frame} {a : Patches.Act}
    {b b' : Name → Obj} {n : Name} (h : Move f b a f' b')
    (hf : f.exiting = true ∨ ∀ n, f.Stage has n)
    (hexiting' : f'.exiting = false) (htodo' : f'.todoOn n = []) :
    b' n = .wrapper f.ctx n ∨ b' n = b n ∧ f.todoOn n = [] := by
  cases h with
  | unwind a ha => cases hexiting'
  | restore name o undo hexiting hundo =>
      rw [hexiting] at hexiting'
      cases hexiting'
  | read name todo hexiting htodo =>
      by_cases heq : name = n
      · subst heq
        have hhead : f.todoOn name = [.read name] :=
          (todoOn_head htodo).trans (congrArg _ htodo')
        cases hf.resolve_left (by simp [hexiting]) name with
        | _ hn ht _ =>
            rw [ht] at hhead
            cases hhead
      · exact .inr ⟨rfl, (todoOn_tail htodo heq).trans htodo'⟩
  | register name todo o hexiting htodo hsaved =>
      by_cases heq : name = n
      · subst heq
        have hhead : f.todoOn name = [.register name] :=
          (todoOn_head htodo).trans (congrArg _ htodo')
        cases hf.resolve_left (by simp [hexiting]) name with
        | _ hn ht _ =>
            rw [ht] at hhead
            cases hhead
      · exact .inr ⟨rfl, (todoOn_tail htodo heq).trans htodo'⟩
  | install name todo hexiting htodo =>
      by_cases heq : name = n
      · subst heq
        exact .inl (Function.update_self _ _ _)
      · exact .inr ⟨Function.update_of_ne (Ne.symm heq) _ _,
          (todoOn_tail htodo heq).trans htodo'⟩

end Patch

namespace Patches

open Patch

/-- What a step can do. -/
inductive Moved (has : Name → Bool) (s t : Patches) : Act → Prop
  | enter (context : Context)
      (hbelow : ∀ f ∈ s.frames.head?, f.inBody = true)
      (hframes : t.frames = ⟨s.nextCtx, context, context.entry has,
        fun _ => none, [], false⟩ :: s.frames)
      (hctx : t.nextCtx = s.nextCtx + 1) (hbinding : t.binding = s.binding) :
      Moved has s t (.enter context)
  | move (a : Act) (f f' : Frame) (fs : List Frame)
      (hf : s.frames = f :: fs) (hf' : t.frames = f' :: fs)
      (hctx : t.nextCtx = s.nextCtx)
      (hmove : Move f s.binding a f' t.binding) : Moved has s t a
  | pop (f : Frame) (hexiting : f.exiting = true) (hundo : f.undo = [])
      (hf : s.frames = f :: t.frames) (hctx : t.nextCtx = s.nextCtx)
      (hbinding : t.binding = s.binding) : Moved has s t .pop
  | rebind (name : Name) (k : ℕ) (hframes : t.frames = s.frames)
      (hctx : t.nextCtx = s.nextCtx)
      (hbinding : t.binding = Function.update s.binding name (.other k)) :
      Moved has s t (.rebind name k)

theorem moved {has : Name → Bool} {s t : Patches} {a : Act}
    (h : s.step has a = some t) : Moved has s t a := by
  cases a with
  | rebind name k =>
      rw [step, Option.some.injEq] at h
      subst h
      exact .rebind name k rfl rfl rfl
  | enter context =>
      rw [step] at h
      split at h
      · next hbelow =>
        rw [Option.some.injEq] at h
        subst h
        refine .enter context (fun f hf => ?_) rfl rfl rfl
        rw [Option.mem_def] at hf
        rw [hf] at hbelow
        exact hbelow
      · cases h
  | advance =>
      rw [step] at h
      split at h
      · cases h
      · next f fs hf =>
        split at h
        · cases h
        · next hexiting =>
          rw [Bool.not_eq_true] at hexiting
          split at h
          · cases h
          · next x todo htodo =>
            cases x with
            | read name =>
                rw [enterStep, Option.some.injEq] at h
                subst h
                exact .move _ f _ fs hf rfl rfl
                  (.read name todo hexiting htodo)
            | register name =>
                rw [enterStep, Option.map_eq_some_iff] at h
                obtain ⟨o, ho, rfl⟩ := h
                exact .move _ f _ fs hf rfl rfl
                  (.register name todo o hexiting htodo ho)
            | install name =>
                rw [enterStep, Option.some.injEq] at h
                subst h
                exact .move _ f _ fs hf rfl rfl
                  (.install name todo hexiting htodo)
  | leave =>
      rw [step] at h
      split at h
      · cases h
      · next f fs hf =>
        split at h
        · next hbody =>
          rw [Option.some.injEq] at h
          subst h
          have htodo : f.todo = [] := by
            rw [Frame.inBody, Bool.and_eq_true, List.isEmpty_iff] at hbody
            exact hbody.1
          have hmove := Move.unwind (f := f) (b := s.binding) .leave
            (.inl rfl)
          rw [← htodo] at hmove
          exact .move _ f _ fs hf rfl rfl hmove
        · cases h
  | raise =>
      rw [step] at h
      split at h
      · cases h
      · next f fs hf =>
        rw [Option.some.injEq] at h
        subst h
        exact .move _ f _ fs hf rfl rfl (.unwind .raise (.inr rfl))
  | restore =>
      rw [step] at h
      split at h
      · cases h
      · next f fs hf =>
        split at h
        · next hexiting =>
          split at h
          · cases h
          · next name o undo hundo =>
            rw [Option.some.injEq] at h
            subst h
            refine .move _ f { f with undo := undo } fs hf ?_ ?_ ?_
            · simp only [restoreIfOurs]
              split <;> rfl
            · simp only [restoreIfOurs]
              split <;> rfl
            · have hmove := Move.restore (b := s.binding) name o undo hexiting
                hundo
              simp only [restoreIfOurs]
              split
              · next heq =>
                rwa [if_pos heq] at hmove
              · next heq =>
                rwa [if_neg heq, Function.update_eq_self] at hmove
        · cases h
  | pop =>
      rw [step] at h
      split at h
      · cases h
      · next f fs hf =>
        split at h
        · next hpop =>
          rw [Bool.and_eq_true, List.isEmpty_iff] at hpop
          rw [Option.some.injEq] at h
          subst h
          exact .pop f hpop.1 hpop.2 hf rfl rfl
        · cases h

/-- The open contexts are numbered upwards, and all but the innermost are in
their bodies. -/
structure Wf (has : Name → Bool) (s : Patches) : Prop where
  ctx_lt : ∀ f ∈ s.frames, f.ctx < s.nextCtx
  ctx_desc : s.frames.Pairwise fun f g => g.ctx < f.ctx
  below : ∀ f ∈ s.frames.tail, f.inBody = true
  nodup : ∀ f ∈ s.frames, (f.undo.map Prod.fst).Nodup
  stage : ∀ f ∈ s.frames, f.exiting = true ∨ ∀ n, f.Stage has n

theorem init_wf (has : Name → Bool) (b : Name → ℕ) : Wf has (init b) := by
  constructor
  all_goals simp [init]

theorem Wf.step {has : Name → Bool} {s t : Patches} {a : Act}
    (hwf : Wf has s) (h : s.step has a = some t) : Wf has t := by
  cases moved h with
  | rebind name k hframes hctx hbinding =>
      constructor
      · rw [hframes, hctx]
        exact hwf.ctx_lt
      · rw [hframes]
        exact hwf.ctx_desc
      · rw [hframes]
        exact hwf.below
      · rw [hframes]
        exact hwf.nodup
      · rw [hframes]
        exact hwf.stage
  | pop f hexiting hundo hf hctx hbinding =>
      obtain ⟨hlt, hdesc, hbelow, hnodup, hstage⟩ := hwf
      rw [hf] at hlt hdesc hbelow hnodup hstage
      constructor
      · intro g hg
        rw [hctx]
        exact hlt g (List.mem_cons_of_mem _ hg)
      · exact (List.pairwise_cons.mp hdesc).2
      · exact fun g hg => hbelow g (List.mem_of_mem_tail hg)
      · exact fun g hg => hnodup g (List.mem_cons_of_mem _ hg)
      · exact fun g hg => hstage g (List.mem_cons_of_mem _ hg)
  | enter context hbelow hframes hctx hbinding =>
      constructor
      · intro g hg
        rw [hframes] at hg
        rw [hctx]
        rcases List.mem_cons.mp hg with rfl | hg
        · exact Nat.lt_succ_self _
        · exact Nat.lt_succ_of_lt (hwf.ctx_lt g hg)
      · rw [hframes]
        exact List.pairwise_cons.mpr ⟨hwf.ctx_lt, hwf.ctx_desc⟩
      · intro g hg
        rw [hframes, List.tail_cons] at hg
        cases hs : s.frames with
        | nil =>
            rw [hs] at hg
            cases hg
        | cons f fs =>
            rw [hs] at hg hbelow
            rcases List.mem_cons.mp hg with rfl | hg
            · exact hbelow g rfl
            · refine hwf.below g ?_
              rw [hs]
              exact hg
      · intro g hg
        rw [hframes] at hg
        rcases List.mem_cons.mp hg with rfl | hg
        · exact List.nodup_nil
        · exact hwf.nodup g hg
      · intro g hg
        rw [hframes] at hg
        rcases List.mem_cons.mp hg with rfl | hg
        · exact .inr (Frame.stage_enter has _ context)
        · exact hwf.stage g hg
  | move a f f' fs hf hf' hctx hmove =>
      obtain ⟨hlt, hdesc, hbelow, hnodup, hstage⟩ := hwf
      rw [hf] at hlt hdesc hbelow hnodup hstage
      have hstage' := hstage f List.mem_cons_self
      constructor
      · intro g hg
        rw [hf'] at hg
        rw [hctx]
        rcases List.mem_cons.mp hg with rfl | hg
        · rw [hmove.ctx_eq]
          exact hlt f List.mem_cons_self
        · exact hlt g (List.mem_cons_of_mem _ hg)
      · rw [hf', List.pairwise_cons, hmove.ctx_eq]
        exact List.pairwise_cons.mp hdesc
      · rw [hf']
        exact hbelow
      · intro g hg
        rw [hf'] at hg
        rcases List.mem_cons.mp hg with rfl | hg
        · exact hmove.nodup hstage' (hnodup f List.mem_cons_self)
        · exact hnodup g (List.mem_cons_of_mem _ hg)
      · intro g hg
        rw [hf'] at hg
        rcases List.mem_cons.mp hg with rfl | hg
        · exact hmove.stage hstage'
        · exact hstage g (List.mem_cons_of_mem _ hg)

/-! ## What a name leads to, step by step -/

/-- Where a name leads, no step of the innermost context changes, but an
install over something other than what was read. -/
theorem leads_move {has : Name → Bool} {f f' : Frame} {fs : List Frame}
    {a : Act} {b b' : Name → Obj} {n : Name} {w : Obj}
    (hmove : Move f b a f' b') (hctx : ∀ g ∈ fs, g.ctx < f.ctx)
    (hstage : f.exiting = true ∨ ∀ n, f.Stage has n)
    (hnodup : (f.undo.map Prod.fst).Nodup) (hw : w ≠ .wrapper f.ctx n)
    (hread : a = .advance → f.exiting = false →
      f.todo.head? = some (.install n) → f.saved n = some (b n))
    (h : Leads n w (f :: fs) (b n)) : Leads n w (f' :: fs) (b' n) := by
  cases hmove with
  | read name todo hexiting htodo =>
      exact Leads.congr (f := f) rfl (fun _ ho => ho) h
  | register name todo o hexiting htodo hsaved =>
      exact Leads.congr (f := f) rfl
        (fun _ ho => List.mem_cons_of_mem _ ho) h
  | unwind a ha => exact Leads.congr (f := f) rfl (fun _ ho => ho) h
  | install name todo hexiting htodo =>
      by_cases heq : n = name
      · subst heq
        rw [Function.update_self]
        have hsaved := hread rfl hexiting (by rw [htodo]; rfl)
        have hhead := todoOn_head htodo
        have hundo : (n, b n) ∈ f.undo := by
          cases hstage.resolve_left (by simp [hexiting]) n with
          | toInstall hn ht o ho hu =>
              rw [hsaved, Option.some.injEq] at ho
              rwa [ho]
          | _ hn ht _ =>
              rw [EntryStep.name, ht] at hhead
              cases hhead
        exact Leads.congr (f := f) rfl (fun _ ho => ho)
          (h.install hundo hnodup)
      · rw [Function.update_of_ne heq]
        exact Leads.congr (f := f) rfl (fun _ ho => ho) h
  | restore name o undo hexiting hundo =>
      by_cases heq : n = name
      · subst heq
        rw [Function.update_self]
        exact h.restore hctx hundo hnodup hw
      · rw [Function.update_of_ne heq]
        refine Leads.congr (f := f) rfl (fun o' ho' => ?_) h
        rw [hundo] at ho'
        rcases List.mem_cons.mp ho' with ho' | ho'
        · rw [Prod.mk.injEq] at ho'
          exact absurd ho'.1 heq
        · exact ho'

/-- What an install puts its wrapper over, where that is not what its context
has read. -/
def overwritten (n : Name) (s : Patches) : Act → List Obj
  | .advance =>
      match s.frames with
      | [] => []
      | f :: _ =>
          if f.todo.head? = some (.install n) ∧ f.saved n ≠ some (s.binding n)
          then [s.binding n]
          else []
  | _ => []

theorem overwritten_advance {n : Name} {s : Patches} {f : Frame}
    {fs : List Frame} (hf : s.frames = f :: fs) :
    overwritten n s .advance =
      if f.todo.head? = some (.install n) ∧ f.saved n ≠ some (s.binding n)
      then [s.binding n] else [] := by
  rw [overwritten, hf]

theorem leads_step {has : Name → Bool} {s t : Patches} {a : Act} {n : Name}
    {k : ℕ} (hwf : Wf has s) (h : s.step has a = some t)
    (ha : ∀ k, a ≠ .rebind n k) (hover : overwritten n s a = [])
    (hl : Leads n (.other k) s.frames (s.binding n)) :
    Leads n (.other k) t.frames (t.binding n) := by
  cases moved h with
  | rebind name k' hframes hctx hbinding =>
      have hne : n ≠ name := by
        rintro rfl
        exact ha k' rfl
      rwa [hframes, hbinding, Function.update_of_ne hne]
  | enter context hbelow hframes hctx hbinding =>
      rw [hframes, hbinding]
      exact hl.cons hwf.ctx_lt
  | pop f hexiting hundo hf hctx hbinding =>
      rw [hf] at hl
      rw [hbinding]
      exact hl.pop hundo
  | move a f f' fs hf hf' hctx hmove =>
      have hdesc := hwf.ctx_desc
      have hmem : f ∈ s.frames := by
        rw [hf]
        exact List.mem_cons_self
      rw [hf, List.pairwise_cons] at hdesc
      rw [hf] at hl
      rw [hf']
      refine leads_move hmove hdesc.1 (hwf.stage f hmem) (hwf.nodup f hmem)
        (by rintro ⟨⟩) ?_ hl
      rintro rfl - hhead
      -- What it would have put its wrapper over, was what it had read.
      by_contra hne
      rw [overwritten_advance hf, if_pos ⟨hhead, hne⟩] at hover
      cases hover

theorem leads_run {has : Name → Bool} {s t : Patches} {acts : List Act}
    {n : Name} {k : ℕ} (hwf : Wf has s)
    (h : Machine.run (step has) s acts = some t)
    (hacts : ∀ k, .rebind n k ∉ acts)
    (hover : Machine.outputs (step has) (overwritten n) s acts = [])
    (hl : Leads n (.other k) s.frames (s.binding n)) :
    Leads n (.other k) t.frames (t.binding n) := by
  induction acts generalizing s with
  | nil =>
      rw [Machine.run_nil, Option.some.injEq] at h
      rwa [← h]
  | cons a acts ih =>
      obtain ⟨r, hr, hrun⟩ := Machine.run_cons_eq_some.mp h
      rw [Machine.outputs_cons hr, List.append_eq_nil_iff] at hover
      have ha : ∀ k, a ≠ .rebind n k := by
        rintro k rfl
        exact hacts k List.mem_cons_self
      exact ih (hwf.step hr) hrun
        (fun k hk => hacts k (List.mem_cons_of_mem _ hk)) hover.2
        (leads_step hwf hr ha hover.1 hl)

/-! ## Without a rebinding -/

/-- What the contexts from `m` on have read of a name that they have not
replaced yet, it is still bound to. -/
def ReadHolds (n : Name) (m : ℕ) (s : Patches) : Prop :=
  ∀ f fs, s.frames = f :: fs → m ≤ f.ctx → f.exiting = false →
    f.todoOn n = [.register n, .install n] ∨ f.todoOn n = [.install n] →
    f.saved n = some (s.binding n)

theorem readHolds_move {has : Name → Bool} {f f' : Frame} {a : Act}
    {b b' : Name → Obj} {n : Name} (hmove : Move f b a f' b')
    (hstage : f.exiting = true ∨ ∀ n, f.Stage has n)
    (hexiting' : f'.exiting = false)
    (htodo' : f'.todoOn n = [.register n, .install n] ∨
      f'.todoOn n = [.install n])
    (h : f.exiting = false →
      f.todoOn n = [.register n, .install n] ∨ f.todoOn n = [.install n] →
      f.saved n = some (b n)) : f'.saved n = some (b' n) := by
  cases hmove with
  | unwind a ha => cases hexiting'
  | restore name o undo hexiting hundo =>
      rw [hexiting] at hexiting'
      cases hexiting'
  | read name todo hexiting htodo =>
      by_cases heq : n = name
      · subst heq
        exact Function.update_self _ _ _
      · refine (Function.update_of_ne heq _ _).trans (h hexiting ?_)
        rwa [todoOn_tail htodo (Ne.symm heq)]
  | register name todo o hexiting htodo hsaved =>
      refine h hexiting ?_
      by_cases heq : n = name
      · subst heq
        have hhead := todoOn_head htodo
        cases hstage.resolve_left (by simp [hexiting]) n with
        | toRegister hn ht hu => exact .inl ht
        | _ hn ht _ =>
            rw [EntryStep.name, ht] at hhead
            cases hhead
      · rwa [todoOn_tail htodo (Ne.symm heq)]
  | install name todo hexiting htodo =>
      by_cases heq : n = name
      · subst heq
        have hhead := todoOn_head htodo
        cases hstage.resolve_left (by simp [hexiting]) n with
        | toInstall hn ht o ho hu =>
            rw [EntryStep.name, ht, List.cons.injEq] at hhead
            rw [← hhead.2] at htodo'
            rcases htodo' with htodo' | htodo' <;> cases htodo'
        | _ hn ht _ =>
            rw [EntryStep.name, ht] at hhead
            cases hhead
      · rw [Function.update_of_ne heq]
        refine h hexiting ?_
        rwa [todoOn_tail htodo (Ne.symm heq)]

theorem todoOn_nil {f : Frame} (h : f.inBody = true) (n : Name) :
    f.todoOn n = [] := by
  rw [Frame.inBody, Bool.and_eq_true, List.isEmpty_iff] at h
  rw [Frame.todoOn, h.1]
  rfl

theorem ReadHolds.step {has : Name → Bool} {s t : Patches} {a : Act}
    {n : Name} {m : ℕ} (hwf : Wf has s) (h : s.step has a = some t)
    (ha : ∀ k, a ≠ .rebind n k) (hread : ReadHolds n m s) :
    ReadHolds n m t := by
  intro g gs hg hm hexiting htodo
  cases moved h with
  | rebind name k hframes hctx hbinding =>
      have hne : n ≠ name := by
        rintro rfl
        exact ha k rfl
      rw [hframes] at hg
      rw [hbinding, Function.update_of_ne hne]
      exact hread g gs hg hm hexiting htodo
  | enter context hbelow hframes hctx hbinding =>
      rw [hframes, List.cons.injEq] at hg
      obtain ⟨rfl, -⟩ := hg
      -- It has not read anything yet.
      rw [Frame.todoOn, entry_filter] at htodo
      split at htodo
      all_goals rcases htodo with htodo | htodo <;> cases htodo
  | pop f hexiting' hundo hf hctx hbinding =>
      have hbelow := hwf.below g (by rw [hf, hg]; exact List.mem_cons_self)
      rw [todoOn_nil hbelow] at htodo
      rcases htodo with htodo | htodo <;> cases htodo
  | move a f f' fs hf hf' hctx hmove =>
      rw [hf', List.cons.injEq] at hg
      obtain ⟨rfl, rfl⟩ := hg
      have hmem : f ∈ s.frames := by
        rw [hf]
        exact List.mem_cons_self
      rw [hmove.ctx_eq] at hm
      exact readHolds_move hmove (hwf.stage f hmem) hexiting htodo
        (hread f _ hf hm)

/-- A context reads a name before it replaces it. -/
theorem ReadHolds.of_head {has : Name → Bool} {s : Patches} {n : Name}
    {m : ℕ} {f : Frame} {fs : List Frame} (hwf : Wf has s)
    (hread : ReadHolds n m s) (hf : s.frames = f :: fs) (hm : m ≤ f.ctx)
    (hexiting : f.exiting = false)
    (hhead : f.todo.head? = some (.install n)) :
    f.saved n = some (s.binding n) := by
  refine hread f fs hf hm hexiting (.inr ?_)
  have hmem : f ∈ s.frames := by
    rw [hf]
    exact List.mem_cons_self
  obtain ⟨todo, htodo⟩ := List.head?_eq_some_iff.mp hhead
  have hhead := todoOn_head htodo
  cases (hwf.stage f hmem).resolve_left (by simp [hexiting]) n with
  | toInstall hn ht o hsaved hundo => exact ht
  | _ hn ht _ =>
      rw [EntryStep.name, ht] at hhead
      cases hhead

theorem ReadHolds.overwritten {has : Name → Bool} {s t : Patches} {a : Act}
    {n : Name} (hwf : Wf has s) (hread : ReadHolds n 0 s)
    (h : s.step has a = some t) : overwritten n s a = [] := by
  cases moved h with
  | enter => rfl
  | pop => rfl
  | rebind => rfl
  | move a f f' fs hf hf' hctx hmove =>
      cases a with
      | advance =>
          rw [overwritten_advance hf, if_neg]
          rintro ⟨hhead, hne⟩
          have hexiting : f.exiting = false := hmove.exiting_of_advance
          exact hne (hread.of_head hwf hf (Nat.zero_le _) hexiting hhead)
      | _ => rfl

/-- A context that has its wrapper installed is where the name leads in the
contexts inside it. -/
def InForce (has : Name → Bool) (n : Name) (m : ℕ) (s : Patches) : Prop :=
  ∀ front f back, s.frames = front ++ f :: back → m ≤ f.ctx →
    f.exiting = false → f.todoOn n = [] → n ∈ f.context.names has →
    Leads n (.wrapper f.ctx n) front (s.binding n)

theorem InForce.step {has : Name → Bool} {s t : Patches} {a : Act}
    {n : Name} {m : ℕ} (hwf : Wf has s) (h : s.step has a = some t)
    (ha : ∀ k, a ≠ .rebind n k) (hread : ReadHolds n m s)
    (hforce : InForce has n m s) : InForce has n m t := by
  intro front g back hg hm hexiting htodo hn
  cases moved h with
  | rebind name k hframes hctx hbinding =>
      have hne : n ≠ name := by
        rintro rfl
        exact ha k rfl
      rw [hframes] at hg
      rw [hbinding, Function.update_of_ne hne]
      exact hforce front g back hg hm hexiting htodo hn
  | pop f hexiting' hundo hf hctx hbinding =>
      have hf' : s.frames = (f :: front) ++ g :: back := by
        rw [hf, hg]
        rfl
      rw [hbinding]
      exact (hforce _ g back hf' hm hexiting htodo hn).pop hundo
  | enter context hbelow hframes hctx hbinding =>
      rw [hframes] at hg
      cases front with
      | nil =>
          rw [List.nil_append, List.cons.injEq] at hg
          obtain ⟨rfl, -⟩ := hg
          rw [Frame.todoOn, entry_filter, if_pos hn] at htodo
          cases htodo
      | cons f front =>
          rw [List.cons_append, List.cons.injEq] at hg
          obtain ⟨rfl, hs⟩ := hg
          rw [hbinding]
          refine (hforce front g back hs hm hexiting htodo hn).cons ?_
          intro f hf
          refine hwf.ctx_lt f ?_
          rw [hs]
          exact List.mem_append_left _ hf
  | move a f f' fs hf hf' hctx hmove =>
      rw [hf'] at hg
      have hmem : f ∈ s.frames := by
        rw [hf]
        exact List.mem_cons_self
      cases front with
      | nil =>
          rw [List.nil_append, List.cons.injEq] at hg
          obtain ⟨rfl, rfl⟩ := hg
          rw [hmove.ctx_eq] at hm ⊢
          rcases hmove.installed (hwf.stage f hmem) hexiting htodo with
            hnew | ⟨hold, htodo'⟩
          · exact hnew
          · rw [hold]
            exact hforce [] f _ hf hm (hmove.exiting_of hexiting) htodo'
              (hmove.context_eq ▸ hn)
      | cons x front =>
          rw [List.cons_append, List.cons.injEq] at hg
          obtain ⟨rfl, hs⟩ := hg
          have hdesc := hwf.ctx_desc
          rw [hf, List.pairwise_cons] at hdesc
          have hgf : g.ctx < f.ctx := hdesc.1 g (by rw [hs]; simp)
          have hfront : ∀ h ∈ front, h.ctx < f.ctx := fun h hh =>
            hdesc.1 h (by rw [hs]; exact List.mem_append_left _ hh)
          have hw : Obj.wrapper g.ctx n ≠ .wrapper f.ctx n := by
            rw [Ne, Obj.wrapper.injEq]
            omega
          refine leads_move hmove hfront (hwf.stage f hmem)
            (hwf.nodup f hmem) hw ?_
            (hforce (f :: front) g back (by rw [hf, hs]; rfl) hm hexiting
              htodo hn)
          intro _ hfexiting hhead
          exact hread.of_head hwf hf (by omega) hfexiting hhead

/-- What a run keeps in which other code leaves the name alone. -/
theorem force_run {has : Name → Bool} {s t : Patches} {acts : List Act}
    {n : Name} {m : ℕ} (hwf : Wf has s) (hread : ReadHolds n m s)
    (hforce : InForce has n m s)
    (h : Machine.run (step has) s acts = some t)
    (hacts : ∀ k, .rebind n k ∉ acts) :
    Wf has t ∧ ReadHolds n m t ∧ InForce has n m t := by
  induction acts generalizing s with
  | nil =>
      rw [Machine.run_nil, Option.some.injEq] at h
      subst h
      exact ⟨hwf, hread, hforce⟩
  | cons a acts ih =>
      obtain ⟨r, hr, hrun⟩ := Machine.run_cons_eq_some.mp h
      have ha : ∀ k, a ≠ .rebind n k := by
        rintro k rfl
        exact hacts k List.mem_cons_self
      exact ih (hwf.step hr) (hread.step hwf hr ha)
        (hforce.step hwf hr ha hread) hrun
        fun k hk => hacts k (List.mem_cons_of_mem _ hk)

/-! ## Runs -/

theorem run_wf {has : Name → Bool} {b : Name → ℕ} {s : Patches}
    {acts : List Act} (h : Machine.run (step has) (init b) acts = some s) :
    Wf has s :=
  Machine.run_invariant Wf.step (init_wf has b) h

theorem outputs_overwritten {has : Name → Bool} {s t : Patches}
    {acts : List Act} {n : Name} (hwf : Wf has s) (hread : ReadHolds n 0 s)
    (h : Machine.run (step has) s acts = some t)
    (hacts : ∀ k, .rebind n k ∉ acts) :
    Machine.outputs (step has) (overwritten n) s acts = [] := by
  induction acts generalizing s with
  | nil => rfl
  | cons a acts ih =>
      obtain ⟨r, hr, hrun⟩ := Machine.run_cons_eq_some.mp h
      have ha : ∀ k, a ≠ .rebind n k := by
        rintro k rfl
        exact hacts k List.mem_cons_self
      rw [Machine.outputs_cons hr, hread.overwritten hwf hr,
        ih (hwf.step hr) (hread.step hwf hr ha) hrun
          fun k hk => hacts k (List.mem_cons_of_mem _ hk)]
      rfl

/-- Whatever was entered, interrupted and left on the way: when no context is
open, a name that other code left alone is bound to what it was bound to, and
one that it rebound is bound to what it was last rebound to, unless a context
put its wrapper over that. In between, a name that was not rebound since is
bound to the wrapper of the innermost context that patches it. -/
theorem names_given_back (has : Name → Bool) (b : Name → ℕ)
    {acts : List Act} {s : Patches}
    (h : Machine.run (step has) (init b) acts = some s) (n : Name) :
    (s.frames = [] → (∀ k, .rebind n k ∉ acts) → s.binding n = .other (b n)) ∧
    (∀ before k after, acts = before ++ .rebind n k :: after →
      (∀ k, .rebind n k ∉ after) →
      ∀ r, Machine.run (step has) (init b) (before ++ [.rebind n k]) = some r →
      Machine.outputs (step has) (overwritten n) r after = [] →
      s.frames = [] → s.binding n = .other k) ∧
    (∀ front f back, s.frames = front ++ f :: back →
      (∀ g ∈ s.frames.head?, g.inBody = true) → n ∈ f.context.names has →
      (∀ g ∈ front, n ∉ g.context.names has) →
      ∀ before after r, acts = before ++ after →
      Machine.run (step has) (init b) before = some r → r.nextCtx ≤ f.ctx →
      (∀ k, .rebind n k ∉ after) → s.binding n = .wrapper f.ctx n) := by
  have hread : ReadHolds n 0 (init b) := by
    intro f fs hf
    cases hf
  refine ⟨fun hnone hacts => ?_, ?_, ?_⟩
  · have hleads := leads_run (k := b n) (init_wf has b) h hacts
      (outputs_overwritten (init_wf has b) hread h hacts) rfl
    rw [hnone] at hleads
    exact hleads
  · intro before k after hacts hafter r hr hover hnone
    rw [hacts, List.append_cons, Machine.run_append_eq_some] at h
    obtain ⟨r', hr', hrun⟩ := h
    rw [hr, Option.some.injEq] at hr'
    subst hr'
    have hbound : r.binding n = .other k := by
      obtain ⟨q, -, hq⟩ := Machine.run_concat_eq_some.mp hr
      rw [step, Option.some.injEq] at hq
      subst hq
      exact Function.update_self _ _ _
    have hleads := leads_run (k := k) (run_wf hr) hrun hafter hover
      (by rw [hbound]; exact .self _ _ _)
    rw [hnone] at hleads
    exact hleads
  · intro front f back hf hbody hn hfront before after r hacts hr hctx hafter
    rw [hacts, Machine.run_append_eq_some] at h
    obtain ⟨r', hr', hrun⟩ := h
    rw [hr, Option.some.injEq] at hr'
    subst hr'
    -- The contexts in question are entered after `before`.
    have hlt := (run_wf hr).ctx_lt
    have hread : ReadHolds n r.nextCtx r := by
      intro g gs hg hm
      have := hlt g (by rw [hg]; exact List.mem_cons_self)
      omega
    have hforce : InForce has n r.nextCtx r := by
      intro front' g back' hg hm
      have := hlt g (by rw [hg]; simp)
      omega
    obtain ⟨hwf, -, hforce⟩ := force_run (run_wf hr) hread hforce hrun hafter
    have hinBody : ∀ g ∈ s.frames, g.inBody = true := by
      intro g hg
      cases hs : s.frames with
      | nil =>
          rw [hs] at hg
          cases hg
      | cons x xs =>
          rw [hs] at hg hbody
          rcases List.mem_cons.mp hg with rfl | hg
          · exact hbody g rfl
          · refine hwf.below g ?_
            rw [hs]
            exact hg
    have hmem : f ∈ s.frames := by
      rw [hf]
      simp
    have hexiting : ∀ g ∈ s.frames, g.exiting = false := by
      intro g hg
      have := hinBody g hg
      rw [Frame.inBody, Bool.and_eq_true, Bool.not_eq_true'] at this
      exact this.2
    refine (hforce front f back hf hctx (hexiting f hmem)
      (todoOn_nil (hinBody f hmem) n) hn).eq_of_not_registered ?_
    intro g hg
    have hgs : g ∈ s.frames := by
      rw [hf]
      exact List.mem_append_left _ hg
    cases (hwf.stage g hgs).resolve_left (by simp [hexiting g hgs]) n with
    | foreign hn' ht hundo => exact hundo
    | _ hn' _ _ => exact absurd hn' (hfront g hg)

/-- The shim is open, and the auditor is interrupted on its way in; a name is
rebound before that. -/
def interruptedRun : List Act :=
  .enter .csprngShim :: List.replicate 6 .advance ++
    .rebind randomUrandom 9 :: .enter .auditMode ::
    List.replicate 38 .advance ++ .raise :: List.replicate 13 .restore ++
    [.pop, .leave, .restore, .restore, .pop]

theorem names_given_back_interruptedRun :
    (Machine.run (step fun _ => true) (init fun _ => 0) interruptedRun).map
      (fun s => s.binding osUrandom) = some (.other 0) := by
  have hrun : (Machine.run (step fun _ => true) (init fun _ => 0)
      interruptedRun).isSome := by
    decide +kernel
  obtain ⟨s, hs⟩ := Option.isSome_iff_exists.mp hrun
  have hframes := congrArg (Option.map fun s => s.frames.isEmpty) hs
  have hnone : s.frames = [] := List.isEmpty_iff.mp
    (Option.some.inj (hframes.symm.trans (by decide +kernel)))
  have hname := (names_given_back (fun _ => true) (fun _ => 0) hs
    osUrandom).1 hnone (by simp [interruptedRun, osUrandom, randomUrandom])
  rw [hs, Option.map_some, hname]

/-- A context that is entered inside another has read what to give back when
the name is rebound, and has not put its wrapper there yet. -/
def lostRun : List Act :=
  .enter .csprngShim :: List.replicate 6 .advance ++
    .enter .csprngShim :: .advance :: .advance ::
    .rebind osUrandom 7 :: List.replicate 4 .advance ++
    [.leave, .restore, .restore, .pop, .leave, .restore, .restore, .pop]

theorem rebinding_lost :
    ¬ ∀ (has : Name → Bool) (b : Name → ℕ) (acts : List Act) (s : Patches),
      Machine.run (step has) (init b) acts = some s → s.frames = [] →
      ∀ n before k after, acts = before ++ .rebind n k :: after →
      (∀ k, .rebind n k ∉ after) →
      (∀ r, Machine.run (step has) (init b) before = some r →
        ∃ f ∈ r.frames, f.inBody = true) →
      s.binding n = .other k := by
  intro hall
  have hrun : (Machine.run (step fun _ => true) (init fun _ => 0)
      lostRun).isSome := by
    decide +kernel
  obtain ⟨s, hs⟩ := Option.isSome_iff_exists.mp hrun
  have hframes := congrArg (Option.map fun s => s.frames.isEmpty) hs
  have hnone : s.frames = [] := List.isEmpty_iff.mp
    (Option.some.inj (hframes.symm.trans (by decide +kernel)))
  have hopen : ∀ r, Machine.run (step fun _ => true) (init fun _ => 0)
      (lostRun.take 10) = some r → ∃ f ∈ r.frames, f.inBody = true := by
    intro r hr
    have hany := congrArg (Option.map fun s => s.frames.any Frame.inBody) hr
    exact List.any_eq_true.mp
      (Option.some.inj (hany.symm.trans (by decide +kernel)))
  have hkept := hall (fun _ => true) (fun _ => 0) lostRun s hs hnone osUrandom
    (lostRun.take 10) 7 (lostRun.drop 11) rfl (by simp [lostRun]) hopen
  have hbinding := congrArg (Option.map fun s => s.binding osUrandom) hs
  rw [Option.map_some, hkept] at hbinding
  exact absurd hbinding (by decide +kernel)

end Patches

end Seedloop
