import Seedloop.Proofs.PatchHygiene
import Seedloop.Ref.Threads

/-!
# Threads do not get into each other's patches

Only the thread that holds the lock has open contexts, so what the threads do
together is what one thread after the other does alone: as long as nobody else
rebinds a name, what was shown of one thread holds of the names and of the
contexts of the holder (`Sound`), and when there is no holder every name is bound
to its real function. A wrapper that is bound is then one of the holder's own,
and following the originals of the wrappers one gets from any of them to the
real function.
-/

namespace Seedloop

open Patch

namespace Patch

variable {n : Name} {w v : Obj} {f : Frame} {fs fs' : List Frame}

/-- What leads to a real function is that function or a wrapper of one of the
contexts. -/
theorem Leads.shape {k : ℕ} (h : Leads n (.other k) fs v) :
    v = .other k ∨ ∃ f ∈ fs, v = .wrapper f.ctx n ∧ ∃ o, (n, o) ∈ f.undo := by
  induction fs with
  | nil => exact .inl h
  | cons f fs ih =>
      rcases h with h | h
      · exact .inl h
      · split at h
        · next hv =>
          obtain ⟨o, ho, -⟩ := h
          exact .inr ⟨f, List.mem_cons_self, hv, o, ho⟩
        · rcases ih h with h | ⟨g, hg, hv⟩
          · exact .inl h
          · exact .inr ⟨g, List.mem_cons_of_mem _ hg, hv⟩

/-- Contexts in which the name is not registered can be left out. -/
theorem Leads.front (hfs' : ∀ f ∈ fs', n ∉ f.undo.map Prod.fst)
    (h : Leads n w (fs ++ fs') v) : Leads n w fs v := by
  induction fs generalizing v with
  | nil => exact h.eq_of_not_registered hfs'
  | cons f fs ih =>
      rcases h with h | h
      · exact .inl h
      · refine .inr ?_
        split at h
        · next hv =>
          obtain ⟨o, ho, h⟩ := h
          rw [if_pos hv]
          exact ⟨o, ho, ih h⟩
        · next hv =>
          rw [if_neg hv]
          exact ih h

/-- A context reads what a name is bound to, and keeps what it has read. -/
theorem Move.saved {f' : Frame} {a : Patches.Act} {b b' : Name → Obj}
    (h : Move f b a f' b') {m : Name} {o : Obj} (ho : f'.saved m = some o) :
    o = b m ∨ f.saved m = some o := by
  cases h with
  | read name todo hexiting htodo =>
      by_cases hm : m = name
      · subst hm
        have hread : Function.update f.saved m (some (b m)) m = some o := ho
        rw [Function.update_self, Option.some.injEq] at hread
        exact .inl hread.symm
      · have hread : Function.update f.saved name (some (b name)) m = some o :=
          ho
        rw [Function.update_of_ne hm] at hread
        exact .inr hread
  | _ => exact .inr ho

/-- Only a step of entering reads. -/
theorem Move.advances {f' : Frame} {a : Patches.Act} {b b' : Name → Obj}
    (h : Move f b a f' b') : a = .advance ∨
      f'.saved = f.saved ∧ (a = .leave ∨ a = .raise ∨ a = .restore) := by
  cases h with
  | unwind a ha => exact .inr ⟨rfl, ha.imp_right .inl⟩
  | restore => exact .inr ⟨rfl, .inr (.inr rfl)⟩
  | _ => exact .inl rfl

end Patch

namespace Patches

variable {has : Name → Bool} {b : Name → ℕ} {s t : Patches} {a : Act}

/-- What is registered is what was read, of a name that the context patches. -/
def Kept (has : Name → Bool) (s : Patches) : Prop :=
  ∀ f ∈ s.frames, ∀ n o, (n, o) ∈ f.undo →
    n ∈ f.context.names has ∧ f.saved n = some o

theorem kept_move {f f' : Frame} {c c' : Name → Obj} (hmove : Move f c a f' c')
    (hstage : f.exiting = true ∨ ∀ n, f.Stage has n)
    (h : ∀ n o, (n, o) ∈ f.undo →
      n ∈ f.context.names has ∧ f.saved n = some o) :
    ∀ n o, (n, o) ∈ f'.undo →
      n ∈ f'.context.names has ∧ f'.saved n = some o := by
  cases hmove with
  | install | unwind => exact h
  | restore name o undo hexiting hundo =>
      intro n o' ho'
      exact h n o' (by rw [hundo]; exact List.mem_cons_of_mem _ ho')
  | read name todo hexiting htodo =>
      intro n o ho
      obtain ⟨hn, hsaved⟩ := h n o ho
      have hne : n ≠ name := by
        rintro rfl
        have hhead := todoOn_head htodo
        cases hstage.resolve_left (by simp [hexiting]) n with
        | toRead _ ht hu => exact hu (List.mem_map_of_mem ho)
        | _ _ ht _ =>
            rw [EntryStep.name, ht] at hhead
            cases hhead
      exact ⟨hn, (Function.update_of_ne hne _ _).trans hsaved⟩
  | register name todo o hexiting htodo hsaved =>
      intro n o' ho'
      rcases List.mem_cons.mp ho' with heq | ho'
      · obtain ⟨rfl, rfl⟩ := Prod.mk.inj heq
        refine ⟨?_, hsaved⟩
        have hhead := todoOn_head htodo
        cases hstage.resolve_left (by simp [hexiting]) n with
        | toRegister hn ht hu => exact hn
        | _ _ ht _ =>
            rw [EntryStep.name, ht] at hhead
            cases hhead
      · exact h n o' ho'

theorem Kept.step (hwf : Wf has s) (h : s.step has a = some t)
    (hkept : Kept has s) : Kept has t := by
  intro g hg
  cases moved h with
  | rebind name k hframes => exact hkept g (hframes ▸ hg)
  | pop f hexiting hundo hf =>
      exact hkept g (by rw [hf]; exact List.mem_cons_of_mem _ hg)
  | enter context hbelow hframes =>
      rw [hframes] at hg
      rcases List.mem_cons.mp hg with rfl | hg
      · exact fun _ _ ho => by cases ho
      · exact hkept g hg
  | move a f f' fs hf hf' hctx hmove =>
      rw [hf'] at hg
      have hmem : f ∈ s.frames := by
        rw [hf]
        exact List.mem_cons_self
      rcases List.mem_cons.mp hg with rfl | hg
      · exact kept_move hmove (hwf.stage f hmem) (hkept f hmem)
      · exact hkept g (by rw [hf]; exact List.mem_cons_of_mem _ hg)

/-- What one thread keeps as long as nobody rebinds a name. -/
structure Sound (has : Name → Bool) (b : Name → ℕ) (s : Patches) : Prop where
  wf : Wf has s
  kept : Kept has s
  read : ∀ n, ReadHolds n 0 s
  force : ∀ n, InForce has n 0 s
  leads : ∀ n, Leads n (.other (b n)) s.frames (s.binding n)

theorem Sound.of_idle (hframes : s.frames = [])
    (hbinding : ∀ n, s.binding n = .other (b n)) : Sound has b s := by
  refine ⟨⟨?_, ?_, ?_, ?_, ?_⟩, ?_, ?_, ?_, ?_⟩
  all_goals simp [hframes, Kept, ReadHolds, InForce, Patch.Leads, hbinding]

theorem Sound.step (hs : Sound has b s) (h : s.step has a = some t)
    (ha : ∀ n k, a ≠ .rebind n k) : Sound has b t where
  wf := hs.wf.step h
  kept := hs.kept.step hs.wf h
  read n := (hs.read n).step hs.wf h (ha n)
  force n := (hs.force n).step hs.wf h (ha n) (hs.read n)
  leads n := leads_step hs.wf h (ha n) ((hs.read n).overwritten hs.wf h)
    (hs.leads n)

/-- What a name should be bound to: the wrapper of the innermost of the contexts
that patch it. -/
def target (has : Name → Bool) (b : Name → ℕ) (n : Name) (fs : List Frame) :
    Obj :=
  match fs.find? fun f => n ∈ f.context.names has with
  | some f => .wrapper f.ctx n
  | none => .other (b n)

/-- A context in its body has registered no names but its own. -/
theorem Wf.not_registered (hwf : Wf has s) {f : Frame} (hf : f ∈ s.frames)
    (hbody : f.inBody = true) {n : Name} (hn : n ∉ f.context.names has) :
    n ∉ f.undo.map Prod.fst := by
  rw [Frame.inBody, Bool.and_eq_true, Bool.not_eq_true'] at hbody
  cases (hwf.stage f hf).resolve_left (by simp [hbody.2]) n with
  | foreign hn' ht hundo => exact hundo
  | _ hn' _ _ => exact absurd hn' hn

/-- From the outer contexts in their bodies, a name leads to the wrapper of the
innermost of these. -/
theorem Sound.lands (hs : Sound has b s) {front rest : List Frame} {n : Name}
    (hf : s.frames = front ++ rest) (hrest : ∀ f ∈ rest, f.inBody = true) :
    Leads n (target has b n rest) front (s.binding n) := by
  have hmem : ∀ f ∈ rest, f ∈ s.frames := fun f hrest => by
    rw [hf]
    exact List.mem_append_right _ hrest
  rw [target]
  split
  · next f hfind =>
    obtain ⟨hn, front', back, hsplit, hnone⟩ :=
      List.find?_eq_some_iff_append.mp hfind
    have hfr : f ∈ rest := by
      rw [hsplit]
      simp
    have hbody := hrest f hfr
    have hexiting : f.exiting = false := by
      rw [Frame.inBody, Bool.and_eq_true, Bool.not_eq_true'] at hbody
      exact hbody.2
    have hleads := hs.force n (front ++ front') f back
      (by rw [hf, hsplit, List.append_assoc]) (Nat.zero_le _) hexiting
      (todoOn_nil hbody n) (by simpa using hn)
    refine hleads.front fun g hg => ?_
    have hgr : g ∈ rest := by
      rw [hsplit]
      exact List.mem_append_left _ hg
    exact hs.wf.not_registered (hmem g hgr) (hrest g hgr)
      (by simpa using hnone g hg)
  · next hfind =>
    rw [List.find?_eq_none] at hfind
    have hleads := hs.leads n
    rw [hf] at hleads
    refine hleads.front fun g hg => ?_
    exact hs.wf.not_registered (hmem g hg) (hrest g hg)
      (by simpa using hfind g hg)

theorem Sound.bound_of_body (hs : Sound has b s)
    (hbody : ∀ f ∈ s.frames.head?, f.inBody = true) (n : Name) :
    s.binding n = target has b n s.frames := by
  have hframes : s.frames = [] ++ s.frames := rfl
  refine hs.lands hframes fun f hf => ?_
  have hbelow := hs.wf.below
  generalize s.frames = fs at hf hbody hbelow
  cases fs with
  | nil => cases hf
  | cons g fs =>
      rcases List.mem_cons.mp hf with rfl | hf
      · exact hbody f rfl
      · exact hbelow f hf

/-- A context that is being entered or left has its wrapper there or not. -/
theorem Sound.bound_between (hs : Sound has b s) {f : Frame} {fs : List Frame}
    (hf : s.frames = f :: fs) (n : Name) :
    s.binding n = target has b n (f :: fs) ∨
      s.binding n = target has b n fs := by
  have hbelow := hs.wf.below
  rw [hf] at hbelow
  have hframes : s.frames = [f] ++ fs := hf
  rcases hs.lands (n := n) hframes hbelow with h | h
  · exact .inr h
  · split at h
    · next hv =>
      obtain ⟨o, ho, -⟩ := h
      have hmem : f ∈ s.frames := by
        rw [hf]
        exact List.mem_cons_self
      have hn := (hs.kept f hmem n o ho).1
      rw [target, List.find?_cons_of_pos (by simpa using hn)]
      exact .inl hv
    · exact .inr h

theorem Sound.bound_of_idle (hs : Sound has b s) (hf : s.frames = []) (n : Name) :
    s.binding n = .other (b n) := by
  have h := hs.leads n
  rw [hf] at h
  exact h

end Patches

namespace Threads

open Patches

variable {τ : Type} [DecidableEq τ] {has : Name → Bool} {b : Name → ℕ}
  {s s' : Threads τ}

/-- An original that a context on `t` may have: the real function, or the
wrapper of a context on `t`. -/
def Own (b : Name → ℕ) (s : Threads τ) (t : τ) (n : Name) (o : Obj) : Prop :=
  o = .other (b n) ∨
    ∃ (ctx : ℕ) (c : Closure τ),
      o = .wrapper ctx n ∧ s.closures[ctx]? = some c ∧ c.owner = t

/-- What all threads keep together. -/
structure Serial (has : Name → Bool) (b : Name → ℕ) (s : Threads τ) : Prop where
  depth : ∀ t, s.lock.depth t = (s.frames t).length
  sound : ∀ t, s.frames t ≠ [] → Sound has b (s.view t)
  idle : (∀ t, s.frames t = []) → ∀ n, s.binding n = .other (b n)
  closure : ∀ t, ∀ f ∈ s.frames t,
    s.closures[f.ctx]? = some ⟨t, f.context, f.saved⟩
  saved : ∀ (ctx : ℕ) (c : Closure τ), s.closures[ctx]? = some c →
    ∀ n o, c.saved n = some o → Own b s c.owner n o

theorem init_serial : Serial has b (init b : Threads τ) where
  depth _ := rfl
  sound _ h := absurd rfl h
  idle _ _ := rfl
  closure _ _ hf := by cases hf
  saved _ _ hc := by cases hc

/-- Of two threads, one has no open contexts. -/
theorem Serial.alone (h : Serial has b s) {t u : τ} (ht : s.frames t ≠ [])
    (hu : u ≠ t) : s.frames u = [] := by
  by_contra hne
  refine hu (RLock.exclusive (l := s.lock) ?_ ?_)
  · rw [h.depth]
    exact fun hlen => hne (List.length_eq_zero_iff.mp hlen)
  · rw [h.depth]
    exact fun hlen => ht (List.length_eq_zero_iff.mp hlen)

/-- A thread of which no other has open contexts. -/
theorem Serial.view_sound (h : Serial has b s) {t : τ}
    (hothers : ∀ u, u ≠ t → s.frames u = []) : Sound has b (s.view t) := by
  by_cases ht : s.frames t = []
  · refine .of_idle ht (h.idle fun u => ?_)
    by_cases hu : u = t
    · rw [hu, ht]
    · exact hothers u hu
  · exact h.sound t ht

theorem step_move {t : τ} {a : Patches.Act}
    (h : s.step has (.move t a) = some s') :
    ∃ lock p, s.lockStep t a = some lock ∧ (s.view t).step has a = some p ∧
      s'.binding = p.binding ∧ s'.lock = lock ∧ s'.frames t = p.frames ∧
      (∀ u, u ≠ t → s'.frames u = s.frames u) ∧
      s'.closures = s.closuresStep t p.frames a := by
  simp only [step, Option.bind_eq_bind, Option.bind_eq_some_iff,
    Option.some.injEq] at h
  obtain ⟨lock, hlock, p, hp, rfl⟩ := h
  exact ⟨lock, p, hlock, hp, rfl, rfl, Function.update_self _ _ _,
    fun u hu => Function.update_of_ne hu _ _, rfl⟩

/-- Whoever does something has the lock, and has taken it as often as it has
contexts open. -/
theorem Serial.lockStep (h : Serial has b s) {t : τ} {a : Patches.Act}
    {lock : RLock τ} {p : Patches} (ha : ∀ n k, a ≠ .rebind n k)
    (hlock : s.lockStep t a = some lock) (hp : (s.view t).step has a = some p) :
    lock.depth t = p.frames.length ∧
      ∀ u, u ≠ t → lock.depth u = 0 ∧ s.frames u = [] := by
  have hnone : ∀ u, s.lock.depth u = 0 → s.frames u = [] := fun u hu =>
    List.length_eq_zero_iff.mp ((h.depth u).symm.trans hu)
  have hview : (s.view t).frames = s.frames t := rfl
  cases moved hp with
  | rebind name k => exact absurd rfl (ha name k)
  | enter context hbelow hframes =>
      obtain ⟨hdepth, hothers⟩ := RLock.depth_acquire hlock
      refine ⟨?_, fun u hu => ⟨(hothers u hu).2, hnone u (hothers u hu).1⟩⟩
      rw [hdepth, h.depth, hframes, hview]
      rfl
  | pop f hexiting hundo hf =>
      obtain ⟨hdepth, hothers⟩ := RLock.depth_release hlock
      rw [hview] at hf
      refine ⟨?_, fun u hu => ⟨hothers u hu, h.alone (by rw [hf]; simp) hu⟩⟩
      rw [h.depth, hf, List.length_cons] at hdepth
      exact (Nat.succ.inj hdepth).symm
  | move a f f' fs hf hf' hctx hmove =>
      rw [hview] at hf
      have hsame : lock = s.lock := by
        rcases hmove.advances with rfl | ⟨-, rfl | rfl | rfl⟩ <;>
          exact (Option.some.inj hlock).symm
      have hsome : s.frames t ≠ [] := by
        rw [hf]
        simp
      rw [hsame]
      refine ⟨?_, fun u hu => ⟨?_, h.alone hsome hu⟩⟩
      · rw [h.depth, hf, hf']
        rfl
      · rw [h.depth, h.alone hsome hu]
        rfl

/-- What a step makes of the closures. -/
structure Captured (s : Threads τ) (t : τ) (p : Patches)
    (closures : List (Closure τ)) : Prop where
  length : closures.length = p.nextCtx
  kept : ∀ (ctx : ℕ) (c : Closure τ), s.closures[ctx]? = some c →
    ∃ c', closures[ctx]? = some c' ∧ c'.owner = c.owner
  frames : ∀ f ∈ p.frames, closures[f.ctx]? = some ⟨t, f.context, f.saved⟩
  old : ∀ (ctx : ℕ) (c : Closure τ), closures[ctx]? = some c →
    ∀ n o, c.saved n = some o → o = s.binding n ∧ c.owner = t ∨
      ∃ c', s.closures[ctx]? = some c' ∧ c'.owner = c.owner ∧ c'.saved n = some o

theorem Serial.captured (h : Serial has b s) {t : τ} {a : Patches.Act}
    {p : Patches} (ha : ∀ n k, a ≠ .rebind n k)
    (hwf : Wf has (s.view t)) (hp : (s.view t).step has a = some p) :
    Captured s t p (s.closuresStep t p.frames a) := by
  have hview : (s.view t).frames = s.frames t := rfl
  have hlen : (s.view t).nextCtx = s.closures.length := rfl
  have hframes : ∀ f ∈ (s.view t).frames,
      s.closures[f.ctx]? = some ⟨t, f.context, f.saved⟩ := h.closure t
  have hsame : ∀ (ctx : ℕ) (c : Closure τ), s.closures[ctx]? = some c →
      ∀ n o, c.saved n = some o → o = s.binding n ∧ c.owner = t ∨
      ∃ c', s.closures[ctx]? = some c' ∧ c'.owner = c.owner ∧
        c'.saved n = some o := fun ctx c hc n o ho => .inr ⟨c, hc, rfl, ho⟩
  cases moved hp with
  | rebind name k => exact absurd rfl (ha name k)
  | pop f hexiting hundo hf hctx =>
      refine ⟨hlen.symm.trans hctx.symm, fun ctx c hc => ⟨c, hc, rfl⟩,
        fun g hg => ?_, hsame⟩
      exact hframes g (by rw [hf]; exact List.mem_cons_of_mem _ hg)
  | enter context hbelow hnew hctx =>
      refine ⟨?_, fun ctx c hc => ⟨c, ?_, rfl⟩, fun g hg => ?_,
        fun ctx c hc n o ho => ?_⟩
      · rw [hctx, hlen]
        exact List.length_append
      · rw [closuresStep,
          List.getElem?_append_left (List.getElem?_eq_some_iff.mp hc).1]
        exact hc
      · rw [hnew] at hg
        rcases List.mem_cons.mp hg with rfl | hg
        · exact List.getElem?_concat_length
        · have hc := hframes g hg
          rw [closuresStep,
            List.getElem?_append_left (List.getElem?_eq_some_iff.mp hc).1]
          exact hc
      · rw [closuresStep, List.getElem?_append] at hc
        split at hc
        · exact hsame ctx c hc n o ho
        · obtain ⟨hlt, rfl⟩ := List.getElem?_eq_some_iff.mp hc
          rw [List.getElem_singleton] at ho
          cases ho
  | move a f f' fs hf hf' hctx hmove =>
      have hfold := hframes f (by rw [hf]; exact List.mem_cons_self)
      have htail : ∀ g ∈ fs, s.closures[g.ctx]? =
          some ⟨t, g.context, g.saved⟩ := fun g hg =>
        hframes g (by rw [hf]; exact List.mem_cons_of_mem _ hg)
      rcases hmove.advances with rfl | ⟨hsaved, hact⟩
      · have hdesc := hwf.ctx_desc
        rw [hf, List.pairwise_cons] at hdesc
        have hclosures : s.closuresStep t p.frames .advance =
            s.closures.modify f.ctx fun c => { c with saved := f'.saved } := by
          simp only [closuresStep, hf', hmove.ctx_eq]
        have hother : ∀ ctx, ctx ≠ f.ctx → (s.closures.modify f.ctx fun c =>
            { c with saved := f'.saved })[ctx]? = s.closures[ctx]? :=
          fun ctx hne => List.getElem?_modify_ne _ _ (Ne.symm hne)
        have hown : (s.closures.modify f.ctx fun c =>
            { c with saved := f'.saved })[f.ctx]? =
              some ⟨t, f.context, f'.saved⟩ := by
          rw [List.getElem?_modify_eq, hfold]
          rfl
        rw [hclosures]
        refine ⟨?_, fun ctx c hc => ?_, fun g hg => ?_, fun ctx c hc n o ho => ?_⟩
        · rw [List.length_modify, hctx, hlen]
        · by_cases hne : ctx = f.ctx
          · subst hne
            rw [hfold, Option.some.injEq] at hc
            exact ⟨_, hown, hc ▸ rfl⟩
          · exact ⟨c, (hother ctx hne).trans hc, rfl⟩
        · rw [hf'] at hg
          rcases List.mem_cons.mp hg with rfl | hg
          · rw [hmove.ctx_eq, hmove.context_eq]
            exact hown
          · exact (hother _ (Nat.ne_of_lt (hdesc.1 g hg))).trans (htail g hg)
        · by_cases hne : ctx = f.ctx
          · subst hne
            rw [hown, Option.some.injEq] at hc
            subst hc
            rcases hmove.saved ho with hread | hold
            · exact .inl ⟨hread, rfl⟩
            · exact .inr ⟨_, hfold, rfl, hold⟩
          · exact hsame ctx c ((hother ctx hne).symm.trans hc) n o ho
      · have hclosures : s.closuresStep t p.frames a = s.closures := by
          rcases hact with rfl | rfl | rfl <;> rfl
        rw [hclosures]
        refine ⟨hlen.symm.trans hctx.symm, fun ctx c hc => ⟨c, hc, rfl⟩,
          fun g hg => ?_, hsame⟩
        rw [hf'] at hg
        rcases List.mem_cons.mp hg with rfl | hg
        · rw [hmove.ctx_eq, hmove.context_eq, hsaved]
          exact hfold
        · exact htail g hg

omit [DecidableEq τ] in
theorem Own.kept {s s' : Threads τ} {t : τ} {n : Name} {o : Obj}
    (hkept : ∀ (ctx : ℕ) (c : Closure τ), s.closures[ctx]? = some c →
      ∃ c', s'.closures[ctx]? = some c' ∧ c'.owner = c.owner)
    (h : Own b s t n o) : Own b s' t n o := by
  rcases h with h | ⟨ctx, c, ho, hc, howner⟩
  · exact .inl h
  · obtain ⟨c', hc', howner'⟩ := hkept ctx c hc
    exact .inr ⟨ctx, c', ho, hc', howner'.trans howner⟩

/-- What a thread finds a name bound to is what it may save. -/
theorem Serial.own (h : Serial has b s) {t : τ}
    (hsound : Sound has b (s.view t)) (n : Name) : Own b s t n (s.binding n) := by
  rcases (hsound.leads n).shape with hreal | ⟨f, hf, hwrapper, -⟩
  · exact .inl hreal
  · exact .inr ⟨_, _, hwrapper, h.closure t f hf, rfl⟩

theorem Serial.step {a : Act τ} (h : Serial has b s)
    (hstep : s.step has a = some s') (ha : ∀ t n k, a ≠ .move t (.rebind n k)) :
    Serial has b s' := by
  cases a with
  | call t n timestamp =>
      cases hstep
      exact h
  | move t a =>
      obtain ⟨lock, p, hlock, hp, hbinding, hlock', hframes, hrest,
        hclosures⟩ := step_move hstep
      have ha : ∀ n k, a ≠ .rebind n k := fun n k heq => ha t n k (heq ▸ rfl)
      obtain ⟨hdepth, hothers⟩ := h.lockStep ha hlock hp
      have hsound := h.view_sound fun u hu => (hothers u hu).2
      have hcaptured := h.captured ha hsound.wf hp
      rw [← hclosures] at hcaptured
      have hnext : Sound has b (s'.view t) := by
        rw [view, hbinding, hframes, hcaptured.length]
        exact hsound.step hp ha
      have hnone : ∀ u, u ≠ t → s'.frames u = [] := fun u hu =>
        (hrest u hu).trans (hothers u hu).2
      constructor
      · intro u
        rw [hlock']
        by_cases hu : u = t
        · rw [hu, hdepth, hframes]
        · rw [(hothers u hu).1, hnone u hu]
          rfl
      · intro u hu
        by_cases hut : u = t
        · exact hut ▸ hnext
        · exact absurd (hnone u hut) hu
      · exact fun hidle n => hnext.bound_of_idle (hidle t) n
      · intro u f hf
        by_cases hut : u = t
        · subst hut
          rw [hframes] at hf
          exact hcaptured.frames f hf
        · rw [hnone u hut] at hf
          cases hf
      · intro ctx c hc n o ho
        refine Own.kept hcaptured.kept ?_
        rcases hcaptured.old ctx c hc n o ho with ⟨rfl, howner⟩ |
          ⟨c', hc', howner, ho'⟩
        · exact howner ▸ h.own hsound n
        · exact howner ▸ h.saved ctx c' hc' n o ho'

theorem run_serial {acts : List (Act τ)}
    (h : Machine.run (step has) (init b) acts = some s)
    (hacts : ∀ t n k, .move t (.rebind n k) ∉ acts) : Serial has b s := by
  have hrun : ∀ {s s' : Threads τ} {acts : List (Act τ)}, Serial has b s →
      Machine.run (step has) s acts = some s' →
      (∀ t n k, .move t (.rebind n k) ∉ acts) → Serial has b s' := by
    intro s s' acts hs h hacts
    induction acts generalizing s with
    | nil =>
        cases h
        exact hs
    | cons a acts ih =>
        obtain ⟨r, hr, hrest⟩ := Machine.run_cons_eq_some.mp h
        refine ih (hs.step hr ?_) hrest
          fun t n k hmem => hacts t n k (List.mem_cons_of_mem _ hmem)
        rintro t n k rfl
        exact hacts t n k List.mem_cons_self
  exact hrun init_serial h hacts

/-! ## Calls -/

/-- What hands a call on that comes from its own thread, every wrapper that
there can be for the name hands on. -/
theorem wrapped_eq_none {c c' : Context} {ctx ctx' : ℕ} {n : Name}
    {timestamp : Bool} (h : c.wrapped ctx n timestamp = none)
    (hn : n ∈ c'.names has) : c'.wrapped ctx' n timestamp = none := by
  cases c with
  | csprngShim => cases h
  | auditMode =>
      rw [Context.wrapped] at h
      split at h
      · next htime =>
        cases c' with
        | auditMode =>
            rw [Context.wrapped, if_pos htime]
            exact h
        | csprngShim =>
            have hforeign : ∀ m ∈ currentTimeFuncs,
                m ∉ [osUrandom, randomUrandom] := by decide
            exact absurd hn (hforeign n htime)
      · split at h <;> cases h

/-- A call goes through the wrappers on its way, if each of them hands it on. -/
theorem call_leads {t u : τ} {n : Name} {timestamp : Bool} {k fuel : ℕ}
    {fs : List Frame} {v : Obj}
    (hclosure : ∀ f ∈ fs, s.closures[f.ctx]? = some ⟨t, f.context, f.saved⟩)
    (hsaved : ∀ f ∈ fs, ∀ o, (n, o) ∈ f.undo → f.saved n = some o)
    (hpass : ∀ f ∈ fs, n ∈ f.undo.map Prod.fst → t = u →
      f.context.wrapped f.ctx n timestamp = none)
    (hdesc : fs.Pairwise fun f g => g.ctx < f.ctx)
    (hfuel : ∀ f ∈ fs, f.ctx < fuel) (h : Leads n (.other k) fs v) :
    s.callObj u timestamp fuel v = some (.real k) := by
  induction fs generalizing fuel v with
  | nil =>
      cases h
      cases fuel <;> rfl
  | cons f fs ih =>
      have ih : ∀ {j : ℕ} {v : Obj}, (∀ g ∈ fs, g.ctx < j) →
          Leads n (.other k) fs v →
          s.callObj u timestamp j v = some (.real k) := ih
        (fun g hg => hclosure g (List.mem_cons_of_mem _ hg))
        (fun g hg => hsaved g (List.mem_cons_of_mem _ hg))
        (fun g hg => hpass g (List.mem_cons_of_mem _ hg))
        (List.pairwise_cons.mp hdesc).2
      rcases h with rfl | h
      · cases fuel <;> rfl
      · split at h
        · next hv =>
          obtain ⟨o, ho, h⟩ := h
          subst hv
          have hlt := hfuel f List.mem_cons_self
          obtain ⟨fuel, rfl⟩ : ∃ j, fuel = j + 1 := ⟨fuel - 1, by omega⟩
          have hown : (if t = u then f.context.wrapped f.ctx n timestamp
              else none) = none := by
            split
            · next htu =>
              exact hpass f List.mem_cons_self (List.mem_map_of_mem ho) htu
            · rfl
          have hrest := ih (j := fuel) (fun g hg => by
            have := (List.pairwise_cons.mp hdesc).1 g hg
            omega) h
          simp only [callObj, hclosure f List.mem_cons_self, hown,
            hsaved f List.mem_cons_self o ho, Option.bind_eq_bind,
            Option.bind_some, hrest]
        · exact ih (fun g hg => hfuel g (List.mem_cons_of_mem _ hg)) h

/-- Nothing that a thread does gets into the contexts of another. `alone` is
what the lock is for, and `depth` that it is held where contexts are open; a
context, with what it has read, is the closure of its wrappers. -/
structure Apart (has : Name → Bool) (b : Name → ℕ) (s : Threads τ) : Prop where
  depth : ∀ t, s.lock.depth t = (s.frames t).length
  alone : ∀ t u, s.frames t ≠ [] → u ≠ t → s.frames u = []
  closure : ∀ t, ∀ f ∈ s.frames t,
    s.closures[f.ctx]? = some ⟨t, f.context, f.saved⟩
  /-- What any context ever saved is no wrapper of another thread. -/
  saved : ∀ (ctx : ℕ) (c : Closure τ), s.closures[ctx]? = some c →
    ∀ n o, c.saved n = some o → o = .other (b n) ∨
      ∃ (ctx' : ℕ) (c' : Closure τ), o = .wrapper ctx' n ∧
        s.closures[ctx']? = some c' ∧ c'.owner = c.owner
  /-- A thread without contexts does not notice those of another. -/
  others : ∀ t, s.frames t = [] → ∀ n timestamp,
    s.call t n timestamp = some (.real (b n))
  /-- The holder has its own wrapper: that of the innermost of its contexts that
  patch the name. -/
  holder : ∀ t, s.frames t ≠ [] →
    (∀ f ∈ (s.frames t).head?, f.inBody = true) → ∀ n timestamp,
    match (s.frames t).find? fun f => n ∈ f.context.names has with
    | some f => s.binding n = .wrapper f.ctx n ∧
        s.call t n timestamp = some
          ((f.context.wrapped f.ctx n timestamp).getD (.real (b n)))
    | none => s.binding n = .other (b n) ∧
        s.call t n timestamp = some (.real (b n))
  /-- While a context is entered or left, its wrapper may be there or not. -/
  between : ∀ t f fs, s.frames t = f :: fs → ∀ n,
    s.binding n = target has b n (f :: fs) ∨ s.binding n = target has b n fs
  idle : (∀ t, s.frames t = []) → ∀ n, s.binding n = .other (b n)

theorem Serial.call_real (h : Serial has b s) {t u : τ} {n : Name}
    {timestamp : Bool} (hothers : ∀ v, v ≠ t → s.frames v = [])
    (hpass : ∀ f ∈ s.frames t, n ∈ f.undo.map Prod.fst → t = u →
      f.context.wrapped f.ctx n timestamp = none) :
    s.call u n timestamp = some (.real (b n)) := by
  have hsound := h.view_sound hothers
  exact call_leads (h.closure t)
    (fun f hf o ho => (hsound.kept f hf n o ho).2) hpass hsound.wf.ctx_desc
    hsound.wf.ctx_lt (hsound.leads n)

theorem Serial.others (h : Serial has b s) {u : τ} (hu : s.frames u = [])
    (n : Name) (timestamp : Bool) :
    s.call u n timestamp = some (.real (b n)) := by
  by_cases hidle : ∀ t, s.frames t = []
  · refine h.call_real (t := u) (fun v _ => hidle v) fun f hf => ?_
    rw [hu] at hf
    cases hf
  · obtain ⟨t, ht⟩ := not_forall.mp hidle
    refine h.call_real (fun v hv => h.alone ht hv) fun f hf _ htu => ?_
    subst htu
    exact absurd hu ht

theorem Serial.holder (h : Serial has b s) {t : τ} (ht : s.frames t ≠ [])
    (hbody : ∀ f ∈ (s.frames t).head?, f.inBody = true) (n : Name)
    (timestamp : Bool) :
    match (s.frames t).find? fun f => n ∈ f.context.names has with
    | some f => s.binding n = .wrapper f.ctx n ∧
        s.call t n timestamp = some
          ((f.context.wrapped f.ctx n timestamp).getD (.real (b n)))
    | none => s.binding n = .other (b n) ∧
        s.call t n timestamp = some (.real (b n)) := by
  have hsound := h.sound t ht
  have hbound : s.binding n = target has b n (s.frames t) :=
    hsound.bound_of_body hbody n
  rw [target] at hbound
  split
  · next f hfind =>
    rw [hfind] at hbound
    refine ⟨hbound, ?_⟩
    have hmem := List.mem_of_find?_eq_some hfind
    cases hwrapped : f.context.wrapped f.ctx n timestamp with
    | none =>
        refine h.call_real (fun u hu => h.alone ht hu) fun g hg hundo _ => ?_
        obtain ⟨⟨m, o⟩, ho, rfl⟩ := List.mem_map.mp hundo
        exact wrapped_eq_none hwrapped (hsound.kept g hg m o ho).1
    | some r =>
        have hlt : f.ctx < s.closures.length := hsound.wf.ctx_lt f hmem
        obtain ⟨fuel, hfuel⟩ : ∃ j, s.closures.length = j + 1 :=
          ⟨s.closures.length - 1, by omega⟩
        simp only [call, hbound, hfuel, callObj, h.closure t f hmem,
          Option.bind_eq_bind, Option.bind_some, if_true, hwrapped,
          Option.getD_some]
  · next hfind =>
    rw [hfind] at hbound
    refine ⟨hbound, ?_⟩
    rw [call, hbound]
    cases s.closures.length <;> rfl

/-- Whatever the threads do, in whatever order, as long as nobody else rebinds
a name. -/
theorem threads_apart (has : Name → Bool) (b : Name → ℕ)
    {acts : List (Act τ)} {s : Threads τ}
    (h : Machine.run (step has) (init b) acts = some s)
    (hacts : ∀ t n k, .move t (.rebind n k) ∉ acts) : Apart has b s := by
  have hs := run_serial h hacts
  exact {
    depth := hs.depth
    alone := fun t u ht hu => hs.alone ht hu
    closure := hs.closure
    saved := hs.saved
    others := fun t ht n timestamp => hs.others ht n timestamp
    holder := fun t ht hbody n timestamp => hs.holder ht hbody n timestamp
    between := fun t f fs hf n => by
      have hsound := hs.sound t (by rw [hf]; simp)
      exact hsound.bound_between hf n
    idle := hs.idle }

/-- One thread has been in a context and left it, and another is in one. -/
def takingTurns : List (Act ℕ) :=
  .move 0 (.enter .csprngShim) :: (List.replicate 6 (.move 0 .advance) ++
    [.move 0 .leave, .move 0 .restore, .move 0 .restore, .move 0 .pop,
      .move 1 (.enter .csprngShim)]) ++ List.replicate 6 (.move 1 .advance)

theorem threads_apart_takingTurns :
    (Machine.run (step fun _ => true) (init fun _ => 7) takingTurns).map
      (fun s => (s.call 0 osUrandom false, s.call 1 osUrandom false)) =
      some (some (.real 7), some (.seeded 1)) := by
  have hrun : (Machine.run (step fun _ => true) (init fun _ => 7)
      takingTurns).isSome := by
    decide +kernel
  obtain ⟨s, hs⟩ := Option.isSome_iff_exists.mp hrun
  have hapart := threads_apart (fun _ => true) (fun _ => 7) hs
    (by simp [takingTurns])
  have hzero := congrArg (Option.map fun s => (s.frames 0).isEmpty) hs
  have hzero : s.frames 0 = [] := List.isEmpty_iff.mp
    (Option.some.inj (hzero.symm.trans (by decide +kernel)))
  have hone := congrArg (Option.map fun s => (s.frames 1).map fun f =>
    (f.ctx, f.context, f.inBody)) hs
  have hone : (s.frames 1).map (fun f => (f.ctx, f.context, f.inBody)) =
      [(1, .csprngShim, true)] :=
    Option.some.inj (hone.symm.trans (by decide +kernel))
  obtain ⟨f, hf, hfields⟩ := List.map_eq_singleton_iff.mp hone
  obtain ⟨hctx, hcontext, hbody⟩ : f.ctx = 1 ∧ f.context = .csprngShim ∧
      f.inBody = true := by simpa using hfields
  have hholder := hapart.holder 1 (by simp [hf])
    (by simpa [hf] using hbody) osUrandom false
  have hfind : (s.frames 1).find? (fun f =>
      osUrandom ∈ f.context.names fun _ => true) = some f := by
    rw [hf, List.find?_cons_of_pos]
    rw [hcontext]
    decide
  rw [hfind] at hholder
  rw [hs, Option.map_some, hapart.others 0 hzero, hholder.2, hctx, hcontext]
  rfl

end Threads

end Seedloop
