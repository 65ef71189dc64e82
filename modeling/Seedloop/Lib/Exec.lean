import Mathlib.Data.Nat.Notation
import Mathlib.Logic.Basic
import Mathlib.Order.Defs.Unbundled

/-!
# Computations that raise

A computation changes a state and ends in one of three ways: it returns, it
raises, or it is cut off. The last is for loops, which are given a number of
turns and are cut off when they have used them up.

`attempt` and `andFinally` are `try` and `finally` as Python has them; what a
`finally` block raises takes the place of what was on its way.

`wp` says how a computation ends, with a condition for each of the three ways.
There is one rule for each way of putting computations together, all of them
equations, and two for loops, where the induction is: what is kept there may
depend on the number of turns left, so that a loop with enough of them is shown
never to be cut off.
-/

/-- How a computation ends. -/
inductive Res (ε α : Type) where
  | ok (a : α)
  | raised (e : ε)
  | pending

namespace Res

variable {ε α : Type}

/-- It returned. -/
def isOk : Res ε α → Bool
  | ok _ => true
  | raised _ | pending => false

/-- What it raised. -/
def error? : Res ε α → Option ε
  | raised e => some e
  | ok _ | pending => none

theorem eq_raised {r : Res ε α} {e : ε} (h : r.error? = some e) :
    r = .raised e := by
  cases r with
  | raised e' => rw [Option.some.inj h]
  | ok | pending => cases h

end Res

/-- What was caught. -/
def Except.error? {ε α : Type} : Except ε α → Option ε
  | error e => some e
  | ok _ => none

/-- A computation on a state `σ` that can raise an `ε`. -/
def Exec (σ ε α : Type) : Type := σ → Res ε α × σ

namespace Exec

variable {σ ε α β γ : Type}

instance : Monad (Exec σ ε) where
  pure a := fun s => (.ok a, s)
  bind x f := fun s =>
    match x s with
    | (.ok a, s) => f a s
    | (.raised e, s) => (.raised e, s)
    | (.pending, s) => (.pending, s)

def raise (e : ε) : Exec σ ε α := fun s => (.raised e, s)

def pending : Exec σ ε α := fun s => (.pending, s)

/-- A step that cannot raise. -/
def update (f : σ → σ) : Exec σ ε Unit := fun s => (.ok (), f s)

/-- Going by the state. -/
def look (f : σ → Exec σ ε α) : Exec σ ε α := fun s => f s s

/-- `try`, with what it raised as a value. -/
def attempt (x : Exec σ ε α) : Exec σ ε (Except ε α) := fun s =>
  match x s with
  | (.ok a, s) => (.ok (.ok a), s)
  | (.raised e, s) => (.ok (.error e), s)
  | (.pending, s) => (.pending, s)

/-- Raise what was caught. -/
def reraise : Except ε α → Exec σ ε α
  | .ok a => pure a
  | .error e => raise e

/-- `try`, `finally`. -/
def andFinally (x : Exec σ ε α) (f : Exec σ ε Unit) : Exec σ ε α :=
  attempt x >>= fun r => f >>= fun _ => reraise r

/-- `while cond: x`, for at most `n` turns. -/
def whileDo (cond : σ → Bool) (x : Exec σ ε Unit) : ℕ → Exec σ ε Unit
  | 0 => look fun s => if cond s then pending else pure ()
  | n + 1 => look fun s =>
      if cond s then x >>= fun _ => whileDo cond x n else pure ()

/-- `while True: x`, until `stop`, for at most `n` turns. -/
def doUntil (stop : σ → Bool) (x : Exec σ ε Unit) : ℕ → Exec σ ε Unit
  | 0 => pending
  | n + 1 => x >>= fun _ => look fun s =>
      if stop s then pure () else doUntil stop x n

/-- `for a in as: f a`. -/
def forEach (f : γ → Exec σ ε Unit) : List γ → Exec σ ε Unit
  | [] => pure ()
  | a :: as => f a >>= fun _ => forEach f as

/-- When it returns `a` in `s`, then `ok a s`, when it raises `e`, then
`err e s`, and when it is cut off, then `cut s`. -/
def wp (x : Exec σ ε α) (ok : α → σ → Prop) (err : ε → σ → Prop)
    (cut : σ → Prop) (s : σ) : Prop :=
  match x s with
  | (.ok a, s) => ok a s
  | (.raised e, s) => err e s
  | (.pending, s) => cut s

variable {ok ok' : α → σ → Prop} {err err' : ε → σ → Prop}
  {cut cut' : σ → Prop} {s : σ}

@[simp] theorem wp_pure {a : α} :
    wp (pure a : Exec σ ε α) ok err cut = ok a := rfl

@[simp] theorem wp_raise {e : ε} :
    wp (raise e : Exec σ ε α) ok err cut = err e := rfl

@[simp] theorem wp_update {f : σ → σ} {ok : Unit → σ → Prop} :
    wp (update f : Exec σ ε Unit) ok err cut = fun s => ok () (f s) := rfl

@[simp] theorem wp_look {f : σ → Exec σ ε α} :
    wp (look f) ok err cut = fun s => wp (f s) ok err cut s := rfl

theorem wp_look_apply {f : σ → Exec σ ε α} :
    wp (look f) ok err cut s ↔ wp (f s) ok err cut s := Iff.rfl

@[simp] theorem wp_bind {x : Exec σ ε α} {f : α → Exec σ ε β}
    {ok : β → σ → Prop} :
    wp (x >>= f) ok err cut = wp x (fun a => wp (f a) ok err cut) err cut := by
  funext s
  simp only [wp, bind]
  rcases x s with ⟨r, t⟩
  cases r <;> rfl

@[simp] theorem wp_attempt {x : Exec σ ε α} {ok : Except ε α → σ → Prop} :
    wp (attempt x) ok err cut =
      wp x (fun a => ok (.ok a)) (fun e => ok (.error e)) cut := by
  funext s
  simp only [wp, attempt]
  rcases x s with ⟨r, t⟩
  cases r <;> rfl

@[simp] theorem wp_reraise_ok {a : α} :
    wp (reraise (.ok a) : Exec σ ε α) ok err cut = ok a := rfl

@[simp] theorem wp_reraise_error {e : ε} :
    wp (reraise (.error e) : Exec σ ε α) ok err cut = err e := rfl

@[simp] theorem wp_andFinally {x : Exec σ ε α} {f : Exec σ ε Unit} :
    wp (andFinally x f) ok err cut =
      wp x (fun a => wp f (fun _ => ok a) err cut)
        (fun e => wp f (fun _ => err e) err cut) cut := by
  simp [andFinally]

theorem wp.mono {x : Exec σ ε α} (h : wp x ok err cut s)
    (hok : ∀ a t, ok a t → ok' a t) (herr : ∀ e t, err e t → err' e t)
    (hcut : ∀ t, cut t → cut' t) : wp x ok' err' cut' s := by
  rw [wp] at h ⊢
  rcases hx : x s with ⟨r, t⟩
  rw [hx] at h
  cases r with
  | ok a => exact hok a t h
  | raised e => exact herr e t h
  | pending => exact hcut t h

theorem wp.and {x : Exec σ ε α} (h : wp x ok err cut s)
    (h' : wp x ok' err' cut' s) :
    wp x (fun a t => ok a t ∧ ok' a t) (fun e t => err e t ∧ err' e t)
      (fun t => cut t ∧ cut' t) s := by
  rw [wp] at h h' ⊢
  rcases hx : x s with ⟨r, t⟩
  rw [hx] at h h'
  cases r with
  | ok a => exact ⟨h, h'⟩
  | raised e => exact ⟨h, h'⟩
  | pending => exact ⟨h, h'⟩

theorem wp.ok_of {x : Exec σ ε α} (h : wp x ok err cut s) {a : α} {t : σ}
    (hx : x s = (.ok a, t)) : ok a t := by
  rw [wp, hx] at h
  exact h

theorem wp.err_of {x : Exec σ ε α} (h : wp x ok err cut s) {e : ε} {t : σ}
    (hx : x s = (.raised e, t)) : err e t := by
  rw [wp, hx] at h
  exact h

theorem wp.cut_of {x : Exec σ ε α} (h : wp x ok err cut s) {t : σ}
    (hx : x s = (.pending, t)) : cut t := by
  rw [wp, hx] at h
  exact h

theorem bind_eq_ok {x : Exec σ ε α} {f : α → Exec σ ε β} {b : β} {t : σ}
    (h : (x >>= f) s = (.ok b, t)) :
    ∃ a u, x s = (.ok a, u) ∧ f a u = (.ok b, t) := by
  simp only [bind] at h
  rcases hx : x s with ⟨r, u⟩
  rw [hx] at h
  cases r with
  | ok a => exact ⟨a, u, rfl, h⟩
  | raised e => cases h
  | pending => cases h

theorem bind_of_ok {x : Exec σ ε α} {f : α → Exec σ ε β} {a : α} {t : σ}
    (h : x s = (.ok a, t)) : (x >>= f) s = f a t := by
  simp only [bind, h]

theorem bind_of_raised {x : Exec σ ε α} {f : α → Exec σ ε β} {e : ε}
    (h : (x s).1 = .raised e) : (x >>= f) s = (.raised e, (x s).2) := by
  simp only [bind]
  rcases hx : x s with ⟨r, t⟩
  rw [hx] at h
  cases h
  rfl

theorem bind_of_pending {x : Exec σ ε α} {f : α → Exec σ ε β}
    (h : (x s).1 = .pending) : (x >>= f) s = (.pending, (x s).2) := by
  simp only [bind]
  rcases hx : x s with ⟨r, t⟩
  rw [hx] at h
  cases h
  rfl

/-- A `finally` block that cannot raise. -/
theorem andFinally_update {x : Exec σ ε α} {f : σ → σ}
    (h : (x s).1 ≠ .pending) :
    andFinally x (update f) s = ((x s).1, f (x s).2) := by
  rcases hx : x s with ⟨r, t⟩
  rw [hx] at h
  simp only [andFinally, attempt, bind, hx]
  cases r with
  | ok a => rfl
  | raised e => rfl
  | pending => exact absurd rfl h

theorem andFinally_of_pending {x : Exec σ ε α} {f : Exec σ ε Unit}
    (h : (x s).1 = .pending) : andFinally x f s = (.pending, (x s).2) := by
  rcases hx : x s with ⟨r, t⟩
  rw [hx] at h
  cases h
  simp only [andFinally, attempt, bind, hx]

/-- The rule of a loop; `I n` holds with `n` turns left. -/
theorem wp_whileDo {ok : Unit → σ → Prop} {I : ℕ → σ → Prop} {cond : σ → Bool}
    {x : Exec σ ε Unit}
    (hx : ∀ n s, I (n + 1) s → cond s = true →
      wp x (fun _ => I n) err cut s)
    (hcut : ∀ s, I 0 s → cond s = true → cut s)
    (hok : ∀ n s, I n s → cond s = false → ok () s) (n : ℕ) (hs : I n s) :
    wp (whileDo cond x n) ok err cut s := by
  induction n generalizing s with
  | zero =>
      rw [whileDo, wp_look_apply]
      split
      · next hc => exact hcut s hs hc
      · next hc => exact hok 0 s hs (Bool.eq_false_iff.mpr hc)
  | succ n ih =>
      rw [whileDo, wp_look_apply]
      split
      · next hc =>
        rw [wp_bind]
        exact (hx n s hs hc).mono (fun _ _ ht => ih ht) (fun _ _ h => h)
          fun _ h => h
      · next hc => exact hok _ s hs (Bool.eq_false_iff.mpr hc)

theorem wp_doUntil {ok : Unit → σ → Prop} {I : ℕ → σ → Prop} {stop : σ → Bool}
    {x : Exec σ ε Unit}
    (hx : ∀ n s, I (n + 1) s → wp x
      (fun _ t => (stop t = true → ok () t) ∧ (stop t = false → I n t))
      err cut s)
    (hcut : ∀ s, I 0 s → cut s) (n : ℕ) (hs : I n s) :
    wp (doUntil stop x n) ok err cut s := by
  induction n generalizing s with
  | zero => exact hcut s hs
  | succ n ih =>
      rw [doUntil, wp_bind]
      refine (hx n s hs).mono (fun _ t ht => ?_) (fun _ _ h => h)
        fun _ h => h
      rw [wp_look_apply]
      split
      · next hstop => exact ht.1 hstop
      · next hstop => exact ih (ht.2 (Bool.eq_false_iff.mpr hstop))

theorem wp_forEach {I : σ → Prop} {f : γ → Exec σ ε Unit} {as : List γ}
    (hf : ∀ a ∈ as, ∀ s, I s → wp (f a) (fun _ => I) err cut s) (hs : I s) :
    wp (forEach f as) (fun _ => I) err cut s := by
  induction as generalizing s with
  | nil => exact hs
  | cons a as ih =>
      rw [forEach, wp_bind]
      refine (hf a List.mem_cons_self s hs).mono (fun _ t ht => ?_)
        (fun _ _ h => h) fun _ h => h
      exact ih (fun b hb => hf b (List.mem_cons_of_mem _ hb)) ht

/-! ## Going along a relation -/

/-- However it ends, `x` ends in a state that `R` leads to. -/
def Within (R : σ → σ → Prop) (x : Exec σ ε α) : Prop := ∀ s, R s (x s).2

section

variable {R : σ → σ → Prop} {x : Exec σ ε α} {f : α → Exec σ ε β}

theorem Within.wp (h : Within R x) :
    Exec.wp x (fun _ => R s) (fun _ => R s) (R s) s := by
  have hs := h s
  rw [Exec.wp]
  rcases hx : x s with ⟨r, t⟩
  rw [hx] at hs
  cases r <;> exact hs

theorem Within.of_wp
    (h : ∀ s, Exec.wp x (fun _ => R s) (fun _ => R s) (R s) s) :
    Within R x := by
  intro s
  have hs := h s
  rw [Exec.wp] at hs
  rcases hx : x s with ⟨r, t⟩
  rw [hx] at hs
  cases r <;> exact hs

theorem within_update {g : σ → σ} (h : ∀ s, R s (g s)) :
    Within R (update g : Exec σ ε Unit) := h

theorem within_look {g : σ → Exec σ ε α} (h : ∀ s, R s (g s s).2) :
    Within R (look g) := h

theorem Within.look {g : σ → Exec σ ε α} (h : ∀ s, Within R (g s)) :
    Within R (look g) := fun s => h s s

variable [Std.Refl R]

theorem within_pure {a : α} : Within R (pure a : Exec σ ε α) :=
  fun s => Std.Refl.refl s

theorem within_raise {e : ε} : Within R (raise e : Exec σ ε α) :=
  fun s => Std.Refl.refl s

theorem within_pending : Within R (pending : Exec σ ε α) :=
  fun s => Std.Refl.refl s

theorem within_reraise {r : Except ε α} :
    Within R (reraise r : Exec σ ε α) := by
  cases r with
  | ok a => exact within_pure
  | error e => exact within_raise

variable [IsTrans σ R]

omit [Std.Refl R] in
theorem Within.bind (hx : Within R x) (hf : ∀ a, Within R (f a)) :
    Within R (x >>= f) := by
  have htrans : ∀ {s t u}, R s t → R t u → R s u := IsTrans.trans _ _ _
  refine .of_wp fun s => ?_
  rw [wp_bind]
  refine hx.wp.mono (fun a t ht => ?_) (fun _ _ h => h) fun _ h => h
  exact (hf a).wp.mono (fun _ _ h => htrans ht h) (fun _ _ h => htrans ht h)
    fun _ h => htrans ht h

omit [Std.Refl R] [IsTrans σ R] in
theorem Within.attempt (hx : Within R x) : Within R (attempt x) := by
  refine .of_wp fun s => ?_
  rw [wp_attempt]
  exact hx.wp

theorem Within.andFinally {g : Exec σ ε Unit} (hx : Within R x)
    (hg : Within R g) : Within R (andFinally x g) :=
  hx.attempt.bind fun _ => hg.bind fun _ => within_reraise

variable {g : Exec σ ε Unit}

theorem Within.whileDo {cond : σ → Bool} (hg : Within R g) (n : ℕ) :
    Within R (whileDo cond g n) := by
  induction n with
  | zero =>
      refine .look fun s => ?_
      split
      · exact within_pending
      · exact within_pure
  | succ n ih =>
      refine .look fun s => ?_
      split
      · exact hg.bind fun _ => ih
      · exact within_pure

theorem Within.doUntil {stop : σ → Bool} (hg : Within R g) (n : ℕ) :
    Within R (doUntil stop g n) := by
  induction n with
  | zero => exact within_pending
  | succ n ih =>
      refine hg.bind fun _ => .look fun s => ?_
      split
      · exact within_pure
      · exact ih

theorem Within.forEach {f : γ → Exec σ ε Unit} (hf : ∀ a, Within R (f a))
    (as : List γ) : Within R (forEach f as) := by
  induction as with
  | nil => exact within_pure
  | cons a as ih => exact (hf a).bind fun _ => ih

end

/-! ## Two runs in step -/

/-- From states that `R` relates, `x` and `y` end alike and in such states. -/
def Sync (R : σ → σ → Prop) (x y : Exec σ ε α) : Prop :=
  ∀ s t, R s t → (x s).1 = (y t).1 ∧ R (x s).2 (y t).2

section

variable {R : σ → σ → Prop}

theorem sync_pure (a : α) : Sync R (pure a : Exec σ ε α) (pure a) :=
  fun _ _ h => ⟨rfl, h⟩

theorem sync_raise (e : ε) : Sync R (raise e : Exec σ ε α) (raise e) :=
  fun _ _ h => ⟨rfl, h⟩

theorem sync_pending : Sync R (pending : Exec σ ε α) pending :=
  fun _ _ h => ⟨rfl, h⟩

theorem sync_update {f g : σ → σ} (h : ∀ s t, R s t → R (f s) (g t)) :
    Sync R (update f : Exec σ ε Unit) (update g) :=
  fun s t hst => ⟨rfl, h s t hst⟩

/-- What is done may go by the state, as far as `R` fixes that. -/
theorem sync_look {f g : σ → Exec σ ε α}
    (h : ∀ s t, R s t → Sync R (f s) (g t)) : Sync R (look f) (look g) :=
  fun s t hst => h s t hst s t hst

theorem sync_reraise (r : Except ε α) :
    Sync R (reraise r : Exec σ ε α) (reraise r) := by
  cases r with
  | ok a => exact sync_pure a
  | error e => exact sync_raise e

variable {x y : Exec σ ε α} {f g : α → Exec σ ε β}

theorem Sync.bind (h : Sync R x y) (hf : ∀ a, Sync R (f a) (g a)) :
    Sync R (x >>= f) (y >>= g) := by
  intro s t hst
  obtain ⟨hres, hend⟩ := h s t hst
  simp only [Bind.bind]
  rcases hx : x s with ⟨r, s'⟩
  rcases hy : y t with ⟨r', t'⟩
  rw [hx, hy] at hres hend
  cases hres
  cases r with
  | ok a => exact hf a s' t' hend
  | raised e => exact ⟨rfl, hend⟩
  | pending => exact ⟨rfl, hend⟩

/-- A step of one side that the other does not take. -/
theorem Sync.update_left {f : σ → σ} (h : Sync R x y)
    (hf : ∀ s t, R s t → R (f s) t) :
    Sync R (update f >>= fun _ => x) y :=
  fun s t hst => h (f s) t (hf s t hst)

theorem Sync.attempt (h : Sync R x y) : Sync R (attempt x) (attempt y) := by
  intro s t hst
  obtain ⟨hres, hend⟩ := h s t hst
  simp only [Exec.attempt]
  rcases hx : x s with ⟨r, s'⟩
  rcases hy : y t with ⟨r', t'⟩
  rw [hx, hy] at hres hend
  cases hres
  cases r <;> exact ⟨rfl, hend⟩

theorem Sync.andFinally {u v : Exec σ ε Unit} (h : Sync R x y)
    (hu : Sync R u v) : Sync R (andFinally x u) (andFinally y v) :=
  h.attempt.bind fun r => hu.bind fun _ => sync_reraise r

theorem Sync.whileDo {u v : Exec σ ε Unit} {cond cond' : σ → Bool}
    (h : Sync R u v) (hcond : ∀ s t, R s t → cond s = cond' t) (n : ℕ) :
    Sync R (whileDo cond u n) (whileDo cond' v n) := by
  induction n with
  | zero =>
      refine sync_look fun s t hst => ?_
      rw [hcond s t hst]
      split
      · exact sync_pending
      · exact sync_pure ()
  | succ n ih =>
      refine sync_look fun s t hst => ?_
      rw [hcond s t hst]
      split
      · exact h.bind fun _ => ih
      · exact sync_pure ()

theorem Sync.doUntil {u v : Exec σ ε Unit} {stop stop' : σ → Bool}
    (h : Sync R u v) (hstop : ∀ s t, R s t → stop s = stop' t) (n : ℕ) :
    Sync R (doUntil stop u n) (doUntil stop' v n) := by
  induction n with
  | zero => exact sync_pending
  | succ n ih =>
      refine h.bind fun _ => sync_look fun s t hst => ?_
      rw [hstop s t hst]
      split
      · exact sync_pure ()
      · exact ih

theorem Sync.forEach {f g : γ → Exec σ ε Unit} {as : List γ}
    (h : ∀ a ∈ as, Sync R (f a) (g a)) : Sync R (forEach f as) (forEach g as) := by
  induction as with
  | nil => exact sync_pure ()
  | cons a as ih =>
      exact (h a List.mem_cons_self).bind fun _ =>
        ih fun b hb => h b (List.mem_cons_of_mem a hb)

end

end Exec
