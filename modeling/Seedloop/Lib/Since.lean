import Mathlib.Data.List.Basic

/-!
# Since

The past operator of temporal logic on a history that grows at its end:
`Since P Q` says that an entry was `P` and every entry after it is `Q`. What a
register holds, which windows are open, whose turn it is: each of these is a
"since" of the history, and a state that is to agree with it has one thing to
prove, the case of one more entry.
-/

universe u

/-- Some entry satisfies `P`, and every later one `Q`. -/
def Since {α : Type u} (P Q : α → Prop) (h : List α) : Prop :=
  ∃ pre a post, h = pre ++ a :: post ∧ P a ∧ ∀ e ∈ post, Q e

namespace Since

variable {α : Type u} {P Q : α → Prop} {h : List α}

theorem not_nil : ¬ Since P Q [] := by
  rintro ⟨pre, a, post, heq, -⟩
  simp at heq

/-- One more entry starts it anew or carries it on. -/
theorem concat {e : α} : Since P Q (h ++ [e]) ↔ P e ∨ Since P Q h ∧ Q e := by
  constructor
  · rintro ⟨pre, a, post, heq, ha, hpost⟩
    rcases List.eq_nil_or_concat post with rfl | ⟨post, b, rfl⟩
    · obtain ⟨-, hea⟩ := List.append_inj' heq rfl
      rw [List.singleton_inj] at hea
      exact .inl (hea ▸ ha)
    · rw [List.concat_eq_append] at heq hpost
      rw [← List.cons_append, ← List.append_assoc] at heq
      obtain ⟨hh, heb⟩ := List.append_inj' heq rfl
      rw [List.singleton_inj] at heb
      refine .inr ⟨⟨pre, a, post, hh, ha, fun x hx => hpost x (by simp [hx])⟩, ?_⟩
      exact heb ▸ hpost b (by simp)
  · rintro (he | ⟨⟨pre, a, post, rfl, ha, hpost⟩, he⟩)
    · exact ⟨h, e, [], rfl, he, by simp⟩
    · refine ⟨pre, a, post ++ [e], by simp, ha, ?_⟩
      intro x hx
      rcases List.mem_append.mp hx with hx | hx
      · exact hpost x hx
      · exact List.mem_singleton.mp hx ▸ he

/-- The last entry starts it or carries it on. -/
theorem getLast? (hs : Since P Q h) : ∃ a, h.getLast? = some a ∧ (P a ∨ Q a) := by
  rcases List.eq_nil_or_concat h with rfl | ⟨h, e, rfl⟩
  · exact absurd hs not_nil
  · rw [List.concat_eq_append] at hs ⊢
    exact ⟨e, by simp, (concat.mp hs).imp_right And.right⟩

theorem exists_mem (hs : Since P Q h) : ∃ a ∈ h, P a := by
  obtain ⟨pre, a, post, rfl, ha, -⟩ := hs
  exact ⟨a, by simp, ha⟩

end Since

/-- The first entry of a kind is where it is, however the history is cut. -/
theorem eq_of_first {α : Type u} {P : α → Prop} {a b : α}
    {pre post pre' post' : List α} (h : pre ++ a :: post = pre' ++ b :: post')
    (ha : P a) (hb : P b) (hpre : ∀ x ∈ pre, ¬ P x)
    (hpre' : ∀ x ∈ pre', ¬ P x) : pre = pre' ∧ a = b ∧ post = post' := by
  induction pre generalizing pre' with
  | nil =>
      cases pre' with
      | nil => exact ⟨rfl, List.cons.inj h⟩
      | cons x pre' =>
          obtain ⟨rfl, -⟩ := List.cons.inj h
          exact absurd ha (hpre' a (by simp))
  | cons x pre ih =>
      cases pre' with
      | nil =>
          obtain ⟨rfl, -⟩ := List.cons.inj h
          exact absurd hb (hpre x (by simp))
      | cons y pre' =>
          obtain ⟨rfl, htail⟩ := List.cons.inj h
          obtain ⟨rfl, hrest⟩ := ih htail (fun z hz => hpre z (by simp [hz]))
            fun z hz => hpre' z (by simp [hz])
          exact ⟨rfl, hrest⟩

/-- Where the first entry of a kind is. -/
theorem exists_first {α β : Type*} {f : α → Option β} {h : List α} {b : β}
    (hb : h.findSome? f = some b) : ∃ a post, f a = some b ∧
      h = h.takeWhile (fun x => (f x).isNone) ++ a :: post ∧
      h.dropWhile (fun x => (f x).isNone) = a :: post := by
  induction h with
  | nil => cases hb
  | cons x h ih =>
      cases hx : f x with
      | some c =>
          rw [List.findSome?_cons, hx] at hb
          exact ⟨x, h, hx.trans hb, by simp [hx], by simp [hx]⟩
      | none =>
          rw [List.findSome?_cons, hx] at hb
          obtain ⟨a, post, ha, hcut, hdrop⟩ := ih hb
          refine ⟨a, post, ha, ?_, ?_⟩
          · rw [List.takeWhile_cons_of_pos (by rw [hx]; rfl), List.cons_append,
              ← hcut]
          · rw [List.dropWhile_cons_of_pos (by rw [hx]; rfl), hdrop]

/-- The first entry of a kind is in the part of a history that has one. -/
theorem exists_of_first {α : Type u} {P : α → Prop} {a x : α}
    {init rest pre post : List α} (h : init ++ rest = pre ++ a :: post)
    (hpre : ∀ y ∈ pre, ¬ P y) (hx : x ∈ init) (hP : P x) :
    ∃ mid, init = pre ++ a :: mid ∧ post = mid ++ rest := by
  rcases List.append_eq_append_iff.mp h with ⟨as, hcut, -⟩ | ⟨as, hcut, has⟩
  · rw [hcut] at hpre
    exact absurd hP (hpre x (List.mem_append_left _ hx))
  cases as with
  | nil =>
      rw [hcut, List.append_nil] at hx
      exact absurd hP (hpre x hx)
  | cons b mid =>
      obtain ⟨rfl, hpost⟩ := List.cons.inj has
      exact ⟨mid, hcut, hpost⟩

/-- The first entry of a kind is after a part of a history that has none. -/
theorem exists_of_later {α : Type u} {P : α → Prop} {a : α}
    {init rest pre post : List α} (h : init ++ rest = pre ++ a :: post)
    (hinit : ∀ y ∈ init, ¬ P y) (ha : P a) :
    ∃ mid, pre = init ++ mid ∧ rest = mid ++ a :: post := by
  rcases List.append_eq_append_iff.mp h with h' | ⟨as, rfl, has⟩
  · exact h'
  cases as with
  | nil => exact ⟨[], by simp, has.symm⟩
  | cons b mid =>
      obtain ⟨rfl, -⟩ := List.cons.inj has
      exact absurd ha (hinit a (by simp))
