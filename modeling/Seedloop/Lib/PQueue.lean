import Mathlib.Data.List.Sort
import Mathlib.Data.List.TakeWhile

/-!
# Priority queues, as a client sees them

A binary heap keeps its least entry at the front and says nothing about the
rest; what a client can observe is only the order in which entries come out.
`PQueue` is that order: a list kept sorted by a key, so the head is the least
entry and popping in sequence reads the list from the left. The order is a
field of the structure, so no lemma below re-proves it and no operation can
lose it.

The one fact about insertion every proof uses is `filter_push`: an entry that
no selected entry outranks lands after all of them, whatever else the queue
holds, and an entry that is not selected is not seen at all.
-/

universe u v

/-- Entries in the order of their keys. -/
structure PQueue (α : Type u) {κ : Type v} [LinearOrder κ] (key : α → κ) where
  entries : List α
  sorted : entries.Pairwise fun a b => key a ≤ key b

namespace PQueue

variable {α : Type u} {κ : Type v} [LinearOrder κ] {key : α → κ}

/-- The queue with nothing in it. -/
def empty : PQueue α key := ⟨[], List.Pairwise.nil⟩

/-- Put an entry in its place: before the first one it does not outrank. -/
def push (q : PQueue α key) (a : α) : PQueue α key where
  entries := q.entries.orderedInsert (fun a b => key a ≤ key b) a
  sorted :=
    haveI : Std.Total fun a b : α => key a ≤ key b :=
      ⟨fun a b => le_total (key a) (key b)⟩
    haveI : IsTrans α fun a b : α => key a ≤ key b :=
      ⟨fun _ _ _ => le_trans⟩
    q.sorted.orderedInsert a q.entries

/-- Pop entries for as long as the front one satisfies `p`: what is left. -/
def dropWhile (q : PQueue α key) (p : α → Bool) : PQueue α key where
  entries := q.entries.dropWhile p
  sorted := q.sorted.sublist (List.dropWhile_sublist p)

/-- The entries a `dropWhile` pops, in the order it pops them. -/
def takeWhile (q : PQueue α key) (p : α → Bool) : List α :=
  q.entries.takeWhile p

/-- The front entry. -/
def head? (q : PQueue α key) : Option α := q.entries.head?

/-- Take one entry out, wherever it stands. -/
def eraseP (q : PQueue α key) (p : α → Bool) : PQueue α key where
  entries := q.entries.eraseP p
  sorted := q.sorted.sublist List.eraseP_sublist

@[simp] theorem empty_entries : (empty : PQueue α key).entries = [] := rfl

@[simp] theorem mem_push {q : PQueue α key} {a b : α} :
    b ∈ (q.push a).entries ↔ b = a ∨ b ∈ q.entries :=
  List.mem_orderedInsert _

theorem push_perm (q : PQueue α key) (a : α) :
    (q.push a).entries.Perm (a :: q.entries) :=
  List.perm_orderedInsert _ a q.entries

/-- The entries are the popped ones and the ones left, in that order. -/
theorem takeWhile_append_dropWhile (q : PQueue α key) (p : α → Bool) :
    q.takeWhile p ++ (q.dropWhile p).entries = q.entries :=
  List.takeWhile_append_dropWhile

theorem mem_of_mem_dropWhile {q : PQueue α key} {p : α → Bool} {a : α}
    (h : a ∈ (q.dropWhile p).entries) : a ∈ q.entries :=
  (List.dropWhile_sublist p).subset h

/-- The front entry is the least. -/
theorem head_le {q : PQueue α key} {a b : α} (ha : q.head? = some a)
    (hb : b ∈ q.entries) : key a ≤ key b := by
  obtain ⟨rest, hrest⟩ := List.head?_eq_some_iff.mp ha
  have hs := q.sorted
  rw [hrest] at hs hb
  rcases List.mem_cons.mp hb with rfl | hmem
  · exact le_rfl
  · exact List.rel_of_pairwise_cons hs hmem

/-- When `p` holds of every entry below one it holds of, popping while it
holds takes all the entries it holds of. -/
theorem not_of_mem_dropWhile {q : PQueue α key} {p : α → Bool}
    (hp : ∀ {a b}, key a ≤ key b → p b = true → p a = true) {a : α}
    (h : a ∈ (q.dropWhile p).entries) : p a = false := by
  have hs := (q.dropWhile p).sorted
  have hhd : ∀ b, (q.entries.dropWhile p).head? = some b → p b = false := by
    intro b hb
    have := List.head?_dropWhile_not p q.entries
    rw [hb] at this
    simpa using this
  cases hd : (q.dropWhile p).entries with
  | nil => rw [hd] at h; cases h
  | cons b rest =>
      have hb : p b = false := hhd b (by rw [show q.entries.dropWhile p =
        (q.dropWhile p).entries from rfl, hd]; rfl)
      rw [hd] at h hs
      rcases List.mem_cons.mp h with rfl | hmem
      · exact hb
      · cases hpa : p a with
        | false => rfl
        | true =>
            rw [hp (List.rel_of_pairwise_cons hs hmem) hpa] at hb
            cases hb

theorem filter_push_of_not (q : PQueue α key) {a : α} {p : α → Bool}
    (ha : p a = false) : (q.push a).entries.filter p = q.entries.filter p := by
  show (q.entries.orderedInsert _ a).filter p = _
  rw [List.orderedInsert_eq_take_drop, List.filter_append,
    List.filter_cons_of_neg (by simp [ha]), ← List.filter_append,
    List.takeWhile_append_dropWhile]

/-- An entry that no selected entry is above goes behind all of them. -/
theorem filter_push (q : PQueue α key) {a : α} {p : α → Bool}
    (ha : p a = true)
    (hle : ∀ b ∈ q.entries, p b = true → key b < key a) :
    (q.push a).entries.filter p = q.entries.filter p ++ [a] := by
  show (q.entries.orderedInsert _ a).filter p = _
  rw [List.orderedInsert_eq_take_drop, List.filter_append,
    List.filter_cons_of_pos ha]
  have hdrop : (q.entries.dropWhile fun b => ¬ key a ≤ key b).filter p
      = [] := by
    rw [List.filter_eq_nil_iff]
    intro b hb hpb
    have hlt := hle b ((List.dropWhile_sublist _).subset hb) hpb
    have hnot := q.not_of_mem_dropWhile
      (p := fun b => decide ¬ key a ≤ key b)
      (by
        intro b c hbc hc
        simp only [decide_eq_true_eq, not_le] at hc ⊢
        exact lt_of_le_of_lt hbc hc) hb
    simp only [decide_eq_false_iff_not, not_not] at hnot
    exact absurd hnot (not_le.mpr hlt)
  have hwhole := List.takeWhile_append_dropWhile
    (p := fun b => decide ¬ key a ≤ key b) (l := q.entries)
  conv_rhs => rw [← hwhole, List.filter_append]
  rw [hdrop, List.append_nil]

end PQueue
