import Mathlib.Algebra.BigOperators.Group.List.Basic
import Mathlib.Algebra.Ring.Nat
import Mathlib.Data.List.Infix

/-! Counting the places of a text where a pattern begins, piece by piece. -/
namespace Koko.Lib
variable {α : Type} [DecidableEq α]

/-- The number of places where a nonempty pattern begins. -/
def occurrences (pattern : List α) : List α → Nat
  | [] => 0
  | c :: s => (if pattern <+: c :: s then 1 else 0) + occurrences pattern s

variable {pattern : List α}

/-- The text does not end inside the pattern. -/
def Closes (pattern a : List α) : Prop := ∀ z ∈ a.getLast?, z ∉ pattern.dropLast

/-- The text does not begin inside the pattern. -/
def Opens (pattern b : List α) : Prop := ∀ z ∈ b.head?, z ∉ pattern.tail

instance (a : List α) : Decidable (Closes pattern a) := inferInstanceAs (Decidable (∀ z ∈ a.getLast?, _))

instance (b : List α) : Decidable (Opens pattern b) := inferInstanceAs (Decidable (∀ z ∈ b.head?, _))

omit [DecidableEq α] in
theorem Closes.tail {c : α} {a : List α} (h : Closes pattern (c :: a)) : Closes pattern a := by
  cases a with
  | nil => exact fun z hz => nomatch hz
  | cons d a =>
    intro z hz
    exact h z (by rwa [List.getLast?_cons_cons])

omit [DecidableEq α] in
theorem closes_append {b : List α} (h : Closes pattern b) (hb : b ≠ []) (a : List α) : Closes pattern (a ++ b) := by
  intro z hz
  rw [List.getLast?_append_of_ne_nil a hb] at hz
  exact h z hz

omit [DecidableEq α] in
theorem opens_append {a : List α} (h : Opens pattern a) (ha : a ≠ []) (b : List α) : Opens pattern (a ++ b) := by
  intro z hz
  rw [List.head?_append_of_ne_nil a ha] at hz
  exact h z hz

omit [DecidableEq α] in
/-- No occurrence lies across the border of two pieces. -/
theorem starts_append_iff {a b : List α} (h : Closes pattern a ∨ Opens pattern b) (ha : a ≠ []) :
    pattern <+: a ++ b ↔ pattern <+: a := by
  refine ⟨fun hp => ?_, fun hp => hp.trans (List.prefix_append a b)⟩
  rcases Nat.le_total pattern.length a.length with hl | hl
  · exact List.prefix_of_prefix_length_le hp (List.prefix_append a b) hl
  · obtain ⟨v, rfl⟩ := List.prefix_of_prefix_length_le (List.prefix_append a b) hp hl
    rw [List.prefix_append_right_inj] at hp
    cases v with
    | nil => simp
    | cons z v =>
      rcases h with hc | ho
      · obtain ⟨l, y, rfl⟩ := (List.eq_nil_or_concat a).resolve_left ha
        refine absurd ?_ (hc y (by simp))
        rw [List.concat_eq_append, List.append_assoc, List.dropLast_append_of_ne_nil (by simp)]
        simp
      · obtain ⟨r, rfl⟩ := hp
        refine absurd ?_ (ho z rfl)
        rw [List.tail_append_of_ne_nil ha]
        simp

/-- Pieces that an occurrence cannot join are counted one by one. -/
theorem occurrences_append {a b : List α} (h : Closes pattern a ∨ Opens pattern b) :
    occurrences pattern (a ++ b) = occurrences pattern a + occurrences pattern b := by
  induction a with
  | nil => simp [occurrences]
  | cons c a ih =>
    have hs : pattern <+: c :: (a ++ b) ↔ pattern <+: c :: a := starts_append_iff h (List.cons_ne_nil c a)
    rw [List.cons_append, occurrences, occurrences, ih (h.imp_left Closes.tail), if_congr hs rfl rfl, Nat.add_assoc]

omit [DecidableEq α] in
theorem opens_flatMap {β : Type} {f : β → List α} (h : ∀ x, f x ≠ [] ∧ Opens pattern (f x)) (xs : List β) :
    Opens pattern (xs.flatMap f) := by
  cases xs with
  | nil => exact fun z hz => nomatch hz
  | cons x xs => exact opens_append (h x).2 (h x).1 _

theorem occurrences_flatMap {β : Type} {f : β → List α} (h : ∀ x, f x ≠ [] ∧ Opens pattern (f x)) (xs : List β) :
    occurrences pattern (xs.flatMap f) = (xs.map (fun x => occurrences pattern (f x))).sum := by
  induction xs with
  | nil => rfl
  | cons x xs ih =>
    rw [List.flatMap_cons, occurrences_append (.inr (opens_flatMap h xs)), ih, List.map_cons, List.sum_cons]

/-- A text without the first letter of the pattern has no occurrence. -/
theorem occurrences_of_not_mem {z : α} {s : List α} (h : z ∉ s) : occurrences (z :: pattern) s = 0 := by
  induction s with
  | nil => rfl
  | cons c s ih =>
    have hn : ¬ z :: pattern <+: c :: s := fun hp => h (by simp [(List.cons_prefix_cons.mp hp).1])
    rw [occurrences, if_neg hn, ih (fun hm => h (List.mem_cons_of_mem c hm))]

theorem occurrences_eq_zero_iff (hne : pattern ≠ []) {s : List α} : occurrences pattern s = 0 ↔ ¬ pattern <:+: s := by
  induction s with
  | nil => simp [occurrences, hne]
  | cons c s ih =>
    rw [occurrences, Nat.add_eq_zero_iff, ih, List.infix_cons_iff, not_or]
    refine and_congr_left fun _ => ?_
    split_ifs with hp
    · simp [hp]
    · simp [hp]

end Koko.Lib
