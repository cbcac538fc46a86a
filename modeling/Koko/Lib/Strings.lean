import Mathlib.Data.List.DropRight
import Mathlib.Data.List.Infix

/-! The `std::string` operations used on request targets, and texts joined by a separator,
over any alphabet. -/
namespace Koko.Lib
section
variable {α : Type}

/-- A text without the characters of one kind at its two ends. -/
def trim (p : α → Bool) (s : List α) : List α := (s.dropWhile p).rdropWhile p

theorem infix_of_trim (p : α → Bool) (s : List α) : trim p s <:+: s :=
  (List.rdropWhile_prefix p _).isInfix.trans (List.dropWhile_suffix p).isInfix

theorem infix_intercalate (sep : List α) {l : List α} {ls : List (List α)} (h : l ∈ ls) : l <:+: sep.intercalate ls := by
  induction ls with
  | nil => cases h
  | cons l' ls ih =>
    by_cases hls : ls = []
    · subst hls
      obtain rfl := List.mem_singleton.mp h
      rw [List.intercalate_singleton]
    · rw [List.intercalate_cons_of_ne_nil hls, List.append_assoc]
      rcases List.mem_cons.mp h with rfl | hm
      · exact (List.prefix_append l _).isInfix
      · exact (ih hm).trans ((List.suffix_append sep _).trans (List.suffix_append l' _)).isInfix

end

section
variable {α : Type} [DecidableEq α]

/-- `rfind` of one character. -/
def rfind (c : α) : List α → Option Nat
  | [] => none
  | b :: s =>
    match rfind c s with
    | some i => some (i + 1)
    | none => if b = c then some 0 else none

theorem rfind_eq_none {c : α} {s : List α} (h : c ∉ s) : rfind c s = none := by
  induction s with
  | nil => rfl
  | cons b s ih =>
    rw [rfind, ih (fun hm => h (List.mem_cons_of_mem b hm)), if_neg]
    rintro rfl
    exact h (List.mem_cons_self)

theorem rfind_append_cons {c : α} (a : List α) {b : List α} (h : c ∉ b) :
    rfind c (a ++ c :: b) = some a.length := by
  induction a with
  | nil => simp [rfind, rfind_eq_none h]
  | cons d a ih => simp [rfind, ih]

/-- A string with `c` in it splits at its last occurrence. -/
theorem exists_last {c : α} {s : List α} (h : c ∈ s) : ∃ a b, s = a ++ c :: b ∧ c ∉ b := by
  induction s with
  | nil => simp at h
  | cons d s ih =>
    by_cases hm : c ∈ s
    · obtain ⟨a, b, rfl, hb⟩ := ih hm
      exact ⟨d :: a, b, rfl, hb⟩
    · rcases List.mem_cons.mp h with rfl | hm'
      · exact ⟨[], s, rfl, hm⟩
      · exact absurd hm' hm

theorem idxOf?_append_cons {c : α} {a : List α} (b : List α) (h : c ∉ a) :
    (a ++ c :: b).idxOf? c = some a.length := by
  induction a with
  | nil => simp [List.idxOf?_cons]
  | cons d a ih =>
    have hd : d ≠ c := by
      rintro rfl
      exact h List.mem_cons_self
    simp [List.idxOf?_cons, hd, ih (fun hm => h (List.mem_cons_of_mem d hm))]

/-- Texts joined by a separator split into the pieces of each. -/
theorem splitOn_intercalate_flatMap (x : α) {ls : List (List α)} (h : ls ≠ []) :
    ([x].intercalate ls).splitOn x = ls.flatMap (·.splitOn x) := by
  induction ls with
  | nil => exact absurd rfl h
  | cons l ls ih =>
    cases ls with
    | nil => simp
    | cons l' ls =>
      rw [List.intercalate_cons_cons, List.append_assoc, List.singleton_append, List.splitOn_append_cons_self,
        ih (List.cons_ne_nil l' ls)]
      exact List.flatMap_cons.symm

theorem infix_of_mem_splitOn {x : α} {l s : List α} (h : l ∈ s.splitOn x) : l <:+: s := by
  have hjoin : [x].intercalate (s.splitOn x) = s := List.intercalate_splitOn x
  rw [← hjoin]
  exact infix_intercalate [x] h

end
end Koko.Lib
