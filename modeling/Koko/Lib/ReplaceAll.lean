import Mathlib.Data.List.Infix

/-! Replacing all occurrences of a text from left to right, and when a stretch of the
input is passed over unchanged. -/
namespace Koko.Lib
variable {α : Type} [DecidableEq α]

/-- The scan of `replace_all`; `skip` bytes belong to an occurrence already replaced. -/
def replaceFrom (search format : List α) : Nat → List α → List α
  | _, [] => []
  | skip + 1, _ :: s => replaceFrom search format skip s
  | 0, c :: s =>
    if search ≠ [] ∧ search <+: c :: s then format ++ replaceFrom search format (search.length - 1) s
    else c :: replaceFrom search format 0 s

def replaceAll (search format input : List α) : List α := replaceFrom search format 0 input

variable {search format : List α}

private theorem replaceFrom_eq_drop (n : Nat) (s : List α) :
    replaceFrom search format n s = replaceAll search format (s.drop n) := by
  induction n generalizing s with
  | zero => rfl
  | succ n ih =>
    cases s with
    | nil => rfl
    | cons c s => exact ih s

@[simp] theorem replaceAll_nil : replaceAll search format [] = [] := rfl

/-- An occurrence at the front is replaced. -/
theorem replaceAll_append (hne : search ≠ []) (s : List α) :
    replaceAll search format (search ++ s) = format ++ replaceAll search format s := by
  obtain ⟨c, t, rfl⟩ := List.exists_cons_of_ne_nil hne
  have hp : c :: t <+: c :: (t ++ s) := List.prefix_append (c :: t) s
  rw [List.cons_append, replaceAll, replaceFrom, if_pos ⟨hne, hp⟩, replaceFrom_eq_drop]
  simp

/-- No occurrence at the front: the scan moves on. -/
theorem replaceAll_cons {c : α} {s : List α} (h : ¬ search <+: c :: s) :
    replaceAll search format (c :: s) = c :: replaceAll search format s := by
  rw [replaceAll, replaceFrom, if_neg (fun hp => h hp.2)]
  rfl

/-- A text without an occurrence stays as it is. -/
theorem replaceAll_of_not_infix {s : List α} (h : ¬ search <:+: s) : replaceAll search format s = s := by
  induction s with
  | nil => rfl
  | cons c s ih =>
    have hs : ¬ search <:+: s := fun hi => h (hi.trans (List.suffix_cons c s).isInfix)
    rw [replaceAll_cons (fun hp => h hp.isInfix), ih hs]

/-- Replacing one letter is replacing it wherever it stands. -/
theorem replaceAll_singleton (a : α) (s : List α) :
    replaceAll [a] format s = s.flatMap (fun c => if c = a then format else [c]) := by
  induction s with
  | nil => rfl
  | cons c s ih =>
    rw [List.flatMap_cons, ← ih]
    split_ifs with h
    · rw [h]
      exact replaceAll_append (List.cons_ne_nil a []) s
    · exact replaceAll_cons (fun hp => h (List.cons_prefix_cons.mp hp).1.symm)

/-- The output is made of the input and the inserted text. -/
theorem mem_of_mem_replaceAll {b : α} {s : List α} (h : b ∈ replaceAll search format s) : b ∈ format ∨ b ∈ s := by
  have hfrom : ∀ n s, b ∈ replaceFrom search format n s → b ∈ format ∨ b ∈ s := by
    intro n s
    induction s generalizing n with
    | nil =>
      intro hm
      simp [replaceFrom] at hm
    | cons c s ih =>
      intro hm
      cases n with
      | succ n => exact (ih n hm).imp_right (List.mem_cons_of_mem c)
      | zero =>
        rw [replaceFrom] at hm
        split_ifs at hm
        · rcases List.mem_append.mp hm with hm | hm
          · exact .inl hm
          · exact (ih _ hm).imp_right (List.mem_cons_of_mem c)
        · rcases List.mem_cons.mp hm with rfl | hm
          · exact .inr List.mem_cons_self
          · exact (ih _ hm).imp_right (List.mem_cons_of_mem c)
  exact hfrom 0 s h

/-- A stretch without the first letter of the search text is passed over. -/
theorem replaceAll_append_of_head {a : α} {w : List α} (hw : a ∉ w) (v : List α) :
    replaceAll (a :: search) format (w ++ v) = w ++ replaceAll (a :: search) format v := by
  induction w with
  | nil => rfl
  | cons c w ih =>
    rw [List.cons_append, replaceAll_cons, ih (fun hm => hw (List.mem_cons_of_mem c hm)), List.cons_append]
    rintro ⟨t, ht⟩
    exact hw (by simp [(List.cons.inj ht).1])

omit [DecidableEq α] in
private theorem not_prefix_over {a b w v : List α} {z c : α} (hw : z ∉ w) (hz : c ≠ z) (ha : c ∉ a) :
    ¬ a ++ z :: b <+: w ++ c :: v := by
  rintro ⟨r, hr⟩
  rw [List.append_assoc] at hr
  rcases List.append_eq_append_iff.mp hr with ⟨m, rfl, hm⟩ | ⟨m, rfl, hm⟩
  · cases m with
    | nil => exact hz (List.cons.inj hm).1.symm
    | cons d m => exact hw (by simp [(List.cons.inj hm).1])
  · cases m with
    | nil => exact hz (List.cons.inj hm).1
    | cons d m => exact ha (by simp [(List.cons.inj hm).1])

/-- A stretch without the letter `z` of the search text is passed over, if the letter after
it does not occur up to `z`. -/
theorem replaceAll_append_of_free {a b w : List α} {z c : α} (hw : z ∉ w) (hz : c ≠ z) (ha : c ∉ a) (v : List α) :
    replaceAll (a ++ z :: b) format (w ++ c :: v) = w ++ replaceAll (a ++ z :: b) format (c :: v) := by
  induction w with
  | nil => rfl
  | cons d w ih =>
    have hn : ¬ a ++ z :: b <+: d :: (w ++ c :: v) := not_prefix_over hw hz ha
    rw [List.cons_append, replaceAll_cons hn, ih (fun hm => hw (List.mem_cons_of_mem d hm)), List.cons_append]

end Koko.Lib
