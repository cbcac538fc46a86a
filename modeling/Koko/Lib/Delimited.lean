import Mathlib.Data.List.Basic

/-! Printed values that can be told from what follows them. -/
namespace Koko.Lib
variable {α β : Type}

/-- Among the valid values the printed one can be read off the front of a text. -/
def Delimited (valid : α → Prop) (print : α → List β) : Prop :=
  ∀ ⦃a b⦄, valid a → valid b → ∀ ⦃u v⦄, print a ++ u = print b ++ v → a = b ∧ u = v

/-- A text in which a symbol does not occur, before that symbol. -/
theorem delimited_by (c : β) (tag : List β) : Delimited (fun s => c ∉ s) (fun s => s ++ c :: tag) := by
  intro a b ha hb u v h
  induction a generalizing b with
  | nil =>
    cases b with
    | nil => exact ⟨rfl, List.append_cancel_left h⟩
    | cons d b =>
      obtain ⟨rfl, -⟩ := List.cons.inj h
      exact absurd List.mem_cons_self hb
  | cons d a ih =>
    cases b with
    | nil =>
      obtain ⟨rfl, -⟩ := List.cons.inj h
      exact absurd List.mem_cons_self ha
    | cons e b =>
      obtain ⟨rfl, hrest⟩ := List.cons.inj h
      obtain ⟨rfl, huv⟩ := ih (fun hm => ha (List.mem_cons_of_mem _ hm)) (fun hm => hb (List.mem_cons_of_mem _ hm)) hrest
      exact ⟨rfl, huv⟩

/-- A list of such values, up to a text none of them begins with. -/
theorem Delimited.flatMap {valid : α → Prop} {print : α → List β} (h : Delimited valid print) {stop : List β}
    (hstop : ∀ a u v, valid a → print a ++ u ≠ stop ++ v) :
    Delimited (fun as : List α => ∀ a ∈ as, valid a) (fun as => as.flatMap print ++ stop) := by
  intro as bs has hbs u v he
  simp only [List.append_assoc] at he
  induction as generalizing bs with
  | nil =>
    cases bs with
    | nil => exact ⟨rfl, List.append_cancel_left he⟩
    | cons b bs =>
      rw [List.flatMap_nil, List.nil_append, List.flatMap_cons, List.append_assoc] at he
      exact absurd he.symm (hstop b _ _ (hbs b List.mem_cons_self))
  | cons a as ih =>
    cases bs with
    | nil =>
      rw [List.flatMap_nil, List.nil_append, List.flatMap_cons, List.append_assoc] at he
      exact absurd he (hstop a _ _ (has a List.mem_cons_self))
    | cons b bs =>
      rw [List.flatMap_cons, List.flatMap_cons, List.append_assoc, List.append_assoc] at he
      obtain ⟨rfl, hrest⟩ := h (has a List.mem_cons_self) (hbs b List.mem_cons_self) he
      obtain ⟨rfl, huv⟩ := ih (fun a ha => has a (List.mem_cons_of_mem _ ha))
        (fun b hb => hbs b (List.mem_cons_of_mem _ hb)) hrest
      exact ⟨rfl, huv⟩

end Koko.Lib
