import Koko.Lib.Outcome

/-! Two computations that throw, run side by side. -/
namespace Koko.Lib
variable {ε α β γ : Type}

/-- Both return related values, or both throw the same. -/
def Lockstep (related : α → β → Prop) : Except ε α → Except ε β → Prop
  | .ok a, .ok b => related a b
  | .error e, .error e' => e = e'
  | _, _ => False

theorem lockstep_self {related : α → α → Prop} (h : ∀ a, related a a) (x : Except ε α) : Lockstep related x x := by
  cases x with
  | error e => rfl
  | ok a => exact h a

theorem Lockstep.map {α' β' : Type} {related : α → β → Prop} {related' : α' → β' → Prop} {x : Except ε α} {y : Except ε β}
    (h : Lockstep related x y) {f : α → α'} {g : β → β'}
    (hfg : ∀ a b, x = .ok a → y = .ok b → related a b → related' (f a) (g b)) :
    Lockstep related' (x.map f) (y.map g) := by
  cases x with
  | error e =>
    cases y with
    | error e' => exact h
    | ok b => exact h
  | ok a =>
    cases y with
    | error e' => exact h
    | ok b => exact hfg a b rfl rfl h

/-- Two folds whose steps keep a relation keep it to the end, or throw at the same place. -/
theorem lockstep_foldlM {related : α → β → Prop} {f : α → γ → Except ε α} {g : β → γ → Except ε β} {es : List γ}
    (step : ∀ a b, ∀ e ∈ es, related a b → Lockstep related (f a e) (g b e)) {a : α} {b : β} (h : related a b) :
    Lockstep related (es.foldlM f a) (es.foldlM g b) := by
  induction es generalizing a b with
  | nil => exact h
  | cons e es ih =>
    have hfirst := step a b e List.mem_cons_self h
    rw [List.foldlM_cons, List.foldlM_cons]
    cases hf : f a e with
    | error err =>
      cases hg : g b e with
      | error err' => rwa [hf, hg] at hfirst
      | ok b' => rw [hf, hg] at hfirst; exact hfirst.elim
    | ok a' =>
      cases hg : g b e with
      | error err' => rw [hf, hg] at hfirst; exact hfirst.elim
      | ok b' =>
        rw [hf, hg] at hfirst
        exact ih (fun a b e he => step a b e (List.mem_cons_of_mem _ he)) hfirst

end Koko.Lib
