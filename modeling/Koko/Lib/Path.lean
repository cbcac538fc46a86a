import Mathlib.Data.List.Basic

/-! Runs of a step function that may fail, and finite paths of a labelled transition relation. -/
namespace Koko.Lib
variable {σ ε : Type}

/-- What every step of a run preserves holds at its end. -/
theorem foldlM_invariant {f : σ → ε → Option σ} (p : σ → Prop) {es : List ε}
    (preserved : ∀ a e b, e ∈ es → p a → f a e = some b → p b) {a c : σ} (ha : p a)
    (h : es.foldlM f a = some c) : p c := by
  induction es generalizing a with
  | nil =>
    obtain rfl := Option.some.inj h
    exact ha
  | cons e es ih =>
    rw [List.foldlM_cons, Option.bind_eq_bind, Option.bind_eq_some_iff] at h
    obtain ⟨b, hb, h⟩ := h
    exact ih (fun a e b he => preserved a e b (List.mem_cons_of_mem _ he)) (preserved a e b List.mem_cons_self ha hb) h

/-- What every step preserves, of the steps so far and the state, holds at the end of a run. -/
theorem foldlM_history {f : σ → ε → Option σ} (p : List ε → σ → Prop)
    (preserved : ∀ past a e b, p past a → f a e = some b → p (past ++ [e]) b) {past es : List ε} {a c : σ} (ha : p past a)
    (h : es.foldlM f a = some c) : p (past ++ es) c := by
  induction es generalizing past a with
  | nil =>
    obtain rfl := Option.some.inj h
    rwa [List.append_nil]
  | cons e es ih =>
    rw [List.foldlM_cons, Option.bind_eq_bind, Option.bind_eq_some_iff] at h
    obtain ⟨b, hb, h⟩ := h
    rw [List.append_cons]
    exact ih (preserved past a e b ha hb) h

/-- The labels, read in order, lead from the first state to the last. -/
def Path (turn : σ → ε → σ → Prop) : σ → List ε → σ → Prop
  | a, [], c => a = c
  | a, e :: es, c => ∃ b, turn a e b ∧ Path turn b es c

variable {turn : σ → ε → σ → Prop}

theorem path_append_iff {a c : σ} (es fs : List ε) :
    Path turn a (es ++ fs) c ↔ ∃ b, Path turn a es b ∧ Path turn b fs c := by
  induction es generalizing a with
  | nil => simp [Path]
  | cons e es ih =>
    simp only [List.cons_append, Path, ih]
    constructor
    · rintro ⟨b, hb, d, hd, hf⟩
      exact ⟨d, ⟨b, hb, hd⟩, hf⟩
    · rintro ⟨d, ⟨b, hb, hd⟩, hf⟩
      exact ⟨b, hb, d, hd, hf⟩

theorem Path.snoc {a b c : σ} {es : List ε} {e : ε} (h : Path turn a es b) (ht : turn b e c) :
    Path turn a (es ++ [e]) c := (path_append_iff es [e]).mpr ⟨b, h, c, ht, rfl⟩

/-- What every turn of the path preserves holds at its end. -/
theorem Path.invariant {a c : σ} {es : List ε} (p : σ → Prop) (h : Path turn a es c)
    (preserved : ∀ b e d, e ∈ es → p b → turn b e d → p d) (ha : p a) : p c := by
  induction es generalizing a with
  | nil => exact h ▸ ha
  | cons e es ih =>
    obtain ⟨b, hb, h⟩ := h
    exact ih h (fun b e d he => preserved b e d (List.mem_cons_of_mem _ he)) (preserved a e b List.mem_cons_self ha hb)

end Koko.Lib
