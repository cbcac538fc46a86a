import Mathlib.Logic.Relation

/-! A loop by its body. A pass of the body goes around again with a new state, or leaves the loop
with a result. -/
namespace Koko.Lib

inductive Pass (σ ρ : Type) where
  | again (s : σ)
  | leave (r : ρ)

namespace Pass
variable {σ τ ρ κ : Type}

def map (f : σ → τ) (g : ρ → κ) : Pass σ ρ → Pass τ κ
  | again s => again (f s)
  | leave r => leave (g r)

/-- The pass goes around with a state in `P`, or leaves with a result in `Q`. -/
def Meets (P : σ → Prop) (Q : ρ → Prop) : Pass σ ρ → Prop
  | again s => P s
  | leave r => Q r

/-- What follows the pass: `f` of the state it goes around with, or `g` of the result. -/
def elim (f : σ → κ) (g : ρ → κ) : Pass σ ρ → κ
  | again s => f s
  | leave r => g r

/-- The loop, given up after so many passes. -/
def loop (body : σ → Pass σ ρ) : Nat → σ → Option ρ
  | 0, _ => none
  | fuel + 1, s =>
    match body s with
    | again s' => loop body fuel s'
    | leave r => some r

/-- The states at the head of the loop when it is entered with a given one. -/
def Visits (body : σ → Pass σ ρ) : σ → σ → Prop := Relation.ReflTransGen (fun s s' => body s = again s')

variable {body : σ → Pass σ ρ}

theorem loop_again {s s' : σ} (h : body s = again s') (fuel : Nat) : loop body (fuel + 1) s = loop body fuel s' := by
  rw [loop, h]

theorem loop_leave {s : σ} {r : ρ} (h : body s = leave r) (fuel : Nat) : loop body (fuel + 1) s = some r := by
  rw [loop, h]

/-- What every pass keeps holds each time at the head of the loop. -/
theorem inv_of_visits {P : σ → Prop} {Q : ρ → Prop} (hpass : ∀ s, P s → (body s).Meets P Q) {s s' : σ}
    (h : Visits body s s') (hs : P s) : P s' := by
  induction h with
  | refl => exact hs
  | tail _ hagain ih =>
    have hmeets := hpass _ ih
    rw [hagain] at hmeets
    exact hmeets

/-- What every pass keeps, and the last one turns into `Q`, holds of the result. -/
theorem post_of_loop {P : σ → Prop} {Q : ρ → Prop} (hpass : ∀ s, P s → (body s).Meets P Q) {fuel : Nat}
    {s : σ} {r : ρ} (h : loop body fuel s = some r) (hs : P s) : Q r := by
  induction fuel generalizing s with
  | zero => cases h
  | succ fuel ih =>
    have hmeets := hpass s hs
    cases hb : body s with
    | again s' =>
      rw [hb] at hmeets
      rw [loop_again hb] at h
      exact ih h hmeets
    | leave r' =>
      rw [hb] at hmeets
      rw [loop_leave hb] at h
      obtain rfl := Option.some.inj h
      exact hmeets

/-- A loop whose passes lower a measure ends, with what solves its equation. -/
theorem loop_of_measure {m : σ → Nat} {f : σ → ρ} (hf : ∀ s, f s = (body s).elim f id)
    (hm : ∀ s, (body s).Meets (fun s' => m s' < m s) (fun _ => True)) {fuel : Nat} {s : σ} (h : m s < fuel) :
    loop body fuel s = some (f s) := by
  induction fuel generalizing s with
  | zero => exact absurd h (Nat.not_lt_zero _)
  | succ fuel ih =>
    have hlt := hm s
    have heq := hf s
    cases hb : body s with
    | again s' =>
      rw [hb] at hlt heq
      rw [loop_again hb, heq]
      exact ih (Nat.lt_of_lt_of_le hlt (Nat.le_of_lt_succ h))
    | leave r =>
      rw [hb] at heq
      rw [loop_leave hb, heq]
      rfl

/-- Two bodies that agree up to a renaming of their states run the same loop. -/
theorem loop_map {body' : τ → Pass τ κ} {f : σ → τ} {g : ρ → κ} (h : ∀ s, body' (f s) = (body s).map f g)
    (fuel : Nat) (s : σ) : loop body' fuel (f s) = (loop body fuel s).map g := by
  induction fuel generalizing s with
  | zero => rfl
  | succ fuel ih =>
    have hs := h s
    cases hb : body s with
    | again s' =>
      rw [hb] at hs
      rw [loop_again hs, loop_again hb, ih]
    | leave r =>
      rw [hb] at hs
      rw [loop_leave hs, loop_leave hb]
      rfl

end Pass
end Koko.Lib
