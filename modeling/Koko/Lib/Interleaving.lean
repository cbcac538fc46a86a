import Mathlib.Data.List.Basic

/-! Processes that share a state. A step is taken by one of them and is atomic; a run is a schedule
that says which process is next. -/
namespace Koko.Lib

structure Pool (σ π : Type) where
  shared : σ
  locals : List π

namespace Pool
variable {σ π : Type} (act : σ → π → Option (σ × π))

/-- The process takes its next step, if it has one. -/
def step (pool : Pool σ π) (i : Nat) : Option (Pool σ π) := do
  let own ← pool.locals[i]?
  let (shared, own) ← act pool.shared own
  some ⟨shared, pool.locals.set i own⟩

def run (pool : Pool σ π) (schedule : List Nat) : Option (Pool σ π) := schedule.foldlM (step act) pool

/-- Every step of a run is a good one. -/
def Always (good : Pool σ π → Nat → Prop) : Pool σ π → List Nat → Prop
  | _, [] => True
  | pool, i :: schedule => good pool i ∧ ∀ next, pool.step act i = some next → Always good next schedule

variable {act}

theorem step_cases {pool next : Pool σ π} {i : Nat} (h : pool.step act i = some next) :
    ∃ own shared own', pool.locals[i]? = some own ∧ act pool.shared own = some (shared, own') ∧
      next = ⟨shared, pool.locals.set i own'⟩ := by
  obtain ⟨own, hown, h⟩ := Option.bind_eq_some_iff.mp h
  obtain ⟨⟨shared, own'⟩, hact, h⟩ := Option.bind_eq_some_iff.mp h
  exact ⟨own, shared, own', hown, hact, (Option.some.inj h).symm⟩

/-- The process that took the step has the new local state, and the others have theirs. -/
theorem getElem?_locals_set {pool : Pool σ π} {i : Nat} {own : π} (h : pool.locals[i]? = some own) (own' : π) (j : Nat) :
    (pool.locals.set i own')[j]? = if i = j then some own' else pool.locals[j]? := by
  obtain ⟨hlt, -⟩ := List.getElem?_eq_some_iff.mp h
  rw [List.getElem?_set]
  split_ifs <;> rfl

theorem run_cons {pool final : Pool σ π} {i : Nat} {schedule : List Nat} (h : pool.run act (i :: schedule) = some final) :
    ∃ next, pool.step act i = some next ∧ next.run act schedule = some final := by
  rw [run, List.foldlM_cons] at h
  exact Option.bind_eq_some_iff.mp h

/-- What a step keeps exactly if it is a good one, a run keeps exactly if all its steps are. -/
theorem always_iff {inv kept : Pool σ π → Prop} {good : Pool σ π → Nat → Prop}
    (hstep : ∀ pool i next, inv pool → pool.step act i = some next → inv next ∧ (kept next ↔ kept pool ∧ good pool i))
    {pool final : Pool σ π} {schedule : List Nat} (hinv : inv pool) (h : pool.run act schedule = some final) :
    kept final ↔ kept pool ∧ Always act good pool schedule := by
  induction schedule generalizing pool with
  | nil =>
    obtain rfl := Option.some.inj h
    simp [Always]
  | cons i schedule ih =>
    obtain ⟨next, hnext, hrun⟩ := run_cons h
    obtain ⟨hinv', hkept⟩ := hstep pool i next hinv hnext
    rw [ih hinv' hrun, hkept, Always, and_assoc]
    refine and_congr_right fun _ => and_congr_right fun _ => ⟨fun ha q hq => ?_, fun ha => ha next hnext⟩
    rwa [← Option.some.inj (hnext.symm.trans hq)]

end Pool
end Koko.Lib
