import Mathlib.Data.List.Basic
import Mathlib.Data.List.Perm.Basic

/-! What does not depend on the order of a list: the elements of a kind of which there is at most one, and
what is gathered from its elements one by one. -/
namespace Koko.Lib
variable {α β γ : Type}

theorem filter_eq_of_perm {as bs : List α} (hp : as.Perm bs) {p : α → Bool} (hone : (as.filter p).length ≤ 1) :
    as.filter p = bs.filter p := by
  have hperm := hp.filter p
  cases ha : as.filter p with
  | nil =>
    rw [ha] at hperm
    exact hperm.nil_eq
  | cons a rest =>
    rw [ha] at hperm hone
    obtain rfl : rest = [] := List.eq_nil_of_length_eq_zero (by simpa using hone)
    exact (List.perm_singleton.mp hperm.symm).symm

theorem mapM_cons_eq_some_iff {f : α → Option β} {a : α} {as : List α} {cs : List β} :
    (a :: as).mapM f = some cs ↔ ∃ b bs, f a = some b ∧ as.mapM f = some bs ∧ cs = b :: bs := by
  rw [List.mapM_cons]
  cases f a with
  | none => simp
  | some b =>
    cases as.mapM f with
    | none => simp
    | some bs => simp [eq_comm]

/-- The results of a permutation are those of the list, permuted. -/
theorem mapM_perm {f : α → Option β} {as as' : List α} (hp : as.Perm as') {bs : List β} (h : as.mapM f = some bs) :
    ∃ bs', as'.mapM f = some bs' ∧ bs.Perm bs' := by
  induction hp generalizing bs with
  | nil => exact ⟨bs, h, .refl bs⟩
  | cons a _ ih =>
    obtain ⟨b, rest, hb, hrest, rfl⟩ := mapM_cons_eq_some_iff.mp h
    obtain ⟨rest', hrest', hperm⟩ := ih hrest
    exact ⟨b :: rest', mapM_cons_eq_some_iff.mpr ⟨b, rest', hb, hrest', rfl⟩, hperm.cons b⟩
  | swap a a' as =>
    obtain ⟨b', more, hb', hmore, rfl⟩ := mapM_cons_eq_some_iff.mp h
    obtain ⟨b, rest, hb, hrest, rfl⟩ := mapM_cons_eq_some_iff.mp hmore
    refine ⟨b :: b' :: rest, mapM_cons_eq_some_iff.mpr ⟨b, b' :: rest, hb, ?_, rfl⟩, .swap b b' rest⟩
    exact mapM_cons_eq_some_iff.mpr ⟨b', rest, hb', hrest, rfl⟩
  | trans _ _ ih₁ ih₂ =>
    obtain ⟨bs₁, h₁, hp₁⟩ := ih₁ h
    obtain ⟨bs₂, h₂, hp₂⟩ := ih₂ h₁
    exact ⟨bs₂, h₂, hp₁.trans hp₂⟩

/-- A fold in which every element adds something of its own gathers what they add. -/
theorem foldlM_gather {f : β → α → Option β} {own : α → Option γ} {add : β → γ → β}
    (hf : ∀ b a, f b a = (own a).map (add b)) (as : List α) (b : β) :
    as.foldlM f b = (as.mapM own).map (fun cs => cs.foldl add b) := by
  induction as generalizing b with
  | nil => rfl
  | cons a as ih =>
    rw [List.foldlM_cons, List.mapM_cons, hf]
    cases own a with
    | none => rfl
    | some c =>
      simp only [Option.map_some, Option.bind_eq_bind, Option.bind_some, ih]
      cases as.mapM own with
      | none => rfl
      | some cs => rfl

end Koko.Lib
