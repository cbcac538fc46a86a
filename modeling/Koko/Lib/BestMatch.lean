import Mathlib.Data.List.Forall2

/-! Scanning a list for the first element of greatest positive score. -/
namespace Koko.Lib
variable {α : Type}

/-- Keep the running best; an element replaces it only with a strictly greater score. -/
def keepBest (score : α → Nat) (best : Option α) (x : α) : Option α :=
  if (best.map score).getD 0 < score x then some x else best

def bestMatch (score : α → Nat) (xs : List α) : Option α := xs.foldl (keepBest score) none

/-- `a` is the first element of greatest score, and the score is positive. -/
def FirstBest (score : α → Nat) (xs : List α) (a : α) : Prop :=
  ∃ before after, xs = before ++ a :: after ∧ 0 < score a ∧
    (∀ b ∈ before, score b < score a) ∧ ∀ b ∈ after, score b ≤ score a

/-- What the scan knows after reading `xs`. -/
def ScanResult (score : α → Nat) (xs : List α) : Option α → Prop
  | none => ∀ b ∈ xs, score b = 0
  | some a => FirstBest score xs a

theorem scanResult_snoc {score : α → Nat} {xs : List α} {best : Option α} (x : α)
    (h : ScanResult score xs best) : ScanResult score (xs ++ [x]) (keepBest score best x) := by
  unfold keepBest
  cases best with
  | none =>
    simp only [Option.map_none, Option.getD_none]
    split_ifs with hlt
    · refine ⟨xs, [], rfl, hlt, ?_, by simp⟩
      intro b hb
      rw [h b hb]
      exact hlt
    · intro b hb
      rcases List.mem_append.mp hb with hb | hb
      · exact h b hb
      · rw [List.mem_singleton.mp hb]
        omega
  | some a =>
    simp only [Option.map_some, Option.getD_some]
    obtain ⟨before, after, rfl, hpos, hbefore, hafter⟩ := h
    split_ifs with hlt
    · refine ⟨before ++ a :: after, [], rfl, by omega, ?_, by simp⟩
      intro b hb
      simp only [List.mem_append, List.mem_cons] at hb
      rcases hb with hb | rfl | hb
      · exact Nat.lt_trans (hbefore b hb) hlt
      · exact hlt
      · exact Nat.lt_of_le_of_lt (hafter b hb) hlt
    · refine ⟨before, after ++ [x], by simp, hpos, hbefore, ?_⟩
      intro b hb
      rcases List.mem_append.mp hb with hb | hb
      · exact hafter b hb
      · rw [List.mem_singleton.mp hb]
        omega

theorem scanResult_foldl {score : α → Nat} {xs : List α} {best : Option α} (ys : List α)
    (h : ScanResult score xs best) : ScanResult score (xs ++ ys) (ys.foldl (keepBest score) best) := by
  induction ys generalizing xs best with
  | nil => simpa using h
  | cons y ys ih =>
    have hs := ih (scanResult_snoc y h)
    simpa using hs

theorem bestMatch_spec (score : α → Nat) (xs : List α) : ScanResult score xs (bestMatch score xs) := by
  have h : ScanResult score [] (none : Option α) := by simp [ScanResult]
  simpa [bestMatch] using scanResult_foldl xs h

theorem FirstBest.unique {score : α → Nat} {xs : List α} {a b : α} (ha : FirstBest score xs a)
    (hb : FirstBest score xs b) : a = b := by
  obtain ⟨l, r, rfl, -, hl, hr⟩ := ha
  obtain ⟨l', r', he, -, hl', hr'⟩ := hb
  rcases List.append_eq_append_iff.mp he with ⟨m, rfl, hm⟩ | ⟨m, rfl, hm⟩
  · cases m with
    | nil => exact (List.cons.inj hm).1
    | cons c m =>
      obtain ⟨rfl, rfl⟩ := List.cons.inj hm
      have h₁ := hl' a (by simp)
      have h₂ := hr b (by simp)
      omega
  · cases m with
    | nil => exact (List.cons.inj hm).1.symm
    | cons c m =>
      obtain ⟨rfl, rfl⟩ := List.cons.inj hm
      have h₁ := hl b (by simp)
      have h₂ := hr' a (by simp)
      omega

theorem bestMatch_eq_some_iff {score : α → Nat} {xs : List α} {a : α} :
    bestMatch score xs = some a ↔ FirstBest score xs a := by
  have h := bestMatch_spec score xs
  constructor
  · intro he
    rwa [he] at h
  · intro hf
    cases he : bestMatch score xs with
    | some b =>
      rw [he] at h
      rw [FirstBest.unique h hf]
    | none =>
      rw [he] at h
      obtain ⟨l, r, rfl, hpos, -⟩ := hf
      have := h a (by simp)
      omega

theorem bestMatch_eq_none_iff {score : α → Nat} {xs : List α} :
    bestMatch score xs = none ↔ ∀ b ∈ xs, score b = 0 := by
  have h := bestMatch_spec score xs
  constructor
  · intro he
    rwa [he] at h
  · intro hz
    cases he : bestMatch score xs with
    | none => rfl
    | some a =>
      rw [he] at h
      obtain ⟨l, r, rfl, hpos, -⟩ := h
      have := hz a (by simp)
      omega

/-- The selected element is in the list and scores. -/
theorem mem_of_bestMatch {score : α → Nat} {xs : List α} {a : α} (h : bestMatch score xs = some a) :
    a ∈ xs ∧ 0 < score a := by
  obtain ⟨l, r, rfl, hpos, -⟩ := bestMatch_eq_some_iff.mp h
  exact ⟨by simp, hpos⟩

theorem le_of_bestMatch {score : α → Nat} {xs : List α} {a : α} (h : bestMatch score xs = some a) :
    ∀ b ∈ xs, score b ≤ score a := by
  obtain ⟨before, after, rfl, -, hbefore, hafter⟩ := bestMatch_eq_some_iff.mp h
  intro b hb
  simp only [List.mem_append, List.mem_cons] at hb
  rcases hb with hb | rfl | hb
  · exact Nat.le_of_lt (hbefore b hb)
  · exact Nat.le_refl _
  · exact hafter b hb

/-- Where only one element has the greatest score it is selected wherever it stands. -/
theorem bestMatch_of_greatest {score : α → Nat} {xs : List α} {a : α} (ha : a ∈ xs) (hpos : 0 < score a)
    (hle : ∀ b ∈ xs, score b ≤ score a) (hone : ∀ b ∈ xs, score b = score a → b = a) :
    bestMatch score xs = some a := by
  cases hb : bestMatch score xs with
  | none =>
    have hzero := bestMatch_eq_none_iff.mp hb a ha
    omega
  | some b =>
    have hm := (mem_of_bestMatch hb).1
    rw [hone b hm (Nat.le_antisymm (hle b hm) (le_of_bestMatch hb a ha))]

/-- If elements that score are told apart by their score, their order does not matter. -/
theorem bestMatch_perm {score : α → Nat} {xs ys : List α} (hp : xs.Perm ys)
    (hone : ∀ a ∈ xs, ∀ b ∈ xs, 0 < score a → score b = score a → b = a) :
    bestMatch score xs = bestMatch score ys := by
  cases hb : bestMatch score xs with
  | none =>
    refine (bestMatch_eq_none_iff.mpr fun b hb' => ?_).symm
    exact bestMatch_eq_none_iff.mp hb b (hp.mem_iff.mpr hb')
  | some a =>
    obtain ⟨ha, hpos⟩ := mem_of_bestMatch hb
    refine (bestMatch_of_greatest (hp.mem_iff.mp ha) hpos (fun b hy => ?_) (fun b hy => ?_)).symm
    · exact le_of_bestMatch hb b (hp.mem_iff.mpr hy)
    · exact hone a ha b (hp.mem_iff.mpr hy) hpos

/-- Two scores agree on the entries of `xs` that both score, and entries equal under one
are equal under the other. -/
structure Compatible (score score' : α → Nat) (xs : List α) : Prop where
  agree : ∀ a ∈ xs, 0 < score a → 0 < score' a → score a = score' a
  left : ∀ a ∈ xs, ∀ b ∈ xs, 0 < score a → score b = score a → score' b = score' a
  right : ∀ a ∈ xs, ∀ b ∈ xs, 0 < score' a → score' b = score' a → score b = score a

private theorem firstBest_transfer {score score' : α → Nat} {xs : List α} (hc : Compatible score score' xs)
    (h : ∀ a ∈ xs, score a ≠ score' a → ∃ b ∈ xs, score b = score' b ∧ score a ≤ score b ∧ score' a ≤ score b)
    {a : α} (hf : FirstBest score xs a) : FirstBest score' xs a := by
  have hle := le_of_bestMatch (bestMatch_eq_some_iff.mpr hf)
  obtain ⟨before, after, hxs, hpos, hbefore, -⟩ := hf
  have ha : a ∈ xs := by simp [hxs]
  have hsame : score a = score' a := by
    by_contra hne
    obtain ⟨b, hb, hbs, hab, -⟩ := h a ha hne
    have hba := hle b hb
    have := hc.left a ha b hb hpos (by omega)
    omega
  have hle' : ∀ b ∈ xs, score' b ≤ score' a := by
    intro b hb
    by_cases hbs : score b = score' b
    · have := hle b hb
      omega
    · obtain ⟨c, hcx, hcs, -, hbc⟩ := h b hb hbs
      have := hle c hcx
      omega
  refine ⟨before, after, hxs, by omega, ?_, fun b hb => hle' b (by simp [hxs, hb])⟩
  intro b hb
  have hbx : b ∈ xs := by simp [hxs, hb]
  refine Nat.lt_of_le_of_ne (hle' b hbx) fun he => ?_
  have := hc.right a ha b hbx (by omega) he
  have := hbefore b hb
  omega

/-- Two compatible scores select the same element exactly when no element they disagree on
beats all those they agree on. -/
theorem bestMatch_eq_iff {score score' : α → Nat} {xs : List α} (hc : Compatible score score' xs) :
    bestMatch score xs = bestMatch score' xs ↔
      ∀ a ∈ xs, score a ≠ score' a → ∃ b ∈ xs, score b = score' b ∧ score a ≤ score b ∧ score' a ≤ score b := by
  constructor
  · intro he a ha hne
    cases hb : bestMatch score xs with
    | none =>
      have h₁ := bestMatch_eq_none_iff.mp hb a ha
      have h₂ := bestMatch_eq_none_iff.mp (he ▸ hb) a ha
      omega
    | some b =>
      have hm := mem_of_bestMatch hb
      have hm' := mem_of_bestMatch (he ▸ hb)
      have hs := hc.agree b hm.1 hm.2 hm'.2
      have h₁ := le_of_bestMatch hb a ha
      have h₂ := le_of_bestMatch (he ▸ hb) a ha
      exact ⟨b, hm.1, hs, h₁, by omega⟩
  · intro h
    cases hb : bestMatch score xs with
    | some b =>
      exact (bestMatch_eq_some_iff.mpr (firstBest_transfer hc h (bestMatch_eq_some_iff.mp hb))).symm
    | none =>
      have hz := bestMatch_eq_none_iff.mp hb
      refine (bestMatch_eq_none_iff.mpr ?_).symm
      intro a ha
      by_contra hne
      have h₁ := hz a ha
      obtain ⟨b, hbx, -, -, hab⟩ := h a ha (by omega)
      have h₂ := hz b hbx
      omega

variable {β : Type} {score : α → Nat} {score' : β → Nat} {r : α → β → Prop}

private theorem keepBest_rel (hr : ∀ a b, r a b → score a = score' b) {a : α} {b : β} (h : r a b)
    {best : Option α} {best' : Option β} (hb : Option.Rel r best best') :
    Option.Rel r (keepBest score best a) (keepBest score' best' b) := by
  have hscore : (best.map score).getD 0 = (best'.map score').getD 0 := by
    cases hb with
    | none => rfl
    | some hab => exact hr _ _ hab
  unfold keepBest
  rw [hscore, hr a b h]
  split_ifs
  · exact .some h
  · exact hb

/-- Lists whose elements are related in pairs, with equal scores, have related selections. -/
theorem bestMatch_rel (hr : ∀ a b, r a b → score a = score' b) {xs : List α} {ys : List β}
    (h : List.Forall₂ r xs ys) : Option.Rel r (bestMatch score xs) (bestMatch score' ys) := by
  have hfold : ∀ best best', Option.Rel r best best' →
      Option.Rel r (xs.foldl (keepBest score) best) (ys.foldl (keepBest score') best') := by
    induction h with
    | nil => exact fun _ _ hb => hb
    | cons hab _ ih => exact fun best best' hb => ih _ _ (keepBest_rel hr hab hb)
  exact hfold none none .none

theorem map_bestMatch_eq (hr : ∀ a b, r a b → score a = score' b) {xs : List α} {ys : List β}
    (h : List.Forall₂ r xs ys) {γ : Type} {f : α → γ} {g : β → γ} (hfg : ∀ a b, r a b → f a = g b) :
    (bestMatch score xs).map f = (bestMatch score' ys).map g := by
  have hrel := bestMatch_rel hr h
  generalize bestMatch score xs = best at hrel
  generalize bestMatch score' ys = best' at hrel
  cases hrel with
  | none => rfl
  | some hab => exact congrArg some (hfg _ _ hab)

end Koko.Lib
