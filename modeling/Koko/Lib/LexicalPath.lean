import Koko.Lib.Bytes
import Mathlib.Data.List.Infix

/-! Paths up to lexical normalisation: steps down to a name and up to the parent,
walked one after another, and the text of a path as a list of such steps. -/
namespace Koko.Lib

inductive Step (α : Type) where
  | up
  | down (name : α)
deriving DecidableEq

/-- A normalised path: some steps up, then names. Nothing lies above the root. -/
structure NormalPath (α : Type) where
  absolute : Bool
  ups : Nat
  names : List α
  rooted : absolute = true → ups = 0
deriving DecidableEq

namespace NormalPath
variable {α : Type}

def start (absolute : Bool) : NormalPath α := ⟨absolute, 0, [], fun _ => rfl⟩

def walk (p : NormalPath α) : Step α → NormalPath α
  | .down name => ⟨p.absolute, p.ups, p.names ++ [name], p.rooted⟩
  | .up =>
    match p.names with
    | [] => ⟨p.absolute, if p.absolute then 0 else p.ups + 1, [], fun h => by simp [h]⟩
    | name :: names => ⟨p.absolute, p.ups, (name :: names).dropLast, p.rooted⟩

def walkAll (p : NormalPath α) (steps : List (Step α)) : NormalPath α := steps.foldl walk p

/-- Containment: the directory's names come first, from the same origin. -/
def Inside (p d : NormalPath α) : Prop := p.absolute = d.absolute ∧ p.ups = d.ups ∧ d.names <+: p.names

/-- `d` followed by a relative path, whose steps up remove names of `d`. -/
def graft (d r : NormalPath α) : NormalPath α :=
  ⟨d.absolute, if d.absolute then 0 else d.ups + (r.ups - d.names.length),
    d.names.take (d.names.length - r.ups) ++ r.names, fun h => by simp [h]⟩

/-- A relative path stays in `d`: the names of `d` it climbs over it descends to again. -/
def Confined (d r : NormalPath α) : Prop :=
  (d.absolute = true ∨ r.ups ≤ d.names.length) ∧ d.names.drop (d.names.length - r.ups) <+: r.names

instance [DecidableEq α] (p d : NormalPath α) : Decidable (p.Inside d) := inferInstanceAs (Decidable (_ ∧ _))
instance [DecidableEq α] (d r : NormalPath α) : Decidable (d.Confined r) := inferInstanceAs (Decidable (_ ∧ _))

theorem ext_of {p q : NormalPath α} (ha : p.absolute = q.absolute) (hu : p.ups = q.ups) (hn : p.names = q.names) :
    p = q := by
  cases p
  cases q
  simp_all

theorem walk_up_of_nil {p : NormalPath α} (h : p.names = []) :
    p.walk .up = ⟨p.absolute, if p.absolute then 0 else p.ups + 1, [], fun h => by simp [h]⟩ := by
  obtain ⟨a, u, n, r⟩ := p
  subst h
  rfl

theorem walk_up_of_ne_nil {p : NormalPath α} (h : p.names ≠ []) :
    p.walk .up = ⟨p.absolute, p.ups, p.names.dropLast, p.rooted⟩ := by
  obtain ⟨a, u, n, r⟩ := p
  obtain ⟨name, names, rfl⟩ := List.exists_cons_of_ne_nil h
  rfl

@[simp] theorem absolute_walk (p : NormalPath α) (s : Step α) : (p.walk s).absolute = p.absolute := by
  cases s with
  | down name => rfl
  | up =>
    by_cases h : p.names = []
    · rw [walk_up_of_nil h]
    · rw [walk_up_of_ne_nil h]

@[simp] theorem absolute_walkAll (p : NormalPath α) (steps : List (Step α)) :
    (p.walkAll steps).absolute = p.absolute := by
  induction steps generalizing p with
  | nil => rfl
  | cons s steps ih =>
    rw [walkAll, List.foldl_cons, ← walkAll, ih, absolute_walk]

theorem walkAll_append (p : NormalPath α) (a b : List (Step α)) :
    p.walkAll (a ++ b) = (p.walkAll a).walkAll b := List.foldl_append

theorem graft_start (d : NormalPath α) : d.graft (start false) = d := by
  refine ext_of rfl ?_ ?_
  · cases hd : d.absolute with
    | true => simp [graft, hd, d.rooted hd]
    | false => simp [graft, hd, start]
  · simp [graft, start]

private theorem dropLast_take {l : List α} {n : Nat} (h : n ≤ l.length) : (l.take n).dropLast = l.take (n - 1) := by
  rw [List.dropLast_eq_take, List.length_take, List.take_take]
  congr 1
  omega

/-- One more step of the relative path is one more step of the whole. -/
theorem graft_walk (d : NormalPath α) {r : NormalPath α} (hr : r.absolute = false) (s : Step α) :
    d.graft (r.walk s) = (d.graft r).walk s := by
  cases s with
  | down name => simp [graft, walk]
  | up =>
    by_cases hn : r.names = []
    · have hnames : (d.graft r).names = d.names.take (d.names.length - r.ups) := by simp [graft, hn]
      rw [walk_up_of_nil hn]
      by_cases hlt : r.ups < d.names.length
      · have hne : (d.graft r).names ≠ [] := by
          apply List.ne_nil_of_length_pos
          rw [hnames, List.length_take]
          omega
        rw [walk_up_of_ne_nil hne]
        refine ext_of rfl ?_ ?_
        · have hz : r.ups + 1 - d.names.length = r.ups - d.names.length := by omega
          simp [graft, hr, hz]
        · simp only [hnames, dropLast_take (Nat.sub_le _ _)]
          simp [graft, hr, Nat.sub_sub]
      · have hz : d.names.length - r.ups = 0 := by omega
        rw [walk_up_of_nil (p := d.graft r) (by rw [hnames, hz, List.take_zero])]
        refine ext_of rfl ?_ ?_
        · simp only [graft, hr, Bool.false_eq_true, if_false]
          split_ifs
          · rfl
          · omega
        · simp [graft, hr, show d.names.length - (r.ups + 1) = 0 by omega]
    · have hne : (d.graft r).names ≠ [] := by simp [graft, hn]
      rw [walk_up_of_ne_nil hn, walk_up_of_ne_nil hne]
      refine ext_of rfl rfl ?_
      simp [graft, List.dropLast_append_of_ne_nil hn]

/-- Walking from `d` is following the steps' own normal form from `d`. -/
theorem walkAll_eq_graft (d : NormalPath α) (steps : List (Step α)) :
    d.walkAll steps = d.graft ((start false).walkAll steps) := by
  induction steps using List.reverseRecOn with
  | nil => exact (graft_start d).symm
  | append_singleton steps s ih =>
    rw [walkAll_append, walkAll_append, ih]
    exact (graft_walk d (by simp [start]) s).symm

/-- A grafted path lies inside exactly when it is confined. -/
theorem inside_graft_iff (d r : NormalPath α) : (d.graft r).Inside d ↔ d.Confined r := by
  have hnames : d.names <+: d.names.take (d.names.length - r.ups) ++ r.names ↔
      d.names.drop (d.names.length - r.ups) <+: r.names := by
    have h : d.names.take (d.names.length - r.ups) ++ d.names.drop (d.names.length - r.ups) <+:
        d.names.take (d.names.length - r.ups) ++ r.names ↔ _ := List.prefix_append_right_inj _
    rwa [List.take_append_drop] at h
  have hups : (d.graft r).ups = d.ups ↔ (d.absolute = true ∨ r.ups ≤ d.names.length) := by
    cases hd : d.absolute with
    | true => simp [graft, hd, d.rooted hd]
    | false =>
      simp only [graft, hd, Bool.false_eq_true, if_false, false_or]
      omega
  unfold Inside Confined
  rw [hups]
  simp only [graft, hnames, true_and]

end NormalPath

/-- Empty components and single dots stay where they are. -/
def pathStep (component : Bytes) : Option (Step Bytes) :=
  if component = [] ∨ component = ascii "." then none
  else if component = ascii ".." then some .up
  else some (.down component)

def pathSteps (path : Bytes) : List (Step Bytes) := (path.splitOn (chr '/')).filterMap pathStep

def isAbsolute (path : Bytes) : Bool := path.head? = some (chr '/')

/-- Lexical normalisation of a path's text. -/
def normalPath (path : Bytes) : NormalPath Bytes := (NormalPath.start (isAbsolute path)).walkAll (pathSteps path)

/-- Appending path texts, with a separator where there is none. -/
def pathJoin (d s : Bytes) : Bytes :=
  if s = [] then d
  else if s.head? ≠ some (chr '/') ∧ d ≠ [] ∧ d.getLast? ≠ some (chr '/') then d ++ chr '/' :: s
  else d ++ s

private theorem pathSteps_append_slash (d s : Bytes) : pathSteps (d ++ chr '/' :: s) = pathSteps d ++ pathSteps s := by
  rw [pathSteps, List.splitOn_append_cons_self, List.filterMap_append]
  rfl

private theorem pathSteps_nil : pathSteps [] = [] := by decide

theorem pathSteps_join (d s : Bytes) : pathSteps (pathJoin d s) = pathSteps d ++ pathSteps s := by
  unfold pathJoin
  split_ifs with hs h
  · rw [hs, pathSteps_nil, List.append_nil]
  · exact pathSteps_append_slash d s
  · simp only [ne_eq, not_and, not_not] at h
    by_cases hh : s.head? = some (chr '/')
    · obtain ⟨s', rfl⟩ : ∃ s', s = chr '/' :: s' := ⟨s.tail, (List.cons_head?_tail hh).symm⟩
      have hcut : pathSteps (chr '/' :: s') = pathSteps s' := pathSteps_append_slash [] s'
      rw [pathSteps_append_slash, hcut]
    · by_cases hd : d = []
      · rw [hd, pathSteps_nil, List.nil_append, List.nil_append]
      · obtain ⟨d', rfl⟩ : ∃ d', d = d' ++ [chr '/'] := List.getLast?_eq_some_iff.mp (h hh hd)
        rw [List.append_assoc, List.singleton_append, pathSteps_append_slash, pathSteps_append_slash,
          pathSteps_nil, List.append_nil]

private theorem isAbsolute_join {d : Bytes} (hd : d ≠ []) (s : Bytes) : isAbsolute (pathJoin d s) = isAbsolute d := by
  obtain ⟨b, d', rfl⟩ := List.exists_cons_of_ne_nil hd
  unfold pathJoin isAbsolute
  split_ifs <;> rfl

/-- Appending a text to a directory walks the text's steps from there. -/
theorem normalPath_join {d : Bytes} (hd : d ≠ []) (s : Bytes) :
    normalPath (pathJoin d s) = (normalPath d).walkAll (pathSteps s) := by
  unfold normalPath
  rw [isAbsolute_join hd, pathSteps_join, NormalPath.walkAll_append]

/-- A text appended to a directory leads inside exactly when its steps are confined. -/
theorem inside_join_iff {d : Bytes} (hd : d ≠ []) (s : Bytes) :
    (normalPath (pathJoin d s)).Inside (normalPath d) ↔
      (normalPath d).Confined ((NormalPath.start false).walkAll (pathSteps s)) := by
  rw [normalPath_join hd, NormalPath.walkAll_eq_graft, NormalPath.inside_graft_iff]

end Koko.Lib
