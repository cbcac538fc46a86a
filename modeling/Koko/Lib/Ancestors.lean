import Koko.Lib.Strings
import Mathlib.Data.List.Infix

/-! Paths as lists of segments: the value at the nearest ancestor of a path, and the text of a path,
in which a separator begins each segment. -/
namespace Koko.Lib
variable {α β : Type}

/-- The value at the longest beginning of the path that has one. -/
def nearest (value : List α → Option β) : List α → Option β
  | [] => value []
  | a :: path => (nearest (fun p => value (a :: p)) path).or (value [])

theorem nearest_eq_none {value : List α → Option β} {path : List α} (h : nearest value path = none) {p : List α}
    (hp : p <+: path) : value p = none := by
  induction path generalizing value p with
  | nil =>
    rw [List.prefix_nil.mp hp]
    exact h
  | cons a path ih =>
    rw [nearest, Option.or_eq_none_iff] at h
    cases p with
    | nil => exact h.2
    | cons c p =>
      obtain ⟨rfl, hrest⟩ := List.cons_prefix_cons.mp hp
      exact ih h.1 hrest

/-- What is nearest to a path is the value at an ancestor, and no deeper ancestor has a value. -/
theorem nearest_eq_some {value : List α → Option β} {path : List α} {b : β} (h : nearest value path = some b) :
    ∃ p, p <+: path ∧ value p = some b ∧ ∀ q, q <+: path → p.length < q.length → value q = none := by
  induction path generalizing value with
  | nil =>
    refine ⟨[], List.nil_prefix, h, fun q hq hlt => ?_⟩
    rw [List.prefix_nil.mp hq] at hlt
    exact absurd hlt (Nat.lt_irrefl _)
  | cons a path ih =>
    rw [nearest] at h
    cases hn : nearest (fun p => value (a :: p)) path with
    | some b' =>
      rw [hn] at h
      obtain rfl := Option.some.inj h
      obtain ⟨p, hp, hv, hdeep⟩ := ih hn
      refine ⟨a :: p, List.cons_prefix_cons.mpr ⟨rfl, hp⟩, hv, fun q hq hlt => ?_⟩
      cases q with
      | nil => simp at hlt
      | cons c q =>
        obtain ⟨rfl, hrest⟩ := List.cons_prefix_cons.mp hq
        exact hdeep q hrest (Nat.lt_of_succ_lt_succ hlt)
    | none =>
      rw [hn] at h
      refine ⟨[], List.nil_prefix, h, fun q hq hlt => ?_⟩
      cases q with
      | nil => simp at hlt
      | cons c q =>
        obtain ⟨rfl, hrest⟩ := List.cons_prefix_cons.mp hq
        exact nearest_eq_none hn hrest

section Text
variable {sep : α}

/-- The text of a path: every segment with a separator in front. -/
def pathText (sep : α) (path : List (List α)) : List α := path.flatMap (sep :: ·)

theorem pathText_cons (s : List α) (path : List (List α)) : pathText sep (s :: path) = sep :: (s ++ pathText sep path) := by
  simp [pathText]

private theorem append_cons_prefix_iff {s t : List α} (hs : sep ∉ s) (ht : sep ∉ t) {x y : List α} :
    s ++ sep :: x <+: t ++ sep :: y ↔ s = t ∧ x <+: y := by
  induction s generalizing t with
  | nil =>
    cases t with
    | nil => simp
    | cons c t =>
      simp only [List.mem_cons, not_or] at ht
      simp [ht.1]
  | cons b s ih =>
    simp only [List.mem_cons, not_or] at hs
    cases t with
    | nil => simp [Ne.symm hs.1]
    | cons c t =>
      simp only [List.mem_cons, not_or] at ht
      rw [List.cons_append, List.cons_append, List.cons_prefix_cons, ih hs.2 ht.2]
      simp [and_assoc]

private theorem pathText_ends (sep : α) (path : List (List α)) : ∃ x, pathText sep path ++ [sep] = sep :: x := by
  cases path with
  | nil => exact ⟨[], rfl⟩
  | cons s path => exact ⟨_, by rw [pathText_cons]; rfl⟩

/-- One path begins another as a list of segments iff it does so as a text, up to a separator. -/
theorem pathText_starts_iff {p q : List (List α)} (hp : ∀ s ∈ p, sep ∉ s) (hq : ∀ s ∈ q, sep ∉ s) :
    pathText sep p ++ [sep] <+: pathText sep q ++ [sep] ↔ p <+: q := by
  induction p generalizing q with
  | nil =>
    obtain ⟨x, hx⟩ := pathText_ends sep q
    rw [hx]
    simp [pathText]
  | cons s p ih =>
    cases q with
    | nil =>
      refine iff_of_false (fun h => ?_) (by simp)
      have := h.length_le
      simp [pathText] at this
    | cons t q =>
      obtain ⟨x, hx⟩ := pathText_ends sep p
      obtain ⟨y, hy⟩ := pathText_ends sep q
      have hpq := ih (fun s hs => hp s (List.mem_cons_of_mem _ hs)) (fun s hs => hq s (List.mem_cons_of_mem _ hs))
      rw [hx, hy, List.prefix_cons_inj] at hpq
      rw [pathText_cons, pathText_cons, List.cons_append, List.cons_append, List.prefix_cons_inj, List.append_assoc,
        List.append_assoc, hx, hy, append_cons_prefix_iff (hp s List.mem_cons_self) (hq t List.mem_cons_self), hpq,
        List.cons_prefix_cons]

variable [BEq α] [LawfulBEq α]

theorem not_mem_of_mem_splitOn {s l : List α} (h : l ∈ s.splitOn sep) : sep ∉ l := by
  induction s generalizing l with
  | nil =>
    rw [List.splitOn_nil, List.mem_singleton] at h
    simp [h]
  | cons c s ih =>
    rw [List.splitOn_cons_eq_if_modifyHead] at h
    split_ifs at h with hc
    · rcases List.mem_cons.mp h with rfl | h
      · exact List.not_mem_nil
      · exact ih h
    · obtain ⟨first, others, hs⟩ := List.exists_cons_of_ne_nil (List.splitOn_ne_nil sep s)
      rw [hs] at h ih
      rcases List.mem_cons.mp h with rfl | h
      · intro hm
        rcases List.mem_cons.mp hm with rfl | hm
        · exact hc BEq.rfl
        · exact ih List.mem_cons_self hm
      · exact ih (List.mem_cons_of_mem _ h)

theorem pathText_splitOn (s : List α) : pathText sep (s.splitOn sep) = sep :: s := by
  have hjoin : ∀ ls : List (List α), ls ≠ [] → pathText sep ls = sep :: [sep].intercalate ls := by
    intro ls hls
    induction ls with
    | nil => exact absurd rfl hls
    | cons l ls ih =>
      cases ls with
      | nil => simp [pathText]
      | cons l' ls =>
        rw [pathText_cons, ih (List.cons_ne_nil l' ls), List.intercalate_cons_cons]
        simp
  rw [hjoin _ (List.splitOn_ne_nil sep s), List.intercalate_splitOn]

end Text
end Koko.Lib
