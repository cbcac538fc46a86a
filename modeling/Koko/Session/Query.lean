import Koko.Session.Routing

/-! What the removal of the query does to routing: the position found relative to the
last slash is used as a position in the whole target. -/
namespace Koko.Session
open Koko.Lib
variable {H : Type}

/-- The first bytes of a path, as many as its last segment has with its slash. -/
def cutTarget (path : Bytes) : Bytes := path.take (path.drop ((rfind (chr '/') path).getD 0)).length

theorem stripQuery_query {path query : Bytes} (hslash : chr '/' ∈ path) (hp : chr '?' ∉ path)
    (hq : chr '/' ∉ query) : stripQuery (path ++ chr '?' :: query) = cutTarget path := by
  obtain ⟨a, b, rfl, hb⟩ := exists_last hslash
  have hb' : chr '/' ∉ b ++ chr '?' :: query := by
    simp only [List.mem_append, List.mem_cons, not_or]
    exact ⟨hb, by decide, hq⟩
  have hseg : chr '?' ∉ chr '/' :: b := fun hm => hp (List.mem_append_right a hm)
  have hidx := idxOf?_append_cons query hseg
  unfold stripQuery cutTarget
  rw [rfind_append_cons a hb, List.append_assoc, List.cons_append, rfind_append_cons a hb']
  simp only [Option.getD_some, List.drop_left, ← List.cons_append, hidx]
  rw [← List.append_assoc, List.take_append_of_le_length (by simp)]

theorem cutTarget_eq_self_iff {path : Bytes} (h : path.head? = some (chr '/')) :
    cutTarget path = path ↔ path.count (chr '/') = 1 := by
  obtain ⟨a, b, rfl, hb⟩ := exists_last (List.mem_of_mem_head? h)
  unfold cutTarget
  rw [rfind_append_cons a hb, Option.getD_some, List.drop_left, List.take_eq_self_iff]
  have hcb : b.count (chr '/') = 0 := List.count_eq_zero.mpr hb
  rw [List.count_append, List.count_cons_self, hcb]
  cases a with
  | nil => simp
  | cons c a =>
    have hc : c = chr '/' := by simpa using h
    subst hc
    simp only [List.count_cons_self, List.length_append, List.length_cons]
    omega

/-- The target in front of its query. -/
def withoutQuery (target : Bytes) : Bytes := target.takeWhile (· ≠ chr '?')

/-- The target has no query, or its only slash is its first byte. -/
def QuerySafe (target : Bytes) : Prop :=
  chr '?' ∉ target ∨ (target.head? = some (chr '/') ∧ target.count (chr '/') = 1)

instance (target : Bytes) : Decidable (QuerySafe target) := inferInstanceAs (Decidable (_ ∨ _))

/-- There the query is cut off where it begins. -/
theorem stripQuery_of_querySafe {target : Bytes} (h : QuerySafe target) : stripQuery target = withoutQuery target := by
  by_cases hq : chr '?' ∈ target
  · obtain ⟨hh, hone⟩ := h.resolve_left (not_not.mpr hq)
    obtain ⟨path, query, rfl, hp⟩ := List.eq_append_cons_of_mem hq
    have hpath : path.head? = some (chr '/') := by
      cases path with
      | nil => exact absurd (Option.some.inj hh) (by decide)
      | cons c path => exact hh
    have hmem := List.mem_of_mem_head? hpath
    have hpos := List.count_pos_iff.mpr hmem
    rw [List.count_append, List.count_cons_of_ne (by decide)] at hone
    have hquery : chr '/' ∉ query := List.count_eq_zero.mp (by omega)
    have hcut : cutTarget path = path := (cutTarget_eq_self_iff hpath).mpr (by omega)
    have hbefore : ∀ c ∈ path, decide (c ≠ chr '?') = true := fun c hc => decide_eq_true (fun he => hp (he ▸ hc))
    rw [stripQuery_query hmem hp hquery, hcut, withoutQuery, List.takeWhile_append_of_pos hbefore,
      List.takeWhile_cons_of_neg (by simp), List.append_nil]
  · rw [stripQuery_of_no_query hq, withoutQuery, List.takeWhile_eq_self_iff.mpr]
    exact fun c hc => decide_eq_true (fun he => hq (he ▸ hc))

private theorem eq_of_serves {target : Bytes} {a b : Bytes × H} (ha : Serves a.1 target) (hb : Serves b.1 target)
    (hl : b.1.length = a.1.length) : b.1 = a.1 :=
  (List.prefix_of_prefix_length_le hb.starts ha.starts (by omega)).eq_of_length hl

private theorem serves_of_score {target : Bytes} {a b : Bytes × H} (ha : 0 < matchLength target a)
    (h : matchLength target b = matchLength target a) : b.1 = a.1 := by
  have hb : 0 < matchLength target b := by omega
  rw [matchLength_pos] at ha hb
  apply eq_of_serves ha hb
  simpa [matchLength, ha, hb] using h

theorem compatible_matchLength (target target' : Bytes) (table : Table H) :
    Compatible (matchLength target) (matchLength target') table := by
  refine ⟨?_, ?_, ?_⟩
  · intro a _ h h'
    rw [matchLength_pos] at h h'
    simp [matchLength, h, h']
  · intro a _ b _ ha he
    rw [matchLength, matchLength, serves_of_score ha he]
  · intro a _ b _ ha he
    rw [matchLength, matchLength, serves_of_score ha he]

private theorem matchLength_ne_iff {target target' : Bytes} {e : Bytes × H} :
    matchLength target e ≠ matchLength target' e ↔ ¬ (Serves e.1 target ↔ Serves e.1 target') := by
  apply not_congr
  constructor
  · intro h
    rw [← matchLength_pos, ← matchLength_pos, h]
  · intro h
    simp only [matchLength, h]

private theorem both_serve_iff {target target' : Bytes} {e b : Bytes × H}
    (hne : ¬ (Serves e.1 target ↔ Serves e.1 target')) :
    (matchLength target b = matchLength target' b ∧ matchLength target e ≤ matchLength target b ∧
      matchLength target' e ≤ matchLength target b) ↔
    (Serves b.1 target ∧ Serves b.1 target' ∧ e.1.length ≤ b.1.length) := by
  have hmax : ∀ n, matchLength target e ≤ n ∧ matchLength target' e ≤ n ↔ e.1.length ≤ n := by
    intro n
    by_cases h : Serves e.1 target
    · have h' : ¬ Serves e.1 target' := fun h' => hne (iff_of_true h h')
      simp [matchLength, h, h']
    · have h' : Serves e.1 target' := not_not.mp fun h' => hne (iff_of_false h h')
      simp [matchLength, h, h']
  rw [hmax]
  have hpos : 0 < e.1.length := by
    by_cases h : Serves e.1 target
    · exact h.length_pos
    · exact (not_not.mp fun h' => hne (iff_of_false h h') : Serves e.1 target').length_pos
  constructor
  · rintro ⟨hs, hl⟩
    have hb : Serves b.1 target := matchLength_pos.mp (by omega)
    have hb' : Serves b.1 target' := matchLength_pos.mp (by omega)
    refine ⟨hb, hb', ?_⟩
    simpa [matchLength, hb] using hl
  · rintro ⟨hb, hb', hl⟩
    simpa [matchLength, hb, hb'] using hl

/-- Two targets are routed alike exactly when every entry that serves only one of them
is beaten by an entry that serves both. -/
theorem route_entry_eq_iff (beyond : Nat → Byte) (table : Table H) (target target' : Bytes) :
    (route beyond table target).entry = (route beyond table target').entry ↔
      ∀ e ∈ table, ¬ (Serves e.1 (routedTarget target) ↔ Serves e.1 (routedTarget target')) →
        ∃ b ∈ table, Serves b.1 (routedTarget target) ∧ Serves b.1 (routedTarget target') ∧
          e.1.length ≤ b.1.length := by
  rw [route_entry, route_entry, bestMatch_eq_iff (compatible_matchLength _ _ table)]
  apply forall₂_congr
  intro e _
  rw [matchLength_ne_iff]
  apply forall_congr'
  intro hne
  simp only [both_serve_iff hne]

private theorem not_serves_shorter {path target : Bytes} (hc : path.count (chr '/') ≠ 1)
    (hl : target.length < path.length) : ¬ Serves path (target ++ ascii "/") := by
  rintro (⟨rfl, -⟩ | ⟨-, hp⟩)
  · exact hc (by decide)
  · have := hp.length_le
    simp only [List.length_append] at this
    omega

private theorem routedTarget_query {path query : Bytes} (hh : path.head? = some (chr '/')) (hp : chr '?' ∉ path)
    (hq : chr '/' ∉ query) : routedTarget (path ++ ascii "?" ++ query) = cutTarget path ++ ascii "/" := by
  have h := stripQuery_query (List.mem_of_mem_head? hh) hp hq
  rw [routedTarget, List.append_assoc]
  exact congrArg (· ++ ascii "/") h

/-- With more than one slash in the path the query cuts the path itself, to as many bytes as
its last segment has: an entry that serves only one of the two decides otherwise, unless a
longer one serves both. Over all tables, only a path of one segment is safe. -/
theorem query_keeps_route_iff [Nonempty H] (beyond : Nat → Byte) {path query : Bytes}
    (hh : path.head? = some (chr '/')) (hp : chr '?' ∉ path) (hq : chr '/' ∉ query) :
    (∀ table : Table H,
      (route beyond table (path ++ ascii "?" ++ query)).entry = (route beyond table path).entry ↔
        ∀ e ∈ table, ¬ (Serves e.1 (cutTarget path ++ ascii "/") ↔ Serves e.1 (path ++ ascii "/")) →
          ∃ b ∈ table, Serves b.1 (cutTarget path ++ ascii "/") ∧ Serves b.1 (path ++ ascii "/") ∧
            e.1.length ≤ b.1.length) ∧
    ((∀ table : Table H,
      (route beyond table (path ++ ascii "?" ++ query)).entry = (route beyond table path).entry) ↔
        path.count (chr '/') = 1) := by
  have hpath := routedTarget_of_no_query hp
  have hquery := routedTarget_query hh hp hq
  have hiff := fun table : Table H => route_entry_eq_iff beyond table (path ++ ascii "?" ++ query) path
  simp only [hpath, hquery] at hiff
  refine ⟨hiff, ?_⟩
  constructor
  · intro h
    by_contra hc
    obtain ⟨handler⟩ := (inferInstance : Nonempty H)
    have hlt : (cutTarget path).length < path.length := by
      refine Nat.lt_of_le_of_ne (by simp [cutTarget]) fun hl => hc ?_
      rw [← cutTarget_eq_self_iff hh]
      exact (List.take_prefix _ path).eq_of_length hl
    have hno := not_serves_shorter hc hlt
    have hyes : Serves path (path ++ ascii "/") := by
      refine .inr ⟨?_, List.prefix_refl _⟩
      rintro rfl
      simp at hh
    obtain ⟨b, hb, hcut, -⟩ := (hiff [(path, handler)]).mp (h _) (path, handler) (by simp)
      (fun he => hno (he.mpr hyes))
    rw [List.mem_singleton.mp hb] at hcut
    exact hno hcut
  · intro hc table
    rw [hiff table, (cutTarget_eq_self_iff hh).mpr hc]
    intro e _ hne
    exact absurd Iff.rfl hne

/-- Two segments, a query of one letter, and the entry is lost. -/
theorem query_loses_two_segment_entry :
    (ascii "/api/v1").head? = some (chr '/') ∧ chr '?' ∉ ascii "/api/v1" ∧ chr '/' ∉ ascii "q" ∧
      (route (fun _ => 0) [(ascii "/api/v1", ())] (ascii "/api/v1")).entry = some (ascii "/api/v1", ()) ∧
      (route (fun _ => 0) [(ascii "/api/v1", ())] (ascii "/api/v1" ++ ascii "?" ++ ascii "q")).entry = none := by
  decide

/-- One segment keeps its entry under a query. -/
theorem query_keeps_one_segment_route :
    (route (fun _ => 0) [(ascii "/api", ())] (ascii "/api" ++ ascii "?" ++ ascii "q")).entry =
      (route (fun _ => 0) [(ascii "/api", ())] (ascii "/api")).entry :=
  (query_keeps_route_iff (fun _ => 0) (by decide) (by decide) (by decide)).2.mpr (by decide) _

end Koko.Session
