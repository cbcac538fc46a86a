import Koko.Session.ConstructResponse
import Mathlib.Data.List.Nodup

/-! Which entry a request is routed to, in terms of the request's own target: the longest prefix
that matches at a segment boundary, and of equal ones the first. -/
namespace Koko.Session
open Koko.Lib Koko.Http Koko.Handlers
variable {H : Type}

/-- A prefix matches a target at a segment boundary; the root matches what begins with a slash. -/
def Matches (urlPrefix target : Bytes) : Prop :=
  (urlPrefix = ascii "/" ∧ ascii "/" <+: target ++ ascii "/") ∨ urlPrefix ++ ascii "/" <+: target ++ ascii "/"

instance (urlPrefix target : Bytes) : Decidable (Matches urlPrefix target) := inferInstanceAs (Decidable (_ ∨ _))

/-- The entry matches, none that matches has a longer prefix, and none before it the same one. -/
def FirstLongest (table : Table H) (target : Bytes) (entry : Bytes × H) : Prop :=
  ∃ before after, table = before ++ entry :: after ∧ Matches entry.1 target ∧
    (∀ e ∈ table, Matches e.1 target → e.1.length ≤ entry.1.length) ∧ ∀ e ∈ before, e.1 ≠ entry.1

theorem serves_iff_matches {urlPrefix target : Bytes} (hp : urlPrefix ≠ []) (hq : chr '?' ∉ target) :
    Serves urlPrefix (routedTarget target) ↔ Matches urlPrefix target := by
  rw [routedTarget_of_no_query hq, Serves, Matches]
  constructor
  · rintro (⟨rfl, h⟩ | ⟨-, h⟩)
    · exact .inl ⟨rfl, h⟩
    · exact .inr h
  · rintro (⟨rfl, h⟩ | h)
    · exact .inl ⟨rfl, h⟩
    · exact .inr ⟨hp, h⟩

/-- Of two prefixes that serve a target, those of the same length are the same. -/
theorem Serves.eq_of_length {p q target : Bytes} (hp : Serves p target) (hq : Serves q target)
    (h : p.length = q.length) : p = q :=
  (List.prefix_of_prefix_length_le hp.starts hq.starts (Nat.le_of_eq h)).eq_of_length h

theorem matchLength_of_serves {target : Bytes} {e : Bytes × H} (h : Serves e.1 target) :
    matchLength target e = e.1.length := if_pos h

private theorem matchLength_le_iff {target : Bytes} (e : Bytes × H) (n : Nat) :
    matchLength target e ≤ n ↔ (Serves e.1 target → e.1.length ≤ n) := by
  unfold matchLength
  split_ifs with h
  · simp [h]
  · simp [h]

/-- The scan's choice is the first of the longest served prefixes. -/
private theorem firstBest_iff_firstLongest {table : Table H} {target : Bytes} (hp : ∀ e ∈ table, e.1 ≠ [])
    (hq : chr '?' ∉ target) (entry : Bytes × H) :
    FirstBest (matchLength (routedTarget target)) table entry ↔ FirstLongest table target entry := by
  have hserves : ∀ e ∈ table, (Serves e.1 (routedTarget target) ↔ Matches e.1 target) :=
    fun e he => serves_iff_matches (hp e he) hq
  constructor
  · rintro ⟨before, after, rfl, hpos, hbefore, hafter⟩
    have hs := matchLength_pos.mp hpos
    rw [matchLength_of_serves hs] at hbefore hafter
    refine ⟨before, after, rfl, (hserves entry (by simp)).mp hs, ?_, ?_⟩
    · intro e he hm
      apply (matchLength_le_iff e _).mp _ ((hserves e he).mpr hm)
      rcases List.mem_append.mp he with h | h
      · exact Nat.le_of_lt (hbefore e h)
      · rcases List.mem_cons.mp h with rfl | h
        · exact Nat.le_of_eq (matchLength_of_serves hs)
        · exact hafter e h
    · intro e he heq
      have hlt := hbefore e he
      rw [matchLength_of_serves (heq ▸ hs), heq] at hlt
      exact Nat.lt_irrefl _ hlt
  · rintro ⟨before, after, rfl, hm, hlongest, hfirst⟩
    have hs := (hserves entry (by simp)).mpr hm
    have hle : ∀ e ∈ before ++ entry :: after, matchLength (routedTarget target) e ≤ entry.1.length := by
      intro e he
      exact (matchLength_le_iff e _).mpr fun h => hlongest e he ((hserves e he).mp h)
    refine ⟨before, after, rfl, matchLength_pos.mpr hs, ?_, ?_⟩
    · intro e he
      rw [matchLength_of_serves hs]
      refine Nat.lt_of_le_of_ne (hle e (by simp [he])) fun heq => ?_
      have hse : Serves e.1 (routedTarget target) := matchLength_pos.mp (by rw [heq]; exact hs.length_pos)
      rw [matchLength_of_serves hse] at heq
      exact hfirst e he (hse.eq_of_length hs heq)
    · intro e he
      rw [matchLength_of_serves hs]
      exact hle e (by simp [he])

/-- Distinct prefixes that match a target have distinct lengths. -/
theorem route_perm (beyond : Nat → Byte) {table table' : Table H} (hd : (table.map Prod.fst).Nodup)
    (h : table.Perm table') (target : Bytes) :
    (route beyond table target).entry = (route beyond table' target).entry := by
  rw [route_entry, route_entry]
  refine bestMatch_perm h fun a ha b hb hpos heq => ?_
  have hsa := matchLength_pos.mp hpos
  have hsb : Serves b.1 (routedTarget target) := matchLength_pos.mp (by rw [heq]; exact hpos)
  rw [matchLength_of_serves hsa, matchLength_of_serves hsb] at heq
  exact List.inj_on_of_nodup_map hd hb ha (hsb.eq_of_length hsa heq)

theorem route_entry_eq_none_iff (beyond : Nat → Byte) {table : Table H} (hp : ∀ e ∈ table, e.1 ≠ []) {target : Bytes}
    (hq : chr '?' ∉ target) :
    (route beyond table target).entry = none ↔ ∀ e ∈ table, ¬ Matches e.1 target := by
  rw [route_entry, bestMatch_eq_none_iff]
  refine forall₂_congr fun e he => ?_
  rw [← serves_iff_matches (hp e he) hq, ← matchLength_pos, Nat.not_lt, Nat.le_zero]

/-- The answer of a routed handler ends in a connection header, the prepared 404 does not. -/
theorem notFoundError_iff_no_entry {beyond : Nat → Byte} {table : Table RequestHandler} {env : Environment}
    {log : SharedLog} {name : Bytes} {request : Request} :
    (∃ answer, constructResponse beyond table env log name request = .ok answer ∧ answer.response = notFoundError) ↔
      (route beyond table request.target).entry = none := by
  constructor
  · rintro ⟨answer, ha, he⟩
    rcases constructResponse_cases ha with ⟨hr, -⟩ | ⟨urlPrefix, handler, res, -, -, rfl⟩
    · exact hr
    · have hlast := congrArg (fun r : Response => r.fields.getLast?.map Prod.fst) he
      simp only [answerOf, finalResponse, Response.set, Fields.set, List.getLast?_concat, Option.map_some] at hlast
      exact absurd hlast (by decide)
  · intro hr
    exact ⟨_, constructResponse_of_no_entry hr, rfl⟩

/-- Routing selects the longest prefix that matches at a segment boundary, the first of equal ones;
the answer is the prepared 404 if there is none, and only then; and the order of a table with
distinct prefixes does not matter. -/
theorem construct_response_selects_longest (beyond : Nat → Byte) {table : Table RequestHandler}
    (hs : ∀ e ∈ table, e.1.head? = some (chr '/')) {request : Request} (hq : chr '?' ∉ request.target) :
    (∀ e, (route beyond table request.target).entry = some e ↔ FirstLongest table request.target e) ∧
    (∀ env log name, (∃ answer, constructResponse beyond table env log name request = .ok answer ∧
      answer.response = notFoundError) ↔ ∀ e ∈ table, ¬ Matches e.1 request.target) ∧
    ((table.map Prod.fst).Nodup → ∀ table', table.Perm table' →
      (route beyond table' request.target).entry = (route beyond table request.target).entry) := by
  have hne : ∀ e ∈ table, e.1 ≠ [] := by
    intro e he hnil
    have hhead := hs e he
    rw [hnil] at hhead
    cases hhead
  refine ⟨fun e => ?_, fun env log name => ?_, fun hd table' hp => (route_perm beyond hd hp _).symm⟩
  · rw [route_entry, bestMatch_eq_some_iff]
    exact firstBest_iff_firstLongest hne hq e
  · rw [notFoundError_iff_no_entry]
    exact route_entry_eq_none_iff beyond hne hq

/-- Nested prefixes, and one that only begins the same segment. -/
def nestedTable : Table RequestHandler :=
  [(ascii "/", ⟨ascii "NotFound", false, .notFound⟩), (ascii "/files/a", ⟨ascii "Health", false, .health⟩),
    (ascii "/fil", ⟨ascii "Echo", false, .echo⟩), (ascii "/files", ⟨ascii "Status", false, .status⟩)]

/-- Of the three prefixes of `/files/ab` the one that ends a segment and is longest is selected. -/
theorem nested_prefix_selected :
    (route (fun _ => 0) nestedTable (ascii "/files/ab")).entry =
      some (ascii "/files", ⟨ascii "Status", false, .status⟩) := by
  have hs : ∀ e ∈ nestedTable, e.1.head? = some (chr '/') := by decide
  have hq : chr '?' ∉ (Request.mk (ascii "GET") (ascii "/files/ab") 11 [] []).target := by decide
  refine ((construct_response_selects_longest (fun _ => 0) hs hq).1 _).2 ⟨nestedTable.take 3, [], rfl, ?_, ?_, ?_⟩
  · decide +kernel
  · decide +kernel
  · decide

end Koko.Session
