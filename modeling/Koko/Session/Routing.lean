import Koko.Lib.Bytes
import Koko.Lib.BestMatch
import Koko.Lib.Strings

/-! The routing part of `session::construct_response`: the query is cut off, a
slash is added, and the longest matching prefix of the table wins. -/
namespace Koko.Session
open Koko.Lib
variable {H : Type}

abbrev Table (H : Type) := List (Bytes × H)

/-- The position of the first `?` is counted from the last slash and used from the start. -/
def stripQuery (target : Bytes) : Bytes :=
  match rfind (chr '/') target with
  | none => target
  | some lastSlashIndex =>
    match (target.drop lastSlashIndex).idxOf? (chr '?') with
    | none => target
    | some firstQmarkIndex => target.take firstQmarkIndex

def routedTarget (target : Bytes) : Bytes := stripQuery target ++ ascii "/"

/-- `s[i]` reads the terminator at the end; past it the language promises nothing,
and `beyond` is whatever the read yields. -/
def charAt (beyond : Nat → Byte) (s : Bytes) (i : Nat) : Byte :=
  match s[i]? with
  | some b => b
  | none => if i = s.length then 0 else beyond i

/-- The variables of the routing loop. -/
structure Selection (H : Type) where
  longestPrefixMatch : Nat
  handlerUrl : Bytes
  correctHandler : Option H

def consider (beyond : Nat → Byte) (target : Bytes) (sel : Selection H) (mapping : Bytes × H) : Selection H :=
  let prefixLen := mapping.1.length
  let longestPrefixStringMatch := target.take prefixLen = mapping.1 ∧ sel.longestPrefixMatch < prefixLen
  let lastDirnameNotASubstr := charAt beyond target prefixLen = chr '/' ∨ mapping.1 = ascii "/"
  if longestPrefixStringMatch ∧ lastDirnameNotASubstr then ⟨prefixLen, mapping.1, some mapping.2⟩ else sel

def route (beyond : Nat → Byte) (table : Table H) (target : Bytes) : Selection H :=
  table.foldl (consider beyond (routedTarget target)) ⟨0, [], none⟩

/-- The selected entry of the table; none is the answer 404. -/
def Selection.entry (sel : Selection H) : Option (Bytes × H) :=
  sel.correctHandler.map (fun handler => (sel.handlerUrl, handler))

/-- A prefix serves a target at a segment boundary; the root prefix serves every
target that begins with a slash. -/
def Serves (urlPrefix target : Bytes) : Prop :=
  (urlPrefix = ascii "/" ∧ urlPrefix <+: target) ∨ (urlPrefix ≠ [] ∧ urlPrefix ++ ascii "/" <+: target)

instance (urlPrefix target : Bytes) : Decidable (Serves urlPrefix target) :=
  inferInstanceAs (Decidable (_ ∨ _))

/-- How long a prefix of the target an entry serves. -/
def matchLength (target : Bytes) (entry : Bytes × H) : Nat :=
  if Serves entry.1 target then entry.1.length else 0

def Selection.ofEntry : Option (Bytes × H) → Selection H
  | none => ⟨0, [], none⟩
  | some e => ⟨e.1.length, e.1, some e.2⟩

@[simp] theorem entry_ofEntry (best : Option (Bytes × H)) : (Selection.ofEntry best).entry = best := by
  cases best <;> rfl

private theorem charAt_eq_slash_iff {beyond : Nat → Byte} {urlPrefix target : Bytes} (h : urlPrefix <+: target) :
    charAt beyond target urlPrefix.length = chr '/' ↔ urlPrefix ++ ascii "/" <+: target := by
  obtain ⟨rest, rfl⟩ := h
  rw [List.prefix_append_right_inj]
  cases rest with
  | nil => simp [charAt, chr, ascii]
  | cons b rest => simp [charAt, ascii, eq_comm]

private theorem conditions_iff {beyond : Nat → Byte} {urlPrefix target : Bytes} (n : Nat) :
    ((target.take urlPrefix.length = urlPrefix ∧ n < urlPrefix.length) ∧
      (charAt beyond target urlPrefix.length = chr '/' ∨ urlPrefix = ascii "/")) ↔
    Serves urlPrefix target ∧ n < urlPrefix.length := by
  rw [eq_comm, ← List.prefix_iff_eq_take]
  constructor
  · rintro ⟨⟨hp, hn⟩, hc | hr⟩
    · exact ⟨.inr ⟨List.ne_nil_of_length_pos (by omega), (charAt_eq_slash_iff hp).mp hc⟩, hn⟩
    · exact ⟨.inl ⟨hr, hp⟩, hn⟩
  · rintro ⟨⟨hr, hp⟩ | ⟨-, hs⟩, hn⟩
    · exact ⟨⟨hp, hn⟩, .inr hr⟩
    · have hp := (List.prefix_append urlPrefix (ascii "/")).trans hs
      exact ⟨⟨hp, hn⟩, .inl ((charAt_eq_slash_iff hp).mpr hs)⟩

private theorem longest_ofEntry {target : Bytes} {best : Option (Bytes × H)} (h : ∀ e ∈ best, Serves e.1 target) :
    (Selection.ofEntry best).longestPrefixMatch = (best.map (matchLength target)).getD 0 := by
  cases best with
  | none => rfl
  | some e => simp [Selection.ofEntry, matchLength, h e rfl]

private theorem consider_ofEntry {beyond : Nat → Byte} {target : Bytes} {best : Option (Bytes × H)}
    (h : ∀ e ∈ best, Serves e.1 target) (mapping : Bytes × H) :
    consider beyond target (Selection.ofEntry best) mapping =
      Selection.ofEntry (keepBest (matchLength target) best mapping) ∧
    ∀ e ∈ keepBest (matchLength target) best mapping, Serves e.1 target := by
  unfold consider keepBest
  simp only [conditions_iff]
  rw [longest_ofEntry h]
  unfold matchLength
  by_cases hs : Serves mapping.1 target
  · simp only [hs, true_and, if_true]
    split_ifs
    · exact ⟨rfl, fun e he => by rwa [← Option.some.inj he]⟩
    · exact ⟨rfl, h⟩
  · simp only [hs, false_and, if_false, Nat.not_lt_zero, true_and]
    exact h

private theorem foldl_consider (beyond : Nat → Byte) (target : Bytes) (table : Table H)
    (best : Option (Bytes × H)) (h : ∀ e ∈ best, Serves e.1 target) :
    table.foldl (consider beyond target) (Selection.ofEntry best) =
      Selection.ofEntry (table.foldl (keepBest (matchLength target)) best) := by
  induction table generalizing best with
  | nil => rfl
  | cons mapping table ih =>
    obtain ⟨he, hs⟩ := consider_ofEntry h mapping
    rw [List.foldl_cons, List.foldl_cons, he]
    exact ih _ hs

/-- The loop is a scan for the first entry that serves the longest prefix; what
reads past the target yield does not matter. -/
theorem route_entry (beyond : Nat → Byte) (table : Table H) (target : Bytes) :
    (route beyond table target).entry = bestMatch (matchLength (routedTarget target)) table := by
  have h := foldl_consider beyond (routedTarget target) table none (by simp)
  rw [route, bestMatch, ← entry_ofEntry (List.foldl _ none table), ← h]
  rfl

theorem stripQuery_of_no_query {path : Bytes} (h : chr '?' ∉ path) : stripQuery path = path := by
  unfold stripQuery
  split
  · rfl
  · rename_i i _
    have hn : (path.drop i).idxOf? (chr '?') = none :=
      List.idxOf?_eq_none_iff.mpr (fun hm => h (List.mem_of_mem_drop hm))
    rw [hn]

theorem routedTarget_of_no_query {path : Bytes} (h : chr '?' ∉ path) : routedTarget path = path ++ ascii "/" := by
  rw [routedTarget, stripQuery_of_no_query h]

theorem Serves.length_pos {urlPrefix target : Bytes} (h : Serves urlPrefix target) : 0 < urlPrefix.length := by
  rcases h with ⟨rfl, -⟩ | ⟨hne, -⟩
  · decide
  · exact List.length_pos_iff.mpr hne

theorem matchLength_pos {target : Bytes} {e : Bytes × H} :
    0 < matchLength target e ↔ Serves e.1 target := by
  unfold matchLength
  split_ifs with h
  · exact iff_of_true h.length_pos h
  · simp [h]

theorem Serves.starts {urlPrefix target : Bytes} (h : Serves urlPrefix target) : urlPrefix <+: target := by
  rcases h with ⟨-, h⟩ | ⟨-, h⟩
  · exact h
  · exact (List.prefix_append _ _).trans h

end Koko.Session
