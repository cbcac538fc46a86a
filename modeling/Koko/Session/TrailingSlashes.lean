import Koko.Server.RegistrationSafety
import Koko.Session.Routing

/-! What trailing slashes do to routing. One is removed from a location and one is added to a
target, so a location that still ends in a slash asks for a slash too many. -/
namespace Koko.Session
open Koko.Lib Koko.Config Koko.Handlers Koko.Server

def slashes (n : Nat) : Bytes := List.replicate n (chr '/')

theorem slashes_succ (n : Nat) : slashes (n + 1) = slashes n ++ ascii "/" := List.replicate_succ'

theorem no_query_in_slashes (n : Nat) : chr '?' ∉ slashes n := by
  intro h
  exact absurd (List.eq_of_mem_replicate h) (by decide)

theorem no_query_with_slashes {path : Bytes} (hq : chr '?' ∉ path) (n : Nat) : chr '?' ∉ path ++ slashes n :=
  fun hm => (List.mem_append.mp hm).elim hq (no_query_in_slashes n)

section Numbering
variable {H : Type}

/-- The table with the position of each entry beside its handler. -/
def numbered (table : Table H) : Table (H × Nat) := table.zipIdx.map (fun x => (x.1.1, (x.1.2, x.2)))

/-- The position in the table, so among the locations, of the handler that is selected. -/
def selectedLocation (beyond : Nat → Byte) (table : Table H) (target : Bytes) : Option Nat :=
  (route beyond (numbered table) target).correctHandler.map Prod.snd

theorem correctHandler_eq (beyond : Nat → Byte) (table : Table H) (target : Bytes) :
    (route beyond table target).correctHandler =
      (bestMatch (matchLength (routedTarget target)) table).map Prod.snd := by
  rw [← route_entry beyond, Selection.entry, Option.map_map]
  exact Option.map_id'.symm

theorem selectedLocation_eq (beyond : Nat → Byte) (table : Table H) (target : Bytes) :
    selectedLocation beyond table target =
      (bestMatch (matchLength (routedTarget target)) (numbered table)).map (·.2.2) := by
  rw [selectedLocation, correctHandler_eq, Option.map_map]
  rfl

/-- Entries related in pairs are so with their numbers. -/
theorem forall₂_numbered {K : Type} {r : Bytes × H → Bytes × K → Prop} {table : Table H} {table' : Table K}
    (h : List.Forall₂ r table table') :
    List.Forall₂ (fun a b => r (a.1, a.2.1) (b.1, b.2.1) ∧ a.2.2 = b.2.2) (numbered table) (numbered table') := by
  have hfrom : ∀ n, List.Forall₂ (fun a b => r a.1 b.1 ∧ a.2 = b.2) (table.zipIdx n) (table'.zipIdx n) := by
    induction h with
    | nil => exact fun n => .nil
    | cons hab _ ih => exact fun n => .cons ⟨hab, rfl⟩ (ih (n + 1))
  unfold numbered
  rw [List.forall₂_map_left_iff, List.forall₂_map_right_iff]
  exact hfrom 0

theorem exists_mem_numbered {table : Table H} {e : Bytes × H} (he : e ∈ table) :
    ∃ i, (e.1, (e.2, i)) ∈ numbered table := by
  obtain ⟨i, hi⟩ := List.mem_iff_getElem?.mp he
  exact ⟨i, List.mem_map.mpr ⟨(e, i), List.mem_zipIdx_iff_getElem?.mpr hi, rfl⟩⟩

/-- The number of an entry tells the entry. -/
theorem eq_of_mem_numbered {table : Table H} {a b : Bytes × (H × Nat)} (ha : a ∈ numbered table)
    (hb : b ∈ numbered table) (h : a.2.2 = b.2.2) : a = b := by
  obtain ⟨x, hx, rfl⟩ := List.mem_map.mp ha
  obtain ⟨y, hy, rfl⟩ := List.mem_map.mp hb
  rw [List.mem_zipIdx_iff_getElem?] at hx hy
  have hxy : x.1 = y.1 := by
    rw [show x.2 = y.2 from h] at hx
    exact Option.some.inj (hx.symm.trans hy)
  rw [hxy, show x.2 = y.2 from h]

end Numbering

section Routing

theorem routedTarget_slashes {path : Bytes} (hq : chr '?' ∉ path) (j : Nat) :
    routedTarget (path ++ slashes j) = path ++ slashes (j + 1) := by
  rw [routedTarget_of_no_query (no_query_with_slashes hq j), List.append_assoc, ← slashes_succ]

theorem Serves.mono {urlPrefix target target' : Bytes} (h : Serves urlPrefix target) (ht : target <+: target') :
    Serves urlPrefix target' := by
  rcases h with ⟨he, h⟩ | ⟨hne, h⟩
  · exact .inl ⟨he, h.trans ht⟩
  · exact .inr ⟨hne, h.trans ht⟩

/-- A prefix that a path without query and its slashes can satisfy: it ends in no slash, unless
it is the root. -/
def Trimmed (urlPrefix : Bytes) : Prop :=
  urlPrefix.getLast? = some (chr '/') → urlPrefix = ascii "/" ∨ chr '?' ∈ urlPrefix

theorem path_starts_slashes (path : Bytes) (j : Nat) : path ++ ascii "/" <+: path ++ slashes (j + 1) := by
  rw [List.prefix_append_right_inj]
  exact ⟨slashes j, rfl⟩

private theorem getLast?_past_path {path urlPrefix : Bytes} {n : Nat} (h : urlPrefix <+: path ++ slashes n)
    (hl : path.length < urlPrefix.length) : urlPrefix.getLast? = some (chr '/') := by
  obtain ⟨w, rfl⟩ := List.prefix_of_prefix_length_le (List.prefix_append path (slashes n)) h (by omega)
  rw [List.prefix_append_right_inj] at h
  have hw : w ≠ [] := by
    intro he
    simp [he] at hl
  rw [List.getLast?_append_of_ne_nil _ hw, List.getLast?_eq_some_getLast hw]
  exact congrArg some (List.eq_of_mem_replicate (h.subset (List.getLast_mem hw)))

/-- More slashes behind the path do not matter to a trimmed prefix. -/
theorem serves_slashes_iff {path urlPrefix : Bytes} (ht : Trimmed urlPrefix) (hq : chr '?' ∉ path) (j : Nat) :
    Serves urlPrefix (path ++ slashes (j + 1)) ↔ Serves urlPrefix (path ++ ascii "/") := by
  refine ⟨fun h => ?_, fun h => h.mono (path_starts_slashes path j)⟩
  have hroot : urlPrefix = ascii "/" → Serves urlPrefix (path ++ ascii "/") := by
    intro he
    refine .inl ⟨he, List.prefix_of_prefix_length_le h.starts (path_starts_slashes path j) ?_⟩
    simp [he, ascii]
  rcases h with ⟨he, -⟩ | ⟨hne, hp⟩
  · exact hroot he
  · by_cases hl : urlPrefix.length ≤ path.length
    · refine .inr ⟨hne, List.prefix_of_prefix_length_le hp (path_starts_slashes path j) ?_⟩
      simpa using hl
    · have hstart := (List.prefix_append urlPrefix (ascii "/")).trans hp
      rcases ht (getLast?_past_path hstart (by omega)) with he | hm
      · exact hroot he
      · exact absurd (hstart.subset hm) (no_query_with_slashes hq (j + 1))

/-- A prefix that was respelled with more slashes at its end. -/
def Respelled (urlPrefix urlPrefix' : Bytes) : Prop :=
  urlPrefix' = urlPrefix ∨
    (urlPrefix ≠ [] ∧ urlPrefix.getLast? ≠ some (chr '/') ∧ ∃ n, urlPrefix' = urlPrefix ++ slashes n)

private theorem not_serves_query {path urlPrefix : Bytes} (hq : chr '?' ∉ path) (hp : chr '?' ∈ urlPrefix) (n : Nat) :
    ¬ Serves urlPrefix (path ++ slashes n) :=
  fun h => absurd (h.starts.subset hp) (no_query_with_slashes hq n)

/-- A trimmed prefix that was respelled matches the path with more slashes as the old one did
the path. -/
theorem matchLength_respelled {H K : Type} {a : Bytes × H} {b : Bytes × K} (h : Respelled a.1 b.1)
    (ht : Trimmed b.1) {path : Bytes} (hq : chr '?' ∉ path) (j : Nat) :
    matchLength (path ++ ascii "/") a = matchLength (path ++ slashes (j + 1)) b := by
  unfold matchLength
  have hsame : b.1 = a.1 → (if Serves a.1 (path ++ ascii "/") then a.1.length else 0) =
      if Serves b.1 (path ++ slashes (j + 1)) then b.1.length else 0 := by
    intro he
    rw [if_congr (serves_slashes_iff ht hq j) rfl rfl, he]
  rcases h with he | ⟨hne, hlast, n, he⟩
  · exact hsame he
  · cases n with
    | zero =>
      rw [slashes, List.replicate_zero, List.append_nil] at he
      exact hsame he
    | succ n =>
      have hmem : chr '?' ∈ b.1 := by
        have hslash : b.1.getLast? = some (chr '/') := by
          rw [he, slashes_succ, ← List.append_assoc]
          exact List.getLast?_concat
        refine (ht hslash).resolve_left (fun hroot => ?_)
        have hlength := congrArg List.length (he.symm.trans hroot)
        have hpos := List.length_pos_iff.mpr hne
        simp [slashes, ascii] at hlength
        omega
      have hmem' : chr '?' ∈ a.1 := by
        rw [he] at hmem
        exact (List.mem_append.mp hmem).resolve_right (no_query_in_slashes (n + 1))
      have hold : ¬ Serves a.1 (path ++ ascii "/") := not_serves_query hq hmem' 1
      rw [if_neg (not_serves_query hq hmem (j + 1)), if_neg hold]

/-- Every text is one that ends in no slash, and slashes. -/
theorem exists_slashes (s : Bytes) : ∃ t n, s = t ++ slashes n ∧ t.getLast? ≠ some (chr '/') := by
  induction s using List.reverseRecOn with
  | nil => exact ⟨[], 0, rfl, by simp⟩
  | append_singleton s c ih =>
    by_cases hc : c = chr '/'
    · obtain ⟨t, n, rfl, ht⟩ := ih
      refine ⟨t, n + 1, ?_, ht⟩
      rw [slashes_succ, hc, List.append_assoc]
      rfl
    · exact ⟨s ++ [c], 0, (List.append_nil _).symm, by simpa using hc⟩

variable {H : Type} {beyond : Nat → Byte}

/-- A prefix selects itself, at its own path. -/
private theorem bestMatch_self {table : Table H} {e : Bytes × H} (he : e ∈ table)
    (hslash : e.1.getLast? = some (chr '/')) (hroot : e.1 ≠ ascii "/") :
    ∃ best, bestMatch (matchLength (e.1 ++ ascii "/")) table = some best ∧ best.1 = e.1 := by
  have hserves : Serves e.1 (e.1 ++ ascii "/") := by
    refine .inr ⟨?_, List.prefix_refl _⟩
    intro hn
    rw [hn] at hslash
    cases hslash
  cases hbest : bestMatch (matchLength (e.1 ++ ascii "/")) table with
  | none =>
    have hzero := bestMatch_eq_none_iff.mp hbest e he
    have hpos := matchLength_pos.mpr hserves
    omega
  | some best =>
    refine ⟨best, rfl, ?_⟩
    have hs : Serves best.1 (e.1 ++ ascii "/") := matchLength_pos.mp (mem_of_bestMatch hbest).2
    have hle := le_of_bestMatch hbest e he
    rw [matchLength, if_pos hserves, matchLength, if_pos hs] at hle
    obtain ⟨t, ht⟩ := List.getLast?_eq_some_iff.mp hslash
    rcases hs with ⟨hone, -⟩ | ⟨-, hp⟩
    · refine absurd ?_ hroot
      rw [ht, hone] at hle
      have hnil : t = [] := by simpa [ascii] using hle
      rw [ht, hnil]
      rfl
    · have hlength := hp.length_le
      rw [List.length_append, List.length_append] at hlength
      have hstart := (List.prefix_append best.1 (ascii "/")).trans hp
      have hstarts := List.prefix_of_prefix_length_le hstart (List.prefix_append e.1 (ascii "/")) (by omega)
      exact hstarts.eq_of_length (by omega)

/-- A prefix that ends in a slash, and is not the root, makes slashes matter. -/
theorem trimmed_of_same_selection {table : Table H}
    (h : ∀ path j, chr '?' ∉ path → path.getLast? ≠ some (chr '/') →
      selectedLocation beyond table (path ++ slashes j) = selectedLocation beyond table path) :
    ∀ e ∈ table, Trimmed e.1 := by
  intro e he hslash
  by_contra hn
  rw [not_or] at hn
  obtain ⟨t, n, hte, ht⟩ := exists_slashes e.1
  have hq : chr '?' ∉ t := by
    intro hm
    rw [hte] at hn
    exact hn.2 (List.mem_append_left _ hm)
  have hpos : 0 < n := by
    refine Nat.pos_of_ne_zero (fun hz => ht ?_)
    rw [hte, hz, slashes, List.replicate_zero, List.append_nil] at hslash
    exact hslash
  obtain ⟨i, hi⟩ := exists_mem_numbered he
  obtain ⟨best, hbest, hb⟩ := bestMatch_self hi hslash hn.1
  have hsame := h t n hq ht
  have hroute := routedTarget_of_no_query hq
  have hroute' : routedTarget (t ++ slashes n) = e.1 ++ ascii "/" := by
    rw [routedTarget_slashes hq, slashes_succ, ← List.append_assoc, ← hte]
  rw [selectedLocation_eq, selectedLocation_eq, hroute, hroute', hbest, Option.map_some] at hsame
  obtain ⟨other, hother, hnumber⟩ := Option.map_eq_some_iff.mp hsame.symm
  obtain ⟨hmem, hscore⟩ := mem_of_bestMatch hother
  have heq := eq_of_mem_numbered hmem (mem_of_bestMatch hbest).1 hnumber
  rw [heq] at hscore
  have hserves := matchLength_pos.mp hscore
  rw [hb] at hserves
  rcases hserves with ⟨hone, -⟩ | ⟨-, hp⟩
  · exact hn.1 hone
  · have hlength := hp.length_le
    rw [hte] at hlength
    simp [slashes] at hlength
    omega

/-- Slashes at the end of prefixes and paths do not matter exactly if the prefixes are trimmed. -/
theorem same_selection_iff {table table' : Table H} (h : List.Forall₂ (fun a b => Respelled a.1 b.1) table table') :
    (∀ path j, chr '?' ∉ path → path.getLast? ≠ some (chr '/') →
      selectedLocation beyond table' (path ++ slashes j) = selectedLocation beyond table path) ↔
      ∀ e ∈ table', Trimmed e.1 := by
  constructor
  · intro hall
    apply trimmed_of_same_selection
    intro path j hq hlast
    have hnone := hall path 0 hq hlast
    rw [slashes, List.replicate_zero, List.append_nil] at hnone
    rw [hall path j hq hlast, hnone]
  · intro ht path j hq _
    have hroute := routedTarget_of_no_query hq
    have hpairs : List.Forall₂ (fun b a => Trimmed b.1 ∧ Respelled a.1 b.1) table' table :=
      (List.forall₂_and_left _ _).mpr ⟨ht, h.flip⟩
    rw [selectedLocation_eq, selectedLocation_eq, routedTarget_slashes hq, hroute]
    refine map_bestMatch_eq (fun b a hab => ?_) (forall₂_numbered hpairs) (fun b a hab => hab.2)
    exact (matchLength_respelled hab.1.2 hab.1.1 hq j).symm

end Routing

section Locations

theorem leadingSlash_append {t : Bytes} (ht : t ≠ []) (w : Bytes) : leadingSlash (t ++ w) = leadingSlash t ++ w := by
  unfold leadingSlash
  rw [List.head?_append_of_ne_nil _ ht]
  by_cases hs : t.head? = some (chr '/')
  · simp [hs]
  · simp [hs, ht]

/-- A location text that the removal of one slash is enough for. -/
def TrailingSafe (location : Bytes) : Prop :=
  ascii "//" <:+ location → location = ascii "//" ∨ chr '?' ∈ location

private theorem trimmed_leadingSlash_iff {w : Bytes} (hw : w ≠ []) : Trimmed (leadingSlash w) ↔ Trimmed w := by
  obtain ⟨c, w, rfl⟩ := List.exists_cons_of_ne_nil hw
  unfold leadingSlash
  split_ifs with hs
  · unfold Trimmed
    have hroot : c :: w ≠ ascii "/" := by
      intro he
      rw [he] at hs
      exact hs.2 rfl
    have hlong : chr '/' :: c :: w ≠ ascii "/" := by simp [ascii]
    have hslash : chr '?' ≠ chr '/' := by decide
    rw [List.getLast?_cons_cons, List.mem_cons]
    simp [hroot, hlong, hslash]
  · rfl

/-- The registered prefix is trimmed exactly if the text needs no more than one slash removed. -/
theorem trimmed_registeredPrefix_iff {location urlPrefix : Bytes} (h : registeredPrefix location = some urlPrefix) :
    Trimmed urlPrefix ↔ TrailingSafe location := by
  rcases List.eq_nil_or_concat location with rfl | ⟨t, last, rfl⟩
  · simp [registeredPrefix] at h
  rw [List.concat_eq_append] at h ⊢
  rw [registeredPrefix_concat] at h
  obtain rfl := Option.some.inj h
  by_cases hlast : last = chr '/'
  · subst hlast
    by_cases ht : t = []
    · subst ht
      exact iff_of_true (fun _ => .inl rfl) (fun hs => absurd hs (by decide +kernel))
    · have hroot : t ++ [chr '/'] ≠ ascii "/" := by
        intro he
        exact ht (List.append_cancel_right (he : t ++ [chr '/'] = [] ++ [chr '/']))
      have hdouble : t ++ [chr '/'] = ascii "//" ↔ t = ascii "/" :=
        ⟨fun he => List.append_cancel_right (he : t ++ [chr '/'] = ascii "/" ++ [chr '/']), fun he => he ▸ rfl⟩
      have hquery : chr '?' ∈ t ++ [chr '/'] ↔ chr '?' ∈ t := by simp [chr]
      rw [if_pos ⟨rfl, hroot⟩, trimmed_leadingSlash_iff ht, TrailingSafe, two_slashes_iff, hdouble, hquery]
      simp only [true_and]
      rfl
  · rw [if_neg (fun hn => hlast hn.1), trimmed_leadingSlash_iff (by simp)]
    refine iff_of_true (fun hs => ?_) (fun hs => ?_)
    · rw [List.getLast?_concat] at hs
      exact absurd (Option.some.inj hs) hlast
    · exact absurd ((two_slashes_iff t last).mp hs).1 hlast

private theorem registeredPrefix_plain {t : Bytes} (ht : t ≠ []) (hlast : t.getLast? ≠ some (chr '/')) :
    registeredPrefix t = some (leadingSlash t) := by
  obtain ⟨t, last, rfl⟩ := (List.eq_nil_or_concat t).resolve_left ht
  rw [List.concat_eq_append] at hlast ⊢
  rw [List.getLast?_concat] at hlast
  rw [registeredPrefix_concat, if_neg (fun hn => hlast (congrArg some hn.1))]

/-- More slashes behind a location text leave all but one behind its prefix. -/
theorem respelled_registeredPrefix {t p q : Bytes} (ht : t ≠ []) (hlast : t.getLast? ≠ some (chr '/')) {k : Nat}
    (hp : registeredPrefix t = some p) (hq : registeredPrefix (t ++ slashes k) = some q) : Respelled p q := by
  cases k with
  | zero =>
    rw [slashes, List.replicate_zero, List.append_nil, hp] at hq
    exact .inl (Option.some.inj hq).symm
  | succ n =>
    obtain rfl := Option.some.inj ((registeredPrefix_plain ht hlast).symm.trans hp)
    have hroot : t ++ slashes n ++ [chr '/'] ≠ ascii "/" := by
      intro he
      have hnil : t ++ slashes n = [] :=
        List.append_cancel_right (he : t ++ slashes n ++ [chr '/'] = [] ++ [chr '/'])
      exact ht (List.append_eq_nil_iff.mp hnil).1
    have htext : t ++ slashes (n + 1) = t ++ slashes n ++ [chr '/'] := by
      rw [slashes_succ, List.append_assoc]
      rfl
    rw [htext, registeredPrefix_concat, if_pos ⟨rfl, hroot⟩, leadingSlash_append ht] at hq
    obtain ⟨hhead, hsame, -⟩ := leadingSlash_spec ht
    refine .inr ⟨?_, ?_, n, (Option.some.inj hq).symm⟩
    · intro he
      rw [he] at hhead
      cases hhead
    · rw [hsame]
      exact hlast

/-- A configuration with this location text in one of its locations. -/
def withLocation (before after : NginxConfig) (name : Bytes) (block : Option NginxConfig) (location : Bytes) :
    NginxConfig :=
  before ++ .mk [ascii "location", location, name] block :: after

/-- A statement stays, or is the location whose text changes. -/
def Rewritten (t t' : Bytes) (s s' : NginxConfigStatement) : Prop :=
  s' = s ∨ ∃ name, Locates s t name ∧ Locates s' t' name

theorem registersHandler_rewritten {t t' : Bytes} {s s' : NginxConfigStatement} (h : Rewritten t t' s s') :
    registersHandler s = registersHandler s' := by
  rcases h with rfl | ⟨name, hs, hs'⟩
  · rfl
  · rw [registersHandler_of_locates hs, registersHandler_of_locates hs']

theorem forall₂_rewritten (before after : NginxConfig) (name : Bytes) (block : Option NginxConfig) (t t' : Bytes) :
    List.Forall₂ (Rewritten t t') ((withLocation before after name block t).filter registersHandler)
      ((withLocation before after name block t').filter registersHandler) := by
  have hsame : ∀ config : NginxConfig, List.Forall₂ (Rewritten t t') config config :=
    fun config => List.forall₂_same.mpr (fun s _ => .inl rfl)
  refine List.rel_filter (fun s s' h => iff_of_eq (congrArg (· = true) (registersHandler_rewritten h))) ?_
  exact List.rel_append (hsame before) (.cons (.inr ⟨name, rfl, rfl⟩) (hsame after))

private theorem respelled_entries {t t' : Bytes} {s s' : NginxConfigStatement} {e e' : Bytes × RequestHandler}
    (htexts : ∀ p q, registeredPrefix t = some p → registeredPrefix t' = some q → Respelled p q)
    (he : EntryOf s e) (h : Rewritten t t' s s') (he' : EntryOf s' e') : Respelled e.1 e'.1 := by
  obtain ⟨location, name, block, hl, -, hp, -⟩ := he
  obtain ⟨location', name', block', hl', -, hp', -⟩ := he'
  rcases h with rfl | ⟨name'', hs, hs'⟩
  · obtain ⟨rfl, -⟩ := hl.unique hl'
    exact .inl (Option.some.inj (hp'.symm.trans hp))
  · obtain ⟨rfl, -⟩ := hl.unique hs
    obtain ⟨rfl, -⟩ := hl'.unique hs'
    exact htexts e.1 e'.1 hp hp'

/-- Two tables made from lists of statements that are related in pairs. -/
private theorem forall₂_entries {q : NginxConfigStatement → NginxConfigStatement → Prop}
    {r : Bytes × RequestHandler → Bytes × RequestHandler → Prop}
    (hr : ∀ s s' e e', EntryOf s e → q s s' → EntryOf s' e' → r e e') {ss ss' : NginxConfig}
    {table table' : Table RequestHandler} (h : List.Forall₂ EntryOf ss table) (hq : List.Forall₂ q ss ss')
    (h' : List.Forall₂ EntryOf ss' table') : List.Forall₂ r table table' := by
  induction h generalizing ss' table' with
  | nil =>
    cases hq
    cases h'
    exact .nil
  | cons he _ ih =>
    cases hq with
    | cons hs hq =>
      cases h' with
      | cons he' h' => exact .cons (hr _ _ _ _ he hs he') (ih hq h')

end Locations

/-- Slashes at the end of a location's text and of the requested path never change which location
is selected, if every location of a known handler that ends in two slashes is just these or has a
question mark in it; and only then. -/
theorem trailing_slashes_iff {before after : NginxConfig} {name t : Bytes} {block : Option NginxConfig} {k : Nat}
    (ht : t ≠ []) (hlast : t.getLast? ≠ some (chr '/')) {names : List (Bytes × Bytes)} {registered registered' : Registered}
    (h : createAllHandlers (withLocation before after name block t) names = some registered)
    (h' : createAllHandlers (withLocation before after name block (t ++ slashes k)) names = some registered')
    (beyond : Nat → Byte) :
    (∀ path j, chr '?' ∉ path → path.getLast? ≠ some (chr '/') →
      selectedLocation beyond registered'.urlToHandler (path ++ slashes j) =
        selectedLocation beyond registered.urlToHandler path) ↔
      ∀ s ∈ withLocation before after name block (t ++ slashes k), registersHandler s = true →
        ∀ location handlerName, Locates s location handlerName → TrailingSafe location := by
  have hentries := (exact_createAllHandlers h).1
  have hentries' := (exact_createAllHandlers h').1
  have hpairs := forall₂_entries
    (fun s s' e e' he hs he' => respelled_entries (fun p q hp hq => respelled_registeredPrefix ht hlast hp hq) he hs he')
    hentries (forall₂_rewritten before after name block t (t ++ slashes k)) hentries'
  rw [same_selection_iff hpairs, forall_prefixes_iff (fun _ _ hp => trimmed_registeredPrefix_iff hp) hentries']
  simp only [List.mem_filter, and_imp]

/-- An echo location and a block for it. -/
def echoLocation (location : Bytes) : NginxConfig :=
  withLocation [] [] (ascii "EchoHandler") (some [.mk [ascii "root", ascii "/"] none]) location

/-- With two slashes the location is lost. -/
theorem two_slashes_lose_location :
    ∃ registered registered', createAllHandlers (echoLocation (ascii "/a")) [] = some registered ∧
      createAllHandlers (echoLocation (ascii "/a" ++ slashes 2)) [] = some registered' ∧
      selectedLocation (fun _ => 0) registered.urlToHandler (ascii "/a") = some 0 ∧
      selectedLocation (fun _ => 0) registered'.urlToHandler (ascii "/a" ++ slashes 0) = none :=
  ⟨_, _, rfl, rfl, by decide, by decide⟩

/-- With one it is not, however many slashes the path has. -/
theorem one_slash_keeps_location :
    ∃ registered registered', createAllHandlers (echoLocation (ascii "/a")) [] = some registered ∧
      createAllHandlers (echoLocation (ascii "/a" ++ slashes 1)) [] = some registered' ∧
      ∀ j, selectedLocation (fun _ => 0) registered'.urlToHandler (ascii "/a" ++ slashes j) =
        selectedLocation (fun _ => 0) registered.urlToHandler (ascii "/a") := by
  have hrun : ∃ registered registered', createAllHandlers (echoLocation (ascii "/a")) [] = some registered ∧
      createAllHandlers (echoLocation (ascii "/a" ++ slashes 1)) [] = some registered' := ⟨_, _, rfl, rfl⟩
  obtain ⟨registered, registered', h, h'⟩ := hrun
  refine ⟨registered, registered', h, h', fun j => ?_⟩
  refine (trailing_slashes_iff (by decide) (by decide) h h' (fun _ => 0)).mpr ?_ (ascii "/a") j (by decide) (by decide)
  intro s hs _ location name hl
  obtain rfl := List.mem_singleton.mp hs
  have hlocation : location = ascii "/a" ++ slashes 1 := (hl.unique rfl).1
  rw [hlocation]
  intro hsuffix
  exact absurd hsuffix (by decide +kernel)

end Koko.Session
