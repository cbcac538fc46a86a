import Koko.Config.Parser
import Koko.Server.RegistrationSafety
import Koko.Session.Routing

/-! The byte behind a prefix that the routing loop looks at: it is read before it is known that the
prefix matches, so also where the target is shorter. -/
namespace Koko.Session
open Koko.Lib Koko.Config Koko.Handlers Koko.Server

section
variable {H : Type}

/-- `s[i]` by the rules of the language: the terminator at the end, and past it nothing. -/
def charAtDefined (s : Bytes) (i : Nat) : Defined Byte := s[i]?.or (if i = s.length then some 0 else none)

/-- One pass of the routing loop; the byte is read whatever the first comparison gave. -/
def considerDefined (target : Bytes) (sel : Selection H) (mapping : Bytes × H) : Defined (Selection H) := do
  let prefixLen := mapping.1.length
  let longestPrefixStringMatch := target.take prefixLen = mapping.1 ∧ sel.longestPrefixMatch < prefixLen
  let c ← charAtDefined target prefixLen
  let lastDirnameNotASubstr := c = chr '/' ∨ mapping.1 = ascii "/"
  return if longestPrefixStringMatch ∧ lastDirnameNotASubstr then ⟨prefixLen, mapping.1, some mapping.2⟩ else sel

/-- The routing loop, undefined if one of its reads is. -/
def routeDefined (table : Table H) (target : Bytes) : Defined (Selection H) :=
  table.foldlM (considerDefined (routedTarget target)) ⟨0, [], none⟩

/-- Every entry's prefix ends within the text it is compared with. -/
def InRange (table : Table H) (target : Bytes) : Prop := ∀ e ∈ table, e.1.length ≤ (routedTarget target).length

theorem charAtDefined_of_le {s : Bytes} {i : Nat} (h : i ≤ s.length) (beyond : Nat → Byte) :
    charAtDefined s i = some (charAt beyond s i) := by
  unfold charAtDefined charAt
  rcases Nat.lt_or_eq_of_le h with hlt | rfl
  · rw [List.getElem?_eq_getElem hlt]
    rfl
  · rw [List.getElem?_eq_none (Nat.le_refl _)]
    simp

theorem charAtDefined_of_gt {s : Bytes} {i : Nat} (h : s.length < i) : charAtDefined s i = none := by
  unfold charAtDefined
  rw [List.getElem?_eq_none (Nat.le_of_lt h), if_neg (Nat.ne_of_gt h)]
  rfl

theorem considerDefined_of_le {target : Bytes} {mapping : Bytes × H} (h : mapping.1.length ≤ target.length)
    (beyond : Nat → Byte) (sel : Selection H) :
    considerDefined target sel mapping = some (consider beyond target sel mapping) := by
  unfold considerDefined
  dsimp only
  rw [charAtDefined_of_le h beyond]
  rfl

theorem considerDefined_of_gt {target : Bytes} {mapping : Bytes × H} (h : target.length < mapping.1.length)
    (sel : Selection H) : considerDefined target sel mapping = none := by
  unfold considerDefined
  dsimp only
  rw [charAtDefined_of_gt h]
  rfl

private theorem foldlM_considerDefined_of_le {target : Bytes} {table : Table H}
    (h : ∀ e ∈ table, e.1.length ≤ target.length) (beyond : Nat → Byte) (sel : Selection H) :
    table.foldlM (considerDefined target) sel = some (table.foldl (consider beyond target) sel) := by
  induction table generalizing sel with
  | nil => rfl
  | cons e table ih =>
    rw [List.foldlM_cons, considerDefined_of_le (h e List.mem_cons_self) beyond]
    exact ih (fun e he => h e (List.mem_cons_of_mem _ he)) _

private theorem foldlM_considerDefined_of_gt {target : Bytes} {table : Table H} {e : Bytes × H} (he : e ∈ table)
    (h : target.length < e.1.length) (sel : Selection H) : table.foldlM (considerDefined target) sel = none := by
  induction table generalizing sel with
  | nil => cases he
  | cons first table ih =>
    rw [List.foldlM_cons]
    rcases List.mem_cons.mp he with rfl | he
    · rw [considerDefined_of_gt h]
      rfl
    · cases considerDefined target sel first with
      | none => rfl
      | some next => exact ih he next

/-- Within range the loop is defined and does not depend on what lies past the target. -/
theorem routeDefined_of_inRange {table : Table H} {target : Bytes} (h : InRange table target) (beyond : Nat → Byte) :
    routeDefined table target = some (route beyond table target) := foldlM_considerDefined_of_le h beyond _

theorem routeDefined_isSome_iff (table : Table H) (target : Bytes) :
    (routeDefined table target).isSome = true ↔ InRange table target := by
  constructor
  · intro hsome e he
    by_contra hgt
    rw [routeDefined, foldlM_considerDefined_of_gt he (Nat.lt_of_not_le hgt)] at hsome
    cases hsome
  · intro h
    rw [routeDefined_of_inRange h (fun _ => 0)]
    rfl

end

/-- How long the prefix of a location gets: a leading slash is added, and a trailing one dropped. -/
def prefixLength (location : Bytes) : Nat :=
  location.length + (if location.head? = some (chr '/') then 0 else 1) -
    (if location.getLast? = some (chr '/') ∧ 1 < location.length then 1 else 0)

/-- How much of a target is kept: up to a question mark behind its last slash, counted from there. -/
def keptLength (target : Bytes) : Nat :=
  match rfind (chr '/') target with
  | none => target.length
  | some lastSlashIndex => ((target.drop lastSlashIndex).idxOf? (chr '?')).getD target.length

/-- The locations of known handlers are no longer than what is kept of the target, and one slash. -/
def PrefixesFit (config : NginxConfig) (target : Bytes) : Prop :=
  ∀ s ∈ config, registersHandler s = true → ∀ location name, Locates s location name →
    prefixLength location ≤ keptLength target + 1

theorem length_stripQuery (target : Bytes) : (stripQuery target).length = keptLength target := by
  unfold stripQuery keptLength
  cases rfind (chr '/') target with
  | none => rfl
  | some i =>
    dsimp only
    cases hq : (target.drop i).idxOf? (chr '?') with
    | none => rfl
    | some j =>
      have hj : j < (target.drop i).length := by
        rw [List.idxOf?_eq_some_iff] at hq
        exact hq.1
      rw [List.length_drop] at hj
      rw [List.length_take, Option.getD_some]
      omega

theorem length_routedTarget (target : Bytes) : (routedTarget target).length = keptLength target + 1 := by
  rw [routedTarget, List.length_append, length_stripQuery]
  rfl

theorem length_leadingSlash {w : Bytes} (h : w ≠ []) :
    (leadingSlash w).length = w.length + (if w.head? = some (chr '/') then 0 else 1) := by
  unfold leadingSlash
  by_cases hh : w.head? = some (chr '/') <;> simp [h, hh]

theorem length_registeredPrefix {location urlPrefix : Bytes} (h : registeredPrefix location = some urlPrefix) :
    urlPrefix.length = prefixLength location := by
  rcases List.eq_nil_or_concat location with rfl | ⟨t, last, rfl⟩
  · cases h
  · rw [List.concat_eq_append] at h ⊢
    rw [registeredPrefix_concat] at h
    obtain rfl := Option.some.inj h
    cases t with
    | nil =>
      by_cases hl : last = chr '/' <;> simp [prefixLength, leadingSlash, hl, ascii]
    | cons c t =>
      have hne : (c :: t) ++ [last] ≠ ascii "/" := fun he => absurd (congrArg List.length he) (by simp [ascii])
      have hlast : ((c :: t) ++ [last]).getLast? = some last := List.getLast?_concat
      rw [prefixLength, hlast]
      by_cases hl : last = chr '/'
      · rw [if_pos ⟨hl, hne⟩, length_leadingSlash (List.cons_ne_nil c t)]
        by_cases hc : c = chr '/' <;> simp [hl, hc]
      · rw [if_neg (fun hc => hl hc.1), length_leadingSlash (by simp)]
        simp [hl]

theorem eq_root_of_leadingSlash {w : Bytes} (h : leadingSlash w = ascii "/") : w = ascii "/" := by
  unfold leadingSlash at h
  split_ifs at h with hc
  · exact absurd (List.cons.inj h).2 hc.1
  · exact h

/-- Only the root is registered with a prefix of one byte, written with one slash or two. -/
theorem length_registeredPrefix_le_one_iff {location urlPrefix : Bytes}
    (h : registeredPrefix location = some urlPrefix) :
    urlPrefix.length ≤ 1 ↔ location = ascii "/" ∨ location = ascii "//" := by
  constructor
  · intro hlen
    obtain ⟨rest, rfl⟩ : ∃ rest, urlPrefix = chr '/' :: rest :=
      ⟨urlPrefix.tail, (List.cons_head?_tail (head?_registeredPrefix h)).symm⟩
    obtain rfl : rest = [] := List.eq_nil_of_length_eq_zero (by simpa using hlen)
    rcases List.eq_nil_or_concat location with rfl | ⟨t, last, rfl⟩
    · cases h
    · rw [List.concat_eq_append, registeredPrefix_concat] at h
      rw [List.concat_eq_append]
      split_ifs at h with hc
      · rw [eq_root_of_leadingSlash (Option.some.inj h), hc.1]
        exact .inr rfl
      · exact .inl (eq_root_of_leadingSlash (Option.some.inj h))
  · rintro (rfl | rfl)
    · obtain rfl : ascii "/" = urlPrefix := Option.some.inj h
      decide
    · obtain rfl : ascii "/" = urlPrefix := Option.some.inj h
      decide

/-- The routing loop reads within the target, and is defined, exactly for the targets that all
prefixes of the configuration fit; it does so for every target only if the root is the one location. -/
theorem routing_in_range_iff {config : NginxConfig} {names : List (Bytes × Bytes)} {registered : Registered}
    (h : createAllHandlers config names = some registered) :
    (∀ target, (InRange registered.urlToHandler target ↔ PrefixesFit config target) ∧
      ((routeDefined registered.urlToHandler target).isSome = true ↔ PrefixesFit config target)) ∧
    ((∀ target, InRange registered.urlToHandler target) ↔
      ∀ s ∈ config, registersHandler s = true → ∀ location name, Locates s location name →
        location = ascii "/" ∨ location = ascii "//") := by
  have hentries := (exact_createAllHandlers h).1
  have hfit : ∀ target, InRange registered.urlToHandler target ↔ PrefixesFit config target := by
    intro target
    have hlocations := forall_prefixes_iff
      (p := fun urlPrefix => urlPrefix.length ≤ (routedTarget target).length)
      (q := fun location => prefixLength location ≤ keptLength target + 1)
      (fun location urlPrefix hp => by rw [length_registeredPrefix hp, length_routedTarget]) hentries
    rw [InRange, hlocations]
    simp only [List.mem_filter, and_imp, PrefixesFit]
  refine ⟨fun target => ⟨hfit target, (routeDefined_isSome_iff _ target).trans (hfit target)⟩, ?_⟩
  have hroot := forall_prefixes_iff (p := fun urlPrefix => urlPrefix.length ≤ 1)
    (fun location urlPrefix hp => length_registeredPrefix_le_one_iff hp) hentries
  simp only [List.mem_filter, and_imp] at hroot
  rw [← hroot]
  constructor
  · -- the empty target leaves only the slash that is added
    exact fun hall => hall []
  · intro hone target e he
    rw [length_routedTarget]
    exact Nat.le_trans (hone e he) (Nat.le_add_left 1 _)

/-- A location for files, and what is registered for it. -/
def staticConfig : NginxConfig :=
  [.mk [ascii "location", ascii "/static", ascii "StaticHandler"] (some [.mk [ascii "root", ascii "/srv"] none])]

def staticRegistered : Registered :=
  ⟨[(ascii "/static", ⟨ascii "File", false, .file ⟨ascii "/static", ascii "/srv", false⟩⟩)],
    [(ascii "/static", ascii "StaticHandler")]⟩

private theorem created_staticRegistered :
    (createAllHandlers staticConfig []).map (·.urlToHandler) = some staticRegistered.urlToHandler := by
  decide +kernel

/-- For the start page the byte at 7 is read, in a text of two bytes. -/
theorem short_target_read_past :
    parse (.ofList (ascii "location /static StaticHandler \x7b root /srv; \x7d")) [] = some ⟨true, staticConfig, ""⟩ ∧
    (createAllHandlers staticConfig []).map (·.urlToHandler) = some staticRegistered.urlToHandler ∧
    staticRegistered.urlToHandler.map (·.1.length) = [7] ∧ (routedTarget (ascii "/")).length = 2 ∧
    ¬ InRange staticRegistered.urlToHandler (ascii "/") ∧
    (routeDefined staticRegistered.urlToHandler (ascii "/")).isSome = false := by
  have hrange : ¬ InRange staticRegistered.urlToHandler (ascii "/") :=
    fun h => absurd (h _ List.mem_cons_self) (by decide +kernel)
  exact ⟨by decide +kernel, created_staticRegistered, by decide +kernel, by decide +kernel, hrange, by decide +kernel⟩

theorem long_target_read_within : InRange staticRegistered.urlToHandler (ascii "/static/a") := by
  obtain ⟨registered, hcreated, he⟩ := Option.map_eq_some_iff.mp created_staticRegistered
  rw [← he]
  refine (((routing_in_range_iff hcreated).1 (ascii "/static/a")).1).mpr ?_
  intro s hs _ location name hl
  obtain rfl := List.mem_singleton.mp hs
  obtain ⟨rfl, -⟩ : ascii "/static" = location ∧ _ := by simpa [Locates] using hl
  decide +kernel

end Koko.Session
