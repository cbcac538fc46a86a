import Koko.Config.LookupSafety
import Koko.Config.WordTokens
import Koko.Server.Registration

/-! When the registration of the handlers is defined, and what the two tables hold then: the
block of every three-token location is dereferenced, known handler or not. -/
namespace Koko.Server
open Koko.Lib Koko.Config Koko.Handlers

/-- A statement that puts this location under this handler. -/
def Locates (s : NginxConfigStatement) (location handlerName : Bytes) : Prop :=
  s.tokens = [ascii "location", location, handlerName]

/-- A three-token location with a known handler. -/
def registersHandler (s : NginxConfigStatement) : Bool :=
  s.tokens.length = 3 ∧ s.tokens[0]? = some (ascii "location") ∧ knownHandlers.any (fun name => s.tokens[2]? = some name)

/-- A three-token location has a block, in which the keep-alive setting can be looked up if the
handler does so. -/
def LocationSafe (s : NginxConfigStatement) : Prop :=
  ∀ location name, Locates s location name → ∃ block, s.childBlock = some block ∧
    (name ∈ keepAliveHandlers → LookupSafe (ascii "keep-alive") block)

/-- The table entry of a location: its prefix and the handler of its name. -/
def EntryOf (s : NginxConfigStatement) (entry : Bytes × RequestHandler) : Prop :=
  ∃ location name block, Locates s location name ∧ s.childBlock = some block ∧
    registeredPrefix location = some entry.1 ∧ createHandler entry.1 name block = some (some entry.2)

/-- The name entry of a location: the same prefix and the name. -/
def NameOf (s : NginxConfigStatement) (entry : Bytes × Bytes) : Prop :=
  ∃ location, Locates s location entry.2 ∧ registeredPrefix location = some entry.1

theorem setKeepAliveFromConfig_isSome_iff (block : NginxConfig) :
    (setKeepAliveFromConfig block).isSome = true ↔ LookupSafe (ascii "keep-alive") block := by
  rw [← getStr_isSome_iff, ← getNum_isSome, setKeepAliveFromConfig]
  cases getNum block (ascii "keep-alive") <;> rfl

/-- An outcome of creating a handler: defined exactly if the lookup it makes is safe, and then
a handler exactly if the name is known. -/
def CreationSpec (name : Bytes) (block : NginxConfig) (created : Defined (Option RequestHandler)) : Prop :=
  (created.isSome = true ↔ (name ∈ keepAliveHandlers → LookupSafe (ascii "keep-alive") block)) ∧
    ∀ handler ∈ created, (handler.isSome = true ↔ name ∈ knownHandlers)

theorem createHandler_spec (urlPrefix name : Bytes) (block : NginxConfig) :
    CreationSpec name block (createHandler urlPrefix name block) := by
  have hsafe := setKeepAliveFromConfig_isSome_iff block
  rcases createHandler_eq urlPrefix name block with
    ⟨hname, kind, -, he⟩ | ⟨hknown, hname, kind, -, he⟩ | ⟨hname, he⟩
  · have hknown : name ∈ knownHandlers := List.mem_append_left _ hname
    rw [he, CreationSpec, Option.isSome_map, hsafe]
    refine ⟨⟨fun h _ => h, fun h => h hname⟩, fun created hc => ?_⟩
    obtain ⟨keepAlive, -, rfl⟩ := Option.mem_map.mp hc
    exact iff_of_true rfl hknown
  · rw [he]
    refine ⟨iff_of_true rfl (fun h => absurd h hname), fun created hc => ?_⟩
    rw [← Option.some.inj hc]
    exact iff_of_true rfl hknown
  · rw [he]
    refine ⟨iff_of_true rfl (fun h => absurd (List.mem_append_left _ h) hname), fun created hc => ?_⟩
    rw [← Option.some.inj hc]
    exact iff_of_false nofun hname

/-- Only the last byte of an empty text does not exist. -/
theorem registeredPrefix_isSome {location : Bytes} (h : location ≠ []) : ∃ urlPrefix, registeredPrefix location = some urlPrefix := by
  obtain ⟨t, last, rfl⟩ := (List.eq_nil_or_concat location).resolve_left h
  rw [List.concat_eq_append]
  exact ⟨_, registeredPrefix_concat t last⟩

theorem registerStatement_of_not_locates (registered : Registered) {s : NginxConfigStatement}
    (h : ∀ location name, ¬ Locates s location name) : registerStatement registered s = some registered := by
  unfold registerStatement
  split
  · rename_i keyword location name ht
    split_ifs with hk
    · rw [hk] at ht
      exact absurd ht (h location name)
    · rfl
  · rfl

theorem registerStatement_of_locates (registered : Registered) {s : NginxConfigStatement}
    {location name urlPrefix : Bytes} (h : Locates s location name) (hp : registeredPrefix location = some urlPrefix) :
    registerStatement registered s =
      (s.childBlock.bind (createHandler urlPrefix name)).map (fun created =>
        ⟨registered.urlToHandler ++ (created.map (urlPrefix, ·)).toList,
          registered.urlToHandlerName ++ (created.map (fun _ => (urlPrefix, name))).toList⟩) := by
  unfold registerStatement
  rw [show s.tokens = [ascii "location", location, name] from h]
  simp only [if_true, hp, Option.bind_eq_bind, Option.bind_some]
  cases s.childBlock with
  | none => rfl
  | some block =>
    simp only [Option.bind_some]
    cases createHandler urlPrefix name block with
    | none => rfl
    | some created =>
      cases created with
      | none => simp
      | some handler => rfl

/-- Where registration is defined the location has a prefix. -/
theorem registeredPrefix_of_defined {registered next : Registered} {s : NginxConfigStatement} {location name : Bytes}
    (h : Locates s location name) (hr : registerStatement registered s = some next) :
    ∃ urlPrefix, registeredPrefix location = some urlPrefix := by
  unfold registerStatement at hr
  rw [show s.tokens = [ascii "location", location, name] from h] at hr
  simp only [if_true, Option.bind_eq_bind] at hr
  obtain ⟨urlPrefix, hp, -⟩ := Option.bind_eq_some_iff.1 hr
  exact ⟨urlPrefix, hp⟩

theorem Locates.unique {s : NginxConfigStatement} {location name location' name' : Bytes} (h : Locates s location name)
    (h' : Locates s location' name') : location = location' ∧ name = name' := by
  have he := h.symm.trans h'
  simpa using he

theorem locationSafe_iff {s : NginxConfigStatement} {location name : Bytes} (h : Locates s location name) :
    LocationSafe s ↔ ∃ block, s.childBlock = some block ∧
      (name ∈ keepAliveHandlers → LookupSafe (ascii "keep-alive") block) := by
  refine ⟨fun hs => hs location name h, fun hb location' name' h' => ?_⟩
  rw [← (h.unique h').2]
  exact hb

theorem registersHandler_of_locates {s : NginxConfigStatement} {location name : Bytes} (h : Locates s location name) :
    registersHandler s = decide (name ∈ knownHandlers) := by
  rw [registersHandler, show s.tokens = [ascii "location", location, name] from h]
  simp

theorem registersHandler_of_not_locates {s : NginxConfigStatement} (h : ∀ location name, ¬ Locates s location name) :
    registersHandler s = false := by
  refine decide_eq_false (fun hs => ?_)
  obtain ⟨keyword, location, name, ht⟩ := List.length_eq_three.mp hs.1
  have hk := hs.2.1
  rw [ht] at hk
  apply h location name
  rw [Locates, ht, show keyword = ascii "location" from Option.some.inj hk]

private theorem location_ne_nil {s : NginxConfigStatement} {location name : Bytes} (h : Locates s location name)
    (hs : [] ∉ s.tokens) : location ≠ [] := by
  intro he
  rw [show s.tokens = [ascii "location", location, name] from h, he] at hs
  simp at hs

/-- Registering a statement without empty tokens is defined exactly if it is safe. -/
theorem registerStatement_isSome_iff (registered : Registered) {s : NginxConfigStatement} (hs : [] ∉ s.tokens) :
    (registerStatement registered s).isSome = true ↔ LocationSafe s := by
  by_cases h : ∃ location name, Locates s location name
  · obtain ⟨location, name, h⟩ := h
    obtain ⟨urlPrefix, hp⟩ := registeredPrefix_isSome (location_ne_nil h hs)
    rw [registerStatement_of_locates registered h hp, locationSafe_iff h, Option.isSome_map]
    cases s.childBlock with
    | none => simp
    | some block =>
      rw [Option.bind_some, (createHandler_spec urlPrefix name block).1]
      exact ⟨fun hl => ⟨block, rfl, hl⟩, fun ⟨_, he, hl⟩ => Option.some.inj he ▸ hl⟩
  · simp only [not_exists] at h
    rw [registerStatement_of_not_locates registered h]
    exact ⟨fun _ location name hl => absurd hl (h location name), fun _ => rfl⟩

/-- A registered statement adds its two entries, and any other nothing. -/
theorem registerStatement_cases {registered next : Registered} {s : NginxConfigStatement}
    (hr : registerStatement registered s = some next) :
    (registersHandler s = false ∧ next = registered) ∨
    (registersHandler s = true ∧ ∃ entry name, EntryOf s entry ∧ NameOf s name ∧ name.1 = entry.1 ∧
      next = ⟨registered.urlToHandler ++ [entry], registered.urlToHandlerName ++ [name]⟩) := by
  by_cases h : ∃ location name, Locates s location name
  · obtain ⟨location, name, h⟩ := h
    obtain ⟨urlPrefix, hp⟩ := registeredPrefix_of_defined h hr
    rw [registerStatement_of_locates registered h hp] at hr
    obtain ⟨created, hc, rfl⟩ := Option.map_eq_some_iff.1 hr
    obtain ⟨block, hb, hc⟩ := Option.bind_eq_some_iff.1 hc
    have hknown := (createHandler_spec urlPrefix name block).2 created hc
    rw [registersHandler_of_locates h]
    cases created with
    | none =>
      refine .inl ⟨decide_eq_false (fun hname => ?_), by simp⟩
      cases hknown.2 hname
    | some handler =>
      refine .inr ⟨decide_eq_true (hknown.1 rfl), (urlPrefix, handler), (urlPrefix, name), ?_, ?_, rfl, rfl⟩
      · exact ⟨location, name, block, h, hb, hp, hc⟩
      · exact ⟨location, h, hp⟩
  · simp only [not_exists] at h
    rw [registerStatement_of_not_locates registered h] at hr
    exact .inl ⟨registersHandler_of_not_locates h, (Option.some.inj hr).symm⟩

theorem foldlM_registerStatement_isSome_iff {config : NginxConfig} (hs : ∀ s ∈ config, [] ∉ s.tokens)
    (registered : Registered) :
    (config.foldlM registerStatement registered).isSome = true ↔ ∀ s ∈ config, LocationSafe s := by
  induction config generalizing registered with
  | nil => simp
  | cons s config ih =>
    rw [List.foldlM_cons, List.forall_mem_cons, Option.bind_eq_bind,
      ← registerStatement_isSome_iff registered (hs s List.mem_cons_self)]
    cases registerStatement registered s with
    | none => simp
    | some next => simpa using ih (fun t ht => hs t (List.mem_cons_of_mem s ht)) next

/-- A run over statements adds the entries of those that register a handler, in their order. -/
theorem foldlM_registerStatement_cases {config : NginxConfig} {registered final : Registered}
    (h : config.foldlM registerStatement registered = some final) :
    ∃ entries names, final = ⟨registered.urlToHandler ++ entries, registered.urlToHandlerName ++ names⟩ ∧
      List.Forall₂ EntryOf (config.filter registersHandler) entries ∧
      List.Forall₂ NameOf (config.filter registersHandler) names ∧ names.map Prod.fst = entries.map Prod.fst := by
  induction config generalizing registered with
  | nil =>
    obtain rfl := Option.some.inj h
    exact ⟨[], [], by simp, .nil, .nil, rfl⟩
  | cons s config ih =>
    rw [List.foldlM_cons, Option.bind_eq_bind, Option.bind_eq_some_iff] at h
    obtain ⟨next, hnext, h⟩ := h
    obtain ⟨entries, names, rfl, he, hn, hp⟩ := ih h
    rcases registerStatement_cases hnext with ⟨hk, rfl⟩ | ⟨hk, entry, name, hentry, hname, hsame, rfl⟩
    · rw [List.filter_cons_of_neg (by simp [hk])]
      exact ⟨entries, names, rfl, he, hn, hp⟩
    · rw [List.filter_cons_of_pos hk]
      refine ⟨entry :: entries, name :: names, by simp, .cons hentry he, .cons hname hn, ?_⟩
      rw [List.map_cons, List.map_cons, hsame, hp]

/-- One table entry and one name entry for each location with a known handler, in their order
and under the same prefixes. -/
def Exact (config : NginxConfig) (names : List (Bytes × Bytes)) (registered : Registered) : Prop :=
  List.Forall₂ EntryOf (config.filter registersHandler) registered.urlToHandler ∧
    ∃ added, registered.urlToHandlerName = names ++ added ∧
      List.Forall₂ NameOf (config.filter registersHandler) added ∧
      added.map Prod.fst = registered.urlToHandler.map Prod.fst

/-- Registration is exact whenever it is defined. -/
theorem exact_createAllHandlers {config : NginxConfig} {names : List (Bytes × Bytes)} {registered : Registered}
    (h : createAllHandlers config names = some registered) : Exact config names registered := by
  obtain ⟨entries, added, rfl, he, ha, hp⟩ := foldlM_registerStatement_cases h
  exact ⟨he, added, rfl, ha, hp⟩

/-- What holds of all prefixes of a table, said of the locations they were registered for. -/
theorem forall_prefixes_iff {p q : Bytes → Prop}
    (hpq : ∀ location urlPrefix, registeredPrefix location = some urlPrefix → (p urlPrefix ↔ q location))
    {ss : NginxConfig} {table : List (Bytes × RequestHandler)} (h : List.Forall₂ EntryOf ss table) :
    (∀ e ∈ table, p e.1) ↔ ∀ s ∈ ss, ∀ location name, Locates s location name → q location := by
  induction h with
  | nil => simp
  | cons he _ ih =>
    obtain ⟨location, name, block, hl, -, hp, -⟩ := he
    rw [List.forall_mem_cons, List.forall_mem_cons, ih, hpq location _ hp]
    refine and_congr_left (fun _ => ⟨fun hs location' name' hl' => ?_, fun hs => hs location name hl⟩)
    rw [← (hl.unique hl').1]
    exact hs

/-- On what `Parse` left behind, registration is defined and exact if every three-token location
is safe, and only then. -/
theorem createAllHandlers_exact_iff {input : Stream} {r : ParseResult} (hr : parse input [] = some r)
    (names : List (Bytes × Bytes)) :
    (∃ registered, createAllHandlers r.config names = some registered ∧ Exact r.config names registered) ↔
      ∀ s ∈ r.config, LocationSafe s := by
  rw [← foldlM_registerStatement_isSome_iff (fun s hs => tokens_ne_nil_of_parse hr hs) ⟨[], names⟩,
    Option.isSome_iff_exists]
  constructor
  · intro h
    obtain ⟨registered, hc, -⟩ := h
    exact ⟨registered, hc⟩
  · intro h
    obtain ⟨registered, hc⟩ := h
    exact ⟨registered, hc, exact_createAllHandlers hc⟩

/-- A location with a block for an echo handler. -/
theorem createAllHandlers_exact_echo :
    ∃ r registered, parse (.ofList (ascii "location /x EchoHandler \x7b a b; \x7d")) [] = some r ∧
      createAllHandlers r.config [] = some registered ∧ Exact r.config [] registered := by
  have hparse : parse (.ofList (ascii "location /x EchoHandler \x7b a b; \x7d")) [] =
      some ⟨true, [.mk [ascii "location", ascii "/x", ascii "EchoHandler"] (some [.mk [ascii "a", ascii "b"] none])],
        ""⟩ := by
    decide +kernel
  obtain ⟨registered, hr⟩ := (createAllHandlers_exact_iff hparse []).2 (by
    intro s hs location name hl
    rw [List.mem_singleton.mp hs]
    exact ⟨_, rfl, fun _ => lookupSafe_of_blocks (by decide) _⟩)
  exact ⟨_, registered, hparse, hr⟩

/-- A location without a block is accepted, and registration then dereferences a null pointer. -/
theorem location_without_block_undefined :
    parse (.ofList (ascii "location /x EchoHandler;")) [] =
      some ⟨true, [.mk [ascii "location", ascii "/x", ascii "EchoHandler"] none], ""⟩ ∧
    createAllHandlers [.mk [ascii "location", ascii "/x", ascii "EchoHandler"] none] [] = none := by
  exact ⟨by decide +kernel, rfl⟩

end Koko.Server
