import Koko.Handlers.Dispatch
import Koko.Lib.Path

/-! `server::create_handler` and `server::create_all_handlers`: the handler table of a
configuration. -/
namespace Koko.Server
open Koko.Lib Koko.Config Koko.Handlers

/-- Only the echo and file handlers read the keep-alive setting of their block. -/
def createHandler (urlPrefix handlerName : Bytes) (subconfig : NginxConfig) : Defined (Option RequestHandler) :=
  if handlerName = ascii "EchoHandler" then do
    return some ⟨ascii "Echo", ← setKeepAliveFromConfig subconfig, .echo⟩
  else if handlerName = ascii "StaticHandler" then do
    return some ⟨ascii "File", ← setKeepAliveFromConfig subconfig, .file (FileHandler.new urlPrefix subconfig)⟩
  else if handlerName = ascii "NotFoundHandler" then
    return some ⟨ascii "NotFound", false, .notFound⟩
  else if handlerName = ascii "ProxyRequestHandler" then
    return some ⟨ascii "ProxyRequest", false, .proxy (ProxyRequestHandler.new urlPrefix subconfig)⟩
  else if handlerName = ascii "StatusHandler" then
    return some ⟨ascii "Status", false, .status⟩
  else if handlerName = ascii "SleepEchoHandler" then do
    return some ⟨ascii "SleepEcho", ← setKeepAliveFromConfig subconfig, .sleepEcho⟩
  else if handlerName = ascii "HealthHandler" then
    return some ⟨ascii "Health", false, .health⟩
  else if handlerName = ascii "CompressedFileHandler" then do
    return some ⟨ascii "CompressedFileHandler", ← setKeepAliveFromConfig subconfig,
      .compressedFile (FileHandler.new urlPrefix subconfig)⟩
  else return none

/-- The handlers that read the keep-alive setting of their block. -/
def keepAliveHandlers : List Bytes :=
  [ascii "EchoHandler", ascii "StaticHandler", ascii "SleepEchoHandler", ascii "CompressedFileHandler"]

def knownHandlers : List Bytes :=
  keepAliveHandlers ++
    [ascii "NotFoundHandler", ascii "ProxyRequestHandler", ascii "StatusHandler", ascii "HealthHandler"]

/-- The names and behaviours of the handlers that read the setting. -/
def keepAliveKinds (urlPrefix : Bytes) (subconfig : NginxConfig) : List (Bytes × Behaviour) :=
  [(ascii "Echo", .echo), (ascii "SleepEcho", .sleepEcho), (ascii "File", .file (FileHandler.new urlPrefix subconfig)),
    (ascii "CompressedFileHandler", .compressedFile (FileHandler.new urlPrefix subconfig))]

/-- The names and behaviours of the other handlers. -/
def plainKinds (urlPrefix : Bytes) (subconfig : NginxConfig) : List (Bytes × Behaviour) :=
  [(ascii "NotFound", .notFound), (ascii "ProxyRequest", .proxy (ProxyRequestHandler.new urlPrefix subconfig)),
    (ascii "Status", .status), (ascii "Health", .health)]

/-- The three outcomes of creating a handler: one of a kind that reads the keep-alive setting, one
of a kind that does not, and none for an unknown name. -/
theorem createHandler_eq (urlPrefix name : Bytes) (subconfig : NginxConfig) :
    (name ∈ keepAliveHandlers ∧ ∃ kind ∈ keepAliveKinds urlPrefix subconfig,
      createHandler urlPrefix name subconfig =
        (setKeepAliveFromConfig subconfig).map (fun keepAlive => some ⟨kind.1, keepAlive, kind.2⟩)) ∨
    (name ∈ knownHandlers ∧ name ∉ keepAliveHandlers ∧ ∃ kind ∈ plainKinds urlPrefix subconfig,
      createHandler urlPrefix name subconfig = some (some ⟨kind.1, false, kind.2⟩)) ∨
    (name ∉ knownHandlers ∧ createHandler urlPrefix name subconfig = some none) := by
  have hreads : ∀ label behaviour, (do return some ⟨label, ← setKeepAliveFromConfig subconfig, behaviour⟩) =
      (setKeepAliveFromConfig subconfig).map (fun keepAlive => some (RequestHandler.mk label keepAlive behaviour)) := by
    intro label behaviour
    cases setKeepAliveFromConfig subconfig <;> rfl
  generalize hc : createHandler urlPrefix name subconfig = created
  unfold createHandler at hc
  by_cases h₁ : name = ascii "EchoHandler"
  · rw [if_pos h₁] at hc
    exact .inl ⟨by simp [keepAliveHandlers, h₁], _, .head _, hc.symm.trans (hreads _ _)⟩
  rw [if_neg h₁] at hc
  by_cases h₂ : name = ascii "StaticHandler"
  · rw [if_pos h₂] at hc
    exact .inl ⟨by simp [keepAliveHandlers, h₂], _, .tail _ (.tail _ (.head _)), hc.symm.trans (hreads _ _)⟩
  rw [if_neg h₂] at hc
  by_cases h₃ : name = ascii "NotFoundHandler"
  · rw [if_pos h₃] at hc
    exact .inr (.inl ⟨by simp [knownHandlers, h₃], by rw [h₃]; decide, _, .head _, hc.symm⟩)
  rw [if_neg h₃] at hc
  by_cases h₄ : name = ascii "ProxyRequestHandler"
  · rw [if_pos h₄] at hc
    exact .inr (.inl ⟨by simp [knownHandlers, h₄], by rw [h₄]; decide, _, .tail _ (.head _), hc.symm⟩)
  rw [if_neg h₄] at hc
  by_cases h₅ : name = ascii "StatusHandler"
  · rw [if_pos h₅] at hc
    exact .inr (.inl ⟨by simp [knownHandlers, h₅], by rw [h₅]; decide, _, .tail _ (.tail _ (.head _)), hc.symm⟩)
  rw [if_neg h₅] at hc
  by_cases h₆ : name = ascii "SleepEchoHandler"
  · rw [if_pos h₆] at hc
    exact .inl ⟨by simp [keepAliveHandlers, h₆], _, .tail _ (.head _), hc.symm.trans (hreads _ _)⟩
  rw [if_neg h₆] at hc
  by_cases h₇ : name = ascii "HealthHandler"
  · rw [if_pos h₇] at hc
    exact .inr (.inl ⟨by simp [knownHandlers, h₇], by rw [h₇]; decide, _, .tail _ (.tail _ (.tail _ (.head _))), hc.symm⟩)
  rw [if_neg h₇] at hc
  by_cases h₈ : name = ascii "CompressedFileHandler"
  · rw [if_pos h₈] at hc
    exact .inl ⟨by simp [keepAliveHandlers, h₈], _, .tail _ (.tail _ (.tail _ (.head _))), hc.symm.trans (hreads _ _)⟩
  rw [if_neg h₈] at hc
  exact .inr (.inr ⟨by simp [knownHandlers, keepAliveHandlers, *], hc.symm⟩)

/-- A created handler has the name and behaviour of its kind with this prefix and block, and keeps
connections alive only if it reads the setting. -/
theorem createHandler_kind {urlPrefix handlerName : Bytes} {subconfig : NginxConfig} {handler : RequestHandler}
    (h : createHandler urlPrefix handlerName subconfig = some (some handler)) :
    (handler.name, handler.behaviour) ∈ keepAliveKinds urlPrefix subconfig ∨
      (handler.keepAlive = false ∧ (handler.name, handler.behaviour) ∈ plainKinds urlPrefix subconfig) := by
  rcases createHandler_eq urlPrefix handlerName subconfig with
    ⟨-, kind, hk, he⟩ | ⟨-, -, kind, hk, he⟩ | ⟨-, he⟩
  · rw [he] at h
    obtain ⟨keepAlive, -, hs⟩ := Option.map_eq_some_iff.mp h
    rw [← Option.some.inj hs]
    exact .inl hk
  · rw [he] at h
    rw [← Option.some.inj (Option.some.inj h)]
    exact .inr ⟨rfl, hk⟩
  · rw [he] at h
    cases h

theorem createHandler_cases {urlPrefix handlerName : Bytes} {subconfig : NginxConfig} {handler : RequestHandler}
    (h : createHandler urlPrefix handlerName subconfig = some (some handler)) :
    handler.behaviour ∈ [.echo, .sleepEcho, .file (FileHandler.new urlPrefix subconfig),
      .compressedFile (FileHandler.new urlPrefix subconfig)] ∨
    (handler.keepAlive = false ∧
      handler.behaviour ∈ [.notFound, .proxy (ProxyRequestHandler.new urlPrefix subconfig), .status, .health]) := by
  rcases createHandler_kind h with hk | ⟨hkeep, hk⟩
  · exact .inl (List.mem_map_of_mem (f := Prod.snd) hk)
  · exact .inr ⟨hkeep, List.mem_map_of_mem (f := Prod.snd) hk⟩

theorem createHandler_file {urlPrefix handlerName : Bytes} {subconfig : NginxConfig} {handler : RequestHandler}
    (h : createHandler urlPrefix handlerName subconfig = some (some handler)) {file : FileHandler}
    (hb : handler.behaviour = .file file ∨ handler.behaviour = .compressedFile file) :
    file = FileHandler.new urlPrefix subconfig := by
  rcases hb with hb | hb
  · simpa [hb] using createHandler_cases h
  · simpa [hb] using createHandler_cases h

/-- The prefix registered for a location text, without a trailing and with a leading slash;
the last byte of an empty text does not exist. -/
def registeredPrefix (location : Bytes) : Defined Bytes := do
  let last ← location.getLast?
  let urlPrefix := if last = chr '/' ∧ location ≠ ascii "/" then location.dropLast else location
  return if urlPrefix ≠ [] ∧ urlPrefix.head? ≠ some (chr '/') then chr '/' :: urlPrefix else urlPrefix

/-- Put a slash at the front of a text that has none there. -/
def leadingSlash (w : Bytes) : Bytes := if w ≠ [] ∧ w.head? ≠ some (chr '/') then chr '/' :: w else w

theorem registeredPrefix_concat (t : Bytes) (last : Byte) :
    registeredPrefix (t ++ [last]) =
      some (leadingSlash (if last = chr '/' ∧ t ++ [last] ≠ ascii "/" then t else t ++ [last])) := by
  simp [registeredPrefix, leadingSlash]

theorem leadingSlash_spec {w : Bytes} (hw : w ≠ []) :
    (leadingSlash w).head? = some (chr '/') ∧ (leadingSlash w).getLast? = w.getLast? ∧
      ∀ b ∈ leadingSlash w, b = chr '/' ∨ b ∈ w := by
  obtain ⟨c, w, rfl⟩ := List.exists_cons_of_ne_nil hw
  unfold leadingSlash
  split_ifs with h
  · exact ⟨rfl, List.getLast?_cons_cons, fun b hb => List.mem_cons.mp hb⟩
  · refine ⟨?_, rfl, fun b hb => .inr hb⟩
    simpa using h

private theorem trimmed_ne_nil (t : Bytes) (last : Byte) :
    (if last = chr '/' ∧ t ++ [last] ≠ ascii "/" then t else t ++ [last]) ≠ [] := by
  split_ifs with hc
  · intro ht
    rw [ht, hc.1] at hc
    exact hc.2 rfl
  · simp

/-- A registered prefix begins with a slash. -/
theorem head?_registeredPrefix {location urlPrefix : Bytes} (h : registeredPrefix location = some urlPrefix) :
    urlPrefix.head? = some (chr '/') := by
  rcases List.eq_nil_or_concat location with rfl | ⟨t, last, rfl⟩
  · simp [registeredPrefix] at h
  · rw [List.concat_eq_append, registeredPrefix_concat] at h
    rw [← Option.some.inj h]
    exact (leadingSlash_spec (trimmed_ne_nil t last)).1

/-- Two slashes at the end of a text. -/
theorem two_slashes_iff (t : Bytes) (last : Byte) :
    ascii "//" <:+ t ++ [last] ↔ last = chr '/' ∧ t.getLast? = some (chr '/') := by
  rw [List.getLast?_eq_some_iff]
  constructor
  · intro h
    obtain ⟨u, hu⟩ := h
    have hu' : u ++ [chr '/'] ++ [chr '/'] = t ++ [last] := by
      rw [← hu, List.append_assoc]
      rfl
    obtain ⟨ht, hlast⟩ := List.append_inj' hu' rfl
    exact ⟨(List.cons.inj hlast).1.symm, u, ht.symm⟩
  · intro h
    obtain ⟨rfl, u, rfl⟩ := h
    refine ⟨u, ?_⟩
    rw [List.append_assoc]
    rfl

/-- A location text with at most one trailing slash is registered as the root, or with a slash
at its front and none at its end. -/
theorem registeredPrefix_spec {location urlPrefix : Bytes} (h : registeredPrefix location = some urlPrefix)
    (hs : ¬ ascii "//" <:+ location) :
    urlPrefix = ascii "/" ∨ (urlPrefix.head? = some (chr '/') ∧ urlPrefix.getLast? ≠ some (chr '/') ∧
      ∀ b ∈ urlPrefix, b = chr '/' ∨ b ∈ location) := by
  have hhead := head?_registeredPrefix h
  rcases List.eq_nil_or_concat location with rfl | ⟨t, last, rfl⟩
  · simp [registeredPrefix] at h
  rw [List.concat_eq_append] at h hs ⊢
  rw [two_slashes_iff, not_and] at hs
  rw [registeredPrefix_concat] at h
  obtain ⟨-, hlast, hmem⟩ := leadingSlash_spec (trimmed_ne_nil t last)
  rw [Option.some.inj h] at hlast hmem
  split_ifs at h hlast hmem with hc
  · right
    refine ⟨hhead, ?_, fun b hb => (hmem b hb).imp_right (fun hm => List.mem_append_left _ hm)⟩
    rw [hlast]
    exact hs hc.1
  · by_cases hslash : last = chr '/'
    · left
      have hroot : t ++ [last] = ascii "/" := by
        by_contra hn
        exact hc ⟨hslash, hn⟩
      rw [← Option.some.inj h, hroot]
      rfl
    · right
      refine ⟨hhead, ?_, hmem⟩
      rw [hlast, List.getLast?_concat]
      exact fun he => hslash (Option.some.inj he)

/-- The handler table, and the handler names added to the list the status page shows. -/
structure Registered where
  urlToHandler : List (Bytes × RequestHandler)
  urlToHandlerName : List (Bytes × Bytes)

def registerStatement (registered : Registered) (statement : NginxConfigStatement) : Defined Registered :=
  match statement.tokens with
  | [keyword, location, handlerName] =>
    if keyword = ascii "location" then do
      let urlPrefix ← registeredPrefix location
      let childBlock ← statement.childBlock
      match ← createHandler urlPrefix handlerName childBlock with
      | some handler => return ⟨registered.urlToHandler ++ [(urlPrefix, handler)],
          registered.urlToHandlerName ++ [(urlPrefix, handlerName)]⟩
      | none => return registered
    else return registered
  | _ => return registered

def createAllHandlers (config : NginxConfig) (urlToHandlerName : List (Bytes × Bytes)) : Defined Registered :=
  config.foldlM registerStatement ⟨[], urlToHandlerName⟩

/-- Every handler of a table was created for the prefix it stands under. -/
def Created (table : List (Bytes × RequestHandler)) : Prop :=
  ∀ e ∈ table, ∃ handlerName block, createHandler e.1 handlerName block = some (some e.2)

theorem created_registerStatement {registered next : Registered} {statement : NginxConfigStatement}
    (h : registerStatement registered statement = some next) (hc : Created registered.urlToHandler) :
    Created next.urlToHandler := by
  unfold registerStatement at h
  split at h
  · split_ifs at h
    · simp only [Option.bind_eq_bind, Option.bind_eq_some_iff] at h
      obtain ⟨urlPrefix, -, block, -, created, hcreate, h⟩ := h
      cases created with
      | none =>
        obtain rfl := Option.some.inj h
        exact hc
      | some handler =>
        obtain rfl := Option.some.inj h
        intro e he
        rcases List.mem_append.mp he with he | he
        · exact hc e he
        · rw [List.mem_singleton.mp he]
          exact ⟨_, block, hcreate⟩
    · obtain rfl := Option.some.inj h
      exact hc
  · obtain rfl := Option.some.inj h
    exact hc

/-- The table of a configuration holds created handlers only. -/
theorem created_createAllHandlers {config : NginxConfig} {names : List (Bytes × Bytes)} {registered : Registered}
    (h : createAllHandlers config names = some registered) : Created registered.urlToHandler := by
  refine foldlM_invariant (fun r => Created r.urlToHandler) ?_ (by simp [Created]) h
  intro registered statement next _ hc hnext
  exact created_registerStatement hnext hc

end Koko.Server
