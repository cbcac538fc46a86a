import Koko.Config.ParserRange
import Koko.Lib.Ancestors
import Koko.Server.RegistrationSafety
import Koko.Session.ConstructResponse
import Koko.Session.Query
import Mathlib.Data.List.Nodup

/-! A site says what it has at which places of a tree of paths. Written as a configuration it is
served so: a request is answered by what the site has nearest above the path it asks for, where the
code cuts the query off as it should. -/
namespace Koko.Session
open Koko.Lib Koko.Http Koko.Config Koko.Handlers Koko.Server

/-- What a site can have at a place. -/
inductive Content where
  | echo (keepAlive : Bool)
  | sleepEcho (keepAlive : Bool)
  | files (keepAlive : Bool) (root : Bytes)
  | compressedFiles (keepAlive : Bool) (root : Bytes)
  | proxy (dest port : Bytes)
  | notFound
  | status
  | health
deriving DecidableEq

namespace Content

def handlerName : Content → Bytes
  | echo _ => ascii "EchoHandler"
  | sleepEcho _ => ascii "SleepEchoHandler"
  | files _ _ => ascii "StaticHandler"
  | compressedFiles _ _ => ascii "CompressedFileHandler"
  | proxy _ _ => ascii "ProxyRequestHandler"
  | notFound => ascii "NotFoundHandler"
  | status => ascii "StatusHandler"
  | health => ascii "HealthHandler"

def keepAliveDirective (keepAlive : Bool) : List (Bytes × Bytes) :=
  if keepAlive then [(ascii "keep-alive", ascii "1")] else []

/-- The directives in the block of a location, names and values. -/
def directives : Content → List (Bytes × Bytes)
  | echo keepAlive | sleepEcho keepAlive => keepAliveDirective keepAlive
  | files keepAlive root | compressedFiles keepAlive root => (ascii "root", root) :: keepAliveDirective keepAlive
  | proxy dest port => [(ascii "dest", dest), (ascii "port", port)]
  | notFound | status | health => []

def block (content : Content) : NginxConfig := content.directives.map (fun d => .mk [d.1, d.2] none)

/-- The handler of a place with this path text. -/
def handler (path : Bytes) : Content → RequestHandler
  | echo keepAlive => ⟨ascii "Echo", keepAlive, .echo⟩
  | sleepEcho keepAlive => ⟨ascii "SleepEcho", keepAlive, .sleepEcho⟩
  | files keepAlive root => ⟨ascii "File", keepAlive, .file ⟨path, root, false⟩⟩
  | compressedFiles keepAlive root => ⟨ascii "CompressedFileHandler", keepAlive, .compressedFile ⟨path, root, false⟩⟩
  | proxy dest port => ⟨ascii "ProxyRequest", false, .proxy ⟨path, dest, port, false⟩⟩
  | notFound => ⟨ascii "NotFound", false, .notFound⟩
  | status => ⟨ascii "Status", false, .status⟩
  | health => ⟨ascii "Health", false, .health⟩

end Content

/-- A place of a site, as the segments of its path, and what is there. -/
structure Location where
  path : List Bytes
  content : Content
deriving DecidableEq

namespace Location

/-- The location as it is written; the root is a single slash. -/
def text (l : Location) : Bytes := if l.path = [] then ascii "/" else pathText (chr '/') l.path

def statement (l : Location) : NginxConfigStatement :=
  .mk [ascii "location", l.text, l.content.handlerName] (some l.content.block)

def handler (l : Location) : RequestHandler := l.content.handler (pathText (chr '/') l.path)

end Location

/-- Something at some places, at most one thing at a place. The segments of a path have no slash and
the last of them is not empty; what is written in the configuration can be spelled there. -/
structure Site where
  locations : List Location
  inhabited : locations ≠ []
  distinct : (locations.map Location.path).Nodup
  segments : ∀ l ∈ locations, ∀ s ∈ l.path, chr '/' ∉ s
  named : ∀ l ∈ locations, l.path.getLast? ≠ some []
  spelled : ∀ l ∈ locations, Spellable l.text
  filled : ∀ l ∈ locations, ∀ d ∈ l.content.directives, d.2 ≠ [] ∧ Spellable d.2

/-- The path of a target as segments; the empty target stands for the root. -/
def targetPath : Bytes → Option (List Bytes)
  | [] => some []
  | c :: rest => if c = chr '/' then some (rest.splitOn (chr '/')) else none

namespace Site

def config (site : Site) : NginxConfig := site.locations.map Location.statement

/-- What the site has at a place. -/
def locationAt (site : Site) (path : List Bytes) : Option Location := site.locations.find? (fun l => l.path = path)

/-- What the site has at the place nearest above the target. -/
def locate (site : Site) (target : Bytes) : Option Location := (targetPath target).bind (nearest site.locationAt)

/-- The answer to a request: that of the handler located without the query, and 404 if nothing is located. -/
def answer (site : Site) (env : Environment) (log : SharedLog) (name : Bytes) (request : Request) : Except Exn Answer :=
  match site.locate (withoutQuery request.target) with
  | none => .ok ⟨notFoundError, log, name⟩
  | some l => (l.handler.handleRequest env log request).map (answerOf l.handler env log name request)

end Site

theorem targetPath_eq_some {target : Bytes} {path : List Bytes} (h : targetPath target = some path) :
    pathText (chr '/') path = target ∧ ∀ s ∈ path, chr '/' ∉ s := by
  cases target with
  | nil =>
    obtain rfl := Option.some.inj h
    exact ⟨rfl, by simp⟩
  | cons c rest =>
    rw [targetPath] at h
    split_ifs at h with hc
    obtain rfl := Option.some.inj h
    exact ⟨by rw [pathText_splitOn, hc], fun s hs => not_mem_of_mem_splitOn hs⟩

theorem targetPath_eq_none {target : Bytes} (h : targetPath target = none) :
    target ≠ [] ∧ target.head? ≠ some (chr '/') := by
  cases target with
  | nil => cases h
  | cons c rest =>
    rw [targetPath] at h
    split_ifs at h with hc
    exact ⟨List.cons_ne_nil c rest, fun he => hc (Option.some.inj he)⟩

/-- A handler is created as the site has it there. -/
theorem createHandler_content {content : Content} (hd : ∀ d ∈ content.directives, d.2 ≠ []) (urlPrefix : Bytes) :
    createHandler urlPrefix content.handlerName content.block =
      some (some (content.handler (eraseTrailingSlash urlPrefix))) := by
  cases content with
  | echo keepAlive => cases keepAlive <;> rfl
  | sleepEcho keepAlive => cases keepAlive <;> rfl
  | files keepAlive root => cases keepAlive <;> rfl
  | compressedFiles keepAlive root => cases keepAlive <;> rfl
  | proxy dest port =>
    have hdest : dest ≠ [] := hd _ List.mem_cons_self
    have hport : port ≠ [] := hd _ (List.mem_cons_of_mem _ List.mem_cons_self)
    have hnew : ProxyRequestHandler.new urlPrefix (Content.proxy dest port).block =
        ⟨eraseTrailingSlash urlPrefix, dest, port, dest = [] ∨ port = []⟩ := rfl
    have hcreate : createHandler urlPrefix (Content.proxy dest port).handlerName (Content.proxy dest port).block =
        some (some ⟨ascii "ProxyRequest", false,
          .proxy (ProxyRequestHandler.new urlPrefix (Content.proxy dest port).block)⟩) := rfl
    rw [hcreate, hnew, decide_eq_false (by simp [hdest, hport])]
    rfl
  | notFound => rfl
  | status => rfl
  | health => rfl

/-- The text of a path that ends in a name: a slash at its front, more behind it, and no slash at its
end. -/
theorem pathText_of_named {path : List Bytes} (hne : path ≠ []) (hs : ∀ s ∈ path, chr '/' ∉ s)
    (hl : path.getLast? ≠ some []) :
    (pathText (chr '/') path).head? = some (chr '/') ∧ 2 ≤ (pathText (chr '/') path).length ∧
      (pathText (chr '/') path).getLast? ≠ some (chr '/') := by
  refine ⟨?_, ?_⟩
  · obtain ⟨first, rest, rfl⟩ := List.exists_cons_of_ne_nil hne
    rw [pathText_cons]
    rfl
  · obtain ⟨front, last, rfl⟩ := (List.eq_nil_or_concat path).resolve_left hne
    rw [List.concat_eq_append] at hs hl ⊢
    have hlast : last ≠ [] := by
      rintro rfl
      exact hl List.getLast?_concat
    have htext : pathText (chr '/') (front ++ [last]) = pathText (chr '/') front ++ chr '/' :: last := by
      simp [pathText]
    rw [htext]
    constructor
    · have hpos := List.length_pos_of_ne_nil hlast
      simp only [List.length_append, List.length_cons]
      omega
    · rw [List.getLast?_append, List.getLast?_cons, List.getLast?_eq_some_getLast hlast]
      intro he
      apply hs last (List.mem_append_right _ List.mem_cons_self)
      rw [← Option.some.inj he]
      exact List.getLast_mem hlast

namespace Site
variable {site : Site} {l : Location}

/-- The location is registered as it is written, and the handlers store the text of its path. -/
theorem registered_text (hl : l ∈ site.locations) :
    registeredPrefix l.text = some l.text ∧ eraseTrailingSlash l.text = pathText (chr '/') l.path := by
  by_cases hroot : l.path = []
  · rw [Location.text, if_pos hroot, hroot]
    exact ⟨by decide, by decide⟩
  · rw [Location.text, if_neg hroot]
    obtain ⟨hhead, -, hlast⟩ := pathText_of_named hroot (site.segments l hl) (site.named l hl)
    have hne : pathText (chr '/') l.path ≠ [] := fun he => by simp [he] at hhead
    refine ⟨?_, if_neg hlast⟩
    rw [registeredPrefix, List.getLast?_eq_some_getLast hne]
    rw [List.getLast?_eq_some_getLast hne] at hlast
    have hslash : (pathText (chr '/') l.path).getLast hne ≠ chr '/' := fun he => hlast (by rw [he])
    simp [hslash, hhead]

theorem registerStatement_statement (hl : l ∈ site.locations) (registered : Registered) :
    registerStatement registered l.statement = some ⟨registered.urlToHandler ++ [(l.text, l.handler)],
      registered.urlToHandlerName ++ [(l.text, l.content.handlerName)]⟩ := by
  obtain ⟨htext, herase⟩ := registered_text hl
  have hcreate := createHandler_content (fun d hd => (site.filled l hl d hd).1) l.text
  have hlocates : Locates l.statement l.text l.content.handlerName := rfl
  have hblock : l.statement.childBlock = some l.content.block := rfl
  rw [registerStatement_of_locates registered hlocates htext, hblock, Option.bind_some, hcreate, herase]
  rfl

/-- The table of the site's configuration. -/
def table (site : Site) : Table RequestHandler := site.locations.map (fun l => (l.text, l.handler))

theorem createAllHandlers_config (site : Site) (names : List (Bytes × Bytes)) :
    createAllHandlers site.config names =
      some ⟨site.table, names ++ site.locations.map (fun l => (l.text, l.content.handlerName))⟩ := by
  have hfold : ∀ ls : List Location, (∀ l ∈ ls, l ∈ site.locations) → ∀ registered : Registered,
      (ls.map Location.statement).foldlM registerStatement registered =
        some ⟨registered.urlToHandler ++ ls.map (fun l => (l.text, l.handler)),
          registered.urlToHandlerName ++ ls.map (fun l => (l.text, l.content.handlerName))⟩ := by
    intro ls hls
    induction ls with
    | nil => simp
    | cons l ls ih =>
      intro registered
      rw [List.map_cons, List.foldlM_cons, registerStatement_statement (hls l List.mem_cons_self), Option.bind_eq_bind,
        Option.bind_some, ih (fun l hl => hls l (List.mem_cons_of_mem _ hl))]
      simp
  exact hfold site.locations (fun _ hl => hl) ⟨[], names⟩

/-- A location serves the targets whose path it begins. -/
theorem serves_text_iff (hl : l ∈ site.locations) (target : Bytes) :
    Serves l.text (target ++ ascii "/") ↔ ∃ path, targetPath target = some path ∧ l.path <+: path := by
  have hsegments := site.segments l hl
  by_cases hroot : l.path = []
  · have htext : l.text = ascii "/" := if_pos hroot
    rw [htext, hroot]
    cases target with
    | nil => exact iff_of_true (.inl ⟨rfl, List.prefix_refl _⟩) ⟨[], rfl, List.nil_prefix⟩
    | cons c rest =>
      by_cases hc : c = chr '/'
      · refine iff_of_true (.inl ⟨rfl, ?_⟩) ⟨_, if_pos hc, List.nil_prefix⟩
        rw [hc]
        exact List.cons_prefix_cons.mpr ⟨rfl, List.nil_prefix⟩
      · refine iff_of_false (fun h => hc ?_) (fun ⟨path, hpath, _⟩ => ?_)
        · exact (List.cons_prefix_cons.mp h.starts).1.symm
        · rw [targetPath, if_neg hc] at hpath
          cases hpath
  · obtain ⟨hhead, -, hlast⟩ := pathText_of_named hroot hsegments (site.named l hl)
    have htext : l.text = pathText (chr '/') l.path := if_neg hroot
    rw [htext]
    have hne : pathText (chr '/') l.path ≠ [] := fun he => by simp [he] at hhead
    have hserves : Serves (pathText (chr '/') l.path) (target ++ ascii "/") ↔
        pathText (chr '/') l.path ++ [chr '/'] <+: target ++ [chr '/'] := by
      refine ⟨fun h => ?_, fun h => .inr ⟨hne, h⟩⟩
      rcases h with ⟨he, -⟩ | ⟨-, h⟩
      · rw [he] at hlast
        exact absurd rfl hlast
      · exact h
    rw [hserves]
    cases hpath : targetPath target with
    | some path =>
      obtain ⟨rfl, hpaths⟩ := targetPath_eq_some hpath
      rw [pathText_starts_iff hsegments hpaths]
      simp
    | none =>
      -- the text of a path begins with a slash
      obtain ⟨htarget, hslash⟩ := targetPath_eq_none hpath
      refine iff_of_false (fun h => hslash ?_) (by simp)
      obtain ⟨c, rest, rfl⟩ := List.exists_cons_of_ne_nil htarget
      obtain ⟨b, more, hmore⟩ := List.exists_cons_of_ne_nil hne
      rw [hmore] at h hhead
      rw [(List.cons_prefix_cons.mp h).1.symm]
      exact hhead

/-- Below one path the longer location has the longer text. -/
theorem length_text_lt {l' : Location} (hl : l ∈ site.locations) {path : List Bytes}
    (h : l.path <+: path) (h' : l'.path <+: path) (hlt : l'.path.length < l.path.length) :
    l'.text.length < l.text.length := by
  have hne : l.path ≠ [] := List.ne_nil_of_length_pos (by omega)
  obtain ⟨-, hlong, -⟩ := pathText_of_named hne (site.segments l hl) (site.named l hl)
  have htext : l.text = pathText (chr '/') l.path := if_neg hne
  obtain ⟨rest, hrest⟩ := List.prefix_of_prefix_length_le h' h (Nat.le_of_lt hlt)
  rw [htext]
  by_cases hroot : l'.path = []
  · rw [Location.text, if_pos hroot]
    exact hlong
  · have hcons : rest ≠ [] := by
      rintro rfl
      rw [List.append_nil] at hrest
      rw [hrest] at hlt
      exact absurd hlt (Nat.lt_irrefl _)
    obtain ⟨s, rest, rfl⟩ := List.exists_cons_of_ne_nil hcons
    rw [Location.text, if_neg hroot, ← hrest, pathText, pathText, List.flatMap_append]
    simp only [List.length_append, List.flatMap_cons, List.length_cons]
    omega

theorem mem_of_locationAt {path : List Bytes} (h : site.locationAt path = some l) :
    l ∈ site.locations ∧ l.path = path := by
  have hfound : decide (l.path = path) = true := 
    List.find?_some (p := fun l : Location => decide (l.path = path)) h
  exact ⟨List.mem_of_find?_eq_some h, of_decide_eq_true hfound⟩

theorem ne_of_locationAt_none {path : List Bytes} (h : site.locationAt path = none) (hl : l ∈ site.locations) :
    l.path ≠ path := fun he => List.find?_eq_none.mp h l hl (decide_eq_true he)

/-- The scan of the table finds what is nearest above the target. -/
theorem bestMatch_table (site : Site) (target : Bytes) :
    bestMatch (matchLength (target ++ ascii "/")) site.table =
      (site.locate target).map (fun l => (l.text, l.handler)) := by
  cases hloc : site.locate target with
  | none =>
    rw [Option.map_none, bestMatch_eq_none_iff]
    intro e he
    obtain ⟨l, hl, rfl⟩ := List.mem_map.mp he
    refine if_neg (fun hserves => ?_)
    obtain ⟨path, hpath, hstarts⟩ := (serves_text_iff hl target).mp hserves
    rw [locate, hpath, Option.bind_some] at hloc
    exact ne_of_locationAt_none (nearest_eq_none hloc hstarts) hl rfl
  | some l =>
    rw [Option.map_some]
    obtain ⟨path, hpath, hnear⟩ := Option.bind_eq_some_iff.mp hloc
    obtain ⟨p, hp, hat, hdeep⟩ := nearest_eq_some hnear
    obtain ⟨hl, rfl⟩ := mem_of_locationAt hat
    have hserves : Serves l.text (target ++ ascii "/") := (serves_text_iff hl target).mpr ⟨path, hpath, hp⟩
    have hscore : matchLength (target ++ ascii "/") (l.text, l.handler) = l.text.length := if_pos hserves
    -- any other location that serves the target is above this one
    have hother : ∀ l' ∈ site.locations, Serves l'.text (target ++ ascii "/") → l' ≠ l →
        l'.text.length < l.text.length := by
      intro l' hl' hserves' hne
      obtain ⟨path', hpath', hp'⟩ := (serves_text_iff hl' target).mp hserves'
      obtain rfl := Option.some.inj (hpath.symm.trans hpath')
      refine length_text_lt hl hp hp' (Nat.lt_of_le_of_ne (Nat.le_of_not_lt fun hlt => ?_) fun heq => hne ?_)
      · exact ne_of_locationAt_none (hdeep l'.path hp' hlt) hl' rfl
      · have hsame := (List.prefix_of_prefix_length_le hp' hp (Nat.le_of_eq heq)).eq_of_length heq
        exact List.inj_on_of_nodup_map site.distinct hl' hl hsame
    have hlt : ∀ l' ∈ site.locations, l' ≠ l →
        matchLength (target ++ ascii "/") (l'.text, l'.handler) < l.text.length := by
      intro l' hl' hne
      unfold matchLength
      split_ifs with hserves'
      · exact hother l' hl' hserves' hne
      · exact hserves.length_pos
    have hmem : (l.text, l.handler) ∈ site.table := List.mem_map_of_mem hl
    refine bestMatch_of_greatest hmem (by rw [hscore]; exact hserves.length_pos) ?_ ?_
    · intro e he
      obtain ⟨l', hl', rfl⟩ := List.mem_map.mp he
      rw [hscore]
      by_cases hne : l' = l
      · rw [hne, hscore]
      · exact Nat.le_of_lt (hlt l' hl' hne)
    · intro e he heq
      obtain ⟨l', hl', rfl⟩ := List.mem_map.mp he
      by_cases hne : l' = l
      · rw [hne]
      · rw [hscore] at heq
        exact absurd heq (Nat.ne_of_lt (hlt l' hl' hne))

/-- A request is answered from the table as from the site, if its query is cut off where it begins. -/
theorem constructResponse_table (site : Site) {request : Request} (hq : QuerySafe request.target) (beyond : Nat → Byte)
    (env : Environment) (log : SharedLog) (name : Bytes) :
    constructResponse beyond site.table env log name request = site.answer env log name request := by
  have hentry : (route beyond site.table request.target).entry =
      (site.locate (withoutQuery request.target)).map (fun l => (l.text, l.handler)) := by
    rw [route_entry, routedTarget, stripQuery_of_querySafe hq, site.bestMatch_table]
  unfold answer
  cases hloc : site.locate (withoutQuery request.target) with
  | none =>
    rw [hloc] at hentry
    exact constructResponse_of_no_entry hentry
  | some l =>
    rw [hloc] at hentry
    exact constructResponse_of_entry hentry

theorem headed_config (site : Site) : Headed site.config := by
  have hheaded : ∀ ls : List Location, Headed (ls.map Location.statement) := by
    intro ls
    induction ls with
    | nil => trivial
    | cons l ls ih =>
      have hblock : Headed l.content.block := by
        rw [Content.block]
        induction l.content.directives with
        | nil => trivial
        | cons d ds ihd => exact ⟨List.cons_ne_nil _ _, ihd⟩
      exact ⟨⟨List.cons_ne_nil _ _, hblock⟩, ih⟩
  exact hheaded site.locations

private theorem stored_eq_flatMap (ss : NginxConfig) : stored ss = ss.flatMap NginxConfigStatement.stored := by
  induction ss with
  | nil => rfl
  | cons s ss ih => rw [stored, ih, List.flatMap_cons]

private theorem spellable_handlerName (content : Content) :
    content.handlerName ≠ [] ∧ Spellable content.handlerName := by
  have hall : ∀ name ∈ knownHandlers, name ≠ [] ∧ name.getLast? ≠ some (chr '\\') := by decide
  have hknown : content.handlerName ∈ knownHandlers := by
    cases content <;> simp [Content.handlerName, knownHandlers, keepAliveHandlers]
  exact (hall _ hknown).imp_right .inl

private theorem spellable_directive (content : Content) {d : Bytes × Bytes} (h : d ∈ content.directives) :
    d.1 ≠ [] ∧ Spellable d.1 := by
  have hname : d.1 ∈ [ascii "keep-alive", ascii "root", ascii "dest", ascii "port"] := by
    have hkeep : ∀ keepAlive, d ∈ Content.keepAliveDirective keepAlive → d.1 = ascii "keep-alive" := by
      intro keepAlive hd
      unfold Content.keepAliveDirective at hd
      split_ifs at hd
      · rw [List.mem_singleton.mp hd]
      · cases hd
    cases content with
    | echo keepAlive | sleepEcho keepAlive => simp [hkeep keepAlive h]
    | files keepAlive root | compressedFiles keepAlive root =>
      rcases List.mem_cons.mp h with rfl | h
      · simp
      · simp [hkeep keepAlive h]
    | proxy dest port =>
      simp only [Content.directives, List.mem_cons, List.not_mem_nil, or_false] at h
      rcases h with rfl | rfl <;> simp
    | notFound | status | health => cases h
  simp only [List.mem_cons, List.not_mem_nil, or_false] at hname
  rcases hname with h | h | h | h <;> rw [h] <;> exact ⟨by decide, .inl (by decide)⟩

/-- Every token of the site's configuration can be written. -/
theorem spellable_config (site : Site) : ∀ t ∈ stored site.config, t ≠ [] ∧ Spellable t := by
  intro t ht
  rw [stored_eq_flatMap, config, List.mem_flatMap] at ht
  obtain ⟨s, hs, ht⟩ := ht
  obtain ⟨l, hl, rfl⟩ := List.mem_map.mp hs
  rw [Location.statement, NginxConfigStatement.stored, List.mem_append, stored_eq_flatMap, Content.block,
    List.mem_flatMap] at ht
  rcases ht with ht | ⟨s, hs, ht⟩
  · simp only [List.mem_cons, List.not_mem_nil, or_false] at ht
    rcases ht with rfl | rfl | rfl
    · exact ⟨by decide, .inl (by decide)⟩
    · refine ⟨fun he => ?_, site.spelled l hl⟩
      have htext := (registered_text hl).1
      rw [he] at htext
      cases htext
    · exact spellable_handlerName l.content
  · obtain ⟨d, hd, rfl⟩ := List.mem_map.mp hs
    simp only [NginxConfigStatement.stored, List.mem_cons, List.not_mem_nil, or_false] at ht
    rcases ht with rfl | rfl
    · exact spellable_directive l.content hd
    · exact site.filled l hl d hd

end Site

/-- A site, written as a configuration, is accepted, every location of it is registered, and each
request is answered by what the site has nearest above the path in front of the query, if there is no
query or the only slash is the first byte. -/
theorem site_served (site : Site) (names : List (Bytes × Bytes)) :
    ∃ r registered, parse (.ofList (formatStatements site.config)) [] = some r ∧ r.returned = true ∧
      createAllHandlers r.config names = some registered ∧
      registered.urlToHandlerName = names ++ site.locations.map (fun l => (l.text, l.content.handlerName)) ∧
      ∀ beyond env log name request, QuerySafe request.target →
        constructResponse beyond registered.urlToHandler env log name request = site.answer env log name request := by
  have hne : site.config ≠ [] := fun he => site.inhabited (List.map_eq_nil_iff.mp he)
  obtain ⟨r, hparse, hreturned, hconfig⟩ := parse_formatStatements hne site.headed_config site.spellable_config
  refine ⟨r, _, hparse, hreturned, by rw [hconfig]; exact site.createAllHandlers_config names, rfl, ?_⟩
  intro beyond env log name request hq
  exact site.constructResponse_table hq beyond env log name

/-- Files under `/static`, but not those under `/static/private`, and a backslash in a name. -/
def filesSite : Site where
  locations := [⟨[], .echo true⟩, ⟨[ascii "static"], .files false (ascii "/srv/a b")⟩,
    ⟨[ascii "static", ascii "private"], .notFound⟩, ⟨[ascii "c\\"], .proxy (ascii "upstream") (ascii "80")⟩]
  inhabited := List.cons_ne_nil _ _
  distinct := by decide
  segments := by decide
  named := by decide
  spelled := by
    intro l hl
    simp only [List.mem_cons, List.not_mem_nil, or_false] at hl
    rcases hl with rfl | rfl | rfl | rfl
    · exact .inl (by decide)
    · exact .inl (by decide)
    · exact .inl (by decide)
    · exact .inr ⟨⟨chr '/', by decide, by decide⟩, by decide +kernel⟩
  filled := by
    intro l hl
    simp only [List.mem_cons, List.not_mem_nil, or_false] at hl
    rcases hl with rfl | rfl | rfl | rfl
    · exact fun d hd => by rw [List.mem_singleton.mp hd]; exact ⟨by decide, .inl (by decide)⟩
    · exact fun d hd => by rw [List.mem_singleton.mp hd]; exact ⟨by decide, .inl (by decide)⟩
    · exact fun d hd => absurd hd List.not_mem_nil
    · intro d hd
      simp only [Content.directives, List.mem_cons, List.not_mem_nil, or_false] at hd
      rcases hd with rfl | rfl <;> exact ⟨by decide, .inl (by decide)⟩

theorem files_site_served :
    filesSite.locate (ascii "/static/private/key") = some ⟨[ascii "static", ascii "private"], .notFound⟩ ∧
      filesSite.locate (withoutQuery (ascii "/statics?page=1")) = some ⟨[], .echo true⟩ ∧
      ∃ r registered, parse (.ofList (formatStatements filesSite.config)) [] = some r ∧ r.returned = true ∧
        createAllHandlers r.config [] = some registered ∧
        ∀ beyond env log name, constructResponse beyond registered.urlToHandler env log name
            (getRequest (ascii "/statics?page=1")) =
          filesSite.answer env log name (getRequest (ascii "/statics?page=1")) := by
  obtain ⟨r, registered, hparse, hreturned, hcreate, -, hanswer⟩ := site_served filesSite []
  exact ⟨by decide, by decide, r, registered, hparse, hreturned, hcreate,
    fun beyond env log name => hanswer beyond env log name _ (by decide)⟩

end Koko.Session
