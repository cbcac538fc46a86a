import Koko.Server.Registration
import Koko.Session.ConstructResponse

/-! Requests routed to a file handler: which of them return a response, and which files
they can reach. -/
namespace Koko.Session
open Koko.Lib Koko.Http Koko.Config Koko.Handlers Koko.Server

/-- A target that the table routes to a file handler, which was created for its prefix. -/
structure FileRoute (beyond : Nat → Byte) (table : Table RequestHandler) (target : Bytes) where
  urlPrefix : Bytes
  handlerName : Bytes
  block : NginxConfig
  handler : RequestHandler
  file : FileHandler
  created : createHandler urlPrefix handlerName block = some (some handler)
  behaves : handler.behaviour = .file file ∨ handler.behaviour = .compressedFile file
  routed : (route beyond table target).entry = some (urlPrefix, handler)

/-- A path that can be answered for: nothing to serve, or a file that can be read. -/
def Answerable : FileStatus → Prop
  | .missing | .directory => True
  | .regular content => content.length ≤ maxSize
  | .unopenable | .statusError => False

instance decidableAnswerable : (status : FileStatus) → Decidable (Answerable status)
  | .missing => .isTrue trivial
  | .directory => .isTrue trivial
  | .regular content => inferInstanceAs (Decidable (content.length ≤ maxSize))
  | .unopenable => .isFalse id
  | .statusError => .isFalse id

/-- A file system that knows paths by their normal form; the empty text is no path. -/
def lexicalFileSystem (files : NormalPath Bytes → FileStatus) : FileSystem :=
  fun path => if path = [] then .missing else files (normalPath path)

private theorem answerFor_ok_iff (path : Bytes) (status : FileStatus) :
    (∃ res, FileHandler.answerFor path status = .ok res) ↔ Answerable status := by
  cases status with
  | regular content =>
    simp only [FileHandler.answerFor, Answerable]
    split_ifs with h <;> simp [h]
  | _ => simp [FileHandler.answerFor, Answerable]

private theorem answerFor_found_iff (path : Bytes) (status : FileStatus) :
    (∃ res, FileHandler.answerFor path status = .ok res ∧ res.result = 200) ↔
      ∃ content, status = .regular content ∧ content.length ≤ maxSize := by
  cases status with
  | regular content =>
    simp only [FileHandler.answerFor]
    split_ifs with h <;> simp [h]
  | _ => simp [FileHandler.answerFor, notFoundError]

/-- Compression changes neither whether there is a response nor its result. -/
private theorem compressed_iff (gzip : Bytes → Bytes) (file : FileHandler) (fs : FileSystem) (request : Request)
    (p : Nat → Prop) :
    (∃ res, handleCompressedRequest gzip file fs request = .ok res ∧ p res.result) ↔
      ∃ res, file.handleRequest fs request = .ok res ∧ p res.result := by
  have hresult : ∀ res, (if toCompress request.fields = true then compressResponse gzip res else res).result =
      res.result := by
    intro res
    split_ifs <;> rfl
  rw [handleCompressedRequest_eq]
  constructor
  · rintro ⟨_, hr, hp⟩
    obtain ⟨res, hres, rfl⟩ := map_eq_ok_iff.mp hr
    exact ⟨res, hres, hresult res ▸ hp⟩
  · rintro ⟨res, hres, hp⟩
    exact ⟨_, map_eq_ok_iff.mpr ⟨res, hres, rfl⟩, (hresult res).symm ▸ hp⟩

namespace FileRoute
variable {beyond : Nat → Byte} {table : Table RequestHandler} {target : Bytes}

/-- What is left of the target once its trailing slash and the handler's prefix are gone. -/
def remainder (r : FileRoute beyond table target) : Bytes :=
  (eraseTrailingSlash target).drop r.file.urlPrefix.length

/-- The path the handler joins for a served directory. -/
def joined (r : FileRoute beyond table target) : Bytes := pathJoin r.file.linuxDir r.remainder

theorem file_eq (r : FileRoute beyond table target) : r.file = FileHandler.new r.urlPrefix r.block :=
  createHandler_file r.created r.behaves

/-- The stored prefix begins the target without its trailing slash. -/
theorem stored_starts (r : FileRoute beyond table target) : r.file.urlPrefix <+: eraseTrailingSlash target := by
  rw [r.file_eq, FileHandler.urlPrefix_new]
  exact stored_starts_of_serves (serves_of_route r.routed).2

/-- For a routed target the prefix can always be removed. -/
theorem filepath_eq (r : FileRoute beyond table target) : r.file.filepath target = .ok r.remainder := by
  rw [FileHandler.filepath, if_neg]
  · rfl
  · exact Nat.not_lt.mpr r.stored_starts.length_le

theorem valid_of_linuxDir (r : FileRoute beyond table target) (hne : r.file.linuxDir ≠ []) :
    r.file.invalidConfig = false := by
  rw [r.file_eq] at hne ⊢
  unfold FileHandler.new at *
  split at hne
  · rfl
  · exact absurd rfl hne

/-- Both kinds of file handler give the file handler's results. -/
theorem handleRequest_iff {request : Request} (r : FileRoute beyond table request.target) (env : Environment)
    (log : SharedLog) (p : Nat → Prop) :
    (∃ res, r.handler.handleRequest env log request = .ok res ∧ p res.result) ↔
      ∃ res, r.file.handleRequest env.fileSystem request = .ok res ∧ p res.result := by
  unfold RequestHandler.handleRequest
  rcases r.behaves with hb | hb
  · rw [hb]
  · rw [hb]
    exact compressed_iff env.gzip r.file env.fileSystem request p

theorem file_response_iff {request : Request} (r : FileRoute beyond table request.target) (fs : FileSystem) :
    (∃ res, r.file.handleRequest fs request = .ok res) ↔
      r.file.invalidConfig = true ∨
        (Answerable (fs r.file.linuxDir) ∧ (fs r.file.linuxDir = .directory → Answerable (fs r.joined))) := by
  cases hi : r.file.invalidConfig with
  | true => simp [FileHandler.handleRequest, hi]
  | false =>
    rw [FileHandler.handleRequest_eq hi r.filepath_eq]
    cases hd : fs r.file.linuxDir with
    | directory => simp [answerFor_ok_iff, Answerable, joined]
    | _ => simp [answerFor_ok_iff]

private theorem constructed_iff {request : Request} (r : FileRoute beyond table request.target) (env : Environment)
    (log : SharedLog) (name : Bytes) :
    (∃ answer, constructResponse beyond table env log name request = .ok answer) ↔
      ∃ res, r.handler.handleRequest env log request = .ok res := by
  rw [constructResponse_of_entry r.routed]
  simp only [map_eq_ok_iff]
  exact ⟨fun ⟨_, res, hres, _⟩ => ⟨res, hres⟩, fun ⟨res, hres⟩ => ⟨_, res, hres, rfl⟩⟩

/-- A routed file request is answered, and no exception leaves the session's handler, exactly
when every path it asks about has a status and the file it opens can be opened. -/
theorem file_request_returns_iff {request : Request} (r : FileRoute beyond table request.target) (env : Environment)
    (log : SharedLog) (name : Bytes) :
    ((∃ res, r.handler.handleRequest env log request = .ok res) ∧
      ∃ answer, constructResponse beyond table env log name request = .ok answer) ↔
    r.file.invalidConfig = true ∨ (Answerable (env.fileSystem r.file.linuxDir) ∧
      (env.fileSystem r.file.linuxDir = .directory → Answerable (env.fileSystem r.joined))) := by
  have h := r.handleRequest_iff env log (fun _ => True)
  simp only [and_true] at h
  rw [constructed_iff, and_self, h, file_response_iff]

/-- A routed request to a served directory is answered with 200 exactly for a readable file. -/
theorem found_iff {request : Request} (r : FileRoute beyond table request.target) (env : Environment)
    (log : SharedLog) (hne : r.file.linuxDir ≠ []) (hd : env.fileSystem r.file.linuxDir = .directory) :
    (∃ res, r.handler.handleRequest env log request = .ok res ∧ res.result = 200) ↔
      ∃ content, env.fileSystem r.joined = .regular content ∧ content.length ≤ maxSize := by
  have he := FileHandler.handleRequest_eq (r.valid_of_linuxDir hne) r.filepath_eq env.fileSystem
  simp only [hd] at he
  rw [r.handleRequest_iff env log (· = 200), he, answerFor_found_iff]
  rfl

/-- A served file lies inside the directory exactly when the steps of the target that climb out
of the directory descend into it again by the same names, or no readable file is there. -/
theorem served_file_inside_iff {request : Request} (r : FileRoute beyond table request.target) (env : Environment)
    (log : SharedLog) (files : NormalPath Bytes → FileStatus) (hfs : env.fileSystem = lexicalFileSystem files)
    (hd : env.fileSystem r.file.linuxDir = .directory) :
    (∀ res, r.handler.handleRequest env log request = .ok res → res.result = 200 →
      ∃ path, r.file.linuxPath env.fileSystem request.target = .ok (some path) ∧
        (normalPath path).Inside (normalPath r.file.linuxDir)) ↔
    ((normalPath r.file.linuxDir).Confined ((NormalPath.start false).walkAll (pathSteps r.remainder)) ∨
      ∀ content, env.fileSystem r.joined = .regular content → maxSize < content.length) := by
  have hne : r.file.linuxDir ≠ [] := by
    intro he
    rw [hfs, he] at hd
    cases hd
  have hfound := r.found_iff env log hne hd
  have hpath := FileHandler.linuxPath_eq r.filepath_eq env.fileSystem
  simp only [hd] at hpath
  rw [← inside_join_iff hne]
  constructor
  · intro h
    by_cases hex : ∃ content, env.fileSystem r.joined = .regular content ∧ content.length ≤ maxSize
    · left
      obtain ⟨res, hres, h200⟩ := hfound.mpr hex
      obtain ⟨path, hp, hin⟩ := h res hres h200
      obtain ⟨content, hcontent, -⟩ := hex
      unfold joined at hcontent
      rw [hpath, hcontent] at hp
      simp only [Except.ok.injEq, Option.some.injEq] at hp
      rwa [hp]
    · right
      intro content hcontent
      by_contra hle
      exact hex ⟨content, hcontent, by omega⟩
  · intro h res hres h200
    obtain ⟨content, hcontent, hle⟩ := hfound.mp ⟨res, hres, h200⟩
    rcases h with h | h
    · unfold joined at hcontent
      refine ⟨_, ?_, h⟩
      rw [hpath, hcontent]
    · have := h content hcontent
      omega

end FileRoute

/-- A directory served under `/static`, by a server that has nothing else. -/
def staticBlock : NginxConfig := [⟨[ascii "root", ascii "/srv/static"], none⟩]

def staticFile : FileHandler := ⟨ascii "/static", ascii "/srv/static", false⟩

def staticHandler : RequestHandler := ⟨ascii "File", false, .file staticFile⟩

def staticTable : Table RequestHandler := [(ascii "/static", staticHandler)]

def pageRoute : FileRoute (fun _ => 0) staticTable (getRequest (ascii "/static/index.html")).target :=
  ⟨ascii "/static", ascii "StaticHandler", staticBlock, staticHandler, staticFile, rfl, .inl rfl, by decide⟩

/-- An environment of which only the file system matters. -/
def fileEnvironment (fs : FileSystem) : Environment :=
  ⟨fun _ => [], fs, id, fun _ _ _ => ⟨false, false, false, .other, newResponse 0, .other⟩, []⟩

/-- `/srv` holds the served directory with a page, and next to it a file not meant to be served. -/
def serverFiles (path : NormalPath Bytes) : FileStatus :=
  if path.names = [ascii "srv", ascii "static"] then .directory
  else if path.names = [ascii "srv", ascii "static", ascii "index.html"] then .regular (ascii "hello")
  else if path.names = [ascii "srv", ascii "secret"] then .regular (ascii "key")
  else .missing

def serverEnvironment : Environment := fileEnvironment (lexicalFileSystem serverFiles)

/-- Two dots lead out of the served directory. -/
theorem served_file_outside :
    createHandler (ascii "/static") (ascii "StaticHandler") staticBlock = some (some staticHandler) ∧
    (route (fun _ => 0) staticTable (ascii "/static/../secret")).entry = some (ascii "/static", staticHandler) ∧
    serverEnvironment.fileSystem staticFile.linuxDir = .directory ∧
    (∃ res, staticHandler.handleRequest serverEnvironment ⟨[], []⟩ (getRequest (ascii "/static/../secret")) = .ok res ∧
      res.result = 200 ∧ res.body = ascii "key") ∧
    staticFile.linuxPath serverEnvironment.fileSystem (ascii "/static/../secret") =
      .ok (some (ascii "/srv/static/../secret")) ∧
    ¬ (normalPath (ascii "/srv/static/../secret")).Inside (normalPath (ascii "/srv/static")) := by
  refine ⟨rfl, by decide, by decide, ⟨_, rfl, ?_, ?_⟩, ?_, by decide⟩
  all_goals rfl

/-- A target that does not climb reaches only the served directory. -/
theorem served_page_inside :
    ∃ path, staticFile.linuxPath serverEnvironment.fileSystem (ascii "/static/index.html") = .ok (some path) ∧
      (normalPath path).Inside (normalPath (ascii "/srv/static")) :=
  (FileRoute.served_file_inside_iff pageRoute serverEnvironment ⟨[], []⟩ serverFiles rfl (by decide)).mpr
    (.inl (by decide)) _ rfl rfl

/-- A page without permission to read it takes the worker thread down. -/
theorem unreadable_page_throws :
    (route (fun _ => 0) staticTable (ascii "/static/index.html")).entry = some (ascii "/static", staticHandler) ∧
    staticHandler.handleRequest
      (fileEnvironment (fun path => if path = ascii "/srv/static" then .directory else .unopenable)) ⟨[], []⟩
      (getRequest (ascii "/static/index.html")) = .error .lengthError ∧
    constructResponse (fun _ => 0) staticTable
      (fileEnvironment (fun path => if path = ascii "/srv/static" then .directory else .unopenable)) ⟨[], []⟩
      (ascii "sessionTCP: ") (getRequest (ascii "/static/index.html")) = .error .lengthError := by
  refine ⟨by decide, ?_, ?_⟩
  all_goals rfl

/-- A page that can be read is answered. -/
theorem readable_page_returns :
    ∃ answer, constructResponse (fun _ => 0) staticTable serverEnvironment ⟨[], []⟩ (ascii "sessionTCP: ")
      (getRequest (ascii "/static/index.html")) = .ok answer :=
  ((FileRoute.file_request_returns_iff pageRoute serverEnvironment ⟨[], []⟩ (ascii "sessionTCP: ")).mpr
    (.inr ⟨trivial, fun _ => by decide⟩)).2

end Koko.Session
