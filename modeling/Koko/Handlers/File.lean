import Koko.Config.Tree
import Koko.Handlers.Handler
import Koko.Lib.LexicalPath
import Koko.Lib.Outcome
import Koko.Lib.Strings
import Mathlib.Algebra.Ring.Int.Defs
import Mathlib.Algebra.Ring.Nat

/-! `FileHandler` and `CompressedFileHandler` over a file system that may refuse
to answer: the file-system calls throw, and so does sizing a stream that failed to open. -/
namespace Koko.Handlers
open Koko.Lib Koko.Http Koko.Config

inductive FileStatus where
  | missing
  | directory
  | regular (content : Bytes)
  | unopenable
  | statusError
deriving DecidableEq

/-- What the path's text leads to while a request is served. -/
abbrev FileSystem := Bytes → FileStatus

def fsExists (fs : FileSystem) (path : Bytes) : Except Exn Bool :=
  match fs path with
  | .statusError => .error .filesystemError
  | .missing => .ok false
  | _ => .ok true

def isDirectory (fs : FileSystem) (path : Bytes) : Except Exn Bool :=
  match fs path with
  | .statusError => .error .filesystemError
  | .directory => .ok true
  | _ => .ok false

/-- `tellg` at the end of the stream; a stream that failed to open says -1. -/
def tellg : FileStatus → Int
  | .regular content => content.length
  | _ => -1

/-- The conversion of a stream position to `size_t`. -/
def toSizeT (n : Int) : Nat := (n % 2 ^ 64).toNat

/-- The longest string the library allows. -/
def maxSize : Nat := 2 ^ 62 - 1

def reserve (size : Nat) : Except Exn Unit := if maxSize < size then .error .lengthError else .ok ()

def assign (content : Bytes) : Except Exn Bytes :=
  if maxSize < content.length then .error .lengthError else .ok content

/-- The file's contents, read into a string sized beforehand. -/
def readFile (file : FileStatus) : Except Exn Bytes := do
  reserve (toSizeT (tellg file))
  match file with
  | .regular content => assign content
  | _ => assign []

theorem readFile_regular (content : Bytes) :
    readFile (.regular content) = if content.length ≤ maxSize then .ok content else .error .lengthError := by
  by_cases hlen : content.length ≤ maxSize
  · have hsize : toSizeT (tellg (.regular content)) = content.length := by
      have hmax : maxSize < 2 ^ 64 := by decide
      simp only [toSizeT, tellg]
      omega
    have hreserve : reserve (toSizeT (tellg (.regular content))) = .ok () := by
      rw [hsize, reserve, if_neg (by omega)]
    rw [readFile, hreserve, if_pos hlen]
    exact if_neg (by omega)
  · have hassign : assign content = .error .lengthError := if_pos (by omega)
    rw [readFile, if_neg hlen]
    unfold reserve
    split_ifs
    · rfl
    · exact hassign

def getExtension (filename : Bytes) : Bytes :=
  match rfind (chr '.') filename with
  | none => []
  | some pos => filename.drop pos

def mimeTypes : List (Bytes × Bytes) :=
  [(ascii ".htm", textHtml), (ascii ".html", textHtml), (ascii ".php", textHtml), (ascii ".css", ascii "text/css"),
    (ascii ".txt", textPlain), (ascii ".js", ascii "application/javascript"),
    (ascii ".json", ascii "application/json"), (ascii ".xml", ascii "application/xml"),
    (ascii ".swf", ascii "application/x-shockwave-flash"), (ascii ".flv", ascii "video/x-flv"),
    (ascii ".png", ascii "image/png"), (ascii ".jpe", ascii "image/jpeg"), (ascii ".jpeg", ascii "image/jpeg"),
    (ascii ".jpg", ascii "image/jpeg"), (ascii ".gif", ascii "image/gif"), (ascii ".bmp", ascii "image/bmp"),
    (ascii ".ico", ascii "image/vnd.microsoft.icon"), (ascii ".tiff", ascii "image/tiff"),
    (ascii ".tif", ascii "image/tiff"), (ascii ".svg", ascii "image/svg+xml"),
    (ascii ".svgz", ascii "image/svg+xml"), (ascii ".zip", ascii "application/zip")]

def getMime (target : Bytes) : Bytes := (mimeTypes.lookup (getExtension target)).getD textPlain

structure FileHandler where
  urlPrefix : Bytes
  linuxDir : Bytes
  invalidConfig : Bool
deriving DecidableEq

namespace FileHandler

/-- The directory is the second token of the block's first statement, whatever its name. -/
def new (urlPrefix : Bytes) (config : NginxConfig) : FileHandler :=
  match config[0]? >>= (·.tokens[1]?) with
  | some linuxDir => ⟨eraseTrailingSlash urlPrefix, linuxDir, false⟩
  | none => ⟨eraseTrailingSlash urlPrefix, [], true⟩

@[simp] theorem urlPrefix_new (urlPrefix : Bytes) (config : NginxConfig) :
    (new urlPrefix config).urlPrefix = eraseTrailingSlash urlPrefix := by
  unfold new
  split <;> rfl

/-- The target without a trailing slash and without the handler's prefix. -/
def filepath (h : FileHandler) (target : Bytes) : Except Exn Bytes :=
  let target := eraseTrailingSlash target
  if target.length < h.urlPrefix.length then .error .outOfRange else .ok (target.drop h.urlPrefix.length)

/-- The path of the file to open, or none for the answer 404. -/
def linuxPath (h : FileHandler) (fs : FileSystem) (target : Bytes) : Except Exn (Option Bytes) := do
  if !(← fsExists fs h.linuxDir) then
    return none
  else if !(← isDirectory fs h.linuxDir) then
    return some h.linuxDir
  else
    let path := pathJoin h.linuxDir (← h.filepath target)
    if !(← fsExists fs path) then
      return none
    else if ← isDirectory fs path then
      return none
    else
      return some path

/-- The path by cases of the file system, once the prefix is removed. -/
theorem linuxPath_eq {h : FileHandler} {target rest : Bytes} (hf : h.filepath target = .ok rest) (fs : FileSystem) :
    h.linuxPath fs target =
      match fs h.linuxDir with
      | .statusError => .error .filesystemError
      | .missing => .ok none
      | .directory =>
        match fs (pathJoin h.linuxDir rest) with
        | .statusError => .error .filesystemError
        | .missing | .directory => .ok none
        | _ => .ok (some (pathJoin h.linuxDir rest))
      | _ => .ok (some h.linuxDir) := by
  unfold linuxPath fsExists isDirectory
  rw [hf]
  cases hd : fs h.linuxDir with
  | directory => cases hp : fs (pathJoin h.linuxDir rest) <;> simp [bind, Except.bind, hp, pure, Except.pure]
  | _ => rfl

def handleRequest (h : FileHandler) (fs : FileSystem) (request : Request) : Except Exn Response :=
  if h.invalidConfig then .ok internalServerError
  else do
    match ← h.linuxPath fs request.target with
    | none => return notFoundError
    | some path => return okResponse (getMime path) (← readFile (fs path))

/-- The outcome at the path that is opened in the end. -/
def answerFor (path : Bytes) : FileStatus → Except Exn Response
  | .missing | .directory => .ok notFoundError
  | .regular content =>
    if content.length ≤ maxSize then .ok (okResponse (getMime path) content) else .error .lengthError
  | .unopenable => .error .lengthError
  | .statusError => .error .filesystemError

private theorem open_regular {fs : FileSystem} (path : Bytes) {status : FileStatus} (h : fs path = status)
    (hs : (∃ content, status = .regular content) ∨ status = .unopenable) :
    (readFile (fs path) >>= fun body => pure (okResponse (getMime path) body)) = answerFor path status := by
  rw [h]
  rcases hs with ⟨content, rfl⟩ | rfl
  · rw [readFile_regular, answerFor]
    split_ifs <;> rfl
  · rfl

/-- A valid handler answers for its directory, or for the path joined to it. -/
theorem handleRequest_eq {h : FileHandler} {request : Request} {rest : Bytes} (hi : h.invalidConfig = false)
    (hf : h.filepath request.target = .ok rest) (fs : FileSystem) :
    h.handleRequest fs request =
      match fs h.linuxDir with
      | .directory => answerFor (pathJoin h.linuxDir rest) (fs (pathJoin h.linuxDir rest))
      | status => answerFor h.linuxDir status := by
  unfold handleRequest
  rw [hi, linuxPath_eq hf]
  cases hd : fs h.linuxDir with
  | missing => rfl
  | statusError => rfl
  | unopenable => exact open_regular h.linuxDir hd (.inr rfl)
  | regular content => exact open_regular h.linuxDir hd (.inl ⟨content, rfl⟩)
  | directory =>
    cases hp : fs (pathJoin h.linuxDir rest) with
    | missing => rfl
    | statusError => rfl
    | directory => rfl
    | unopenable => exact open_regular (pathJoin h.linuxDir rest) hp (.inr rfl)
    | regular content => exact open_regular (pathJoin h.linuxDir rest) hp (.inl ⟨content, rfl⟩)

end FileHandler

/-- The first field spelled exactly `Accept-Encoding` decides. -/
def toCompress (fields : Fields) : Bool :=
  match fields.find? (fun f => f.1 = acceptEncodingField) with
  | some f => ascii "gzip" <:+: f.2
  | none => false

/-- Replacing the body by its compressed form, with its encoding and length. -/
def compressResponse (gzip : Bytes → Bytes) (res : Response) : Response :=
  ({ res with body := gzip res.body }.set contentEncodingField (ascii "gzip")).set contentLengthField
    (decimal (gzip res.body).length)

/-- `CompressedFileHandler::handle_request`, with the compressor as a parameter. -/
def handleCompressedRequest (gzip : Bytes → Bytes) (h : FileHandler) (fs : FileSystem) (request : Request) :
    Except Exn Response := do
  let res ← h.handleRequest fs request
  if toCompress request.fields then return compressResponse gzip res else return res

/-- The file handler's response, compressed or as it is. -/
theorem handleCompressedRequest_eq (gzip : Bytes → Bytes) (h : FileHandler) (fs : FileSystem) (request : Request) :
    handleCompressedRequest gzip h fs request = (h.handleRequest fs request).map (fun res =>
      if toCompress request.fields = true then compressResponse gzip res else res) := by
  unfold handleCompressedRequest
  cases h.handleRequest fs request with
  | error e => rfl
  | ok res =>
    change (if toCompress request.fields = true then pure (compressResponse gzip res) else pure res) = _
    split_ifs <;> rfl

end Koko.Handlers
