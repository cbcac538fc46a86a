import Koko.Config.Lookup
import Koko.Handlers.File
import Koko.Handlers.Proxy
import Koko.Handlers.Status

/-! All request handlers behind one interface: `handle_request` by kind of handler,
and `get_response`, which also writes the request log. -/
namespace Koko.Handlers
open Koko.Lib Koko.Http Koko.Config

inductive Behaviour where
  | echo
  | sleepEcho
  | file (h : FileHandler)
  | compressedFile (h : FileHandler)
  | notFound
  | proxy (h : ProxyRequestHandler)
  | status
  | health
deriving DecidableEq

structure RequestHandler where
  name : Bytes
  keepAlive : Bool
  behaviour : Behaviour
deriving DecidableEq

/-- What lies outside the server while a request is served: how the library prints a request,
the file system, the compressor, the network, and the printed local time. -/
structure Environment where
  toText : Request → Bytes
  fileSystem : FileSystem
  gzip : Bytes → Bytes
  network : Network
  now : Bytes

/-- The static data all handlers share. -/
structure SharedLog where
  urlInfo : List URLInfo
  urlToHandlerName : List (Bytes × Bytes)

def setKeepAliveFromConfig (config : NginxConfig) : Defined Bool := do
  let n ← getNum config (ascii "keep-alive")
  return n ≠ 0

namespace RequestHandler

def handleRequest (handler : RequestHandler) (env : Environment) (log : SharedLog) (request : Request) :
    Except Exn Response :=
  match handler.behaviour with
  | .echo | .sleepEcho => .ok (okResponse textPlain (env.toText request))
  | .file h => h.handleRequest env.fileSystem request
  | .compressedFile h => handleCompressedRequest env.gzip h env.fileSystem request
  | .notFound => .ok notFoundError
  | .proxy h => .ok (h.handleRequest env.network request).1
  | .status =>
    .ok (okResponse textHtml (statusPage request.target env.now log.urlInfo log.urlInfo.length log.urlToHandlerName))
  | .health => .ok (okResponse textPlain (ascii "OK"))

theorem handleRequest_status {handler : RequestHandler} (hb : handler.behaviour = .status) (env : Environment)
    (log : SharedLog) (request : Request) :
    handler.handleRequest env log request = .ok (okResponse textHtml
      (statusPage request.target env.now log.urlInfo log.urlInfo.length log.urlToHandlerName)) := by
  unfold handleRequest
  rw [hb]

def getResponse (handler : RequestHandler) (env : Environment) (log : SharedLog) (request : Request) :
    Except Exn (Response × SharedLog) := do
  let response ← handler.handleRequest env log request
  return (response, { log with urlInfo := log.urlInfo ++ [⟨request.target, response.result, env.now⟩] })

end RequestHandler
end Koko.Handlers
