import Koko.Http.Message

/-! What all request handlers share: the prepared error responses, the exceptions
their library calls throw, and the request log. -/
namespace Koko.Handlers
open Koko.Lib Koko.Http

inductive Exn where
  | filesystemError | lengthError | outOfRange | invalidArgument | systemError
deriving DecidableEq

def serverName : Bytes := ascii "koko.cs130.org"
def textPlain : Bytes := ascii "text/plain"
def textHtml : Bytes := ascii "text/html"
def closeValue : Bytes := ascii "close"
def keepAliveValue : Bytes := ascii "keep-alive"

/-- An empty response with this status. -/
def newResponse (result : Nat) : Response := ⟨11, result, [], []⟩

/-- The common shape of the error responses: plain text, connection closed. -/
def errorResponse (result : Nat) (body : Bytes) : Response :=
  ({ (((newResponse result).set serverField serverName).set contentTypeField textPlain) with
      body := body }.set connectionField closeValue).preparePayload

def badRequest : Response := errorResponse 400 (ascii "Request was malformed.\n")

def notFoundError : Response := errorResponse 404 (ascii "The requested resource was not found.\n")

def internalServerError : Response :=
  errorResponse 500 (ascii "An internal error occurred on the server. Utsav will be fired promptly.\n")

/-- A successful answer with this type and body. -/
def okResponse (contentType body : Bytes) : Response :=
  { ((newResponse 200).set contentTypeField contentType).set serverField serverName with
      body := body }.preparePayload

/-- Both the handlers' prefixes and the file handler's target lose one trailing slash. -/
def eraseTrailingSlash (s : Bytes) : Bytes := if s.getLast? = some (chr '/') then s.dropLast else s

/-- One entry of the request log; the time is the text it prints as. -/
structure URLInfo where
  url : Bytes
  resCode : Nat
  reqTime : Bytes
deriving DecidableEq

theorem framed_errorResponse (result : Nat) (body : Bytes) : (errorResponse result body).Framed :=
  Response.framed_preparePayload _

theorem framed_okResponse (contentType body : Bytes) : (okResponse contentType body).Framed :=
  Response.framed_preparePayload _

@[simp] theorem result_errorResponse (result : Nat) (body : Bytes) : (errorResponse result body).result = result := rfl
@[simp] theorem result_okResponse (contentType body : Bytes) : (okResponse contentType body).result = 200 := rfl
@[simp] theorem body_okResponse (contentType body : Bytes) : (okResponse contentType body).body = body := rfl

theorem connection_errorResponse (result : Nat) (body : Bytes) :
    (errorResponse result body).get? connectionField = some closeValue := by
  unfold errorResponse Response.preparePayload
  rw [Response.get?_set_of_ne _ _ (by decide), Response.get?_set_self]

end Koko.Handlers
