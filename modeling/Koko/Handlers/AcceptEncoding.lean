import Koko.Handlers.Framing

/-! What a client accepts, read from its header as the list it is, against the compressed file
handler's search for a text in the first field. -/
namespace Koko.Handlers
open Koko.Lib Koko.Http

def isOws (b : Byte) : Bool := b = chr ' ' ∨ b = chr '\t'

/-- The values of all the Accept-Encoding fields, as one comma-separated list. -/
def acceptEncodings (fields : Fields) : List Bytes :=
  ([chr ','].intercalate ((fields.filter (fun f => iequals f.1 acceptEncodingField)).map Prod.snd)).splitOn (chr ',')

/-- The coding an element names, before its parameters. -/
def coding (element : Bytes) : Bytes := trim isOws (element.takeWhile (· ≠ chr ';'))

/-- The text of the first parameter called `q`. -/
def weight (element : Bytes) : Option Bytes :=
  (((element.splitOn (chr ';')).tail.map (trim isOws)).find? (fun p => iequals (p.take 2) (ascii "q="))).map (·.drop 2)

/-- A nought, with any number of noughts behind a point. -/
def isZero (w : Bytes) : Bool := w = ascii "0" || (w.take 2 = ascii "0." && (w.drop 2).all (· = chr '0'))

def AcceptsGzip (element : Bytes) : Prop :=
  iequals (coding element) (ascii "gzip") = true ∧ ∀ w ∈ weight element, isZero w = false

instance (element : Bytes) : Decidable (AcceptsGzip element) := inferInstanceAs (Decidable (_ ∧ _))

/-- The client accepts a gzip coding. -/
def Accepted (fields : Fields) : Prop := ∃ element ∈ acceptEncodings fields, AcceptsGzip element

instance (fields : Fields) : Decidable (Accepted fields) := inferInstanceAs (Decidable (∃ _ ∈ _, _))

/-- The field the handler looks at. -/
def firstSpelled (fields : Fields) : Option (Bytes × Bytes) := fields.find? (fun f => f.1 = acceptEncodingField)

/-- That field has the text `gzip` in it, which no element of the list stands for: it is part of
another word, or has the weight zero. -/
def Misread (fields : Fields) : Prop :=
  (∃ f ∈ firstSpelled fields, ascii "gzip" <:+: f.2) ∧ ∀ element ∈ acceptEncodings fields, ¬ AcceptsGzip element

/-- That field does not have the text, but gzip is accepted by an element of another field, or one
that is not in lower case. -/
def Overlooked (fields : Fields) : Prop :=
  (∀ f ∈ firstSpelled fields, ¬ ascii "gzip" <:+: f.2) ∧
    ∃ f ∈ fields, iequals f.1 acceptEncodingField = true ∧ ∃ element ∈ f.2.splitOn (chr ','), AcceptsGzip element ∧
      (firstSpelled fields ≠ some f ∨ coding element ≠ ascii "gzip")

theorem toCompress_iff (fields : Fields) :
    toCompress fields = true ↔ ∃ f ∈ firstSpelled fields, ascii "gzip" <:+: f.2 := by
  unfold toCompress firstSpelled
  cases fields.find? (fun f => f.1 = acceptEncodingField) with
  | none => simp
  | some f => simp

/-- No element is left over from a list without values: it has an empty element, which names no
coding. -/
theorem accepted_iff (fields : Fields) :
    Accepted fields ↔ ∃ f ∈ fields, iequals f.1 acceptEncodingField = true ∧
      ∃ element ∈ f.2.splitOn (chr ','), AcceptsGzip element := by
  unfold Accepted acceptEncodings
  by_cases hnil : (fields.filter (fun f => iequals f.1 acceptEncodingField)).map Prod.snd = []
  · have hempty : ¬ AcceptsGzip [] := by decide +kernel
    rw [hnil]
    refine iff_of_false ?_ ?_
    · rintro ⟨element, he, ha⟩
      obtain rfl : element = [] := by simpa using he
      exact hempty ha
    · rintro ⟨f, hf, hname, -⟩
      have hmem : f ∈ fields.filter (fun f => iequals f.1 acceptEncodingField) := List.mem_filter.mpr ⟨hf, hname⟩
      rw [List.map_eq_nil_iff.mp hnil] at hmem
      cases hmem
  · rw [splitOn_intercalate_flatMap (chr ',') hnil]
    constructor
    · rintro ⟨element, he, ha⟩
      obtain ⟨v, hv, hev⟩ := List.mem_flatMap.mp he
      obtain ⟨f, hf, rfl⟩ := List.mem_map.mp hv
      obtain ⟨hf, hname⟩ := List.mem_filter.mp hf
      exact ⟨f, hf, hname, element, hev, ha⟩
    · rintro ⟨f, hf, hname, element, he, ha⟩
      have hv : f.2 ∈ (fields.filter (fun f => iequals f.1 acceptEncodingField)).map Prod.snd :=
        List.mem_map_of_mem (List.mem_filter.mpr ⟨hf, hname⟩)
      exact ⟨element, List.mem_flatMap.mpr ⟨f.2, hv, he⟩, ha⟩

/-- The name of a coding stands in the text of the field. -/
theorem coding_infix {element v : Bytes} (h : element ∈ v.splitOn (chr ',')) : coding element <:+: v :=
  ((infix_of_trim isOws _).trans (List.takeWhile_prefix _).isInfix).trans (infix_of_mem_splitOn h)

/-- The handler's search agrees with the list unless it misreads or overlooks an element. -/
theorem toCompress_iff_accepted (fields : Fields) :
    (toCompress fields = true ↔ Accepted fields) ↔ ¬ Misread fields ∧ ¬ Overlooked fields := by
  have hmisread : Misread fields ↔ toCompress fields = true ∧ ¬ Accepted fields := by
    rw [toCompress_iff, Misread, Accepted]
    simp
  have hoverlooked : Overlooked fields ↔ ¬ toCompress fields = true ∧ Accepted fields := by
    rw [toCompress_iff, accepted_iff, Overlooked]
    push Not
    refine and_congr_right (fun hno => ⟨?_, ?_⟩)
    · rintro ⟨f, hf, hname, element, he, ha, -⟩
      exact ⟨f, hf, hname, element, he, ha⟩
    · rintro ⟨f, hf, hname, element, he, ha⟩
      refine ⟨f, hf, hname, element, he, ha, ?_⟩
      by_contra hfirst
      push Not at hfirst
      -- the field the handler looks at would have the text
      exact hno f hfirst.1 (hfirst.2 ▸ coding_infix he)
  rw [hmisread, hoverlooked]
  tauto

/-- A file handler's own response is not encoded. -/
theorem FileHandler.not_encoded {h : FileHandler} {fs : FileSystem} {request : Request} {res : Response}
    (hr : h.handleRequest fs request = .ok res) : res.get? contentEncodingField = none := by
  rcases FileHandler.response_shape hr with ⟨result, body, rfl⟩ | ⟨contentType, body, rfl⟩
  · rfl
  · rfl

theorem compressResponse_encoded (gzip : Bytes → Bytes) (res : Response) :
    (compressResponse gzip res).body = gzip res.body ∧
      (compressResponse gzip res).get? contentEncodingField = some (ascii "gzip") := by
  refine ⟨rfl, ?_⟩
  unfold compressResponse
  rw [Response.get?_set_of_ne _ _ (by decide), Response.get?_set_self]

/-- This outcome is a response with the body compressed and marked so. -/
def Encoded (gzip : Bytes → Bytes) (res : Response) (outcome : Except Exn Response) : Prop :=
  ∃ answer, outcome = .ok answer ∧ answer.body = gzip res.body ∧
    answer.get? contentEncodingField = some (ascii "gzip")

theorem handleCompressedRequest_of_ok {h : FileHandler} {fs : FileSystem} {request : Request} {res : Response}
    (hr : h.handleRequest fs request = .ok res) (gzip : Bytes → Bytes) :
    handleCompressedRequest gzip h fs request =
      .ok (if toCompress request.fields = true then compressResponse gzip res else res) := by
  rw [handleCompressedRequest_eq, hr]
  rfl

theorem encoded_iff {h : FileHandler} {fs : FileSystem} {request : Request} {res : Response}
    (hr : h.handleRequest fs request = .ok res) (gzip : Bytes → Bytes) :
    Encoded gzip res (handleCompressedRequest gzip h fs request) ↔ toCompress request.fields = true := by
  rw [handleCompressedRequest_of_ok hr]
  constructor
  · rintro ⟨answer, he, -, hencoded⟩
    by_contra hc
    rw [if_neg hc] at he
    rw [← Except.ok.inj he, FileHandler.not_encoded hr] at hencoded
    cases hencoded
  · intro hc
    rw [if_pos hc]
    exact ⟨_, rfl, compressResponse_encoded gzip res⟩

/-- The response is compressed for the clients that accept it, and the file handler's own for all
others, exactly where the list of codings is neither misread nor overlooked. -/
theorem compressed_as_accepted_iff (gzip : Bytes → Bytes) (h : FileHandler) (fs : FileSystem) (request : Request) :
    (∀ res, h.handleRequest fs request = .ok res →
      ((Encoded gzip res (handleCompressedRequest gzip h fs request) ↔ Accepted request.fields) ∧
          (¬ Accepted request.fields → handleCompressedRequest gzip h fs request = .ok res) ↔
        ¬ Misread request.fields ∧ ¬ Overlooked request.fields)) ∧
    ∀ e, h.handleRequest fs request = .error e → handleCompressedRequest gzip h fs request = .error e := by
  constructor
  · intro res hr
    rw [← toCompress_iff_accepted, encoded_iff hr]
    refine and_iff_left_of_imp (fun hiff hno => ?_)
    rw [handleCompressedRequest_of_ok hr, if_neg (fun hc => hno (hiff.mp hc))]
  · intro e he
    rw [handleCompressedRequest_eq, he]
    rfl

/-- A directory with one file in it. -/
def helloFiles : FileSystem := fun path =>
  if path = ascii "/srv" then .directory
  else if path = ascii "/srv/hello.txt" then .regular (ascii "hello")
  else .missing

def helloHandler : FileHandler := ⟨ascii "/static", ascii "/srv", false⟩

def helloRequest (accept : Bytes) : Request :=
  ⟨ascii "GET", ascii "/static/hello.txt", 11, [(acceptEncodingField, accept)], []⟩

/-- What the compressor writes for that file. -/
def helloGzip : Bytes → Bytes := fun body =>
  if body = ascii "hello" then
    [31, 139, 8, 0, 0, 0, 0, 0, 2, 255, 203, 72, 205, 201, 201, 7, 0, 134, 166, 16, 54, 5, 0, 0, 0]
  else []

theorem helloHandler_handleRequest (accept : Bytes) :
    helloHandler.handleRequest helloFiles (helloRequest accept) = .ok (okResponse textPlain (ascii "hello")) := by
  change helloHandler.handleRequest helloFiles (helloRequest []) = _
  decide +kernel

/-- A client that refuses gzip by a weight of zero is sent a compressed body. -/
theorem refused_coding_sent :
    helloHandler.handleRequest helloFiles (helloRequest (ascii "gzip;q=0")) =
      .ok (okResponse textPlain (ascii "hello")) ∧
    ¬ Accepted (helloRequest (ascii "gzip;q=0")).fields ∧
    Encoded helloGzip (okResponse textPlain (ascii "hello"))
      (handleCompressedRequest helloGzip helloHandler helloFiles (helloRequest (ascii "gzip;q=0"))) ∧
    handleCompressedRequest helloGzip helloHandler helloFiles (helloRequest (ascii "gzip;q=0")) ≠
      .ok (okResponse textPlain (ascii "hello")) := by
  have hr := helloHandler_handleRequest (ascii "gzip;q=0")
  exact ⟨hr, by decide +kernel, (encoded_iff hr helloGzip).mpr (by decide +kernel), by decide +kernel⟩

theorem weighted_coding_sent :
    Encoded helloGzip (okResponse textPlain (ascii "hello"))
      (handleCompressedRequest helloGzip helloHandler helloFiles (helloRequest (ascii "br, gzip;q=0.5"))) := by
  have hr := helloHandler_handleRequest (ascii "br, gzip;q=0.5")
  have haccepted : Accepted (helloRequest (ascii "br, gzip;q=0.5")).fields := by decide +kernel
  have hmisread : ¬ Misread (helloRequest (ascii "br, gzip;q=0.5")).fields :=
    fun hm => haccepted.elim (fun element he => hm.2 element he.1 he.2)
  have hoverlooked : ¬ Overlooked (helloRequest (ascii "br, gzip;q=0.5")).fields :=
    fun ho => ho.1 (acceptEncodingField, ascii "br, gzip;q=0.5") rfl (by decide +kernel)
  have h := (compressed_as_accepted_iff helloGzip helloHandler helloFiles (helloRequest (ascii "br, gzip;q=0.5"))).1 _ hr
  exact (h.mpr ⟨hmisread, hoverlooked⟩).1.mpr haccepted

end Koko.Handlers
