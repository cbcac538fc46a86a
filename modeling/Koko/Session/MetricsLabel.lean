import Koko.Config.Parser
import Koko.Handlers.AcceptEncoding
import Koko.Server.Registration
import Koko.Session.FileServing
import Koko.Session.Session

/-! The name a session writes before its metrics. A request for a compressed file adds a tag to
it, which stays there for the rest of the connection. -/
namespace Koko.Session
open Koko.Lib Koko.Http Koko.Handlers Koko.Config Koko.Server

def compressedTag : Bytes := ascii "CompressedFileHandler: "

def baseName (transport : Transport) : Bytes :=
  if transport = .tcp then ascii "sessionTCP: " else ascii "sessionSSL: "

def isCompressed (behaviour : Behaviour) : Bool :=
  match behaviour with
  | .compressedFile _ => true
  | _ => false

/-- The handlers have the names that their constructors give them. -/
def NamedByKind (table : Table RequestHandler) : Prop :=
  ∀ e ∈ table, e.2.name = ascii "CompressedFileHandler" ↔ isCompressed e.2.behaviour = true

/-- A request, with the world and the request log it finds. -/
abbrev Asked := Request × Environment × SharedLog

/-- The request goes to a compressed file handler. -/
def goesToCompressed (setting : Setting) (asked : Asked) : Bool :=
  (route setting.beyond setting.urlToHandler asked.1.target).correctHandler.any (fun h => isCompressed h.behaviour)

/-- The session's name after one request more. -/
def renamed (setting : Setting) (name : Bytes) (asked : Asked) : Except Exn Bytes :=
  (constructResponse setting.beyond setting.urlToHandler asked.2.1 asked.2.2 name asked.1).map (·.name)

/-- The session's name after these requests, all of them answered. -/
def nameAfter (setting : Setting) (name : Bytes) (requests : List Asked) : Except Exn Bytes :=
  requests.foldlM (renamed setting) name

/-- The name is as the session began with it, or has the tag once. -/
def TaggedOnce (transport : Transport) (name : Bytes) : Prop :=
  name = baseName transport ∨ name = baseName transport ++ compressedTag

instance (transport : Transport) (name : Bytes) : Decidable (TaggedOnce transport name) :=
  inferInstanceAs (Decidable (_ ∨ _))

/-- The request a completion brings. -/
def Completion.asked : Completion → Option Asked
  | .read (.request request env log) => some (request, env, log)
  | _ => none

theorem createHandler_named {urlPrefix handlerName : Bytes} {block : NginxConfig} {handler : RequestHandler}
    (h : createHandler urlPrefix handlerName block = some (some handler)) :
    handler.name = ascii "CompressedFileHandler" ↔ isCompressed handler.behaviour = true := by
  have hkinds : ∀ label behaviour, (label, behaviour) ∈ keepAliveKinds urlPrefix block ++ plainKinds urlPrefix block →
      (label = ascii "CompressedFileHandler" ↔ isCompressed behaviour = true) := by
    intro label behaviour hk
    simp only [keepAliveKinds, plainKinds, List.cons_append, List.nil_append, List.mem_cons, List.not_mem_nil,
      or_false, Prod.mk.injEq] at hk
    rcases hk with ⟨rfl, rfl⟩ | ⟨rfl, rfl⟩ | ⟨rfl, rfl⟩ | ⟨rfl, rfl⟩ | ⟨rfl, rfl⟩ | ⟨rfl, rfl⟩ | ⟨rfl, rfl⟩ | ⟨rfl, rfl⟩
    iterate 3 exact iff_of_false (by decide) nofun
    · exact iff_of_true rfl rfl
    iterate 4 exact iff_of_false (by decide) nofun
  rcases createHandler_kind h with hk | ⟨-, hk⟩
  · exact hkinds _ _ (List.mem_append_left _ hk)
  · exact hkinds _ _ (List.mem_append_right _ hk)

theorem namedByKind_of_created {table : Table RequestHandler} (h : Created table) : NamedByKind table := by
  intro e he
  obtain ⟨handlerName, block, hcreate⟩ := h e he
  exact createHandler_named hcreate

section
variable {setting : Setting} (hnamed : NamedByKind setting.urlToHandler)
include hnamed

/-- One request adds the tag, or leaves the name alone. -/
theorem renamed_eq {name next : Bytes} {asked : Asked} (h : renamed setting name asked = .ok next) :
    next = name ++ if goesToCompressed setting asked = true then compressedTag else [] := by
  obtain ⟨answer, ha, rfl⟩ := map_eq_ok_iff.mp h
  unfold goesToCompressed
  rcases constructResponse_cases ha with ⟨hr, rfl⟩ | ⟨urlPrefix, handler, res, hr, -, rfl⟩
  · rw [Option.map_eq_none_iff.mp hr]
    simp
  · have hkind := hnamed _ (serves_of_route hr).1
    obtain ⟨handler', hcorrect, he⟩ := Option.map_eq_some_iff.mp hr
    obtain ⟨-, rfl⟩ := Prod.mk.inj he
    rw [hcorrect, Option.any_some]
    by_cases hc : handler'.name = ascii "CompressedFileHandler"
    · rw [if_pos (hkind.mp hc)]
      exact if_pos hc
    · rw [if_neg (fun hb => hc (hkind.mpr hb)), List.append_nil]
      exact if_neg hc

/-- The tags pile up, one for each request that goes to a compressed file handler. -/
theorem nameAfter_eq {name next : Bytes} {requests : List Asked} (h : nameAfter setting name requests = .ok next) :
    next = name ++ (List.replicate (requests.countP (goesToCompressed setting)) compressedTag).flatten := by
  induction requests generalizing name with
  | nil =>
    obtain rfl := Except.ok.inj h
    simp
  | cons asked requests ih =>
    obtain ⟨middle, hm, hrest⟩ := foldlM_cons_eq_ok_iff.mp h
    rw [ih hrest, renamed_eq hnamed hm, List.countP_cons]
    split_ifs with hc
    · simp [List.replicate_succ]
    · simp

end

/-- The name tells by its length how often the tag is in it. -/
theorem taggedOnce_iff (transport : Transport) (n : Nat) :
    TaggedOnce transport (baseName transport ++ (List.replicate n compressedTag).flatten) ↔ n ≤ 1 := by
  have hlen : compressedTag.length = 23 := by decide
  constructor
  · intro h
    have hle : ((List.replicate n compressedTag).flatten).length ≤ 23 := by
      rcases h with h | h
      · have := congrArg List.length h
        simp only [List.length_append] at this
        omega
      · have := congrArg List.length h
        simp only [List.length_append] at this
        omega
    rw [List.length_flatten, List.map_replicate, List.sum_replicate_nat, hlen] at hle
    omega
  · intro hn
    rcases Nat.le_one_iff_eq_zero_or_eq_one.mp hn with rfl | rfl
    · exact .inl (by simp)
    · exact .inr (by simp)

theorem nameAfter_append (setting : Setting) (name : Bytes) (a b : List Asked) :
    nameAfter setting name (a ++ b) = nameAfter setting name a >>= fun next => nameAfter setting next b :=
  List.foldlM_append

/-- A completion leaves the session with the name its request leads to. -/
theorem step_nameAfter {setting : Setting} {s s' : SessionState} {completion : Completion}
    (h : step setting s completion = some s') :
    nameAfter setting s.name completion.asked.toList = .ok s'.name := by
  have hcomplete : ∀ {operation event t}, s.complete operation event = some t → t.name = s.name := by
    intro operation event t ht
    unfold SessionState.complete at ht
    split_ifs at ht
    rw [← Option.some.inj ht]
  cases completion with
  | handshake ok =>
    obtain ⟨t, ht, he⟩ := Option.bind_eq_some_iff.mp h
    obtain rfl := Option.some.inj he
    rw [← hcomplete ht]
    cases ok <;> rfl
  | write close ok =>
    obtain ⟨t, ht, he⟩ := Option.bind_eq_some_iff.mp h
    obtain rfl := Option.some.inj he
    rw [← hcomplete ht]
    cases ok <;> cases close <;> rfl
  | read outcome =>
    obtain ⟨t, ht, he⟩ := Option.bind_eq_some_iff.mp h
    rw [← hcomplete ht]
    cases outcome with
    | request request env log =>
      obtain ⟨answer, hc, hs⟩ := bind_eq_ok_iff.mp (toOption_eq_some_iff.mp he)
      obtain rfl := Except.ok.inj hs
      exact foldlM_cons_eq_ok_iff.mpr ⟨answer.name, map_eq_ok_iff.mpr ⟨answer, hc, rfl⟩, rfl⟩
    | _ =>
      obtain rfl := Option.some.inj he
      rfl

theorem run_nameAfter {setting : Setting} {transport : Transport} {completions : List Completion} {s : SessionState}
    (h : run setting transport completions = some s) :
    nameAfter setting (baseName transport) (completions.filterMap Completion.asked) = .ok s.name := by
  induction completions using List.reverseRecOn generalizing s with
  | nil =>
    obtain rfl := Option.some.inj h
    cases transport <;> rfl
  | append_singleton completions completion ih =>
    unfold run at h
    rw [List.foldlM_append] at h
    obtain ⟨t, ht, hstep⟩ := Option.bind_eq_some_iff.mp h
    rw [List.foldlM_cons] at hstep
    obtain ⟨s', hs', he⟩ := Option.bind_eq_some_iff.mp hstep
    obtain rfl := Option.some.inj he
    rw [List.filterMap_append, nameAfter_append, ih ht]
    have hlast : [completion].filterMap Completion.asked = completion.asked.toList := by
      cases hasked : completion.asked <;> simp [hasked]
    rw [hlast]
    exact step_nameAfter hs'

/-- The session's name has the tag at most once exactly if at most one of the requests answered on
the connection went to a compressed file handler, whatever the requests and in every run. -/
theorem label_tagged_once_iff {setting : Setting} (hnamed : NamedByKind setting.urlToHandler) (transport : Transport) :
    (∀ requests name, nameAfter setting (baseName transport) requests = .ok name →
      (TaggedOnce transport name ↔ requests.countP (goesToCompressed setting) ≤ 1)) ∧
    ∀ completions s, run setting transport completions = some s →
      (TaggedOnce transport s.name ↔
        (completions.filterMap Completion.asked).countP (goesToCompressed setting) ≤ 1) := by
  have hrequests : ∀ requests name, nameAfter setting (baseName transport) requests = .ok name →
      (TaggedOnce transport name ↔ requests.countP (goesToCompressed setting) ≤ 1) := by
    intro requests name h
    rw [nameAfter_eq hnamed h, taggedOnce_iff]
  exact ⟨hrequests, fun completions s h => hrequests _ _ (run_nameAfter h)⟩

/-- One location for compressed files that keeps its connections. -/
def compressedConfig : NginxConfig :=
  [.mk [ascii "location", ascii "/static", ascii "CompressedFileHandler"]
    (some [.mk [ascii "root", ascii "/srv"] none, .mk [ascii "keep-alive", ascii "1"] none])]

def compressedSetting : Setting :=
  ⟨[(ascii "/static", ⟨ascii "CompressedFileHandler", true, .compressedFile helloHandler⟩)], fun _ => 0, fun _ => false⟩

theorem created_compressedSetting :
    (createAllHandlers compressedConfig []).map (·.urlToHandler) = some compressedSetting.urlToHandler := by
  decide +kernel

theorem namedByKind_compressedSetting : NamedByKind compressedSetting.urlToHandler := by
  obtain ⟨registered, hr, he⟩ := Option.map_eq_some_iff.mp created_compressedSetting
  rw [← he]
  exact namedByKind_of_created (created_createAllHandlers hr)

/-- A request for the file comes in, and the response to it is sent. -/
def fileRead : Completion :=
  .read (.request (helloRequest (ascii "identity")) (fileEnvironment helloFiles) ⟨[], []⟩)

def responseSent : Completion := .write false true

/-- The second request on a connection adds the tag again. -/
theorem second_request_tags_again :
    parse (.ofList (ascii "location /static CompressedFileHandler \x7b root /srv; keep-alive 1; \x7d")) [] =
      some ⟨true, compressedConfig, ""⟩ ∧
    (createAllHandlers compressedConfig []).map (·.urlToHandler) = some compressedSetting.urlToHandler ∧
    (run compressedSetting .tcp [fileRead, responseSent, fileRead]).map (·.name) =
      some (ascii "sessionTCP: CompressedFileHandler: CompressedFileHandler: ") ∧
    ¬ TaggedOnce .tcp (ascii "sessionTCP: CompressedFileHandler: CompressedFileHandler: ") :=
  ⟨by decide +kernel, created_compressedSetting, by decide +kernel, by decide +kernel⟩

theorem one_request_tags_once :
    ∃ s, run compressedSetting .tcp [fileRead, responseSent] = some s ∧ TaggedOnce .tcp s.name := by
  have hrun : (run compressedSetting .tcp [fileRead, responseSent]).isSome = true := by decide +kernel
  obtain ⟨s, hs⟩ := Option.isSome_iff_exists.mp hrun
  exact ⟨s, hs, ((label_tagged_once_iff namedByKind_compressedSetting .tcp).2 _ s hs).2 (by decide +kernel)⟩

end Koko.Session
