import Koko.Lib.Permutation
import Koko.Server.UnreadStatements
import Koko.Session.LongestPrefix

/-! The order of the statements of a configuration, which matters only where a name the program looks up
is given twice or two locations register the same prefix. -/
namespace Koko.Server
open Koko.Lib Koko.Http Koko.Config Koko.Handlers Koko.Session

def Named (name : Bytes) (s : NginxConfigStatement) : Prop := s.tokens.head? = some name

instance (name : Bytes) (s : NginxConfigStatement) : Decidable (Named name s) := inferInstanceAs (Decidable (_ = _))

/-- The names of the settings, and of the block that may hold them. -/
def settingNames : List Bytes :=
  [ascii "server", ascii "port", ascii "httpsPort", ascii "certificate", ascii "privateKey"]

/-- No setting is given twice at the top, and there is at most one server block. -/
def GivenOnce (config : NginxConfig) : Prop := ∀ name ∈ settingNames, (config.filter (Named name)).length ≤ 1

instance (config : NginxConfig) : Decidable (GivenOnce config) := inferInstanceAs (Decidable (∀ name ∈ _, _))

/-- No two locations are registered under the same prefix. -/
def PrefixesDistinct (config : NginxConfig) : Prop :=
  ∀ registered ∈ createAllHandlers config [], (registered.urlToHandler.map Prod.fst).Nodup

section
variable {config config' : NginxConfig}

/-- The scan at the top looks at statements of its field only. -/
theorem findSome?_named (field : Bytes) (config : NginxConfig) :
    config.findSome? (getStrStatement field) = (config.filter (Named field)).findSome? (getStrStatement field) := by
  induction config with
  | nil => rfl
  | cons s config ih =>
    by_cases hs : Named field s
    · rw [List.filter_cons_of_pos (by simpa using hs), List.findSome?_cons, List.findSome?_cons, ih]
    · have hnone : getStrStatement field s = none := if_neg hs
      rw [List.filter_cons_of_neg (by simpa using hs), List.findSome?_cons, hnone, ih]

/-- The scan of the server blocks passes other statements by. -/
theorem getStrServer_named (field : Bytes) (config : NginxConfig) :
    getStrServer field config = getStrServer field (config.filter (Named (ascii "server"))) := by
  induction config with
  | nil => rfl
  | cons s config ih =>
    by_cases hs : Named (ascii "server") s
    · rw [List.filter_cons_of_pos (by simpa using hs), getStrServer, getStrServer, ih]
    · rw [List.filter_cons_of_neg (by simpa using hs), ← ih, getStrServer]
      exact if_neg hs

theorem getStr_perm (hp : config.Perm config') (ho : GivenOnce config) {field : Bytes} (hf : field ∈ settingNames) :
    getStr config field = getStr config' field := by
  have hfield := filter_eq_of_perm hp (ho field hf)
  have hserver := filter_eq_of_perm hp (ho (ascii "server") (by decide))
  rw [getStr, getStr, findSome?_named, findSome?_named field config', hfield, getStrServer_named,
    getStrServer_named field config', hserver]

theorem getNum_perm (hp : config.Perm config') (ho : GivenOnce config) {field : Bytes} (hf : field ∈ settingNames) :
    getNum config field = getNum config' field := by
  rw [getNum, getNum, getStr_perm hp ho hf]

namespace Registered

def append (a b : Registered) : Registered :=
  ⟨a.urlToHandler ++ b.urlToHandler, a.urlToHandlerName ++ b.urlToHandlerName⟩

theorem foldl_append (own : List Registered) (a : Registered) :
    own.foldl append a =
      ⟨a.urlToHandler ++ own.flatMap urlToHandler, a.urlToHandlerName ++ own.flatMap urlToHandlerName⟩ := by
  induction own generalizing a with
  | nil => simp
  | cons b own ih =>
    rw [List.foldl_cons, ih]
    simp [append]

end Registered

/-- A statement registers the same, whatever is registered before it. -/
theorem registerStatement_own (registered : Registered) (s : NginxConfigStatement) :
    registerStatement registered s = (registerStatement ⟨[], []⟩ s).map registered.append := by
  by_cases hl : ∃ location name, Locates s location name
  · obtain ⟨location, name, hl⟩ := hl
    cases hp : registeredPrefix location with
    | none =>
      have hnone : ∀ r, registerStatement r s = none := by
        intro r
        cases hr : registerStatement r s with
        | none => rfl
        | some next =>
          obtain ⟨urlPrefix, hu⟩ := registeredPrefix_of_defined hl hr
          rw [hp] at hu
          cases hu
      rw [hnone, hnone, Option.map_none]
    | some urlPrefix =>
      rw [registerStatement_of_locates registered hl hp, registerStatement_of_locates ⟨[], []⟩ hl hp, Option.map_map]
      rfl
  · have hno : ∀ location name, ¬ Locates s location name := fun location name h => hl ⟨location, name, h⟩
    rw [registerStatement_of_not_locates _ hno, registerStatement_of_not_locates _ hno, Option.map_some, Registered.append,
      List.append_nil, List.append_nil]

theorem createAllHandlers_gather (config : NginxConfig) (names : List (Bytes × Bytes)) :
    createAllHandlers config names = (config.mapM (registerStatement ⟨[], []⟩)).map (fun own =>
      ⟨own.flatMap Registered.urlToHandler, names ++ own.flatMap Registered.urlToHandlerName⟩) := by
  rw [createAllHandlers, foldlM_gather registerStatement_own]
  simp only [Registered.foldl_append, List.nil_append]

/-- The tables of a permutation are permuted. -/
theorem createAllHandlers_perm (hp : config.Perm config') {registered : Registered}
    (h : createAllHandlers config [] = some registered) :
    ∃ registered', createAllHandlers config' [] = some registered' ∧
      registered.urlToHandler.Perm registered'.urlToHandler ∧
      registered.urlToHandlerName.Perm registered'.urlToHandlerName := by
  rw [createAllHandlers_gather] at h
  obtain ⟨own, hown, rfl⟩ := Option.map_eq_some_iff.mp h
  obtain ⟨own', hown', hperm⟩ := mapM_perm hp hown
  refine ⟨⟨own'.flatMap Registered.urlToHandler, own'.flatMap Registered.urlToHandlerName⟩, ?_, hperm.flatMap_right _,
    hperm.flatMap_right _⟩
  rw [createAllHandlers_gather, hown']
  simp

end

/-- Tables that select the same entry give the same answers. -/
theorem constructResponse_congr {beyond : Nat → Byte} {table table' : Table RequestHandler} {request : Request}
    (h : (route beyond table request.target).entry = (route beyond table' request.target).entry) (env : Environment)
    (log : SharedLog) (name : Bytes) :
    constructResponse beyond table env log name request = constructResponse beyond table' env log name request := by
  cases he : (route beyond table request.target).entry with
  | none => rw [constructResponse_of_no_entry he, constructResponse_of_no_entry (h ▸ he)]
  | some entry => rw [constructResponse_of_entry he, constructResponse_of_entry (h ▸ he)]

/-- The program gets as far and, if it serves, does so on the same ports, and gives the same answers from
the same log; only the handlers that a status page names may be in another order. -/
inductive Started.Alike : Started → Started → Prop where
  | exited (code : Nat) : Alike (.exited code) (.exited code)
  | terminated : Alike .terminated .terminated
  | serving (server : ServerState) {registered registered' : Registered} :
      registered.urlToHandlerName.Perm registered'.urlToHandlerName →
      (∀ beyond env log name request, constructResponse beyond registered.urlToHandler env log name request =
        constructResponse beyond registered'.urlToHandler env log name request) →
      Alike (.serving server registered) (.serving server registered')

namespace Machine
variable {m : Machine} {config config' : NginxConfig}

theorem loadServerCertificate_perm (hp : config.Perm config') (ho : GivenOnce config) :
    m.loadServerCertificate config = m.loadServerCertificate config' := by
  rw [loadServerCertificate, loadServerCertificate, getStr_perm hp ho (by decide), getStr_perm hp ho (by decide)]

/-- The same configuration in another order is served alike. -/
theorem serveConfig_perm (hp : config.Perm config') (ho : GivenOnce config) (hd : PrefixesDistinct config) :
    Option.Rel Started.Alike (m.serveConfig config) (m.serveConfig config') := by
  have hport : port config = port config' := by
    rw [port, port, portFrom, portFrom, getNum_perm hp ho (by decide)]
  have hhttps : httpsPort config = httpsPort config' := by
    rw [httpsPort, httpsPort, portFrom, portFrom, getNum_perm hp ho (by decide)]
  rw [serveConfig, serveConfig, loadServerCertificate_perm hp ho, hport, hhttps]
  cases m.loadServerCertificate config' with
  | none => exact .none
  | some loaded =>
    cases loaded with
    | error exn => exact .some .terminated
    | ok loadedCerts =>
      cases port config' with
      | none => exact .none
      | some http =>
        cases httpsPort config' with
        | none => exact .none
        | some https =>
          simp only [Option.bind_eq_bind, Option.bind_some]
          cases hc : createAllHandlers config [] with
          | none =>
            have hnone : createAllHandlers config' [] = none := by
              apply Option.eq_none_iff_forall_ne_some.mpr
              intro registered' hc'
              obtain ⟨registered, hc'', -⟩ := createAllHandlers_perm hp.symm hc'
              rw [hc] at hc''
              cases hc''
            rw [hnone]
            exact .none
          | some registered =>
            obtain ⟨registered', hc', htable, hnames⟩ := createAllHandlers_perm hp hc
            rw [hc']
            simp only [Option.bind_some]
            cases serveForever ⟨m.http http, m.https https, loadedCerts⟩ with
            | error exn => exact .some (.exited 0)
            | ok server =>
              refine .some (.serving server hnames fun beyond env log name request => ?_)
              exact constructResponse_congr (route_perm beyond (hd registered hc) htable request.target) env log name

end Machine

/-- The statements of complete parts stand one behind the other. -/
theorem tree_flatten {parts : List Bytes} (hparts : ∀ x ∈ parts, EndsOutside x ∧ Complete x) :
    tree parts.flatten = parts.flatMap tree := by
  induction parts with
  | nil => decide +kernel
  | cons x parts ih =>
    obtain ⟨hx, hc⟩ := hparts x List.mem_cons_self
    rw [List.flatten_cons, tree_append hx hc, ih (fun y hy => hparts y (List.mem_cons_of_mem _ hy)), List.flatMap_cons]

/-- Two nested locations and a port. -/
def threeParts : List Bytes :=
  [ascii "port 8080;\n", ascii "location /a EchoHandler \x7b keep-alive 1; \x7d\n",
    ascii "location /a/b HealthHandler \x7b\x7d\n"]

def partsMachine : Machine where
  files _ := some threeParts.flatten
  paths _ := .missing
  usesCertificate _ _ := false
  http _ := .good
  https _ := .good

end Koko.Server
