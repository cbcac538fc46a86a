import Koko.Config.Concatenation
import Koko.Server.Process
import Koko.Server.RegistrationSafety

/-! Statements of the configuration that the program never reads. -/
namespace Koko.Server
open Koko.Lib Koko.Config Koko.Handlers

/-- The names the program looks for at the top of a configuration. -/
def readNames : List Bytes :=
  [ascii "location", ascii "server", ascii "port", ascii "httpsPort", ascii "certificate", ascii "privateKey"]

/-- The statement begins with another word. -/
def Unread (s : NginxConfigStatement) : Prop := ∀ name ∈ s.tokens.head?, name ∉ readNames

/-- No statement registers a handler. -/
def NoLocations (config : NginxConfig) : Prop := ∀ s ∈ config, ∀ location name, ¬ Locates s location name

section
variable {x y z : NginxConfig}

private theorem head?_ne_of_unread {s : NginxConfigStatement} (h : Unread s) {name : Bytes} (hn : name ∈ readNames) :
    s.tokens.head? ≠ some name := fun he => h name he hn

theorem findSome?_unread (hz : ∀ s ∈ z, Unread s) {field : Bytes} (hf : field ∈ readNames) :
    z.findSome? (getStrStatement field) = none := by
  rw [List.findSome?_eq_none_iff]
  intro s hs
  exact if_neg (head?_ne_of_unread (hz s hs) hf)

theorem getStrServer_unread (hz : ∀ s ∈ z, Unread s) (field : Bytes) :
    getStrServer field (x ++ z ++ y) = getStrServer field (x ++ y) := by
  induction x with
  | nil =>
    induction z with
    | nil => rfl
    | cons s z ih =>
      have hs : s.tokens.head? ≠ some (ascii "server") := head?_ne_of_unread (hz s List.mem_cons_self) (by decide)
      change getStrServer field (s :: (z ++ y)) = _
      rw [getStrServer, if_neg hs]
      exact ih (fun s hs => hz s (List.mem_cons_of_mem _ hs))
  | cons s x ih =>
    change getStrServer field (s :: (x ++ z ++ y)) = getStrServer field (s :: (x ++ y))
    rw [getStrServer, getStrServer, ih]

/-- A lookup passes unread statements by. -/
theorem getStr_unread (hz : ∀ s ∈ z, Unread s) {field : Bytes} (hf : field ∈ readNames) :
    getStr (x ++ z ++ y) field = getStr (x ++ y) field := by
  have hfind : (x ++ z ++ y).findSome? (getStrStatement field) = (x ++ y).findSome? (getStrStatement field) := by
    rw [List.findSome?_append, List.findSome?_append, List.findSome?_append, findSome?_unread hz hf, Option.or_none]
  rw [getStr, getStr, hfind, getStrServer_unread hz]

theorem getNum_unread (hz : ∀ s ∈ z, Unread s) {field : Bytes} (hf : field ∈ readNames) :
    getNum (x ++ z ++ y) field = getNum (x ++ y) field := by
  rw [getNum, getNum, getStr_unread hz hf]

/-- The registration of handlers passes statements by that have no location. -/
theorem createAllHandlers_noLocations (hz : NoLocations z) (names : List (Bytes × Bytes)) :
    createAllHandlers (x ++ z ++ y) names = createAllHandlers (x ++ y) names := by
  have hpass : ∀ registered, z.foldlM registerStatement registered = some registered := by
    intro registered
    induction z with
    | nil => rfl
    | cons s z ih =>
      rw [List.foldlM_cons, registerStatement_of_not_locates registered (hz s List.mem_cons_self)]
      exact ih (fun s hs => hz s (List.mem_cons_of_mem _ hs))
  rw [createAllHandlers, createAllHandlers, List.foldlM_append, List.foldlM_append, List.foldlM_append]
  cases x.foldlM registerStatement ⟨[], names⟩ with
  | none => rfl
  | some registered => rw [Option.bind_eq_bind, Option.bind_some, hpass]

theorem noLocations_unread (hz : ∀ s ∈ z, Unread s) : NoLocations z := by
  intro s hs location name hl
  apply head?_ne_of_unread (hz s hs) (show ascii "location" ∈ readNames by decide)
  rw [show s.tokens = [ascii "location", location, name] from hl]
  rfl

end

namespace Machine
variable {m : Machine}

/-- The machine with another text in a configuration file. -/
def withFile (m : Machine) (file text : Bytes) : Machine := { m with files := Function.update m.files file (some text) }

theorem files_withFile (m : Machine) (file text : Bytes) : (m.withFile file text).files file = some text :=
  Function.update_self _ _ _

theorem serveConfig_unread {x y z : NginxConfig} (hz : ∀ s ∈ z, Unread s) :
    m.serveConfig (x ++ z ++ y) = m.serveConfig (x ++ y) := by
  have hcerts : m.loadServerCertificate (x ++ z ++ y) = m.loadServerCertificate (x ++ y) := by
    rw [loadServerCertificate, loadServerCertificate, getStr_unread hz (by decide), getStr_unread hz (by decide)]
  have hport : port (x ++ z ++ y) = port (x ++ y) := by
    rw [port, port, portFrom, portFrom, getNum_unread hz (by decide)]
  have hhttps : httpsPort (x ++ z ++ y) = httpsPort (x ++ y) := by
    rw [httpsPort, httpsPort, portFrom, portFrom, getNum_unread hz (by decide)]
  rw [serveConfig, serveConfig, hcerts, hport, hhttps, createAllHandlers_noLocations (noLocations_unread hz)]

/-- Started with one configuration file, the program serves the tree of its text. -/
theorem mainConfig_of_file {program file text : Bytes} (hf : m.files file = some text) :
    mainConfig m.files [program, file] = some (.proceed 0 (tree text)) := by
  obtain ⟨message, hp⟩ := parse_eq_run (.ofList text) []
  rw [mainConfig, parseArgs, parseFile, hf, tree_of_parse hp]
  exact congrArg _ hp

theorem main_of_file {program file text : Bytes} (hf : m.files file = some text) :
    m.main [program, file] = m.serveConfig (tree text) := by
  rw [main, mainConfig_of_file hf]
  rfl

end Machine

/-- A comment, a number of threads and a block that the program does not know, between a port and a
location. -/
def notedMachine : Machine where
  files _ := some (ascii "port 8080;\n" ++ (ascii "# old\nthreads 8;\nuser \x7b port 1; \x7d\n" ++
    ascii "location /h HealthHandler \x7b\x7d"))
  paths _ := .missing
  usesCertificate _ _ := false
  http _ := .good
  https _ := .good

end Koko.Server
