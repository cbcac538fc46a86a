import Koko.Server.Linearization
import Koko.Server.UnreadStatements
import Koko.Session.Site

/-! The program and the site: started with the configuration of a site, it answers whatever its
sessions ask, in any interleaving, as the site answered one request after another. -/
namespace Koko.Session
open Koko.Lib Koko.Handlers

namespace Site

/-- One request is answered by the site. -/
def serve (site : Site) (s : Service) (a : Arrival) : Except Exn Service := do
  let answer ← site.answer a.env s.log (s.names a.session) a.request
  return ⟨Function.update s.names a.session answer.name, answer.log, s.answered ++ [(a, answer.response)]⟩

def serveAll (site : Site) (s : Service) (arrivals : List Arrival) : Except Exn Service :=
  arrivals.foldlM site.serve s

theorem serve_table (site : Site) (beyond : Nat → Byte) (s : Service) {a : Arrival} (hq : QuerySafe a.request.target) :
    s.serve beyond site.table a = site.serve s a := by
  rw [Service.serve, site.constructResponse_table hq]
  rfl

/-- The table of the site serves as the site does. -/
theorem serveAll_table (site : Site) (beyond : Nat → Byte) (s : Service) {arrivals : List Arrival}
    (hq : ∀ a ∈ arrivals, QuerySafe a.request.target) :
    s.serveAll beyond site.table arrivals = site.serveAll s arrivals := by
  unfold Service.serveAll serveAll
  induction arrivals generalizing s with
  | nil => rfl
  | cons a arrivals ih =>
    rw [List.foldlM_cons, List.foldlM_cons, site.serve_table beyond s (hq a List.mem_cons_self)]
    exact bind_congr fun next => ih next (fun b hb => hq b (List.mem_cons_of_mem a hb))

end Site
end Koko.Session

namespace Koko.Server
open Koko.Lib Koko.Http Koko.Config Koko.Handlers Koko.Session

theorem tree_of_site (site : Site) : tree (formatStatements site.config) = site.config := by
  have hne : site.config ≠ [] := fun he => site.inhabited (List.map_eq_nil_iff.mp he)
  obtain ⟨r, hparse, -, hconfig⟩ := parse_formatStatements hne site.headed_config site.spellable_config
  rw [tree_of_parse hparse, hconfig]

/-- The table that the program serves is that of the site in its configuration file. -/
theorem registered_of_site {m : Machine} {site : Site} {header program file : Bytes} (ho : EndsOutside header)
    (hc : Complete header) (hn : NoLocations (tree header))
    (hf : m.files file = some (header ++ formatStatements site.config)) {server : ServerState} {registered : Registered}
    (h : m.main [program, file] = some (.serving server registered)) : registered.urlToHandler = site.table := by
  obtain ⟨returned, config, o, hargs, -, hcreate, -⟩ := Machine.main_serving h
  rw [Machine.mainConfig_of_file hf] at hargs
  obtain ⟨-, rfl⟩ := ArgsOutcome.proceed.inj (Option.some.inj hargs)
  rw [tree_append ho hc, ← List.nil_append (tree header), createAllHandlers_noLocations hn, List.nil_append, tree_of_site,
    site.createAllHandlers_config] at hcreate
  rw [← Option.some.inj hcreate]

/-- A machine with a site in its configuration file. -/
def siteMachine : Machine where
  files _ := some (ascii "port 8080;\n" ++ formatStatements filesSite.config)
  paths _ := .missing
  usesCertificate _ _ := false
  http _ := .good
  https _ := .good

/-- One client asks for a file that is not to be had. -/
def onePageAsked : List SystemEvent :=
  [.accepted .tcp false, .arrived 0 (getRequest (ascii "/static/private/key")) idleEnvironment, .worked 0, .worked 0]

end Koko.Server
