import Koko.Server.Exceptions

/-! How long a request waits for its answer, once a thread works on it: not for another session. -/
namespace Koko.Server
open Koko.Lib Koko.Http Koko.Handlers Koko.Session

/-- The steps a call has left: a status page gets to the log once more than other responses do. -/
def remaining (call : Call) : Nat :=
  match call.phase with
  | .begun => if call.handler.behaviour = .status then 3 else 2
  | .copied _ _ => 2
  | .answered _ => 1
  | .returned _ => 0

def isWork (i : Nat) : SystemEvent → Bool
  | .worked j => j = i
  | _ => false

/-- How many steps of the call of session `i` are among the events. -/
def works (i : Nat) (events : List SystemEvent) : Nat := events.countP (isWork i)

/-- The response to the call's request is the last the session did, and the last the log tells. -/
def JustAnswered (s : System) (i : Nat) (call : Call) : Prop :=
  s.calls i = none ∧ ∃ session res, s.server.sessions[i]? = some session ∧
    session.trace.getLast? = some (.writeStarted res) ∧
    s.log.urlInfo.getLast? = some ⟨call.request.target, res.result, call.env.now⟩

section
variable {setting : Setting} {s s' now later : System} {i : Nat} {call : Call}

/-- While a call is under way its session does nothing else. -/
theorem calls_of_not_work {event : SystemEvent} (he : System.Effect setting s event s') (hc : s.calls i = some call)
    (h : isWork i event = false) : s'.calls i = some call := by
  rw [← hc]
  cases hi : touches i event with
  | false => exact calls_of_not_touches he hi
  | true =>
    cases event with
    | accepted => cases hi
    | worked j =>
      obtain rfl : j = i := of_decide_eq_true hi
      simp [isWork] at h
    | finished j completion =>
      obtain rfl : j = i := of_decide_eq_true hi
      cases he with
      | finished hidle =>
        rw [hidle] at hc
        cases hc
    | arrived j request env =>
      obtain rfl : j = i := of_decide_eq_true hi
      cases he with
      | unrouted hidle | routed hidle =>
        rw [hidle] at hc
        cases hc

/-- A step of a call is one less of those it has left, and the last gives the response. -/
theorem remaining_of_work (he : System.Effect setting s (.worked i) s') (hc : s.calls i = some call) :
    (∃ phase, s'.calls i = some { call with phase } ∧ 0 < remaining { call with phase } ∧
        remaining { call with phase } + 1 = remaining call) ∨
      (remaining call = 1 ∧ JustAnswered s' i call) := by
  cases he with
  | @copied _ own hown hp hb =>
    obtain rfl := Option.some.inj (hc.symm.trans hown)
    refine .inl ⟨_, Function.update_self _ _ _, ?_⟩
    simp [remaining, hp, hb]
  | @replied _ own response hown hp hb =>
    obtain rfl := Option.some.inj (hc.symm.trans hown)
    refine .inl ⟨_, Function.update_self _ _ _, ?_⟩
    simp [remaining, hp, hb]
  | @counted _ own urlInfo names hown hp =>
    obtain rfl := Option.some.inj (hc.symm.trans hown)
    refine .inl ⟨_, Function.update_self _ _ _, ?_⟩
    simp [remaining, hp]
  | @recorded _ own reply session hown hp hi =>
    obtain rfl := Option.some.inj (hc.symm.trans hown)
    refine .inr ⟨by simp [remaining, hp], Function.update_self _ _ _, ?_⟩
    have hlt : i < s.server.sessions.length := (List.getElem?_eq_some_iff.mp hi).1
    refine ⟨_, finalResponse call.handler reply.response, List.getElem?_set_self hlt, List.getLast?_concat, ?_⟩
    exact List.getLast?_concat

/-- In any run a call returns with the step that is the last of those it has left, whatever happens to
the other sessions in between. -/
theorem answered_at_step (hc : now.calls i = some call) {after : List SystemEvent}
    (h : now.run setting after = some later) (hpos : 0 < remaining call) (hw : remaining call ≤ works i after) :
    ∃ front rest mid, after = front ++ .worked i :: rest ∧ works i front + 1 = remaining call ∧
      now.run setting (front ++ [.worked i]) = some mid ∧ JustAnswered mid i call := by
  induction after generalizing now call with
  | nil => exact absurd hw (Nat.not_le.mpr hpos)
  | cons event after ih =>
    rw [System.run, List.foldlM_cons, Option.bind_eq_bind, Option.bind_eq_some_iff] at h
    obtain ⟨u, hu, h⟩ := h
    have hrun : ∀ events v, u.run setting events = some v → now.run setting (event :: events) = some v := by
      intro events v hv
      rw [System.run, List.foldlM_cons, hu]
      exact hv
    cases hwork : isWork i event with
    | false =>
      have hcount : works i (event :: after) = works i after := List.countP_cons_of_neg (by simp [hwork])
      obtain ⟨front, rest, mid, rfl, hlast, hmid, hanswered⟩ :=
        ih (calls_of_not_work (System.next_cases hu) hc hwork) h hpos (hcount ▸ hw)
      refine ⟨event :: front, rest, mid, rfl, ?_, hrun _ _ hmid, hanswered⟩
      rw [← hlast, works, works, List.countP_cons_of_neg (by simp [hwork])]
    | true =>
      obtain rfl : event = .worked i := by
        cases event with
        | worked j => rw [show j = i from of_decide_eq_true hwork]
        | _ => cases hwork
      have hcount : works i (.worked i :: after) = works i after + 1 := List.countP_cons_of_pos hwork
      rcases remaining_of_work (System.next_cases hu) hc with ⟨phase, hnext, hleft, hless⟩ | ⟨hone, hanswered⟩
      · obtain ⟨front, rest, mid, rfl, hlast, hmid, hanswered⟩ := ih hnext h hleft (by omega)
        refine ⟨.worked i :: front, rest, mid, rfl, ?_, hrun _ _ hmid, hanswered⟩
        rw [works, List.countP_cons_of_pos hwork, ← works, hlast, hless]
      · exact ⟨[], after, u, rfl, by rw [hone]; rfl, hrun [] u rfl, hanswered⟩

end

/-- No call waits for another: in every state of the server its next step can be made, and whatever events
follow, the request is answered and told in the log with the last of the steps it had left, which are
three at most. -/
theorem call_returns {setting : Setting} {o : StartOutcome} {server : ServerState} (hserver : serveForever o = .ok server)
    (log : SharedLog) {before : List SystemEvent} {now : System}
    (hnow : (System.start server log).run setting before = some now) {i : Nat} {call : Call} (hc : now.calls i = some call) :
    now.fire setting (.worked i) ≠ none ∧ remaining call ≤ 3 ∧
      ∀ after later, now.run setting after = some later → remaining call ≤ works i after →
        ∃ front rest mid, after = front ++ .worked i :: rest ∧ works i front + 1 = remaining call ∧
          now.run setting (front ++ [.worked i]) = some mid ∧ JustAnswered mid i call := by
  have hs : Settled setting now := settled_run (settled_start (sessions_serveForever hserver) log) hnow
  have hpos : 0 < remaining call ∧ remaining call ≤ 3 := by
    unfold remaining
    cases hp : call.phase with
    | returned reply => exact absurd hp (hs.not_returned i call hc reply)
    | begun =>
      simp only
      split_ifs <;> decide
    | copied | answered => simp
  exact ⟨fire_worked hs hc, hpos.2, fun after later h hw => answered_at_step hc h hpos.1 hw⟩

/-- A status page and a health check at work. -/
def statusAndHealth : List SystemEvent :=
  [.accepted .tcp false, .accepted .tcp false, .arrived 0 ⟨ascii "GET", ascii "/status", 11, [], []⟩ idleEnvironment,
    .arrived 1 ⟨ascii "GET", ascii "/health", 11, [], []⟩ idleEnvironment, .worked 0]

theorem status_call_returns :
    ∃ server now call later, serveForever plainStart = .ok server ∧
      (System.start server ⟨[], []⟩).run ⟨checkTable, fun _ => 0, fun _ => false⟩ statusAndHealth = some now ∧
      now.calls 0 = some call ∧
      now.run ⟨checkTable, fun _ => 0, fun _ => false⟩ [.worked 1, .worked 0, .worked 1, .worked 0] = some later ∧
      ∃ front rest mid, [SystemEvent.worked 1, .worked 0, .worked 1, .worked 0] = front ++ .worked 0 :: rest ∧
        now.run ⟨checkTable, fun _ => 0, fun _ => false⟩ (front ++ [.worked 0]) = some mid ∧ JustAnswered mid 0 call := by
  have hruns : ∃ server now call later, serveForever plainStart = .ok server ∧
      (System.start server ⟨[], []⟩).run ⟨checkTable, fun _ => 0, fun _ => false⟩ statusAndHealth = some now ∧
      now.calls 0 = some call ∧ call.phase = .copied [] [] ∧
      now.run ⟨checkTable, fun _ => 0, fun _ => false⟩ [.worked 1, .worked 0, .worked 1, .worked 0] = some later :=
    ⟨_, _, _, _, rfl, rfl, rfl, rfl, rfl⟩
  obtain ⟨server, now, call, later, hserver, hnow, hcall, hphase, hlater⟩ := hruns
  have hleft : remaining call = 2 := by rw [remaining, hphase]
  obtain ⟨front, rest, mid, hsplit, -, hmid, hanswered⟩ :=
    (call_returns hserver _ hnow hcall).2.2 _ later hlater (by rw [hleft]; decide)
  exact ⟨server, now, call, later, hserver, hnow, hcall, hlater, front, rest, mid, hsplit, hmid, hanswered⟩

end Koko.Server
