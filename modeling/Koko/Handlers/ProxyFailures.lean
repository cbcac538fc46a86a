import Koko.Handlers.Framing

/-! What a client is told when an exchange with the upstream host fails. The error of the read is
overwritten by that of the shutdown, so it is reported only if something else fails with it. -/
namespace Koko.Handlers
open Koko.Lib Koko.Http

/-- The upstream response was asked for and read to its end. -/
def Exchange.Succeeds (e : Exchange) : Prop :=
  e.resolves = true ∧ e.connects = true ∧ e.writes = true ∧ e.readResult = .success

instance (e : Exchange) : Decidable e.Succeeds := inferInstanceAs (Decidable (_ ∧ _))

/-- A completed exchange has succeeded but for its read. -/
theorem Exchange.succeeds_iff_of_completes {e : Exchange} (hc : e.Completes) :
    e.Succeeds ↔ e.readResult = .success := by
  obtain ⟨⟨hresolves, hconnects, hwrites⟩, -⟩ := hc
  exact ⟨fun hs => hs.2.2.2, fun hr => ⟨hresolves, hconnects, hwrites, hr⟩⟩

namespace ProxyRequestHandler
variable (h : ProxyRequestHandler) (network : Network) (request : Request)

/-- The client is sent what the exchange returned, rewritten. -/
def Relays : Prop :=
  ∃ e res, h.exchangeFor network request = some e ∧ reqSynchronous e = .ok res ∧
    (h.handleRequest network request).1 = h.rewriteResponse res

/-- There was an exchange and it succeeded. -/
def ExchangeSucceeds : Prop := ∃ e, h.exchangeFor network request = some e ∧ e.Succeeds

/-- An upstream response is relayed only after a successful exchange, and in every other case the
answer is the prepared 500. -/
def FailureReported : Prop :=
  (h.Relays network request → h.ExchangeSucceeds network request) ∧
    (¬ h.ExchangeSucceeds network request → (h.handleRequest network request).1 = internalServerError)

variable {h network request}

theorem relays_iff : h.Relays network request ↔ ∃ e, h.exchangeFor network request = some e ∧ e.Completes := by
  constructor
  · rintro ⟨e, res, he, hres, -⟩
    exact ⟨e, he, (reqSynchronous_eq_ok_iff.mp hres).1⟩
  · rintro ⟨e, he, hc⟩
    exact ⟨e, _, he, reqSynchronous_eq_ok_iff.mpr ⟨hc, rfl⟩, response_of_exchange he hc⟩

/-- Only a completed exchange is relayed; the answer is the prepared 500 otherwise. -/
theorem response_of_not_relays (hn : ¬ h.Relays network request) :
    (h.handleRequest network request).1 = internalServerError :=
  response_of_no_exchange fun e he hc => hn (relays_iff.mpr ⟨e, he, hc⟩)

/-- A failed exchange is reported, unless it is the read that failed and nothing else that the
code looks at did. -/
theorem failure_reported_iff (h : ProxyRequestHandler) (network : Network) (request : Request) :
    h.FailureReported network request ↔
      ∀ e, h.exchangeFor network request = some e → e.readResult = .success ∨ ¬ e.Completes := by
  constructor
  · intro hreported e he
    by_cases hc : e.Completes
    · left
      obtain ⟨e', he', hs⟩ := hreported.1 (relays_iff.mpr ⟨e, he, hc⟩)
      obtain rfl : e' = e := Option.some.inj (he'.symm.trans he)
      exact (Exchange.succeeds_iff_of_completes hc).mp hs
    · exact .inr hc
  · intro hread
    have hrelays : h.Relays network request → h.ExchangeSucceeds network request := by
      intro hr
      obtain ⟨e, he, hc⟩ := relays_iff.mp hr
      exact ⟨e, he, (Exchange.succeeds_iff_of_completes hc).mpr ((hread e he).resolve_right (not_not.mpr hc))⟩
    exact ⟨hrelays, fun hn => response_of_not_relays (fun hr => hn (hrelays hr))⟩

end ProxyRequestHandler

/-- The connection is cut while the response is read, and can still be shut down. -/
def cutExchange : Exchange := ⟨true, true, true, .other, newResponse 200, .success⟩

def cutNetwork : Network := fun _ _ _ => cutExchange

def uwProxy : ProxyRequestHandler := ⟨ascii "/uw", ascii "www.washington.edu", ascii "80", false⟩

def aboutRequest : Request := ⟨ascii "GET", ascii "/uw/about", 11, [], []⟩

/-- The half-read response is sent on with the status 200 it was made with. -/
theorem cut_exchange_passed_off :
    ¬ uwProxy.FailureReported cutNetwork aboutRequest ∧ (uwProxy.handleRequest cutNetwork aboutRequest).1.result = 200 := by
  have hok : (uwProxy.handleRequest cutNetwork aboutRequest).1.result = 200 := by decide +kernel
  refine ⟨fun hreported => ?_, hok⟩
  have hfailed : ¬ uwProxy.ExchangeSucceeds cutNetwork aboutRequest := by
    rintro ⟨e, he, hs⟩
    rw [show e = cutExchange from (Option.some.inj he).symm] at hs
    exact absurd hs (by decide)
  rw [hreported.2 hfailed] at hok
  exact absurd hok (by decide)

end Koko.Handlers
