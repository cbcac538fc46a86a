import Koko.Handlers.Dispatch
import Koko.Lib.Occurrences

/-! The rows of the status page. Targets are copied into the page as they are, so a row tag in a
target makes a row of its own. -/
namespace Koko.Handlers
open Koko.Lib Koko.Http

def rowTag : Bytes := ascii "<tr>"

/-- Text without an opening bracket makes no tag. -/
def Plain (s : Bytes) : Prop := chr '<' ∉ s

instance (s : Bytes) : Decidable (Plain s) := inferInstanceAs (Decidable (_ ∉ s))

theorem occurrences_plain {s : Bytes} (h : Plain s) : occurrences rowTag s = 0 := occurrences_of_not_mem h

/-- Markup can be put behind any text without joining it to a tag. -/
theorem occurrences_append_markup {b : Bytes} (h : Opens rowTag b) (a : Bytes) :
    occurrences rowTag (a ++ b) = occurrences rowTag a + occurrences rowTag b := occurrences_append (.inr h)

/-- Any text can be put behind markup. -/
theorem occurrences_markup_append {a : Bytes} (h : Closes rowTag a) (ha : a ≠ []) (before b : Bytes) :
    occurrences rowTag (before ++ a ++ b) = occurrences rowTag (before ++ a) + occurrences rowTag b :=
  occurrences_append (.inl (closes_append h ha before))

/-- A digit is not in a tag. -/
theorem not_mem_decimal {z : Byte} (hz : ¬ (48 ≤ z ∧ z ≤ 57)) (n : Nat) : z ∉ decimal n := by
  intro hm
  obtain ⟨c, hc, rfl⟩ := List.mem_map.mp hm
  have hd := Nat.isDigit_of_mem_toDigits (by decide) (by decide) hc
  simp only [Char.isDigit, Bool.and_eq_true, decide_eq_true_eq] at hd
  apply hz
  have h₁ : 48 ≤ c.toNat := hd.1
  have h₂ : c.toNat ≤ 57 := hd.2
  have h₃ : c.toNat % 256 = c.toNat := by omega
  constructor
  · rw [UInt8.le_iff_toNat_le]
    simp [chr, h₃, h₁]
  · rw [UInt8.le_iff_toNat_le]
    simp [chr, h₃, h₂]

theorem plain_decimal (n : Nat) : Plain (decimal n) := not_mem_decimal (by decide) n

theorem opens_decimal (n : Nat) : Opens rowTag (decimal n) := by
  intro z hz hm
  have hd : z ∈ decimal n := List.mem_of_mem_head? hz
  have htag : ∀ z ∈ rowTag.tail, ¬ (48 ≤ z ∧ z ≤ 57) := by decide +kernel
  exact not_mem_decimal (htag z hm) n hd

theorem occurrences_statusRequestRow (target : Bytes) {now : Bytes} (hn : Plain now) :
    occurrences rowTag (statusRequestRow target now) = 1 + occurrences rowTag target := by
  unfold statusRequestRow
  simp (disch := decide) only [occurrences_append_markup]
  rw [occurrences_markup_append (by decide) (by decide), occurrences_plain hn]
  simp (disch := decide) only [occurrences_append_markup]
  rw [occurrences_append (.inl (by decide))]
  have h₁ : occurrences rowTag (ascii "<tr><td>") = 1 := by decide
  have h₂ : occurrences rowTag (ascii "</td><td>200</td>") = 0 := by decide
  have h₃ : occurrences rowTag (ascii "<td>") = 0 := by decide
  have h₄ : occurrences rowTag (ascii "</td>") = 0 := by decide
  have h₅ : occurrences rowTag (ascii "</tr>") = 0 := by decide
  omega

theorem occurrences_urlInfoRow {info : URLInfo} (ht : Plain info.reqTime) :
    occurrences rowTag (urlInfoRow info) = 1 + occurrences rowTag info.url := by
  unfold urlInfoRow
  simp (disch := decide) only [occurrences_append_markup]
  rw [occurrences_markup_append (by decide) (by decide), occurrences_plain ht]
  simp (disch := decide) only [occurrences_append_markup]
  rw [occurrences_append_markup (opens_decimal _), occurrences_plain (plain_decimal _)]
  simp (disch := decide) only [occurrences_append_markup]
  rw [occurrences_markup_append (by decide) (by decide)]
  simp (disch := decide) only [occurrences_append_markup]
  have h₁ : occurrences rowTag (ascii "<tr>") = 1 := by decide
  have h₂ : occurrences rowTag (ascii "<td>") = 0 := by decide
  have h₃ : occurrences rowTag (ascii "</td>") = 0 := by decide
  have h₄ : occurrences rowTag (ascii "</tr>") = 0 := by decide
  omega

theorem occurrences_handlerRow {mapping : Bytes × Bytes} (hp : Plain mapping.1) (hn : Plain mapping.2) :
    occurrences rowTag (handlerRow mapping) = 1 := by
  unfold handlerRow
  simp (disch := decide) only [occurrences_append_markup]
  rw [occurrences_markup_append (by decide) (by decide), occurrences_plain hn]
  simp (disch := decide) only [occurrences_append_markup]
  rw [occurrences_append (.inl (by decide)), occurrences_plain hp]
  decide

private theorem row_opens {lead row rest : Bytes} (h : row = lead ++ rest) (hne : lead ≠ []) (ho : Opens rowTag lead) :
    row ≠ [] ∧ Opens rowTag row := by
  subst h
  exact ⟨List.append_ne_nil_of_left_ne_nil hne _, opens_append ho hne _⟩

theorem urlInfoRow_opens (info : URLInfo) : urlInfoRow info ≠ [] ∧ Opens rowTag (urlInfoRow info) := by
  unfold urlInfoRow
  simp only [List.append_assoc]
  exact row_opens rfl (by decide) (by decide)

theorem handlerRow_opens (mapping : Bytes × Bytes) : handlerRow mapping ≠ [] ∧ Opens rowTag (handlerRow mapping) := by
  unfold handlerRow
  simp only [List.append_assoc]
  exact row_opens rfl (by decide) (by decide)

theorem occurrences_urlInfoRows {urlInfo : List URLInfo} (ht : ∀ info ∈ urlInfo, Plain info.reqTime) :
    occurrences rowTag (urlInfo.reverse.flatMap urlInfoRow) =
      urlInfo.length + (urlInfo.map (fun info => occurrences rowTag info.url)).sum := by
  rw [occurrences_flatMap urlInfoRow_opens, List.map_reverse, List.sum_reverse]
  induction urlInfo with
  | nil => rfl
  | cons info urlInfo ih =>
    rw [List.map_cons, List.sum_cons, ih (fun i hi => ht i (by simp [hi])), occurrences_urlInfoRow (ht info (by simp)),
      List.map_cons, List.sum_cons, List.length_cons]
    omega

theorem occurrences_handlerRows {names : List (Bytes × Bytes)} (hp : ∀ m ∈ names, Plain m.1 ∧ Plain m.2) :
    occurrences rowTag (names.flatMap handlerRow) = names.length := by
  rw [occurrences_flatMap handlerRow_opens]
  induction names with
  | nil => rfl
  | cons m names ih =>
    rw [List.map_cons, List.sum_cons, ih (fun i hi => hp i (by simp [hi])),
      occurrences_handlerRow (hp m (by simp)).1 (hp m (by simp)).2, List.length_cons, Nat.add_comm]

/-- The row tags in the targets that the page shows. -/
def injectedRows (target : Bytes) (urlInfo : List URLInfo) : Nat :=
  occurrences rowTag target + (urlInfo.map (fun info => occurrences rowTag info.url)).sum

theorem occurrences_requestRows (target : Bytes) {now : Bytes} {urlInfo : List URLInfo} (hn : Plain now)
    (ht : ∀ info ∈ urlInfo, Plain info.reqTime) :
    occurrences rowTag (requestRows target now urlInfo).flatten = 1 + urlInfo.length + injectedRows target urlInfo := by
  rw [requestRows, List.flatten_cons, ← List.flatMap_def,
    occurrences_append_markup (opens_flatMap urlInfoRow_opens urlInfo.reverse), occurrences_statusRequestRow target hn,
    occurrences_urlInfoRows ht, injectedRows]
  omega

/-- One row for each header, entry and handler, and those the targets bring with them. -/
theorem occurrences_statusPage (target : Bytes) {now : Bytes} {urlInfo : List URLInfo} (size : Nat)
    {names : List (Bytes × Bytes)} (hn : Plain now) (ht : ∀ info ∈ urlInfo, Plain info.reqTime)
    (hp : ∀ m ∈ names, Plain m.1 ∧ Plain m.2) :
    occurrences rowTag (statusPage target now urlInfo size names) =
      3 + urlInfo.length + names.length + injectedRows target urlInfo := by
  have h₁ : occurrences rowTag pageHead = 0 := by decide +kernel
  have h₂ : occurrences rowTag pageRequests = 1 := by decide +kernel
  have h₃ : occurrences rowTag pageHandlers = 1 := by decide +kernel
  have h₄ : occurrences rowTag pageTail = 0 := by decide +kernel
  rw [statusPage_eq, occurrences_append_markup (by decide +kernel),
    occurrences_append_markup (opens_flatMap handlerRow_opens names), occurrences_handlerRows hp,
    occurrences_append_markup (by decide +kernel), occurrences_markup_append (by decide +kernel) (by decide +kernel),
    occurrences_requestRows target hn ht, occurrences_append_markup (by decide +kernel),
    occurrences_append_markup (opens_decimal _), occurrences_plain (plain_decimal _)]
  omega

/-- No target shown in the page holds a row tag. -/
theorem injectedRows_eq_zero_iff (target : Bytes) (urlInfo : List URLInfo) :
    injectedRows target urlInfo = 0 ↔ ¬ rowTag <:+: target ∧ ∀ info ∈ urlInfo, ¬ rowTag <:+: info.url := by
  have htag : rowTag ≠ [] := by decide
  rw [injectedRows, Nat.add_eq_zero_iff, occurrences_eq_zero_iff htag, List.sum_eq_zero_iff_forall_eq_nat]
  refine and_congr_right fun _ => ?_
  rw [List.forall_mem_map]
  exact forall₂_congr fun info _ => occurrences_eq_zero_iff htag

/-- The rows of a status page: two headers, the request, the log and the handlers, and one for each
row tag in a target; so exactly the former if no target holds the tag, and only then. -/
theorem status_page_rows {handler : RequestHandler} (hb : handler.behaviour = .status) {env : Environment}
    {log : SharedLog} {request : Request} (hn : Plain env.now) (ht : ∀ info ∈ log.urlInfo, Plain info.reqTime)
    (hp : ∀ m ∈ log.urlToHandlerName, Plain m.1 ∧ Plain m.2) :
    ∃ page, handler.handleRequest env log request = .ok page ∧
      occurrences rowTag page.body =
        3 + log.urlInfo.length + log.urlToHandlerName.length + injectedRows request.target log.urlInfo ∧
      (occurrences rowTag page.body = 3 + log.urlInfo.length + log.urlToHandlerName.length ↔
        ¬ rowTag <:+: request.target ∧ ∀ info ∈ log.urlInfo, ¬ rowTag <:+: info.url) := by
  refine ⟨_, RequestHandler.handleRequest_status hb env log request, ?_⟩
  rw [body_okResponse, occurrences_statusPage request.target log.urlInfo.length hn ht hp, ← injectedRows_eq_zero_iff]
  exact ⟨rfl, by omega⟩

def statusHandler : RequestHandler := ⟨ascii "Status", false, .status⟩

def statusRequest : Request := ⟨ascii "GET", ascii "/status", 11, [], []⟩

def noonEnvironment : Environment :=
  ⟨fun _ => [], fun _ => .missing, id, fun _ _ _ => ⟨false, false, false, .other, newResponse 0, .other⟩,
    ascii "2021-Jun-01 12:00:00"⟩

/-- The log after one request for a target that holds a row tag. -/
def taggedLog : SharedLog := ⟨[⟨ascii "/a<tr>", 404, ascii "2021-Jun-01 11:59:00"⟩], [(ascii "/status", ascii "StatusHandler")]⟩

/-- Six rows where there are two headers, one request, one entry and one handler. -/
theorem tagged_target_adds_row :
    ∃ page, statusHandler.handleRequest noonEnvironment taggedLog statusRequest = .ok page ∧
      occurrences rowTag page.body = 6 ∧ 3 + taggedLog.urlInfo.length + taggedLog.urlToHandlerName.length = 5 := by
  refine ⟨_, RequestHandler.handleRequest_status rfl _ _ _, ?_, rfl⟩
  rw [body_okResponse, occurrences_statusPage _ _ (by decide) (by decide) (by decide)]
  decide

/-- The log after a request for the start page. -/
def plainLog : SharedLog := ⟨[⟨ascii "/", 404, ascii "2021-Jun-01 11:59:00"⟩], [(ascii "/status", ascii "StatusHandler")]⟩

theorem plain_targets_five_rows :
    ∃ page, statusHandler.handleRequest noonEnvironment plainLog statusRequest = .ok page ∧
      occurrences rowTag page.body = 5 := by
  have hb : statusHandler.behaviour = .status := rfl
  have hn : Plain noonEnvironment.now := by decide
  have ht : ∀ info ∈ plainLog.urlInfo, Plain info.reqTime := by decide
  have hp : ∀ m ∈ plainLog.urlToHandlerName, Plain m.1 ∧ Plain m.2 := by decide
  obtain ⟨page, hpage, hcount, -⟩ : ∃ page, statusHandler.handleRequest noonEnvironment plainLog statusRequest = .ok page ∧
      _ ∧ _ := status_page_rows hb hn ht hp
  exact ⟨page, hpage, hcount⟩

end Koko.Handlers
