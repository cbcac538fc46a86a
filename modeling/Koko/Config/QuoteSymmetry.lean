import Koko.Config.Scanner
import Koko.Config.TokenValues

/-! The two quote characters are interchangeable: a text with single and double quotes
swapped is parsed as the text itself is, with the quotes swapped in every token. -/
namespace Koko.Config
open Koko.Lib
open InputStream (live)

def swapQuote (c : Byte) : Byte :=
  if c = chr '\'' then chr '"' else if c = chr '"' then chr '\'' else c

def swapQuotes (text : Bytes) : Bytes := text.map swapQuote

private theorem swapQuote_cases (c : Byte) :
    (c = chr '\'' ∧ swapQuote c = chr '"') ∨ (c = chr '"' ∧ swapQuote c = chr '\'') ∨
      (c ≠ chr '\'' ∧ c ≠ chr '"' ∧ swapQuote c = c) := by
  unfold swapQuote
  split_ifs with h₁ h₂
  · exact .inl ⟨h₁, rfl⟩
  · exact .inr (.inl ⟨h₂, rfl⟩)
  · exact .inr (.inr ⟨h₁, h₂, rfl⟩)

@[simp] theorem swapQuote_swapQuote (c : Byte) : swapQuote (swapQuote c) = c := by
  rcases swapQuote_cases c with ⟨rfl, h⟩ | ⟨rfl, h⟩ | ⟨-, -, h⟩
  · rw [h]
    decide
  · rw [h]
    decide
  · rw [h, h]

theorem swapQuote_eq_iff {c d : Byte} : swapQuote c = d ↔ c = swapQuote d := by
  constructor
  · rintro rfl
    exact (swapQuote_swapQuote c).symm
  · rintro rfl
    exact swapQuote_swapQuote d

/-- Bytes other than the quotes are recognised under the swap. -/
theorem swapQuote_eq_of_fixed {d : Byte} (hd : swapQuote d = d) (c : Byte) : swapQuote c = d ↔ c = d := by
  rw [swapQuote_eq_iff, hd]

/-- What does not tell the two quotes apart does not see the swap. -/
theorem swapQuote_unseen {α : Type} {p : Byte → α} (h : p (chr '\'') = p (chr '"')) (c : Byte) :
    p (swapQuote c) = p c := by
  rcases swapQuote_cases c with ⟨rfl, hs⟩ | ⟨rfl, hs⟩ | ⟨-, -, hs⟩
  · rw [hs, h]
  · rw [hs, h]
  · rw [hs]

theorem isSpace_swapQuote (c : Byte) : isSpace (swapQuote c) = isSpace c := swapQuote_unseen (by decide) c

theorem endsWord_swapQuote (c : Byte) : endsWord (swapQuote c) = endsWord c := swapQuote_unseen (by decide) c

theorem swapQuote_mem_escapeChars (c : Byte) : swapQuote c ∈ escapeChars ↔ c ∈ escapeChars := by
  have h : (chr '\'' ∈ escapeChars) = (chr '"' ∈ escapeChars) := propext (by decide)
  rw [swapQuote_unseen h]

@[simp] theorem swapQuotes_append (a b : Bytes) : swapQuotes (a ++ b) = swapQuotes a ++ swapQuotes b := List.map_append

@[simp] theorem swapQuotes_singleton (c : Byte) : swapQuotes [c] = [swapQuote c] := rfl

theorem swapQuotes_setLast (value : Bytes) (c : Byte) :
    setLast (swapQuotes value) (swapQuote c) = swapQuotes (setLast value c) := by
  simp [setLast, swapQuotes, List.map_dropLast]

theorem swapQuotes_removeQuotes (value : Bytes) (quote : Byte) :
    removeQuotes (swapQuotes value) (swapQuote quote) = swapQuotes (removeQuotes value quote) := by
  have hinj : ∀ o : Option Byte, o.map swapQuote = some (swapQuote quote) ↔ o = some quote := by
    intro o
    cases o with
    | none => simp
    | some b => simp [swapQuote_eq_iff]
  unfold removeQuotes swapQuotes
  simp only [List.length_map, List.head?_map, List.getLast?_map, hinj]
  split_ifs
  · rw [List.map_tail, List.map_dropLast]
  · rfl

def Quote.swap : Quote → Quote
  | .single => .double
  | .double => .single

theorem Quote.byte_swap (quote : Quote) : quote.swap.byte = swapQuote quote.byte := by
  cases quote <;> decide

namespace Context

def swap : Context → Context
  | gap => gap
  | word value => word (swapQuotes value)
  | comment value => comment (swapQuotes value)
  | quoted quote value => quoted quote.swap (swapQuotes value)
  | escape quote value => escape quote.swap (swapQuotes value)
  | backslash quote value => backslash quote.swap (swapQuotes value)
  | closing quote value => closing quote.swap (swapQuotes value)

/-- The outcome of a step with the quotes swapped. -/
def swapStep (stepped : List Token × Option Context) : List Token × Option Context :=
  (stepped.1.map (Token.map swapQuotes), stepped.2.map swap)

private theorem inGap_swap (c : Byte) : inGap (swapQuote c) = swapStep (inGap c) := by
  rcases swapQuote_cases c with ⟨rfl, h⟩ | ⟨rfl, h⟩ | ⟨h₁, h₂, h⟩
  · rw [h]
    rfl
  · rw [h]
    rfl
  · rw [h]
    have hc : swapQuotes [c] = [c] := by rw [swapQuotes_singleton, h]
    unfold inGap
    split_ifs <;> simp [swapStep, Token.map, swap, hc]

private theorem inQuotes_swap (quote : Quote) (value : Bytes) (c : Byte) :
    inQuotes quote.swap (swapQuotes value) (swapQuote c) = swapStep (inQuotes quote value c) := by
  have hbyte : swapQuote c = swapQuote quote.byte ↔ c = quote.byte := by
    rw [swapQuote_eq_iff, swapQuote_swapQuote]
  unfold inQuotes
  rw [Quote.byte_swap]
  simp only [swapQuote_eq_of_fixed (d := chr '\\') (by decide), hbyte]
  split_ifs <;> simp [swapStep, swap]

private theorem before_inGap_swap (t : Token) (c : Byte) :
    (t.map swapQuotes :: (inGap (swapQuote c)).1, (inGap (swapQuote c)).2) =
      swapStep (t :: (inGap c).1, (inGap c).2) := by
  rw [inGap_swap]
  rfl

/-- Every step of the scanner respects the swap. -/
theorem step_swap (context : Context) (c : Byte) :
    context.swap.step (swapQuote c) = swapStep (context.step c) := by
  cases context with
  | gap => exact inGap_swap c
  | word value =>
    simp only [swap, step, endsWord_swapQuote]
    split_ifs
    · exact before_inGap_swap (.normal, value) c
    · simp [swapStep, swap]
  | comment value =>
    simp only [swap, step, swapQuote_eq_of_fixed (d := chr '\n') (by decide),
      swapQuote_eq_of_fixed (d := chr '\r') (by decide)]
    split_ifs
    · rfl
    · simp [swapStep, swap]
  | quoted quote value => exact inQuotes_swap quote value c
  | escape quote value =>
    simp only [swap, step, swapQuote_mem_escapeChars, swapQuote_eq_of_fixed (d := chr '\\') (by decide),
      swapQuotes_setLast]
    split_ifs <;> rfl
  | backslash quote value =>
    have hbyte : swapQuote c = quote.swap.byte ↔ c = quote.byte := by
      rw [Quote.byte_swap, swapQuote_eq_iff, swapQuote_swapQuote]
    simp only [swap, step, hbyte, swapQuotes_setLast]
    split_ifs
    · rfl
    · exact inQuotes_swap quote value c
  | closing quote value =>
    simp only [swap, step, isSpace_swapQuote, swapQuote_eq_of_fixed (d := chr ';') (by decide), Quote.byte_swap,
      swapQuotes_removeQuotes]
    split_ifs
    · exact before_inGap_swap (.normal, removeQuotes value quote.byte) c
    · rfl

theorem atEnd_swap (context : Context) : context.swap.atEnd = context.atEnd.map swapQuotes := by
  cases context <;> rfl

end Context

/-- The tokens of a swapped stream are the tokens of the stream, swapped. -/
theorem tokenSequence_swapQuotes (input : Stream) :
    tokenSequence (input.map swapQuote) = (tokenSequence input).map (Token.map swapQuotes) := by
  cases hg : input.good with
  | false =>
    have hg' : (input.map swapQuote).good = false := hg
    rw [tokenSequence_of_not_good hg, tokenSequence_of_not_good hg']
    rfl
  | true =>
    rw [InputStream.eq_live_of_good hg]
    have hmap : (live input.past input.unread).map swapQuote =
        live (input.past.map swapQuote) (input.unread.map swapQuote) := rfl
    rw [hmap, tokenSequence_eq_results, tokenSequence_eq_results]
    exact scanner.results_map Context.step_swap Context.atEnd_swap .gap input.unread

/-- `Parse` accepts a stream with its quotes swapped iff it accepts the stream, and builds the
same tree with the quotes swapped in every token, on acceptance and on rejection. -/
theorem parse_swapQuotes (input : Stream) (c : NginxConfig) :
    ∃ r r', parse input c = some r ∧ parse (input.map swapQuote) (mapTokens swapQuotes c) = some r' ∧
      r'.returned = r.returned ∧ r'.config = mapTokens swapQuotes r.config :=
  parse_mapTokens swapQuotes (tokenSequence_swapQuotes input) c

end Koko.Config
