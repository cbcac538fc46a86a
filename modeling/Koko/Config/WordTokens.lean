import Koko.Config.Scanner
import Koko.Config.TokenValues

/-! No token of a tree that `Parse` leaves behind is empty. -/
namespace Koko.Config
open Koko.Lib Position Transducer

/-- The value collected at a context, if it has one, is not empty. -/
def Context.Filled : Context → Prop
  | gap => True
  | word value | comment value => value ≠ []
  | quoted _ value | escape _ value | backslash _ value | closing _ value => value ≠ []

theorem setLast_ne_nil (value : Bytes) (c : Byte) : setLast value c ≠ [] := by
  simp [setLast]

theorem removeQuotes_ne_nil {value : Bytes} (h : value ≠ []) (quote : Byte) : removeQuotes value quote ≠ [] := by
  unfold removeQuotes
  split_ifs with hq
  · apply List.ne_nil_of_length_pos
    rw [List.length_tail, List.length_dropLast]
    omega
  · exact h

/-- A step puts out tokens with a value, and goes on to a filled context. -/
abbrev FilledStep (stepped : List Token × Option Context) : Prop :=
  Keeps Context.Filled (fun t => t.2 ≠ []) stepped

private theorem filled_symbol (tt : TokenType) (c : Byte) : FilledStep ([(tt, [c])], some .gap) := by
  have hgap : FilledStep ([], some .gap) := keeps_silent trivial
  exact Keeps.cons hgap (List.cons_ne_nil c [])

private theorem filled_inGap (c : Byte) : FilledStep (Context.inGap c) := by
  have hc : [c] ≠ [] := List.cons_ne_nil c []
  unfold Context.inGap
  split_ifs
  · exact filled_symbol _ c
  · exact filled_symbol _ c
  · exact keeps_silent hc
  · exact keeps_silent hc
  · exact keeps_silent hc
  · exact filled_symbol _ c
  · exact keeps_silent trivial
  · exact keeps_silent hc

private theorem filled_inQuotes (quote : Quote) (value : Bytes) (c : Byte) :
    FilledStep (Context.inQuotes quote value c) := by
  have hc : value ++ [c] ≠ [] := by simp
  unfold Context.inQuotes
  split_ifs <;> exact keeps_silent hc

private theorem filled_step {context : Context} (h : context.Filled) (c : Byte) : FilledStep (context.step c) := by
  cases context with
  | gap => exact filled_inGap c
  | word value =>
    rw [Context.step]
    split_ifs
    · exact Keeps.cons (filled_inGap c) h
    · exact keeps_silent (by simp [Context.Filled])
  | comment value =>
    rw [Context.step]
    split_ifs
    · exact keeps_silent trivial
    · exact keeps_silent (by simp [Context.Filled])
  | quoted quote value => exact filled_inQuotes quote value c
  | escape quote value =>
    rw [Context.step]
    split_ifs
    · exact keeps_silent (setLast_ne_nil value c)
    · exact keeps_silent (setLast_ne_nil value c)
    · exact keeps_stop h
  | backslash quote value =>
    rw [Context.step]
    split_ifs
    · exact keeps_silent (setLast_ne_nil value c)
    · exact filled_inQuotes quote value c
  | closing quote value =>
    rw [Context.step]
    split_ifs
    · exact Keeps.cons (filled_inGap c) (removeQuotes_ne_nil h quote.byte)
    · exact keeps_stop h

theorem wordValues_ne_nil (text : Bytes) : [] ∉ wordValues (scanner.results .gap text) := by
  have hall : ∀ t ∈ scanner.results .gap text, t.1 = .normal → t.2 ≠ [] := by
    have hgap : Context.Filled .gap := trivial
    refine Transducer.forall_results (fun context c h => ?_) (fun context h => ?_) hgap text
    · obtain ⟨hout, hnext⟩ := filled_step h c
      exact ⟨fun t ht _ => hout t ht, hnext⟩
    · cases context <;> exact nofun
  intro hmem
  obtain ⟨t, ht, he⟩ := List.mem_map.mp hmem
  obtain ⟨ht, hn⟩ := List.mem_filter.mp ht
  exact hall t ht (of_decide_eq_true hn) he

/-- No token of a stream is an empty word, be the stream good or not. -/
theorem tokenSequence_ne_nil (input : Stream) : [] ∉ wordValues (tokenSequence input) := by
  cases hg : input.good with
  | false =>
    rw [tokenSequence_of_not_good hg]
    exact List.not_mem_nil
  | true =>
    rw [InputStream.eq_live_of_good hg, tokenSequence_eq_results]
    exact wordValues_ne_nil input.unread

/-- Whatever `Parse` returned, no statement at the top of the tree has an empty token. -/
theorem tokens_ne_nil_of_parse {input : Stream} {r : ParseResult} (h : parse input [] = some r)
    {s : NginxConfigStatement} (hs : s ∈ r.config) : [] ∉ s.tokens := by
  intro hmem
  obtain ⟨m, hp⟩ := parse_eq_run input []
  obtain rfl := Option.some.inj (h.symm.trans hp)
  obtain ⟨us, ⟨vs, hu⟩, -, hstored⟩ := stored_run (between [] [] .start) (tokenSequence input)
  have hword : [] ∈ wordValues us := by
    have hm := mem_stored_of_mem hs hmem
    rw [hstored] at hm
    exact hm
  apply tokenSequence_ne_nil input
  rw [← hu, wordValues_append]
  exact List.mem_append_left _ hword

end Koko.Config
