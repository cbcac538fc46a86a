import Koko.Config.Scanner
import Koko.Config.Writer

/-! The values a token can have: every nonempty value can be quoted unless it ends in a backslash,
which only a bare word can. -/
namespace Koko.Config
open Koko.Lib Transducer
open InputStream (live)

/-- The bytes that begin a bare word: no delimiter, quote, comment sign or white space. -/
def startsWord (c : Byte) : Bool :=
  ¬ (endsWord c ∨ c = chr '#' ∨ c = chr '"' ∨ c = chr '\'' ∨ c = chr '\r')

/-- A value that can stand without quotes. -/
def Bare (v : Bytes) : Prop :=
  (∃ c ∈ v.head?, startsWord c = true) ∧ ∀ c ∈ v, endsWord c = false

/-- The text, ended by a semicolon, is read as one word with this value up to the semicolon. -/
def Spells (text v : Bytes) : Prop :=
  (parseToken (.ofList (text ++ ascii ";")) []).1 = .normal ∧
    (parseToken (.ofList (text ++ ascii ";")) []).2.1 = v ∧
    (parseToken (.ofList (text ++ ascii ";")) []).2.2.unread = ascii ";"

/-- Bare, or without a backslash at the end. -/
def Spellable (v : Bytes) : Prop := v.getLast? ≠ some (chr '\\') ∨ Bare v

/-- What is known of the value collected at a context. -/
def Context.Spelling : Context → Prop
  | gap | comment _ => True
  | word value => Bare value
  | quoted quote value => value.head? = some quote.byte ∧ value.getLast? ≠ some (chr '\\')
  | escape quote value | backslash quote value => value.dropLast.head? = some quote.byte
  | closing quote value =>
    ∃ inner, value = inner ++ [quote.byte] ∧ inner.head? = some quote.byte ∧ inner.getLast? ≠ some (chr '\\')

/-- A step puts out words that can be spelled and goes on to such a context. -/
abbrev SpellingStep (stepped : List Token × Option Context) : Prop :=
  Keeps Context.Spelling (fun t => t.1 = .normal → Spellable t.2) stepped

theorem bare_singleton {c : Byte} (h : startsWord c = true) : Bare [c] := by
  refine ⟨⟨c, rfl, h⟩, fun d hd => ?_⟩
  rw [List.mem_singleton.mp hd]
  simp only [startsWord, not_or, decide_eq_true_eq] at h
  exact Bool.eq_false_iff.mpr h.1

theorem Bare.concat {v : Bytes} (h : Bare v) {c : Byte} (hc : endsWord c = false) : Bare (v ++ [c]) := by
  obtain ⟨⟨d, hd, hs⟩, hall⟩ := h
  refine ⟨⟨d, ?_, hs⟩, fun b hb => ?_⟩
  · rw [List.head?_append, Option.mem_def.mp hd]
    rfl
  · rcases List.mem_append.mp hb with hb | hb
    · exact hall b hb
    · rw [List.mem_singleton.mp hb]
      exact hc

private theorem spelling_symbol {tt : TokenType} (h : tt ≠ .normal) (c : Byte) : SpellingStep ([(tt, [c])], some .gap) := by
  have hgap : SpellingStep ([], some .gap) := keeps_silent trivial
  exact Keeps.cons hgap (fun ht => absurd ht h)

private theorem quote_ne_backslash (quote : Quote) : quote.byte ≠ chr '\\' := by
  cases quote <;> decide

private theorem spelling_open (quote : Quote) {c : Byte} (h : c = quote.byte) :
    SpellingStep ([], some (.quoted quote [c])) := by
  subst h
  refine keeps_silent ⟨rfl, fun he => ?_⟩
  exact quote_ne_backslash quote (Option.some.inj he)

private theorem spelling_inGap (c : Byte) : SpellingStep (Context.inGap c) := by
  unfold Context.inGap
  split_ifs with h₁ h₂ h₃ h₄ h₅ h₆ h₇
  · exact spelling_symbol (by decide) c
  · exact spelling_symbol (by decide) c
  · exact keeps_silent trivial
  · exact spelling_open .double h₄
  · exact spelling_open .single h₅
  · exact spelling_symbol (by decide) c
  · exact keeps_silent trivial
  · refine keeps_silent (bare_singleton ?_)
    simp only [not_or] at h₇
    simp [startsWord, endsWord, h₁, h₂, h₃, h₄, h₅, h₆, h₇]

/-- Inside quotes the value begins with the quote; where it ends in a backslash the quote does
not close it. -/
private theorem spelling_inQuotes {quote : Quote} {value : Bytes} (hv : value.head? = some quote.byte) {c : Byte}
    (hc : c = quote.byte → value.getLast? ≠ some (chr '\\')) : SpellingStep (Context.inQuotes quote value c) := by
  have hhead : (value ++ [c]).head? = some quote.byte := by
    rw [List.head?_append, hv]
    rfl
  unfold Context.inQuotes
  split_ifs with hb hq
  · refine keeps_silent ?_
    rw [Context.Spelling, List.dropLast_concat]
    exact hv
  · refine keeps_silent ⟨value, by rw [hq], hv, hc hq⟩
  · refine keeps_silent ⟨hhead, fun he => hb ?_⟩
    rw [List.getLast?_concat] at he
    exact Option.some.inj he

private theorem head?_of_dropLast {value : Bytes} {q : Byte} (h : value.dropLast.head? = some q) :
    value.head? = some q := by
  obtain ⟨rest, hrest⟩ := List.dropLast_prefix value
  rw [← hrest, List.head?_append, h]
  rfl

private theorem head?_setLast {value : Bytes} {q : Byte} (h : value.dropLast.head? = some q) (c : Byte) :
    (setLast value c).head? = some q := by
  rw [setLast, List.head?_append, h]
  rfl

/-- Stripping the quotes leaves what was inside, or two quotes. -/
private theorem removeQuotes_inner {inner : Bytes} {q : Byte} (hq : q ≠ chr '\\') (hh : inner.head? = some q)
    (hl : inner.getLast? ≠ some (chr '\\')) : (removeQuotes (inner ++ [q]) q).getLast? ≠ some (chr '\\') := by
  obtain ⟨rest, rfl⟩ : ∃ rest, inner = q :: rest := ⟨inner.tail, (List.cons_head?_tail hh).symm⟩
  unfold removeQuotes
  split_ifs
  · rw [List.dropLast_concat, List.tail_cons]
    intro he
    apply hl
    rw [List.getLast?_cons, he]
    rfl
  · rw [List.getLast?_concat]
    exact fun he => hq (Option.some.inj he)

private theorem spelling_step {context : Context} (h : context.Spelling) (c : Byte) :
    SpellingStep (context.step c) := by
  cases context with
  | gap => exact spelling_inGap c
  | word value =>
    rw [Context.step]
    split_ifs with he
    · exact Keeps.cons (spelling_inGap c) (fun _ => .inr h)
    · exact keeps_silent (Bare.concat h (Bool.eq_false_iff.mpr he))
  | comment value =>
    rw [Context.step]
    split_ifs
    · exact keeps_silent trivial
    · exact keeps_silent trivial
  | quoted quote value => exact spelling_inQuotes h.1 (fun _ => h.2)
  | escape quote value =>
    rw [Context.step]
    split_ifs with he hb
    · refine keeps_silent ?_
      rw [Context.Spelling, setLast, List.dropLast_concat]
      exact h
    · refine keeps_silent ⟨head?_setLast h c, fun hl => hb ?_⟩
      rw [setLast, List.getLast?_concat] at hl
      exact Option.some.inj hl
    · exact keeps_stop (fun he => absurd he TokenType.noConfusion)
  | backslash quote value =>
    rw [Context.step]
    split_ifs with hq
    · refine keeps_silent ⟨head?_setLast h c, fun hl => ?_⟩
      rw [setLast, List.getLast?_concat, hq] at hl
      exact quote_ne_backslash quote (Option.some.inj hl)
    · exact spelling_inQuotes (head?_of_dropLast h) (fun hc => absurd hc hq)
  | closing quote value =>
    obtain ⟨inner, rfl, hh, hl⟩ := h
    rw [Context.step]
    split_ifs
    · exact Keeps.cons (spelling_inGap c) (fun _ => .inl (removeQuotes_inner (quote_ne_backslash quote) hh hl))
    · exact keeps_stop (fun he => absurd he TokenType.noConfusion)

/-- A word that `ParseToken` returns is bare or does not end in a backslash. -/
theorem spellable_of_normal {past text : Bytes} (h : (parseToken (live past text) []).1 = .normal) :
    Spellable (parseToken (live past text) []).2.1 := by
  rcases hread : parseToken (live past text) [] with ⟨tt, v, rest⟩
  obtain rfl : tt = .normal := by rwa [hread] at h
  have hmem : (TokenType.normal, v) ∈ scanner.results .gap text := by
    rw [← tokenSequence_eq_results past, tokenSequence_eq_tokensFrom, hread,
      tokensFrom_token (by decide) (by decide) (by decide)]
    exact List.mem_cons_self
  have hall : ∀ t ∈ scanner.results .gap text, t.1 = .normal → Spellable t.2 := by
    have hstep : ∀ context c, context.Spelling → SpellingStep (scanner.step context c) :=
      fun _ c hc => spelling_step hc c
    have hgap : Context.Spelling .gap := trivial
    refine forall_results hstep (fun context _ => ?_) hgap text
    cases context <;> exact nofun
  exact hall _ hmem rfl

/-- A bare value is read up to the semicolon behind it. -/
theorem loop_normal_bare (past value : Bytes) {v : Bytes} (hv : ∀ c ∈ v, endsWord c = false) (rest : Bytes) :
    parseTokenLoop .normal value (live past (v ++ chr ';' :: rest)) =
      (.normal, value ++ v, live (v.reverse ++ past) (chr ';' :: rest)) := by
  induction v generalizing past value with
  | nil =>
    rw [List.nil_append, loop_normal, if_pos (by decide), List.append_nil]
    rfl
  | cons c v ih =>
    rw [List.cons_append, loop_normal, if_neg (by simp [hv c]), ih _ _ (fun d hd => hv d (by simp [hd]))]
    simp

theorem spells_bare {v : Bytes} (h : Bare v) : Spells v v := by
  obtain ⟨⟨c, hc, hs⟩, hall⟩ := h
  obtain ⟨rest, rfl⟩ : ∃ rest, v = c :: rest := ⟨v.tail, (List.cons_head?_tail hc).symm⟩
  have hread : parseToken (.ofList (c :: rest ++ ascii ";")) [] =
      (.normal, c :: rest, live (rest.reverse ++ [c]) (ascii ";")) := by
    simp only [startsWord, endsWord, not_or, decide_eq_true_eq] at hs
    obtain ⟨⟨h₁, h₂, h₃, h₄, h₅, h₆⟩, h₇, h₈, h₉, h₁₀⟩ := hs
    rw [parseToken, InputStream.ofList, List.cons_append, loop_initialWhitespace, if_neg h₅, if_neg h₆, if_neg h₇,
      if_neg h₈, if_neg h₉, if_neg h₄, if_neg (by simp [h₁, h₂, h₃, h₁₀])]
    exact loop_normal_bare [c] [c] (fun d hd => hall d (by simp [hd])) []
  exact ⟨by rw [hread], by rw [hread], by rw [hread]⟩

theorem spells_quoted {v : Bytes} (h : WritableToken v) : Spells (writeToken (chr '"') v) v := by
  have hread := parseToken_writeToken (.inr rfl) h (.inr rfl) [] []
  exact ⟨congrArg (·.1) hread, congrArg (·.2.1) hread, congrArg (·.2.2.unread) hread⟩

/-- A nonempty value can be written if it does not end in a backslash or is a bare word, and
only then. -/
theorem value_spelled_iff {v : Bytes} (hv : v ≠ []) :
    (∃ text, Spells text v) ↔ v.getLast? ≠ some (chr '\\') ∨ Bare v := by
  constructor
  · rintro ⟨text, htype, hvalue, -⟩
    have hs := spellable_of_normal htype
    rwa [show (parseToken (live [] (text ++ ascii ";")) []).2.1 = v from hvalue] at hs
  · rintro (hl | hb)
    · exact ⟨_, spells_quoted ⟨hv, hl⟩⟩
    · exact ⟨v, spells_bare hb⟩

/-- Two words and a backslash cannot be written: a quote behind the backslash would be taken into
the value. -/
theorem spaced_backslash_not_spelled : ¬ ∃ text, Spells text (ascii "a b\\") := by
  rintro ⟨text, htype, hvalue, -⟩
  have hs := spellable_of_normal htype
  rw [show (parseToken (live [] (text ++ ascii ";")) []).2.1 = ascii "a b\\" from hvalue] at hs
  rcases hs with hl | hb
  · exact hl (by decide)
  · exact absurd (hb.2 (chr ' ') (by decide)) (by decide)

/-- A path with a backslash at its end is written without quotes. -/
theorem bare_backslash_spelled : ∃ text, Spells text (ascii "c:\\dir\\") :=
  (value_spelled_iff (by decide)).2 (.inr ⟨⟨chr 'c', rfl, by decide +kernel⟩, by decide +kernel⟩)

end Koko.Config
