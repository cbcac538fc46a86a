import Koko.Config.Parser
import Koko.Lib.Transducer

/-! The tokenizer as a machine that reads every byte once. What the source learns by looking
ahead and putting back is kept in the context instead. -/
namespace Koko.Config
open Koko.Lib
open InputStream (live)

inductive Quote where
  | single | double
deriving DecidableEq

namespace Quote

def byte : Quote → Byte
  | single => chr '\''
  | double => chr '"'

def state : Quote → TokenParserState
  | single => .singleQuote
  | double => .doubleQuote

theorem quotedBy (quote : Quote) : QuotedBy quote.state quote.byte := by
  cases quote
  · exact .inl ⟨rfl, rfl⟩
  · exact .inr ⟨rfl, rfl⟩

end Quote

/-- Where in the text the scanner stands, and the value collected there: after a backslash of
a quoted word, after a second one, or behind the closing quote the next byte decides. -/
inductive Context where
  | gap
  | word (value : Bytes)
  | comment (value : Bytes)
  | quoted (quote : Quote) (value : Bytes)
  | escape (quote : Quote) (value : Bytes)
  | backslash (quote : Quote) (value : Bytes)
  | closing (quote : Quote) (value : Bytes)
deriving DecidableEq

namespace Context

def inGap (c : Byte) : List Token × Option Context :=
  if c = chr '{' then ([(.startBlock, [c])], some gap)
  else if c = chr '}' then ([(.endBlock, [c])], some gap)
  else if c = chr '#' then ([], some (comment [c]))
  else if c = chr '"' then ([], some (quoted .double [c]))
  else if c = chr '\'' then ([], some (quoted .single [c]))
  else if c = chr ';' then ([(.statementEnd, [c])], some gap)
  else if c = chr ' ' ∨ c = chr '\t' ∨ c = chr '\n' ∨ c = chr '\r' then ([], some gap)
  else ([], some (word [c]))

def inQuotes (quote : Quote) (value : Bytes) (c : Byte) : List Token × Option Context :=
  if c = chr '\\' then ([], some (escape quote (value ++ [c])))
  else if c = quote.byte then ([], some (closing quote (value ++ [c])))
  else ([], some (quoted quote (value ++ [c])))

def step : Context → Byte → List Token × Option Context
  | gap, c => inGap c
  | word value, c =>
    if endsWord c then ((.normal, value) :: (inGap c).1, (inGap c).2) else ([], some (word (value ++ [c])))
  | comment value, c =>
    if c = chr '\n' ∨ c = chr '\r' then ([], some gap) else ([], some (comment (value ++ [c])))
  | quoted quote value, c => inQuotes quote value c
  | escape quote value, c =>
    if c ∉ escapeChars then ([(.error, value)], none)
    else if c = chr '\\' then ([], some (backslash quote (setLast value c)))
    else ([], some (quoted quote (setLast value c)))
  | backslash quote value, c =>
    if c = quote.byte then ([], some (quoted quote (setLast value c))) else inQuotes quote value c
  | closing quote value, c =>
    if isSpace c ∨ c = chr ';' then ((.normal, removeQuotes value quote.byte) :: (inGap c).1, (inGap c).2)
    else ([(.error, value)], none)

def atEnd : Context → Token
  | gap => (.eof, [])
  | word value | comment value => (.eof, value)
  | quoted _ value | escape _ value | backslash _ value | closing _ value => (.error, value)

end Context

/-- The tokens of a text, comments left out. -/
def scanner : Transducer Context Byte Token := ⟨Context.step, Context.atEnd⟩

/-- What is left to do of the call in progress at a context. -/
def resume : Context → Stream → Lexed
  | .gap, input => parseToken input []
  | .word value, input => parseTokenLoop .normal value input
  | .comment value, input => parseTokenLoop .comment value input
  | .quoted quote value, input => parseTokenLoop quote.state value input
  | .escape quote value, input =>
    let r := consumeEscapeChar input value quote.byte
    if r.1 ≠ "" then (.error, r.2.1, r.2.2) else parseTokenLoop quote.state r.2.1 r.2.2
  | .backslash quote value, input =>
    if input.peek.1 = some quote.byte then
      parseTokenLoop quote.state (setLast value quote.byte) input.peek.2.get.2
    else parseTokenLoop quote.state value input.peek.2
  | .closing quote value, input => closeQuote quote.byte value input

/-- The tokens from a call's outcome on. -/
def tokensFrom (lexed : Lexed) : List Token :=
  if lexed.1 = .eof ∨ lexed.1 = .error then [(lexed.1, lexed.2.1)]
  else if lexed.1 = .comment then tokenSequence lexed.2.2
  else (lexed.1, lexed.2.1) :: tokenSequence lexed.2.2

theorem tokenSequence_eq_tokensFrom (input : Stream) : tokenSequence input = tokensFrom (parseToken input []) := by
  rcases h : parseToken input [] with ⟨tt, v, rest⟩
  unfold tokensFrom
  split_ifs with hs hc
  · rw [tokenSequence_of_stop (by rwa [h]), h]
  · rw [tokenSequence_of_token h (fun he => hs (.inl he)) (fun he => hs (.inr he)), if_pos hc]
  · rw [tokenSequence_of_token h (fun he => hs (.inl he)) (fun he => hs (.inr he)), if_neg hc]

theorem tokensFrom_comment (value : Bytes) (rest : Stream) :
    tokensFrom (.comment, value, rest) = tokensFrom (resume .gap rest) := by
  rw [resume, ← tokenSequence_eq_tokensFrom]
  rfl

theorem tokensFrom_token {tt : TokenType} (he : tt ≠ .eof) (hr : tt ≠ .error) (hc : tt ≠ .comment) (value : Bytes)
    (rest : Stream) : tokensFrom (tt, value, rest) = (tt, value) :: tokensFrom (resume .gap rest) := by
  rw [resume, ← tokenSequence_eq_tokensFrom]
  simp [tokensFrom, he, hr, hc]

/-- The tokens of one step of the scanner, and those of the source from there on. -/
def tokensAfter (stepped : List Token × Option Context) (input : Stream) : List Token :=
  match stepped with
  | (out, none) => out
  | (out, some context) => out ++ tokensFrom (resume context input)

section Steps
variable (past rest value : Bytes) (c : Byte) (quote : Quote)

private theorem after_gap :
    tokensFrom (resume .gap (live past (c :: rest))) = tokensAfter (Context.inGap c) (live (c :: past) rest) := by
  rw [resume, parseToken, loop_initialWhitespace, Context.inGap]
  by_cases h₁ : c = chr '{'
  · rw [if_pos h₁, if_pos h₁]
    exact tokensFrom_token (by simp) (by simp) (by simp) _ _
  rw [if_neg h₁, if_neg h₁]
  by_cases h₂ : c = chr '}'
  · rw [if_pos h₂, if_pos h₂]
    exact tokensFrom_token (by simp) (by simp) (by simp) _ _
  rw [if_neg h₂, if_neg h₂]
  by_cases h₃ : c = chr '#'
  · rw [if_pos h₃, if_pos h₃]
    rfl
  rw [if_neg h₃, if_neg h₃]
  by_cases h₄ : c = chr '"'
  · rw [if_pos h₄, if_pos h₄]
    rfl
  rw [if_neg h₄, if_neg h₄]
  by_cases h₅ : c = chr '\''
  · rw [if_pos h₅, if_pos h₅]
    rfl
  rw [if_neg h₅, if_neg h₅]
  by_cases h₆ : c = chr ';'
  · rw [if_pos h₆, if_pos h₆]
    exact tokensFrom_token (by simp) (by simp) (by simp) _ _
  rw [if_neg h₆, if_neg h₆]
  by_cases h₇ : c = chr ' ' ∨ c = chr '\t' ∨ c = chr '\n' ∨ c = chr '\r'
  · rw [if_pos h₇, if_pos h₇]
    rfl
  rw [if_neg h₇, if_neg h₇]
  rfl

private theorem after_word :
    tokensFrom (resume (.word value) (live past (c :: rest))) =
      tokensAfter (Context.step (.word value) c) (live (c :: past) rest) := by
  rw [resume, loop_normal, Context.step]
  split_ifs
  · rw [tokensFrom_token (by simp) (by simp) (by simp), after_gap]
    cases hg : Context.inGap c with
    | mk out next => cases next <;> rfl
  · rfl

private theorem after_comment :
    tokensFrom (resume (.comment value) (live past (c :: rest))) =
      tokensAfter (Context.step (.comment value) c) (live (c :: past) rest) := by
  rw [resume, loop_comment, Context.step]
  split_ifs
  · exact tokensFrom_comment _ _
  · rfl

private theorem after_quoted :
    tokensFrom (resume (.quoted quote value) (live past (c :: rest))) =
      tokensAfter (Context.inQuotes quote value c) (live (c :: past) rest) := by
  rw [resume, loop_quoted past rest value c quote.quotedBy]
  unfold Context.inQuotes
  split_ifs
  · rfl
  · rfl
  · rfl

private theorem after_escape :
    tokensFrom (resume (.escape quote value) (live past (c :: rest))) =
      tokensAfter (Context.step (.escape quote value) c) (live (c :: past) rest) := by
  have hq : quote.byte = chr '\'' ∨ quote.byte = chr '"' := quote.quotedBy.imp And.right And.right
  rw [resume, Context.step]
  by_cases he : c ∈ escapeChars
  · by_cases hb : c = chr '\\'
    · subst hb
      cases rest with
      | nil => simp [consumeEscapeChar, hq, peekedChar, he, tokensAfter, resume]
      | cons d rest =>
        by_cases hd : d = quote.byte
        · simp [consumeEscapeChar, hq, peekedChar, he, hd, tokensAfter, resume]
        · simp [consumeEscapeChar, hq, peekedChar, he, hd, tokensAfter, resume]
    · simp [consumeEscapeChar, hq, peekedChar, he, hb, tokensAfter, resume]
  · simp [consumeEscapeChar, hq, peekedChar, he, tokensAfter, tokensFrom]

private theorem after_backslash :
    tokensFrom (resume (.backslash quote value) (live past (c :: rest))) =
      tokensAfter (Context.step (.backslash quote value) c) (live (c :: past) rest) := by
  rw [resume, Context.step, InputStream.peek_live_cons]
  by_cases hc : c = quote.byte
  · rw [if_pos (congrArg some hc), if_pos hc, hc]
    rfl
  · rw [if_neg (fun h => hc (Option.some.inj h)), if_neg hc]
    exact after_quoted past rest value c quote

private theorem after_closing :
    tokensFrom (resume (.closing quote value) (live past (c :: rest))) =
      tokensAfter (Context.step (.closing quote value) c) (live (c :: past) rest) := by
  rw [resume, Context.step, closeQuote, InputStream.peek_live_cons]
  change tokensFrom (if isSpace c ∨ c = chr ';' then _ else _) = _
  split_ifs
  · rw [tokensFrom_token (by simp) (by simp) (by simp), after_gap]
    cases hg : Context.inGap c with
    | mk out next => cases next <;> rfl
  · rfl

/-- One byte of the source's tokenizer is one step of the scanner. -/
theorem tokensFrom_resume_cons (context : Context) :
    tokensFrom (resume context (live past (c :: rest))) = tokensAfter (context.step c) (live (c :: past) rest) := by
  cases context with
  | gap => exact after_gap past rest c
  | word value => exact after_word past rest value c
  | comment value => exact after_comment past rest value c
  | quoted quote value => exact after_quoted past rest value c quote
  | escape quote value => exact after_escape past rest value c quote
  | backslash quote value => exact after_backslash past rest value c quote
  | closing quote value => exact after_closing past rest value c quote

end Steps

private theorem tokensFrom_resume_nil (past : Bytes) (context : Context) :
    tokensFrom (resume context (live past [])) = [context.atEnd] := by
  cases context with
  | gap => simp [resume, parseToken, endOfInput, tokensFrom, Context.atEnd]
  | word value => simp [resume, endOfInput, tokensFrom, Context.atEnd]
  | comment value => simp [resume, endOfInput, tokensFrom, Context.atEnd]
  | quoted quote value => cases quote <;> simp [resume, endOfInput, tokensFrom, Context.atEnd, Quote.state]
  | escape quote value =>
    cases quote <;>
      simp [resume, consumeEscapeChar, peekedChar, escapeChars, ascii, chr, tokensFrom, Context.atEnd, Quote.byte]
  | backslash quote value =>
    have h : (InputStream.mk past [] true false : Stream).good = false := rfl
    cases quote <;>
      simp [resume, loop_stopped _ _ h, endOfInput, tokensFrom, Context.atEnd, Quote.state]
  | closing quote value => simp [resume, closeQuote, peekedChar, isSpace, chr, tokensFrom, Context.atEnd]

/-- From any context on the source finds the tokens the scanner puts out. -/
theorem tokensFrom_resume (past : Bytes) (context : Context) (text : Bytes) :
    tokensFrom (resume context (live past text)) = scanner.results context text := by
  induction text generalizing past context with
  | nil => exact tokensFrom_resume_nil past context
  | cons c text ih =>
    rw [tokensFrom_resume_cons]
    rcases hs : context.step c with ⟨out, next⟩
    have hstep : scanner.step context c = (out, next) := hs
    cases next with
    | none => rw [Transducer.results_cons_stop hstep, tokensAfter]
    | some next => rw [Transducer.results_cons_go hstep, tokensAfter, ih]

/-- The token sequence of a stream is what the scanner puts out for its unread text. -/
theorem tokenSequence_eq_results (past text : Bytes) :
    tokenSequence (live past text) = scanner.results .gap text := by
  rw [tokenSequence_eq_tokensFrom]
  exact tokensFrom_resume past .gap text

/-- A stream on which a read has failed holds no token. -/
theorem tokenSequence_of_not_good {input : Stream} (h : input.good = false) : tokenSequence input = [(.eof, [])] := by
  rw [tokenSequence_eq_tokensFrom, parseToken, loop_stopped _ _ h]
  rfl

end Koko.Config
