import Koko.Lib.Bytes
import Koko.Lib.InputStream

/-! The tokenizer of the configuration parser: `ParseToken` and its two helpers,
character by character, on a stream with read, look-ahead and put-back. -/
namespace Koko.Config
open Koko.Lib
open InputStream (live)

inductive TokenType where
  | start | normal | startBlock | endBlock | comment | statementEnd | eof | error
deriving DecidableEq, Repr

inductive TokenParserState where
  | initialWhitespace | singleQuote | doubleQuote | comment | normal
deriving DecidableEq, Repr

abbrev Stream := InputStream Byte

/-- What one call returns: the type, the value it filled in, the stream it left. -/
abbrev Lexed := TokenType × Bytes × Stream

def escapeChars : Bytes := ascii "abfnrtv'\"?\\"

/-- A look-ahead stored in a `char`; end of file becomes the byte 0xff. -/
def peekedChar : Option Byte → Byte := (·.getD 255)

/-- Overwrite the last byte of a nonempty value. -/
def setLast (value : Bytes) (c : Byte) : Bytes := value.dropLast ++ [c]

/-- The returned text is empty on success and an error message otherwise. -/
def consumeEscapeChar (input : Stream) (value : Bytes) (quote : Byte) : String × Bytes × Stream :=
  if ¬ (quote = chr '\'' ∨ quote = chr '"') then
    ("string cannot be quoted with given quote in the config", value, input)
  else
    let (next, input) := input.peek
    let peeked := peekedChar next
    if peeked ∉ escapeChars then ("non-escape char following \\ in config", value, input)
    else
      let (_, input) := input.get
      let value := setLast value peeked
      if peeked = chr '\\' then
        let (next, input) := input.peek
        if next = some quote then
          let (_, input) := input.get
          ("", setLast value quote, input)
        else ("", value, input)
      else ("", value, input)

/-- Strip one quote at each end of a value longer than two bytes. -/
def removeQuotes (value : Bytes) (quote : Byte) : Bytes :=
  if 2 < value.length ∧ value.head? = some quote ∧ value.getLast? = some quote then
    value.dropLast.tail
  else value

/-- The token loop was left because the stream ran out. -/
def endOfInput (state : TokenParserState) (value : Bytes) (input : Stream) : Lexed :=
  if state = .singleQuote ∨ state = .doubleQuote then (.error, value, input)
  else (.eof, value, input)

/-- The bytes that end a bare word. -/
def endsWord (c : Byte) : Bool :=
  c = chr ' ' ∨ c = chr '\t' ∨ c = chr '\n' ∨ c = chr ';' ∨ c = chr '{' ∨ c = chr '}'

/-- After the closing quote only white space or a semicolon is allowed. -/
def closeQuote (quote : Byte) (value : Bytes) (input : Stream) : Lexed :=
  let (next, input) := input.peek
  let peeked := peekedChar next
  if isSpace peeked ∨ peeked = chr ';' then (.normal, removeQuotes value quote, input)
  else (.error, value, input)

theorem unread_consumeEscapeChar (input : Stream) (value : Bytes) (quote : Byte) :
    (consumeEscapeChar input value quote).2.2.unread.length ≤ input.unread.length := by
  have h := input.peek.2.unread_get_le
  have h' := input.peek.2.get.2.peek.2.unread_get_le
  simp only [InputStream.unread_peek] at h h'
  unfold consumeEscapeChar
  dsimp only
  split_ifs <;> simp only [InputStream.unread_peek] <;> omega

/-- The body of the token loop, one byte at a time. -/
def parseTokenLoop (state : TokenParserState) (value : Bytes) (input : Stream) : Lexed :=
  if input.good then
    match _hget : input.get with
    | (none, input') => endOfInput state value input'
    | (some c, input') =>
      match state with
      | .initialWhitespace =>
        if c = chr '{' then (.startBlock, [c], input')
        else if c = chr '}' then (.endBlock, [c], input')
        else if c = chr '#' then parseTokenLoop .comment [c] input'
        else if c = chr '"' then parseTokenLoop .doubleQuote [c] input'
        else if c = chr '\'' then parseTokenLoop .singleQuote [c] input'
        else if c = chr ';' then (.statementEnd, [c], input')
        else if c = chr ' ' ∨ c = chr '\t' ∨ c = chr '\n' ∨ c = chr '\r' then
          parseTokenLoop .initialWhitespace value input'
        else parseTokenLoop .normal (value ++ [c]) input'
      | .singleQuote =>
        if c = chr '\\' then
          match _hesc : consumeEscapeChar input' (value ++ [c]) (chr '\'') with
          | (err, value', input'') =>
            if err ≠ "" then (.error, value', input'') else parseTokenLoop .singleQuote value' input''
        else if c = chr '\'' then closeQuote (chr '\'') (value ++ [c]) input'
        else parseTokenLoop .singleQuote (value ++ [c]) input'
      | .doubleQuote =>
        if c = chr '\\' then
          match _hesc : consumeEscapeChar input' (value ++ [c]) (chr '"') with
          | (err, value', input'') =>
            if err ≠ "" then (.error, value', input'') else parseTokenLoop .doubleQuote value' input''
        else if c = chr '"' then closeQuote (chr '"') (value ++ [c]) input'
        else parseTokenLoop .doubleQuote (value ++ [c]) input'
      | .comment =>
        if c = chr '\n' ∨ c = chr '\r' then (.comment, value, input')
        else parseTokenLoop .comment (value ++ [c]) input'
      | .normal =>
        if endsWord c then (.normal, value, input'.unget)
        else parseTokenLoop .normal (value ++ [c]) input'
  else endOfInput state value input
termination_by input.unread.length
decreasing_by
  all_goals have hlt := InputStream.unread_lt_of_get_some _hget
  all_goals first
    | exact hlt
    | have hle := unread_consumeEscapeChar input' (value ++ [c]) (chr '\'')
      have hle' := unread_consumeEscapeChar input' (value ++ [c]) (chr '"')
      simp only [_hesc] at hle hle'
      omega

def parseToken (input : Stream) (value : Bytes) : Lexed :=
  parseTokenLoop .initialWhitespace value input

variable (past rest value : Bytes) (c : Byte)

/-- The two quoted states and the byte that closes each. -/
def QuotedBy (state : TokenParserState) (quote : Byte) : Prop :=
  (state = .singleQuote ∧ quote = chr '\'') ∨ (state = .doubleQuote ∧ quote = chr '"')

theorem loop_stopped (state : TokenParserState) {input : Stream} (h : input.good = false) :
    parseTokenLoop state value input = endOfInput state value input := by
  rw [parseTokenLoop]
  simp [h]

@[simp] theorem loop_nil (state : TokenParserState) :
    parseTokenLoop state value (live past []) = endOfInput state value ⟨past, [], true, true⟩ := by
  rw [parseTokenLoop]
  simp

theorem loop_initialWhitespace :
    parseTokenLoop .initialWhitespace value (live past (c :: rest)) =
      if c = chr '{' then (.startBlock, [c], live (c :: past) rest)
      else if c = chr '}' then (.endBlock, [c], live (c :: past) rest)
      else if c = chr '#' then parseTokenLoop .comment [c] (live (c :: past) rest)
      else if c = chr '"' then parseTokenLoop .doubleQuote [c] (live (c :: past) rest)
      else if c = chr '\'' then parseTokenLoop .singleQuote [c] (live (c :: past) rest)
      else if c = chr ';' then (.statementEnd, [c], live (c :: past) rest)
      else if c = chr ' ' ∨ c = chr '\t' ∨ c = chr '\n' ∨ c = chr '\r' then
        parseTokenLoop .initialWhitespace value (live (c :: past) rest)
      else parseTokenLoop .normal (value ++ [c]) (live (c :: past) rest) := by
  rw [parseTokenLoop]
  simp

theorem loop_quoted {state : TokenParserState} {quote : Byte} (h : QuotedBy state quote) :
    parseTokenLoop state value (live past (c :: rest)) =
      if c = chr '\\' then
        let r := consumeEscapeChar (live (c :: past) rest) (value ++ [c]) quote
        if r.1 ≠ "" then (.error, r.2.1, r.2.2) else parseTokenLoop state r.2.1 r.2.2
      else if c = quote then closeQuote quote (value ++ [c]) (live (c :: past) rest)
      else parseTokenLoop state (value ++ [c]) (live (c :: past) rest) := by
  rcases h with ⟨rfl, rfl⟩ | ⟨rfl, rfl⟩ <;> rw [parseTokenLoop] <;> simp

theorem loop_comment :
    parseTokenLoop .comment value (live past (c :: rest)) =
      if c = chr '\n' ∨ c = chr '\r' then (.comment, value, live (c :: past) rest)
      else parseTokenLoop .comment (value ++ [c]) (live (c :: past) rest) := by
  rw [parseTokenLoop]
  simp

theorem loop_normal :
    parseTokenLoop .normal value (live past (c :: rest)) =
      if endsWord c then (.normal, value, live past (c :: rest))
      else parseTokenLoop .normal (value ++ [c]) (live (c :: past) rest) := by
  rw [parseTokenLoop]
  simp

end Koko.Config
