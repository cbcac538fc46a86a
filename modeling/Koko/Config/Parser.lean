import Koko.Config.LexerLocality
import Koko.Config.Tree

/-! `Parse` as the pushdown machine of the source: the caller's tree, a stack of
pointers into it, a brace counter and the type of the last token. Applying `top`,
`pop` or `back` to an empty container is undefined and is modelled by `none`. -/
namespace Koko.Config
open Koko.Lib

def tokenTypeAsString : TokenType → String
  | .start => "TOKEN_TYPE_START"
  | .normal => "TOKEN_TYPE_NORMAL"
  | .startBlock => "TOKEN_TYPE_START_BLOCK"
  | .endBlock => "TOKEN_TYPE_END_BLOCK"
  | .comment => "TOKEN_TYPE_COMMENT"
  | .statementEnd => "TOKEN_TYPE_STATEMENT_END"
  | .eof => "TOKEN_TYPE_EOF"
  | .error => "TOKEN_TYPE_ERROR"

abbrev Token := TokenType × Bytes

structure ParseState where
  config : NginxConfig
  configStack : List Pointer
  lastTokenType : TokenType
  bracesDepth : Int

/-- How one iteration of the parse loop ends. -/
inductive Iteration where
  | next (s : ParseState)
  | breakLoop (s : ParseState)
  | returnTrue (s : ParseState)

/-- One iteration on a token that is neither a comment nor an error. -/
def iterate (s : ParseState) (tokenType : TokenType) (token : Bytes) : Defined Iteration :=
  match tokenType with
  | .normal =>
    if s.lastTokenType = .start ∨ s.lastTokenType = .statementEnd ∨ s.lastTokenType = .startBlock ∨
        s.lastTokenType = .endBlock ∨ s.lastTokenType = .normal then do
      let top ← s.configStack.head?
      let config ← if s.lastTokenType ≠ .normal then
          s.config.update (fun b => some b.emplaceBack) top
        else some s.config
      let config ← config.update (NginxConfig.back (NginxConfig.pushToken token)) top
      some (.next { s with config, lastTokenType := tokenType })
    else some (.breakLoop s)
  | .statementEnd =>
    if s.lastTokenType ≠ .normal then some (.breakLoop s)
    else some (.next { s with lastTokenType := tokenType })
  | .startBlock =>
    if s.lastTokenType ≠ .normal then some (.breakLoop s)
    else do
      let top ← s.configStack.head?
      let block ← s.config.deref top
      let config ← s.config.update (NginxConfig.back NginxConfig.resetChildBlock) top
      some (.next ⟨config, (top ++ [block.length - 1]) :: s.configStack, tokenType, s.bracesDepth + 1⟩)
  | .endBlock =>
    if s.lastTokenType ≠ .statementEnd ∧ s.lastTokenType ≠ .endBlock ∧
        s.lastTokenType ≠ .startBlock then some (.breakLoop s)
    else if s.bracesDepth - 1 < 0 then some (.breakLoop { s with bracesDepth := s.bracesDepth - 1 })
    else match s.configStack with
      | [] => none
      | _ :: below => some (.next ⟨s.config, below, tokenType, s.bracesDepth - 1⟩)
  | .eof =>
    if (s.lastTokenType ≠ .statementEnd ∧ s.lastTokenType ≠ .endBlock) ∨ s.bracesDepth ≠ 0 then
      some (.breakLoop s)
    else some (.returnTrue s)
  | .start | .comment | .error => some (.breakLoop s)

/-- The returned flag, the caller's tree and what was printed. -/
structure ParseResult where
  returned : Bool
  config : NginxConfig
  printed : String
deriving DecidableEq

def badTransition (s : ParseState) (tokenType : TokenType) : ParseResult :=
  ⟨false, s.config, "Bad transition from " ++ tokenTypeAsString s.lastTokenType ++ " to " ++
    tokenTypeAsString tokenType ++ "\n"⟩

theorem iterate_eof_ne_next (s s' : ParseState) (token : Bytes) :
    iterate s .eof token ≠ some (.next s') := by
  rw [iterate]
  split_ifs <;> simp

def parseLoop (s : ParseState) (configFile : Stream) : Defined ParseResult :=
  match _hl : parseToken configFile [] with
  | (tokenType, token, rest) =>
    if tokenType = .error then some (badTransition s tokenType)
    else if tokenType = .comment then parseLoop s rest
    else match _hi : iterate s tokenType token with
      | none => none
      | some (.next s') => parseLoop s' rest
      | some (.breakLoop s') => some (badTransition s' tokenType)
      | some (.returnTrue s') => some ⟨true, s'.config, ""⟩
termination_by configFile.unread.length
decreasing_by
  · exact parseToken_progress _hl (by simp_all) ‹_›
  · refine parseToken_progress _hl ?_ ‹_›
    rintro rfl
    exact iterate_eof_ne_next _ _ _ _hi

def parseStart (config : NginxConfig) : ParseState := ⟨config, [[]], .start, 0⟩

/-- `Parse` on an open stream and a configuration object. -/
def parse (configFile : Stream) (config : NginxConfig) : Defined ParseResult :=
  parseLoop (parseStart config) configFile

/-- `Parse` on a file name; `files` is what opening a name yields. -/
def parseFile (files : Bytes → Option Bytes) (fileName : Bytes) (config : NginxConfig) :
    Defined ParseResult :=
  match files fileName with
  | none => some ⟨false, config, ""⟩
  | some contents => parse (.ofList contents) config

/-- `parse_args` exits the process, or comes back and leaves a configuration behind. -/
inductive ArgsOutcome where
  | exit (code : Nat)
  | proceed (returned : Nat) (config : NginxConfig)

/-- A failed `Parse` is only logged. -/
def parseArgs (files : Bytes → Option Bytes) (argv : List Bytes) (config : Option NginxConfig) :
    Defined ArgsOutcome :=
  match argv, config with
  | [_, fileName], some config => (parseFile files fileName config).map (fun r => .proceed 0 r.config)
  | [_, _], none => some (.exit 2)
  | _, _ => some (.exit 1)

/-- The configuration `main` hands to `serve_forever`. -/
def mainConfig (files : Bytes → Option Bytes) (argv : List Bytes) : Defined ArgsOutcome :=
  parseArgs files argv (some [])

/-- The tokens that successive calls return up to the first end of file or error,
comments dropped. -/
def tokenSequence (configFile : Stream) : List Token :=
  match _hl : parseToken configFile [] with
  | (tokenType, token, rest) =>
    if _he : tokenType = .eof ∨ tokenType = .error then [(tokenType, token)]
    else if tokenType = .comment then tokenSequence rest
    else (tokenType, token) :: tokenSequence rest
termination_by configFile.unread.length
decreasing_by all_goals exact parseToken_progress _hl (fun h => _he (.inl h)) (fun h => _he (.inr h))

theorem tokenSequence_of_stop {input : Stream}
    (h : (parseToken input []).1 = .eof ∨ (parseToken input []).1 = .error) :
    tokenSequence input = [((parseToken input []).1, (parseToken input []).2.1)] := by
  rw [tokenSequence]
  rcases hl : parseToken input [] with ⟨tt, v, rest⟩
  rw [hl] at h
  exact dif_pos h

theorem tokenSequence_of_token {input rest : Stream} {tt : TokenType} {v : Bytes}
    (h : parseToken input [] = (tt, v, rest)) (he : tt ≠ .eof) (hr : tt ≠ .error) :
    tokenSequence input = if tt = .comment then tokenSequence rest else (tt, v) :: tokenSequence rest := by
  rw [tokenSequence, h]
  exact dif_neg (not_or.mpr ⟨he, hr⟩)

/-- The parse loop on a given sequence of tokens. -/
def runTokens (s : ParseState) : List Token → Defined ParseResult
  | [] => none
  | (tokenType, token) :: rest =>
    if tokenType = .error then some (badTransition s tokenType)
    else match iterate s tokenType token with
      | none => none
      | some (.next s') => runTokens s' rest
      | some (.breakLoop s') => some (badTransition s' tokenType)
      | some (.returnTrue s') => some ⟨true, s'.config, ""⟩

end Koko.Config
