import Koko.Config.Parser

/-! The grammar of configurations, and the abstract parser over it: a position
between two statements or inside one, with the enclosing blocks still open. The
pointer machine of the source refines this parser step by step. -/
namespace Koko.Config
open Koko.Lib NginxConfig

/-- A run of word tokens. -/
def words (ws : List Bytes) : List Token := ws.map (fun w => (.normal, w))

mutual
/-- `stmt ::= NORMAL NORMAL* ( ';' | '{' stmt* '}' )`, with the tree of the derivation. -/
inductive DerivesStatement : List Token → NginxConfigStatement → Prop where
  | line {ws : List Bytes} {v : Bytes} (ne : ws ≠ []) :
      DerivesStatement (words ws ++ [(.statementEnd, v)]) (.mk ws none)
  | block {ws : List Bytes} {v v' : Bytes} {body : List Token} {ss : NginxConfig} (ne : ws ≠ [])
      (inner : DerivesStatements body ss) :
      DerivesStatement (words ws ++ (.startBlock, v) :: (body ++ [(.endBlock, v')])) (.mk ws (some ss))
/-- `stmt*`. -/
inductive DerivesStatements : List Token → NginxConfig → Prop where
  | nil : DerivesStatements [] []
  | cons {u w : List Token} {s : NginxConfigStatement} {ss : NginxConfig}
      (first : DerivesStatement u s) (others : DerivesStatements w ss) :
      DerivesStatements (u ++ w) (s :: ss)
end

/-- `config ::= stmt stmt*`. -/
def Derives (w : List Token) (c : NginxConfig) : Prop := c ≠ [] ∧ DerivesStatements w c

theorem DerivesStatements.snoc {w u : List Token} {ss : NginxConfig} {s : NginxConfigStatement}
    (h : DerivesStatements w ss) (hs : DerivesStatement u s) :
    DerivesStatements (w ++ u) (ss ++ [s]) := by
  induction ss generalizing w with
  | nil =>
    cases h
    simpa using DerivesStatements.cons hs .nil
  | cons s' ss ih =>
    cases h with
    | cons first others => simpa using DerivesStatements.cons first (ih others)

theorem DerivesStatements.ne_nil {w : List Token} {ss : NginxConfig} (h : DerivesStatements w ss)
    (hw : w ≠ []) : ss ≠ [] := by
  rintro rfl
  cases h
  exact hw rfl

/-- The statements before an open block and the words that head it. -/
abbrev OpenBlock := NginxConfig × List Bytes

/-- The whole tree around the innermost block; open blocks are listed innermost first. -/
def plug : List OpenBlock → NginxConfig → NginxConfig
  | [], block => block
  | (before, ws) :: outer, block => plug outer (before ++ [.mk ws (some block)])

def pointer : List OpenBlock → Pointer
  | [] => []
  | (before, _) :: outer => pointer outer ++ [before.length]

def pointers : List OpenBlock → List Pointer
  | [] => [[]]
  | b :: outer => pointer (b :: outer) :: pointers outer

@[simp] theorem head_pointers (blocks : List OpenBlock) :
    (pointers blocks).head? = some (pointer blocks) := by
  cases blocks <;> rfl

@[simp] theorem deref_plug (blocks : List OpenBlock) (block : NginxConfig) :
    deref (plug blocks block) (pointer blocks) = some block := by
  induction blocks generalizing block with
  | nil => rfl
  | cons b outer ih =>
    obtain ⟨before, ws⟩ := b
    simp [plug, pointer, deref_append, ih, deref]

@[simp] theorem update_plug (f : NginxConfig → Option NginxConfig) (blocks : List OpenBlock)
    (block : NginxConfig) :
    update f (pointer blocks) (plug blocks block) = (f block).map (plug blocks) := by
  induction blocks generalizing f block with
  | nil => cases hf : f block <;> simp [update, pointer, plug, hf]
  | cons b outer ih =>
    obtain ⟨before, ws⟩ := b
    cases hf : f block <;> simp [plug, pointer, update_append, ih, update, hf]

/-- The token types after which no statement is in progress. -/
inductive Boundary where
  | start | statementEnd | startBlock | endBlock
deriving DecidableEq

def Boundary.type : Boundary → TokenType
  | .start => .start
  | .statementEnd => .statementEnd
  | .startBlock => .startBlock
  | .endBlock => .endBlock

inductive Position where
  | between (blocks : List OpenBlock) (done : NginxConfig) (last : Boundary)
  | inside (blocks : List OpenBlock) (done : NginxConfig) (ws : List Bytes)

namespace Position

/-- The machine state of the source at a position. -/
def state : Position → ParseState
  | between blocks done last => ⟨plug blocks done, pointers blocks, last.type, blocks.length⟩
  | inside blocks done ws => ⟨plug blocks (done ++ [.mk ws none]), pointers blocks, .normal, blocks.length⟩

/-- One token of the abstract parser; `none` is a bad transition. -/
def advance : Position → Token → Option Position
  | between blocks done _, (.normal, v) => some (inside blocks done [v])
  | between ((before, ws) :: outer) done last, (.endBlock, _) =>
    if last = .start then none else some (between outer (before ++ [.mk ws (some done)]) .endBlock)
  | inside blocks done ws, (.normal, v) => some (inside blocks done (ws ++ [v]))
  | inside blocks done ws, (.statementEnd, _) => some (between blocks (done ++ [.mk ws none]) .statementEnd)
  | inside blocks done ws, (.startBlock, _) => some (between ((done, ws) :: blocks) [] .startBlock)
  | _, _ => none

/-- Everything a token can do at a position. -/
inductive Advance : Position → Token → Position → Prop where
  | firstWord (blocks : List OpenBlock) (done : NginxConfig) (last : Boundary) (v : Bytes) :
      Advance (between blocks done last) (.normal, v) (inside blocks done [v])
  | closeBlock (outer : List OpenBlock) (before done : NginxConfig) (ws : List Bytes) {last : Boundary} (v : Bytes)
      (ne : last ≠ .start) :
      Advance (between ((before, ws) :: outer) done last) (.endBlock, v)
        (between outer (before ++ [.mk ws (some done)]) .endBlock)
  | nextWord (blocks : List OpenBlock) (done : NginxConfig) (ws : List Bytes) (v : Bytes) :
      Advance (inside blocks done ws) (.normal, v) (inside blocks done (ws ++ [v]))
  | endStatement (blocks : List OpenBlock) (done : NginxConfig) (ws : List Bytes) (v : Bytes) :
      Advance (inside blocks done ws) (.statementEnd, v) (between blocks (done ++ [.mk ws none]) .statementEnd)
  | openBlock (blocks : List OpenBlock) (done : NginxConfig) (ws : List Bytes) (v : Bytes) :
      Advance (inside blocks done ws) (.startBlock, v) (between ((done, ws) :: blocks) [] .startBlock)

theorem advance_cases {p p' : Position} {t : Token} (h : p.advance t = some p') : Advance p t p' := by
  obtain ⟨tt, v⟩ := t
  cases p with
  | between blocks done last =>
    cases tt <;> simp only [advance, reduceCtorEq] at h
    case normal =>
      obtain rfl := Option.some.inj h
      exact .firstWord blocks done last v
    case endBlock =>
      cases blocks with
      | nil => simp at h
      | cons b outer =>
        simp only at h
        split_ifs at h with hl
        obtain rfl := Option.some.inj h
        exact .closeBlock outer b.1 done b.2 v hl
  | inside blocks done ws =>
    cases tt <;> simp only [advance, reduceCtorEq] at h <;> obtain rfl := Option.some.inj h
    case normal => exact .nextWord blocks done ws v
    case statementEnd => exact .endStatement blocks done ws v
    case startBlock => exact .openBlock blocks done ws v

/-- The positions at which end of file is accepted. -/
def Accepting : Position → Prop
  | between [] _ last => last = .statementEnd ∨ last = .endBlock
  | _ => False

instance : DecidablePred Accepting
  | between [] _ last => inferInstanceAs (Decidable (last = .statementEnd ∨ last = .endBlock))
  | between (_ :: _) _ _ => isFalse id
  | inside _ _ _ => isFalse id

end Position
end Koko.Config
