import Koko.Config.ParserCorrectness

/-! Writing a configuration with quoted tokens, and reading it back. -/
namespace Koko.Config
open Koko.Lib NginxConfig Position
open InputStream (live)

/-- Every quote and every backslash is preceded by a backslash. -/
def escapeToken (q : Byte) (t : Bytes) : Bytes :=
  t.flatMap (fun b => if b = q ∨ b = chr '\\' then [chr '\\', b] else [b])

def writeToken (q : Byte) (t : Bytes) : Bytes := q :: escapeToken q t ++ [q]

def writeTokens (q : Byte) (ts : List Bytes) : Bytes := List.intercalate [chr ' '] (ts.map (writeToken q))

mutual
def writeStatement (q : Byte) : NginxConfigStatement → Bytes
  | .mk ts none => writeTokens q ts ++ [chr ';']
  | .mk ts (some ss) => writeTokens q ts ++ [chr ' ', chr '{'] ++ writeStatements q ss ++ [chr '}']
def writeStatements (q : Byte) : List NginxConfigStatement → Bytes
  | [] => []
  | s :: ss => writeStatement q s ++ writeStatements q ss
end

/-- A nonempty token that does not end in a backslash. -/
def WritableToken (t : Bytes) : Prop := t ≠ [] ∧ t.getLast? ≠ some (chr '\\')

mutual
/-- Every statement has a token and every token is writable, at every depth. -/
def Writable : NginxConfigStatement → Prop
  | .mk ts none => ts ≠ [] ∧ ∀ t ∈ ts, WritableToken t
  | .mk ts (some ss) => (ts ≠ [] ∧ ∀ t ∈ ts, WritableToken t) ∧ WritableAll ss
def WritableAll : List NginxConfigStatement → Prop
  | [] => True
  | s :: ss => Writable s ∧ WritableAll ss
end

section Token
variable {state : TokenParserState} {q : Byte}

private theorem consume_plain (hq : QuotedBy state q) (past rest value : Bytes) {e : Byte}
    (he : e ∈ escapeChars) (hb : e ≠ chr '\\') :
    consumeEscapeChar (live past (e :: rest)) (value ++ [chr '\\']) q =
      ("", value ++ [e], live (e :: past) rest) := by
  have hquote : q = chr '\'' ∨ q = chr '"' := hq.imp And.right And.right
  simp [consumeEscapeChar, hquote, peekedChar, he, hb, setLast]

private theorem consume_backslash (hq : QuotedBy state q) (past rest value : Bytes) {d : Byte}
    (hd : d ≠ q) :
    consumeEscapeChar (live past (chr '\\' :: d :: rest)) (value ++ [chr '\\']) q =
      ("", value ++ [chr '\\'], live (chr '\\' :: past) (d :: rest)) := by
  have hquote : q = chr '\'' ∨ q = chr '"' := hq.imp And.right And.right
  have he : chr '\\' ∈ escapeChars := by decide
  simp [consumeEscapeChar, hquote, peekedChar, he, hd, setLast]

/-- The escaped form of a nonempty token never starts with the bare quote. -/
private theorem escapeToken_head (hq : q ≠ chr '\\') (b : Byte) (t : Bytes) :
    ∃ d u, escapeToken q (b :: t) = d :: u ∧ d ≠ q := by
  by_cases hb : b = q ∨ b = chr '\\'
  · exact ⟨chr '\\', b :: escapeToken q t, by simp [escapeToken, hb], hq.symm⟩
  · exact ⟨b, escapeToken q t, by simp [escapeToken, hb], fun h => hb (.inl h)⟩

/-- Inside quotes the escaped form of a token adds the token to the value. -/
theorem loop_escapeToken (hq : QuotedBy state q) (t past rest value : Bytes)
    (ht : t.getLast? ≠ some (chr '\\')) :
    parseTokenLoop state value (live past (escapeToken q t ++ rest)) =
      parseTokenLoop state (value ++ t) (live ((escapeToken q t).reverse ++ past) rest) := by
  have hne : q ≠ chr '\\' := by rcases hq with ⟨-, rfl⟩ | ⟨-, rfl⟩ <;> decide
  have hesc : q ∈ escapeChars := by rcases hq with ⟨-, rfl⟩ | ⟨-, rfl⟩ <;> decide
  induction t generalizing past value with
  | nil => simp [escapeToken]
  | cons b t ih =>
    have ht' : t.getLast? ≠ some (chr '\\') := by
      cases t with
      | nil => simp
      | cons d t => simpa [List.getLast?_cons_cons] using ht
    have hcons : escapeToken q (b :: t) =
        (if b = q ∨ b = chr '\\' then [chr '\\', b] else [b]) ++ escapeToken q t := by
      simp [escapeToken]
    rw [hcons]
    by_cases hb : b = chr '\\'
    · subst hb
      cases t with
      | nil => simp at ht
      | cons d t =>
        obtain ⟨e, u, hu, heq⟩ := escapeToken_head hne d t
        rw [if_pos (.inr rfl), List.append_assoc]
        simp only [List.cons_append, List.nil_append]
        rw [loop_quoted _ _ _ _ hq, if_pos rfl, hu, List.cons_append, consume_backslash hq _ _ _ heq]
        have hrec := ih (chr '\\' :: chr '\\' :: past) (value ++ [chr '\\']) ht'
        rw [hu, List.cons_append] at hrec
        simpa using hrec
    · by_cases hbq : b = q
      · subst hbq
        rw [if_pos (.inl rfl), List.append_assoc]
        simp only [List.cons_append, List.nil_append]
        rw [loop_quoted _ _ _ _ hq, if_pos rfl, consume_plain hq _ _ _ hesc hb]
        simpa using ih (b :: chr '\\' :: past) (value ++ [b]) ht'
      · rw [if_neg (by simp [hb, hbq])]
        simp only [List.cons_append, List.nil_append]
        rw [loop_quoted _ _ _ _ hq, if_neg hb, if_neg hbq]
        simpa using ih (b :: past) (value ++ [b]) ht'

private theorem removeQuotes_quoted {t : Bytes} (ht : t ≠ []) : removeQuotes (q :: t ++ [q]) q = t := by
  have hpos := List.length_pos_of_ne_nil ht
  have hlen : 2 < (q :: t ++ [q]).length := by simp; omega
  rw [removeQuotes, if_pos ⟨hlen, by simp, List.getLast?_concat⟩, List.dropLast_concat]
  rfl

/-- A written token followed by white space or a semicolon is read back as it was. -/
theorem parseToken_writeToken (hq : q = chr '\'' ∨ q = chr '"') {t : Bytes} (ht : WritableToken t)
    {d : Byte} (hd : isSpace d ∨ d = chr ';') (past rest : Bytes) :
    parseToken (live past (writeToken q t ++ d :: rest)) [] =
      (.normal, t, live ((writeToken q t).reverse ++ past) (d :: rest)) := by
  have quoted (state : TokenParserState) (h : QuotedBy state q) :
      parseTokenLoop state [q] (live (q :: past) (escapeToken q t ++ q :: d :: rest)) =
        (.normal, t, live ((writeToken q t).reverse ++ past) (d :: rest)) := by
    have hb : q ≠ chr '\\' := by rcases hq with rfl | rfl <;> decide
    rw [loop_escapeToken h t _ _ _ ht.2, loop_quoted _ _ _ _ h, if_neg hb, if_pos rfl]
    simp only [closeQuote, InputStream.peek_live_cons, peekedChar, Option.getD_some, hd, if_true]
    rw [show [q] ++ t ++ [q] = q :: t ++ [q] from rfl, removeQuotes_quoted ht.1]
    simp [writeToken]
  rw [parseToken, writeToken, List.cons_append, List.cons_append, List.append_assoc,
    List.singleton_append, loop_initialWhitespace]
  rcases hq with rfl | rfl
  · simpa [chr, writeToken] using quoted .singleQuote (.inl ⟨rfl, rfl⟩)
  · simpa [chr, writeToken] using quoted .doubleQuote (.inr ⟨rfl, rfl⟩)

end Token

/-- The lexer turns the text into the given tokens and goes on with what follows. -/
def Emits (text : Bytes) (ts : List Token) : Prop :=
  ∀ past rest, ∃ past', tokenSequence (live past (text ++ rest)) = ts ++ tokenSequence (live past' rest)

theorem Emits.append {x y : Bytes} {ts us : List Token} (hx : Emits x ts) (hy : Emits y us) :
    Emits (x ++ y) (ts ++ us) := by
  intro past rest
  obtain ⟨past₁, h₁⟩ := hx past (y ++ rest)
  obtain ⟨past₂, h₂⟩ := hy past₁ rest
  exact ⟨past₂, by rw [List.append_assoc, h₁, h₂, List.append_assoc]⟩

theorem emits_nil : Emits [] [] := fun past _ => ⟨past, rfl⟩

private theorem emits_single {c : Byte} {tt : TokenType} (he : tt ≠ .eof) (hr : tt ≠ .error)
    (hc : tt ≠ .comment) (h : ∀ past rest, parseToken (live past (c :: rest)) [] = (tt, [c], live (c :: past) rest)) :
    Emits [c] [(tt, [c])] := by
  intro past rest
  exact ⟨c :: past, by rw [List.singleton_append, tokenSequence_of_token (h past rest) he hr, if_neg hc]; rfl⟩

theorem emits_semicolon : Emits [chr ';'] [(.statementEnd, [chr ';'])] :=
  emits_single (by simp) (by simp) (by simp) (fun past rest => by
    simp [parseToken, loop_initialWhitespace, chr])

theorem emits_endBlock : Emits [chr '}'] [(.endBlock, [chr '}'])] :=
  emits_single (by simp) (by simp) (by simp) (fun past rest => by
    simp [parseToken, loop_initialWhitespace, chr])

theorem emits_startBlock : Emits ([chr ' ', chr '{']) [(.startBlock, [chr '{'])] := by
  intro past rest
  have h : parseToken (live past ([chr ' ', chr '{'] ++ rest)) [] =
      (.startBlock, [chr '{'], live (chr '{' :: chr ' ' :: past) rest) := by
    simp [parseToken, loop_initialWhitespace, chr]
  exact ⟨_, by rw [tokenSequence_of_token h (by simp) (by simp), if_neg (by simp)]; rfl⟩

/-- Leading blanks are skipped. -/
private theorem tokenSequence_space (past rest : Bytes) :
    tokenSequence (live past (chr ' ' :: rest)) = tokenSequence (live (chr ' ' :: past) rest) := by
  have h : parseToken (live past (chr ' ' :: rest)) [] = parseToken (live (chr ' ' :: past) rest) [] := by
    simp [parseToken, loop_initialWhitespace, chr]
  conv_lhs => rw [tokenSequence]
  conv_rhs => rw [tokenSequence]
  rw [h]

/-- A written token list, before the byte that ends it, is read back word by word. -/
theorem emits_writeTokens {q : Byte} (hq : q = chr '\'' ∨ q = chr '"') {ts : List Bytes} (hne : ts ≠ [])
    (ht : ∀ t ∈ ts, WritableToken t) {d : Byte} (hd : isSpace d ∨ d = chr ';') (past rest : Bytes) :
    ∃ past', tokenSequence (live past (writeTokens q ts ++ d :: rest)) =
      words ts ++ tokenSequence (live past' (d :: rest)) := by
  induction ts generalizing past with
  | nil => exact absurd rfl hne
  | cons t ts ih =>
    have htt := ht t (by simp)
    cases ts with
    | nil =>
      refine ⟨(writeToken q t).reverse ++ past, ?_⟩
      rw [show writeTokens q [t] = writeToken q t by simp [writeTokens],
        tokenSequence_of_token (parseToken_writeToken hq htt hd past rest) (by simp) (by simp),
        if_neg (by simp)]
      rfl
    | cons u ts =>
      have hs : isSpace (chr ' ') ∨ chr ' ' = chr ';' := .inl (by decide)
      have hw : writeTokens q (t :: u :: ts) ++ d :: rest =
          writeToken q t ++ chr ' ' :: (writeTokens q (u :: ts) ++ d :: rest) := by
        simp [writeTokens, List.intercalate_cons_cons]
      obtain ⟨past', hp⟩ := ih (by simp) (fun v hv => ht v (by simp [hv])) (chr ' ' :: ((writeToken q t).reverse ++ past))
      refine ⟨past', ?_⟩
      rw [hw, tokenSequence_of_token (parseToken_writeToken hq htt hs past _) (by simp) (by simp),
        if_neg (by simp), tokenSequence_space, hp]
      rfl

mutual
theorem emits_writeStatement {q : Byte} (hq : q = chr '\'' ∨ q = chr '"') (s : NginxConfigStatement)
    (h : Writable s) : ∃ u, DerivesStatement u s ∧ Emits (writeStatement q s) u := by
  match s, h with
  | .mk ts none, h =>
    refine ⟨words ts ++ [(.statementEnd, [chr ';'])], .line h.1, ?_⟩
    intro past rest
    obtain ⟨past₁, h₁⟩ := emits_writeTokens hq h.1 h.2 (.inr rfl) past rest
    obtain ⟨past₂, h₂⟩ := emits_semicolon past₁ rest
    exact ⟨past₂, by rw [writeStatement, List.append_assoc, List.singleton_append, h₁,
      ← List.singleton_append, h₂, List.append_assoc]⟩
  | .mk ts (some ss), h =>
    obtain ⟨body, hd, hb⟩ := emits_writeStatements hq ss h.2
    refine ⟨words ts ++ (.startBlock, [chr '{']) :: (body ++ [(.endBlock, [chr '}'])]), .block h.1.1 hd, ?_⟩
    intro past rest
    have htail := (emits_startBlock.append hb).append emits_endBlock
    have hspace : isSpace (chr ' ') ∨ chr ' ' = chr ';' := .inl (by decide)
    obtain ⟨past₁, h₁⟩ := emits_writeTokens hq h.1.1 h.1.2 hspace past
      (chr '{' :: writeStatements q ss ++ chr '}' :: rest)
    obtain ⟨past₂, h₂⟩ := htail past₁ rest
    refine ⟨past₂, ?_⟩
    rw [writeStatement, show writeTokens q ts ++ [chr ' ', chr '{'] ++ writeStatements q ss ++ [chr '}'] ++ rest =
      writeTokens q ts ++ chr ' ' :: (chr '{' :: writeStatements q ss ++ chr '}' :: rest) by simp, h₁,
      show chr ' ' :: (chr '{' :: writeStatements q ss ++ chr '}' :: rest) =
        [chr ' ', chr '{'] ++ writeStatements q ss ++ [chr '}'] ++ rest by simp, h₂]
    simp
theorem emits_writeStatements {q : Byte} (hq : q = chr '\'' ∨ q = chr '"') (ss : List NginxConfigStatement)
    (h : WritableAll ss) : ∃ w, DerivesStatements w ss ∧ Emits (writeStatements q ss) w := by
  match ss, h with
  | [], _ => exact ⟨[], .nil, emits_nil⟩
  | s :: ss, h =>
    obtain ⟨u, hu, hs⟩ := emits_writeStatement hq s h.1
    obtain ⟨w, hw, hss⟩ := emits_writeStatements hq ss h.2
    exact ⟨u ++ w, .cons hu hw, hs.append hss⟩
end

/-- Parsing the written form of a tree gives the tree back, byte for byte. -/
theorem parse_write (q : Byte) (hq : q = chr '\'' ∨ q = chr '"') (ss : NginxConfig) (hne : ss ≠ [])
    (h : WritableAll ss) :
    ∃ r, parse (.ofList (writeStatements q ss)) [] = some r ∧ r.returned = true ∧ r.config = ss := by
  obtain ⟨w, hd, he⟩ := emits_writeStatements hq ss h
  obtain ⟨past, hs⟩ := he [] []
  have hend : tokenSequence (live past []) = [(.eof, [])] := by
    rw [tokenSequence_of_stop (by simp [parseToken, endOfInput])]
    simp [parseToken, endOfInput]
  rw [hend, List.append_nil] at hs
  obtain ⟨m, hp⟩ := parse_eq_run (.ofList (writeStatements q ss)) []
  obtain ⟨last, hrun⟩ := run_of_derives ⟨hne, hd⟩ [] [] []
  rw [show tokenSequence (.ofList (writeStatements q ss)) = _ from hs, hrun] at hp
  exact ⟨_, hp, rfl, rfl⟩

/-- A token with both quotes and inner backslashes, in a nested and in an empty block. -/
theorem parse_write_nested :
    ∃ r, parse (.ofList (writeStatements (chr '"')
        [.mk [ascii "a\\\"b'", ascii "c"] (some [.mk [ascii "d"] none, .mk [ascii "e"] (some [])])])) [] = some r ∧
      r.returned = true ∧
      r.config = [.mk [ascii "a\\\"b'", ascii "c"] (some [.mk [ascii "d"] none, .mk [ascii "e"] (some [])])] := by
  refine parse_write (chr '"') (.inr rfl) _ (by simp) ?_
  simp only [WritableAll, Writable, WritableToken]
  decide

end Koko.Config
