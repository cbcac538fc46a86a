import Koko.Config.Lexer

/-! A token is decided by the bytes it consumes: text appended behind the unread
input never changes a token that was found without running into the end. -/
namespace Koko.Config
open Koko.Lib
open InputStream (live)

variable {past value : Bytes} {state : TokenParserState} {quote : Byte}

/-- What one round of the token loop does with nonempty input: it fails, returns a
token, or goes on in some state. The last two are unaffected by appended text. -/
inductive Round (state : TokenParserState) (value past unread : Bytes) : Prop where
  | error (h : (parseTokenLoop state value (live past unread)).1 = .error)
  | token (tt : TokenType) (v used rest : Bytes) (split : unread = used ++ rest)
      (ne_eof : tt ≠ .eof) (ne_error : tt ≠ .error) (progress : state ≠ .normal → used ≠ [])
      (same : ∀ more, parseTokenLoop state value (live past (unread ++ more)) =
        (tt, v, live (used.reverse ++ past) (rest ++ more)))
  | go (next : TokenParserState) (v used rest : Bytes) (split : unread = used ++ rest)
      (progress : used ≠ [])
      (same : ∀ more, parseTokenLoop state value (live past (unread ++ more)) =
        parseTokenLoop next v (live (used.reverse ++ past) (rest ++ more)))

/-- The outcomes of an escape: an error, one or two bytes consumed with text left,
or a final backslash after which the stream is exhausted. -/
theorem consumeEscapeChar_cases (hq : QuotedBy state quote) (past unread value : Bytes) :
    (consumeEscapeChar (live past unread) value quote).1 ≠ "" ∨
    (consumeEscapeChar (live past unread) value quote).2.2.good = false ∨
    ∃ c used rest, unread = used ++ rest ∧ used ≠ [] ∧
      ∀ more, consumeEscapeChar (live past (unread ++ more)) value quote =
        ("", setLast value c, live (used.reverse ++ past) (rest ++ more)) := by
  have hquote : quote = chr '\'' ∨ quote = chr '"' := hq.imp And.right And.right
  cases unread with
  | nil =>
    left
    rcases hquote with rfl | rfl <;> simp [consumeEscapeChar, peekedChar, escapeChars, ascii, chr]
  | cons e rest =>
    by_cases he : e ∈ escapeChars
    · by_cases hb : e = chr '\\'
      · subst hb
        cases rest with
        | nil =>
          right; left
          simp [consumeEscapeChar, hquote, peekedChar, he, InputStream.good]
        | cons d rest =>
          right; right
          by_cases hd : d = quote
          · exact ⟨quote, [chr '\\', d], rest, rfl, by simp, fun more => by
              simp [consumeEscapeChar, hquote, peekedChar, he, hd, setLast]⟩
          · exact ⟨chr '\\', [chr '\\'], d :: rest, rfl, by simp, fun more => by
              simp [consumeEscapeChar, hquote, peekedChar, he, hd, setLast]⟩
      · right; right
        exact ⟨e, [e], rest, rfl, by simp, fun more => by
          simp [consumeEscapeChar, hquote, peekedChar, he, hb]⟩
    · left
      simp [consumeEscapeChar, hquote, peekedChar, he]

private theorem round_token (tt : TokenType) (v : Bytes) {rest : Bytes} {c : Byte}
    (he : tt ≠ .eof) (hr : tt ≠ .error)
    (h : ∀ more, parseTokenLoop state value (live past (c :: rest ++ more)) =
      (tt, v, live (c :: past) (rest ++ more))) : Round state value past (c :: rest) :=
  .token tt v [c] rest rfl he hr (by simp) h

private theorem round_go (next : TokenParserState) (v : Bytes) {rest : Bytes} {c : Byte}
    (h : ∀ more, parseTokenLoop state value (live past (c :: rest ++ more)) =
      parseTokenLoop next v (live (c :: past) (rest ++ more))) : Round state value past (c :: rest) :=
  .go next v [c] rest rfl (by simp) h

private theorem round_closeQuote (hq : QuotedBy state quote) (rest : Bytes) (hb : quote ≠ chr '\\') :
    Round state value past (quote :: rest) := by
  have hl := fun r => loop_quoted past r value quote hq
  simp only [hb, if_false, if_true] at hl
  cases rest with
  | nil =>
    refine .error ?_
    simp [hl, closeQuote, peekedChar, isSpace, chr]
  | cons d rest =>
    by_cases hd : isSpace d ∨ d = chr ';'
    · refine round_token .normal (removeQuotes (value ++ [quote]) quote) (by simp) (by simp) (fun more => ?_)
      rw [List.cons_append, hl]
      simp [closeQuote, peekedChar, hd]
    · refine .error ?_
      simp [hl, closeQuote, peekedChar, hd]

private theorem round_escape (hq : QuotedBy state quote) (rest : Bytes) :
    Round state value past (chr '\\' :: rest) := by
  rcases consumeEscapeChar_cases hq (chr '\\' :: past) rest (value ++ [chr '\\']) with h | h | h
  · exact .error (by rw [loop_quoted _ _ _ _ hq]; simp [h])
  · refine .error ?_
    rw [loop_quoted _ _ _ _ hq]
    by_cases he : (consumeEscapeChar (live (chr '\\' :: past) rest) (value ++ [chr '\\']) quote).1 = ""
    · have hs : state = .singleQuote ∨ state = .doubleQuote := hq.imp And.left And.left
      simp [he, loop_stopped _ _ h, endOfInput, hs]
    · simp [he]
  · obtain ⟨e, used, rest', rfl, -, he⟩ := h
    refine .go state (setLast (value ++ [chr '\\']) e) (chr '\\' :: used) rest' rfl (by simp) ?_
    intro more
    rw [List.cons_append, loop_quoted _ _ _ _ hq, if_pos rfl, he]
    simp

private theorem round_quoted (hq : QuotedBy state quote) (c : Byte) (rest : Bytes) :
    Round state value past (c :: rest) := by
  have hne : quote ≠ chr '\\' := by rcases hq with ⟨-, rfl⟩ | ⟨-, rfl⟩ <;> decide
  by_cases hb : c = chr '\\'
  · subst hb
    exact round_escape hq rest
  by_cases hc : c = quote
  · subst hc
    exact round_closeQuote hq rest hb
  · exact round_go state (value ++ [c]) (fun more => by simp [loop_quoted _ _ _ _ hq, hb, hc])

theorem round (state : TokenParserState) (value past : Bytes) (c : Byte) (rest : Bytes) :
    Round state value past (c :: rest) := by
  cases state with
  | singleQuote => exact round_quoted (.inl ⟨rfl, rfl⟩) c rest
  | doubleQuote => exact round_quoted (.inr ⟨rfl, rfl⟩) c rest
  | comment =>
    by_cases hc : c = chr '\n' ∨ c = chr '\r'
    · exact round_token .comment value (by simp) (by simp) (fun more => by simp [loop_comment, hc])
    · exact round_go .comment (value ++ [c]) (fun more => by simp [loop_comment, hc])
  | normal =>
    by_cases hc : endsWord c
    · exact .token .normal value [] (c :: rest) rfl (by simp) (by simp) (by simp) (fun more => by
        simp [loop_normal, hc])
    · exact round_go .normal (value ++ [c]) (fun more => by simp [loop_normal, hc])
  | initialWhitespace =>
    have hl := fun more => loop_initialWhitespace past (rest ++ more) value c
    split_ifs at hl
    · exact round_token .startBlock [c] (by simp) (by simp) hl
    · exact round_token .endBlock [c] (by simp) (by simp) hl
    · exact round_go .comment [c] hl
    · exact round_go .doubleQuote [c] hl
    · exact round_go .singleQuote [c] hl
    · exact round_token .statementEnd [c] (by simp) (by simp) hl
    · exact round_go .initialWhitespace value hl
    · exact round_go .normal (value ++ [c]) hl

/-- Reading stops early with end of file or an error, or it consumes `used` and
returns the same token whatever is appended to the rest. -/
inductive Reads (state : TokenParserState) (value past unread : Bytes) : Prop where
  | eof (h : (parseTokenLoop state value (live past unread)).1 = .eof)
  | error (h : (parseTokenLoop state value (live past unread)).1 = .error)
  | token (tt : TokenType) (v used rest : Bytes) (split : unread = used ++ rest)
      (ne_eof : tt ≠ .eof) (ne_error : tt ≠ .error) (progress : state ≠ .normal → used ≠ [])
      (same : ∀ more, parseTokenLoop state value (live past (unread ++ more)) =
        (tt, v, live (used.reverse ++ past) (rest ++ more)))

theorem reads (state : TokenParserState) (value past unread : Bytes) : Reads state value past unread := by
  induction hn : unread.length using Nat.strongRecOn generalizing state value past unread with
  | ind n ih =>
  cases unread with
  | nil =>
    by_cases hs : state = .singleQuote ∨ state = .doubleQuote
    · exact .error (by simp [endOfInput, hs])
    · exact .eof (by simp [endOfInput, hs])
  | cons c rest =>
    cases round state value past c rest with
    | error h => exact .error h
    | token tt v used rest' split he hr progress same => exact .token tt v used rest' split he hr progress same
    | go next v used rest' split progress same =>
      have hpos := List.length_pos_of_ne_nil progress
      have hlen : rest'.length < n := by
        rw [← hn, split, List.length_append]
        omega
      have h0 := same []
      simp only [List.append_nil] at h0
      cases ih _ hlen next v (used.reverse ++ past) rest' rfl with
      | eof he => exact .eof (by rw [h0, he])
      | error he => exact .error (by rw [h0, he])
      | token tt w used' rest'' split' he hr _ same' =>
        refine .token tt w (used ++ used') rest'' (by rw [split, split', List.append_assoc]) he hr
          (by simp [progress]) ?_
        intro more
        rw [same, same', List.reverse_append, List.append_assoc]

/-- A call that finds a token leaves strictly fewer unread bytes, also when it put
a delimiter back or looked ahead. -/
theorem parseToken_progress {input input' : Stream} {v v' : Bytes} {tt : TokenType}
    (h : parseToken input v = (tt, v', input')) (he : tt ≠ .eof) (hr : tt ≠ .error) :
    input'.unread.length < input.unread.length := by
  unfold parseToken at h
  cases hg : input.good with
  | false =>
    rw [loop_stopped _ _ hg] at h
    simp only [endOfInput, reduceCtorEq, or_self, if_false, Prod.mk.injEq] at h
    exact absurd h.1.symm he
  | true =>
    rw [InputStream.eq_live_of_good hg] at h ⊢
    cases reads .initialWhitespace v input.past input.unread with
    | eof heof => exact absurd (by rw [← heof, h]) he
    | error herr => exact absurd (by rw [← herr, h]) hr
    | token tt' w used rest split _ _ progress same =>
      have hs := same []
      simp only [List.append_nil] at hs
      rw [h] at hs
      simp only [Prod.mk.injEq] at hs
      have hu := List.length_pos_of_ne_nil (progress (by simp))
      rw [hs.2.2, split, List.length_append]
      change rest.length < used.length + rest.length
      omega

end Koko.Config
