import Koko.Config.Scanner
import Koko.Config.TokenValues

/-! Carriage returns before line feeds. They are skipped between tokens and end a comment,
but inside a bare word they are an ordinary byte, so that a word at the end of a line keeps one. -/
namespace Koko.Config
open Koko.Lib Position
open InputStream (live)

/-- Every line feed is preceded by a carriage return. -/
def crlf (text : Bytes) : Bytes := text.flatMap (fun b => if b = chr '\n' then [chr '\r', b] else [b])

/-- A bare word that `Parse` takes in is followed by a line feed: the tokens before it fit. -/
def WordAtLineEnd (text : Bytes) : Prop :=
  ∃ before after out value, text = before ++ chr '\n' :: after ∧
    scanner.feed .gap before = (out, some (.word value)) ∧ ((between [] [] .start).follow out).isSome = true

/-- No carriage return and no quote. -/
def UnixText (text : Bytes) : Prop := ∀ b ∈ text, b ≠ chr '\r' ∧ b ≠ chr '\'' ∧ b ≠ chr '"'

/-- A context reached by such a text. -/
def Context.Unix : Context → Prop
  | gap => True
  | word value | comment value => chr '\r' ∉ value
  | _ => False

def stripReturn (value : Bytes) : Bytes :=
  if value.getLast? = some (chr '\r') then value.dropLast else value

theorem crlf_newline (text : Bytes) : crlf (chr '\n' :: text) = chr '\r' :: chr '\n' :: crlf text := rfl

theorem crlf_cons {b : Byte} (h : b ≠ chr '\n') (text : Bytes) : crlf (b :: text) = b :: crlf text := by
  simp [crlf, h]

theorem crlf_append (a b : Bytes) : crlf (a ++ b) = crlf a ++ crlf b := List.flatMap_append

theorem stripReturn_eq_self_iff {value : Bytes} : stripReturn value = value ↔ value.getLast? ≠ some (chr '\r') := by
  unfold stripReturn
  split_ifs with h
  · refine iff_of_false ?_ (fun hn => hn h)
    intro he
    have hlen := congrArg List.length he
    rw [List.length_dropLast] at hlen
    have hpos : 0 < value.length := List.length_pos_of_ne_nil (by rintro rfl; simp at h)
    omega
  · exact iff_of_true rfl h

theorem stripReturn_of_free {value : Bytes} (h : chr '\r' ∉ value) : stripReturn value = value :=
  stripReturn_eq_self_iff.mpr (fun hl => h (List.mem_of_getLast? hl))

theorem stripReturn_append (value : Bytes) : stripReturn (value ++ [chr '\r']) = value := by
  simp [stripReturn]

/-- The values of these tokens hold no carriage return. -/
def FreeTokens (ts : List Token) : Prop := ∀ t ∈ ts, chr '\r' ∉ t.2

theorem map_strip_of_free {ts : List Token} (h : FreeTokens ts) : ts.map (Token.map stripReturn) = ts := by
  have hid : ∀ t ∈ ts, Token.map stripReturn t = id t := fun t ht =>
    Prod.ext rfl (stripReturn_of_free (h t ht))
  rw [List.map_congr_left hid, List.map_id]

private theorem inGap_unix {b : Byte} (hb : b ≠ chr '\r' ∧ b ≠ chr '\'' ∧ b ≠ chr '"') :
    ∃ out next, Context.inGap b = (out, some next) ∧ next.Unix ∧ FreeTokens out := by
  obtain ⟨hr, hs, hd⟩ := hb
  have hv : chr '\r' ∉ [b] := by simpa using hr.symm
  unfold Context.inGap
  simp only [hs, hd, if_false]
  split_ifs
  · exact ⟨_, _, rfl, trivial, by simpa [FreeTokens] using hr.symm⟩
  · exact ⟨_, _, rfl, trivial, by simpa [FreeTokens] using hr.symm⟩
  · exact ⟨_, _, rfl, hv, by simp [FreeTokens]⟩
  · exact ⟨_, _, rfl, trivial, by simpa [FreeTokens] using hr.symm⟩
  · exact ⟨_, _, rfl, trivial, by simp [FreeTokens]⟩
  · exact ⟨_, _, rfl, hv, by simp [FreeTokens]⟩

/-- Without carriage returns and quotes the scanner goes on, in a context of the same kind. -/
theorem step_unix {context : Context} (hc : context.Unix) {b : Byte}
    (hb : b ≠ chr '\r' ∧ b ≠ chr '\'' ∧ b ≠ chr '"') :
    ∃ out next, scanner.step context b = (out, some next) ∧ next.Unix ∧ FreeTokens out := by
  obtain ⟨out, next, hg, hn, hf⟩ := inGap_unix hb
  have hgrow : ∀ {value}, chr '\r' ∉ value → chr '\r' ∉ value ++ [b] := by
    intro value hv
    simpa using ⟨hv, hb.1.symm⟩
  change ∃ out next, context.step b = (out, some next) ∧ _
  cases context with
  | gap => exact ⟨out, next, hg, hn, hf⟩
  | word value =>
    rw [Context.step, hg]
    split_ifs
    · refine ⟨_, next, rfl, hn, ?_⟩
      intro t ht
      rcases List.mem_cons.mp ht with rfl | ht
      · exact hc
      · exact hf t ht
    · exact ⟨_, _, rfl, hgrow hc, by simp [FreeTokens]⟩
  | comment value =>
    rw [Context.step]
    split_ifs
    · exact ⟨_, _, rfl, trivial, by simp [FreeTokens]⟩
    · exact ⟨_, _, rfl, hgrow hc, by simp [FreeTokens]⟩
  | quoted | escape | backslash | closing => exact absurd hc id

private theorem feed_word_newline (value text : Bytes) :
    scanner.feed (.word value) (chr '\n' :: text) =
      ((.normal, value) :: (scanner.feed .gap text).1, (scanner.feed .gap text).2) := by
  have hs : scanner.step (.word value) (chr '\n') = ([(.normal, value)], some .gap) := rfl
  exact Transducer.feed_cons_go hs text

private theorem feed_word_crlf (value text : Bytes) :
    scanner.feed (.word value) (chr '\r' :: chr '\n' :: text) =
      ((.normal, value ++ [chr '\r']) :: (scanner.feed .gap text).1, (scanner.feed .gap text).2) := by
  have hs : scanner.step (.word value) (chr '\r') = ([], some (.word (value ++ [chr '\r']))) := rfl
  rw [Transducer.feed_cons_go hs, feed_word_newline]
  rfl

/-- Outside a word a line end is skipped, or ends a comment, in both conventions. -/
private theorem feed_newline {context : Context} (hc : context.Unix) (hw : ∀ value, context ≠ .word value)
    (text : Bytes) :
    scanner.feed context (chr '\n' :: text) = scanner.feed .gap text ∧
      scanner.feed context (chr '\r' :: chr '\n' :: text) = scanner.feed .gap text := by
  have hgap : scanner.step .gap (chr '\n') = ([], some .gap) := rfl
  have hn : scanner.step context (chr '\n') = ([], some .gap) ∧ scanner.step context (chr '\r') = ([], some .gap) := by
    cases context with
    | gap => exact ⟨rfl, rfl⟩
    | comment value => exact ⟨rfl, rfl⟩
    | word value => exact absurd rfl (hw value)
    | quoted | escape | backslash | closing => exact absurd hc id
  have hlf : ∀ text, scanner.feed .gap (chr '\n' :: text) = scanner.feed .gap text :=
    Transducer.feed_cons_go hgap
  exact ⟨Transducer.feed_cons_go hn.1 text, (Transducer.feed_cons_go hn.2 _).trans (hlf text)⟩

theorem UnixText.tail {b : Byte} {text : Bytes} (h : UnixText (b :: text)) : UnixText text :=
  fun d hd => h d (List.mem_cons_of_mem b hd)

/-- With carriage returns the scanner comes to the same context, and the tokens it puts out are
the same but for a final carriage return. -/
theorem feed_crlf {context : Context} (hc : context.Unix) {text : Bytes} (hx : UnixText text) :
    ∃ out out' next, scanner.feed context text = (out, some next) ∧ scanner.feed context (crlf text) = (out', some next) ∧
      next.Unix ∧ out'.map (Token.map stripReturn) = out := by
  induction text generalizing context with
  | nil => exact ⟨[], [], context, rfl, rfl, hc, rfl⟩
  | cons b text ih =>
    by_cases hb : b = chr '\n'
    · subst hb
      have hgap : Context.gap.Unix := trivial
      obtain ⟨out, out', next, h, h', hn, hm⟩ := ih hgap hx.tail
      rw [crlf_newline]
      by_cases hw : ∃ value, context = .word value
      · obtain ⟨value, rfl⟩ := hw
        rw [feed_word_newline, feed_word_crlf, h, h']
        refine ⟨_, _, next, rfl, rfl, hn, ?_⟩
        rw [List.map_cons, hm, Token.map, stripReturn_append]
      · rw [not_exists] at hw
        rw [(feed_newline hc hw text).1, (feed_newline hc hw (crlf text)).2]
        exact ⟨out, out', next, h, h', hn, hm⟩
    · obtain ⟨first, middle, hs, hmiddle, hfree⟩ := step_unix hc (hx b List.mem_cons_self)
      obtain ⟨out, out', next, h, h', hn, hm⟩ := ih hmiddle hx.tail
      rw [crlf_cons hb, Transducer.feed_cons_go hs, Transducer.feed_cons_go hs, h, h']
      refine ⟨_, _, next, rfl, rfl, hn, ?_⟩
      rw [List.map_append, hm, map_strip_of_free hfree]

theorem atEnd_unix {context : Context} (hc : context.Unix) :
    context.atEnd.1 = .eof ∧ Token.map stripReturn context.atEnd = context.atEnd := by
  cases context with
  | gap => exact ⟨rfl, rfl⟩
  | word value | comment value => exact ⟨rfl, Prod.ext rfl (stripReturn_of_free hc)⟩
  | quoted | escape | backslash | closing => exact absurd hc id

theorem tokenSequence_crlf {text : Bytes} (hx : UnixText text) :
    tokenSequence (.ofList text) = (tokenSequence (.ofList (crlf text))).map (Token.map stripReturn) := by
  have hgap : Context.gap.Unix := trivial
  obtain ⟨out, out', next, h, h', hn, hm⟩ := feed_crlf hgap hx
  have hts := tokenSequence_eq_results [] text
  have hts' := tokenSequence_eq_results [] (crlf text)
  rw [Transducer.results, h] at hts
  rw [Transducer.results, h'] at hts'
  refine hts.trans (Eq.trans ?_ (congrArg _ hts'.symm))
  rw [List.map_append, hm]
  exact congrArg (out ++ [·]) (atEnd_unix hn).2.symm

private theorem split_behind {α : Type} {out xs pre rest : List α} {t : α} (ht : t ∉ out)
    (h : out ++ xs = pre ++ t :: rest) : ∃ pre', pre = out ++ pre' ∧ xs = pre' ++ t :: rest := by
  rcases List.append_eq_append_iff.mp h with ⟨m, hp, hm⟩ | ⟨m, ho, hm⟩
  · exact ⟨m, hp, hm⟩
  · cases m with
    | nil => exact ⟨[], by simpa using ho.symm, hm.symm⟩
    | cons b m => exact absurd (by simp [ho, (List.cons.inj hm).1]) ht

/-- A word that ends in a carriage return comes from a word at the end of a line. -/
theorem word_of_return {context : Context} (hc : context.Unix) {text : Bytes} (hx : UnixText text) {pre rest : List Token}
    {value : Bytes} (h : scanner.results context (crlf text) = pre ++ (.normal, value ++ [chr '\r']) :: rest) :
    ∃ before after word, text = before ++ chr '\n' :: after ∧
      scanner.feed context before = (pre.map (Token.map stripReturn), some (.word word)) := by
  induction text generalizing context pre with
  | nil =>
    have hl : [context.atEnd] = pre ++ (.normal, value ++ [chr '\r']) :: rest := h
    have hm : (TokenType.normal, value ++ [chr '\r']) = context.atEnd :=
      List.mem_singleton.mp (by rw [hl]; simp)
    have he := (atEnd_unix hc).1
    rw [← hm] at he
    cases he
  | cons b text ih =>
    have hgap : Context.gap.Unix := trivial
    by_cases hb : b = chr '\n'
    · subst hb
      rw [crlf_newline, Transducer.results] at h
      by_cases hw : ∃ word, context = .word word
      · obtain ⟨word, rfl⟩ := hw
        cases pre with
        | nil => exact ⟨[], text, word, rfl, rfl⟩
        | cons t pre =>
          rw [feed_word_crlf] at h
          obtain ⟨rfl, htail⟩ := List.cons.inj h
          obtain ⟨before, after, word', rfl, hf⟩ := ih hgap hx.tail htail
          refine ⟨chr '\n' :: before, after, word', rfl, ?_⟩
          rw [feed_word_newline, hf, List.map_cons, Token.map, stripReturn_append]
      · rw [not_exists] at hw
        rw [(feed_newline hc hw (crlf text)).2] at h
        obtain ⟨before, after, word, rfl, hf⟩ := ih hgap hx.tail h
        exact ⟨chr '\n' :: before, after, word, rfl, by rw [(feed_newline hc hw before).1, hf]⟩
    · obtain ⟨out, next, hs, hn, hfree⟩ := step_unix hc (hx b List.mem_cons_self)
      rw [crlf_cons hb, Transducer.results_cons_go hs] at h
      have hnot : (TokenType.normal, value ++ [chr '\r']) ∉ out := fun hm => hfree _ hm (by simp)
      obtain ⟨pre', rfl, h'⟩ := split_behind hnot h
      obtain ⟨before, after, word, rfl, hf⟩ := ih hn hx.tail h'
      refine ⟨b :: before, after, word, rfl, ?_⟩
      rw [Transducer.feed_cons_go hs, hf, List.map_append, map_strip_of_free hfree]

private theorem mapTokens_start (f : Bytes → Bytes) : (between [] [] .start).mapTokens f = between [] [] .start := rfl

private theorem mem_wordValues {v : Bytes} {ts : List Token} (h : v ∈ wordValues ts) : (TokenType.normal, v) ∈ ts := by
  obtain ⟨⟨tt, w⟩, ht, rfl⟩ := List.mem_map.mp h
  obtain ⟨hm, hn⟩ := List.mem_filter.mp ht
  rw [decide_eq_true_eq] at hn
  rwa [← hn]

/-- A stored token ends in a carriage return iff a word that was taken in stands at a line end. -/
theorem stored_return_iff {text : Bytes} (hx : UnixText text) :
    (∃ v ∈ stored ((between [] [] .start).run (tokenSequence (.ofList (crlf text)))).2.state.config,
      v.getLast? = some (chr '\r')) ↔ WordAtLineEnd text := by
  have hgap : Context.gap.Unix := trivial
  have hts : tokenSequence (.ofList (crlf text)) = scanner.results .gap (crlf text) :=
    tokenSequence_eq_results [] (crlf text)
  rw [hts]
  constructor
  · rintro ⟨v, hv, hl⟩
    obtain ⟨us, ⟨ts, hus⟩, hf, hstored⟩ := stored_run (between [] [] .start) (scanner.results .gap (crlf text))
    rw [hstored] at hv
    obtain ⟨pre, post, rfl⟩ := List.append_of_mem (mem_wordValues hv)
    obtain ⟨value, rfl⟩ := List.getLast?_eq_some_iff.mp hl
    obtain ⟨before, after, word, rfl, hfeed⟩ := word_of_return hgap hx (hus.symm.trans (List.append_assoc _ _ _))
    refine ⟨before, after, _, word, rfl, hfeed, ?_⟩
    rw [← mapTokens_start stripReturn, follow_mapTokens, Option.isSome_map]
    rw [follow_append] at hf
    cases hp : (between [] [] .start).follow pre with
    | none =>
      rw [hp] at hf
      cases hf
    | some q => rfl
  · rintro ⟨before, after, out, value, rfl, hfeed, hf⟩
    have hbefore : UnixText before := fun b hb => hx b (List.mem_append_left _ hb)
    obtain ⟨out₀, out', next, h, h', -, hm⟩ := feed_crlf hgap hbefore
    rw [hfeed] at h
    obtain ⟨rfl, hnext⟩ := Prod.mk.inj h
    obtain rfl := Option.some.inj hnext
    have hresults : scanner.results .gap (crlf (before ++ chr '\n' :: after)) =
        out' ++ (.normal, value ++ [chr '\r']) :: scanner.results .gap (crlf after) := by
      rw [crlf_append, crlf_newline, Transducer.results_append_go h', Transducer.results, feed_word_crlf]
      rfl
    rw [← hm, ← mapTokens_start stripReturn, follow_mapTokens, Option.isSome_map] at hf
    obtain ⟨q, hq⟩ := Option.isSome_iff_exists.mp hf
    obtain ⟨inside, hi⟩ := exists_advance_word q (value ++ [chr '\r'])
    obtain ⟨us, -, -, hstored⟩ := stored_run inside (scanner.results .gap (crlf after))
    refine ⟨value ++ [chr '\r'], ?_, by simp⟩
    rw [hresults, run_of_follow hq, run, if_neg (by simp), if_neg (by simp), hi]
    simp only [hstored, stored_advance hi]
    simp [wordValues]

/-- With a carriage return before every line feed `Parse` gives the same verdict; it builds the
same tree iff no bare word that it takes in stands at the end of a line. -/
theorem parse_crlf_iff {text : Bytes} (hr : chr '\r' ∉ text) (hs : chr '\'' ∉ text) (hd : chr '"' ∉ text) :
    ∃ r r', parse (.ofList text) [] = some r ∧ parse (.ofList (crlf text)) [] = some r' ∧
      r'.returned = r.returned ∧ (r'.config = r.config ↔ ¬ WordAtLineEnd text) := by
  have hx : UnixText text := by
    intro b hb
    refine ⟨?_, ?_, ?_⟩
    · rintro rfl
      exact hr hb
    · rintro rfl
      exact hs hb
    · rintro rfl
      exact hd hb
  obtain ⟨r', r, hp', hp, hret, hcfg⟩ := parse_mapTokens stripReturn (tokenSequence_crlf hx) []
  refine ⟨r, r', hp, hp', hret.symm, ?_⟩
  obtain ⟨m, hrun⟩ := parse_eq_run (.ofList (crlf text)) []
  obtain rfl := Option.some.inj (hp'.symm.trans hrun)
  rw [hcfg, eq_comm, mapTokens_eq_self_iff, ← stored_return_iff hx, not_exists]
  simp only [stripReturn_eq_self_iff, ne_eq, not_and]

/-- `a`, a line feed, `b;`: the first word gets a carriage return. -/
theorem return_kept_in_word :
    chr '\r' ∉ ascii "a\nb;" ∧ chr '\'' ∉ ascii "a\nb;" ∧ chr '"' ∉ ascii "a\nb;" ∧
    parse (.ofList (ascii "a\nb;")) [] = some ⟨true, [.mk [ascii "a", ascii "b"] none], ""⟩ ∧
    parse (.ofList (crlf (ascii "a\nb;"))) [] = some ⟨true, [.mk [ascii "a\r", ascii "b"] none], ""⟩ := by
  refine ⟨by decide, by decide, by decide, by decide +kernel, by decide +kernel⟩

/-- A line end behind a semicolon and one in a comment do no harm. -/
theorem parse_crlf_after_statement :
    ∃ r r', parse (.ofList (ascii "a b;\n# c\n")) [] = some r ∧
      parse (.ofList (crlf (ascii "a b;\n# c\n"))) [] = some r' ∧ r'.returned = r.returned ∧
      (r'.config = r.config ↔ ¬ WordAtLineEnd (ascii "a b;\n# c\n")) :=
  parse_crlf_iff (by decide) (by decide) (by decide)

end Koko.Config
