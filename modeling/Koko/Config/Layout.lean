import Koko.Config.ParserCorrectness
import Koko.Config.Scanner

/-! White space and comments between tokens carry no meaning. -/
namespace Koko.Config
open Koko.Lib
open InputStream (live)

/-- Any number of blanks, line ends and comments. -/
inductive Layout : Bytes → Prop where
  | nil : Layout []
  | blank {b : Byte} {g : Bytes} (hb : b ∈ ascii " \t\n\r") (h : Layout g) : Layout (b :: g)
  | comment {body g : Bytes} (hn : chr '\n' ∉ body) (hr : chr '\r' ∉ body) (h : Layout g) :
      Layout (chr '#' :: (body ++ chr '\n' :: g))

/-- Inside a quoted string or a comment. -/
def Context.Enclosed : Context → Prop
  | comment _ | quoted _ _ | escape _ _ | backslash _ _ => True
  | gap | word _ | closing _ _ => False

/-- The bytes after which a token can begin. -/
def delimiters : Bytes := ascii " \t\n;\x7b\x7d"

/-- The text is empty, or ends with a delimiter outside any quoted string and comment. A text
that the scanner gives up on is outside. -/
def EndsOutside (text : Bytes) : Prop :=
  text = [] ∨ ((∃ b ∈ delimiters, text.getLast? = some b) ∧
    ∀ context ∈ (scanner.feed .gap text).2, ¬ context.Enclosed)

private theorem inGap_delimiter {b : Byte} (h : b ∈ delimiters) : (Context.inGap b).2 = some .gap := by
  simp only [delimiters, ascii, String.reduceToList, List.map_cons, List.map_nil, List.mem_cons, List.not_mem_nil,
    or_false] at h
  rcases h with rfl | rfl | rfl | rfl | rfl | rfl <;> rfl

private theorem delimiter_plain {b : Byte} (h : b ∈ delimiters) :
    b ≠ chr '\\' ∧ b ∉ escapeChars ∧ endsWord b = true ∧ ∀ quote : Quote, b ≠ quote.byte := by
  simp only [delimiters, ascii, String.reduceToList, List.map_cons, List.map_nil, List.mem_cons, List.not_mem_nil,
    or_false] at h
  rcases h with rfl | rfl | rfl | rfl | rfl | rfl <;>
    exact ⟨by decide, by decide, by decide, fun quote => by cases quote <;> decide⟩

private theorem inQuotes_delimiter {b : Byte} (h : b ∈ delimiters) (quote : Quote) (value : Bytes) :
    Context.inQuotes quote value b = ([], some (.quoted quote (value ++ [b]))) := by
  obtain ⟨hb, -, -, hq⟩ := delimiter_plain h
  rw [Context.inQuotes, if_neg hb, if_neg (hq quote)]

/-- Behind a delimiter a new token begins, unless it belongs to a quoted string or comment. -/
theorem step_delimiter {b : Byte} (h : b ∈ delimiters) {context next : Context}
    (hs : (context.step b).2 = some next) : next = .gap ∨ next.Enclosed := by
  obtain ⟨hb, hesc, hend, hq⟩ := delimiter_plain h
  cases context with
  | gap =>
    left
    exact Option.some.inj (hs.symm.trans (inGap_delimiter h))
  | word value =>
    left
    rw [Context.step, if_pos hend] at hs
    exact Option.some.inj (hs.symm.trans (inGap_delimiter h))
  | comment value =>
    rw [Context.step] at hs
    split_ifs at hs
    · exact .inl (Option.some.inj hs).symm
    · right
      rw [← Option.some.inj hs]
      trivial
  | quoted quote value =>
    right
    rw [Context.step, inQuotes_delimiter h] at hs
    rw [← Option.some.inj hs]
    trivial
  | escape quote value =>
    rw [Context.step, if_pos hesc] at hs
    cases hs
  | backslash quote value =>
    right
    rw [Context.step, if_neg (hq quote), inQuotes_delimiter h] at hs
    rw [← Option.some.inj hs]
    trivial
  | closing quote value =>
    rw [Context.step] at hs
    split_ifs at hs
    · exact .inl (Option.some.inj (hs.symm.trans (inGap_delimiter h)))

/-- A text that ends outside stops the scanner or leaves it between tokens. -/
theorem feed_of_endsOutside {text : Bytes} (h : EndsOutside text) :
    (scanner.feed .gap text).2 = none ∨ (scanner.feed .gap text).2 = some .gap := by
  rcases h with rfl | ⟨⟨b, hb, hl⟩, ho⟩
  · exact .inr rfl
  · obtain ⟨front, rfl⟩ := List.getLast?_eq_some_iff.mp hl
    rcases hf : scanner.feed .gap front with ⟨out, context⟩
    cases context with
    | none =>
      left
      rw [Transducer.feed_append_stop hf]
    | some context =>
      rw [Transducer.feed_append_go hf] at ho ⊢
      rcases hs : context.step b with ⟨last, next⟩
      have hstep : scanner.step context b = (last, next) := hs
      cases next with
      | none =>
        left
        rw [Transducer.feed_cons_stop hstep]
      | some next =>
        right
        rw [Transducer.feed_cons_go hstep] at ho ⊢
        have hnext : next = .gap ∨ next.Enclosed := step_delimiter hb (by rw [hs])
        rcases hnext with rfl | he
        · rfl
        · exact absurd he (ho next rfl)

private theorem feed_comment {body : Bytes} (hn : chr '\n' ∉ body) (hr : chr '\r' ∉ body) (value g : Bytes) :
    scanner.feed (.comment value) (body ++ chr '\n' :: g) = scanner.feed .gap g := by
  induction body generalizing value with
  | nil =>
    have hs : scanner.step (.comment value) (chr '\n') = ([], some .gap) := rfl
    rw [List.nil_append, Transducer.feed_cons_go hs]
    rfl
  | cons c body ih =>
    simp only [List.mem_cons, not_or] at hn hr
    have hc : ¬ (c = chr '\n' ∨ c = chr '\r') := by
      rintro (rfl | rfl)
      · exact hn.1 rfl
      · exact hr.1 rfl
    have hs : scanner.step (.comment value) c = ([], some (.comment (value ++ [c]))) := if_neg hc
    rw [List.cons_append, Transducer.feed_cons_go hs, ih hn.2 hr.2]
    rfl

/-- Layout between tokens puts nothing out. -/
theorem feed_layout {g : Bytes} (h : Layout g) : scanner.feed .gap g = ([], some .gap) := by
  induction h with
  | nil => rfl
  | @blank b g hb h ih =>
    have hs : scanner.step .gap b = ([], some .gap) := by
      simp only [ascii, String.reduceToList, List.map_cons, List.map_nil, List.mem_cons, List.not_mem_nil,
        or_false] at hb
      rcases hb with rfl | rfl | rfl | rfl <;> rfl
    rw [Transducer.feed_cons_go hs, ih]
    rfl
  | @comment body g hn hr h ih =>
    have hs : scanner.step .gap (chr '#') = ([], some (.comment [chr '#'])) := rfl
    rw [Transducer.feed_cons_go hs, feed_comment hn hr, ih]
    rfl

theorem results_layout {x₁ g : Bytes} (h : EndsOutside x₁) (hg : Layout g) (x₂ : Bytes) :
    scanner.results .gap (x₁ ++ g ++ x₂) = scanner.results .gap (x₁ ++ x₂) := by
  rcases hf : scanner.feed .gap x₁ with ⟨out, context⟩
  have hx := feed_of_endsOutside h
  rw [hf] at hx
  rw [List.append_assoc]
  rcases hx with rfl | rfl
  · rw [Transducer.results_append_stop hf, Transducer.results_append_stop hf]
  · rw [Transducer.results_append_go hf, Transducer.results_append_go hf,
      Transducer.results_append_go (feed_layout hg), List.nil_append]

/-- Layout put between tokens changes neither the verdict of `Parse` nor the tree it builds. -/
theorem parse_layout {x₁ g : Bytes} (h : EndsOutside x₁) (hg : Layout g) (x₂ : Bytes) (c : NginxConfig) :
    ∃ r, parse (.ofList (x₁ ++ g ++ x₂)) c = some r ∧ parse (.ofList (x₁ ++ x₂)) c = some r := by
  have hts : tokenSequence (.ofList (x₁ ++ g ++ x₂)) = tokenSequence (.ofList (x₁ ++ x₂)) := by
    have h₁ := tokenSequence_eq_results [] (x₁ ++ g ++ x₂)
    rw [results_layout h hg, ← tokenSequence_eq_results []] at h₁
    exact h₁
  obtain ⟨m, hp⟩ := parse_eq_run (.ofList (x₁ ++ x₂)) c
  refine ⟨_, ?_, hp⟩
  rw [parse, parseLoop_eq_runTokens] at hp ⊢
  rw [hts]
  exact hp

/-- A comment and a tab behind a quoted word with a semicolon in it. -/
theorem parse_layout_comment :
    ∃ r, parse (.ofList (ascii "a 'x; y' " ++ ascii "# \x7b\n\t" ++ ascii "b;")) [] = some r ∧
      parse (.ofList (ascii "a 'x; y' " ++ ascii "b;")) [] = some r := by
  have ho : EndsOutside (ascii "a 'x; y' ") := by
    refine .inr ⟨⟨chr ' ', by decide, by decide⟩, ?_⟩
    intro context hc
    obtain rfl : context = .gap := Option.some.inj (hc.symm.trans (by decide +kernel))
    exact id
  have hg : Layout (chr '#' :: (ascii " \x7b" ++ chr '\n' :: [chr '\t'])) :=
    .comment (by decide) (by decide) (.blank (by decide) .nil)
  exact parse_layout ho hg (ascii "b;") []

end Koko.Config
