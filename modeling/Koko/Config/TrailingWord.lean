import Koko.Config.ParserCorrectness

/-! A bare word that runs into the end of the input is reported as plain end of
file, so `Parse` never notices it. -/
namespace Koko.Config
open Koko.Lib NginxConfig Position
open InputStream (live)

/-- A nonempty word without white space, quotes, `#`, `;` and braces. -/
def BareWord (w : Bytes) : Prop := w ≠ [] ∧ ∀ b ∈ w, isSpace b = false ∧ b ∉ ascii "'\"#;\x7b\x7d"

private theorem not_endsWord {b : Byte} (h : isSpace b = false ∧ b ∉ ascii "'\"#;\x7b\x7d") :
    endsWord b = false := by
  obtain ⟨hs, hm⟩ := h
  simp only [endsWord, decide_eq_false_iff_not, not_or]
  simp only [ascii, String.reduceToList, List.map_cons, List.map_nil, List.mem_cons,
    List.not_mem_nil, or_false, not_or] at hm
  refine ⟨?_, ?_, ?_, hm.2.2.2.1, hm.2.2.2.2.1, hm.2.2.2.2.2⟩ <;> rintro rfl <;> simp [isSpace, chr] at hs

theorem loop_normal_eof (past value w : Bytes) (hw : ∀ b ∈ w, endsWord b = false) :
    (parseTokenLoop .normal value (live past w)).1 = .eof := by
  induction w generalizing past value with
  | nil => simp [endOfInput]
  | cons b w ih =>
    rw [loop_normal, if_neg (by simp [hw b (by simp)])]
    exact ih _ _ (fun d hd => hw d (by simp [hd]))

theorem loop_comment_eof (past value w : Bytes) (hw : ∀ b ∈ w, isSpace b = false) :
    (parseTokenLoop .comment value (live past w)).1 = .eof := by
  induction w generalizing past value with
  | nil => simp [endOfInput]
  | cons b w ih =>
    have hb : ¬ (b = chr '\n' ∨ b = chr '\r') := by
      have := hw b (by simp)
      rintro (rfl | rfl) <;> simp [isSpace, chr] at this
    rw [loop_comment, if_neg hb]
    exact ih _ _ (fun d hd => hw d (by simp [hd]))

theorem loop_initialWhitespace_eof (past value w : Bytes) (hw : BareWord w) :
    (parseTokenLoop .initialWhitespace value (live past w)).1 = .eof := by
  obtain ⟨b, w, rfl⟩ := List.exists_cons_of_ne_nil hw.1
  obtain ⟨hs, hm⟩ := hw.2 b (by simp)
  simp only [ascii, String.reduceToList, List.map_cons, List.map_nil, List.mem_cons,
    List.not_mem_nil, or_false, not_or] at hm
  have hspace : ¬ (b = chr ' ' ∨ b = chr '\t' ∨ b = chr '\n' ∨ b = chr '\r') := by
    rintro (rfl | rfl | rfl | rfl) <;> simp [isSpace, chr] at hs
  rw [loop_initialWhitespace]
  simp only [hm, hspace, if_false]
  exact loop_normal_eof _ _ _ (fun d hd => not_endsWord (hw.2 d (by simp [hd])))

/-- Reading that ends in end of file still does when a bare word is appended. -/
theorem eof_append (state : TokenParserState) (value past unread w : Bytes) (hw : BareWord w)
    (h : (parseTokenLoop state value (live past unread)).1 = .eof) :
    (parseTokenLoop state value (live past (unread ++ w))).1 = .eof := by
  induction hn : unread.length using Nat.strongRecOn generalizing state value past unread with
  | ind n ih =>
  cases unread with
  | nil =>
    cases state with
    | initialWhitespace => exact loop_initialWhitespace_eof past value w hw
    | normal => exact loop_normal_eof past value w (fun b hb => not_endsWord (hw.2 b hb))
    | comment => exact loop_comment_eof past value w (fun b hb => (hw.2 b hb).1)
    | singleQuote => simp [endOfInput] at h
    | doubleQuote => simp [endOfInput] at h
  | cons c rest =>
    cases round state value past c rest with
    | error he => simp [he] at h
    | token tt v used rest' split he _ _ same =>
      have h0 := same []
      simp only [List.append_nil] at h0
      exact absurd (by rw [h0] at h; exact h) he
    | go next v used rest' split progress same =>
      have h0 := same []
      simp only [List.append_nil] at h0
      rw [h0] at h
      have hpos := List.length_pos_of_ne_nil progress
      have hlen : rest'.length < n := by
        rw [← hn, split, List.length_append]
        omega
      rw [same]
      exact ih _ hlen next v _ rest' h rfl

/-- The tokens before the end of file do not change when a bare word is appended. -/
theorem tokenSequence_append (past x w : Bytes) (hw : BareWord w) {ts : List Token} {v : Bytes}
    (h : tokenSequence (live past x) = ts ++ [(.eof, v)]) :
    ∃ v', tokenSequence (live past (x ++ w)) = ts ++ [(.eof, v')] := by
  induction hn : x.length using Nat.strongRecOn generalizing past x ts with
  | ind n ih =>
  cases reads .initialWhitespace [] past x with
  | error he =>
    rw [tokenSequence_of_stop (.inr he)] at h
    obtain ⟨-, hlast⟩ := List.append_inj' ((List.nil_append _).trans h) rfl
    simp [parseToken, he] at hlast
  | eof he =>
    have he' := eof_append _ _ _ _ w hw he
    rw [tokenSequence_of_stop (.inl he)] at h
    obtain ⟨rfl, -⟩ := List.append_inj' ((List.nil_append _).trans h) rfl
    exact ⟨_, by rw [tokenSequence_of_stop (.inl he'), parseToken, he']; rfl⟩
  | token tt v' used rest split he hr progress same =>
    have hpos := List.length_pos_of_ne_nil (progress (by simp))
    have hlen : rest.length < n := by
      rw [← hn, split, List.length_append]
      omega
    have h0 := same []
    simp only [List.append_nil] at h0
    rw [tokenSequence_of_token h0 he hr] at h
    rw [tokenSequence_of_token (same w) he hr]
    split_ifs at h ⊢ with hc
    · exact ih _ hlen _ rest h rfl
    · cases ts with
      | nil =>
        simp only [List.nil_append, List.cons.injEq, Prod.mk.injEq] at h
        exact absurd h.1.1 he
      | cons t ts =>
        simp only [List.cons_append, List.cons.injEq] at h
        obtain ⟨rfl, h⟩ := h
        obtain ⟨v'', hv⟩ := ih _ hlen _ rest h rfl
        exact ⟨v'', by rw [hv]; rfl⟩

theorem run_eof_value (p : Position) (ts : List Token) (v v' : Bytes) :
    p.run (ts ++ [(.eof, v)]) = p.run (ts ++ [(.eof, v')]) := by
  induction ts generalizing p with
  | nil => rfl
  | cons t ts ih =>
    simp only [List.cons_append, Position.run, ih]

/-- Whatever text `Parse` accepts, it also accepts with a bare word appended, and
it builds the same tree: the word is silently dropped. -/
theorem trailing_word_accepted (x w : Bytes) (c : NginxConfig) (r : ParseResult)
    (hx : parse (.ofList x) c = some r) (hr : r.returned = true) (hw : BareWord w) :
    ∃ r', parse (.ofList (x ++ w)) c = some r' ∧ r'.returned = true ∧ r'.config = r.config := by
  obtain ⟨m, hp⟩ := parse_eq_run (.ofList x) c
  obtain ⟨m', hp'⟩ := parse_eq_run (.ofList (x ++ w)) c
  obtain rfl := Option.some.inj (hx.symm.trans hp)
  obtain ⟨ts, v, ss, hts, -⟩ := (run_true_iff _ c).mp hr
  obtain ⟨v', hts'⟩ := tokenSequence_append [] x w hw hts
  have same : (between [] c .start).run (tokenSequence (.ofList (x ++ w))) =
      (between [] c .start).run (tokenSequence (.ofList x)) := by
    rw [hts]
    exact (congrArg _ hts').trans (run_eof_value _ ts v' v)
  exact ⟨_, hp', by rw [same]; exact hr, by rw [same]⟩

/-- `a;` followed by `b` is accepted and `b` leaves no trace. -/
theorem trailing_word_dropped :
    parse (.ofList (ascii "a;")) [] = some ⟨true, [.mk [ascii "a"] none], ""⟩ ∧
    BareWord (ascii "b") ∧
    parse (.ofList (ascii "a;" ++ ascii "b")) [] = some ⟨true, [.mk [ascii "a"] none], ""⟩ := by
  refine ⟨by decide +kernel, ⟨by decide, by simp [ascii, isSpace, chr]⟩, by decide +kernel⟩

/-- The general statement at `a;` and `b`. -/
theorem trailing_word_accepted_after_statement :
    ∃ r', parse (.ofList (ascii "a;" ++ ascii "b")) [] = some r' ∧ r'.returned = true ∧
      r'.config = [.mk [ascii "a"] none] :=
  trailing_word_accepted (ascii "a;") (ascii "b") [] ⟨true, [.mk [ascii "a"] none], ""⟩
    (by decide +kernel) rfl ⟨by decide, by simp [ascii, isSpace, chr]⟩

end Koko.Config
