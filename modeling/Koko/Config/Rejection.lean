import Koko.Config.ParserCorrectness

/-! What a rejected configuration leaves behind. Statements are attached to the
caller's tree as soon as their first token is read and are never taken back. -/
namespace Koko.Config
open Koko.Lib NginxConfig Position

private theorem length_lt_plug {base done : NginxConfig} {w : List Token} {blocks : List OpenBlock}
    (h : Opened base w blocks done) (s : NginxConfigStatement) :
    base.length < (plug blocks (done ++ [s])).length := by
  induction h generalizing s with
  | root h => simp [plug]
  | enter h ne inner ih => exact ih _

/-- Once a token has been consumed, the caller's tree has grown. -/
theorem length_lt_of_reached {base : NginxConfig} {w : List Token} {p : Position}
    (h : Reached base w p) (hw : w ≠ []) : base.length < p.state.config.length := by
  cases p with
  | inside blocks done ws =>
    obtain ⟨_, _, _, ho⟩ := h
    exact length_lt_plug ho _
  | between blocks done last =>
    cases h.1 with
    | root hd =>
      have hpos := List.length_pos_of_ne_nil (hd.ne_nil hw)
      simp only [Position.state, plug, List.length_append]
      omega
    | enter ho ne inner => exact length_lt_plug ho _

theorem reached_run {base : NginxConfig} {w : List Token} {p : Position} (h : Reached base w p)
    (ts : List Token) : ∃ us, us <+: ts ∧ Reached base (w ++ us) (p.run ts).2 := by
  induction ts generalizing w p with
  | nil => exact ⟨[], List.nil_prefix, by simpa [Position.run] using h⟩
  | cons t ts ih =>
    have stay : Reached base (w ++ []) p := by simpa using h
    rw [Position.run]
    split_ifs
    · exact ⟨[], List.nil_prefix, stay⟩
    · exact ⟨[], List.nil_prefix, stay⟩
    · cases ha : p.advance t with
      | none => exact ⟨[], List.nil_prefix, stay⟩
      | some p' =>
        obtain ⟨us, hu, hr⟩ := ih (reached_advance h ha)
        exact ⟨t :: us, by simpa using hu, by simpa using hr⟩

/-- The first token is a word, so that a statement is attached. -/
def BeginsWithWord (input : Stream) : Prop := ∃ v ts, tokenSequence input = (.normal, v) :: ts

theorem run_config_eq_iff (input : Stream) (c : NginxConfig) :
    ((between [] c .start).run (tokenSequence input)).2.state.config = c ↔ ¬ BeginsWithWord input := by
  constructor
  · rintro he ⟨v, ts, ht⟩
    rw [ht] at he
    have hr := reached_advance (reached_start c) (t := (.normal, v)) rfl
    obtain ⟨us, -, hq⟩ := reached_run hr ts
    have hlt := length_lt_of_reached hq (by simp)
    simp only [Position.run, reduceCtorEq, if_false, advance] at he
    rw [he] at hlt
    omega
  · intro hn
    cases hts : tokenSequence input with
    | nil => rfl
    | cons t ts =>
      obtain ⟨tt, v⟩ := t
      have hne : tt ≠ .normal := by
        rintro rfl
        exact hn ⟨v, ts, hts⟩
      have hadv : (between [] c .start).advance (tt, v) = none := by
        cases tt <;> simp_all [advance]
      rw [Position.run, hadv]
      split_ifs <;> rfl

/-- A rejected stream leaves the caller's configuration as it was iff its first
token is not a word; `parse_args` hands on whatever tree is left. -/
theorem rejection_leaves_no_trace_iff (input : Stream) (c : NginxConfig) :
    ∃ r, parse input c = some r ∧
      ((r.returned = false → r.config = c) ↔ Grammatical input ∨ ¬ BeginsWithWord input) ∧
      ∀ files program name text, files name = some text → input = .ofList text →
        parseArgs files [program, name] (some c) = some (.proceed 0 r.config) := by
  obtain ⟨message, hp⟩ := parse_eq_run input c
  refine ⟨_, hp, ?_, ?_⟩
  · rw [← run_true_iff input c, ← run_config_eq_iff input c, ← Bool.not_eq_true, ← or_iff_not_imp_left]
  · rintro files program name text hf rfl
    simp [parseArgs, parseFile, hf, hp]

/-- `port 1234; {`: the port statement stays in the tree that `main` goes on with. -/
theorem rejected_port_is_kept :
    (∃ m, parse (.ofList (ascii "port 1234; \x7b")) [] =
      some ⟨false, [.mk [ascii "port", ascii "1234"] none], m⟩) ∧
    ∃ c, mainConfig (fun _ => some (ascii "port 1234; \x7b")) [ascii "webserver", ascii "conf"] =
      some (.proceed 0 c) ∧ c ≠ [] := by
  have h : parse (.ofList (ascii "port 1234; \x7b")) [] = some ⟨false, [.mk [ascii "port", ascii "1234"] none],
      "Bad transition from TOKEN_TYPE_STATEMENT_END to TOKEN_TYPE_START_BLOCK\n"⟩ := by decide +kernel
  refine ⟨⟨_, h⟩, [.mk [ascii "port", ascii "1234"] none], ?_, by simp⟩
  simp [mainConfig, parseArgs, parseFile, h]

end Koko.Config
