import Mathlib.Data.List.Basic

/-! Machines that read one symbol at a time, put out results on the way, and either go on
or stop. -/
namespace Koko.Lib

structure Transducer (σ α β : Type) where
  step : σ → α → List β × Option σ
  finish : σ → β

namespace Transducer
variable {σ α β : Type} (m : Transducer σ α β)

/-- Read a text: the results put out, and the state reached unless the machine stopped. -/
def feed : σ → List α → List β × Option σ
  | s, [] => ([], some s)
  | s, a :: as =>
    match m.step s a with
    | (out, none) => (out, none)
    | (out, some next) => (out ++ (feed next as).1, (feed next as).2)

/-- All results of a text; at its end the machine puts out one more. -/
def results (s : σ) (as : List α) : List β := (m.feed s as).1 ++ ((m.feed s as).2.map m.finish).toList

@[simp] theorem feed_nil (s : σ) : m.feed s [] = ([], some s) := rfl

@[simp] theorem results_nil (s : σ) : m.results s [] = [m.finish s] := rfl

variable {m}

theorem feed_cons_stop {s : σ} {a : α} {out : List β} (h : m.step s a = (out, none)) (as : List α) :
    m.feed s (a :: as) = (out, none) := by
  rw [feed, h]

theorem feed_cons_go {s next : σ} {a : α} {out : List β} (h : m.step s a = (out, some next)) (as : List α) :
    m.feed s (a :: as) = (out ++ (m.feed next as).1, (m.feed next as).2) := by
  rw [feed, h]

theorem results_cons_stop {s : σ} {a : α} {out : List β} (h : m.step s a = (out, none)) (as : List α) :
    m.results s (a :: as) = out := by
  rw [results, feed_cons_stop h]
  exact List.append_nil out

theorem results_cons_go {s next : σ} {a : α} {out : List β} (h : m.step s a = (out, some next)) (as : List α) :
    m.results s (a :: as) = out ++ m.results next as := by
  rw [results, feed_cons_go h, results, List.append_assoc]

/-- A machine that has stopped ignores the rest of the text. -/
theorem feed_append_stop {s : σ} {as : List α} {out : List β} (h : m.feed s as = (out, none)) (bs : List α) :
    m.feed s (as ++ bs) = (out, none) := by
  induction as generalizing s out with
  | nil => simp at h
  | cons a as ih =>
    rw [List.cons_append]
    rcases hs : m.step s a with ⟨first, next⟩
    cases next with
    | none =>
      rw [feed_cons_stop hs] at h
      rw [feed_cons_stop hs, h]
    | some next =>
      rw [feed_cons_go hs] at h
      obtain ⟨ho, hn⟩ := Prod.mk.inj h
      rw [feed_cons_go hs, ih (Prod.ext rfl hn), ho]

/-- Otherwise the rest is read from the state that was reached. -/
theorem feed_append_go {s next : σ} {as : List α} {out : List β} (h : m.feed s as = (out, some next))
    (bs : List α) : m.feed s (as ++ bs) = (out ++ (m.feed next bs).1, (m.feed next bs).2) := by
  induction as generalizing s out with
  | nil =>
    obtain ⟨rfl, hn⟩ := Prod.mk.inj h
    rw [Option.some.inj hn]
    rfl
  | cons a as ih =>
    rw [List.cons_append]
    rcases hs : m.step s a with ⟨first, middle⟩
    cases middle with
    | none =>
      rw [feed_cons_stop hs] at h
      cases (Prod.mk.inj h).2
    | some middle =>
      rw [feed_cons_go hs] at h
      obtain ⟨ho, hn⟩ := Prod.mk.inj h
      rw [feed_cons_go hs, ih (Prod.ext rfl hn), ← List.append_assoc, ho]

theorem results_append_stop {s : σ} {as : List α} {out : List β} (h : m.feed s as = (out, none)) (bs : List α) :
    m.results s (as ++ bs) = out := by
  rw [results, feed_append_stop h]
  exact List.append_nil out

theorem results_append_go {s next : σ} {as : List α} {out : List β} (h : m.feed s as = (out, some next))
    (bs : List α) : m.results s (as ++ bs) = out ++ m.results next bs := by
  rw [results, feed_append_go h, results, List.append_assoc]

/-- A renaming of states, symbols and results that every step respects carries over to texts. -/
theorem results_map {f : σ → σ} {g : α → α} {r : β → β}
    (step : ∀ s a, m.step (f s) (g a) = ((m.step s a).1.map r, (m.step s a).2.map f))
    (finish : ∀ s, m.finish (f s) = r (m.finish s)) (s : σ) (as : List α) :
    m.results (f s) (as.map g) = (m.results s as).map r := by
  induction as generalizing s with
  | nil => simp [finish]
  | cons a as ih =>
    rw [List.map_cons]
    have hstep := step s a
    rcases hs : m.step s a with ⟨out, next⟩
    rw [hs] at hstep
    cases next with
    | none => rw [results_cons_stop hs, results_cons_stop hstep]
    | some next => rw [results_cons_go hs, results_cons_go hstep, ih, List.map_append]

/-- A step that puts out results with a property and goes on to a good state, if it goes on. -/
def Keeps (good : σ → Prop) (p : β → Prop) (stepped : List β × Option σ) : Prop :=
  (∀ b ∈ stepped.1, p b) ∧ ∀ next ∈ stepped.2, good next

section Keeps
variable {good : σ → Prop} {p : β → Prop}

theorem keeps_silent {s : σ} (h : good s) : Keeps good p ([], some s) :=
  ⟨fun _ hb => absurd hb List.not_mem_nil, fun _ hn => Option.some.inj hn ▸ h⟩

theorem keeps_stop {b : β} (h : p b) : Keeps good p ([b], none) :=
  ⟨fun _ hb => List.mem_singleton.mp hb ▸ h, fun _ hn => nomatch hn⟩

theorem Keeps.cons {stepped : List β × Option σ} (h : Keeps good p stepped) {b : β} (hb : p b) :
    Keeps good p (b :: stepped.1, stepped.2) := by
  refine ⟨fun t ht => ?_, h.2⟩
  rcases List.mem_cons.mp ht with rfl | ht
  · exact hb
  · exact h.1 t ht

end Keeps

/-- What holds of the results of every step from a good state holds of all results. -/
theorem forall_results {good : σ → Prop} {p : β → Prop} (step : ∀ s a, good s → Keeps good p (m.step s a))
    (finish : ∀ s, good s → p (m.finish s)) {s : σ} (hs : good s) (as : List α) : ∀ b ∈ m.results s as, p b := by
  induction as generalizing s with
  | nil =>
    intro b hb
    rw [List.mem_singleton.mp hb]
    exact finish s hs
  | cons a as ih =>
    obtain ⟨hout, hnext⟩ := step s a hs
    rcases h : m.step s a with ⟨out, next⟩
    rw [h] at hout hnext
    cases next with
    | none =>
      rw [results_cons_stop h]
      exact hout
    | some next =>
      rw [results_cons_go h]
      intro b hb
      rcases List.mem_append.mp hb with hb | hb
      · exact hout b hb
      · exact ih (hnext next rfl) b hb

end Transducer
end Koko.Lib
