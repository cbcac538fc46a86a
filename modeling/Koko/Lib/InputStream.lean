import Mathlib.Data.List.Basic

/-! A `std::istream` over a finite sequence: the elements behind the read
position (latest first), the elements before it, and the two state bits that a
failed read sets. -/
namespace Koko.Lib

structure InputStream (α : Type) where
  past : List α
  unread : List α
  eof : Bool
  fail : Bool
deriving DecidableEq, Repr

namespace InputStream
variable {α : Type}

def good (s : InputStream α) : Bool := !s.eof && !s.fail

/-- A freshly opened stream. -/
def ofList (xs : List α) : InputStream α := ⟨[], xs, false, false⟩

/-- Extract one element; at the end both state bits are set. -/
def get (s : InputStream α) : Option α × InputStream α :=
  if s.good then
    match s.unread with
    | [] => (none, { s with eof := true, fail := true })
    | c :: rest => (some c, { s with past := c :: s.past, unread := rest })
  else (none, { s with fail := true })

/-- Look at the next element; at the end only the end-of-file bit is set. -/
def peek (s : InputStream α) : Option α × InputStream α :=
  if s.good then
    match s.unread with
    | [] => (none, { s with eof := true })
    | c :: _ => (some c, s)
  else (none, s)

/-- Step back over the element read last. The end-of-file bit is cleared first. -/
def unget (s : InputStream α) : InputStream α :=
  if s.fail then { s with eof := false }
  else match s.past with
    | [] => { s with eof := false, fail := true }
    | c :: before => ⟨before, c :: s.unread, false, false⟩

/-- The stream with every element renamed, at the same position. -/
def map (f : α → α) (s : InputStream α) : InputStream α := ⟨s.past.map f, s.unread.map f, s.eof, s.fail⟩

/-- A stream on which no read has failed. -/
abbrev live (past unread : List α) : InputStream α := ⟨past, unread, false, false⟩

@[simp] theorem live_good (past unread : List α) : (live past unread).good = true := rfl
@[simp] theorem get_live_nil (past : List α) : (live past []).get = (none, ⟨past, [], true, true⟩) := rfl
@[simp] theorem get_live_cons (past rest : List α) (c : α) :
    (live past (c :: rest)).get = (some c, live (c :: past) rest) := rfl
@[simp] theorem peek_live_nil (past : List α) : (live past []).peek = (none, ⟨past, [], true, false⟩) := rfl
@[simp] theorem peek_live_cons (past rest : List α) (c : α) :
    (live past (c :: rest)).peek = (some c, live past (c :: rest)) := rfl
@[simp] theorem unget_live_cons (past unread : List α) (c : α) :
    (live (c :: past) unread).unget = live past (c :: unread) := rfl

theorem eq_live_of_good {s : InputStream α} (h : s.good = true) : s = live s.past s.unread := by
  obtain ⟨past, unread, eof, fail⟩ := s
  cases eof <;> cases fail <;> simp_all [good]

theorem good_of_get_some {s s' : InputStream α} {c : α} (h : s.get = (some c, s')) :
    s = live s.past (c :: s'.unread) ∧ s' = live (c :: s.past) s'.unread := by
  unfold get at h
  split at h
  · rename_i hg
    obtain ⟨past, unread, eof, fail⟩ := s
    cases unread with
    | nil => cases h
    | cons d rest =>
      have hl := eq_live_of_good hg
      simp only [Prod.mk.injEq, Option.some.injEq] at h
      obtain ⟨rfl, rfl⟩ := h
      cases eof <;> cases fail <;> simp_all [good]
  · cases h

/-- A successful read leaves strictly less to read. -/
theorem unread_lt_of_get_some {s s' : InputStream α} {c : α} (h : s.get = (some c, s')) :
    s'.unread.length < s.unread.length := by
  rw [(good_of_get_some h).1]
  exact Nat.lt_succ_self _

theorem unread_get_le (s : InputStream α) : s.get.2.unread.length ≤ s.unread.length := by
  obtain ⟨past, unread, eof, fail⟩ := s
  unfold get
  split
  · cases unread <;> simp
  · exact Nat.le_refl _

@[simp] theorem unread_peek (s : InputStream α) : s.peek.2.unread = s.unread := by
  obtain ⟨past, unread, eof, fail⟩ := s
  unfold peek
  split
  · cases unread <;> rfl
  · rfl

end InputStream
end Koko.Lib
