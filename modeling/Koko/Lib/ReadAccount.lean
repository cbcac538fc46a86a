import Koko.Lib.InputStream

/-! Code over any kind of stream, and a stream that keeps account of what was read from it: the
elements read since the account was opened and not stepped back over, latest first, and whether an
element was ever stepped back over that had been read before. -/
namespace Koko.Lib
variable {α S T : Type}

/-- What code may ask of a stream. -/
structure StreamOps (S α : Type) where
  good : S → Bool
  get : S → Option α × S
  peek : S → Option α × S
  unget : S → S

/-- A view of one kind of stream as another that the operations respect. -/
structure StreamOps.View (ops : StreamOps S α) (ops' : StreamOps T α) (f : S → T) : Prop where
  good : ∀ s, ops'.good (f s) = ops.good s
  get : ∀ s, ops'.get (f s) = ((ops.get s).1, f (ops.get s).2)
  peek : ∀ s, ops'.peek (f s) = ((ops.peek s).1, f (ops.peek s).2)
  unget : ∀ s, ops'.unget (f s) = f (ops.unget s)

/-- What reads and look-aheads leave true of a stream. -/
structure StreamOps.Keeps (ops : StreamOps S α) (P : S → Prop) : Prop where
  get : ∀ s, P s → P (ops.get s).2
  peek : ∀ s, P s → P (ops.peek s).2

def InputStream.ops : StreamOps (InputStream α) α := ⟨good, get, peek, unget⟩

@[simp] theorem InputStream.past_get (s : InputStream α) : s.get.2.past = s.get.1.toList ++ s.past := by
  obtain ⟨past, unread, eof, fail⟩ := s
  unfold InputStream.get
  split
  · cases unread <;> rfl
  · rfl

@[simp] theorem InputStream.past_peek (s : InputStream α) : s.peek.2.past = s.past := by
  obtain ⟨past, unread, eof, fail⟩ := s
  unfold InputStream.peek
  split
  · cases unread <;> rfl
  · rfl

structure ReadAccount (α : Type) where
  stream : InputStream α
  read : List α
  overdrawn : Bool

namespace ReadAccount

def start (s : InputStream α) : ReadAccount α := ⟨s, [], false⟩

def get (a : ReadAccount α) : Option α × ReadAccount α :=
  (a.stream.get.1, { a with stream := a.stream.get.2, read := a.stream.get.1.toList ++ a.read })

def peek (a : ReadAccount α) : Option α × ReadAccount α := (a.stream.peek.1, { a with stream := a.stream.peek.2 })

def unget (a : ReadAccount α) : ReadAccount α := ⟨a.stream.unget, a.read.tail, a.overdrawn || a.read.isEmpty⟩

def ops : StreamOps (ReadAccount α) α := ⟨fun a => a.stream.good, get, peek, unget⟩

/-- Keeping account changes nothing of what the code sees. -/
theorem view : (ops (α := α)).View InputStream.ops stream := ⟨fun _ => rfl, fun _ => rfl, fun _ => rfl, fun _ => rfl⟩

/-- Nothing from before was stepped back over: it is still what lies behind what was read since. -/
structure Balanced (past : List α) (a : ReadAccount α) : Prop where
  within : a.overdrawn = false
  past_eq : a.stream.past = a.read ++ past

variable {past : List α} {a : ReadAccount α}

theorem balanced_start (s : InputStream α) : Balanced s.past (start s) := ⟨rfl, rfl⟩

theorem Balanced.get (h : Balanced past a) : Balanced past a.get.2 := by
  refine ⟨h.within, ?_⟩
  change a.stream.get.2.past = a.stream.get.1.toList ++ a.read ++ past
  rw [List.append_assoc, ← h.past_eq, InputStream.past_get]

theorem Balanced.peek (h : Balanced past a) : Balanced past a.peek.2 := by
  refine ⟨h.within, ?_⟩
  change a.stream.peek.2.past = a.read ++ past
  rw [InputStream.past_peek, h.past_eq]

theorem keeps_balanced (past : List α) : (ops (α := α)).Keeps (Balanced past) := ⟨fun _ h => h.get, fun _ h => h.peek⟩

/-- Right after a read one may step back. -/
theorem Balanced.unget_get (h : Balanced past a) {c : α} (hc : a.get.1 = some c) : Balanced past a.get.2.unget := by
  have hget : a.stream.get = (some c, a.stream.get.2) := Prod.ext hc rfl
  have hread : a.get.2.read = c :: a.read := by
    change a.stream.get.1.toList ++ a.read = c :: a.read
    rw [hget]
    rfl
  refine ⟨?_, ?_⟩
  · change (a.overdrawn || a.get.2.read.isEmpty) = false
    rw [hread, h.within]
    rfl
  · change a.stream.get.2.unget.past = a.get.2.read.tail ++ past
    rw [hread, (InputStream.good_of_get_some hget).2]
    exact h.past_eq

end ReadAccount
end Koko.Lib
