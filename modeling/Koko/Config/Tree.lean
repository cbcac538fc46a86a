import Koko.Lib.Bytes

/-! Configuration trees and the raw pointers the parser keeps into them. Blocks are
only ever appended to, so a pointer is the list of statement indices that leads to
the block it addresses. -/
namespace Koko.Config
open Koko.Lib

/-- A computation of the source; `none` is undefined behaviour. -/
abbrev Defined := Option

inductive NginxConfigStatement where
  | mk (tokens : List Bytes) (childBlock : Option (List NginxConfigStatement))

/-- A configuration object is its vector of statements. -/
abbrev NginxConfig := List NginxConfigStatement

namespace NginxConfigStatement

def tokens : NginxConfigStatement → List Bytes | .mk ts _ => ts
def childBlock : NginxConfigStatement → Option NginxConfig | .mk _ b => b

@[simp] theorem tokens_mk (ts : List Bytes) (b : Option NginxConfig) : (mk ts b).tokens = ts := rfl
@[simp] theorem childBlock_mk (ts : List Bytes) (b : Option NginxConfig) : (mk ts b).childBlock = b := rfl

mutual
def decEq : (a b : NginxConfigStatement) → Decidable (a = b)
  | .mk ts b, .mk ts' b' =>
    if ht : ts = ts' then
      match decEqBlock b b' with
      | isTrue hb => isTrue (by rw [ht, hb])
      | isFalse hb => isFalse (fun h => hb (mk.inj h).2)
    else isFalse (fun h => ht (mk.inj h).1)
def decEqBlock : (a b : Option (List NginxConfigStatement)) → Decidable (a = b)
  | none, none => isTrue rfl
  | none, some _ => isFalse nofun
  | some _, none => isFalse nofun
  | some ss, some ss' =>
    match decEqList ss ss' with
    | isTrue h => isTrue (by rw [h])
    | isFalse h => isFalse (fun e => h (Option.some.inj e))
def decEqList : (a b : List NginxConfigStatement) → Decidable (a = b)
  | [], [] => isTrue rfl
  | [], _ :: _ => isFalse nofun
  | _ :: _, [] => isFalse nofun
  | s :: ss, s' :: ss' =>
    match decEq s s' with
    | isTrue h =>
      match decEqList ss ss' with
      | isTrue hs => isTrue (by rw [h, hs])
      | isFalse hs => isFalse (fun e => hs (List.cons.inj e).2)
    | isFalse h => isFalse (fun e => h (List.cons.inj e).1)
end

instance : DecidableEq NginxConfigStatement := decEq

end NginxConfigStatement

abbrev Pointer := List Nat

namespace NginxConfig

/-- The block a pointer addresses; `none` if the pointer does not lead to one. -/
def deref (config : NginxConfig) : Pointer → Option NginxConfig
  | [] => some config
  | i :: p => do
    let statement ← config[i]?
    let block ← statement.childBlock
    deref block p

/-- Run a member function on the block a pointer addresses. -/
def update (f : NginxConfig → Option NginxConfig) : Pointer → NginxConfig → Option NginxConfig
  | [], config => f config
  | i :: p, config => do
    let statement ← config[i]?
    let block ← statement.childBlock
    let block' ← update f p block
    some (config.set i (.mk statement.tokens (some block')))

/-- `statements_.back()` handed to `f`; calling `back` on an empty vector is undefined. -/
def back (f : NginxConfigStatement → NginxConfigStatement) (c : NginxConfig) : Option NginxConfig :=
  c.getLast?.map (fun statement => c.dropLast ++ [f statement])

/-- `statements_.emplace_back(new NginxConfigStatement)`. -/
def emplaceBack (c : NginxConfig) : NginxConfig := c ++ [.mk [] none]

/-- `tokens_.push_back(token)`. -/
def pushToken (token : Bytes) (s : NginxConfigStatement) : NginxConfigStatement :=
  .mk (s.tokens ++ [token]) s.childBlock

/-- `child_block_.reset(new NginxConfig)`. -/
def resetChildBlock (s : NginxConfigStatement) : NginxConfigStatement := .mk s.tokens (some [])

@[simp] theorem back_append (f : NginxConfigStatement → NginxConfigStatement) (c : NginxConfig)
    (s : NginxConfigStatement) : back f (c ++ [s]) = some (c ++ [f s]) := by
  simp [back]

theorem deref_append (c : NginxConfig) (p q : Pointer) :
    deref c (p ++ q) = (deref c p).bind (fun b => deref b q) := by
  induction p generalizing c with
  | nil => rfl
  | cons i p ih =>
    simp only [List.cons_append, deref, Option.bind_eq_bind, Option.bind_assoc, ih]

theorem update_append (f : NginxConfig → Option NginxConfig) (p q : Pointer) (c : NginxConfig) :
    update f (p ++ q) c = update (update f q) p c := by
  induction p generalizing c with
  | nil => rfl
  | cons i p ih => simp only [List.cons_append, update, ih]

end NginxConfig
end Koko.Config
