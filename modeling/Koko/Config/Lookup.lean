import Koko.Config.Tree
import Mathlib.Algebra.Ring.Int.Defs

/-! Looking up fields in a configuration tree: `get_str`, `get_num` and the
conversion by `std::stoi`. -/
namespace Koko.Config
open Koko.Lib

/-- The second token of a two-token statement named `field`. -/
def getStrStatement (field : Bytes) (statement : NginxConfigStatement) : Option Bytes :=
  if statement.tokens.head? = some field then
    if statement.tokens.length ≠ 2 then none else statement.tokens[1]?
  else none

/-- The scan of the top-level server blocks; their child block is dereferenced. -/
def getStrServer (field : Bytes) : NginxConfig → Defined Bytes
  | [] => some []
  | statement :: rest =>
    if statement.tokens.head? = some (ascii "server") then do
      let block ← statement.childBlock
      match block.findSome? (getStrStatement field) with
      | some value => some value
      | none => getStrServer field rest
    else getStrServer field rest

def getStr (config : NginxConfig) (field : Bytes) : Defined Bytes :=
  match config.findSome? (getStrStatement field) with
  | some value => some value
  | none => getStrServer field config

inductive StoiError where
  | invalidArgument | outOfRange

def isDigit (c : Byte) : Bool := chr '0' ≤ c ∧ c ≤ chr '9'

def digitsValue (ds : Bytes) : Nat := ds.foldl (fun n d => n * 10 + (d.toNat - 48)) 0

/-- Leading white space, an optional sign and the longest run of digits. -/
def stoi (s : Bytes) : Except StoiError Int :=
  let s := s.dropWhile isSpace
  let negative := s.head? = some (chr '-')
  let s := if negative ∨ s.head? = some (chr '+') then s.tail else s
  let ds := s.takeWhile isDigit
  let value : Int := if negative then -(digitsValue ds : Int) else digitsValue ds
  if ds = [] then .error .invalidArgument
  else if value < -2 ^ 31 ∨ 2 ^ 31 ≤ value then .error .outOfRange
  else .ok value

def defaultNums : List (Bytes × Int) :=
  [(ascii "port", 80), (ascii "threads", 4), (ascii "httpsPort", 443), (ascii "keep-alive", 0)]

def getNum (config : NginxConfig) (field : Bytes) : Defined Int := do
  let value ← getStr config field
  match stoi value with
  | .ok n => some n
  | .error _ => some ((defaultNums.lookup field).getD 0)

/-- The number for a text that was looked up: what `stoi` reads, else the default. -/
theorem getNum_of_getStr {config : NginxConfig} {field v : Bytes} (h : getStr config field = some v) :
    getNum config field = some ((stoi v).toOption.getD ((defaultNums.lookup field).getD 0)) := by
  unfold getNum
  rw [h]
  simp only [Option.bind_eq_bind, Option.bind_some]
  cases stoi v <;> rfl

end Koko.Config
