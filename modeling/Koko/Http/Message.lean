import Koko.Lib.Bytes
import Mathlib.Data.List.Infix

/-! HTTP messages as the Beast containers hold them: header fields in order of
insertion, names compared without regard to case. -/
namespace Koko.Http
open Koko.Lib

def toLower (b : Byte) : Byte := if chr 'A' ≤ b ∧ b ≤ chr 'Z' then b + 32 else b

def iequals (a b : Bytes) : Bool := a.map toLower = b.map toLower

abbrev Fields := List (Bytes × Bytes)

namespace Fields

/-- The value of the first field with this name. -/
def get? (fields : Fields) (name : Bytes) : Option Bytes :=
  (fields.find? (fun f => iequals f.1 name)).map Prod.snd

/-- `set` removes every field with this name and inserts one at the end. -/
def set (fields : Fields) (name value : Bytes) : Fields :=
  fields.filter (fun f => !iequals f.1 name) ++ [(name, value)]

@[simp] theorem iequals_refl (a : Bytes) : iequals a a = true := by simp [iequals]

theorem iequals_trans_eq {a b c : Bytes} (h : iequals a b = true) : iequals a c = iequals b c := by
  simp only [iequals, decide_eq_true_eq] at h
  simp [iequals, h]

theorem get?_set_self (fields : Fields) (name value : Bytes) :
    (fields.set name value).get? name = some value := by
  unfold get? set
  have h : (fields.filter (fun f => !iequals f.1 name)).find? (fun f => iequals f.1 name) = none := by
    rw [List.find?_eq_none]
    intro f hf
    simpa using (List.mem_filter.mp hf).2
  rw [List.find?_append, h]
  simp

theorem get?_set_of_ne (fields : Fields) {name other : Bytes} (value : Bytes)
    (h : iequals name other = false) : (fields.set name value).get? other = fields.get? other := by
  unfold get? set
  have hp : (fun f : Bytes × Bytes => decide ((!iequals f.1 name) = true ∧ iequals f.1 other = true)) =
      fun f => iequals f.1 other := by
    funext f
    cases hf : iequals f.1 name with
    | false => simp
    | true => simp [iequals_trans_eq hf, h]
  rw [List.find?_append, List.find?_filter, hp]
  cases fields.find? (fun f => iequals f.1 other) with
  | some f => simp
  | none => simp [h]

/-- Several fields set one after another. -/
def setAll (fields news : Fields) : Fields := news.foldl (fun fields f => fields.set f.1 f.2) fields

theorem setAll_eq {news : Fields} (hd : (news.map Prod.fst).Pairwise (fun a b => iequals a b = false)) (fields : Fields) :
    fields.setAll news = fields.filter (fun f => (news.map Prod.fst).all (fun name => !iequals f.1 name)) ++ news := by
  induction news generalizing fields with
  | nil => simp [setAll]
  | cons f news ih =>
    obtain ⟨hf, hd⟩ := List.pairwise_cons.mp (List.map_cons ▸ hd)
    have hkept : [(f.1, f.2)].filter (fun f => (news.map Prod.fst).all (fun name => !iequals f.1 name)) = [f] := by
      refine List.filter_eq_self.mpr fun g hg => List.all_eq_true.mpr fun name hname => ?_
      rw [List.mem_singleton.mp hg, hf name hname]
      rfl
    change (fields.set f.1 f.2).setAll news = _
    rw [ih hd, set, List.filter_append, hkept, List.filter_filter, List.append_assoc, List.singleton_append]
    simp [Bool.and_comm]

/-- What was set is not seen any more once the same fields are set again. -/
theorem setAll_setAll (fields : Fields) {olds news : Fields} (hnames : olds.map Prod.fst = news.map Prod.fst)
    (hd : (news.map Prod.fst).Pairwise (fun a b => iequals a b = false)) :
    (fields.setAll olds).setAll news = fields.setAll news := by
  have hnone : olds.filter (fun f => (news.map Prod.fst).all (fun name => !iequals f.1 name)) = [] := by
    rw [List.filter_eq_nil_iff, ← hnames]
    intro f hf hall
    have hself := List.all_eq_true.mp hall f.1 (List.mem_map_of_mem hf)
    simp at hself
  rw [setAll_eq hd, setAll_eq hd, setAll_eq (hnames.symm ▸ hd), List.filter_append, hnone, List.append_nil,
    List.filter_filter, hnames]
  simp only [Bool.and_self]

end Fields

/-- The decimal digits of a number. -/
def decimal (n : Nat) : Bytes := (Nat.toDigits 10 n).map chr

private theorem toDigits_eq_map_decimal (n : Nat) :
    Nat.toDigits 10 n = (decimal n).map (fun b => Char.ofNat b.toNat) := by
  rw [decimal, List.map_map]
  refine (List.map_id _).symm.trans (List.map_congr_left ?_)
  intro c hc
  have hd := Nat.isDigit_of_mem_toDigits (by decide) (by decide) hc
  simp only [Char.isDigit, Bool.and_eq_true, decide_eq_true_eq] at hd
  have hle : c.toNat ≤ 57 := hd.2
  simp [chr, Nat.mod_eq_of_lt (show c.toNat < 256 by omega)]

/-- The number that decimal digits tell. -/
def ofDecimal (digits : Bytes) : Nat := Nat.ofDigitChars 10 (digits.map (fun b => Char.ofNat b.toNat)) 0

@[simp] theorem ofDecimal_decimal (n : Nat) : ofDecimal (decimal n) = n := by
  rw [ofDecimal, ← toDigits_eq_map_decimal]
  exact Nat.ofDigitChars_ten_toDigits

theorem decimal_inj {m n : Nat} (h : decimal m = decimal n) : m = n := by
  rw [← ofDecimal_decimal m, h, ofDecimal_decimal]

/-- The header names the server sets or reads. -/
def connectionField : Bytes := ascii "Connection"
def contentEncodingField : Bytes := ascii "Content-Encoding"
def contentLengthField : Bytes := ascii "Content-Length"
def contentTypeField : Bytes := ascii "Content-Type"
def acceptEncodingField : Bytes := ascii "Accept-Encoding"
def hostField : Bytes := ascii "Host"
def locationField : Bytes := ascii "Location"
def serverField : Bytes := ascii "Server"

structure Request where
  method : Bytes
  target : Bytes
  version : Nat
  fields : Fields
  body : Bytes
deriving DecidableEq

/-- A request without fields and body. -/
def getRequest (target : Bytes) : Request := ⟨ascii "GET", target, 11, [], []⟩

structure Response where
  version : Nat
  result : Nat
  fields : Fields
  body : Bytes
deriving DecidableEq

namespace Response

def get? (res : Response) (name : Bytes) : Option Bytes := res.fields.get? name

def set (res : Response) (name value : Bytes) : Response := { res with fields := res.fields.set name value }

/-- `prepare_payload` sets the length of the body at the moment of the call. -/
def preparePayload (res : Response) : Response := res.set contentLengthField (decimal res.body.length)

/-- The length header tells the size of the body. -/
def Framed (res : Response) : Prop := res.get? contentLengthField = some (decimal res.body.length)

instance (res : Response) : Decidable res.Framed := inferInstanceAs (Decidable (_ = _))

@[simp] theorem body_set (res : Response) (name value : Bytes) : (res.set name value).body = res.body := rfl
@[simp] theorem result_set (res : Response) (name value : Bytes) : (res.set name value).result = res.result := rfl
@[simp] theorem body_preparePayload (res : Response) : res.preparePayload.body = res.body := rfl
@[simp] theorem result_preparePayload (res : Response) : res.preparePayload.result = res.result := rfl

@[simp] theorem get?_set_self (res : Response) (name value : Bytes) : (res.set name value).get? name = some value :=
  Fields.get?_set_self res.fields name value

theorem get?_set_of_ne (res : Response) {name other : Bytes} (value : Bytes)
    (h : iequals name other = false) : (res.set name value).get? other = res.get? other :=
  Fields.get?_set_of_ne res.fields value h

theorem framed_preparePayload (res : Response) : res.preparePayload.Framed :=
  get?_set_self res contentLengthField (decimal res.body.length)

/-- Setting another header keeps the framing. -/
theorem Framed.set {res : Response} (h : res.Framed) {name : Bytes} (value : Bytes)
    (hn : iequals name contentLengthField = false) : (res.set name value).Framed := by
  unfold Framed
  rw [get?_set_of_ne res value hn]
  exact h

end Response
end Koko.Http
