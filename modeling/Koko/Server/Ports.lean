import Koko.Config.LookupSafety
import Mathlib.Algebra.Ring.Nat
import Mathlib.Data.List.TakeWhile

/-! The ports the server listens on: the text of the configuration becomes an `int` and that a
`short unsigned`. -/
namespace Koko.Server
open Koko.Lib Koko.Config

/-- The conversion of an `int` to a `short unsigned`. -/
def toUnsignedShort (n : Int) : Nat := (n % 2 ^ 16).toNat

def portFrom (config : NginxConfig) (field : Bytes) : Defined Nat := (getNum config field).map toUnsignedShort

/-- `port_` and `https_port_` as the server's constructor sets them. -/
def port (config : NginxConfig) : Defined Nat := portFrom config (ascii "port")
def httpsPort (config : NginxConfig) : Defined Nat := portFrom config (ascii "httpsPort")

/-- A decimal numeral of a number that a port can have. -/
def PortNumeral (v : Bytes) : Prop := v ≠ [] ∧ (∀ c ∈ v, isDigit c = true) ∧ digitsValue v ≤ 65535

instance (v : Bytes) : Decidable (PortNumeral v) := inferInstanceAs (Decidable (_ ∧ _))

/-- The port that was configured, and the default where the text names none. -/
def configuredPort (fallback : Nat) (v : Bytes) : Nat := if PortNumeral v then digitsValue v else fallback

/-- `stoi` finds no number in the text, or one that becomes the default. -/
def FallsBack (fallback : Nat) (v : Bytes) : Prop := ∀ n, stoi v = .ok n → toUnsignedShort n = fallback

private theorem dropWhile_of_head {p : Byte → Bool} {c : Byte} {s : Bytes} (h : p c = false) :
    (c :: s).dropWhile p = c :: s := by
  rw [List.dropWhile_cons, if_neg (by simp [h])]

private theorem not_isSpace_of_isDigit {c : Byte} (h : isDigit c = true) : isSpace c = false := by
  simp only [isDigit, decide_eq_true_eq, UInt8.le_iff_toNat_le] at h
  have h₁ : 48 ≤ c.toNat := h.1
  refine decide_eq_false ?_
  rintro (rfl | ⟨-, hle⟩)
  · exact absurd h₁ (by decide)
  · have h₂ : c.toNat ≤ 13 := UInt8.le_iff_toNat_le.mp hle
    omega

/-- A numeral that fits an `int` is read as its number. -/
theorem stoi_numeral {v : Bytes} (hne : v ≠ []) (hd : ∀ c ∈ v, isDigit c = true) (hlt : digitsValue v < 2 ^ 31) :
    stoi v = .ok (digitsValue v : Int) := by
  obtain ⟨c, s, rfl⟩ := List.exists_cons_of_ne_nil hne
  have hc := hd c (by simp)
  have hspace : isSpace c = false := not_isSpace_of_isDigit hc
  have hminus : c ≠ chr '-' := by
    rintro rfl
    exact absurd hc (by decide)
  have hplus : c ≠ chr '+' := by
    rintro rfl
    exact absurd hc (by decide)
  have htake : (c :: s).takeWhile isDigit = c :: s := List.takeWhile_eq_self_iff.mpr hd
  have hrange : ¬ ((digitsValue (c :: s) : Int) < -2 ^ 31 ∨ (2 ^ 31 : Int) ≤ digitsValue (c :: s)) := by omega
  unfold stoi
  simp only [dropWhile_of_head hspace, List.head?_cons, Option.some.injEq, hminus, hplus, or_self, if_false, htake,
    List.cons_ne_nil, hrange]

theorem toUnsignedShort_natCast {n : Nat} (h : n ≤ 65535) : toUnsignedShort n = n := by
  unfold toUnsignedShort
  omega

/-- The port is the configured one if the text is a numeral for a port, or holds no number that
`stoi` returns, or one that becomes the default, and only then. -/
theorem portFrom_eq_configuredPort_iff {config : NginxConfig} {field v : Bytes} {fallback : Nat}
    (hv : getStr config field = some v) (hd : defaultNums.lookup field = some (fallback : Int)) (hf : fallback ≤ 65535) :
    portFrom config field = some (configuredPort fallback v) ↔ PortNumeral v ∨ FallsBack fallback v := by
  have hport : portFrom config field = some (toUnsignedShort ((stoi v).toOption.getD fallback)) := by
    rw [portFrom, getNum_of_getStr hv, hd]
    rfl
  rw [hport, configuredPort, Option.some.injEq]
  by_cases hp : PortNumeral v
  · have hlt : digitsValue v < 2 ^ 31 := by
      have := hp.2.2
      omega
    rw [stoi_numeral hp.1 hp.2.1 hlt, if_pos hp]
    exact iff_of_true (toUnsignedShort_natCast hp.2.2) (.inl hp)
  · rw [if_neg hp, or_iff_right hp, FallsBack]
    cases stoi v with
    | ok n => exact ⟨fun h m hm => Except.ok.inj hm ▸ h, fun h => h n rfl⟩
    | error e => exact iff_of_true (toUnsignedShort_natCast hf) nofun

/-- Both ports are the configured ones exactly where their texts are numerals for ports, or lead
to the default. -/
theorem ports_configured_iff (config : NginxConfig) :
    (∀ v, getStr config (ascii "port") = some v →
      (port config = some (configuredPort 80 v) ↔ PortNumeral v ∨ FallsBack 80 v)) ∧
    ∀ v, getStr config (ascii "httpsPort") = some v →
      (httpsPort config = some (configuredPort 443 v) ↔ PortNumeral v ∨ FallsBack 443 v) :=
  ⟨fun _ hv => portFrom_eq_configuredPort_iff hv rfl (by decide),
    fun _ hv => portFrom_eq_configuredPort_iff hv rfl (by decide)⟩

/-- A number beyond the ports wraps around: the server listens on 4464. -/
theorem large_port_wraps :
    parse (.ofList (ascii "port 70000;")) [] = some ⟨true, [.mk [ascii "port", ascii "70000"] none], ""⟩ ∧
    getStr [.mk [ascii "port", ascii "70000"] none] (ascii "port") = some (ascii "70000") ∧
    port [.mk [ascii "port", ascii "70000"] none] = some 4464 ∧ configuredPort 80 (ascii "70000") = 80 := by
  exact ⟨by decide +kernel, by decide +kernel, by decide +kernel, by decide +kernel⟩

/-- The ports of a configuration that gives both. -/
def twoPorts : NginxConfig := [.mk [ascii "port", ascii "8080"] none, .mk [ascii "httpsPort", ascii "8081"] none]

theorem two_ports_configured : port twoPorts = some 8080 ∧ httpsPort twoPorts = some 8081 := by
  have hv : getStr twoPorts (ascii "port") = some (ascii "8080") := by decide +kernel
  have hw : getStr twoPorts (ascii "httpsPort") = some (ascii "8081") := by decide +kernel
  have hport := ((ports_configured_iff twoPorts).1 _ hv).2 (.inl (by decide +kernel))
  have hhttpsPort := ((ports_configured_iff twoPorts).2 _ hw).2 (.inl (by decide +kernel))
  have hn : configuredPort 80 (ascii "8080") = 8080 ∧ configuredPort 443 (ascii "8081") = 8081 := by decide +kernel
  rw [hn.1] at hport
  rw [hn.2] at hhttpsPort
  exact ⟨hport, hhttpsPort⟩

end Koko.Server
