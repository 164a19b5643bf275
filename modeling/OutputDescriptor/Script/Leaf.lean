import OutputDescriptor.Except
import OutputDescriptor.Output.Payment
import OutputDescriptor.Text.Decimal

/-! Arguments without structure: numbers, hexadecimal scripts and addresses. -/
namespace OutputDescriptor

structure NumberExpr where
  network : Network
  text : String
  value : Nat
  value_ne_zero : value ≠ 0
  deriving DecidableEq

def NumberExpr.parse (network : Network) (text : String) : Except Error NumberExpr :=
  match decimal? text.toList with
  | none => .error (.number text)
  | some value =>
    if h : value ≠ 0 ∧ value < wordBound then .ok ⟨network, text, value, h.1⟩
    else .error (.number text)

theorem NumberExpr.isAlphanum_of_parse {network : Network} {text : String} {number : NumberExpr}
    (h : NumberExpr.parse network text = .ok number) :
    text.toList ≠ [] ∧ ∀ c ∈ text.toList, c.isAlphanum := by
  unfold parse at h
  split at h
  · cases h
  · rename_i value hvalue
    obtain ⟨hne, hdigits⟩ := decimal?_eq_some hvalue
    exact ⟨hne, fun c hc => isAlphanum_of_isDigit (hdigits c hc)⟩

structure HexExpr where
  network : Network
  text : String
  value : Bytes
  value_ne : value ≠ []
  deriving DecidableEq

def HexExpr.parse (network : Network) (text : String) : Except Error HexExpr :=
  match Hex.decode? text with
  | none => .error (.hex text)
  | some value => if h : value ≠ [] then .ok ⟨network, text, value, h⟩ else .error (.hex text)

theorem HexExpr.isAlphanum_of_parse {network : Network} {text : String} {hex : HexExpr}
    (h : HexExpr.parse network text = .ok hex) :
    text.toList ≠ [] ∧ ∀ c ∈ text.toList, c.isAlphanum := by
  unfold parse at h
  split at h
  · cases h
  · rename_i value hvalue
    refine ⟨?_, Hex.isAlphanum_of_decodeChars hvalue⟩
    intro hnil
    rw [Hex.decode?, hnil] at hvalue
    cases hvalue
    simp at h

structure AddrExpr where
  network : Network
  text : String
  address : Address
  isFor : address.isFor network
  deriving DecidableEq

namespace AddrExpr

def parse (network : Network) (text : String) : Except Error AddrExpr := do
  let address ← Address.ofText text network
  return ⟨network, text, address.val, address.property⟩

theorem isAlphanum_of_parse {network : Network} {text : String} {address : AddrExpr}
    (h : AddrExpr.parse network text = .ok address) :
    text.toList ≠ [] ∧ ∀ c ∈ text.toList, c.isAlphanum := by
  obtain ⟨decoded, hdecoded, -⟩ := Except.bind_eq_ok_iff.mp h
  unfold Address.ofText at hdecoded
  split at hdecoded
  · cases hdecoded
  · rename_i found hfound
    exact Address.isAlphanum_of_ofChars? hfound

def payment (addr : AddrExpr) : Payment := Payment.ofAddress addr.address

end AddrExpr

end OutputDescriptor
