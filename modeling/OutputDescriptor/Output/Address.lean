import OutputDescriptor.Network
import OutputDescriptor.Output.Template
import OutputDescriptor.Text.Base58
import OutputDescriptor.Text.Segwit

/-! Addresses, their output scripts and their text. -/
namespace OutputDescriptor

/-- Legacy addresses do not tell the test networks apart, witness addresses do. -/
inductive Address
  | p2pkh (network : NetworkKind) (hash : FixedBytes 20)
  | p2sh (network : NetworkKind) (hash : FixedBytes 20)
  | p2wpkh (network : Network) (hash : FixedBytes 20)
  | p2wsh (network : Network) (hash : FixedBytes 32)
  deriving DecidableEq

/-- The `n` bytes that a script holds between a fixed head and a fixed tail. -/
def enclosed? (head tail : Bytes) (n : Nat) (script : Bytes) : Option (FixedBytes n) :=
  let body := (script.drop head.length).take n
  if h : body.length = n ∧ script = head ++ body ++ tail then some ⟨body, h.1⟩ else none

theorem enclosed?_eq_some_iff {head tail script : Bytes} {n : Nat} {body : FixedBytes n} :
    enclosed? head tail n script = some body ↔ script = head ++ body.val ++ tail := by
  simp only [enclosed?]
  constructor
  · intro h
    split at h
    · rename_i hbody
      rw [← Option.some.inj h]
      exact hbody.2
    · cases h
  · intro h
    have hbody : (script.drop head.length).take n = body.val := by
      rw [h, List.append_assoc, List.drop_left]
      simp [← body.property]
    rw [dif_pos ⟨hbody ▸ body.property, hbody.symm ▸ h⟩]
    exact congrArg some (Subtype.ext hbody)

namespace Address

def kind : Address → AddressKind
  | .p2pkh _ _ => .p2pkh
  | .p2sh _ _ => .p2sh
  | .p2wpkh _ _ => .p2wpkh
  | .p2wsh _ _ => .p2wsh

/-- What stands before and after the hash in the output script of an address. -/
def frame : AddressKind → Bytes × Bytes
  | .p2pkh => ([0x76, 0xa9, 0x14], [0x88, 0xac])
  | .p2sh => ([0xa9, 0x14], [0x87])
  | .p2wpkh => ([0x00, 0x14], [])
  | .p2wsh => ([0x00, 0x20], [])

def hash : Address → Bytes
  | .p2pkh _ h | .p2sh _ h | .p2wpkh _ h => h.val
  | .p2wsh _ h => h.val

def script (address : Address) : Bytes :=
  (frame address.kind).1 ++ address.hash ++ (frame address.kind).2

def ofScriptAs? (network : Network) (script : Bytes) : AddressKind → Option Address
  | .p2pkh => (enclosed? (frame .p2pkh).1 (frame .p2pkh).2 20 script).map (.p2pkh network.kind)
  | .p2sh => (enclosed? (frame .p2sh).1 (frame .p2sh).2 20 script).map (.p2sh network.kind)
  | .p2wpkh => (enclosed? (frame .p2wpkh).1 (frame .p2wpkh).2 20 script).map (.p2wpkh network)
  | .p2wsh => (enclosed? (frame .p2wsh).1 (frame .p2wsh).2 32 script).map (.p2wsh network)

def ofScript? (network : Network) (script : Bytes) : Option Address :=
  [AddressKind.p2pkh, .p2sh, .p2wpkh, .p2wsh].findSome? (ofScriptAs? network script)

def isFor (network : Network) : Address → Bool
  | .p2pkh kind _ | .p2sh kind _ => kind = network.kind
  | .p2wpkh own _ | .p2wsh own _ => own = network

def publicKeyVersion : NetworkKind → UInt8
  | .main => 0
  | .test => 111

def scriptVersion : NetworkKind → UInt8
  | .main => 5
  | .test => 196

def chars : Address → List Char
  | .p2pkh kind hash => Base58.encodeCheck (publicKeyVersion kind :: hash.val)
  | .p2sh kind hash => Base58.encodeCheck (scriptVersion kind :: hash.val)
  | .p2wpkh network hash => SegwitText.encode ⟨network.humanReadablePart, 0, hash.val⟩
  | .p2wsh network hash => SegwitText.encode ⟨network.humanReadablePart, 0, hash.val⟩

def text (address : Address) : String := String.ofList address.chars

/-- The hash of a key has 20 bytes and that of a script 32. -/
def ofSegwit? (segwit : SegwitText) : Option Address := do
  let network ← [Network.bitcoin, .testnet, .regtest].find?
    (·.humanReadablePart = segwit.humanReadablePart)
  if segwit.version = 0 then
    if h : segwit.program.length = 20 then some (.p2wpkh network ⟨segwit.program, h⟩)
    else if h : segwit.program.length = 32 then some (.p2wsh network ⟨segwit.program, h⟩)
    else none
  else none

def ofPayload? : Bytes → Option Address
  | [] => none
  | version :: hash =>
    if h : hash.length = 20 then
      if version = publicKeyVersion .main then some (.p2pkh .main ⟨hash, h⟩)
      else if version = publicKeyVersion .test then some (.p2pkh .test ⟨hash, h⟩)
      else if version = scriptVersion .main then some (.p2sh .main ⟨hash, h⟩)
      else if version = scriptVersion .test then some (.p2sh .test ⟨hash, h⟩)
      else none
    else none

/-- A text that is a witness address is not read as anything else. -/
def ofChars? (text : List Char) : Option Address :=
  match SegwitText.decode? text with
  | some segwit => ofSegwit? segwit
  | none => (Base58.decodeCheck? text).bind ofPayload?

theorem isAlphanum_of_ofSegwit? {text : List Char} {segwit : SegwitText} {address : Address}
    (htext : SegwitText.decode? text = some segwit) (h : ofSegwit? segwit = some address) :
    text ≠ [] ∧ ∀ c ∈ text, c.isAlphanum := by
  obtain ⟨⟨part, data⟩, hsplit, htext⟩ := Option.bind_eq_some_iff.mp htext
  obtain ⟨symbols, hsymbols, htext⟩ := Option.bind_eq_some_iff.mp htext
  obtain ⟨version, -, htext⟩ := Option.bind_eq_some_iff.mp htext
  obtain ⟨program, -, htext⟩ := Option.bind_eq_some_iff.mp htext
  obtain ⟨network, hnetwork, -⟩ := Option.bind_eq_some_iff.mp h
  have hlower := SegwitText.splitSeparator?_eq_some hsplit
  simp only [Option.ite_none_right_eq_some, Option.some.injEq] at htext
  obtain ⟨-, rfl⟩ := htext
  have hpart : ∀ c ∈ part, c.isAlphanum := by
    have hall (n : Network) : ∀ c ∈ n.humanReadablePart, c.isAlphanum := by
      cases n <;> exact List.all_eq_true.mp (by decide)
    have hpart := List.find?_some hnetwork
    rw [decide_eq_true_iff] at hpart
    exact (show network.humanReadablePart = part from hpart) ▸ hall network
  have hdata : ∀ c ∈ data, c.isAlphanum := by
    refine isAlphanum_of_mapM (fun c x hx => ?_) hsymbols
    have halphabet : ∀ c ∈ Symbol.alphabet, c.isAlphanum := List.all_eq_true.mp (by decide)
    obtain ⟨i, hi, -⟩ := Option.map_eq_some_iff.mp hx
    exact halphabet c (mem_of_findIdx? hi)
  have hall : ∀ c ∈ text.map Char.toLower, c.isAlphanum := by
    rw [hlower, List.forall_mem_append, List.forall_mem_cons]
    exact ⟨hpart, by decide, hdata⟩
  refine ⟨?_, fun c hc => isAlphanum_of_toLower (hall _ (List.mem_map_of_mem hc))⟩
  rintro rfl
  simp at hlower

theorem isAlphanum_of_ofChars? {text : List Char} {address : Address}
    (h : ofChars? text = some address) : text ≠ [] ∧ ∀ c ∈ text, c.isAlphanum := by
  unfold ofChars? at h
  split at h
  · rename_i segwit hsegwit
    exact isAlphanum_of_ofSegwit? hsegwit h
  · obtain ⟨payload, hpayload, -⟩ := Option.bind_eq_some_iff.mp h
    exact Base58.isAlphanum_of_decodeCheck? hpayload

end Address

end OutputDescriptor
