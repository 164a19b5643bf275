import OutputDescriptor.Proofs.Checksum.Trace
import OutputDescriptor.Proofs.Key.Text
import OutputDescriptor.Proofs.Script.Reading

/-!
The grammar of descriptors, and that reading accepts exactly what it derives.

A call is either one on leaf arguments, none of which holds a comma or a parenthesis, or a wrapper
around another call. The three nonterminals of the grammar are the calls that may stand inside
`wsh`, inside `sh`, and alone.
-/
namespace OutputDescriptor

/-- The kinds of the nodes of a script expression and the texts of their arguments. -/
inductive Outline
  | leaf (type : ScriptType) (args : List String)
  | wrapped (wrapper : Wrapper) (arg : String) (inner : Outline)
  deriving DecidableEq

def ScriptExpr.outline : ScriptExpr → Outline
  | .wrapped _ wrapper inner => .wrapped wrapper inner.text inner.outline
  | script => .leaf script.type (script.children.map Expr.text)

theorem ScriptType.allowedIn_wsh_iff {type : ScriptType} :
    type.allowedIn (some (.wrapper .wsh)) ↔
      type ∈ [.keyed .pk, .keyed .pkh, .multisig false, .multisig true] := by
  rw [allowedIn_wrapper]
  exact Wrapper.wraps_wsh_iff

theorem ScriptType.allowedIn_sh_iff {type : ScriptType} :
    type.allowedIn (some (.wrapper .sh)) ↔
      type ∈ [.keyed .pk, .keyed .pkh, .multisig false, .multisig true] ∨ type = .keyed .wpkh ∨
        type = .wrapper .wsh := by
  rw [allowedIn_wrapper, ← Wrapper.wraps_wsh_iff]
  exact Wrapper.wraps_sh_iff

namespace Grammar

def callOf (type : ScriptType) (args : List String) : String :=
  type.token ++ "(" ++ ",".intercalate args ++ ")"

/-- The arguments that a call takes besides other calls. -/
inductive LeafArgs (ctx : Context) (network : Network) : ScriptType → List String → Prop
  | key (form : KeyForm) {text : String} {key : KeyExpr}
      (hkey : KeyExpr.parse ctx network text = .ok key) : LeafArgs ctx network (.keyed form) [text]
  | keys (sorted : Bool) {threshold : String} {number : NumberExpr} {texts : List String}
      {keys : List KeyExpr} (hnumber : NumberExpr.parse network threshold = .ok number)
      (hkeys : List.Forall₂ (fun text key => KeyExpr.parse ctx network text = .ok key) texts keys)
      (hlength : 2 ≤ keys.length) (hsorted : sorted → ∀ key ∈ keys, key.isCompressed) :
      LeafArgs ctx network (.multisig sorted) (threshold :: texts)
  | address {text : String} {address : AddrExpr}
      (haddress : AddrExpr.parse network text = .ok address) : LeafArgs ctx network .addr [text]
  | hex {text : String} {hex : HexExpr} (hhex : HexExpr.parse network text = .ok hex) :
      LeafArgs ctx network .raw [text]

/-- The calls that may stand anywhere. -/
inductive Basic (ctx : Context) (network : Network) : Outline → String → Prop
  | call {type : ScriptType} {args : List String}
      (htype : type ∈ [.keyed .pk, .keyed .pkh, .multisig false, .multisig true])
      (hargs : LeafArgs ctx network type args) :
      Basic ctx network (.leaf type args) (callOf type args)

/-- The calls that may stand inside `sh`. -/
inductive Nested (ctx : Context) (network : Network) : Outline → String → Prop
  | basic {o : Outline} {text : String} (h : Basic ctx network o text) : Nested ctx network o text
  | wpkh {args : List String} (hargs : LeafArgs ctx network (.keyed .wpkh) args) :
      Nested ctx network (.leaf (.keyed .wpkh) args) (callOf (.keyed .wpkh) args)
  | wsh {o : Outline} {text : String} (h : Basic ctx network o text) :
      Nested ctx network (.wrapped .wsh text o) (callOf (.wrapper .wsh) [text])

/-- The calls that are complete descriptors. -/
inductive Body (ctx : Context) (network : Network) : Outline → String → Prop
  | basic {o : Outline} {text : String} (h : Basic ctx network o text) : Body ctx network o text
  | call {type : ScriptType} {args : List String}
      (htype : type ∈ [.keyed .wpkh, .keyed .combo, .addr, .raw])
      (hargs : LeafArgs ctx network type args) :
      Body ctx network (.leaf type args) (callOf type args)
  | wsh {o : Outline} {text : String} (h : Basic ctx network o text) :
      Body ctx network (.wrapped .wsh text o) (callOf (.wrapper .wsh) [text])
  | sh {o : Outline} {text : String} (h : Nested ctx network o text) :
      Body ctx network (.wrapped .sh text o) (callOf (.wrapper .sh) [text])

/-- The three nonterminals at once, told apart by the call around them. -/
inductive Derives (ctx : Context) (network : Network) :
    Option ScriptType → Outline → String → Prop
  | leaf {parent : Option ScriptType} {type : ScriptType} {args : List String}
      (hallowed : type.allowedIn parent) (hargs : LeafArgs ctx network type args) :
      Derives ctx network parent (.leaf type args) (callOf type args)
  | wrapped {parent : Option ScriptType} {w : Wrapper} {o : Outline} {text : String}
      (hallowed : (ScriptType.wrapper w).allowedIn parent)
      (hinner : Derives ctx network (some (.wrapper w)) o text) :
      Derives ctx network parent (.wrapped w text o) (callOf (.wrapper w) [text])

section

variable {ctx : Context} {network : Network} {o : Outline} {text : String}

theorem LeafArgs.ne_wrapper {type : ScriptType} {args : List String}
    (h : LeafArgs ctx network type args) (w : Wrapper) : type ≠ .wrapper w := by
  cases h <;> simp

theorem derives_wsh_iff :
    Derives ctx network (some (.wrapper .wsh)) o text ↔ Basic ctx network o text := by
  constructor
  · intro h
    cases h with
    | leaf hallowed hargs =>
      rw [ScriptType.allowedIn_wsh_iff] at hallowed
      exact .call hallowed hargs
    | wrapped hallowed =>
      rw [ScriptType.allowedIn_wsh_iff] at hallowed
      simp at hallowed
  · rintro ⟨htype, hargs⟩
    exact .leaf (ScriptType.allowedIn_wsh_iff.mpr htype) hargs

theorem derives_sh_iff :
    Derives ctx network (some (.wrapper .sh)) o text ↔ Nested ctx network o text := by
  constructor
  · intro h
    cases h with
    | leaf hallowed hargs =>
      rcases ScriptType.allowedIn_sh_iff.mp hallowed with htype | rfl | rfl
      · exact .basic (.call htype hargs)
      · exact .wpkh hargs
      · exact absurd rfl (hargs.ne_wrapper .wsh)
    | wrapped hallowed hinner =>
      rcases ScriptType.allowedIn_sh_iff.mp hallowed with htype | htype | htype
      · simp at htype
      · cases htype
      · cases htype
        exact .wsh (derives_wsh_iff.mp hinner)
  · rintro (⟨htype, hargs⟩ | hargs | h)
    · exact .leaf (ScriptType.allowedIn_sh_iff.mpr (.inl htype)) hargs
    · exact .leaf rfl hargs
    · exact .wrapped rfl (derives_wsh_iff.mpr h)

theorem derives_none_iff : Derives ctx network none o text ↔ Body ctx network o text := by
  constructor
  · intro h
    cases h with
    | @leaf _ type args _ hargs =>
      by_cases htype : type.allowedIn (some (.wrapper .wsh))
      · exact .basic (.call (ScriptType.allowedIn_wsh_iff.mp htype) hargs)
      · refine .call ?_ hargs
        cases hargs with
        | key form => cases form <;> first | exact absurd rfl htype | decide
        | keys sorted => exact absurd rfl htype
        | address => decide
        | hex => decide
    | @wrapped _ w _ _ _ hinner =>
      cases w with
      | sh => exact .sh (derives_sh_iff.mp hinner)
      | wsh => exact .wsh (derives_wsh_iff.mp hinner)
  · rintro (⟨_, hargs⟩ | ⟨_, hargs⟩ | h | h)
    · exact .leaf rfl hargs
    · exact .leaf rfl hargs
    · exact .wrapped rfl (derives_wsh_iff.mpr h)
    · exact .wrapped rfl (derives_sh_iff.mpr h)

/-! ### The characters of a derived text -/

/-- The characters of descriptors without checksums. -/
def isBodyChar (c : Char) : Bool := isLeafChar c || ['(', ')', ','].contains c

theorem isBodyChar_of_isLeafChar {c : Char} (h : isLeafChar c) : isBodyChar c := by
  rw [isBodyChar, h, Bool.true_or]

theorem isPrintable_of_isAlphanum {c : Char} (h : c.isAlphanum) : Checksum.isPrintable c := by
  have hcode : 48 ≤ c.toNat ∧ c.toNat ≤ 122 := by
    obtain (hupper | hlower) | hdigit := isAlphanum_iff.mp h
    · have hbounds : 65 ≤ c.toNat ∧ c.toNat ≤ 90 := of_decide_eq_true hupper
      omega
    · obtain ⟨hlow, hhigh⟩ := Bool.and_eq_true_iff.mp hlower
      have hlow : 97 ≤ c.toNat := of_decide_eq_true hlow
      have hhigh : c.toNat ≤ 122 := of_decide_eq_true hhigh
      omega
    · obtain ⟨hlow, hhigh⟩ := Bool.and_eq_true_iff.mp hdigit
      have hlow : 48 ≤ c.toNat := of_decide_eq_true hlow
      have hhigh : c.toNat ≤ 57 := of_decide_eq_true hhigh
      omega
  rw [Checksum.isPrintable, Bool.and_eq_true, decide_eq_true_iff, decide_eq_true_iff]
  omega

theorem isPrintable_of_isBodyChar {c : Char} (h : isBodyChar c) : Checksum.isPrintable c := by
  have hleaf : ∀ d ∈ ['[', ']', '/', '\x27', '*'], Checksum.isPrintable d :=
    List.all_eq_true.mp (by decide)
  have hbody : ∀ d ∈ ['(', ')', ','], Checksum.isPrintable d := List.all_eq_true.mp (by decide)
  simp only [isBodyChar, isLeafChar, Bool.or_eq_true, List.contains_iff_mem] at h
  rcases h with (h | h) | h
  · exact isPrintable_of_isAlphanum h
  · exact hleaf c h
  · exact hbody c h

theorem toList_callOf (type : ScriptType) (args : List String) :
    (callOf type args).toList = callText type ([','].intercalate (args.map String.toList)) := by
  simp only [callOf, callText, String.toList_append, String.toList_intercalate]
  simp

theorem LeafArgs.ne_nil {type : ScriptType} {args : List String}
    (h : LeafArgs ctx network type args) : args ≠ [] := by
  cases h <;> simp

theorem LeafArgs.isLeafChar {type : ScriptType} {args : List String}
    (h : LeafArgs ctx network type args) :
    ∀ arg ∈ args, arg.toList ≠ [] ∧ ∀ c ∈ arg.toList, isLeafChar c := by
  have hplain {text : String} (h : text.toList ≠ [] ∧ ∀ c ∈ text.toList, c.isAlphanum) :
      text.toList ≠ [] ∧ ∀ c ∈ text.toList, OutputDescriptor.isLeafChar c :=
    ⟨h.1, fun c hc => isLeafChar_of_isPathChar (isPathChar_of_isAlphanum (h.2 c hc))⟩
  cases h with
  | key form hkey =>
    rw [List.forall_mem_singleton]
    exact KeyExpr.isLeafChar_of_parse hkey
  | keys sorted hnumber hkeys =>
    rw [List.forall_mem_cons]
    refine ⟨hplain (NumberExpr.isAlphanum_of_parse hnumber), fun text htext => ?_⟩
    obtain ⟨key, -, hkey⟩ := exists_of_forall₂ hkeys htext
    exact KeyExpr.isLeafChar_of_parse hkey
  | address haddress =>
    rw [List.forall_mem_singleton]
    exact hplain (AddrExpr.isAlphanum_of_parse haddress)
  | hex hhex =>
    rw [List.forall_mem_singleton]
    exact hplain (HexExpr.isAlphanum_of_parse hhex)

theorem LeafArgs.isLeafChar_map {type : ScriptType} {args : List String}
    (h : LeafArgs ctx network type args) :
    ∀ arg ∈ args.map String.toList, arg ≠ [] ∧ ∀ c ∈ arg, OutputDescriptor.isLeafChar c := by
  rw [List.forall_mem_map]
  exact h.isLeafChar

theorem isBodyChar_of_mem_callText {type : ScriptType} {args : List Char}
    (h : ∀ c ∈ args, isBodyChar c) : ∀ c ∈ callText type args, isBodyChar c := by
  rw [callText, List.forall_mem_append, List.forall_mem_cons, List.forall_mem_append,
    List.forall_mem_singleton]
  refine ⟨fun c hc => ?_, by decide, h, by decide⟩
  have hlower := type.isLower_of_mem_token c hc
  have halphanum : c.isAlphanum := isAlphanum_iff.mpr (.inl (.inr hlower))
  exact isBodyChar_of_isLeafChar (isLeafChar_of_isPathChar (isPathChar_of_isAlphanum halphanum))

variable {parent : Option ScriptType}

theorem Derives.isBodyChar (h : Derives ctx network parent o text) :
    ∀ c ∈ text.toList, isBodyChar c := by
  induction h with
  | leaf _ hargs =>
    rw [toList_callOf]
    apply isBodyChar_of_mem_callText
    refine forall_mem_intercalate (by decide) fun arg harg c hc => ?_
    exact isBodyChar_of_isLeafChar ((hargs.isLeafChar_map arg harg).2 c hc)
  | wrapped _ _ ih =>
    rw [toList_callOf]
    apply isBodyChar_of_mem_callText
    simpa using ih

theorem Derives.noEmptyPiece (h : Derives ctx network parent o text) :
    NoEmptyPiece ',' text.toList := by
  induction h with
  | leaf _ hargs =>
    rw [toList_callOf]
    refine NoEmptyPiece.callText (Call.noEmptyPiece_intercalate ?_ hargs.isLeafChar_map) _
    simpa using hargs.ne_nil
  | wrapped _ _ ih =>
    rw [toList_callOf]
    exact NoEmptyPiece.callText (by simpa using ih) _

/-- Where a call begins, its commas are not taken to separate arguments. -/
theorem Derives.splitArgs (h : Derives ctx network parent o text) :
    Call.splitArgs text.toList = [text.toList] := by
  cases h with
  | leaf => rw [toList_callOf, Call.splitArgs_callText]
  | wrapped => rw [toList_callOf, Call.splitArgs_callText]

end

end Grammar

end OutputDescriptor
