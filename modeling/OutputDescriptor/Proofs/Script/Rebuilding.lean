import OutputDescriptor.Proofs.Script.Reachable

/-! Building an expression from a list of arguments: which lists are taken, what the others are
refused with, and that an expression is rebuilt from its own arguments. -/
namespace OutputDescriptor

inductive ScriptType.Takes : ScriptType → List Expr → Prop
  | sh {inner : ScriptExpr} (h : inner.type ∈ [.wrapper .wsh, .keyed .pk, .keyed .pkh,
      .keyed .wpkh, .multisig false, .multisig true]) : Takes (.wrapper .sh) [.script inner]
  | wsh {inner : ScriptExpr} (h : inner.type ∈ [.keyed .pk, .keyed .pkh, .multisig false,
      .multisig true]) : Takes (.wrapper .wsh) [.script inner]
  | keyed (form : KeyForm) (key : KeyExpr) : Takes (.keyed form) [.key key]
  | multi (threshold : NumberExpr) {keys : List KeyExpr} (h : 2 ≤ keys.length) :
      Takes (.multisig false) (.number threshold :: keys.map .key)
  | sortedmulti (threshold : NumberExpr) {keys : List KeyExpr} (h : 2 ≤ keys.length)
      (hcompressed : ∀ key ∈ keys, key.isCompressed) :
      Takes (.multisig true) (.number threshold :: keys.map .key)
  | addr (address : AddrExpr) : Takes .addr [.addr address]
  | raw (hex : HexExpr) : Takes .raw [.hex hex]

def Checksum.IsCode (checksum : String) : Prop :=
  checksum.toList.length = 8 ∧ ∀ c ∈ checksum.toList, c ∈ Symbol.alphabet

theorem Label.wellFormed_iff {label : Label} :
    label.WellFormed ↔ ∀ checksum, label.checksum = some checksum → Checksum.IsCode checksum :=
  forall_congr' fun _ => imp_congr_right fun _ => Checksum.isWellFormed_iff

namespace ScriptExpr

/-! ### What is taken -/

theorem takes_children {e : ScriptExpr} (h : e.Shaped) : e.type.Takes e.children := by
  cases e with
  | wrapped label w inner =>
    cases w with
    | sh => exact .sh (Wrapper.wraps_sh_iff_mem.mp h)
    | wsh => exact .wsh (Wrapper.wraps_wsh_iff.mp h)
  | keyed label form key => exact .keyed form key
  | multisig label sorted threshold keys =>
    cases sorted with
    | false => exact .multi threshold h.1
    | true => exact .sortedmulti threshold h.1 (h.2 rfl)
  | addr label address => exact .addr address
  | raw label hex => exact .raw hex

theorem exists_of_takes {type : ScriptType} {children : List Expr} (h : type.Takes children)
    (label : Label) :
    ∃ e : ScriptExpr, e.label = label ∧ e.type = type ∧ e.children = children ∧ e.Shaped := by
  cases h with
  | @sh inner h => exact ⟨.wrapped label .sh inner, rfl, rfl, rfl, Wrapper.wraps_sh_iff_mem.mpr h⟩
  | @wsh inner h => exact ⟨.wrapped label .wsh inner, rfl, rfl, rfl, Wrapper.wraps_wsh_iff.mpr h⟩
  | keyed form key => exact ⟨.keyed label form key, rfl, rfl, rfl, trivial⟩
  | @multi threshold keys h =>
    exact ⟨.multisig label false threshold keys, rfl, rfl, rfl, h, by simp⟩
  | @sortedmulti threshold keys h hcompressed =>
    exact ⟨.multisig label true threshold keys, rfl, rfl, rfl, h, fun _ => hcompressed⟩
  | addr address => exact ⟨.addr label address, rfl, rfl, rfl, trivial⟩
  | raw hex => exact ⟨.raw label hex, rfl, rfl, rfl, trivial⟩

theorem exists_ofChildren_iff {label : Label} {type : ScriptType} {children : List Expr} :
    (∃ e, ofChildren label type children = .ok e) ↔ label.WellFormed ∧
      (∀ child ∈ children, child.network = label.network) ∧ type.Takes children := by
  constructor
  · rintro ⟨e, h⟩
    obtain ⟨hlabel, hnetwork, -, rfl, rfl, hshaped⟩ := ofChildren_eq_ok_iff.mp h
    exact ⟨hlabel, hnetwork, takes_children hshaped⟩
  · rintro ⟨hlabel, hnetwork, htakes⟩
    obtain ⟨e, he⟩ := exists_of_takes htakes label
    exact ⟨e, ofChildren_eq_ok_iff.mpr ⟨hlabel, hnetwork, he⟩⟩

/-! ### What is refused -/

/-- If the computation fails, it is for the children of a call of the type. -/
abbrev FailsForChildren {α : Type} (type : ScriptType) (x : Except Error α) : Prop :=
  FailsOnly (fun error => ∃ fault, error = .children type fault) x

section Refusal

variable {α : Type} {label : Label} {type : ScriptType} {children : List Expr}

theorem failsForChildren_single (expected : ExprKind) (pick : Expr → Option α)
    (children : List Expr) : FailsForChildren type (single type expected pick children) := by
  unfold single
  split
  · split
    · exact .ok _
    · exact .error ⟨_, rfl⟩
  · exact .error ⟨_, rfl⟩

theorem failsForChildren_keysFrom (position : Nat) (children : List Expr) :
    FailsForChildren type (keysFrom type position children) := by
  fun_induction keysFrom type position children with
  | case1 => exact .ok []
  | case2 position key rest ih => exact ih.bind fun keys => .ok _
  | case3 => exact .error ⟨_, rfl⟩

theorem failsForChildren_thresholdAndKeys (children : List Expr) :
    FailsForChildren type (thresholdAndKeys type children) := by
  unfold thresholdAndKeys
  split
  · exact .error ⟨_, rfl⟩
  · split
    · exact .error ⟨_, rfl⟩
    · exact (failsForChildren_keysFrom 2 _).bind fun keys => .ok _
    · exact .error ⟨_, rfl⟩

theorem failsForChildren_checkSortable (keys : List KeyExpr) :
    FailsForChildren type (checkSortable type keys) := by
  unfold checkSortable
  split
  · exact .error ⟨_, rfl⟩
  · exact .ok ()

theorem failsForChildren_checkNetwork :
    FailsForChildren type (checkNetwork label type children) := by
  unfold checkNetwork
  split
  · exact .error ⟨_, rfl⟩
  · exact .ok ()

theorem failsForChildren_assemble : FailsForChildren type (assemble label type children) := by
  cases type with
  | wrapper wrapper =>
    apply (failsForChildren_single _ _ children).bind
    intro inner
    split
    · exact .ok _
    · exact .error ⟨_, rfl⟩
  | keyed form =>
    exact (failsForChildren_single _ _ children).bind fun key => .ok _
  | multisig sorted =>
    apply (failsForChildren_thresholdAndKeys children).bind
    rintro ⟨threshold, keys⟩
    cases sorted with
    | false => exact .ok _
    | true => exact (failsForChildren_checkSortable keys).bind fun _ => .ok _
  | addr => exact (failsForChildren_single _ _ children).bind fun address => .ok _
  | raw => exact (failsForChildren_single _ _ children).bind fun hex => .ok _

theorem ofChildren_of_not_isCode {code : String} (hcode : label.checksum = some code)
    (h : ¬Checksum.IsCode code) : ofChildren label type children = .error (.checksumFormat code) := by
  have hmalformed : Checksum.isWellFormed code = false := by
    rw [← Bool.not_eq_true, Checksum.isWellFormed_iff]
    exact h
  have hlabel : checkLabel label = .error (.checksumFormat code) := by
    simp [checkLabel, hcode, Option.filter, hmalformed]
  rw [ofChildren, hlabel]
  rfl

/-- With its checksum in order, a call is refused for its children only. -/
theorem failsForChildren_ofChildren (hlabel : label.WellFormed) :
    FailsForChildren type (ofChildren label type children) := by
  rw [ofChildren, checkLabel_eq_ok_iff.mpr hlabel, Except.ok_bind]
  exact failsForChildren_checkNetwork.bind fun _ => failsForChildren_assemble

end Refusal

/-- Building takes what fits the type and keeps it all, so what was built is rebuilt from its parts.
-/
theorem ofChildren_inverse :
    (∀ (network : Network) (type : ScriptType) (text : String) (children : List Expr)
      (checksum : Option String),
      let built := ofChildren ⟨network, text, checksum⟩ type children
      let coded := ∀ code, checksum = some code → Checksum.IsCode code
      let taken := (∀ child ∈ children, child.network = network) ∧ type.Takes children
      ((∃ e, built = .ok e) ↔ coded ∧ taken) ∧
      (∀ e, built = .ok e → e.children = children ∧ e.type = type ∧ e.text = text ∧
        e.checksum = checksum ∧ e.network = network) ∧
      (∀ code, checksum = some code → ¬Checksum.IsCode code →
        built = .error (.checksumFormat code)) ∧
      (coded → ¬taken → ∃ fault, built = .error (.children type fault))) ∧
    ∀ e, Reachable (.script e) ∨ (Expr.script e).Built (fun _ => True) →
      ofChildren ⟨e.network, e.text, e.checksum⟩ e.type e.children = .ok e := by
  refine ⟨fun network type text children checksum => ?_, fun e h => ?_⟩
  · intro built coded taken
    have haccepted : (∃ e, built = .ok e) ↔ coded ∧ taken := by
      rw [exists_ofChildren_iff, Label.wellFormed_iff]
    refine ⟨haccepted, fun e h => ?_, fun code hcode h => ofChildren_of_not_isCode hcode h,
      fun hcoded h => ?_⟩
    · obtain ⟨-, -, hlabel, htype, hchildren, -⟩ := ofChildren_eq_ok_iff.mp h
      exact ⟨hchildren, htype, congrArg Label.text hlabel, congrArg Label.checksum hlabel,
        congrArg Label.network hlabel⟩
    · cases hbuilt : built with
      | ok e => exact absurd (haccepted.mp ⟨e, hbuilt⟩).2 h
      | error error =>
        have hlabel : Label.WellFormed ⟨network, text, checksum⟩ := Label.wellFormed_iff.mpr hcoded
        obtain ⟨fault, rfl⟩ := failsForChildren_ofChildren hlabel error hbuilt
        exact ⟨fault, rfl⟩
  · obtain ⟨P, hbuilt⟩ : ∃ P, (Expr.script e).Built P := by
      cases h with
      | inl h => exact ⟨_, h.built⟩
      | inr h => exact ⟨_, h⟩
    exact ofChildren_eq_ok_iff.mpr ⟨Built.label hbuilt, Built.network hbuilt, rfl, rfl, rfl,
      Built.shaped hbuilt⟩

/-- Two keys are taken with a checksum of eight symbols, and not with a shorter one. -/
theorem ofChildren_inverse_multi :
    let key : KeyExpr := ⟨.testnet, "", none, .publicOnly ⟨.generator, false⟩⟩
    let children : List Expr := [.number ⟨.testnet, "1", 1, by decide⟩, .key key, .key key]
    (∃ e, ofChildren ⟨.testnet, "", some "qqqqqqqq"⟩ (.multisig false) children = .ok e ∧
      e.children = children) ∧
    ofChildren ⟨.testnet, "", some "qqqqqqq"⟩ (.multisig false) children =
      .error (.checksumFormat "qqqqqqq") ∧
    (∃ fault, ofChildren ⟨.testnet, "", none⟩ (.keyed .pk) [] =
      .error (.children (.keyed .pk) fault)) ∧
    ∃ e, parse {} .bitcoin none
        "pk(0279be667ef9dcbbac55a06295ce870b07029bfcdb2dce28d959f2815b16f81798)" = .ok e ∧
      ofChildren ⟨e.network, e.text, e.checksum⟩ e.type e.children = .ok e := by
  intro key children
  obtain ⟨hparts, hrebuilt⟩ := ofChildren_inverse
  have hcoded : ∀ code, some "qqqqqqqq" = some code → Checksum.IsCode code := by
    intro code h
    rw [← Option.some.inj h]
    exact Checksum.isWellFormed_iff.mp (by decide)
  have hshort : ¬Checksum.IsCode "qqqqqqq" := fun h =>
    absurd (Checksum.isWellFormed_iff.mpr h) (by decide)
  have htakes : (ScriptType.multisig false).Takes children :=
    .multi ⟨.testnet, "1", 1, by decide⟩ (show 2 ≤ [key, key].length by decide)
  have hnetwork : ∀ child ∈ children, child.network = .testnet := by
    simp [children, key, Expr.network]
  have hnothing : ¬(ScriptType.keyed .pk).Takes [] := by
    intro h
    cases h
  have hread : ∃ e, parse {} .bitcoin none
      "pk(0279be667ef9dcbbac55a06295ce870b07029bfcdb2dce28d959f2815b16f81798)" = .ok e := by
    have hlength : (do
        let e ← parse {} .bitcoin none
          "pk(0279be667ef9dcbbac55a06295ce870b07029bfcdb2dce28d959f2815b16f81798)"
        return e.children.length : Except Error Nat) = .ok 1 := by
      decide +kernel
    obtain ⟨e, hparse, -⟩ := Except.bind_eq_ok_iff.mp hlength
    exact ⟨e, hparse⟩
  obtain ⟨e, hparse⟩ := hread
  obtain ⟨haccepted, hkept, -, -⟩ :=
    hparts .testnet (.multisig false) "" children (some "qqqqqqqq")
  obtain ⟨multi, hmulti⟩ := haccepted.mpr ⟨hcoded, hnetwork, htakes⟩
  refine ⟨⟨multi, hmulti, (hkept multi hmulti).1⟩, ?_, ?_, e, hparse, ?_⟩
  · exact (hparts .testnet (.multisig false) "" children (some "qqqqqqq")).2.2.1 _ rfl hshort
  · exact (hparts .testnet (.keyed .pk) "" [] none).2.2.2 (by simp) fun h => hnothing h.2
  · exact hrebuilt e (.inl (.parseScript rfl hparse))

end ScriptExpr

end OutputDescriptor
