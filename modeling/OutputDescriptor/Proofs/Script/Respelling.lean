import OutputDescriptor.Proofs.Evaluation.Combination

/-! Descriptors whose keys are written in another way: the same calls are read on other keys. -/
namespace OutputDescriptor

open Grammar

namespace ScriptExpr

/-- The same calls on keys that are related. A combination has a key of its own network. -/
inductive SameCalls (R : KeyExpr → KeyExpr → Prop) : ScriptExpr → ScriptExpr → Prop
  | wrapped {label label' : Label} (hnetwork : label.network = label'.network) (wrapper : Wrapper)
      {inner inner' : ScriptExpr} (h : SameCalls R inner inner') :
      SameCalls R (.wrapped label wrapper inner) (.wrapped label' wrapper inner')
  | keyed {label label' : Label} (hnetwork : label.network = label'.network) (form : KeyForm)
      {key key' : KeyExpr} (hcombo : form = .combo → key.network = label.network) (h : R key key') :
      SameCalls R (.keyed label form key) (.keyed label' form key')
  | multisig {label label' : Label} (hnetwork : label.network = label'.network) (sorted : Bool)
      (threshold : NumberExpr) {keys keys' : List KeyExpr} (h : List.Forall₂ R keys keys') :
      SameCalls R (.multisig label sorted threshold keys) (.multisig label' sorted threshold keys')
  | addr {label label' : Label} (hnetwork : label.network = label'.network) (address : AddrExpr) :
      SameCalls R (.addr label address) (.addr label' address)
  | raw {label label' : Label} (hnetwork : label.network = label'.network) (hex : HexExpr) :
      SameCalls R (.raw label hex) (.raw label' hex)

theorem SameCalls.imp {R S : KeyExpr → KeyExpr → Prop} (hRS : ∀ key key', R key key' → S key key')
    {e e' : ScriptExpr} (h : e.SameCalls R e') : e.SameCalls S e' := by
  induction h with
  | wrapped hnetwork wrapper _ ih => exact .wrapped hnetwork wrapper ih
  | keyed hnetwork form hcombo h => exact .keyed hnetwork form hcombo (hRS _ _ h)
  | multisig hnetwork sorted threshold h => exact .multisig hnetwork sorted threshold (h.imp hRS)
  | addr hnetwork address => exact .addr hnetwork address
  | raw hnetwork hex => exact .raw hnetwork hex

/-- The text of an expression, without its checksum, in which every key is written in another way. -/
def respell (f : String → String) : ScriptExpr → String
  | .wrapped _ wrapper inner => callOf (.wrapper wrapper) [inner.respell f]
  | .keyed _ form key => callOf (.keyed form) [f key.text]
  | .multisig _ sorted threshold keys =>
    callOf (.multisig sorted) (threshold.text :: keys.map fun key => f key.text)
  | .addr _ address => callOf .addr [address.text]
  | .raw _ hex => callOf .raw [hex.text]

variable {ctx : Context} {network : Network} {parent : Option ScriptType} {text : String}
  {e : ScriptExpr}

/-- A call that wraps no other is read if its arguments are. -/
theorem parse_leaf {args : List String} (hlabel : e.label = ⟨network, callOf e.type args, none⟩)
    (hallowed : e.type.allowedIn parent) (hshaped : e.Shaped) (hleaf : ∀ w, e.type ≠ .wrapper w)
    (hchildren : readChildren ctx network e.type (args.map String.toList) = .ok e.children) :
    parse ctx network parent (callOf e.type args) = .ok e := by
  obtain ⟨hargs, -⟩ := leafArgs_of_readChildren hchildren hshaped hleaf
  have htexts : (args.map String.toList).map String.ofList = args := by
    simp [List.map_map, Function.comp_def]
  rw [htexts] at hargs
  -- the grammar gives an expression with the same arguments
  obtain ⟨e', -, -, -, hnetwork, harity, hread⟩ := hargs.exists_expr e.label
  obtain hsame : e.children = e'.children := Except.ok.inj (hchildren.symm.trans hread)
  rw [← hsame] at hnetwork
  have hne : args.map String.toList ≠ [] := by simpa using hargs.ne_nil
  exact parse_callOf hlabel (.leaf hallowed hargs) hallowed hshaped hnetwork
    (Call.noEmptyPiece_intercalate hne hargs.isLeafChar_map)
    (Call.splitArgs_intercalate hne hargs.isLeafChar_map) harity hchildren

/-- The arguments of an expression that was read are read again under another label. -/
theorem Reads.parse_relabel {call : Call} (h : Reads ctx network parent text call e)
    (hleaf : ∀ w, e.type ≠ .wrapper w) {e' : ScriptExpr} (htype : e'.type = e.type)
    (hchildren : e'.children = e.children) (hshaped : e'.Shaped)
    (hlabel : e'.label = ⟨network, callOf e'.type (e.children.map Expr.text), none⟩) :
    parse ctx network parent (callOf e'.type (e.children.map Expr.text)) = .ok e' := by
  have hargs : (e.children.map Expr.text).map String.toList = call.args := by
    rw [h.texts]
    simp [List.map_map, Function.comp_def]
  refine parse_leaf hlabel (htype ▸ h.allowedIn) hshaped (htype ▸ hleaf) ?_
  rw [hargs, htype, hchildren]
  exact h.readChildren_eq_ok

section Keys

variable {f : String → String} {R : KeyExpr → KeyExpr → Prop}
  (hread : ∀ text key, KeyExpr.parse ctx network text = .ok key →
    ∃ key', KeyExpr.parse ctx network (f text) = .ok key' ∧ R key key')
include hread

theorem exists_keys_respell {texts : List String} {keys : List KeyExpr}
    (h : List.Forall₂ (fun text key => KeyExpr.parse ctx network text = .ok key) texts keys) :
    ∃ keys', List.Forall₂ (fun text key => KeyExpr.parse ctx network text = .ok key)
      (texts.map f) keys' ∧ List.Forall₂ R keys keys' := by
  induction h with
  | nil => exact ⟨[], .nil, .nil⟩
  | @cons text key texts keys hkey _ ih =>
    obtain ⟨key', hkey', hR⟩ := hread text key hkey
    obtain ⟨keys', hkeys', hRs⟩ := ih
    exact ⟨key' :: keys', .cons hkey' hkeys', .cons hR hRs⟩

theorem parse_respell_keyed {label : Label} {form : KeyForm} {key : KeyExpr}
    (h : parse ctx network parent text = .ok (.keyed label form key)) :
    ∃ e', parse ctx network parent (respell f (.keyed label form key)) = .ok e' ∧
      SameCalls R (.keyed label form key) e' := by
  obtain ⟨call, hreads⟩ := parse_eq_ok_iff.mp h
  have hlabel : label.network = network := congrArg Label.network hreads.label
  obtain ⟨arg, -, harg⟩ := readChildren_keyed_eq_ok_iff.mp hreads.readChildren_eq_ok
  obtain ⟨key', hkey', hR⟩ := hread _ key harg
  rw [← (KeyExpr.parse_network harg).2] at hkey'
  have htext : key'.text = f key.text := (KeyExpr.parse_network hkey').2
  rw [← htext] at hkey'
  have hnetwork : key.network = label.network := (KeyExpr.parse_network harg).1.trans hlabel.symm
  refine ⟨ScriptExpr.call network form key', ?_, .keyed hlabel form (fun _ => hnetwork) hR⟩
  rw [respell, ← htext]
  exact parse_call hreads.allowedIn hkey'

variable (hcompressed : ∀ key key', R key key' → key'.isCompressed = key.isCompressed)
include hcompressed

theorem parse_respell_multisig {label : Label} {sorted : Bool} {threshold : NumberExpr}
    {keys : List KeyExpr}
    (h : parse ctx network parent text = .ok (.multisig label sorted threshold keys)) :
    ∃ e', parse ctx network parent (respell f (.multisig label sorted threshold keys)) = .ok e' ∧
      SameCalls R (.multisig label sorted threshold keys) e' := by
  obtain ⟨call, hreads⟩ := parse_eq_ok_iff.mp h
  have hlabel : label.network = network := congrArg Label.network hreads.label
  obtain ⟨hlength, hsorted⟩ := hreads.shaped
  obtain ⟨arg, rest, -, hnumber, hkeys⟩ :=
    readChildren_multisig_eq_ok_iff.mp hreads.readChildren_eq_ok
  rw [← (NumberExpr.parse_network hnumber).2] at hnumber
  obtain ⟨keys', hkeys', hR⟩ := exists_keys_respell hread (List.forall₂_map_left_iff.mpr hkeys)
  rw [← texts_of_parse hkeys, List.map_map] at hkeys'
  have hlength' : 2 ≤ keys'.length := hR.length_eq ▸ hlength
  have hsorted' : sorted → ∀ key ∈ keys', key.isCompressed := by
    intro hsort key' hkey'
    obtain ⟨key, hkey, hRkey⟩ := exists_of_forall₂ hR.flip hkey'
    exact (hcompressed key key' hRkey).trans (hsorted hsort key hkey)
  let e' : ScriptExpr := .multisig ⟨network, callOf (.multisig sorted)
    (threshold.text :: keys.map fun key => f key.text), none⟩ sorted threshold keys'
  refine ⟨e', ?_, .multisig hlabel sorted threshold hR⟩
  have hchildren : readChildren ctx network (.multisig sorted)
      ((threshold.text :: keys.map fun key => f key.text).map String.toList) = .ok e'.children := by
    refine readChildren_multisig_eq_ok_iff.mpr ⟨threshold.text.toList, _, rfl, ?_, ?_⟩
    · rwa [String.ofList_toList]
    · rw [List.forall₂_map_left_iff]
      simpa only [String.ofList_toList, Function.comp_def] using hkeys'
  have hleaf : ∀ w, e'.type ≠ .wrapper w := by simp [e', ScriptExpr.type]
  exact @parse_leaf ctx network parent e' _ rfl hreads.allowedIn ⟨hlength', hsorted'⟩ hleaf hchildren

/-- If every key text that is accepted is accepted in the other way as well, so is every descriptor, as
the same calls. -/
theorem parse_respell (h : parse ctx network parent text = .ok e) :
    ∃ e', parse ctx network parent (e.respell f) = .ok e' ∧ e.SameCalls R e' := by
  induction e generalizing parent text with
  | wrapped label wrapper inner ih =>
    obtain ⟨call, hreads⟩ := parse_eq_ok_iff.mp h
    have hlabel : label.network = network := congrArg Label.network hreads.label
    obtain ⟨inner', hinner', hsame⟩ := ih (parse_inner h)
    have htext : inner'.text = inner.respell f := text_of_parse hinner'
    rw [← htext] at hinner'
    refine ⟨wrap network wrapper inner', ?_, .wrapped hlabel wrapper hsame⟩
    rw [respell, ← htext]
    exact parse_wrap hreads.allowedIn hinner'
  | keyed label form key => exact parse_respell_keyed hread h
  | multisig label sorted threshold keys => exact parse_respell_multisig hread hcompressed h
  | addr label address =>
    obtain ⟨call, hreads⟩ := parse_eq_ok_iff.mp h
    have hlabel : label.network = network := congrArg Label.network hreads.label
    let e' : ScriptExpr := .addr ⟨network, callOf .addr [address.text], none⟩ address
    have hparse := @Reads.parse_relabel ctx network parent text _ call hreads
      (by simp [ScriptExpr.type]) e' rfl rfl trivial rfl
    exact ⟨e', hparse, .addr hlabel address⟩
  | raw label hex =>
    obtain ⟨call, hreads⟩ := parse_eq_ok_iff.mp h
    have hlabel : label.network = network := congrArg Label.network hreads.label
    let e' : ScriptExpr := .raw ⟨network, callOf .raw [hex.text], none⟩ hex
    have hparse := @Reads.parse_relabel ctx network parent text _ call hreads
      (by simp [ScriptExpr.type]) e' rfl rfl trivial rfl
    exact ⟨e', hparse, .raw hlabel hex⟩

end Keys

end ScriptExpr

end OutputDescriptor
