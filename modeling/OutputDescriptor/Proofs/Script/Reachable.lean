import OutputDescriptor.Key.Parser
import OutputDescriptor.Proofs.Checksum.Trace
import OutputDescriptor.Proofs.Script.WellBuilt
import OutputDescriptor.Script.Evaluation

/-! What holds of every expression that reading, building and changing expressions leads to. -/
namespace OutputDescriptor

namespace KeyExpr

/-- An extended key is one of the kind of network that the expression is for. -/
def OnNetwork (key : KeyExpr) : Prop :=
  ∀ k tail, key.pair = .extended k tail → k.network = key.network.kind

theorem onNetwork_ranged (range : KeyRange) {key : KeyExpr} (h : key.OnNetwork) :
    (key.ranged range).OnNetwork := by
  unfold ranged withRange?
  split
  · rename_i k hardened old hpair
    rintro k' tail ⟨⟩
    exact h k _ hpair
  · exact h

section Parse

variable {ctx : Context} (hctx : ctx.scheme = KeyScheme.standard)
include hctx

theorem network_decodePair {network : Network} {text : String} {parts : KeyText}
    {k : ExtendedKey} {tail : KeyTail}
    (h : decodePair ctx network text parts = .ok (.extended k tail)) :
    k.network = network.kind := by
  obtain ⟨-, base, hbase, hderived, -⟩ := decodePair_eq_extended_iff.mp h
  rw [hctx] at hbase
  exact (network_foldlM_descend (hctx ▸ KeyScheme.keepsNetwork_standard) hderived).trans
    (KeyScheme.decodeExtendedKey_eq_ok_iff.mp hbase).2

theorem onNetwork_of_parse {network : Network} {text : String} {key : KeyExpr}
    (h : parse ctx network text = .ok key) : key.OnNetwork := by
  obtain ⟨parts, pair, -, hpair, rfl⟩ := parse_eq_ok_iff.mp h
  rintro k tail rfl
  exact network_decodePair hctx hpair

end Parse

end KeyExpr

/-- What reading with the standard keys, building from reachable arguments, setting ranges, taking
arguments out and expanding combinations leads to. -/
inductive Reachable : Expr → Prop
  | parseScript {ctx : Context} (hctx : ctx.scheme = KeyScheme.standard) {network : Network}
      {parent : Option ScriptType} {text : String} {e : ScriptExpr}
      (h : ScriptExpr.parse ctx network parent text = .ok e) : Reachable (.script e)
  | parseKey {ctx : Context} (hctx : ctx.scheme = KeyScheme.standard) {network : Network}
      {text : String} {key : KeyExpr} (h : KeyExpr.parse ctx network text = .ok key) :
      Reachable (.key key)
  | parseAddr {network : Network} {text : String} {address : AddrExpr}
      (h : AddrExpr.parse network text = .ok address) : Reachable (.addr address)
  | parseHex {network : Network} {text : String} {hex : HexExpr}
      (h : HexExpr.parse network text = .ok hex) : Reachable (.hex hex)
  | parseNumber {network : Network} {text : String} {number : NumberExpr}
      (h : NumberExpr.parse network text = .ok number) : Reachable (.number number)
  | build {label : Label} {type : ScriptType} {children : List Expr} {e : ScriptExpr}
      (hchildren : ∀ child ∈ children, Reachable child)
      (h : ScriptExpr.ofChildren label type children = .ok e) : Reachable (.script e)
  | setRange {e : ScriptExpr} (range : KeyRange) (h : Reachable (.script e)) :
      Reachable (.script (e.withRange range))
  | setKeyRange {key ranged : KeyExpr} {range : KeyRange} (hkey : Reachable (.key key))
      (h : key.setRange range = .ok ranged) : Reachable (.key ranged)
  | child {e : ScriptExpr} {child : Expr} (h : Reachable (.script e)) (hmem : child ∈ e.children) :
      Reachable child
  | derived {e derived : ScriptExpr} {scripts : List ScriptExpr} (h : Reachable (.script e))
      (hscripts : e.derivedScripts = .ok scripts) (hmem : derived ∈ scripts) :
      Reachable (.script derived)

namespace ScriptExpr

theorem built_of_derivedScripts {P : KeyExpr → Prop} {e derived : ScriptExpr}
    {scripts : List ScriptExpr} (h : (Expr.script e).Built P)
    (hscripts : e.derivedScripts = .ok scripts) (hmem : derived ∈ scripts) :
    (Expr.script derived).Built P := by
  unfold derivedScripts at hscripts
  split at hscripts
  · rename_i label key
    have hkey := List.forall_mem_singleton.mp (Built.children h)
    have hcall {type : ScriptType} {text : String} {child : Expr} {built : ScriptExpr}
        (hchild : child.Built P) (hbuild : ofChildren ⟨label.network, text, none⟩ type [child] =
          .ok built) : (Expr.script built).Built P :=
      built_of_ofChildren hbuild (List.forall_mem_singleton.mpr hchild)
    obtain ⟨pk, hpk, hscripts⟩ := Except.bind_eq_ok_iff.mp hscripts
    obtain ⟨pkh, hpkh, hscripts⟩ := Except.bind_eq_ok_iff.mp hscripts
    have hlegacy : ∀ script ∈ [pk, pkh], (Expr.script script).Built P := by
      rw [List.forall_mem_cons, List.forall_mem_singleton]
      exact ⟨hcall hkey hpk, hcall hkey hpkh⟩
    split at hscripts
    · obtain ⟨wpkh, hwpkh, hscripts⟩ := Except.bind_eq_ok_iff.mp hscripts
      obtain ⟨nested, hnested, hscripts⟩ := Except.bind_eq_ok_iff.mp hscripts
      have hwitness := hcall hkey hwpkh
      cases hscripts
      rcases List.mem_append.mp (show derived ∈ [pk, pkh] ++ [wpkh, nested] from hmem) with
        hmem | hmem
      · exact hlegacy derived hmem
      · rcases List.mem_cons.mp hmem with rfl | hmem
        · exact hwitness
        · rw [List.mem_singleton.mp hmem]
          exact hcall hwitness hnested
    · cases hscripts
      exact hlegacy derived hmem
  · cases hscripts
    cases hmem

end ScriptExpr

theorem Reachable.built {child : Expr} (h : Reachable child) : child.Built KeyExpr.OnNetwork := by
  -- Whatever is built is checked again, except that its keys are on the right kind of network.
  induction h with
  | parseScript hctx h =>
    exact ScriptExpr.built_of_parse (fun _ _ hkey => KeyExpr.onNetwork_of_parse hctx hkey) h
  | parseKey hctx h => exact .key (KeyExpr.onNetwork_of_parse hctx h)
  | parseAddr => exact .addr _
  | parseHex => exact .hex _
  | parseNumber => exact .number _
  | build _ h ih => exact ScriptExpr.built_of_ofChildren h ih
  | setRange range _ ih =>
    exact ScriptExpr.built_withRange (fun _ hkey => KeyExpr.onNetwork_ranged range hkey) ih
  | @setKeyRange key ranged range _ h ih =>
    have hranged : ranged = key.ranged range := by
      unfold KeyExpr.setRange at h
      split at h
      · rename_i found hfound
        cases h
        rw [KeyExpr.ranged, hfound, Option.getD_some]
      · cases h
    rw [hranged]
    exact .key (KeyExpr.onNetwork_ranged range (Expr.built_key_iff.mp ih))
  | child _ hmem ih => exact ScriptExpr.Built.children ih _ hmem
  | derived _ hscripts hmem ih => exact ScriptExpr.built_of_derivedScripts ih hscripts hmem

/-- How many calls can stand inside each other, beginning with one of the type. -/
def ScriptType.maxLevels : ScriptType → Nat
  | .wrapper .sh => 3
  | .wrapper .wsh => 2
  | .keyed _ | .multisig _ | .addr | .raw => 1

theorem ScriptType.maxLevels_le (type : ScriptType) : type.maxLevels ≤ 3 := by
  match type with
  | .wrapper .sh => exact Nat.le_refl 3
  | .wrapper .wsh | .keyed _ | .multisig _ | .addr | .raw => simp [maxLevels]

theorem Wrapper.maxLevels_lt_of_wraps {w : Wrapper} {type : ScriptType} (h : w.wraps type) :
    type.maxLevels < (ScriptType.wrapper w).maxLevels := by
  cases w <;> cases type with
  | wrapper inner => cases inner <;> revert h <;> decide
  | _ => exact Nat.lt_of_lt_of_le Nat.one_lt_two (by decide)

theorem Wrapper.wraps_sh_iff_mem {type : ScriptType} : Wrapper.sh.wraps type ↔ type ∈
    [.wrapper .wsh, .keyed .pk, .keyed .pkh, .keyed .wpkh, .multisig false, .multisig true] := by
  rw [wraps_sh_iff, wraps_wsh_iff]
  simp only [List.mem_cons, List.not_mem_nil, or_false]
  tauto

namespace ScriptExpr

/-- The expression and, from the outside in, those it wraps. -/
def levels : ScriptExpr → List ScriptExpr
  | .wrapped label w inner => .wrapped label w inner :: inner.levels
  | script => [script]

/-- All arguments, at any depth. -/
def descendants (script : ScriptExpr) : List Expr := script.levels.flatMap children

structure Invariant (e : ScriptExpr) : Prop where
  network : ∀ d ∈ e.descendants, d.network = e.network
  sh : ∀ label inner, .wrapped label .sh inner ∈ e.levels → inner.type ∈
    [.wrapper .wsh, .keyed .pk, .keyed .pkh, .keyed .wpkh, .multisig false, .multisig true]
  wsh : ∀ label inner, .wrapped label .wsh inner ∈ e.levels →
    inner.type ∈ [.keyed .pk, .keyed .pkh, .multisig false, .multisig true]
  depth : e.levels.length ≤ 3
  multisig : ∀ label (sorted : Bool) threshold keys,
    .multisig label sorted threshold keys ∈ e.levels →
    1 ≤ threshold.value ∧ 2 ≤ keys.length ∧ (sorted → ∀ key ∈ keys, key.isCompressed)
  raw : ∀ label hex, .raw label hex ∈ e.levels → 1 ≤ hex.value.length
  checksum : ∀ level ∈ e.levels, ∀ checksum, level.checksum = some checksum →
    checksum.toList.length = 8 ∧ ∀ c ∈ checksum.toList, c ∈ Symbol.alphabet
  keyRange : ∀ key, .key key ∈ e.descendants →
    (key.range?.isSome ↔ key.wildcard ≠ .none) ∧
      ∀ range, key.range? = some range → 1 ≤ range.count ∧ range.start + range.count ≤ 2 ^ 31
  keyNetwork : ∀ key, .key key ∈ e.descendants → ∀ k tail, key.pair = .extended k tail →
    k.network = e.network.kind

/-- A property that passes from a wrapper to what it wraps holds at all levels. -/
theorem forall_mem_levels {Q : ScriptExpr → Prop}
    (hinner : ∀ label w inner, Q (.wrapped label w inner) → Q inner) {e : ScriptExpr} (h : Q e) :
    ∀ level ∈ e.levels, Q level := by
  induction e with
  | wrapped label w inner ih =>
    rw [levels, List.forall_mem_cons]
    exact ⟨h, ih (hinner label w inner h)⟩
  | _ => exact List.forall_mem_singleton.mpr h

section Levels

variable {P : KeyExpr → Prop} {e : ScriptExpr} (h : (Expr.script e).Built P)
include h

theorem built_levels : ∀ level ∈ e.levels, (Expr.script level).Built P := by
  refine forall_mem_levels (fun label w inner hbuilt => ?_) h
  exact List.forall_mem_singleton.mp (Built.children hbuilt)

theorem network_levels : ∀ level ∈ e.levels, level.network = e.network := by
  have hall : ∀ level ∈ e.levels, (Expr.script level).Built P ∧ level.network = e.network := by
    refine forall_mem_levels (fun label w inner hlevel => ?_) ⟨h, rfl⟩
    have hchildren := List.forall_mem_singleton.mp (Built.children hlevel.1)
    have hnetwork := List.forall_mem_singleton.mp (Built.network hlevel.1)
    exact ⟨hchildren, hnetwork.trans hlevel.2⟩
  exact fun level hlevel => (hall level hlevel).2

theorem network_descendants : ∀ d ∈ e.descendants, d.network = e.network := by
  intro d hd
  obtain ⟨level, hlevel, hd⟩ := List.mem_flatMap.mp hd
  exact (Built.network (built_levels h level hlevel) d hd).trans (network_levels h level hlevel)

theorem built_descendants : ∀ d ∈ e.descendants, d.Built P := by
  intro d hd
  obtain ⟨level, hlevel, hd⟩ := List.mem_flatMap.mp hd
  exact Built.children (built_levels h level hlevel) d hd

theorem length_levels_le : e.levels.length ≤ e.type.maxLevels := by
  induction e with
  | wrapped label w inner ih =>
    have hinner := ih (List.forall_mem_singleton.mp (Built.children h))
    have hwraps := Wrapper.maxLevels_lt_of_wraps (Built.shaped h)
    rw [levels, List.length_cons]
    exact Nat.lt_of_le_of_lt hinner hwraps
  | _ => exact Nat.le_refl 1

end Levels

end ScriptExpr

theorem KeyExpr.isSome_range?_iff (key : KeyExpr) :
    key.range?.isSome ↔ key.wildcard ≠ .none := by
  unfold range? wildcard
  split
  · rename_i hardened range _
    cases hardened <;> simp
  · simp

/-- Every reachable script expression keeps the invariant of the representation. -/
theorem Reachable.invariant {e : ScriptExpr} (h : Reachable (.script e)) : e.Invariant := by
  have hbuilt := h.built
  have hlevels := ScriptExpr.built_levels hbuilt
  have hnetwork := ScriptExpr.network_descendants hbuilt
  exact {
    network := hnetwork
    sh := fun label inner hlevel =>
      Wrapper.wraps_sh_iff_mem.mp (ScriptExpr.Built.shaped (hlevels _ hlevel))
    wsh := fun label inner hlevel =>
      Wrapper.wraps_wsh_iff.mp (ScriptExpr.Built.shaped (hlevels _ hlevel))
    depth := (ScriptExpr.length_levels_le hbuilt).trans e.type.maxLevels_le
    multisig := fun label sorted threshold keys hlevel => by
      obtain ⟨hlength, hsorted⟩ := ScriptExpr.Built.shaped (hlevels _ hlevel)
      exact ⟨Nat.one_le_iff_ne_zero.mpr threshold.value_ne_zero, hlength, hsorted⟩
    raw := fun label hex _ => List.length_pos_iff.mpr hex.value_ne
    checksum := fun level hlevel checksum hchecksum =>
      Checksum.isWellFormed_iff.mp (ScriptExpr.Built.label (hlevels _ hlevel) _ hchecksum)
    keyRange := fun key _ => ⟨key.isSome_range?_iff, fun range _ => ⟨range.count_pos, range.fits⟩⟩
    keyNetwork := fun key hkey k tail hpair => by
      have honNetwork := Expr.built_key_iff.mp (ScriptExpr.built_descendants hbuilt _ hkey)
      rw [← hnetwork _ hkey]
      exact honNetwork k tail hpair }

theorem Reachable.invariant_combo :
    ∃ e scripts, ScriptExpr.parse {} .bitcoin none
        "combo(0279be667ef9dcbbac55a06295ce870b07029bfcdb2dce28d959f2815b16f81798)" = .ok e ∧
      e.derivedScripts = .ok scripts ∧ scripts.length = 4 ∧
        ∀ script ∈ scripts, script.Invariant := by
  have hlength : (do
      let e ← ScriptExpr.parse {} .bitcoin none
        "combo(0279be667ef9dcbbac55a06295ce870b07029bfcdb2dce28d959f2815b16f81798)"
      let scripts ← e.derivedScripts
      return scripts.length : Except Error Nat) = .ok 4 := by
    decide +kernel
  obtain ⟨e, hparse, hlength⟩ := Except.bind_eq_ok_iff.mp hlength
  obtain ⟨scripts, hscripts, hlength⟩ := Except.bind_eq_ok_iff.mp hlength
  exact ⟨e, scripts, hparse, hscripts, Except.ok.inj hlength, fun script hmem =>
    Reachable.invariant (.derived (.parseScript rfl hparse) hscripts hmem)⟩

end OutputDescriptor
