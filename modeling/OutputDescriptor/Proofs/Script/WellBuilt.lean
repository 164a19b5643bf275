import OutputDescriptor.Proofs.Script.Reading
import OutputDescriptor.Script.Range

/-! Expressions in which every call was built from arguments that fit it. -/
namespace OutputDescriptor

/-- Every call inside the expression fits its arguments, and every key has the property. -/
inductive Expr.Built (P : KeyExpr → Prop) : Expr → Prop
  | script {e : ScriptExpr} (label : e.label.WellFormed)
      (network : ∀ child ∈ e.children, child.network = e.network) (shaped : e.Shaped)
      (children : ∀ child ∈ e.children, child.Built P) : Built P (.script e)
  | key {key : KeyExpr} (h : P key) : Built P (.key key)
  | addr (address : AddrExpr) : Built P (.addr address)
  | hex (hex : HexExpr) : Built P (.hex hex)
  | number (number : NumberExpr) : Built P (.number number)

variable {P : KeyExpr → Prop}

theorem Expr.built_key_iff {key : KeyExpr} : (Expr.key key).Built P ↔ P key := by
  constructor
  · rintro (_ | h)
    exact h
  · exact .key

namespace ScriptExpr

theorem built_of_ofChildren {label : Label} {type : ScriptType} {children : List Expr}
    {e : ScriptExpr} (h : ofChildren label type children = .ok e)
    (hchildren : ∀ child ∈ children, child.Built P) : (Expr.script e).Built P := by
  obtain ⟨hlabel, hnetwork, rfl, -, rfl, hshaped⟩ := ofChildren_eq_ok_iff.mp h
  exact .script hlabel hnetwork hshaped hchildren

section Children

variable {e : ScriptExpr} (h : (Expr.script e).Built P)
include h

theorem Built.label : e.label.WellFormed := by
  cases h with
  | script hlabel => exact hlabel

theorem Built.network : ∀ child ∈ e.children, child.network = e.network := by
  cases h with
  | script _ hnetwork => exact hnetwork

theorem Built.shaped : e.Shaped := by
  cases h with
  | script _ _ hshaped => exact hshaped

theorem Built.children : ∀ child ∈ e.children, child.Built P := by
  cases h with
  | script _ _ _ hchildren => exact hchildren

end Children

theorem built_of_parse {ctx : Context} {network : Network} {parent : Option ScriptType}
    {text : String} {e : ScriptExpr}
    (hP : ∀ text key, KeyExpr.parse ctx network text = .ok key → P key)
    (h : parse ctx network parent text = .ok e) : (Expr.script e).Built P := by
  induction e generalizing parent text with
  | wrapped label w inner ih =>
    obtain ⟨call, hreads⟩ := parse_eq_ok_iff.mp h
    obtain ⟨arg, -, hinner⟩ := readChildren_wrapper_eq_ok_iff.mp hreads.readChildren_eq_ok
    exact built_of_ofChildren hreads.built (List.forall_mem_singleton.mpr (ih hinner))
  | keyed label form key =>
    obtain ⟨call, hreads⟩ := parse_eq_ok_iff.mp h
    obtain ⟨arg, -, hkey⟩ := readChildren_keyed_eq_ok_iff.mp hreads.readChildren_eq_ok
    exact built_of_ofChildren hreads.built (List.forall_mem_singleton.mpr (.key (hP _ key hkey)))
  | multisig label sorted threshold keys =>
    obtain ⟨call, hreads⟩ := parse_eq_ok_iff.mp h
    obtain ⟨arg, rest, -, -, hkeys⟩ := readChildren_multisig_eq_ok_iff.mp hreads.readChildren_eq_ok
    refine built_of_ofChildren hreads.built ?_
    rw [ScriptExpr.children, List.forall_mem_cons, List.forall_mem_map]
    refine ⟨.number threshold, fun key hkey => ?_⟩
    obtain ⟨text, -, htext⟩ := exists_of_forall₂ hkeys.flip hkey
    exact .key (hP _ key htext)
  | addr label address =>
    obtain ⟨call, hreads⟩ := parse_eq_ok_iff.mp h
    exact built_of_ofChildren hreads.built (List.forall_mem_singleton.mpr (.addr address))
  | raw label hex =>
    obtain ⟨call, hreads⟩ := parse_eq_ok_iff.mp h
    exact built_of_ofChildren hreads.built (List.forall_mem_singleton.mpr (.hex hex))

/-! ### Giving the wildcard keys another range -/

theorem label_withRange (range : KeyRange) (e : ScriptExpr) :
    (e.withRange range).label = e.label := by
  cases e <;> rfl

theorem type_withRange (range : KeyRange) (e : ScriptExpr) :
    (e.withRange range).type = e.type := by
  cases e <;> rfl

end ScriptExpr

/-- A key with the given range if it has a wildcard, and the same key otherwise. -/
def KeyExpr.ranged (range : KeyRange) (key : KeyExpr) : KeyExpr := (key.withRange? range).getD key

theorem KeyExpr.network_ranged (range : KeyRange) (key : KeyExpr) :
    (key.ranged range).network = key.network := by
  unfold ranged withRange?
  split <;> rfl

theorem KeyExpr.publicKey_ranged (range : KeyRange) (key : KeyExpr) :
    (key.ranged range).publicKey = key.publicKey := by
  unfold ranged withRange?
  split
  · rename_i hpair
    simp only [publicKey, hpair, Option.getD_some]
  · rfl

theorem KeyExpr.isCompressed_ranged (range : KeyRange) (key : KeyExpr) :
    (key.ranged range).isCompressed = key.isCompressed := by
  rw [isCompressed, isCompressed, publicKey_ranged]

theorem ScriptExpr.built_withRange {range : KeyRange} (hP : ∀ key, P key → P (key.ranged range))
    {e : ScriptExpr} (h : (Expr.script e).Built P) : (Expr.script (e.withRange range)).Built P := by
  induction e with
  | wrapped label w inner ih =>
    have hlabel : label.WellFormed := Built.label h
    have hinner := List.forall_mem_singleton.mp (Built.children h)
    have hnetwork := List.forall_mem_singleton.mp (Built.network h)
    refine .script hlabel ?_ ?_ ?_
    · refine List.forall_mem_singleton.mpr (Eq.trans ?_ hnetwork)
      exact congrArg Label.network (label_withRange range inner)
    · change w.wraps (inner.withRange range).type
      rw [type_withRange]
      exact Built.shaped h
    · exact List.forall_mem_singleton.mpr (ih hinner)
  | keyed label form key =>
    have hlabel : label.WellFormed := Built.label h
    have hkey := List.forall_mem_singleton.mp (Built.children h)
    have hnetwork := List.forall_mem_singleton.mp (Built.network h)
    refine .script hlabel ?_ trivial ?_
    · exact List.forall_mem_singleton.mpr ((key.network_ranged range).trans hnetwork)
    · exact List.forall_mem_singleton.mpr (.key (hP key (Expr.built_key_iff.mp hkey)))
  | multisig label sorted threshold keys =>
    have hlabel : label.WellFormed := Built.label h
    have hkeys := Built.children h
    have hnetwork := Built.network h
    obtain ⟨hlength, hsorted⟩ := Built.shaped h
    rw [ScriptExpr.children, List.forall_mem_cons, List.forall_mem_map] at hkeys hnetwork
    refine .script hlabel ?_ ⟨?_, fun hsort => ?_⟩ ?_
    · rw [withRange, ScriptExpr.children, List.forall_mem_cons, List.forall_mem_map,
        List.forall_mem_map]
      exact ⟨hnetwork.1, fun key hkey => (key.network_ranged range).trans (hnetwork.2 key hkey)⟩
    · rwa [List.length_map]
    · rw [List.forall_mem_map]
      exact fun key hkey => (key.isCompressed_ranged range).trans (hsorted hsort key hkey)
    · rw [withRange, ScriptExpr.children, List.forall_mem_cons, List.forall_mem_map,
        List.forall_mem_map]
      refine ⟨.number threshold, fun key hkey => ?_⟩
      exact .key (hP key (Expr.built_key_iff.mp (hkeys.2 key hkey)))
  | addr label address => exact h
  | raw label hex => exact h

end OutputDescriptor
