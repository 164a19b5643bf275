/-! Numbers as digit sequences of a fixed length, most significant digit first. -/
namespace OutputDescriptor

/-- The last `count` digits of `value` in the given base, in front of the digits in `tail`. -/
def digitsOnto (base : Nat) (tail : List Nat) : Nat → Nat → List Nat
  | 0, _ => tail
  | count + 1, value => digitsOnto base (value % base :: tail) count (value / base)

def digits (base count value : Nat) : List Nat := digitsOnto base [] count value

def ofDigits (base : Nat) (ds : List Nat) : Nat :=
  ds.foldl (fun value d => value * base + d) 0

theorem digitsOnto_eq_append (base : Nat) (tail : List Nat) (count value : Nat) :
    digitsOnto base tail count value = digits base count value ++ tail := by
  induction count generalizing tail value with
  | zero => rfl
  | succ count ih => simp [digits, digitsOnto, ih [value % base], ih (value % base :: tail)]

theorem digits_succ (base count value : Nat) :
    digits base (count + 1) value = digits base count (value / base) ++ [value % base] :=
  digitsOnto_eq_append base [value % base] count (value / base)

@[simp] theorem length_digits (base count value : Nat) :
    (digits base count value).length = count := by
  induction count generalizing value with
  | zero => rfl
  | succ count ih => simp [digits_succ, ih]

theorem ofDigits_append_singleton (base : Nat) (ds : List Nat) (d : Nat) :
    ofDigits base (ds ++ [d]) = ofDigits base ds * base + d := by
  simp [ofDigits]

end OutputDescriptor
