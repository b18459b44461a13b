import Mathlib.Algebra.Group.Int.Defs
import Mathlib.Algebra.GroupWithZero.Nat
import Mathlib.Tactic.Basic

/-!
# Little-endian words in a byte stream

A word is written as its `n` lowest bytes, the lowest first, and read back as the number it had
below `256 ^ n` (`ofLE_toLE`). Reading from a stream takes exactly the bytes that were asked for
(`readExact_append`).
-/

set_option autoImplicit false

namespace Quirrel.Lib

/-- The `n` lowest bytes of `v`. -/
def toLE : Nat → Nat → List UInt8
  | 0, _ => []
  | n + 1, v => UInt8.ofNat v :: toLE n (v / 256)

/-- The number of little-endian bytes. -/
def ofLE : List UInt8 → Nat
  | [] => 0
  | b :: bs => b.toNat + 256 * ofLE bs

@[simp]
theorem length_toLE (n v : Nat) : (toLE n v).length = n := by
  induction n generalizing v with
  | zero => rfl
  | succ n ih => rw [toLE, List.length_cons, ih]

theorem ofLE_toLE (n v : Nat) : ofLE (toLE n v) = v % 256 ^ n := by
  induction n generalizing v with
  | zero => rw [toLE, ofLE, Nat.pow_zero, Nat.mod_one]
  | succ n ih =>
    have hbyte : (UInt8.ofNat v).toNat = v % 256 := UInt8.toNat_ofNat
    rw [toLE, ofLE, ih, hbyte, Nat.pow_succ, Nat.mul_comm (256 ^ n), Nat.mod_mul]

theorem ofLE_toLE_of_lt {n v : Nat} (h : v < 256 ^ n) : ofLE (toLE n v) = v := by
  rw [ofLE_toLE, Nat.mod_eq_of_lt h]

/-- A word is written as its low part and then its high part. -/
theorem toLE_add (m n v : Nat) : toLE (m + n) v = toLE m v ++ toLE n (v / 256 ^ m) := by
  induction m generalizing v with
  | zero => rw [Nat.zero_add, Nat.pow_zero, Nat.div_one, toLE, List.nil_append]
  | succ m ih =>
    rw [Nat.succ_add, toLE, ih, toLE, List.cons_append, Nat.div_div_eq_div_mul, Nat.pow_succ,
      Nat.mul_comm (256 ^ m)]

theorem ofLE_append (a b : List UInt8) : ofLE (a ++ b) = ofLE a + 256 ^ a.length * ofLE b := by
  induction a with
  | nil => rw [List.nil_append, ofLE, List.length_nil, Nat.pow_zero, Nat.one_mul, Nat.zero_add]
  | cons x a ih =>
    rw [List.cons_append, ofLE, ofLE, ih, List.length_cons, Nat.pow_succ, Nat.mul_add,
      Nat.mul_comm (256 ^ a.length) 256, Nat.mul_assoc, Nat.add_assoc]

/-- `Read`, where all of the bytes have to be there. -/
def readExact (n : Nat) (bytes : List UInt8) : Option (List UInt8 × List UInt8) :=
  if n ≤ bytes.length then some (bytes.take n, bytes.drop n) else none

theorem readExact_append {n : Nat} {bytes : List UInt8} (h : bytes.length = n)
    (rest : List UInt8) : readExact n (bytes ++ rest) = some (bytes, rest) := by
  subst h
  simp [readExact]

/-- A word of `n` bytes. -/
def readLE (n : Nat) (bytes : List UInt8) : Option (Nat × List UInt8) :=
  (readExact n bytes).map fun p => (ofLE p.1, p.2)

end Quirrel.Lib
