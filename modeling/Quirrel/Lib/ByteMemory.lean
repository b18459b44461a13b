import Mathlib.Tactic.Basic

/-!
# Bytes by address

Ranges of bytes read and written in a memory that is a function of the address. What was written is
read back (`readBytes_writeBytes`), and a write leaves every range apart from it
(`readBytes_writeBytes_of_apart`).
-/

set_option autoImplicit false

namespace Quirrel.Lib

/-- Bytes by address. -/
abbrev ByteMemory : Type := Nat → UInt8

/-- `memcpy` from the memory. -/
def readBytes (m : ByteMemory) (off n : Nat) : List UInt8 :=
  (List.range n).map fun i => m (off + i)

/-- `memcpy` into the memory. -/
def writeBytes (m : ByteMemory) (off : Nat) (bs : List UInt8) : ByteMemory := fun a =>
  if off ≤ a then (bs[a - off]?).getD (m a) else m a

/-- The two ranges share no address. -/
def RangesApart (off n off' n' : Nat) : Prop := off + n ≤ off' ∨ off' + n' ≤ off

instance (off n off' n' : Nat) : Decidable (RangesApart off n off' n') :=
  inferInstanceAs (Decidable (_ ∨ _))

theorem RangesApart.symm {off n off' n' : Nat} (h : RangesApart off n off' n') :
    RangesApart off' n' off n := Or.symm h

theorem writeBytes_of_outside {m : ByteMemory} {off a : Nat} {bs : List UInt8}
    (h : a < off ∨ off + bs.length ≤ a) : writeBytes m off bs a = m a := by
  rw [writeBytes]
  split
  · have hlen : bs.length ≤ a - off := by omega
    rw [List.getElem?_eq_none hlen, Option.getD_none]
  · rfl

theorem readBytes_writeBytes (m : ByteMemory) (off : Nat) (bs : List UInt8) :
    readBytes (writeBytes m off bs) off bs.length = bs := by
  apply List.ext_getElem
  · simp [readBytes]
  · intro i hi hi'
    simp [readBytes, writeBytes, List.getElem?_eq_getElem hi']

theorem readBytes_writeBytes_of_apart {m : ByteMemory} {off off' n : Nat} {bs : List UInt8}
    (h : RangesApart off bs.length off' n) :
    readBytes (writeBytes m off bs) off' n = readBytes m off' n := by
  apply List.map_congr_left
  intro i hi
  have hi : i < n := List.mem_range.1 hi
  apply writeBytes_of_outside
  rcases h with h | h
  · exact Or.inr (by omega)
  · exact Or.inl (by omega)

end Quirrel.Lib
