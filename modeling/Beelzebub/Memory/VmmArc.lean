import Beelzebub.Memory.Enums
import Mathlib.Algebra.Ring.Nat

/-!
# Bounds of the address space

The parts of the virtual address space on this architecture.
-/

namespace Beelzebub.Memory.VmmArc

/-- End of the lower half. -/
def lowerHalfEnd : Nat := 0x0000800000000000

/-- Start of the higher half. -/
def higherHalfStart : Nat := 0xFFFF800000000000

def isaDmaLength : Nat := 2 ^ 24

def kernelHeapStart : Nat := higherHalfStart + isaDmaLength

/-- Right below the kernel. -/
def localFractalIndex : Nat := 510

/-- Right below the local tables. -/
def alienFractalIndex : Nat := 509

/-- The tables of an address space show up here, by way of the fractal mapping. -/
def fractalStart : Nat := 0xFFFF000000000000 + alienFractalIndex * 2 ^ 39

def fractalEnd : Nat := fractalStart + 2 * 2 ^ 39

/-- Addresses at which nothing may be mapped. -/
def Illegal (vaddr : Nat) : Prop :=
  fractalStart ≤ vaddr ∧ vaddr < fractalEnd ∨ lowerHalfEnd ≤ vaddr ∧ vaddr < higherHalfStart

instance (vaddr : Nat) : Decidable (Illegal vaddr) := inferInstanceAs (Decidable (_ ∨ _))

end Beelzebub.Memory.VmmArc
