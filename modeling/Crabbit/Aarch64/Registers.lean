/-
  Crabbit.Aarch64.Registers

  Register files, physical and virtual registers of the AArch64 dialect
  (`aarch64/registers.rs`).
-/

import Mathlib.Data.Nat.Notation

namespace Crabbit.Aarch64

/-- The register file an AArch64 value is permitted to occupy. -/
inductive RegisterClass where
  | gpr64 | gpr32 | fpr64 | fpr32 | simd128 | nzcv
  deriving DecidableEq

/-- A physical register; the number is the hardware number of its file. -/
inductive PhysicalRegister where
  | gpr64 (number : Nat)
  | gpr32 (number : Nat)
  | fpr64 (number : Nat)
  | fpr32 (number : Nat)
  | simd128 (number : Nat)
  | sp
  | nzcv
  deriving DecidableEq

def PhysicalRegister.registerClass : PhysicalRegister → RegisterClass
  | .gpr64 _ | .sp => .gpr64
  | .gpr32 _ => .gpr32
  | .fpr64 _ => .fpr64
  | .fpr32 _ => .fpr32
  | .simd128 _ => .simd128
  | .nzcv => .nzcv

/-- A register operand: virtual before register allocation, physical after. -/
inductive Register where
  | virtual (id : Nat) (cls : RegisterClass)
  | physical (reg : PhysicalRegister)
  deriving DecidableEq

namespace Register

/-- `x<number>`. -/
@[match_pattern] def gpr (number : Nat) : Register := .physical (.gpr64 number)

/-- `d<number>`. -/
@[match_pattern] def fpr64 (number : Nat) : Register := .physical (.fpr64 number)

/-- `s<number>`. -/
@[match_pattern] def fpr32 (number : Nat) : Register := .physical (.fpr32 number)

@[simp] theorem gpr_inj {a b : Nat} : gpr a = gpr b ↔ a = b := by
  simp only [gpr, Register.physical.injEq, PhysicalRegister.gpr64.injEq]

/-- The register file this register belongs to. -/
def registerClass : Register → RegisterClass
  | .virtual _ cls => cls
  | .physical reg => reg.registerClass

end Register

/-- The indirect-result register. -/
abbrev X8 : Register := .gpr 8

end Crabbit.Aarch64
