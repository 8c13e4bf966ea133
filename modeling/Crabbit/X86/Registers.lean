/-
  Crabbit.X86.Registers

  Register files, physical and virtual registers of the x86-64 dialect
  (`x86_64/registers.rs`).
-/

import Mathlib.Data.Nat.Notation

namespace Crabbit.X86

/-- The register file an x86-64 value is permitted to occupy. -/
inductive RegisterClass where
  | gpr64 | gpr32 | xmm | rflags
  deriving DecidableEq

/-- General-purpose registers carry their hardware encoding number: rax=0,
    rcx=1, rdx=2, rbx=3, rsp=4, rbp=5, rsi=6, rdi=7, r8..r15=8..15. -/
inductive PhysicalRegister where
  | gpr64 (number : Nat)
  | gpr32 (number : Nat)
  | xmm (number : Nat)
  | rflags
  deriving DecidableEq

/-- A register operand: virtual before register allocation, physical after. -/
inductive Register where
  | virtual (id : Nat) (cls : RegisterClass)
  | physical (reg : PhysicalRegister)
  deriving DecidableEq

def GPR64_NAMES : List String :=
  ["rax", "rcx", "rdx", "rbx", "rsp", "rbp", "rsi", "rdi", "r8", "r9", "r10", "r11", "r12",
    "r13", "r14", "r15"]

def GPR32_NAMES : List String :=
  ["eax", "ecx", "edx", "ebx", "esp", "ebp", "esi", "edi", "r8d", "r9d", "r10d", "r11d",
    "r12d", "r13d", "r14d", "r15d"]

namespace Register

/-- The 64-bit general-purpose register with this hardware number. -/
@[match_pattern] def gpr (number : Nat) : Register := .physical (.gpr64 number)

/-- A 64-bit virtual register. -/
@[match_pattern] def virtualGpr (id : Nat) : Register := .virtual id .gpr64

@[simp] theorem gpr_inj {a b : Nat} : gpr a = gpr b ↔ a = b := by
  simp only [gpr, Register.physical.injEq, PhysicalRegister.gpr64.injEq]

/-- A register's spelling. -/
def display : Register → String
  | .virtual id _ => "vr" ++ toString id
  | .physical (.gpr64 number) => GPR64_NAMES.getD number ""
  | .physical (.gpr32 number) => GPR32_NAMES.getD number ""
  | .physical (.xmm number) => "xmm" ++ toString number
  | .physical .rflags => "rflags"

end Register

abbrev RAX : Register := .gpr 0
abbrev RCX : Register := .gpr 1
abbrev RDX : Register := .gpr 2
abbrev RBX : Register := .gpr 3
abbrev RSP : Register := .gpr 4
abbrev RSI : Register := .gpr 6
abbrev RDI : Register := .gpr 7
abbrev R8 : Register := .gpr 8
abbrev R9 : Register := .gpr 9
abbrev R10 : Register := .gpr 10
abbrev R11 : Register := .gpr 11
abbrev R12 : Register := .gpr 12

end Crabbit.X86
