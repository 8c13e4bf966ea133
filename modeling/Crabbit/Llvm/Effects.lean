/-
  Crabbit.Llvm.Effects

  The effect class of every operation kind, and the kinds that cannot touch
  memory behind a pass's back.
-/

import Crabbit.Llvm.Function

namespace Crabbit.Llvm

inductive OpEffect where
  /-- No memory effects, cannot trap. -/
  | pure
  /-- Pure but may trap. -/
  | pureTrapping
  /-- Operand-less value materialization. -/
  | materialize
  /-- Allocates a slot without touching existing memory. -/
  | alloc
  | read
  | write
  | control
  deriving DecidableEq

/-- The classification table; a kind it does not list has unknown effects. -/
def opEffects : OpId → Option OpEffect
  | .add | .sub | .mul | .and | .or | .xor | .shl | .lshr | .ashr | .icmp => some .pure
  | .udiv | .sdiv | .urem | .srem => some .pureTrapping
  | .fadd | .fsub | .fmul | .fdiv | .frem | .fneg | .fcmp | .select => some .pure
  | .zext | .sext | .trunc | .bitcast | .intToPtr | .ptrToInt => some .pure
  | .fpExt | .fpTrunc | .siToFp | .uiToFp | .fpToSi | .fpToUi => some .pure
  | .getElementPtr | .insertValue | .extractValue => some .pure
  | .constant | .undef | .poison | .addressOf | .cstr => some .materialize
  | .alloca => some .alloc
  | .load => some .read
  | .store => some .write
  | .br | .condBr | .ret | .unreachable => some .control
  | .unlisted _ => none

/-- Operations erasable once no result is used. -/
def deletable (id : OpId) : Bool :=
  match opEffects id with
  | some .pure | some .pureTrapping | some .materialize | some .alloc | some .read => true
  | _ => false

/-- Operations that cannot invalidate a tracked memory value. -/
def memoryBenign (id : OpId) : Bool := deletable id || opEffects id = some .control

end Crabbit.Llvm
