/-
  Crabbit.Isel.LoweredValue

  The values of instruction selection and the code that brings them into
  registers (`passes/aarch64/llvm_to_aarch64_isel.rs` and
  `passes/x86_64_darwin/llvm_to_x86_64_isel.rs`, with `lower_compare_value` of
  `isel_i128.rs` and `adapt_value_to_type` of `isel_memory_abi.rs`).

  A comparison is lowered where its result is used, so materializing a value and
  lowering a comparison call each other.  The texts of the errors leave out the
  context they are reported in.
-/

import Crabbit.Isel.Words
import Crabbit.Lib.Bytes

namespace Crabbit.Isel

open Crabbit.Llvm (ICmpPredicate Ty)

/-! ## Values -/

/-- `LoweredValue`.  `imm` holds a `u128`; a field of an aggregate may be
    missing. -/
inductive LoweredValue (R : Type) where
  | reg (reg : R)
  | regPair (lo hi : R)
  | imm (imm : Nat)
  | cstr (label : String) (bytes : List UInt8)
  | stackAddr (offset : Nat)
  | address (base : R) (offset : Nat)
  | aggregate (fields : List (Option (LoweredValue R)))
  | compare (predicate : ICmpPredicate) (lhsTy : Ty) (lhs : LoweredValue R) (rhsTy : Ty)
      (rhs : LoweredValue R)
  | taggedLen (len : Nat)
  | undef

namespace LoweredValue

variable {R : Type}

mutual

/-- How deep comparisons of comparisons go. -/
def depth : LoweredValue R → Nat
  | .compare _ _ lhs _ rhs => max lhs.depth rhs.depth + 1
  | .aggregate fields => fieldsDepth fields
  | _ => 0

def fieldsDepth : List (Option (LoweredValue R)) → Nat
  | [] => 0
  | field :: fields => max (fieldDepth field) (fieldsDepth fields)

def fieldDepth : Option (LoweredValue R) → Nat
  | none => 0
  | some value => value.depth

end

mutual

/-- The registers a value is made of. -/
def registers : LoweredValue R → List R
  | .reg r => [r]
  | .regPair lo hi => [lo, hi]
  | .address base _ => [base]
  | .aggregate fields => fieldsRegisters fields
  | .compare _ _ lhs _ rhs => lhs.registers ++ rhs.registers
  | _ => []

def fieldsRegisters : List (Option (LoweredValue R)) → List R
  | [] => []
  | field :: fields => fieldRegisters field ++ fieldsRegisters fields

def fieldRegisters : Option (LoweredValue R) → List R
  | none => []
  | some value => value.registers

end

mutual

/-- The scalar an aggregate holds: its first field that is there, and so on. -/
def scalarOf : LoweredValue R → LoweredValue R
  | .aggregate fields => scalarOfFields fields
  | value => value

def scalarOfFields : List (Option (LoweredValue R)) → LoweredValue R
  | [] => .undef
  | none :: fields => scalarOfFields fields
  | some field :: _ => scalarOf field

end

theorem fieldDepth_le {fields : List (Option (LoweredValue R))} {field : Option (LoweredValue R)}
    (h : field ∈ fields) : fieldDepth field ≤ fieldsDepth fields := by
  induction fields with
  | nil => exact absurd h List.not_mem_nil
  | cons first fields ih =>
    rw [fieldsDepth]
    rcases List.mem_cons.mp h with rfl | h
    · exact Nat.le_max_left _ _
    · exact Nat.le_trans (ih h) (Nat.le_max_right _ _)

theorem fieldRegisters_subset {fields : List (Option (LoweredValue R))}
    {field : Option (LoweredValue R)} (h : field ∈ fields) :
    fieldRegisters field ⊆ fieldsRegisters fields := by
  induction fields with
  | nil => exact absurd h List.not_mem_nil
  | cons first fields ih =>
    rw [fieldsRegisters]
    rcases List.mem_cons.mp h with rfl | h
    · exact List.subset_append_left _ _
    · exact List.subset_append_of_subset_right _ (ih h)

theorem fieldsDepth_le {fields : List (Option (LoweredValue R))} {n : Nat}
    (h : ∀ field ∈ fields, fieldDepth field ≤ n) : fieldsDepth fields ≤ n := by
  induction fields with
  | nil => exact Nat.zero_le n
  | cons field fields ih =>
    rw [fieldsDepth]
    exact Nat.max_le.mpr ⟨h _ List.mem_cons_self, ih fun f hf => h f (List.mem_cons_of_mem _ hf)⟩

theorem fieldsRegisters_subset {fields : List (Option (LoweredValue R))} {rs : List R}
    (h : ∀ field ∈ fields, fieldRegisters field ⊆ rs) : fieldsRegisters fields ⊆ rs := by
  induction fields with
  | nil => exact List.nil_subset rs
  | cons field fields ih =>
    rw [fieldsRegisters]
    exact List.append_subset.mpr
      ⟨h _ List.mem_cons_self, ih fun f hf => h f (List.mem_cons_of_mem _ hf)⟩

/-- The parts of `value` are among those of `whole`. -/
structure MadeOf (value whole : LoweredValue R) : Prop where
  registers : value.registers ⊆ whole.registers
  depth : value.depth ≤ whole.depth

theorem MadeOf.refl (value : LoweredValue R) : MadeOf value value :=
  ⟨List.Subset.refl _, Nat.le_refl _⟩

theorem MadeOf.trans {u v w : LoweredValue R} (h : MadeOf u v) (h' : MadeOf v w) : MadeOf u w :=
  ⟨List.Subset.trans h.registers h'.registers, Nat.le_trans h.depth h'.depth⟩

theorem MadeOf.undef (whole : LoweredValue R) : MadeOf undef whole :=
  ⟨List.nil_subset _, Nat.zero_le _⟩

theorem MadeOf.field {fields : List (Option (LoweredValue R))} {value : LoweredValue R}
    (h : some value ∈ fields) : MadeOf value (aggregate fields) := by
  have hregisters := fieldRegisters_subset h
  have hdepth := fieldDepth_le h
  exact ⟨hregisters, hdepth⟩

theorem MadeOf.aggregate {fields : List (Option (LoweredValue R))} {whole : LoweredValue R}
    (h : ∀ value, some value ∈ fields → MadeOf value whole) : MadeOf (aggregate fields) whole := by
  refine ⟨fieldsRegisters_subset fun field hfield => ?_, fieldsDepth_le fun field hfield => ?_⟩
  · cases field with
    | none => exact List.nil_subset _
    | some value => exact (h value hfield).registers
  · cases field with
    | none => exact Nat.zero_le _
    | some value => exact (h value hfield).depth

mutual

theorem scalarOf_madeOf : ∀ value : LoweredValue R, MadeOf value.scalarOf value
  | .aggregate fields => scalarOfFields_madeOf fields
  | .reg _ => MadeOf.refl _
  | .regPair _ _ => MadeOf.refl _
  | .imm _ => MadeOf.refl _
  | .cstr _ _ => MadeOf.refl _
  | .stackAddr _ => MadeOf.refl _
  | .address _ _ => MadeOf.refl _
  | .compare _ _ _ _ _ => MadeOf.refl _
  | .taggedLen _ => MadeOf.refl _
  | .undef => MadeOf.refl _

theorem scalarOfFields_madeOf : ∀ fields : List (Option (LoweredValue R)),
    MadeOf (scalarOfFields fields) (aggregate fields)
  | [] => MadeOf.undef _
  | none :: fields => by
      refine (scalarOfFields_madeOf fields).trans (MadeOf.aggregate fun value hvalue => ?_)
      exact MadeOf.field (List.mem_cons_of_mem _ hvalue)
  | some field :: _ => (scalarOf_madeOf field).trans (MadeOf.field List.mem_cons_self)

end

theorem sizeOf_field {fields : List (Option (LoweredValue R))} {value : LoweredValue R}
    (h : some value ∈ fields) : sizeOf value < sizeOf (aggregate fields) := by
  have hlt := List.sizeOf_lt_of_mem h
  have hsome : sizeOf (some value) = 1 + sizeOf value := rfl
  have haggregate : sizeOf (aggregate fields) = 1 + sizeOf fields := by simp
  omega

end LoweredValue

/-! ## Types -/

/-- `integer_width_and_signedness`. -/
def integerWidthAndSignedness : Ty → Option (Nat × Bool)
  | .int width sign => some (width, decide (sign = .signed))
  | _ => none

/-- `is_128_bit_integer`. -/
def is128BitInteger (ty : Ty) : Bool :=
  match integerWidthAndSignedness ty with
  | some (width, _) => decide (width = 128)
  | none => false

/-- `is_aggregate_ty`. -/
def isAggregateTy : Ty → Bool
  | .array _ _ | .struct _ | .opaqueStruct => true
  | _ => false

/-- `compare_operand_ty`: a signed comparison of narrow integers reads its
    operands as signed. -/
def compareOperandTy (predicate : ICmpPredicate) (ty : Ty) : Ty :=
  match predicate, ty with
  | .slt, .int width sign | .sle, .int width sign | .sgt, .int width sign | .sge, .int width sign =>
      if width < 64 then .int width .signed else .int width sign
  | _, ty => ty

/-- What the back ends do in their own way. -/
structure Lowering (T : Target) where
  /-- `is_stack_scalar_ty`. -/
  isStackScalar : Ty → Bool
  /-- The types of `aggregate_field_layout`. -/
  fieldTys : Ty → Option (List Ty)
  fieldTys_smaller : ∀ {ty tys t}, fieldTys ty = some tys → t ∈ tys → sizeOf t < sizeOf ty
  /-- The high half of a signed integer whose low half is in a register. -/
  signExtendHighHalf : T.Register → Select T T.Register
  /-- What the error of a 128-bit division says behind its kind. -/
  divisionHint : String

variable {T : Target}

namespace Lowering

variable (L : Lowering T)

/-! ## Shapes -/

/-- A value that becomes the first field; the others have no source data. -/
def wrapFirst (rest : List Ty) (value : LoweredValue T.Register) : LoweredValue T.Register :=
  .aggregate (some value :: rest.map fun _ => some .undef)

/-- `adapt_value_to_type`.  For a scalar the source calls itself on the first
    field with the same type. -/
def adaptValueToType : LoweredValue T.Register → Ty → Except String (LoweredValue T.Register)
  | .undef, _ => .ok .undef
  | .aggregate fields, ty =>
      if L.isStackScalar ty then .ok (LoweredValue.scalarOfFields fields)
      else if !isAggregateTy ty then .ok (.aggregate fields)
      else
        match _h : L.fieldTys ty with
        | none => .error "unsupported layout"
        | some layout =>
          if fields.length = layout.length then
            .aggregate <$> (fields.zip layout).attach.mapM fun p =>
              match _hfield : p.val.1 with
              | some field => some <$> adaptValueToType field p.val.2
              | none => pure none
          else
            match _hfields : fields, layout with
            | [none], _ => .ok .undef
            | [some inner], _ => adaptValueToType inner ty
            | _, [] => .ok (.aggregate [])
            | fields, fieldTy :: rest => wrapFirst rest <$> adaptValueToType (.aggregate fields) fieldTy
  | value, ty =>
      if L.isStackScalar ty then .ok value
      else if !isAggregateTy ty then .ok value
      else
        match _h : L.fieldTys ty with
        | none => .error "unsupported layout"
        | some [] => .ok (.aggregate [])
        | some (fieldTy :: rest) => wrapFirst rest <$> adaptValueToType value fieldTy
termination_by value ty => sizeOf value + sizeOf ty
decreasing_by
  · obtain ⟨⟨field', fieldTy⟩, hp⟩ := p
    cases _hfield
    have hty := L.fieldTys_smaller _h (List.of_mem_zip hp).2
    have hvalue := LoweredValue.sizeOf_field (List.of_mem_zip hp).1
    exact Nat.add_lt_add hvalue hty
  · exact Nat.add_lt_add_right (LoweredValue.sizeOf_field List.mem_cons_self) _
  · exact Nat.add_lt_add_left (L.fieldTys_smaller _h List.mem_cons_self) _
  · exact Nat.add_lt_add_left (L.fieldTys_smaller _h List.mem_cons_self) _

theorem mem_of_mapM {α β : Type} {f : α → Except String β} {xs : List α} {ys : List β}
    (h : xs.mapM f = .ok ys) {y : β} (hy : y ∈ ys) : ∃ x ∈ xs, f x = .ok y := by
  induction xs generalizing ys with
  | nil =>
    cases h
    exact absurd hy List.not_mem_nil
  | cons x xs ih =>
    rw [List.mapM_cons] at h
    cases hx : f x with
    | error e =>
      rw [hx] at h
      cases h
    | ok y' =>
      cases hxs : xs.mapM f with
      | error e =>
        rw [hx, hxs] at h
        cases h
      | ok ys' =>
        rw [hx, hxs] at h
        cases h
        rcases List.mem_cons.mp hy with rfl | hy
        · exact ⟨x, List.mem_cons_self, hx⟩
        · obtain ⟨x', hx', hf⟩ := ih hxs hy
          exact ⟨x', List.mem_cons_of_mem _ hx', hf⟩

theorem map_eq_ok {α β : Type} {f : α → β} {m : Except String α} {b : β} (h : f <$> m = .ok b) :
    ∃ a, m = .ok a ∧ f a = b := by
  cases m with
  | error e => cases h
  | ok a => exact ⟨a, rfl, Except.ok.inj h⟩

theorem wrapFirst_madeOf {whole adapted : LoweredValue T.Register} {rest : List Ty}
    {m : Except String (LoweredValue T.Register)} (hm : wrapFirst rest <$> m = .ok adapted)
    (ih : ∀ {inner}, m = .ok inner → LoweredValue.MadeOf inner whole) :
    LoweredValue.MadeOf adapted whole := by
  obtain ⟨inner, hinner, rfl⟩ := map_eq_ok hm
  refine LoweredValue.MadeOf.aggregate fun v hv => ?_
  rcases List.mem_cons.mp hv with heq | hv
  · rw [Option.some.inj heq]
    exact ih hinner
  · obtain ⟨_, -, heq⟩ := List.mem_map.mp hv
    rw [← Option.some.inj heq]
    exact LoweredValue.MadeOf.undef whole

/-- Reshaping a value adds nothing to it. -/
theorem adaptValueToType_madeOf (value : LoweredValue T.Register) (ty : Ty)
    {adapted : LoweredValue T.Register} (h : L.adaptValueToType value ty = .ok adapted) :
    LoweredValue.MadeOf adapted value := by
  revert adapted
  fun_induction adaptValueToType L value ty <;> intro adapted h
  case case5 fields ty hscalar hagg layout hlayout hlen ih =>
    obtain ⟨fields', hfields, rfl⟩ := map_eq_ok h
    refine LoweredValue.MadeOf.aggregate fun v hv => ?_
    obtain ⟨p, -, hp⟩ := mem_of_mapM hfields hv
    split at hp
    · next field hfield =>
      obtain ⟨v', hv', heq⟩ := map_eq_ok hp
      rw [← Option.some.inj heq]
      have hmem : some field ∈ fields := hfield ▸ (List.of_mem_zip p.property).1
      exact (ih p field hfield hv').trans (LoweredValue.MadeOf.field hmem)
    · cases hp
  case case7 ih => exact (ih h).trans (LoweredValue.MadeOf.field List.mem_cons_self)
  case case9 ih => exact wrapFirst_madeOf h ih
  case case14 ih => exact wrapFirst_madeOf h ih
  all_goals cases h
  case case2 fields _ _ => exact LoweredValue.scalarOfFields_madeOf fields
  case case1 | case6 => exact LoweredValue.MadeOf.undef _
  case case3 | case10 | case11 => exact LoweredValue.MadeOf.refl _
  case case8 | case13 => exact LoweredValue.MadeOf.aggregate fun _ hv => absurd hv List.not_mem_nil

/-! ## Code that needs no other value -/

/-- `cmp` and a fresh register for a predicate. -/
def emitCompareBit (lhs rhs : T.Register) (predicate : ICmpPredicate) : Select T T.Register := do
  emit (T.cmp lhs rhs)
  let dst ← freshVreg
  emit (T.cset dst predicate)
  pure dst

/-- `normalize_integer_reg`. -/
def normalizeIntegerReg (reg : T.Register) (ty : Ty) : Select T T.Register := do
  match integerWidthAndSignedness ty with
  | none => pure reg
  | some (width, signed) =>
    if 64 ≤ width then pure reg
    else
      let mask ← emitConstant (2 ^ width - 1)
      let masked ← emitBinary .and reg mask
      if !signed then pure masked
      else
        let signBit ← emitConstant (2 ^ (width - 1))
        let flipped ← emitBinary .xor masked signBit
        emitBinary .sub flipped signBit

/-- The predicates on the high and on the low halves by which `lower_compare_128`
    orders pairs. -/
def halfPredicates : ICmpPredicate → ICmpPredicate × ICmpPredicate
  | .ult => (.ult, .ult)
  | .ule => (.ult, .ule)
  | .ugt => (.ugt, .ugt)
  | .uge => (.ugt, .uge)
  | .slt => (.slt, .ult)
  | .sle => (.slt, .ule)
  | .sgt => (.sgt, .ugt)
  | .sge => (.sgt, .uge)
  | predicate => (predicate, predicate)

/-- `lower_compare_128`, from the halves of its operands. -/
def compareHalves (predicate : ICmpPredicate) (lhs rhs : T.Register × T.Register) :
    Select T T.Register := do
  match predicate with
  | .eq =>
    let hiEq ← emitCompareBit lhs.2 rhs.2 .eq
    let loEq ← emitCompareBit lhs.1 rhs.1 .eq
    emitBinary .and hiEq loEq
  | .ne =>
    let hiNe ← emitCompareBit lhs.2 rhs.2 .ne
    let loNe ← emitCompareBit lhs.1 rhs.1 .ne
    emitBinary .or hiNe loNe
  | predicate =>
    let hiCmp ← emitCompareBit lhs.2 rhs.2 (halfPredicates predicate).1
    let hiEq ← emitCompareBit lhs.2 rhs.2 .eq
    let loCmp ← emitCompareBit lhs.1 rhs.1 (halfPredicates predicate).2
    let eqAndLo ← emitBinary .and hiEq loCmp
    emitBinary .or hiCmp eqAndLo

/-- A fresh register that a single instruction writes. -/
def emitInto (inst : T.Register → T.Inst) : Select T T.Register := do
  let dst ← freshVreg
  emit (inst dst)
  pure dst

/-- `fresh_fpr`. -/
def freshFpr (F : FpFile T.Register T.Inst) (kind : FpKind) : Select T T.Register := fun sel =>
  .ok (F.virtualFpr kind sel.next, ⟨sel.next + 1, sel.code⟩)

/-- How many 16-bit chunks of a pattern are not zero. -/
def nonzeroChunks (bits : Nat) : Nat :=
  ((List.range 4).filter fun chunk => bits / 2 ^ (chunk * 16) % 2 ^ 16 ≠ 0).length

/-- `{:0digits$x}`. -/
def paddedHex (digits n : Nat) : String :=
  String.ofList ((List.replicate (digits - (Nat.toDigits 16 n).length) '0') ++ Nat.toDigits 16 n)

/-- The label and the bytes of a constant in the literal pool. -/
def fpLiteral (kind : FpKind) (bits : Nat) : String × List UInt8 :=
  match kind with
  | .f64 => ("L_crabbit_fp64_" ++ paddedHex 16 bits, Lib.toLE 8 bits)
  | .f32 => ("L_crabbit_fp32_" ++ paddedHex 8 (bits % 2 ^ 32), Lib.toLE 4 (bits % 2 ^ 32))

/-- `materialize_fp_constant`. -/
def materializeFpConstant (F : FpFile T.Register T.Inst) (bits : Nat) (kind : FpKind) :
    Select T T.Register := do
  let dst ← freshFpr F kind
  match F.fmovImm kind bits with
  | some inst =>
    emit (inst dst)
    pure dst
  | none =>
    if nonzeroChunks bits ≤ 1 then
      let gpr ← emitConstant bits
      emit (F.toFpr kind dst gpr)
      pure dst
    else
      let addr ← emitInto fun dst => T.adrLiteral dst (fpLiteral kind bits).1 (fpLiteral kind bits).2
      emit (F.load kind dst addr)
      pure dst

/-- The floating-point file a type needs, and its kind unless it is a vector. -/
def fileOf (T : Target) (ty : Ty) : Option (FpFile T.Register T.Inst × Option FpKind) :=
  T.fp.bind fun F =>
    if F.isVector ty then some (F, none) else (F.kind ty).map fun kind => (F, some kind)

/-- The register of the file that holds a value, and its kind. -/
def inFpFile (F : FpFile T.Register T.Inst) : LoweredValue T.Register → Option (T.Register × FpKind)
  | .reg r => (F.kindOf r).map fun kind => (r, kind)
  | _ => none

/-- Whether a value is an aggregate of more than one field. -/
def isMultiField : LoweredValue T.Register → Bool
  | .aggregate (_ :: _ :: _) => true
  | _ => false

/-- `materialize_simd`. -/
def materializeSimd (F : FpFile T.Register T.Inst) : LoweredValue T.Register → Select T T.Register
  | .reg r => if F.isSimd r then pure r else throw "expected a 128-bit vector register"
  | _ => throw "expected a 128-bit vector register"

/-! ## Materializing

The measure is the depth of the comparisons first: reshaping may make a value
larger, but not deeper. -/

theorem lex_of_depth {a b s t m n : Nat} (h : a < b) : Prod.Lex (· < ·)
    (Prod.Lex (· < ·) (· < ·)) (a, s, m) (b, t, n) := Prod.Lex.left _ _ h

theorem lex_of_rank {a b s t m n : Nat} (h : a ≤ b) (hrank : s < t) : Prod.Lex (· < ·)
    (Prod.Lex (· < ·) (· < ·)) (a, s, m) (b, t, n) := by
  rcases Nat.lt_or_eq_of_le h with h | rfl
  · exact Prod.Lex.left _ _ h
  · exact Prod.Lex.right _ (Prod.Lex.left _ _ hrank)

theorem lex_of_size {a b s m n : Nat} (h : a ≤ b) (hsize : m < n) : Prod.Lex (· < ·)
    (Prod.Lex (· < ·) (· < ·)) (a, s, m) (b, s, n) := by
  rcases Nat.lt_or_eq_of_le h with h | rfl
  · exact Prod.Lex.left _ _ h
  · exact Prod.Lex.right _ (Prod.Lex.right _ hsize)

mutual

/-- `materialize`. -/
def materialize (value : LoweredValue T.Register) : Select T T.Register :=
  match value with
  | .reg r =>
    match T.fp.bind fun F => (F.kindOf r).map (F.toGpr · · r) with
    | some inst => emitInto inst
    | none => pure r
  | .regPair lo _ => pure lo
  | .imm imm => emitConstant (imm % 2 ^ 64)
  | .cstr label bytes => emitInto fun dst => T.adrLiteral dst label bytes
  | .taggedLen len => emitConstant ((len * 2 + 1) % 2 ^ 64)
  | .address base offset =>
    if offset = 0 then pure base
    else do
      let offsetReg ← emitConstant offset
      emitBinary .add base offsetReg
  | .stackAddr offset => emitInto fun dst => T.addSpOffset dst offset
  | .compare predicate lhsTy lhs rhsTy rhs => lowerCompareValue predicate lhsTy lhs rhsTy rhs
  | .aggregate [some field] => materialize field
  | .aggregate [none] => throw "materialize from unset aggregate field"
  | .undef => emitConstant 0
  | .aggregate _ => throw "cannot materialize an aggregate"
termination_by (value.depth, 0, sizeOf value)
decreasing_by
  · exact lex_of_depth (Nat.lt_succ_self _)
  · exact lex_of_size (LoweredValue.MadeOf.field List.mem_cons_self).depth
      (LoweredValue.sizeOf_field List.mem_cons_self)

/-- `lower_compare_value`. -/
def lowerCompareValue (predicate : ICmpPredicate) (lhsTy : Ty) (lhs : LoweredValue T.Register)
    (rhsTy : Ty) (rhs : LoweredValue T.Register) : Select T T.Register := do
  if is128BitInteger lhsTy then
    let lhs ← materializePair lhs lhsTy
    let rhs ← materializePair rhs rhsTy
    compareHalves predicate lhs rhs
  else
    let lhs ← materializeTyped lhs (compareOperandTy predicate lhsTy)
    let rhs ← materializeTyped rhs (compareOperandTy predicate rhsTy)
    emitCompareBit lhs rhs predicate
termination_by (max lhs.depth rhs.depth, 4, 0)
decreasing_by
  · exact lex_of_rank (Nat.le_max_left _ _) (by decide)
  · exact lex_of_rank (Nat.le_max_right _ _) (by decide)
  · exact lex_of_rank (Nat.le_max_left _ _) (by decide)
  · exact lex_of_rank (Nat.le_max_right _ _) (by decide)

/-- `materialize_pair`. -/
def materializePair (value : LoweredValue T.Register) (ty : Ty) :
    Select T (T.Register × T.Register) :=
  match value with
  | .regPair lo hi => pure (lo, hi)
  | .aggregate [none, _] => throw "missing low 128-bit lane"
  | .aggregate [some _, none] => throw "missing high 128-bit lane"
  | .aggregate [some lo, some hi] => do
    let lo ← materialize lo
    let hi ← materialize hi
    pure (lo, hi)
  | .imm imm => do
    let lo ← emitConstant (imm % 2 ^ 64)
    let hi ← emitConstant (imm / 2 ^ 64)
    pure (lo, hi)
  | .reg lo => do
    let hi ← match integerWidthAndSignedness ty with
      | some (_, true) => L.signExtendHighHalf lo
      | _ => emitConstant 0
    pure (lo, hi)
  | other => do
    let lo ← materialize other
    let hi ← emitConstant 0
    pure (lo, hi)
termination_by (value.depth, 1, 0)
decreasing_by
  · exact lex_of_rank (LoweredValue.MadeOf.field List.mem_cons_self).depth (by decide)
  · exact lex_of_rank (LoweredValue.MadeOf.field (List.mem_cons_of_mem _ List.mem_cons_self)).depth
      (by decide)
  · exact lex_of_rank (Nat.le_refl _) (by decide)

/-- `materialize_fp`. -/
def materializeFp (F : FpFile T.Register T.Inst) (value : LoweredValue T.Register) (kind : FpKind) :
    Select T T.Register :=
  match inFpFile F value with
  | some (r, kind') => if kind' = kind then pure r else throw "FP register has the wrong width"
  | none =>
    match value with
    | .imm bits => materializeFpConstant F (bits % 2 ^ 64) kind
    | .undef => materializeFpConstant F 0 kind
    | other => do
      let gpr ← materialize other
      let dst ← freshFpr F kind
      emit (F.toFpr kind dst gpr)
      pure dst
termination_by (value.depth, 2, 0)
decreasing_by
  exact lex_of_rank (Nat.le_refl _) (by decide)

/-- `materialize_typed`. -/
def materializeTyped (value : LoweredValue T.Register) (ty : Ty) : Select T T.Register :=
  match _h : L.adaptValueToType value ty with
  | .error e => throw e
  | .ok value =>
    if isMultiField value then throw "cannot materialize a multi-field aggregate"
    else if is128BitInteger ty then do
      let pair ← materializePair value ty
      pure pair.1
    else
      match fileOf T ty with
      | some (F, none) => materializeSimd F value
      | some (F, some kind) => materializeFp F value kind
      | none => do
        let reg ← materialize value
        normalizeIntegerReg reg ty
termination_by (value.depth, 3, 0)
decreasing_by
  all_goals exact lex_of_rank (L.adaptValueToType_madeOf _ _ _h).depth (by decide)

end

end Lowering

end Crabbit.Isel
