/-
  Crabbit.Importer.EnumTag

  Reading the discriminant of an enum and writing its tag
  (`importer/convert.rs`), as the operations the importer emits.

  The integer operations are those of an upstream dialect: what they compute
  is a parameter, with what the importer relies on as a hypothesis.
-/

import Crabbit.Lib.ByteMemory
import Crabbit.Lib.TwosComplement

namespace Crabbit.Importer

open Crabbit.Lib (ByteMemory toLE ofLE wrap reading)

/-! ## Integer operations of the dialect -/

/-- `IntegerType`; signless types count as unsigned. -/
structure IntType where
  width : Nat
  signed : Bool
  deriving DecidableEq

/-- What the operations compute on bit patterns. -/
structure MirOps where
  add : IntType → Nat → Nat → Nat
  sub : IntType → Nat → Nat → Nat
  mul : IntType → Nat → Nat → Nat
  le : IntType → Nat → Nat → Bool
  cast : IntType → IntType → Nat → Nat

/-- Arithmetic wraps, comparisons read their operands by the sign of the type,
    and casts convert as Rust's `as` does. -/
structure MirOps.Documented (ops : MirOps) : Prop where
  add : ∀ ty x y, ops.add ty x y = wrap ty.width (x + y)
  sub : ∀ ty x y, ops.sub ty x y = wrap ty.width (x - y)
  mul : ∀ ty x y, ops.mul ty x y = wrap ty.width (x * y)
  le : ∀ ty x y, ops.le ty x y =
    decide (reading ty.signed ty.width x ≤ reading ty.signed ty.width y)
  cast : ∀ src dst x, ops.cast src dst x = wrap dst.width (reading src.signed src.width x)

/-- The operations of Rust. -/
def rustOps : MirOps where
  add ty x y := wrap ty.width (x + y)
  sub ty x y := wrap ty.width (x - y)
  mul ty x y := wrap ty.width (x * y)
  le ty x y := decide (reading ty.signed ty.width x ≤ reading ty.signed ty.width y)
  cast src dst x := wrap dst.width (reading src.signed src.width x)

theorem rustOps_documented : rustOps.Documented where
  add _ _ _ := rfl
  sub _ _ _ := rfl
  mul _ _ _ := rfl
  le _ _ _ := rfl
  cast _ _ _ := rfl

/-- A value, by the operations that compute it; loads are from an offset to
    the address of the enum. -/
inductive MirValue where
  | const (ty : IntType) (bits : Nat)
  | load (offset : Nat) (ty : IntType)
  | add (x y : MirValue)
  | sub (x y : MirValue)
  | mul (x y : MirValue)
  | le (x y : MirValue)
  | cast (x : MirValue) (ty : IntType)

/-- `i1`, the type of comparisons. -/
def boolImmediateTy : IntType := ⟨1, false⟩

/-- The type of a value; a binary operation has that of its left operand. -/
def MirValue.type : MirValue → IntType
  | .const ty _ | .load _ ty | .cast _ ty => ty
  | .add x _ | .sub x _ | .mul x _ => x.type
  | .le _ _ => boolImmediateTy

/-- The value, in a memory with the enum at `addr`. -/
def MirValue.eval (ops : MirOps) (mem : ByteMemory) (addr : Int) : MirValue → Nat
  | .const ty bits => bits % 2 ^ ty.width
  | .load offset ty => ofLE (mem.load (addr + offset) (ty.width / 8))
  | .add x y => ops.add x.type (x.eval ops mem addr) (y.eval ops mem addr)
  | .sub x y => ops.sub x.type (x.eval ops mem addr) (y.eval ops mem addr)
  | .mul x y => ops.mul x.type (x.eval ops mem addr) (y.eval ops mem addr)
  | .le x y => if ops.le x.type (x.eval ops mem addr) (y.eval ops mem addr) then 1 else 0
  | .cast x ty => ops.cast x.type ty (x.eval ops mem addr)

/-- `cast_value_to_type`. -/
def castValueToType (value : MirValue) (ty : IntType) : MirValue :=
  if value.type = ty then value else .cast value ty

/-! ## Layouts of enums -/

inductive TagEncoding where
  | direct
  | niche (untaggedVariant : Nat) (start last : Nat) (nicheStart : Nat)

inductive Variants where
  | empty
  | single (index : Nat)
  | multiple (tagBits tagOffset : Nat) (encoding : TagEncoding)

/-- An enum, with the layout rustc gives it. -/
structure EnumTy where
  variantCount : Nat
  discriminantTy : IntType
  /-- `discriminant_for_variant`. -/
  discriminantForVariant : Nat → Nat
  variants : Variants

/-- The mask of a width: all of a `u128` from 128 on. -/
def widthMask (width : Nat) : Nat := if 128 ≤ width then 2 ^ 128 - 1 else 2 ^ width - 1

/-- The tag rustc has for a variant. -/
def tagForVariant (ty : EnumTy) (variant : Nat) : Option Nat :=
  match ty.variants with
  | .empty | .single _ => none
  | .multiple tagBits _ .direct => some (ty.discriminantForVariant variant % 2 ^ tagBits)
  | .multiple tagBits _ (.niche untagged start _ nicheStart) =>
      if variant = untagged then none
      else some (wrap tagBits (nicheStart + (variant - start)))

/-! ## The emitted operations -/

/-- `relative_tag`: how far the tag is into the niche range. -/
def relativeTag (tag : MirValue) (nicheStart : Nat) : MirValue :=
  .sub tag (.const tag.type (nicheStart &&& widthMask tag.type.width))

/-- `is_niche`, as an integer of the discriminant's type. -/
def isNiche (relative : MirValue) (discrTy : IntType) (relativeMax : Nat) : MirValue :=
  castValueToType
    (.le relative (.const relative.type (relativeMax &&& widthMask relative.type.width))) discrTy

/-- `tagged`: for niche encoding the discriminant is the variant's index. -/
def taggedDiscriminant (relative : MirValue) (discrTy : IntType) (start : Nat) : MirValue :=
  .add (.const discrTy (start &&& widthMask discrTy.width)) (castValueToType relative discrTy)

/-- `untagged + (tagged - untagged) * is_niche`. -/
def nicheDiscriminant (relative : MirValue) (discrTy : IntType) (untaggedDiscr : Nat)
    (start last : Nat) : MirValue :=
  .add (.const discrTy (untaggedDiscr &&& widthMask discrTy.width))
    (.mul
      (.sub (taggedDiscriminant relative discrTy start)
        (.const discrTy (untaggedDiscr &&& widthMask discrTy.width)))
      (isNiche relative discrTy (last - start)))

/-- `read_enum_discriminant`. -/
def readEnumDiscriminant (ty : EnumTy) : MirValue :=
  match ty.variants with
  | .empty => .const ty.discriminantTy 0
  | .single index =>
      .const ty.discriminantTy
        (ty.discriminantForVariant index &&& widthMask ty.discriminantTy.width)
  | .multiple tagBits tagOffset .direct =>
      castValueToType (.load tagOffset ⟨tagBits, false⟩) ty.discriminantTy
  | .multiple tagBits tagOffset (.niche untagged start last nicheStart) =>
      nicheDiscriminant (relativeTag (.load tagOffset ⟨tagBits, false⟩) nicheStart)
        ty.discriminantTy (ty.discriminantForVariant untagged) start last

/-- `write_enum_tag`: the value stored and the offset it is stored to, unless
    the variant needs no tag. -/
def writeEnumTag (ty : EnumTy) (variant : Nat) : Option (Nat × MirValue) :=
  match ty.variants with
  | .multiple tagBits tagOffset _ =>
      (tagForVariant ty variant).map fun tag => (tagOffset, .const ⟨tagBits, false⟩ tag)
  | _ => none

/-- Memory after a store. -/
def runStore (ops : MirOps) (mem : ByteMemory) (addr : Int) : Option (Nat × MirValue) → ByteMemory
  | none => mem
  | some (offset, value) =>
      mem.store (addr + offset) (toLE (value.type.width / 8) (value.eval ops mem addr))

/-! ## Values -/

theorem and_widthMask_mod {width : Nat} (h : width ≤ 128) (x : Nat) :
    (x &&& widthMask width) % 2 ^ width = x % 2 ^ width := by
  have hmask : widthMask width = 2 ^ width - 1 := by
    rw [widthMask]
    split
    · rw [show width = 128 by omega]
    · rfl
  rw [hmask, Nat.and_two_pow_sub_one_eq_mod, Nat.mod_mod]

/-- `untagged + (tagged - untagged) * is_niche` is one of the two. -/
theorem wrap_select {width untagged tagged : Nat} (hu : untagged < 2 ^ width)
    (ht : tagged < 2 ^ width) (isNiche : Bool) :
    wrap width (untagged + wrap width (wrap width (tagged - untagged) *
      ((if isNiche then 1 else 0 : Nat) : Int))) = if isNiche then tagged else untagged := by
  have hscaled (factor : Int) :
      (untagged + wrap width (wrap width (tagged - untagged) * factor) : Int) ≡
        untagged + (tagged - untagged) * factor [ZMOD 2 ^ width] :=
    ((Lib.natCast_wrap_modEq width _).trans
      ((Lib.natCast_wrap_modEq width _).mul_right factor)).add_left _
  cases isNiche with
  | true =>
    apply Lib.wrap_eq_of_modEq ht
    exact ((hscaled 1).trans (by rw [mul_one, add_sub_cancel])).symm
  | false =>
    apply Lib.wrap_eq_of_modEq hu
    exact ((hscaled 0).trans (by rw [mul_zero, add_zero])).symm

section Eval

variable {ops : MirOps} (hops : ops.Documented) {mem : ByteMemory} {addr : Int}

include hops

/-- Casting an unsigned value truncates it, or extends it by zeros. -/
theorem eval_castValueToType {value : MirValue} {ty : IntType} (hsign : value.type.signed = false)
    (hlt : value.eval ops mem addr < 2 ^ value.type.width) :
    (castValueToType value ty).eval ops mem addr = value.eval ops mem addr % 2 ^ ty.width := by
  rw [castValueToType]
  split
  case isTrue h =>
    rw [← h]
    exact (Nat.mod_eq_of_lt hlt).symm
  case isFalse =>
    rw [MirValue.eval, hops.cast, hsign, Lib.reading_false, Lib.wrap_natCast]

theorem eval_relativeTag {tag : MirValue} (nicheStart : Nat) (h : tag.type.width ≤ 128) :
    (relativeTag tag nicheStart).eval ops mem addr =
      wrap tag.type.width (tag.eval ops mem addr - nicheStart) := by
  rw [relativeTag, MirValue.eval, hops.sub, MirValue.eval, and_widthMask_mod h,
    Lib.wrap_eq_wrap_iff, ← Lib.wrap_natCast]
  exact Int.ModEq.sub_left _ (Lib.natCast_wrap_modEq _ _)

theorem eval_isNiche {relative : MirValue} {discrTy : IntType} {relativeMax : Nat}
    (hsign : relative.type.signed = false) (hwidth : relative.type.width ≤ 128)
    (hdiscr : 1 ≤ discrTy.width) (hmax : relativeMax < 2 ^ relative.type.width) :
    (isNiche relative discrTy relativeMax).eval ops mem addr =
      if decide (relative.eval ops mem addr ≤ relativeMax) then 1 else 0 := by
  have hone : 1 < 2 ^ discrTy.width := Nat.one_lt_two_pow (by omega)
  have hle : (MirValue.le relative (.const relative.type
      (relativeMax &&& widthMask relative.type.width))).eval ops mem addr =
      if decide (relative.eval ops mem addr ≤ relativeMax) then 1 else 0 := by
    rw [MirValue.eval, hops.le, hsign, Lib.reading_false, Lib.reading_false, MirValue.eval,
      and_widthMask_mod hwidth, Nat.mod_eq_of_lt hmax]
    norm_cast
  rw [isNiche, eval_castValueToType hops rfl, hle]
  · split
    · exact Nat.mod_eq_of_lt hone
    · exact Nat.zero_mod _
  · rw [hle, show (MirValue.le relative _).type.width = 1 from rfl]
    split <;> decide

theorem eval_taggedDiscriminant {relative : MirValue} {discrTy : IntType} (start : Nat)
    (hsign : relative.type.signed = false)
    (hlt : relative.eval ops mem addr < 2 ^ relative.type.width) (hdiscr : discrTy.width ≤ 128) :
    (taggedDiscriminant relative discrTy start).eval ops mem addr =
      (start + relative.eval ops mem addr) % 2 ^ discrTy.width := by
  rw [taggedDiscriminant, MirValue.eval, hops.add, MirValue.eval,
    eval_castValueToType hops hsign hlt, and_widthMask_mod hdiscr, ← Nat.cast_add,
    Lib.wrap_natCast]
  exact (Nat.add_mod _ _ _).symm

/-- The niche decoding gives the variant as far into the niche variants as the
    tag is into the niche range, if it is in there. -/
theorem eval_nicheDiscriminant {relative : MirValue} {discrTy : IntType}
    {untaggedDiscr start last : Nat} (hsign : relative.type.signed = false)
    (hwidth : relative.type.width ≤ 128)
    (hlt : relative.eval ops mem addr < 2 ^ relative.type.width)
    (hone : 1 ≤ discrTy.width) (hdiscr : discrTy.width ≤ 128)
    (hmax : last - start < 2 ^ relative.type.width)
    (huntagged : untaggedDiscr < 2 ^ discrTy.width) :
    (nicheDiscriminant relative discrTy untaggedDiscr start last).eval ops mem addr =
      if relative.eval ops mem addr ≤ last - start
        then (start + relative.eval ops mem addr) % 2 ^ discrTy.width else untaggedDiscr := by
  have hbase : (MirValue.const discrTy (untaggedDiscr &&& widthMask discrTy.width)).eval
      ops mem addr = untaggedDiscr := by
    rw [MirValue.eval, and_widthMask_mod hdiscr, Nat.mod_eq_of_lt huntagged]
  rw [nicheDiscriminant, MirValue.eval, hops.add, hbase, MirValue.eval, hops.mul, MirValue.eval,
    hops.sub, hbase, eval_taggedDiscriminant hops start hsign hlt hdiscr,
    eval_isNiche hops hsign hwidth hone hmax]
  have hselect := wrap_select huntagged
    (Nat.mod_lt (start + relative.eval ops mem addr) (Nat.two_pow_pos discrTy.width))
    (decide (relative.eval ops mem addr ≤ last - start))
  refine hselect.trans ?_
  simp only [decide_eq_true_eq]

end Eval

/-! ## Round trips -/

/-- What rustc promises of a tag and its encoding: tags are bytes, at most 16;
    the niche range has a tag for each of its variants, and the discriminant
    of a variant is its index. -/
def TagEncoding.Valid (ty : EnumTy) (tagBits : Nat) : TagEncoding → Prop
  | .direct => True
  | .niche untagged start last _ =>
      untagged < ty.variantCount ∧ start ≤ last ∧ last < ty.variantCount ∧
        last - start < 2 ^ tagBits ∧
        ∀ variant < ty.variantCount, ty.discriminantForVariant variant = variant

def Variants.Valid (ty : EnumTy) : Variants → Prop
  | .empty | .single _ => True
  | .multiple tagBits _ encoding => 8 ∣ tagBits ∧ tagBits ≤ 128 ∧ encoding.Valid ty tagBits

/-- A layout rustc can give. -/
structure EnumTy.Valid (ty : EnumTy) : Prop where
  one_le : 1 ≤ ty.discriminantTy.width
  le_128 : ty.discriminantTy.width ≤ 128
  discriminant_lt : ∀ variant < ty.variantCount,
    ty.discriminantForVariant variant < 2 ^ ty.discriminantTy.width
  variants : ty.variants.Valid ty

/-- The variants a value of the enum can be of. -/
def EnumTy.Inhabited (ty : EnumTy) (variant : Nat) : Prop :=
  variant < ty.variantCount ∧
    match ty.variants with
    | .empty => False
    | .single index => variant = index
    | .multiple _ _ .direct => True
    | .multiple _ _ (.niche untagged start last _) =>
        variant = untagged ∨ start ≤ variant ∧ variant ≤ last

/-- The tag, as the bits that lie where it would. -/
def tagBitsOf (tagBits tagOffset : Nat) (mem : ByteMemory) (addr : Int) : Nat :=
  ofLE (mem.load (addr + tagOffset) (tagBits / 8))

/-- The payload of the untagged variant does not read as another's tag. -/
def PayloadOutsideNiche (ty : EnumTy) (variant : Nat) (mem : ByteMemory) (addr : Int) : Prop :=
  match ty.variants with
  | .multiple tagBits tagOffset (.niche untagged start last nicheStart) =>
      variant = untagged → ∀ other, start ≤ other → other ≤ last →
        tagBitsOf tagBits tagOffset mem addr ≠ wrap tagBits (nicheStart + (other - start))
  | _ => True

/-- Reading the discriminant after the tag is written gives that of the
    variant. -/
def RoundTrips (ops : MirOps) (ty : EnumTy) (variant : Nat) : Prop :=
  ∀ mem addr, PayloadOutsideNiche ty variant mem addr →
    (readEnumDiscriminant ty).eval ops
      (runStore ops mem addr (writeEnumTag ty variant)) addr = ty.discriminantForVariant variant

/-- The tag is as written. -/
theorem tagBitsOf_runStore (ops : MirOps) {tagBits : Nat} (tagOffset : Nat) {tag : Nat}
    (hdvd : 8 ∣ tagBits) (hlt : tag < 2 ^ tagBits) (mem : ByteMemory) (addr : Int) :
    tagBitsOf tagBits tagOffset
      (runStore ops mem addr (some (tagOffset, .const ⟨tagBits, false⟩ tag))) addr = tag := by
  have hbytes := ByteMemory.load_store_self mem (toLE (tagBits / 8) tag) (addr + tagOffset)
  rw [Lib.length_toLE] at hbytes
  rw [tagBitsOf, runStore, MirValue.eval, Nat.mod_eq_of_lt hlt, MirValue.type, hbytes,
    Lib.ofLE_toLE_of_lt]
  rw [show 256 = 2 ^ 8 from rfl, ← pow_mul, Nat.mul_div_cancel' hdvd]
  exact hlt

theorem tagBitsOf_lt {tagBits : Nat} (tagOffset : Nat) (hdvd : 8 ∣ tagBits) (mem : ByteMemory)
    (addr : Int) : tagBitsOf tagBits tagOffset mem addr < 2 ^ tagBits := by
  have h := Lib.ofLE_lt (mem.load (addr + tagOffset) (tagBits / 8))
  rw [ByteMemory.length_load, show 256 = 2 ^ 8 from rfl, ← pow_mul,
    Nat.mul_div_cancel' hdvd] at h
  exact h

theorem eval_load (ops : MirOps) (mem : ByteMemory) (addr : Int) (tagBits tagOffset : Nat) :
    (MirValue.load tagOffset ⟨tagBits, false⟩).eval ops mem addr =
      tagBitsOf tagBits tagOffset mem addr := rfl

/-- A direct tag is widened by zeros: what it loses of the discriminant stays
    lost. -/
theorem direct_roundTrips_iff {ops : MirOps} (hops : ops.Documented) {ty : EnumTy} {variant : Nat}
    {tagBits tagOffset : Nat} (hvariants : ty.variants = .multiple tagBits tagOffset .direct)
    (hdvd : 8 ∣ tagBits)
    (hdiscr : ty.discriminantForVariant variant < 2 ^ ty.discriminantTy.width) :
    RoundTrips ops ty variant ↔ ty.discriminantForVariant variant < 2 ^ tagBits := by
  have hpos : 0 < 2 ^ tagBits := Nat.two_pow_pos tagBits
  -- What is read back is the tag.
  have hread (mem : ByteMemory) (addr : Int) : (readEnumDiscriminant ty).eval ops
      (runStore ops mem addr (writeEnumTag ty variant)) addr =
      ty.discriminantForVariant variant % 2 ^ tagBits % 2 ^ ty.discriminantTy.width := by
    have hmod := Nat.mod_lt (ty.discriminantForVariant variant) hpos
    have htag := tagBitsOf_runStore ops tagOffset hdvd hmod mem addr
    simp only [readEnumDiscriminant, writeEnumTag, tagForVariant, hvariants, Option.map_some]
    rw [eval_castValueToType hops rfl, eval_load, htag]
    rw [eval_load, htag]
    exact hmod
  constructor
  · intro h
    have hback := h (fun _ => 0) 0 (by simp only [PayloadOutsideNiche, hvariants])
    rw [hread] at hback
    rw [← hback]
    exact Nat.lt_of_le_of_lt (Nat.mod_le _ _) (Nat.mod_lt _ hpos)
  · intro h mem addr _
    rw [hread, Nat.mod_eq_of_lt h, Nat.mod_eq_of_lt hdiscr]

/-- A tag in the niche range is at the place of its variant, whether or not
    the range wraps. -/
theorem wrap_nicheTag {tagBits nicheStart start variant : Nat} (hle : start ≤ variant)
    (hlt : variant - start < 2 ^ tagBits) :
    wrap tagBits ((wrap tagBits (nicheStart + (variant - start)) : Nat) - nicheStart) =
      variant - start := by
  apply Lib.wrap_eq_of_modEq hlt
  have h := (Lib.natCast_wrap_modEq tagBits (nicheStart + (variant - start))).sub_right nicheStart
  rw [add_sub_cancel_left] at h
  rw [Nat.cast_sub hle]
  exact h.symm

/-- A tag is in the niche range when it is that of a variant there. -/
theorem relative_le_iff {tagBits tag nicheStart start last : Nat} (hle : start ≤ last)
    (htag : tag < 2 ^ tagBits) (h : wrap tagBits (tag - nicheStart) ≤ last - start) :
    ∃ other, start ≤ other ∧ other ≤ last ∧ tag = wrap tagBits (nicheStart + (other - start)) := by
  refine ⟨start + wrap tagBits (tag - nicheStart), by omega, by omega, ?_⟩
  refine (Lib.wrap_eq_of_modEq htag ?_).symm
  have hmod := (Lib.natCast_wrap_modEq tagBits (tag - nicheStart)).add_left nicheStart
  rw [add_sub_cancel] at hmod
  rw [Nat.cast_add, add_sub_cancel_left]
  exact hmod.symm

/-- What the niche decoding makes of the bits of the tag. -/
theorem eval_niche {ops : MirOps} (hops : ops.Documented) {ty : EnumTy}
    {tagBits tagOffset untagged start last nicheStart : Nat} (hvalid : ty.Valid)
    (hvariants : ty.variants = .multiple tagBits tagOffset (.niche untagged start last nicheStart))
    (mem : ByteMemory) (addr : Int) :
    (readEnumDiscriminant ty).eval ops mem addr =
      if wrap tagBits (tagBitsOf tagBits tagOffset mem addr - nicheStart) ≤ last - start
        then (start + wrap tagBits (tagBitsOf tagBits tagOffset mem addr - nicheStart)) %
          2 ^ ty.discriminantTy.width
        else untagged := by
  have hlayout := hvalid.variants
  rw [hvariants] at hlayout
  obtain ⟨hdvd, h128, huntagged, hle, hlast, hmax, hindex⟩ := hlayout
  have hrelative : (relativeTag (.load tagOffset ⟨tagBits, false⟩) nicheStart).eval ops mem addr =
      wrap tagBits (tagBitsOf tagBits tagOffset mem addr - nicheStart) :=
    eval_relativeTag hops nicheStart h128
  have hlt := Lib.wrap_lt tagBits (tagBitsOf tagBits tagOffset mem addr - nicheStart)
  rw [← hrelative] at hlt
  have hbase := hvalid.discriminant_lt untagged huntagged
  have hvalue : (nicheDiscriminant (relativeTag (.load tagOffset ⟨tagBits, false⟩) nicheStart)
      ty.discriminantTy (ty.discriminantForVariant untagged) start last).eval ops mem addr = _ :=
    eval_nicheDiscriminant hops rfl h128 hlt hvalid.one_le hvalid.le_128 hmax hbase
  rw [hrelative, hindex untagged huntagged] at hvalue
  rw [readEnumDiscriminant, hvariants]
  simp only [hindex untagged huntagged]
  exact hvalue

theorem niche_roundTrips {ops : MirOps} (hops : ops.Documented) {ty : EnumTy} {variant : Nat}
    {tagBits tagOffset untagged start last nicheStart : Nat} (hvalid : ty.Valid)
    (hvariants : ty.variants = .multiple tagBits tagOffset (.niche untagged start last nicheStart))
    (hvariant : ty.Inhabited variant) : RoundTrips ops ty variant := by
  have hlayout := hvalid.variants
  rw [hvariants] at hlayout
  obtain ⟨hdvd, h128, huntagged, hle, hlast, hmax, hindex⟩ := hlayout
  obtain ⟨hcount, hrange⟩ := hvariant
  rw [hvariants] at hrange
  intro mem addr hpayload
  rw [eval_niche hops hvalid hvariants, hindex variant hcount]
  by_cases hun : variant = untagged
  · -- Nothing is written, and the payload is not in the niche range.
    have hwrite : writeEnumTag ty variant = none := by
      rw [writeEnumTag, tagForVariant, hvariants]
      simp only [if_pos hun, Option.map_none]
    rw [hwrite, runStore, if_neg, hun]
    intro hin
    obtain ⟨other, hstart, hother, htag⟩ :=
      relative_le_iff hle (tagBitsOf_lt tagOffset hdvd mem addr) hin
    rw [PayloadOutsideNiche, hvariants] at hpayload
    exact hpayload hun other hstart hother htag
  · -- The tag written is as far into the niche range as the variant.
    have hwrite : writeEnumTag ty variant = some (tagOffset, .const ⟨tagBits, false⟩
        (wrap tagBits (nicheStart + (variant - start)))) := by
      rw [writeEnumTag, tagForVariant, hvariants]
      simp only [if_neg hun, Option.map_some]
    obtain ⟨hstart, hend⟩ := hrange.resolve_left hun
    rw [hwrite, tagBitsOf_runStore ops tagOffset hdvd (Lib.wrap_lt _ _),
      wrap_nicheTag hstart (by omega), if_pos (by omega), Nat.add_sub_cancel' hstart]
    exact Nat.mod_eq_of_lt (hindex variant hcount ▸ hvalid.discriminant_lt variant hcount)

/-- Reading the discriminant undoes writing the tag exactly when a direct tag
    is wide enough for the bits of the discriminant. -/
theorem roundTrips_iff {ops : MirOps} (hops : ops.Documented) {ty : EnumTy} (hvalid : ty.Valid)
    {variant : Nat} (hvariant : ty.Inhabited variant) :
    RoundTrips ops ty variant ↔
      ∀ tagBits tagOffset, ty.variants = .multiple tagBits tagOffset .direct →
        ty.discriminantForVariant variant < 2 ^ tagBits := by
  have hdiscr := hvalid.discriminant_lt variant hvariant.1
  cases hvariants : ty.variants with
  | empty =>
    have hnone := hvariant.2
    rw [hvariants] at hnone
    exact hnone.elim
  | single index =>
    have hindex := hvariant.2
    rw [hvariants] at hindex
    refine iff_of_true (fun mem addr _ => ?_) fun _ _ heq => (by cases heq)
    simp only [readEnumDiscriminant, hvariants, MirValue.eval]
    rw [and_widthMask_mod hvalid.le_128, ← hindex, Nat.mod_eq_of_lt hdiscr]
  | multiple tagBits tagOffset encoding =>
    have hlayout := hvalid.variants
    rw [hvariants] at hlayout
    cases encoding with
    | direct =>
      rw [direct_roundTrips_iff hops hvariants hlayout.1 hdiscr]
      exact ⟨fun h _ _ heq => (by cases heq; exact h), fun h => h tagBits tagOffset rfl⟩
    | niche untagged start last nicheStart =>
      exact iff_of_true (niche_roundTrips hops hvalid hvariants hvariant)
        fun _ _ heq => (by cases heq)

/-- An enum of two variants, -1 and 0, with its tag in a byte. -/
def signedPair (discriminantTy : IntType) : EnumTy where
  variantCount := 2
  discriminantTy
  discriminantForVariant variant := if variant = 0 then 2 ^ discriminantTy.width - 1 else 0
  variants := .multiple 8 0 .direct

theorem signedPair_valid {discriminantTy : IntType} (hone : 1 ≤ discriminantTy.width)
    (h128 : discriminantTy.width ≤ 128) : (signedPair discriminantTy).Valid := by
  refine ⟨hone, h128, fun variant _ => ?_, ⟨Nat.dvd_refl 8, by decide, trivial⟩⟩
  have hpos : 0 < 2 ^ discriminantTy.width := Nat.two_pow_pos _
  show (if variant = 0 then 2 ^ discriminantTy.width - 1 else 0) < 2 ^ discriminantTy.width
  split
  · omega
  · exact hpos

/-- In `i8`, the type of the tag, -1 round-trips. -/
theorem roundTrips_iff_i8 : RoundTrips rustOps (signedPair ⟨8, true⟩) 0 := by
  refine (roundTrips_iff rustOps_documented (signedPair_valid (by decide) (by decide))
    ⟨by decide, trivial⟩).mpr ?_
  intro tagBits tagOffset h
  cases h
  decide

/-- In `isize`, -1 reads back as 255. -/
theorem signedPair_isize : ¬ ∀ (ops : MirOps) (ty : EnumTy) (variant : Nat),
    ops.Documented → ty.Valid → ty.Inhabited variant → RoundTrips ops ty variant := by
  intro h
  have hvalid : (signedPair ⟨64, true⟩).Valid := signedPair_valid (by decide) (by decide)
  have hround := h rustOps _ 0 rustOps_documented hvalid ⟨by decide, trivial⟩
  rw [direct_roundTrips_iff rustOps_documented rfl (Nat.dvd_refl 8)
    (hvalid.discriminant_lt 0 (by decide))] at hround
  revert hround
  decide

end Crabbit.Importer
