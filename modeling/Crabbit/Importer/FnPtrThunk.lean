/-
  Crabbit.Importer.FnPtrThunk

  Calls through the thunk of a reified function pointer
  (`emit_fn_ptr_thunk` of `importer/rvalue.rs`), against direct calls of the
  same function, compiled by rustc (the call terminator of `importer/stmt.rs`).

  The thunk passes arguments in crabbit's own way and reads the result so; a
  direct call does both rustc's way.
-/

import Crabbit.Importer.RealLayoutLoads
import Crabbit.Lib.Segments

namespace Crabbit.Importer

open Crabbit.Lib (ByteMemory Val Varies segments)
open Crabbit.Llvm (Ty)

/-! ## The calls -/

/-- The parameter types and the result type of a function. -/
structure FnSig where
  params : List RustTy
  result : RustTy

/-- The types of the values its arguments are. -/
def FnSig.tys (sig : FnSig) : List Ty := sig.params.map convertImmediateTy

/-- The signature of a thunk; its body is the one call. -/
structure FnPtrThunk where
  inputs : List Ty
  result : Option Ty

def ArgAbi.inputs : ArgAbi → List Ty
  | .leaves found => found.map Prod.snd
  | .indirect => [.pointer]

def thunkInputs : List Ty → Option (List Ty)
  | [] => some []
  | ty :: tys => (argAbiForTy ty).bind fun abi =>
      (thunkInputs tys).map fun inputs => abi.inputs ++ inputs

/-- `emit_fn_ptr_thunk`. -/
def emitFnPtrThunk (sig : FnSig) : Option FnPtrThunk :=
  (thunkInputs sig.tys).map fun inputs => ⟨inputs, convertReturnTy sig.result⟩

def AbiArg.ty : AbiArg → Ty
  | .scalar ty _ => ty
  | .pointer _ _ => .pointer

/-- The thunk passes on what it is called with, which is of its input types. -/
def FnPtrThunk.forward (thunk : FnPtrThunk) (args : List AbiArg) : Option (List AbiArg) :=
  if args.map AbiArg.ty = thunk.inputs then some args else none

/-- The arguments of a call in crabbit's own way. -/
def lowerAbiCallArgs : List Ty → List Argument → Option (List AbiArg)
  | ty :: tys, arg :: args => (lowerAbiCallArg ty arg).bind fun lowered =>
      (lowerAbiCallArgs tys args).map fun rest => lowered ++ rest
  | _, _ => some []

/-- What the callee finds of the arguments of a call in rustc's way. -/
def lowerRustAbiCallArgs : List (Ty × RustArg) → List Argument → Option (List Passed)
  | (ty, abi) :: params, arg :: args => (lowerRustAbiCallArg ty arg abi).bind fun lowered =>
      (lowerRustAbiCallArgs params args).map fun rest => lowered.map abi.received ++ rest
  | _, _ => some []

/-- The modes of a direct call, if there is one for each argument. -/
def directAbi (sig : FnSig) (abi : Option FnAbi) : Option (List RustArg) :=
  (rustAbiArgs abi).filter fun abis => abis.length == sig.params.length

/-- What the callee finds, called through the thunk. -/
def deliveredByThunk (sig : FnSig) (args : List Argument) : Option (List Passed) :=
  (emitFnPtrThunk sig).bind fun thunk => (lowerAbiCallArgs sig.tys args).bind fun lowered =>
    (thunk.forward lowered).map fun forwarded => forwarded.map AbiArg.passed

/-- What the callee finds, called directly. -/
def deliveredDirectly (sig : FnSig) (abi : Option FnAbi) (args : List Argument) :
    Option (List Passed) :=
  match directAbi sig abi with
  | some abis => lowerRustAbiCallArgs (sig.tys.zip abis) args
  | none => (lowerAbiCallArgs sig.tys args).map fun lowered => lowered.map AbiArg.passed

/-! ## The thunk is called with its input types -/

theorem lowerAbiCallArg_ty {ty : Ty} {arg : Argument} {abi : ArgAbi} {lowered : List AbiArg}
    (habi : argAbiForTy ty = some abi) (h : lowerAbiCallArg ty arg = some lowered) :
    lowered.map AbiArg.ty = abi.inputs := by
  rw [lowerAbiCallArg, habi, Option.map_some] at h
  cases h
  cases abi with
  | indirect => rfl
  | leaves leaves =>
    show (leaves.map _).map AbiArg.ty = leaves.map Prod.snd
    rw [List.map_map]
    rfl

theorem lowerAbiCallArgs_ty {tys : List Ty} {args : List Argument} {inputs : List Ty}
    {lowered : List AbiArg} (hlen : args.length = tys.length) (hinputs : thunkInputs tys = some inputs)
    (h : lowerAbiCallArgs tys args = some lowered) : lowered.map AbiArg.ty = inputs := by
  induction tys generalizing args inputs lowered with
  | nil =>
    rw [thunkInputs] at hinputs
    cases hinputs
    cases args <;> cases h <;> rfl
  | cons ty tys ih =>
    cases args with
    | nil => cases hlen
    | cons arg args =>
      obtain ⟨abi, habi, hinputs⟩ := Option.bind_eq_some_iff.mp hinputs
      obtain ⟨restInputs, hrestInputs, rfl⟩ := Option.map_eq_some_iff.mp hinputs
      obtain ⟨first, hfirst, h⟩ := Option.bind_eq_some_iff.mp h
      obtain ⟨rest, hrest, rfl⟩ := Option.map_eq_some_iff.mp h
      rw [List.map_append, lowerAbiCallArg_ty habi hfirst,
        ih (Nat.succ.inj hlen) hrestInputs hrest]

/-- What the callee finds is what the thunk is called with. -/
theorem deliveredByThunk_eq {sig : FnSig} {thunk : FnPtrThunk} (h : emitFnPtrThunk sig = some thunk)
    {args : List Argument} (hlen : args.length = sig.tys.length) :
    deliveredByThunk sig args =
      (lowerAbiCallArgs sig.tys args).map fun lowered => lowered.map AbiArg.passed := by
  rw [deliveredByThunk, h, Option.bind_some]
  obtain ⟨inputs, hinputs, rfl⟩ := Option.map_eq_some_iff.mp h
  cases hlowered : lowerAbiCallArgs sig.tys args with
  | none => rfl
  | some lowered =>
    rw [Option.bind_some, Option.map_some, FnPtrThunk.forward,
      if_pos (lowerAbiCallArgs_ty hlen hinputs hlowered), Option.map_some]

/-! ## Arguments as pieces of memory -/

/-- Memory with an argument in its slot, and the slot. -/
abbrev Image := ByteMemory × Int

def crabbitSegment (param : Ty × RustArg) (image : Image) : List Passed :=
  ((crabbitPieces param.1).getD []).map (Piece.found param.1 image.1 image.2)

def rustSegment (param : Ty × RustArg) (image : Image) : List Passed :=
  (rustPieces param.1 param.2).map (Piece.found param.1 image.1 image.2)

/-- The memory an argument is in once it is stored. -/
def imageOf (param : Ty × RustArg) (arg : Argument) : Image :=
  ((laidOut param.1).codec.write arg.value arg.mem arg.slot, arg.slot)

/-- The argument that is in memory already. -/
def argumentAt (param : Ty × RustArg) (image : Image) : Argument where
  value := (laidOut param.1).codec.read image.1 image.2
  mem := image.1
  slot := image.2

theorem imageOf_argumentAt (param : Ty × RustArg) (image : Image) :
    imageOf param (argumentAt param image) = image :=
  Prod.ext (laidOut_writesBack param.1 image.1 image.2) rfl

/-- The values fit the parameters. -/
abbrev ArgumentsFit (params : List (Ty × RustArg)) (args : List Argument) : Prop :=
  List.Forall₂ (fun (param : Ty × RustArg) (arg : Argument) => Fits param.1 arg.value) params args

theorem crabbit_segments {params : List (Ty × RustArg)} {args : List Argument}
    (hfits : ArgumentsFit params args)
    (hpieces : ∀ param ∈ params, (crabbitPieces param.1).isSome) :
    (lowerAbiCallArgs (params.map Prod.fst) args).map (fun lowered => lowered.map AbiArg.passed) =
      some (segments crabbitSegment params (List.zipWith imageOf params args)) := by
  induction hfits with
  | nil => rfl
  | @cons param arg params args hfit _ ih =>
    obtain ⟨hsome, hpieces⟩ := List.forall_mem_cons.mp hpieces
    obtain ⟨pieces, hpieces'⟩ := Option.isSome_iff_exists.mp hsome
    have hread := (laidOut param.1).codec.read_write hfit arg.mem arg.slot
    obtain ⟨lowered, hlowered, hpassed⟩ := lowerAbiCallArg_passed hpieces' hread
    obtain ⟨rest, hrest, heq⟩ := Option.map_eq_some_iff.mp (ih hpieces)
    rw [List.map_cons, lowerAbiCallArgs, hlowered, Option.bind_some, hrest, Option.map_some,
      Option.map_some, List.map_append, hpassed, heq, List.zipWith_cons_cons, segments,
      crabbitSegment, hpieces', Option.getD_some]
    rfl

theorem rust_segments {params : List (Ty × RustArg)} {args : List Argument}
    (hfits : ArgumentsFit params args) (hvalid : ∀ param ∈ params, param.2.Valid)
    (hsize : ∀ param ∈ params, (crabbitTySize param.1).isSome) :
    lowerRustAbiCallArgs params args =
      some (segments rustSegment params (List.zipWith imageOf params args)) := by
  induction hfits with
  | nil => rfl
  | @cons param arg params args hfit _ ih =>
    obtain ⟨hvalid, hvalids⟩ := List.forall_mem_cons.mp hvalid
    obtain ⟨hsize, hsizes⟩ := List.forall_mem_cons.mp hsize
    obtain ⟨lowered, hlowered⟩ := exists_lowerRustAbiCallArg arg param.2 hsize
    obtain ⟨ty, abi⟩ := param
    rw [lowerRustAbiCallArgs, hlowered, Option.bind_some, ih hvalids hsizes, Option.map_some,
      lowerRustAbiCallArg_received hvalid hfit hlowered, List.zipWith_cons_cons, segments]
    rfl

/-- Any memory is that of arguments in it. -/
theorem argumentsAt_spec {params : List (Ty × RustArg)} {images : List Image}
    (hlen : images.length = params.length) :
    ArgumentsFit params (List.zipWith argumentAt params images) ∧
      List.zipWith imageOf params (List.zipWith argumentAt params images) = images := by
  induction params generalizing images with
  | nil =>
    rw [List.eq_nil_of_length_eq_zero hlen]
    exact ⟨.nil, rfl⟩
  | cons param params ih =>
    cases images with
    | nil => cases hlen
    | cons image images =>
      obtain ⟨hfits, himages⟩ := ih (Nat.succ.inj hlen)
      refine ⟨.cons ((laidOut param.1).codec.fits_read _ _) hfits, ?_⟩
      rw [List.zipWith_cons_cons, List.zipWith_cons_cons, imageOf_argumentAt, himages]

/-! ## Different pieces are found to be different -/

/-- A memory of zeros but for one byte. -/
def oneAt (a : Int) : ByteMemory := fun x => if x = a then 1 else 0

theorem load_head {mem : ByteMemory} {a : Int} {n : Nat} (h : n ≠ 0) :
    (mem.load a n)[0]? = some (mem a) := by
  cases n with
  | zero => exact absurd rfl h
  | succ n => rfl

theorem found_inj (ty : Ty) {p q : Piece} (hp : p.sized = true)
    (h : ∀ image : Image, p.found ty image.1 image.2 = q.found ty image.1 image.2) : p = q := by
  cases p with
  | reference =>
    cases q with
    | reference => rfl
    | register => cases h (oneAt 0, 0)
  | register offset fp size =>
    cases q with
    | reference => cases h (oneAt 0, 0)
    | register offset' fp' size' =>
      have hsize : size ≠ 0 := by simpa [Piece.sized] using hp
      obtain ⟨hfp, hload⟩ := Passed.register.inj (h (oneAt offset, 0))
      have hlen := congrArg List.length hload
      rw [ByteMemory.length_load, ByteMemory.length_load] at hlen
      -- The one byte is the first of either piece.
      have hhead := congrArg (fun bytes : List UInt8 => bytes[0]?) hload
      simp only [load_head hsize, load_head (hlen ▸ hsize)] at hhead
      have hat : oneAt offset (0 + offset') = 1 := by
        rw [← Option.some.inj hhead, oneAt, if_pos (Int.zero_add _)]
      have hoffset : (0 : Int) + offset' = offset := by
        by_contra hne
        rw [oneAt, if_neg hne] at hat
        cases hat
      rw [hfp, hlen, show offset = offset' by omega]

theorem found_varies (ty : Ty) {p : Piece} (hp : p.sized = true) (image : Image) :
    ∃ image' : Image, p.found ty image'.1 image'.2 ≠ p.found ty image.1 image.2 := by
  cases p with
  | reference =>
    refine ⟨(image.1, image.2 + 1), fun h => ?_⟩
    have hslot := (Passed.memory.inj h).1
    simp only at hslot
    omega
  | register offset fp size =>
    have hsize : size ≠ 0 := by simpa [Piece.sized] using hp
    refine ⟨(fun x => image.1 x + 1, image.2), fun h => ?_⟩
    have hhead := congrArg (fun bytes : List UInt8 => bytes[0]?) (Passed.register.inj h).2
    simp only [load_head hsize] at hhead
    have hnext := congrArg UInt8.toNat (Option.some.inj hhead)
    have hlt := (image.1 (image.2 + offset)).toNat_lt
    rw [UInt8.toNat_add, show (1 : UInt8).toNat = 1 from rfl] at hnext
    omega

theorem pieces_varies (ty : Ty) {pieces : List Piece} (h : ∀ p ∈ pieces, p.sized = true) :
    Varies fun image : Image => pieces.map (Piece.found ty image.1 image.2) where
  length_eq _ _ := by rw [List.length_map, List.length_map]
  entry image n hn := by
    rw [List.length_map] at hn
    obtain ⟨image', hne⟩ := found_varies ty (h _ (List.getElem_mem hn)) image
    refine ⟨image', fun heq => hne ?_⟩
    rw [List.getElem?_map, List.getElem?_map, List.getElem?_eq_getElem hn] at heq
    exact Option.some.inj heq

/-- The same is found of the same pieces only. -/
theorem pieces_inj (ty : Ty) {ps qs : List Piece} (h : ∀ p ∈ ps, p.sized = true)
    (heq : ∀ image : Image, ps.map (Piece.found ty image.1 image.2) =
      qs.map (Piece.found ty image.1 image.2)) : ps = qs := by
  apply List.ext_getElem?
  intro n
  have hat : ∀ image : Image, ps[n]?.map (Piece.found ty image.1 image.2) =
      qs[n]?.map (Piece.found ty image.1 image.2) := fun image => by
    rw [← List.getElem?_map, ← List.getElem?_map, heq image]
  cases hp : ps[n]? with
  | none =>
    cases hq : qs[n]? with
    | none => rfl
    | some q =>
      have := hat (oneAt 0, 0)
      rw [hp, hq] at this
      cases this
  | some p =>
    cases hq : qs[n]? with
    | none =>
      have := hat (oneAt 0, 0)
      rw [hp, hq] at this
      cases this
    | some q =>
      refine congrArg some (found_inj ty (h p (List.mem_of_getElem? hp)) fun image => ?_)
      have := hat image
      rw [hp, hq] at this
      exact Option.some.inj this

/-! ## The arguments -/

/-- The callee finds the same, however it is called. -/
def DeliversAlike (sig : FnSig) (abi : Option FnAbi) : Prop :=
  ∀ args : List Argument,
    List.Forall₂ (fun (ty : Ty) (arg : Argument) => Fits ty arg.value) sig.tys args →
      deliveredByThunk sig args = deliveredDirectly sig abi args

/-- crabbit passes each parameter as the pieces rustc does. -/
def PassedAlike (sig : FnSig) (abi : Option FnAbi) : Prop :=
  ∀ abis ∈ directAbi sig abi, ∀ param ∈ sig.tys.zip abis,
    crabbitPieces param.1 = some (rustPieces param.1 param.2)

/-- rustc ignores arguments without a size: what it passes has bytes. -/
def PassesBytes (sig : FnSig) (abi : Option FnAbi) : Prop :=
  ∀ abis ∈ directAbi sig abi, ∀ param ∈ sig.tys.zip abis,
    ∀ piece ∈ rustPieces param.1 param.2, piece.sized = true

theorem thunkInputs_isSome {tys : List Ty} {inputs : List Ty} (h : thunkInputs tys = some inputs) :
    ∀ ty ∈ tys, ∃ abi, argAbiForTy ty = some abi := by
  induction tys generalizing inputs with
  | nil => exact fun _ hty => absurd hty List.not_mem_nil
  | cons ty tys ih =>
    obtain ⟨abi, habi, h⟩ := Option.bind_eq_some_iff.mp h
    obtain ⟨rest, hrest, -⟩ := Option.map_eq_some_iff.mp h
    exact List.forall_mem_cons.mpr ⟨⟨abi, habi⟩, ih hrest⟩

/-- What is passed has a size. -/
theorem crabbitTySize_isSome {ty : Ty} {abi : ArgAbi} (h : argAbiForTy ty = some abi) :
    (crabbitTySize ty).isSome := by
  rw [argAbiForTy] at h
  split at h
  case isTrue hzero => rw [hzero]; rfl
  split at h
  · obtain ⟨size, hsize, -⟩ := Option.map_eq_some_iff.mp h
    rw [hsize]
    rfl
  · obtain ⟨leaves, hleaves, -⟩ := Option.map_eq_some_iff.mp h
    cases ty <;> first | rfl | cases hleaves | exact absurd rfl ‹¬isAggregateTy _ = true›

theorem crabbitPieces_isSome {ty : Ty} {abi : ArgAbi} (h : argAbiForTy ty = some abi) :
    (crabbitPieces ty).isSome := by
  rw [crabbitPieces, h]
  rfl

/-- crabbit passes scalars, and references. -/
theorem crabbitPieces_sized {ty : Ty} {pieces : List Piece} (h : crabbitPieces ty = some pieces) :
    ∀ piece ∈ pieces, piece.sized = true := by
  obtain ⟨abi, habi, rfl⟩ := Option.map_eq_some_iff.mp h
  cases abi with
  | indirect => exact List.forall_mem_singleton.mpr rfl
  | leaves leaves =>
    rw [List.forall_mem_map]
    intro leaf hleaf
    rcases argAbi_leaves habi with rfl | hleaves
    · exact absurd hleaf List.not_mem_nil
    · have hscalar := (mem_collectSimpleAbiFields ty hleaves leaf hleaf).1
      obtain ⟨path, ty⟩ := leaf
      have hsize : (laidOut ty).codec.size ≠ 0 := by
        cases ty with
        | int width sign =>
          show max ((width + 7) / 8) 1 ≠ 0
          omega
        | _ => first | exact Nat.succ_ne_zero _ | cases hscalar
      simpa [scalarPiece, Piece.sized] using hsize

theorem directAbi_spec {sig : FnSig} {abi : Option FnAbi} {abis : List RustArg}
    (h : directAbi sig abi = some abis) :
    abis.length = sig.tys.length ∧ ∀ abi ∈ abis, abi.Valid := by
  obtain ⟨habis, hlen⟩ := Option.filter_eq_some_iff.mp h
  refine ⟨by rw [FnSig.tys, List.length_map]; exact beq_iff_eq.mp hlen, ?_⟩
  obtain ⟨fnAbi, -, hargs⟩ := Option.bind_eq_some_iff.mp habis
  split at hargs
  · cases hargs
  · exact rustArgs_valid hargs

/-- The callee finds the same exactly when crabbit passes what rustc passes. -/
theorem deliversAlike_iff {sig : FnSig} {abi : Option FnAbi} {thunk : FnPtrThunk}
    (hthunk : emitFnPtrThunk sig = some thunk) (hbytes : PassesBytes sig abi) :
    DeliversAlike sig abi ↔ PassedAlike sig abi := by
  obtain ⟨inputs, hinputs, -⟩ := Option.map_eq_some_iff.mp hthunk
  have habis := thunkInputs_isSome hinputs
  cases hdirect : directAbi sig abi with
  | none =>
    refine iff_of_true (fun args hfits => ?_) fun abis h => ?_
    · rw [deliveredByThunk_eq hthunk hfits.length_eq.symm, deliveredDirectly, hdirect]
    · rw [hdirect] at h
      cases h
  | some abis =>
    obtain ⟨hlen, hvalid⟩ := directAbi_spec hdirect
    have htys : (sig.tys.zip abis).map Prod.fst = sig.tys :=
      List.map_fst_zip (Nat.le_of_eq hlen.symm)
    have hty : ∀ param ∈ sig.tys.zip abis, param.1 ∈ sig.tys := fun param hparam =>
      (List.of_mem_zip hparam).1
    have hpieces : ∀ param ∈ sig.tys.zip abis, (crabbitPieces param.1).isSome :=
      fun param hparam => crabbitPieces_isSome (habis _ (hty param hparam)).choose_spec
    -- What is found of arguments is found in the memory they are stored in.
    have hdelivered : ∀ args, ArgumentsFit (sig.tys.zip abis) args →
        deliveredByThunk sig args =
          some (segments crabbitSegment (sig.tys.zip abis)
            (List.zipWith imageOf (sig.tys.zip abis) args)) ∧
        deliveredDirectly sig abi args =
          some (segments rustSegment (sig.tys.zip abis)
            (List.zipWith imageOf (sig.tys.zip abis) args)) := by
      intro args hfits
      have hargs : args.length = sig.tys.length := by
        rw [← hfits.length_eq, List.length_zip, hlen, Nat.min_self]
      constructor
      · rw [deliveredByThunk_eq hthunk hargs]
        have hcrabbit := crabbit_segments hfits hpieces
        rw [htys] at hcrabbit
        exact hcrabbit
      · rw [deliveredDirectly, hdirect]
        exact rust_segments hfits (fun param hparam => hvalid _ (List.of_mem_zip hparam).2)
          fun param hparam => crabbitTySize_isSome (habis _ (hty param hparam)).choose_spec
    have hfit_iff : ∀ args : List Argument,
        List.Forall₂ (fun (ty : Ty) (arg : Argument) => Fits ty arg.value) sig.tys args ↔
          ArgumentsFit (sig.tys.zip abis) args := fun args => by
      have h := List.forall₂_map_left_iff (f := Prod.fst) (l := sig.tys.zip abis) (u := args)
        (R := fun (ty : Ty) (arg : Argument) => Fits ty arg.value)
      rw [htys] at h
      exact h
    have halike : PassedAlike sig abi ↔ ∀ param ∈ sig.tys.zip abis,
        crabbitPieces param.1 = some (rustPieces param.1 param.2) := by
      rw [PassedAlike, hdirect]
      exact ⟨fun h => h abis rfl, fun h _ heq => Option.some.inj heq ▸ h⟩
    rw [halike]
    constructor
    · intro h param hparam
      obtain ⟨pieces, hsome⟩ := Option.isSome_iff_exists.mp (hpieces param hparam)
      have hsame := Lib.segments_inj (f := crabbitSegment) (g := rustSegment)
        (fun p hp => pieces_varies p.1 fun piece hpiece => ?_)
        (fun p hp => pieces_varies p.1 (hbytes abis hdirect p hp))
        (fun images hlen => ?_) param hparam
      · rw [hsome]
        refine congrArg some (pieces_inj param.1 (crabbitPieces_sized hsome) fun image => ?_)
        have himage := hsame image
        rw [crabbitSegment, hsome, Option.getD_some] at himage
        exact himage
      · obtain ⟨pieces, hsome⟩ := Option.isSome_iff_exists.mp (hpieces p hp)
        rw [hsome, Option.getD_some] at hpiece
        exact crabbitPieces_sized hsome piece hpiece
      · obtain ⟨hfits, himages⟩ := argumentsAt_spec hlen
        obtain ⟨hthrough, hdirectly⟩ := hdelivered _ hfits
        have heq := h _ ((hfit_iff _).mpr hfits)
        rw [hthrough, hdirectly, himages] at heq
        exact Option.some.inj heq
    · intro h args hfits
      obtain ⟨hthrough, hdirectly⟩ := hdelivered args ((hfit_iff args).mp hfits)
      rw [hthrough, hdirectly, Lib.segments_congr fun param hparam => ?_]
      funext image
      rw [crabbitSegment, h param hparam, Option.getD_some]
      rfl

/-! ## The result -/

/-- The caller gets the same result, however it calls.  Both calls return with
    the same registers.  A callee that returns through memory leaves the result
    where `x8` points, in the buffer of either call; another leaves buffers
    alone. -/
def ReturnsAlike (ty : RustTy) (ret : RustReturn) : Prop :=
  ∀ undef, FitsAll undef → ∀ (r : Returned) (own direct mem : ByteMemory) (slot : Int),
    (ret = .indirect → own = direct) →
      ∀ v ∈ directResult ty ret undef r direct mem slot, ownResult ty r own = some v

/-- The back end reads the value from where rustc leaves it. -/
def ReadWhereLeft (ty : RustTy) : RustReturn → Prop
  | .registers => sizeInBytes ty ≤ 16 ∧ blobWords .registers (rustcSize ty) ≤ 2
  | .indirect => 16 < sizeInBytes ty
  | .pair _ _ => False

/-- The layout of the result does not matter, or the value is left where it is
    read, in the layout it is read in. -/
def ReturnedAlike (ty : RustTy) (ret : RustReturn) : Prop :=
  layoutSensitive ty = true → (loadValueFromRealLayout ty).isSome →
    LoadsAsRealLayout ty (blobWords ret (rustcSize ty)) ∧
      (sizeInBytes ty = 0 ∨ ReadWhereLeft ty ret)

/-- The value of the type depends on the byte at an offset. -/
def ReadsByte (ty : Ty) (offset : Nat) : Prop :=
  ∃ mem mem' : ByteMemory, (∀ x : Int, x ≠ offset → mem' x = mem x) ∧
    (laidOut ty).codec.read mem' 0 ≠ (laidOut ty).codec.read mem 0

/-- The second scalar of a pair has bytes, and is in the value. -/
def PairInValue (ty : RustTy) (ret : RustReturn) : Prop :=
  ∀ offset size, ret = .pair offset size →
    offset < 8 ∧ size ≠ 0 ∧ ReadsByte (convertTy ty) offset

/-- Memory the bytes of which were moved to its start. -/
def movedFrom (mem : ByteMemory) (a : Int) : ByteMemory := fun x => mem (a + x)

theorem movedFrom_apply (mem : ByteMemory) (a : Int) (i : Nat) :
    movedFrom mem a (0 + i) = mem (a + i) := by
  rw [movedFrom, Int.zero_add]

/-- Where the value is left, of memory and of the registers. -/
def leftIn (ret : RustReturn) (x buffer : ByteMemory) : ByteMemory :=
  match ret with
  | .indirect => buffer
  | _ => x

theorem aggregateSource_own {ty : RustTy} {ret : RustReturn} (h : ReadWhereLeft ty ret)
    (r : Returned) (buffer : ByteMemory) :
    aggregateSource (sizeInBytes ty) r buffer = leftIn ret r.x buffer := by
  cases ret with
  | registers => exact if_pos h.1
  | indirect => exact if_neg (Nat.not_le.mpr h)
  | pair => exact absurd h id

theorem aggregateSource_blob {ty : RustTy} {ret : RustReturn} (h : ReadWhereLeft ty ret)
    (r : Returned) (buffer : ByteMemory) :
    aggregateSource (8 * blobWords ret (rustcSize ty)) r buffer = leftIn ret r.x buffer := by
  cases ret with
  | registers =>
    have hwords := h.2
    exact if_pos (by omega)
  | indirect =>
    refine if_neg ?_
    rw [blobWords]
    omega
  | pair => exact absurd h id

theorem moveSecond_of_readWhereLeft {ty : RustTy} {ret : RustReturn} (h : ReadWhereLeft ty ret)
    (mem : ByteMemory) (slot : Int) : moveSecond ret mem slot = mem := by
  cases ret with
  | registers => rfl
  | indirect => rfl
  | pair => exact absurd h id

/-- Values without bytes are all the same. -/
theorem read_of_size_zero {ty : RustTy} (h : sizeInBytes ty = 0) (mem mem' : ByteMemory)
    (a a' : Int) :
    (laidOut (convertTy ty)).codec.read mem' a' = (laidOut (convertTy ty)).codec.read mem a :=
  laidOut_movable (convertTy ty) fun i hi => by
    rw [← sizeInBytes, h] at hi
    exact absurd hi (Nat.not_lt_zero i)

/-- A value left where it is read, in the layout it is read in, is read. -/
theorem returnsAlike_of_returnedAlike {ty : RustTy} (horder : WellOrdered ty) {ret : RustReturn}
    (h : ReturnedAlike ty ret) : ReturnsAlike ty ret := by
  intro undef hundef r own direct mem slot hbuffers v hv
  cases hsensitive : layoutSensitive ty with
  | false =>
    rw [directResult_eq_ownResult horder hsensitive ret undef r own] at hv
    exact hv
  | true =>
    rw [directResult_of_layoutSensitive hsensitive] at hv
    obtain ⟨loader, hloader, rfl⟩ := Option.map_eq_some_iff.mp hv
    obtain ⟨hoffsets, hleft⟩ := h hsensitive (Option.isSome_iff_exists.mpr ⟨loader, hloader⟩)
    have hloads := (loadsAsRealLayout_iff horder hloader _).mp hoffsets
    rcases hleft with hzero | hleft
    · rw [ownResult_of_layoutSensitive horder hsensitive,
        hloads undef hundef _ (movedFrom _ slot) slot 0 fun i _ => movedFrom_apply _ slot i,
        read_of_size_zero hzero]
    · rw [ownResult_of_layoutSensitive horder hsensitive, moveSecond_of_readWhereLeft hleft,
        aggregateSource_own hleft, aggregateSource_blob hleft]
      have hsource : leftIn ret r.x own = leftIn ret r.x direct := by
        cases ret with
        | indirect => exact hbuffers rfl
        | registers => rfl
        | pair => rfl
      rw [hsource, hloads undef hundef _ (leftIn ret r.x direct) slot 0 fun i hi =>
        (ByteMemory.store_load_apply mem _ hi).symm]

/-- The words a pair is returned in, where its second scalar goes, make no
    difference. -/
theorem moveSecond_hides {offset size : Nat} (hoffset : offset < 8) (hsize : size ≠ 0)
    {src src' : ByteMemory} (h : ∀ x : Int, x ≠ offset → src' x = src x) (mem : ByteMemory)
    (slot : Int) :
    moveSecond (.pair offset size) (mem.store slot (src'.load 0 16)) slot =
      moveSecond (.pair offset size) (mem.store slot (src.load 0 16)) slot := by
  have hwords : ∀ x, x ≠ slot + offset →
      mem.store slot (src'.load 0 16) x = mem.store slot (src.load 0 16) x := by
    intro x hx
    by_cases hin : slot ≤ x ∧ x < slot + 16
    · obtain ⟨i, hi, rfl⟩ : ∃ i : Nat, i < 16 ∧ x = slot + i :=
        ⟨(x - slot).toNat, by omega, by omega⟩
      rw [ByteMemory.store_load_apply mem src' hi, ByteMemory.store_load_apply mem src hi]
      exact h _ (by omega)
    · rw [ByteMemory.store_of_notMem, ByteMemory.store_of_notMem] <;>
        (rw [ByteMemory.length_load]; omega)
  have hsecond : (mem.store slot (src'.load 0 16)).load (slot + 8) size =
      (mem.store slot (src.load 0 16)).load (slot + 8) size :=
    ByteMemory.load_congr size fun x hle _ => hwords x (by omega)
  show ByteMemory.store _ _ _ = ByteMemory.store _ _ _
  rw [hsecond]
  apply ByteMemory.store_hides hwords
  intro hnil
  have hlen := congrArg List.length hnil
  rw [ByteMemory.length_load] at hlen
  exact hsize hlen

/-- The equation behind `ReturnsAlike`. -/
theorem ReturnsAlike.read_eq {ty : RustTy} (horder : WellOrdered ty) {ret : RustReturn}
    (h : ReturnsAlike ty ret) (hsensitive : layoutSensitive ty = true) {loader : Loader}
    (hloader : loadValueFromRealLayout ty = some loader) {undef : Ty → Val}
    (hundef : FitsAll undef) (r : Returned) (own direct : ByteMemory)
    (hbuffers : ret = .indirect → own = direct) (mem : ByteMemory) (slot : Int) :
    (laidOut (convertTy ty)).codec.read (aggregateSource (sizeInBytes ty) r own) 0 =
      loader undef (moveSecond ret (mem.store slot
        ((aggregateSource (8 * blobWords ret (rustcSize ty)) r direct).load 0
          (8 * blobWords ret (rustcSize ty)))) slot) slot := by
  have hresult := h undef hundef r own direct mem slot hbuffers
  rw [directResult_of_layoutSensitive hsensitive, hloader, Option.map_some,
    ownResult_of_layoutSensitive horder hsensitive] at hresult
  exact Option.some.inj (hresult _ rfl)

/-- A value read elsewhere than it is left is not that value. -/
theorem readWhereLeft_of_returnsAlike {ty : RustTy} (horder : WellOrdered ty) {ret : RustReturn}
    (hpair : PairInValue ty ret) (hsensitive : layoutSensitive ty = true) {loader : Loader}
    (hloader : loadValueFromRealLayout ty = some loader) (h : ReturnsAlike ty ret)
    (hsize : sizeInBytes ty ≠ 0) : ReadWhereLeft ty ret := by
  have hundef : FitsAll fun ty => (laidOut ty).codec.read zeros 0 :=
    fun ty => (laidOut ty).codec.fits_read _ _
  have hread := fun r own direct hbuffers =>
    h.read_eq horder hsensitive hloader hundef r own direct hbuffers zeros 0
  have hvary := read_zeros_ne_ones (convertTy ty) 0 hsize
  cases ret with
  | registers =>
    have hdirect : ∀ {own direct : ByteMemory}, RustReturn.registers = .indirect → own = direct :=
      fun hret => RustReturn.noConfusion hret
    have hsmall : sizeInBytes ty ≤ 16 := by
      by_contra hlarge
      -- The own buffer shows in the own result only.
      have hzeros := hread ⟨zeros, zeros⟩ zeros zeros hdirect
      have hones := hread ⟨zeros, zeros⟩ ones zeros hdirect
      rw [aggregateSource, if_neg hlarge] at hzeros hones
      exact hvary (hzeros.trans hones.symm)
    refine ⟨hsmall, ?_⟩
    by_contra hwords
    have hblob : ¬ 8 * blobWords .registers (rustcSize ty) ≤ 16 := by omega
    have hzeros := hread ⟨zeros, zeros⟩ zeros zeros hdirect
    have hones := hread ⟨ones, zeros⟩ zeros zeros hdirect
    rw [aggregateSource, if_pos hsmall, aggregateSource, if_neg hblob] at hzeros hones
    exact hvary (hzeros.trans hones.symm)
  | indirect =>
    show 16 < sizeInBytes ty
    by_contra hsmall
    have hblob : ¬ 8 * blobWords .indirect (rustcSize ty) ≤ 16 := by
      rw [blobWords]
      omega
    have hzeros := hread ⟨zeros, zeros⟩ zeros zeros fun _ => rfl
    have hones := hread ⟨ones, zeros⟩ zeros zeros fun _ => rfl
    rw [aggregateSource, if_pos (Nat.le_of_not_lt hsmall), aggregateSource, if_neg hblob]
      at hzeros hones
    exact hvary (hzeros.trans hones.symm)
  | pair offset size =>
    have hdirect : ∀ {own direct : ByteMemory}, RustReturn.pair offset size = .indirect →
        own = direct := fun hret => RustReturn.noConfusion hret
    obtain ⟨hoffset, hbytes, src, src', hsrc, hne⟩ := hpair offset size rfl
    exfalso
    by_cases hsmall : sizeInBytes ty ≤ 16
    · have hold := hread ⟨src, zeros⟩ zeros zeros hdirect
      have hnew := hread ⟨src', zeros⟩ zeros zeros hdirect
      rw [aggregateSource, if_pos hsmall, aggregateSource,
        if_pos (show 8 * blobWords (.pair offset size) (rustcSize ty) ≤ 16 from Nat.le_refl 16)]
        at hold hnew
      exact hne ((hnew.trans (congrArg (fun mem => loader _ mem 0)
        (moveSecond_hides hoffset hbytes hsrc zeros 0))).trans hold.symm)
    · have hold := hread ⟨zeros, zeros⟩ src zeros hdirect
      have hnew := hread ⟨zeros, zeros⟩ src' zeros hdirect
      rw [aggregateSource, if_neg hsmall] at hold hnew
      exact hne (hnew.trans hold.symm)

/-- The result is the same exactly when it is left where it is read, in the
    layout it is read in. -/
theorem returnsAlike_iff {ty : RustTy} (horder : WellOrdered ty) {ret : RustReturn}
    (hpair : PairInValue ty ret) : ReturnsAlike ty ret ↔ ReturnedAlike ty ret := by
  refine ⟨fun h hsensitive hsome => ?_, returnsAlike_of_returnedAlike horder⟩
  obtain ⟨loader, hloader⟩ := Option.isSome_iff_exists.mp hsome
  have hleft : sizeInBytes ty = 0 ∨ ReadWhereLeft ty ret := by
    by_cases hzero : sizeInBytes ty = 0
    · exact Or.inl hzero
    · exact Or.inr
        (readWhereLeft_of_returnsAlike horder hpair hsensitive hloader h hzero)
  have hstay : ∀ mem slot, moveSecond ret mem slot = mem := by
    intro mem slot
    rcases hleft with hzero | hleft
    · cases ret with
      | pair offset size =>
        obtain ⟨-, -, src, src', -, hne⟩ := hpair offset size rfl
        exact absurd (read_of_size_zero hzero src src' 0 0) hne
      | registers => rfl
      | indirect => rfl
    · exact moveSecond_of_readWhereLeft hleft mem slot
  refine ⟨(loadsAsRealLayout_iff horder hloader _).mpr fun undef hundef mem mem' a a' hbytes => ?_,
    hleft⟩
  -- The bytes are put wherever the result could be left.
  have hread := h.read_eq horder hsensitive hloader hundef
    ⟨movedFrom mem' a', movedFrom mem' a'⟩ (movedFrom mem' a') (movedFrom mem' a')
    (fun _ => rfl) mem a
  have hblob : (movedFrom mem' a').load 0 (8 * blobWords ret (rustcSize ty)) =
      mem.load a (8 * blobWords ret (rustcSize ty)) :=
    ByteMemory.load_shift _ fun i hi => (movedFrom_apply mem' a' i).trans (hbytes i hi)
  rw [hstay, aggregateSource, ite_self, aggregateSource, ite_self, hblob,
    ByteMemory.store_load] at hread
  rw [← hread]
  exact laidOut_movable (convertTy ty) fun i _ => movedFrom_apply mem' a' i

/-! ## Calls -/

/-- A call through the thunk is the direct call: the callee finds the same, and
    the caller gets the same. -/
def CallsAlike (sig : FnSig) (abi : Option FnAbi) : Prop :=
  DeliversAlike sig abi ∧ ReturnsAlike sig.result (rustAbiReturn abi)

/-- What rustc's modes of a function are about: bytes of the arguments, and of
    the result. -/
structure RustcModes (sig : FnSig) (abi : Option FnAbi) : Prop where
  ordered : WellOrdered sig.result
  bytes : PassesBytes sig abi
  pair : PairInValue sig.result (rustAbiReturn abi)

/-- A call through the thunk is the direct call exactly when crabbit passes each
    argument as rustc does, and rustc leaves the result where crabbit reads it. -/
theorem thunk_call_is_direct_call_iff {sig : FnSig} {abi : Option FnAbi} {thunk : FnPtrThunk}
    (hthunk : emitFnPtrThunk sig = some thunk) (hmodes : RustcModes sig abi) :
    CallsAlike sig abi ↔ PassedAlike sig abi ∧ ReturnedAlike sig.result (rustAbiReturn abi) :=
  and_congr (deliversAlike_iff hthunk hmodes.bytes)
    (returnsAlike_iff hmodes.ordered hmodes.pair)

/-- `fn(u64, &str) -> (u64, &str)`: the result comes back through memory. -/
def wordAndStr : FnSig :=
  ⟨[.uint .u64, .ref (some .str)], .tuple [.uint .u64, .ref (some .str)] [0, 1]⟩

def wordAndStrAbi : FnAbi where
  cVariadic := false
  args := [.direct (some (.int 64)), .pair (some ⟨.pointer, .int 64, 8⟩)]
  ret := .indirect true

theorem wellOrdered_uint (kind : UintTy) : WellOrdered (.uint kind) := by
  intro part hpart fields order hlike
  cases hpart with
  | refl => cases hlike
  | part _ hmem => exact absurd hmem List.not_mem_nil

theorem wordAndStr_modes : RustcModes wordAndStr (some wordAndStrAbi) where
  ordered := wellOrdered_tuple (List.Perm.refl _) (by simp [RustTy.parts, structLike])
  bytes := by
    intro abis habis param hparam piece hpiece
    cases habis
    rcases List.mem_cons.mp hparam with rfl | hparam
    · rw [List.mem_singleton.mp hpiece]
      rfl
    · rw [List.mem_singleton.mp hparam] at hpiece
      rcases List.mem_cons.mp hpiece with rfl | hpiece
      · rfl
      · rw [List.mem_singleton.mp hpiece]
        rfl
  pair := nofun

theorem wordAndStr_passedAlike : PassedAlike wordAndStr (some wordAndStrAbi) := by
  intro abis habis param hparam
  cases habis
  rcases List.mem_cons.mp hparam with rfl | hparam
  · rfl
  · rw [List.mem_singleton.mp hparam]
    rfl

/-- The word and the reference are at the same offsets for both, and too large
    for registers. -/
theorem wordAndStr_returnedAlike :
    ReturnedAlike wordAndStr.result (rustAbiReturn (some wordAndStrAbi)) := by
  refine fun _ _ => ⟨?_, Or.inr (show 16 < sizeInBytes wordAndStr.result by decide)⟩
  have hparts : loadedParts wordAndStr.result =
      [⟨0, 0, .int 64 .unsigned⟩, ⟨8, 8, .struct [.pointer, .int 64 .unsigned]⟩] := rfl
  rw [LoadsAsRealLayout, hparts, List.forall_mem_cons, List.forall_mem_singleton]
  exact ⟨fun _ => by decide, fun _ => by decide⟩

theorem thunk_call_wordAndStr : CallsAlike wordAndStr (some wordAndStrAbi) :=
  (thunk_call_is_direct_call_iff rfl wordAndStr_modes).mpr
    ⟨wordAndStr_passedAlike, wordAndStr_returnedAlike⟩

/-- `fn([u8; 4]) -> u64`: rustc passes the bytes in a register. -/
def fourBytes : FnSig := ⟨[.array (.uint .u8) 4], .uint .u64⟩

def fourBytesAbi : FnAbi where
  cVariadic := false
  args := [.cast 4]
  ret := .direct (some (.int 64))

theorem fourBytes_modes : RustcModes fourBytes (some fourBytesAbi) where
  ordered := wellOrdered_uint _
  bytes := by
    intro abis habis param hparam piece hpiece
    cases habis
    rw [List.mem_singleton.mp hparam] at hpiece
    rw [List.mem_singleton.mp hpiece]
    rfl
  pair := nofun

/-- The thunk passes an array by reference. -/
theorem thunk_passes_fourBytes_by_reference : ¬ ∀ (sig : FnSig) (abi : Option FnAbi) thunk,
    emitFnPtrThunk sig = some thunk → RustcModes sig abi → CallsAlike sig abi := by
  intro h
  have hcalls := h fourBytes (some fourBytesAbi) _ rfl fourBytes_modes
  have hthunk : emitFnPtrThunk fourBytes = some ⟨[.pointer], some (.int 64 .unsigned)⟩ := rfl
  have hpassed := (deliversAlike_iff hthunk fourBytes_modes.bytes).mp hcalls.1
  have hpieces := hpassed [.cast 4] rfl _ (List.mem_singleton.mpr rfl)
  exact absurd hpieces (by decide)

end Crabbit.Importer
