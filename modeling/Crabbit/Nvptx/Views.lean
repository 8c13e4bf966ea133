/-
  Crabbit.Nvptx.Views

  What holds of the available values in the states a thread gets to: each has
  a value of its type, and is what its definition makes of the values its
  operands have now.
-/

import Crabbit.Llvm.Framed
import Crabbit.Nvptx.Runs

namespace Crabbit.Nvptx

open Crabbit.Llvm (Value GepIndex Successor Framed)

/-! ## Yields is local -/

theorem Env.bits_congr {env env' : Env} {v : Value} (h : env' v = env v) :
    env'.bits v = env.bits v := by
  rw [Env.bits, Env.bits, h]

theorem gepDescend_congr {bits bits' : Value → Nat} {indices : List GepIndex}
    (h : ∀ v ∈ indices.flatMap GepIndex.operands, bits' v = bits v) (ty : Llvm.Ty) :
    gepDescend bits' ty indices = gepDescend bits ty indices := by
  induction indices generalizing ty with
  | nil => cases ty <;> rfl
  | cons index rest ih =>
      rw [List.flatMap_cons] at h
      have hrest := ih fun v hv => h v (List.mem_append_right _ hv)
      have hindex : indexBits bits' index = indexBits bits index ∧
          fieldIndex bits' index = fieldIndex bits index := by
        cases index with
        | constant c => exact ⟨rfl, rfl⟩
        | value v =>
            have hv := h v (List.mem_append_left _ List.mem_cons_self)
            exact ⟨by rw [indexBits, indexBits, hv], hv⟩
      cases ty <;> simp only [gepDescend, hindex, hrest]

theorem gepOffset_congr {bits bits' : Value → Nat} {indices : List GepIndex}
    (h : ∀ v ∈ indices.flatMap GepIndex.operands, bits' v = bits v) (ty : Llvm.Ty) :
    gepOffset bits' ty indices = gepOffset bits ty indices := by
  cases indices with
  | nil => rfl
  | cons index rest =>
      rw [List.flatMap_cons] at h
      have hindex : indexBits bits' index = indexBits bits index := by
        cases index with
        | constant c => rfl
        | value v =>
            rw [indexBits, indexBits, h v (List.mem_append_left _ List.mem_cons_self)]
      simp only [gepOffset, hindex,
        gepDescend_congr (fun v hv => h v (List.mem_append_right _ hv))]

/-- What an operation yields depends on its operands only. -/
theorem Yields.congr {thread : Thread} {env env' : Env} {inst : Inst} {r : Value} {val : Val}
    (h : ∀ v ∈ inst.operands, env' v = env v) (hyields : Yields thread env inst r val) :
    Yields thread env' inst r val := by
  have hbits : ∀ v ∈ inst.operands, env'.bits v = env.bits v := fun v hv =>
    Env.bits_congr (h v hv)
  cases inst
  case gep result base ty indices =>
    obtain ⟨b, offset, hb, hoffset, hobject, haddr⟩ := hyields
    refine ⟨b, offset, ?_, ?_, hobject, haddr⟩
    · rw [h base List.mem_cons_self, hb]
    · rw [gepOffset_congr fun v hv => hbits v (List.mem_cons_of_mem _ hv), hoffset]
  case cast kind result operand => exact (h operand List.mem_cons_self).trans hyields
  case bin kind result lhs rhs =>
    intro width hwidth
    rw [hbits lhs List.mem_cons_self, hbits rhs (List.mem_cons_of_mem _ List.mem_cons_self)]
    exact hyields width hwidth
  case zext result operand =>
    show val.bits = env'.bits operand
    rw [hbits operand List.mem_cons_self]
    exact hyields
  case trunc result operand =>
    intro width hwidth
    rw [hbits operand List.mem_cons_self]
    exact hyields width hwidth
  case select result cond onTrue onFalse =>
    show env' (if env'.bits cond = 0 then onFalse else onTrue) = some val
    have hyields : env (if env.bits cond = 0 then onFalse else onTrue) = some val := hyields
    rw [hbits cond List.mem_cons_self, ← hyields]
    split
    · exact h onFalse (by simp [Inst.operands])
    · exact h onTrue (by simp [Inst.operands])
  all_goals exact hyields

/-! ## Runs as executions of the region -/

/-- The runs of one thread, as the control-flow lemmas see them. -/
def framed (k : Kernel) (thread : Thread) : Framed k.region where
  State := State
  Data := Val
  block := State.block
  rest s := s.rest.map Inst.skeleton
  env := State.env
  Entry := k.Entry
  Step := Step k thread
  entry h := by
    rw [h.block, h.rest, Kernel.region_block]
    exact ⟨rfl, rfl⟩
  frame h := by
    cases h with
    | @next inst rest _ hrest hsuccs _ hframe =>
        exact ⟨inst.skeleton, rest.map Inst.skeleton, by rw [hrest]; rfl,
          .inl ⟨hsuccs, rfl, rfl, hframe⟩⟩
    | @jump inst rest target env hrest _ htarget _ hframe =>
        refine ⟨inst.skeleton, rest.map Inst.skeleton, by rw [hrest]; rfl,
          .inr ⟨target, htarget, rfl, ?_, fun v _ hv => ?_⟩⟩
        · rw [Kernel.region_block]
        · rw [Kernel.region_block] at hv
          exact hframe v hv

variable {k : Kernel} {thread : Thread} {s t : State}

theorem Reachable.toFramed (h : Reachable k thread s) : (framed k thread).Reachable s := by
  induction h with
  | entry h => exact .entry h
  | step _ hstep ih => exact ih.step hstep

theorem ofFramed {s : (framed k thread).State} (h : (framed k thread).Reachable s) :
    Reachable k thread s := by
  induction h with
  | entry h => exact .entry h
  | step _ hstep ih => exact ih.step hstep

/-! ## Live values -/

/-- The value is available: its definition dominates the point control is at. -/
def Live (k : Kernel) (s : State) (v : Value) : Prop :=
  ∃ done, (k.region.block s.block).ops = done ++ s.rest.map Inst.skeleton ∧
    k.region.Available s.block done v

/-- Operations of a body stand somewhere in its region. -/
theorem exists_place {inst : Inst} (hinst : inst ∈ k.insts) :
    ∃ c done rest, (k.region.block c).ops = done ++ inst.skeleton :: rest := by
  apply Llvm.Region.exists_split
  rw [Kernel.region_ops]
  exact List.mem_map_of_mem hinst

theorem Reachable.live_place (hssa : k.region.Ssa) (h : Reachable k thread s) {v : Value}
    (hlive : Live k s v) : ∃ done, (k.region.block s.block).ops = done ++ s.rest.map Inst.skeleton ∧
      k.region.Reached s.block ∧ k.region.Available s.block done v := by
  obtain ⟨done, hops, havail⟩ := hlive
  obtain ⟨-, -, hreached⟩ := h.toFramed.located hssa
  exact ⟨done, hops, hreached, havail⟩

/-- The operands of what is live are. -/
theorem Reachable.live_operand (hssa : k.region.Ssa) (hdom : k.region.UsesDominated)
    (h : Reachable k thread s) {inst : Inst} (hinst : inst ∈ k.insts) {r : Value}
    (hr : r ∈ inst.results) (hlive : Live k s r) {w : Value} (hw : w ∈ inst.operands) :
    Live k s w := by
  obtain ⟨done, hops, hreached, havail⟩ := h.live_place hssa hlive
  obtain ⟨c, cdone, crest, hdef⟩ := exists_place hinst
  have hrc := Llvm.Region.mem_defs_of_result hdef (v := r) hr
  have hc := hssa.reached_of_available hops hreached havail hrc
  have hwavail := hdom c cdone _ crest hdef hc w (Inst.mem_skeleton_operands hw)
  exact ⟨done, hops, hssa.available_trans hdef hr hwavail hops hreached havail⟩

/-- Types of the arguments of a branch are those of the parameters. -/
theorem args_ty_of_typed (htyped : k.Typed) {inst : Inst} (hinst : inst ∈ k.insts)
    {target : Successor} (htarget : target ∈ inst.succs) :
    target.args.map Value.ty = (k.block target.dest).params.map Value.ty := by
  have h := htyped inst hinst
  cases inst
  case br target' =>
    obtain rfl := List.mem_singleton.mp htarget
    exact h
  case condBr cond onTrue onFalse =>
    rcases List.mem_cons.mp htarget with rfl | htarget
    · exact h.2.1
    · obtain rfl := List.mem_singleton.mp htarget
      exact h.2.2
  all_goals exact absurd htarget List.not_mem_nil

theorem exists_typed_arg {params args : List Value} {R : Value → Value → Prop}
    (h : List.Forall₂ R params args) (hty : args.map Value.ty = params.map Value.ty) {v : Value}
    (hv : v ∈ params) : ∃ arg ∈ args, R v arg ∧ arg.ty = v.ty := by
  induction h with
  | nil => exact absurd hv List.not_mem_nil
  | @cons p arg params args hp _ ih =>
      simp only [List.map_cons, List.cons.injEq] at hty
      rcases List.mem_cons.mp hv with rfl | hv
      · exact ⟨arg, List.mem_cons_self, hp, hty.1⟩
      · obtain ⟨a, ha, hra, htya⟩ := ih hty.2 hv
        exact ⟨a, List.mem_cons_of_mem _ ha, hra, htya⟩

/-- Values fit their types. -/
theorem Reachable.fits (htyped : k.Typed) (h : Reachable k thread s) :
    ∀ v val, s.env v = some val → Fits v val := by
  induction h with
  | entry h =>
      intro v val hv
      by_cases hp : v ∈ k.entry.params
      · obtain ⟨val', hval', hfits, -⟩ := h.params v hp
        obtain rfl := Option.some.inj (hval'.symm.trans hv)
        exact hfits
      · rw [h.others v hp] at hv
        cases hv
  | @step s t h hstep ih =>
      cases hstep with
      | @next inst rest env hrest hsuccs hoperands hframe hresults =>
          intro v val hv
          by_cases hres : v ∈ inst.results
          · obtain ⟨val', hval', hfits, -⟩ := hresults v hres
            obtain rfl := Option.some.inj (hval'.symm.trans hv)
            exact hfits
          · exact ih v val ((hframe v hres).symm.trans hv)
      | @jump inst rest target env hrest htaken htarget hoperands hframe hparams =>
          have hinst : inst ∈ k.insts := h.mem_insts (by rw [hrest]; exact List.mem_cons_self)
          intro v val hv
          by_cases hres : v ∈ (k.block target.dest).params
          · obtain ⟨arg, -, harg, hty⟩ :=
              exists_typed_arg hparams (args_ty_of_typed htyped hinst htarget) hres
            intro width hwidth
            exact ih arg val (harg.symm.trans hv) width (by rw [hty, hwidth])
          · exact ih v val ((hframe v hres).symm.trans hv)

theorem mem_operands_of_arg {inst : Inst} {target : Successor} (htarget : target ∈ inst.succs)
    {arg : Value} (harg : arg ∈ target.args) : arg ∈ inst.operands := by
  cases inst
  case br target' =>
    obtain rfl := List.mem_singleton.mp htarget
    exact harg
  case condBr cond onTrue onFalse =>
    refine List.mem_cons_of_mem _ ?_
    rcases List.mem_cons.mp htarget with rfl | htarget
    · exact List.mem_append_left _ harg
    · obtain rfl := List.mem_singleton.mp htarget
      exact List.mem_append_right _ harg
  all_goals exact absurd htarget List.not_mem_nil

/-- Live values have been computed. -/
theorem Reachable.live_isSome (hssa : k.region.Ssa) (h : Reachable k thread s) {v : Value}
    (hlive : Live k s v) : ∃ val, s.env v = some val := by
  induction h with
  | entry h =>
      obtain ⟨done, hops, havail⟩ := hlive
      rw [h.block, h.rest, Kernel.region_block] at hops
      obtain rfl : done = [] := List.self_eq_append_left.mp hops
      rw [h.block] at havail
      rcases havail with hp | hd | ⟨a, hne, hdom, -⟩
      · rw [Kernel.region_block] at hp
        obtain ⟨val, hval, -⟩ := h.params v hp
        exact ⟨val, hval⟩
      · exact absurd hd List.not_mem_nil
      · exact absurd hdom.eq_entry hne
  | @step s t h hstep ih =>
      obtain ⟨sdone, hsops, -⟩ : ∃ sdone, (k.region.block s.block).ops =
          sdone ++ s.rest.map Inst.skeleton ∧ k.region.Reached s.block :=
        h.toFramed.located hssa
      obtain ⟨done, hops, havail⟩ := hlive
      cases hstep with
      | @next inst rest env hrest hsuccs hoperands hframe hresults =>
          by_cases hres : v ∈ inst.results
          · obtain ⟨val, hval, -⟩ := hresults v hres
            exact ⟨val, hval⟩
          · have hsops : (k.region.block s.block).ops =
                sdone ++ inst.skeleton :: rest.map Inst.skeleton := by
              rw [hsops, hrest, List.map_cons]
            obtain rfl : done = sdone ++ [inst.skeleton] := by
              have heq : done ++ rest.map Inst.skeleton =
                  (sdone ++ [inst.skeleton]) ++ rest.map Inst.skeleton := by
                rw [List.append_assoc]
                exact hops.symm.trans hsops
              exact List.append_cancel_right heq
            obtain ⟨val, hval⟩ := ih ⟨sdone, by rw [hsops, hrest, List.map_cons], havail.of_append hres⟩
            exact ⟨val, (hframe v hres).trans hval⟩
      | @jump inst rest target env hrest htaken htarget hoperands hframe hparams =>
          by_cases hres : v ∈ (k.block target.dest).params
          · obtain ⟨arg, hzip, harg⟩ := exists_arg hparams hres
            obtain ⟨val, hval⟩ := Option.isSome_iff_exists.mp
              (hoperands arg (mem_operands_of_arg htarget (List.of_mem_zip hzip).1))
            exact ⟨val, harg.trans hval⟩
          · have hsops : (k.region.block s.block).ops =
                sdone ++ inst.skeleton :: rest.map Inst.skeleton := by
              rw [hsops, hrest, List.map_cons]
            obtain ⟨hnil, hedge⟩ := hssa.edge hsops htarget
            obtain rfl : done = [] := by
              rw [Kernel.region_block] at hops
              exact List.self_eq_append_left.mp hops
            have hend := havail.pred hedge (by rw [Kernel.region_block]; exact hres)
            -- A branch has no results.
            have hresults : inst.results = [] := by
              cases inst <;> first | rfl | exact absurd htarget List.not_mem_nil
            rw [hsops, hnil] at hend
            have hlive : Live k s v := by
              refine ⟨sdone, by rw [hsops, hrest, List.map_cons], hend.of_append ?_⟩
              show v ∉ inst.results
              rw [hresults]
              exact List.not_mem_nil
            obtain ⟨val, hval⟩ := ih hlive
            exact ⟨val, (hframe v hres).trans hval⟩

/-- What is live is what its definition makes of the values its operands have
    now. -/
theorem Reachable.yields (hssa : k.region.Ssa) (hdom : k.region.UsesDominated)
    (h : Reachable k thread s) {inst : Inst} (hinst : inst ∈ k.insts) {r : Value}
    (hr : r ∈ inst.results) (hlive : Live k s r) {val : Val} (hval : s.env r = some val) :
    Yields thread s.env inst r val := by
  obtain ⟨done, hops, hreached, havail⟩ := h.live_place hssa hlive
  obtain ⟨c, cdone, crest, hdef⟩ := exists_place hinst
  have hc := hssa.reached_of_available hops hreached havail
    (Llvm.Region.mem_defs_of_result hdef (v := r) hr)
  have hoperands : ∀ w ∈ inst.operands, k.region.Available c cdone w := fun w hw =>
    hdom c cdone _ crest hdef hc w (Inst.mem_skeleton_operands hw)
  have hsuccs : inst.succs = [] := by
    cases inst <;> first | rfl | exact absurd hr List.not_mem_nil
  refine h.toFramed.stable hssa hdef hr hsuccs hoperands
    (φ := fun env => ∀ val, env r = some val → Yields thread env inst r val) ?_ ?_ hops havail
    val hval
  · intro env env' hsame hyields val hval
    apply Yields.congr fun v hv => hsame v (List.mem_cons_of_mem _ hv)
    exact hyields val ((hsame r List.mem_cons_self).symm.trans hval)
  · intro s t ops hs hrest hstep val hval
    have hrest : s.rest.map Inst.skeleton = inst.skeleton :: ops := hrest
    obtain ⟨inst', rest', hsplit, hskeleton, -⟩ := List.map_eq_cons_iff.mp hrest
    have hr' : r ∈ inst'.results := by
      rw [← Inst.skeleton_results, hskeleton]
      exact hr
    obtain rfl : inst' = inst :=
      Kernel.inst_unique hssa ((ofFramed hs).mem_insts (by rw [hsplit]; exact List.mem_cons_self))
        hinst hr' hr
    have hval : t.env r = some val := hval
    cases hstep with
    | @next inst'' rest'' env hrest'' _ _ hframe hresults =>
        obtain ⟨rfl, rfl⟩ := List.cons.inj (hsplit.symm.trans hrest'')
        obtain ⟨val', hval', -, hyields⟩ := hresults r hr
        obtain rfl := Option.some.inj (hval'.symm.trans hval)
        -- No operand is a result.
        apply Yields.congr _ hyields
        intro w hw
        apply hframe
        intro hres
        exact hssa.not_available hdef (v := w) hres (hoperands w hw)
    | @jump inst'' _ _ _ hrest'' _ htarget =>
        obtain ⟨rfl, rfl⟩ := List.cons.inj (hsplit.symm.trans hrest'')
        rw [hsuccs] at htarget
        exact absurd htarget List.not_mem_nil

/-! ## Views -/

/-- Values of which each is what its definition makes of the others. -/
structure View (k : Kernel) (thread : Thread) where
  env : Env
  live : Value → Prop
  closed : ∀ inst ∈ k.insts, ∀ r ∈ inst.results, live r → ∀ w ∈ inst.operands, live w
  fits : ∀ v, live v → ∃ val, env v = some val ∧ Fits v val
  yields : ∀ inst ∈ k.insts, ∀ r ∈ inst.results, live r → ∀ val, env r = some val →
    Yields thread env inst r val

/-- The live values of a state a thread gets to. -/
def Reachable.view (htyped : k.Typed) (hssa : k.region.Ssa) (hdom : k.region.UsesDominated)
    (h : Reachable k thread s) : View k thread where
  env := s.env
  live := Live k s
  closed _ hinst _ hr hlive _ hw := h.live_operand hssa hdom hinst hr hlive hw
  fits v hlive := by
    obtain ⟨val, hval⟩ := h.live_isSome hssa hlive
    exact ⟨val, hval, h.fits htyped v val hval⟩
  yields _ hinst _ hr hlive _ hval := h.yields hssa hdom hinst hr hlive hval

end Crabbit.Nvptx
