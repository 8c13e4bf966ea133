/-
  Crabbit.Llvm.Memory

  What a function does to memory.

  Memory is a family of regions of bytes.  A pointer names a region and an
  offset, address arithmetic stays in the region, and every execution of an
  `alloca` opens a fresh one, named after the `alloca`.
  A byte of memory is a number or a piece of a pointer, so that pointers
  survive being stored and loaded.  A value is the list of its bytes.

  What an operation outside this model computes, what a call does, and how
  large a type is are the fields of a `Machine`.  Its laws say that values do
  not come from nowhere: a pure operation's result only mentions regions its
  operands mention (or globals), and a call can neither see nor touch a set of
  regions that nothing it can reach mentions.
-/

import Crabbit.Llvm.Effects

namespace Crabbit.Llvm

/-! ## Values and memory -/

/-- A region: one the function found or was given by a call, or the one its
    `n`-th execution of an alloca opened. -/
inductive RegionId where
  | external (n : Nat)
  | slot (alloca : Value) (n : Nat)
  deriving DecidableEq

inductive MByte where
  | raw (bits : Nat)
  | fragment (region : RegionId) (offset : Int) (index : Nat)
  deriving DecidableEq

/-- A value, as its bytes in memory order. -/
abbrev Val := List MByte

/-- The value mentions a pointer into region `r`. -/
def Mentions (v : Val) (r : RegionId) : Prop := ∃ o i, MByte.fragment r o i ∈ v

/-- The eight bytes of a pointer. -/
def pointer (region : RegionId) (offset : Int) : Val :=
  (List.range 8).map fun i => .fragment region offset i

/-- The pointer a value is. -/
def asPointer (v : Val) : Option (RegionId × Int) :=
  match v with
  | .fragment r o _ :: _ => if v = pointer r o then some (r, o) else none
  | _ => none

structure Mem where
  /-- How many regions exist that the function did not open. -/
  next : Nat
  /-- How often each alloca was executed. -/
  count : Value → Nat
  bytes : RegionId → Int → MByte

namespace Mem

/-- The region is in use. -/
def Exists (m : Mem) : RegionId → Prop
  | .external n => n < m.next
  | .slot a n => n < m.count a

/-- The `n` bytes at an address. -/
def read (m : Mem) (r : RegionId) (o : Int) (n : Nat) : Val :=
  (List.range n).map fun i : Nat => m.bytes r (o + i)

def write (m : Mem) (r : RegionId) (o : Int) (v : Val) : Mem :=
  { m with bytes := fun r' o' =>
      if r' = r ∧ o ≤ o' ∧ o' < o + v.length then v.getD (o' - o).toNat (.raw 0)
      else m.bytes r' o' }

/-- The region the next execution of an alloca opens. -/
def fresh (m : Mem) (v : Value) : RegionId := .slot v (m.count v)

def alloc (m : Mem) (v : Value) : Mem :=
  { m with count := Function.update m.count v (m.count v + 1) }

/-- The two memories agree for whoever cannot look into the regions in `P`. -/
structure AgreeOutside (P : RegionId → Prop) (m m' : Mem) : Prop where
  next : m'.next = m.next
  bytes : ∀ r, ¬ P r → m'.bytes r = m.bytes r

/-- No byte outside the regions in `P` mentions one of them. -/
def Hides (m : Mem) (P : RegionId → Prop) : Prop :=
  ∀ r, ¬ P r → ∀ o r' o' i, m.bytes r o = .fragment r' o' i → ¬ P r'

/-- Every pointer in memory is into a region that exists. -/
def Bounded (m : Mem) : Prop := ∀ r o r' o' i, m.bytes r o = .fragment r' o' i → m.Exists r'

end Mem

/-! ## Machines -/

/-- What an operation of unknown effects leaves behind. -/
structure Outcome (World : Type) where
  world : World
  results : List Val
  mem : Mem
  /-- Which successor is taken, when there are any. -/
  choice : Nat

/-- The parts of the semantics that depend on the target and on code outside
    the function. -/
structure Machine where
  World : Type
  sizeOf : Ty → Nat
  /-- The byte offset of an element, from its index values. -/
  gepOffset : Ty → List (Nat ⊕ Val) → Int
  /-- The regions that can be named without a pointer to them. -/
  isGlobal : Nat → Prop
  eval : OpId → Nat → List Val → Option (List Val × Nat)
  call : OpId → Nat → World → List Val → Mem → Option (Outcome World)
  eval_mentions : ∀ {id attrs args results choice}, eval id attrs args = some (results, choice) →
    ∀ v ∈ results, ∀ r, Mentions v r →
      (∃ a ∈ args, Mentions a r) ∨ ∃ n, r = .external n ∧ isGlobal n
  /-- Regions are only added, and none in the name of an alloca of the
      caller. -/
  call_grows : ∀ {id attrs w args m out}, call id attrs w args m = some out →
    m.next ≤ out.mem.next ∧ out.mem.count = m.count
  call_bounded : ∀ {id attrs w args m out}, call id attrs w args m = some out →
    (∀ n, isGlobal n → n < m.next) → (∀ a ∈ args, ∀ r, Mentions a r → m.Exists r) → m.Bounded →
    (∀ v ∈ out.results, ∀ r, Mentions v r → out.mem.Exists r) ∧ out.mem.Bounded
  /-- Regions of the caller that neither the arguments nor the rest of memory
      mention are out of the call's reach. -/
  call_hidden : ∀ {id attrs w args m out} {P : RegionId → Prop}, call id attrs w args m = some out →
    (∀ n, ¬ P (.external n)) → (∀ a ∈ args, ∀ r, Mentions a r → ¬ P r) → m.Hides P →
    (∀ v ∈ out.results, ∀ r, Mentions v r → ¬ P r) ∧ out.mem.Hides P ∧
    (∀ r, P r → out.mem.bytes r = m.bytes r) ∧
    ∀ m', Mem.AgreeOutside P m m' → ∃ mem', call id attrs w args m'
        = some ⟨out.world, out.results, mem', out.choice⟩ ∧
      Mem.AgreeOutside P out.mem mem' ∧ ∀ r, P r → mem'.bytes r = m'.bytes r

/-! ## Execution -/

/-- The values defined so far. -/
abbrev Vals := Value → Option Val

namespace Vals

def getAll (env : Vals) (vs : List Value) : Option (List Val) := vs.mapM env

/-- Define several values at once. -/
def setAll (env : Vals) : List Value → List Val → Vals
  | v :: vs, x :: xs => setAll (Function.update env v (some x)) vs xs
  | _, _ => env

end Vals

/-- A point of an execution: the rest of the current block, the values, the
    memory and the outside world. -/
structure State (M : Machine) where
  block : Nat
  rest : List Op
  env : Vals
  mem : Mem
  world : M.World

/-- What can be seen of memory once the given allocas are out of reach. -/
def visible (hidden : Value → Bool) (m : Mem) : RegionId → Int → Option MByte
  | .slot a n, o => if hidden a then none else some (m.bytes (.slot a n) o)
  | .external n, o => some (m.bytes (.external n) o)

/-- What can be observed of an execution: loaded values, operations with their
    arguments, and memory at calls and at the exit. -/
inductive Event where
  | read (bits : Val)
  | op (id : OpId) (attrs : Nat) (args : List Val)
  | call (id : OpId) (attrs : Nat) (args : List Val) (mem : RegionId → Int → Option MByte)
  | exit (mem : RegionId → Int → Option MByte)

namespace Machine

variable (M : Machine) (g : Region) (hidden : Value → Bool)

/-- An index as the offset computation sees it. -/
def index (env : Vals) : GepIndex → Option (Nat ⊕ Val)
  | .constant c => some (.inl c)
  | .value v => (env v).map .inr

/-- Run a generic operation on its operands. -/
def perform (id : OpId) (attrs : Nat) (args : List Val) (world : M.World) (mem : Mem) :
    Option (Outcome M.World × Event) :=
  if memoryBenign id then
    (M.eval id attrs args).map fun (results, choice) =>
      (⟨world, results, mem, choice⟩, .op id attrs args)
  else
    (M.call id attrs world args mem).map fun out => (out, .call id attrs args (visible hidden mem))

/-- Where control goes after a generic operation. -/
def proceed (s : State M) (rest : List Op) (succs : List Successor) (env : Vals)
    (out : Outcome M.World) : Option (State M × List Event) :=
  match succs with
  | [] => some (⟨s.block, rest, env, out.mem, out.world⟩,
      if rest = [] then [.exit (visible hidden out.mem)] else [])
  | _ :: _ => do
    let t ← succs[out.choice]?
    let xs ← env.getAll t.args
    some (⟨t.dest, (g.block t.dest).ops, env.setAll (g.block t.dest).params xs, out.mem, out.world⟩,
      [])

/-- One operation. -/
def step (s : State M) : Option (State M × List Event) :=
  match s.rest with
  | [] => none
  | .alloca r _ _ :: rest =>
    some ({ s with
      rest
      env := Function.update s.env r (some (pointer (s.mem.fresh r) 0))
      mem := s.mem.alloc r }, [])
  | .gep r base ty indices :: rest => do
    let (region, offset) ← (← s.env base) |> asPointer
    let is ← indices.mapM (index s.env)
    some ({ s with
      rest
      env := Function.update s.env r (some (pointer region (offset + M.gepOffset ty is))) }, [])
  | .bitcast r arg :: rest => do
    let x ← s.env arg
    some ({ s with rest, env := Function.update s.env r (some x) }, [])
  | .load r address :: rest => do
    let (region, offset) ← (← s.env address) |> asPointer
    let x := s.mem.read region offset (M.sizeOf r.ty)
    some ({ s with rest, env := Function.update s.env r (some x) }, [.read x])
  | .store value address :: rest => do
    let x ← s.env value
    let (region, offset) ← (← s.env address) |> asPointer
    some ({ s with rest, mem := s.mem.write region offset x }, [])
  | .generic id attrs results operands succs :: rest => do
    let args ← s.env.getAll operands
    let (out, event) ← M.perform hidden id attrs args s.world s.mem
    let (s', events) ← M.proceed g hidden s rest succs (s.env.setAll results out.results) out
    some (s', event :: events)

/-- The steps, one operation form at a time. -/
inductive Step : State M → State M → List Event → Prop where
  | alloca {b : Nat} {r count : Value} {ty : Ty} {rest : List Op} {env : Vals} {m : Mem}
      {w : M.World} :
      Step ⟨b, .alloca r ty count :: rest, env, m, w⟩
        ⟨b, rest, Function.update env r (some (pointer (m.fresh r) 0)), m.alloc r, w⟩ []
  | gep {b : Nat} {r base : Value} {ty : Ty} {indices : List GepIndex} {rest : List Op} {env : Vals}
      {m : Mem} {w : M.World} {region : RegionId} {offset : Int} {is : List (Nat ⊕ Val)}
      (hbase : env base = some (pointer region offset))
      (hindices : indices.mapM (index env) = some is) :
      Step ⟨b, .gep r base ty indices :: rest, env, m, w⟩
        ⟨b, rest, Function.update env r (some (pointer region (offset + M.gepOffset ty is))), m, w⟩
        []
  | bitcast {b : Nat} {r arg : Value} {rest : List Op} {env : Vals} {m : Mem} {w : M.World}
      {x : Val} (harg : env arg = some x) :
      Step ⟨b, .bitcast r arg :: rest, env, m, w⟩
        ⟨b, rest, Function.update env r (some x), m, w⟩ []
  | load {b : Nat} {r address : Value} {rest : List Op} {env : Vals} {m : Mem} {w : M.World}
      {region : RegionId} {offset : Int} (haddress : env address = some (pointer region offset)) :
      Step ⟨b, .load r address :: rest, env, m, w⟩
        ⟨b, rest, Function.update env r (some (m.read region offset (M.sizeOf r.ty))), m, w⟩
        [.read (m.read region offset (M.sizeOf r.ty))]
  | store {b : Nat} {value address : Value} {rest : List Op} {env : Vals} {m : Mem} {w : M.World}
      {x : Val} {region : RegionId} {offset : Int} (hvalue : env value = some x)
      (haddress : env address = some (pointer region offset)) :
      Step ⟨b, .store value address :: rest, env, m, w⟩
        ⟨b, rest, env, m.write region offset x, w⟩ []
  | next {b attrs : Nat} {opid : OpId} {results operands : List Value} {rest : List Op}
      {env : Vals} {m : Mem} {w : M.World} {args : List Val} {out : Outcome M.World} {event : Event}
      (hargs : env.getAll operands = some args)
      (hperform : M.perform hidden opid attrs args w m = some (out, event)) :
      Step ⟨b, .generic opid attrs results operands [] :: rest, env, m, w⟩
        ⟨b, rest, env.setAll results out.results, out.mem, out.world⟩
        (event :: if rest = [] then [.exit (visible hidden out.mem)] else [])
  | jump {b attrs : Nat} {opid : OpId} {results operands : List Value} {succs : List Successor}
      {rest : List Op} {env : Vals} {m : Mem} {w : M.World} {args xs : List Val}
      {out : Outcome M.World} {event : Event} {t : Successor}
      (hargs : env.getAll operands = some args)
      (hperform : M.perform hidden opid attrs args w m = some (out, event))
      (ht : succs[out.choice]? = some t)
      (hxs : (env.setAll results out.results).getAll t.args = some xs) :
      Step ⟨b, .generic opid attrs results operands succs :: rest, env, m, w⟩
        ⟨t.dest, (g.block t.dest).ops,
          (env.setAll results out.results).setAll (g.block t.dest).params xs, out.mem, out.world⟩
        [event]

/-- `n` operations, or fewer when the execution stops. -/
def run : Nat → State M → State M × List Event
  | 0, s => (s, [])
  | n + 1, s =>
    match M.step g hidden s with
    | none => (s, [])
    | some (s', events) => ((run n s').1, events ++ (run n s').2)

end Machine

/-- A state a function can be called in. -/
structure Entry (M : Machine) where
  /-- The values of the entry block's parameters, and of no other. -/
  args : List Val
  mem : Mem
  world : M.World
  fresh : ∀ a, mem.count a = 0
  bounded : mem.Bounded
  args_bounded : ∀ a ∈ args, ∀ r, Mentions a r → mem.Exists r
  globals : ∀ n, M.isGlobal n → n < mem.next

/-- The first state of a call. -/
def Entry.state {M : Machine} (e : Entry M) (g : Region) : State M :=
  ⟨0, (g.block 0).ops, Vals.setAll (fun _ => none) (g.block 0).params e.args, e.mem, e.world⟩

/-! ## Pointers -/

theorem asPointer_eq {v : Val} {r : RegionId} {o : Int} (h : asPointer v = some (r, o)) :
    v = pointer r o := by
  unfold asPointer at h
  split at h
  · split at h
    · cases h
      assumption
    · cases h
  · cases h

theorem mentions_pointer {r r' : RegionId} {o : Int} : Mentions (pointer r o) r' ↔ r' = r := by
  unfold Mentions pointer
  constructor
  · rintro ⟨o', i, h⟩
    obtain ⟨j, -, hj⟩ := List.mem_map.mp h
    cases hj
    rfl
  · rintro rfl
    exact ⟨o, 0, List.mem_map.mpr ⟨0, by simp, rfl⟩⟩

theorem asPointer_pointer (r : RegionId) (o : Int) : asPointer (pointer r o) = some (r, o) := by
  unfold pointer
  simp only [List.range_succ_eq_map, List.map_cons, asPointer]
  rw [if_pos]
  unfold pointer
  simp only [List.range_succ_eq_map, List.map_cons]

/-! ## Steps -/

namespace Machine

variable {M : Machine} {g : Region} {hidden : Value → Bool}

theorem step_eq_of_step {s s' : State M} {events : List Event}
    (h : M.Step g hidden s s' events) : M.step g hidden s = some (s', events) := by
  cases h with
  | alloca => rfl
  | gep hbase hindices => simp [step, hbase, hindices, asPointer_pointer]
  | bitcast harg => simp [step, harg]
  | load haddress => simp [step, haddress, asPointer_pointer]
  | store hvalue haddress => simp [step, hvalue, haddress, asPointer_pointer]
  | next hargs hperform => simp [step, hargs, hperform, proceed]
  | @jump _ _ _ _ _ succs _ _ _ _ _ _ _ _ _ hargs hperform ht hxs =>
    cases succs with
    | nil => simp at ht
    | cons t' succs => simp [step, hargs, hperform, proceed, ht, hxs]

theorem step_of_step_eq {s s' : State M} {events : List Event}
    (h : M.step g hidden s = some (s', events)) : M.Step g hidden s s' events := by
  obtain ⟨b, ops, env, m, w⟩ := s
  cases ops with
  | nil => cases h
  | cons op rest =>
    cases op with
    | alloca r ty count =>
      cases h
      exact .alloca
    | gep r base ty indices =>
      simp only [step, Option.bind_eq_bind, Option.bind_eq_some_iff] at h
      obtain ⟨x, hx, ⟨region, offset⟩, hp, is, his, heq⟩ := h
      cases heq
      exact .gep (hx.trans (congrArg some (asPointer_eq hp))) his
    | bitcast r arg =>
      simp only [step, Option.bind_eq_bind, Option.bind_eq_some_iff] at h
      obtain ⟨x, hx, heq⟩ := h
      cases heq
      exact .bitcast hx
    | load r address =>
      simp only [step, Option.bind_eq_bind, Option.bind_eq_some_iff] at h
      obtain ⟨x, hx, ⟨region, offset⟩, hp, heq⟩ := h
      cases heq
      exact .load (hx.trans (congrArg some (asPointer_eq hp)))
    | store value address =>
      simp only [step, Option.bind_eq_bind, Option.bind_eq_some_iff] at h
      obtain ⟨x, hx, y, hy, ⟨region, offset⟩, hp, heq⟩ := h
      cases heq
      exact .store hx (hy.trans (congrArg some (asPointer_eq hp)))
    | generic opid attrs results operands succs =>
      simp only [step, Option.bind_eq_bind, Option.bind_eq_some_iff] at h
      obtain ⟨args, hargs, ⟨out, event⟩, hperform, ⟨s'', es⟩, hproceed, heq⟩ := h
      cases heq
      cases succs with
      | nil =>
        cases hproceed
        exact .next hargs hperform
      | cons t' succs =>
        simp only [proceed, Option.bind_eq_bind, Option.bind_eq_some_iff] at hproceed
        obtain ⟨t, ht, xs, hxs, heq⟩ := hproceed
        cases heq
        exact .jump hargs hperform ht hxs

/-- A stopped execution stays where it is. -/
theorem run_stopped {s : State M} (h : M.step g hidden s = none) (n : Nat) :
    M.run g hidden n s = (s, []) := by
  cases n with
  | zero => rfl
  | succ n => rw [run, h]

/-- A run in two parts. -/
theorem run_add (m n : Nat) (s : State M) : M.run g hidden (m + n) s
    = ((M.run g hidden n (M.run g hidden m s).1).1,
      (M.run g hidden m s).2 ++ (M.run g hidden n (M.run g hidden m s).1).2) := by
  induction m generalizing s with
  | zero =>
    rw [Nat.zero_add]
    rfl
  | succ m ih =>
    rw [Nat.succ_add, run, run]
    cases hs : M.step g hidden s with
    | none => simp only [run_stopped hs, List.append_nil]
    | some step => simp only [ih, List.append_assoc]

/-- What an operation without an address of its own may be: an evaluation, or
    a call with everything in sight. -/
theorem perform_cases {opid : OpId} {attrs : Nat} {args : List Val} {w : M.World} {m : Mem}
    {out : Outcome M.World} {event : Event}
    (h : M.perform hidden opid attrs args w m = some (out, event)) :
    (memoryBenign opid = true ∧ M.eval opid attrs args = some (out.results, out.choice) ∧
      out.mem = m ∧ out.world = w ∧ event = .op opid attrs args) ∨
    (memoryBenign opid = false ∧ M.call opid attrs w args m = some out ∧
      event = .call opid attrs args (visible hidden m)) := by
  unfold perform at h
  split at h
  · obtain ⟨⟨results, choice⟩, heval, heq⟩ := Option.map_eq_some_iff.mp h
    cases heq
    exact Or.inl ⟨‹_›, heval, rfl, rfl, rfl⟩
  · obtain ⟨out', hcall, heq⟩ := Option.map_eq_some_iff.mp h
    cases heq
    exact Or.inr ⟨Bool.eq_false_of_not_eq_true ‹_›, hcall, rfl⟩

end Machine

/-! ## Memory -/

namespace Mem

theorem mentions_read {m : Mem} {r r' : RegionId} {n : Nat} {o : Int} (h : Mentions (m.read r o n) r') :
    ∃ o₁ o₂ i, m.bytes r o₁ = .fragment r' o₂ i := by
  obtain ⟨o₂, i, h⟩ := h
  obtain ⟨j, -, hj⟩ := List.mem_map.mp h
  exact ⟨_, o₂, i, hj⟩

/-- A written byte is a byte of the value. -/
theorem write_bytes (m : Mem) (r : RegionId) (o : Int) (v : Val) (r' : RegionId) (o' : Int) :
    (m.write r o v).bytes r' o' = m.bytes r' o' ∨ (m.write r o v).bytes r' o' ∈ v := by
  unfold write
  simp only
  split
  · rename_i h
    refine Or.inr ?_
    have hlt : (o' - o).toNat < v.length := by omega
    rw [List.getD_eq_getElem?_getD, List.getElem?_eq_getElem hlt]
    exact List.getElem_mem hlt
  · exact Or.inl rfl

/-- Inside the written range the old contents do not matter. -/
theorem write_bytes_inside (m m' : Mem) {r : RegionId} {o o' : Int} {v : Val} (hlo : o ≤ o')
    (hhi : o' < o + v.length) : (m.write r o v).bytes r o' = (m'.write r o v).bytes r o' := by
  have hin : r = r ∧ o ≤ o' ∧ o' < o + v.length := ⟨rfl, hlo, hhi⟩
  exact (if_pos hin).trans (if_pos hin).symm

/-- Outside it they stay. -/
theorem write_bytes_outside (m : Mem) {r r' : RegionId} {o o' : Int} {v : Val}
    (h : ¬ (r' = r ∧ o ≤ o' ∧ o' < o + v.length)) :
    (m.write r o v).bytes r' o' = m.bytes r' o' := by
  unfold write
  simp only
  rw [if_neg h]

end Mem

/-- The regions of the given allocas. -/
def Private (N : Value → Prop) : RegionId → Prop
  | .slot a _ => N a
  | .external _ => False

/-- Memories that agree on the regions in sight look the same. -/
theorem visible_congr {hidden : Value → Bool} {m m' : Mem}
    (h : Mem.AgreeOutside (Private (hidden · = true)) m m') :
    visible hidden m' = visible hidden m := by
  funext r o
  cases r with
  | external n =>
    have hb := h.bytes (.external n) (fun hp => hp)
    simp only [visible, hb]
  | slot a n =>
    by_cases ha : hidden a = true
    · simp only [visible, ha, if_true]
    · have hb := h.bytes (.slot a n) ha
      simp only [visible, hb]

/-! ## Environments -/

namespace Vals

theorem getAll_mem {env : Vals} {vs : List Value} {xs : List Val} (h : env.getAll vs = some xs) :
    ∀ x ∈ xs, ∃ v ∈ vs, env v = some x := by
  unfold getAll at h
  induction vs generalizing xs with
  | nil =>
    obtain rfl : xs = [] := by simpa using h.symm
    exact fun x hx => absurd hx List.not_mem_nil
  | cons v vs ih =>
    rw [List.mapM_cons] at h
    cases hv : env v with
    | none => simp [hv] at h
    | some y =>
      cases hrest : vs.mapM env with
      | none => simp [hv, hrest] at h
      | some ys =>
        obtain rfl : xs = y :: ys := by simpa [hv, hrest] using h.symm
        intro x hx
        rcases List.mem_cons.mp hx with rfl | hx
        · exact ⟨v, List.mem_cons_self, hv⟩
        · obtain ⟨w, hw, hx⟩ := ih hrest x hx
          exact ⟨w, List.mem_cons_of_mem _ hw, hx⟩

/-- A property of environments that each definition keeps. -/
theorem setAll_invariant {Q : Vals → Prop} {vs : List Value} {xs : List Val}
    (hstep : ∀ env v x, v ∈ vs → x ∈ xs → Q env → Q (Function.update env v (some x)))
    {env : Vals} (h : Q env) : Q (env.setAll vs xs) := by
  induction vs generalizing xs env with
  | nil => exact h
  | cons v vs ih =>
    cases xs with
    | nil => exact h
    | cons x xs =>
      apply ih
      · exact fun env' v' x' hv hx =>
          hstep env' v' x' (List.mem_cons_of_mem _ hv) (List.mem_cons_of_mem _ hx)
      · exact hstep env v x List.mem_cons_self List.mem_cons_self h

end Vals

end Crabbit.Llvm
