import StackLift.Proofs.Lower.Arrival
import StackLift.Proofs.Lower.Context

/-!
What the outcome of a compilation does not depend on. Two passes are compared instruction by
instruction: while their steps agree they are in the same state, so they end in the same graph or
stop at the same place with the same fault.

Skipped code takes part in nothing but the resolution of labels, apart from the ends of loops
(`compile_of_rewritesSkipped`). The kind of a unit is asked for at one place, where `break` or
`next` stands outside of every loop (`compile_kinds`).
-/

namespace StackLift

open Lowering

namespace CodeUnit

/-- Control comes to a `break` or `next` outside of every loop. -/
def Strays (unit : CodeUnit) (pool : Pool) (kind : UnitKind) (offset : Nat) : Prop :=
  ∃ i a, unit.Lowers pool kind offset i a ∧ i.Strays a

end CodeUnit

/-! ### Skipped code -/

namespace LabelMap

/-- Labels are resolved by what the instructions name, and by nothing else of them. -/
theorem Resolution.resolveFrom_congr {unit unit' : CodeUnit} {pool : Pool}
    (labels : unit'.labels = unit.labels) (size : unit'.size = unit.size)
    {code code' : List Instruction}
    (targets : code'.map (Instruction.targets pool) = code.map (Instruction.targets pool))
    (offset : Nat) (r : Resolution) :
    resolveFrom unit' pool offset code' r = resolveFrom unit pool offset code r := by
  have bind : ∀ (r : Resolution) (l : Label), r.bind unit' l = r.bind unit l := by
    intro r l
    rw [Resolution.bind, Resolution.bind, CodeUnit.offset?, CodeUnit.offset?, labels, size]
  have bindAll : ∀ (ls : List Label) (r : Resolution), bindAll unit' ls r = bindAll unit ls r := by
    intro ls
    induction ls with
    | nil => exact fun _ => rfl
    | cons l ls ih =>
        intro r
        rw [Resolution.bindAll, Resolution.bindAll, bind]
        cases r.bind unit l with
        | ok r => exact ih r
        | error fault => rfl
  induction code generalizing code' offset r with
  | nil =>
      rw [List.map_nil, List.map_eq_nil_iff] at targets
      rw [targets]
      rfl
  | cons i rest ih =>
      cases code' with
      | nil => cases targets
      | cons i' rest' =>
          obtain ⟨first, others⟩ := List.cons.inj targets
          have step : bindTargets unit' pool i' r = bindTargets unit pool i r := by
            rw [bindTargets, bindTargets, first]
            cases i.targets pool with
            | ok ls => exact bindAll ls r
            | error cause => rfl
          rw [resolveFrom, resolveFrom, step]
          cases bindTargets unit pool i r with
          | ok _ r => exact ih others (offset + 1) r
          | error fault r => rfl

end LabelMap

/-- Skipping an instruction does nothing, unless it is the end of a loop. -/
theorem Lowering.step_of_skipped {ctx : Context} {offset : Nat} {i : Instruction} {s a : State}
    (arrives : arrive ctx offset s = .ok () a) (dead : a.live = false)
    (notEnd : ∀ kind, i ≠ .endLoop kind) : step ctx offset i s = .ok () a := by
  refine step_eq_ok.mpr ⟨a, arrives, .inr ⟨dead, ?_⟩⟩
  cases i with
  | endLoop kind => exact absurd rfl (notEnd kind)
  | _ => rfl

namespace CodeUnit

/-- Instructions that the pass over a unit skips are replaced, at any number of offsets, by others
that name the same labels. Ends of loops stay, and none is put in. -/
structure RewritesSkipped (unit : CodeUnit) (pool : Pool) (kind : UnitKind) (unit' : CodeUnit) :
    Prop where
  name : unit'.name = unit.name
  labels : unit'.labels = unit.labels
  size : unit'.size = unit.size
  code : ∀ {offset : Nat} {i i' : Instruction}, unit.instructions[offset]? = some i →
    unit'.instructions[offset]? = some i' → i' ≠ i →
    unit.Skips pool kind offset ∧ i'.targets pool = i.targets pool ∧
      (∀ kind, i ≠ .endLoop kind) ∧ ∀ kind, i' ≠ .endLoop kind

namespace RewritesSkipped

variable {unit unit' : CodeUnit} {pool : Pool} {kind : UnitKind}
  (rewrites : unit.RewritesSkipped pool kind unit')

include rewrites

theorem displayName : unit'.displayName = unit.displayName := by
  rw [CodeUnit.displayName, CodeUnit.displayName, rewrites.name]

theorem targets : unit'.instructions.map (Instruction.targets pool) =
    unit.instructions.map (Instruction.targets pool) := by
  refine List.ext_getElem ?_ fun offset lt' lt => ?_
  · rw [List.length_map, List.length_map]
    exact rewrites.size
  · rw [List.length_map] at lt lt'
    rw [List.getElem_map, List.getElem_map]
    by_cases same : unit'.instructions[offset] = unit.instructions[offset]
    · rw [same]
    · exact (rewrites.code (List.getElem?_eq_getElem lt) (List.getElem?_eq_getElem lt') same).2.1

theorem resolve : LabelMap.resolve unit' pool (.new unit'.displayName) =
    LabelMap.resolve unit pool (.new unit.displayName) := by
  rw [LabelMap.resolve, LabelMap.resolve, rewrites.displayName,
    LabelMap.Resolution.resolveFrom_congr rewrites.labels rewrites.size rewrites.targets]

/-- Both passes do the same at every offset. -/
theorem step {labels : LabelMap} {draft : Draft}
    (known : LabelMap.resolve unit pool (.new unit.displayName) = .ok labels draft) {offset : Nat}
    {i i' : Instruction} {s : State} (get : unit.instructions[offset]? = some i)
    (get' : unit'.instructions[offset]? = some i')
    (before : Before ⟨pool, labels, kind⟩ unit.instructions { draft } offset s) :
    Lowering.step ⟨pool, labels, kind⟩ offset i' s =
      Lowering.step ⟨pool, labels, kind⟩ offset i s := by
  by_cases same : i' = i
  · rw [same]
  · obtain ⟨⟨a, arrival, dead⟩, -, notEnd, notEnd'⟩ := rewrites.code get get' same
    obtain ⟨labels₁, draft₁, s₁, known₁, before₁, arrives⟩ := arrival?_eq_some.mp arrival
    rw [known] at known₁
    cases known₁
    cases before.unique before₁
    rw [step_of_skipped arrives dead notEnd, step_of_skipped arrives dead notEnd']

/-- Both passes are in the same state before every offset. -/
theorem run_take {labels : LabelMap} {draft : Draft}
    (known : LabelMap.resolve unit pool (.new unit.displayName) = .ok labels draft) (n : Nat) :
    Lowering.run ⟨pool, labels, kind⟩ 0 (unit'.instructions.take n) { draft } =
      Lowering.run ⟨pool, labels, kind⟩ 0 (unit.instructions.take n) { draft } := by
  have size : unit'.instructions.length = unit.instructions.length := rewrites.size
  refine run_eq_of_steps (by rw [List.length_take, List.length_take, size]) ?_
  intro offset i i' s get get' before
  have lt : offset < n := by
    have := (List.getElem?_eq_some_iff.mp get).1
    rw [List.length_take] at this
    omega
  rw [List.getElem?_take_of_lt lt] at get get'
  rw [Before, List.take_take, Nat.min_eq_left (Nat.le_of_lt lt)] at before
  exact rewrites.step known get get' before

theorem arrival? (offset : Nat) :
    unit'.arrival? pool kind offset = unit.arrival? pool kind offset := by
  rw [CodeUnit.arrival?, CodeUnit.arrival?, rewrites.resolve]
  cases known : LabelMap.resolve unit pool (.new unit.displayName) with
  | error failed draft => rfl
  | ok labels draft => simp only [Lowering.arrival?, rewrites.run_take known]

end RewritesSkipped

end CodeUnit

/-- Skipped code has no influence on the outcome. When instructions that the pass skips are
replaced by others that name the same labels, ends of loops apart, the unit compiles to the same
graph, or stops at the same place with the same fault; and what was skipped still is. -/
theorem compile_of_rewritesSkipped (unit unit' : CodeUnit) (pool : Pool) (options : Options)
    (rewrites : unit.RewritesSkipped pool options.unitKind unit') :
    unit'.compile pool options = unit.compile pool options ∧
      ∀ offset, unit'.Skips pool options.unitKind offset ↔
        unit.Skips pool options.unitKind offset := by
  refine ⟨?_, fun offset => ?_⟩
  · rw [CodeUnit.compile, CodeUnit.compile, CodeUnit.lower, CodeUnit.lower, rewrites.resolve,
      rewrites.size]
    cases known : LabelMap.resolve unit pool (.new unit.displayName) with
    | error failed draft => rfl
    | ok labels draft =>
        have run := rewrites.run_take known unit.size
        rw [CodeUnit.size, List.take_length, ← CodeUnit.size, ← rewrites.size, CodeUnit.size,
          List.take_length] at run
        simp only [run]
  · rw [CodeUnit.Skips, CodeUnit.Skips, rewrites.arrival?]

/-- A jump behind the return, over code that pops from an empty stack. -/
def deadJump : CodeUnit where
  name := none
  instructions := [.load .null, .ret, .pop, .goto ⟨0⟩, .load .null, .ret]
  labels := [some 4]

/-- In place of the jump, a loop that ends at the same label. -/
def deadLoop : CodeUnit where
  name := none
  instructions := [.load .null, .ret, .dollar ⟨0⟩ ⟨0⟩, .startLoop ⟨0⟩, .load .null, .ret]
  labels := [some 4]

/-- An instruction that is not supported and a loop that is never closed do no harm where they
are skipped. -/
theorem compile_of_rewritesSkipped_deadLoop :
    deadJump.RewritesSkipped ⟨[]⟩ .function deadLoop ∧
    ∃ g, deadJump.compile ⟨[]⟩ {} = .ok g ∧ deadLoop.compile ⟨[]⟩ {} = .ok g := by
  have rewrites : deadJump.RewritesSkipped ⟨[]⟩ .function deadLoop := by
    refine ⟨rfl, rfl, rfl, ?_⟩
    rintro (_ | _ | _ | _ | _ | _ | offset) i i' get get' differs <;> cases get <;> cases get'
    · exact absurd rfl differs
    · exact absurd rfl differs
    · exact ⟨by decide +kernel, rfl, by simp, by simp⟩
    · exact ⟨by decide +kernel, rfl, by simp, by simp⟩
    · exact absurd rfl differs
    · exact absurd rfl differs
  have found : ∃ g ∈ (deadJump.compile ⟨[]⟩ {}).toOption, True := by decide +kernel
  obtain ⟨g, compiles, -⟩ := exists_ok_of_toOption found
  have same := (compile_of_rewritesSkipped deadJump deadLoop ⟨[]⟩ {} rewrites).1
  exact ⟨rewrites, g, compiles, same.trans compiles⟩

/-! ### The kind of a unit -/

namespace CodeUnit

variable {unit : CodeUnit} {pool : Pool} {kind : UnitKind} {offset : Nat} {i : Instruction}
  {a : State}

/-- Up to an instruction that is lowered, the pass goes the same way in units of all kinds. -/
theorem Lowers.of_kind (lowers : unit.Lowers pool kind offset i a) (kind' : UnitKind) :
    unit.Lowers pool kind' offset i a := by
  obtain ⟨labels, draft, known, get, ⟨s, before, arrives⟩, live⟩ := lowers
  have agrees := Context.agrees_kind pool labels kind kind'
  have before' : Before ⟨pool, labels, kind'⟩ unit.instructions { draft } offset s :=
    run_congr 0 agrees (fun _ _ _ => rfl) before
  exact ⟨labels, draft, known, get, ⟨s, before', arrives⟩, live⟩

theorem Lowers.lower_of_strays (lowers : unit.Lowers pool kind offset i a) (strays : i.Strays a) :
    unit.lower pool kind = .error ⟨a.locate offset, kind.strayFault⟩ := by
  obtain ⟨labels, draft, known, get, ⟨s, before, arrives⟩, live⟩ := lowers
  have run := before.run_eq_error get (step_of_strays arrives live strays)
  simp only [CodeUnit.lower, known, run]

/-- Where nothing strays, the whole pass goes the same way. -/
theorem lower_eq_of_not_strays (stays : ∀ offset, ¬ unit.Strays pool kind offset)
    (kind' : UnitKind) : unit.lower pool kind' = unit.lower pool kind := by
  rw [CodeUnit.lower, CodeUnit.lower]
  cases known : LabelMap.resolve unit pool (.new unit.displayName) with
  | error failed draft => rfl
  | ok labels draft =>
      have agrees := Context.agrees_kind pool labels kind kind'
      have run : Lowering.run ⟨pool, labels, kind'⟩ 0 unit.instructions { draft } =
          Lowering.run ⟨pool, labels, kind⟩ 0 unit.instructions { draft } := by
        refine run_eq_of_steps rfl fun {offset i i' s} get get' before => ?_
        obtain rfl : i = i' := Option.some.inj (get.symm.trans get')
        refine step_eq_of_agrees agrees rfl rfl fun a arrives live strays => ?_
        exact stays offset ⟨i, a, ⟨labels, draft, known, get, ⟨s, before, arrives⟩, live⟩, strays⟩
      simp only [run]

end CodeUnit

/-- The kind of a unit has no influence on a translation that succeeds. Units of any two kinds
compile to the same graph, or stop at the same place. Then also the faults are the same, unless
the units stop at a `break` or `next` outside of every loop; there each kind has its own fault. -/
theorem compile_kinds (unit : CodeUnit) (pool : Pool) (options : Options) (kind kind' : UnitKind) :
    (∃ g, unit.compile pool { options with unitKind := kind } = .ok g ∧
      unit.compile pool { options with unitKind := kind' } = .ok g) ∨
    ∃ location fault fault',
      unit.compile pool { options with unitKind := kind } = .error ⟨location, fault⟩ ∧
      unit.compile pool { options with unitKind := kind' } = .error ⟨location, fault'⟩ ∧
      (¬ unit.Strays pool kind location.offset → fault = fault') ∧
      (unit.Strays pool kind location.offset → unit.Strays pool kind' location.offset ∧
        fault = kind.strayFault ∧ fault' = kind'.strayFault) := by
  simp only [CodeUnit.compile]
  by_cases somewhere : ∃ offset, unit.Strays pool kind offset
  · obtain ⟨offset, i, a, lowers, strays⟩ := somewhere
    have lowers' := lowers.of_kind kind'
    rw [lowers.lower_of_strays strays, lowers'.lower_of_strays strays]
    refine .inr ⟨a.locate offset, kind.strayFault, kind'.strayFault, rfl, rfl, ?_, ?_⟩
    · exact fun not => absurd ⟨i, a, lowers, strays⟩ not
    · exact fun _ => ⟨⟨i, a, lowers', strays⟩, rfl, rfl⟩
  · rw [CodeUnit.lower_eq_of_not_strays (not_exists.mp somewhere) kind']
    cases unit.lower pool kind with
    | ok g => exact .inl ⟨_, rfl, rfl⟩
    | error e =>
        refine .inr ⟨e.location, e.fault, e.fault, rfl, rfl, fun _ => rfl, fun strays => ?_⟩
        exact absurd ⟨_, strays⟩ somewhere

/-- A loop that is left at once, and a `next` behind it. -/
def nextAfterLoop : CodeUnit where
  name := none
  instructions := [.startLoop ⟨0⟩, .leaveLoop .leave, .endLoop .whileOrRepeat, .leaveLoop .next]
  labels := [some 2]

/-- The `break` finds its loop, the `next` does not. -/
theorem compile_kinds_nextAfterLoop : nextAfterLoop.Strays ⟨[]⟩ .promise 3 ∧
    nextAfterLoop.compile ⟨[]⟩ { unitKind := .promise } =
      .error ⟨⟨3, ⟨1⟩, 0⟩, .unsupported .leavesCallersLoop⟩ ∧
    nextAfterLoop.compile ⟨[]⟩ {} = .error ⟨⟨3, ⟨1⟩, 0⟩, .bracketUnderflow .loop⟩ := by
  have visited : ∃ a ∈ nextAfterLoop.arrival? ⟨[]⟩ .promise 3, a.live = true ∧ a.loops = [] := by
    decide +kernel
  obtain ⟨a, arrives, live, none⟩ := visited
  have strays : nextAfterLoop.Strays ⟨[]⟩ .promise 3 :=
    ⟨_, a, CodeUnit.lowers_of_arrival rfl arrives live, ⟨.next, rfl⟩, none⟩
  have fails : nextAfterLoop.compile ⟨[]⟩ { unitKind := .promise } =
      .error ⟨⟨3, ⟨1⟩, 0⟩, .unsupported .leavesCallersLoop⟩ :=
    eq_error_of_error? (by decide +kernel)
  refine ⟨strays, fails, ?_⟩
  rcases compile_kinds nextAfterLoop ⟨[]⟩ {} .promise .function with
    ⟨g, compiles, -⟩ | ⟨location, fault, fault', failed, failed', -, stray⟩
  · rw [fails] at compiles
    cases compiles
  · rw [fails] at failed
    cases failed
    rw [failed', (stray strays).2.2]
    rfl

end StackLift
