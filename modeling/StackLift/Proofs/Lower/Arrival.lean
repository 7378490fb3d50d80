import StackLift.Proofs.Lower.Unit

/-!
Where the pass over a unit comes to an instruction. After the label at its offset the pass is in
one state, if it comes there at all: there it lowers the instruction, or skips it in code that
control does not come to. The state can be computed, so each of the two can be found out by
running the pass.
-/

namespace StackLift

open Lowering

namespace CodeUnit

/-- The pass lowers the instruction at an offset, and finds the state. -/
def Lowers (unit : CodeUnit) (pool : Pool) (kind : UnitKind) (offset : Nat)
    (i : Instruction) (s : State) : Prop :=
  ∃ labels draft, LabelMap.resolve unit pool (.new unit.displayName) = .ok labels draft ∧
    Visits ⟨pool, labels, kind⟩ unit.instructions { draft } offset i s

/-- The state in which the instruction at an offset of a unit is lowered or skipped. -/
def arrival? (unit : CodeUnit) (pool : Pool) (kind : UnitKind) (k : Nat) : Option State :=
  match LabelMap.resolve unit pool (.new unit.displayName) with
  | .ok labels draft => Lowering.arrival? ⟨pool, labels, kind⟩ unit.instructions { draft } k
  | .error _ _ => none

theorem arrival?_eq_some {unit : CodeUnit} {pool : Pool} {kind : UnitKind} {k : Nat}
    {a : State} : unit.arrival? pool kind k = some a ↔
      ∃ labels draft s, LabelMap.resolve unit pool (.new unit.displayName) = .ok labels draft ∧
        Before ⟨pool, labels, kind⟩ unit.instructions { draft } k s ∧
        arrive ⟨pool, labels, kind⟩ k s = .ok () a := by
  rw [arrival?]
  cases LabelMap.resolve unit pool (.new unit.displayName) with
  | error failed draft => simp
  | ok labels draft =>
      simp only [Lowering.arrival?_eq_some]
      constructor
      · rintro ⟨s, arrives⟩
        exact ⟨labels, draft, s, rfl, arrives⟩
      · rintro ⟨_, _, s, same, arrives⟩
        cases same
        exact ⟨s, arrives⟩

theorem lowers_of_arrival {unit : CodeUnit} {pool : Pool} {kind : UnitKind} {k : Nat}
    {i : Instruction} {a : State} (get : unit.instructions[k]? = some i)
    (arrives : unit.arrival? pool kind k = some a) (live : a.live = true) :
    unit.Lowers pool kind k i a := by
  obtain ⟨labels, draft, s, resolve, before, arrived⟩ := arrival?_eq_some.mp arrives
  exact ⟨labels, draft, resolve, get, ⟨s, before, arrived⟩, live⟩

/-- Control does not come to the offset, and the pass goes past it. -/
def Skips (unit : CodeUnit) (pool : Pool) (kind : UnitKind) (offset : Nat) : Prop :=
  ∃ a ∈ unit.arrival? pool kind offset, a.live = false

instance (unit : CodeUnit) (pool : Pool) (kind : UnitKind) (offset : Nat) :
    Decidable (unit.Skips pool kind offset) :=
  inferInstanceAs (Decidable (∃ a ∈ unit.arrival? pool kind offset, a.live = false))

end CodeUnit

end StackLift
