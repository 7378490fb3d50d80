import StackLift.Fault

/-!
Open brackets of one kind, the innermost first. Brackets nest, so only the
innermost one is looked at or changed.
-/

namespace StackLift.Bracket

/-- The innermost bracket, and the others. -/
def pop {α : Type} (kind : Bracket) : List α → Except Fault (α × List α)
  | a :: rest => .ok (a, rest)
  | [] => .error (.bracketUnderflow kind)

def top {α : Type} (kind : Bracket) : List α → Except Fault α
  | a :: _ => .ok a
  | [] => .error (.bracketUnderflow kind)

/-- Changes the innermost bracket. -/
def updateTop {α : Type} (kind : Bracket) (f : α → Except Fault α) :
    List α → Except Fault (List α)
  | a :: rest => (f a).map (· :: rest)
  | [] => .error (.bracketUnderflow kind)

/-- Keeps the `depth` outermost brackets. -/
def truncate {α : Type} (depth : Nat) (items : List α) : List α :=
  items.drop (items.length - depth)

theorem length_truncate {α : Type} (depth : Nat) (items : List α) :
    (truncate depth items).length = min depth items.length := by
  simp [truncate]
  omega

end StackLift.Bracket

namespace StackLift

/-- How many calls, assignments and dispatches are open. -/
structure OpenDepths where
  calls : Nat
  assigns : Nat
  dispatches : Nat
deriving DecidableEq

/-- The brackets open along both of two edges. -/
def OpenDepths.min (a b : OpenDepths) : OpenDepths :=
  ⟨Nat.min a.calls b.calls, Nat.min a.assigns b.assigns, Nat.min a.dispatches b.dispatches⟩

/-- A loop under construction: where `next` and `break` lead, and the brackets
that were open when it began. -/
structure LoopContext where
  kind : LoopKind
  next : BlockId
  loopEnd : BlockId
  opened : OpenDepths
deriving DecidableEq

end StackLift
