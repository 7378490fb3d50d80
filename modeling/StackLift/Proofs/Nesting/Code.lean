import StackLift.Proofs.Lower.Brackets

/-!
Brackets in the code of a unit, read from front to back. `nesting` gives what is open
before an offset, whether control reaches it or not. In a nested unit every bracket
is closed by its own instruction, a jump ahead stays among the brackets that it
starts in, and the end label of a loop stands at the instruction that closes it.
-/

namespace StackLift

/-- A bracket that is open: where it was opened, and what it is. -/
structure Opening where
  offset : Nat
  opener : Opener
deriving DecidableEq

namespace Instruction

/-- What is open after an instruction, provided it closes only the innermost bracket. -/
def nest (offset : Nat) (i : Instruction) (outer : List Opening) : Option (List Opening) :=
  match i.opens?, i.closes? with
  | some opener, _ => some (⟨offset, opener⟩ :: outer)
  | none, none => some outer
  | none, some opener =>
    match outer with
    | inner :: rest => if inner.opener = opener then some rest else none
    | [] => none

def opensLoop? (i : Instruction) : Option LoopKind :=
  match i.opens? with
  | some (.loop kind) => some kind
  | _ => none

/-- What is open at the labels of an instruction. A loop is open at its end label. -/
def within (offset : Nat) (i : Instruction) (outer : List Opening) : List Opening :=
  match i.opensLoop? with
  | some kind => ⟨offset, .loop kind⟩ :: outer
  | none => outer

end Instruction

def nestFrom : Nat → List Instruction → List Opening → Option (List Opening)
  | _, [], outer => some outer
  | offset, i :: rest, outer => (i.nest offset outer).bind (nestFrom (offset + 1) rest)

/-- What is open before an offset, the innermost first. -/
def nesting (code : List Instruction) (offset : Nat) : Option (List Opening) :=
  nestFrom 0 (code.take offset) []

/-- Every bracket is closed by an instruction of its own kind, and properly nested. -/
def CodeUnit.Balanced (unit : CodeUnit) : Prop :=
  nesting unit.instructions unit.size = some []

/-- Where an instruction jumps ahead to, the same is open as where it stands. -/
def CodeUnit.StaysInside (unit : CodeUnit) (pool : Pool) (k : Nat) (i : Instruction) : Prop :=
  ∀ ls ∈ (i.targets pool).toOption, ∀ l ∈ ls, ∀ j ∈ unit.offset? l, k < j →
    nesting unit.instructions j = (nesting unit.instructions k).map (i.within k)

/-- The end label of a loop stands at an instruction that closes such a loop. -/
def CodeUnit.EndsLoop (unit : CodeUnit) (k : Nat) (i : Instruction) : Prop :=
  ∀ kind ∈ i.opensLoop?, ∀ l ∈ i.label?, ∀ j ∈ unit.offset? l,
    k < j ∧ unit.instructions[j]?.bind (·.closes?) = some (.loop kind)

structure CodeUnit.Nested (unit : CodeUnit) (pool : Pool) : Prop where
  balanced : unit.Balanced
  jumps : ∀ k < unit.size, ∀ i ∈ unit.instructions[k]?, unit.StaysInside pool k i
  loops : ∀ k < unit.size, ∀ i ∈ unit.instructions[k]?, unit.EndsLoop k i

instance (unit : CodeUnit) : Decidable unit.Balanced := inferInstanceAs (Decidable (_ = _))

instance (unit : CodeUnit) (pool : Pool) (k : Nat) (i : Instruction) :
    Decidable (unit.StaysInside pool k i) :=
  inferInstanceAs (Decidable (∀ _, _))

instance (unit : CodeUnit) (k : Nat) (i : Instruction) : Decidable (unit.EndsLoop k i) :=
  inferInstanceAs (Decidable (∀ _, _))

instance (unit : CodeUnit) (pool : Pool) : Decidable (unit.Nested pool) :=
  decidable_of_iff (unit.Balanced ∧
      (∀ k < unit.size, ∀ i ∈ unit.instructions[k]?, unit.StaysInside pool k i) ∧
      ∀ k < unit.size, ∀ i ∈ unit.instructions[k]?, unit.EndsLoop k i)
    ⟨fun ⟨balanced, jumps, loops⟩ => ⟨balanced, jumps, loops⟩,
      fun ⟨balanced, jumps, loops⟩ => ⟨balanced, jumps, loops⟩⟩

/-! ### One instruction -/

section

variable {i : Instruction} {k : Nat} {outer inner : List Opening} {opener : Opener}

theorem opens?_of_closes (closes : i.closes? = some opener) : i.opens? = none := by
  cases i <;> first | rfl | cases closes

theorem nest_of_opens (opens : i.opens? = some opener) :
    i.nest k outer = some (⟨k, opener⟩ :: outer) := by
  rw [Instruction.nest, opens]

theorem nest_of_neither (opens : i.opens? = none) (closes : i.closes? = none) :
    i.nest k outer = some outer := by
  rw [Instruction.nest, opens, closes]

theorem nest_of_closes (closes : i.closes? = some opener) (h : i.nest k outer = some inner) :
    ∃ j, outer = ⟨j, opener⟩ :: inner := by
  rw [Instruction.nest, opens?_of_closes closes, closes] at h
  cases outer with
  | nil => cases h
  | cons o rest =>
      simp only at h
      split at h
      case isTrue same =>
        cases h
        exact ⟨o.offset, by rw [← same]⟩
      case isFalse => cases h

/-- A bracket that is open after an instruction was open before it, or it opened it. -/
theorem mem_of_nest {o : Opening} (h : i.nest k outer = some inner) (mem : o ∈ inner) :
    o ∈ outer ∨ o.offset = k := by
  cases opens : i.opens? with
  | some opener =>
      rw [nest_of_opens opens] at h
      cases h
      rcases List.mem_cons.mp mem with rfl | mem
      · exact Or.inr rfl
      · exact Or.inl mem
  | none =>
      cases closes : i.closes? with
      | none =>
          rw [nest_of_neither opens closes] at h
          cases h
          exact Or.inl mem
      | some opener =>
          obtain ⟨j, rfl⟩ := nest_of_closes closes h
          exact Or.inl (List.mem_cons_of_mem _ mem)

end

/-! ### All instructions before an offset -/

theorem nestFrom_append (xs ys : List Instruction) (k : Nat) (outer : List Opening) :
    nestFrom k (xs ++ ys) outer = (nestFrom k xs outer).bind (nestFrom (k + xs.length) ys) := by
  induction xs generalizing k outer with
  | nil => rfl
  | cons i xs ih =>
      rw [List.cons_append, nestFrom, nestFrom, List.length_cons, Option.bind_assoc]
      refine congrArg _ (funext fun inner => ?_)
      rw [ih, Nat.add_assoc, Nat.add_comm 1]

/-- Inner brackets were opened later than the outer ones, and all of them earlier. -/
structure Descends (offset : Nat) (outer : List Opening) : Prop where
  later : outer.Pairwise fun a b => b.offset < a.offset
  earlier : ∀ o ∈ outer, o.offset < offset

section

variable {code : List Instruction} {i : Instruction} {k j : Nat} {outer inner : List Opening}

theorem nesting_zero : nesting code 0 = some [] := rfl

theorem nesting_succ (get : code[k]? = some i) :
    nesting code (k + 1) = (nesting code k).bind (i.nest k) := by
  have lt := (List.getElem?_eq_some_iff.mp get).1
  rw [nesting, List.take_add_one, get, Option.toList_some, nestFrom_append, List.length_take,
    Nat.min_eq_left (Nat.le_of_lt lt), Nat.zero_add]
  refine congrArg _ (funext fun inner => ?_)
  rw [nestFrom]
  exact Option.bind_fun_some _

theorem nest_of_nesting (get : code[k]? = some i) (here : nesting code k = some outer)
    (next : nesting code (k + 1) = some inner) : i.nest k outer = some inner := by
  rw [nesting_succ get, here] at next
  exact next

/-- Code whose brackets match up to the end has them match up to every offset. -/
theorem exists_nesting (whole : nesting code code.length = some outer) (k : Nat) :
    ∃ inner, nesting code k = some inner := by
  rw [nesting, List.take_length, ← List.take_append_drop k code, nestFrom_append] at whole
  obtain ⟨inner, here, -⟩ := Option.bind_eq_some_iff.mp whole
  exact ⟨inner, here⟩

/-- Offsets are counted up to the end of the code. -/
theorem nesting_induction {P : Nat → List Opening → Prop} (first : P 0 [])
    (next : ∀ {k : Nat} {i : Instruction} {outer inner : List Opening}, code[k]? = some i →
      nesting code k = some outer → P k outer → i.nest k outer = some inner → P (k + 1) inner)
    (le : k ≤ code.length) (here : nesting code k = some outer) : P k outer := by
  induction k generalizing outer with
  | zero =>
      cases here
      exact first
  | succ k ih =>
      have get : code[k]? = some code[k] := List.getElem?_eq_getElem le
      rw [nesting_succ get] at here
      obtain ⟨before, earlier, nests⟩ := Option.bind_eq_some_iff.mp here
      exact next get earlier (ih (Nat.le_of_succ_le le) earlier) nests

theorem descends_nesting (le : k ≤ code.length) (here : nesting code k = some outer) :
    Descends k outer := by
  refine nesting_induction (P := Descends) ⟨.nil, by simp⟩ ?_ le here
  intro k i outer inner get _ descends nests
  have weaker : Descends (k + 1) outer :=
    ⟨descends.later, fun o mem => Nat.lt_succ_of_lt (descends.earlier o mem)⟩
  cases opens : i.opens? with
  | some opener =>
      rw [nest_of_opens opens] at nests
      cases nests
      refine ⟨.cons descends.earlier descends.later, fun o mem => ?_⟩
      rcases List.mem_cons.mp mem with rfl | mem
      · exact Nat.lt_succ_self k
      · exact weaker.earlier o mem
  | none =>
      cases closes : i.closes? with
      | none =>
          rw [nest_of_neither opens closes] at nests
          cases nests
          exact weaker
      | some opener =>
          obtain ⟨j, rfl⟩ := nest_of_closes closes nests
          exact ⟨weaker.later.of_cons, fun o mem => weaker.earlier o (List.mem_cons_of_mem _ mem)⟩

/-- What is open later and was opened before an offset is open there. -/
theorem mem_nesting_of_later {o : Opening} (le : k ≤ j) (bound : j ≤ code.length)
    (here : nesting code k = some outer) (later : nesting code j = some inner) (mem : o ∈ inner)
    (lt : o.offset < k) : o ∈ outer := by
  refine nesting_induction (P := fun j inner => k ≤ j → ∀ o ∈ inner, o.offset < k → o ∈ outer)
    ?_ ?_ bound later le o mem lt
  · exact fun _ o mem => absurd mem List.not_mem_nil
  · intro j i outer' inner get before ih nests le o mem lt
    rcases Nat.lt_or_eq_of_le le with le | rfl
    · rcases mem_of_nest nests mem with mem | rfl
      · exact ih (Nat.le_of_lt_succ le) o mem lt
      · exact absurd lt (Nat.not_lt_of_le (Nat.le_of_lt_succ le))
    · have next : nesting code (j + 1) = some inner := by
        rw [nesting_succ get, before]
        exact nests
      rw [here] at next
      cases next
      exact mem

end

end StackLift
