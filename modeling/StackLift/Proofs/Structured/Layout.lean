import StackLift.Proofs.Structured.Form
import StackLift.Proofs.Structured.Typing

/-!
Where the parts of a form stand in a unit. The code of a form that starts with a depth of the
stack has a depth at each of its instructions, and the brackets that are open before it are
open after it. Main statements: the parts of a form that `Stands` in a unit stand in it too,
one lemma for each form.
-/

namespace StackLift

/-! ### Parts of a list -/

/-- A property holds of the items of a list, each at its place. -/
def Along {α : Type} (P : Nat → α → Prop) (p : Nat) (xs : List α) : Prop :=
  ∀ j x, xs[j]? = some x → P (p + j) x

section

variable {α : Type} {P : Nat → α → Prop} {p : Nat} {x : α} {xs ys : List α}

theorem along_cons : Along P p (x :: xs) ↔ P p x ∧ Along P (p + 1) xs := by
  constructor
  · intro along
    refine ⟨along 0 x rfl, fun j y get => ?_⟩
    have later := along (j + 1) y get
    rwa [show p + (j + 1) = p + 1 + j by omega] at later
  · rintro ⟨first, rest⟩ j y get
    cases j with
    | zero =>
        cases get
        exact first
    | succ j =>
        rw [show p + (j + 1) = p + 1 + j by omega]
        exact rest j y get

theorem along_append : Along P p (xs ++ ys) ↔ Along P p xs ∧ Along P (p + xs.length) ys := by
  induction xs generalizing p with
  | nil => simp [Along]
  | cons x xs ih =>
      rw [List.cons_append, along_cons, along_cons, ih, and_assoc, List.length_cons,
        show p + (xs.length + 1) = p + 1 + xs.length by omega]

end

/-- A property holds of the offsets from one up to another. -/
def Throughout (P : Nat → Prop) (p q : Nat) : Prop := ∀ k, p ≤ k → k < q → P k

section

variable {P : Nat → Prop} {p q r : Nat}

theorem throughout_self (P : Nat → Prop) (p : Nat) : Throughout P p p := fun _ le lt =>
  absurd lt (Nat.not_lt_of_le le)

theorem throughout_one (holds : P p) : Throughout P p (p + 1) := fun _ le lt =>
  Nat.le_antisymm le (Nat.le_of_lt_succ lt) ▸ holds

theorem Throughout.trans (first : Throughout P p q) (second : Throughout P q r) :
    Throughout P p r := fun k le lt => by
  by_cases before : k < q
  · exact first k le before
  · exact second k (Nat.not_lt.mp before) lt

end

section

variable {i : Instruction} {xs ys : List Instruction} {k : Nat} {outer inner last : List Opening}

theorem nestFrom_cons_eq (first : i.nest k outer = some inner)
    (rest : nestFrom (k + 1) xs inner = some last) : nestFrom k (i :: xs) outer = some last := by
  rw [nestFrom, first, Option.bind_some, rest]

theorem nestFrom_append_eq (first : nestFrom k xs outer = some inner)
    (rest : nestFrom (k + xs.length) ys inner = some last) :
    nestFrom k (xs ++ ys) outer = some last := by
  rw [nestFrom_append, first, Option.bind_some, rest]

end

namespace Form

/-- The code of a form that starts with a depth of the stack, with the depth at each instruction. -/
@[simp] def lines : {kind : FormKind} → Form kind → Nat → List (Instruction × Nat)
  | _, .push leaf, d => [(leaf.instruction, d)]
  | _, .setVar value scope symbol, d => value.lines d ++ [(.setVar scope symbol, d + 1)]
  | _, .seq first second, d => first.lines d ++ (.pop, d + 1) :: second.lines d
  | _, .binary left right op site, d =>
    left.lines d ++ (right.lines (d + 1) ++ [(.binary op site, d + 2)])
  | _, .ifElse test yes no site other after, d =>
    test.lines d ++ (.branchIfNot site other, d + 1) ::
      (yes.lines d ++ (.goto after, d + 1) :: no.lines d)
  | _, .call head args builtin site, d =>
    (head.instruction, d) :: (args.lines d ++ [(.finishCall builtin site, d)])
  | _, .whileLoop test body site head after, d =>
    (.startLoop after, d) :: (test.lines d ++ (.branchIfNot site after, d + 1) ::
      (body.lines d ++ [(.pop, d + 1), (.goto head, d), (.endLoop .whileOrRepeat, d),
        (.load .null, d)]))
  | _, .forLoop range body site symbol after, d =>
    range.lines d ++ (.startFor site symbol after, d + 1) ::
      (body.lines d ++ [(.pop, d + 1), (.stepFor, d), (.endLoop .forEach, d), (.load .null, d)])
  | _, .repeatLoop body head after, d =>
    (.startLoop after, d) :: (body.lines d ++ [(.pop, d + 1), (.goto head, d),
      (.endLoop .whileOrRepeat, d), (.load .null, d)])
  | _, .ret value, d => value.lines d ++ [(.ret, d + 1)]
  | _, .leave exit, d => [(.leaveLoop exit, d)]
  | _, .noArgs, _ => []
  | _, .arg value tag rest, d => value.lines d ++ (.pushArg, d + 1) ::
      (tag.toList.map (fun symbol => (.setTag symbol, d)) ++ rest.lines d)

variable {kind : FormKind}

theorem map_fst_lines (f : Form kind) (d : Nat) : (f.lines d).map Prod.fst = f.code := by
  induction f generalizing d <;> simp_all [Function.comp_def]

@[simp] theorem length_lines (f : Form kind) (d : Nat) : (f.lines d).length = f.size := by
  rw [← length_code, ← map_fst_lines f d, List.length_map]

/-- The first depth is that of the form, unless there is no code. -/
theorem head?_lines (f : Form kind) (d : Nat) :
    (∃ i, (f.lines d).head? = some (i, d) ∧ ∀ symbol, i ≠ .setTag symbol) ∨
      kind = .args ∧ f.size = 0 := by
  have first : ∀ {value : Form .value} {ls : List (Instruction × Nat)},
      (∃ i, (value.lines d).head? = some (i, d) ∧ ∀ symbol, i ≠ .setTag symbol) ∨
        FormKind.value = .args ∧ value.size = 0 →
      ∃ i, (value.lines d ++ ls).head? = some (i, d) ∧ ∀ symbol, i ≠ .setTag symbol := by
    rintro value ls (⟨i, head, notTag⟩ | ⟨⟨⟩, -⟩)
    rw [List.head?_append, head, Option.some_or]
    exact ⟨i, rfl, notTag⟩
  induction f generalizing d with
  | push leaf => exact Or.inl ⟨_, rfl, fun symbol => by cases leaf <;> exact nofun⟩
  | call head args builtin site => exact Or.inl ⟨_, rfl, fun symbol => by cases head <;> exact nofun⟩
  | leave | whileLoop | repeatLoop => exact Or.inl ⟨_, rfl, nofun⟩
  | noArgs => exact Or.inr ⟨rfl, rfl⟩
  | setVar value scope symbol ih => exact Or.inl (first (ih d first))
  | ret value ih => exact Or.inl (first (ih d first))
  | seq value second ih _ => exact Or.inl (first (ih d first))
  | binary value right op site ih _ => exact Or.inl (first (ih d first))
  | ifElse value yes no site other after ih _ _ => exact Or.inl (first (ih d first))
  | forLoop value body site symbol after ih _ => exact Or.inl (first (ih d first))
  | arg value tag rest ih _ => exact Or.inl (first (ih d first))

/-- The brackets of a form match. -/
theorem nestFrom_code (f : Form kind) (k : Nat) (outer : List Opening) :
    nestFrom k f.code outer = some outer := by
  induction f generalizing k outer with
  | push leaf => cases leaf <;> rfl
  | setVar value scope symbol ih => exact nestFrom_append_eq (ih _ _) rfl
  | seq first second ih ih' => exact nestFrom_append_eq (ih _ _) (nestFrom_cons_eq rfl (ih' _ _))
  | binary left right op site ih ih' =>
      exact nestFrom_append_eq (ih _ _) (nestFrom_append_eq (ih' _ _) rfl)
  | ifElse test yes no site other after ih ih₁ ih₂ =>
      exact nestFrom_append_eq (ih _ _) (nestFrom_cons_eq rfl
        (nestFrom_append_eq (ih₁ _ _) (nestFrom_cons_eq rfl (ih₂ _ _))))
  | call head args builtin site ih =>
      cases head <;> exact nestFrom_cons_eq rfl (nestFrom_append_eq (ih _ _) rfl)
  | whileLoop test body site head after ih ih' =>
      exact nestFrom_cons_eq rfl (nestFrom_append_eq (ih _ _)
        (nestFrom_cons_eq rfl (nestFrom_append_eq (ih' _ _) rfl)))
  | forLoop range body site symbol after ih ih' =>
      exact nestFrom_append_eq (ih _ _) (nestFrom_cons_eq rfl (nestFrom_append_eq (ih' _ _) rfl))
  | repeatLoop body head after ih =>
      exact nestFrom_cons_eq rfl (nestFrom_append_eq (ih _ _) rfl)
  | ret value ih => exact nestFrom_append_eq (ih _ _) rfl
  | leave exit => rfl
  | noArgs => rfl
  | arg value tag rest ih ih' =>
      cases tag with
      | none => exact nestFrom_append_eq (ih _ _) (nestFrom_cons_eq rfl (ih' _ _))
      | some symbol =>
          exact nestFrom_append_eq (ih _ _)
            (nestFrom_cons_eq rfl (nestFrom_cons_eq rfl (ih' _ _)))

end Form

/-! ### Places in the code -/

theorem nesting_along {code part : List Instruction} {p : Nat} {outer inner : List Opening}
    (along : Along (fun k i => code[k]? = some i) p part) (here : nesting code p = some outer)
    (nests : nestFrom p part outer = some inner) : nesting code (p + part.length) = some inner := by
  induction part generalizing p outer with
  | nil => exact here.trans nests
  | cons i part ih =>
      obtain ⟨get, rest⟩ := along_cons.mp along
      obtain ⟨next, nests, later⟩ := Option.bind_eq_some_iff.mp nests
      rw [List.length_cons, show p + (part.length + 1) = p + 1 + part.length by omega]
      refine ih rest ?_ later
      rw [nesting_succ get, here]
      exact nests

namespace CodeUnit

/-- The instructions of a list stand in a unit, each with its depth. -/
abbrev Holds (unit : CodeUnit) (depth : Nat → Nat) : Nat → List (Instruction × Nat) → Prop :=
  Along fun k line => unit.instructions[k]? = some line.1 ∧ depth k = line.2

/-- The instruction at an offset, with its depth and the brackets around it. -/
structure Line (unit : CodeUnit) (depth : Nat → Nat) (k d : Nat) (outer : List Opening)
    (i : Instruction) : Prop where
  get : unit.instructions[k]? = some i
  depth : depth k = d
  nest : nesting unit.instructions k = some outer

/-- The code goes on at an offset with a depth of the stack. No argument is named there. -/
structure GoesOnAt (unit : CodeUnit) (depth : Nat → Nat) (q n : Nat) : Prop where
  depth : depth q = n
  notTag : ∃ i, unit.instructions[q]? = some i ∧ ∀ symbol, i ≠ .setTag symbol

/-- How the code of a loop ends that is opened at `o`: its last value is dropped, it is
repeated, and it gives nothing. -/
structure LoopTail (unit : CodeUnit) (depth : Nat → Nat) (q d o : Nat) (kind : LoopKind)
    (outer : List Opening) (again : Instruction) : Prop where
  pop : unit.Line depth q (d + 1) (⟨o, .loop kind⟩ :: outer) .pop
  again : unit.Line depth (q + 1) d (⟨o, .loop kind⟩ :: outer) again
  close : unit.Line depth (q + 2) d (⟨o, .loop kind⟩ :: outer) (.endLoop kind)
  load : unit.Line depth (q + 3) d outer (.load .null)
  exit : unit.GoesOnAt depth (q + 4) (d + 1)

/-- The innermost of some brackets that is a loop ends at a depth of the stack. -/
def LoopAround (unit : CodeUnit) (depth : Nat → Nat) (outer : List Opening) (d : Nat) : Prop :=
  ∃ o e kind, outer.find? Opening.isLoop = some ⟨o, .loop kind⟩ ∧ unit.EndsAt o e kind ∧ depth e = d

variable {unit : CodeUnit} {depth : Nat → Nat} {k d q n : Nat} {outer inner : List Opening}
  {i : Instruction}

theorem Line.nest_succ (line : unit.Line depth k d outer i) (nests : i.nest k outer = some inner) :
    nesting unit.instructions (k + 1) = some inner := by
  rw [nesting_succ line.get, line.nest]
  exact nests

theorem Line.goesOnAt (line : unit.Line depth k d outer i) (notTag : ∀ symbol, i ≠ .setTag symbol) :
    unit.GoesOnAt depth k d :=
  ⟨line.depth, i, line.get, notTag⟩

theorem GoesOnAt.lt_size (goes : unit.GoesOnAt depth q n) : q < unit.size := by
  obtain ⟨i, get, -⟩ := goes.notTag
  exact (List.getElem?_eq_some_iff.mp get).1

theorem GoesOnAt.ne_setTag (goes : unit.GoesOnAt depth q n) (symbol : PoolIndex) :
    unit.instructions[q]? ≠ some (.setTag symbol) := by
  obtain ⟨i, get, notTag⟩ := goes.notTag
  rw [get]
  exact fun same => notTag symbol (Option.some.inj same)

end CodeUnit

/-! ### Forms in a unit -/

namespace Form

/-- A form stands at an offset: where its code, its depths and its labels are, what is open
around it, and how the code goes on. -/
structure Stands {kind : FormKind} (f : Form kind) (unit : CodeUnit) (pool : Pool)
    (depth : Nat → Nat) (p d : Nat) (outer : List Opening) (inLoop inCall : Bool) : Prop where
  lines : unit.Holds depth p (f.lines d)
  bound : f.Bound unit p
  valid : f.valid pool = true
  allowed : f.allowed inLoop inCall = true
  nest : nesting unit.instructions p = some outer
  exit : unit.GoesOnAt depth (p + f.size) (d + kind.count)
  loop : inLoop = true → unit.LoopAround depth outer d
  args : kind = .args → ∃ o rest, outer = ⟨o, .call⟩ :: rest

variable {unit : CodeUnit} {pool : Pool} {depth : Nat → Nat} {p d : Nat} {outer : List Opening}
  {inLoop inCall : Bool}

theorem goesOnAt_of_lines {value : Form .value} (lines : unit.Holds depth p (value.lines d)) :
    unit.GoesOnAt depth p d := by
  rcases value.head?_lines d with ⟨i, head, notTag⟩ | ⟨⟨⟩, -⟩
  rw [List.head?_eq_getElem?] at head
  obtain ⟨get, deep⟩ := lines 0 _ head
  exact ⟨deep, i, get, notTag⟩

section

variable {kind : FormKind} {f : Form kind} (stands : f.Stands unit pool depth p d outer inLoop inCall)

include stands

theorem Stands.nest_exit : nesting unit.instructions (p + f.size) = some outer := by
  rw [← length_code]
  refine nesting_along (fun j i get => ?_) stands.nest (f.nestFrom_code p outer)
  rw [← map_fst_lines f d, List.getElem?_map] at get
  obtain ⟨line, at_j, rfl⟩ := Option.map_eq_some_iff.mp get
  exact (stands.lines j line at_j).1

theorem Stands.entry : unit.GoesOnAt depth p d := by
  cases kind with
  | value => exact goesOnAt_of_lines stands.lines
  | args =>
      rcases f.head?_lines d with ⟨i, head, notTag⟩ | ⟨-, empty⟩
      · rw [List.head?_eq_getElem?] at head
        obtain ⟨get, deep⟩ := stands.lines 0 _ head
        exact ⟨deep, i, get, notTag⟩
      · have exit := stands.exit
        rwa [empty] at exit

end

theorem Stands.push {leaf : Leaf}
    (stands : (Form.push leaf).Stands unit pool depth p d outer inLoop inCall) :
    unit.Line depth p d outer leaf.instruction ∧ leaf.valid pool = true ∧
      unit.GoesOnAt depth (p + 1) (d + 1) := by
  obtain ⟨lines, bound, valid, allowed, nest, exit, loop, -⟩ := stands
  simp only [Form.lines, along_cons] at lines
  exact ⟨⟨lines.1.1, lines.1.2, nest⟩, valid, exit⟩

theorem Stands.setVar {value : Form .value} {scope : Scope} {symbol : PoolIndex}
    (stands : (Form.setVar value scope symbol).Stands unit pool depth p d outer inLoop inCall) :
    value.Stands unit pool depth p d outer inLoop inCall ∧
    unit.Line depth (p + value.size) (d + 1) outer (.setVar scope symbol) ∧
      (pool.symbol symbol).toOption.isSome = true ∧
      unit.GoesOnAt depth (p + value.size + 1) (d + 1) := by
  obtain ⟨lines, bound, valid, allowed, nest, exit, loop, -⟩ := stands
  simp only [Form.lines, along_append, along_cons, length_lines] at lines
  simp only [Form.valid, Bool.and_eq_true] at valid
  have inner : value.Stands unit pool depth p d outer inLoop inCall :=
    ⟨lines.1, bound, valid.1, allowed, nest, ⟨lines.2.1.2, _, lines.2.1.1, nofun⟩, loop, nofun⟩
  exact ⟨inner, ⟨lines.2.1.1, lines.2.1.2, inner.nest_exit⟩, valid.2, exit⟩

theorem Stands.seq {first second : Form .value}
    (stands : (Form.seq first second).Stands unit pool depth p d outer inLoop inCall) :
    first.Stands unit pool depth p d outer inLoop inCall ∧
      unit.Line depth (p + first.size) (d + 1) outer .pop ∧
      second.Stands unit pool depth (p + first.size + 1) d outer inLoop inCall := by
  obtain ⟨lines, bound, valid, allowed, nest, exit, loop, -⟩ := stands
  simp only [Form.lines, along_append, along_cons, length_lines] at lines
  simp only [Form.valid, Form.allowed, Bool.and_eq_true] at valid allowed
  rw [Bound, bindings, List.forall_mem_append] at bound
  have stands₁ : first.Stands unit pool depth p d outer inLoop inCall :=
    ⟨lines.1, bound.1, valid.1, allowed.1, nest, ⟨lines.2.1.2, _, lines.2.1.1, nofun⟩, loop, nofun⟩
  have line : unit.Line depth (p + first.size) (d + 1) outer .pop :=
    ⟨lines.2.1.1, lines.2.1.2, stands₁.nest_exit⟩
  refine ⟨stands₁, line, lines.2.2, bound.2, valid.2, allowed.2, line.nest_succ rfl, ?_, loop, nofun⟩
  simpa only [size, FormKind.count, Nat.add_assoc] using exit

theorem Stands.binary {left right : Form .value} {op : BinaryOp} {site : PoolIndex}
    (stands : (Form.binary left right op site).Stands unit pool depth p d outer inLoop inCall) :
    left.Stands unit pool depth p d outer false inCall ∧
      right.Stands unit pool depth (p + left.size) (d + 1) outer false inCall ∧
      unit.Line depth (p + left.size + right.size) (d + 2) outer (.binary op site) ∧
      (pool.expr site).toOption.isSome = true ∧
      unit.GoesOnAt depth (p + left.size + right.size + 1) (d + 1) := by
  obtain ⟨lines, bound, valid, allowed, nest, exit, loop, -⟩ := stands
  simp only [Form.lines, along_append, along_cons, length_lines] at lines
  simp only [Form.valid, Form.allowed, Bool.and_eq_true] at valid allowed
  rw [Bound, bindings, List.forall_mem_append] at bound
  have stands₁ : left.Stands unit pool depth p d outer false inCall :=
    ⟨lines.1, bound.1, valid.1.1, allowed.1, nest, goesOnAt_of_lines lines.2.1, nofun, nofun⟩
  have stands₂ : right.Stands unit pool depth (p + left.size) (d + 1) outer false inCall :=
    ⟨lines.2.1, bound.2, valid.1.2, allowed.2, stands₁.nest_exit,
      ⟨lines.2.2.1.2, _, lines.2.2.1.1, nofun⟩, nofun, nofun⟩
  refine ⟨stands₁, stands₂, ⟨lines.2.2.1.1, lines.2.2.1.2, stands₂.nest_exit⟩, valid.2, ?_⟩
  simpa only [size, FormKind.count, Nat.add_assoc] using exit

theorem Stands.ifElse {test yes no : Form .value} {site : PoolIndex} {other after : Label}
    (stands : (Form.ifElse test yes no site other after).Stands unit pool depth p d outer inLoop
      inCall) :
    test.Stands unit pool depth p d outer inLoop inCall ∧
      unit.Line depth (p + test.size) (d + 1) outer (.branchIfNot site other) ∧
      (pool.expr site).toOption.isSome = true ∧
      yes.Stands unit pool depth (p + test.size + 1) d outer inLoop inCall ∧
      unit.Line depth (p + test.size + 1 + yes.size) (d + 1) outer (.goto after) ∧
      unit.offset? other = some (p + test.size + 1 + yes.size + 1) ∧
      no.Stands unit pool depth (p + test.size + 1 + yes.size + 1) d outer inLoop inCall ∧
      unit.offset? after = some (p + test.size + 1 + yes.size + 1 + no.size) := by
  obtain ⟨lines, bound, valid, allowed, nest, exit, loop, -⟩ := stands
  simp only [Form.lines, along_append, along_cons, length_lines] at lines
  simp only [Form.valid, Form.allowed, Bool.and_eq_true] at valid allowed
  simp only [Bound, bindings, List.forall_mem_append, List.forall_mem_cons] at bound
  obtain ⟨atOther, atAfter, bound₁, bound₂, bound₃⟩ := bound
  have stands₁ : test.Stands unit pool depth p d outer inLoop inCall :=
    ⟨lines.1, bound₁, valid.1.1.1, allowed.1.1, nest, ⟨lines.2.1.2, _, lines.2.1.1, nofun⟩, loop,
      nofun⟩
  have branch : unit.Line depth (p + test.size) (d + 1) outer (.branchIfNot site other) :=
    ⟨lines.2.1.1, lines.2.1.2, stands₁.nest_exit⟩
  have stands₂ : yes.Stands unit pool depth (p + test.size + 1) d outer inLoop inCall :=
    ⟨lines.2.2.1, bound₂, valid.1.1.2, allowed.1.2, branch.nest_succ rfl,
      ⟨lines.2.2.2.1.2, _, lines.2.2.2.1.1, nofun⟩, loop, nofun⟩
  have goto : unit.Line depth (p + test.size + 1 + yes.size) (d + 1) outer (.goto after) :=
    ⟨lines.2.2.2.1.1, lines.2.2.2.1.2, stands₂.nest_exit⟩
  refine ⟨stands₁, branch, valid.2, stands₂, goto, atOther, ⟨lines.2.2.2.2, bound₃, valid.1.2,
    allowed.2, goto.nest_succ rfl, ?_, loop, nofun⟩, atAfter⟩
  simpa only [size, FormKind.count, Nat.add_assoc] using exit

theorem Stands.call {head : CallHead} {args : Form .args} {builtin : Bool} {site : PoolIndex}
    (stands : (Form.call head args builtin site).Stands unit pool depth p d outer inLoop inCall) :
    unit.Line depth p d outer head.instruction ∧
      (pool.symbol head.symbol).toOption.isSome = true ∧
      args.Stands unit pool depth (p + 1) d (⟨p, .call⟩ :: outer) inLoop true ∧
      unit.Line depth (p + 1 + args.size) d (⟨p, .call⟩ :: outer) (.finishCall builtin site) ∧
      (pool.expr site).toOption.isSome = true ∧
      unit.GoesOnAt depth (p + 1 + args.size + 1) (d + 1) := by
  obtain ⟨lines, bound, valid, allowed, nest, exit, loop, -⟩ := stands
  simp only [Form.lines, along_append, along_cons, length_lines] at lines
  simp only [Form.valid, Bool.and_eq_true] at valid
  have line : unit.Line depth p d outer head.instruction := ⟨lines.1.1, lines.1.2, nest⟩
  have stands₁ : args.Stands unit pool depth (p + 1) d (⟨p, .call⟩ :: outer) inLoop true :=
    ⟨lines.2.1, bound, valid.1.2, allowed, line.nest_succ (by cases head <;> rfl),
      ⟨lines.2.2.1.2, _, lines.2.2.1.1, nofun⟩, loop, fun _ => ⟨p, outer, rfl⟩⟩
  refine ⟨line, valid.1.1, stands₁, ⟨lines.2.2.1.1, lines.2.2.1.2, stands₁.nest_exit⟩, valid.2, ?_⟩
  simpa only [size, FormKind.count, Nat.add_assoc] using exit

/-- The last instructions of a loop, and what follows. -/
theorem loopTail_of_lines {q o : Nat} {kind : LoopKind} {again : Instruction}
    (lines : unit.Holds depth q [(.pop, d + 1), (again, d), (.endLoop kind, d), (.load .null, d)])
    (nest : nesting unit.instructions q = some (⟨o, .loop kind⟩ :: outer))
    (inside : again.opens? = none ∧ again.closes? = none)
    (exit : unit.GoesOnAt depth (q + 4) (d + 1)) :
    unit.LoopTail depth q d o kind outer again := by
  simp only [along_cons] at lines
  obtain ⟨pop, again', close, load, -⟩ := lines
  have line₀ : unit.Line depth q (d + 1) (⟨o, .loop kind⟩ :: outer) .pop := ⟨pop.1, pop.2, nest⟩
  have line₁ : unit.Line depth (q + 1) d (⟨o, .loop kind⟩ :: outer) again :=
    ⟨again'.1, again'.2, line₀.nest_succ rfl⟩
  have line₂ : unit.Line depth (q + 2) d (⟨o, .loop kind⟩ :: outer) (.endLoop kind) :=
    ⟨close.1, close.2, line₁.nest_succ (by simp [Instruction.nest, inside])⟩
  exact ⟨line₀, line₁, line₂, ⟨load.1, load.2, line₂.nest_succ (by cases kind <;> rfl)⟩, exit⟩

theorem Stands.whileLoop {test body : Form .value} {site : PoolIndex} {head after : Label}
    (stands : (Form.whileLoop test body site head after).Stands unit pool depth p d outer inLoop
      inCall) :
    unit.Line depth p d outer (.startLoop after) ∧ unit.offset? head = some (p + 1) ∧
      test.Stands unit pool depth (p + 1) d (⟨p, .loop .whileOrRepeat⟩ :: outer) false inCall ∧
      unit.Line depth (p + 1 + test.size) (d + 1) (⟨p, .loop .whileOrRepeat⟩ :: outer)
        (.branchIfNot site after) ∧
      (pool.expr site).toOption.isSome = true ∧
      body.Stands unit pool depth (p + 1 + test.size + 1) d (⟨p, .loop .whileOrRepeat⟩ :: outer) true
        inCall ∧
      unit.offset? after = some (p + 1 + test.size + 1 + body.size + 2) ∧
      unit.LoopTail depth (p + 1 + test.size + 1 + body.size) d p .whileOrRepeat outer
        (.goto head) := by
  obtain ⟨lines, bound, valid, allowed, nest, exit, loop, -⟩ := stands
  simp only [Form.lines, along_append, along_cons, length_lines] at lines
  simp only [Form.valid, Form.allowed, Bool.and_eq_true] at valid allowed
  simp only [Bound, bindings, List.forall_mem_append, List.forall_mem_cons] at bound
  obtain ⟨atHead, atAfter, bound₁, bound₂⟩ := bound
  have start : unit.Line depth p d outer (.startLoop after) := ⟨lines.1.1, lines.1.2, nest⟩
  have stands₁ : test.Stands unit pool depth (p + 1) d (⟨p, .loop .whileOrRepeat⟩ :: outer) false
      inCall :=
    ⟨lines.2.1, bound₁, valid.1.1, allowed.1, start.nest_succ rfl,
      ⟨lines.2.2.1.2, _, lines.2.2.1.1, nofun⟩, nofun, nofun⟩
  have branch : unit.Line depth (p + 1 + test.size) (d + 1) (⟨p, .loop .whileOrRepeat⟩ :: outer)
      (.branchIfNot site after) :=
    ⟨lines.2.2.1.1, lines.2.2.1.2, stands₁.nest_exit⟩
  have stands₂ : body.Stands unit pool depth (p + 1 + test.size + 1) d
      (⟨p, .loop .whileOrRepeat⟩ :: outer) true inCall :=
    ⟨lines.2.2.2.1, bound₂, valid.1.2, allowed.2, branch.nest_succ rfl,
      ⟨lines.2.2.2.2.1.2, _, lines.2.2.2.2.1.1, nofun⟩,
      fun _ => ⟨p, _, _, rfl, ⟨_, _, start.get, rfl, rfl, atAfter⟩, lines.2.2.2.2.2.2.1.2⟩, nofun⟩
  refine ⟨start, atHead, stands₁, branch, valid.2, stands₂, atAfter,
    loopTail_of_lines ?_ stands₂.nest_exit ⟨rfl, rfl⟩ ?_⟩
  · simp only [along_cons]
    exact lines.2.2.2.2
  · simpa only [size, FormKind.count, Nat.add_assoc] using exit

theorem Stands.repeatLoop {body : Form .value} {head after : Label}
    (stands : (Form.repeatLoop body head after).Stands unit pool depth p d outer inLoop inCall) :
    inCall = false ∧ unit.Line depth p d outer (.startLoop after) ∧
      unit.offset? head = some (p + 1) ∧
      body.Stands unit pool depth (p + 1) d (⟨p, .loop .whileOrRepeat⟩ :: outer) true inCall ∧
      unit.offset? after = some (p + 1 + body.size + 2) ∧
      unit.LoopTail depth (p + 1 + body.size) d p .whileOrRepeat outer (.goto head) := by
  obtain ⟨lines, bound, valid, allowed, nest, exit, loop, -⟩ := stands
  simp only [Form.lines, along_append, along_cons, length_lines] at lines
  simp only [Form.allowed, Bool.and_eq_true, Bool.not_eq_true'] at allowed
  simp only [Bound, bindings, List.forall_mem_cons] at bound
  obtain ⟨atHead, atAfter, bound⟩ := bound
  have start : unit.Line depth p d outer (.startLoop after) := ⟨lines.1.1, lines.1.2, nest⟩
  have stands₁ : body.Stands unit pool depth (p + 1) d (⟨p, .loop .whileOrRepeat⟩ :: outer) true
      inCall :=
    ⟨lines.2.1, bound, valid, allowed.2, start.nest_succ rfl,
      ⟨lines.2.2.1.2, _, lines.2.2.1.1, nofun⟩,
      fun _ => ⟨p, _, _, rfl, ⟨_, _, start.get, rfl, rfl, atAfter⟩, lines.2.2.2.2.1.2⟩, nofun⟩
  refine ⟨allowed.1, start, atHead, stands₁, atAfter,
    loopTail_of_lines ?_ stands₁.nest_exit ⟨rfl, rfl⟩ ?_⟩
  · simp only [along_cons]
    exact lines.2.2
  · simpa only [size, FormKind.count, Nat.add_assoc] using exit

theorem Stands.forLoop {range body : Form .value} {site symbol : PoolIndex} {after : Label}
    (stands : (Form.forLoop range body site symbol after).Stands unit pool depth p d outer inLoop
      inCall) :
    range.Stands unit pool depth p d outer inLoop inCall ∧
      unit.Line depth (p + range.size) (d + 1) outer (.startFor site symbol after) ∧
      (pool.expr site).toOption.isSome = true ∧ (pool.symbol symbol).toOption.isSome = true ∧
      body.Stands unit pool depth (p + range.size + 1) d (⟨p + range.size, .loop .forEach⟩ :: outer)
        true inCall ∧
      unit.offset? after = some (p + range.size + 1 + body.size + 2) ∧
      unit.LoopTail depth (p + range.size + 1 + body.size) d (p + range.size) .forEach outer
        .stepFor := by
  obtain ⟨lines, bound, valid, allowed, nest, exit, loop, -⟩ := stands
  simp only [Form.lines, along_append, along_cons, length_lines] at lines
  simp only [Form.valid, Form.allowed, Bool.and_eq_true] at valid allowed
  simp only [Bound, bindings, List.forall_mem_append, List.forall_mem_cons] at bound
  obtain ⟨atAfter, bound₁, bound₂⟩ := bound
  have stands₁ : range.Stands unit pool depth p d outer inLoop inCall :=
    ⟨lines.1, bound₁, valid.1.1.1, allowed.1, nest, ⟨lines.2.1.2, _, lines.2.1.1, nofun⟩, loop,
      nofun⟩
  have start : unit.Line depth (p + range.size) (d + 1) outer (.startFor site symbol after) :=
    ⟨lines.2.1.1, lines.2.1.2, stands₁.nest_exit⟩
  have stands₂ : body.Stands unit pool depth (p + range.size + 1) d
      (⟨p + range.size, .loop .forEach⟩ :: outer) true inCall :=
    ⟨lines.2.2.1, bound₂, valid.1.1.2, allowed.2, start.nest_succ rfl,
      ⟨lines.2.2.2.1.2, _, lines.2.2.2.1.1, nofun⟩,
      fun _ => ⟨_, _, _, rfl, ⟨_, _, start.get, rfl, rfl, atAfter⟩, lines.2.2.2.2.2.1.2⟩, nofun⟩
  refine ⟨stands₁, start, valid.1.2, valid.2, stands₂, atAfter,
    loopTail_of_lines ?_ stands₂.nest_exit ⟨rfl, rfl⟩ ?_⟩
  · simp only [along_cons]
    exact lines.2.2.2
  · simpa only [size, FormKind.count, Nat.add_assoc] using exit

theorem Stands.ret {value : Form .value}
    (stands : (Form.ret value).Stands unit pool depth p d outer inLoop inCall) :
    inCall = false ∧ value.Stands unit pool depth p d outer inLoop inCall ∧
      unit.Line depth (p + value.size) (d + 1) outer .ret := by
  obtain ⟨lines, bound, valid, allowed, nest, exit, loop, -⟩ := stands
  simp only [Form.lines, along_append, along_cons, length_lines] at lines
  simp only [Form.allowed, Bool.and_eq_true, Bool.not_eq_true'] at allowed
  have inner : value.Stands unit pool depth p d outer inLoop inCall :=
    ⟨lines.1, bound, valid, allowed.2, nest, ⟨lines.2.1.2, _, lines.2.1.1, nofun⟩, loop, nofun⟩
  exact ⟨allowed.1, inner, lines.2.1.1, lines.2.1.2, inner.nest_exit⟩

theorem Stands.leave {exit : LoopExit}
    (stands : (Form.leave exit).Stands unit pool depth p d outer inLoop inCall) :
    unit.Line depth p d outer (.leaveLoop exit) ∧ unit.LoopAround depth outer d := by
  obtain ⟨get, deep⟩ := stands.lines 0 _ rfl
  exact ⟨⟨get, deep, stands.nest⟩, stands.loop stands.allowed⟩

theorem Stands.arg {value : Form .value} {tag : Option PoolIndex} {rest : Form .args}
    (stands : (Form.arg value tag rest).Stands unit pool depth p d outer inLoop inCall) :
    value.Stands unit pool depth p d outer inLoop inCall ∧
      unit.Line depth (p + value.size) (d + 1) outer .pushArg ∧
      (∀ symbol ∈ tag, unit.Line depth (p + value.size + 1) d outer (.setTag symbol) ∧
        (pool.symbol symbol).toOption.isSome = true) ∧
      rest.Stands unit pool depth (p + value.size + 1 + tag.toList.length) d outer inLoop inCall := by
  obtain ⟨lines, bound, valid, allowed, nest, exit, loop, args⟩ := stands
  simp only [Form.lines, along_append, along_cons, length_lines, List.length_map] at lines
  simp only [Form.valid, Form.allowed, Bool.and_eq_true] at valid allowed
  rw [Bound, bindings, List.forall_mem_append] at bound
  have stands₁ : value.Stands unit pool depth p d outer inLoop inCall :=
    ⟨lines.1, bound.1, valid.1.1, allowed.1, nest, ⟨lines.2.1.2, _, lines.2.1.1, nofun⟩, loop, nofun⟩
  have push : unit.Line depth (p + value.size) (d + 1) outer .pushArg :=
    ⟨lines.2.1.1, lines.2.1.2, stands₁.nest_exit⟩
  have tagged : ∀ symbol ∈ tag, unit.Line depth (p + value.size + 1) d outer (.setTag symbol) ∧
      (pool.symbol symbol).toOption.isSome = true := by
    rintro symbol ⟨⟩
    obtain ⟨get, deep⟩ := lines.2.2.1 0 _ rfl
    exact ⟨⟨get, deep, push.nest_succ rfl⟩, valid.1.2⟩
  have after : nesting unit.instructions (p + value.size + 1 + tag.toList.length) = some outer := by
    cases tag with
    | none => exact push.nest_succ rfl
    | some symbol => exact (tagged symbol rfl).1.nest_succ rfl
  refine ⟨stands₁, push, tagged, lines.2.2.2, bound.2, valid.2, allowed.2, after, ?_, loop, args⟩
  simpa only [size, FormKind.count, Nat.add_assoc] using exit

end Form

end StackLift
