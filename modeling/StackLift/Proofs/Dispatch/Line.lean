import StackLift.Proofs.Lower.Context
import StackLift.Proofs.Structured.Advance

/-!
Straight-line code. Instructions that stay in the block under construction work on the operand
stack and on the open calls and assignments, and number the values they make; what they do there
is said without the graph, `Line.perform`. Where that is defined, the pass lowers the instruction
and does the same, and all that it adds to the graph are statements in the block under
construction (`follows_lower`, `exists_run_of_run?`).
-/

namespace StackLift

/-- What straight-line code works on: the operand stack, the top first, the calls and assignments
that are open, the innermost first, and the number of values made so far. -/
structure Line where
  stack : List ValueId
  calls : List PendingCall
  assigns : List PendingAssign
  made : Nat
deriving DecidableEq

def State.line (s : State) : Line :=
  ⟨s.stack.items, s.calls, s.assigns, s.draft.graph.values.length⟩

/-! ### What instructions do -/

namespace Line

abbrev Step := StateT Line Option

def found {ε α : Type} (x : Except ε α) : Step α := fun l => x.toOption.map (·, l)

/-- The next value. -/
def make : Step ValueId := fun l => some (⟨l.made⟩, { l with made := l.made + 1 })

def push (v : ValueId) : Step Unit := fun l => some ((), { l with stack := v :: l.stack })

def pop : Step ValueId := fun l =>
  match l.stack with
  | v :: rest => some (v, { l with stack := rest })
  | [] => none

def peekNth (n : Nat) : Step ValueId := fun l => l.stack[n]?.map (·, l)

def pushNew : Step ValueId := do
  let v ← make
  push v
  return v

def pushCall (c : PendingCall) : Step Unit := fun l => some ((), { l with calls := c :: l.calls })

def popCall : Step PendingCall := fun l =>
  match l.calls with
  | c :: rest => some (c, { l with calls := rest })
  | [] => none

/-- Changes the innermost call. -/
def updateCall (f : PendingCall → Except Fault PendingCall) : Step Unit := do
  let c ← popCall
  let c ← found (f c)
  pushCall c

def addArg (a : CallArg) : Step Unit := updateCall fun c => .ok (c.addArg a)

def pushAssign (a : PendingAssign) : Step Unit := fun l =>
  some ((), { l with assigns := a :: l.assigns })

def popAssign : Step PendingAssign := fun l =>
  match l.assigns with
  | a :: rest => some (a, { l with assigns := rest })
  | [] => none

/-- Accesses a layer of the innermost assignment. -/
def accessLayer (access : PendingAssign → Except Fault CallSite × PendingAssign) : Step Unit := do
  let a ← popAssign
  let _ ← found (access a).1
  pushAssign (access a).2

/-- An argument left out and `...` are marked by values of their own. -/
def argValue : ArgValue → Step ValueId
  | .value v => return v
  | .missing | .dots => make

def argValues : List CallArg → Step (List ValueId)
  | [] => return []
  | a :: rest => do
    let v ← argValue a.value
    let vs ← argValues rest
    return v :: vs

/-- The result of a call with complete arguments. -/
def pushResult (c : PendingCall) : Step Unit := do
  let _ ← argValues c.args
  let result ← make
  push result

def checkLiteral (pool : Pool) : Literal → Step Unit
  | .pool index => do
    let _ ← found (pool.get index)
  | _ => return

/-- What an instruction of straight-line code does; it is undefined for other instructions, for
operands that are not there, and for constants of the wrong kind. -/
def perform (pool : Pool) : Instruction → Step Unit
  | .load literal => do
    checkLiteral pool literal
    let _ ← pushNew
  | .getVar symbol _ | .getDots symbol _ => do
    let _ ← found (pool.symbol symbol)
    let _ ← pushNew
  | .setVar _ symbol => do
    let _ ← found (pool.symbol symbol)
    let _ ← peekNth 0
    let _ ← make
  | .pop => do
    let _ ← pop
  | .dup => do
    let v ← peekNth 0
    push v
  | .dup2nd => do
    let v ← peekNth 1
    push v
  | .swap => do
    let v ← pop
    let w ← pop
    push v
    push w
  | .setLoopVal => do
    let _ ← pop
    let _ ← pop
    let _ ← pushNew
  | .setVisible _ => do
    let _ ← make
  | .logicSecond _ call => do
    let _ ← pop
    let _ ← pop
    let _ ← found (pool.expr call)
    let _ ← make
    let _ ← pushNew
  | .getFun _ symbol => do
    let _ ← found (pool.symbol symbol)
    let callee ← make
    pushCall { callee := .value callee }
  | .getBuiltin _ symbol => do
    let name ← found (pool.symbol symbol)
    pushCall { callee := .builtin name }
  | .checkFun => do
    let callee ← pop
    pushCall { callee := .value callee }
  | .makePromise code => do
    let _ ← found (pool.code code)
    let v ← make
    addArg { value := .value v }
  | .doMissing => addArg { value := .missing }
  | .doDots => addArg { value := .dots }
  | .setTag symbol => do
    let name ← found (pool.symbol symbol)
    updateCall (·.nameLast name)
  | .pushArg => do
    let v ← pop
    addArg { value := .value v }
  | .pushLiteral literal => do
    checkLiteral pool literal
    let v ← make
    addArg { value := .value v }
  | .finishCall _ call => do
    let c ← popCall
    let _ ← found (pool.expr call)
    pushResult c
  | .callSpecial call => do
    let _ ← found (pool.expr call)
    let _ ← pushNew
  | .makeClosure code => do
    let _ ← found (pool.code code)
    let _ ← pushNew
  | .binary _ call => do
    let _ ← pop
    let _ ← pop
    let _ ← found (pool.expr call)
    let _ ← pushNew
  | .unary _ call => do
    let _ ← pop
    let _ ← found (pool.expr call)
    let _ ← pushNew
  | .isType _ => do
    let _ ← pop
    let _ ← pushNew
  | .startAssign scope symbol call => do
    let name ← found (pool.symbol symbol)
    let rhs ← peekNth 0
    let e ← found (pool.expr call)
    let pending ← found (PendingAssign.start scope name e)
    let target ← make
    push target
    push rhs
    pushAssign pending
  | .endAssign scope symbol => do
    let name ← found (pool.symbol symbol)
    let pending ← popAssign
    if pending.name = name ∧ pending.scope = scope then
      let _ ← pop
      let _ ← make
    else failure
  | .getterCall layer => do
    accessLayer (·.getter layer.toNat)
    let x ← pop
    let c ← popCall
    pushResult (c.prepend x)
  | .setterCall layer => do
    accessLayer (·.setter layer.toNat)
    let value ← pop
    let x ← pop
    let c ← popCall
    pushResult ((c.prepend x).addNamed value "value")
  | .hint _ => return
  | _ => failure

/-- What straight-line code does, one instruction after the other. -/
def run? (pool : Pool) : List Instruction → Line → Option Line
  | [], l => some l
  | i :: rest, l => do
    let (_, l) ← perform pool i l
    run? pool rest l

theorem bind_eq_some {α β : Type} {x : Step α} {f : α → Step β} {l : Line} {r : β × Line} :
    (x >>= f) l = some r ↔ ∃ a l', x l = some (a, l') ∧ f a l' = some r := by
  change (x l).bind (fun p => f p.1 p.2) = some r ↔ _
  rw [Option.bind_eq_some_iff]
  constructor
  · rintro ⟨⟨a, l'⟩, first, rest⟩
    exact ⟨a, l', first, rest⟩
  · rintro ⟨a, l', first, rest⟩
    exact ⟨(a, l'), first, rest⟩

/-- After straight-line code control goes on. -/
theorem not_diverts {pool : Pool} {i : Instruction} {l : Line} {r : Unit × Line}
    (done : perform pool i l = some r) : i.diverts = false := by
  cases i <;> first | rfl | cases done

end Line

/-! ### Statements in the block under construction -/

/-- Statements were added to the block under construction, and nothing else was changed. -/
structure Draft.Writes (d d' : Draft) : Prop where
  cursor : d'.cursor = d.cursor
  shapes : d'.shapes = d.shapes
  direct : d'.direct = d.direct
  loopIndices : d'.loopIndices = d.loopIndices
  others : ∀ c ≠ d.cursor, d'.graph.block? c = d.graph.block? c
  here : ∃ more, d'.graph.block? d.cursor =
    (d.graph.block? d.cursor).map fun block => { block with stmts := block.stmts ++ more }

namespace Draft.Writes

variable {d d' d'' : Draft}

theorem refl (d : Draft) : d.Writes d where
  cursor := rfl
  shapes := rfl
  direct := rfl
  loopIndices := rfl
  others _ _ := rfl
  here := ⟨[], by simp⟩

theorem trans (first : d.Writes d') (second : d'.Writes d'') : d.Writes d'' where
  cursor := second.cursor.trans first.cursor
  shapes := second.shapes.trans first.shapes
  direct := second.direct.trans first.direct
  loopIndices := second.loopIndices.trans first.loopIndices
  others c other := by
    rw [second.others c (first.cursor ▸ other), first.others c other]
  here := by
    obtain ⟨more, block⟩ := first.here
    obtain ⟨more', block'⟩ := second.here
    rw [first.cursor, block, Option.map_map] at block'
    refine ⟨more ++ more', block'.trans ?_⟩
    simp only [← List.append_assoc]
    rfl

theorem emit (d : Draft) (op : Op) : d.Writes (d.emitted op) where
  cursor := rfl
  shapes := rfl
  direct := rfl
  loopIndices := rfl
  others c other := by
    rw [block?_emitted, if_neg other]
  here := by
    refine ⟨[⟨d.graph.nextValue, op⟩], ?_⟩
    rw [block?_emitted, if_pos rfl]
    rfl

theorem unended (writes : d.Writes d') (unended : d.Unended) : d'.Unended := by
  obtain ⟨more, block⟩ := writes.here
  rw [Unended, Graph.isTerminated, writes.cursor, block, Option.any_map]
  exact unended

end Draft.Writes

/-- Statements were added to the block under construction, and besides these only the stack and
the open calls and assignments have changed. -/
structure State.Writes (s s' : State) : Prop where
  draft : s.draft.Writes s'.draft
  frame : s' = { s with draft := s'.draft, stack := s'.stack, calls := s'.calls,
                        assigns := s'.assigns }

theorem State.Writes.refl (s : State) : s.Writes s := ⟨.refl _, rfl⟩

theorem State.Writes.trans {s s' s'' : State} (first : s.Writes s') (second : s'.Writes s'') :
    s.Writes s'' := by
  refine ⟨first.draft.trans second.draft, ?_⟩
  rw [second.frame, first.frame]

namespace Lowering

/-! ### The pass does what instructions do -/

/-- In a block without an end, where the step on the line is defined, the step of the pass succeeds,
with the same result, and writes only statements. -/
def Follows {α : Type} (x : Lowering α) (y : Line.Step α) : Prop :=
  ∀ ⦃s : State⦄ ⦃a : α⦄ ⦃l : Line⦄, s.draft.Unended → y s.line = some (a, l) →
    ∃ s', x s = .ok a s' ∧ s.Writes s' ∧ s'.line = l

section

variable {α β : Type}

theorem follows_bind {x : Lowering α} {y : Line.Step α} {f : α → Lowering β} {g : α → Line.Step β}
    (first : Follows x y) (rest : ∀ a, Follows (f a) (g a)) : Follows (x >>= f) (y >>= g) := by
  intro s b l unended h
  obtain ⟨a, l', h₁, h₂⟩ := Line.bind_eq_some.mp h
  obtain ⟨s', ran, writes, line⟩ := first unended h₁
  rw [← line] at h₂
  obtain ⟨s'', ran', writes', line'⟩ := rest a (writes.draft.unended unended) h₂
  exact ⟨s'', bind_eq_ok_iff.mpr ⟨a, s', ran, ran'⟩, writes.trans writes', line'⟩

theorem follows_pure (a : α) : Follows (pure a) (pure a) := by
  intro s b l _ h
  cases h
  exact ⟨s, rfl, .refl s, rfl⟩

/-- A step that leaves the graph alone. -/
theorem follows_of_eq {x : Lowering α} {y : Line.Step α}
    (same : ∀ {s : State} {a : α} {l : Line}, y s.line = some (a, l) → l.made = s.line.made ∧
      x s = .ok a { s with stack := ⟨l.stack⟩, calls := l.calls, assigns := l.assigns }) :
    Follows x y := by
  intro s a l _ h
  obtain ⟨made, ran⟩ := same h
  obtain ⟨stack, calls, assigns, n⟩ := l
  cases made
  exact ⟨_, ran, ⟨.refl _, rfl⟩, rfl⟩

theorem follows_constant (x : Except BytecodeError α) : Follows (constant x) (Line.found x) := by
  refine follows_of_eq fun {s a l} h => ?_
  cases x with
  | error cause => cases h
  | ok b =>
      cases h
      exact ⟨rfl, rfl⟩

theorem follows_ofExcept (x : Except Fault α) : Follows (ofExcept x) (Line.found x) := by
  refine follows_of_eq fun {s a l} h => ?_
  cases x with
  | error fault => cases h
  | ok b =>
      cases h
      exact ⟨rfl, rfl⟩

end

theorem follows_emit (op : Op) : Follows (emit op) Line.make := by
  intro s v l unended h
  cases h
  refine ⟨_, emit_of_unended unended op, ⟨.emit s.draft op, rfl⟩, ?_⟩
  simp [State.line, Draft.values_emitted]

theorem follows_push (v : ValueId) : Follows (push v) (Line.push v) :=
  follows_of_eq fun h => by
    cases h
    exact ⟨rfl, rfl⟩

theorem follows_pop : Follows pop Line.pop := by
  refine follows_of_eq fun {s a l} h => ?_
  obtain ⟨d, ⟨items⟩, loops, calls, assigns, dispatches, depths, live⟩ := s
  cases items with
  | nil => cases h
  | cons v rest =>
      cases h
      exact ⟨rfl, rfl⟩

theorem follows_peekNth (n : Nat) : Follows (peekNth n) (Line.peekNth n) := by
  refine follows_of_eq fun {s a l} h => ?_
  obtain ⟨v, at_n, same⟩ := Option.map_eq_some_iff.mp h
  cases same
  refine ⟨rfl, ?_⟩
  rw [peekNth, OperandStack.peekNth, show s.stack.items[n]? = some a from at_n]
  rfl

theorem follows_swap : Follows swap (do
    let v ← Line.pop
    let w ← Line.pop
    Line.push v
    Line.push w) := by
  refine follows_of_eq fun {s a l} h => ?_
  obtain ⟨d, ⟨items⟩, loops, calls, assigns, dispatches, depths, live⟩ := s
  rcases items with _ | ⟨v, _ | ⟨w, rest⟩⟩ <;> cases h
  exact ⟨rfl, rfl⟩

theorem follows_popTwo {α : Type} {f : List ValueId → Lowering α} {g : Line.Step α}
    (rest : ∀ vs, Follows (f vs) g) : Follows (popN 2 >>= f) (do
      let _ ← Line.pop
      let _ ← Line.pop
      g) := by
  intro s a l unended h
  obtain ⟨d, ⟨items⟩, loops, calls, assigns, dispatches, depths, live⟩ := s
  rcases items with _ | ⟨v, _ | ⟨w, below⟩⟩
  · cases h
  · cases h
  obtain ⟨s', ran, writes, line⟩ := rest [w, v]
    (s := ⟨d, ⟨below⟩, loops, calls, assigns, dispatches, depths, live⟩) unended h
  refine ⟨s', bind_eq_ok_iff.mpr ⟨[w, v], _, ?_, ran⟩, ⟨writes.draft, ?_⟩, line⟩
  · rw [popN, OperandStack.popN, if_pos (by simp)]
    rfl
  · rw [writes.frame]

theorem follows_pushOp (op : Op) : Follows (pushOp op) Line.pushNew :=
  follows_bind (follows_emit op) fun v => follows_bind (follows_push v) fun _ => follows_pure v

theorem follows_pushCall (c : PendingCall) : Follows (pushCall c) (Line.pushCall c) :=
  follows_of_eq fun h => by
    cases h
    exact ⟨rfl, rfl⟩

theorem follows_popCall : Follows popCall Line.popCall := by
  refine follows_of_eq fun {s a l} h => ?_
  obtain ⟨d, stack, loops, calls, assigns, dispatches, depths, live⟩ := s
  cases calls with
  | nil => cases h
  | cons c rest =>
      cases h
      exact ⟨rfl, rfl⟩

theorem follows_updateCall (f : PendingCall → Except Fault PendingCall) :
    Follows (updateCall f) (Line.updateCall f) := by
  refine follows_of_eq fun {s a l} h => ?_
  obtain ⟨d, stack, loops, calls, assigns, dispatches, depths, live⟩ := s
  cases calls with
  | nil => cases h
  | cons c rest =>
      obtain ⟨_, _, popped, h⟩ := Line.bind_eq_some.mp h
      cases popped
      obtain ⟨c', _, changed, h⟩ := Line.bind_eq_some.mp h
      cases result : f c with
      | error fault =>
          rw [Line.found, result] at changed
          cases changed
      | ok c'' =>
          rw [Line.found, result] at changed
          cases changed
          cases h
          refine ⟨rfl, ?_⟩
          rw [updateCall, Bracket.updateTop, result]
          rfl

theorem follows_addArg (a : CallArg) : Follows (modifyCall (·.addArg a)) (Line.addArg a) :=
  follows_updateCall _

/-- An operation whose value is added to the innermost call. -/
theorem follows_addOpArg (op : Op) : Follows (addOpArg op) (do
    let v ← Line.make
    Line.addArg { value := .value v }) := by
  intro s u l unended h
  have required : requireCall s = .ok () s := by
    obtain ⟨v, l', made, h⟩ := Line.bind_eq_some.mp h
    cases made
    obtain ⟨c, l'', popped, -⟩ := Line.bind_eq_some.mp h
    rw [requireCall]
    cases calls : s.calls with
    | nil =>
        rw [Line.popCall, show (s.line).calls = [] from calls] at popped
        cases popped
    | cons c rest => rfl
  obtain ⟨s', ran, rest⟩ :=
    follows_bind (follows_emit op) (fun v => follows_addArg { value := .value v }) unended h
  exact ⟨s', bind_eq_ok_iff.mpr ⟨(), s, required, ran⟩, rest⟩

theorem follows_pushAssign (a : PendingAssign) : Follows (pushAssign a) (Line.pushAssign a) :=
  follows_of_eq fun h => by
    cases h
    exact ⟨rfl, rfl⟩

theorem follows_popAssign : Follows popAssign Line.popAssign := by
  refine follows_of_eq fun {s a l} h => ?_
  obtain ⟨d, stack, loops, calls, assigns, dispatches, depths, live⟩ := s
  cases assigns with
  | nil => cases h
  | cons c rest =>
      cases h
      exact ⟨rfl, rfl⟩

/-- What an access to a layer is for is not seen on the line. -/
theorem follows_accessLayer {access : PendingAssign → Except Fault CallSite × PendingAssign}
    {α : Type} {f : CallSite → Lowering α} {g : Line.Step α} (rest : ∀ site, Follows (f site) g) :
    Follows (accessLayer access >>= f) (Line.accessLayer access >>= fun _ => g) := by
  intro s b l unended h
  obtain ⟨_, l', h₁, h₂⟩ := Line.bind_eq_some.mp h
  obtain ⟨a, l₁, popped, h₁⟩ := Line.bind_eq_some.mp h₁
  obtain ⟨site, l₂, looked, h₁⟩ := Line.bind_eq_some.mp h₁
  obtain ⟨d, stack, loops, calls, assigns, dispatches, depths, live⟩ := s
  cases assigns with
  | nil => cases popped
  | cons a' others =>
      cases popped
      cases result : (access a).1 with
      | error fault =>
          rw [Line.found, result] at looked
          cases looked
      | ok site' =>
          rw [Line.found, result] at looked
          cases looked
          cases h₁
          obtain ⟨s'', ran, writes, line⟩ := rest site (s :=
            ⟨d, stack, loops, calls, (access a).2 :: others, dispatches, depths, live⟩) unended h₂
          refine ⟨s'', bind_eq_ok_iff.mpr ⟨site, _, ?_, ran⟩, ⟨writes.draft, ?_⟩, line⟩
          · rw [accessLayer]
            simp only [result]
            rfl
          · rw [writes.frame]

section

variable (ctx : Context)

/-- A site is found where its expression is. -/
theorem follows_site {α : Type} {call : PoolIndex} {f : CallSite → Lowering α} {g : Line.Step α}
    (rest : Follows (f (.pool call)) g) :
    Follows (ctx.site call >>= f) (Line.found (ctx.pool.expr call) >>= fun _ => g) := by
  intro s b l unended h
  obtain ⟨e, l', looked, h⟩ := Line.bind_eq_some.mp h
  obtain ⟨s', ran, writes, line⟩ := follows_constant (ctx.pool.expr call) unended looked
  rw [← line] at h
  obtain ⟨s'', ran', writes', line'⟩ := rest (writes.draft.unended unended) h
  have site : ctx.site call s = .ok (.pool call) s' := bind_eq_ok_iff.mpr ⟨e, s', ran, rfl⟩
  exact ⟨s'', bind_eq_ok_iff.mpr ⟨_, s', site, ran'⟩, writes.trans writes', line'⟩

theorem follows_checkLiteral (literal : Literal) :
    Follows (checkLiteral ctx literal) (Line.checkLiteral ctx.pool literal) := by
  cases literal with
  | pool index => exact follows_bind (follows_constant _) fun _ => follows_pure ()
  | null => exact follows_pure ()
  | logical b => exact follows_pure ()

end

theorem follows_argValue (value : ArgValue) :
    Follows (argValue value) (Line.argValue value) := by
  cases value with
  | value v => exact follows_pure v
  | missing => exact follows_emit _
  | dots => exact follows_emit _

theorem follows_argValues (args : List CallArg) :
    Follows (argValues args) (Line.argValues args) := by
  induction args with
  | nil => exact follows_pure []
  | cons a rest ih =>
      exact follows_bind (follows_argValue a.value) fun v => follows_bind ih fun vs =>
        follows_pure _

theorem follows_pushResult (c : PendingCall) (site : CallSite) :
    Follows (emitCall c site >>= push) (Line.pushResult c) := by
  rw [emitCall, bind_assoc]
  refine follows_bind (follows_argValues c.args) fun args => ?_
  refine follows_bind ?_ follows_push
  cases c.callee with
  | builtin name => exact follows_emit _
  | value callee =>
      simp only
      split <;> exact follows_emit _

/-- A closed assignment is of the variable it was opened for. -/
theorem follows_guard {α : Type} {p : Prop} [Decidable p] {x : Lowering α} {y : Line.Step α}
    {fault : Fault} (rest : Follows x y) :
    Follows (if p then x else fail fault) (if p then y else failure) := by
  split
  · exact rest
  · intro s a l _ h
    cases h

section

variable (ctx : Context) (offset : Nat)

/-- Where an instruction is defined on the line, the pass lowers it and does the same there. -/
theorem follows_lower (i : Instruction) :
    Follows (lower ctx offset i) (Line.perform ctx.pool i) := by
  have undefined {x : Lowering Unit} : Follows x failure := fun _ _ _ _ h => nomatch h
  have made {x : Lowering ValueId} {y : Line.Step ValueId} (h : Follows x y) :
      Follows (x >>= fun _ => pure ()) (y >>= fun _ => pure ()) :=
    follows_bind h fun _ => follows_pure ()
  cases i with
  | load literal =>
      exact follows_bind (follows_checkLiteral ctx literal) fun _ => made (follows_pushOp _)
  | getVar symbol missingOk =>
      exact follows_bind (follows_constant _) fun _ => made (follows_pushOp _)
  | getDots symbol missingOk =>
      exact follows_bind (follows_constant _) fun _ => made (follows_pushOp _)
  | setVar scope symbol =>
      exact follows_bind (follows_constant _) fun _ => follows_bind (follows_peekNth 0) fun _ =>
        made (follows_emit _)
  | pop => exact made follows_pop
  | dup => exact follows_bind (follows_peekNth 0) follows_push
  | dup2nd => exact follows_bind (follows_peekNth 1) follows_push
  | swap => exact follows_swap
  | setLoopVal => exact follows_popTwo fun _ => made (follows_pushOp _)
  | setVisible visible => exact made (follows_emit _)
  | logicSecond connective call =>
      refine follows_bind follows_pop fun _ => follows_bind follows_pop fun _ => ?_
      exact follows_site ctx (follows_bind (follows_emit _) fun _ => made (follows_pushOp _))
  | getFun lookup symbol =>
      exact follows_bind (follows_constant _) fun _ => follows_bind (follows_emit _) fun _ =>
        follows_pushCall _
  | getBuiltin lookup symbol =>
      exact follows_bind (follows_constant _) fun _ => follows_pushCall _
  | checkFun => exact follows_bind follows_pop fun _ => follows_pushCall _
  | makePromise code => exact follows_bind (follows_constant _) fun _ => follows_addOpArg _
  | doMissing => exact follows_addArg _
  | doDots => exact follows_addArg _
  | setTag symbol => exact follows_bind (follows_constant _) fun _ => follows_updateCall _
  | pushArg => exact follows_bind follows_pop fun _ => follows_addArg _
  | pushLiteral literal =>
      exact follows_bind (follows_checkLiteral ctx literal) fun _ => follows_addOpArg _
  | finishCall kind call =>
      exact follows_bind follows_popCall fun c => follows_site ctx (follows_pushResult c _)
  | callSpecial call => exact follows_site ctx (made (follows_pushOp _))
  | makeClosure code =>
      exact follows_bind (follows_constant _) fun _ => made (follows_pushOp _)
  | binary op call =>
      exact follows_bind follows_pop fun _ => follows_bind follows_pop fun _ =>
        follows_site ctx (made (follows_pushOp _))
  | unary op call =>
      exact follows_bind follows_pop fun _ => follows_site ctx (made (follows_pushOp _))
  | isType test => exact follows_bind follows_pop fun _ => made (follows_pushOp _)
  | startAssign scope symbol call =>
      refine follows_bind (follows_constant _) fun name => ?_
      refine follows_bind (follows_peekNth 0) fun rhs => ?_
      refine follows_bind (follows_constant _) fun e => ?_
      refine follows_bind (follows_ofExcept _) fun pending => ?_
      refine follows_bind (follows_emit _) fun target => ?_
      refine follows_bind (follows_push target) fun _ => ?_
      exact follows_bind (follows_push rhs) fun _ => follows_pushAssign pending
  | endAssign scope symbol =>
      refine follows_bind (follows_constant _) fun name => ?_
      refine follows_bind follows_popAssign fun pending => ?_
      exact follows_guard (follows_bind follows_pop fun _ => made (follows_emit _))
  | getterCall layer =>
      exact follows_accessLayer fun site => follows_bind follows_pop fun x =>
        follows_bind follows_popCall fun c => follows_pushResult _ site
  | setterCall layer =>
      exact follows_accessLayer fun site => follows_bind follows_pop fun value =>
        follows_bind follows_pop fun x => follows_bind follows_popCall fun c =>
          follows_pushResult _ site
  | hint _ => exact follows_pure ()
  | _ => exact undefined

/-- Straight-line code that no label interrupts is lowered to statements of one block. -/
theorem exists_run_of_run? {code : List Instruction} {offset : Nat} {s : State} {l : Line}
    (unended : s.draft.Unended) (done : Line.run? ctx.pool code s.line = some l)
    (live : s.live = true)
    (inner : ∀ k, offset ≤ k → k < offset + code.length → ctx.labels.blockAt? k = none) :
    ∃ s', run ctx offset code s = .ok s' ∧ s.Writes s' ∧ s'.line = l := by
  induction code generalizing offset s with
  | nil =>
      cases done
      exact ⟨s, rfl, .refl s, rfl⟩
  | cons i rest ih =>
      obtain ⟨⟨_, l'⟩, performed, done⟩ := Option.bind_eq_some_iff.mp done
      obtain ⟨t, lowered, writes, line⟩ := follows_lower ctx offset i unended performed
      have stepped : step ctx offset i s = .ok () t :=
        step_of_lower (inner offset (Nat.le_refl _) (by simp)) live (Line.not_diverts performed)
          lowered
      have live' : t.live = true := by
        rw [writes.frame]
        exact live
      have inner' (k : Nat) (from_ : offset + 1 ≤ k) (until_ : k < offset + 1 + rest.length) :
          ctx.labels.blockAt? k = none :=
        inner k (by omega) (by rw [List.length_cons]; omega)
      obtain ⟨s', ran, writes', line'⟩ :=
        ih (writes.draft.unended unended) (line ▸ done) live' inner'
      exact ⟨s', run_cons.mpr ⟨t, stepped, ran⟩, writes.trans writes', line'⟩

end

end Lowering

end StackLift
