import StackLift.Proofs.Dispatch.Line
import StackLift.Proofs.Lower.Quiet

/-!
Emission. What straight-line code adds to the graph is a list of operations, appended to the block
under construction in order; the values they define are numbered as they come
(`Draft.block?_emitAll`). For code that is followed on the line alone the operations exist
(`exists_emission_of_run?`); for a call with complete arguments they are said outright
(`emitCall_eq`). `Emission` puts pieces of code together, and `Emission.run` gives back the pass.
-/

namespace StackLift

/-! ### Operations in a block -/

/-- The statements that operations become where the next value is the `n`-th. -/
@[simp] def Stmt.ofOps (n : Nat) : List Op → List Stmt
  | [] => []
  | op :: rest => ⟨⟨n⟩, op⟩ :: ofOps (n + 1) rest

namespace Draft

/-- Appends operations to the block under construction. -/
@[simp] def emitAll (d : Draft) : List Op → Draft
  | [] => d
  | op :: rest => (d.emitted op).emitAll rest

theorem emitAll_append (d : Draft) (ops ops' : List Op) :
    d.emitAll (ops ++ ops') = (d.emitAll ops).emitAll ops' := by
  induction ops generalizing d with
  | nil => rfl
  | cons op rest ih => exact ih _

@[simp] theorem length_values_emitAll (d : Draft) (ops : List Op) :
    (d.emitAll ops).graph.values.length = d.graph.values.length + ops.length := by
  induction ops generalizing d with
  | nil => rfl
  | cons op rest ih =>
      have one : (d.emitted op).graph.values.length = d.graph.values.length + 1 := by
        simp [values_emitted]
      rw [emitAll, ih, one, List.length_cons]
      omega

@[simp] theorem cursor_emitAll (d : Draft) (ops : List Op) : (d.emitAll ops).cursor = d.cursor := by
  induction ops generalizing d with
  | nil => rfl
  | cons op rest ih => exact ih _

/-- The block under construction gets the statements, and every other block stays as it is. -/
theorem block?_emitAll (d : Draft) (ops : List Op) (b : BlockId) :
    (d.emitAll ops).graph.block? b = if b = d.cursor then
      (d.graph.block? b).map fun block =>
        { block with stmts := block.stmts ++ Stmt.ofOps d.graph.values.length ops }
      else d.graph.block? b := by
  induction ops generalizing d with
  | nil => cases live : d.graph.block? b <;> simp [live]
  | cons op rest ih =>
      have one : (d.emitted op).graph.values.length = d.graph.values.length + 1 :=
        length_values_emitAll d [op]
      rw [emitAll, ih, one, block?_emitted]
      change (if b = d.cursor then _ else _) = _
      by_cases here : b = d.cursor
      · simp only [if_pos here, Option.map_map]
        congr 1
        funext block
        simp [Block.append, Graph.nextValue]
      · simp only [if_neg here]

theorem grows_emitAll {d : Draft} (isOpen : d.Open) (ops : List Op) : d.Grows (d.emitAll ops) := by
  induction ops generalizing d with
  | nil => exact .refl d
  | cons op rest ih => exact (grows_emitted isOpen).trans (ih (isOpen.emit op))

theorem Unended.emitAll {d : Draft} (unended : d.Unended) (ops : List Op) :
    (d.emitAll ops).Unended := by
  rw [Unended, Graph.isTerminated, cursor_emitAll, block?_emitAll, if_pos rfl, Option.any_map]
  exact unended

/-- The operations are the last statements of the block under construction. -/
theorem exists_emitAll {d : Draft} (isOpen : d.Open) (ops : List Op) :
    ∃ block, (d.emitAll ops).graph.block? d.cursor = some block ∧
      block.stmts.drop d.stmtIndex = Stmt.ofOps d.graph.values.length ops := by
  obtain ⟨block, live, -⟩ := isOpen
  refine ⟨_, by rw [block?_emitAll, if_pos rfl, live, Option.map_some], ?_⟩
  rw [stmtIndex_eq live]
  exact List.drop_left

end Draft

/-- The number of values made so far, which is the number of the next one. -/
def State.made (s : State) : Nat := s.draft.graph.values.length

/-- The operations were emitted, and besides them only the stack and the open calls and assignments
have changed. -/
def State.Emits (s : State) (ops : List Op) (t : State) : Prop :=
  t = { s with draft := s.draft.emitAll ops, stack := t.stack, calls := t.calls,
               assigns := t.assigns }

namespace State.Emits

variable {s t u : State} {ops ops' : List Op}

theorem draft (emits : s.Emits ops t) : t.draft = s.draft.emitAll ops := by
  rw [emits]

theorem live (emits : s.Emits ops t) : t.live = s.live := by
  rw [emits]

theorem unended (emits : s.Emits ops t) (unended : s.draft.Unended) : t.draft.Unended := by
  rw [emits.draft]
  exact unended.emitAll ops

theorem made (emits : s.Emits ops t) : t.made = s.made + ops.length := by
  rw [State.made, emits.draft, Draft.length_values_emitAll]
  rfl

theorem trans (first : s.Emits ops t) (second : t.Emits ops' u) : s.Emits (ops ++ ops') u := by
  have draft := second.draft
  rw [first.draft, ← Draft.emitAll_append] at draft
  rw [State.Emits] at first second
  rw [State.Emits, ← draft, second, first]

end State.Emits

namespace Lowering

/-! ### Code -/

/-- The pass lowers the instructions, which stand at an offset, one after the other to the
operations, and stays in the block under construction. -/
inductive Emission (ctx : Context) : Nat → List Instruction → State → List Op → State → Prop
  | nil (offset : Nat) (s : State) : Emission ctx offset [] s [] s
  | cons {offset : Nat} {i : Instruction} {code : List Instruction} {s t u : State}
      {ops ops' : List Op} (goesOn : i.diverts = false) (lowers : lower ctx offset i s = .ok () t)
      (emits : s.Emits ops t) (rest : Emission ctx (offset + 1) code t ops' u) :
      Emission ctx offset (i :: code) s (ops ++ ops') u

section

variable {ctx : Context} {offset : Nat} {code code' : List Instruction} {s t u : State}
  {ops ops' : List Op}

theorem Emission.one {i : Instruction} (goesOn : i.diverts = false)
    (lowers : lower ctx offset i s = .ok () t) (emits : s.Emits ops t) :
    Emission ctx offset [i] s ops t := by
  have lowered := Emission.cons goesOn lowers emits (.nil (offset + 1) t)
  rwa [List.append_nil] at lowered

theorem Emission.append (first : Emission ctx offset code s ops t)
    (second : Emission ctx (offset + code.length) code' t ops' u) :
    Emission ctx offset (code ++ code') s (ops ++ ops') u := by
  induction first with
  | nil => exact second
  | cons goesOn lowers emits _ ih =>
      rw [List.length_cons, ← Nat.add_assoc, Nat.add_right_comm] at second
      rw [List.cons_append, List.append_assoc]
      exact .cons goesOn lowers emits (ih second)

theorem Emission.emits (lowered : Emission ctx offset code s ops t) : s.Emits ops t := by
  induction lowered with
  | nil => rfl
  | cons _ _ emits _ ih => exact emits.trans ih

/-- Straight-line code at whose first instruction the pass arrives is gone through. -/
theorem Emission.run {s₀ : State} (lowered : Emission ctx offset code s ops t) (some : code ≠ [])
    (arrives : arrive ctx offset s₀ = .ok () s) (live : s.live = true)
    (inner : ∀ k, offset < k → k < offset + code.length → ctx.labels.blockAt? k = none) :
    run ctx offset code s₀ = .ok t := by
  induction lowered generalizing s₀ with
  | nil => exact absurd rfl some
  | @cons offset i code s t u ops ops' goesOn lowers emits rest ih =>
      have stepped : step ctx offset i s₀ = .ok () t := by
        refine step_eq_ok.mpr ⟨s, arrives, .inl ⟨live, t, lowers, ?_⟩⟩
        rw [goesOn]
        rfl
      refine run_cons.mpr ⟨t, stepped, ?_⟩
      rcases code with _ | ⟨j, code⟩
      · cases rest
        rfl
      · have unnamed := inner (offset + 1) (by omega) (by simp)
        refine ih (by simp) (arrive_of_unnamed unnamed t) (emits.live.trans live) fun k lt le => ?_
        exact inner k (by omega) (by rw [List.length_cons]; omega)

end

/-! ### Code that is followed on the line -/

/-- A step that succeeds only emits operations. -/
def Emitting {α : Type} (x : Lowering α) : Prop :=
  ∀ ⦃s t : State⦄ ⦃a : α⦄, x s = .ok a t → ∃ ops, t.draft = s.draft.emitAll ops

section

variable {α β : Type}

theorem emitting_of_quiet {x : Lowering α} (quiet : Quiet x) : Emitting x :=
  fun _ _ _ h => ⟨[], quiet.draft h⟩

theorem emitting_bind {x : Lowering α} {f : α → Lowering β} (first : Emitting x)
    (rest : ∀ a, Emitting (f a)) : Emitting (x >>= f) := by
  intro s t b h
  obtain ⟨a, u, h₁, h₂⟩ := bind_eq_ok_iff.mp h
  obtain ⟨ops, draft⟩ := first h₁
  obtain ⟨ops', draft'⟩ := rest a h₂
  exact ⟨ops ++ ops', by rw [draft', draft, Draft.emitAll_append]⟩

theorem emitting_after {x : Lowering α} {f : α → Lowering β} (first : Quiet x)
    (rest : ∀ a, Emitting (f a)) : Emitting (x >>= f) :=
  emitting_bind (emitting_of_quiet first) rest

theorem emitting_emit (op : Op) : Emitting (emit op) := by
  intro s t v h
  obtain ⟨rfl, rfl⟩ := emit_eq_ok h
  exact ⟨[op], rfl⟩

theorem emitting_made {x : Lowering α} (first : Emitting x) :
    Emitting (x >>= fun _ => (pure () : Lowering Unit)) :=
  emitting_bind first fun _ => emitting_of_quiet (quiet_pure _)

theorem emitting_pushOp (op : Op) : Emitting (pushOp op) :=
  emitting_bind (emitting_emit op) fun v => emitting_after (quiet_push v) fun _ =>
    emitting_of_quiet (quiet_pure v)

theorem emitting_addOpArg (op : Op) : Emitting (addOpArg op) :=
  emitting_after quiet_requireCall fun _ => emitting_bind (emitting_emit op) fun _ =>
    emitting_of_quiet (quiet_modifyCall _)

end

/-! ### Calls -/

end Lowering

/-- The operation that marks an argument without a value of its own. -/
def ArgValue.mark? : ArgValue → Option Op
  | .value _ => none
  | .missing => some .missingArg
  | .dots => some .expandDots

namespace CallArg

/-- The values that stand for arguments where the next value is the `n`-th: their own, and for the
others those of the marks, in order. -/
@[simp] def values (n : Nat) : List CallArg → List ValueId
  | [] => []
  | ⟨.value v, _⟩ :: rest => v :: values n rest
  | ⟨.missing, _⟩ :: rest | ⟨.dots, _⟩ :: rest => ⟨n⟩ :: values (n + 1) rest

def marks (args : List CallArg) : List Op := args.filterMap (·.value.mark?)

end CallArg

namespace PendingCall

/-- The call itself, on the values that stand for its arguments. -/
def op (c : PendingCall) (args : List ValueId) (site : CallSite) : Op :=
  match c.callee with
  | .builtin name => .callBuiltin name args site
  | .value callee =>
    if c.hasNames then .namedCall callee args (c.args.map CallArg.name) site
    else .call callee args site

/-- What a call with complete arguments becomes where the next value is the `n`-th: the marks, and
last the call. -/
def ops (c : PendingCall) (n : Nat) (site : CallSite) : List Op :=
  CallArg.marks c.args ++ [c.op (CallArg.values n c.args) site]

/-- The value of a call. -/
def result (c : PendingCall) (n : Nat) : ValueId := ⟨n + (CallArg.marks c.args).length⟩

end PendingCall

namespace Lowering

theorem bind_of_ok {α β : Type} {x : Lowering α} {f : α → Lowering β} {s t : State} {a : α}
    (h : x s = .ok a t) : (x >>= f) s = f a t := by
  change EStateM.bind x f s = _
  rw [EStateM.bind, h]

theorem argValues_eq {s : State} (unended : s.draft.Unended) (args : List CallArg) :
    argValues args s = .ok (CallArg.values s.made args)
      { s with draft := s.draft.emitAll (CallArg.marks args) } := by
  induction args generalizing s with
  | nil => rfl
  | cons a rest ih =>
      rw [argValues]
      obtain ⟨value, name⟩ := a
      -- after a mark the next value is one further
      have marked (op : Op) := ih (s := { s with draft := s.draft.emitted op })
        (unended.emitAll [op])
      have next (op : Op) : State.made { s with draft := s.draft.emitted op } = s.made + 1 :=
        Draft.length_values_emitAll s.draft [op]
      simp only [next] at marked
      cases value with
      | value v => exact bind_eq_ok_iff.mpr ⟨v, s, rfl, bind_eq_ok_iff.mpr ⟨_, _, ih unended, rfl⟩⟩
      | missing | dots =>
          exact bind_eq_ok_iff.mpr ⟨_, _, emit_of_unended unended _,
            bind_eq_ok_iff.mpr ⟨_, _, marked _, rfl⟩⟩

theorem emitCall_eq {s : State} (unended : s.draft.Unended) (c : PendingCall) (site : CallSite) :
    emitCall c site s = .ok (c.result s.made)
      { s with draft := s.draft.emitAll (c.ops s.made site) } := by
  rw [emitCall]
  refine bind_eq_ok_iff.mpr ⟨_, _, argValues_eq unended c.args, ?_⟩
  have emitted (op : Op) : emit op { s with draft := s.draft.emitAll (CallArg.marks c.args) } =
      .ok (c.result s.made) { s with
        draft := s.draft.emitAll (CallArg.marks c.args ++ [op]) } := by
    rw [emit_of_unended (unended.emitAll _), Draft.emitAll_append]
    change EStateM.Result.ok (⟨(s.draft.emitAll _).graph.values.length⟩ : ValueId) _ = _
    rw [Draft.length_values_emitAll]
    rfl
  rw [PendingCall.ops, PendingCall.op]
  cases c.callee with
  | builtin name => exact emitted _
  | value callee =>
      simp only
      split
      · exact emitted _
      · exact emitted _

theorem emitting_argValues (args : List CallArg) : Emitting (argValues args) := by
  induction args with
  | nil => exact emitting_of_quiet (quiet_pure [])
  | cons a rest ih =>
      have argument : Emitting (argValue a.value) := by
        cases a.value with
        | value v => exact emitting_of_quiet (quiet_pure v)
        | missing | dots => exact emitting_emit _
      exact emitting_bind argument fun v => emitting_bind ih fun vs =>
        emitting_of_quiet (quiet_pure (v :: vs))

theorem emitting_emitCall (c : PendingCall) (site : CallSite) : Emitting (emitCall c site) := by
  refine emitting_bind (emitting_argValues c.args) fun args => ?_
  cases c.callee with
  | builtin name => exact emitting_emit _
  | value callee =>
      simp only
      split
      · exact emitting_emit _
      · exact emitting_emit _

/-- An instruction that is defined on the line only emits operations. -/
theorem emitting_lower {ctx : Context} {offset : Nat} {i : Instruction} {l : Line} {r : Unit × Line}
    (defined : Line.perform ctx.pool i l = some r) : Emitting (lower ctx offset i) := by
  cases i with
  | load literal =>
      exact emitting_after (quiet_checkLiteral ctx literal) fun _ =>
        emitting_made (emitting_pushOp _)
  | getVar symbol missingOk | getDots symbol missingOk =>
      exact emitting_after (quiet_symbol ctx symbol) fun _ => emitting_made (emitting_pushOp _)
  | setVar scope symbol =>
      exact emitting_after (quiet_symbol ctx symbol) fun _ => emitting_after (quiet_peekNth 0)
        fun _ => emitting_made (emitting_emit _)
  | pop => exact emitting_made (emitting_of_quiet quiet_pop)
  | dup => exact emitting_of_quiet (quiet_bind (quiet_peekNth 0) quiet_push)
  | dup2nd => exact emitting_of_quiet (quiet_bind (quiet_peekNth 1) quiet_push)
  | swap => exact emitting_of_quiet quiet_swap
  | setLoopVal => exact emitting_after (quiet_popN 2) fun _ => emitting_made (emitting_pushOp _)
  | setVisible visible => exact emitting_made (emitting_emit _)
  | logicSecond connective call =>
      exact emitting_after quiet_pop fun _ => emitting_after quiet_pop fun _ =>
        emitting_after (quiet_site ctx call) fun _ => emitting_bind (emitting_emit _) fun _ =>
          emitting_made (emitting_pushOp _)
  | getFun lookup symbol =>
      exact emitting_after (quiet_symbol ctx symbol) fun _ => emitting_bind (emitting_emit _)
        fun _ => emitting_of_quiet (quiet_pushCall _)
  | getBuiltin internal symbol =>
      exact emitting_after (quiet_symbol ctx symbol) fun _ => emitting_of_quiet (quiet_pushCall _)
  | checkFun => exact emitting_after quiet_pop fun _ => emitting_of_quiet (quiet_pushCall _)
  | makePromise code =>
      exact emitting_after (quiet_constant _) fun _ => emitting_addOpArg _
  | doMissing | doDots => exact emitting_of_quiet (quiet_modifyCall _)
  | setTag symbol =>
      exact emitting_after (quiet_symbol ctx symbol) fun name =>
        emitting_of_quiet (quiet_updateCall fun c => c.local_nameLast name)
  | pushArg => exact emitting_after quiet_pop fun _ => emitting_of_quiet (quiet_modifyCall _)
  | pushLiteral literal =>
      exact emitting_after (quiet_checkLiteral ctx literal) fun _ => emitting_addOpArg _
  | finishCall builtin call =>
      exact emitting_after quiet_popCall fun c => emitting_after (quiet_site ctx call) fun _ =>
        emitting_bind (emitting_emitCall c _) fun v => emitting_of_quiet (quiet_push v)
  | callSpecial call =>
      exact emitting_after (quiet_site ctx call) fun _ => emitting_made (emitting_pushOp _)
  | makeClosure code =>
      exact emitting_after (quiet_constant _) fun _ => emitting_made (emitting_pushOp _)
  | binary op call =>
      exact emitting_after quiet_pop fun _ => emitting_after quiet_pop fun _ =>
        emitting_after (quiet_site ctx call) fun _ => emitting_made (emitting_pushOp _)
  | unary op call =>
      exact emitting_after quiet_pop fun _ => emitting_after (quiet_site ctx call) fun _ =>
        emitting_made (emitting_pushOp _)
  | isType test => exact emitting_after quiet_pop fun _ => emitting_made (emitting_pushOp _)
  | startAssign scope symbol call =>
      refine emitting_after (quiet_symbol ctx symbol) fun name => ?_
      refine emitting_after (quiet_peekNth 0) fun rhs => ?_
      refine emitting_after (quiet_constant _) fun e => ?_
      refine emitting_after (quiet_ofExcept (PendingAssign.local_start scope name e)) fun a => ?_
      refine emitting_bind (emitting_emit _) fun target => ?_
      exact emitting_of_quiet (quiet_bind (quiet_push target) fun _ =>
        quiet_bind (quiet_push rhs) fun _ => quiet_pushAssign a)
  | endAssign scope symbol =>
      refine emitting_after (quiet_symbol ctx symbol) fun name => ?_
      refine emitting_after quiet_popAssign fun pending => ?_
      split
      · exact emitting_after quiet_pop fun _ => emitting_made (emitting_emit _)
      · exact emitting_of_quiet (quiet_fail rfl)
  | getterCall layer =>
      refine emitting_after (quiet_accessLayer fun a => a.local_getter layer.toNat) fun site => ?_
      refine emitting_after quiet_pop fun x => emitting_after quiet_popCall fun c => ?_
      exact emitting_bind (emitting_emitCall _ site) fun v => emitting_of_quiet (quiet_push v)
  | setterCall layer =>
      refine emitting_after (quiet_accessLayer fun a => a.local_setter layer.toNat) fun site => ?_
      refine emitting_after quiet_pop fun value => emitting_after quiet_pop fun x => ?_
      refine emitting_after quiet_popCall fun c => ?_
      exact emitting_bind (emitting_emitCall _ site) fun v => emitting_of_quiet (quiet_push v)
  | hint h => exact emitting_of_quiet (quiet_pure ())
  | _ => cases defined

/-- Code that is followed on the line is lowered to some operations. -/
theorem exists_emission_of_run? {ctx : Context} {code : List Instruction} {s : State} {l : Line}
    (offset : Nat) (unended : s.draft.Unended) (done : Line.run? ctx.pool code s.line = some l) :
    ∃ ops t, Emission ctx offset code s ops t ∧ t.line = l := by
  induction code generalizing offset s with
  | nil =>
      cases done
      exact ⟨[], s, .nil offset s, rfl⟩
  | cons i rest ih =>
      obtain ⟨⟨_, l'⟩, performed, done⟩ := Option.bind_eq_some_iff.mp done
      obtain ⟨t, lowers, writes, line⟩ := follows_lower ctx offset i unended performed
      obtain ⟨ops, draft⟩ := emitting_lower performed lowers
      have emits : s.Emits ops t := by
        rw [State.Emits, ← draft]
        exact writes.frame
      obtain ⟨ops', u, lowered, line'⟩ := ih (offset + 1) (emits.unended unended) (line ▸ done)
      exact ⟨ops ++ ops', u, .cons (Line.not_diverts performed) lowers emits lowered, line'⟩

end Lowering

end StackLift
