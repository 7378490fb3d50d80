import StackLift.Proofs.Dominance
import StackLift.Proofs.Nesting.Run

/-!
Accesses that dispatch on the class of their target. The fast path of an access takes its
indices from a call that was opened with the dispatch, and the pass finds both by position:
they are the innermost of their kinds. In nested code they belong together, so an access
takes just the arguments that were added to it; in other code they need not.
-/

namespace StackLift

open Lowering

/-- The arguments that are added between two offsets of a unit to the bracket opened at the
first. -/
def CodeUnit.ownArgs (unit : CodeUnit) (pool : Pool) (kind : UnitKind) (j k : Nat) :
    List ArgValue :=
  match LabelMap.resolve unit pool (.new unit.displayName) with
  | .ok labels draft => Lowering.ownArgs ⟨pool, labels, kind⟩ unit.instructions { draft } j k
  | .error _ _ => []

/-! ### Statements of a graph -/

/-- The statement at a point. -/
def Graph.stmt? (g : Graph) (p : Point) : Option Stmt := (g.block? p.block).bind (·.stmts[p.index]?)

theorem Draft.Grows.stmt? {d d' : Draft} (grows : d.Grows d') {p : Point} {s : Stmt}
    (get : d.graph.stmt? p = some s) : d'.graph.stmt? p = some s := by
  obtain ⟨block, live, get⟩ := Option.bind_eq_some_iff.mp get
  obtain ⟨block', live', more⟩ := grows.block live
  rw [Graph.stmt?, live', Option.bind_some]
  exact getElem?_of_isPrefix more.stmts get

theorem Draft.stmt?_emitted {d : Draft} (isOpen : d.Open) (op : Op) :
    (d.emitted op).graph.stmt? d.point = some ⟨d.graph.nextValue, op⟩ := by
  obtain ⟨block, live, get, -⟩ := Draft.stmt_emitted op isOpen
  rw [Graph.stmt?, Draft.point, live, Option.bind_some, get]

namespace Lowering

/-- The block of a point is under construction. -/
structure At (p : Point) (s : State) : Prop where
  isOpen : s.draft.Open
  block : s.draft.cursor = p.block
  index : p.index ≤ s.draft.stmtIndex

/-- An operation was emitted at a point or after it. -/
def Emits (p : Point) (g : Graph) (op : Op) : Prop :=
  ∃ v n, p.index ≤ n ∧ g.stmt? ⟨p.block, n⟩ = some ⟨v, op⟩

theorem Emits.mono {p : Point} {d d' : Draft} {op : Op} (emits : Emits p d.graph op)
    (grows : d.Grows d') : Emits p d'.graph op := by
  obtain ⟨v, n, le, get⟩ := emits
  exact ⟨v, n, le, grows.stmt? get⟩

section

variable {p : Point} {s s' : State} {v : ValueId}

theorem At.emit {op : Op} (at_ : At p s) (h : emit op s = .ok v s') : At p s' ∧ Emits p s'.draft.graph op := by
  obtain ⟨isOpen, block, index⟩ := at_
  obtain ⟨-, rfl⟩ := emit_eq_ok h
  refine ⟨⟨isOpen.emit op, block, ?_⟩, s.draft.graph.nextValue, s.draft.stmtIndex, index, ?_⟩
  · exact Nat.le_trans index ((Draft.grows_emitted isOpen).stmtIndex_le rfl)
  · rw [← block]
    exact Draft.stmt?_emitted isOpen op

theorem At.argValues {args : List CallArg} {vs : List ValueId} (at_ : At p s)
    (h : argValues args s = .ok vs s') : At p s' ∧ (args.flatMap (·.value.values)).Sublist vs := by
  induction args generalizing s vs with
  | nil =>
      cases h
      exact ⟨at_, .slnil⟩
  | cons a rest ih =>
      obtain ⟨v, s₁, h₁, h⟩ := bind_eq_ok_iff.mp h
      obtain ⟨vs', s₂, h₂, h⟩ := bind_eq_ok_iff.mp h
      cases h
      rw [List.flatMap_cons]
      obtain ⟨value, name⟩ := a
      cases value with
      | value w =>
          cases h₁
          obtain ⟨at₂, less⟩ := ih at_ h₂
          exact ⟨at₂, less.cons_cons v⟩
      | missing =>
          obtain ⟨at₂, less⟩ := ih (at_.emit h₁).1 h₂
          exact ⟨at₂, less.cons v⟩
      | dots =>
          obtain ⟨at₂, less⟩ := ih (at_.emit h₁).1 h₂
          exact ⟨at₂, less.cons v⟩

/-- The default operation is one operation, and it has the arguments in their order. -/
theorem At.defaultFromCall {kind : DispatchKind} {c : PendingCall} {target : ValueId}
    {rhs : Option ValueId} {site : CallSite} (at_ : At p s)
    (h : defaultFromCall kind c target rhs site s = .ok v s') :
    ∃ op, Emits p s'.draft.graph op ∧
      ((c.args.drop 1).flatMap (·.value.values)).Sublist op.operands := by
  have all : ((c.args.drop 1).flatMap (·.value.values)).Sublist (c.args.flatMap (·.value.values)) := by
    conv => rhs; rw [← List.take_append_drop 1 c.args, List.flatMap_append]
    exact List.sublist_append_right _ _
  simp only [Lowering.defaultFromCall] at h
  split at h
  · obtain ⟨args, s₁, h₁, h⟩ := bind_eq_ok_iff.mp h
    obtain ⟨at₁, given⟩ := at_.argValues h₁
    cases callee : c.callee with
    | builtin name =>
        rw [callee] at h
        exact ⟨_, (at₁.emit h).2, all.trans given⟩
    | value callee' =>
        rw [callee] at h
        simp only at h
        split at h
        · exact ⟨_, (at₁.emit h).2, (all.trans given).cons _⟩
        · exact ⟨_, (at₁.emit h).2, (all.trans given).cons _⟩
  · split at h
    · obtain ⟨indices, s₁, h₁, h⟩ := bind_eq_ok_iff.mp h
      obtain ⟨at₁, given⟩ := at_.argValues h₁
      cases rhs with
      | none => exact ⟨_, (at₁.emit h).2, given.cons _⟩
      | some value =>
          exact ⟨_, (at₁.emit h).2, (given.trans (List.sublist_append_left _ _)).cons _⟩
    · obtain ⟨callee, s₁, h₁, h⟩ := bind_eq_ok_iff.mp h
      obtain ⟨args, s₂, h₂, h⟩ := bind_eq_ok_iff.mp h
      obtain ⟨at₂, given⟩ := (at_.emit h₁).1.argValues h₂
      refine ⟨_, (at₂.emit h).2, (List.Sublist.trans (all.trans ?_) given).cons _⟩
      cases rhs with
      | none => exact List.Sublist.refl _
      | some value =>
          show List.Sublist _ ((c.args ++ [_]).flatMap _)
          rw [List.flatMap_append]
          exact List.sublist_append_left _ _

end

/-! ### The test and the access -/

section

variable {ctx : Context} {carry : Carry} {base : Draft} {aside : BlockId → Prop} {s s' : State}

/-- A dispatch begins with the test of its target. -/
theorem Inv.stmt?_startDispatch {kind : DispatchKind} {call : PoolIndex} {label : Label}
    {target : ValueId} (inv : Inv ctx carry base aside .begun [] s)
    (top : s.stack.items[if kind.isWrite then 1 else 0]? = some target)
    (h : Lowering.startDispatch ctx kind call label s = .ok () s') :
    s'.draft.graph.stmt? s.draft.point = some ⟨s.draft.graph.nextValue, .isPlain target⟩ := by
  obtain ⟨_, -, h⟩ := constant_bind_eq_ok.mp h
  obtain ⟨after, found, h⟩ := target_bind_eq_ok.mp h
  have named := (ensures_target label s after s inv (by rw [Context.target, found]; rfl)).2
  obtain ⟨rhs, s₁, h₁, h⟩ := bind_eq_ok_iff.mp h
  have inv₁ := (inv.conducts_popRhs (F := .any) kind).result h₁
  obtain ⟨frame, -⟩ := popRhs_frame h₁
  obtain ⟨target', isTop, h⟩ := peekNth_bind_eq_ok.mp h
  obtain rfl : target' = target := by
    rw [frame] at isTop
    rw [List.getElem?_drop, Nat.add_zero, top] at isTop
    exact (Option.some.inj isTop).symm
  have inv₂ := ensures_peekNth 0 s₁ target' s₁ inv₁ (by
    rw [Lowering.peekNth, OperandStack.peekNth, isTop]
    rfl)
  obtain ⟨plain, s₂, h₂, h⟩ := bind_eq_ok_iff.mp h
  have inv₃ := inv₂.emit (by simp) h₂ (by simp [Op.inputs, Op.operands, Phase.reads])
  obtain ⟨-, grows⟩ := inv₃.of_rebase
    ((inv₃.rebase.conducts_startPaths (F := .any) named).result h)
  refine grows.stmt? ?_
  obtain ⟨-, rfl⟩ := emit_eq_ok h₂
  rw [frame]
  exact Draft.stmt?_emitted inv.phase.1 _

/-- The access has the arguments of the innermost call. -/
theorem Inv.emits_endDispatch {offset : Nat} {kind : DispatchKind} {c : PendingCall}
    {rest : List PendingCall} (distinct : ctx.labels.Distinct)
    (inv : Inv ctx carry base (ctx.Ahead (offset + 1)) .begun [] s)
    (held : ∀ v ∈ s.heldByDispatch kind, (v, .value) ∈ carry.values) (calls : s.calls = c :: rest)
    (h : Lowering.endDispatch ctx offset kind s = .ok () s') :
    ∃ op, Emits carry.point s'.draft.graph op ∧
      ((c.args.drop 1).flatMap (·.value.values)).Sublist op.operands := by
  obtain ⟨p, s₁, h₁, h⟩ := bind_eq_ok_iff.mp h
  obtain ⟨_, dispatches, rfl, inv₁⟩ := inv.popDispatch h₁
  obtain ⟨c', s₂, h₂, h⟩ := bind_eq_ok_iff.mp h
  obtain ⟨_, isCalls, -, inv₂⟩ := inv₁.popCall h₂
  obtain ⟨rfl, -⟩ := List.cons.inj (calls.symm.trans isCalls)
  rw [State.heldByDispatch, dispatches, calls] at held
  obtain ⟨target, s₃, h₃, h⟩ := bind_eq_ok_iff.mp h
  have inv₃ := ensures_pop s₂ target s₃ inv₂ h₃
  obtain ⟨result, s₄, h₄, h₅⟩ := bind_eq_ok_iff.mp h
  have at_ : At carry.point s₃ := ⟨inv₃.phase.1, inv₃.phase.2.1, inv₃.phase.2.2⟩
  obtain ⟨op, emits, given⟩ := at_.defaultFromCall h₄
  obtain ⟨inv₄, -⟩ := (inv₃.conducts_defaultFromCall (F := .any) _
    (fun w hw => List.mem_append_right _ (held w hw)) List.mem_cons_self).result h₄
  obtain ⟨-, grows⟩ := (inv₄.conducts_joinAfter (F := .any) distinct List.mem_cons_self).result h₅
  exact ⟨op, emits.mono grows, given⟩

theorem Inv.emits_of_closes {offset : Nat} {kind : DispatchKind} {i : Instruction} {c : PendingCall}
    {rest : List PendingCall} (distinct : ctx.labels.Distinct)
    (inv : Inv ctx (carryOf s i) base (ctx.Ahead (offset + 1)) .begun [] s)
    (closes : i.closes? = some (.dispatch kind)) (notNary : kind.isNary = false)
    (calls : s.calls = c :: rest) (h : Lowering.lower ctx offset i s = .ok () s') :
    ∃ op, Emits s.draft.point s'.draft.graph op ∧
      ((c.args.drop 1).flatMap (·.value.values)).Sublist op.operands := by
  have held : s.held i = (s.heldByDispatch kind).map (·, .value) →
      ∀ v ∈ s.heldByDispatch kind, (v, .value) ∈ (carryOf s i).values := by
    intro same v mem
    show (v, .value) ∈ s.held i
    rw [same]
    exact List.mem_map_of_mem mem
  cases i with
  | endAccess access =>
      cases closes
      exact inv.emits_endDispatch distinct (held rfl) calls h
  | endCombine =>
      cases closes
      exact inv.emits_endDispatch distinct (held rfl) calls h
  | endAccessN access count =>
      cases closes
      cases notNary
  | _ => cases closes

end

theorem flatMap_values (args : List CallArg) :
    args.flatMap (·.value.values) = (args.map (·.value)).flatMap (·.values) := by
  rw [List.flatMap_map]

end Lowering

namespace CodeUnit.Pass

variable {unit : CodeUnit} {pool : Pool} {kind : UnitKind} {labels : LabelMap} {draft : Draft}
  {final : State} (pass : unit.Pass pool kind labels draft final)

include pass

theorem ownArgs (j k : Nat) : unit.ownArgs pool kind j k =
    Lowering.ownArgs ⟨pool, labels, kind⟩ unit.instructions { draft } j k := by
  rw [CodeUnit.ownArgs, pass.resolve]

/-- An instruction that is lowered, with what it builds as a part of the whole. -/
theorem lower_of_visits {k : Nat} {i : Instruction} {a : State}
    (visits : Visits ⟨pool, labels, kind⟩ unit.instructions { draft } k i a) :
    ∃ t, Lowering.lower ⟨pool, labels, kind⟩ k i a = .ok () t ∧ t.draft.Grows final.draft ∧
      Inv ⟨pool, labels, kind⟩ (carryOf a i) a.draft (Context.Ahead ⟨pool, labels, kind⟩ (k + 1))
        .begun [] a := by
  obtain ⟨s', after⟩ := exists_before pass.run (k + 1)
  obtain ⟨t, lowers, rfl⟩ := visits.lower after
  obtain ⟨-, inv, -⟩ := pass.lowered visits
  have lt := (List.getElem?_eq_some_iff.mp visits.get).1
  have grows := grows_before pass.start.resolves.distinct pass.start.between lt (Nat.le_refl _) after
    pass.before_final
  refine ⟨t, lowers, ?_, inv.begin rfl i⟩
  split at grows
  · exact grows
  · exact grows

end CodeUnit.Pass

/-! ### Accesses of nested code -/

/-- The instruction at `k` ends the access that begins at `j`: the call it takes is the one
that was opened there, with the target that was tested there and the arguments that
were added since, and the access has these arguments. -/
structure CodeUnit.EndsAccess (unit : CodeUnit) (pool : Pool) (unitKind : UnitKind) (g : Graph)
    (kind : DispatchKind) (j k : Nat) (a s : State) (p : PendingDispatch) (c : PendingCall)
    (target : ValueId) : Prop where
  begins : ∃ after, unit.Lowers pool unitKind j (.startDispatch kind p.call after) a
  nested : ∃ outer, nesting unit.instructions k = some (⟨j, .dispatch kind⟩ :: outer)
  tested : ∃ v, g.stmt? a.draft.point = some ⟨v, .isPlain target⟩
  dispatch : s.dispatches.head? = some p
  stored : p.rhs = if kind.isWrite then a.stack.items[0]? else none
  /-- The calls that were open when the access began are still as they were. -/
  calls : s.calls = c :: a.calls
  callee : c.callee = .builtin kind.builtin
  args : c.args.map (·.value) = .value target :: unit.ownArgs pool unitKind j k
  access : ∃ op, Emits s.draft.point g op ∧
    ((unit.ownArgs pool unitKind j k).flatMap (·.values)).Sublist op.operands

theorem endsAccess_of_nested {unit : CodeUnit} {pool : Pool} {options : Options} {g : Graph}
    (nested : unit.Nested pool) (h : unit.compile pool options = .ok g) :
    ∃ raw, unit.lower pool options.unitKind = .ok raw ∧ g = options.cleanup raw ∧
      ∀ k i s kind, unit.Lowers pool options.unitKind k i s →
        i.closes? = some (.dispatch kind) → kind.isNary = false →
        ∃ j a p c target, unit.EndsAccess pool options.unitKind raw kind j k a s p c target := by
  obtain ⟨raw, lowered, rfl⟩ := CodeUnit.compile_eq_ok.mp h
  refine ⟨raw, lowered, rfl, ?_⟩
  obtain ⟨labels, draft, final, pass, rfl⟩ := CodeUnit.lower_eq_ok.mp lowered
  intro k i s kind lowers closes notNary
  have visits := pass.visits lowers
  obtain ⟨fs, nests⟩ := nests_visits pass.start nested visits
  have at_k := nests.live visits.live
  obtain ⟨f, rest, rfl, isOpener, -⟩ := nests.pop nested pass.start.resolves visits closes
  obtain ⟨j, pending⟩ := f
  cases pending with
  | call c => cases isOpener
  | assign scope => cases isOpener
  | loop l => cases isOpener
  | dispatch p calls =>
      cases isOpener
      cases nests.stacked with
      | @cons _ _ i' a visits' opens outer given built later below =>
          obtain ⟨records, -, indices⟩ := built
          obtain ⟨target, c, tested, rfl, callee, args⟩ := indices notNary
          obtain ⟨after, rfl, -⟩ := records.instruction
          refine ⟨j, a, p, c, target, ⟨after, labels, draft, pass.resolve, visits'⟩, ⟨_, at_k⟩, ?_, ?_,
            records.rhs, ?_, callee, ?_, ?_⟩
          · obtain ⟨t, lowers', grows, inv⟩ := pass.lower_of_visits visits'
            exact ⟨_, grows.stmt? (inv.stmt?_startDispatch tested lowers')⟩
          · rw [nests.holds.dispatches]
            rfl
          · rw [nests.holds.calls, given (by simp [Pending.opener, Opener.takesArgs, notNary])]
            rfl
          · rw [args, pass.ownArgs]
          · obtain ⟨t, lowers', grows, inv⟩ := pass.lower_of_visits visits
            have calls : s.calls = c :: rest.flatMap (·.pending.calls) := nests.holds.calls
            obtain ⟨op, emits, given⟩ :=
              inv.emits_of_closes pass.start.resolves.distinct closes notNary calls lowers'
            refine ⟨op, emits.mono grows, ?_⟩
            rw [flatMap_values, List.map_drop, args, ← pass.ownArgs] at given
            exact given

/-- `x[TRUE, f(FALSE)]`, with a call inside the index. -/
def callAsIndex : CodeUnit where
  name := none
  instructions := [.load .null, .startDispatch (.access .subset) ⟨0⟩ ⟨0⟩, .load (.logical true),
    .pushArg, .getFun .lexical ⟨1⟩, .load (.logical false), .pushArg, .finishCall false ⟨0⟩, .pushArg,
    .endAccess .subset, .ret]
  labels := [some 10]

def callAsIndexPool : Pool := ⟨[.expr (.symbol "f"), .symbol "f"]⟩

/-- The access that ends at the ninth instruction takes both indices, and no argument of
the call. -/
theorem callAsIndex_endsAccess :
    callAsIndex.Nested callAsIndexPool ∧ (∃ g, callAsIndex.compile callAsIndexPool {} = .ok g) ∧
      ∃ raw j a s p c target, s.calls.length = 1 ∧ c.args.length = 3 ∧
        callAsIndex.EndsAccess callAsIndexPool .function raw (.access .subset) j 9 a s p c target := by
  have nested : callAsIndex.Nested callAsIndexPool := by decide +kernel
  have compiles : ∃ g ∈ (callAsIndex.compile callAsIndexPool {}).toOption, True := by decide +kernel
  obtain ⟨g, h, -⟩ := exists_ok_of_toOption compiles
  have visited : ∃ s ∈ callAsIndex.arrival? callAsIndexPool .function 9, s.live = true ∧
      s.calls.map (·.args.length) = [3] := by
    decide +kernel
  obtain ⟨s, arrives, live, sizes⟩ := visited
  obtain ⟨raw, -, -, all⟩ := endsAccess_of_nested nested h
  obtain ⟨j, a, p, c, target, ends⟩ :=
    all 9 _ s (.access .subset) (CodeUnit.lowers_of_arrival rfl arrives live) rfl rfl
  refine ⟨nested, ⟨g, h⟩, raw, j, a, s, p, c, target, ?_, ?_, ends⟩
  · simpa using congrArg List.length sizes
  · rw [ends.calls] at sizes
    exact (List.cons.inj sizes).1

/-- The access ends while a call that began inside it is open. -/
def callAcrossIndex : CodeUnit where
  name := none
  instructions := [.load .null, .startDispatch (.access .subset) ⟨0⟩ ⟨0⟩, .load .null, .pushArg,
    .getFun .lexical ⟨1⟩, .load (.logical true), .pushArg, .endAccess .subset, .finishCall false ⟨0⟩,
    .ret]
  labels := [some 8]

/-- The unit is compiled, and the access takes the call of `f`. -/
theorem callAcrossIndex_takes_other : ∃ g, callAcrossIndex.compile callAsIndexPool {} = .ok g ∧
    ∃ s, callAcrossIndex.Lowers callAsIndexPool .function 7 (.endAccess .subset) s ∧
      s.dispatches.map (·.kind) = [.access .subset] ∧
      s.calls.map (·.callee) = [.value ⟨5⟩, .builtin "["] := by
  have compiles : ∃ g ∈ (callAcrossIndex.compile callAsIndexPool {}).toOption, True := by
    decide +kernel
  obtain ⟨g, h, -⟩ := exists_ok_of_toOption compiles
  have visited : ∃ s ∈ callAcrossIndex.arrival? callAsIndexPool .function 7, s.live = true ∧
      s.dispatches.map (·.kind) = [.access .subset] ∧
      s.calls.map (·.callee) = [.value ⟨5⟩, .builtin "["] := by
    decide +kernel
  obtain ⟨s, arrives, live, dispatches, calls⟩ := visited
  exact ⟨g, h, s, CodeUnit.lowers_of_arrival rfl arrives live, dispatches, calls⟩

end StackLift
