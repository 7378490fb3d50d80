import StackLift.Proofs.Core.Pass
import StackLift.Proofs.Graph.Part

/-!
Running the graph of core code along with the machine. At every instruction that
the pass has lowered, the names that the pass had on its stack have the values on
the stack of the machine. Operations keep this, because each gives its result a
new name, and so do edges: a block that edges lead to starts with its phis on the
stack, and along an edge each phi takes the value of its slot.
-/

namespace StackLift

open Lowering

variable {V : Type}

/-- An entry whose key is listed once is the one that is found. -/
theorem lookup_eq_some_of_mem {α : Type} {l : List (BlockId × α)} {b : BlockId} {a : α}
    (mem : (b, a) ∈ l) (once : (l.map (·.1)).count b ≤ 1) : l.lookup b = some a := by
  induction l with
  | nil => exact absurd mem List.not_mem_nil
  | cons e l ih =>
      obtain ⟨c, x⟩ := e
      rw [List.map_cons, List.count_cons] at once
      rcases List.mem_cons.mp mem with here | later
      · cases here
        exact List.lookup_cons_self
      · have listed : 0 < (l.map (·.1)).count b :=
          List.count_pos_iff.mpr (List.mem_map_of_mem later)
        have other : (c == b) = false := by
          cases same : c == b with
          | false => rfl
          | true =>
              rw [same, if_pos rfl] at once
              omega
        rw [List.lookup_cons, show (b == c) = false by rw [BEq.comm]; exact other]
        exact ih later (by omega)

namespace Draft

/-- A phi of a block takes a value along the edge from a source. -/
def Receives (d : Draft) (b : BlockId) (phi : ValueId) (source : BlockId) (v : ValueId) : Prop :=
  ∃ block p, d.graph.block? b = some block ∧ p ∈ block.phis ∧ p.value = phi ∧
    (source, v) ∈ p.inputs

theorem Receives.mono {d d' : Draft} {b source : BlockId} {phi v : ValueId}
    (receives : d.Receives b phi source v) (grows : d.Grows d') : d'.Receives b phi source v := by
  obtain ⟨block, p, live, mem, value, input⟩ := receives
  obtain ⟨block', live', grown⟩ := grows.block live
  obtain ⟨p', mem', value', -, inputs⟩ := grown.phis p mem
  exact ⟨block', p', live', mem', value'.trans value, inputs.subset input⟩

theorem stmtIndex_newDirect {d : Draft} (isOpen : d.Open) :
    d.newDirect.2.stmtIndex = d.stmtIndex := by
  obtain ⟨block, live, -⟩ := isOpen
  have live' : d.newDirect.2.graph.block? d.cursor = some block := block?_addBlock_of_eq_some live
  rw [stmtIndex_eq live, stmtIndex_eq (d := d.newDirect.2) live']

end Draft

/-- Which way a branch to a label goes. -/
theorem Config.leave_branchOn {c : Config V} {g : Graph} {cond : ValueId} {x : V} (I : Interp V)
    (value : c.env cond = some x) (sense : Bool) (target other : BlockId) :
    c.leave g I (.branchOn sense cond target other) =
      (c.noteBranch (I.holds x)).goto g (if I.holds x = sense then target else other) := by
  cases sense with
  | true => rw [Terminator.branchOn, if_pos rfl, Config.leave, value]
  | false =>
      rw [Terminator.branchOn, if_neg (by simp), Config.leave, value]
      cases held : I.holds x <;> simp [held]

namespace Lowering

section

variable {ctx : Context} {carry : Carry} {base : Draft} {aside : BlockId → Prop}
  {hand : List (ValueId × ValueType)} {t : Terminator} {s s' : State}
  (left : Left ctx carry base aside hand t s s')

include left

/-- The block that was ended. -/
theorem Left.exists_block : ∃ block, s'.draft.graph.block? s.draft.cursor = some block ∧
    block.terminator = some t ∧ block.stmts.length = s.draft.stmtIndex := by
  obtain ⟨block, live, -⟩ := left.can.isOpen
  refine ⟨s.draft.ended t s.stack.slots s.draft.cursor block, ?_, ?_, ?_⟩
  · rw [left.ended.block, live, Option.map_some]
  · rw [Draft.terminator_ended, if_pos rfl]
  · rw [Draft.stmts_ended, Draft.stmtIndex_eq live]

/-- A label that an edge leads to had its block before. -/
theorem Left.plain_label {b : BlockId} (mem : b ∈ t.successors)
    (named : ∃ offset, ctx.labels.blockAt? offset = some b) : s.draft.Plain b := by
  have target := left.can.targets b mem
  refine .of_unindexed target.live (target.merge (left.notDirect named)) ?_
  rw [← left.ended.loopIndices]
  exact (left.inv.plain_label named).unindexed

/-- Along an edge to the block of a label, each phi takes the value of its slot. -/
theorem Left.receives {b : BlockId} (mem : b ∈ t.successors)
    (named : ∃ offset, ctx.labels.blockAt? offset = some b) :
    ∃ phis, s'.draft.shape? b = some phis ∧ phis.length = s.stack.slots.length ∧
      ∀ (j : Nat) phi v, phis[j]? = some phi → s.stack.slots[j]? = some v →
        s'.draft.Receives b phi s.draft.cursor v := by
  have plain := left.plain_label mem named
  have target : b ∈ s.draft.mergesOf t.successors :=
    Draft.mem_mergesOf.mpr ⟨mem, plain.merge.notDirect⟩
  obtain ⟨block, live⟩ := Option.isSome_iff_exists.mp plain.live
  have carried : s.draft.carried b s.stack.slots = s.stack.slots := by
    rw [Draft.carried, plain.unindexed]
    exact List.append_nil _
  have values : (block.phis ++ s.draft.newPhis b s.stack.slots).map (·.value) =
      (s.draft.shape? b).getD [] ++ (s.draft.newPhis b s.stack.slots).map (·.value) := by
    rw [List.map_append, plain.merge.phis live, Draft.phisOf, plain.unindexed]
    exact congrArg (· ++ _) (List.append_nil _)
  refine ⟨_, by rw [left.ended.shape, if_pos target], ?_, fun j phi v isPhi isSlot => ?_⟩
  · rw [← values, List.length_map, left.can.length left.ended target live, carried]
  · rw [← values, List.getElem?_map, Option.map_eq_some_iff] at isPhi
    obtain ⟨q, get, value⟩ := isPhi
    refine ⟨_, q.receive s.draft.cursor v, by rw [left.ended.block, live, Option.map_some], ?_,
      value, List.mem_append_right _ List.mem_cons_self⟩
    rw [Draft.ended_of_mem target]
    refine List.mem_map.mpr ⟨(q, v), List.mem_of_getElem? (i := j) ?_, rfl⟩
    rw [carried]
    exact List.getElem?_zip_eq_some.mpr ⟨get, isSlot⟩

end

/-! ### The values of names -/

/-- A run of the graph is where the pass has come to, and the names on the stack
of the pass have the values on that of the machine. -/
structure Mirrors (d : Draft) (items : List ValueId) (frame : List V × List (Event V))
    (c : Config V) : Prop where
  block : c.block = d.cursor
  index : c.index = d.stmtIndex
  stack : items.map c.env = frame.1.map some
  history : c.history = frame.2

/-- An operation that the pass has emitted is done on the same values by the machine
and in the graph. -/
theorem Mirrors.primitive {d d' final : Draft} {items items' : List ValueId}
    {frame : List V × List (Event V)} {c : Config V} {p : Primitive} {v : ValueId} (I : Interp V)
    (mirrors : Mirrors d items frame c) (isOpen : d.Open)
    (known : ∀ w ∈ items, w.index < d.graph.values.length)
    (run : p.run Draft.perform (items, d) = some (v, items', d')) (grows : d'.Grows final) :
    ∃ x frame' c', p.run I.perform frame = some (x, frame') ∧
      (final.graph.process I).Steps 1 c c' ∧ Mirrors d' items' frame' c' ∧ c'.env v = some x := by
  obtain ⟨args, length, rfl, emitted⟩ := Primitive.run_eq_some.mp run
  cases emitted
  obtain ⟨stack, history⟩ := frame
  -- the operands are the values of their names
  have named : stack.map some = args.reverse.map c.env ++ items'.map c.env := by
    rw [← List.map_append]
    exact mirrors.stack.symm
  obtain ⟨taken, rest, rfl, operands, below⟩ := List.map_eq_append_iff.mp named
  have values : args.map c.env = taken.reverse.map some := by
    rw [List.map_reverse, operands, List.map_reverse, List.reverse_reverse]
  have count : taken.reverse.length = p.arity := by
    rw [← length, ← List.length_map (f := c.env), values, List.length_map]
  let result := I.result c.history p.op.form taken.reverse
  let c' : Config V := ⟨c.block, c.index + 1, c.env.set d.graph.nextValue result,
    .op p.op.form taken.reverse result :: c.history⟩
  refine ⟨result, (rest, .op p.op.form taken.reverse result :: history), c', ?_, .one ?_,
    ⟨mirrors.block, ?_, ?_, ?_⟩, Env.set_self _ _ _⟩
  · refine Primitive.run_eq_some.mpr ⟨taken.reverse, count, by rw [List.reverse_reverse], ?_⟩
    have same : history = c.history := mirrors.history.symm
    rw [same]
    rfl
  · obtain ⟨block, live, get, -⟩ := Draft.stmt_emitted (p.on args) isOpen
    obtain ⟨block', live', grown⟩ := grows.block live
    have get' := getElem?_of_isPrefix grown.stmts get
    show Config.step final.graph I c = .running c'
    rw [Config.step, mirrors.block, live']
    simp only [mirrors.index, get']
    refine Config.perform_eq_running_iff.mpr ⟨taken.reverse, ?_, ?_⟩
    · rw [p.operands_on length]
      exact Env.all?_eq_some.mpr values
    · rw [p.form_on]
  · have next : (d.emitted (p.on args)).stmtIndex = d.stmtIndex + 1 := Draft.stmtIndex_emitted isOpen
    exact (congrArg (· + 1) mirrors.index).trans next.symm
  · refine Eq.trans ?_ below.symm
    refine List.map_congr_left fun w mem => Env.set_of_ne _ _ ?_
    rintro rfl
    exact Nat.lt_irrefl _ (known _ (List.mem_append_right _ mem))
  · show _ :: c.history = _
    rw [mirrors.history]

theorem Mirrors.stackOp {d d' final : Draft} {items items' : List ValueId}
    {frame : List V × List (Event V)} {c : Config V} {op : StackOp} (I : Interp V)
    (mirrors : Mirrors d items frame c) (isOpen : d.Open)
    (known : ∀ w ∈ items, w.index < d.graph.values.length)
    (run : op.run Draft.perform (items, d) = some (items', d')) (grows : d'.Grows final) :
    ∃ n frame' c', op.run I.perform frame = some frame' ∧
      (final.graph.process I).Steps n c c' ∧ Mirrors d' items' frame' c' := by
  obtain ⟨stack, history⟩ := frame
  have named : items.map c.env = stack.map some := mirrors.stack
  cases op with
  | drop =>
      rcases items with _ | ⟨v, items⟩
      · cases run
      rcases stack with _ | ⟨x, stack⟩
      · cases named
      cases run
      obtain ⟨-, named⟩ := List.cons.inj named
      exact ⟨0, (stack, history), c, rfl, .zero _, mirrors.block, mirrors.index, named,
        mirrors.history⟩
  | copy n =>
      obtain ⟨v, get, heq⟩ := Option.map_eq_some_iff.mp run
      cases heq
      have value : stack[n]?.map some = some (c.env v) := by
        rw [← List.getElem?_map, ← named, List.getElem?_map, get, Option.map_some]
      obtain ⟨x, get', value⟩ := Option.map_eq_some_iff.mp value
      refine ⟨0, (x :: stack, history), c, ?_, .zero _, mirrors.block, mirrors.index, ?_,
        mirrors.history⟩
      · rw [StackOp.run, get', Option.map_some]
      · rw [List.map_cons, List.map_cons, value, named]
  | swap =>
      rcases items with _ | ⟨v, _ | ⟨w, items⟩⟩
      · cases run
      · cases run
      rcases stack with _ | ⟨x, _ | ⟨y, stack⟩⟩
      · cases named
      · simp at named
      cases run
      obtain ⟨first, named⟩ := List.cons.inj named
      obtain ⟨second, named⟩ := List.cons.inj named
      refine ⟨0, (y :: x :: stack, history), c, rfl, .zero _, mirrors.block, mirrors.index, ?_,
        mirrors.history⟩
      simp only [List.map_cons, first, second, named]
  | apply p value =>
      obtain ⟨⟨v, rest, draft⟩, run, heq⟩ := Option.map_eq_some_iff.mp run
      cases heq
      obtain ⟨x, frame', c', performed, steps, mirrors', result⟩ :=
        mirrors.primitive I isOpen known run grows
      refine ⟨1, (x :: frame'.1, frame'.2), c', ?_, steps, mirrors'.block, mirrors'.index, ?_,
        mirrors'.history⟩
      · rw [StackOp.run, performed, Option.map_some]
      · rw [List.map_cons, List.map_cons, result, mirrors'.stack]

theorem Inv.known_index {ctx : Context} {carry : Carry} {base : Draft} {aside : BlockId → Prop}
    {phase : Phase} {hand : List (ValueId × ValueType)} {s : State}
    (inv : Inv ctx carry base aside phase hand s) :
    ∀ v ∈ s.stack.items, v.index < s.draft.graph.values.length :=
  fun v mem => (inv.stack v mem).type.lt

/-- The steps of an instruction are done in the machine and in the graph alike. -/
theorem Mirrors.runAll {ctx : Context} {aside : BlockId → Prop} {base draft final : Draft}
    {s : State} {ops : List StackOp} {items : List ValueId} {frame : List V × List (Event V)}
    {c : Config V} (I : Interp V) (inv : Inv ctx .nothing base aside .running [] s)
    (mirrors : Mirrors s.draft s.stack.items frame c)
    (run : StackOp.runAll Draft.perform ops (s.stack.items, s.draft) = some (items, draft))
    (grows : draft.Grows final) :
    ∃ n frame' c', StackOp.runAll I.perform ops frame = some frame' ∧
      (final.graph.process I).Steps n c c' ∧ Mirrors draft items frame' c' := by
  induction ops generalizing s frame c with
  | nil =>
      cases run
      exact ⟨0, frame, c, rfl, .zero _, mirrors⟩
  | cons op ops ih =>
      obtain ⟨⟨items₁, draft₁⟩, first, rest⟩ := Option.bind_eq_some_iff.mp run
      have inv₁ := inv.stackOp (by simp) first
      have later : draft₁.Grows draft := (inv₁.rebase.runAll (by simp) rest).acts.grows inv₁.sound
      obtain ⟨m, frame₁, c₁, done, steps, mirrors₁⟩ :=
        mirrors.stackOp I inv.phase inv.known_index first (later.trans grows)
      obtain ⟨n, frame', c', done', steps', mirrors'⟩ :=
        ih (s := { s with draft := draft₁, stack := ⟨items₁⟩ }) inv₁ mirrors₁ rest
      refine ⟨m + n, frame', c', ?_, steps.trans steps', mirrors'⟩
      rw [StackOp.runAll, done]
      exact done'

/-! ### Edges -/

section

variable {ctx : Context} {carry : Carry} {base final : Draft} {aside : BlockId → Prop}
  {hand : List (ValueId × ValueType)} {t : Terminator} {s s' : State}
  (left : Left ctx carry base aside hand t s s') (grows : s'.draft.Grows final)

include left grows

/-- At the end of a block that was ended, the graph leaves it. -/
theorem Left.step_eq {c : Config V} (I : Interp V) (block : c.block = s.draft.cursor)
    (index : c.index = s.draft.stmtIndex) : c.step final.graph I = c.leave final.graph I t := by
  obtain ⟨b, live, last, length⟩ := left.exists_block
  obtain ⟨b', live', grown⟩ := grows.block live
  obtain ⟨stmts, last'⟩ := grown.ended (by rw [last]; rfl)
  have past : b'.stmts[c.index]? = none := by
    rw [index, stmts, ← length]
    exact List.getElem?_eq_none (Nat.le_refl _)
  rw [Config.step, block, live']
  simp only [past, last', last]

/-- There is one edge at most to each block. -/
theorem Left.count_successorsOf (b : BlockId) :
    (final.graph.successorsOf s.draft.cursor).count b ≤ 1 := by
  obtain ⟨block, live, last, -⟩ := left.exists_block
  obtain ⟨block', live', grown⟩ := grows.block live
  obtain ⟨-, last'⟩ := grown.ended (by rw [last]; rfl)
  rw [Graph.successorsOf_eq live', Block.successors, last', last]
  show t.successors.count b ≤ 1
  rw [left.can.apart.count]
  split <;> omega

/-- Along the edge to the block of a label, the phis of the block take what is on the stack. -/
theorem Left.carries {b : BlockId} (sound : final.Sound) (plain : final.Plain b)
    (mem : b ∈ t.successors) (named : ∃ offset, ctx.labels.blockAt? offset = some b) :
    final.graph.Carries s.draft.cursor b s.stack.slots := by
  obtain ⟨phis, shape, length, receives⟩ := left.receives mem named
  obtain ⟨target, live⟩ := Option.isSome_iff_exists.mp plain.live
  have names : target.phis.map (·.value) = phis := by
    rw [plain.merge.phis live, Draft.phisOf, grows.shape shape, plain.unindexed]
    exact List.append_nil _
  refine ⟨target, live, List.ext_getElem? fun j => ?_⟩
  rw [List.getElem?_map, List.getElem?_map]
  cases get : target.phis[j]? with
  | none =>
      have short : s.stack.slots.length ≤ j := by
        rw [← length, ← names, List.length_map]
        exact List.getElem?_eq_none_iff.mp get
      rw [List.getElem?_eq_none short]
      rfl
  | some p =>
      have isPhi : phis[j]? = some p.value := by rw [← names, List.getElem?_map, get]; rfl
      have bound : j < s.stack.slots.length := by
        rw [← length]
        exact (List.getElem?_eq_some_iff.mp isPhi).1
      obtain ⟨v, isSlot⟩ : ∃ v, s.stack.slots[j]? = some v := ⟨_, List.getElem?_eq_getElem bound⟩
      obtain ⟨target', p', live', mem', value', input⟩ := (receives j _ v isPhi isSlot).mono grows
      rw [live] at live'
      cases live'
      have same : target.phis.find? (·.value = p.value) = some p' :=
        value' ▸ Graph.find?_phi_of_mem (sound.distinct live) mem'
      rw [Graph.find?_phi_of_mem (sound.distinct live) (List.mem_of_getElem? get)] at same
      cases same
      have once : (p.inputs.map (·.1)).count s.draft.cursor ≤ 1 := by
        rw [sound.linked.inputs live mem', sound.linked.preds live]
        exact left.count_successorsOf grows b
      rw [isSlot, Option.map_some, Option.map_some, lookup_eq_some_of_mem input once]

/-- The edge to the block of a label brings the values on the stack. -/
theorem Left.goto_label {c : Config V} {b : BlockId} {stack : List V} (sound : final.Sound)
    (plain : final.Plain b) (mem : b ∈ t.successors)
    (named : ∃ offset, ctx.labels.blockAt? offset = some b) (block : c.block = s.draft.cursor)
    (values : s.stack.items.map c.env = stack.map some) :
    ∃ phis env, final.shape? b = some phis ∧
      c.goto final.graph b = .running { c with block := b, index := 0, env } ∧
      (OperandStack.ofSlots phis).items.map env = stack.map some := by
  obtain ⟨phis, shape, -, -⟩ := left.receives mem named
  have shape := grows.shape shape
  have slots : s.stack.slots.map c.env = stack.reverse.map some := by
    rw [OperandStack.slots, List.map_reverse, values, List.map_reverse]
  have carries := left.carries grows sound plain mem named
  rw [← block] at carries
  obtain ⟨target, env, live, goto, held⟩ := carries.goto (fun live => sound.distinct live) slots
  have names : target.phis.map (·.value) = phis := by
    rw [plain.merge.phis live, Draft.phisOf, shape, plain.unindexed]
    exact List.append_nil _
  refine ⟨phis, env, shape, goto, ?_⟩
  have values' : phis.map env = stack.reverse.map some := by
    rw [← names, List.map_map]
    exact held
  rw [OperandStack.ofSlots, List.map_reverse, values', List.map_reverse, List.reverse_reverse]

end

end Lowering

end StackLift
