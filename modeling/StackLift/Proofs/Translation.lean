import StackLift.Proofs.Core.Follow
import StackLift.Proofs.Dominance

/-!
What core code does, and what its graph does. The machine runs the instructions
of a unit on a stack of values; the graph that the pass makes of them, as it is or
cleaned up, has no stack. Main statement: whatever the operations compute, both do
the same operations on the same values in the same order, take the same branches,
and return the same result or run forever.
-/

namespace StackLift

open Lowering

variable {V : Type}

/-- Core code returns without doing anything else first. -/
theorem Instruction.ops_of_ret {pool : Pool} {i : Instruction} {p : Routine} {exit : Exit}
    (h : i.routine? pool = some p) (ret : p.control = .ret exit) : p.ops = [] := by
  cases i
  case load =>
    rw [routine?] at h
    split at h <;> cases h
    cases ret
  case getVar | getDots | setVar | branchIfNot | logicFirst | logicSecond | callSpecial
      | makeClosure | binary | unary =>
    obtain ⟨_, -, rfl⟩ := Option.map_eq_some_iff.mp h
    cases ret
  case pop | dup | dup2nd | swap | setLoopVal | setVisible | goto | isType | hint =>
    cases h
    cases ret
  case ret | returnJump =>
    cases h
    rfl
  all_goals cases h

namespace CodeUnit.Pass

variable {unit : CodeUnit} {pool : Pool} {kind : UnitKind} {labels : LabelMap} {draft : Draft}
  {final : State} (pass : unit.Pass pool kind labels draft final)
  (core : ∀ i ∈ unit.instructions, i.isCore = true)

include pass core

/-- No value is held by a bracket. -/
theorem strict_of_isCore : final.draft.graph.Strict := by
  refine pass.strict (pass.dominated fun offset i s lowers e mem => ?_)
  have isCore := core i (List.mem_of_getElem? (pass.visits lowers).get)
  have none : s.held i = [] := by
    cases i
    all_goals first
      | rfl
      | cases isCore
  rw [none] at mem
  exact absurd mem List.not_mem_nil

/-- An edge to the block of a label leads to the instruction at the label. -/
theorem enter {base : Draft} {aside : BlockId → Prop} {hand : List (ValueId × ValueType)}
    {t : Terminator} {s s' a : State} {b : BlockId} {offset : Nat} {i : Instruction}
    {stack : List V} {history : List (Event V)} {c : Config V}
    (left : Left ⟨pool, labels, kind⟩ .nothing base aside hand t s s')
    (grows : s'.draft.Grows final.draft) (mem : b ∈ t.successors)
    (named : labels.blockAt? offset = some b)
    (visits : Visits ⟨pool, labels, kind⟩ unit.instructions { draft } offset i a)
    (block : c.block = s.draft.cursor) (values : s.stack.items.map c.env = stack.map some)
    (done : c.history = history) :
    ∃ c', c.goto final.draft.graph b = .running c' ∧
      Mirrors a.draft a.stack.items (stack, history) c' := by
  have plain := (pass.start.coreState_before core (Nat.le_refl _)
    pass.before_final).inv.plain_label ⟨offset, named⟩
  obtain ⟨phis, env, shape, goto, values⟩ :=
    left.goto_label grows pass.sound.1 plain mem ⟨offset, named⟩ block values
  obtain ⟨cursor, index, phis', starts, shape'⟩ := pass.entered core named visits
  rw [shape] at shape'
  cases shape'
  exact ⟨_, goto, cursor.symm, index.symm, starts ▸ values, done⟩

/-- Where the machine is about to run the instruction at an offset, the pass was
about to come to it, or has come to it. -/
inductive Awaits (unit : CodeUnit) (pool : Pool) (kind : UnitKind) (labels : LabelMap)
    (draft : Draft) (offset : Nat) (s : State) : Prop
  | before (le : offset ≤ unit.size)
      (before : Before ⟨pool, labels, kind⟩ unit.instructions { draft } offset s)
      (live : s.live = true)
  | visits {i : Instruction}
      (visits : Visits ⟨pool, labels, kind⟩ unit.instructions { draft } offset i s)

/-- The machine and the graph are at the same place with the same values. -/
def Follows (unit : CodeUnit) (pool : Pool) (kind : UnitKind) (labels : LabelMap) (draft : Draft)
    (m : Machine V) (c : Config V) : Prop :=
  ∃ s, Awaits unit pool kind labels draft m.offset s ∧
    Mirrors s.draft s.stack.items (m.stack, m.history) c

theorem arrive {m : Machine V} {c : Config V} (I : Interp V)
    (follows : Follows unit pool kind labels draft m c) :
    ∃ n c' i a, (final.draft.graph.process I).Steps n c c' ∧
      Visits ⟨pool, labels, kind⟩ unit.instructions { draft } m.offset i a ∧
      Mirrors a.draft a.stack.items (m.stack, m.history) c' := by
  obtain ⟨s, awaits, mirrors⟩ := follows
  cases awaits with
  | visits visits => exact ⟨0, c, _, s, .zero _, visits, mirrors⟩
  | before le before live =>
      obtain ⟨i, a, visits, arrives⟩ := pass.visits_of_live core le before live
      cases arrives with
      | unnamed _ => exact ⟨0, c, i, s, .zero _, visits, mirrors⟩
      | skipped _ dead _ =>
          rw [live] at dead
          cases dead
      | joined _ dead _ =>
          rw [live] at dead
          cases dead
      | @fallen b phis s₁ named _ left shape =>
          -- the graph takes the edge to the block of the label
          obtain ⟨-, -, -, -, grows, -⟩ := pass.lowered visits
          have grows : s₁.draft.Grows final.draft := (Draft.grows_moveTo s₁.draft b).trans grows
          obtain ⟨c', goto, mirrors'⟩ := pass.enter core left grows List.mem_cons_self named
            visits mirrors.block mirrors.stack mirrors.history
          refine ⟨1, c', i, _, .one ?_, visits, mirrors'⟩
          exact (left.step_eq grows I mirrors.block mirrors.index).trans goto

/-- A jump to a label leads to the instruction there. -/
theorem follow_jump {base : Draft} {aside : BlockId → Prop} {hand : List (ValueId × ValueType)}
    {t : Terminator} {s s' : State} {b : BlockId} {l : Label} {i : Instruction} {c : Config V}
    {stack : List V} {history : List (Event V)} (mem : i ∈ unit.instructions)
    (label : i.label? = some l) (target : labels.block l = .ok b)
    (left : Left ⟨pool, labels, kind⟩ .nothing base aside hand t s s')
    (grows : s'.draft.Grows final.draft) (succ : b ∈ t.successors)
    (block : c.block = s.draft.cursor) (values : s.stack.items.map c.env = stack.map some)
    (done : c.history = history) :
    ∃ m c', Machine.jump unit l stack history = .running m ∧
      c.goto final.draft.graph b = .running c' ∧ Follows unit pool kind labels draft m c' := by
  obtain ⟨j, b', bound, -, named, target'⟩ := pass.start.target mem (core i mem) label
  rw [target] at target'
  cases target'
  obtain ⟨i', a, visits⟩ := pass.visits_of_edge core named ((left.edge succ).mono grows)
  obtain ⟨c', goto, mirrors⟩ :=
    pass.enter core left grows succ named visits block values done
  refine ⟨⟨j, stack, history⟩, c', ?_, goto, a, .visits visits, mirrors⟩
  rw [Machine.jump, bound]

omit core in
/-- A direct block has no phis, so control goes on in it with the values as they
are. -/
theorem goto_direct {b : BlockId} (direct : b ∈ final.draft.direct)
    (live : (final.draft.graph.block? b).isSome) (c : Config V) :
    c.goto final.draft.graph b = .running { c with block := b, index := 0 } := by
  obtain ⟨block, live⟩ := Option.isSome_iff_exists.mp live
  obtain ⟨none, -⟩ := pass.sound.1.direct live direct
  refine Config.goto_eq_running_iff.mpr ⟨block, live, by simp [none], ?_⟩
  have same : block.readPhis c.block c.env = c.env := by
    funext v
    rw [Block.readPhis, none]
    rfl
  rw [same]

/-- What the machine does at the end of a routine, the graph does at the end of a
block. -/
theorem follow_leave {aside : BlockId → Prop} {base : Draft} {s t : State} {offset : Nat}
    {i : Instruction} {control : Control} {frame : List V × List (Event V)} {c : Config V}
    (I : Interp V) (get : unit.instructions[offset]? = some i) (label : i.label? = control.label?)
    (inv : Inv ⟨pool, labels, kind⟩ .nothing base aside .running [] s)
    (leaves : Leaves ⟨pool, labels, kind⟩ .nothing base aside s control t)
    (grows : t.draft.Grows final.draft)
    (after : control.diverts = false →
      Before ⟨pool, labels, kind⟩ unit.instructions { draft } (offset + 1) t)
    (mirrors : Mirrors s.draft s.stack.items frame c) :
    (∃ m n c', Machine.leave unit I offset control frame = .running m ∧
        (final.draft.graph.process I).Steps n c c' ∧ Follows unit pool kind labels draft m c' ∧
        (n = 0 → m.offset = offset + 1)) ∨
      ∃ exit r, control = .ret exit ∧ Machine.leave unit I offset control frame = .finished r ∧
        c.step final.draft.graph I = .finished r := by
  have mem := List.mem_of_getElem? get
  have lt := (List.getElem?_eq_some_iff.mp get).1
  obtain ⟨stack, history⟩ := frame
  cases leaves with
  | next _ =>
      exact Or.inl ⟨⟨offset + 1, stack, history⟩, 0, c, rfl, .zero _,
        ⟨s, .before lt (after rfl) (inv.live (by simp)), mirrors⟩, fun _ => rfl⟩
  | goto target left =>
      obtain ⟨m, c', jump, goto, follows⟩ := pass.follow_jump core mem label target left grows
        List.mem_cons_self mirrors.block mirrors.stack mirrors.history
      refine Or.inl ⟨m, 1, c', jump, .one ?_, follows, by simp⟩
      exact (left.step_eq grows I mirrors.block mirrors.index).trans goto
  | @ret exit v items _ top left =>
      have named : s.stack.items.map c.env = stack.map some := mirrors.stack
      rw [top] at named
      match stack, named with
      | x :: stack, named =>
          obtain ⟨value, -⟩ := List.cons.inj named
          refine Or.inr ⟨exit, (exit, x), rfl, rfl, ?_⟩
          rw [left.step_eq grows I mirrors.block mirrors.index]
          cases exit <;> rw [Exit.terminator, Config.leave, value]
  | @branch p sense l test v items draft' b s₁ run target left inv' =>
      have fallen : s₁.draft.Grows final.draft := (Draft.grows_moveTo s₁.draft _).trans grows
      have made : draft'.Grows draft'.newDirect.2 := Draft.grows_addBlock Draft.others_newDirect
      obtain ⟨x, frame', c₁, tested, steps, mirrors₁, value⟩ := mirrors.primitive I inv.phase
        inv.known_index run (made.trans (left.grows.trans fallen))
      have isOpen : draft'.Open := by
        have inv₁ := inv.primitive (by simp) run
        exact inv₁.phase
      have index : c₁.index = draft'.newDirect.2.stmtIndex := by
        rw [Draft.stmtIndex_newDirect isOpen, mirrors₁.index]
      have step : c₁.step final.draft.graph I = (c₁.noteBranch (I.holds x)).goto final.draft.graph
          (if I.holds x = sense then b else draft'.graph.nextBlock) := by
        rw [left.step_eq fallen I mirrors₁.block index, Config.leave_branchOn I value]
      have history' : (c₁.noteBranch (I.holds x)).history = .branch (I.holds x) :: frame'.2 :=
        congrArg (_ :: ·) mirrors₁.history
      rw [Machine.leave, tested]
      by_cases taken : I.holds x = sense
      · rw [if_pos taken] at step
        obtain ⟨m, c', jump, goto, follows⟩ := pass.follow_jump core
          (c := c₁.noteBranch (I.holds x)) mem label target left fallen
          (mem_successors_branchOn.mpr (Or.inl rfl)) mirrors₁.block mirrors₁.stack history'
        refine Or.inl ⟨m, 2, c', ?_, .succ steps (step.trans goto), follows, by simp⟩
        simp only [if_pos taken]
        exact jump
      · rw [if_neg taken] at step
        obtain ⟨blank, -⟩ := left.inv.aside (Or.inl rfl)
        have direct : draft'.graph.nextBlock ∈ final.draft.direct := by
          obtain ⟨block, live, -⟩ := blank
          rw [fallen.direct live, left.ended.direct]
          exact List.mem_cons_self
        have live : (final.draft.graph.block? draft'.graph.nextBlock).isSome := by
          obtain ⟨block, live, -⟩ := blank
          exact fallen.isSome (Option.isSome_iff_exists.mpr ⟨block, live⟩)
        refine Or.inl ⟨⟨offset + 1, frame'.1, .branch (I.holds x) :: frame'.2⟩, 2, _, ?_,
          .succ steps (step.trans (pass.goto_direct direct live _)),
          ⟨_, .before lt (after rfl) rfl, rfl, blank.stmtIndex_moveTo.symm, ?_, history'⟩, by simp⟩
        · simp only [if_neg taken]
        · have stack : s₁.stack = ⟨items⟩ := left.stack
          rw [stack]
          exact mirrors₁.stack

/-- What the machine does next, the graph does as well. -/
theorem follow {m : Machine V} {c : Config V} (I : Interp V)
    (follows : Follows unit pool kind labels draft m c) :
    (∃ m' n c', m.step unit pool I = .running m' ∧ (final.draft.graph.process I).Steps n c c' ∧
        Follows unit pool kind labels draft m' c' ∧
        (n = 0 → unit.size - m'.offset < unit.size - m.offset)) ∨
      ∃ r n c', m.step unit pool I = .finished r ∧ (final.draft.graph.process I).Steps n c c' ∧
        c'.step final.draft.graph I = .finished r ∧ c'.history = m.history := by
  obtain ⟨n₁, c₁, i, a, arrival, visits, mirrors₁⟩ := pass.arrive core I follows
  have lt : m.offset < unit.size := (List.getElem?_eq_some_iff.mp visits.get).1
  obtain ⟨p, items, draft', t, routine, executes, grows, after⟩ := pass.executes core visits
  obtain ⟨diverts, label⟩ := Instruction.control_of_routine? routine
  have inv := (pass.start.arrived core visits).1.inv_live visits.live
  obtain ⟨n₂, frame, c₂, done, steps, mirrors₂⟩ := mirrors₁.runAll I inv executes.ops
    ((executes.leaves.grows executes.inv.phase).trans grows)
  have step : m.step unit pool I = Machine.leave unit I m.offset p.control frame := by
    rw [Machine.step, visits.get, Option.bind_some, routine]
    simp only [done]
  have follows' := pass.follow_leave core I visits.get label executes.inv executes.leaves grows
    (fun falls => by rwa [diverts, falls, if_neg (by simp)] at after) mirrors₂
  rcases follows' with ⟨m', n₃, c', next, steps', follows', moved⟩ | ⟨exit, r, ret, done', finished⟩
  · refine Or.inl ⟨m', n₁ + n₂ + n₃, c', step.trans next, (arrival.trans steps).trans steps',
      follows', fun none => ?_⟩
    have moved := moved (by omega)
    omega
  · refine Or.inr ⟨r, n₁ + n₂, c₂, step.trans done', arrival.trans steps, finished, ?_⟩
    -- nothing was done before the return
    rw [Instruction.ops_of_ret routine ret] at done
    cases done
    exact mirrors₂.history

omit core in
theorem follows_start (I : Interp V) :
    Follows unit pool kind labels draft (unit.process pool I).start
      (final.draft.graph.process I).start := by
  have start := pass.start
  refine ⟨{ draft }, .before (Nat.zero_le _) rfl rfl, start.bare.cursor.symm, ?_, rfl, rfl⟩
  obtain ⟨block, live, -⟩ := start.inv.phase
  rw [Draft.stmtIndex_eq live, start.bare.block live]
  rfl

/-- The graph follows the machine. -/
def simulation (I : Interp V) :
    (unit.process pool I).Simulation (final.draft.graph.process I) where
  Rel := Follows unit pool kind labels draft
  rank m := unit.size - m.offset
  start := pass.follows_start I
  history := fun ⟨_, _, mirrors⟩ => mirrors.history.symm
  safe := by
    intro m c follows stuck
    rcases pass.follow core I follows with ⟨m', -, -, step, -⟩ | ⟨r, -, -, step, -⟩
    · cases step.symm.trans stuck
    · cases step.symm.trans stuck
  running := by
    intro m m' c follows next
    rcases pass.follow core I follows with
      ⟨m'', n, c', step, steps, follows', moved⟩ | ⟨r, -, -, step, -⟩
    · cases step.symm.trans next
      exact ⟨n, c', steps, follows', moved⟩
    · cases step.symm.trans next
  finished := by
    intro m c r follows done
    rcases pass.follow core I follows with ⟨m', -, -, step, -⟩ | ⟨r', n, c', step, steps, last, same⟩
    · cases step.symm.trans done
    · cases step.symm.trans done
      obtain ⟨_, _, mirrors⟩ := follows
      exact ⟨n, c', steps, last, same.trans mirrors.history.symm⟩

end CodeUnit.Pass

/-- A unit of core instructions does the same as its graph, whatever the operations
compute and whatever the options are. -/
theorem sameRuns_compile {unit : CodeUnit} {pool : Pool} {options : Options} {g : Graph}
    (core : ∀ i ∈ unit.instructions, i.isCore = true) (h : unit.compile pool options = .ok g)
    (I : Interp V) : (unit.process pool I).SameRuns (g.process I) := by
  obtain ⟨raw, lowered, rfl⟩ := CodeUnit.compile_eq_ok.mp h
  obtain ⟨labels, draft, final, pass, rfl⟩ := CodeUnit.lower_eq_ok.mp lowered
  have raw := (pass.simulation core I).sameRuns (Graph.recording_process _ I)
  exact raw.trans (Graph.sameRuns_cleanup (pass.strict_of_isCore core) I raw.right_safe options)

/-- A loop that swaps two values until the upper one does not hold. -/
def swapLoop : CodeUnit where
  name := none
  instructions := [.load (.logical true), .load .null, .swap, .dup, .branchIfNot ⟨0⟩ ⟨1⟩, .goto ⟨0⟩,
    .ret]
  labels := [some 2, some 6]

def swapLoopPool : Pool := ⟨[.expr (.symbol "while")]⟩

/-- Operations on truth values, where null does not hold and a test gives its
operand. -/
def truthInterp : Interp Bool where
  result _ op args :=
    match op with
    | .const (.logical b) => b
    | _ => args.headD false
  holds := id

/-- The loop is left with the second value on top, in the graph as well. -/
theorem swapLoop_finishes : ∃ g, swapLoop.compile swapLoopPool {} = .ok g ∧
    ∃ events, (g.process truthInterp).Finishes events (.ret, false) := by
  have accepted : ∃ g, swapLoop.compile swapLoopPool {} = .ok g ∧ True :=
    exists_ok_of_toOption (by decide +kernel)
  obtain ⟨g, h, -⟩ := accepted
  have same := sameRuns_compile (by decide) h truthInterp
  have runs : ∃ m, (swapLoop.process swapLoopPool truthInterp).Steps 9 ⟨0, [], []⟩ m ∧
      (swapLoop.process swapLoopPool truthInterp).step m = .finished (.ret, false) :=
    ⟨_, .succ (.succ (.succ (.succ (.succ (.succ (.succ (.succ (.succ (.zero _) rfl) rfl) rfl)
      rfl) rfl) rfl) rfl) rfl) rfl, rfl⟩
  obtain ⟨m, steps, last⟩ := runs
  exact ⟨g, h, m.history, (same.finishes _ _).mp ⟨m, ⟨9, steps⟩, last, rfl⟩⟩

end StackLift
