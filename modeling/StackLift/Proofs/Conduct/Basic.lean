import StackLift.Proofs.Lower.Edge
import StackLift.Proofs.Lower.Quiet

/-!
The primitive steps of the pass, and the conditions in which it may take them.

The pass changes the graph through a few actions only: it appends a statement,
makes a block, adds the phi of a loop index, ends the block under construction,
gives the phis of a block their inputs along an edge, or goes on in another block.
Every other primitive step leaves the graph alone. `Performs` takes a step of the pass apart into
these, and notes the moment at which each is taken.

Some conditions of actions are checked: statements and ends go to a block that has no
end, and the values whose types are compared along an edge exist. What is left to the
pass is that an edge to a direct block is its only one, and that a block is entered when
it is blank and the block before it has its end, a direct block once its edge is there
and a merge once it has its shape. `Conducts` says that a step of the pass keeps to this,
which faults it can have, and what its result is like. A failed check is none of the
faults that are to be expected.
-/

namespace StackLift

/-- At most one edge leads to a direct block, and one does when the pass has come there. -/
def Draft.SingleEdges (d : Draft) : Prop :=
  ∀ b ∈ d.direct, ∀ block, d.graph.block? b = some block →
    block.preds.length ≤ 1 ∧ (b = d.cursor ∨ block.terminator.isSome → block.preds.length = 1)

/-- Only values of the language are on the stack, and direct blocks have one edge. -/
structure State.InOrder (s : State) : Prop where
  stack : ∀ v ∈ s.stack.items, s.draft.HasType v .value
  edges : s.draft.SingleEdges

namespace Lowering

/-- What may be done to the graph under construction. -/
inductive Action where
  | emit (op : Op)
  | newMerge
  | newDirect
  | addIndexPhi (b pred : BlockId) (initial : ValueId)
  | registerLoopIndex (b : BlockId) (phi next : ValueId)
  /-- Gives the block under construction its end. -/
  | close (t : Terminator)
  /-- Gives the phis of a block their inputs along an edge from the block under construction. -/
  | wire (target : BlockId)
  /-- Goes on in a block. -/
  | moveTo (b : BlockId)

namespace Action

def Result : Action → Type
  | emit _ | addIndexPhi _ _ _ => ValueId
  | newMerge | newDirect => BlockId
  | registerLoopIndex _ _ _ | close _ | wire _ | moveTo _ => Unit

def run : (a : Action) → Lowering a.Result
  | emit op => Lowering.emit op
  | newMerge => Lowering.newMerge
  | newDirect => Lowering.newDirect
  | addIndexPhi b pred initial => Lowering.addIndexPhi b pred initial
  | registerLoopIndex b phi next => Lowering.registerLoopIndex b phi next
  | close t => fun s =>
    match s.draft.graph.setTerminator s.draft.cursor t with
    | .ok graph => .ok () { s with draft := { s.draft with graph } }
    | .error breach => .error (.broken breach) s
  | wire target => fun s =>
    match s.draft.wire s.draft.cursor target s.stack.slots with
    | .ok draft => .ok () { s with draft }
    | .error fault => .error fault s
  | moveTo b => fun s => .ok () { s with draft := s.draft.moveTo b }

/-- The condition in which the pass may perform the action, beside those that are checked. -/
def Allowed (d : Draft) : Action → Prop
  | close t => ∀ b ∈ t.successors, b ∈ d.direct →
      t.successors.count b = 1 ∧ ∀ block, d.graph.block? b = some block → block.preds = []
  | moveTo b => d.Blank b ∧ b ≠ d.cursor ∧ d.HasEnd d.cursor ∧
      if b ∈ d.direct then d.HasPred b else (d.shape? b).isSome
  | emit _ | newMerge | newDirect | addIndexPhi _ _ _ | registerLoopIndex _ _ _ | wire _ => True

end Action

/-- The state in which a primitive step is taken, and the action if it is one. -/
structure Moment where
  state : State
  action? : Option Action

namespace Moment

/-- The state is in order, and the action is performed where it may be. -/
structure Proper (m : Moment) : Prop where
  inOrder : m.state.InOrder
  allowed : ∀ a ∈ m.action?, a.Allowed m.state.draft

/-- The block in which the pass goes on. -/
def entered? (m : Moment) : Option BlockId :=
  match m.action? with
  | some (.moveTo b) => some b
  | _ => none

end Moment

/-- A step that leaves the graph alone, also where it fails. -/
def Still {α : Type} (x : Lowering α) : Prop :=
  ∀ s, match x s with
    | .ok _ s' | .error _ s' => s'.draft = s.draft

theorem Quiet.still {α : Type} {x : Lowering α} (quiet : Quiet x) : Still x := by
  intro s
  have here := quiet s
  cases h : x s with
  | ok a s' =>
      rw [h] at here
      exact here
  | error f s' =>
      rw [h] at here
      exact here.1

/-- A step, from a state, consists of the primitive steps taken at the given moments, and has the
given result. -/
inductive Performs : {α : Type} → Lowering α → State → List Moment →
    EStateM.Result Fault State α → Prop
  | still {α : Type} {x : Lowering α} (s : State) (still : Still x) :
      Performs x s [⟨s, none⟩] (x s)
  | act (s : State) (a : Action) : Performs a.run s [⟨s, some a⟩] (a.run s)
  | bind {α β : Type} {x : Lowering α} {f : α → Lowering β} {s s' : State} {a : α}
      {ms ms' : List Moment} {r : EStateM.Result Fault State β}
      (first : Performs x s ms (.ok a s')) (rest : Performs (f a) s' ms' r) :
      Performs (x >>= f) s (ms ++ ms') r
  | stop {α β : Type} {x : Lowering α} {f : α → Lowering β} {s s' : State} {fault : Fault}
      {ms : List Moment} (first : Performs x s ms (.error fault s')) :
      Performs (x >>= f) s ms (.error fault s')

/-- The primitive steps lead to the result. -/
theorem Performs.result {α : Type} {x : Lowering α} {s : State} {ms : List Moment}
    {r : EStateM.Result Fault State α} (performs : Performs x s ms r) : x s = r := by
  induction performs with
  | still => rfl
  | act => rfl
  | @bind _ _ x f s s' a ms ms' r _ _ first rest =>
      change EStateM.bind x f s = r
      rw [EStateM.bind, first]
      exact rest
  | @stop _ _ x f s s' fault ms _ first =>
      change EStateM.bind x f s = .error fault s'
      rw [EStateM.bind, first]

end Lowering

/-! ### Faults -/

/-- The faults that an instruction may have. Stacks that meet differ in how long they are, and not
in the types of their values. A label that was resolved is known, no check of an operation fails,
and what the pass should never meet it does not meet. A switch lacks a default only if it has an
empty jump table. -/
def Fault.Expected (emptyTable : Prop) : Fault → Prop
  | .phiMismatch _ expected actual =>
    expected.length ≠ actual.length ∧ ∀ type ∈ expected ++ actual, type = .value
  | .badLabel _ _ | .broken _ => False
  | .invalid (.enteredBeforeEdge _) | .invalid (.beginsNoCall _) | .invalid (.opensNoDispatch _)
  | .invalid (.closesNoDispatch _) | .invalid .chainWithoutDefault => False
  | .invalid .switchWithoutDefault => emptyTable
  | _ => True

theorem Fault.expected_of_isLocal {emptyTable : Prop} {f : Fault} (isLocal : f.isLocal = true) :
    f.Expected emptyTable := by
  cases f with
  | phiMismatch => cases isLocal
  | badLabel => cases isLocal
  | broken => cases isLocal
  | invalid cause => cases cause <;> trivial
  | _ => trivial

theorem Fault.Expected.mono {emptyTable emptyTable' : Prop} {f : Fault}
    (expected : f.Expected emptyTable) (imp : emptyTable → emptyTable') :
    f.Expected emptyTable' := by
  cases f with
  | invalid cause =>
      cases cause with
      | switchWithoutDefault => exact imp expected
      | _ => exact expected
  | _ => exact expected

/-- Faults, among them those that any instruction may have. -/
structure Faults where
  Has : Fault → Prop
  expected : ∀ {f : Fault}, f.Expected False → Has f

def Faults.any : Faults := ⟨fun _ => True, fun _ => trivial⟩

def Faults.expectedOf (emptyTable : Prop) : Faults := ⟨(·.Expected emptyTable), (·.mono False.elim)⟩

namespace Lowering

/-! ### The judgement -/

variable {α β : Type} {F : Faults} {Q : α → State → Prop} {R : β → State → Prop} {s : State}

/-- From the state, a step takes its primitive steps where it may. If it has a fault, then one of
the given ones, and if it has a result, then one with `Q`. -/
structure Conducts (F : Faults) (x : Lowering α) (s : State) (Q : α → State → Prop) :
    Prop where
  performs : ∃ ms, Performs x s ms (x s) ∧ ∀ m ∈ ms, m.Proper
  fault : ∀ f s', x s = .error f s' → F.Has f
  result : ∀ {a s'}, x s = .ok a s' → Q a s'

theorem Conducts.imp {Q' : α → State → Prop} {x : Lowering α} (conducts : Conducts F x s Q)
    (imp : ∀ a s', Q a s' → Q' a s') : Conducts F x s Q' :=
  ⟨conducts.performs, conducts.fault, fun h => imp _ _ (conducts.result h)⟩

/-- The result is that of the step. -/
theorem Conducts.eq {x : Lowering α} (conducts : Conducts F x s Q) :
    Conducts F x s fun a s' => x s = .ok a s' ∧ Q a s' :=
  ⟨conducts.performs, conducts.fault, fun h => ⟨h, conducts.result h⟩⟩

theorem Conducts.bind {x : Lowering α} {f : α → Lowering β} (first : Conducts F x s Q)
    (rest : ∀ a s', Q a s' → Conducts F (f a) s' R) : Conducts F (x >>= f) s R := by
  obtain ⟨ms, performs, proper⟩ := first.performs
  cases hx : x s with
  | error fault s' =>
      rw [hx] at performs
      have stopped : (x >>= f) s = .error fault s' := bind_eq_error_iff.mpr (Or.inl hx)
      refine ⟨⟨ms, by rw [stopped]; exact .stop performs, proper⟩, fun f' t h => ?_, fun h => ?_⟩
      · rw [stopped] at h
        cases h
        exact first.fault _ _ hx
      · rw [stopped] at h
        cases h
  | ok a s' =>
      obtain ⟨⟨ms', performs', proper'⟩, fault', result'⟩ := rest a s' (first.result hx)
      rw [hx] at performs
      have goes : (x >>= f) s = f a s' := (Performs.bind performs performs').result
      rw [← goes] at performs'
      refine ⟨⟨ms ++ ms', .bind performs performs', fun m mem => ?_⟩, ?_, ?_⟩
      · exact (List.mem_append.mp mem).elim (proper m) (proper' m)
      · rw [goes]
        exact fault'
      · rw [goes]
        exact result'

theorem Conducts.still {x : Lowering α} (inOrder : s.InOrder) (still : Still x)
    (fault : ∀ f s', x s = .error f s' → F.Has f)
    (result : ∀ {a s'}, x s = .ok a s' → Q a s') : Conducts F x s Q := by
  refine ⟨⟨_, .still s still, fun m mem => ?_⟩, fault, result⟩
  obtain rfl := List.mem_singleton.mp mem
  exact ⟨inOrder, nofun⟩

theorem Conducts.quiet {x : Lowering α} (inOrder : s.InOrder) (quiet : Quiet x)
    (result : ∀ {a s'}, x s = .ok a s' → Q a s') : Conducts F x s Q :=
  .still inOrder quiet.still
    (fun _ _ h => F.expected (Fault.expected_of_isLocal (quiet.fault h))) result

/-- A quiet step ensures what it does. -/
theorem Conducts.of_ensures {P : State → Prop} {x : Lowering α} (quiet : Quiet x)
    (ensures : Ensures P x Q) (inOrder : s.InOrder) (pre : P s) : Conducts F x s Q :=
  .quiet inOrder quiet fun h => ensures s _ _ pre h

theorem Conducts.pure {a : α} (inOrder : s.InOrder) (post : Q a s) :
    Conducts F (pure a) s Q :=
  .of_ensures (quiet_pure a) (.pure fun _ h => h) inOrder post

theorem Conducts.fail {fault : Fault} (inOrder : s.InOrder) (has : F.Has fault) :
    Conducts F (fail fault : Lowering α) s Q := by
  refine .still inOrder (fun _ => rfl) (fun f s' h => ?_) fun h => ?_
  · cases h
    exact has
  · cases h

theorem Conducts.act (a : Action) {Q : a.Result → State → Prop} (inOrder : s.InOrder)
    (allowed : a.Allowed s.draft)
    (fault : ∀ f s', a.run s = .error f s' → F.Has f)
    (result : ∀ {r s'}, a.run s = .ok r s' → Q r s') : Conducts F a.run s Q := by
  refine ⟨⟨_, .act s a, fun m mem => ?_⟩, fault, result⟩
  obtain rfl := List.mem_singleton.mp mem
  refine ⟨inOrder, fun b here => ?_⟩
  cases here
  exact allowed

/-! ### Composite steps as primitive ones -/

/-- Wires edges from the block under construction in turn. -/
def wireEach : List BlockId → Lowering Unit
  | [] => pure ()
  | b :: rest => do
    (Action.wire b).run
    wireEach rest

theorem wireEach_eq (targets : List BlockId) (s : State) :
    wireEach targets s = match Draft.wireAll s.draft.cursor s.stack.slots targets s.draft with
      | .ok () draft => .ok () { s with draft }
      | .error fault draft => .error fault { s with draft } := by
  induction targets generalizing s with
  | nil => rfl
  | cons b rest ih =>
      change EStateM.bind (Action.wire b).run (fun _ => wireEach rest) s = _
      simp only [EStateM.bind, Draft.wireAll, Action.run]
      cases wired : s.draft.wire s.draft.cursor b s.stack.slots with
      | error fault => rfl
      | ok d' => simp only [ih, (Draft.frame_wire wired).1]

/-- A block gets its end before the edges are wired. -/
theorem terminate_eq (t : Terminator) :
    terminate t = (do
      (Action.close t).run
      wireEach t.successors) := by
  funext s
  change _ = EStateM.bind (Action.close t).run (fun _ => wireEach t.successors) s
  rw [terminate, Draft.terminate, EStateM.bind]
  simp only [Action.run]
  cases s.draft.graph.setTerminator s.draft.cursor t with
  | error breach => rfl
  | ok graph => exact (wireEach_eq t.successors { s with draft := { s.draft with graph } }).symm

theorem enter_eq (b : BlockId) :
    enter b = (do
      let s ← current
      if s.draft.isDirect b then do
        (Action.moveTo b).run
        update fun s => { s with live := true }
      else
        match s.draft.shape? b with
        | some shape => do
          (Action.moveTo b).run
          update fun s => { s with stack := .ofSlots shape, live := true }
        | none => fail (.invalid (.enteredBeforeEdge b))) := by
  funext s
  change _ = (if s.draft.isDirect b then _ else _ : Lowering Unit) s
  rw [enter]
  simp only
  split
  · rfl
  · cases s.draft.shape? b <;> rfl

theorem arriveAt_eq (b : BlockId) (fallsThrough : Bool) :
    arriveAt b fallsThrough = (do
      let s ← current
      match s.draft.shape? b with
      | none => update fun s => { s with live := false }
      | some shape => do
        (Action.moveTo b).run
        update fun s =>
          let s' := { s with stack := .ofSlots shape, live := true }
          if fallsThrough then s'
          else
            match s.edgeDepths.lookup b with
            | some depths => s'.truncateBrackets depths
            | none => s') := by
  funext s
  change _ = (match s.draft.shape? b with | none => _ | some shape => _ : Lowering Unit) s
  rw [arriveAt]
  cases s.draft.shape? b with
  | none => rfl
  | some shape =>
      change _ = EStateM.Result.ok () (ite _ _ _)
      cases fallsThrough with
      | true => rfl
      | false =>
          simp only [Bool.false_eq_true, if_false]
          cases s.edgeDepths.lookup b <;> rfl

end Lowering

/-! ### Blocks are entered once -/

namespace Draft

variable {d d' : Draft} {b : BlockId}

/-- The pass has come to the block. -/
def Taken (d : Draft) (b : BlockId) : Prop := b = d.cursor ∨ d.HasEnd b

/-- A change to a block that keeps its end keeps all ends. -/
theorem HasEnd.updateBlock (ended : d.HasEnd b) {c : BlockId} {f : Block → Block}
    (blocks : d'.graph.blocks = (d.graph.updateBlock c f).blocks)
    (keeps : ∀ block, (f block).terminator = block.terminator) : d'.HasEnd b := by
  obtain ⟨block, live, last⟩ := ended
  have same : d'.graph.block? b = (d.graph.updateBlock c f).block? b := by
    rw [Graph.block?, Graph.block?, blocks]
  rw [HasEnd, same, Graph.block?_updateBlock, live]
  split
  · exact ⟨f block, rfl, by rwa [keeps]⟩
  · exact ⟨block, rfl, last⟩

theorem HasEnd.wire {source target : BlockId} {slots : List ValueId} (ended : d.HasEnd b)
    (h : d.wire source target slots = .ok d') : d'.HasEnd b :=
  wire_keeps (P := fun graph => Draft.HasEnd { d with graph } b)
    (fun _ _ _ ended => ended.updateBlock rfl fun _ => rfl)
    (fun _ _ _ _ _ ended => ended.updateBlock rfl fun _ => rfl) h ended

theorem HasEnd.closed (ended : d.HasEnd b) (t : Terminator) : (d.closed t).HasEnd b := by
  obtain ⟨block, live, last⟩ := ended
  refine ⟨d.endBlock t b block, by rw [block?_closed, live, Option.map_some], ?_⟩
  rw [endBlock]
  simp only
  split
  · rfl
  · exact last

end Draft

namespace Lowering

/-- Where the pass has come, it has come after every action. -/
theorem Action.taken {a : Action} {s s' : State} {r : a.Result} {b : BlockId}
    (allowed : a.Allowed s.draft) (h : a.run s = .ok r s')
    (taken : s.draft.Taken b) : s'.draft.Taken b := by
  cases a with
  | emit op =>
      obtain ⟨-, rfl⟩ := emit_eq_ok h
      exact taken.imp id fun ended => ended.updateBlock rfl fun _ => rfl
  | newMerge =>
      cases h
      exact taken.imp id fun ⟨block, live, last⟩ =>
        ⟨block, Draft.block?_addBlock_of_eq_some live, last⟩
  | newDirect =>
      cases h
      exact taken.imp id fun ⟨block, live, last⟩ =>
        ⟨block, Draft.block?_addBlock_of_eq_some live, last⟩
  | addIndexPhi c pred initial =>
      cases h
      refine taken.imp id fun ended => ?_
      have added : Draft.HasEnd { s.draft with graph := (s.draft.graph.addPhi c .index).2 } b :=
        ended.updateBlock rfl fun _ => rfl
      exact added.updateBlock rfl fun _ => rfl
  | registerLoopIndex c phi next =>
      cases h
      exact taken
  | close t =>
      simp only [Action.run] at h
      split at h
      case h_2 => cases h
      case h_1 closes =>
        cases h
        obtain ⟨-, rfl⟩ := Graph.setTerminator_eq_ok_iff.mp closes
        exact taken.imp id (·.closed t)
  | wire target =>
      simp only [Action.run] at h
      split at h
      · rename_i draft wired
        cases h
        exact taken.imp (fun here => here.trans (Draft.frame_wire wired).1.symm) (·.wire wired)
      · cases h
  | moveTo c =>
      cases h
      rcases taken with rfl | ended
      · exact Or.inr allowed.2.2.1
      · exact Or.inr ended

theorem Action.not_taken {s : State} {b : BlockId}
    (allowed : (Action.moveTo b).Allowed s.draft) : ¬s.draft.Taken b := by
  rintro (here | ended)
  · exact allowed.2.1 here
  · exact allowed.1.hasNoEnd ended

/-- The blocks that a step enters are new to the pass, and it enters none of them again. -/
theorem Performs.entered {α : Type} {x : Lowering α} {s : State} {ms : List Moment}
    {r : EStateM.Result Fault State α} (performs : Performs x s ms r)
    (proper : ∀ m ∈ ms, m.Proper) :
    (ms.filterMap Moment.entered?).Nodup ∧
      (∀ b ∈ ms.filterMap Moment.entered?, ¬s.draft.Taken b) ∧
      ∀ a s', r = .ok a s' → ∀ b, s.draft.Taken b ∨ b ∈ ms.filterMap Moment.entered? →
        s'.draft.Taken b := by
  induction performs with
  | still s still =>
      refine ⟨.nil, fun b mem => absurd mem List.not_mem_nil, fun a s' h b taken => ?_⟩
      have same := still s
      rw [h] at same
      rw [show s'.draft = s.draft from same]
      exact taken.resolve_right List.not_mem_nil
  | act s a =>
      have allowed : a.Allowed s.draft :=
        (proper _ List.mem_cons_self).allowed a rfl
      by_cases moves : ∃ c, a = .moveTo c
      · obtain ⟨c, rfl⟩ := moves
        refine ⟨by simp [Moment.entered?], fun b mem => ?_, fun _ s' h b taken => ?_⟩
        · obtain rfl := List.mem_singleton.mp mem
          exact Action.not_taken allowed
        · rcases taken with taken | mem
          · exact Action.taken allowed h taken
          · obtain rfl := List.mem_singleton.mp mem
            cases h
            exact Or.inl rfl
      · have none : [(⟨s, some a⟩ : Moment)].filterMap Moment.entered? = [] := by
          cases a <;> first | rfl | exact absurd ⟨_, rfl⟩ moves
        rw [none]
        refine ⟨.nil, fun b mem => absurd mem List.not_mem_nil, fun _ s' h b taken => ?_⟩
        exact Action.taken allowed h (taken.resolve_right List.not_mem_nil)
  | @bind _ _ x f s s' a ms ms' r _ _ first rest =>
      obtain ⟨nodup, fresh, taken⟩ := first fun m mem => proper m (List.mem_append_left _ mem)
      obtain ⟨nodup', fresh', taken'⟩ := rest fun m mem => proper m (List.mem_append_right _ mem)
      have before := taken a s' rfl
      rw [List.filterMap_append]
      refine ⟨List.nodup_append.mpr ⟨nodup, nodup', ?_⟩, fun b mem => ?_, fun c t h b mem => ?_⟩
      · rintro b mem _ mem' rfl
        exact fresh' b mem' (before b (Or.inr mem))
      · rcases List.mem_append.mp mem with mem | mem
        · exact fresh b mem
        · exact fun old => fresh' b mem (before b (Or.inl old))
      · refine taken' c t h b ?_
        rcases mem with old | mem
        · exact Or.inl (before b (Or.inl old))
        · exact (List.mem_append.mp mem).imp (fun mem => before b (Or.inr mem)) id
  | stop _ ih =>
      obtain ⟨nodup, fresh, -⟩ := ih proper
      exact ⟨nodup, fresh, fun a s' h => by cases h⟩

end Lowering

end StackLift
