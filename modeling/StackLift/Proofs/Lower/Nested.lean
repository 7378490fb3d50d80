import StackLift.Proofs.Graph.Cleanup
import StackLift.Proofs.Lower.Context
import StackLift.Proofs.Lower.Parts

/-!
The units that a graph refers to. A promise or a closure is made only of code that was found
in the pool, and cleaning up makes none, so every reference in the graph of a unit leads to a
code entry (`CodeUnit.finds_of_compile`).
-/

namespace StackLift

@[simp] theorem Op.nested?_mapOperands (f : ValueId → ValueId) (op : Op) :
    (op.mapOperands f).nested? = op.nested? := by
  cases op <;> rfl

namespace Graph

/-- Every nested unit that a statement refers to is in the pool. -/
def Finds (pool : Pool) (g : Graph) : Prop :=
  ∀ ⦃b : BlockId⦄ ⦃block : Block⦄, g.block? b = some block → ∀ s ∈ block.stmts, s.op.Finds pool

variable {pool : Pool} {g : Graph}

namespace Finds

theorem updateBlock {f : Block → Block} (finds : g.Finds pool) (b : BlockId)
    (same : ∀ block, (f block).stmts = block.stmts) : (g.updateBlock b f).Finds pool := by
  intro c block' live' s mem
  rw [block?_updateBlock] at live'
  split at live'
  · obtain ⟨block, live, rfl⟩ := Option.map_eq_some_iff.mp live'
    rw [same] at mem
    exact finds live s mem
  · exact finds live' s mem

theorem foldl_updateBlock {f : BlockId → Block → Block} {bs : List BlockId}
    (same : ∀ b block, (f b block).stmts = block.stmts) (finds : g.Finds pool) :
    (bs.foldl (fun g b => g.updateBlock b (f b)) g).Finds pool := by
  induction bs generalizing g with
  | nil => exact finds
  | cons b rest ih => exact ih (finds.updateBlock b (same b))

theorem addBlock (finds : g.Finds pool) : g.addBlock.2.Finds pool := by
  intro b block live s mem
  rw [block?_addBlock] at live
  split at live
  · cases live
    cases mem
  · exact finds live s mem

theorem addStmt {op : Op} (finds : g.Finds pool) (found : op.Finds pool) (b : BlockId) :
    (g.addStmt b op).2.Finds pool := by
  intro c block' live' s mem
  rw [block?_addStmt] at live'
  split at live'
  · obtain ⟨block, live, rfl⟩ := Option.map_eq_some_iff.mp live'
    rcases List.mem_append.mp mem with old | new
    · exact finds live s old
    · exact List.mem_singleton.mp new ▸ found
  · exact finds live' s mem

theorem addPhi (finds : g.Finds pool) (b : BlockId) (type : ValueType) :
    (g.addPhi b type).2.Finds pool :=
  updateBlock (g := g.addValue type (.phi b)) finds b fun _ => rfl

theorem addPhiInput (finds : g.Finds pool) (b : BlockId) (phi : ValueId) (pred : BlockId)
    (value : ValueId) : (g.addPhiInput b phi pred value).Finds pool :=
  finds.updateBlock b fun _ => rfl

theorem addEnd (finds : g.Finds pool) (b : BlockId) (t : Terminator) :
    (g.addEnd b t).Finds pool := by
  rw [Graph.addEnd]
  refine foldl_updateBlock (f := fun _ block => block.addPred b) (fun _ _ => rfl) ?_
  exact finds.updateBlock b fun _ => rfl

theorem removeBlock (finds : g.Finds pool) (b : BlockId) : (g.removeBlock b).Finds pool := by
  rw [Graph.removeBlock]
  split
  · exact finds
  · refine foldl_updateBlock (f := fun _ block => block.dropPred b) (fun _ _ => rfl) ?_
    intro c block live s mem
    rw [Graph.block?, List.getElem?_set] at live
    split at live
    · split at live <;> cases live
    · exact finds live s mem

theorem replacePhi (finds : g.Finds pool) (b : BlockId) (phi value : ValueId) :
    (g.replacePhi b phi value).Finds pool := by
  intro c block' live' s mem
  rw [block?_replacePhi] at live'
  obtain ⟨block, live, rfl⟩ := Option.map_eq_some_iff.mp live'
  obtain ⟨s', mem', rfl⟩ := List.mem_map.mp mem
  have old : s' ∈ block.stmts := by
    split at mem' <;> exact mem'
  intro code kind nested
  exact finds live s' old ((Op.nested?_mapOperands _ _).symm.trans nested)

theorem cleanup (finds : g.Finds pool) (options : Options) : (options.cleanup g).Finds pool :=
  cleanup_induction (fun finds _ _ _ => finds.removeBlock _)
    (fun finds _ _ _ => finds.replacePhi _ _ _) options finds

end Finds

end Graph

namespace Draft

variable {pool : Pool}

theorem finds_wireAll {source : BlockId} {slots : List ValueId} {targets : List BlockId}
    {d d' : Draft} (h : wireAll source slots targets d = .ok () d')
    (finds : d.graph.Finds pool) : d'.graph.Finds pool :=
  wireAll_keeps (P := (·.graph.Finds pool))
    (fun _ => wire_keeps (P := (·.Finds pool)) (fun _ _ type finds => finds.addPhi _ type)
      fun _ _ _ _ _ finds => finds.addPhiInput _ _ _ _)
    h finds

end Draft

namespace Lowering

/-- A step that adds no reference to code that is not in the pool. -/
def Founds (pool : Pool) {α : Type} (m : Lowering α) : Prop :=
  ∀ ⦃s s' : State⦄ ⦃a : α⦄, m s = .ok a s' → s.draft.graph.Finds pool → s'.draft.graph.Finds pool

theorem founds_terminate (pool : Pool) (t : Terminator) : Founds pool (terminate t) := by
  intro s s' a h finds
  rw [terminate] at h
  split at h
  case h_2 => cases h
  case h_1 ended =>
    cases h
    exact Draft.finds_wireAll (Draft.terminate_eq_ok_iff.mp ended).2 (finds.addEnd _ t)

theorem founds_enter (pool : Pool) (b : BlockId) : Founds pool (enter b) := by
  intro s s' a h finds
  rw [enter] at h
  simp only at h
  split at h
  · cases h
    exact finds
  · split at h <;> cases h
    exact finds

theorem founds_arriveAt (pool : Pool) (b : BlockId) (fallsThrough : Bool) :
    Founds pool (arriveAt b fallsThrough) := by
  intro s s' a h finds
  rw [arriveAt] at h
  split at h
  · cases h
    exact finds
  · simp only at h
    split at h
    · cases h
      exact finds
    · split at h <;> cases h <;> exact finds

theorem parts_founds (ctx : Context) : Parts ctx (Founds ctx.pool) where
  bind := by
    intro α β m f first rest s s' b h finds
    obtain ⟨a, t, head, tail⟩ := bind_eq_ok_iff.mp h
    exact rest a tail (first head finds)
  quiet := fun quiet s s' a h finds => (quiet.draft h).symm ▸ finds
  emit := by
    intro op found s s' v h finds
    obtain ⟨-, rfl⟩ := emit_eq_ok h
    exact finds.addStmt found _
  newMerge := by
    intro s s' b h finds
    cases h
    exact finds.addBlock
  newDirect := by
    intro s s' b h finds
    cases h
    exact finds.addBlock
  addIndexPhi := by
    intro b pred initial s s' phi h finds
    cases h
    exact (finds.addPhi b .index).addPhiInput _ _ _ _
  registerLoopIndex := by
    intro b phi next s s' u h finds
    cases h
    exact finds
  terminate := founds_terminate ctx.pool
  enter := founds_enter ctx.pool
  arriveAt := founds_arriveAt ctx.pool
  target := by
    intro l s s' b h finds
    obtain ⟨-, rfl⟩ := ofExcept_eq_ok h
    exact finds
  malformed := fun _ s s' a h => by cases h
  broken := fun _ s s' a h => by cases h

/-- The pass adds no reference to code that is not in the pool. -/
theorem finds_of_run {ctx : Context} {offset : Nat} {code : List Instruction} {s s' : State}
    (h : run ctx offset code s = .ok s') (finds : s.draft.graph.Finds ctx.pool) :
    s'.draft.graph.Finds ctx.pool := by
  induction code generalizing offset s with
  | nil =>
      cases h
      exact finds
  | cons i rest ih =>
      rw [run] at h
      split at h
      case h_1 stepped => exact ih h ((parts_founds ctx).step offset i stepped finds)
      case h_2 => cases h

end Lowering

theorem CodeUnit.finds_of_compile {unit : CodeUnit} {pool : Pool} {options : Options} {g : Graph}
    (h : unit.compile pool options = .ok g) : g.Finds pool := by
  obtain ⟨raw, lowered, rfl⟩ := compile_eq_ok.mp h
  obtain ⟨labels, draft, final, pass, rfl⟩ := lower_eq_ok.mp lowered
  have start : draft.graph.Finds pool := by
    intro b block live s mem
    rw [pass.start.bare.block live] at mem
    cases mem
  exact (Lowering.finds_of_run pass.run start).cleanup options

end StackLift
