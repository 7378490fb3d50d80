import Mathlib.Data.List.Forall2
import StackLift.Proofs.Graph.Cleanup
import StackLift.Proofs.Graph.Exec

/-!
Replacing the uses of a value by those of another.

`Graph.Substitutes f g h` says part by part that `h` is `g` with every operand,
phi input and tested or returned value passed through `f`, and with nothing else
changed. It never mentions how a graph is rewritten, and it fixes `h`: an
operation is known by its form and its operands, a terminator likewise. So
`Graph.mapUses f` makes the only graph that stands in this relation to `g`, and
`Graph.replaceUses` the only one for the substitution of a single value.
-/

namespace StackLift

/-- Operations that do the same to the same operands are equal. -/
theorem Op.eq_of_form_of_operands {a b : Op} (form : a.form = b.form)
    (operands : a.operands = b.operands) : a = b := by
  -- The forms of different constructors differ, which leaves one case for each constructor.
  cases a <;> cases b <;> first
    | cases form; done
    | simp_all [Op.form, mapOperands, Op.operands]

namespace Terminator

/-- A terminator with its operand left blank. -/
def form (t : Terminator) : Terminator := t.mapOperands fun _ => ⟨0⟩

@[simp] theorem form_mapOperands (f : ValueId → ValueId) (t : Terminator) :
    (t.mapOperands f).form = t.form := by
  cases t <;> rfl

theorem mapOperands_comp (f g : ValueId → ValueId) (t : Terminator) :
    (t.mapOperands f).mapOperands g = t.mapOperands (g ∘ f) := by
  cases t <;> rfl

theorem eq_of_form_of_operands {t u : Terminator} (form : t.form = u.form)
    (operands : t.operands = u.operands) : t = u := by
  cases t <;> cases u <;> first
    | cases form; done
    | simp_all [Terminator.form, mapOperands, Terminator.operands]

end Terminator

section

variable (f : ValueId → ValueId)

structure Phi.Substitutes (p q : Phi) : Prop where
  value : q.value = p.value
  type : q.type = p.type
  preds : q.inputs.map (·.1) = p.inputs.map (·.1)
  inputs : q.inputs.map (·.2) = (p.inputs.map (·.2)).map f

structure Stmt.Substitutes (s t : Stmt) : Prop where
  value : t.value = s.value
  type : t.op.resultType = s.op.resultType
  form : t.op.form = s.op.form
  operands : t.op.operands = s.op.operands.map f

structure Terminator.Substitutes (t u : Terminator) : Prop where
  successors : u.successors = t.successors
  form : u.form = t.form
  operands : u.operands = t.operands.map f

structure Block.Substitutes (b c : Block) : Prop where
  preds : c.preds = b.preds
  phis : List.Forall₂ (Phi.Substitutes f) b.phis c.phis
  stmts : List.Forall₂ (Stmt.Substitutes f) b.stmts c.stmts
  terminator : Option.Rel (Terminator.Substitutes f) b.terminator c.terminator

/-- The graph `h` is `g` with `f` applied to what its blocks use, and to nothing else. Blocks keep
their numbers, and removed blocks stay removed. -/
structure Graph.Substitutes (g h : Graph) : Prop where
  name : h.name = g.name
  values : h.values = g.values
  nextBlock : h.nextBlock = g.nextBlock
  blocks : ∀ b, Option.Rel (Block.Substitutes f) (g.block? b) (h.block? b)

end

/-- The values that a block uses, those of its phis first and those of its terminator last. -/
def Block.uses (b : Block) : List ValueId :=
  b.phis.flatMap (·.inputs.map (·.2)) ++ b.stmts.flatMap (·.op.operands) ++
    b.terminator.toList.flatMap (·.operands)

/-! ### The only graph with the operands substituted -/

theorem Phi.substitutes_iff (f : ValueId → ValueId) (p q : Phi) :
    p.Substitutes f q ↔ { p with inputs := p.inputs.map fun e => (e.1, f e.2) } = q := by
  constructor
  · intro h
    have inputs : q.inputs = p.inputs.map fun e => (e.1, f e.2) := by
      rw [← List.zip_unzip q.inputs, List.unzip_eq_map, h.preds, h.inputs]
      simp [List.zip_map', Function.comp_def]
    rcases p with ⟨value, type, _⟩
    rcases q with ⟨value', type', _⟩
    obtain rfl : value' = value := h.value
    obtain rfl : type' = type := h.type
    exact congrArg (Phi.mk value' type') inputs.symm
  · rintro rfl
    exact { value := rfl, type := rfl, preds := by simp, inputs := by simp }

theorem Stmt.substitutes_iff (f : ValueId → ValueId) (s t : Stmt) :
    s.Substitutes f t ↔ { s with op := s.op.mapOperands f } = t := by
  constructor
  · intro h
    rcases s with ⟨value, op⟩
    rcases t with ⟨value', op'⟩
    obtain rfl : value' = value := h.value
    have same : op.mapOperands f = op' :=
      Op.eq_of_form_of_operands (by rw [Op.form_mapOperands]; exact h.form.symm)
        (by rw [Op.operands_mapOperands]; exact h.operands.symm)
    exact congrArg (Stmt.mk value') same
  · rintro rfl
    exact { value := rfl, type := by simp, form := by simp, operands := by simp }

theorem Terminator.substitutes_iff (f : ValueId → ValueId) (t u : Terminator) :
    t.Substitutes f u ↔ t.mapOperands f = u := by
  constructor
  · intro h
    apply eq_of_form_of_operands
    · rw [form_mapOperands, h.form]
    · rw [operands_mapOperands, h.operands]
  · rintro rfl
    exact { successors := by simp, form := by simp, operands := by simp }

theorem forall₂_iff_map_eq {α : Type} {R : α → α → Prop} {k : α → α}
    (functional : ∀ x y, R x y ↔ k x = y) {xs ys : List α} :
    List.Forall₂ R xs ys ↔ xs.map k = ys := by
  obtain rfl : R = fun x y => k x = y := by
    funext x y
    exact propext (functional x y)
  rw [← List.forall₂_map_left_iff, List.forall₂_eq_eq_eq]

theorem optionRel_iff_map_eq {α : Type} {R : α → α → Prop} {k : α → α}
    (functional : ∀ x y, R x y ↔ k x = y) {o p : Option α} :
    Option.Rel R o p ↔ o.map k = p := by
  constructor
  · rintro (related | _)
    · exact congrArg some ((functional _ _).mp related)
    · rfl
  · rintro rfl
    cases o with
    | none => exact .none
    | some x => exact .some ((functional _ _).mpr rfl)

theorem Block.substitutes_iff (f : ValueId → ValueId) (b c : Block) :
    b.Substitutes f c ↔ b.mapUses f = c := by
  constructor
  · rintro ⟨preds, phis, stmts, terminator⟩
    rcases c with ⟨phis', stmts', terminator', preds'⟩
    obtain rfl : preds' = b.preds := preds
    obtain rfl := (forall₂_iff_map_eq (Phi.substitutes_iff f)).mp phis
    obtain rfl := (forall₂_iff_map_eq (Stmt.substitutes_iff f)).mp stmts
    obtain rfl := (optionRel_iff_map_eq (Terminator.substitutes_iff f)).mp terminator
    rfl
  · rintro rfl
    exact {
      preds := rfl
      phis := (forall₂_iff_map_eq (Phi.substitutes_iff f)).mpr rfl
      stmts := (forall₂_iff_map_eq (Stmt.substitutes_iff f)).mpr rfl
      terminator := (optionRel_iff_map_eq (Terminator.substitutes_iff f)).mpr rfl }

namespace Graph

/-- Graphs with the same blocks under the same numbers have the same places for them. -/
theorem blocks_eq_of_block? {g h : Graph} (next : g.nextBlock = h.nextBlock)
    (blocks : ∀ b, g.block? b = h.block? b) : g.blocks = h.blocks := by
  have length : g.blocks.length = h.blocks.length := congrArg BlockId.index next
  refine List.ext_getElem length fun i inG inH => ?_
  simpa [block?, List.getElem?_eq_getElem, inG, inH] using blocks ⟨i⟩

theorem substitutes_iff (f : ValueId → ValueId) (g h : Graph) :
    g.Substitutes f h ↔ g.mapUses f = h := by
  constructor
  · rintro ⟨name, values, next, blocks⟩
    have same : (g.mapUses f).blocks = h.blocks := by
      refine blocks_eq_of_block? ?_ fun b => ?_
      · simpa [nextBlock, mapUses] using next.symm
      · rw [block?_mapUses]
        exact (optionRel_iff_map_eq (Block.substitutes_iff f)).mp (blocks b)
    rcases h with ⟨name', blocks', values'⟩
    obtain rfl : name' = g.name := name
    obtain rfl : values' = g.values := values
    exact congrArg (fun blocks => Graph.mk g.name blocks g.values) same
  · rintro rfl
    refine { name := rfl, values := rfl, nextBlock := ?_, blocks := fun b => ?_ }
    · simp [nextBlock, mapUses]
    · exact (optionRel_iff_map_eq (Block.substitutes_iff f)).mpr (block?_mapUses g f b).symm

end Graph

/-! ### What is used afterwards -/

theorem Block.uses_mapUses (f : ValueId → ValueId) (b : Block) :
    (b.mapUses f).uses = b.uses.map f := by
  cases terminator : b.terminator <;>
    simp [uses, mapUses, terminator, List.map_flatMap, List.flatMap_map, Function.comp_def]

theorem Block.mapUses_comp (f g : ValueId → ValueId) (b : Block) :
    (b.mapUses f).mapUses g = b.mapUses (g ∘ f) := by
  simp [mapUses, Op.mapOperands_comp, Terminator.mapOperands_comp, Function.comp_def]

namespace Graph

theorem mapUses_comp (f f' : ValueId → ValueId) (g : Graph) :
    (g.mapUses f).mapUses f' = g.mapUses (f' ∘ f) := by
  have blocks : Option.map (Block.mapUses f') ∘ Option.map (Block.mapUses f) =
      Option.map (Block.mapUses (f' ∘ f)) := by
    funext o
    cases o <;> simp [Block.mapUses_comp]
  simp [mapUses, blocks]

theorem subst_ne {old new : ValueId} (differ : old ≠ new) (v : ValueId) :
    subst old new v ≠ old := by
  by_cases same : v = old
  · rw [same, subst_self]
    exact differ.symm
  · rwa [subst_of_ne same]

/-- Replacing the uses of a value is the substitution of operands and nothing else: its result is
the one graph that `Graph.Substitutes` allows. A value replaced by another is used nowhere
afterwards, and two replacements, the second of what the first put in, make the composed
substitution. -/
theorem replaceUses_substitutes (g : Graph) (old new : ValueId) :
    (∀ h, g.Substitutes (subst old new) h ↔ g.replaceUses old new = h) ∧
    (old ≠ new → ∀ b block, (g.replaceUses old new).block? b = some block → old ∉ block.uses) ∧
    ∀ last h, g.Substitutes (subst new last ∘ subst old new) h ↔
      (g.replaceUses old new).replaceUses new last = h := by
  refine ⟨substitutes_iff (subst old new) g, fun differ b block found used => ?_, fun last h => ?_⟩
  · have replaced : (g.mapUses (subst old new)).block? b = some block := found
    rw [block?_mapUses, Option.map_eq_some_iff] at replaced
    obtain ⟨before, -, rfl⟩ := replaced
    rw [Block.uses_mapUses] at used
    obtain ⟨v, -, became⟩ := List.mem_map.mp used
    exact subst_ne differ v became
  · have composed : (g.replaceUses old new).replaceUses new last =
        g.mapUses (subst new last ∘ subst old new) :=
      mapUses_comp (subst old new) (subst new last) g
    rw [composed]
    exact substitutes_iff _ g h

/-- A graph with a removed block, which uses `v` in a test, as a phi input, twice in a call with
argument names and as the value returned. -/
def usesOf (v : ValueId) : Graph where
  name := "f"
  blocks := [
    some {
      stmts := [⟨⟨0⟩, .missingArg⟩, ⟨⟨1⟩, .expandDots⟩, ⟨⟨2⟩, .isPlain v⟩]
      terminator := some (.branch ⟨2⟩ ⟨2⟩ ⟨2⟩) },
    none,
    some {
      phis := [{ value := ⟨3⟩, type := .value, inputs := [(⟨0⟩, v), (⟨0⟩, ⟨2⟩)] }]
      stmts := [⟨⟨4⟩, .namedCall v [⟨3⟩, v] [some "x", none] (.pool (.ofNat 0))⟩]
      terminator := some (.ret v)
      preds := [⟨0⟩, ⟨0⟩] }]
  values := [⟨.value, .stmt ⟨0⟩⟩, ⟨.value, .stmt ⟨0⟩⟩, ⟨.test, .stmt ⟨0⟩⟩, ⟨.value, .phi ⟨2⟩⟩,
    ⟨.value, .stmt ⟨2⟩⟩]

theorem replaceUses_substitutes_usesOf :
    (usesOf ⟨0⟩).Substitutes (subst ⟨0⟩ ⟨1⟩) (usesOf ⟨1⟩) ∧
    ((⟨0⟩ : ValueId) ≠ ⟨1⟩ ∧ ∀ b block, ((usesOf ⟨0⟩).replaceUses ⟨0⟩ ⟨1⟩).block? b = some block →
      ⟨0⟩ ∉ block.uses) ∧
    (usesOf ⟨0⟩).Substitutes (subst ⟨1⟩ ⟨4⟩ ∘ subst ⟨0⟩ ⟨1⟩) (usesOf ⟨4⟩) := by
  have replaces := replaceUses_substitutes (usesOf ⟨0⟩) ⟨0⟩ ⟨1⟩
  have differ : (⟨0⟩ : ValueId) ≠ ⟨1⟩ := by decide
  exact ⟨(replaces.1 _).mpr rfl, ⟨differ, replaces.2.1 differ⟩, (replaces.2.2 ⟨4⟩ _).mpr rfl⟩

end Graph

end StackLift
