import StackLift.Bytecode.Assembly
import StackLift.Proofs.Resolution

/-!
Assembling a unit and resolving its labels. Both check labels, by different rules: for the assembly
a label has to be placed, for the resolution it has to stand before an instruction.

A history of the assembly is a list of steps, and a placement that succeeds splits it into the
steps before and after. Main statement: a label is bound once and for all to the number of
instructions before its placement; a unit can be finished exactly when every label that is named was
handed out and placed; and its labels can be resolved unless one of them was placed behind the last
instruction. Then jumps land on the first instruction after the placement
(`assembly_resolves`).
-/

namespace StackLift

namespace Assembly

/-! ### Histories -/

/-- What is done to a unit under assembly. -/
inductive Step where
  | newLabel
  | placeLabel (l : Label)
  | emit (i : Instruction)
deriving DecidableEq

/-- A placement that fails leaves everything as it is. -/
def step (a : Assembly) : Step → Assembly
  | .newLabel => a.newLabel.2
  | .placeLabel l =>
    match a.placeLabel l with
    | .ok a' => a'
    | .error _ => a
  | .emit i => a.emit i

def run (a : Assembly) (steps : List Step) : Assembly := steps.foldl step a

/-- The assembly after steps from its very beginning. -/
def ofSteps (name : Option String) (steps : List Step) : Assembly := run { name } steps

def Step.instruction? : Step → Option Instruction
  | .emit i => some i
  | _ => none

/-- The instructions that steps emit. -/
def emitted (steps : List Step) : List Instruction := steps.filterMap Step.instruction?

/-- The offset that a label is bound to, as the word that is stored. -/
def bound? (a : Assembly) (l : Label) : Option UInt32 := (a.labels[l.toNat]?).join

/-- An instruction that is emitted names the label. -/
def Uses (steps : List Step) (l : Label) : Prop := ∃ i ∈ emitted steps, i.label? = some l

/-- Among steps is the placement of a label, and it succeeds. -/
structure Places (name : Option String) (l : Label) (before after steps : List Step) : Prop where
  steps : steps = before ++ .placeLabel l :: after
  succeeds : ∃ a, (ofSteps name before).placeLabel l = .ok a

/-- Steps hand out a label. -/
def Allocates (name : Option String) (l : Label) (steps : List Step) : Prop :=
  ∃ before after, steps = before ++ .newLabel :: after ∧ (ofSteps name before).newLabel.1 = l

variable {a a' : Assembly} {name : Option String} {steps before after : List Step} {l : Label}

theorem run_append (a : Assembly) (first rest : List Step) :
    a.run (first ++ rest) = (a.run first).run rest :=
  List.foldl_append

/-- What comes to hold in a run comes to hold by one of its steps. -/
theorem exists_step {P : Assembly → Prop} (not : ¬P a) (holds : P (a.run steps)) :
    ∃ before s after, steps = before ++ s :: after ∧ ¬P (a.run before) ∧
      P ((a.run before).step s) := by
  induction steps generalizing a with
  | nil => exact absurd holds not
  | cons s rest ih =>
      -- The step that is looked for is the first one after which it holds.
      by_cases now : P (a.step s)
      · exact ⟨[], s, rest, rfl, not, now⟩
      · obtain ⟨before, t, after, rfl, notYet, comes⟩ := ih now holds
        exact ⟨s :: before, t, after, rfl, notYet, comes⟩

/-! ### Labels -/

theorem placeLabel_eq_ok : a.placeLabel l = .ok a' ↔ a.labels[l.toNat]? = some none ∧
    a' = { a with labels := a.labels.set l.toNat (some (.ofNat a.offset)) } := by
  rw [placeLabel]
  rcases a.labels[l.toNat]? with _ | _ | w
  · simp
  · simp [eq_comm]
  · simp

/-- A placement fails and changes nothing, or it succeeds. -/
theorem step_placeLabel (a : Assembly) (l : Label) :
    a.step (.placeLabel l) = a ∨ a.placeLabel l = .ok (a.step (.placeLabel l)) := by
  rw [step]
  cases a.placeLabel l with
  | error e => exact .inl rfl
  | ok a' => exact .inr rfl

theorem bound?_placeLabel (places : a.placeLabel l = .ok a') (k : Label) :
    a'.bound? k = if k = l then some (.ofNat a.offset) else a.bound? k := by
  obtain ⟨free, rfl⟩ := placeLabel_eq_ok.mp places
  have lt : l.toNat < a.labels.length := (List.getElem?_eq_some_iff.mp free).1
  by_cases same : k = l
  · simp [bound?, same, lt]
  · have apart : l.toNat ≠ k.toNat := fun e => same (Label.toNat_inj e.symm)
    simp [bound?, same, List.getElem?_set_ne apart]

theorem bound?_newLabel (a : Assembly) (l : Label) : a.newLabel.2.bound? l = a.bound? l := by
  rw [bound?, newLabel, bound?, List.getElem?_append]
  split
  · rfl
  · rename_i beyond
    rw [List.getElem?_eq_none (Nat.le_of_not_lt beyond)]
    cases l.toNat - a.labels.length <;> rfl

/-- A step binds the label, which was unbound, or leaves what it is bound to. -/
theorem bound?_step (a : Assembly) (s : Step) (l : Label) :
    (a.step s).bound? l = a.bound? l ∨
      s = .placeLabel l ∧ (∃ a', a.placeLabel l = .ok a') ∧ a.bound? l = none ∧
        (a.step s).bound? l = some (.ofNat a.offset) := by
  cases s with
  | newLabel => exact .inl (bound?_newLabel a l)
  | emit i => exact .inl rfl
  | placeLabel k =>
      rcases step_placeLabel a k with same | places
      · exact .inl (by rw [same])
      · rw [bound?_placeLabel places]
        by_cases same : l = k
        · subst same
          refine .inr ⟨rfl, ⟨_, places⟩, ?_, if_pos rfl⟩
          rw [bound?, (placeLabel_eq_ok.mp places).1]
          rfl
        · exact .inl (if_neg same)

/-- A binding is kept. -/
theorem bound?_run {w : UInt32} (bound : a.bound? l = some w) (steps : List Step) :
    (a.run steps).bound? l = some w := by
  induction steps generalizing a with
  | nil => exact bound
  | cons s rest ih =>
      refine ih (a := a.step s) ?_
      rcases bound?_step a s l with same | ⟨-, -, free, -⟩
      · exact same.trans bound
      · rw [bound] at free
        cases free

theorem length_labels_step (a : Assembly) (s : Step) :
    (a.step s).labels.length = a.labels.length ∨
      s = .newLabel ∧ (a.step s).labels.length = a.labels.length + 1 := by
  cases s with
  | newLabel => exact .inr ⟨rfl, by simp [step, newLabel]⟩
  | emit i => exact .inl rfl
  | placeLabel l =>
      refine .inl ?_
      rcases step_placeLabel a l with same | places
      · rw [same]
      · rw [(placeLabel_eq_ok.mp places).2]
        exact List.length_set

/-- A label that has a slot was handed out. -/
theorem allocates_of_lt (lt : l.toNat < (ofSteps name steps).labels.length) :
    Allocates name l steps := by
  obtain ⟨before, s, after, split, not, now⟩ :=
    exists_step (P := fun a => l.toNat < a.labels.length) (Nat.not_lt_zero _) lt
  -- Slots are added one at a time, so the label is the number of slots just before its own is made.
  rcases length_labels_step (ofSteps name before) s with same | ⟨rfl, longer⟩
  · exact absurd (same ▸ now) not
  · refine ⟨before, after, split, ?_⟩
    have last : (ofSteps name before).labels.length = l.toNat := by
      have le : (ofSteps name before).labels.length ≤ l.toNat := Nat.le_of_not_lt not
      have lt : l.toNat < (ofSteps name before).labels.length + 1 := longer ▸ now
      omega
    rw [newLabel, last]
    exact congrArg Label.mk UInt32.ofNat_toNat

/-! ### Instructions -/

theorem emitted_append (first rest : List Step) :
    emitted (first ++ rest) = emitted first ++ emitted rest :=
  List.filterMap_append

theorem instructions_run (a : Assembly) (steps : List Step) :
    (a.run steps).instructions = a.instructions ++ emitted steps := by
  induction steps generalizing a with
  | nil => exact (List.append_nil _).symm
  | cons s rest ih =>
      refine (ih (a.step s)).trans ?_
      cases s with
      | newLabel => rfl
      | emit i => simp [step, emit, emitted, Step.instruction?]
      | placeLabel l =>
          rcases step_placeLabel a l with same | places
          · rw [same]
            rfl
          · rw [(placeLabel_eq_ok.mp places).2]
            rfl

theorem instructions_ofSteps (name : Option String) (steps : List Step) :
    (ofSteps name steps).instructions = emitted steps :=
  instructions_run _ steps

theorem finish_eq_ok {unit : CodeUnit} : a.finish = .ok unit ↔
    (∀ i ∈ a.instructions, ∀ l, i.label? = some l → (a.bound? l).isSome) ∧
      unit = ⟨a.name, a.instructions, a.labels⟩ := by
  have used : ∀ l, l ∈ a.instructions.filterMap Instruction.label? ↔
      ∃ i ∈ a.instructions, i.label? = some l := fun l => List.mem_filterMap
  rw [finish]
  cases found : (a.instructions.filterMap Instruction.label?).find? (!a.isPlaced ·) with
  | none =>
      have all : ∀ i ∈ a.instructions, ∀ l, i.label? = some l → (a.bound? l).isSome := by
        intro i mem l names
        have placed := List.find?_eq_none.mp found l ((used l).mpr ⟨i, mem, names⟩)
        rwa [Bool.not_eq_true', Bool.not_eq_false] at placed
      simp only [Except.ok.injEq]
      exact ⟨fun same => ⟨all, same.symm⟩, fun finished => finished.2.symm⟩
  | some l =>
      obtain ⟨i, mem, names⟩ := (used l).mp (List.mem_of_find?_eq_some found)
      have unplaced : a.isPlaced l = false := by simpa using List.find?_some found
      constructor
      · intro same
        cases same
      · rintro ⟨all, -⟩
        have placed : a.isPlaced l = true := all i mem l names
        rw [unplaced] at placed
        cases placed

/-! ### Placements -/

/-- A label is bound to the number of instructions before its placement, whatever comes later. -/
theorem Places.bound?_eq (places : Places name l before after steps) :
    (ofSteps name steps).bound? l = some (.ofNat (emitted before).length) := by
  obtain ⟨a, placed⟩ := places.succeeds
  have now : ((ofSteps name before).step (.placeLabel l)).bound? l =
      some (.ofNat (emitted before).length) := by
    simp only [step, placed]
    rw [bound?_placeLabel placed, if_pos rfl, offset, instructions_ofSteps]
  rw [places.steps, ofSteps, run_append]
  exact bound?_run now after

/-- A label that is bound was placed. -/
theorem exists_places {w : UInt32} (bound : (ofSteps name steps).bound? l = some w) :
    ∃ before after, Places name l before after steps := by
  have unbound : ¬(ofSteps name []).bound? l = some w := by
    intro same
    cases same
  obtain ⟨before, s, after, split, not, binds⟩ :=
    exists_step (P := fun a => a.bound? l = some w) unbound bound
  rcases bound?_step (ofSteps name before) s l with same | ⟨rfl, succeeds, -⟩
  · exact absurd (same.symm.trans binds) not
  · exact ⟨before, after, split, succeeds⟩

theorem isSome_bound?_iff :
    ((ofSteps name steps).bound? l).isSome ↔ ∃ before after, Places name l before after steps := by
  constructor
  · intro bound
    obtain ⟨w, is⟩ := Option.isSome_iff_exists.mp bound
    exact exists_places is
  · rintro ⟨before, after, places⟩
    rw [places.bound?_eq]
    rfl

/-- No placement of a label succeeds after one that did. -/
theorem not_placeLabel_again {between : List Step}
    (succeeds : ∃ a, (ofSteps name before).placeLabel l = .ok a) :
    ¬∃ a, (ofSteps name (before ++ .placeLabel l :: between)).placeLabel l = .ok a := by
  rintro ⟨a, again⟩
  have first : Places name l before between (before ++ .placeLabel l :: between) := ⟨rfl, succeeds⟩
  have bound := first.bound?_eq
  rw [bound?, (placeLabel_eq_ok.mp again).1] at bound
  cases bound

theorem Places.unique {before' after' : List Step} (places : Places name l before after steps)
    (places' : Places name l before' after' steps) : before' = before := by
  -- If one of them came later, the label would have been bound before it.
  have same := places.steps.symm.trans places'.steps
  rcases List.append_eq_append_iff.mp same with ⟨between, longer, rest⟩ | ⟨between, longer, rest⟩
  · cases between with
    | nil => rw [longer, List.append_nil]
    | cons s between =>
        obtain ⟨rfl, -⟩ := List.cons.inj rest
        exact absurd (longer ▸ places'.succeeds) (not_placeLabel_again places.succeeds)
  · cases between with
    | nil => rw [longer, List.append_nil]
    | cons s between =>
        obtain ⟨rfl, -⟩ := List.cons.inj rest
        exact absurd (longer ▸ places.succeeds) (not_placeLabel_again places'.succeeds)

theorem Places.allocates (places : Places name l before after steps) : Allocates name l steps := by
  obtain ⟨a, succeeds⟩ := places.succeeds
  have lt := (List.getElem?_eq_some_iff.mp (placeLabel_eq_ok.mp succeeds).1).1
  obtain ⟨first, rest, split, fresh⟩ := allocates_of_lt lt
  refine ⟨first, rest ++ .placeLabel l :: after, ?_, fresh⟩
  rw [places.steps, split, List.append_assoc, List.cons_append]

theorem Places.emitted_eq (places : Places name l before after steps) :
    emitted steps = emitted before ++ emitted after := by
  rw [places.steps, emitted_append]
  rfl

/-! ### The finished unit -/

section Finished

variable {unit : CodeUnit} (finished : (ofSteps name steps).finish = .ok unit)

include finished

theorem instructions_of_finish : unit.instructions = emitted steps := by
  rw [(finish_eq_ok.mp finished).2]
  exact instructions_ofSteps name steps

theorem exists_places_of_finish (uses : Uses steps l) :
    ∃ before after, Places name l before after steps := by
  obtain ⟨i, mem, names⟩ := uses
  rw [← instructions_ofSteps name steps] at mem
  exact isSome_bound?_iff.mp ((finish_eq_ok.mp finished).1 i mem l names)

/-- A label leads to the number of instructions before its placement, as far as words can count
them. -/
theorem Places.offset?_eq (places : Places name l before after steps)
    (fits : (emitted steps).length < UInt32.size) :
    unit.offset? l = some (emitted before).length := by
  have lt : (emitted before).length < UInt32.size := by
    rw [places.emitted_eq, List.length_append] at fits
    omega
  obtain ⟨-, rfl⟩ := finish_eq_ok.mp finished
  calc ((ofSteps name steps).bound? l).map UInt32.toNat
      = some (UInt32.ofNat (emitted before).length).toNat := by rw [places.bound?_eq]; rfl
    _ = some (emitted before).length := by rw [UInt32.toNat_ofNat_of_lt' lt]

/-- A label is bound to an instruction exactly when one is emitted after its placement. -/
theorem Places.binds_iff (places : Places name l before after steps)
    (fits : (emitted steps).length < UInt32.size) : unit.Binds l ↔ emitted after ≠ [] := by
  have size : unit.size = (emitted before).length + (emitted after).length := by
    rw [CodeUnit.size, instructions_of_finish finished, places.emitted_eq, List.length_append]
  rw [CodeUnit.Binds, places.offset?_eq finished fits, size, ← List.length_pos_iff]
  constructor
  · rintro ⟨offset, same, lt⟩
    cases same
    omega
  · intro some
    exact ⟨_, rfl, by omega⟩

/-- Without tables, all labels can be resolved that are placed before an instruction. -/
theorem resolvable_iff_of_finish (fits : (emitted steps).length < UInt32.size)
    (plain : ∀ i ∈ emitted steps, ∀ call names chr num, i ≠ .switch call names chr num)
    (pool : Pool) : (∀ i ∈ unit.instructions, i.Resolvable unit pool) ↔
      ∀ l before after, Uses steps l → Places name l before after steps → emitted after ≠ [] := by
  rw [instructions_of_finish finished]
  constructor
  · rintro all l before after ⟨i, mem, names⟩ places
    have bound := (Instruction.resolvable_iff_of_plain (plain i mem)).mp (all i mem) l names
    exact (places.binds_iff finished fits).mp bound
  · intro all i mem
    refine (Instruction.resolvable_iff_of_plain (plain i mem)).mpr fun l names => ?_
    obtain ⟨before, after, places⟩ := exists_places_of_finish finished ⟨i, mem, names⟩
    exact (places.binds_iff finished fits).mpr (all l before after ⟨i, mem, names⟩ places)

end Finished

/-- Jumps to the label land on the first instruction that is emitted after its placement. -/
structure Lands (unit : CodeUnit) (labels : LabelMap) (l : Label) (before after : List Step) :
    Prop where
  offset : unit.offset? l = some (emitted before).length
  next : ∃ i, (emitted after).head? = some i ∧
    unit.instructions[(emitted before).length]? = some i
  block : ∃ b, labels.blockAt? (emitted before).length = some b ∧ labels.block l = .ok b

theorem lands_of_resolve {unit : CodeUnit} {pool : Pool} {graphName : String} {labels : LabelMap}
    {draft : Draft} (finished : (ofSteps name steps).finish = .ok unit)
    (fits : (emitted steps).length < UInt32.size)
    (resolves : LabelMap.resolve unit pool (.new graphName) = .ok labels draft)
    (uses : Uses steps l) (places : Places name l before after steps) :
    Lands unit labels l before after := by
  obtain ⟨all, isExact, -⟩ := LabelMap.exact_of_resolve resolves
  obtain ⟨i, mem, names⟩ := uses
  have code := instructions_of_finish finished
  rw [← code] at mem
  have operand : l ∈ i.named pool := List.mem_append_left _ (Option.mem_toList.mpr names)
  have offset := places.offset?_eq finished fits
  have some := (places.binds_iff finished fits).mp ((all i mem).labels l operand)
  obtain ⟨next, rest, after'⟩ := List.exists_cons_of_ne_nil some
  refine ⟨offset, ⟨next, ?_, ?_⟩, ?_⟩
  · rw [after']
    rfl
  · rw [code, places.emitted_eq, after', List.getElem?_append_right (Nat.le_refl _), Nat.sub_self]
    rfl
  · obtain ⟨o, b, is, at_, block⟩ := isExact.block l (List.mem_flatMap.mpr ⟨i, mem, operand⟩)
    rw [offset] at is
    cases is
    exact ⟨b, at_, block⟩

end Assembly

open Assembly

/-- Assembly and resolution agree on labels. Whatever is done in whatever order, a label is placed
at most once, and from then on it is bound to the number of instructions before its placement. A
unit can be finished exactly when the labels that instructions name were handed out and placed. If
no instruction is a switch, and words can count the instructions, resolution fails exactly when one
of these labels was placed behind the last instruction, and otherwise they lead to the first
instruction after their placement. -/
theorem assembly_resolves (name : Option String) (steps : List Step) :
    (∀ l before after, Places name l before after steps →
      (∀ before' after', Places name l before' after' steps → before' = before) ∧
      ∀ more, (ofSteps name (steps ++ more)).bound? l = some (.ofNat (emitted before).length)) ∧
    (∀ l w, (ofSteps name steps).bound? l = some w →
      ∃ before after, Places name l before after steps) ∧
    ((∃ unit, (ofSteps name steps).finish = .ok unit) ↔ ∀ l, Uses steps l →
      Allocates name l steps ∧ ∃ before after, Places name l before after steps) ∧
    ∀ unit pool graphName, (ofSteps name steps).finish = .ok unit →
      (emitted steps).length < UInt32.size →
      (∀ i ∈ emitted steps, ∀ call names chr num, i ≠ .switch call names chr num) →
      ((∃ e draft, LabelMap.resolve unit pool (.new graphName) = .error e draft) ↔
        ∃ l before after, Uses steps l ∧ Places name l before after steps ∧ emitted after = []) ∧
      ∀ labels draft, LabelMap.resolve unit pool (.new graphName) = .ok labels draft →
        ∀ l, Uses steps l → ∃ before after, Places name l before after steps ∧
          Lands unit labels l before after := by
  refine ⟨fun l before after places => ⟨fun _ _ => places.unique, fun more => ?_⟩,
    fun l w => exists_places, ⟨?_, fun all => ?_⟩, fun unit pool graphName finished fits plain => ?_⟩
  · rw [ofSteps, run_append]
    exact bound?_run places.bound?_eq more
  · rintro ⟨unit, finished⟩ l uses
    obtain ⟨before, after, places⟩ := exists_places_of_finish finished uses
    exact ⟨places.allocates, before, after, places⟩
  · refine ⟨_, finish_eq_ok.mpr ⟨fun i mem l names => ?_, rfl⟩⟩
    rw [instructions_ofSteps] at mem
    exact isSome_bound?_iff.mpr (all l ⟨i, mem, names⟩).2
  · have resolvable := resolvable_iff_of_finish finished fits plain pool
    refine ⟨⟨?_, ?_⟩, fun labels draft resolves l uses => ?_⟩
    · rintro ⟨⟨offset, f⟩, draft, fails⟩
      refine Classical.not_not.mp fun none => ?_
      refine (LabelMap.firstUnresolvable_of_resolve fails).not_all (resolvable.mpr ?_)
      exact fun l before after uses places last => none ⟨l, before, after, uses, places, last⟩
    · rintro ⟨l, before, after, uses, places, last⟩
      rcases LabelMap.resolve_cases unit pool graphName with ⟨all, -⟩ | ⟨_, f, draft, -, fails⟩
      · exact absurd last (resolvable.mp all l before after uses places)
      · exact ⟨_, draft, fails⟩
    · obtain ⟨before, after, places⟩ := exists_places_of_finish finished uses
      exact ⟨before, after, places, lands_of_resolve finished fits resolves uses places⟩

/-- A jump forward and one back. The first placement comes too early and the fourth one is a second
one, so both fail. The last label is never used. -/
def thereAndBack : List Step :=
  [.placeLabel ⟨0⟩, .newLabel, .newLabel, .newLabel, .placeLabel ⟨0⟩, .emit (.goto ⟨1⟩)] ++
  .placeLabel ⟨1⟩ :: [.placeLabel ⟨0⟩, .emit (.goto ⟨0⟩), .placeLabel ⟨2⟩]

/-- A jump behind the code. -/
def jumpBehind : List Step := [.newLabel, .emit (.goto ⟨0⟩)] ++ .placeLabel ⟨0⟩ :: []

/-- Both units can be finished, but only the jumps of the first one land somewhere. -/
theorem assembly_resolves_thereAndBack :
    (∃ unit labels draft, (ofSteps none thereAndBack).finish = .ok unit ∧
      LabelMap.resolve unit ⟨[]⟩ (.new "f") = .ok labels draft ∧
      ∃ before after, Places none ⟨1⟩ before after thereAndBack ∧ (emitted before).length = 1 ∧
        Lands unit labels ⟨1⟩ before after) ∧
    ∃ unit e draft, (ofSteps none jumpBehind).finish = .ok unit ∧
      LabelMap.resolve unit ⟨[]⟩ (.new "f") = .error e draft := by
  constructor
  · obtain ⟨bindings, -, -, resolution⟩ := assembly_resolves none thereAndBack
    have finished : (ofSteps none thereAndBack).finish =
        .ok ⟨none, [.goto ⟨1⟩, .goto ⟨0⟩], [some 0, some 1, some 2]⟩ := by rfl
    have plain : ∀ i ∈ emitted thereAndBack, ∀ call names chr num,
        i ≠ .switch call names chr num := by
      have code : emitted thereAndBack = [.goto ⟨1⟩, .goto ⟨0⟩] := rfl
      simp [code]
    obtain ⟨-, lands⟩ := resolution _ ⟨[]⟩ "f" finished (by decide) plain
    obtain ⟨before, after, places, lands⟩ := lands _ _ rfl ⟨1⟩ ⟨.goto ⟨1⟩, by decide, rfl⟩
    have known : Places none ⟨1⟩ _ _ thereAndBack := ⟨rfl, _, rfl⟩
    obtain rfl := (bindings ⟨1⟩ _ _ known).1 before after places
    exact ⟨_, _, _, finished, rfl, _, after, places, rfl, lands⟩
  · obtain ⟨-, -, -, resolution⟩ := assembly_resolves none jumpBehind
    have finished : (ofSteps none jumpBehind).finish = .ok ⟨none, [.goto ⟨0⟩], [some 1]⟩ := by rfl
    have plain : ∀ i ∈ emitted jumpBehind, ∀ call names chr num,
        i ≠ .switch call names chr num := by
      have code : emitted jumpBehind = [.goto ⟨0⟩] := rfl
      simp [code]
    obtain ⟨fails, -⟩ := resolution _ ⟨[]⟩ "f" finished (by decide) plain
    have last : Places none ⟨0⟩ _ _ jumpBehind := ⟨rfl, _, rfl⟩
    obtain ⟨e, draft, failed⟩ :=
      fails.mpr ⟨⟨0⟩, _, _, ⟨.goto ⟨0⟩, by decide, rfl⟩, last, rfl⟩
    exact ⟨_, e, draft, finished, failed⟩

end StackLift
