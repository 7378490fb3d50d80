import StackLift.Proofs.Structured.Layout

/-!
Instructions of structured code are admitted at the depths of their forms. Main statement: every
instruction of a form that stands in a unit is `Checked`, `Form.Stands.checked`, so that a unit
made from one form is `Typed`.
-/

namespace StackLift

/-! ### Single instructions -/

/-- A core instruction with its constants takes the stack from one depth to another. -/
def Instruction.Effect (i : Instruction) (pool : Pool) (n m : Nat) : Prop :=
  i.isCore = true ∧ ∃ p, i.routine? pool = some p ∧ p.depth? n = some m

section

variable {pool : Pool} {site symbol : PoolIndex} (n : Nat)

theorem Leaf.effect {leaf : Leaf} (valid : leaf.valid pool = true) :
    leaf.instruction.Effect pool n (n + 1) := by
  cases leaf with
  | const literal => exact ⟨rfl, _, if_pos valid, rfl⟩
  | var symbol missingOk =>
      obtain ⟨name, found⟩ := Option.isSome_iff_exists.mp valid
      exact ⟨rfl, _, Option.map_eq_some_iff.mpr ⟨name, found, rfl⟩, rfl⟩
  | dots symbol missingOk =>
      obtain ⟨name, found⟩ := Option.isSome_iff_exists.mp valid
      exact ⟨rfl, _, Option.map_eq_some_iff.mpr ⟨name, found, rfl⟩, rfl⟩

theorem effect_setVar (scope : Scope) (valid : (pool.symbol symbol).toOption.isSome = true) :
    (Instruction.setVar scope symbol).Effect pool (n + 1) (n + 1) := by
  obtain ⟨name, found⟩ := Option.isSome_iff_exists.mp valid
  refine ⟨rfl, _, Option.map_eq_some_iff.mpr ⟨name, found, rfl⟩, ?_⟩
  simp [Routine.depth?, StackOp.depthAll?, StackOp.depth?, Primitive.depth?, Primitive.arity,
    Op.operands, Control.depth?]

theorem effect_pop : Instruction.pop.Effect pool (n + 1) n := ⟨rfl, _, rfl, rfl⟩

theorem effect_binary (op : BinaryOp) (valid : (pool.expr site).toOption.isSome = true) :
    (Instruction.binary op site).Effect pool (n + 2) (n + 1) := by
  obtain ⟨call, found⟩ := Option.isSome_iff_exists.mp valid
  exact ⟨rfl, _, Option.map_eq_some_iff.mpr ⟨call, found, rfl⟩, rfl⟩

theorem effect_branchIfNot (l : Label) (valid : (pool.expr site).toOption.isSome = true) :
    (Instruction.branchIfNot site l).Effect pool (n + 1) n := by
  obtain ⟨call, found⟩ := Option.isSome_iff_exists.mp valid
  exact ⟨rfl, _, Option.map_eq_some_iff.mpr ⟨call, found, rfl⟩, rfl⟩

theorem effect_goto (l : Label) : (Instruction.goto l).Effect pool n n := ⟨rfl, _, rfl, rfl⟩

theorem effect_ret : Instruction.ret.Effect pool (n + 1) n := ⟨rfl, _, rfl, rfl⟩

end

namespace CodeUnit

/-- An instruction that opens a call starts the form of the call. -/
def OpensForm (unit : CodeUnit) (pool : Pool) (depth : Nat → Nat) (k : Nat) (i : Instruction) :
    Prop :=
  i.opens? = some .call → ∃ head args builtin site d outer inLoop inCall,
    (Form.call head args builtin site).Stands unit pool depth k d outer inLoop inCall

/-- What a unit needs of the instruction at an offset to be `Typed`, and to close its calls. -/
structure Checked (unit : CodeUnit) (pool : Pool) (depth : Nat → Nat) (k : Nat) (i : Instruction) :
    Prop where
  get : unit.instructions[k]? = some i
  admits : unit.Admits pool depth k i
  inside : unit.StaysInside pool k i
  ends : unit.EndsLoop k i
  labels : ∃ ls, i.targets pool = .ok ls ∧ ∀ l ∈ ls, ∃ j, unit.offset? l = some j ∧
    j < unit.size ∧ ∀ symbol, unit.instructions[j]? ≠ some (.setTag symbol)
  form : unit.OpensForm pool depth k i

abbrev AllChecked (unit : CodeUnit) (pool : Pool) (depth : Nat → Nat) : Nat → Nat → Prop :=
  Throughout fun k => ∃ i, unit.Checked pool depth k i

variable {unit : CodeUnit} {pool : Pool} {depth : Nat → Nat} {k j p q d n : Nat}
  {outer : List Opening} {i : Instruction}

theorem opensForm_of_isCore (core : i.isCore = true) : unit.OpensForm pool depth k i := by
  intro opens
  cases (Instruction.opens?_of_isCore core).symm.trans opens

theorem Checked.all (checked : unit.Checked pool depth k i) :
    unit.AllChecked pool depth k (k + 1) :=
  throughout_one ⟨i, checked⟩

section

variable (line : unit.Line depth k d outer i)

include line

theorem checked_of_admits (admits : unit.Admits pool depth k i)
    (targets : i.targets pool = .ok []) (unlabelled : i.label? = none)
    (form : unit.OpensForm pool depth k i) : unit.Checked pool depth k i where
  get := line.get
  admits := admits
  inside := by
    rw [StaysInside, targets]
    rintro _ ⟨⟩ l mem
    exact absurd mem List.not_mem_nil
  ends := by
    rw [EndsLoop, unlabelled]
    exact fun _ _ _ none => absurd none (by simp)
  labels := ⟨[], targets, fun l mem => absurd mem List.not_mem_nil⟩
  form := form

/-- An instruction that goes on to the next one, or leaves the function. -/
theorem checked_straight (effect : i.Effect pool d n) (unlabelled : i.label? = none)
    (next : i.diverts = false → depth (k + 1) = n) : unit.Checked pool depth k i := by
  obtain ⟨core, p, routine, here⟩ := effect
  rw [← line.depth] at here
  refine checked_of_admits line (.core core routine here ?_ ?_) ?_ unlabelled
    (opensForm_of_isCore core)
  · rintro j ⟨i', get', ⟨falls, rfl⟩ | ⟨l, label, -⟩⟩
    · cases line.get.symm.trans get'
      exact next falls
    · cases line.get.symm.trans get'
      cases unlabelled.symm.trans label
  · intro l j label
    cases unlabelled.symm.trans label
  · rw [Instruction.targets_of_isCore core, unlabelled]
    rfl

/-- A jump ahead that stays in the same brackets, or one that repeats a loop. -/
theorem checked_jump {l : Label} (effect : i.Effect pool d n) (label : i.label? = some l)
    (bound : unit.offset? l = some j) (next : i.diverts = false → depth (k + 1) = n)
    (target : unit.GoesOnAt depth j n)
    (lands : k < j ∧ nesting unit.instructions j = some outer ∨
      j ≤ k ∧ ∃ o, j = o + 1 ∧ ⟨o, .loop .whileOrRepeat⟩ ∈ outer) :
    unit.Checked pool depth k i := by
  obtain ⟨core, p, routine, here⟩ := effect
  rw [← line.depth] at here
  have targets := Instruction.targets_of_isCore core pool
  rw [label] at targets
  have notLoop := Instruction.opensLoop?_of_isCore core
  refine ⟨line.get, .core core routine here ?_ ?_, ?_, ?_, ⟨[l], targets, fun l' mem => ?_⟩,
    opensForm_of_isCore core⟩
  · rintro j' ⟨i', get', ⟨falls, rfl⟩ | ⟨l', label', bound'⟩⟩
    · cases line.get.symm.trans get'
      exact next falls
    · cases line.get.symm.trans get'
      cases label.symm.trans label'
      cases bound.symm.trans bound'
      exact target.depth
  · intro l' j' label' bound' le
    cases label.symm.trans label'
    cases bound.symm.trans bound'
    rcases lands with ⟨lt, -⟩ | ⟨-, o, same, mem⟩
    · exact absurd le (Nat.not_le_of_lt lt)
    · exact ⟨o, outer, same, line.nest, mem⟩
  · rw [StaysInside, targets]
    rintro _ ⟨⟩ l' mem j' bound' lt
    cases List.mem_singleton.mp mem
    cases bound.symm.trans bound'
    rcases lands with ⟨-, there⟩ | ⟨le, -⟩
    · rw [there, line.nest, Option.map_some, Instruction.within, notLoop]
    · exact absurd lt (Nat.not_lt_of_le le)
  · rw [EndsLoop, notLoop]
    exact fun _ none => absurd none (by simp)
  · cases List.mem_singleton.mp mem
    exact ⟨j, bound, target.lt_size, target.ne_setTag⟩

/-- The start of a loop, whose end is the instruction that closes it. -/
theorem checked_opensLoop {l : Label} {kind : LoopKind} (admits : unit.Admits pool depth k i)
    (opens : i.opensLoop? = some kind) (label : i.label? = some l)
    (bound : unit.offset? l = some j) (lt : k < j)
    (close : unit.Line depth j n (⟨k, .loop kind⟩ :: outer) (.endLoop kind)) :
    unit.Checked pool depth k i := by
  have targets := targets_of_opensLoop opens pool
  rw [label] at targets
  refine ⟨line.get, admits, ?_, ?_, ⟨[l], targets, fun l' mem => ?_⟩, fun isCall => ?_⟩
  · rw [StaysInside, targets]
    rintro _ ⟨⟩ l' mem j' bound' _
    cases List.mem_singleton.mp mem
    cases bound.symm.trans bound'
    rw [line.nest, close.nest, Option.map_some, Instruction.within, opens]
  · intro kind' opens' l' label' j' bound'
    cases opens.symm.trans opens'
    cases label.symm.trans label'
    cases bound.symm.trans bound'
    rw [close.get]
    exact ⟨lt, rfl⟩
  · cases List.mem_singleton.mp mem
    have goes := close.goesOnAt fun _ same => by cases same
    exact ⟨j, bound, goes.lt_size, goes.ne_setTag⟩
  · rw [Instruction.opensLoop?, isCall] at opens
    cases opens

end

theorem LoopTail.checked {o : Nat} {kind : LoopKind} {again : Instruction}
    (tail : unit.LoopTail depth q d o kind outer again) (ends : unit.EndsAt o (q + 2) kind)
    (repeats : unit.Checked pool depth (q + 1) again) : unit.AllChecked pool depth q (q + 4) := by
  have dropped : unit.Checked pool depth q .pop :=
    checked_straight tail.pop (effect_pop d) rfl fun _ => tail.again.depth
  have closed : unit.Checked pool depth (q + 2) (.endLoop kind) := by
    refine checked_of_admits tail.close (.endLoop ⟨⟨_, tail.close.nest, rfl⟩, ends⟩ ?_) rfl rfl
      nofun
    exact tail.load.depth.trans tail.close.depth.symm
  have gives : unit.Checked pool depth (q + 3) (.load .null) :=
    checked_straight tail.load ⟨rfl, _, rfl, rfl⟩ rfl fun _ => tail.exit.depth
  exact dropped.all.trans (repeats.all.trans (closed.all.trans gives.all))

theorem checked_startLoop {l : Label} (start : unit.Line depth p d outer (.startLoop l))
    (bound : unit.offset? l = some j) (lt : p < j) (entry : unit.GoesOnAt depth (p + 1) d)
    (close : unit.Line depth j d (⟨p, .loop .whileOrRepeat⟩ :: outer) (.endLoop .whileOrRepeat)) :
    unit.Checked pool depth p (.startLoop l) := by
  have admits : unit.Admits pool depth p (.startLoop l) :=
    .startLoop bound (entry.depth.trans start.depth.symm) (close.depth.trans start.depth.symm)
  exact checked_opensLoop start admits rfl rfl bound lt close

theorem LoopTail.checked_goto {l : Label}
    (tail : unit.LoopTail depth q d p .whileOrRepeat outer (.goto l))
    (bound : unit.offset? l = some (p + 1)) (le : p ≤ q) (entry : unit.GoesOnAt depth (p + 1) d)
    (ends : unit.EndsAt p (q + 2) .whileOrRepeat) : unit.AllChecked pool depth q (q + 4) := by
  refine tail.checked ends (checked_jump tail.again (effect_goto d l) rfl bound nofun entry ?_)
  exact Or.inr ⟨Nat.succ_le_succ le, p, rfl, List.mem_cons_self⟩

end CodeUnit

/-! ### Forms -/

open CodeUnit

/-- Every instruction of a form is admitted. -/
theorem Form.Stands.checked {kind : FormKind} {f : Form kind} {unit : CodeUnit} {pool : Pool}
    {depth : Nat → Nat} {p d : Nat} {outer : List Opening} {inLoop inCall : Bool}
    (stands : f.Stands unit pool depth p d outer inLoop inCall) :
    unit.AllChecked pool depth p (p + f.size) := by
  induction f generalizing p d outer inLoop inCall with
  | push leaf =>
      obtain ⟨line, valid, exit⟩ := stands.push
      exact (checked_straight line (Leaf.effect d valid) (by cases leaf <;> rfl)
        fun _ => exit.depth).all
  | setVar value scope symbol ih =>
      obtain ⟨stands, line, valid, exit⟩ := stands.setVar
      exact (ih stands).trans
        (checked_straight line (effect_setVar d scope valid) rfl fun _ => exit.depth).all
  | seq first second ih ih' =>
      obtain ⟨stands, line, stands'⟩ := stands.seq
      have dropped : unit.Checked pool depth (p + first.size) .pop :=
        checked_straight line (effect_pop d) rfl fun _ => stands'.entry.depth
      simpa only [size, Nat.add_assoc] using (ih stands).trans (dropped.all.trans (ih' stands'))
  | binary left right op site ih ih' =>
      obtain ⟨stands, stands', line, valid, exit⟩ := stands.binary
      have computed := checked_straight line (effect_binary d op valid) rfl fun _ => exit.depth
      simpa only [size, Nat.add_assoc] using (ih stands).trans ((ih' stands').trans computed.all)
  | ifElse test yes no site other after ih ih₁ ih₂ =>
      obtain ⟨stands, branch, valid, stands₁, goto, atOther, stands₂, atAfter⟩ := stands.ifElse
      have branched := checked_jump branch (effect_branchIfNot d other valid) rfl atOther
        (fun _ => stands₁.entry.depth) stands₂.entry (Or.inl ⟨by omega, stands₂.nest⟩)
      have joined : unit.Checked pool depth (p + test.size + 1 + yes.size) (.goto after) :=
        checked_jump goto (effect_goto (d + 1) after) rfl atAfter nofun stands₂.exit
          (Or.inl ⟨by omega, stands₂.nest_exit⟩)
      simpa only [size, Nat.add_assoc] using
        (ih stands).trans (branched.all.trans ((ih₁ stands₁).trans (joined.all.trans (ih₂ stands₂))))
  | call head args builtin site ih =>
      have form : unit.OpensForm pool depth p head.instruction := fun _ =>
        ⟨_, _, _, _, _, _, _, _, stands⟩
      obtain ⟨line, name, stands, finish, valid, exit⟩ := stands.call
      have next := stands.entry.depth.trans line.depth.symm
      have opened : unit.Checked pool depth p head.instruction := by
        cases head with
        | function lookup symbol => exact checked_of_admits line (.getFun name next) rfl rfl form
        | builtin internal symbol =>
            exact checked_of_admits line (.getBuiltin name next) rfl rfl form
      have finished : unit.Checked pool depth (p + 1 + args.size) (.finishCall builtin site) := by
        refine checked_of_admits finish (.finishCall valid ⟨p, outer, finish.nest⟩ ?_) rfl rfl
          nofun
        rw [exit.depth, finish.depth]
      simpa only [size, Nat.add_assoc] using opened.all.trans ((ih stands).trans finished.all)
  | whileLoop test body site head after ih ih' =>
      obtain ⟨start, atHead, stands₁, branch, valid, stands₂, atAfter, tail⟩ := stands.whileLoop
      have started : unit.Checked pool depth p (.startLoop after) :=
        checked_startLoop start atAfter (by omega) stands₁.entry tail.close
      have branched := checked_jump branch (effect_branchIfNot d after valid) rfl atAfter
        (fun _ => stands₂.entry.depth) (tail.close.goesOnAt nofun)
        (Or.inl ⟨by omega, tail.close.nest⟩)
      have ended : unit.AllChecked pool depth _ _ := tail.checked_goto atHead (by omega)
        stands₁.entry ⟨_, _, start.get, rfl, rfl, atAfter⟩
      simpa only [size, Nat.add_assoc] using
        started.all.trans ((ih stands₁).trans (branched.all.trans ((ih' stands₂).trans ended)))
  | forLoop range body site symbol after ih ih' =>
      obtain ⟨stands₁, start, valid, name, stands₂, atAfter, tail⟩ := stands.forLoop
      have ends : unit.EndsAt _ _ .forEach := ⟨_, _, start.get, rfl, rfl, atAfter⟩
      have started : unit.Checked pool depth (p + range.size) (.startFor site symbol after) := by
        refine checked_opensLoop start (.startFor valid name atAfter ?_ ?_) rfl rfl atAfter (by omega)
          tail.close
        · rw [start.depth, stands₂.entry.depth]
        · exact tail.close.depth.trans stands₂.entry.depth.symm
      have repeats : unit.Checked pool depth _ .stepFor :=
        checked_of_admits tail.again (.stepFor ⟨⟨_, tail.again.nest, rfl⟩, ends⟩
          (tail.again.depth.trans tail.close.depth.symm)) rfl rfl nofun
      simpa only [size, Nat.add_assoc] using (ih stands₁).trans
        (started.all.trans ((ih' stands₂).trans (tail.checked ends repeats)))
  | repeatLoop body head after ih =>
      obtain ⟨-, start, atHead, stands, atAfter, tail⟩ := stands.repeatLoop
      have started : unit.Checked pool depth p (.startLoop after) :=
        checked_startLoop start atAfter (by omega) stands.entry tail.close
      have ended : unit.AllChecked pool depth _ _ := tail.checked_goto atHead (by omega)
        stands.entry ⟨_, _, start.get, rfl, rfl, atAfter⟩
      simpa only [size, Nat.add_assoc] using started.all.trans ((ih stands).trans ended)
  | ret value ih =>
      obtain ⟨-, stands, line⟩ := stands.ret
      exact (ih stands).trans (checked_straight line (effect_ret d) rfl nofun).all
  | leave exit =>
      obtain ⟨line, o, e, kind, found, ends, deep⟩ := stands.leave
      refine (checked_of_admits line (.leaveLoop ⟨⟨_, line.nest, found⟩, ends⟩ ?_) rfl rfl
        nofun).all
      exact line.depth.trans deep.symm
  | noArgs => exact throughout_self _ _
  | arg value tag rest ih ih' =>
      obtain ⟨o, around, rfl⟩ := stands.args rfl
      obtain ⟨stands, push, tagged, stands'⟩ := stands.arg
      have taken : depth (p + value.size + 1) = d := by
        cases tag with
        | none => exact stands'.entry.depth
        | some symbol => exact (tagged symbol rfl).1.depth
      have pushed : unit.Checked pool depth (p + value.size) .pushArg := by
        refine checked_of_admits push (.pushArg ⟨o, around, push.nest⟩ ?_) rfl rfl nofun
        rw [push.depth, taken]
      have named : unit.AllChecked pool depth (p + value.size + 1)
          (p + value.size + 1 + tag.toList.length) := by
        cases tag with
        | none => exact throughout_self _ _
        | some symbol =>
            obtain ⟨line, name⟩ := tagged symbol rfl
            have next := stands'.entry.depth.trans line.depth.symm
            exact (checked_of_admits line
              (.setTag name ⟨o, around, line.nest⟩ next rfl push.get) rfl rfl nofun).all
      simpa only [size, Nat.add_assoc] using
        (ih stands).trans (pushed.all.trans (named.trans (ih' stands')))

end StackLift
