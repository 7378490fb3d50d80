import StackLift.Proofs.Acceptance
import StackLift.Proofs.Structured.Advance

/-!
Depths of the stack at every offset of code with calls and loops. `Admits` says of one
instruction that it can be lowered at the depth of its offset, and that the offsets it
leads to have the depth that it leaves. Main statements: an instruction that is admitted
`Passes`, one lemma for each kind of instruction that ends a block or starts a loop.
-/

namespace StackLift

open Lowering

theorem Instruction.opens?_of_isCore {i : Instruction} (core : i.isCore = true) :
    i.opens? = none := by
  cases i <;> first | rfl | cases core

theorem Instruction.opensLoop?_of_isCore {i : Instruction} (core : i.isCore = true) :
    i.opensLoop? = none := by
  rw [opensLoop?, opens?_of_isCore core]

def Opening.isLoop (o : Opening) : Bool := o.opener.loops == 1

namespace CodeUnit

/-- A loop is opened at `o`, and its end label leads to `e`. -/
def EndsAt (unit : CodeUnit) (o e : Nat) (kind : LoopKind) : Prop :=
  ∃ i l, unit.instructions[o]? = some i ∧ i.opensLoop? = some kind ∧ i.label? = some l ∧
    unit.offset? l = some e

/-- The innermost loop around an offset. -/
structure InLoop (unit : CodeUnit) (k o e : Nat) (kind : LoopKind) : Prop where
  innermost : ∃ here, nesting unit.instructions k = some here ∧
    here.find? Opening.isLoop = some ⟨o, .loop kind⟩
  ends : unit.EndsAt o e kind

/-- The innermost bracket around an offset is a call. -/
def InCall (unit : CodeUnit) (k : Nat) : Prop :=
  ∃ o outer, nesting unit.instructions k = some (⟨o, .call⟩ :: outer)

/-- The instruction at an offset can be lowered, if the depths are those of the stack. -/
inductive Admits (unit : CodeUnit) (pool : Pool) (depth : Nat → Nat) (k : Nat) : Instruction → Prop
  /-- Only a loop is repeated. -/
  | core {i : Instruction} {p : Routine} {n : Nat} (core : i.isCore = true)
      (routine : i.routine? pool = some p) (here : p.depth? (depth k) = some n)
      (edges : ∀ j, unit.Edge k j → depth j = n)
      (back : ∀ l j, i.label? = some l → unit.offset? l = some j → j ≤ k →
        ∃ o here, j = o + 1 ∧ nesting unit.instructions k = some here ∧
          ⟨o, .loop .whileOrRepeat⟩ ∈ here) : Admits unit pool depth k i
  | getFun {lookup : FunLookup} {symbol : PoolIndex}
      (name : (pool.symbol symbol).toOption.isSome) (next : depth (k + 1) = depth k) :
      Admits unit pool depth k (.getFun lookup symbol)
  | getBuiltin {internal : Bool} {symbol : PoolIndex}
      (name : (pool.symbol symbol).toOption.isSome) (next : depth (k + 1) = depth k) :
      Admits unit pool depth k (.getBuiltin internal symbol)
  | pushArg (inCall : unit.InCall k) (next : depth k = depth (k + 1) + 1) :
      Admits unit pool depth k .pushArg
  | setTag {symbol : PoolIndex} {m : Nat} (name : (pool.symbol symbol).toOption.isSome)
      (inCall : unit.InCall k) (next : depth (k + 1) = depth k) (after : k = m + 1)
      (arg : unit.instructions[m]? = some .pushArg) : Admits unit pool depth k (.setTag symbol)
  | finishCall {builtin : Bool} {call : PoolIndex} (site : (pool.expr call).toOption.isSome)
      (inCall : unit.InCall k) (next : depth (k + 1) = depth k + 1) :
      Admits unit pool depth k (.finishCall builtin call)
  | startLoop {l : Label} {e : Nat} (bound : unit.offset? l = some e)
      (next : depth (k + 1) = depth k) (atEnd : depth e = depth k) :
      Admits unit pool depth k (.startLoop l)
  | startFor {call symbol : PoolIndex} {l : Label} {e : Nat}
      (site : (pool.expr call).toOption.isSome) (name : (pool.symbol symbol).toOption.isSome)
      (bound : unit.offset? l = some e) (next : depth k = depth (k + 1) + 1)
      (atEnd : depth e = depth (k + 1)) : Admits unit pool depth k (.startFor call symbol l)
  | stepFor {o e : Nat} (loop : unit.InLoop k o e .forEach) (here : depth k = depth e) :
      Admits unit pool depth k .stepFor
  | endLoop {kind : LoopKind} {o : Nat} (loop : unit.InLoop k o k kind)
      (next : depth (k + 1) = depth k) : Admits unit pool depth k (.endLoop kind)
  | leaveLoop {exit : LoopExit} {kind : LoopKind} {o e : Nat} (loop : unit.InLoop k o e kind)
      (here : depth k = depth e) : Admits unit pool depth k (.leaveLoop exit)

/-- A unit whose instructions are all admitted. Its labels are bound, and none stands
between an argument and its name. -/
structure Typed (unit : CodeUnit) (pool : Pool) (depth : Nat → Nat) : Prop where
  nested : unit.Nested pool
  start : depth 0 = 0
  labels : ∀ i ∈ unit.instructions, ∃ ls, i.targets pool = .ok ls ∧
    ∀ l ∈ ls, ∃ j, unit.offset? l = some j ∧ j < unit.size ∧
      ∀ symbol, unit.instructions[j]? ≠ some (.setTag symbol)
  admits : ∀ k i, unit.instructions[k]? = some i → unit.Admits pool depth k i

end CodeUnit

/-! ### What an instruction leaves -/

namespace Lowering

variable {unit : CodeUnit} {pool : Pool} {kind : UnitKind} {labels : LabelMap} {draft : Draft}
  {depth : Nat → Nat} {k : Nat} {a t : State}

/-- The draft goes on, to blocks that had a shape or whose labels are ahead. -/
theorem LevelAt.next {ctx : Context} {code : List Instruction} {start : State}
    {carry : Carry} {base : Draft} {aside : BlockId → Prop} {phase : Phase}
    {hand : List (ValueId × ValueType)} {n : Nat} {T : BlockId → Prop}
    (level : LevelAt ctx code start depth k a) (inv : Inv ctx carry base aside phase hand a)
    (advances : a.draft.Advances n T t.draft)
    (targets : ∀ j b, ctx.labels.blockAt? j = some b → T b → a.draft.shape? b = none →
      depth j = n ∧ k + 1 ≤ j)
    (loops : ∀ l ∈ t.loops, l ∈ a.loops ∨ ∃ o e, Opened ctx code start depth t.draft l o e)
    (here : t.live = true → t.stack.items.length = depth (k + 1))
    (fresh : ctx.labels.blockAt? (k + 1) = some t.draft.cursor → t.draft.stmtIndex = 0) :
    LevelBefore ctx code start depth (k + 1) t where
  shaped := by
    intro j b phis named shape
    cases old : a.draft.shape? b with
    | some phis' =>
        cases shape.symm.trans (advances.grows.shape old)
        exact level.shaped named old
    | none =>
        rcases advances.shape (inv.plain_label ⟨j, named⟩).live shape with shape' | ⟨target, length⟩
        · cases old.symm.trans shape'
        · obtain ⟨deep, later⟩ := targets j b named target old
          exact ⟨length.trans deep.symm, Or.inl later⟩
  loops := by
    intro l mem
    rcases loops l mem with old | new
    · obtain ⟨o, e, opened⟩ := level.loops l old
      exact ⟨o, e, opened.mono advances.grows⟩
    · exact new
  tidy := advances.tidy level.tidy
  here := here
  fresh := fresh

theorem Executes.advances {ctx : Context} {aside : BlockId → Prop} {p : Routine}
    {items : List ValueId} {draft' : Draft} {n : Nat}
    (executes : Executes ctx aside a p items draft' t) (sound : a.draft.Sound)
    (depth : p.depth? a.stack.items.length = some n) :
    a.draft.Advances n (fun b => ∃ l, p.control.label? = some l ∧ ctx.labels.block l = .ok b)
      t.draft where
  grows := executes.grows sound
  shape {b phis} live shape := by
    have extends_ := Draft.extends_runAll executes.ops
    rw [← extends_.blocks] at live
    rcases executes.leaves.shape?_eq live with same | ⟨l, label, target⟩
    · exact Or.inl ((extends_.shape b).symm.trans (same.symm.trans shape))
    · obtain ⟨-, phis', -, shape', depth'⟩ := executes.leaves.edge label target
      cases shape.symm.trans shape'
      exact Or.inr ⟨⟨l, label, target⟩, Option.some.inj (depth'.symm.trans
        (executes.depth.symm.trans depth))⟩
  tidy tidy := executes.leaves.tidy executes.inv.phase
    (tidy.extend (executes.inv.acts.grows sound) (Draft.extends_runAll executes.ops))

end Lowering

/-! ### Loops that are open -/

theorem exists_frame_of_find? {fs : List Frame} {o : Nat} {kind : LoopKind}
    (found : (openings fs).find? Opening.isLoop = some ⟨o, .loop kind⟩) :
    ∃ inner l outer, fs = inner ++ ⟨o, .loop l⟩ :: outer ∧ NoLoops inner ∧ l.kind = kind := by
  induction fs with
  | nil => cases found
  | cons f fs ih =>
      obtain ⟨o', pending⟩ := f
      have below : pending.loops = [] → (openings fs).find? Opening.isLoop = some ⟨o, .loop kind⟩ →
          ∃ inner l outer, (⟨o', pending⟩ : Frame) :: fs = inner ++ ⟨o, .loop l⟩ :: outer ∧
            NoLoops inner ∧ l.kind = kind := by
        intro none found
        obtain ⟨inner, l, outer, rfl, noLoops, isKind⟩ := ih found
        exact ⟨⟨o', pending⟩ :: inner, l, outer, rfl, List.forall_mem_cons.mpr ⟨none, noLoops⟩,
          isKind⟩
      cases pending with
      | call c => exact below rfl found
      | assign scope => exact below rfl found
      | dispatch p calls => exact below rfl found
      | loop l =>
          cases found
          exact ⟨[], l, fs, rfl, noLoops_nil, rfl⟩

section

variable {unit : CodeUnit} {pool : Pool} {k o e : Nat} {kind : LoopKind} (nested : unit.Nested pool)

include nested

/-- A loop is the innermost bracket at its end, which closes it. -/
theorem CodeUnit.EndsAt.nesting_end (ends : unit.EndsAt o e kind) :
    o < e ∧ ∃ i outer, unit.instructions[e]? = some i ∧ i.closes? = some (.loop kind) ∧
      nesting unit.instructions e = some (⟨o, .loop kind⟩ :: outer) := by
  obtain ⟨i, l, get, opens, label, bound⟩ := ends
  have lt := (List.getElem?_eq_some_iff.mp get).1
  obtain ⟨before, closes⟩ := nested.loops o lt i get kind opens l label e bound
  obtain ⟨i', get', closes⟩ := Option.bind_eq_some_iff.mp closes
  obtain ⟨outer, at_o⟩ := StackLift.exists_nesting nested.balanced o
  refine ⟨before, i', outer, get', closes, ?_⟩
  have targets : i.label?.toList ∈ (i.targets pool).toOption := by
    rw [targets_of_opensLoop opens]
    rfl
  rw [nested.jumps o lt i get _ targets l (Option.mem_toList.mpr label) e bound before, at_o,
    Option.map_some, Instruction.within, opens]

/-- A loop ends after the instructions in it. -/
theorem CodeUnit.InLoop.lt {i : Instruction} (loop : unit.InLoop k o e kind)
    (get : unit.instructions[k]? = some i) (inside : i.closes? = none) : k < e := by
  obtain ⟨here, at_k, found⟩ := loop.innermost
  obtain ⟨-, i', outer, get', closes, at_e⟩ := loop.ends.nesting_end nested
  refine Nat.lt_of_le_of_ne (Nat.not_lt.mp fun lt => ?_) fun same => ?_
  · have bound := Nat.le_of_lt (List.getElem?_eq_some_iff.mp get).1
    exact notMem_of_closed get' at_e closes bound at_k lt (List.mem_of_find?_eq_some found)
  · subst same
    cases get.symm.trans get'
    cases inside.symm.trans closes

end

section

variable {unit : CodeUnit} {pool : Pool} {kind : UnitKind} {labels : LabelMap} {draft : Draft}
  {depth : Nat → Nat} {k o e : Nat} {i : Instruction} {a : State} {l : LoopContext}
  (start : unit.Start pool kind labels draft)

include start

theorem Lowering.Opened.endsAt {d : Draft}
    (opened : Opened ⟨pool, labels, kind⟩ unit.instructions { draft } depth d l o e) :
    unit.EndsAt o e l.kind := by
  obtain ⟨i, a, visits, opens, aims, -⟩ := opened.visits
  obtain ⟨ls, targets, label, mem, e', bound, named⟩ := aims.exists_offset start.resolves
  obtain rfl := start.resolves.distinct named opened.ends
  rw [targets_of_opensLoop opens] at targets
  cases targets
  exact ⟨i, label, visits.get, opens, Option.mem_toList.mp mem, bound⟩

variable (nested : unit.Nested pool)

include nested

theorem Nests.exists_opened {inner outer : List Frame} {m : Nat}
    (nests : Nests unit ⟨pool, labels, kind⟩ { draft } k m a (inner ++ ⟨o, .loop l⟩ :: outer))
    (loops : ∀ l ∈ a.loops, ∃ o e,
      Opened ⟨pool, labels, kind⟩ unit.instructions { draft } depth a.draft l o e) :
    ∃ e, Opened ⟨pool, labels, kind⟩ unit.instructions { draft } depth a.draft l o e := by
  have mem : l ∈ a.loops := by
    rw [nests.holds.loops]
    simp [Pending.loops]
  obtain ⟨o', e, opened⟩ := loops l mem
  obtain ⟨-, -, outer', -, -, at_e⟩ := (opened.endsAt start).nesting_end nested
  have nested' : unit.Nested (⟨pool, labels, kind⟩ : Context).pool := nested
  obtain ⟨e', -, named, at_e', -, -⟩ :=
    nested'.exists_end start.resolves nests.stacked.of_append
  obtain rfl := start.resolves.distinct named opened.ends
  cases at_e.symm.trans at_e'
  exact ⟨_, opened⟩

variable (visits : Visits ⟨pool, labels, kind⟩ unit.instructions { draft } k i a)
  (level : LevelAt ⟨pool, labels, kind⟩ unit.instructions { draft } depth k a)

include visits level

theorem CodeUnit.InLoop.exists_opened {loopKind : LoopKind} (loop : unit.InLoop k o e loopKind) :
    ∃ l rest, a.loops = l :: rest ∧ l.kind = loopKind ∧
      Opened ⟨pool, labels, kind⟩ unit.instructions { draft } depth a.draft l o e := by
  obtain ⟨fs, nests⟩ := nests_visits start nested visits
  obtain ⟨here, at_k, found⟩ := loop.innermost
  cases at_k.symm.trans (nests.live visits.live)
  obtain ⟨inner, l, outer, rfl, noLoops, isKind⟩ := exists_frame_of_find? found
  obtain ⟨e', opened⟩ := nests.exists_opened start nested level.loops
  -- both ends are where the label of the instruction leads
  obtain rfl : e' = e := by
    obtain ⟨i, label, get, -, isLabel, bound⟩ := opened.endsAt start
    obtain ⟨i', label', get', -, isLabel', bound'⟩ := loop.ends
    cases get.symm.trans get'
    cases isLabel.symm.trans isLabel'
    exact Option.some.inj (bound.symm.trans bound')
  refine ⟨l, outer.flatMap (·.pending.loops), ?_, isKind, opened⟩
  rw [nests.holds.loops, List.flatMap_append, noLoops.flatMap]
  rfl

/-- A loop that is repeated goes on in the block of its first instruction. -/
theorem exists_shape_of_repeats {here : List Opening} {b : BlockId}
    (at_k : nesting unit.instructions k = some here) (mem : ⟨o, .loop .whileOrRepeat⟩ ∈ here)
    (named : labels.blockAt? (o + 1) = some b) : ∃ phis, a.draft.shape? b = some phis := by
  obtain ⟨fs, nests⟩ := nests_visits start nested visits
  cases at_k.symm.trans (nests.live visits.live)
  obtain ⟨⟨o', pending⟩, mem, same⟩ := List.mem_map.mp mem
  obtain ⟨inner, outer, rfl⟩ := List.append_of_mem mem
  cases pending with
  | call c => cases same
  | assign scope => cases same
  | dispatch p calls => cases same
  | loop l =>
      obtain ⟨rfl, isKind⟩ := Opening.mk.inj same
      obtain ⟨e, opened⟩ := nests.exists_opened start nested level.loops
      obtain ⟨phis, shape, -⟩ := opened.shape
      rw [← opened.head (Opener.loop.inj isKind) b named]
      exact ⟨phis, shape⟩

end

/-! ### One instruction -/

namespace Lowering

/-- The instruction is lowered in a state, and the depths are right after it. -/
def Passes (ctx : Context) (code : List Instruction) (start : State) (depth : Nat → Nat) (k : Nat)
    (i : Instruction) (a : State) : Prop :=
  ∃ t, lower ctx k i a = .ok () t ∧
    LevelBefore ctx code start depth (k + 1) (if i.diverts then { t with live := false } else t)

section

variable {ctx : Context} {code : List Instruction} {start : State} {depth : Nat → Nat} {k n : Nat}
  {i : Instruction} {a t : State} (level : LevelAt ctx code start depth k a)
  (inv : Inv ctx .nothing a.draft (ctx.Ahead (k + 1)) .running [] a)

include level inv

theorem LevelAt.stays (stays : Stays n a t) (next : n = depth (k + 1)) :
    LevelBefore ctx code start depth (k + 1) t := by
  refine level.next inv stays.advances (fun _ _ _ none => none.elim) (fun l mem => Or.inl ?_)
    (fun _ => stays.length.trans next) fun named => ?_
  · rwa [stays.loops] at mem
  · rw [stays.cursor] at named
    exact absurd rfl (inv.aside ⟨_, Nat.le_refl _, named⟩).2

theorem LevelAt.passes_of_stays (straight : i.diverts = false)
    (does : Yields (Lowering.lower ctx k i) a fun _ => Stays n a) (next : n = depth (k + 1)) :
    Passes ctx code start depth k i a := by
  obtain ⟨_, t, lowered, stays⟩ := does
  refine ⟨t, lowered, ?_⟩
  rw [if_neg (by simp [straight])]
  exact level.stays inv stays next

/-- An edge to one block, with the stack as it is. -/
theorem LevelAt.passes_of_left {carry : Carry} {aside : BlockId → Prop} {b : BlockId}
    (diverts : i.diverts = true) (lowered : Lowering.lower ctx k i a = .ok () t)
    (left : Left ctx carry a.draft aside [] (.goto b) a t)
    (target : ∀ j, ctx.labels.blockAt? j = some b → a.draft.shape? b = none →
      depth j = a.stack.items.length ∧ k + 1 ≤ j) : Passes ctx code start depth k i a := by
  refine ⟨t, lowered, ?_⟩
  rw [if_pos diverts]
  refine level.next inv left.advances (fun j c named mem => ?_) (fun l mem => Or.inl ?_) nofun
    fun named => ?_
  · cases List.mem_singleton.mp mem
    exact target j named
  · have mem : l ∈ t.loops := mem
    rw [left.frame] at mem
    exact mem
  · have named : ctx.labels.blockAt? (k + 1) = some t.draft.cursor := named
    rw [left.ended.cursor] at named
    exact absurd rfl (inv.aside ⟨_, Nat.le_refl _, named⟩).2

/-- A loop is opened. -/
theorem LevelAt.passes_of_enters {l : LoopContext} {e : Nat} (visits : Visits ctx code start k i a)
    (opens : i.opensLoop? = some l.kind) (aims : i.Aims ctx l.loopEnd)
    (lowered : Lowering.lower ctx k i a = .ok () t) (enters : Enters ctx k n l a t)
    (distinct : ctx.labels.Distinct) (ends : ctx.labels.blockAt? e = some l.loopEnd) (lt : k < e)
    (next : n = depth (k + 1)) (atEnd : n = depth e) : Passes ctx code start depth k i a := by
  refine ⟨t, lowered, ?_⟩
  have straight : i.diverts = false := by
    cases i <;> first | rfl | cases opens
  rw [if_neg (by simp [straight])]
  refine level.next inv enters.advances (fun j b named target _ => ?_) (fun l' mem => ?_)
    (fun _ => enters.length.trans next) enters.fresh
  · rcases target with rfl | ⟨-, rfl⟩
    · obtain rfl := enters.next j named
      exact ⟨next.symm, Nat.le_refl _⟩
    · obtain rfl := distinct named ends
      exact ⟨atEnd.symm, lt⟩
  · rw [enters.loops] at mem
    rcases List.mem_cons.mp mem with rfl | old
    · obtain ⟨phis, shape, length⟩ := enters.shape
      exact Or.inr ⟨k, e, ⟨i, a, visits, opens, aims, enters.goes⟩, ends,
        ⟨phis, shape, length.trans atEnd⟩, fun isKind => (enters.head isKind).2⟩
    · exact Or.inl old

end

end Lowering

namespace CodeUnit

variable {unit : CodeUnit} {pool : Pool} {kind : UnitKind} {labels : LabelMap} {draft : Draft}
  {depth : Nat → Nat} {k : Nat} {i : Instruction} {a : State}
  (start : unit.Start pool kind labels draft)

include start

theorem Start.block_of_label {l : Label} {j : Nat} (mem : i ∈ unit.instructions)
    (simple : i.targets pool = .ok i.label?.toList) (label : i.label? = some l)
    (bound : unit.offset? l = some j) :
    ∃ b, labels.blockAt? j = some b ∧ labels.block l = .ok b ∧ i.Aims ⟨pool, labels, kind⟩ b := by
  obtain ⟨ls, targets, known⟩ := start.targets i mem
  rw [simple, label] at targets
  cases targets
  obtain ⟨j', b, bound', -, named, target⟩ := start.resolves.block (known l List.mem_cons_self)
  cases bound.symm.trans bound'
  refine ⟨b, named, target, i.label?.toList, simple, l, ?_, target⟩
  rw [label]
  exact List.mem_cons_self

variable (visits : Visits ⟨pool, labels, kind⟩ unit.instructions { draft } k i a)

include visits

theorem Start.inv_of_visits : Inv ⟨pool, labels, kind⟩ .nothing a.draft
    (Context.Ahead ⟨pool, labels, kind⟩ (k + 1)) .running [] a := by
  obtain ⟨s, before, arrives⟩ := visits.arrives
  have between := between_before start.resolves.distinct start.between
    (Nat.le_of_lt (List.getElem?_eq_some_iff.mp visits.get).1) before
  exact ((between.arrive start.resolves.distinct arrives).inv visits.live).rebase

variable (nested : unit.Nested pool)

include nested

theorem InCall.exists_call (inCall : unit.InCall k) : ∃ c rest, a.calls = c :: rest := by
  obtain ⟨o, outer, at_k⟩ := inCall
  obtain ⟨fs, nests⟩ := nests_visits start nested visits
  have same := at_k.symm.trans (nests.live visits.live)
  cases fs with
  | nil => cases same
  | cons f fs =>
      obtain ⟨o', pending⟩ := f
      cases pending with
      | call c => exact ⟨c, _, nests.holds.calls⟩
      | assign scope => cases same
      | dispatch p calls => cases same
      | loop l => cases same

variable (level : LevelAt ⟨pool, labels, kind⟩ unit.instructions { draft } depth k a)

include level

theorem passes_core {p : Routine} {n : Nat} (core : i.isCore = true)
    (routine : i.routine? pool = some p) (here : p.depth? (depth k) = some n)
    (edges : ∀ j, unit.Edge k j → depth j = n)
    (back : ∀ l j, i.label? = some l → unit.offset? l = some j → j ≤ k →
      ∃ o here, j = o + 1 ∧ nesting unit.instructions k = some here ∧
        ⟨o, .loop .whileOrRepeat⟩ ∈ here) :
    Passes ⟨pool, labels, kind⟩ unit.instructions { draft } depth k i a := by
  have inv := start.inv_of_visits visits
  obtain ⟨diverts, label⟩ := Instruction.control_of_routine? routine
  have mem := List.mem_of_getElem? visits.get
  rw [← level.here visits.live] at here
  have target : ∀ l, i.label? = some l → ∃ j b, unit.offset? l = some j ∧ unit.Edge k j ∧
      labels.blockAt? j = some b ∧ labels.block l = .ok b := by
    intro l isLabel
    obtain ⟨j, b, bound, -, named, target⟩ := start.target mem core isLabel
    exact ⟨j, b, bound, ⟨i, visits.get, Or.inr ⟨l, isLabel, bound⟩⟩, named, target⟩
  obtain ⟨t, lowered⟩ : ∃ t, Lowering.lower ⟨pool, labels, kind⟩ k i a = .ok () t :=
    inv.exists_lower core routine here fun l isLabel => by
      obtain ⟨j, b, -, edge, named, target⟩ := target l (label.trans isLabel)
      exact ⟨b, target, fun phis shape => (level.shaped named shape).1.trans (edges j edge)⟩
  refine ⟨t, lowered, ?_⟩
  obtain ⟨p', items, draft', routine', executes⟩ := inv.executes core lowered
  cases routine.symm.trans routine'
  have advances := executes.advances inv.sound here
  have targets : ∀ j b, labels.blockAt? j = some b →
      (∃ l, p.control.label? = some l ∧ labels.block l = .ok b) → a.draft.shape? b = none →
      depth j = n ∧ k + 1 ≤ j := by
    rintro j b named ⟨l, isLabel, target'⟩ unshaped
    obtain ⟨j', b', bound, edge, named', target''⟩ := target l (label.trans isLabel)
    cases target'.symm.trans target''
    obtain rfl := start.resolves.distinct named named'
    refine ⟨edges j edge, Nat.not_lt.mp fun lt => ?_⟩
    -- an edge back leads to a block that has its shape
    obtain ⟨o, here, rfl, at_k, open_⟩ :=
      back l j (label.trans isLabel) bound (Nat.le_of_lt_succ lt)
    obtain ⟨phis, shape⟩ := exists_shape_of_repeats start nested visits level at_k open_ named
    cases unshaped.symm.trans shape
  have loops : t.loops = a.loops := congrArg (·.1) executes.leaves.brackets
  have cursor : ∀ j, k + 1 ≤ j → labels.blockAt? j ≠ some t.draft.cursor := fun j le named =>
    (executes.leaves.inv.aside ⟨j, le, named⟩).2 rfl
  cases falls : i.diverts with
  | true =>
      rw [if_pos rfl]
      exact level.next inv advances targets (fun l mem => Or.inl (loops ▸ mem)) nofun
        fun named => absurd named (cursor _ (Nat.le_refl _))
  | false =>
      rw [if_neg (by simp)]
      refine level.next inv advances targets (fun l mem => Or.inl (loops ▸ mem)) (fun _ => ?_)
        fun named => absurd named (cursor _ (Nat.le_refl _))
      have left := executes.leaves.depth_next (diverts.symm.trans falls)
      rw [edges (k + 1) ⟨i, visits.get, Or.inl ⟨falls, rfl⟩⟩]
      exact Option.some.inj (left.symm.trans (executes.depth.symm.trans here))

/-- The innermost loop is left to its end, or to where it is repeated. -/
theorem yields_leaveLoop {exit : LoopExit} {loopKind : LoopKind} {o e : Nat}
    (isLeave : i = .leaveLoop exit) (loop : unit.InLoop k o e loopKind) (here : depth k = depth e) :
    ∃ l : LoopContext, l.kind = loopKind ∧
      Opened ⟨pool, labels, kind⟩ unit.instructions { draft } depth a.draft l o e ∧
      Yields (Lowering.lower ⟨pool, labels, kind⟩ k i) a fun _ t =>
        Left ⟨pool, labels, kind⟩ (carryOf a i) a.draft (Context.Ahead ⟨pool, labels, kind⟩ (k + 1))
          [] (.goto (l.exitTo exit)) a t := by
  subst isLeave
  have inv := start.inv_of_visits visits
  obtain ⟨l, rest, loops, isKind, opened⟩ := loop.exists_opened start nested visits level
  obtain ⟨phis, shape, length⟩ := opened.shape
  have fits : ∀ phis', a.draft.shape? (l.exitTo exit) = some phis' →
      phis'.length = a.stack.items.length := by
    intro phis' shape'
    rw [level.here visits.live, here]
    cases exit with
    | leave => exact (level.shaped opened.ends shape').1
    | next =>
        cases shape.symm.trans shape'
        exact length
  obtain ⟨t, lowered, left⟩ := (inv.begin rfl (.leaveLoop exit)).exists_leaveLoop loops
    (fun next v mem => by
      subst next
      exact List.mem_map.mpr ⟨v, mem, rfl⟩) fits
  exact ⟨l, isKind, opened, (), t, lowered, left⟩

theorem passes_leaveLoop {exit : LoopExit} {loopKind : LoopKind} {o e : Nat}
    (isLeave : i = .leaveLoop exit) (loop : unit.InLoop k o e loopKind) (here : depth k = depth e) :
    Passes ⟨pool, labels, kind⟩ unit.instructions { draft } depth k i a := by
  obtain ⟨l, -, opened, _, t, lowered, left⟩ :=
    yields_leaveLoop start visits nested level isLeave loop here
  subst isLeave
  refine level.passes_of_left (start.inv_of_visits visits) rfl lowered left
    fun j named unshaped => ?_
  cases exit with
  | next =>
      obtain ⟨phis, shape, -⟩ := opened.shape
      cases unshaped.symm.trans shape
  | leave =>
      obtain rfl := start.resolves.distinct named opened.ends
      exact ⟨((level.here visits.live).trans here).symm,
        loop.lt nested visits.get rfl⟩

theorem passes_stepFor {o e : Nat} (isStep : i = .stepFor) (loop : unit.InLoop k o e .forEach)
    (here : depth k = depth e) :
    Passes ⟨pool, labels, kind⟩ unit.instructions { draft } depth k i a := by
  subst isStep
  have inv := start.inv_of_visits visits
  obtain ⟨l, rest, loops, isFor, opened⟩ := loop.exists_opened start nested visits level
  obtain ⟨phis, shape, length⟩ := opened.shape
  obtain ⟨t, lowered, left⟩ := (inv.begin rfl .stepFor).exists_stepFor loops isFor
    (fun v mem => List.mem_map.mpr ⟨v, mem, rfl⟩) fun phis' shape' => by
      cases shape.symm.trans shape'
      rw [level.here visits.live, here, length]
  exact level.passes_of_left inv rfl lowered left fun j named unshaped => by
    cases unshaped.symm.trans shape

theorem passes_endLoop {loopKind : LoopKind} {o : Nat} (isEnd : i = .endLoop loopKind)
    (loop : unit.InLoop k o k loopKind) (next : depth (k + 1) = depth k) :
    Passes ⟨pool, labels, kind⟩ unit.instructions { draft } depth k i a := by
  subst isEnd
  have inv := start.inv_of_visits visits
  obtain ⟨l, rest, loops, isKind, opened⟩ := loop.exists_opened start nested visits level
  obtain ⟨cursor, first⟩ := level.entered visits.live _ opened.ends
  refine ⟨_, endLoop_eq_ok loops isKind inv.phase cursor first, ?_⟩
  rw [if_neg (by simp [Instruction.diverts])]
  refine level.next inv (.refl 0 (fun _ => False) _) (fun _ _ _ none => none.elim)
    (fun l' mem => Or.inl ?_) (fun _ => ?_) fun named => ?_
  · rw [loops]
    exact List.mem_cons_of_mem l mem
  · exact (level.here visits.live).trans next.symm
  · exact absurd rfl (inv.aside ⟨_, Nat.le_refl _, named⟩).2

omit nested in
/-- A loop is opened, with the stack as deep in it as at its end. -/
theorem yields_opens {e : Nat} {loopKind : LoopKind} (admits : unit.Admits pool depth k i)
    (ends : unit.EndsAt k e loopKind) : depth (k + 1) = depth e ∧
      Yields (Lowering.lower ⟨pool, labels, kind⟩ k i) a fun _ t => ∃ loop : LoopContext,
        loop.kind = loopKind ∧ labels.blockAt? e = some loop.loopEnd ∧
        i.Aims ⟨pool, labels, kind⟩ loop.loopEnd ∧
        Enters ⟨pool, labels, kind⟩ k (depth (k + 1)) loop a t := by
  obtain ⟨i', l, get, opens, label, bound⟩ := ends
  cases get.symm.trans visits.get
  have inv := start.inv_of_visits visits
  have mem := List.mem_of_getElem? visits.get
  have length := level.here visits.live
  cases admits with
  | startLoop bound' next atEnd =>
      cases opens
      cases label
      cases bound.symm.trans bound'
      obtain ⟨b, named, target, aims⟩ := start.block_of_label mem rfl rfl bound
      obtain ⟨_, t, lowered, loop, isKind, rfl, enters⟩ := inv.yields_startLoop
        start.resolves.distinct target fun c phis named' shape => by
          rw [(level.shaped named' shape).1, next, length]
      rw [length, ← next] at enters
      exact ⟨next.trans atEnd.symm, _, t, lowered, loop, isKind, named, aims, enters⟩
  | startFor site name bound' next atEnd =>
      cases opens
      cases label
      cases bound.symm.trans bound'
      obtain ⟨b, named, target, aims⟩ := start.block_of_label mem rfl rfl bound
      obtain ⟨_, t, lowered, loop, isKind, rfl, enters⟩ := inv.yields_startFor (k := k) site name
        target (length.trans next) fun phis shape => (level.shaped named shape).1.trans atEnd
      exact ⟨atEnd.symm, _, t, lowered, loop, isKind, named, aims, enters⟩
  | core core => cases (Instruction.opensLoop?_of_isCore core).symm.trans opens
  | _ => cases opens

theorem passes_opens {e : Nat} {loopKind : LoopKind} (admits : unit.Admits pool depth k i)
    (ends : unit.EndsAt k e loopKind) :
    Passes ⟨pool, labels, kind⟩ unit.instructions { draft } depth k i a := by
  obtain ⟨lt, -⟩ := ends.nesting_end nested
  obtain ⟨atEnd, _, t, lowered, loop, isKind, named, aims, enters⟩ :=
    yields_opens start visits level admits ends
  obtain ⟨i', -, get, opens, -⟩ := ends
  cases get.symm.trans visits.get
  exact level.passes_of_enters (start.inv_of_visits visits) visits (isKind ▸ opens) aims lowered
    enters start.resolves.distinct named lt rfl atEnd

end CodeUnit

end StackLift
