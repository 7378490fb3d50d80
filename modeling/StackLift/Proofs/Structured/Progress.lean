import StackLift.Proofs.Structured.Checked
import StackLift.Proofs.Structured.Run

/-!
Where the pass goes in structured code. It goes on from an instruction that does not
divert, and it comes to every label that an edge leads to. So it comes to the end of each
form in the arguments of a call that no loop is around: from there no loop is left, the
function does not return, and every loop has an edge to its end. Main statement: no bracket
is left open at the end of the code, `Through.stillOpen?_eq_none`.
-/

namespace StackLift

open Lowering

/-- The pass comes to the end of a unit whose instructions are all admitted. -/
structure CodeUnit.Through (unit : CodeUnit) (pool : Pool) (kind : UnitKind) (labels : LabelMap)
    (draft : Draft) (depth : Nat → Nat) (final : State) : Prop where
  start : unit.Start pool kind labels draft
  typed : unit.Typed pool depth
  /-- No label stands between an argument and its name. -/
  unnamed : ∀ j symbol, unit.instructions[j]? = some (.setTag symbol) → labels.blockAt? j = none
  before : Before ⟨pool, labels, kind⟩ unit.instructions { draft } unit.size final
  level : LevelBefore ⟨pool, labels, kind⟩ unit.instructions { draft } depth unit.size final

theorem CodeUnit.Typed.exists_through {unit : CodeUnit} {pool : Pool} {depth : Nat → Nat}
    (typed : unit.Typed pool depth) (kind : UnitKind) : ∃ labels draft final,
      LabelMap.resolve unit pool (.new unit.displayName) = .ok labels draft ∧
      unit.Through pool kind labels draft depth final := by
  obtain ⟨labels, draft, resolve⟩ := CodeUnit.exists_resolve (.new unit.displayName)
    fun i mem => by
      obtain ⟨ls, targets, bound⟩ := typed.labels i mem
      refine ⟨ls, targets, fun l named => ?_⟩
      obtain ⟨j, at_, lt, -⟩ := bound l named
      exact ⟨j, at_, lt⟩
  have start := CodeUnit.start_of_resolve kind resolve
  have unnamed : ∀ j symbol, unit.instructions[j]? = some (.setTag symbol) →
      labels.blockAt? j = none := by
    intro j symbol get
    cases named : labels.blockAt? j with
    | none => rfl
    | some b =>
        refine absurd get (CodeUnit.names_of_resolve (P := fun j =>
          unit.instructions[j]? ≠ some (.setTag symbol)) resolve (fun i mem ls targets l label => ?_)
          named)
        obtain ⟨ls', targets', bound⟩ := typed.labels i mem
        cases targets.symm.trans targets'
        intro offset at_
        obtain ⟨j', at_', -, notTag⟩ := bound l label
        cases at_.symm.trans at_'
        exact notTag symbol
  obtain ⟨final, before, level⟩ := typed.exists_before start unnamed (Nat.le_refl _)
  exact ⟨labels, draft, final, resolve, start, typed, unnamed, before, level⟩

namespace CodeUnit.Through

variable {unit : CodeUnit} {pool : Pool} {kind : UnitKind} {labels : LabelMap} {draft : Draft}
  {depth : Nat → Nat} {final : State} {k j : Nat} {i : Instruction} {a : State}
  (through : unit.Through pool kind labels draft depth final)

include through

theorem run : Lowering.run ⟨pool, labels, kind⟩ 0 unit.instructions { draft } = .ok final := by
  have before := through.before
  rwa [Before, CodeUnit.size, List.take_length] at before

section

variable (visits : Visits ⟨pool, labels, kind⟩ unit.instructions { draft } k i a)

include visits

theorem levelAt : LevelAt ⟨pool, labels, kind⟩ unit.instructions { draft } depth k a := by
  have distinct : labels.Distinct := through.start.resolves.distinct
  obtain ⟨s, before, arrives⟩ := visits.arrives
  have le := Nat.le_of_lt (List.getElem?_eq_some_iff.mp visits.get).1
  obtain ⟨s', before', level⟩ := through.typed.exists_before through.start through.unnamed le
  cases before.unique before'
  have between := between_before distinct through.start.between le before
  exact level.arrive distinct between (between.comes arrives)
    (visited_iff visits.get before arrives)

/-- What an instruction leaves is kept up to the end. -/
theorem lowered : ∃ t, Lowering.lower ⟨pool, labels, kind⟩ k i a = .ok () t ∧
    Before ⟨pool, labels, kind⟩ unit.instructions { draft } (k + 1)
      (if i.diverts then { t with live := false } else t) ∧ t.draft.Grows final.draft := by
  obtain ⟨s', after⟩ := exists_before through.run (k + 1)
  obtain ⟨t, lowered, rfl⟩ := visits.lower after
  have lt := (List.getElem?_eq_some_iff.mp visits.get).1
  have grows := grows_before through.start.resolves.distinct through.start.between lt
    (Nat.le_refl _) after through.before
  refine ⟨t, lowered, after, ?_⟩
  split at grows <;> exact grows

end

/-! ### From one instruction to others -/

theorem visited_next (visited : unit.Visited pool kind labels draft k)
    (get : unit.instructions[k]? = some i) (straight : i.diverts = false)
    (lt : k + 1 < unit.size) : unit.Visited pool kind labels draft (k + 1) := by
  obtain ⟨i', a, visits⟩ := visited
  cases get.symm.trans visits.get
  obtain ⟨t, lowered, after, -⟩ := through.lowered visits
  rw [if_neg (by simp [straight])] at after
  have distinct : labels.Distinct := through.start.resolves.distinct
  have begun := (through.start.inv_of_visits visits).begin rfl i
  have live : t.live = true := by
    cases begun.lower distinct (fun e mem => mem) lowered with
    | left diverts _ => cases straight.symm.trans diverts
    | goesOn _ goes =>
        cases goes with
        | here inv => exact inv.live (by simp)
        | inNext inv _ => exact inv.live (by simp)
  have get' : unit.instructions[k + 1]? = some _ := List.getElem?_eq_getElem lt
  obtain ⟨s', before'⟩ := exists_before through.run (k + 1 + 1)
  obtain ⟨t', after', step⟩ := (before_succ get').mp before'
  cases after.unique after'
  obtain ⟨b, arrives, -⟩ := step_eq_ok.mp step
  have between := between_before distinct through.start.between (Nat.le_of_lt lt) after
  exact (visited_iff get' after arrives).mpr ((between.comes arrives).live live)

/-- The pass comes to every label that has an edge. -/
theorem visited_of_shape {b : BlockId} {d : Draft} (named : labels.blockAt? j = some b)
    (shaped : (d.shape? b).isSome) (grows : d.Grows final.draft) :
    unit.Visited pool kind labels draft j := by
  obtain ⟨phis, shape⟩ := Option.isSome_iff_exists.mp shaped
  rcases (through.level.shaped named (grows.shape shape)).2 with later | visited
  · exact absurd (through.start.resolves.within named) (Nat.not_lt_of_le later)
  · exact visited

theorem visited_jump {l : Label} (visited : unit.Visited pool kind labels draft k)
    (get : unit.instructions[k]? = some i) (core : i.isCore = true) (label : i.label? = some l)
    (bound : unit.offset? l = some j) : unit.Visited pool kind labels draft j := by
  obtain ⟨i', a, visits⟩ := visited
  cases get.symm.trans visits.get
  obtain ⟨t, lowered, -, grows⟩ := through.lowered visits
  obtain ⟨j', b, bound', -, named, target⟩ :=
    through.start.target (List.mem_of_getElem? get) core label
  cases bound.symm.trans bound'
  obtain ⟨p, items, draft', routine, executes⟩ :=
    (through.start.inv_of_visits visits).executes core lowered
  rw [(Instruction.control_of_routine? routine).2] at label
  obtain ⟨-, phis, -, shape, -⟩ := executes.leaves.edge label target
  exact through.visited_of_shape named (by rw [shape]; rfl) grows

theorem exists_enters {loopKind : LoopKind}
    (visits : Visits ⟨pool, labels, kind⟩ unit.instructions { draft } k i a)
    (ends : unit.EndsAt k j loopKind) : ∃ t n, ∃ loop : LoopContext, loop.kind = loopKind ∧
      labels.blockAt? j = some loop.loopEnd ∧ Enters ⟨pool, labels, kind⟩ k n loop a t ∧
      Before ⟨pool, labels, kind⟩ unit.instructions { draft } (k + 1) t ∧
      t.draft.Grows final.draft := by
  obtain ⟨t, lowered, after, grows⟩ := through.lowered visits
  obtain ⟨-, _, t', lowered', loop, isKind, named, -, enters⟩ := yields_opens through.start visits
    (through.levelAt visits) (through.typed.admits k i visits.get) ends
  cases lowered.symm.trans lowered'
  obtain ⟨i', -, get, opens, -⟩ := ends
  cases get.symm.trans visits.get
  have straight : i.diverts = false := by
    cases i <;> first | rfl | cases opens
  rw [if_neg (by simp [straight])] at after
  exact ⟨t, _, loop, isKind, named, enters, after, grows⟩

/-- The head of a counting loop has an edge to its end. -/
theorem visited_end (visited : unit.Visited pool kind labels draft k)
    (ends : unit.EndsAt k j .forEach) : unit.Visited pool kind labels draft j := by
  obtain ⟨i, a, visits⟩ := visited
  obtain ⟨t, n, loop, isFor, named, enters, -, grows⟩ := through.exists_enters visits ends
  exact through.visited_of_shape named (enters.atEnd isFor).1 grows

theorem visited_exit_of_loopTail {q d o : Nat} {loopKind : LoopKind} {outer : List Opening}
    {again : Instruction} (tail : unit.LoopTail depth q d o loopKind outer again)
    (visited : unit.Visited pool kind labels draft (q + 2)) :
    unit.Visited pool kind labels draft (q + 4) := by
  have closed := through.visited_next visited tail.close.get rfl
    (tail.load.goesOnAt nofun).lt_size
  exact through.visited_next closed tail.load.get rfl tail.exit.lt_size

end CodeUnit.Through

/-! ### Forms in the arguments of a call -/

/-- A form that is computed for a call, and that no loop is around, is computed to its end. -/
theorem Form.Stands.visited_exit {unit : CodeUnit} {pool : Pool} {kind : UnitKind}
    {labels : LabelMap} {draft : Draft} {depth : Nat → Nat} {final : State}
    (through : unit.Through pool kind labels draft depth final) {formKind : FormKind}
    {f : Form formKind} {p d : Nat} {outer : List Opening}
    (stands : f.Stands unit pool depth p d outer false true)
    (visited : unit.Visited pool kind labels draft p) :
    unit.Visited pool kind labels draft (p + f.size) := by
  induction f generalizing p d outer with
  | push leaf =>
      obtain ⟨line, -, exit⟩ := stands.push
      exact through.visited_next visited line.get (by cases leaf <;> rfl) exit.lt_size
  | setVar value scope symbol ih =>
      obtain ⟨stands, line, -, exit⟩ := stands.setVar
      exact through.visited_next (ih stands visited) line.get rfl exit.lt_size
  | seq first second ih ih' =>
      obtain ⟨stands, line, stands'⟩ := stands.seq
      have dropped := through.visited_next (ih stands visited) line.get rfl stands'.entry.lt_size
      simpa only [size, Nat.add_assoc] using ih' stands' dropped
  | binary left right op site ih ih' =>
      obtain ⟨stands, stands', line, -, exit⟩ := stands.binary
      have operands := ih' stands' (ih stands visited)
      simpa only [size, Nat.add_assoc] using
        through.visited_next operands line.get rfl exit.lt_size
  | ifElse test yes no site other after ih ih₁ ih₂ =>
      obtain ⟨stands, branch, -, stands₁, goto, -, stands₂, atAfter⟩ := stands.ifElse
      have tested := through.visited_next (ih stands visited) branch.get rfl stands₁.entry.lt_size
      have joined := through.visited_jump (ih₁ stands₁ tested) goto.get rfl rfl atAfter
      simpa only [size, Nat.add_assoc] using joined
  | call head args builtin site ih =>
      obtain ⟨line, -, stands, finish, -, exit⟩ := stands.call
      have opened := through.visited_next visited line.get (by cases head <;> rfl)
        stands.entry.lt_size
      simpa only [size, Nat.add_assoc] using
        through.visited_next (ih stands opened) finish.get rfl exit.lt_size
  | whileLoop test body site head after ih _ =>
      obtain ⟨start, -, stands₁, branch, -, -, atAfter, tail⟩ := stands.whileLoop
      have opened := through.visited_next visited start.get rfl stands₁.entry.lt_size
      have ended := through.visited_jump (ih stands₁ opened) branch.get rfl rfl atAfter
      simpa only [size, Nat.add_assoc] using through.visited_exit_of_loopTail tail ended
  | forLoop range body site symbol after ih _ =>
      obtain ⟨stands₁, start, -, -, -, atAfter, tail⟩ := stands.forLoop
      have ended := through.visited_end (ih stands₁ visited)
        ⟨_, _, start.get, rfl, rfl, atAfter⟩
      simpa only [size, Nat.add_assoc] using through.visited_exit_of_loopTail tail ended
  | repeatLoop body head after _ => cases stands.repeatLoop.1
  | ret value _ => cases stands.ret.1
  | leave exit => cases stands.allowed
  | noArgs => exact visited
  | arg value tag rest ih ih' =>
      obtain ⟨stands, push, tagged, stands'⟩ := stands.arg
      have computed := ih stands visited
      have named : unit.Visited pool kind labels draft
          (p + value.size + 1 + tag.toList.length) := by
        cases tag with
        | none => exact through.visited_next computed push.get rfl stands'.entry.lt_size
        | some symbol =>
            have line := (tagged symbol rfl).1
            have added := through.visited_next computed push.get rfl
              (List.getElem?_eq_some_iff.mp line.get).1
            exact through.visited_next added line.get rfl stands'.entry.lt_size
      simpa only [size, Nat.add_assoc] using ih' stands' named

/-- A call that nothing is around is finished. -/
theorem Form.Stands.visited_finish {unit : CodeUnit} {pool : Pool} {kind : UnitKind}
    {labels : LabelMap} {draft : Draft} {depth : Nat → Nat} {final : State}
    (through : unit.Through pool kind labels draft depth final) {head : CallHead}
    {args : Form .args} {builtin : Bool} {site : PoolIndex} {o d : Nat} {inLoop inCall : Bool}
    (stands : (Form.call head args builtin site).Stands unit pool depth o d [] inLoop inCall)
    (visited : unit.Visited pool kind labels draft o) :
    ∃ e, unit.Visited pool kind labels draft e ∧
      unit.Line depth e d [⟨o, .call⟩] (.finishCall builtin site) := by
  obtain rfl : inLoop = false := by
    cases inLoop with
    | false => rfl
    | true =>
        obtain ⟨_, _, _, none, -⟩ := stands.loop rfl
        cases none
  obtain ⟨line, -, stands, finish, -, -⟩ := stands.call
  have opened := through.visited_next visited line.get (by cases head <;> rfl) stands.entry.lt_size
  exact ⟨_, stands.visited_exit through opened, finish⟩

/-! ### The end of the code -/

/-- Only calls are opened besides loops. -/
theorem CodeUnit.Admits.opens_call {unit : CodeUnit} {pool : Pool} {depth : Nat → Nat} {k : Nat}
    {i : Instruction} {opener : Opener} (admits : unit.Admits pool depth k i)
    (opens : i.opens? = some opener) (notLoop : opener.loops = 0) : opener = .call := by
  cases admits with
  | core core => cases (Instruction.opens?_of_isCore core).symm.trans opens
  | getFun | getBuiltin =>
      cases opens
      rfl
  | startLoop | startFor =>
      cases opens
      cases notLoop
  | _ => cases opens

/-- A call that no loop is around is finished, and a call with a loop around it is dropped
where the loop ends. -/
theorem CodeUnit.Through.stillOpen?_eq_none {unit : CodeUnit} {pool : Pool} {kind : UnitKind}
    {labels : LabelMap} {draft : Draft} {depth : Nat → Nat} {final : State}
    (through : unit.Through pool kind labels draft depth final)
    (forms : ∀ k i, unit.instructions[k]? = some i → unit.OpensForm pool depth k i) :
    final.stillOpen? = none := by
  have balanced := through.typed.nested
  obtain ⟨fs, nests, left⟩ := leftOver_before through.start balanced (Nat.le_refl _) through.before
  refine Option.not_isSome_iff_eq_none.mp fun found => ?_
  have nonempty := nests.holds.isSome_stillOpen.mp found
  obtain ⟨inner, ⟨o, pending⟩, rfl⟩ : ∃ inner f, fs = inner ++ [f] :=
    ⟨_, _, (List.dropLast_concat_getLast nonempty).symm⟩
  have noLoops := nests.noLoops_final balanced ⟨o, pending⟩ (by simp)
  cases nests.stacked.of_append with
  | @cons _ _ i a visits opens at_o calls built later below =>
      have notLoop : pending.opener.loops = 0 := by
        rw [← Pending.length_loops, noLoops]
        rfl
      have isCall := (through.typed.admits _ _ visits.get).opens_call opens notLoop
      rw [isCall] at opens
      obtain ⟨head, args, builtin, site, d, outer, inLoop, inCall, stands⟩ :=
        forms o i visits.get opens
      -- nothing is open around the outermost bracket
      cases at_o.symm.trans stands.nest
      obtain ⟨e, ⟨i', a', visits'⟩, finish⟩ := stands.visited_finish through ⟨i, a, visits⟩
      generalize whole : inner ++ [⟨o, pending⟩] = fs at left
      cases left with
      | nothing => simp at whole
      | @since p _ _ here _ last skipped at_p remains =>
          have lt' := (List.getElem?_eq_some_iff.mp visits'.get).1
          have le := Nat.not_lt.mp fun gt => skipped _ i' a' gt lt' visits'
          have mem : ⟨o, .call⟩ ∈ here := by
            refine remains.outer.subset ?_
            rw [← whole, openings_append]
            simp [Frame.opening, isCall]
          exact notMem_of_closed finish.get finish.nest rfl
            (List.getElem?_eq_some_iff.mp last.get).1 at_p (Nat.lt_succ_of_le le) mem

end StackLift
