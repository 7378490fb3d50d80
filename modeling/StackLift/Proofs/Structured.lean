import StackLift.Proofs.Access
import StackLift.Proofs.Reachability
import StackLift.Proofs.Structured.Progress

/-!
Structured code. Main statement: a unit that is made from a form is accepted, and each
instruction in its graph that leaves or repeats a loop has one edge, which leads to the end or
to the head of the innermost loop around it, however many calls are open there.
-/

namespace StackLift

open Lowering

/-! ### Blocks of a loop -/

/-- Cleaning up takes no edges away. -/
theorem Graph.OrphansBare.successorsOf_cleanup {g : Graph} (bare : g.OrphansBare)
    (options : Options) (b : BlockId) : (options.cleanup g).successorsOf b = g.successorsOf b := by
  have unpruned := unpruned_induction
    (motive := fun g' => g'.OrphansBare ∧ g'.successorsOf b = g.successorsOf b) options
    (fun ⟨bare, same⟩ => ⟨bare.replacePhi, (successorsOf_replacePhi b).trans same⟩) ⟨bare, rfl⟩
  rw [bare.cleanup_eq options]
  simp only
  split
  · exact (successorsOf_withoutOrphans unpruned.1 b).trans unpruned.2
  · exact unpruned.2

theorem Draft.Ends.successorsOf {d : Draft} {b : BlockId} {t : Terminator} (ends : d.Ends b t) :
    d.graph.successorsOf b = t.successors := by
  obtain ⟨block, live, last⟩ := ends
  rw [Graph.successorsOf_eq live, Block.successors, last]

theorem Draft.Ends.unique {d : Draft} {b : BlockId} {t t' : Terminator} (ends : d.Ends b t)
    (ends' : d.Ends b t') : t = t' := by
  obtain ⟨block, live, last⟩ := ends
  obtain ⟨block', live', last'⟩ := ends'
  cases live.symm.trans live'
  exact Option.some.inj (last.symm.trans last')

namespace CodeUnit

/-- The block that a loop is left to: its end is lowered there. -/
def EndBlock (unit : CodeUnit) (pool : Pool) (kind : UnitKind) (e : Nat) (loopKind : LoopKind)
    (b : BlockId) : Prop :=
  ∃ s, unit.Lowers pool kind e (.endLoop loopKind) s ∧ s.draft.cursor = b

/-- The block that every turn of a loop starts with. -/
structure HeadBlock (unit : CodeUnit) (pool : Pool) (kind : UnitKind) (g : Graph) (o e : Nat)
    (loopKind : LoopKind) (b : BlockId) : Prop where
  /-- Control comes to the loop there. -/
  opened : ∃ i s, unit.Lowers pool kind o i s ∧ g.successorsOf s.draft.cursor = [b]
  /-- The first instruction of a loop that does not count is lowered there. -/
  first : loopKind = .whileOrRepeat →
    ∃ i s, unit.Lowers pool kind (o + 1) i s ∧ s.draft.cursor = b
  /-- A loop that counts goes on to its body from there, or ends. -/
  counts : loopKind = .forEach → ∃ body last, g.successorsOf b = [body, last] ∧
    unit.EndBlock pool kind e loopKind last

/-- The block that an instruction leaves a loop for. -/
def ExitBlock (unit : CodeUnit) (pool : Pool) (kind : UnitKind) (g : Graph) (o e : Nat)
    (loopKind : LoopKind) : LoopExit → BlockId → Prop
  | .leave, b => unit.EndBlock pool kind e loopKind b
  | .next, b => unit.HeadBlock pool kind g o e loopKind b

end CodeUnit

namespace CodeUnit.Through

variable {unit : CodeUnit} {pool : Pool} {kind : UnitKind} {labels : LabelMap} {draft : Draft}
  {depth : Nat → Nat} {final : State} {k o e : Nat} {a : State} {l : LoopContext}
  (through : unit.Through pool kind labels draft depth final)

include through

/-- The innermost loop around an instruction that leaves it, and the edge of the instruction. -/
theorem exists_exit {exit : LoopExit}
    (visits : Visits ⟨pool, labels, kind⟩ unit.instructions { draft } k (.leaveLoop exit) a) :
    ∃ o e, ∃ l : LoopContext, unit.InLoop k o e l.kind ∧
      Opened ⟨pool, labels, kind⟩ unit.instructions { draft } depth final.draft l o e ∧
      final.draft.Ends a.draft.cursor (.goto (l.exitTo exit)) ∧
      (final.draft.shape? (l.exitTo exit)).isSome := by
  have inv := through.start.inv_of_visits visits
  obtain ⟨t, lowered, -, grows⟩ := through.lowered visits
  cases through.typed.admits k _ visits.get with
  | core core => cases core
  | @leaveLoop _ _ o e loop here =>
      obtain ⟨l, rfl, opened, _, t', lowered', left⟩ := yields_leaveLoop through.start visits
        through.typed.nested (through.levelAt visits) rfl loop here
      cases lowered.symm.trans lowered'
      refine ⟨o, e, l, loop, opened.mono (left.grows.trans grows), left.ends.mono grows, ?_⟩
      cases exit with
      | leave =>
          obtain ⟨phis, shape, -⟩ := left.exists_shape (b := l.loopEnd) List.mem_cons_self
            (inv.plain_label ⟨e, opened.ends⟩).merge.notDirect
          exact Option.isSome_iff_exists.mpr ⟨phis, grows.shape shape⟩
      | next =>
          obtain ⟨phis, shape, -⟩ := opened.shape
          exact Option.isSome_iff_exists.mpr ⟨phis, grows.shape (left.grows.shape shape)⟩

variable (opened : Opened ⟨pool, labels, kind⟩ unit.instructions { draft } depth final.draft l o e)

include opened

theorem exists_visits_end (shaped : (final.draft.shape? l.loopEnd).isSome) :
    ∃ s, Visits ⟨pool, labels, kind⟩ unit.instructions { draft } e (.endLoop l.kind) s ∧
      s.draft.cursor = l.loopEnd := by
  obtain ⟨i, s, visits⟩ := through.visited_of_shape opened.ends shaped (.refl _)
  obtain ⟨-, i', -, get, closes, -⟩ :=
    (opened.endsAt through.start).nesting_end through.typed.nested
  cases visits.get.symm.trans get
  obtain rfl : i = .endLoop l.kind := by
    cases i <;> cases closes
    rfl
  exact ⟨s, visits, ((through.levelAt visits).entered visits.live _ opened.ends).1⟩

/-- A loop that does not count starts with its code. -/
theorem exists_visits_head (repeats : l.kind = .whileOrRepeat) :
    ∃ i s, Visits ⟨pool, labels, kind⟩ unit.instructions { draft } (o + 1) i s ∧
      s.draft.cursor = l.next := by
  have ends := opened.endsAt through.start
  obtain ⟨i, a, visits, opens, -, goes⟩ := opened.visits
  obtain ⟨t, n, l', isKind, -, enters, after, grows⟩ := through.exists_enters visits ends
  obtain ⟨cursor, atLabel⟩ := enters.head (isKind.trans repeats)
  have same := Terminator.goto.inj ((enters.goes.mono grows).unique goes)
  obtain ⟨lt, i', -, get, -⟩ := ends.nesting_end through.typed.nested
  have straight : i.diverts = false := by
    cases i <;> first | rfl | cases opens
  have inside := Nat.lt_of_le_of_lt lt (List.getElem?_eq_some_iff.mp get).1
  obtain ⟨i', s, visits'⟩ := through.visited_next ⟨i, a, visits⟩ visits.get straight inside
  refine ⟨i', s, visits', ?_⟩
  cases named : labels.blockAt? (o + 1) with
  | some b =>
      rw [((through.levelAt visits').entered visits'.live b named).1, ← same, atLabel b named]
  | none =>
      obtain ⟨s₀, before, arrives⟩ := visits'.arrives
      cases after.unique before
      rw [arrive, named] at arrives
      cases arrives
      exact cursor.trans same

/-- A loop that counts has an edge to its end. -/
theorem exists_counts (counts : l.kind = .forEach) :
    (∃ more body, final.draft.Ends l.next (.branch more body l.loopEnd)) ∧
      (final.draft.shape? l.loopEnd).isSome := by
  obtain ⟨i, a, visits, -, -, goes⟩ := opened.visits
  obtain ⟨t, n, l', isKind, named, enters, -, grows⟩ :=
    through.exists_enters visits (opened.endsAt through.start)
  obtain ⟨shaped, more, body, tests⟩ := enters.atEnd (isKind.trans counts)
  obtain ⟨phis, shape⟩ := Option.isSome_iff_exists.mp shaped
  have same := Terminator.goto.inj ((enters.goes.mono grows).unique goes)
  have sameEnd := Option.some.inj (named.symm.trans opened.ends)
  rw [same, sameEnd] at tests
  rw [sameEnd] at shape
  exact ⟨⟨more, body, tests.mono grows⟩, Option.isSome_iff_exists.mpr ⟨phis, grows.shape shape⟩⟩

end CodeUnit.Through

/-! ### Units -/

namespace Form

/-- The unit computes a form and returns its value. -/
structure Makes (f : Form .value) (unit : CodeUnit) (pool : Pool) : Prop where
  code : unit.instructions = f.code ++ [.ret]
  bound : f.Bound unit 0
  valid : f.valid pool = true
  allowed : f.allowed false false = true

instance (f : Form .value) (unit : CodeUnit) (pool : Pool) : Decidable (f.Makes unit pool) :=
  decidable_of_iff (unit.instructions = f.code ++ [.ret] ∧ f.Bound unit 0 ∧ f.valid pool = true ∧
      f.allowed false false = true)
    ⟨fun ⟨code, bound, valid, allowed⟩ => ⟨code, bound, valid, allowed⟩,
      fun ⟨code, bound, valid, allowed⟩ => ⟨code, bound, valid, allowed⟩⟩

/-- The depth of the stack at an offset of the unit. -/
def depthAt (f : Form .value) (k : Nat) : Nat :=
  (((f.lines 0 ++ [(.ret, 1)])[k]?).map Prod.snd).getD 0

variable {f : Form .value} {unit : CodeUnit} {pool : Pool} (makes : f.Makes unit pool)

include makes

theorem Makes.size : unit.size = f.size + 1 := by
  rw [CodeUnit.size, makes.code, List.length_append, length_code, List.length_singleton]

theorem Makes.stands : f.Stands unit pool f.depthAt 0 0 [] false false := by
  have holds : unit.Holds f.depthAt 0 (f.lines 0 ++ [(.ret, 1)]) := by
    intro j line get
    have lines : (f.lines 0 ++ [(Instruction.ret, 1)]).map Prod.fst = unit.instructions := by
      rw [makes.code, List.map_append, map_fst_lines]
      rfl
    rw [Nat.zero_add, ← lines, List.getElem?_map, depthAt, get]
    exact ⟨rfl, rfl⟩
  obtain ⟨lines, last⟩ := along_append.mp holds
  obtain ⟨⟨get, deep⟩, -⟩ := along_cons.mp last
  rw [length_lines] at get deep
  exact ⟨lines, makes.bound, makes.valid, makes.allowed, rfl, ⟨deep, .ret, get, nofun⟩, nofun, nofun⟩

theorem Makes.line_ret : unit.Line f.depthAt f.size 1 [] .ret := by
  have exit := makes.stands.exit
  have nest := makes.stands.nest_exit
  rw [Nat.zero_add] at exit nest
  refine ⟨?_, exit.depth, nest⟩
  rw [makes.code, List.getElem?_append_right (by simp), length_code, Nat.sub_self]
  rfl

theorem Makes.checked {k : Nat} {i : Instruction} (get : unit.instructions[k]? = some i) :
    unit.Checked pool f.depthAt k i := by
  have last : unit.Checked pool f.depthAt f.size .ret :=
    CodeUnit.checked_straight makes.line_ret (effect_ret 0) rfl nofun
  have forms := makes.stands.checked
  rw [Nat.zero_add] at forms
  have lt : k < f.size + 1 := makes.size ▸ (List.getElem?_eq_some_iff.mp get).1
  obtain ⟨i', checked⟩ := (forms.trans last.all) k (Nat.zero_le k) lt
  cases get.symm.trans checked.get
  exact checked

theorem Makes.typed : unit.Typed pool f.depthAt where
  nested := {
    balanced := by
      rw [CodeUnit.Balanced, makes.size]
      exact makes.line_ret.nest_succ rfl
    jumps := fun _ _ _ get => (makes.checked get).inside
    loops := fun _ _ _ get => (makes.checked get).ends }
  start := makes.stands.entry.depth
  labels := fun i mem => by
    obtain ⟨k, get⟩ := List.mem_iff_getElem?.mp mem
    exact (makes.checked get).labels
  admits := fun _ _ get => (makes.checked get).admits

theorem Makes.exists_pass (kind : UnitKind) : ∃ labels draft final,
    unit.Through pool kind labels draft f.depthAt final ∧ unit.Pass pool kind labels draft final := by
  obtain ⟨labels, draft, final, resolve, through⟩ := makes.typed.exists_through kind
  refine ⟨labels, draft, final, through, resolve, through.run, ?_⟩
  have closed := through.stillOpen?_eq_none fun _ _ get => (makes.checked get).form
  have dead : final.live = false := by
    have before := through.before
    rw [makes.size] at before
    obtain ⟨s, -, step⟩ := (before_succ makes.line_ret.get).mp before
    obtain ⟨a, -, ⟨-, t, -, rfl⟩ | ⟨dead, skipped⟩⟩ := step_eq_ok.mp step
    · rfl
    · cases skipped
      exact dead
  rw [State.endFault?, closed]
  simp only
  rw [dead, through.start.neverReached dead through.before through.level]
  rfl

end Form

/-- Structured code is accepted, and each of its instructions that leave or repeat a loop has
one edge, to the end or the head of the innermost loop around it. -/
theorem structured_compiles {f : Form .value} {unit : CodeUnit} {pool : Pool} (options : Options)
    (makes : f.Makes unit pool) :
    ∃ g, unit.compile pool options = .ok g ∧
      ∀ k exit s, unit.Lowers pool options.unitKind k (.leaveLoop exit) s →
        ∃ o e kind b, unit.InLoop k o e kind ∧ g.successorsOf s.draft.cursor = [b] ∧
          unit.ExitBlock pool options.unitKind g o e kind exit b := by
  obtain ⟨labels, draft, final, through, pass⟩ := makes.exists_pass options.unitKind
  have edges := pass.orphansBare.successorsOf_cleanup options
  have lowers := @CodeUnit.lowers_iff unit pool options.unitKind _ _ pass.resolve
  refine ⟨_, CodeUnit.compile_eq_ok.mpr ⟨_, CodeUnit.lower_eq_ok.mpr
    ⟨labels, draft, final, pass, rfl⟩, rfl⟩, fun k exit s lowered => ?_⟩
  obtain ⟨o, e, l, loop, opened, goes, shaped⟩ := through.exists_exit (lowers.mp lowered)
  refine ⟨o, e, l.kind, l.exitTo exit, loop, (edges _).trans goes.successorsOf, ?_⟩
  have ended (shaped : (final.draft.shape? l.loopEnd).isSome) :
      unit.EndBlock pool options.unitKind e l.kind l.loopEnd := by
    obtain ⟨s', visits, cursor⟩ := through.exists_visits_end opened shaped
    exact ⟨s', lowers.mpr visits, cursor⟩
  cases exit with
  | leave => exact ended shaped
  | next =>
      obtain ⟨i, a, visits, -, -, starts⟩ := opened.visits
      refine ⟨⟨i, a, lowers.mpr visits, (edges _).trans starts.successorsOf⟩, fun repeats => ?_,
        fun counts => ?_⟩
      · obtain ⟨i', s', visits', cursor⟩ := through.exists_visits_head opened repeats
        exact ⟨i', s', lowers.mpr visits', cursor⟩
      · obtain ⟨⟨more, body, tests⟩, shaped⟩ := through.exists_counts opened counts
        exact ⟨body, l.loopEnd, (edges _).trans tests.successorsOf, ended shaped⟩

/-- The body of a `for` loop calls a function with a call as its argument, and the argument of
that call leaves the loop or repeats it. -/
def leaveFromCalls : Form .value :=
  let exits : Form .value :=
    .ifElse (.push (.var ⟨3⟩ false)) (.leave .leave) (.leave .next) ⟨0⟩ ⟨1⟩ ⟨2⟩
  let call (argument : Form .value) : Form .value :=
    .call (.function .lexical ⟨4⟩) (.arg argument none .noArgs) false ⟨0⟩
  .forLoop (.push (.var ⟨1⟩ false)) (call (call exits)) ⟨0⟩ ⟨2⟩ ⟨0⟩

def leaveFromCallsUnit : CodeUnit where
  name := none
  instructions := leaveFromCalls.code ++ [.ret]
  labels := [some 15, some 8, some 9]

def leaveFromCallsPool : Pool :=
  ⟨[.expr (.symbol "for"), .symbol "x", .symbol "i", .symbol "c", .symbol "f"]⟩

/-- Both calls are open where the loop is left, and the edge leads to the end of the loop. -/
theorem structured_compiles_leaveFromCalls :
    leaveFromCalls.Makes leaveFromCallsUnit leaveFromCallsPool ∧
    ∃ g s t, leaveFromCallsUnit.compile leaveFromCallsPool {} = .ok g ∧
      leaveFromCallsUnit.Lowers leaveFromCallsPool .function 6 (.leaveLoop .leave) s ∧
      s.calls.length = 2 ∧
      leaveFromCallsUnit.Lowers leaveFromCallsPool .function 15 (.endLoop .forEach) t ∧
      g.successorsOf s.draft.cursor = [t.draft.cursor] := by
  have makes : leaveFromCalls.Makes leaveFromCallsUnit leaveFromCallsPool := by decide +kernel
  have visited : ∃ s ∈ leaveFromCallsUnit.arrival? leaveFromCallsPool .function 6,
      s.live = true ∧ s.calls.length = 2 := by
    decide +kernel
  obtain ⟨s, arrives, live, calls⟩ := visited
  have lowers : leaveFromCallsUnit.Lowers leaveFromCallsPool .function 6 (.leaveLoop .leave) s :=
    CodeUnit.lowers_of_arrival rfl arrives live
  obtain ⟨g, h, routed⟩ := structured_compiles {} makes
  obtain ⟨o, e, kind, b, loop, edge, t, ends, rfl⟩ := routed 6 .leave s lowers
  -- the innermost loop is the one opened at 1
  obtain ⟨here, at_6, found⟩ := loop.innermost
  cases at_6
  cases found
  obtain ⟨i, l, get, -, label, bound⟩ := loop.ends
  cases get
  cases label
  cases bound
  exact ⟨makes, g, s, t, h, lowers, calls, ends, edge⟩

end StackLift
