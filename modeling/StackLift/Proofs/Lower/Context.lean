import StackLift.Proofs.Lower.Unit

/-!
What lowering reads of its context. It looks up constants, the blocks of labels, and the blocks
that stand at its own offset and at the next one; so a pass over moved code, with its labels
moved along, goes the same way. The kind of the unit only decides with which fault `break` and
`next` fail outside of a loop, so what succeeds in a unit of one kind succeeds in any other.
-/

namespace StackLift

/-- Two contexts have the same constants, and their labels lead to the same blocks. -/
structure Context.Agrees (ctx ctx' : Context) : Prop where
  pool : ctx'.pool = ctx.pool
  block : ∀ l, ctx'.labels.block l = ctx.labels.block l

/-- The instruction leaves a loop, and none is open. -/
def Instruction.Strays (i : Instruction) (s : State) : Prop :=
  (∃ exit, i = .leaveLoop exit) ∧ s.loops = []

/-- The fault of an instruction that strays. In a promise it belongs to a loop of the function
that the promise was passed from, which is not supported; elsewhere it has no loop to leave. -/
def UnitKind.strayFault : UnitKind → Fault
  | .promise => .unsupported .leavesCallersLoop
  | .function | .topLevel => .bracketUnderflow .loop

theorem Context.agrees_kind (pool : Pool) (labels : LabelMap) (kind kind' : UnitKind) :
    Context.Agrees ⟨pool, labels, kind⟩ ⟨pool, labels, kind'⟩ :=
  ⟨rfl, fun _ => rfl⟩

namespace Lowering

variable {ctx ctx' : Context} {offset offset' : Nat} {s s' : State}

/-! ### Leaving a loop -/

theorem leaveLoop_of_loop (exit : LoopExit) (some : s.loops ≠ []) :
    leaveLoop ctx' exit s = leaveLoop ctx exit s := by
  rw [leaveLoop, leaveLoop]
  change EStateM.bind _ _ s = EStateM.bind _ _ s
  simp only [EStateM.bind, current]
  cases loops : s.loops with
  | nil => exact absurd loops some
  | cons loop rest => rfl

theorem lower_of_strays {i : Instruction} (strays : i.Strays s) :
    lower ctx offset i s = .error ctx.kind.strayFault s := by
  obtain ⟨⟨exit, rfl⟩, none⟩ := strays
  rw [lower, leaveLoop]
  change EStateM.bind _ _ s = _
  simp only [EStateM.bind, current, none]
  cases ctx.kind <;> rfl

/-! ### One instruction -/

section

variable (agrees : ctx.Agrees ctx')

include agrees

theorem target_congr (l : Label) : ctx'.target l = ctx.target l := by
  rw [Context.target, Context.target, agrees.block l]

theorem symbol_congr (i : PoolIndex) : ctx'.symbol i = ctx.symbol i := by
  rw [Context.symbol, Context.symbol, agrees.pool]

theorem site_congr (call : PoolIndex) : ctx'.site call = ctx.site call := by
  rw [Context.site, Context.site, agrees.pool]

theorem checkLiteral_congr (literal : Literal) :
    checkLiteral ctx' literal = checkLiteral ctx literal := by
  cases literal with
  | pool index => rw [checkLiteral, checkLiteral, agrees.pool]
  | null => rfl
  | logical b => rfl

theorem targetsOf_congr (labels : List Label) : targetsOf ctx' labels = targetsOf ctx labels := by
  induction labels with
  | nil => rfl
  | cons l rest ih => rw [targetsOf, targetsOf, target_congr agrees, ih]

theorem jumpTable_congr (table : PoolIndex) : jumpTable ctx' table = jumpTable ctx table := by
  simp only [jumpTable, agrees.pool, targetsOf_congr agrees]

theorem switch_congr (call : PoolIndex) (names chrLabels : Option PoolIndex)
    (numLabels : PoolIndex) :
    switch ctx' call names chrLabels numLabels = switch ctx call names chrLabels numLabels := by
  simp only [switch, agrees.pool, site_congr agrees, jumpTable_congr agrees]

/-- An instruction is lowered in the same way when also the code after it begins in the same
block. -/
theorem lower_eq_of_agrees {i : Instruction}
    (next : ctx'.labels.blockAt? (offset' + 1) = ctx.labels.blockAt? (offset + 1))
    (stays : ¬ i.Strays s) : lower ctx' offset' i s = lower ctx offset i s := by
  have target := target_congr agrees
  have symbol := symbol_congr agrees
  have site := site_congr agrees
  have literal := checkLiteral_congr agrees
  have pool := agrees.pool
  cases i with
  | leaveLoop exit => exact leaveLoop_of_loop exit fun none => stays ⟨⟨exit, rfl⟩, none⟩
  | switch call names chrLabels numLabels => rw [lower, lower, switch_congr agrees]
  | load l => simp only [lower, literal]
  | getVar i missingOk => simp only [lower, loadVar, symbol]
  | getDots i missingOk => simp only [lower, loadDots, symbol]
  | setVar scope i => simp only [lower, storeVar, symbol]
  | goto l => simp only [lower, target]
  | branchIfNot call l => simp only [lower, branchIfNot, site, target]
  | logicFirst connective call l => simp only [lower, logicFirst, site, target]
  | logicSecond connective call => simp only [lower, logicSecond, site]
  | startLoop l => simp only [lower, startLoop, blockAfter, target, next]
  | startFor call i l => simp only [lower, startFor, symbol, target, pool]
  | getFun lookup i => simp only [lower, beginCall, startCall, symbol]
  | getBuiltin internal i => simp only [lower, beginCall, startBuiltin, symbol]
  | makePromise code => simp only [lower, addPromise, pool]
  | setTag i => simp only [lower, nameLastArg, symbol]
  | pushLiteral l => simp only [lower, addLiteral, literal]
  | finishCall builtin call => simp only [lower, finishCall, site]
  | callSpecial call => simp only [lower, site]
  | makeClosure code => simp only [lower, pool]
  | binary op call => simp only [lower, binary, site]
  | unary op call => simp only [lower, unary, site]
  | startAssign scope i call => simp only [lower, startAssign, symbol, pool]
  | endAssign scope i => simp only [lower, endAssign, symbol]
  | startDispatch kind call after =>
      simp only [lower, openDispatch, Instruction.dispatch?, startDispatch, target, pool]
  | endAccess access =>
      simp only [lower, closeDispatch, Instruction.closingKind?, endDispatch, joinAfter, next]
  | endCombine =>
      simp only [lower, closeDispatch, Instruction.closingKind?, endDispatch, joinAfter, next]
  | endAccessN access count =>
      simp only [lower, closeDispatch, Instruction.closingKind?, endDispatchN, joinAfter, next]
  | _ => rfl

theorem lower_congr {i : Instruction}
    (next : ctx'.labels.blockAt? (offset' + 1) = ctx.labels.blockAt? (offset + 1))
    (h : lower ctx offset i s = .ok () s') : lower ctx' offset' i s = .ok () s' := by
  rw [lower_eq_of_agrees agrees next, h]
  intro strays
  rw [lower_of_strays strays] at h
  cases h

end

/-- What arriving at an offset does depends on the block that stands there. -/
theorem arrive_congr (here : ctx'.labels.blockAt? offset' = ctx.labels.blockAt? offset) :
    arrive ctx' offset' = arrive ctx offset := by
  rw [arrive, arrive, here]

theorem arrive_of_unnamed (unnamed : ctx.labels.blockAt? offset = none) (s : State) :
    arrive ctx offset s = .ok () s := by
  rw [arrive, unnamed]
  rfl

/-- Where no block stands, a step in live code lowers the instruction. -/
theorem step_of_lower {i : Instruction} {s s' : State}
    (unnamed : ctx.labels.blockAt? offset = none) (live : s.live = true)
    (notDiverts : i.diverts = false) (lowered : lower ctx offset i s = .ok () s') :
    step ctx offset i s = .ok () s' := by
  refine step_eq_ok.mpr ⟨s, arrive_of_unnamed unnamed s, .inl ⟨live, s', lowered, ?_⟩⟩
  rw [notDiverts]
  rfl

theorem skip_congr (here : ctx'.labels.blockAt? offset' = ctx.labels.blockAt? offset)
    (i : Instruction) : skip ctx' offset' i = skip ctx offset i := by
  cases i with
  | endLoop kind => simp only [skip, endDeadLoop, here]
  | _ => rfl

/-- A step does the same when also the blocks at its offset and behind it are the same. -/
theorem step_eq_of_agrees {i : Instruction} (agrees : ctx.Agrees ctx')
    (here : ctx'.labels.blockAt? offset' = ctx.labels.blockAt? offset)
    (next : ctx'.labels.blockAt? (offset' + 1) = ctx.labels.blockAt? (offset + 1))
    (stays : ∀ a, arrive ctx offset s = .ok () a → a.live = true → ¬ i.Strays a) :
    step ctx' offset' i s = step ctx offset i s := by
  have arrive := arrive_congr here
  cases arrives : Lowering.arrive ctx offset s with
  | error fault t => rw [step_of_arrive_error arrives, step_of_arrive_error (arrive ▸ arrives)]
  | ok _ a =>
      rw [step_of_arrive arrives, step_of_arrive (arrive ▸ arrives), skip_congr here]
      cases live : a.live with
      | false => rfl
      | true => rw [if_pos rfl, if_pos rfl, lower_eq_of_agrees agrees next (stays a arrives live)]

/-- An instruction that strays stops the pass where it stands. -/
theorem step_of_strays {i : Instruction} {a : State} (arrives : arrive ctx offset s = .ok () a)
    (live : a.live = true) (strays : i.Strays a) :
    step ctx offset i s = .error ctx.kind.strayFault a := by
  rw [step_of_arrive arrives, if_pos live, lower_of_strays strays]

theorem step_congr {i : Instruction} (agrees : ctx.Agrees ctx')
    (here : ctx'.labels.blockAt? offset' = ctx.labels.blockAt? offset)
    (next : ctx'.labels.blockAt? (offset' + 1) = ctx.labels.blockAt? (offset + 1))
    (h : step ctx offset i s = .ok () s') : step ctx' offset' i s = .ok () s' := by
  rw [step_eq_of_agrees agrees here next, h]
  intro a arrives live strays
  rw [step_of_strays arrives live strays] at h
  cases h

/-! ### A run -/

theorem run_cons {i : Instruction} {rest : List Instruction} :
    run ctx offset (i :: rest) s = .ok s' ↔
      ∃ t, step ctx offset i s = .ok () t ∧ run ctx (offset + 1) rest t = .ok s' := by
  rw [run]
  cases step ctx offset i s <;> simp

/-- A run over code that is moved by `shift`. -/
theorem run_congr {code : List Instruction} (shift : Nat) (agrees : ctx.Agrees ctx')
    (moved : ∀ k, offset ≤ k → k ≤ offset + code.length →
      ctx'.labels.blockAt? (k + shift) = ctx.labels.blockAt? k)
    (h : run ctx offset code s = .ok s') : run ctx' (offset + shift) code s = .ok s' := by
  induction code generalizing offset s with
  | nil => exact h
  | cons i rest ih =>
      obtain ⟨t, first, others⟩ := run_cons.mp h
      have here := moved offset (Nat.le_refl _) (Nat.le_add_right _ _)
      have next := moved (offset + 1) (Nat.le_succ _) (by rw [List.length_cons]; omega)
      rw [Nat.add_right_comm] at next
      refine run_cons.mpr ⟨t, step_congr agrees here next first, ?_⟩
      rw [Nat.add_right_comm]
      exact ih (fun k le bound => moved k (Nat.le_of_succ_le le) (by rw [List.length_cons]; omega))
        others

end Lowering

/-- A unit that is lowered as one of some kind is lowered to the same graph as one of any kind. -/
theorem CodeUnit.lower_kind {unit : CodeUnit} {pool : Pool} {kind : UnitKind} {g : Graph}
    (h : unit.lower pool kind = .ok g) (kind' : UnitKind) : unit.lower pool kind' = .ok g := by
  obtain ⟨labels, draft, final, pass, rfl⟩ := CodeUnit.lower_eq_ok.mp h
  have agrees := Context.agrees_kind pool labels kind kind'
  have run := Lowering.run_congr 0 agrees (fun _ _ _ => rfl) pass.run
  exact CodeUnit.lower_eq_ok.mpr ⟨labels, draft, final, ⟨pass.resolve, run, pass.complete⟩, rfl⟩

theorem CodeUnit.compile_kind {unit : CodeUnit} {pool : Pool} {options : Options} {g : Graph}
    (h : unit.compile pool options = .ok g) (kind : UnitKind) :
    unit.compile pool { options with unitKind := kind } = .ok g := by
  obtain ⟨raw, lowered, rfl⟩ := CodeUnit.compile_eq_ok.mp h
  exact CodeUnit.compile_eq_ok.mpr ⟨raw, CodeUnit.lower_kind lowered kind, rfl⟩

end StackLift
