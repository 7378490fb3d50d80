import StackLift.Proofs.Core.Machine
import StackLift.Proofs.Emission

/-!
Call assembly. Between the instruction that opens a call and the one that closes it, arguments are
added, and their values may be the results of further calls, to any depth. Nested calls share one
stack of open calls and hand their results over on the operand stack, yet what each call becomes is
said at its own level alone (`CallCode.Assembles`): one call operation, on the arguments added at
that level, in order. Main statement: where every value is taken and every argument is added at the
level it belongs to (`CallCode.counts?`), the pass lowers the code to just these operations
(`calls_assembled`).
-/

namespace StackLift

/-! ### Code -/

/-- Code in which calls are nested: instructions that stay at their level, and calls with the code
between their two ends. -/
inductive CallCode where
  | done
  | act (i : Instruction) (rest : CallCode)
  | call (opens : Instruction) (inside : CallCode) (builtin : Bool) (site : PoolIndex)
      (rest : CallCode)

namespace CallCode

/-- The instructions in their order. -/
@[simp] def code : CallCode → List Instruction
  | .done => []
  | .act i rest => i :: rest.code
  | .call opens inside builtin site rest =>
    opens :: (inside.code ++ .finishCall builtin site :: rest.code)

/-- How many calls there are, at all levels. -/
@[simp] def brackets : CallCode → Nat
  | .done => 0
  | .act _ rest => rest.brackets
  | .call _ inside _ _ rest => inside.brackets + 1 + rest.brackets

end CallCode

/-- What an instruction does at the level it stands at. -/
inductive CallItem where
  /-- Computes a value, which waits to be taken. -/
  | value (op : Op)
  /-- Computes a value and adds it to the call. -/
  | argument (op : Op)
  /-- Adds an argument without a value. -/
  | mark (a : ArgValue)
  /-- Adds the newest value that waits. -/
  | pushed
  /-- Names the argument added last. -/
  | tag (name : String)

/-- Where the function to call comes from. -/
inductive CallOpener where
  | lookedUp (name : String) (lookup : FunLookup)
  | builtin (name : String)
  /-- The newest value that waits. -/
  | computed

namespace Instruction

/-- What an instruction does at its level, if it belongs there and its constants are valid. -/
def item? (pool : Pool) : Instruction → Option CallItem
  | .load literal => if literal.isIn pool then some (.value (.const literal)) else none
  | .getVar symbol missingOk =>
    (pool.symbol symbol).toOption.map fun name => .value (.ldVar name .current missingOk)
  | .getDots symbol missingOk =>
    (pool.symbol symbol).toOption.map fun name => .value (.ldDots name missingOk)
  | .callSpecial call => (pool.expr call).toOption.map fun _ => .value (.callSpecial (.pool call))
  | .makeClosure code => (pool.code code).toOption.map fun _ => .value (.mkClosure code)
  | .makePromise code => (pool.code code).toOption.map fun _ => .argument (.mkPromise code)
  | .pushLiteral literal => if literal.isIn pool then some (.argument (.const literal)) else none
  | .doMissing => some (.mark .missing)
  | .doDots => some (.mark .dots)
  | .pushArg => some .pushed
  | .setTag symbol => (pool.symbol symbol).toOption.map .tag
  | _ => none

/-- Where the function comes from, if the instruction opens a call and its constant is valid. -/
def opener? (pool : Pool) : Instruction → Option CallOpener
  | .getFun lookup symbol => (pool.symbol symbol).toOption.map (.lookedUp · lookup)
  | .getBuiltin _ symbol => (pool.symbol symbol).toOption.map .builtin
  | .checkFun => some .computed
  | _ => none

end Instruction

/-! ### Proper nesting -/

/-- How many values wait at a level, and how many arguments its call has; outside of calls there is
none to count them. -/
structure CallCounts where
  waiting : Nat
  args : Option Nat
deriving DecidableEq

/-- A value is taken where one waits, an argument is added to a call, and the argument that is
named is there. -/
def CallItem.counts? : CallItem → CallCounts → Option CallCounts
  | .value _, ⟨w, a⟩ => some ⟨w + 1, a⟩
  | .argument _, ⟨w, some a⟩ | .mark _, ⟨w, some a⟩ => some ⟨w, some (a + 1)⟩
  | .pushed, ⟨w + 1, some a⟩ => some ⟨w, some (a + 1)⟩
  | .tag _, ⟨w, some (a + 1)⟩ => some ⟨w, some (a + 1)⟩
  | _, _ => none

def CallOpener.counts? : CallOpener → CallCounts → Option CallCounts
  | .computed, ⟨w + 1, a⟩ => some ⟨w, a⟩
  | .computed, ⟨0, _⟩ => none
  | _, k => some k

/-- The counts after code that is properly nested and has valid constants. A call begins with
nothing at its own level, ends when nothing waits there, and leaves one value. -/
@[simp] def CallCode.counts? (pool : Pool) : CallCode → CallCounts → Option CallCounts
  | .done, k => some k
  | .act i rest, k => do
    let item ← i.item? pool
    let k ← item.counts? k
    rest.counts? pool k
  | .call opens inside _ site rest, k => do
    let opener ← opens.opener? pool
    let k ← opener.counts? k
    let _ ← (pool.expr site).toOption
    match ← inside.counts? pool ⟨0, some 0⟩ with
    | ⟨0, some _⟩ => rest.counts? pool ⟨k.waiting + 1, k.args⟩
    | _ => none

/-! ### What the code becomes -/

/-- What there is at one level: the values that wait, the newest first, and the arguments of its
call, if it is inside of one. -/
structure CallLevel where
  waiting : List ValueId
  args : Option (List CallArg)

def CallLevel.counts (l : CallLevel) : CallCounts := ⟨l.waiting.length, l.args.map List.length⟩

/-- What an instruction emits where the next value is the `n`-th, and what it does to its level. -/
inductive CallItem.Takes (n : Nat) : CallItem → CallLevel → List Op → CallLevel → Prop
  | value {op : Op} {w : List ValueId} {a : Option (List CallArg)} :
      Takes n (.value op) ⟨w, a⟩ [op] ⟨⟨n⟩ :: w, a⟩
  | argument {op : Op} {w : List ValueId} {args : List CallArg} :
      Takes n (.argument op) ⟨w, some args⟩ [op] ⟨w, some (args ++ [⟨.value ⟨n⟩, none⟩])⟩
  | mark {a : ArgValue} {w : List ValueId} {args : List CallArg} :
      Takes n (.mark a) ⟨w, some args⟩ [] ⟨w, some (args ++ [⟨a, none⟩])⟩
  | pushed {v : ValueId} {w : List ValueId} {args : List CallArg} :
      Takes n .pushed ⟨v :: w, some args⟩ [] ⟨w, some (args ++ [⟨.value v, none⟩])⟩
  | tag {name : String} {w : List ValueId} {args : List CallArg} {last : CallArg} :
      Takes n (.tag name) ⟨w, some (args ++ [last])⟩ []
        ⟨w, some (args ++ [⟨last.value, some name⟩])⟩

/-- What opening a call emits, which function is called, and what is left at the level. -/
inductive CallOpener.Opens (n : Nat) : CallOpener → CallLevel → List Op → Callee → CallLevel → Prop
  | lookedUp {name : String} {lookup : FunLookup} {l : CallLevel} :
      Opens n (.lookedUp name lookup) l [.ldFun name lookup] (.value ⟨n⟩) l
  | builtin {name : String} {l : CallLevel} : Opens n (.builtin name) l [] (.builtin name) l
  | computed {v : ValueId} {w : List ValueId} {a : Option (List CallArg)} :
      Opens n .computed ⟨v :: w, a⟩ [] (.value v) ⟨w, a⟩

/-- The operations that code becomes where the next value is the `n`-th, and what it does to the
level it stands at. Of a call, the level sees the result only. The call is emitted at its end, after
the marks that stand for arguments left out and for `...`, on the arguments of its own level. -/
inductive CallCode.Assembles (pool : Pool) :
    CallCode → Nat → CallLevel → List Op → CallLevel → Prop
  | done {n : Nat} {l : CallLevel} : Assembles pool .done n l [] l
  | act {i : Instruction} {rest : CallCode} {n : Nat} {item : CallItem} {l l' l'' : CallLevel}
      {ops ops' : List Op} (does : i.item? pool = some item) (takes : item.Takes n l ops l')
      (goesOn : Assembles pool rest (n + ops.length) l' ops' l'') :
      Assembles pool (.act i rest) n l (ops ++ ops') l''
  | call {opens : Instruction} {inside rest : CallCode} {builtin : Bool} {site : PoolIndex}
      {n m : Nat} {opener : CallOpener} {callee : Callee} {args : List CallArg}
      {l l' l'' : CallLevel} {before body ops : List Op}
      (does : opens.opener? pool = some opener) (opened : opener.Opens n l before callee l')
      (own : Assembles pool inside (n + before.length) ⟨[], some []⟩ body ⟨[], some args⟩)
      (closes : m = n + before.length + body.length)
      (goesOn : Assembles pool rest (m + (PendingCall.ops ⟨callee, args⟩ m (.pool site)).length)
        ⟨PendingCall.result ⟨callee, args⟩ m :: l'.waiting, l'.args⟩ ops l'') :
      Assembles pool (.call opens inside builtin site rest) n l
        (before ++ body ++ PendingCall.ops ⟨callee, args⟩ m (.pool site) ++ ops) l''

/-- The operation is a call of a function or of a builtin. -/
def Op.isCall : Op → Bool
  | .call _ _ _ | .namedCall _ _ _ _ | .callBuiltin _ _ _ => true
  | _ => false

/-- Only the end of a call emits a call. -/
theorem CallItem.Takes.countP_isCall {pool : Pool} {i : Instruction} {item : CallItem} {n : Nat}
    {l l' : CallLevel} {ops : List Op} (takes : item.Takes n l ops l')
    (does : i.item? pool = some item) : ops.countP Op.isCall = 0 := by
  have plain {op : Op} (made : item = .value op ∨ item = .argument op) : op.isCall = false := by
    cases i with
    | load literal | pushLiteral literal =>
        rw [Instruction.item?] at does
        split at does <;> cases does
        rcases made with made | made <;> cases made
        rfl
    | getVar symbol b | getDots symbol b | callSpecial symbol | makeClosure symbol
    | makePromise symbol | setTag symbol =>
        obtain ⟨_, -, rfl⟩ := Option.map_eq_some_iff.mp does
        rcases made with made | made <;> cases made <;> rfl
    | doMissing | doDots | pushArg =>
        cases does
        rcases made with made | made <;> cases made
    | _ => cases does
  cases takes with
  | value => rw [List.countP_singleton, plain (.inl rfl)]; rfl
  | argument => rw [List.countP_singleton, plain (.inr rfl)]; rfl
  | mark | pushed | tag => rfl

theorem CallArg.countP_isCall_marks (args : List CallArg) :
    (CallArg.marks args).countP Op.isCall = 0 := by
  rw [List.countP_eq_zero]
  intro op mem
  obtain ⟨a, -, mark⟩ := List.mem_filterMap.mp mem
  cases value : a.value <;> rw [value] at mark <;> cases mark <;> simp [Op.isCall]

theorem PendingCall.countP_isCall_ops (c : PendingCall) (n : Nat) (site : CallSite) :
    (c.ops n site).countP Op.isCall = 1 := by
  have isCall (args : List ValueId) : (c.op args site).isCall = true := by
    rw [PendingCall.op]
    cases c.callee with
    | builtin name => rfl
    | value callee =>
        simp only
        split <;> rfl
  rw [PendingCall.ops, List.countP_append, CallArg.countP_isCall_marks, List.countP_singleton,
    isCall]
  rfl

/-- There is one call operation for each call of the code. -/
theorem CallCode.Assembles.countP_isCall {pool : Pool} {c : CallCode} {n : Nat} {l l' : CallLevel}
    {ops : List Op} (assembles : c.Assembles pool n l ops l') :
    ops.countP Op.isCall = c.brackets := by
  induction assembles with
  | done => rfl
  | act does takes _ ih =>
      rw [List.countP_append, takes.countP_isCall does, ih, Nat.zero_add]
      rfl
  | @call opens inside rest builtin site n m opener callee args l l' l'' before body ops does
      opened _ _ _ inner outer =>
      have none : before.countP Op.isCall = 0 := by
        cases opened <;> rfl
      simp only [List.countP_append, none, inner, outer, PendingCall.countP_isCall_ops, brackets,
        Nat.zero_add]

/-! ### The pass -/

namespace CallItem

/-- What the pass does at an instruction of call code. -/
def lower : CallItem → Lowering Unit
  | .value op => do
    let _ ← Lowering.pushOp op
  | .argument op => Lowering.addOpArg op
  | .mark a => Lowering.modifyCall (·.addArg { value := a })
  | .pushed => Lowering.addPopped
  | .tag name => Lowering.updateCall (·.nameLast name)

end CallItem

/-- What is outside of a level: the function its call is of, and the stack, the calls and the
assignments below it. -/
structure Outside where
  callee : Callee
  stack : List ValueId
  calls : List PendingCall
  assigns : List PendingAssign

namespace CallLevel

/-- The calls that are open at a level. -/
def calls (l : CallLevel) (o : Outside) : List PendingCall :=
  match l.args with
  | some args => ⟨o.callee, args⟩ :: o.calls
  | none => o.calls

/-- A level is outside of the calls that begin there. -/
def outside (l : CallLevel) (o : Outside) (callee : Callee) : Outside :=
  ⟨callee, l.waiting ++ o.stack, l.calls o, o.assigns⟩

/-- The pass stands at a level: its values are on top of the stack, and its call is the innermost
one. -/
structure At (l : CallLevel) (o : Outside) (s : State) : Prop where
  stack : s.stack = ⟨l.waiting ++ o.stack⟩
  calls : s.calls = l.calls o
  assigns : s.assigns = o.assigns

end CallLevel

namespace Lowering

variable {ctx : Context} {offset : Nat} {s : State} {l l' : CallLevel} {o : Outside} {ops : List Op}

theorem checkLiteral_of_isIn {literal : Literal} (isIn : literal.isIn ctx.pool = true)
    (s : State) : checkLiteral ctx literal s = .ok () s := by
  cases literal with
  | pool index =>
      obtain ⟨c, found⟩ := Option.isSome_iff_exists.mp isIn
      exact bind_eq_ok_iff.mpr ⟨c, s, constant_eq_ok found s, rfl⟩
  | null => rfl
  | logical b => rfl

theorem lower_of_item {i : Instruction} {item : CallItem} (does : i.item? ctx.pool = some item)
    (s : State) : lower ctx offset i s = item.lower s := by
  cases i with
  | load literal | pushLiteral literal =>
      rw [Instruction.item?] at does
      split at does <;> cases does
      next isIn => exact bind_of_ok (checkLiteral_of_isIn isIn s)
  | getVar symbol b | getDots symbol b | makeClosure symbol | makePromise symbol | setTag symbol =>
      obtain ⟨_, found, rfl⟩ := Option.map_eq_some_iff.mp does
      exact bind_of_ok (constant_eq_ok found s)
  | callSpecial call =>
      obtain ⟨_, found, rfl⟩ := Option.map_eq_some_iff.mp does
      exact bind_of_ok (bind_of_ok (constant_eq_ok found s))
  | doMissing | doDots | pushArg =>
      cases does
      rfl
  | _ => cases does

theorem diverts_of_item {i : Instruction} {item : CallItem} {pool : Pool}
    (does : i.item? pool = some item) : i.diverts = false := by
  cases i with
  | goto | ret | returnJump | switch | leaveLoop | stepFor => cases does
  | _ => rfl

theorem diverts_of_opener {i : Instruction} {opener : CallOpener} {pool : Pool}
    (does : i.opener? pool = some opener) : i.diverts = false := by
  cases i with
  | goto | ret | returnJump | switch | leaveLoop | stepFor => cases does
  | _ => rfl

/-- An instruction does to the state what it does to its level. -/
theorem exists_lower_of_takes {item : CallItem} (unended : s.draft.Unended) (at_ : l.At o s)
    (takes : item.Takes s.made l ops l') :
    ∃ t, item.lower s = .ok () t ∧ s.Emits ops t ∧ l'.At o t := by
  obtain ⟨stack, calls, assigns⟩ := at_
  obtain ⟨d, ⟨items⟩, loops, open_, assigns, dispatches, depths, live⟩ := s
  cases stack
  cases calls
  cases assigns
  cases takes with
  | value => exact ⟨_, bind_of_ok (bind_of_ok (emit_of_unended unended _)), rfl, rfl, rfl, rfl⟩
  | argument =>
      exact ⟨_, (bind_of_ok rfl).trans (bind_of_ok (emit_of_unended unended _)), rfl, rfl, rfl, rfl⟩
  | mark => exact ⟨_, rfl, rfl, rfl, rfl, rfl⟩
  | pushed => exact ⟨_, rfl, rfl, rfl, rfl, rfl⟩
  | @tag name w args last =>
      have named : PendingCall.nameLast ⟨o.callee, args ++ [last]⟩ name =
          .ok ⟨o.callee, args ++ [⟨last.value, some name⟩]⟩ := by
        simp [PendingCall.nameLast]
      simp only [CallItem.lower, updateCall, Bracket.updateTop, named]
      exact ⟨_, rfl, rfl, rfl, rfl, rfl⟩

/-- Opening a call begins a level of its own. -/
theorem exists_lower_of_opens {i : Instruction} {opener : CallOpener} {callee : Callee}
    (offset : Nat) (unended : s.draft.Unended) (at_ : l.At o s)
    (does : i.opener? ctx.pool = some opener)
    (opens : opener.Opens s.made l ops callee l') : ∃ t, lower ctx offset i s = .ok () t ∧
      s.Emits ops t ∧ CallLevel.At ⟨[], some []⟩ (l'.outside o callee) t := by
  obtain ⟨stack, calls, assigns⟩ := at_
  obtain ⟨d, ⟨items⟩, loops, open_, assigns, dispatches, depths, live⟩ := s
  cases stack
  cases calls
  cases assigns
  cases i with
  | getFun lookup symbol =>
      obtain ⟨name, found, rfl⟩ := Option.map_eq_some_iff.mp does
      cases opens
      exact ⟨_, (bind_of_ok (constant_eq_ok found _)).trans
        (bind_of_ok (emit_of_unended unended _)), rfl, rfl, rfl, rfl⟩
  | getBuiltin internal symbol =>
      obtain ⟨name, found, rfl⟩ := Option.map_eq_some_iff.mp does
      cases opens
      exact ⟨_, bind_of_ok (constant_eq_ok found _), rfl, rfl, rfl, rfl⟩
  | checkFun =>
      cases does
      cases opens
      exact ⟨_, rfl, rfl, rfl, rfl, rfl⟩
  | _ => cases does

/-- Closing a call emits it on the arguments of its level, and hands its value out. -/
theorem exists_lower_finishCall {callee : Callee} {args : List CallArg} {site : PoolIndex}
    {e : Expr} (offset : Nat) (builtin : Bool) (unended : s.draft.Unended)
    (at_ : CallLevel.At ⟨[], some args⟩ (l.outside o callee) s)
    (found : (ctx.pool.expr site).toOption = some e) :
    ∃ t, lower ctx offset (.finishCall builtin site) s = .ok () t ∧
      s.Emits (PendingCall.ops ⟨callee, args⟩ s.made (.pool site)) t ∧
      CallLevel.At ⟨PendingCall.result ⟨callee, args⟩ s.made :: l.waiting, l.args⟩ o t := by
  obtain ⟨stack, calls, assigns⟩ := at_
  obtain ⟨d, ⟨items⟩, loops, open_, assigns, dispatches, depths, live⟩ := s
  cases stack
  cases calls
  cases assigns
  have unended : d.Unended := unended
  have looked (s : State) : ctx.site site s = .ok (.pool site) s :=
    bind_of_ok (constant_eq_ok found s)
  exact ⟨_, (bind_of_ok rfl).trans ((bind_of_ok (looked _)).trans
    (bind_of_ok (emitCall_eq unended _ _))), rfl, rfl, rfl, rfl⟩

/-- Where the counts fit, an instruction has its effect on the level. -/
theorem exists_takes {item : CallItem} {k : CallCounts} (fits : item.counts? l.counts = some k)
    (n : Nat) : ∃ ops l', item.Takes n l ops l' ∧ l'.counts = k := by
  obtain ⟨w, a⟩ := l
  cases item with
  | value op =>
      cases fits
      exact ⟨_, _, .value, rfl⟩
  | argument op =>
      cases a with
      | none => cases fits
      | some args =>
          cases fits
          exact ⟨_, _, .argument, by simp [CallLevel.counts]⟩
  | mark value =>
      cases a with
      | none => cases fits
      | some args =>
          cases fits
          exact ⟨_, _, .mark, by simp [CallLevel.counts]⟩
  | pushed =>
      rcases w with _ | ⟨v, w⟩
      · cases a <;> cases fits
      cases a with
      | none => cases fits
      | some args =>
          cases fits
          exact ⟨_, _, .pushed, by simp [CallLevel.counts]⟩
  | tag name =>
      cases a with
      | none => cases fits
      | some args =>
          rcases List.eq_nil_or_concat args with rfl | ⟨args, last, rfl⟩
          · cases fits
          · rw [List.concat_eq_append] at fits ⊢
            refine ⟨_, _, .tag, ?_⟩
            simp only [CallLevel.counts, Option.map_some, List.length_append,
              List.length_singleton] at fits ⊢
            exact Option.some.inj fits

theorem exists_opens {opener : CallOpener} {k : CallCounts}
    (fits : opener.counts? l.counts = some k) (n : Nat) :
    ∃ ops new l', opener.Opens n l ops new l' ∧ l'.counts = k := by
  obtain ⟨w, a⟩ := l
  cases opener with
  | lookedUp name lookup =>
      cases fits
      exact ⟨_, _, _, .lookedUp, rfl⟩
  | builtin name =>
      cases fits
      exact ⟨_, _, _, .builtin, rfl⟩
  | computed =>
      rcases w with _ | ⟨v, w⟩
      · cases fits
      · cases fits
        exact ⟨_, _, _, .computed, rfl⟩

/-- Code that is properly nested is assembled from any level on, whatever is outside of it. -/
theorem exists_assembles (c : CallCode) {k : CallCounts} (offset : Nat) (unended : s.draft.Unended)
    (at_ : l.At o s) (fits : c.counts? ctx.pool l.counts = some k) :
    ∃ ops l' t, c.Assembles ctx.pool s.made l ops l' ∧ l'.counts = k ∧
      Emission ctx offset c.code s ops t ∧ l'.At o t := by
  induction c generalizing offset s l k o with
  | done =>
      cases fits
      exact ⟨[], l, s, .done, rfl, .nil offset s, at_⟩
  | act i rest ih =>
      obtain ⟨item, does, fits⟩ := Option.bind_eq_some_iff.mp fits
      obtain ⟨k₁, counts, fits⟩ := Option.bind_eq_some_iff.mp fits
      obtain ⟨ops, l₁, takes, rfl⟩ := exists_takes counts s.made
      obtain ⟨t, lowers, emits, at_t⟩ := exists_lower_of_takes unended at_ takes
      obtain ⟨ops', l', u, assembles, counts', emission, at_u⟩ :=
        ih (offset + 1) (emits.unended unended) at_t fits
      rw [emits.made] at assembles
      exact ⟨ops ++ ops', l', u, .act does takes assembles, counts',
        .cons (diverts_of_item does) ((lower_of_item does s).trans lowers) emits emission, at_u⟩
  | call opens inside builtin site rest inner after =>
      obtain ⟨opener, does, fits⟩ := Option.bind_eq_some_iff.mp fits
      obtain ⟨k₁, counts, fits⟩ := Option.bind_eq_some_iff.mp fits
      obtain ⟨e, found, fits⟩ := Option.bind_eq_some_iff.mp fits
      obtain ⟨k₂, ownCounts, fits⟩ := Option.bind_eq_some_iff.mp fits
      obtain ⟨before, callee, l₁, opened, rfl⟩ := exists_opens counts s.made
      obtain ⟨t₁, lowers, emits, at_t₁⟩ := exists_lower_of_opens offset unended at_ does opened
      have unended₁ := emits.unended unended
      -- the code inside begins with nothing at its level, and this level is outside of it
      obtain ⟨body, ⟨w, a⟩, t₂, own, rfl, emission, at_t₂⟩ :=
        inner (offset + 1) unended₁ at_t₁ ownCounts
      have unended₂ := emission.emits.unended unended₁
      rw [emits.made] at own
      -- at its end nothing waits there, and this level gets the result
      rcases w with _ | ⟨v, w⟩
      case cons => cases fits
      rcases a with _ | args
      case none => cases fits
      obtain ⟨t₃, closes, emits', at_t₃⟩ :=
        exists_lower_finishCall (offset + 1 + inside.code.length) builtin unended₂ at_t₂ found
      obtain ⟨ops, l', t₄, assembles, counts', emission', at_t₄⟩ :=
        after (offset + 1 + inside.code.length + 1) (emits'.unended unended₂) at_t₃ fits
      have m : t₂.made = s.made + before.length + body.length := by
        rw [emission.emits.made, emits.made]
      rw [emits'.made, m] at assembles
      rw [m] at emits'
      refine ⟨_, l', t₄, .call does opened own rfl assembles, counts', ?_, at_t₄⟩
      rw [List.append_assoc, List.append_assoc]
      exact .cons (diverts_of_opener does) lowers emits
        (emission.append (.cons rfl closes emits' emission'))

/-- A state outside of every call of the code. -/
theorem at_outermost (s : State) (callee : Callee) :
    CallLevel.At ⟨[], none⟩ ⟨callee, s.stack.items, s.calls, s.assigns⟩ s := ⟨rfl, rfl, rfl⟩

end Lowering

open Lowering

/-- Call assembly loses, duplicates and reorders nothing. Properly nested code that leaves one value
is lowered from every live state. The value is on top of the stack, the open calls are those from
before, and what was emitted are the operations that the code assembles to, with one call operation
for each call.

The block has no end, which is checked for every statement; every live state of a pass has such a
block (`Lowering.Arrived.poised`). -/
theorem calls_assembled {ctx : Context} {c : CallCode} {offset : Nat} {s₀ s : State}
    (fits : c.counts? ctx.pool ⟨0, none⟩ = some ⟨1, none⟩)
    (arrives : arrive ctx offset s₀ = .ok () s) (live : s.live = true) (unended : s.draft.Unended)
    (straight : ∀ k, offset < k → k < offset + c.code.length → ctx.labels.blockAt? k = none) :
    ∃ ops v, c.Assembles ctx.pool s.draft.graph.values.length ⟨[], none⟩ ops ⟨[v], none⟩ ∧
      ops.countP Op.isCall = c.brackets ∧
      run ctx offset c.code s₀ = .ok
        { s with draft := s.draft.emitAll ops, stack := s.stack.push v } := by
  obtain ⟨ops, ⟨w, a⟩, t, assembles, counts, emission, stack, calls, assigns⟩ :=
    exists_assembles c offset unended (at_outermost s (.builtin "")) fits
  obtain ⟨one, none⟩ := CallCounts.mk.inj counts
  obtain ⟨v, rfl⟩ := List.length_eq_one_iff.mp one
  cases Option.map_eq_none_iff.mp none
  have some : c.code ≠ [] := by
    rintro empty
    cases c <;> cases empty
    cases fits
  refine ⟨ops, v, assembles, assembles.countP_isCall, ?_⟩
  rw [emission.run some arrives live straight, emission.emits, stack, calls, assigns]
  rfl

/-- `f(a = <promise>, , b = ..., g(NULL)(TRUE))`, where `...` is named twice. -/
def mixedCall : CallCode :=
  .call (.getFun .lexical ⟨0⟩)
    (.act (.makePromise ⟨4⟩) <| .act (.setTag ⟨2⟩) <| .act .doMissing <| .act .doDots <|
      .act (.setTag ⟨2⟩) <| .act (.setTag ⟨3⟩) <|
      .call (.getFun .global ⟨1⟩) (.act (.pushLiteral .null) .done) false ⟨5⟩ <|
      .call .checkFun (.act (.pushLiteral (.logical true)) .done) false ⟨5⟩ <|
      .act .pushArg .done)
    false ⟨5⟩ .done

def mixedCallPool : Pool where
  entries := [.symbol "f", .symbol "g", .symbol "a", .symbol "b",
    .code { name := none, instructions := [.load .null, .ret], labels := [] },
    .expr (.symbol "f")]

theorem calls_assembled_mixedCall :
    mixedCall.counts? mixedCallPool ⟨0, none⟩ = some ⟨1, none⟩ ∧ ∃ ops v,
      mixedCall.Assembles mixedCallPool 0 ⟨[], none⟩ ops ⟨[v], none⟩ ∧
      ops.countP Op.isCall = 3 ∧
      run ⟨mixedCallPool, {}, .function⟩ 0 mixedCall.code { draft := .new "unit" } = .ok
        { draft := (Draft.new "unit").emitAll ops, stack := ⟨[v]⟩ } := by
  have fits : mixedCall.counts? mixedCallPool ⟨0, none⟩ = some ⟨1, none⟩ := by decide +kernel
  have arrives : arrive ⟨mixedCallPool, {}, .function⟩ 0 { draft := .new "unit" } =
      .ok () { draft := .new "unit" } := rfl
  exact ⟨fits, calls_assembled fits arrives rfl rfl fun _ _ _ => rfl⟩

/-- The outer call is emitted last, on its own four arguments and with their names. -/
example :
    (run ⟨mixedCallPool, {}, .function⟩ 0 mixedCall.code { draft := .new "unit" }).toOption.map
      (fun s => ((s.draft.graph.block? ⟨0⟩).map (·.stmts.map Stmt.op), s.stack.items)) =
    some (some [.ldFun "f" .lexical, .mkPromise ⟨4⟩, .ldFun "g" .global, .const .null,
      .call ⟨2⟩ [⟨3⟩] (.pool ⟨5⟩), .const (.logical true), .call ⟨4⟩ [⟨5⟩] (.pool ⟨5⟩), .missingArg,
      .expandDots,
      .namedCall ⟨0⟩ [⟨1⟩, ⟨7⟩, ⟨8⟩, ⟨6⟩] [some "a", none, some "b", none] (.pool ⟨5⟩)],
      [⟨9⟩]) := by
  decide +kernel

end StackLift
