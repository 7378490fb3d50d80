import StackLift.Proofs.Emission

/-!
Complex assignments. `f(g(x, i), j) <- v` reads the value of every inner call of the place, the
innermost first, and then writes every call of the place, the outermost first. While layers are
read, their containers pile up on the operand stack; the setters take them off in the opposite
order. Main statement: for a place of any depth, the getter of each layer is called on the result
of the layer inside it, and the setter on that same container and on the result of the setter
before it (`assigned_in_order`).
-/

namespace StackLift

/-! ### Places -/

/-- A call of a place: a function called by name on the place inside, which may have a name of its
own, and on other arguments. -/
structure PlaceCall where
  fn : String
  tag : Option String
  rest : List Arg

namespace PlaceCall

/-- The place that calls make around a variable, the outermost call first. -/
@[simp] def expr (x : String) : List PlaceCall → Expr
  | [] => .symbol x
  | c :: inner => .call (.symbol c.fn) (⟨c.tag, expr x inner⟩ :: c.rest)

/-- The call as it is made, with `*tmp*` for the place inside. -/
def called (c : PlaceCall) : List Arg := .positional .target :: c.rest

def getterSite (x : String) (c : PlaceCall) (inner : List PlaceCall) : CallSite :=
  .place (expr x (c :: inner)) (.call (.symbol c.fn) c.called)

def setterSite (x : String) (c : PlaceCall) (inner : List PlaceCall) (value : Expr) : CallSite :=
  .place (expr x (c :: inner)) (.call (.symbol (c.fn ++ "<-")) (c.called ++ [.named "value" value]))

/-- The layers of a place. -/
@[simp] def layers (x : String) : List PlaceCall → List Layer
  | [] => []
  | c :: inner => ⟨expr x (c :: inner), .call (.symbol c.fn) c.called⟩ :: layers x inner

theorem layersOf_expr (whole : Expr) (x : String) (calls : List PlaceCall) :
    Place.layersOf whole (expr x calls) = .ok ⟨x, layers x calls⟩ := by
  induction calls with
  | nil => rfl
  | cons c inner ih =>
      simp [Place.layersOf, Place.layersOfCall, Place.layersOfArg, ih, Layer.ofCall, called]

theorem ofExpr_expr {x : String} {calls : List PlaceCall} (some : calls ≠ []) :
    Place.ofExpr (expr x calls) = .ok ⟨x, layers x calls⟩ := by
  cases calls with
  | nil => exact absurd rfl some
  | cons c inner =>
      rw [expr, Place.ofExpr.eq_def]
      exact layersOf_expr _ x (c :: inner)

theorem getElem?_layers {x : String} {calls inner : List PlaceCall} {c : PlaceCall} {k : Nat}
    (drop : calls.drop k = c :: inner) :
    (layers x calls)[k]? = some ⟨expr x (c :: inner), .call (.symbol c.fn) c.called⟩ := by
  induction k generalizing calls with
  | zero =>
      cases drop
      rfl
  | succ k ih =>
      cases calls with
      | nil => cases drop
      | cons c' rest => exact ih drop

end PlaceCall

/-! ### Code -/

/-- The code that opens the call of a layer and adds its arguments. -/
structure AccessCode where
  lookup : FunLookup
  symbol : PoolIndex
  arguments : List Instruction

def AccessCode.opening (a : AccessCode) : List Instruction :=
  .getFun a.lookup a.symbol :: a.arguments

/-- The code of a complex assignment: what pushes the value, and for each layer how it is read and
how it is written. -/
structure AssignCode where
  value : List Instruction
  scope : Scope
  symbol : PoolIndex
  call : PoolIndex
  read : Nat → AccessCode
  write : Nat → AccessCode
  endSymbol : PoolIndex

namespace AssignCode

/-- Reads the layers from the `k`-th down to the first one that is inside of another. -/
@[simp] def reads (a : AssignCode) : Nat → List Instruction
  | 0 => []
  | k + 1 =>
    (.dup2nd :: ((a.read (k + 1)).opening ++ [.getterCall (.ofNat (k + 1)), .swap])) ++ a.reads k

/-- Writes the first `k` layers, from the outermost inwards. -/
@[simp] def writes (a : AssignCode) : Nat → List Instruction
  | 0 => []
  | k + 1 => a.writes k ++ ((a.write k).opening ++ [.setterCall (.ofNat k)])

/-- The code for a place of `n` layers. -/
def code (a : AssignCode) (n : Nat) : List Instruction :=
  a.value ++ .startAssign a.scope a.symbol a.call ::
    (a.reads (n - 1) ++ (a.writes n ++ [.endAssign a.scope a.endSymbol]))

end AssignCode

/-- The net effect of the code is to add arguments to a call that was just opened. Some values are
below on the stack. -/
def AddsArguments (pool : Pool) (code : List Instruction) : Prop :=
  ∀ (stack : List ValueId) (callee : ValueId) (calls : List PendingCall)
    (assigns : List PendingAssign) (n : Nat), 2 ≤ stack.length → ∃ args m,
      Line.run? pool code ⟨stack, ⟨.value callee, []⟩ :: calls, assigns, n⟩ =
        some ⟨stack, ⟨.value callee, args⟩ :: calls, assigns, m⟩

/-- The code of an access finds its function and adds arguments. -/
structure AccessCode.Valid (a : AccessCode) (pool : Pool) : Prop where
  found : (pool.symbol a.symbol).toOption.isSome
  adds : AddsArguments pool a.arguments

/-- The code assigns to the place that calls make around the variable. -/
structure AssignCode.Valid (a : AssignCode) (pool : Pool) (x : String) (calls : List PlaceCall)
    (rhs : Expr) : Prop where
  /-- A place has a layer, and the number of each layer is an operand. -/
  deep : calls ≠ [] ∧ calls.length ≤ UInt32.size
  opens : pool.symbol a.symbol = .ok x
  closes : pool.symbol a.endSymbol = .ok x
  expr : ∃ e placeTag rhsTag, pool.expr a.call = .ok e ∧
    e.args = [⟨placeTag, PlaceCall.expr x calls⟩, ⟨rhsTag, rhs⟩]
  reads : ∀ k, 1 ≤ k → k < calls.length → (a.read k).Valid pool
  writes : ∀ k, k < calls.length → (a.write k).Valid pool

/-! ### What the code becomes -/

/-- The operations of an access where the next value is the `n`-th: the function is looked up, the
code emits what it does for the arguments that it adds, and the call is made on the container, these
arguments and the `last` ones. -/
inductive AccessCode.Becomes (a : AccessCode) (pool : Pool) (stack : List ValueId) (n : Nat)
    (container : ValueId) (last : List CallArg) (site : CallSite) : List Op → ValueId → Prop
  | intro {name : String} {inner : List Op} {args : List CallArg} {calls : List PendingCall}
      {assigns : List PendingAssign} {m : Nat} (found : pool.symbol a.symbol = .ok name)
      (adds : Line.run? pool a.arguments ⟨stack, ⟨.value ⟨n⟩, []⟩ :: calls, assigns, n + 1⟩ =
        some ⟨stack, ⟨.value ⟨n⟩, args⟩ :: calls, assigns, m⟩)
      (closes : m = n + 1 + inner.length) :
      Becomes a pool stack n container last site
        (.ldFun name a.lookup :: inner ++
          PendingCall.ops ⟨.value ⟨n⟩, ⟨.value container, none⟩ :: (args ++ last)⟩ m site)
        (PendingCall.result ⟨.value ⟨n⟩, ⟨.value container, none⟩ :: (args ++ last)⟩ m)

namespace AssignCode

variable (a : AssignCode) (pool : Pool) (x : String) (calls : List PlaceCall)

/-- Reading from the `k`-th layer on: the getter of a layer is called on its container, and its
result is the container of the layer around it. The containers of the layers up to the `k`-th are
given in the order of the layers. They stay on the stack, below the value `v`. -/
inductive Reads (v : ValueId) :
    Nat → Nat → ValueId → List ValueId → List Op → List ValueId → Prop
  | none {n : Nat} {container : ValueId} {below : List ValueId} :
      Reads v 0 n container below [] [container]
  | layer {k n : Nat} {container result : ValueId} {below containers : List ValueId}
      {ops ops' : List Op} {c : PlaceCall} {inner : List PlaceCall}
      (layer : calls.drop (k + 1) = c :: inner)
      (becomes : (a.read (k + 1)).Becomes pool (container :: v :: container :: below) n container []
        (c.getterSite x inner) ops result)
      (rest : Reads v k (n + ops.length) result (container :: below) ops' containers) :
      Reads v (k + 1) n container below (ops ++ ops') (containers ++ [container])

/-- Writing the first `k` layers: the setter of a layer is called on its container and, as the last
argument, on the value to write, which is `v` for the outermost layer and the result of the setter
before for the others. -/
inductive Writes (rhs : Expr) (v : ValueId) (containers below : List ValueId) (n : Nat) :
    Nat → List Op → ValueId → Prop
  | none : Writes rhs v containers below n 0 [] v
  | layer {k : Nat} {container value result : ValueId} {others : List ValueId} {ops ops' : List Op}
      {c : PlaceCall} {inner : List PlaceCall}
      (before : Writes rhs v containers below n k ops value)
      (layer : calls.drop k = c :: inner) (held : containers.drop k = container :: others)
      (becomes : (a.write k).Becomes pool (value :: container :: (others ++ below)) (n + ops.length)
        container [⟨.value value, some "value"⟩]
        (c.setterSite x inner (if k = 0 then rhs else .previousValue)) ops' result) :
      Writes rhs v containers below n (k + 1) (ops ++ ops') result

end AssignCode

/-! ### The pass -/

namespace Lowering

/-- The instruction is lowered: it emits the operations and leads to the line. -/
def Does (ctx : Context) (offset : Nat) (i : Instruction) (s : State) (ops : List Op) (l : Line) :
    Prop :=
  ∃ t, lower ctx offset i s = .ok () t ∧ s.Emits ops t ∧ t.line = l

section

variable {s : State} {stack stack' : List ValueId} {calls calls' : List PendingCall}
  {assigns assigns' : List PendingAssign} {n : Nat} {ops : List Op} (ctx : Context) (offset : Nat)

theorem does_of_eq {i : Instruction} (line : s.line = ⟨stack, calls, assigns, n⟩)
    (lowers : lower ctx offset i s = .ok () { s with
      draft := s.draft.emitAll ops, stack := ⟨stack'⟩, calls := calls', assigns := assigns' }) :
    Does ctx offset i s ops ⟨stack', calls', assigns', n + ops.length⟩ := by
  refine ⟨_, lowers, rfl, ?_⟩
  have made : s.draft.graph.values.length = n := congrArg Line.made line
  rw [State.line, Draft.length_values_emitAll, made]

theorem constant_of_ok {α : Type} {x : Except BytecodeError α} {a : α} (found : x = .ok a)
    (s : State) : constant x s = .ok a s := by
  rw [found]
  rfl

theorem does_getFun {symbol : PoolIndex} {name : String} (lookup : FunLookup)
    (found : ctx.pool.symbol symbol = .ok name) (unended : s.draft.Unended)
    (line : s.line = ⟨stack, calls, assigns, n⟩) :
    Does ctx offset (.getFun lookup symbol) s [.ldFun name lookup]
      ⟨stack, ⟨.value ⟨n⟩, []⟩ :: calls, assigns, n + 1⟩ := by
  refine does_of_eq ctx offset line ?_
  obtain ⟨d, ⟨items⟩, loops, open_, assigns, dispatches, depths, live⟩ := s
  cases line
  exact (bind_of_ok (constant_of_ok found _)).trans (bind_of_ok (emit_of_unended unended _))

theorem does_dup2nd {v w : ValueId} (line : s.line = ⟨v :: w :: stack, calls, assigns, n⟩) :
    Does ctx offset .dup2nd s [] ⟨w :: v :: w :: stack, calls, assigns, n⟩ := by
  refine does_of_eq ctx offset line ?_
  obtain ⟨d, ⟨items⟩, loops, open_, assigns, dispatches, depths, live⟩ := s
  cases line
  rfl

theorem does_swap {v w : ValueId} (line : s.line = ⟨v :: w :: stack, calls, assigns, n⟩) :
    Does ctx offset .swap s [] ⟨w :: v :: stack, calls, assigns, n⟩ := by
  refine does_of_eq ctx offset line ?_
  obtain ⟨d, ⟨items⟩, loops, open_, assigns, dispatches, depths, live⟩ := s
  cases line
  rfl

theorem does_startAssign {scope : Scope} {symbol call : PoolIndex} {x : String} {e : Expr}
    {p : PendingAssign} {v : ValueId} (name : ctx.pool.symbol symbol = .ok x)
    (expr : ctx.pool.expr call = .ok e) (start : PendingAssign.start scope x e = .ok p)
    (unended : s.draft.Unended) (line : s.line = ⟨v :: stack, calls, assigns, n⟩) :
    Does ctx offset (.startAssign scope symbol call) s [.ldVar x scope false]
      ⟨v :: ⟨n⟩ :: v :: stack, calls, p :: assigns, n + 1⟩ := by
  refine does_of_eq ctx offset line ?_
  obtain ⟨d, ⟨items⟩, loops, open_, assigns, dispatches, depths, live⟩ := s
  cases line
  have started (s : State) : ofExcept (PendingAssign.start scope x e) s = .ok p s := by
    rw [start]
    rfl
  exact (bind_of_ok (constant_of_ok name _)).trans ((bind_of_ok rfl).trans
    ((bind_of_ok (constant_of_ok expr _)).trans ((bind_of_ok (started _)).trans
      (bind_of_ok (emit_of_unended unended _)))))

theorem does_endAssign {scope : Scope} {symbol : PoolIndex} {p : PendingAssign} {value : ValueId}
    (name : ctx.pool.symbol symbol = .ok p.name) (same : p.scope = scope)
    (unended : s.draft.Unended) (line : s.line = ⟨value :: stack, calls, p :: assigns, n⟩) :
    Does ctx offset (.endAssign scope symbol) s [.stVar p.name scope value]
      ⟨stack, calls, assigns, n + 1⟩ := by
  refine does_of_eq ctx offset line ?_
  obtain ⟨d, ⟨items⟩, loops, open_, assigns, dispatches, depths, live⟩ := s
  cases line
  have unended : d.Unended := unended
  refine (bind_of_ok (constant_of_ok name _)).trans ((bind_of_ok rfl).trans ?_)
  rw [if_pos ⟨rfl, same⟩]
  exact (bind_of_ok rfl).trans (bind_of_ok (emit_of_unended unended _))

/-- The layer is found and comes in order. -/
theorem accessLayer_of_ok {access : PendingAssign → Except Fault CallSite × PendingAssign}
    {p p' : PendingAssign} {site : CallSite} (found : access p = (.ok site, p'))
    (pending : s.assigns = p :: assigns) :
    accessLayer access s = .ok site { s with assigns := p' :: assigns } := by
  rw [accessLayer, pending]
  simp only [found]
  rfl

theorem does_getterCall {layer : UInt32} {k : Nat} {container : ValueId} {c c' : PendingCall}
    {p p' : PendingAssign} {site : CallSite} (operand : layer.toNat = k)
    (getter : p.getter k = (.ok site, p')) (full : c' = c.prepend container)
    (unended : s.draft.Unended)
    (line : s.line = ⟨container :: stack, c :: calls, p :: assigns, n⟩) :
    Does ctx offset (.getterCall layer) s (c'.ops n site)
      ⟨c'.result n :: stack, calls, p' :: assigns, n + (c'.ops n site).length⟩ := by
  refine does_of_eq ctx offset line ?_
  obtain ⟨d, ⟨items⟩, loops, open_, assigns, dispatches, depths, live⟩ := s
  cases line
  cases full
  cases operand
  have unended : d.Unended := unended
  exact (bind_of_ok (accessLayer_of_ok getter rfl)).trans ((bind_of_ok rfl).trans
    ((bind_of_ok rfl).trans (bind_of_ok (emitCall_eq unended _ _))))

theorem does_setterCall {layer : UInt32} {k : Nat} {value container : ValueId} {c c' : PendingCall}
    {p p' : PendingAssign} {site : CallSite} (operand : layer.toNat = k)
    (setter : p.setter k = (.ok site, p'))
    (full : c' = (c.prepend container).addNamed value "value") (unended : s.draft.Unended)
    (line : s.line = ⟨value :: container :: stack, c :: calls, p :: assigns, n⟩) :
    Does ctx offset (.setterCall layer) s (c'.ops n site)
      ⟨c'.result n :: stack, calls, p' :: assigns, n + (c'.ops n site).length⟩ := by
  refine does_of_eq ctx offset line ?_
  obtain ⟨d, ⟨items⟩, loops, open_, assigns, dispatches, depths, live⟩ := s
  cases line
  cases full
  cases operand
  have unended : d.Unended := unended
  exact (bind_of_ok (accessLayer_of_ok setter rfl)).trans ((bind_of_ok rfl).trans
    ((bind_of_ok rfl).trans ((bind_of_ok rfl).trans (bind_of_ok (emitCall_eq unended _ _)))))

/-- How many values are made is known from what is emitted. -/
theorem Emission.line {code : List Instruction} {t : State} {m : Nat}
    (emission : Emission ctx offset code s ops t) (line : s.line = ⟨stack, calls, assigns, n⟩)
    (line' : t.line = ⟨stack', calls', assigns', m⟩) :
    t.line = ⟨stack', calls', assigns', n + ops.length⟩ := by
  have made : t.line.made = s.line.made + ops.length := emission.emits.made
  rw [line, line'] at made
  cases made
  exact line'

/-- The call of a layer is opened and its arguments are added. -/
theorem exists_emission_opening {a : AccessCode} (valid : a.Valid ctx.pool)
    (unended : s.draft.Unended) (line : s.line = ⟨stack, calls, assigns, n⟩)
    (deep : 2 ≤ stack.length) :
    ∃ name inner args t, ctx.pool.symbol a.symbol = .ok name ∧
      Line.run? ctx.pool a.arguments ⟨stack, ⟨.value ⟨n⟩, []⟩ :: calls, assigns, n + 1⟩ =
        some ⟨stack, ⟨.value ⟨n⟩, args⟩ :: calls, assigns, n + 1 + inner.length⟩ ∧
      Emission ctx offset a.opening s (.ldFun name a.lookup :: inner) t ∧
      t.line = ⟨stack, ⟨.value ⟨n⟩, args⟩ :: calls, assigns, n + 1 + inner.length⟩ := by
  obtain ⟨name, found⟩ : ∃ name, ctx.pool.symbol a.symbol = .ok name := by
    cases looked : ctx.pool.symbol a.symbol with
    | ok name => exact ⟨name, rfl⟩
    | error e =>
        have found := valid.found
        rw [looked] at found
        cases found
  obtain ⟨t, opens, emits, line'⟩ := does_getFun ctx offset a.lookup found unended line
  obtain ⟨args, m, adds⟩ := valid.adds stack ⟨n⟩ calls assigns (n + 1) deep
  rw [← line'] at adds
  obtain ⟨inner, u, emission, line''⟩ :=
    exists_emission_of_run? (offset + 1) (emits.unended unended) adds
  have line₃ := emission.line ctx (offset + 1) line' line''
  rw [line', ← line'', line₃] at adds
  exact ⟨name, inner, args, u, found, adds, .cons rfl opens emits emission, line₃⟩

end

end Lowering

/-! ### Layers in order -/

/-- The assignment that is pending is to the place that calls make around the variable. -/
structure PendingAssign.Of (p : PendingAssign) (scope : Scope) (x : String) (calls : List PlaceCall)
    (rhs : Expr) : Prop where
  scope : p.scope = scope
  place : p.place = ⟨x, PlaceCall.layers x calls⟩
  rhs : p.rhs = rhs

section

variable {p : PendingAssign} {scope : Scope} {x : String} {calls inner : List PlaceCall}
  {rhs : Expr} {c : PlaceCall} {k : Nat}

theorem PendingAssign.Of.getter (of : p.Of scope x calls rhs) (layer : calls.drop k = c :: inner)
    (inside : k ≠ 0) (unwritten : p.lastSetter = none) (order : ∀ j ∈ p.lastGetter, k < j) :
    p.getter k = (.ok (c.getterSite x inner), { p with lastGetter := some k }) := by
  have later : p.lastGetter.any (· ≤ k) = false := by
    cases last : p.lastGetter with
    | none => rfl
    | some j =>
        have lt := order j last
        simp only [Option.any_some, decide_eq_false_iff_not]
        omega
  rw [PendingAssign.getter, of.place]
  simp only [PlaceCall.getElem?_layers layer, if_neg inside, unwritten, later]
  rfl

theorem PendingAssign.Of.setter (of : p.Of scope x calls rhs) (layer : calls.drop k = c :: inner)
    (order : ∀ j ∈ p.lastSetter, j < k) :
    p.setter k = (.ok (c.setterSite x inner (if k = 0 then rhs else .previousValue)),
      { p with lastSetter := some k }) := by
  have later : p.lastSetter.any (k ≤ ·) = false := by
    cases last : p.lastSetter with
    | none => rfl
    | some j =>
        have lt := order j last
        simp only [Option.any_some, decide_eq_false_iff_not]
        omega
  rw [PendingAssign.setter, of.place]
  simp only [PlaceCall.getElem?_layers layer, later, PendingAssign.writtenValue, of.rhs]
  rfl

end

namespace Lowering

variable {ctx : Context} {s : State} {a : AssignCode} {x : String} {places inner : List PlaceCall}
  {rhs : Expr} {calls : List PendingCall} {assigns : List PendingAssign} {v container : ValueId}
  {below : List ValueId} {p : PendingAssign} {k n : Nat} (offset : Nat)

theorem lt_length_of_drop {c : PlaceCall} (layer : places.drop k = c :: inner) :
    k < places.length := by
  have length := congrArg List.length layer
  rw [List.length_drop, List.length_cons] at length
  omega

theorem toNat_layer (valid : a.Valid ctx.pool x places rhs) (lt : k < places.length) :
    (UInt32.ofNat k).toNat = k :=
  UInt32.toNat_ofNat_of_lt' (Nat.lt_of_lt_of_le lt valid.deep.2)

/-- A layer is read: its container stays, and above it is what the getter found. -/
theorem exists_readLayer {c : PlaceCall} (valid : a.Valid ctx.pool x places rhs)
    (inside : 0 < k) (layer : places.drop k = c :: inner) (of : p.Of a.scope x places rhs)
    (unwritten : p.lastSetter = none) (order : ∀ j ∈ p.lastGetter, k < j)
    (unended : s.draft.Unended)
    (line : s.line = ⟨v :: container :: below, calls, p :: assigns, n⟩) :
    ∃ ops result t,
      (a.read k).Becomes ctx.pool (container :: v :: container :: below) n container []
        (c.getterSite x inner) ops result ∧
      Emission ctx offset (.dup2nd :: ((a.read k).opening ++ [.getterCall (.ofNat k), .swap])) s ops
        t ∧
      t.line = ⟨v :: result :: container :: below, calls,
        { p with lastGetter := some k } :: assigns, n + ops.length⟩ := by
  have lt : k < places.length := lt_length_of_drop layer
  have getter := of.getter layer (by omega) unwritten order
  obtain ⟨t₁, dups, emits₁, line₁⟩ := does_dup2nd ctx offset line
  have unended₁ := emits₁.unended unended
  obtain ⟨name, argOps, args, t₂, found, adds, opening, line₂⟩ :=
    exists_emission_opening ctx (offset + 1) (valid.reads k inside lt) unended₁ line₁ (by simp)
  have full : (⟨.value ⟨n⟩, ⟨.value container, none⟩ :: (args ++ [])⟩ : PendingCall) =
      PendingCall.prepend ⟨.value ⟨n⟩, args⟩ container := by
    rw [List.append_nil]
    rfl
  obtain ⟨t₃, gets, emits₃, line₃⟩ := does_getterCall ctx _ (toNat_layer valid lt) getter full
    (opening.emits.unended unended₁) line₂
  obtain ⟨t₄, swaps, emits₄, line₄⟩ := does_swap ctx _ line₃
  have whole := Emission.cons rfl dups emits₁
    (opening.append (.cons rfl gets emits₃ (.one rfl swaps emits₄)))
  rw [List.append_nil] at whole
  exact ⟨_, _, t₄, .intro found adds rfl, whole, whole.line ctx offset line line₄⟩

/-- A layer is written: its container and the value written to it give way to the container with
the value in it. -/
theorem exists_writeLayer {c : PlaceCall} {value : ValueId} (valid : a.Valid ctx.pool x places rhs)
    (layer : places.drop k = c :: inner) (of : p.Of a.scope x places rhs)
    (order : ∀ j ∈ p.lastSetter, j < k) (unended : s.draft.Unended)
    (line : s.line = ⟨value :: container :: below, calls, p :: assigns, n⟩) :
    ∃ ops result t, (a.write k).Becomes ctx.pool (value :: container :: below) n container
        [⟨.value value, some "value"⟩]
        (c.setterSite x inner (if k = 0 then rhs else .previousValue)) ops result ∧
      Emission ctx offset ((a.write k).opening ++ [.setterCall (.ofNat k)]) s ops t ∧
      t.line = ⟨result :: below, calls, { p with lastSetter := some k } :: assigns,
        n + ops.length⟩ := by
  have lt : k < places.length := lt_length_of_drop layer
  have setter := of.setter layer order
  obtain ⟨name, argOps, args, t₁, found, adds, opening, line₁⟩ :=
    exists_emission_opening ctx offset (valid.writes k lt) unended line (by simp)
  obtain ⟨t₂, sets, emits₂, line₂⟩ :=
    does_setterCall ctx (offset + (a.write k).opening.length) (toNat_layer valid lt) setter rfl
      (opening.emits.unended unended) line₁
  have whole := opening.append (.one rfl sets emits₂)
  exact ⟨_, _, t₂, .intro found adds rfl, whole, whole.line ctx offset line line₂⟩

/-- The layers up to the `k`-th are read, and their containers are on the stack in the order of the
layers. -/
theorem exists_reads (valid : a.Valid ctx.pool x places rhs) (lt : k < places.length)
    (of : p.Of a.scope x places rhs) (unwritten : p.lastSetter = none)
    (order : ∀ j ∈ p.lastGetter, k < j) (unended : s.draft.Unended)
    (line : s.line = ⟨v :: container :: below, calls, p :: assigns, n⟩) :
    ∃ ops containers t p', a.Reads ctx.pool x places v k n container below ops containers ∧
      containers.length = k + 1 ∧ Emission ctx offset (a.reads k) s ops t ∧
      t.line = ⟨v :: (containers ++ below), calls, p' :: assigns, n + ops.length⟩ ∧
      p'.Of a.scope x places rhs ∧ p'.lastSetter = none := by
  induction k generalizing offset s n container below p with
  | zero => exact ⟨[], [container], s, p, .none, rfl, .nil offset s, line, of, unwritten⟩
  | succ k ih =>
      have layer := List.drop_eq_getElem_cons lt
      obtain ⟨ops, result, t, becomes, emission, line'⟩ :=
        exists_readLayer offset valid (Nat.succ_pos k) layer of unwritten order unended line
      have of₁ : PendingAssign.Of { p with lastGetter := some (k + 1) } a.scope x places rhs :=
        ⟨of.scope, of.place, of.rhs⟩
      have next : ∀ j ∈ some (k + 1), k < j := by
        rintro j ⟨⟩
        exact Nat.lt_succ_self k
      obtain ⟨ops', containers, u, p', reads, length, emission', line'', of', unwritten'⟩ :=
        ih (offset + _) (Nat.lt_of_succ_lt lt) of₁ unwritten next
          (emission.emits.unended unended) line'
      refine ⟨ops ++ ops', containers ++ [container], u, p', .layer layer becomes reads, ?_,
        emission.append emission', ?_, of', unwritten'⟩
      · rw [List.length_append, length, List.length_singleton]
      · rw [line'', List.append_assoc, List.length_append, Nat.add_assoc]
        rfl

/-- The first `k` layers are written, which takes their containers off the stack. -/
theorem exists_writes {containers : List ValueId} (valid : a.Valid ctx.pool x places rhs)
    (length : containers.length = places.length) (le : k ≤ places.length)
    (of : p.Of a.scope x places rhs) (unwritten : p.lastSetter = none) (unended : s.draft.Unended)
    (line : s.line = ⟨v :: (containers ++ below), calls, p :: assigns, n⟩) :
    ∃ ops value t p', a.Writes ctx.pool x places rhs v containers below n k ops value ∧
      Emission ctx offset (a.writes k) s ops t ∧
      t.line = ⟨value :: (containers.drop k ++ below), calls, p' :: assigns, n + ops.length⟩ ∧
      p'.Of a.scope x places rhs ∧ ∀ j ∈ p'.lastSetter, j < k := by
  induction k with
  | zero =>
      refine ⟨[], v, s, p, .none, .nil offset s, line, of, ?_⟩
      rw [unwritten]
      rintro j ⟨⟩
  | succ k ih =>
      obtain ⟨ops, value, t, p₁, writes, emission, line₁, of₁, order⟩ := ih (Nat.le_of_succ_le le)
      have layer := List.drop_eq_getElem_cons (Nat.lt_of_succ_le le)
      have held := List.drop_eq_getElem_cons (length ▸ Nat.lt_of_succ_le le)
      rw [held, List.cons_append] at line₁
      obtain ⟨ops', result, u, becomes, emission', line₂⟩ :=
        exists_writeLayer (offset + (a.writes k).length) valid layer of₁ order
          (emission.emits.unended unended) line₁
      refine ⟨ops ++ ops', result, u, { p₁ with lastSetter := some k },
        .layer writes layer held becomes, emission.append emission', ?_,
        ⟨of₁.scope, of₁.place, of₁.rhs⟩, ?_⟩
      · rw [line₂, List.length_append, Nat.add_assoc]
      · rintro j ⟨⟩
        exact Nat.lt_succ_self k

end Lowering

open Lowering

/-- A complex assignment of any depth is lowered in order: the value, the variable, the getters from
the innermost layer outwards, the setters from the outermost layer inwards, and one store of what
the last setter gives. The value that was assigned is left on the stack.

The block has no end, which is checked for every statement; every live state of a pass has such a
block (`Lowering.Arrived.poised`). -/
theorem assigned_in_order {ctx : Context} {a : AssignCode} {x : String} {places : List PlaceCall}
    {rhs : Expr} {offset m : Nat} {s₀ s : State} {v : ValueId}
    (valid : a.Valid ctx.pool x places rhs)
    (pushes : Line.run? ctx.pool a.value s.line =
      some ⟨v :: s.stack.items, s.calls, s.assigns, m⟩)
    (arrives : arrive ctx offset s₀ = .ok () s) (live : s.live = true) (unended : s.draft.Unended)
    (straight : ∀ k, offset < k → k < offset + (a.code places.length).length →
      ctx.labels.blockAt? k = none) :
    ∃ valueOps readOps writeOps containers updated,
      m = s.draft.graph.values.length + valueOps.length ∧
      a.Reads ctx.pool x places v (places.length - 1) (m + 1) ⟨m⟩ (v :: s.stack.items) readOps
        containers ∧
      a.Writes ctx.pool x places rhs v containers (v :: s.stack.items)
        (m + 1 + readOps.length) places.length writeOps updated ∧
      run ctx offset (a.code places.length) s₀ = .ok { s with
        draft := s.draft.emitAll (valueOps ++ .ldVar x a.scope false ::
          (readOps ++ (writeOps ++ [.stVar x a.scope updated]))),
        stack := s.stack.push v } := by
  obtain ⟨e, placeTag, rhsTag, found, args⟩ := valid.expr
  have start : PendingAssign.start a.scope x e =
      .ok { scope := a.scope, place := ⟨x, PlaceCall.layers x places⟩, rhs := rhs } := by
    rw [PendingAssign.start, args]
    simp only [PlaceCall.ofExpr_expr valid.deep.1]
    exact if_pos rfl
  have some := List.length_pos_iff.mpr valid.deep.1
  -- the value is pushed and the assignment is opened
  obtain ⟨valueOps, t₁, pushing, line₁⟩ := exists_emission_of_run? offset unended pushes
  have unended₁ := pushing.emits.unended unended
  obtain ⟨t₂, starts, emits₂, line₂⟩ :=
    does_startAssign ctx (offset + a.value.length) valid.opens found start unended₁ line₁
  have unended₂ := emits₂.unended unended₁
  -- the containers pile up on the stack, and are taken off again
  obtain ⟨readOps, containers, t₃, p₃, reads, length, reading, line₃, of₃, unwritten⟩ :=
    exists_reads (offset + a.value.length + 1) valid (Nat.sub_one_lt_of_lt some) ⟨rfl, rfl, rfl⟩ rfl
      (by rintro j ⟨⟩) unended₂ line₂
  have unended₃ := reading.emits.unended unended₂
  obtain ⟨writeOps, updated, t₄, p₄, writes, writing, line₄, of₄, -⟩ :=
    exists_writes (offset + a.value.length + 1 + (a.reads (places.length - 1)).length) valid
      (by omega) (Nat.le_refl _) of₃ unwritten unended₃ line₃
  have left : containers.drop places.length = [] := List.drop_eq_nil_of_le (by omega)
  rw [left, List.nil_append] at line₄
  -- what is left above the assigned value is stored
  have name : p₄.name = x := congrArg Place.name of₄.place
  obtain ⟨t₅, ends, emits₅, line₅⟩ := does_endAssign ctx (offset + a.value.length + 1 +
    (a.reads (places.length - 1)).length + (a.writes places.length).length)
    (valid.closes.trans (congrArg _ name.symm)) of₄.scope (writing.emits.unended unended₃) line₄
  have whole := pushing.append (.cons rfl starts emits₂
    (reading.append (writing.append (.one rfl ends emits₅))))
  rw [name] at whole
  have ran := whole.run (by simp) arrives live straight
  obtain ⟨stack, calls, assigns, -⟩ := Line.mk.inj line₅
  have final : t₅.stack = s.stack.push v := congrArg OperandStack.mk stack
  rw [whole.emits, final, calls, assigns] at ran
  refine ⟨valueOps, readOps, writeOps, containers, updated, ?_, reads, writes, ran⟩
  exact (congrArg Line.made line₁).symm.trans pushing.emits.made

/-- The place `names(attr(x, which = FALSE)[NULL])`. -/
def deepPlace : List PlaceCall :=
  [⟨"names", none, []⟩, ⟨"[", none, [.positional (.const ⟨6⟩)]⟩,
    ⟨"attr", none, [.named "which" (.const ⟨7⟩)]⟩]

/-- How each layer is called, to read it and to write it. -/
def deepAccess : Nat → AccessCode
  | 0 => ⟨.lexical, ⟨3⟩, []⟩
  | 1 => ⟨.lexical, ⟨1⟩, [.pushLiteral .null]⟩
  | _ => ⟨.global, ⟨2⟩, [.pushLiteral (.logical false), .setTag ⟨4⟩]⟩

/-- `names(attr(x, which = FALSE)[NULL]) <<- TRUE`. -/
def deepAssign : AssignCode where
  value := [.load (.logical true)]
  scope := .enclosing
  symbol := ⟨0⟩
  call := ⟨5⟩
  read := deepAccess
  write := deepAccess
  endSymbol := ⟨0⟩

def deepPool : Pool where
  entries := [.symbol "x", .symbol "[", .symbol "attr", .symbol "names<-", .symbol "which",
    .expr (.call (.symbol "<<-") [.positional (PlaceCall.expr "x" deepPlace),
      .positional (.const ⟨8⟩)]), .null, .logical (some false), .logical (some true)]

theorem assigned_in_order_deepAssign :
    deepAssign.Valid deepPool "x" deepPlace (.const ⟨8⟩) ∧
    ∃ valueOps readOps writeOps containers updated, 1 = 0 + valueOps.length ∧
      deepAssign.Reads deepPool "x" deepPlace ⟨0⟩ 2 2 ⟨1⟩ [⟨0⟩] readOps containers ∧
      deepAssign.Writes deepPool "x" deepPlace (.const ⟨8⟩) ⟨0⟩ containers [⟨0⟩]
        (2 + readOps.length) 3 writeOps updated ∧
      run ⟨deepPool, {}, .function⟩ 0 (deepAssign.code 3) { draft := .new "unit" } = .ok {
        draft := (Draft.new "unit").emitAll (valueOps ++ .ldVar "x" .enclosing false ::
          (readOps ++ (writeOps ++ [.stVar "x" .enclosing updated]))),
        stack := ⟨[⟨0⟩]⟩ } := by
  have access (k : Nat) : (deepAccess k).Valid deepPool := by
    rcases k with _ | _ | k <;> exact ⟨rfl, fun _ _ _ _ _ _ => ⟨_, _, rfl⟩⟩
  have valid : deepAssign.Valid deepPool "x" deepPlace (.const ⟨8⟩) :=
    ⟨⟨List.cons_ne_nil _ _, by decide⟩, rfl, rfl, ⟨_, none, none, rfl, rfl⟩, fun k _ _ => access k,
      fun k _ => access k⟩
  have arrives : arrive ⟨deepPool, {}, .function⟩ 0 { draft := .new "unit" } =
      .ok () { draft := .new "unit" } := rfl
  exact ⟨valid, assigned_in_order valid rfl arrives rfl rfl fun _ _ _ => rfl⟩

/-- The operands of what is emitted: two getters, three setters and the store. -/
example :
    (run ⟨deepPool, {}, .function⟩ 0 (deepAssign.code 3) { draft := .new "unit" }).toOption.map
      (fun s => ((s.draft.graph.block? ⟨0⟩).map (·.stmts.map fun s => s.op.operands),
        s.stack.items)) =
    some (some [[], [], [], [], [⟨2⟩, ⟨1⟩, ⟨3⟩], [], [], [⟨5⟩, ⟨4⟩, ⟨6⟩], [], [⟨8⟩, ⟨7⟩, ⟨0⟩], [],
      [], [⟨10⟩, ⟨4⟩, ⟨11⟩, ⟨9⟩], [], [], [⟨13⟩, ⟨1⟩, ⟨14⟩, ⟨12⟩], [⟨15⟩]], [⟨0⟩]) := by
  decide +kernel

end StackLift
