import StackLift.Proofs.Nesting.Frames

/-!
The brackets of the state in nested code. Where control is, the frames of the state are
just the brackets that are open in the code. In skipped code the state may hold more:
brackets whose ends are skipped stay until the next label that an edge leads to, or
until the end of the loop around them. `Nests` says this of a state, together with what
the edges to labels ahead have noted; it is kept by arriving at an instruction and by
skipping one.
-/

namespace StackLift

/-- Is the bracket one that arguments are added to. -/
def Opener.takesArgs : Opener → Bool
  | .call => true
  | .dispatch kind => !kind.isNary
  | _ => false

namespace Lowering

/-- The arguments that the instruction at an offset adds to the bracket opened at `j`,
which has to be the innermost one that takes arguments. -/
def addedAt (ctx : Context) (code : List Instruction) (start : State) (j k : Nat) : List ArgValue :=
  match code[k]?, arrival? ctx code start k, nesting code k with
  | some i, some a, some here =>
    if a.live ∧ (here.find? (·.opener.takesArgs)).map (·.offset) = some j then i.adds a else []
  | _, _, _ => []

/-- The arguments that are added before an offset to the bracket opened at `j`, not
counting those that are added to brackets inside it. -/
def ownArgs (ctx : Context) (code : List Instruction) (start : State) (j k : Nat) : List ArgValue :=
  (List.range' (j + 1) (k - (j + 1))).flatMap (addedAt ctx code start j)

section

variable {ctx : Context} {code : List Instruction} {start a : State} {i : Instruction} {j k : Nat}

theorem ownArgs_self : ownArgs ctx code start j (j + 1) = [] := by
  rw [ownArgs, Nat.sub_self]
  rfl

theorem ownArgs_succ (lt : j < k) : ownArgs ctx code start j (k + 1) =
    ownArgs ctx code start j k ++ addedAt ctx code start j k := by
  have last : k + 1 - (j + 1) = k - (j + 1) + 1 := by omega
  have offset : j + 1 + (k - (j + 1)) = k := by omega
  rw [ownArgs, last, List.range'_1_concat, List.flatMap_append, offset, List.flatMap_singleton]
  rfl

theorem addedAt_of_dead (arrives : arrival? ctx code start k = some a) (dead : a.live = false) :
    addedAt ctx code start j k = [] := by
  rw [addedAt, arrives]
  split
  case h_2 => rfl
  case h_1 a' _ _ found _ =>
    cases found
    rw [if_neg]
    rw [dead]
    exact fun ⟨live, _⟩ => Bool.noConfusion live

theorem addedAt_of_visits {here : List Opening} (visits : Visits ctx code start k i a)
    (nested : nesting code k = some here) : addedAt ctx code start j k =
      if (here.find? (·.opener.takesArgs)).map (·.offset) = some j then i.adds a else [] := by
  rw [addedAt, visits.get, visits.arrival?, nested]
  simp [visits.live]

end

end Lowering

open Lowering

/-- What is pending for a bracket is what its instruction opened, with the arguments that
were added since. -/
def Pending.Built (ctx : Context) (k : Nat) (outer : List Opening) (i : Instruction) (a : State)
    (own : List ArgValue) : Pending → Prop
  | .call c => c.args.map (·.value) = own
  | .assign _ => True
  | .dispatch p calls => Records ctx i a p ∧ (p.kind.isNary = true → calls = []) ∧
    (p.kind.isNary = false → ∃ target c, a.stack.items[if p.kind.isWrite then 1 else 0]? = some target ∧
      calls = [c] ∧ c.callee = .builtin p.kind.builtin ∧
      c.args.map (·.value) = .value target :: own)
  | .loop l => i.Aims ctx l.loopEnd ∧ l.opened = depthsOf outer ∧
    ∀ m, ctx.labels.blockAt? m = some l.next → m = k + 1

/-- Every frame was opened by the instruction at its offset, when just the frames below
it were open. -/
inductive Stacked (ctx : Context) (code : List Instruction) (start : State) (k : Nat) :
    List Frame → Prop
  | nil : Stacked ctx code start k []
  | cons {f : Frame} {rest : List Frame} {i : Instruction} {a : State}
      (visits : Visits ctx code start f.offset i a) (opens : i.opens? = some f.pending.opener)
      (nested : nesting code f.offset = some (openings rest))
      (calls : f.pending.opener.takesArgs = true → a.calls = rest.flatMap (·.pending.calls))
      (built : f.pending.Built ctx f.offset (openings rest) i a (ownArgs ctx code start f.offset k))
      (later : f.offset < k) (below : Stacked ctx code start k rest) :
      Stacked ctx code start k (f :: rest)

namespace Stacked

variable {ctx : Context} {code : List Instruction} {start : State} {k : Nat} {fs inner outer : List Frame}

theorem descends (stacked : Stacked ctx code start k fs) : Descends k (openings fs) := by
  induction stacked with
  | nil => exact ⟨.nil, fun o mem => absurd mem List.not_mem_nil⟩
  | @cons f rest i a visits opens nested calls built later below ih =>
      have le : f.offset ≤ code.length := Nat.le_of_lt (List.getElem?_eq_some_iff.mp visits.get).1
      refine ⟨.cons (descends_nesting le nested).earlier ih.later, fun o mem => ?_⟩
      rcases List.mem_cons.mp mem with rfl | mem
      · exact later
      · exact ih.earlier o mem

theorem tail {f : Frame} (stacked : Stacked ctx code start k (f :: fs)) :
    Stacked ctx code start k fs := by
  cases stacked with
  | cons _ _ _ _ _ _ below => exact below

theorem of_append (stacked : Stacked ctx code start k (inner ++ outer)) :
    Stacked ctx code start k outer := by
  induction inner with
  | nil => exact stacked
  | cons f inner ih => exact ih stacked.tail

/-- Frames that are given no arguments stay as they are. -/
theorem succ (stacked : Stacked ctx code start k fs)
    (none : ∀ f ∈ fs, f.pending.opener.takesArgs = true → addedAt ctx code start f.offset k = []) :
    Stacked ctx code start (k + 1) fs := by
  induction stacked with
  | nil => exact .nil
  | @cons f rest i a visits opens nested calls built later below ih =>
      obtain ⟨first, others⟩ := List.forall_mem_cons.mp none
      refine .cons visits opens nested calls ?_ (Nat.lt_succ_of_lt later) (ih others)
      obtain ⟨j, pending⟩ := f
      cases pending with
      | assign scope => exact built
      | loop l => exact built
      | call c =>
          rw [ownArgs_succ later, first rfl, List.append_nil]
          exact built
      | dispatch p cs =>
          cases nary : p.kind.isNary with
          | true =>
              obtain ⟨records, isNary, -⟩ := built
              exact ⟨records, isNary, fun notNary => by rw [nary] at notNary; cases notNary⟩
          | false =>
              rw [ownArgs_succ later, first (by simp [Pending.opener, Opener.takesArgs, nary]),
                List.append_nil]
              exact built

end Stacked

/-! ### Labels -/

/-- A block that an instruction aims at has a label of the instruction. -/
theorem Instruction.Aims.exists_offset {unit : CodeUnit} {ctx : Context} {i : Instruction}
    {b : BlockId} (resolves : ctx.labels.Resolves unit) (aims : i.Aims ctx b) :
    ∃ ls, i.targets ctx.pool = .ok ls ∧ ∃ l ∈ ls, ∃ j, unit.offset? l = some j ∧
      ctx.labels.blockAt? j = some b := by
  obtain ⟨ls, targets, l, mem, block⟩ := aims
  rw [LabelMap.block] at block
  split at block
  case h_2 => cases block
  case h_1 b' found =>
    cases block
    obtain ⟨j, lookup, named⟩ := Option.bind_eq_some_iff.mp found
    exact ⟨ls, targets, l, mem, j, (resolves.bound lookup).1, named⟩

theorem targets_of_opensLoop {i : Instruction} {kind : LoopKind} (opens : i.opensLoop? = some kind)
    (pool : Pool) : i.targets pool = .ok i.label?.toList := by
  cases i <;> first | rfl | cases opens

theorem opensLoop?_of_opens {i : Instruction} {kind : LoopKind} (opens : i.opens? = some (.loop kind)) :
    i.opensLoop? = some kind := by
  rw [Instruction.opensLoop?, opens]

section

variable {unit : CodeUnit} {ctx : Context} {start : State} {k j o : Nat} {i : Instruction}
  {b : BlockId} {l : LoopContext} {rest : List Frame} {here there : List Opening}

theorem CodeUnit.Nested.exists_nesting (nested : unit.Nested ctx.pool) (k : Nat) :
    ∃ here, nesting unit.instructions k = some here :=
  StackLift.exists_nesting nested.balanced k

/-- What is open where an instruction jumps ahead to. -/
theorem CodeUnit.Nested.nesting_target (nested : unit.Nested ctx.pool)
    (resolves : ctx.labels.Resolves unit) (get : unit.instructions[k]? = some i)
    (aims : i.Aims ctx b) (named : ctx.labels.blockAt? j = some b) (lt : k < j) :
    nesting unit.instructions j = (nesting unit.instructions k).map (i.within k) := by
  obtain ⟨ls, targets, l, mem, j', bound, named'⟩ := aims.exists_offset resolves
  obtain rfl := resolves.distinct named named'
  exact nested.jumps k (List.getElem?_eq_some_iff.mp get).1 i get ls (by rw [targets]; rfl) l mem j
    bound lt

/-- The label of a loop leads to the instruction that closes it. -/
theorem CodeUnit.Nested.exists_end (nested : unit.Nested ctx.pool)
    (resolves : ctx.labels.Resolves unit)
    (stacked : Stacked ctx unit.instructions start k (⟨o, .loop l⟩ :: rest)) :
    ∃ e i, ctx.labels.blockAt? e = some l.loopEnd ∧
      nesting unit.instructions e = some (⟨o, .loop l.kind⟩ :: openings rest) ∧
      unit.instructions[e]? = some i ∧ i.closes? = some (.loop l.kind) := by
  cases stacked with
  | @cons _ _ i a visits opens here calls built later below =>
      obtain ⟨aims, -, -⟩ := built
      have kind := opensLoop?_of_opens opens
      have lt := (List.getElem?_eq_some_iff.mp visits.get).1
      obtain ⟨ls, targets, label, mem, e, bound, named⟩ := aims.exists_offset resolves
      have isLabel : label ∈ i.label? := by
        rw [targets_of_opensLoop kind] at targets
        cases targets
        exact Option.mem_toList.mp mem
      obtain ⟨before, closes⟩ := nested.loops o lt i visits.get l.kind kind label isLabel e bound
      obtain ⟨i', get, closes⟩ := Option.bind_eq_some_iff.mp closes
      refine ⟨e, i', named, ?_, get, closes⟩
      rw [nested.nesting_target resolves visits.get aims named before, here, Option.map_some,
        Instruction.within, kind]

/-- After its end, a bracket is not open any more. -/
theorem notMem_of_closed {code : List Instruction} {x : Opening} {e : Nat}
    (get : code[e]? = some i) (at_e : nesting code e = some (x :: there))
    (closes : i.closes? = some x.opener) (bound : k ≤ code.length)
    (at_k : nesting code k = some here) (lt : e < k) : x ∉ here := by
  intro mem
  have inside := (List.getElem?_eq_some_iff.mp get).1
  have next : nesting code (e + 1) = some there := by
    rw [nesting_succ get, at_e, Option.bind_some, Instruction.nest, opens?_of_closes closes, closes]
    simp
  have first := descends_nesting (Nat.le_of_lt inside) at_e
  have still := mem_nesting_of_later lt bound next at_k mem
    (Nat.lt_succ_of_lt (first.earlier x List.mem_cons_self))
  exact Nat.lt_irrefl _ ((List.pairwise_cons.mp first.later).1 x still)

/-- A bracket has one end. -/
theorem closer_unique {code : List Instruction} {x : Opening} {i i' : Instruction} {e : Nat}
    (get : code[k]? = some i) (at_k : nesting code k = some (x :: here))
    (closes : i.closes? = some x.opener) (get' : code[e]? = some i')
    (at_e : nesting code e = some (x :: there)) (closes' : i'.closes? = some x.opener) : k = e := by
  have bound := Nat.le_of_lt (List.getElem?_eq_some_iff.mp get).1
  have bound' := Nat.le_of_lt (List.getElem?_eq_some_iff.mp get').1
  refine Nat.le_antisymm (Nat.not_lt.mp fun lt => ?_) (Nat.not_lt.mp fun lt => ?_)
  · exact notMem_of_closed get' at_e closes' bound at_k lt List.mem_cons_self
  · exact notMem_of_closed get at_k closes bound' at_e lt List.mem_cons_self

/-- What is open at a later offset and was open before, is open below the brackets that
have been closed. -/
theorem suffix_of_later {code : List Instruction} {inner outer : List Opening} (le : k ≤ j)
    (bound : j ≤ code.length) (here : nesting code k = some outer)
    (later : nesting code j = some there)
    (descends : Descends k (inner ++ outer)) (inside : there <:+ inner ++ outer) :
    there <:+ outer := by
  induction inner with
  | nil => exact inside
  | cons o inner ih =>
      have order := List.pairwise_cons.mp descends.later
      rcases List.suffix_cons_iff.mp inside with rfl | inside
      · have mem := mem_nesting_of_later le bound here later List.mem_cons_self
          (descends.earlier o List.mem_cons_self)
        exact absurd (order.1 o (List.mem_append_right _ mem)) (Nat.lt_irrefl _)
      · exact ih ⟨order.2, fun o mem => descends.earlier o (List.mem_cons_of_mem _ mem)⟩ inside

end

/-! ### Edges to labels ahead -/

/-- The edges noted to labels ahead have just those brackets open along them that are
open at the label. -/
def Awaits (ctx : Context) (code : List Instruction) (ahead : Nat)
    (notes : List (BlockId × OpenDepths)) (os : List Opening) : Prop :=
  ∀ j b depths, ahead ≤ j → ctx.labels.blockAt? j = some b → notes.lookup b = some depths →
    ∃ there, nesting code j = some there ∧ depths = depthsOf there ∧ there <:+ os

theorem Awaits.noted {ctx : Context} {code : List Instruction} {ahead : Nat} {T : BlockId → Prop}
    {depths : OpenDepths} {notes notes' : List (BlockId × OpenDepths)} {os : List Opening}
    (awaits : Awaits ctx code ahead notes os) (noted : Noted T depths notes notes')
    (fits : ∀ j b, ahead ≤ j → ctx.labels.blockAt? j = some b → T b →
      ∃ there, nesting code j = some there ∧ there <:+ os ∧
        (depths = depthsOf there ∨ (notes.lookup b).isSome ∧ (depthsOf there).Within depths)) :
    Awaits ctx code ahead notes' os := by
  intro j b d le named found
  rcases noted b with same | ⟨target, now⟩
  · exact awaits j b d le named (same ▸ found)
  · obtain ⟨there, nested, inside, depth⟩ := fits j b le named target
    refine ⟨there, nested, ?_, inside⟩
    rw [now, Option.some.injEq] at found
    subst found
    cases seen : notes.lookup b with
    | none =>
        rcases depth with same | ⟨some, -⟩
        · exact same
        · rw [seen] at some
          cases some
    | some old =>
        obtain ⟨there', nested', rfl, -⟩ := awaits j b old le named seen
        rw [nested] at nested'
        cases nested'
        refine OpenDepths.min_of_within ?_
        rcases depth with rfl | ⟨-, within⟩
        · exact OpenDepths.within_refl _
        · exact within

theorem Awaits.cons {ctx : Context} {code : List Instruction} {ahead : Nat}
    {notes : List (BlockId × OpenDepths)} {os : List Opening}
    (awaits : Awaits ctx code ahead notes os) (o : Opening) :
    Awaits ctx code ahead notes (o :: os) := by
  intro j b d le named found
  obtain ⟨there, at_j, depth, inside⟩ := awaits j b d le named found
  exact ⟨there, at_j, depth, inside.trans (List.suffix_cons o os)⟩

/-- Brackets that are closed are not awaited. -/
theorem Awaits.outer {ctx : Context} {code : List Instruction} {start : State} {k ahead : Nat}
    {notes : List (BlockId × OpenDepths)} {inner outer : List Frame}
    (awaits : Awaits ctx code ahead notes (openings (inner ++ outer)))
    (stacked : Stacked ctx code start k (inner ++ outer)) (le : k ≤ ahead)
    (here : nesting code k = some (openings outer))
    (within : ∀ j b, ctx.labels.blockAt? j = some b → j ≤ code.length) :
    Awaits ctx code ahead notes (openings outer) := by
  intro j b d later named found
  obtain ⟨there, at_j, depth, inside⟩ := awaits j b d later named found
  have descends := stacked.descends
  rw [openings_append] at inside descends
  exact ⟨there, at_j, depth, suffix_of_later (Nat.le_trans le later) (within j b named) here at_j
    descends inside⟩

/-! ### The invariant -/

/-- Where code is skipped, the state holds brackets of the code, and inside them some
that have been closed. -/
def Loose (code : List Instruction) (k : Nat) (fs : List Frame) : Prop :=
  ∃ here inner outer, nesting code k = some here ∧ fs = inner ++ outer ∧ NoLoops inner ∧
    openings outer <:+ here

theorem loose_of_nesting {code : List Instruction} {k : Nat} {fs : List Frame}
    (here : nesting code k = some (openings fs)) : Loose code k fs :=
  ⟨_, [], fs, here, rfl, noLoops_nil, List.suffix_refl _⟩

/-- The brackets of the state at an offset, and the edges to labels from `ahead` on. -/
structure Nests (unit : CodeUnit) (ctx : Context) (start : State) (k ahead : Nat) (s : State)
    (fs : List Frame) : Prop where
  holds : Matches s fs
  stacked : Stacked ctx unit.instructions start k fs
  live : s.live = true → nesting unit.instructions k = some (openings fs)
  loose : Loose unit.instructions k fs
  awaits : Awaits ctx unit.instructions ahead s.edgeDepths (openings fs)
  shaped : ∀ j b, ahead ≤ j → ctx.labels.blockAt? j = some b → (s.draft.shape? b).isSome →
    (s.edgeDepths.lookup b).isSome
  ends : ∀ l ∈ s.loops, (s.edgeDepths.lookup l.loopEnd).isSome

namespace Nests

section

variable {unit : CodeUnit} {ctx : Context} {start s s' : State} {k ahead : Nat} {fs : List Frame}

theorem mono (nests : Nests unit ctx start k ahead s fs) {later : Nat} (le : ahead ≤ later) :
    Nests unit ctx start k later s fs :=
  { nests with
    awaits := fun j b d le' => nests.awaits j b d (Nat.le_trans le le')
    shaped := fun j b le' => nests.shaped j b (Nat.le_trans le le') }

/-- The draft may be moved and the stack may change. -/
theorem change (nests : Nests unit ctx start k ahead s fs) (brackets : s'.brackets = s.brackets)
    (notes : s'.edgeDepths = s.edgeDepths) (shapes : s'.draft.shapes = s.draft.shapes)
    (live : s'.live = true → nesting unit.instructions k = some (openings fs)) :
    Nests unit ctx start k ahead s' fs where
  holds := nests.holds.of_eq brackets
  stacked := nests.stacked
  live := live
  loose := nests.loose
  awaits := notes ▸ nests.awaits
  shaped j b le named some := by
    rw [notes]
    rw [Draft.shape?, shapes] at some
    exact nests.shaped j b le named some
  ends l mem := by
    have loops : s'.loops = s.loops := congrArg (·.1) brackets
    rw [notes]
    exact nests.ends l (loops ▸ mem)

/-- Edges that lead to no label ahead change nothing. -/
theorem steady {T : BlockId → Prop} (nests : Nests unit ctx start k ahead s fs)
    (steady : Steady T s s')
    (none : ∀ j b, ahead ≤ j → ctx.labels.blockAt? j = some b → ¬T b)
    (live : s'.live = true → nesting unit.instructions k = some (openings fs)) :
    Nests unit ctx start k ahead s' fs where
  holds := nests.holds.of_eq steady.brackets
  stacked := nests.stacked
  live := live
  loose := nests.loose
  awaits := nests.awaits.noted steady.notes fun j b le named target => absurd target (none j b le named)
  shaped j b le named some := by
    rcases steady.noticed b some with some | noted
    · exact steady.notes.isSome (nests.shaped j b le named some)
    · exact noted
  ends l mem := by
    have loops : s'.loops = s.loops := congrArg (·.1) steady.brackets
    exact steady.notes.isSome (nests.ends l (loops ▸ mem))

end

/-! ### Arriving at an instruction -/

section

variable {unit : CodeUnit} {ctx : Context} {start s a : State} {k : Nat} {fs : List Frame} {b : BlockId}

/-- The frames that are open at a label are the outer ones. -/
theorem split (nests : Nests unit ctx start k k s fs) {depths : OpenDepths}
    (named : ctx.labels.blockAt? k = some b) (noted : s.edgeDepths.lookup b = some depths) :
    ∃ inner outer, fs = inner ++ outer ∧ NoLoops inner ∧ depths = depthsOf (openings outer) ∧
      nesting unit.instructions k = some (openings outer) := by
  obtain ⟨here, at_k, rfl, ⟨dropped, whole⟩⟩ := nests.awaits k b depths (Nat.le_refl _) named noted
  obtain ⟨inner, outer, rfl, isDropped, rfl⟩ := List.map_eq_append_iff.mp whole.symm
  refine ⟨inner, outer, rfl, ?_, rfl, at_k⟩
  -- no loop is among the inner frames, as those of the skipped code are above them
  obtain ⟨here', inner', outer', at_k', same, noLoops, inside⟩ := nests.loose
  rw [at_k] at at_k'
  cases at_k'
  have shorter : outer'.length ≤ outer.length := by
    have le := inside.length_le
    rwa [openings, List.length_map, List.length_map] at le
  have longer : inner.length ≤ inner'.length := by
    have lengths := congrArg List.length same
    rw [List.length_append, List.length_append] at lengths
    omega
  have isFront : inner <+: inner' :=
    List.prefix_of_prefix_length_le ⟨outer, rfl⟩ ⟨outer', same.symm⟩ longer
  exact fun f mem => noLoops f (isFront.subset mem)

theorem arriveAt (nests : Nests unit ctx start k k s fs)
    (within : ∀ j b, ctx.labels.blockAt? j = some b → j ≤ unit.size)
    (named : ctx.labels.blockAt? k = some b) (h : arriveAt b false s = .ok () a) :
    ∃ fs', Nests unit ctx start k (k + 1) a fs' ∧ (a.live = false → fs' = fs) := by
  have later := nests.mono (Nat.le_succ k)
  rw [Lowering.arriveAt] at h
  cases shape : s.draft.shape? b with
  | none =>
      rw [shape] at h
      cases h
      exact ⟨fs, later.change rfl rfl rfl (fun live => Bool.noConfusion live), fun _ => rfl⟩
  | some phis =>
      rw [shape] at h
      simp only [Bool.false_eq_true, if_false] at h
      have noted := nests.shaped k b (Nat.le_refl _) named (by rw [shape]; rfl)
      obtain ⟨depths, noted⟩ := Option.isSome_iff_exists.mp noted
      rw [noted] at h
      cases h
      obtain ⟨inner, outer, rfl, noLoops, rfl, at_k⟩ := nests.split named noted
      refine ⟨outer, ⟨?_, nests.stacked.of_append, fun _ => at_k, loose_of_nesting at_k, ?_,
        later.shaped, ?_⟩, fun dead => Bool.noConfusion dead⟩
      · exact (nests.holds.truncate noLoops).of_eq rfl
      · exact later.awaits.outer nests.stacked (Nat.le_succ k) at_k within
      · exact nests.ends

theorem arrive (nests : Nests unit ctx start k k s fs) (distinct : ctx.labels.Distinct)
    (within : ∀ j b, ctx.labels.blockAt? j = some b → j ≤ unit.size)
    (known : ∀ j b, ctx.labels.blockAt? j = some b → ¬s.New b) (h : arrive ctx k s = .ok () a) :
    ∃ fs', Nests unit ctx start k (k + 1) a fs' ∧ (a.live = false → fs' = fs) := by
  have later := nests.mono (Nat.le_succ k)
  rw [Lowering.arrive] at h
  cases named : ctx.labels.blockAt? k with
  | none =>
      rw [named] at h
      cases h
      exact ⟨fs, later, fun _ => rfl⟩
  | some b =>
      rw [named] at h
      obtain ⟨_, _, h₁, h⟩ := bind_eq_ok_iff.mp h
      cases h₁
      split at h
      · cases h
        exact ⟨fs, later, fun _ => rfl⟩
      · split at h
        case isFalse => exact nests.arriveAt within named h
        case isTrue live =>
          obtain ⟨_, s₁, h₁, h₂⟩ := bind_eq_ok_iff.mp h
          have steady := keeps_jump (T := fun c => c = b ∨ s.New c) (Or.inl rfl) s () s₁
            (fun _ => Or.inr) h₁
          have away : ∀ j c, k + 1 ≤ j → ctx.labels.blockAt? j = some c → ¬(c = b ∨ s.New c) := by
            rintro j c le named' (rfl | new)
            · cases distinct named named'
              exact Nat.lt_irrefl _ le
            · exact known j c named' new
          have jumped := later.steady steady away fun _ => nests.live live
          refine ⟨fs, ?_, fun _ => rfl⟩
          rw [Lowering.arriveAt] at h₂
          split at h₂
          · cases h₂
            exact jumped.change rfl rfl rfl fun _ => nests.live live
          · cases h₂
            exact jumped.change rfl rfl rfl fun _ => nests.live live

end

/-! ### Skipped instructions -/

section

variable {unit : CodeUnit} {ctx : Context} {start s s' : State} {k : Nat} {fs : List Frame}
  {i : Instruction}

/-- In skipped code, frames are dropped only at the end of a loop. -/
inductive Drops : List Frame → List Frame → Prop
  | none {fs : List Frame} : Drops fs fs
  | loop {inner outer : List Frame} {o : Nat} {l : LoopContext} :
      Drops (inner ++ ⟨o, .loop l⟩ :: outer) outer

theorem suffix_of_nest {here next os : List Opening} (nests : i.nest k here = some next)
    (inside : os <:+ here) :
    os <:+ next ∨ ∃ opener j, i.closes? = some opener ∧ here = ⟨j, opener⟩ :: next ∧ os = here := by
  cases opens : i.opens? with
  | some opener =>
      rw [nest_of_opens opens] at nests
      cases nests
      exact Or.inl (inside.trans (List.suffix_cons _ _))
  | none =>
      cases closes : i.closes? with
      | none =>
          rw [nest_of_neither opens closes] at nests
          cases nests
          exact Or.inl inside
      | some opener =>
          obtain ⟨j, rfl⟩ := nest_of_closes closes nests
          rcases List.suffix_cons_iff.mp inside with all | inside
          · exact Or.inr ⟨opener, j, rfl, rfl, all⟩
          · exact Or.inl inside

/-- An instruction that is skipped leaves the brackets loose, unless it ends the loop that
is innermost. -/
theorem loose_succ (nested : unit.Nested ctx.pool) (loose : Loose unit.instructions k fs)
    (get : unit.instructions[k]? = some i)
    (notEnd : ∀ inner l outer o, i.closes? = some (.loop l.kind) → NoLoops inner →
      fs = inner ++ ⟨o, .loop l⟩ :: outer →
      nesting unit.instructions k ≠ some (⟨o, .loop l.kind⟩ :: openings outer)) :
    Loose unit.instructions (k + 1) fs := by
  obtain ⟨here, inner, outer, at_k, rfl, noLoops, inside⟩ := loose
  obtain ⟨next, at_next⟩ := nested.exists_nesting (k + 1)
  rcases suffix_of_nest (nest_of_nesting get at_k at_next) inside with inside | ⟨opener, j, closes,
    rfl, all⟩
  · exact ⟨next, inner, outer, at_next, rfl, noLoops, inside⟩
  · cases outer with
    | nil => cases all
    | cons f outer =>
        obtain ⟨first, rfl⟩ := List.cons.inj all
        refine ⟨_, inner ++ [f], outer, at_next, by simp, fun g mem => ?_, List.suffix_refl _⟩
        rcases List.mem_append.mp mem with mem | mem
        · exact noLoops g mem
        · obtain rfl := List.mem_singleton.mp mem
          obtain ⟨o, pending⟩ := g
          cases pending with
          | call c => rfl
          | assign scope => rfl
          | dispatch p calls => rfl
          | loop l =>
              cases first
              exact absurd at_k (notEnd inner l outer o closes noLoops rfl)

theorem skip (nests : Nests unit ctx start k (k + 1) s fs) (nested : unit.Nested ctx.pool)
    (resolves : ctx.labels.Resolves unit) (get : unit.instructions[k]? = some i)
    (arrives : arrival? ctx unit.instructions start k = some s) (dead : s.live = false)
    (h : skip ctx k i s = .ok () s') :
    ∃ fs', Nests unit ctx start (k + 1) (k + 1) s' fs' ∧ Drops fs fs' := by
  have stacked : Stacked ctx unit.instructions start (k + 1) fs :=
    nests.stacked.succ fun f _ _ => addedAt_of_dead arrives dead
  -- the state stays as it is
  have stays : (∀ inner l outer o, i.closes? = some (.loop l.kind) → NoLoops inner →
      fs = inner ++ ⟨o, .loop l⟩ :: outer →
      nesting unit.instructions k ≠ some (⟨o, .loop l.kind⟩ :: openings outer)) →
      s' = s → ∃ fs', Nests unit ctx start (k + 1) (k + 1) s' fs' ∧ Drops fs fs' := by
    rintro notEnd rfl
    exact ⟨fs, { nests with
      stacked := stacked
      live := fun live => by rw [dead] at live; cases live
      loose := loose_succ nested nests.loose get notEnd }, .none⟩
  rw [Lowering.skip.eq_def] at h
  split at h
  case h_2 notLoop =>
    cases h
    refine stays (fun inner l outer o closes => ?_) rfl
    cases i with
    | endLoop kind => exact absurd rfl (notLoop kind)
    | _ => cases closes
  case h_1 kind =>
    obtain ⟨_, _, h₁, h⟩ := bind_eq_ok_iff.mp h
    cases h₁
    cases loops : s.loops with
    | nil =>
        rw [loops] at h
        cases h
        refine stays (fun inner l outer o _ _ same => ?_) rfl
        have none := nests.holds.loops
        rw [loops, same, List.flatMap_append, List.flatMap_cons] at none
        simp [Pending.loops] at none
    | cons l rest =>
        rw [loops] at h
        simp only at h
        split at h
        case isTrue here =>
          obtain ⟨inner, o, outer, rfl, noLoops⟩ := nests.holds.exists_loop loops
          have below := nests.stacked.of_append
          obtain ⟨e, i', named, at_e, -, -⟩ := nested.exists_end resolves below
          -- the innermost loop ends here, and what is left open in it is dropped
          obtain rfl := resolves.distinct here named
          obtain ⟨l', s₁, h₁, h₂⟩ := bind_eq_ok_iff.mp h
          obtain ⟨rest', loops', isKind, rfl⟩ := popLoop_eq_ok h₁
          rw [loops] at loops'
          cases loops'
          cases h₂
          obtain ⟨next, at_next⟩ := nested.exists_nesting (k + 1)
          have nest := nest_of_nesting get at_e at_next
          obtain ⟨_, same⟩ := nest_of_closes rfl nest
          cases same
          have opened : l.opened = depthsOf (openings outer) := by
            cases below with
            | cons _ _ _ _ built _ _ => exact built.2.1
          have single : inner ++ ⟨o, .loop l⟩ :: outer = (inner ++ [⟨o, .loop l⟩]) ++ outer := by simp
          refine ⟨outer, ⟨?_, ?_, fun _ => at_next, loose_of_nesting at_next, ?_, nests.shaped, ?_⟩,
            .loop⟩
          · exact opened ▸ nests.holds.endLoop noLoops loops
          · exact (single ▸ stacked).of_append
          · rw [single] at stacked
            exact (single ▸ nests.awaits).outer stacked (Nat.le_refl _) at_next
              fun j b named => Nat.le_of_lt (resolves.within named)
          · exact fun l mem => nests.ends l (loops ▸ List.mem_cons_of_mem _ mem)
        case isFalse notHere =>
          cases h
          refine stays (fun inner l outer o closes noLoops same at_k => notHere ?_) rfl
          rw [same] at nests
          obtain ⟨e, i', named, at_e, get', closes'⟩ :=
            nested.exists_end resolves nests.stacked.of_append
          obtain rfl := closer_unique get at_k closes get' at_e closes'
          rw [named, nests.holds.loops_eq noLoops loops]

end

end Nests

end StackLift
