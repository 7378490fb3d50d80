import StackLift.Proofs.Nesting.Invariant

/-!
A pass over nested code. The main statements say what an instruction keeps of the
agreement between the brackets of the state and those of the code, `Nests.lower`, and
so what holds before every instruction, `nests_before`.
-/

namespace StackLift

open Lowering

/-! ### Adding arguments -/

theorem Pending.calls_of_takesArgs {p : Pending} (sized : p.Sized)
    (takes : p.opener.takesArgs = true) : ∃ c, p.calls = [c] := by
  cases p with
  | call c => exact ⟨c, rfl⟩
  | assign scope => cases takes
  | loop l => cases takes
  | dispatch p calls =>
      have notNary : p.kind.isNary = false := by simpa [opener, Opener.takesArgs] using takes
      rw [Sized, notNary] at sized
      exact List.length_eq_one_iff.mp sized

theorem Pending.calls_of_not_takesArgs {p : Pending} (sized : p.Sized)
    (takes : p.opener.takesArgs = false) : p.calls = [] := by
  cases p with
  | call c => cases takes
  | assign scope => rfl
  | loop l => rfl
  | dispatch p calls =>
      have nary : p.kind.isNary = true := by simpa [opener, Opener.takesArgs] using takes
      rw [Sized, nary] at sized
      exact List.length_eq_zero_iff.mp sized

/-- Arguments matter only to brackets that take them. -/
theorem Pending.Built.of_not_takesArgs {ctx : Context} {k : Nat} {outer : List Opening}
    {i : Instruction} {a : State} {own own' : List ArgValue} {p : Pending}
    (built : p.Built ctx k outer i a own) (takes : p.opener.takesArgs = false) :
    p.Built ctx k outer i a own' := by
  cases p with
  | call c => cases takes
  | assign scope => exact built
  | loop l => exact built
  | dispatch p calls =>
      have nary : p.kind.isNary = true := by simpa [opener, Opener.takesArgs] using takes
      obtain ⟨records, isNary, -⟩ := built
      exact ⟨records, isNary, fun notNary => by rw [nary] at notNary; cases notNary⟩

/-- A bracket with its call replaced. -/
def Pending.withCall (c : PendingCall) : Pending → Pending
  | .call _ => .call c
  | .dispatch p _ => .dispatch p [c]
  | p => p

theorem Pending.opener_withCall (c : PendingCall) (p : Pending) : (p.withCall c).opener = p.opener := by
  cases p <;> rfl

theorem Pending.loops_withCall (c : PendingCall) (p : Pending) : (p.withCall c).loops = p.loops := by
  cases p <;> rfl

theorem Pending.dispatches_withCall (c : PendingCall) (p : Pending) :
    (p.withCall c).dispatches = p.dispatches := by
  cases p <;> rfl

theorem Pending.calls_withCall {c : PendingCall} {p : Pending} (takes : p.opener.takesArgs = true) :
    (p.withCall c).calls = [c] := by
  cases p with
  | call d => rfl
  | assign scope => cases takes
  | dispatch p calls => rfl
  | loop l => cases takes

theorem Pending.sized_withCall (c : PendingCall) {p : Pending} (sized : p.Sized)
    (takes : p.opener.takesArgs = true) : (p.withCall c).Sized := by
  cases p with
  | call d => exact sized
  | assign scope => exact sized
  | loop l => exact sized
  | dispatch p calls =>
      have notNary : p.kind.isNary = false := by simpa [opener, Opener.takesArgs] using takes
      simp [withCall, Sized, notNary]

section

variable {ctx : Context} {code : List Instruction} {start : State} {k : Nat} {added : List ArgValue}

theorem Pending.Built.withCall {outer : List Opening} {i : Instruction} {a : State} {j : Nat}
    {own : List ArgValue} {p : Pending} {c c' : PendingCall} (built : p.Built ctx j outer i a own)
    (takes : p.opener.takesArgs = true) (calls : p.calls = [c]) (callee : c'.callee = c.callee)
    (args : c'.args.map (·.value) = c.args.map (·.value) ++ added) :
    (p.withCall c').Built ctx j outer i a (own ++ added) := by
  cases p with
  | assign scope => cases takes
  | loop l => cases takes
  | call d =>
      cases calls
      exact args.trans (congrArg (· ++ added) built)
  | dispatch p cs =>
      cases calls
      have notNary : p.kind.isNary = false := by simpa [opener, Opener.takesArgs] using takes
      obtain ⟨records, -, indices⟩ := built
      obtain ⟨target, d, tested, same, isBuiltin, given⟩ := indices notNary
      cases same
      refine ⟨records, fun nary => ?_, fun _ => ⟨target, c', tested, rfl, callee.trans isBuiltin, ?_⟩⟩
      · rw [notNary] at nary
        cases nary
      · rw [args, given, List.cons_append]

theorem Stacked.withCall {f : Frame} {rest : List Frame} {c c' : PendingCall}
    (stacked : Stacked ctx code start k (f :: rest)) (takes : f.pending.opener.takesArgs = true)
    (calls : f.pending.calls = [c]) (callee : c'.callee = c.callee)
    (args : c'.args.map (·.value) = c.args.map (·.value) ++ added)
    (top : ∀ j, addedAt ctx code start j k = if f.offset = j then added else []) :
    Stacked ctx code start (k + 1) (⟨f.offset, f.pending.withCall c'⟩ :: rest) := by
  have order := (List.pairwise_cons.mp stacked.descends.later).1
  cases stacked with
  | @cons _ _ i a visits opens nested given built later below =>
      refine .cons visits ?_ nested (fun _ => given takes) ?_ (Nat.lt_succ_of_lt later)
        (below.succ fun g mem _ => ?_)
      · rw [Pending.opener_withCall, opens]
      · rw [ownArgs_succ later, top, if_pos rfl]
        exact built.withCall takes calls callee args
      · rw [top, if_neg]
        have before := order g.opening (List.mem_map_of_mem mem)
        exact fun same => absurd before (Nat.not_lt_of_le (Nat.le_of_eq same))

/-- The innermost frame that takes arguments is given them. -/
theorem Stacked.regrow {fs : List Frame} {calls : List PendingCall}
    (stacked : Stacked ctx code start k fs) (sized : ∀ f ∈ fs, f.pending.Sized)
    (adds : ∀ j, addedAt ctx code start j k =
      if ((openings fs).find? (·.opener.takesArgs)).map (·.offset) = some j then added else [])
    (regrown : Regrown added (fs.flatMap (·.pending.calls)) calls) :
    ∃ fs', Stacked ctx code start (k + 1) fs' ∧ openings fs' = openings fs ∧
      fs'.flatMap (·.pending.calls) = calls ∧
      fs'.flatMap (·.pending.loops) = fs.flatMap (·.pending.loops) ∧
      fs'.flatMap (·.pending.dispatches) = fs.flatMap (·.pending.dispatches) ∧
      ∀ f ∈ fs', f.pending.Sized := by
  induction fs generalizing calls with
  | nil =>
      cases regrown with
      | same none => exact ⟨[], .nil, rfl, rfl, rfl, rfl, sized⟩
  | cons f rest ih =>
      obtain ⟨first, others⟩ := List.forall_mem_cons.mp sized
      cases stacked with
      | @cons _ _ i a visits opens nested given built later below =>
      cases takes : f.pending.opener.takesArgs with
      | false =>
          rw [List.flatMap_cons, Pending.calls_of_not_takesArgs first takes, List.nil_append] at regrown
          obtain ⟨rest', stacked, same, isCalls, loops, dispatches, sized⟩ := ih below others (by
            simpa [Frame.opening, List.find?_cons, takes] using adds) regrown
          refine ⟨f :: rest', .cons visits opens (same ▸ nested) ?_ ?_ (Nat.lt_succ_of_lt later) stacked,
            ?_, ?_, ?_, ?_, List.forall_mem_cons.mpr ⟨first, sized⟩⟩
          · intro takes'
            rw [takes] at takes'
            cases takes'
          · exact same ▸ built.of_not_takesArgs takes
          · rw [openings_cons, openings_cons, same]
          · rw [List.flatMap_cons, Pending.calls_of_not_takesArgs first takes, isCalls, List.nil_append]
          · rw [List.flatMap_cons, List.flatMap_cons, loops]
          · rw [List.flatMap_cons, List.flatMap_cons, dispatches]
      | true =>
          obtain ⟨c, hc⟩ := Pending.calls_of_takesArgs first takes
          have top : ∀ j, addedAt ctx code start j k = if f.offset = j then added else [] := by
            simpa [Frame.opening, List.find?_cons, takes] using adds
          have stacked : Stacked ctx code start k (f :: rest) :=
            .cons visits opens nested given built later below
          rw [List.flatMap_cons, hc] at regrown
          cases regrown with
          | same none =>
              refine ⟨f :: rest, stacked.succ fun g _ _ => ?_, rfl, ?_, rfl, rfl, sized⟩
              · rw [top, none, ite_self]
              · rw [List.flatMap_cons, hc]
          | @top _ c' _ callee args =>
              refine ⟨⟨f.offset, f.pending.withCall c'⟩ :: rest,
                stacked.withCall takes hc callee args top, ?_, ?_, ?_, ?_, ?_⟩
              · rw [openings_cons, openings_cons, Frame.opening, Pending.opener_withCall, Frame.opening]
              · rw [List.flatMap_cons, Pending.calls_withCall takes, List.cons_append, List.nil_append]
                rfl
              · rw [List.flatMap_cons, List.flatMap_cons, Pending.loops_withCall]
              · rw [List.flatMap_cons, List.flatMap_cons, Pending.dispatches_withCall]
              · exact List.forall_mem_cons.mpr ⟨Pending.sized_withCall c' first takes, others⟩

end

/-! ### One instruction -/

theorem adds_of_opens {i : Instruction} {opener : Opener} (opens : i.opens? = some opener) (a : State) :
    i.adds a = [] := by
  cases i <;> first | rfl | cases opens

theorem adds_of_closes {i : Instruction} {opener : Opener} (closes : i.closes? = some opener)
    (a : State) : i.adds a = [] := by
  cases i <;> first | rfl | cases closes

theorem within_suffix {i : Instruction} {opener : Opener} {k : Nat} {os : List Opening}
    (opens : i.opens? = some opener) : i.within k os <:+ ⟨k, opener⟩ :: os := by
  rw [Instruction.within, Instruction.opensLoop?, opens]
  cases opener with
  | loop kind => exact List.suffix_refl _
  | _ => exact List.suffix_cons _ _

theorem depthsOf_withinLoop (i : Instruction) (k : Nat) (os : List Opening) :
    depthsOf (i.within k os) = depthsOf os := by
  rw [Instruction.within]
  split
  · exact depthsOf_loop _ _ _
  · rfl

theorem Pending.Built.sized {ctx : Context} {k : Nat} {outer : List Opening} {i : Instruction}
    {a : State} {own : List ArgValue} {p : Pending} (built : p.Built ctx k outer i a own) : p.Sized := by
  cases p with
  | call c => trivial
  | assign scope => trivial
  | loop l => trivial
  | dispatch p calls =>
      obtain ⟨-, nary, notNary⟩ := built
      rw [Sized]
      cases isNary : p.kind.isNary with
      | true => rw [nary isNary]; rfl
      | false =>
          obtain ⟨target, c, -, rfl, -⟩ := notNary isNary
          rfl

namespace Nests

section

variable {unit : CodeUnit} {ctx : Context} {start a t : State} {k : Nat} {fs fs' : List Frame}
  {i : Instruction}

theorem advance (nests : Nests unit ctx start k (k + 1) a fs) (noticed : Noticed a t)
    (holds : Matches t fs') (stacked : Stacked ctx unit.instructions start (k + 1) fs')
    (here : nesting unit.instructions (k + 1) = some (openings fs'))
    (kept : ∀ b, (a.edgeDepths.lookup b).isSome → (t.edgeDepths.lookup b).isSome)
    (awaits : Awaits ctx unit.instructions (k + 1) t.edgeDepths (openings fs'))
    (ends : ∀ l ∈ t.loops, l ∈ a.loops ∨ (t.edgeDepths.lookup l.loopEnd).isSome) :
    Nests unit ctx start (k + 1) (k + 1) t fs' where
  holds := holds
  stacked := stacked
  live := fun _ => here
  loose := loose_of_nesting here
  awaits := awaits
  shaped j b le named some := by
    rcases noticed b some with some | noted
    · exact kept b (nests.shaped j b le named some)
    · exact noted
  ends l mem := by
    rcases ends l mem with old | noted
    · exact kept _ (nests.ends l old)
    · exact noted

variable (nests : Nests unit ctx start k (k + 1) a fs) (nested : unit.Nested ctx.pool)
  (resolves : ctx.labels.Resolves unit) (visits : Visits ctx unit.instructions start k i a)

include nests visits in
theorem addedAt_eq_nil (none : i.adds a = []) (j : Nat) :
    addedAt ctx unit.instructions start j k = [] := by
  rw [addedAt_of_visits visits (nests.live visits.live), none, ite_self]

include nests visits in
/-- An instruction opens a bracket inside those that are open. -/
theorem push {p : Pending} (opens : i.opens? = some p.opener)
    (built : p.Built ctx k (openings fs) i a []) :
    Stacked ctx unit.instructions start (k + 1) (⟨k, p⟩ :: fs) ∧
      nesting unit.instructions (k + 1) = some (openings (⟨k, p⟩ :: fs)) := by
  have at_k := nests.live visits.live
  constructor
  · refine .cons visits opens at_k (fun _ => nests.holds.calls) ?_ (Nat.lt_succ_self k)
      (nests.stacked.succ fun f _ _ => nests.addedAt_eq_nil visits (adds_of_opens opens a) f.offset)
    exact ownArgs_self ▸ built
  · rw [nesting_succ visits.get, at_k, Option.bind_some, nest_of_opens opens]
    rfl

include nests nested resolves visits in
/-- An instruction closes the innermost bracket. -/
theorem pop {opener : Opener} (closes : i.closes? = some opener) :
    ∃ f rest, fs = f :: rest ∧ f.pending.opener = opener ∧
      Stacked ctx unit.instructions start (k + 1) rest ∧
      nesting unit.instructions (k + 1) = some (openings rest) ∧
      Awaits ctx unit.instructions (k + 1) a.edgeDepths (openings rest) := by
  have at_k := nests.live visits.live
  obtain ⟨next, at_next⟩ := nested.exists_nesting (k + 1)
  obtain ⟨j, same⟩ := nest_of_closes closes (nest_of_nesting visits.get at_k at_next)
  have stacked := nests.stacked.succ fun f _ _ =>
    nests.addedAt_eq_nil visits (adds_of_closes closes a) f.offset
  cases fs with
  | nil => cases same
  | cons f rest =>
      obtain ⟨first, rfl⟩ := List.cons.inj same
      refine ⟨f, rest, rfl, congrArg Opening.opener first, stacked.tail, at_next, ?_⟩
      have single : f :: rest = [f] ++ rest := rfl
      rw [single] at stacked nests
      exact nests.awaits.outer stacked (Nat.le_refl _) at_next
        fun j b named => Nat.le_of_lt (resolves.within named)

end

/-! ### Edges that an instruction notes -/

section

variable {unit : CodeUnit} {ctx : Context} {start a t : State} {k : Nat} {fs : List Frame}
  {i : Instruction} (nests : Nests unit ctx start k (k + 1) a fs) (nested : unit.Nested ctx.pool)
  (resolves : ctx.labels.Resolves unit) (visits : Visits ctx unit.instructions start k i a)
  (known : ∀ j b, ctx.labels.blockAt? j = some b → ¬a.New b)

include nests nested resolves visits in
/-- A jump to a label ahead has open what is open there. -/
theorem nesting_aim {j : Nat} {b : BlockId} (le : k + 1 ≤ j)
    (named : ctx.labels.blockAt? j = some b) (aims : i.Aims ctx b) :
    nesting unit.instructions j = some (i.within k (openings fs)) := by
  rw [nested.nesting_target resolves visits.get aims named le, nests.live visits.live]
  rfl

include nests nested resolves in
/-- A jump out of the innermost loop has at least open what is open at its end; the edge
from its start has just that. -/
theorem nesting_loopTarget {j : Nat} {b : BlockId} (le : k + 1 ≤ j)
    (named : ctx.labels.blockAt? j = some b) (target : a.LoopTarget b) :
    ∃ there, nesting unit.instructions j = some there ∧ there <:+ openings fs ∧
      (a.edgeDepths.lookup b).isSome := by
  obtain ⟨l, rest, loops, isTarget⟩ := target
  obtain ⟨inner, o, outer, rfl, noLoops⟩ := nests.holds.exists_loop loops
  have below := nests.stacked.of_append
  rcases isTarget with rfl | rfl
  · obtain ⟨e, i', named', at_e, -, -⟩ := nested.exists_end resolves below
    obtain rfl := resolves.distinct named named'
    refine ⟨_, at_e, ⟨openings inner, ?_⟩, nests.ends l (loops ▸ List.mem_cons_self)⟩
    rw [openings_append]
    rfl
  · -- the start of the loop lies behind
    cases below with
    | cons _ _ _ _ built later _ =>
        have at_next : j = o + 1 := built.2.2 j named
        have before : o < k := later
        omega

include nests nested resolves visits known in
theorem awaits_stays (opens : i.opens? = none) {notes : List (BlockId × OpenDepths)}
    (noted : Noted (fun b => i.Aims ctx b ∨ a.LoopTarget b ∨ a.New b) a.openDepths a.edgeDepths notes) :
    Awaits ctx unit.instructions (k + 1) notes (openings fs) := by
  refine nests.awaits.noted noted fun j b le named target => ?_
  rcases target with aims | target | new
  · have there := nests.nesting_aim nested resolves visits le named aims
    rw [Instruction.within, Instruction.opensLoop?, opens] at there
    exact ⟨_, there, List.suffix_refl _, Or.inl nests.holds.openDepths⟩
  · obtain ⟨there, at_j, inside, old⟩ := nests.nesting_loopTarget nested resolves le named target
    refine ⟨there, at_j, inside, Or.inr ⟨old, ?_⟩⟩
    rw [nests.holds.openDepths]
    exact depthsOf_within inside
  · exact absurd new (known j b named)

end

/-! ### Lowering an instruction -/

section

variable {unit : CodeUnit} {ctx : Context} {start a t : State} {k : Nat} {fs : List Frame}
  {i : Instruction} (nests : Nests unit ctx start k (k + 1) a fs) (nested : unit.Nested ctx.pool)
  (resolves : ctx.labels.Resolves unit) (visits : Visits ctx unit.instructions start k i a)
  (known : ∀ j b, ctx.labels.blockAt? j = some b → ¬a.New b)

include nests visits in
/-- An instruction opens a bracket; the labels that it jumps to have open what is open
there. -/
theorem enter (p : Pending) {T : BlockId → Prop} (noticed : Noticed a t)
    (opens : i.opens? = some p.opener) (built : p.Built ctx k (openings fs) i a []) (sized : p.Sized)
    (brackets : t.loops = p.loops ++ a.loops ∧ t.calls = p.calls ++ a.calls ∧
      t.assigns.length = p.opener.depths.assigns + a.assigns.length ∧
      t.dispatches = p.dispatches ++ a.dispatches)
    (notes : Noted T a.openDepths a.edgeDepths t.edgeDepths)
    (targets : ∀ j b, k + 1 ≤ j → ctx.labels.blockAt? j = some b → T b →
      nesting unit.instructions j = some (i.within k (openings fs)))
    (ends : ∀ l ∈ p.loops, (t.edgeDepths.lookup l.loopEnd).isSome) :
    ∃ fs', nesting unit.instructions (k + 1) = some (openings fs') ∧
      Nests unit ctx start (k + 1) (k + 1) t fs' := by
  obtain ⟨stacked, here⟩ := nests.push visits opens built
  obtain ⟨loops, calls, assigns, dispatches⟩ := brackets
  refine ⟨_, here, nests.advance noticed (nests.holds.push k loops calls assigns dispatches sized)
    stacked here (fun b => notes.isSome) ?_ ?_⟩
  · refine (nests.awaits.cons _).noted notes fun j b le named target => ?_
    refine ⟨_, targets j b le named target, within_suffix opens, Or.inl ?_⟩
    rw [depthsOf_withinLoop, nests.holds.openDepths]
  · intro l mem
    rw [loops] at mem
    rcases List.mem_append.mp mem with new | old
    · exact Or.inr (ends l new)
    · exact Or.inl old

include nests nested resolves visits known in
/-- An instruction closes the innermost bracket, and jumps at most to the next one. -/
theorem leave {opener : Opener} {T : BlockId → Prop} (loops : List LoopContext)
    (calls : List PendingCall) (dispatches : List PendingDispatch) (noticed : Noticed a t)
    (closes : i.closes? = some opener)
    (brackets : a.loops = loops ++ t.loops ∧ a.calls = calls ++ t.calls ∧
      a.assigns.length = opener.depths.assigns + t.assigns.length ∧
      a.dispatches = dispatches ++ t.dispatches)
    (counts : loops.length = opener.loops ∧ calls.length = opener.depths.calls ∧
      dispatches.length = opener.depths.dispatches)
    (notes : Noted T t.openDepths a.edgeDepths t.edgeDepths)
    (targets : ∀ b, T b → ctx.labels.blockAt? (k + 1) = some b ∨ a.New b) :
    ∃ fs', nesting unit.instructions (k + 1) = some (openings fs') ∧
      Nests unit ctx start (k + 1) (k + 1) t fs' := by
  obtain ⟨f, rest, rfl, rfl, stacked, here, awaits⟩ := nests.pop nested resolves visits closes
  obtain ⟨isLoops, isCalls, isAssigns, isDispatches⟩ := brackets
  obtain ⟨holds, -⟩ := nests.holds.pop isLoops isCalls isAssigns isDispatches counts.1 counts.2.1
    counts.2.2
  refine ⟨rest, here, nests.advance noticed holds stacked here (fun b => notes.isSome) ?_ ?_⟩
  · refine awaits.noted notes fun j b _ named target => ?_
    rcases targets b target with at_next | new
    · obtain rfl := resolves.distinct at_next named
      exact ⟨_, here, List.suffix_refl _, Or.inl holds.openDepths⟩
    · exact absurd new (known j b named)
  · exact fun l mem => Or.inl (isLoops ▸ List.mem_append_right _ mem)

include nests nested resolves visits known in
/-- Lowering an instruction changes the brackets of the state as it changes those of the
code. -/
theorem lower (moves : Moves ctx k i a t) :
    ∃ fs', nesting unit.instructions (k + 1) = some (openings fs') ∧
      Nests unit ctx start (k + 1) (k + 1) t fs' := by
  obtain ⟨noticed, effect⟩ := moves
  have at_k := nests.live visits.live
  have nothing : ∀ {d : OpenDepths} {notes : List (BlockId × OpenDepths)}, notes = a.edgeDepths →
      Noted (fun _ => False) d a.edgeDepths notes := fun same => same ▸ .refl _ _ _
  cases effect with
  | stays opens closes calls loops assigns dispatches notes =>
      rw [nests.holds.calls] at calls
      obtain ⟨fs', stacked, same, isCalls, isLoops, isDispatches, sized⟩ :=
        nests.stacked.regrow nests.holds.sized (fun j => addedAt_of_visits visits at_k) calls
      have here : nesting unit.instructions (k + 1) = some (openings fs') := by
        rw [nesting_succ visits.get, at_k, Option.bind_some, nest_of_neither opens closes, same]
      refine ⟨fs', here, nests.advance noticed ?_ stacked here (fun b => notes.isSome) ?_ ?_⟩
      · refine ⟨?_, isCalls.symm, ?_, ?_, sized⟩
        · rw [loops, nests.holds.loops, isLoops]
        · rw [assigns, nests.holds.assigns, same]
        · rw [dispatches, nests.holds.dispatches, isDispatches]
      · exact same ▸ nests.awaits_stays nested resolves visits known opens notes
      · exact fun l mem => Or.inl (loops ▸ mem)
  | opensCall opens c noArgs brackets notes =>
      simp only [State.brackets, Prod.mk.injEq] at brackets
      obtain ⟨loops, calls, assigns, dispatches⟩ := brackets
      have built : (Pending.call c).Built ctx k (openings fs) i a [] := by
        rw [Pending.Built, noArgs, List.map_nil]
      refine nests.enter visits (.call c) noticed opens built trivial ⟨loops, calls, ?_, dispatches⟩
        (nothing notes) (fun _ _ _ _ => False.elim) fun l mem => absurd mem List.not_mem_nil
      rw [assigns]
      exact (Nat.zero_add _).symm
  | opensAssign scope opens pending brackets notes =>
      simp only [State.brackets, Prod.mk.injEq] at brackets
      obtain ⟨loops, calls, assigns, dispatches⟩ := brackets
      refine nests.enter visits (.assign scope) noticed opens trivial trivial
        ⟨loops, calls, ?_, dispatches⟩ (nothing notes) (fun _ _ _ _ => False.elim)
        fun l mem => absurd mem List.not_mem_nil
      rw [assigns]
      exact Nat.add_comm _ _
  | opensDispatch kind opens calls nary notNary p isKind records brackets notes =>
      simp only [State.brackets, Prod.mk.injEq] at brackets
      obtain ⟨loops, isCalls, assigns, dispatches⟩ := brackets
      subst isKind
      have built : (Pending.dispatch p calls).Built ctx k (openings fs) i a [] := by
        refine ⟨records, nary, fun isNary => ?_⟩
        obtain ⟨target, tested, rfl⟩ := notNary isNary
        exact ⟨target, _, tested, rfl, rfl, rfl⟩
      refine nests.enter visits (.dispatch p calls) noticed opens built built.sized
        ⟨loops, isCalls, ?_, dispatches⟩ notes
        (fun j b le named target => ?_) fun l mem => absurd mem List.not_mem_nil
      · rw [assigns]
        exact (Nat.zero_add _).symm
      · rcases target with aims | new
        · exact nests.nesting_aim nested resolves visits le named aims
        · exact absurd new (known j b named)
  | opensLoop l opens loopEnd next opened noted brackets notes =>
      simp only [State.brackets, Prod.mk.injEq] at brackets
      obtain ⟨loops, calls, assigns, dispatches⟩ := brackets
      have built : (Pending.loop l).Built ctx k (openings fs) i a [] := by
        refine ⟨loopEnd, opened.trans nests.holds.openDepths, fun m named => ?_⟩
        rcases next with at_next | new
        · exact resolves.distinct named at_next
        · exact absurd new (known m _ named)
      refine nests.enter visits (.loop l) noticed opens built trivial ⟨loops, calls, ?_, dispatches⟩ notes
        (fun j b le named target => ?_) fun l' mem => ?_
      · rw [assigns]
        exact (Nat.zero_add _).symm
      · rcases target with aims | at_next | new
        · exact nests.nesting_aim nested resolves visits le named aims
        · obtain rfl := resolves.distinct at_next named
          rw [nesting_succ visits.get, at_k, Option.bind_some, nest_of_opens opens, Instruction.within,
            opensLoop?_of_opens opens]
        · exact absurd new (known j b named)
      · obtain rfl := List.mem_singleton.mp mem
        exact noted
  | closesCall closes c calls loops assigns dispatches notes =>
      refine nests.leave nested resolves visits known [] [c] [] noticed closes
        ⟨loops.symm, calls, ?_, dispatches.symm⟩ ⟨rfl, rfl, rfl⟩ notes fun _ => Or.inr
      rw [assigns]
      exact (Nat.zero_add _).symm
  | closesAssign scope closes pending brackets notes =>
      simp only [State.brackets, Prod.mk.injEq] at brackets
      obtain ⟨loops, calls, assigns, dispatches⟩ := brackets
      refine nests.leave nested resolves visits known [] [] [] noticed closes
        ⟨loops, calls, ?_, dispatches⟩ ⟨rfl, rfl, rfl⟩ (nothing notes) fun _ => False.elim
      rw [assigns]
      exact Nat.add_comm _ _
  | closesDispatch kind closes calls count p isKind brackets notes =>
      simp only [State.brackets, Prod.mk.injEq] at brackets
      obtain ⟨loops, isCalls, assigns, dispatches⟩ := brackets
      refine nests.leave nested resolves visits known [] calls [p] noticed closes
        ⟨loops, isCalls, ?_, dispatches⟩ ⟨rfl, count, rfl⟩ notes fun _ => id
      rw [assigns]
      exact (Nat.zero_add _).symm
  | closesLoop l closes atEnd brackets notes =>
      simp only [State.brackets, Prod.mk.injEq] at brackets
      obtain ⟨loops, calls, assigns, dispatches⟩ := brackets
      refine nests.leave nested resolves visits known [l] [] [] noticed closes
        ⟨loops, calls, ?_, dispatches⟩ ⟨rfl, rfl, rfl⟩ (nothing notes) fun _ => False.elim
      rw [assigns]
      exact (Nat.zero_add _).symm

end

end Nests

/-! ### The run -/

/-- The blocks of labels are there from the beginning. -/
theorem Lowering.Inv.not_new {ctx : Context} {carry : Carry} {base : Draft} {aside : BlockId → Prop}
    {phase : Phase} {hand : List (ValueId × ValueType)} {s : State}
    (inv : Inv ctx carry base aside phase hand s) (j : Nat) (b : BlockId)
    (named : ctx.labels.blockAt? j = some b) : ¬s.New b := by
  intro new
  have live := (inv.plain_label ⟨j, named⟩).live
  rw [Graph.block?, List.getElem?_eq_none new] at live
  cases live

theorem Lowering.Between.not_new {ctx : Context} {k : Nat} {s : State} (between : Between ctx k s)
    (j : Nat) (b : BlockId) (named : ctx.labels.blockAt? j = some b) : ¬s.New b := by
  cases between with
  | dead _ inv => exact inv.not_new j b named
  | live _ goes =>
      cases goes with
      | here inv => exact inv.not_new j b named
      | inNext inv _ => exact inv.not_new j b named

section

variable {unit : CodeUnit} {pool : Pool} {kind : UnitKind} {labels : LabelMap} {draft : Draft}
  (start : unit.Start pool kind labels draft) (nested : unit.Nested pool)

include start in
theorem nests_start : Nests unit ⟨pool, labels, kind⟩ { draft } 0 0 { draft } [] where
  holds := ⟨rfl, rfl, rfl, rfl, fun f mem => absurd mem List.not_mem_nil⟩
  stacked := .nil
  live := fun _ => nesting_zero
  loose := loose_of_nesting nesting_zero
  awaits := fun j b d _ _ found => by cases found
  shaped := by
    intro j b _ named some
    rw [start.bare.shape (start.inv.aside ⟨j, named⟩).2] at some
    cases some
  ends := fun l mem => absurd mem List.not_mem_nil

/-- What an instruction does to the brackets, whether it is lowered or skipped. -/
structure Nests.Stepped (unit : CodeUnit) (ctx : Context) (start : State) (k : Nat) (i : Instruction)
    (fs fs' : List Frame) (a s' : State) : Prop where
  arrived : ∃ fs₁, Nests unit ctx start k (k + 1) a fs₁ ∧
    (a.live = false → fs₁ = fs ∧ Drops fs fs')
  lowered : a.live = true → nesting unit.instructions (k + 1) = some (openings fs')
  next : Nests unit ctx start (k + 1) (k + 1) s' fs'

include start nested in
theorem Nests.step {k : Nat} {i : Instruction} {s s' : State} {fs : List Frame}
    (get : unit.instructions[k]? = some i)
    (before : Before ⟨pool, labels, kind⟩ unit.instructions { draft } k s)
    (nests : Nests unit ⟨pool, labels, kind⟩ { draft } k k s fs)
    (h : step ⟨pool, labels, kind⟩ k i s = .ok () s') :
    ∃ a fs', Lowering.arrive ⟨pool, labels, kind⟩ k s = .ok () a ∧
      Nests.Stepped unit ⟨pool, labels, kind⟩ { draft } k i fs fs' a s' := by
  have resolves := start.resolves
  have between := between_before resolves.distinct start.between
    (Nat.le_of_lt (List.getElem?_eq_some_iff.mp get).1) before
  obtain ⟨a, arrives, rest⟩ := step_eq_ok.mp h
  obtain ⟨fs₁, arrived, same⟩ := nests.arrive resolves.distinct
    (fun j b named => Nat.le_of_lt (resolves.within named)) between.not_new arrives
  rcases rest with ⟨live, t, lowers, rfl⟩ | ⟨dead, skips⟩
  · have visits : Visits ⟨pool, labels, kind⟩ unit.instructions { draft } k i a :=
      ⟨get, ⟨s, before, arrives⟩, live⟩
    have inv := (between.arrive resolves.distinct arrives).inv live
    obtain ⟨fs', here, next⟩ :=
      arrived.lower nested resolves visits inv.not_new (moves_of_lower lowers)
    refine ⟨a, fs', arrives, ⟨fs₁, arrived, fun dead => ?_⟩, fun _ => here, ?_⟩
    · rw [live] at dead
      cases dead
    · split
      · exact next.change rfl rfl rfl fun _ => here
      · exact next
  · obtain ⟨fs', next, drops⟩ :=
      arrived.skip nested resolves get (arrival?_eq_some.mpr ⟨_, before, arrives⟩) dead skips
    cases same dead
    refine ⟨a, fs', arrives, ⟨fs, arrived, fun _ => ⟨rfl, drops⟩⟩, fun live => ?_, next⟩
    rw [dead] at live
    cases live

include start nested in
/-- Before every instruction the brackets of the state agree with those of the code. -/
theorem nests_before {k : Nat} {s : State} (le : k ≤ unit.size)
    (before : Before ⟨pool, labels, kind⟩ unit.instructions { draft } k s) :
    ∃ fs, Nests unit ⟨pool, labels, kind⟩ { draft } k k s fs := by
  refine run_induction (P := fun k s => ∃ fs, Nests unit ⟨pool, labels, kind⟩ { draft } k k s fs)
    ⟨[], nests_start start⟩ ?_ le before
  intro k i s s' get before ⟨fs, nests⟩ h
  obtain ⟨a, fs', -, stepped⟩ := nests.step start nested get before h
  exact ⟨fs', stepped.next⟩

include start nested in
theorem nests_visits {k : Nat} {i : Instruction} {a : State}
    (visits : Visits ⟨pool, labels, kind⟩ unit.instructions { draft } k i a) :
    ∃ fs, Nests unit ⟨pool, labels, kind⟩ { draft } k (k + 1) a fs := by
  obtain ⟨s, before, arrives⟩ := visits.arrives
  have le : k ≤ unit.size := Nat.le_of_lt (List.getElem?_eq_some_iff.mp visits.get).1
  obtain ⟨fs, nests⟩ := nests_before start nested le before
  have between := between_before start.resolves.distinct start.between le before
  obtain ⟨fs', arrived, -⟩ := nests.arrive start.resolves.distinct
    (fun j b named => Nat.le_of_lt (start.resolves.within named)) between.not_new arrives
  exact ⟨fs', arrived⟩

end

end StackLift
