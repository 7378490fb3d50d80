import StackLift.Proofs.Core.Run
import StackLift.Proofs.Nesting.Run

/-!
Arriving at an offset while brackets are open. Each label has a depth of the stack that
every edge to it brings, and the pass has come to every label behind it that an edge leads
to. `Level` says so of a state, together with what is kept of open loops, and
`LevelBefore.arrive` takes it from before an offset to the instruction there.
-/

namespace StackLift

open Lowering

/-- The block has this end. -/
def Draft.Ends (d : Draft) (b : BlockId) (t : Terminator) : Prop :=
  ∃ block, d.graph.block? b = some block ∧ block.terminator = some t

theorem Draft.Ends.mono {d d' : Draft} {b : BlockId} {t : Terminator} (ends : d.Ends b t)
    (grows : d.Grows d') : d'.Ends b t := by
  obtain ⟨block, live, last⟩ := ends
  obtain ⟨block', live', grown⟩ := grows.block live
  obtain ⟨-, same⟩ := grown.ended (by rw [last]; rfl)
  exact ⟨block', live', same.trans last⟩

namespace Lowering

variable {ctx : Context} {code : List Instruction} {start s a : State} {depth : Nat → Nat} {k : Nat}

/-- What is kept of a loop that is open: the instruction at `o` opened it, in a block that
goes on to where the loop is repeated, and it ends at `e`. -/
structure Opened (ctx : Context) (code : List Instruction) (start : State) (depth : Nat → Nat)
    (d : Draft) (l : LoopContext) (o e : Nat) : Prop where
  visits : ∃ i a, Visits ctx code start o i a ∧ i.opensLoop? = some l.kind ∧
    i.Aims ctx l.loopEnd ∧ d.Ends a.draft.cursor (.goto l.next)
  ends : ctx.labels.blockAt? e = some l.loopEnd
  shape : ∃ phis, d.shape? l.next = some phis ∧ phis.length = depth e
  head : l.kind = .whileOrRepeat → ∀ b, ctx.labels.blockAt? (o + 1) = some b → l.next = b

theorem Opened.mono {d d' : Draft} {l : LoopContext} {o e : Nat}
    (opened : Opened ctx code start depth d l o e) (grows : d.Grows d') :
    Opened ctx code start depth d' l o e := by
  obtain ⟨i, a, visits, opens, aims, goes⟩ := opened.visits
  obtain ⟨phis, shape, length⟩ := opened.shape
  exact { opened with
    visits := ⟨i, a, visits, opens, aims, goes.mono grows⟩
    shape := ⟨phis, grows.shape shape, length⟩ }

/-- Labels are as deep as they should be, no block was left without an end but those of
labels that the pass has not come to, and the loops are in order. -/
structure Level (ctx : Context) (code : List Instruction) (start : State) (depth : Nat → Nat)
    (k : Nat) (s : State) : Prop where
  shaped : ∀ {j : Nat} {b : BlockId} {phis : List ValueId}, ctx.labels.blockAt? j = some b →
    s.draft.shape? b = some phis → phis.length = depth j ∧ (k ≤ j ∨ Visited ctx code start j)
  loops : ∀ l ∈ s.loops, ∃ o e, Opened ctx code start depth s.draft l o e
  tidy : s.draft.Tidy (ctx.Unvisited (Visited ctx code start) k)

/-- The state before an offset. -/
structure LevelBefore (ctx : Context) (code : List Instruction) (start : State)
    (depth : Nat → Nat) (k : Nat) (s : State) : Prop extends Level ctx code start depth k s where
  here : s.live = true → s.stack.items.length = depth k
  fresh : ctx.labels.blockAt? k = some s.draft.cursor → s.draft.stmtIndex = 0

/-- The state in which the instruction at an offset is lowered or skipped. -/
structure LevelAt (ctx : Context) (code : List Instruction) (start : State) (depth : Nat → Nat)
    (k : Nat) (a : State) : Prop extends Level ctx code start depth (k + 1) a where
  here : a.live = true → a.stack.items.length = depth k
  entered : a.live = true → ∀ b, ctx.labels.blockAt? k = some b →
    a.draft.cursor = b ∧ a.draft.stmtIndex = 0

/-! ### Ways to arrive -/

/-- How the pass arrives at an offset. -/
inductive Comes (ctx : Context) (k : Nat) (s : State) : State → Prop
  | unnamed (none : ctx.labels.blockAt? k = none) : Comes ctx k s s
  /-- The last instruction has gone on to the block. -/
  | inside (named : ctx.labels.blockAt? k = some s.draft.cursor) (live : s.live = true) :
      Comes ctx k s s
  /-- No edge leads to the block. -/
  | skipped {b : BlockId} (named : ctx.labels.blockAt? k = some b) (dead : s.live = false)
      (shape : s.draft.shape? b = none) : Comes ctx k s s
  /-- Brackets may be dropped, but no loops. -/
  | joined {b : BlockId} {phis : List ValueId} {a : State}
      (named : ctx.labels.blockAt? k = some b) (dead : s.live = false)
      (shape : s.draft.shape? b = some phis) (draft : a.draft = s.draft.moveTo b)
      (stack : a.stack = .ofSlots phis) (live : a.live = true) (loops : a.loops = s.loops) :
      Comes ctx k s a
  | fallen {b : BlockId} {phis : List ValueId} {s₁ : State}
      (named : ctx.labels.blockAt? k = some b) (live : s.live = true)
      (left : Left ctx .nothing s.draft (ctx.Ahead k) [] (.goto b) s s₁)
      (shape : s₁.draft.shape? b = some phis) :
      Comes ctx k s { s₁ with draft := s₁.draft.moveTo b, stack := .ofSlots phis, live := true }

theorem Between.comes (between : Between ctx k s) (h : Lowering.arrive ctx k s = .ok () a) :
    Comes ctx k s a := by
  rw [Lowering.arrive] at h
  cases named : ctx.labels.blockAt? k with
  | none =>
      rw [named] at h
      cases h
      exact .unnamed named
  | some b =>
      rw [named] at h
      have ahead : ctx.Ahead k b := ⟨k, Nat.le_refl k, named⟩
      obtain ⟨_, _, h₁, h⟩ := bind_eq_ok_iff.mp h
      cases h₁
      cases between with
      | dead dead inv =>
          rw [if_neg (inv.aside ahead).2.symm, if_neg (by simp [dead]), arriveAt] at h
          cases shape : s.draft.shape? b with
          | none =>
              rw [shape] at h
              obtain ⟨d, stack, loops, calls, assigns, dispatches, notes, live⟩ := s
              cases dead
              cases h
              exact .skipped named rfl shape
          | some phis =>
              simp only [shape, Bool.false_eq_true, if_false] at h
              split at h
              · cases h
                exact .joined named dead shape rfl rfl rfl rfl
              · cases h
                exact .joined named dead shape rfl rfl rfl rfl
      | live live goes =>
          cases goes with
          | here inv =>
              rw [if_neg (inv.aside ahead).2.symm, if_pos live] at h
              obtain ⟨_, s₁, jumped, h⟩ := bind_eq_ok_iff.mp h
              have left := inv.jumpTo (by simp) ⟨_, named⟩ jumped
              obtain ⟨phis, shape, -⟩ :=
                left.exists_shape List.mem_cons_self (left.notDirect ⟨_, named⟩)
              rw [arriveAt, shape] at h
              cases h
              exact .fallen named live left shape
          | inNext inv at_ =>
              have same := Option.some.inj (named.symm.trans at_)
              rw [if_pos same.symm] at h
              cases h
              exact .inside at_ live

/-- The pass arrives if the stack has the depth of the label. -/
theorem Between.exists_arrive (between : Between ctx k s)
    (fits : ∀ b phis, ctx.labels.blockAt? k = some b → s.live = true →
      s.draft.shape? b = some phis → phis.length = s.stack.items.length) :
    ∃ a, Lowering.arrive ctx k s = .ok () a := by
  have arriveAt : ∀ b s' falls, ∃ a, Lowering.arriveAt b falls s' = .ok () a := by
    intro b s' falls
    rw [Lowering.arriveAt]
    split
    · exact ⟨_, rfl⟩
    · simp only
      split
      · exact ⟨_, rfl⟩
      · split <;> exact ⟨_, rfl⟩
  rw [Lowering.arrive]
  cases named : ctx.labels.blockAt? k with
  | none => exact ⟨s, rfl⟩
  | some b =>
      suffices ∃ a, (if s.draft.cursor = b then pure () else if s.live = true then (do
          jump b
          Lowering.arriveAt b true) else Lowering.arriveAt b false) s = .ok () a from
        this.imp fun a h => bind_eq_ok_iff.mpr ⟨s, s, rfl, h⟩
      split
      · exact ⟨s, rfl⟩
      · split
        · next live =>
            obtain ⟨s₁, jumped⟩ : ∃ s₁, jump b s = .ok () s₁ := by
              cases between with
              | dead dead _ => cases live.symm.trans dead
              | live _ goes =>
                  cases goes with
                  | here inv => exact inv.exists_jump (by simp) fun phis => fits b phis named live
                  | inNext inv _ =>
                      exact inv.exists_jump (by simp) fun phis => fits b phis named live
            obtain ⟨a, h⟩ := arriveAt b s₁ true
            exact ⟨a, bind_eq_ok_iff.mpr ⟨(), s₁, jumped, h⟩⟩
        · exact arriveAt b s false

section

variable (comes : Comes ctx k s a)

include comes

theorem Comes.live (live : s.live = true) : a.live = true := by
  cases comes with
  | unnamed _ => exact live
  | inside _ _ => exact live
  | skipped _ dead _ => cases live.symm.trans dead
  | joined _ _ _ _ _ live _ => exact live
  | fallen _ _ _ _ => rfl

/-- A label that an edge leads to is not skipped. -/
theorem Comes.live_of_shape {b : BlockId} (named : ctx.labels.blockAt? k = some b)
    (shaped : (s.draft.shape? b).isSome) : a.live = true := by
  cases comes with
  | unnamed none => cases named.symm.trans none
  | inside _ live => exact live
  | skipped named' _ shape =>
      cases named.symm.trans named'
      rw [shape] at shaped
      cases shaped
  | joined _ _ _ _ _ live _ => exact live
  | fallen _ _ _ _ => rfl

theorem Comes.loops : a.loops = s.loops := by
  cases comes with
  | unnamed _ => rfl
  | inside _ _ => rfl
  | skipped _ _ _ => rfl
  | joined _ _ _ _ _ _ loops => exact loops
  | fallen _ _ left _ => exact congrArg (·.loops) left.frame

theorem Comes.grows : s.draft.Grows a.draft := by
  cases comes with
  | unnamed _ => exact .refl _
  | inside _ _ => exact .refl _
  | skipped _ _ _ => exact .refl _
  | joined _ _ _ draft _ _ _ =>
      rw [draft]
      exact Draft.grows_moveTo _ _
  | fallen _ _ left _ => exact left.grows.trans (Draft.grows_moveTo _ _)

end

/-! ### What is kept -/

/-- Only the block of the label gets a shape, and it is as deep as the stack. -/
theorem Comes.shape? (comes : Comes ctx k s a) {b : BlockId} {phis : List ValueId}
    (shape : a.draft.shape? b = some phis) :
    s.draft.shape? b = some phis ∨
      s.live = true ∧ ctx.labels.blockAt? k = some b ∧ phis.length = s.stack.items.length := by
  cases comes with
  | unnamed _ => exact Or.inl shape
  | inside _ _ => exact Or.inl shape
  | skipped _ _ _ => exact Or.inl shape
  | joined _ _ _ draft _ _ _ =>
      rw [draft] at shape
      exact Or.inl shape
  | @fallen c _ s₁ named live left _ =>
      have shape : s₁.draft.shape? b = some phis := shape
      by_cases same : b = c
      · subst same
        obtain ⟨phis', shape', length⟩ :=
          left.exists_shape List.mem_cons_self (left.notDirect ⟨_, named⟩)
        cases shape.symm.trans shape'
        exact Or.inr ⟨live, named, length⟩
      · rw [left.shape?_of_notMem (by simpa [Terminator.successors] using same)] at shape
        exact Or.inl shape

theorem Comes.tidy {visited : Nat → Prop} (comes : Comes ctx k s a) (distinct : ctx.labels.Distinct)
    (between : Between ctx k s) (visit : visited k ↔ a.live = true)
    (tidy : s.draft.Tidy (ctx.Unvisited visited k)) :
    a.draft.Tidy (ctx.Unvisited visited (k + 1)) := by
  -- the block of the label is taken from those set aside when the pass goes on in it
  have taken : ∀ {b : BlockId}, ctx.labels.blockAt? k = some b → a.live = true →
      ∀ c, ctx.Unvisited visited k c → c = b ∨ ctx.Unvisited visited (k + 1) c := by
    intro b named live c unvisited
    by_cases same : c = b
    · exact Or.inl same
    · exact Or.inr
        ((unvisited_succ_of_visited distinct named (visit.mpr live)).mpr ⟨unvisited, same⟩)
  cases comes with
  | unnamed none =>
      exact fun b live => (tidy b live).imp id (Or.imp id (unvisited_succ (Or.inl none)))
  | inside named live =>
      intro b exists_
      rcases tidy b exists_ with here | ended | unvisited
      · exact Or.inl here
      · exact Or.inr (Or.inl ended)
      · exact (taken named live b unvisited).imp id Or.inr
  | skipped named dead _ =>
      have not : ¬visited k := by
        rw [visit, dead]
        simp
      exact fun b live => (tidy b live).imp id (Or.imp id (unvisited_succ (Or.inr not)))
  | joined named dead _ draft _ live _ =>
      rw [draft]
      cases between with
      | live live' _ => cases live'.symm.trans dead
      | dead _ inv => exact tidy.moveTo inv.phase (taken named live)
  | fallen named live left _ =>
      exact (tidy.ended left.can left.ended).moveTo left.inv.phase (taken named rfl)

theorem LevelBefore.arrive (level : LevelBefore ctx code start depth k s)
    (distinct : ctx.labels.Distinct) (between : Between ctx k s) (comes : Comes ctx k s a)
    (visit : Visited ctx code start k ↔ a.live = true) : LevelAt ctx code start depth k a where
  shaped := by
    intro j b phis named shape
    rcases comes.shape? shape with old | ⟨live, here, length⟩
    · obtain ⟨deep, later⟩ := level.shaped named old
      refine ⟨deep, ?_⟩
      rcases later with le | visited
      · rcases Nat.lt_or_eq_of_le le with lt | rfl
        · exact Or.inl lt
        · exact Or.inr (visit.mpr (comes.live_of_shape named (by rw [old]; rfl)))
      · exact Or.inr visited
    · obtain rfl := distinct here named
      exact ⟨length.trans (level.here live), Or.inr (visit.mpr (comes.live live))⟩
  loops := by
    intro l mem
    rw [comes.loops] at mem
    obtain ⟨o, e, opened⟩ := level.loops l mem
    exact ⟨o, e, opened.mono comes.grows⟩
  tidy := comes.tidy distinct between visit level.tidy
  here := by
    intro live
    cases comes with
    | unnamed _ => exact level.here live
    | inside _ _ => exact level.here live
    | skipped _ dead _ => cases live.symm.trans dead
    | joined named _ shape _ stack _ _ =>
        rw [stack, OperandStack.ofSlots, List.length_reverse]
        exact (level.shaped named shape).1
    | fallen named live' left shape =>
        obtain ⟨phis', shape', length⟩ :=
          left.exists_shape List.mem_cons_self (left.notDirect ⟨_, named⟩)
        cases shape.symm.trans shape'
        rw [OperandStack.ofSlots, List.length_reverse, length]
        exact level.here live'
  entered := by
    intro live b named
    have ahead : ctx.Ahead k b := ⟨k, Nat.le_refl k, named⟩
    cases comes with
    | unnamed none => cases named.symm.trans none
    | inside named' _ =>
        cases named.symm.trans named'
        exact ⟨rfl, level.fresh named'⟩
    | skipped _ dead _ => cases live.symm.trans dead
    | joined named' dead _ draft _ _ _ =>
        cases named.symm.trans named'
        rw [draft]
        cases between with
        | live live' _ => cases live'.symm.trans dead
        | dead _ inv => exact ⟨rfl, (inv.aside ahead).1.stmtIndex_moveTo⟩
    | fallen named' _ left _ =>
        cases named.symm.trans named'
        exact ⟨rfl, (left.inv.aside ahead).1.stmtIndex_moveTo⟩

end Lowering

end StackLift
