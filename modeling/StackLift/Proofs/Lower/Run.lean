import StackLift.Lower.Unit
import StackLift.Proofs.Lower.Step

/-!
A whole unit. Between two instructions the pass is in an open block, or it skips
code that no edge leads to and the block under construction has its end. The
blocks of labels ahead are blank. The main statements say what an instruction
keeps of this, `Between.step`, and so what holds of the state after any number of
instructions, `between_before`.
-/

namespace StackLift

/-- No values from brackets. -/
def Carry.nothing : Carry := ⟨[], ⟨⟨0⟩, 0⟩⟩

namespace Lowering

variable {ctx : Context} {carry : Carry} {base : Draft} {aside : BlockId → Prop} {phase : Phase}
  {hand : List (ValueId × ValueType)} {offset : Nat}

/-- Between instructions it does not matter what the last one was. -/
theorem Inv.restart {s : State} (inv : Inv ctx carry base aside phase hand s)
    (notBegun : phase ≠ .begun) : Inv ctx .nothing s.draft aside phase [] s :=
  { inv.forget with
    acts := .refl
    phase := by
      have holds := inv.phase
      cases phase with
      | begun => exact absurd rfl notBegun
      | running => exact holds
      | ended => exact holds
    carried := fun e mem => absurd mem List.not_mem_nil }

/-- The state before the instruction at an offset. -/
inductive Between (ctx : Context) (offset : Nat) (s : State) : Prop
  | live (live : s.live = true) (goes : GoesOn ctx .nothing s.draft offset s)
  | dead (dead : s.live = false) (inv : Inv ctx .nothing s.draft (ctx.Ahead offset) .ended [] s)

/-- The state in which the instruction at an offset is lowered or skipped. -/
inductive Arrived (ctx : Context) (base : Draft) (offset : Nat) (s : State) : Prop
  | live (live : s.live = true) (inv : Inv ctx .nothing base (ctx.Ahead (offset + 1)) .running [] s)
  | dead (dead : s.live = false) (inv : Inv ctx .nothing base (ctx.Ahead (offset + 1)) .ended [] s)

theorem Between.sound {s : State} (between : Between ctx offset s) : s.draft.Sound := by
  cases between with
  | live _ goes =>
      cases goes with
      | here inv => exact inv.sound
      | inNext inv _ => exact inv.sound
  | dead _ inv => exact inv.sound

/-! ### Arriving at an offset -/

/-- Brackets may be dropped. -/
theorem Inv.truncate {s : State} (inv : Inv ctx carry base aside phase hand s)
    (depths : OpenDepths) : Inv ctx carry base aside phase hand (s.truncateBrackets depths) :=
  inv.change (s.truncateBrackets depths) rfl id (fun _ => Or.inl)
    (fun c mem => inv.calls c (List.mem_of_mem_drop mem))
    (fun _ mem => Or.inl (List.mem_of_mem_drop mem)) inv.stack inv.hand

theorem Ahead.of_succ {b : BlockId} (ahead : ctx.Ahead (offset + 1) b) : ctx.Ahead offset b := by
  obtain ⟨later, le, named⟩ := ahead
  exact ⟨later, Nat.le_of_succ_le le, named⟩

/-- Code after the end of a block is skipped. -/
theorem Inv.kill {s : State} (inv : Inv ctx carry base aside .ended hand s) :
    Inv ctx carry base aside .ended hand { s with live := false } :=
  { inv with live := fun ready => absurd rfl ready }

theorem Inv.arriveAt {s s' : State} {b : BlockId} {fallsThrough : Bool}
    (distinct : ctx.labels.Distinct) (inv : Inv ctx .nothing base (ctx.Ahead offset) .ended [] s)
    (named : ctx.labels.blockAt? offset = some b) (h : arriveAt b fallsThrough s = .ok () s') :
    Arrived ctx base offset s' := by
  rw [Lowering.arriveAt] at h
  cases shape : s.draft.shape? b with
  | none =>
      rw [shape] at h
      cases h
      exact .dead rfl (inv.kill.settle fun c => Ahead.of_succ)
  | some phis =>
      rw [shape] at h
      have plain := inv.plain_label ⟨_, named⟩
      have moved := inv.moveToMerge ⟨_, Nat.le_refl _, named⟩ plain.merge shape
      have moved := moved.settle fun c ahead => ahead_ne distinct named ahead
      simp only at h
      split at h
      · cases h
        exact .live rfl moved
      · split at h
        · cases h
          exact .live rfl (moved.truncate _)
        · cases h
          exact .live rfl moved

theorem Between.arrive {s s' : State} (distinct : ctx.labels.Distinct)
    (between : Between ctx offset s) (h : arrive ctx offset s = .ok () s') :
    Arrived ctx s.draft offset s' := by
  rw [Lowering.arrive] at h
  cases named : ctx.labels.blockAt? offset with
  | none =>
      rw [named] at h
      cases h
      cases between with
      | dead dead inv => exact .dead dead (inv.settle fun c => Ahead.of_succ)
      | live live goes =>
          cases goes with
          | here inv => exact .live live (inv.settle fun c => Ahead.of_succ)
          | inNext inv at_ =>
              rw [named] at at_
              cases at_
  | some b =>
      rw [named] at h
      have ahead : ctx.Ahead offset b := ⟨_, Nat.le_refl _, named⟩
      obtain ⟨_, _, h₁, h⟩ := bind_eq_ok_iff.mp h
      cases h₁
      cases between with
      | dead dead inv =>
          rw [if_neg (inv.aside ahead).2.symm, dead] at h
          exact inv.arriveAt distinct named h
      | live live goes =>
          cases goes with
          | here inv =>
              rw [if_neg (inv.aside ahead).2.symm, if_pos live] at h
              obtain ⟨_, s₁, h₁, h₂⟩ := bind_eq_ok_iff.mp h
              exact (inv.jumpTo (by simp) ⟨_, named⟩ h₁).inv.arriveAt distinct named h₂
          | inNext inv at_ =>
              rw [named] at at_
              rw [if_pos (Option.some.inj at_).symm] at h
              cases h
              exact .live live inv

/-! ### One instruction -/

theorem mem_heldByAccess {c : PendingCall} {kind : DispatchKind} {rhs : Option ValueId} {v : ValueId}
    (mem : v ∈ c.heldByAccess kind rhs) : v ∈ c.values ∨ v ∈ rhs.toList := by
  have ofArgs : v ∈ c.args.flatMap (·.value.values) → v ∈ c.values := List.mem_append_right _
  simp only [PendingCall.heldByAccess] at mem
  split at mem
  · exact Or.inl mem
  · split at mem
    · refine (List.mem_append.mp mem).imp (fun mem => ofArgs ?_) id
      obtain ⟨a, ha, hv⟩ := List.mem_flatMap.mp mem
      exact List.mem_flatMap.mpr ⟨a, List.mem_of_mem_drop ha, hv⟩
    · exact (List.mem_append.mp mem).imp ofArgs id

section

variable {s : State} (inv : Inv ctx carry base aside phase hand s)

include inv

theorem Inv.heldByCall_known : ∀ v ∈ s.heldByCall, s.draft.Known v .value := by
  intro v mem
  rw [State.heldByCall] at mem
  split at mem
  · rename_i c rest calls
    exact inv.calls c (calls ▸ List.mem_cons_self) v mem
  · exact absurd mem List.not_mem_nil

theorem Inv.heldByDispatch_known (kind : DispatchKind) :
    ∀ v ∈ s.heldByDispatch kind, s.draft.Known v .value := by
  intro v mem
  rw [State.heldByDispatch] at mem
  split at mem
  · rename_i c _ p _ calls dispatches
    rcases mem_heldByAccess mem with held | stored
    · exact inv.calls c (calls ▸ List.mem_cons_self) v held
    · exact inv.rhs p (dispatches ▸ List.mem_cons_self) v stored
  · exact absurd mem List.not_mem_nil

theorem Inv.heldByLoop_known : ∀ v ∈ s.heldByLoop, s.draft.Known v .index := by
  intro v mem
  rw [State.heldByLoop] at mem
  split at mem
  · rename_i l rest loops
    rw [Option.mem_toList, Option.map_eq_some_iff] at mem
    obtain ⟨⟨phi, next⟩, registered, rfl⟩ := mem
    exact (inv.nexts l (loops ▸ List.mem_cons_self)).index registered
  · exact absurd mem List.not_mem_nil

/-- What brackets hold is known. -/
theorem Inv.held_known (i : Instruction) : ∀ e ∈ s.held i, s.draft.Known e.1 e.2 := by
  have typed : ∀ {vs : List ValueId} {type : ValueType}, (∀ v ∈ vs, s.draft.Known v type) →
      ∀ e ∈ vs.map (·, type), s.draft.Known e.1 e.2 := by
    intro vs type known e mem
    obtain ⟨v, hv, rfl⟩ := List.mem_map.mp mem
    exact known v hv
  cases i with
  | finishCall | getterCall | setterCall => exact typed inv.heldByCall_known
  | endAccess access => exact typed (inv.heldByDispatch_known _)
  | endCombine => exact typed (inv.heldByDispatch_known _)
  | endAccessN =>
      refine typed fun v mem => ?_
      rw [Option.mem_toList, Option.bind_eq_some_iff] at mem
      obtain ⟨p, head, rhs⟩ := mem
      exact inv.rhs p (List.mem_of_head? head) v (by rw [rhs]; exact List.mem_cons_self)
  | stepFor => exact typed inv.heldByLoop_known
  | leaveLoop exit =>
      cases exit with
      | next => exact typed inv.heldByLoop_known
      | leave => exact fun e mem => absurd mem List.not_mem_nil
  | _ => exact fun e mem => absurd mem List.not_mem_nil

/-- An instruction that is lowered begins with what brackets hold for it. -/
theorem Inv.begin (running : phase = .running) (i : Instruction) :
    Inv ctx (carryOf s i) s.draft aside .begun [] s := by
  subst running
  exact { inv.forget with
    acts := .refl
    live := fun _ => inv.live (by simp)
    phase := ⟨inv.phase, rfl, Nat.le_refl _⟩
    carried := fun e mem => (inv.held_known i e mem).type }

end

theorem step_of_arrive_error {i : Instruction} {s t : State} {fault : Fault}
    (h : arrive ctx offset s = .error fault t) : step ctx offset i s = .error fault t := by
  rw [step]
  change EStateM.bind _ _ s = _
  simp only [EStateM.bind, h]

/-- An instruction is lowered where control arrives at it, and skipped elsewhere. -/
theorem step_of_arrive {i : Instruction} {s a : State} (h : arrive ctx offset s = .ok () a) :
    step ctx offset i s = if a.live then
      match lower ctx offset i a with
      | .ok () t => .ok () (if i.diverts then { t with live := false } else t)
      | .error fault t => .error fault t
    else skip ctx offset i a := by
  rw [step]
  change EStateM.bind _ _ s = _
  simp only [EStateM.bind, h]
  change (if a.live = true then _ else skip ctx offset i) a = _
  split
  · change EStateM.bind _ _ a = _
    simp only [EStateM.bind]
    cases lower ctx offset i a with
    | error fault t => rfl
    | ok _ t => cases i.diverts <;> rfl
  · rfl

theorem step_eq_ok {i : Instruction} {s s' : State} :
    step ctx offset i s = .ok () s' ↔ ∃ a, arrive ctx offset s = .ok () a ∧
      (a.live = true ∧ (∃ t, lower ctx offset i a = .ok () t ∧
          s' = if i.diverts then { t with live := false } else t) ∨
        a.live = false ∧ skip ctx offset i a = .ok () s') := by
  cases arrives : arrive ctx offset s with
  | error fault t => simp [step_of_arrive_error arrives]
  | ok _ a =>
      rw [step_of_arrive arrives]
      constructor
      · intro h
        refine ⟨a, rfl, ?_⟩
        cases live : a.live with
        | false =>
            rw [live] at h
            exact Or.inr ⟨rfl, h⟩
        | true =>
            rw [live, if_pos rfl] at h
            split at h
            case h_1 t lowered =>
              cases h
              exact Or.inl ⟨rfl, t, lowered, rfl⟩
            case h_2 => cases h
      · rintro ⟨_, same, ⟨live, t, lowered, rfl⟩ | ⟨dead, skipped⟩⟩
        · cases same
          rw [if_pos live, lowered]
        · cases same
          rw [dead]
          exact skipped

/-- Skipped code changes at most the brackets. -/
theorem Inv.skip {i : Instruction} {s s' : State} (inv : Inv ctx carry base aside phase hand s)
    (h : skip ctx offset i s = .ok () s') :
    Inv ctx carry base aside phase hand s' ∧ s'.draft = s.draft ∧ s'.live = s.live := by
  rw [Lowering.skip.eq_def] at h
  split at h
  case h_2 =>
    cases h
    exact ⟨inv, rfl, rfl⟩
  case h_1 kind =>
    obtain ⟨_, _, h₁, h⟩ := bind_eq_ok_iff.mp h
    cases h₁
    cases loops : s.loops with
    | nil =>
        rw [loops] at h
        cases h
        exact ⟨inv, rfl, rfl⟩
    | cons loop rest =>
        rw [loops] at h
        simp only at h
        split at h
        · obtain ⟨loop, s₁, h₁, h₂⟩ := bind_eq_ok_iff.mp h
          have inv₁ := inv.popLoop h₁
          obtain ⟨rest, -, -, rfl⟩ := popLoop_eq_ok h₁
          cases h₂
          exact ⟨inv₁.truncate _, rfl, rfl⟩
        · cases h
          exact ⟨inv, rfl, rfl⟩

/-- What one instruction does to the draft: it is lowered, or skipped. -/
inductive Stepped (i : Instruction) (a s' : State) : Prop
  | lowered (live : a.live = true) (acts : Draft.Acts (carryOf a i) a.draft s'.draft)
      (uses : ∀ e ∈ a.held i, (carryOf a i).Uses s'.draft e.1)
  | skipped (dead : a.live = false) (same : s'.draft = a.draft)

theorem Arrived.acts {s : State} (arrived : Arrived ctx base offset s) :
    s.draft.Sound ∧ Draft.Acts .nothing base s.draft := by
  cases arrived with
  | live _ inv => exact ⟨inv.sound, inv.acts⟩
  | dead _ inv => exact ⟨inv.sound, inv.acts⟩

theorem Arrived.inv {s : State} (arrived : Arrived ctx base offset s) (live : s.live = true) :
    Inv ctx .nothing base (ctx.Ahead (offset + 1)) .running [] s := by
  cases arrived with
  | live _ inv => exact inv
  | dead dead _ =>
      rw [live] at dead
      cases dead

theorem Stepped.grows {i : Instruction} {a s' : State} (stepped : Stepped i a s')
    (sound : a.draft.Sound) : a.draft.Grows s'.draft := by
  cases stepped with
  | lowered _ acts _ => exact acts.grows sound
  | skipped _ same => exact same ▸ .refl _

theorem Between.step {i : Instruction} {s s' : State} (distinct : ctx.labels.Distinct)
    (between : Between ctx offset s) (h : step ctx offset i s = .ok () s') :
    ∃ a, Lowering.arrive ctx offset s = .ok () a ∧ Arrived ctx s.draft offset a ∧
      Stepped i a s' ∧ Between ctx (offset + 1) s' := by
  obtain ⟨a, h₁, h₂⟩ := step_eq_ok.mp h
  have arrived := between.arrive distinct h₁
  refine ⟨a, h₁, arrived, ?_⟩
  rcases h₂ with ⟨live, t, h₂, rfl⟩ | ⟨dead, h₂⟩
  · have begun := (arrived.inv live).begin rfl i
    have uses := begun.uses_held distinct h₂
    cases begun.lower distinct (fun e mem => mem) h₂ with
    | left diverts inv =>
        rw [if_pos diverts]
        exact ⟨.lowered live inv.acts uses, .dead rfl (inv.kill.restart (by simp))⟩
    | goesOn notDiverts goes =>
        rw [if_neg (by simp [notDiverts])]
        cases goes with
        | here inv =>
            exact ⟨.lowered live inv.acts uses,
              .live (inv.live (by simp)) (.here (inv.restart (by simp)))⟩
        | inNext inv named =>
            exact ⟨.lowered live inv.acts uses,
              .live (inv.live (by simp)) (.inNext (inv.restart (by simp)) named)⟩
  · cases arrived with
    | live live _ =>
        rw [dead] at live
        cases live
    | dead _ inv =>
        obtain ⟨inv', same, still⟩ := inv.skip h₂
        exact ⟨.skipped dead same, .dead (still.trans dead) (inv'.restart (by simp))⟩

/-! ### The run -/

theorem run_append {xs ys : List Instruction} {s s' : State} :
    run ctx offset (xs ++ ys) s = .ok s' ↔
      ∃ t, run ctx offset xs s = .ok t ∧ run ctx (offset + xs.length) ys t = .ok s' := by
  induction xs generalizing offset s with
  | nil => simp [run]
  | cons i xs ih =>
      rw [List.cons_append, run, run]
      cases h : step ctx offset i s with
      | ok _ t =>
          simp only
          rw [ih, List.length_cons, Nat.add_assoc, Nat.add_comm 1]
      | error fault t => simp

theorem run_append_of_ok {xs ys : List Instruction} {s t : State}
    (h : run ctx offset xs s = .ok t) :
    run ctx offset (xs ++ ys) s = run ctx (offset + xs.length) ys t := by
  induction xs generalizing offset s with
  | nil =>
      cases h
      rfl
  | cons i xs ih =>
      rw [run] at h
      rw [List.cons_append, run]
      split at h
      · rw [ih h, List.length_cons, Nat.add_assoc, Nat.add_comm 1]
      · cases h

theorem run_singleton {i : Instruction} {s s' : State} :
    run ctx offset [i] s = .ok s' ↔ step ctx offset i s = .ok () s' := by
  rw [run]
  cases h : step ctx offset i s with
  | ok _ t => simp [run]
  | error fault t => simp

/-- The state before the instruction at an offset. -/
def Before (ctx : Context) (code : List Instruction) (start : State) (offset : Nat) (s : State) :
    Prop :=
  run ctx 0 (code.take offset) start = .ok s

/-- The instruction at an offset is lowered, and it is so in the state `a`. -/
structure Visits (ctx : Context) (code : List Instruction) (start : State) (offset : Nat)
    (i : Instruction) (a : State) : Prop where
  get : code[offset]? = some i
  arrives : ∃ s, Before ctx code start offset s ∧ arrive ctx offset s = .ok () a
  live : a.live = true

/-- The state in which the instruction at an offset is lowered or skipped. -/
def arrival? (ctx : Context) (code : List Instruction) (start : State) (k : Nat) : Option State :=
  match run ctx 0 (code.take k) start with
  | .error _ => none
  | .ok s =>
    match arrive ctx k s with
    | .ok () a => some a
    | .error _ _ => none

section

variable {code : List Instruction} {start : State}

theorem arrival?_eq_some {a : State} : arrival? ctx code start offset = some a ↔
    ∃ s, Before ctx code start offset s ∧ arrive ctx offset s = .ok () a := by
  rw [arrival?]
  constructor
  · intro h
    split at h
    case h_1 => cases h
    case h_2 s before =>
      split at h
      case h_2 => cases h
      case h_1 a' arrives =>
        cases h
        exact ⟨s, before, arrives⟩
  · rintro ⟨s, before, arrives⟩
    rw [before]
    simp only [arrives]

theorem Visits.arrival? {i : Instruction} {a : State} (visits : Visits ctx code start offset i a) :
    arrival? ctx code start offset = some a :=
  arrival?_eq_some.mpr visits.arrives

theorem Before.unique {s s' : State} (h : Before ctx code start offset s)
    (h' : Before ctx code start offset s') : s = s' :=
  Except.ok.inj (h.symm.trans h')

theorem before_succ {i : Instruction} {s' : State} (get : code[offset]? = some i) :
    Before ctx code start (offset + 1) s' ↔
      ∃ s, Before ctx code start offset s ∧ step ctx offset i s = .ok () s' := by
  have lt := (List.getElem?_eq_some_iff.mp get).1
  rw [Before, List.take_add_one, get, Option.toList_some, run_append]
  simp only [run_singleton, Nat.zero_add, List.length_take, Nat.min_eq_left (Nat.le_of_lt lt)]
  rfl

theorem Visits.unique {i i' : Instruction} {a a' : State} (visits : Visits ctx code start offset i a)
    (visits' : Visits ctx code start offset i' a') : a = a' := by
  obtain ⟨s, before, arrives⟩ := visits.arrives
  obtain ⟨s', before', arrives'⟩ := visits'.arrives
  cases before.unique before'
  rw [arrives] at arrives'
  cases arrives'
  rfl

/-- A visit is followed by the state that the instruction leaves. -/
theorem Visits.lower {i : Instruction} {a s' : State} (visits : Visits ctx code start offset i a)
    (after : Before ctx code start (offset + 1) s') :
    ∃ t, Lowering.lower ctx offset i a = .ok () t ∧
      s' = if i.diverts then { t with live := false } else t := by
  obtain ⟨s, before, arrives⟩ := visits.arrives
  obtain ⟨s₁, before₁, step⟩ := (before_succ visits.get).mp after
  cases before.unique before₁
  obtain ⟨a', arrives', rest⟩ := step_eq_ok.mp step
  rw [arrives] at arrives'
  cases arrives'
  rcases rest with ⟨-, t, lowered, heq⟩ | ⟨dead, -⟩
  · exact ⟨t, lowered, heq⟩
  · rw [visits.live] at dead
    cases dead

/-- A run that succeeds has a state before each offset. -/
theorem exists_before {s : State} (h : run ctx 0 code start = .ok s) (offset : Nat) :
    ∃ t, Before ctx code start offset t := by
  rw [← List.take_append_drop offset code, run_append] at h
  obtain ⟨t, before, -⟩ := h
  exact ⟨t, before⟩

/-- A run stops at a step that fails. -/
theorem Before.run_eq_error {i : Instruction} {s t : State} {fault : Fault}
    (before : Before ctx code start offset s) (get : code[offset]? = some i)
    (fails : step ctx offset i s = .error fault t) :
    run ctx 0 code start = .error ⟨t.locate offset, fault⟩ := by
  obtain ⟨lt, rfl⟩ := List.getElem?_eq_some_iff.mp get
  rw [← List.take_append_drop offset code, run_append_of_ok before, List.length_take,
    Nat.min_eq_left (Nat.le_of_lt lt), Nat.zero_add, List.drop_eq_getElem_cons lt, run, fails]

/-- Two runs whose steps agree agree, whether they come to the end or not. -/
theorem run_eq_of_steps {ctx' : Context} {code' : List Instruction}
    (length : code'.length = code.length)
    (steps : ∀ {offset : Nat} {i i' : Instruction} {s : State}, code[offset]? = some i →
      code'[offset]? = some i' → Before ctx code start offset s →
      step ctx' offset i' s = step ctx offset i s) :
    run ctx' 0 code' start = run ctx 0 code start := by
  have rest : ∀ (n offset : Nat) (s : State), offset + n = code.length →
      Before ctx code start offset s →
      run ctx' offset (code'.drop offset) s = run ctx offset (code.drop offset) s := by
    intro n
    induction n with
    | zero =>
        intro offset s all _
        rw [List.drop_of_length_le (by omega), List.drop_of_length_le (by omega)]
        rfl
    | succ n ih =>
        intro offset s all before
        have lt : offset < code.length := by omega
        have lt' : offset < code'.length := by omega
        have get := List.getElem?_eq_getElem lt
        have same := steps get (List.getElem?_eq_getElem lt') before
        rw [List.drop_eq_getElem_cons lt', List.drop_eq_getElem_cons lt, run, run, same]
        cases h : step ctx offset code[offset] s with
        | error fault t => rfl
        | ok _ t => exact ih (offset + 1) t (by omega) ((before_succ get).mpr ⟨s, before, h⟩)
  exact rest code.length 0 start (Nat.zero_add _) rfl

/-- What an instruction keeps, a run keeps. -/
theorem run_induction {P : Nat → State → Prop} (first : P 0 start)
    (next : ∀ {offset : Nat} {i : Instruction} {s s' : State}, code[offset]? = some i →
      Before ctx code start offset s → P offset s → step ctx offset i s = .ok () s' →
      P (offset + 1) s')
    {s : State} (le : offset ≤ code.length) (before : Before ctx code start offset s) :
    P offset s := by
  induction offset generalizing s with
  | zero =>
      rw [Before, List.take_zero, run] at before
      cases before
      exact first
  | succ offset ih =>
      obtain ⟨i, get⟩ : ∃ i, code[offset]? = some i := ⟨_, List.getElem?_eq_getElem le⟩
      obtain ⟨t, before, h⟩ := (before_succ get).mp before
      exact next get before (ih (Nat.le_of_succ_le le) before) h

theorem between_before {s : State} (distinct : ctx.labels.Distinct) (first : Between ctx 0 start)
    (le : offset ≤ code.length) (before : Before ctx code start offset s) :
    Between ctx offset s := by
  refine run_induction first (fun _ _ between h => ?_) le before
  obtain ⟨_, -, -, -, between'⟩ := between.step distinct h
  exact between'

/-- The draft only grows. -/
theorem grows_before (distinct : ctx.labels.Distinct) (first : Between ctx 0 start) {k : Nat}
    {s t : State} (le : offset ≤ k) (bound : k ≤ code.length)
    (before : Before ctx code start offset s) (after : Before ctx code start k t) :
    s.draft.Grows t.draft := by
  refine run_induction (P := fun k t => ∀ {offset : Nat} {s : State}, offset ≤ k →
    Before ctx code start offset s → s.draft.Grows t.draft) ?_ ?_ bound after le before
  · intro offset s le before
    obtain rfl := Nat.le_zero.mp le
    rw [Before, List.take_zero, run] at before
    cases before
    exact .refl _
  · intro k i t t' get after ih h offset s le before
    rcases Nat.lt_or_eq_of_le le with lt | rfl
    · have between := between_before distinct first
        (Nat.le_of_lt (List.getElem?_eq_some_iff.mp get).1) after
      obtain ⟨a, -, arrived, stepped, -⟩ := between.step distinct h
      obtain ⟨sound, acts⟩ := arrived.acts
      exact (ih (Nat.le_of_lt_succ lt) before).trans
        ((acts.grows between.sound).trans (stepped.grows sound))
    · cases before.unique ((before_succ get).mpr ⟨t, after, h⟩)
      exact .refl _

end

end Lowering

end StackLift
