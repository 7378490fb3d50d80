import StackLift.Proofs.Lower.Run
import StackLift.Proofs.Resolution

/-!
The blocks of labels. Before the first instruction, every label that is named
leads to a block of its own offset, a merge to which no edge leads yet.
-/

namespace StackLift

namespace Draft

/-- No code is built yet, and no edge is wired. -/
structure Bare (d : Draft) : Prop where
  cursor : d.cursor = d.graph.entry
  block : ∀ {b : BlockId} {block : Block}, d.graph.block? b = some block → block = {}
  shape : ∀ {b : BlockId}, b ≠ d.cursor → d.shape? b = none

theorem Bare.notUsed {d : Draft} (bare : d.Bare) {v : ValueId} {p : Point} :
    ¬d.graph.UsedAt v p := by
  intro used
  cases used with
  | stmt live get _ =>
      rw [bare.block live] at get
      cases get
  | terminator live last _ =>
      rw [bare.block live] at last
      cases last
  | phi live mem _ _ =>
      rw [bare.block live] at mem
      cases mem

theorem Bare.newMerge {d : Draft} (bare : d.Bare) : d.newMerge.2.Bare where
  cursor := bare.cursor
  block := by
    intro b block live
    rcases block?_addBlock_eq_some live with ⟨-, rfl⟩ | old
    · rfl
    · exact bare.block old
  shape := bare.shape

/-- The entry is the only block of a new draft. -/
theorem block?_new {name : String} {b : BlockId} {block : Block}
    (live : (Draft.new name).graph.block? b = some block) : b = ⟨0⟩ ∧ block = {} := by
  obtain ⟨n⟩ := b
  cases n with
  | zero =>
      cases live
      exact ⟨rfl, rfl⟩
  | succ n => simp [Draft.new, Graph.new, Graph.block?] at live

theorem bare_new (name : String) : (Draft.new name).Bare where
  cursor := rfl
  block live := (block?_new live).2
  shape := by
    intro b other
    have other : b ≠ ⟨0⟩ := other
    simp [Draft.new, shape?, List.lookup_cons, beq_eq_false_iff_ne.mpr other]

/-- The draft with nothing but its entry. -/
theorem sound_new (name : String) : (Draft.new name).Sound := by
  have only : ∀ {b : BlockId} {block : Block}, (Draft.new name).graph.block? b = some block →
      b = ⟨0⟩ ∧ block = {} := block?_new
  have undefined : ∀ {v : ValueId} {p : Point}, ¬(Draft.new name).graph.DefinedAt v p := by
    intro v p defined
    cases defined with
    | phi live mem _ =>
        obtain ⟨-, rfl⟩ := only live
        exact absurd mem List.not_mem_nil
    | stmt live get _ =>
        obtain ⟨-, rfl⟩ := only live
        simp at get
  have unlinked : ∀ b, (Draft.new name).graph.successorsOf b = [] := by
    intro b
    rw [Graph.successorsOf]
    cases live : (Draft.new name).graph.block? b with
    | none => rfl
    | some block =>
        obtain ⟨-, rfl⟩ := only live
        rfl
  constructor
  case linked =>
    refine ⟨fun {b c} mem => ?_, fun live p => ?_, fun live mem => ?_⟩
    · rw [unlinked] at mem
      exact absurd mem List.not_mem_nil
    · obtain ⟨-, rfl⟩ := only live
      rw [unlinked]
      rfl
    · obtain ⟨-, rfl⟩ := only live
      exact absurd mem List.not_mem_nil
  case numbered => exact fun defined => absurd defined undefined
  case single => exact fun defined => absurd defined undefined
  case distinct =>
    intro b block live
    obtain ⟨-, rfl⟩ := only live
    exact List.nodup_nil
  case entry => exact ⟨{}, rfl, rfl⟩
  case entry_notDirect => exact List.not_mem_nil
  case entry_shape => rfl
  case entry_left => exact Or.inl rfl
  case unmade =>
    intro b none
    refine ⟨(bare_new name).shape ?_, List.not_mem_nil, rfl⟩
    rintro rfl
    cases none
  case direct => exact fun _ mem => absurd mem List.not_mem_nil
  case unshaped =>
    intro b block live _ _
    obtain ⟨-, rfl⟩ := only live
    rfl
  case slots =>
    intro b phis shaped v mem
    obtain rfl : phis = [] := by
      rw [shape?, Draft.new, List.lookup_cons] at shaped
      split at shaped
      · cases shaped
        rfl
      · cases shaped
    exact absurd mem List.not_mem_nil
  case phiTypes =>
    intro b block live p mem
    obtain ⟨-, rfl⟩ := only live
    exact absurd mem List.not_mem_nil
  case indexInputs =>
    intro b block p live mem
    obtain ⟨-, rfl⟩ := only live
    exact absurd mem List.not_mem_nil
  case nextIndex =>
    intro b phi next registered
    cases registered

theorem reached_new (name : String) : (Draft.new name).Reached where
  shaped := by
    intro b phis shaped notEntry
    rw [(bare_new name).shape notEntry] at shaped
    cases shaped
  cursor := Or.inl rfl
  bare live _ _ := by
    rw [(block?_new live).2]
    exact ⟨rfl, rfl, rfl⟩

end Draft

namespace LabelMap

/-- What a label map says is true of the unit. -/
structure Resolves (unit : CodeUnit) (m : LabelMap) : Prop where
  distinct : m.Distinct
  bound : ∀ {l : Label} {offset : Nat}, m.offsets.lookup l = some offset →
    unit.offset? l = some offset ∧ (m.blockAt? offset).isSome
  within : ∀ {offset : Nat} {b : BlockId}, m.blockAt? offset = some b → offset < unit.size

/-- The label is resolved. -/
def Knows (m : LabelMap) (l : Label) : Prop := (m.offsets.lookup l).isSome

theorem Resolves.block {unit : CodeUnit} {m : LabelMap} (resolves : m.Resolves unit) {l : Label}
    (knows : m.Knows l) : ∃ offset b, unit.offset? l = some offset ∧ offset < unit.size ∧
      m.blockAt? offset = some b ∧ m.block l = .ok b := by
  obtain ⟨offset, lookup⟩ := Option.isSome_iff_exists.mp knows
  obtain ⟨is, some⟩ := resolves.bound lookup
  obtain ⟨b, at_⟩ := Option.isSome_iff_exists.mp some
  refine ⟨offset, b, is, resolves.within at_, at_, ?_⟩
  rw [LabelMap.block, lookup, Option.bind_some, at_]

end LabelMap

open LabelMap Lowering

/-- The invariant depends on the labels only through their blocks. -/
theorem Lowering.Inv.relabel {ctx ctx' : Context} {carry : Carry} {base : Draft} {phase : Phase}
    {aside aside' : BlockId → Prop} {hand : List (ValueId × ValueType)} {s : State}
    (inv : Inv ctx carry base aside phase hand s)
    (aims : ∀ {b : BlockId}, s.Aims ctx' b → s.Aims ctx b ∨ s.draft.Plain b)
    (less : ∀ {b : BlockId}, aside' b → aside b) : Inv ctx' carry base aside' phase hand s :=
  { inv with
    aims := fun aim => (aims aim).elim inv.aims id
    aside := fun set => inv.aside (less set) }

/-- Labels are resolved as far as they were bound, and no code is built. -/
structure LabelMap.Resolution.Sound (unit : CodeUnit) (pool : Pool) (kind : UnitKind)
    (r : Resolution) : Prop where
  resolves : r.labels.Resolves unit
  bare : r.draft.Bare
  /-- Besides the entry, there are only the blocks of labels. -/
  made : ∀ {b : BlockId}, (r.draft.graph.block? b).isSome →
    b = r.draft.cursor ∨ ∃ offset, r.labels.blockAt? offset = some b
  inv : Inv ⟨pool, r.labels, kind⟩ .nothing r.draft
    (fun b => ∃ offset, r.labels.blockAt? offset = some b) .running [] { draft := r.draft }

namespace LabelMap.Resolution

variable {unit : CodeUnit} {pool : Pool} {kind : UnitKind} {r r' : Resolution}

/-- A label keeps the offset of the unit. -/
theorem lookup_record {l l' : Label} {offset offset' : Nat}
    (lookup : (r.record l offset).labels.offsets.lookup l' = some offset') :
    l' = l ∧ offset' = offset ∨ r.labels.offsets.lookup l' = some offset' := by
  rw [offsets_record, List.lookup_cons] at lookup
  split at lookup
  · rename_i same
    cases lookup
    exact Or.inl ⟨beq_iff_eq.mp same, rfl⟩
  · exact Or.inr lookup

theorem knows_record (r : Resolution) (l : Label) (offset : Nat) :
    (r.record l offset).labels.Knows l := by
  rw [Knows, offsets_record, List.lookup_cons_self]
  rfl

theorem Knows.record {l : Label} (knows : r.labels.Knows l) (l' : Label) (offset : Nat) :
    (r.record l' offset).labels.Knows l := by
  rw [Knows, offsets_record, List.lookup_cons]
  split
  · rfl
  · exact knows

theorem blockAt?_cons {offsets : List (Label × Nat)} {blocks : List (Nat × BlockId)}
    {offset offset' : Nat} {b b' : BlockId}
    (at_ : blockAt? ⟨offsets, (offset, b) :: blocks⟩ offset' = some b') :
    offset' = offset ∧ b' = b ∨ blocks.lookup offset' = some b' := by
  rw [blockAt?, List.lookup_cons] at at_
  split at at_
  · rename_i same
    cases at_
    exact Or.inl ⟨beq_iff_eq.mp same, rfl⟩
  · exact Or.inr at_

theorem Sound.record {l : Label} {offset : Nat} (sound : r.Sound unit pool kind)
    (bound : unit.offset? l = some offset) (lt : offset < unit.size) :
    (r.record l offset).Sound unit pool kind := by
  rcases record_eq r l offset with ⟨b, at_, heq⟩ | ⟨free, heq⟩
  · refine ⟨⟨?_, ?_, ?_⟩, heq ▸ sound.bare, ?_, ?_⟩
    · rw [heq]
      exact sound.resolves.distinct
    · intro l' offset' lookup
      rcases lookup_record lookup with ⟨rfl, rfl⟩ | old
      · exact ⟨bound, by rw [heq]; exact Option.isSome_iff_exists.mpr ⟨b, at_⟩⟩
      · rw [heq]
        exact sound.resolves.bound old
    · rw [heq]
      exact sound.resolves.within
    · rw [heq]
      exact sound.made
    · rw [heq]
      exact sound.inv.relabel Or.inl id
  · obtain ⟨inv, plain, -, apart, -, -⟩ := sound.inv.newMerge rfl
    refine ⟨⟨?_, ?_, ?_⟩, heq ▸ sound.bare.newMerge, ?_, ?_⟩
    · rw [heq]
      intro i j b hi hj
      rcases blockAt?_cons hi with ⟨rfl, rfl⟩ | oldi
      · rcases blockAt?_cons hj with ⟨rfl, -⟩ | oldj
        · rfl
        · exact absurd rfl (apart _ ⟨j, oldj⟩)
      · rcases blockAt?_cons hj with ⟨rfl, rfl⟩ | oldj
        · exact absurd rfl (apart _ ⟨i, oldi⟩)
        · exact sound.resolves.distinct oldi oldj
    · intro l' offset' lookup
      rcases lookup_record lookup with ⟨rfl, rfl⟩ | old
      · refine ⟨bound, ?_⟩
        rw [heq, blockAt?, List.lookup_cons_self]
        rfl
      · obtain ⟨is, some⟩ := sound.resolves.bound old
        refine ⟨is, ?_⟩
        rw [heq, blockAt?, List.lookup_cons]
        split
        · rfl
        · exact some
    · rw [heq]
      intro offset' b at_
      rcases blockAt?_cons at_ with ⟨rfl, -⟩ | old
      · exact lt
      · exact sound.resolves.within old
    · rw [heq]
      intro b live
      obtain ⟨block, live⟩ := Option.isSome_iff_exists.mp live
      rcases Draft.block?_addBlock_eq_some live with ⟨rfl, -⟩ | old
      · exact Or.inr ⟨offset, List.lookup_cons_self⟩
      · refine (sound.made (Option.isSome_iff_exists.mpr ⟨block, old⟩)).imp id ?_
        rintro ⟨offset', at_⟩
        have other : (offset' == offset) = false := beq_eq_false_iff_ne.mpr fun e => by
          rw [e, free] at at_
          cases at_
        exact ⟨offset', by rw [blockAt?, List.lookup_cons, other]; exact at_⟩
    · rw [heq]
      refine (inv.restart (by simp)).relabel (fun {c} aims => ?_) (fun {c} aims => ?_)
      · rcases aims with ⟨offset', at_⟩ | rest
        · rcases blockAt?_cons at_ with ⟨-, rfl⟩ | old
          · exact Or.inr plain
          · exact Or.inl (Or.inl ⟨offset', old⟩)
        · exact Or.inl (Or.inr rest)
      · obtain ⟨offset', at_⟩ := aims
        rcases blockAt?_cons at_ with ⟨-, rfl⟩ | old
        · exact Or.inl rfl
        · exact Or.inr ⟨offset', old⟩

theorem Sound.bindAll {ls : List Label} (sound : r.Sound unit pool kind)
    (h : bindAll unit ls r = .ok () r') :
    r'.Sound unit pool kind ∧ (∀ l, r.labels.Knows l → r'.labels.Knows l) ∧
      ∀ l ∈ ls, r'.labels.Knows l := by
  induction ls generalizing r with
  | nil =>
      cases h
      exact ⟨sound, fun _ => id, fun l mem => absurd mem List.not_mem_nil⟩
  | cons l rest ih =>
      rw [Resolution.bindAll, Resolution.bind] at h
      cases bound : unit.offset? l with
      | none => simp [bound] at h
      | some offset =>
          rw [bound] at h
          by_cases lt : offset < unit.size
          · simp only [if_pos lt] at h
            obtain ⟨sound', kept, all⟩ := ih (sound.record bound lt) h
            refine ⟨sound', fun k knows => kept k (Knows.record knows l offset), fun k mem => ?_⟩
            rcases List.mem_cons.mp mem with rfl | mem
            · exact kept k (knows_record r k offset)
            · exact all k mem
          · simp only [if_neg lt] at h
            cases h

theorem Sound.resolveFrom {code : List Instruction} {offset : Nat} (sound : r.Sound unit pool kind)
    (h : resolveFrom unit pool offset code r = .ok () r') :
    r'.Sound unit pool kind ∧ (∀ l, r.labels.Knows l → r'.labels.Knows l) ∧
      ∀ i ∈ code, ∃ ls, i.targets pool = .ok ls ∧ ∀ l ∈ ls, r'.labels.Knows l := by
  induction code generalizing r offset with
  | nil =>
      cases h
      exact ⟨sound, fun _ => id, fun i mem => absurd mem List.not_mem_nil⟩
  | cons i rest ih =>
      rw [Resolution.resolveFrom, bindTargets] at h
      cases targets : i.targets pool with
      | error cause => simp [targets] at h
      | ok ls =>
          rw [targets] at h
          simp only at h
          cases bound : Resolution.bindAll unit ls r with
          | error fault r₁ => simp [bound] at h
          | ok _ r₁ =>
              rw [bound] at h
              obtain ⟨sound₁, kept₁, all₁⟩ := sound.bindAll bound
              obtain ⟨sound', kept, all⟩ := ih sound₁ h
              refine ⟨sound', fun l knows => kept l (kept₁ l knows), fun j mem => ?_⟩
              rcases List.mem_cons.mp mem with rfl | mem
              · exact ⟨ls, targets, fun l hl => kept l (all₁ l hl)⟩
              · exact all j mem

/-- Before any label is bound. -/
theorem sound_init (unit : CodeUnit) (pool : Pool) (kind : UnitKind) (name : String) :
    Sound unit pool kind { draft := .new name } where
  resolves := by
    refine ⟨?_, ?_, ?_⟩
    · intro i j b hi
      cases hi
    · intro l offset lookup
      cases lookup
    · intro offset b at_
      cases at_
  bare := Draft.bare_new name
  made live := by
    obtain ⟨block, live⟩ := Option.isSome_iff_exists.mp live
    exact Or.inl (Draft.block?_new live).1
  inv := {
    sound := Draft.sound_new name
    reached := Draft.reached_new name
    acts := .refl
    live := fun _ => rfl
    phase := ⟨{}, rfl, rfl⟩
    aims := by
      rintro b (⟨offset, at_⟩ | ⟨l, mem, -⟩ | ⟨p, mem, -⟩)
      · cases at_
      · exact absurd mem List.not_mem_nil
      · exact absurd mem List.not_mem_nil
    nexts := fun l mem => absurd mem List.not_mem_nil
    calls := fun c mem => absurd mem List.not_mem_nil
    rhs := fun p mem => absurd mem List.not_mem_nil
    aside := by
      rintro b ⟨offset, at_⟩
      cases at_
    carried := fun e mem => absurd mem List.not_mem_nil
    stack := fun v mem => absurd mem List.not_mem_nil
    hand := fun e mem => absurd mem List.not_mem_nil }

end LabelMap.Resolution

/-- What the pass starts with: labels that lead to blocks, and no code. -/
structure CodeUnit.Start (unit : CodeUnit) (pool : Pool) (kind : UnitKind) (labels : LabelMap)
    (draft : Draft) : Prop where
  resolves : labels.Resolves unit
  targets : ∀ i ∈ unit.instructions, ∃ ls, i.targets pool = .ok ls ∧ ∀ l ∈ ls, labels.Knows l
  bare : draft.Bare
  made : ∀ {b : BlockId}, (draft.graph.block? b).isSome →
    b = draft.cursor ∨ ∃ offset, labels.blockAt? offset = some b
  inv : Inv ⟨pool, labels, kind⟩ .nothing draft
    (fun b => ∃ offset, labels.blockAt? offset = some b) .running [] { draft }

theorem CodeUnit.Start.between {unit : CodeUnit} {pool : Pool} {kind : UnitKind} {labels : LabelMap}
    {draft : Draft} (start : unit.Start pool kind labels draft) :
    Between ⟨pool, labels, kind⟩ 0 { draft } :=
  .live rfl (.here (start.inv.settle fun _ ⟨offset, _, at_⟩ => ⟨offset, at_⟩))

theorem CodeUnit.start_of_resolve {unit : CodeUnit} {pool : Pool} {labels : LabelMap}
    {draft : Draft} {name : String} (kind : UnitKind)
    (h : LabelMap.resolve unit pool (.new name) = .ok labels draft) :
    unit.Start pool kind labels draft := by
  rw [LabelMap.resolve] at h
  split at h
  case h_2 => cases h
  case h_1 r resolved =>
    cases h
    obtain ⟨sound, -, targets⟩ :=
      (LabelMap.Resolution.sound_init unit pool kind name).resolveFrom resolved
    exact ⟨sound.resolves, targets, sound.bare, sound.made, sound.inv⟩

end StackLift
