import StackLift.LabelMap

/-!
Resolution of labels. What code names is listed apart from how it is resolved: the label that an
instruction has as its operand, and the labels in the tables of a switch. Labels may be bound to
the same offset, and dead code names labels as well.

Main statement: labels are resolved exactly when all that is named is there (`resolve_exact`).
Then every offset that is named has one block, the blocks are numbered in the order in which their
offsets are first named, and no other offset has one. Otherwise the first instruction that names
something missing is reported.
-/

namespace StackLift

/-! ### What code names -/

/-- The jump tables of a switch, in the order in which they are read. -/
def Instruction.tables : Instruction → List PoolIndex
  | .switch _ _ chrLabels numLabels => chrLabels.toList ++ [numLabels]
  | _ => []

/-- The labels of a jump table; other constants have none. -/
def Pool.tableLabels (pool : Pool) (table : PoolIndex) : List Label :=
  match pool.entries[table.toNat]? with
  | some (.labelTable labels) => labels
  | _ => []

/-- The labels that an instruction names: its operand, and what its tables list. -/
def Instruction.named (pool : Pool) (i : Instruction) : List Label :=
  i.label?.toList ++ i.tables.flatMap pool.tableLabels

/-- The label is bound to the offset of an instruction. -/
def CodeUnit.Binds (unit : CodeUnit) (l : Label) : Prop :=
  ∃ offset, unit.offset? l = some offset ∧ offset < unit.size

instance (unit : CodeUnit) (l : Label) : Decidable (unit.Binds l) :=
  decidable_of_iff (∃ offset ∈ unit.offset? l, offset < unit.size) Iff.rfl

/-- The tables of an instruction are in the pool, and the labels that it names are bound. -/
structure Instruction.Resolvable (unit : CodeUnit) (pool : Pool) (i : Instruction) : Prop where
  tables : ∀ t ∈ i.tables, ∃ labels, pool.entries[t.toNat]? = some (.labelTable labels)
  labels : ∀ l ∈ i.named pool, unit.Binds l

theorem Pool.labelTable_eq_ok {pool : Pool} {t : PoolIndex} {labels : List Label} :
    pool.labelTable t = .ok labels ↔ pool.entries[t.toNat]? = some (.labelTable labels) :=
  Pool.labelTable_eq_ok_iff.trans Pool.get_eq_ok_iff

theorem Pool.tableLabels_of_entry {pool : Pool} {t : PoolIndex} {labels : List Label}
    (entry : pool.entries[t.toNat]? = some (.labelTable labels)) :
    pool.tableLabels t = labels := by
  rw [tableLabels, entry]

namespace Instruction

/-- The targets of an instruction are the labels that it names, once its tables are found. -/
theorem targets_eq_ok {pool : Pool} {i : Instruction} {labels : List Label} :
    i.targets pool = .ok labels ↔
      (∀ t ∈ i.tables, ∃ ls, pool.entries[t.toNat]? = some (.labelTable ls)) ∧
        labels = i.named pool := by
  cases i with
  | switch call names chrLabels numLabels =>
      rw [targets_switch_eq_ok, named, tables]
      constructor
      · rintro ⟨chr, num, chrFound, numFound, rfl⟩
        have numEntry := Pool.labelTable_eq_ok.mp numFound
        cases chrLabels with
        | none =>
            cases chrFound
            simp [label?, numEntry, Pool.tableLabels_of_entry numEntry]
        | some t =>
            have chrEntry := Pool.labelTable_eq_ok.mp chrFound
            simp [label?, numEntry, chrEntry, Pool.tableLabels_of_entry numEntry,
              Pool.tableLabels_of_entry chrEntry]
      · rintro ⟨found, rfl⟩
        obtain ⟨num, numEntry⟩ := found numLabels (by simp)
        cases chrLabels with
        | none =>
            refine ⟨[], num, rfl, Pool.labelTable_eq_ok.mpr numEntry, ?_⟩
            simp [label?, Pool.tableLabels_of_entry numEntry]
        | some t =>
            obtain ⟨chr, chrEntry⟩ := found t (by simp)
            refine ⟨chr, num, Pool.labelTable_eq_ok.mpr chrEntry,
              Pool.labelTable_eq_ok.mpr numEntry, ?_⟩
            simp [label?, Pool.tableLabels_of_entry numEntry, Pool.tableLabels_of_entry chrEntry]
  | _ => simp [targets, named, tables, eq_comm]

theorem tables_eq_nil {i : Instruction}
    (plain : ∀ call names chr num, i ≠ switch call names chr num) : i.tables = [] := by
  cases i with
  | switch call names chr num => exact absurd rfl (plain call names chr num)
  | _ => rfl

/-- Without tables, an instruction names no label but its operand. -/
theorem resolvable_iff_of_plain {unit : CodeUnit} {pool : Pool} {i : Instruction}
    (plain : ∀ call names chr num, i ≠ switch call names chr num) :
    i.Resolvable unit pool ↔ ∀ l, i.label? = some l → unit.Binds l := by
  have none := tables_eq_nil plain
  have named : i.named pool = i.label?.toList := by
    rw [Instruction.named, none]
    exact List.append_nil _
  constructor
  · intro resolvable l names
    exact resolvable.labels l (by rw [named, names]; exact List.mem_singleton_self l)
  · intro bound
    refine ⟨fun t mem => ?_, fun l mem => bound l ?_⟩
    · rw [none] at mem
      cases mem
    · rwa [named, Option.mem_toList] at mem

theorem resolvable_iff {unit : CodeUnit} {pool : Pool} {i : Instruction} :
    i.Resolvable unit pool ↔
      ∃ labels, i.targets pool = .ok labels ∧ ∀ l ∈ labels, unit.Binds l := by
  constructor
  · intro resolvable
    exact ⟨i.named pool, targets_eq_ok.mpr ⟨resolvable.tables, rfl⟩, resolvable.labels⟩
  · rintro ⟨labels, targets, bound⟩
    obtain ⟨found, rfl⟩ := targets_eq_ok.mp targets
    exact ⟨found, bound⟩

instance (unit : CodeUnit) (pool : Pool) (i : Instruction) : Decidable (i.Resolvable unit pool) :=
  decidable_of_iff (∃ labels ∈ (i.targets pool).toOption, ∀ l ∈ labels, unit.Binds l) <| by
    rw [resolvable_iff]
    cases i.targets pool <;> simp [Except.toOption]

end Instruction

namespace CodeUnit

/-- The labels that the instructions of a unit name, in code order. -/
def named (unit : CodeUnit) (pool : Pool) : List Label :=
  unit.instructions.flatMap (·.named pool)

/-- The offsets that labels are bound to, each once, in the order in which they first occur. -/
def offsetsOf (unit : CodeUnit) (labels : List Label) : List Nat :=
  (labels.filterMap unit.offset?).eraseDups

/-- The offsets that a unit names, in the order in which they are first named. -/
def targetOffsets (unit : CodeUnit) (pool : Pool) : List Nat :=
  unit.offsetsOf (unit.named pool)

theorem mem_offsetsOf {unit : CodeUnit} {labels : List Label} {offset : Nat} :
    offset ∈ unit.offsetsOf labels ↔ ∃ l ∈ labels, unit.offset? l = some offset := by
  rw [offsetsOf, List.mem_eraseDups, List.mem_filterMap]

/-- A further label adds its offset, unless that occurred before. -/
theorem offsetsOf_concat {unit : CodeUnit} {labels : List Label} {l : Label} {offset : Nat}
    (bound : unit.offset? l = some offset) :
    unit.offsetsOf (labels ++ [l]) =
      if offset ∈ unit.offsetsOf labels then unit.offsetsOf labels
      else unit.offsetsOf labels ++ [offset] := by
  have before : offset ∈ unit.offsetsOf labels ↔ offset ∈ labels.filterMap unit.offset? :=
    List.mem_eraseDups
  rw [offsetsOf, List.filterMap_append, List.filterMap_cons_some bound, List.filterMap_nil,
    List.eraseDups_append, ← offsetsOf, List.removeAll]
  by_cases known : offset ∈ labels.filterMap unit.offset?
  · rw [if_pos (before.mpr known), List.filter_cons_of_neg (by simpa using known)]
    exact List.append_nil _
  · rw [if_neg (mt before.mp known), List.filter_cons_of_pos (by simpa using known)]
    rfl

end CodeUnit

/-- A number that a list lacks stands at its place when it is added. -/
theorem idxOf?_concat {xs : List Nat} {a : Nat} (new : a ∉ xs) (b : Nat) :
    (xs ++ [a]).idxOf? b = if b = a then some xs.length else xs.idxOf? b := by
  rw [List.idxOf?, List.findIdx?_append]
  by_cases same : b = a
  · have absent : xs.findIdx? (· == a) = none := List.idxOf?_eq_none_iff.mpr new
    simp [same, absent]
  · have other : (a == b) = false := beq_eq_false_iff_ne.mpr (Ne.symm same)
    simp [same, other]

/-! ### Binding labels in turn -/

namespace Draft

/-- The draft with a number of further blocks, in which nothing is built. -/
def addEmpty (d : Draft) (n : Nat) : Draft :=
  { d with graph := { d.graph with blocks := d.graph.blocks ++ List.replicate n (some {}) } }

theorem newMerge_addEmpty (d : Draft) (n : Nat) :
    (d.addEmpty n).newMerge = (⟨d.graph.blocks.length + n⟩, d.addEmpty (n + 1)) := by
  simp [newMerge, addEmpty, Graph.nextBlock, Graph.addBlock, List.replicate_succ']

end Draft

namespace LabelMap.Resolution

variable {unit : CodeUnit} {pool : Pool} {start : Draft} {labels : List Label} {r r' : Resolution}

theorem offsets_record (r : Resolution) (l : Label) (offset : Nat) :
    (r.record l offset).labels.offsets = (l, offset) :: r.labels.offsets := by
  rw [record]
  split <;> rfl

/-- The block of an offset is made once. -/
theorem record_eq (r : Resolution) (l : Label) (offset : Nat) :
    (∃ b, r.labels.blockAt? offset = some b ∧
        r.record l offset = ⟨⟨(l, offset) :: r.labels.offsets, r.labels.blocks⟩, r.draft⟩) ∨
      r.labels.blockAt? offset = none ∧ r.record l offset =
        ⟨⟨(l, offset) :: r.labels.offsets, (offset, r.draft.newMerge.1) :: r.labels.blocks⟩,
          r.draft.newMerge.2⟩ := by
  rw [record]
  cases at_ : r.labels.blockAt? offset with
  | some b => exact Or.inl ⟨b, rfl, rfl⟩
  | none => exact Or.inr ⟨rfl, rfl⟩

/-- What is resolved once labels were bound in turn, from a draft without labels. -/
structure Follows (unit : CodeUnit) (start : Draft) (labels : List Label) (r : Resolution) :
    Prop where
  offset : ∀ l, r.labels.offsets.lookup l = if l ∈ labels then unit.offset? l else none
  /-- Blocks are numbered in the order in which their offsets first occur. -/
  blockAt : ∀ offset, r.labels.blockAt? offset =
    ((unit.offsetsOf labels).idxOf? offset).map fun k => ⟨start.graph.blocks.length + k⟩
  size : r.labels.size = (unit.offsetsOf labels).length
  distinct : (unit.offsetsOf labels).Nodup
  draft : r.draft = start.addEmpty (unit.offsetsOf labels).length

theorem follows_init (unit : CodeUnit) (start : Draft) :
    Follows unit start [] { draft := start } where
  offset _ := rfl
  blockAt _ := rfl
  size := rfl
  distinct := List.nodup_nil
  draft := by simp [CodeUnit.offsetsOf, Draft.addEmpty]

namespace Follows

theorem blockAt?_eq_none (follows : Follows unit start labels r) {offset : Nat} :
    r.labels.blockAt? offset = none ↔ offset ∉ unit.offsetsOf labels := by
  rw [follows.blockAt, Option.map_eq_none_iff, List.idxOf?_eq_none_iff]

theorem blockAt?_of_getElem? (follows : Follows unit start labels r) {k offset : Nat}
    (get : (unit.offsetsOf labels)[k]? = some offset) :
    r.labels.blockAt? offset = some ⟨start.graph.blocks.length + k⟩ := by
  obtain ⟨lt, is⟩ := List.getElem?_eq_some_iff.mp get
  have first : (unit.offsetsOf labels).idxOf? offset = some k := by
    refine List.idxOf?_eq_some_iff.mpr ⟨lt, is, fun j before => ?_⟩
    rw [← is]
    exact List.pairwise_iff_getElem.mp follows.distinct j k (Nat.lt_trans before lt) lt before
  rw [follows.blockAt, first]
  rfl

/-- A label that was bound leads to the block of its offset. -/
theorem block_of_mem (follows : Follows unit start labels r) {l : Label} {offset : Nat}
    (mem : l ∈ labels) (bound : unit.offset? l = some offset) :
    ∃ k, (unit.offsetsOf labels)[k]? = some offset ∧
      r.labels.blockAt? offset = some ⟨start.graph.blocks.length + k⟩ ∧
      r.labels.block l = .ok ⟨start.graph.blocks.length + k⟩ := by
  obtain ⟨k, get⟩ := List.getElem?_of_mem (CodeUnit.mem_offsetsOf.mpr ⟨l, mem, bound⟩)
  have at_ := follows.blockAt?_of_getElem? get
  refine ⟨k, get, at_, ?_⟩
  rw [LabelMap.block, follows.offset, if_pos mem, bound, Option.bind_some, at_]

theorem lookup_record (follows : Follows unit start labels r) {l : Label} {offset : Nat}
    (bound : unit.offset? l = some offset) (k : Label) :
    (r.record l offset).labels.offsets.lookup k =
      if k ∈ labels ++ [l] then unit.offset? k else none := by
  rw [offsets_record, List.lookup_cons]
  by_cases same : k = l
  · simp [same, bound]
  · simp [beq_eq_false_iff_ne.mpr same, same, follows.offset k]

/-- One more label. Its offset has a block exactly when an earlier label is bound to it. -/
theorem record (follows : Follows unit start labels r) {l : Label} {offset : Nat}
    (bound : unit.offset? l = some offset) :
    Follows unit start (labels ++ [l]) (r.record l offset) := by
  have offsets := follows.lookup_record bound
  rcases record_eq r l offset with ⟨b, at_, heq⟩ | ⟨free, heq⟩
  · have known : unit.offsetsOf (labels ++ [l]) = unit.offsetsOf labels := by
      rw [CodeUnit.offsetsOf_concat bound, if_pos]
      -- An offset that no label before was bound to has no block.
      refine Classical.not_not.mp fun new => ?_
      rw [follows.blockAt?_eq_none.mpr new] at at_
      cases at_
    refine ⟨offsets, ?_, ?_, known ▸ follows.distinct, ?_⟩
    · rw [heq, known]
      exact follows.blockAt
    · rw [heq, known]
      exact follows.size
    · rw [heq, known]
      exact follows.draft
  · have new := follows.blockAt?_eq_none.mp free
    have more : unit.offsetsOf (labels ++ [l]) = unit.offsetsOf labels ++ [offset] := by
      rw [CodeUnit.offsetsOf_concat bound, if_neg new]
    have made := Draft.newMerge_addEmpty start (unit.offsetsOf labels).length
    rw [← follows.draft] at made
    refine ⟨offsets, fun o => ?_, ?_, ?_, ?_⟩
    · have old : r.labels.blocks.lookup o = _ := follows.blockAt o
      rw [heq, more, blockAt?, List.lookup_cons, made, idxOf?_concat new]
      by_cases same : o = offset
      · simp [same]
      · simp [same, beq_eq_false_iff_ne.mpr same, old]
    · rw [heq, more, LabelMap.size, List.length_cons, ← LabelMap.size, follows.size,
        List.length_append, List.length_singleton]
    · rw [more]
      refine List.nodup_append.mpr ⟨follows.distinct, List.pairwise_singleton _ offset, ?_⟩
      rintro o mem _ last rfl
      exact new (List.mem_singleton.mp last ▸ mem)
    · rw [heq, more, made, List.length_append, List.length_singleton]

theorem bindAll (follows : Follows unit start labels r) {ls : List Label}
    (bound : ∀ l ∈ ls, unit.Binds l) :
    ∃ r', Resolution.bindAll unit ls r = .ok () r' ∧ Follows unit start (labels ++ ls) r' := by
  induction ls generalizing labels r with
  | nil => exact ⟨r, rfl, by rwa [List.append_nil]⟩
  | cons l rest ih =>
      obtain ⟨⟨offset, is, lt⟩, others⟩ := List.forall_mem_cons.mp bound
      obtain ⟨r', binds, follows'⟩ := ih (follows.record is) others
      refine ⟨r', ?_, ?_⟩
      · rw [Resolution.bindAll, Resolution.bind, is]
        simp only [if_pos lt]
        exact binds
      · rwa [List.append_assoc] at follows'

theorem bindTargets (follows : Follows unit start labels r) {i : Instruction}
    (resolvable : i.Resolvable unit pool) :
    ∃ r', Resolution.bindTargets unit pool i r = .ok () r' ∧
      Follows unit start (labels ++ i.named pool) r' := by
  have targets := Instruction.targets_eq_ok.mpr ⟨resolvable.tables, rfl⟩
  obtain ⟨r', binds, follows'⟩ := follows.bindAll resolvable.labels
  refine ⟨r', ?_, follows'⟩
  rw [Resolution.bindTargets, targets]
  exact binds

end Follows

theorem exists_bindAll_error {ls : List Label} {l : Label} (mem : l ∈ ls) (unbound : ¬unit.Binds l)
    (r : Resolution) : ∃ f r', Resolution.bindAll unit ls r = .error f r' := by
  induction ls generalizing r with
  | nil => cases mem
  | cons k rest ih =>
      rw [Resolution.bindAll]
      cases bind : r.bind unit k with
      | error f => exact ⟨f, r, rfl⟩
      | ok r₁ =>
          refine ih ((List.mem_cons.mp mem).resolve_left ?_) r₁
          rintro rfl
          rw [Resolution.bind] at bind
          cases is : unit.offset? l with
          | none => simp [is] at bind
          | some offset =>
              have beyond : ¬offset < unit.size := fun lt => unbound ⟨offset, is, lt⟩
              simp [is, beyond] at bind

theorem exists_bindTargets_error {i : Instruction} (unresolvable : ¬i.Resolvable unit pool)
    (r : Resolution) : ∃ f r', Resolution.bindTargets unit pool i r = .error f r' := by
  rw [Resolution.bindTargets]
  cases targets : i.targets pool with
  | error cause => exact ⟨.constant cause, r, rfl⟩
  | ok ls =>
      have unbound : ∃ l ∈ ls, ¬unit.Binds l := by
        refine Classical.not_not.mp fun none => unresolvable ?_
        exact Instruction.resolvable_iff.mpr
          ⟨ls, targets, fun l mem => Classical.not_not.mp fun not => none ⟨l, mem, not⟩⟩
      obtain ⟨l, mem, unbound⟩ := unbound
      exact exists_bindAll_error mem unbound r

/-- Labels are bound up to the first instruction that cannot be resolved. -/
theorem Follows.resolveFrom (follows : Follows unit start labels r) (pool : Pool)
    (code : List Instruction) (offset : Nat) :
    ((∀ i ∈ code, i.Resolvable unit pool) ∧
      ∃ r', Resolution.resolveFrom unit pool offset code r = .ok () r' ∧
        Follows unit start (labels ++ code.flatMap (·.named pool)) r') ∨
    ∃ k i f r', code[k]? = some i ∧ ¬i.Resolvable unit pool ∧
      (∀ j ∈ code.take k, j.Resolvable unit pool) ∧
      Resolution.resolveFrom unit pool offset code r = .error (offset + k, f) r' := by
  -- The labels named so far grow along the code; what is resolved is always all of them.
  induction code generalizing labels r offset with
  | nil =>
      refine .inl ⟨fun i mem => absurd mem List.not_mem_nil, r, rfl, ?_⟩
      rwa [List.flatMap_nil, List.append_nil]
  | cons i rest ih =>
      by_cases resolvable : i.Resolvable unit pool
      · obtain ⟨r₁, binds, follows₁⟩ := follows.bindTargets resolvable
        have goes : Resolution.resolveFrom unit pool offset (i :: rest) r =
            Resolution.resolveFrom unit pool (offset + 1) rest r₁ := by
          rw [Resolution.resolveFrom, binds]
        rw [goes]
        rcases ih follows₁ (offset + 1) with ⟨all, r', ends, follows'⟩ |
          ⟨k, j, f, r', get, not, before, fails⟩
        · refine .inl ⟨List.forall_mem_cons.mpr ⟨resolvable, all⟩, r', ends, ?_⟩
          rwa [List.append_assoc] at follows'
        · refine .inr ⟨k + 1, j, f, r', get, not, ?_, ?_⟩
          · rw [List.take_succ_cons]
            exact List.forall_mem_cons.mpr ⟨resolvable, before⟩
          · rw [fails, Nat.add_assoc, Nat.add_comm 1]
      · obtain ⟨f, r', fails⟩ := exists_bindTargets_error resolvable r
        refine .inr ⟨0, i, f, r', rfl, resolvable, fun j mem => absurd mem List.not_mem_nil, ?_⟩
        rw [Resolution.resolveFrom, fails]
        rfl

end LabelMap.Resolution

/-! ### The labels of a unit -/

/-- The first instruction of a unit that cannot be resolved. -/
structure CodeUnit.FirstUnresolvable (unit : CodeUnit) (pool : Pool) (offset : Nat) : Prop where
  offending : ∃ i, unit.instructions[offset]? = some i ∧ ¬i.Resolvable unit pool
  before : ∀ i ∈ unit.instructions.take offset, i.Resolvable unit pool

theorem CodeUnit.FirstUnresolvable.le {unit : CodeUnit} {pool : Pool} {m n : Nat}
    (first : unit.FirstUnresolvable pool m) (other : unit.FirstUnresolvable pool n) : m ≤ n := by
  obtain ⟨i, get, not⟩ := other.offending
  refine Nat.le_of_not_lt fun lt => not (first.before i ?_)
  exact List.mem_of_getElem? ((List.getElem?_take_of_lt lt).trans get)

theorem CodeUnit.FirstUnresolvable.not_all {unit : CodeUnit} {pool : Pool} {offset : Nat}
    (first : unit.FirstUnresolvable pool offset) :
    ¬∀ i ∈ unit.instructions, i.Resolvable unit pool := by
  obtain ⟨i, get, not⟩ := first.offending
  exact fun all => not (all i (List.mem_of_getElem? get))

/-- The map has one block for each offset that is named, and no other. Behind the entry, the blocks
are numbered in the order in which the offsets are first named. -/
structure LabelMap.Exact (unit : CodeUnit) (pool : Pool) (m : LabelMap) : Prop where
  size : m.size = (unit.targetOffsets pool).length
  blockAt : ∀ {k offset : Nat}, (unit.targetOffsets pool)[k]? = some offset →
    m.blockAt? offset = some ⟨k + 1⟩
  other : ∀ {offset : Nat}, (∀ l ∈ unit.named pool, unit.offset? l ≠ some offset) →
    m.blockAt? offset = none
  block : ∀ l ∈ unit.named pool, ∃ offset b, unit.offset? l = some offset ∧
    m.blockAt? offset = some b ∧ m.block l = .ok b
  shared : ∀ l ∈ unit.named pool, ∀ l' ∈ unit.named pool,
    (m.block l = m.block l' ↔ unit.offset? l = unit.offset? l')

namespace LabelMap

theorem Resolution.Follows.exact {unit : CodeUnit} {pool : Pool} {name : String}
    {r : Resolution} (follows : Follows unit (.new name) (unit.named pool) r)
    (bound : ∀ l ∈ unit.named pool, unit.Binds l) : r.labels.Exact unit pool where
  size := follows.size
  blockAt get := by
    rw [follows.blockAt?_of_getElem? get, Nat.add_comm]
    rfl
  other := by
    intro offset unnamed
    refine follows.blockAt?_eq_none.mpr fun mem => ?_
    obtain ⟨l, named, is⟩ := CodeUnit.mem_offsetsOf.mp mem
    exact unnamed l named is
  block := by
    intro l mem
    obtain ⟨offset, is, -⟩ := bound l mem
    obtain ⟨k, -, at_, block⟩ := follows.block_of_mem mem is
    exact ⟨offset, _, is, at_, block⟩
  shared := by
    intro l mem l' mem'
    obtain ⟨offset, is, -⟩ := bound l mem
    obtain ⟨offset', is', -⟩ := bound l' mem'
    obtain ⟨k, get, at_, block⟩ := follows.block_of_mem mem is
    obtain ⟨k', get', at', block'⟩ := follows.block_of_mem mem' is'
    rw [block, block', is, is']
    constructor
    · intro same
      obtain rfl : k = k' := Nat.add_left_cancel (congrArg BlockId.index (Except.ok.inj same))
      exact get.symm.trans get'
    · intro same
      cases same
      exact congrArg Except.ok (Option.some.inj (at_.symm.trans at'))

/-- Resolution ends in one of two ways. -/
theorem resolve_cases (unit : CodeUnit) (pool : Pool) (name : String) :
    ((∀ i ∈ unit.instructions, i.Resolvable unit pool) ∧
      ∃ labels, resolve unit pool (.new name) =
          .ok labels ((Draft.new name).addEmpty (unit.targetOffsets pool).length) ∧
        labels.Exact unit pool) ∨
    ∃ offset f draft, unit.FirstUnresolvable pool offset ∧
      resolve unit pool (.new name) = .error (offset, f) draft := by
  rcases (Resolution.follows_init unit (.new name)).resolveFrom pool unit.instructions 0 with
    ⟨all, r, resolves, follows⟩ | ⟨k, i, f, r, get, not, before, fails⟩
  · have bound : ∀ l ∈ unit.named pool, unit.Binds l := by
      intro l mem
      obtain ⟨i, code, named⟩ := List.mem_flatMap.mp mem
      exact (all i code).labels l named
    have draft : r.draft = (Draft.new name).addEmpty (unit.targetOffsets pool).length :=
      follows.draft
    refine .inl ⟨all, r.labels, ?_, Resolution.Follows.exact follows bound⟩
    rw [resolve, resolves, ← draft]
  · refine .inr ⟨k, f, r.draft, ⟨⟨i, get, not⟩, before⟩, ?_⟩
    rw [resolve, fails, Nat.zero_add]

theorem exact_of_resolve {unit : CodeUnit} {pool : Pool} {name : String} {labels : LabelMap}
    {draft : Draft} (resolves : resolve unit pool (.new name) = .ok labels draft) :
    (∀ i ∈ unit.instructions, i.Resolvable unit pool) ∧ labels.Exact unit pool ∧
      draft = (Draft.new name).addEmpty (unit.targetOffsets pool).length := by
  rcases resolve_cases unit pool name with
    ⟨all, labels', resolves', isExact⟩ | ⟨offset, f, draft', first, fails⟩
  · rw [resolves] at resolves'
    cases resolves'
    exact ⟨all, isExact, rfl⟩
  · rw [resolves] at fails
    cases fails

theorem firstUnresolvable_of_resolve {unit : CodeUnit} {pool : Pool} {name : String} {offset : Nat}
    {f : Fault} {draft : Draft} (fails : resolve unit pool (.new name) = .error (offset, f) draft) :
    unit.FirstUnresolvable pool offset := by
  rcases resolve_cases unit pool name with
    ⟨all, labels, resolves, -⟩ | ⟨offset', f', draft', first, fails'⟩
  · rw [resolves] at fails
    cases fails
  · rw [fails] at fails'
    cases fails'
    exact first

end LabelMap

namespace CodeUnit

variable {unit : CodeUnit} {pool : Pool}

theorem exists_resolve (draft : Draft) (bound : ∀ i ∈ unit.instructions,
      ∃ ls, i.targets pool = .ok ls ∧ ∀ l ∈ ls, unit.Binds l) :
    ∃ labels draft', LabelMap.resolve unit pool draft = .ok labels draft' := by
  rcases (LabelMap.Resolution.follows_init unit draft).resolveFrom pool unit.instructions 0 with
    ⟨-, r, resolves, -⟩ | ⟨k, i, f, r, get, not, -⟩
  · exact ⟨r.labels, r.draft, by rw [LabelMap.resolve, resolves]⟩
  · exact absurd (Instruction.resolvable_iff.mpr (bound i (List.mem_of_getElem? get))) not

/-- Only offsets that a label of the code leads to have a block. -/
theorem names_of_resolve {labels : LabelMap} {draft : Draft} {name : String} {P : Nat → Prop}
    (h : LabelMap.resolve unit pool (.new name) = .ok labels draft)
    (all : ∀ i ∈ unit.instructions, ∀ ls, i.targets pool = .ok ls → ∀ l ∈ ls,
      ∀ offset ∈ unit.offset? l, P offset) {offset : Nat} {b : BlockId}
    (named : labels.blockAt? offset = some b) : P offset := by
  obtain ⟨resolvable, isExact, -⟩ := LabelMap.exact_of_resolve h
  refine Classical.not_not.mp fun not => ?_
  have free : labels.blockAt? offset = none := by
    refine isExact.other fun l mem bound => not ?_
    obtain ⟨i, code, names⟩ := List.mem_flatMap.mp mem
    have targets := Instruction.targets_eq_ok.mpr ⟨(resolvable i code).tables, rfl⟩
    exact all i code _ targets l names offset bound
  rw [free] at named
  cases named

end CodeUnit

/-- Labels are resolved exactly when every table that code names is in the pool and every label is
bound to an instruction. Then each offset that is named has one block, and nothing else is made;
otherwise the first instruction that names something missing is reported. -/
theorem resolve_exact (unit : CodeUnit) (pool : Pool) (name : String) :
    ((∃ labels draft, LabelMap.resolve unit pool (.new name) = .ok labels draft) ↔
      ∀ i ∈ unit.instructions, i.Resolvable unit pool) ∧
    (∀ labels draft, LabelMap.resolve unit pool (.new name) = .ok labels draft →
      labels.Exact unit pool ∧
        draft = (Draft.new name).addEmpty (unit.targetOffsets pool).length) ∧
    ∀ offset, (∃ f draft, LabelMap.resolve unit pool (.new name) = .error (offset, f) draft) ↔
      unit.FirstUnresolvable pool offset := by
  have outcome := LabelMap.resolve_cases unit pool name
  refine ⟨⟨?_, fun all => ?_⟩, fun labels draft resolves => (LabelMap.exact_of_resolve resolves).2,
    fun offset => ⟨?_, fun first => ?_⟩⟩
  · rintro ⟨labels, draft, resolves⟩
    exact (LabelMap.exact_of_resolve resolves).1
  · rcases outcome with ⟨-, labels, resolves, -⟩ | ⟨_, _, _, first, -⟩
    · exact ⟨labels, _, resolves⟩
    · exact absurd all first.not_all
  · rintro ⟨f, draft, fails⟩
    exact LabelMap.firstUnresolvable_of_resolve fails
  · rcases outcome with ⟨all, -⟩ | ⟨offset', f, draft, first', fails⟩
    · exact absurd all first.not_all
    · obtain rfl := Nat.le_antisymm (first.le first') (first'.le first)
      exact ⟨f, draft, fails⟩

/-- A switch with two tables, and a jump that is never reached. Two of the labels lead to the last
arm, which is named first. -/
def sharedArm : CodeUnit where
  name := none
  instructions := [.load .null, .switch ⟨0⟩ (some ⟨1⟩) (some ⟨2⟩) ⟨3⟩, .goto ⟨2⟩,
    .load .null, .ret, .load .null, .ret]
  labels := [some 5, some 3, some 5]

def sharedArmPool : Pool :=
  ⟨[.expr (.symbol "s"), .strings ["a"], .labelTable [⟨0⟩, ⟨1⟩], .labelTable [⟨1⟩, ⟨2⟩]]⟩

/-- With its tables the unit has two blocks besides the entry; without them its switch is the first
instruction that fails. -/
theorem resolve_exact_sharedArm :
    (∃ labels draft, LabelMap.resolve sharedArm sharedArmPool (.new "f") = .ok labels draft ∧
      labels.size = 2 ∧ labels.blockAt? 5 = some ⟨1⟩ ∧ labels.blockAt? 3 = some ⟨2⟩ ∧
      labels.block ⟨0⟩ = labels.block ⟨2⟩) ∧
    ∃ f draft, LabelMap.resolve sharedArm ⟨[]⟩ (.new "f") = .error (1, f) draft := by
  obtain ⟨succeeds, exact', -⟩ := resolve_exact sharedArm sharedArmPool "f"
  obtain ⟨-, -, reports⟩ := resolve_exact sharedArm ⟨[]⟩ "f"
  obtain ⟨labels, draft, resolves⟩ := succeeds.mpr (by decide)
  obtain ⟨isExact, -⟩ := exact' labels draft resolves
  refine ⟨⟨labels, draft, resolves, isExact.size.trans (by decide),
    isExact.blockAt (by decide), isExact.blockAt (by decide), ?_⟩, ?_⟩
  · exact (isExact.shared ⟨0⟩ (by decide) ⟨2⟩ (by decide)).mpr rfl
  · exact (reports 1).mpr ⟨⟨_, rfl, by decide⟩, by decide⟩

end StackLift
