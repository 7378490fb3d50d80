import StackLift.Proofs.Graph.CleanupRuns

/-!
Replacing trivial phis keeps the meaning of a graph in strict single assignment
form, however it was built.

The graph before and the graph after are run side by side, step by step. Both are
always at the same place and have done the same operations on the same operands;
in the end both return the same, or both are stuck where a block or its end is
missing. A run of such a graph never lacks a value: what dominates the place where
the run is was computed on the way there. So a phi that goes away does not keep the
old run from going on where the new one does.
-/

namespace StackLift

variable {V : Type}

/-- The same kind of progress, seen through a function of the state. -/
def Progress.map {σ τ ρ : Type} (f : σ → τ) : Progress σ ρ → Progress τ ρ
  | .running s => .running (f s)
  | .finished r => .finished r
  | .stuck => .stuck

/-- What a number of steps lead to, or fewer if the process comes to a halt. -/
def Process.after {ε ρ : Type} (p : Process ε ρ) : Nat → Progress p.State ρ
  | 0 => .running p.start
  | n + 1 =>
    match p.after n with
    | .running s => p.step s
    | halted => halted

/-- Where a run is, and what was done so far. -/
def Config.seen (c : Config V) : BlockId × Nat × List (Event V) := (c.block, c.index, c.history)

namespace Graph

variable {g : Graph}

/-! ### Runs do not lack values -/

/-- The run came along a walk, and has the values that are defined on it. -/
def Covers (g : Graph) (c : Config V) : Prop :=
  ∃ w, g.Walk (⟨c.block, c.index⟩ :: w) ∧
    ∀ q ∈ (⟨c.block, c.index⟩ :: w : List Point), ∀ v, g.DefinedAt v q → (c.env v).isSome

theorem Covers.isSome {c : Config V} (covers : g.Covers c) {v : ValueId}
    (dom : g.Dominates v ⟨c.block, c.index⟩) : (c.env v).isSome := by
  obtain ⟨w, walk, values⟩ := covers
  obtain ⟨q, mem, defined⟩ := dom w walk
  exact values q mem v defined

theorem covers_start (g : Graph) (I : Interp V) (ssa : g.Ssa) :
    g.Covers (g.process I).start := by
  refine ⟨[], .start, fun q mem v defined => ?_⟩
  obtain rfl := List.mem_singleton.mp mem
  cases defined with
  | phi live mem _ =>
      rw [ssa.entry live] at mem
      exact absurd mem List.not_mem_nil

theorem Covers.perform {c c' : Config V} {I : Interp V} {here : Block} {s : Stmt}
    (covers : g.Covers c) (live : g.block? c.block = some here)
    (get : here.stmts[c.index]? = some s) (h : c.perform I s = .running c') : g.Covers c' := by
  obtain ⟨w, walk, values⟩ := covers
  obtain ⟨args, -, rfl⟩ := Config.perform_eq_running_iff.mp h
  refine ⟨_, walk.step (.stmt live (List.getElem?_eq_some_iff.mp get).1), fun q mem v defined => ?_⟩
  show (Env.set _ _ _ v).isSome
  by_cases new : v = s.value
  · rw [new, Env.set_self, Option.isSome_some]
  · rw [Env.set_of_ne _ _ new]
    rcases List.mem_cons.mp mem with rfl | mem
    · -- The only value defined at the new point is that of the statement.
      cases defined with
      | stmt live' get' value =>
          rw [live] at live'
          cases live'
          rw [get] at get'
          cases get'
          exact absurd value.symm new
    · exact values q mem v defined

theorem Covers.goto {c c' : Config V} {target : BlockId} (covers : g.Covers c)
    (next : g.Next ⟨c.block, c.index⟩ ⟨target, 0⟩) (h : c.goto g target = .running c') :
    g.Covers c' := by
  obtain ⟨w, walk, values⟩ := covers
  obtain ⟨block, live, readable, rfl⟩ := Config.goto_eq_running_iff.mp h
  refine ⟨_, walk.step next, fun q mem v defined => ?_⟩
  show (Block.readPhis block c.block c.env v).isSome
  rw [Block.readPhis]
  split
  · rename_i p found
    exact readable p (List.mem_of_find?_eq_some found)
  · rename_i notPhi
    rcases List.mem_cons.mp mem with rfl | mem
    · cases defined with
      | phi live' mem value =>
          rw [live] at live'
          cases live'
          have notThis := List.find?_eq_none.mp notPhi _ mem
          simp [value] at notThis
    · exact values q mem v defined

theorem Covers.step {c c' : Config V} {I : Interp V} (covers : g.Covers c)
    (h : c.step g I = .running c') : g.Covers c' := by
  have reaches : g.Reaches ⟨c.block, c.index⟩ := by
    obtain ⟨w, walk, -⟩ := covers
    exact ⟨w, walk⟩
  have next := next_of_step h reaches
  obtain ⟨here, live, ⟨s, get, hs⟩ | ⟨-, ⟨target, -, hgoto⟩ | ⟨cond, yes, no, v, -, -, hgoto⟩⟩⟩ :=
    Config.step_eq_running h
  · exact covers.perform live get hs
  · obtain ⟨there, index⟩ : c'.block = target ∧ c'.index = 0 := by
      obtain ⟨_, -, -, rfl⟩ := Config.goto_eq_running_iff.mp hgoto
      exact ⟨rfl, rfl⟩
    rw [there, index] at next
    exact covers.goto next hgoto
  · obtain ⟨there, index⟩ : c'.block = (if I.holds v then yes else no) ∧ c'.index = 0 := by
      obtain ⟨_, -, -, rfl⟩ := Config.goto_eq_running_iff.mp hgoto
      exact ⟨rfl, rfl⟩
    rw [there, index] at next
    exact Covers.goto (c := c.noteBranch _) covers next hgoto

/-- Along an edge, every phi finds its input. -/
theorem Ssa.readable {c : Config V} {here there : Block} {target : BlockId} (ssa : g.Ssa)
    (covers : g.Covers c) (live : g.block? c.block = some here)
    (atEnd : c.index = here.stmts.length) (succ : target ∈ here.successors)
    (hthere : g.block? target = some there) :
    ∀ p ∈ there.phis, (p.read c.block c.env).isSome := by
  intro p mem
  have isPred : c.block ∈ p.inputs.map (·.1) := by
    refine ssa.mem_inputs hthere mem ?_
    rw [successorsOf_eq live]
    exact succ
  obtain ⟨u, found⟩ : ∃ u, p.inputs.lookup c.block = some u := by
    refine Option.ne_none_iff_exists'.mp fun none => ?_
    obtain ⟨e, he, same⟩ := List.mem_map.mp isPred
    have other := List.lookup_eq_none_iff.mp none e he
    simp [same] at other
  have dom : g.Dominates u ⟨c.block, c.index⟩ := by
    rw [atEnd]
    exact ssa.dominated u _ (.phi hthere mem (mem_of_lookup_eq_some found) live)
  rw [Phi.read, found]
  exact covers.isSome dom

/-! ### One phi -/

section

variable {b : BlockId} {block : Block} {p : Phi} {value : ValueId} (ssa : g.Ssa)
  (live : g.block? b = some block) (mem : p ∈ block.phis) (sole : p.sole? = some value)

/-- A run that is stuck on an edge misses the block there, and the block is not there after the
replacement either. -/
theorem Ssa.goto_stuck {c c' : Config V} {here : Block} {target : BlockId} {phi : ValueId}
    (ssa : g.Ssa) (covers : g.Covers c) (hhere : g.block? c.block = some here)
    (atEnd : c.index = here.stmts.length) (succ : target ∈ here.successors)
    (h : c.goto g target = .stuck) : c'.goto (g.replacePhi b phi value) target = .stuck := by
  cases there : g.block? target with
  | none => rw [Config.goto, block?_replacePhi, there, Option.map_none]
  | some block =>
      have readable := ssa.readable covers hhere atEnd succ there
      have runs := Config.goto_eq_running_iff.mpr ⟨block, there, readable, rfl⟩
      rw [runs] at h
      cases h

include ssa sole

theorem Follows.perform_stuck {c c' : Config V} {I : Interp V} {here : Block} {s : Stmt}
    (follows : Follows g p.value value c c') (hhere : g.block? c.block = some here)
    (get : here.stmts[c.index]? = some s) (h : c.perform I s = .stuck) :
    c'.perform I { s with op := s.op.mapOperands (subst p.value value) } = .stuck := by
  have other := (Phi.sole?_eq_some sole).1
  have same : c'.env.all? (s.op.mapOperands (subst p.value value)).operands =
      c.env.all? s.op.operands := by
    rw [Op.operands_mapOperands]
    refine Env.all?_map_congr _ fun u hu => follows.env_subst other ?_
    exact ssa.dominated u _ (.stmt hhere get hu)
  rw [Config.perform] at h
  split at h
  · cases h
  · rename_i none
    rw [Config.perform, same, none]

theorem Follows.leave_stuck {c c' : Config V} {I : Interp V} {here : Block} {t : Terminator}
    (follows : Follows g p.value value c c') (covers : g.Covers c)
    (hhere : g.block? c.block = some here) (atEnd : c.index = here.stmts.length)
    (last : here.terminator = some t) (h : c.leave g I t = .stuck) :
    c'.leave (g.replacePhi b p.value value) I (t.mapOperands (subst p.value value)) = .stuck := by
  have used : ∀ v ∈ t.operands, c'.env (subst p.value value v) = c.env v := by
    intro v hv
    refine follows.env_subst (Phi.sole?_eq_some sole).1 ?_
    rw [atEnd]
    exact ssa.dominated v _ (.terminator hhere last hv)
  have succ : ∀ target ∈ t.successors, target ∈ here.successors := by
    intro target
    rw [Block.successors, last]
    exact id
  cases t with
  | goto target =>
      exact ssa.goto_stuck covers hhere atEnd (succ target (by simp [Terminator.successors])) h
  | branch cond yes no =>
      have same := used cond (by simp [Terminator.operands])
      simp only [Config.leave, Terminator.mapOperands, same] at h ⊢
      cases found : c.env cond with
      | none => rfl
      | some v =>
          rw [found] at h
          have chosen : (if I.holds v then yes else no) ∈ here.successors := by
            refine succ _ ?_
            split <;> simp [Terminator.successors]
          exact Ssa.goto_stuck (c := c.noteBranch _) ssa covers hhere atEnd chosen h
  | ret v =>
      have same := used v (by simp [Terminator.operands])
      simp only [Config.leave, Terminator.mapOperands, same] at h ⊢
      exact h
  | nonLocalRet v =>
      have same := used v (by simp [Terminator.operands])
      simp only [Config.leave, Terminator.mapOperands, same] at h ⊢
      exact h

/-- The new run is stuck where the old one is. -/
theorem Follows.step_stuck {c c' : Config V} {I : Interp V}
    (follows : Follows g p.value value c c') (covers : g.Covers c) (h : c.step g I = .stuck) :
    c'.step (g.replacePhi b p.value value) I = .stuck := by
  rw [Config.step] at h
  cases hhere : g.block? c.block with
  | none => rw [Config.step, follows.block, block?_replacePhi, hhere, Option.map_none]
  | some here =>
      have hnew : (g.replacePhi b p.value value).block? c.block = _ :=
        block?_replacePhi_of_eq_some hhere
      rw [hhere] at h
      rw [Config.step, follows.block, hnew]
      simp only [stmts_replacePhi, terminator_replacePhi, List.getElem?_map, follows.index] at h ⊢
      cases get : here.stmts[c.index]? with
      | some s =>
          rw [get] at h
          exact follows.perform_stuck ssa sole hhere get h
      | none =>
          rw [get] at h
          have atEnd : c.index = here.stmts.length := by
            obtain ⟨w, walk, -⟩ := covers
            exact Nat.le_antisymm (walk.index_le hhere) (List.getElem?_eq_none_iff.mp get)
          cases last : here.terminator with
          | none => rfl
          | some t =>
              rw [last] at h
              exact follows.leave_stuck ssa sole covers hhere atEnd last h

include live mem

/-- Both runs, after the same number of steps. -/
theorem after_replacePhi (I : Interp V) (n : Nat) :
    (∃ c c', (g.process I).after n = .running c ∧
        ((g.replacePhi b p.value value).process I).after n = .running c' ∧
        Follows g p.value value c c' ∧ g.Covers c) ∨
      (∃ r, (g.process I).after n = .finished r ∧
        ((g.replacePhi b p.value value).process I).after n = .finished r) ∨
      (g.process I).after n = .stuck ∧
        ((g.replacePhi b p.value value).process I).after n = .stuck := by
  induction n with
  | zero =>
      refine Or.inl ⟨_, _, rfl, rfl, ?_, covers_start g I ssa⟩
      exact ⟨rfl, rfl, rfl, ⟨[], .start⟩, fun _ _ => rfl, fun _ => rfl⟩
  | succ n ih =>
      rw [Process.after, Process.after]
      rcases ih with ⟨c, c', h, h', follows, covers⟩ | ⟨r, h, h'⟩ | ⟨h, h'⟩
      · rw [h, h']
        cases hstep : c.step g I with
        | running d =>
            obtain ⟨d', hstep', after⟩ := follows.step_running ssa live mem sole hstep
            exact Or.inl ⟨d, d', hstep, hstep', after, covers.step hstep⟩
        | finished r => exact Or.inr (Or.inl ⟨r, hstep, follows.step_finished ssa sole hstep⟩)
        | stuck => exact Or.inr (Or.inr ⟨hstep, follows.step_stuck ssa sole covers hstep⟩)
      · rw [h, h']
        exact Or.inr (Or.inl ⟨r, rfl, rfl⟩)
      · rw [h, h']
        exact Or.inr (Or.inr ⟨rfl, rfl⟩)

theorem seen_replacePhi (I : Interp V) (n : Nat) :
    (((g.replacePhi b p.value value).process I).after n).map Config.seen =
      ((g.process I).after n).map Config.seen := by
  rcases after_replacePhi ssa live mem sole I n with
    ⟨c, c', h, h', follows, -⟩ | ⟨r, h, h'⟩ | ⟨h, h'⟩
  · rw [h, h']
    simp only [Progress.map, Config.seen, follows.block, follows.index, follows.history]
  · rw [h, h']
    rfl
  · rw [h, h']
    rfl

end

/-! ### All phis -/

end Graph

/-- What the replacement of phis does not touch: the predecessors, the values that the statements
define, and the targets of the terminator. -/
def Block.outline (block : Block) : List BlockId × List ValueId × Option (List BlockId) :=
  (block.preds, block.stmts.map (·.value), block.terminator.map (·.successors))

theorem Graph.outline_replacePhi {g : Graph} (b c : BlockId) (phi value : ValueId) :
    ((g.replacePhi b phi value).block? c).map Block.outline = (g.block? c).map Block.outline := by
  rw [block?_replacePhi, Option.map_map]
  cases g.block? c with
  | none => rfl
  | some old =>
      simp only [Option.map_some, Function.comp_def, Block.outline, preds_replacePhi,
        stmts_replacePhi, terminator_replacePhi, List.map_map, Option.map_map]
      congr 3
      cases old.terminator with
      | none => rfl
      | some t => exact congrArg some (Terminator.successors_mapOperands _ t)

/-- A phi is trivial when it has an input besides itself, and no other one. -/
theorem Phi.sole?_eq_some_iff {p : Phi} {v : ValueId} :
    p.sole? = some v ↔
      v ≠ p.value ∧ v ∈ p.inputs.map (·.2) ∧ ∀ e ∈ p.inputs, e.2 = v ∨ e.2 = p.value := by
  constructor
  · intro sole
    obtain ⟨other, only⟩ := Phi.sole?_eq_some sole
    obtain ⟨pred, mem⟩ := Phi.mem_inputs_of_sole? sole
    exact ⟨other, List.mem_map.mpr ⟨_, mem, rfl⟩, only⟩
  · rintro ⟨other, mem, only⟩
    have all : ∀ u ∈ (p.inputs.map (·.2)).filter (· ≠ p.value), u = v := by
      intro u hu
      obtain ⟨hu, notSelf⟩ := List.mem_filter.mp hu
      obtain ⟨e, he, rfl⟩ := List.mem_map.mp hu
      exact (only e he).resolve_right (by simpa using notSelf)
    have there : v ∈ (p.inputs.map (·.2)).filter (· ≠ p.value) :=
      List.mem_filter.mpr ⟨mem, by simpa using other⟩
    rw [Phi.sole?]
    split
    · rename_i none
      rw [none] at there
      exact absurd there List.not_mem_nil
    · rename_i u rest found
      rw [found] at all
      obtain rfl := all u List.mem_cons_self
      rw [if_pos]
      simpa using fun w mem => all w (List.mem_cons_of_mem _ mem)

namespace Graph

variable {g : Graph}

theorem sole?_eq_none_of_simplifyPhis {b : BlockId} {block : Block} {p : Phi}
    (live : g.simplifyPhis.1.block? b = some block) (mem : p ∈ block.phis) : p.sole? = none := by
  have none := trivialPhi?_simplifyPhis g
  rw [trivialPhi?, List.findSome?_eq_none_iff] at none
  have here := List.findSome?_eq_none_iff.mp (none (b, block) (mem_liveBlocks.mpr live)) p mem
  simpa using here

/-- Replacing trivial phis, in a graph in strict single assignment form: no trivial phi is left,
the rest of each block stays, the graph is still in this form, and however operations are
interpreted, each step of its run is at the same place as before, with the same operations done on
the same operands and the same result. -/
theorem simplifyPhis_meaning {g : Graph} (ssa : g.Ssa) :
    (∀ b block p, g.simplifyPhis.1.block? b = some block → p ∈ block.phis →
      ¬∃ v, v ≠ p.value ∧ v ∈ p.inputs.map (·.2) ∧ ∀ e ∈ p.inputs, e.2 = v ∨ e.2 = p.value) ∧
    (∀ b, (g.simplifyPhis.1.block? b).map Block.outline = (g.block? b).map Block.outline) ∧
    g.simplifyPhis.1.Ssa ∧
    ∀ (V : Type) (I : Interp V) (n : Nat),
      ((g.simplifyPhis.1.process I).after n).map Config.seen =
        ((g.process I).after n).map Config.seen := by
  have kept : g.simplifyPhis.1.Ssa ∧
      (∀ b, (g.simplifyPhis.1.block? b).map Block.outline = (g.block? b).map Block.outline) ∧
      ∀ (V : Type) (I : Interp V) (n : Nat),
        ((g.simplifyPhis.1.process I).after n).map Config.seen =
          ((g.process I).after n).map Config.seen := by
    refine simplifyPhis_induction (motive := fun g' => g'.Ssa ∧
      (∀ b, (g'.block? b).map Block.outline = (g.block? b).map Block.outline) ∧
      ∀ (V : Type) (I : Interp V) (n : Nat),
        ((g'.process I).after n).map Config.seen = ((g.process I).after n).map Config.seen) ?_
      ⟨ssa, fun _ => rfl, fun _ _ _ => rfl⟩
    intro g' b block p value ⟨ssa, outline, seen⟩ live mem sole
    refine ⟨ssa.replacePhi live mem sole, fun c => ?_, fun V I n => ?_⟩
    · rw [outline_replacePhi, outline]
    · rw [seen_replacePhi ssa live mem sole, seen]
  refine ⟨fun b block p live mem => ?_, kept.2.1, kept.1, kept.2.2⟩
  rintro ⟨v, sole⟩
  have none := sole?_eq_none_of_simplifyPhis live mem
  rw [Phi.sole?_eq_some_iff.mpr sole] at none
  cases none

/-- A block that leads to itself, with a phi of a value from before and the phi itself. -/
def spin : Graph where
  name := "spin"
  blocks := [
    some { stmts := [⟨⟨0⟩, .const .null⟩], terminator := some (.goto ⟨1⟩) },
    some {
      phis := [{ value := ⟨1⟩, type := .value, inputs := [(⟨0⟩, ⟨0⟩), (⟨1⟩, ⟨1⟩)] }]
      stmts := [⟨⟨2⟩, .isPlain ⟨1⟩⟩]
      terminator := some (.branch ⟨2⟩ ⟨1⟩ ⟨2⟩)
      preds := [⟨0⟩, ⟨1⟩] },
    some { terminator := some (.ret ⟨1⟩), preds := [⟨1⟩] }]
  values := [⟨.value, .stmt ⟨0⟩⟩, ⟨.value, .phi ⟨1⟩⟩, ⟨.test, .stmt ⟨1⟩⟩]

/-- A statement about the blocks of a graph that is given can be checked block by block. -/
theorem forall_block?_iff {P : BlockId → Block → Prop} :
    (∀ b block, g.block? b = some block → P b block) ↔ ∀ e ∈ g.liveBlocks, P e.1 e.2 := by
  simp only [Prod.forall, mem_liveBlocks]

theorem definedAt_spin {v : ValueId} {p : Point} (defined : spin.DefinedAt v p) :
    v = ⟨0⟩ ∧ p = ⟨⟨0⟩, 1⟩ ∨ v = ⟨1⟩ ∧ p = ⟨⟨1⟩, 0⟩ ∨ v = ⟨2⟩ ∧ p = ⟨⟨1⟩, 1⟩ := by
  cases defined with
  | @phi b block q live mem value =>
      have phis : ∀ b block, spin.block? b = some block → ∀ q ∈ block.phis,
          q.value = ⟨1⟩ ∧ b = ⟨1⟩ := forall_block?_iff.mpr (by decide)
      obtain ⟨one, rfl⟩ := phis b block live q mem
      exact Or.inr (Or.inl ⟨value.symm.trans one, rfl⟩)
  | @stmt b block i s live get value =>
      have stmts : ∀ b block, spin.block? b = some block → ∀ e ∈ block.stmts.zipIdx,
          e.1.value = ⟨0⟩ ∧ b = ⟨0⟩ ∧ e.2 = 0 ∨ e.1.value = ⟨2⟩ ∧ b = ⟨1⟩ ∧ e.2 = 0 :=
        forall_block?_iff.mpr (by decide)
      have listed : (s, i) ∈ block.stmts.zipIdx := by
        rw [List.mem_zipIdx_iff_getElem?]
        exact get
      rcases stmts b block live _ listed with ⟨zero, rfl, rfl⟩ | ⟨two, rfl, rfl⟩
      · exact Or.inl ⟨value.symm.trans zero, rfl⟩
      · exact Or.inr (Or.inr ⟨value.symm.trans two, rfl⟩)

/-- Both uses of the phi and the use of the test are in its block, or behind it. -/
theorem dominated_spin : spin.Dominated := by
  have phi : spin.DefinedAt ⟨1⟩ ⟨⟨1⟩, 0⟩ := by decide
  intro v p used
  cases used with
  | @stmt b block i s live get mem =>
      have stmts : ∀ b block, spin.block? b = some block → ∀ s ∈ block.stmts,
          ∀ v ∈ s.op.operands, v = ⟨1⟩ ∧ b = ⟨1⟩ := forall_block?_iff.mpr (by decide)
      obtain ⟨rfl, rfl⟩ := stmts b block live s (List.mem_of_getElem? get) v mem
      exact dominates_of_definedAt phi (Nat.zero_le _)
  | @terminator b block t live last mem =>
      have ends : ∀ b block, spin.block? b = some block → ∀ t ∈ block.terminator,
          ∀ v ∈ t.operands, v = ⟨2⟩ ∧ b = ⟨1⟩ ∧ 1 ≤ block.stmts.length ∨
            v = ⟨1⟩ ∧ b = ⟨2⟩ ∧ block.stmts.length = 0 := forall_block?_iff.mpr (by decide)
      rcases ends b block live t last v mem with ⟨rfl, rfl, le⟩ | ⟨rfl, rfl, none⟩
      · have test : spin.DefinedAt ⟨2⟩ ⟨⟨1⟩, 1⟩ := by decide
        exact dominates_of_definedAt test le
      · -- The last block is only entered from the block of the phi.
        intro w walk
        rw [none] at walk ⊢
        have sources : ∀ b block, spin.block? b = some block → (⟨2⟩ : BlockId) ∈ block.successors →
            b = ⟨1⟩ := forall_block?_iff.mpr (by decide)
        rcases walk.cases_zero with ⟨entry, -⟩ | ⟨pred, source, t, rfl, hsource, succ, walk⟩
        · cases entry
        · obtain rfl := sources pred source hsource succ
          exact ⟨_, List.mem_cons_of_mem _ (walk.mem_of_le (Nat.zero_le _)), phi⟩
  | @phi b pred block source q live mem input hsource =>
      have inputs : ∀ b block, spin.block? b = some block → ∀ q ∈ block.phis, ∀ e ∈ q.inputs,
          e.2 = ⟨0⟩ ∧ e.1 = ⟨0⟩ ∨ e.2 = ⟨1⟩ ∧ e.1 = ⟨1⟩ := forall_block?_iff.mpr (by decide)
      rcases inputs b block live q mem _ input with ⟨hv, hpred⟩ | ⟨hv, hpred⟩
      · obtain rfl : v = ⟨0⟩ := hv
        obtain rfl : pred = ⟨0⟩ := hpred
        have first : spin.DefinedAt ⟨0⟩ ⟨⟨0⟩, 1⟩ := by decide
        exact dominates_of_definedAt first (first.index_le hsource)
      · obtain rfl : v = ⟨1⟩ := hv
        obtain rfl : pred = ⟨1⟩ := hpred
        exact dominates_of_definedAt phi (Nat.zero_le _)

theorem ssa_spin : spin.Ssa where
  preds live := by
    have preds : ∀ b block, spin.block? b = some block → block.preds.Perm (spin.incoming b) :=
      forall_block?_iff.mpr (by decide)
    exact preds _ _ live
  inputs live mem := by
    have inputs : ∀ b block, spin.block? b = some block → ∀ p ∈ block.phis,
        (p.inputs.map (·.1)).Perm block.preds := forall_block?_iff.mpr (by decide)
    exact inputs _ _ live _ mem
  single := by
    intro v p q defined defined'
    rcases definedAt_spin defined with ⟨rfl, rfl⟩ | ⟨rfl, rfl⟩ | ⟨rfl, rfl⟩ <;>
      rcases definedAt_spin defined' with ⟨other, rfl⟩ | ⟨other, rfl⟩ | ⟨other, rfl⟩ <;>
        first | rfl | cases other
  phis live := by
    have phis : ∀ b block, spin.block? b = some block → (block.phis.map (·.value)).Nodup :=
      forall_block?_iff.mpr (by decide)
    exact phis _ _ live
  entry := by
    intro block live
    have entry : ∀ b block, spin.block? b = some block → b = spin.entry → block.phis = [] :=
      forall_block?_iff.mpr (by decide)
    exact entry _ _ live rfl
  dominated := dominated_spin

/-- The phi goes away, and what the graph does stays. -/
theorem simplifyPhis_meaning_spin : spin.Ssa ∧ spin.phiCount = 1 ∧ spin.simplifyPhis.1.phiCount = 0 ∧
    spin.simplifyPhis.1.Ssa ∧ ∀ (V : Type) (I : Interp V) (n : Nat),
      ((spin.simplifyPhis.1.process I).after n).map Config.seen =
        ((spin.process I).after n).map Config.seen := by
  obtain ⟨-, -, ssa, seen⟩ := simplifyPhis_meaning ssa_spin
  exact ⟨ssa_spin, by decide, by decide, ssa, seen⟩

end Graph

end StackLift
