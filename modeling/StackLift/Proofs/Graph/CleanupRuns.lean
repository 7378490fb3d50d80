import StackLift.Proofs.Graph.Exec
import StackLift.Proofs.Graph.Strict

/-!
Cleaning a strict graph up does not change its runs.

A run never comes to an orphan, and the blocks that it does come to lose only
phi inputs along edges that are never taken. When a trivial phi is replaced, the
two graphs are run side by side; outside of the phi their values agree, and at
every point that the phi dominates, the phi has the value that it is replaced by.
The last part is where strictness comes in: this value may be computed again
between two arrivals at the phi, but then control is at a point that the phi
does not dominate, and there the phi is not used.
-/

namespace StackLift

variable {V : Type}

/-! ### Removing an orphan -/

theorem lookup_filter_ne {α : Type} {pred b : BlockId} (h : pred ≠ b)
    (l : List (BlockId × α)) : (l.filter (·.1 ≠ b)).lookup pred = l.lookup pred := by
  induction l with
  | nil => rfl
  | cons e l ih =>
      obtain ⟨c, a⟩ := e
      by_cases hc : c = b
      · subst hc
        rw [List.filter_cons_of_neg (by simp), ih, List.lookup_cons, beq_eq_false_iff_ne.mpr h]
      · rw [List.filter_cons_of_pos (by simpa using hc), List.lookup_cons, List.lookup_cons, ih]

namespace Block

/-- Along an edge from another block, dropping a predecessor makes no
difference. -/
theorem readPhis_dropPred {pred b : BlockId} (h : pred ≠ b) (block : Block) (env : Env V) :
    (block.dropPred b).readPhis pred env = block.readPhis pred env := by
  funext v
  have same : ∀ p : Phi, ({ p with inputs := p.inputs.filter (·.1 ≠ b) } : Phi).read pred env =
      p.read pred env := fun p => by rw [Phi.read, Phi.read, lookup_filter_ne h]
  rw [readPhis, readPhis, dropPred, List.find?_map]
  simp only [Function.comp_def]
  cases block.phis.find? (·.value = v) with
  | none => rfl
  | some p => exact same p

theorem all_read_dropPred {pred b : BlockId} (h : pred ≠ b) (block : Block) (env : Env V) :
    ((block.dropPred b).phis.all fun p => (p.read pred env).isSome) =
      block.phis.all fun p => (p.read pred env).isSome := by
  simp only [dropPred, List.all_map, Function.comp_def, Phi.read, lookup_filter_ne h]

end Block

namespace Graph

section

variable {g : Graph} {b : BlockId} {block : Block} (linked : g.Linked)
  (live : g.block? b = some block)

include linked live

theorem goto_removeBlock {c : Config V} {target : BlockId} (here : c.block ≠ b)
    (there : target ≠ b) : c.goto (g.removeBlock b) target = c.goto g target := by
  cases h : g.block? target with
  | none => rw [Config.goto, Config.goto, h, linked.recorded.block?_removeBlock_eq_none live h]
  | some whole =>
      rw [Config.goto, Config.goto, h, linked.recorded.block?_removeBlock_of_ne live h there]
      simp only [Block.all_read_dropPred here, Block.readPhis_dropPred here]

/-- Outside of the removed block, from where no edge leads to it, a step is the
same as before. -/
theorem step_removeBlock (I : Interp V) {c : Config V} (none : block.preds = [])
    (here : c.block ≠ b) : c.step (g.removeBlock b) I = c.step g I := by
  cases h : g.block? c.block with
  | none => rw [Config.step, Config.step, h, linked.recorded.block?_removeBlock_eq_none live h]
  | some whole =>
      have there : ∀ target ∈ whole.successors, target ≠ b := by
        rintro target succ rfl
        refine linked.recorded.not_mem_successorsOf live none c.block ?_
        rw [successorsOf_eq h]
        exact succ
      rw [Config.step, Config.step, h, linked.recorded.block?_removeBlock_of_ne live h here]
      simp only [Block.dropPred]
      split
      · rfl
      · cases ht : whole.terminator with
        | none => rfl
        | some t =>
            simp only [Block.successors, ht] at there
            cases t with
            | goto target =>
                refine goto_removeBlock linked live here (there target ?_)
                simp [Terminator.successors]
            | branch cond yes no =>
                simp only [Config.leave]
                split
                · rename_i v _
                  refine goto_removeBlock linked live here ?_
                  split
                  · exact there yes (by simp [Terminator.successors])
                  · exact there no (by simp [Terminator.successors])
                · rfl
            | ret v => rfl
            | nonLocalRet v => rfl

end

/-- A step of a run is a step of a walk. -/
theorem next_of_step {g : Graph} {I : Interp V} {c c' : Config V}
    (h : c.step g I = .running c') (reaches : g.Reaches ⟨c.block, c.index⟩) :
    g.Next ⟨c.block, c.index⟩ ⟨c'.block, c'.index⟩ := by
  obtain ⟨block, live, ⟨s, hs, hp⟩ | ⟨hs, hleave⟩⟩ := Config.step_eq_running h
  · obtain ⟨args, -, rfl⟩ := Config.perform_eq_running_iff.mp hp
    exact .stmt live (List.getElem?_eq_some_iff.mp hs).1
  · obtain ⟨w, walk⟩ := reaches
    have atEnd : c.index = block.stmts.length :=
      Nat.le_antisymm (walk.index_le live) (List.getElem?_eq_none_iff.mp hs)
    rw [atEnd]
    rcases hleave with ⟨b, ht, hb⟩ | ⟨cond, yes, no, v, ht, -, hb⟩
    · obtain ⟨target, -, -, rfl⟩ := Config.goto_eq_running_iff.mp hb
      exact .edge live (by simp [Block.successors, ht, Terminator.successors])
    · obtain ⟨target, -, -, rfl⟩ := Config.goto_eq_running_iff.mp hb
      refine .edge live ?_
      simp only [Block.successors, ht, Terminator.successors]
      split <;> simp

theorem Reaches.next {g : Graph} {p q : Point} (reaches : g.Reaches p) (next : g.Next p q) :
    g.Reaches q := by
  obtain ⟨w, walk⟩ := reaches
  exact ⟨p :: w, .step walk next⟩

/-- A run does not come to an orphan, so it does not notice its removal. -/
def removeBlockSimulation {g : Graph} {b : BlockId} {block : Block} (linked : g.Linked)
    (live : g.block? b = some block) (none : block.preds = []) (notEntry : b ≠ g.entry)
    (I : Interp V) (safe : (g.process I).Safe) :
    (g.process I).Simulation ((g.removeBlock b).process I) where
  Rel c c' := c = c' ∧ (g.process I).Reaches c ∧ g.Reaches ⟨c.block, c.index⟩
  rank _ := 0
  start := ⟨rfl, ⟨0, .zero _⟩, ⟨[], .start⟩⟩
  history := by
    rintro c c' ⟨rfl, -⟩
    rfl
  safe := fun ⟨_, reaches, _⟩ => safe _ reaches
  running := by
    rintro c d c' ⟨rfl, reaches, ⟨w, walk⟩⟩ h
    have here : c.block ≠ b :=
      walk.block_ne_orphan linked live none notEntry _ List.mem_cons_self
    have same : ((g.removeBlock b).process I).step c = .running d :=
      (step_removeBlock linked live I none here).trans h
    refine ⟨1, d, .one same, ⟨rfl, reaches.step h, ?_⟩, by simp⟩
    exact Reaches.next ⟨w, walk⟩ (next_of_step h ⟨w, walk⟩)
  finished := by
    rintro c c' r ⟨rfl, -, ⟨w, walk⟩⟩ h
    have here : c.block ≠ b :=
      walk.block_ne_orphan linked live none notEntry _ List.mem_cons_self
    refine ⟨0, c, ?_, (step_removeBlock linked live I none here).trans h, rfl⟩
    exact Process.Steps.zero (p := (g.removeBlock b).process I) c

/-! ### Replacing a trivial phi -/

section

variable {g : Graph} {b : BlockId} {block : Block} {p : Phi} {value : ValueId}

/-- The run of the graph with the phi replaced is where the run of the graph is. -/
structure Follows (g : Graph) (phi value : ValueId) (c c' : Config V) : Prop where
  block : c'.block = c.block
  index : c'.index = c.index
  history : c'.history = c.history
  reaches : g.Reaches ⟨c.block, c.index⟩
  /-- Outside of the phi the values agree. -/
  env : ∀ v, v ≠ phi → c'.env v = c.env v
  /-- Where the phi may be used, it has the value that it is replaced by. -/
  phi : g.Dominates phi ⟨c.block, c.index⟩ → c.env phi = c.env value

/-- A use finds the same value on both sides. -/
theorem Follows.env_subst {phi value : ValueId} {c c' : Config V}
    (follows : Follows g phi value c c') (other : value ≠ phi) {v : ValueId}
    (dom : g.Dominates v ⟨c.block, c.index⟩) : c'.env (subst phi value v) = c.env v := by
  by_cases hv : v = phi
  · subst hv
    rw [subst_self, follows.env value other, follows.phi dom]
  · rw [subst_of_ne hv, follows.env v hv]

theorem Follows.noteBranch {phi value : ValueId} {c c' : Config V}
    (follows : Follows g phi value c c') (held : Bool) :
    Follows g phi value (c.noteBranch held) (c'.noteBranch held) where
  block := follows.block
  index := follows.index
  history := by rw [Config.noteBranch, Config.noteBranch, follows.history]
  reaches := follows.reaches
  env := follows.env
  phi := follows.phi

theorem lookup_map_snd {α β : Type} (f : α → β) (l : List (BlockId × α)) (b : BlockId) :
    (l.map fun (e, a) => (e, f a)).lookup b = (l.lookup b).map f := by
  induction l with
  | nil => rfl
  | cons e l ih =>
      obtain ⟨c, a⟩ := e
      rw [List.map_cons, List.lookup_cons, List.lookup_cons, ih]
      cases b == c <;> rfl

theorem mem_of_lookup_eq_some {α : Type} {l : List (BlockId × α)} {b : BlockId} {a : α}
    (h : l.lookup b = some a) : (b, a) ∈ l := by
  obtain ⟨before, after, rfl, -⟩ := List.lookup_eq_some_iff.mp h
  exact List.mem_append_right before List.mem_cons_self

theorem find?_phi_of_mem {phis : List Phi} (distinct : (phis.map (·.value)).Nodup) {p : Phi}
    (mem : p ∈ phis) : phis.find? (·.value = p.value) = some p := by
  induction phis with
  | nil => exact absurd mem List.not_mem_nil
  | cons q phis ih =>
      obtain ⟨fresh, distinct⟩ := List.nodup_cons.mp distinct
      rcases List.mem_cons.mp mem with rfl | mem
      · exact List.find?_cons_of_pos (by simp)
      · have hne : q.value ≠ p.value := fun e => fresh (List.mem_map.mpr ⟨p, mem, e.symm⟩)
        rw [List.find?_cons_of_neg (by simpa using hne)]
        exact ih distinct mem

/-- Away from a replaced phi, the same phis are found in a block. -/
theorem find?_phis_replacePhi {phi v : ValueId} (hv : v ≠ phi) (c : BlockId) (old : Block) :
    ((if c = b then old.dropPhi phi else old).mapUses (subst phi value)).phis.find?
        (·.value = v) =
      (old.phis.find? (·.value = v)).map fun q =>
        { q with inputs := q.inputs.map fun (e, u) => (e, subst phi value u) } := by
  have same : (if c = b then old.dropPhi phi else old).phis.find? (·.value = v) =
      old.phis.find? (·.value = v) := by
    split
    · rw [Block.dropPhi, List.find?_filter]
      congr 1
      funext q
      by_cases hq : q.value = v
      · simp [hq, hv]
      · simp [hq]
    · rfl
  rw [Block.mapUses, List.find?_map, ← same]
  rfl

section

variable {block : Block} {p : Phi} (ssa : g.Ssa) (live : g.block? b = some block)
  (mem : p ∈ block.phis) (sole : p.sole? = some value)

include ssa live mem sole

/-- On arrival at a block, a phi that dominates the arrival has the value that
it is replaced by. -/
theorem Follows.phi_of_edge {c c' : Config V} {target : BlockId} {old : Block}
    (follows : Follows g p.value value c c') (next : g.Next ⟨c.block, c.index⟩ ⟨target, 0⟩)
    (hold : g.block? target = some old)
    (used : ∀ q ∈ old.phis, ∀ u, q.inputs.lookup c.block = some u →
      g.Dominates u ⟨c.block, c.index⟩)
    (all : ∀ q ∈ old.phis, (q.read c.block c.env).isSome)
    (dom : g.Dominates p.value ⟨target, 0⟩) :
    old.readPhis c.block c.env p.value = old.readPhis c.block c.env value := by
  have reaches : g.Reaches ⟨target, 0⟩ := follows.reaches.next next
  -- A value that is not defined on arrival keeps what it had.
  have kept : ∀ v, ¬g.DefinedAt v ⟨target, 0⟩ → old.readPhis c.block c.env v = c.env v := by
    intro v undefined
    have none : old.phis.find? (·.value = v) = none := by
      refine List.find?_eq_none.mpr fun q hq => ?_
      simpa using fun e : q.value = v => undefined (.phi hold hq e)
    rw [Block.readPhis, none]
  have notValue : ¬g.DefinedAt value ⟨target, 0⟩ := by
    intro hvalue
    obtain ⟨w, walk⟩ := reaches
    exact ssa.not_dominates_phi live mem sole walk hvalue dom
  rw [kept value notValue]
  by_cases hphi : g.DefinedAt p.value ⟨target, 0⟩
  · have here : (⟨target, 0⟩ : Point) = ⟨b, 0⟩ := ssa.single hphi (.phi live mem rfl)
    obtain rfl : target = b := congrArg Point.block here
    rw [live] at hold
    cases hold
    rw [Block.readPhis, find?_phi_of_mem (ssa.phis live) mem]
    show p.read c.block c.env = c.env value
    obtain ⟨a, ha⟩ := Option.isSome_iff_exists.mp (all p mem)
    obtain ⟨u, hu, -⟩ := Option.bind_eq_some_iff.mp ha
    rw [Phi.read, hu]
    rcases (Phi.sole?_eq_some sole).2 _ (mem_of_lookup_eq_some hu) with rfl | self
    · rfl
    · obtain rfl : u = p.value := self
      exact follows.phi (used p mem _ hu)
  · rw [kept p.value hphi]
    exact follows.phi (dom.of_next next hphi)

theorem Follows.goto {c c' d : Config V} {target : BlockId}
    (follows : Follows g p.value value c c') (next : g.Next ⟨c.block, c.index⟩ ⟨target, 0⟩)
    (used : ∀ {old : Block}, g.block? target = some old → ∀ q ∈ old.phis, ∀ u,
      q.inputs.lookup c.block = some u → g.Dominates u ⟨c.block, c.index⟩)
    (h : c.goto g target = .running d) :
    ∃ d', c'.goto (g.replacePhi b p.value value) target = .running d' ∧
      Follows g p.value value d d' := by
  obtain ⟨old, hold, all, rfl⟩ := Config.goto_eq_running_iff.mp h
  have other := (Phi.sole?_eq_some sole).1
  have same : ∀ q ∈ old.phis,
      ({ q with inputs := q.inputs.map fun (e, u) => (e, subst p.value value u) } : Phi).read
        c'.block c'.env = q.read c.block c.env := by
    intro q hq
    rw [Phi.read, Phi.read, lookup_map_snd, follows.block]
    cases hu : q.inputs.lookup c.block with
    | none => rfl
    | some u => exact follows.env_subst other (used hold q hq u hu)
  have readable : ∀ q ∈ ((if target = b then old.dropPhi p.value else old).mapUses
      (subst p.value value)).phis, (q.read c'.block c'.env).isSome := by
    intro q' hq'
    obtain ⟨q, hq, -, rfl⟩ := mem_phis_replacePhi hq'
    rw [same q hq]
    exact all q hq
  refine ⟨_, Config.goto_eq_running_iff.mpr
    ⟨_, block?_replacePhi_of_eq_some hold, readable, rfl⟩, ?_⟩
  refine ⟨rfl, rfl, follows.history, follows.reaches.next next, ?_, ?_⟩
  · intro v hv
    show Block.readPhis _ _ _ v = Block.readPhis _ _ _ v
    rw [Block.readPhis, Block.readPhis, find?_phis_replacePhi hv]
    cases hq : old.phis.find? (·.value = v) with
    | none => exact follows.env v hv
    | some q => exact same q (List.mem_of_find?_eq_some hq)
  · exact follows.phi_of_edge ssa live mem sole next hold (used hold) all

theorem Follows.perform {c c' d : Config V} {here : Block} {s : Stmt} {I : Interp V}
    (follows : Follows g p.value value c c') (hhere : g.block? c.block = some here)
    (get : here.stmts[c.index]? = some s) (h : c.perform I s = .running d) :
    ∃ d', c'.perform I { s with op := s.op.mapOperands (subst p.value value) } = .running d' ∧
      Follows g p.value value d d' := by
  obtain ⟨args, hargs, rfl⟩ := Config.perform_eq_running_iff.mp h
  have other := (Phi.sole?_eq_some sole).1
  have same : c'.env.all? (s.op.mapOperands (subst p.value value)).operands = some args := by
    rw [Op.operands_mapOperands, ← hargs]
    refine Env.all?_map_congr _ fun u hu => follows.env_subst other ?_
    exact ssa.dominated u _ (.stmt hhere get hu)
  refine ⟨_, Config.perform_eq_running_iff.mpr ⟨args, same, rfl⟩, ?_⟩
  have next : g.Next ⟨c.block, c.index⟩ ⟨c.block, c.index + 1⟩ :=
    .stmt hhere (List.getElem?_eq_some_iff.mp get).1
  have reaches := follows.reaches.next next
  refine ⟨follows.block, ?_, ?_, reaches, fun v hv => ?_, fun dom => ?_⟩
  · show c'.index + 1 = c.index + 1
    rw [follows.index]
  · simp only [follows.history, Op.form_mapOperands]
  · simp only [follows.history, Op.form_mapOperands]
    by_cases hs : v = s.value
    · rw [hs, Env.set_self, Env.set_self]
    · rw [Env.set_of_ne _ _ hs, Env.set_of_ne _ _ hs, follows.env v hv]
  · have notPhi : ¬g.DefinedAt p.value ⟨c.block, c.index + 1⟩ := by
      intro hdef
      have := ssa.single hdef (.phi live mem rfl)
      simp at this
    have notValue : ¬g.DefinedAt value ⟨c.block, c.index + 1⟩ := by
      intro hdef
      obtain ⟨w, walk⟩ := reaches
      exact ssa.not_dominates_phi live mem sole walk hdef dom
    have hphi : p.value ≠ s.value := fun e => notPhi (.stmt hhere get e.symm)
    have hvalue : value ≠ s.value := fun e => notValue (.stmt hhere get e.symm)
    show Env.set _ _ _ p.value = Env.set _ _ _ value
    rw [Env.set_of_ne _ _ hphi, Env.set_of_ne _ _ hvalue]
    exact follows.phi (dom.of_next next notPhi)

theorem Follows.step_running {c c' d : Config V} {I : Interp V}
    (follows : Follows g p.value value c c') (h : c.step g I = .running d) :
    ∃ d', c'.step (g.replacePhi b p.value value) I = .running d' ∧
      Follows g p.value value d d' := by
  have next := next_of_step h follows.reaches
  obtain ⟨here, hhere, how⟩ := Config.step_eq_running h
  have hnew : (g.replacePhi b p.value value).block? c.block = _ :=
    block?_replacePhi_of_eq_some hhere
  rw [Config.step, follows.block, hnew]
  simp only [stmts_replacePhi, terminator_replacePhi, List.getElem?_map, follows.index]
  rcases how with ⟨s, get, hs⟩ | ⟨atEnd, leaving⟩
  · rw [get]
    exact follows.perform ssa live mem sole hhere get hs
  · obtain ⟨w, walk⟩ := follows.reaches
    have index : c.index = here.stmts.length :=
      Nat.le_antisymm (walk.index_le hhere) (List.getElem?_eq_none_iff.mp atEnd)
    -- The inputs of the phis of the next block are used at the end of this one.
    have used : ∀ {target : BlockId} {old : Block}, g.block? target = some old →
        ∀ q ∈ old.phis, ∀ u, q.inputs.lookup c.block = some u →
          g.Dominates u ⟨c.block, c.index⟩ := by
      intro target old hold q hq u hu
      rw [index]
      exact ssa.dominated u _ (.phi hold hq (mem_of_lookup_eq_some hu) hhere)
    rw [atEnd]
    rcases leaving with ⟨target, ht, hgoto⟩ | ⟨cond, yes, no, v, ht, hcond, hgoto⟩
    · rw [ht]
      have there : d.block = target ∧ d.index = 0 := by
        obtain ⟨_, -, -, rfl⟩ := Config.goto_eq_running_iff.mp hgoto
        exact ⟨rfl, rfl⟩
      rw [there.1, there.2] at next
      exact follows.goto ssa live mem sole next used hgoto
    · rw [ht]
      have there : d.block = (if I.holds v then yes else no) ∧ d.index = 0 := by
        obtain ⟨_, -, -, rfl⟩ := Config.goto_eq_running_iff.mp hgoto
        exact ⟨rfl, rfl⟩
      rw [there.1, there.2] at next
      have dom : g.Dominates cond ⟨c.block, c.index⟩ := by
        rw [index]
        exact ssa.dominated cond _ (.terminator hhere ht (by simp [Terminator.operands]))
      have hcond' := follows.env_subst (Phi.sole?_eq_some sole).1 dom
      rw [hcond] at hcond'
      simp only [Option.map_some, Option.map_none, Terminator.mapOperands, Config.leave, hcond']
      exact (follows.noteBranch _).goto ssa live mem sole next used hgoto

omit live mem in
theorem Follows.step_finished {c c' : Config V} {r : Exit × V} {I : Interp V}
    (follows : Follows g p.value value c c') (h : c.step g I = .finished r) :
    c'.step (g.replacePhi b p.value value) I = .finished r := by
  obtain ⟨here, hhere, atEnd, t, v, ht, hv, henv, kind⟩ := Config.step_eq_finished h
  have hnew : (g.replacePhi b p.value value).block? c.block = _ :=
    block?_replacePhi_of_eq_some hhere
  obtain ⟨w, walk⟩ := follows.reaches
  have index : c.index = here.stmts.length :=
    Nat.le_antisymm (walk.index_le hhere) (List.getElem?_eq_none_iff.mp atEnd)
  have dom : g.Dominates v ⟨c.block, c.index⟩ := by
    rw [index]
    exact ssa.dominated v _ (.terminator hhere ht (by simp [hv]))
  have henv' := follows.env_subst (Phi.sole?_eq_some sole).1 dom
  rw [henv] at henv'
  obtain ⟨exit, a⟩ := r
  rw [Config.step, follows.block, hnew]
  simp only [stmts_replacePhi, terminator_replacePhi, List.getElem?_map, follows.index, atEnd, ht]
  rcases kind with ⟨rfl, rfl⟩ | ⟨rfl, rfl⟩
  · simp only [Option.map_some, Option.map_none, Terminator.mapOperands, Config.leave, henv']
  · simp only [Option.map_some, Option.map_none, Terminator.mapOperands, Config.leave, henv']

end

/-- A run does not notice that a trivial phi is replaced. -/
def replacePhiSimulation {block : Block} {p : Phi} (ssa : g.Ssa)
    (live : g.block? b = some block) (mem : p ∈ block.phis) (sole : p.sole? = some value)
    (I : Interp V) (safe : (g.process I).Safe) :
    (g.process I).Simulation ((g.replacePhi b p.value value).process I) where
  Rel c c' := (g.process I).Reaches c ∧ Follows g p.value value c c'
  rank _ := 0
  start := ⟨⟨0, .zero _⟩, rfl, rfl, rfl, ⟨[], .start⟩, fun _ _ => rfl, fun _ => rfl⟩
  history h := h.2.history.symm
  safe h := safe _ h.1
  running := by
    rintro c d c' ⟨reaches, follows⟩ h
    obtain ⟨d', same, after⟩ := follows.step_running ssa live mem sole h
    exact ⟨1, d', .one same, ⟨reaches.step h, after⟩, by simp⟩
  finished := by
    rintro c c' r ⟨-, follows⟩ h
    exact ⟨0, c', .zero _, follows.step_finished ssa sole h, rfl⟩

end

/-- Cleaning a strict graph up keeps what it does. -/
theorem sameRuns_cleanup {g : Graph} (strict : g.Strict) (I : Interp V)
    (safe : (g.process I).Safe) (options : Options) :
    (g.process I).SameRuns ((options.cleanup g).process I) := by
  refine (cleanup_induction (motive := fun g' => g'.Strict ∧ (g.process I).SameRuns (g'.process I))
    ?_ ?_ options ⟨strict, .refl safe⟩).2
  · intro g' b block ⟨strict, same⟩ live none notEntry
    have sim := removeBlockSimulation strict.linked live none notEntry I same.right_safe
    exact ⟨strict.removeBlock live none notEntry,
      same.trans (sim.sameRuns (recording_process _ I))⟩
  · intro g' b block p value ⟨strict, same⟩ live mem sole
    have sim := replacePhiSimulation strict.ssa live mem sole I same.right_safe
    exact ⟨strict.replacePhi live mem sole, same.trans (sim.sameRuns (recording_process _ I))⟩

end Graph

end StackLift
