import StackLift.Proofs.Lower.Nested

/-!
Programs as closures. The units of a program are those that the root leads to: the root, and
the code of every promise and closure that a unit among them makes. `CodeUnit.compileAll`
compiles the waiting units one after the other, the one added last first. Its bound is never
what stops it: every entry of the pool is compiled at most once. What it returns does not hang
on the order, since a unit that compiles at all compiles to one graph, whatever it is run as.
The main statement is `compileAll_closure`.
-/

namespace StackLift

/-! ### Units in order -/

namespace UnitRef

theorem precedes_trans {a b c : UnitRef} (hab : a.precedes b) (hbc : b.precedes c) :
    a.precedes c := by
  cases a <;> cases b <;> cases c <;> simp_all [precedes]
  omega

theorem precedes_of_not {a b : UnitRef} (ne : a ≠ b) (not : ¬ a.precedes b) : b.precedes a := by
  cases a <;> cases b <;> simp_all [precedes]
  rename_i i j
  have : i.toNat ≠ j.toNat := fun same => ne (PoolIndex.toNat_inj same)
  omega

end UnitRef

namespace Program

/-- Every unit stands once, and the units stand in order. -/
def Sorted (p : Program) : Prop := p.Pairwise fun x y => x.1.precedes y.1

theorem Sorted.insert {p : Program} {r : UnitRef} {g : Graph} (sorted : p.Sorted)
    (fresh : p.contains r = false) : Program.Sorted (p.insert r g) := by
  induction p with
  | nil => exact List.pairwise_singleton _ _
  | cons head rest ih =>
      obtain ⟨r', g'⟩ := head
      obtain ⟨first, later⟩ := List.pairwise_cons.mp sorted
      rw [contains, List.any_cons, Bool.or_eq_false_iff] at fresh
      have ne : r ≠ r' := fun same => of_decide_eq_false fresh.1 same.symm
      rw [Program.insert]
      split
      next before =>
        refine List.pairwise_cons.mpr ⟨?_, sorted⟩
        rintro y (_ | ⟨_, mem⟩)
        · exact before
        · exact UnitRef.precedes_trans before (first y mem)
      next after =>
        refine List.pairwise_cons.mpr ⟨?_, ih later fresh.2⟩
        intro y mem
        rcases mem_insert.mp mem with rfl | old
        · exact UnitRef.precedes_of_not ne after
        · exact first y old

theorem contains_insert {p : Program} {r r' : UnitRef} {g : Graph} :
    (p.insert r g).contains r' = true ↔ r' = r ∨ p.contains r' = true := by
  simp only [contains_iff, mem_insert]
  constructor
  · rintro ⟨g', same | old⟩
    · exact Or.inl (Prod.mk.inj same).1
    · exact Or.inr ⟨g', old⟩
  · rintro (rfl | ⟨g', old⟩)
    · exact ⟨g, Or.inl rfl⟩
    · exact ⟨g', Or.inr old⟩

end Program

/-! ### The units that a root leads to -/

/-- A statement of the graph makes a promise or a closure of the code. -/
inductive Graph.Makes (g : Graph) (code : PoolIndex) : UnitKind → Prop
  | promise {b : BlockId} {v : ValueId} (mem : (b, ⟨v, .mkPromise code⟩) ∈ g.stmts) :
      g.Makes code .promise
  | closure {b : BlockId} {v : ValueId} (mem : (b, ⟨v, .mkClosure code⟩) ∈ g.stmts) :
      g.Makes code .function

theorem Graph.makes_iff {g : Graph} {code : PoolIndex} {kind : UnitKind} :
    g.Makes code kind ↔ ∃ b s, (b, s) ∈ g.stmts ∧ s.op.nested? = some (code, kind) := by
  constructor
  · rintro (mem | mem)
    · exact ⟨_, _, mem, rfl⟩
    · exact ⟨_, _, mem, rfl⟩
  · rintro ⟨b, ⟨v, op⟩, mem, nested⟩
    cases op <;> cases nested
    · exact .promise mem
    · exact .closure mem

/-- The code of a unit. -/
def UnitRef.unit? (root : CodeUnit) (pool : Pool) : UnitRef → Option CodeUnit
  | .root => some root
  | .pool code => (pool.code code).toOption

section

variable (root : CodeUnit) (pool : Pool) (options : Options)

/-- The unit is there, and it compiles to the graph. -/
def UnitRef.CompilesTo (r : UnitRef) (g : Graph) : Prop :=
  ∃ unit, r.unit? root pool = some unit ∧ unit.compile pool options = .ok g

/-- The root, or a unit that a unit referred to makes a promise or a closure of, with what it
is run as. -/
inductive Refers : UnitRef → UnitKind → Prop
  | root : Refers .root options.unitKind
  | nested {r : UnitRef} {kind kind' : UnitKind} {g : Graph} {code : PoolIndex}
      (refers : Refers r kind) (compiles : r.CompilesTo root pool options g)
      (makes : g.Makes code kind') : Refers (.pool code) kind'

/-- The unit is the root or one that the root leads to. -/
def Reached (r : UnitRef) : Prop := ∃ kind, Refers root pool options r kind

/-- Waiting units are taken one by one, the one added last first, until none is left: how this
ends, with no bound on the number of units. -/
inductive Drains : List Job → Program → Except ProgramError Program → Prop
  | done {p : Program} : Drains [] p (.ok p)
  | skip {p : Program} {job : Job} {rest : List Job} {out : Except ProgramError Program}
      (again : p.contains job.ref = true) (drains : Drains rest p out) : Drains (job :: rest) p out
  | fail {p : Program} {job : Job} {rest : List Job} {error : CompileError}
      (fresh : p.contains job.ref = false)
      (fails : job.unit.compile pool { options with unitKind := job.kind } = .error error) :
      Drains (job :: rest) p (.error ⟨job.ref, error⟩)
  | compile {p : Program} {job : Job} {rest : List Job} {g : Graph}
      {out : Except ProgramError Program} (fresh : p.contains job.ref = false)
      (compiles : job.unit.compile pool { options with unitKind := job.kind } = .ok g)
      (drains : Drains ((g.jobs pool).reverse ++ rest) (p.insert job.ref g) out) :
      Drains (job :: rest) p out

end

variable {root : CodeUnit} {pool : Pool} {options : Options}

theorem UnitRef.CompilesTo.unique {r : UnitRef} {g g' : Graph}
    (compiles : r.CompilesTo root pool options g) (compiles' : r.CompilesTo root pool options g') :
    g = g' := by
  obtain ⟨unit, is, compiled⟩ := compiles
  obtain ⟨unit', is', compiled'⟩ := compiles'
  rw [is] at is'
  cases is'
  rw [compiled] at compiled'
  exact Except.ok.inj compiled'

/-- What a unit is run as does not change what it compiles to. -/
theorem CodeUnit.compile_kind_iff {unit : CodeUnit} {g : Graph} {kind : UnitKind} :
    unit.compile pool { options with unitKind := kind } = .ok g ↔
      unit.compile pool options = .ok g :=
  ⟨fun h => compile_kind h options.unitKind, fun h => compile_kind h kind⟩

theorem Pool.toOption_code {code : PoolIndex} {unit : CodeUnit} :
    (pool.code code).toOption = some unit ↔ pool.code code = .ok unit := by
  cases pool.code code <;> simp [Except.toOption]

/-! ### Jobs -/

/-- The job is for a unit that the root leads to, as it is referred to. -/
structure Job.Due (root : CodeUnit) (pool : Pool) (options : Options) (job : Job) : Prop where
  refers : Refers root pool options job.ref job.kind
  unit : job.ref.unit? root pool = some job.unit

theorem Graph.mem_jobs {g : Graph} {job : Job} :
    job ∈ g.jobs pool ↔ ∃ code, g.Makes code job.kind ∧ job.ref = .pool code ∧
      pool.code code = .ok job.unit := by
  obtain ⟨ref, unit, kind⟩ := job
  simp only [Graph.jobs, List.mem_filterMap, makes_iff]
  constructor
  · rintro ⟨⟨b, s⟩, mem, made⟩
    obtain ⟨⟨code, kind'⟩, nested, made⟩ := Option.bind_eq_some_iff.mp made
    obtain ⟨unit', found, made⟩ := Option.bind_eq_some_iff.mp made
    cases made
    exact ⟨code, ⟨b, s, mem, nested⟩, rfl, Pool.toOption_code.mp found⟩
  · rintro ⟨code, ⟨b, s, mem, nested⟩, rfl, found⟩
    refine ⟨(b, s), mem, ?_⟩
    simp [nested, Pool.toOption_code.mpr found]

/-- What a compiled graph makes a promise or a closure of is waiting next. -/
theorem CodeUnit.exists_job {unit : CodeUnit} {g : Graph} {code : PoolIndex} {kind : UnitKind}
    (compiles : unit.compile pool options = .ok g) (makes : g.Makes code kind) :
    ∃ job ∈ g.jobs pool, job.ref = .pool code := by
  obtain ⟨b, s, mem, nested⟩ := Graph.makes_iff.mp makes
  obtain ⟨⟨b', block⟩, live, listed⟩ := List.mem_flatMap.mp mem
  obtain ⟨s', mem', same⟩ := List.mem_map.mp listed
  cases same
  obtain ⟨unit', found⟩ := finds_of_compile compiles (Graph.mem_liveBlocks.mp live) s mem' nested
  exact ⟨⟨.pool code, unit', kind⟩, Graph.mem_jobs.mpr ⟨code, makes, rfl, found⟩, rfl⟩

/-! ### The invariant of the loop -/

/-- The unit is compiled or waits to be. -/
def Job.Covers (jobs : List Job) (done : Program) (r : UnitRef) : Prop :=
  done.contains r = true ∨ ∃ job ∈ jobs, job.ref = r

/-- While units are compiled: only units that the root leads to are compiled or wait, and what
a compiled unit refers to is compiled or waits. -/
structure Closing (root : CodeUnit) (pool : Pool) (options : Options) (jobs : List Job)
    (done : Program) : Prop where
  due : ∀ job ∈ jobs, job.Due root pool options
  reached : ∀ {r : UnitRef} {g : Graph}, (r, g) ∈ done → Reached root pool options r
  compiles : ∀ {r : UnitRef} {g : Graph}, (r, g) ∈ done → r.CompilesTo root pool options g
  sorted : done.Sorted
  root : Job.Covers jobs done .root
  closed : ∀ {r : UnitRef} {g : Graph} {code : PoolIndex} {kind : UnitKind}, (r, g) ∈ done →
    g.Makes code kind → Job.Covers jobs done (.pool code)

theorem closing_start :
    Closing root pool options [⟨.root, root, options.unitKind⟩] [] where
  due := by
    intro job mem
    cases List.mem_singleton.mp mem
    exact ⟨.root, rfl⟩
  reached := fun mem => by cases mem
  compiles := fun mem => by cases mem
  sorted := .nil
  root := Or.inr ⟨_, List.mem_singleton_self _, rfl⟩
  closed := fun mem => by cases mem

namespace Closing

variable {job : Job} {rest : List Job} {done : Program}

theorem skip (closing : Closing root pool options (job :: rest) done)
    (again : done.contains job.ref = true) : Closing root pool options rest done := by
  have covers : ∀ {r : UnitRef}, Job.Covers (job :: rest) done r → Job.Covers rest done r := by
    rintro r (old | ⟨job', _ | ⟨_, mem⟩, rfl⟩)
    · exact Or.inl old
    · exact Or.inl again
    · exact Or.inr ⟨job', mem, rfl⟩
  exact
    { due := fun job' mem => closing.due job' (List.mem_cons_of_mem job mem)
      reached := closing.reached
      compiles := closing.compiles
      sorted := closing.sorted
      root := covers closing.root
      closed := fun mem makes => covers (closing.closed mem makes) }

/-- Compiling a unit that waits keeps the invariant: what the new graph refers to waits now. -/
theorem compile {g : Graph} (closing : Closing root pool options (job :: rest) done)
    (fresh : done.contains job.ref = false)
    (compiled : job.unit.compile pool { options with unitKind := job.kind } = .ok g) :
    Closing root pool options ((g.jobs pool).reverse ++ rest) (done.insert job.ref g) := by
  have due := closing.due job List.mem_cons_self
  have compiled := CodeUnit.compile_kind_iff.mp compiled
  have compiles : job.ref.CompilesTo root pool options g := ⟨job.unit, due.unit, compiled⟩
  have covers : ∀ {r : UnitRef}, Job.Covers (job :: rest) done r →
      Job.Covers ((g.jobs pool).reverse ++ rest) (done.insert job.ref g) r := by
    rintro r (old | ⟨job', _ | ⟨_, mem⟩, rfl⟩)
    · exact Or.inl (Program.contains_insert.mpr (Or.inr old))
    · exact Or.inl (Program.contains_insert.mpr (Or.inl rfl))
    · exact Or.inr ⟨job', List.mem_append_right _ mem, rfl⟩
  refine ⟨?_, ?_, ?_, closing.sorted.insert fresh, covers closing.root, ?_⟩
  · intro job' mem
    rcases List.mem_append.mp mem with new | old
    · obtain ⟨code, makes, ref, found⟩ := Graph.mem_jobs.mp (List.mem_reverse.mp new)
      refine ⟨ref ▸ due.refers.nested compiles makes, ?_⟩
      rw [ref]
      exact Pool.toOption_code.mpr found
    · exact closing.due job' (List.mem_cons_of_mem job old)
  · intro r g' mem
    rcases Program.mem_insert.mp mem with same | old
    · cases same
      exact ⟨_, due.refers⟩
    · exact closing.reached old
  · intro r g' mem
    rcases Program.mem_insert.mp mem with same | old
    · cases same
      exact compiles
    · exact closing.compiles old
  · intro r g' code kind mem makes
    rcases Program.mem_insert.mp mem with same | old
    · cases same
      obtain ⟨job', new, ref⟩ := CodeUnit.exists_job compiled makes
      exact Or.inr ⟨job', List.mem_append_left _ (List.mem_reverse.mpr new), ref⟩
    · exact covers (closing.closed old makes)

/-- Once nothing waits, the units compiled are those that the root leads to. -/
theorem contains_iff (closing : Closing root pool options [] done) {r : UnitRef} :
    done.contains r = true ↔ Reached root pool options r := by
  have covered : ∀ {r : UnitRef}, Job.Covers [] done r → done.contains r = true := by
    rintro r (old | ⟨job, mem, -⟩)
    · exact old
    · cases mem
  constructor
  · intro there
    obtain ⟨g, mem⟩ := Program.contains_iff.mp there
    exact closing.reached mem
  · rintro ⟨kind, refers⟩
    induction refers with
    | root => exact covered closing.root
    | nested refers compiles makes ih =>
        obtain ⟨g, mem⟩ := Program.contains_iff.mp ih
        cases (closing.compiles mem).unique compiles
        exact covered (closing.closed mem makes)

end Closing

/-- How the loop ends: with the closure, or with the error of a unit of it. -/
theorem Drains.outcome {jobs : List Job} {done : Program} {out : Except ProgramError Program}
    (drains : Drains pool options jobs done out) (closing : Closing root pool options jobs done) :
    (∃ p, out = .ok p ∧ Closing root pool options [] p) ∨
    ∃ e unit kind, out = .error e ∧ Refers root pool options e.unit kind ∧
      e.unit.unit? root pool = some unit ∧
      unit.compile pool { options with unitKind := kind } = .error e.error := by
  induction drains with
  | done => exact Or.inl ⟨_, rfl, closing⟩
  | skip again _ ih => exact ih (closing.skip again)
  | @fail p job rest error fresh fails =>
      have due := closing.due job List.mem_cons_self
      exact Or.inr ⟨⟨job.ref, error⟩, job.unit, job.kind, rfl, due.refers, due.unit, fails⟩
  | compile fresh compiles _ ih => exact ih (closing.compile fresh compiles)

/-! ### The loop ends -/

/-- The root and every place of the pool. -/
def Pool.refs (pool : Pool) : List UnitRef :=
  .root :: (List.range pool.size).map fun i => .pool (.ofNat i)

theorem UnitRef.mem_refs {r : UnitRef} {unit : CodeUnit} (is : r.unit? root pool = some unit) :
    r ∈ pool.refs := by
  cases r with
  | root => exact List.mem_cons_self
  | pool code =>
      refine List.mem_cons_of_mem _ (List.mem_map.mpr ⟨code.toNat, ?_, ?_⟩)
      case refine_2 => rw [PoolIndex.ofNat_toNat]
      have found := Pool.toOption_code.mp is
      rw [Pool.code, Pool.get] at found
      split at found
      next get => exact List.mem_range.mpr (List.getElem?_eq_some_iff.mp get).1
      next => cases found

/-- The units that are not compiled. -/
def Pool.remaining (pool : Pool) (done : Program) : List UnitRef :=
  pool.refs.filter fun r => !done.contains r

theorem Pool.length_remaining_insert {done : Program} {r : UnitRef} (g : Graph)
    (mem : r ∈ pool.refs) (fresh : done.contains r = false) :
    (pool.remaining (done.insert r g)).length < (pool.remaining done).length := by
  have fewer : pool.remaining (done.insert r g) = (pool.remaining done).filter (· ≠ r) := by
    rw [remaining, remaining, List.filter_filter]
    refine List.filter_congr fun r' _ => ?_
    by_cases same : r' = r
    · simp [same, Program.contains_insert.mpr (Or.inl rfl)]
    · have iff : (done.insert r g).contains r' = done.contains r' :=
        Bool.eq_iff_iff.mpr (Program.contains_insert.trans (or_iff_right same))
      simp [iff, same]
  rw [fewer]
  refine List.length_filter_lt_length_iff_exists.mpr ⟨r, ?_, by simp⟩
  exact List.mem_filter.mpr ⟨mem, by simp [fresh]⟩

theorem Drains.of_all_done {jobs : List Job} {done : Program}
    (all : ∀ job ∈ jobs, done.contains job.ref = true) :
    Drains pool options jobs done (.ok done) := by
  induction jobs with
  | nil => exact .done
  | cons job rest ih =>
      obtain ⟨again, later⟩ := List.forall_mem_cons.mp all
      exact .skip again (ih later)

theorem Drains.of_dropWhile {jobs : List Job} {done : Program} {out : Except ProgramError Program}
    (drains : Drains pool options (jobs.dropWhile (done.contains ·.ref)) done out) :
    Drains pool options jobs done out := by
  induction jobs with
  | nil => exact drains
  | cons job rest ih =>
      rw [List.dropWhile_cons] at drains
      split at drains
      next again => exact .skip again (ih drains)
      next => exact drains

theorem Closing.dropWhile {jobs : List Job} {done : Program}
    (closing : Closing root pool options jobs done) :
    Closing root pool options (jobs.dropWhile (done.contains ·.ref)) done := by
  induction jobs with
  | nil => exact closing
  | cons job rest ih =>
      rw [List.dropWhile_cons]
      split
      next again => exact ih (closing.skip again)
      next => exact closing

/-- With a bound on what remains, the bounded loop runs to its end. -/
theorem drains_compileJobs {bound : Nat} {jobs : List Job} {done : Program}
    (closing : Closing root pool options jobs done)
    (enough : (pool.remaining done).length ≤ bound) :
    Drains pool options jobs done (compileJobs pool options bound jobs done) := by
  induction bound generalizing jobs done with
  | zero =>
      have none : pool.remaining done = [] := List.length_eq_zero_iff.mp (Nat.le_zero.mp enough)
      have all : ∀ job ∈ jobs, done.contains job.ref = true := by
        intro job mem
        have listed := UnitRef.mem_refs (closing.due job mem).unit
        simpa using List.filter_eq_nil_iff.mp none job.ref listed
      exact .of_all_done all
  | succ bound ih =>
      refine .of_dropWhile ?_
      have closing := closing.dropWhile
      rw [compileJobs]
      cases waiting : jobs.dropWhile (done.contains ·.ref) with
      | nil => exact .done
      | cons job rest =>
          rw [waiting] at closing
          have fresh : done.contains job.ref = false := by
            have first := List.head?_dropWhile_not (done.contains ·.ref) jobs
            rw [waiting] at first
            simpa using first
          simp only
          split
          next fails => exact .fail fresh fails
          next g compiled =>
            have listed := UnitRef.mem_refs (closing.due job List.mem_cons_self).unit
            have less := Pool.length_remaining_insert g listed fresh
            exact .compile fresh compiled (ih (closing.compile fresh compiled) (by omega))

theorem CodeUnit.drains_compileAll (root : CodeUnit) (pool : Pool) (options : Options) :
    Drains pool options [⟨.root, root, options.unitKind⟩] [] (root.compileAll pool options) := by
  refine drains_compileJobs closing_start ?_
  have all := List.length_filter_le (fun r => !Program.contains [] r) pool.refs
  simpa [Pool.remaining, Pool.refs] using all

/-! ### Closures -/

/-- Compiling a program ends, on references in a circle too. It succeeds exactly if every unit
that the root leads to compiles, and then maps these units, each once and in order, and no
others, to their graphs, which are the same whatever the unit is run as. Otherwise it names a
unit that the root leads to and its error, as a unit of a kind that it is referred to as. -/
theorem compileAll_closure (root : CodeUnit) (pool : Pool) (options : Options) :
    Drains pool options [⟨.root, root, options.unitKind⟩] [] (root.compileAll pool options) ∧
    ((∃ p, root.compileAll pool options = .ok p) ↔
      ∀ r, Reached root pool options r → ∃ g, r.CompilesTo root pool options g) ∧
    (∀ p, root.compileAll pool options = .ok p →
      p.Sorted ∧
      (∀ r, p.contains r = true ↔ Reached root pool options r) ∧
      ∀ r g, (r, g) ∈ p ↔ Reached root pool options r ∧ ∃ unit, r.unit? root pool = some unit ∧
        ∀ kind, unit.compile pool { options with unitKind := kind } = .ok g) ∧
    ∀ e, root.compileAll pool options = .error e →
      ∃ unit kind, Refers root pool options e.unit kind ∧ e.unit.unit? root pool = some unit ∧
        unit.compile pool { options with unitKind := kind } = .error e.error := by
  have drains := root.drains_compileAll pool options
  refine ⟨drains, ?_⟩
  rcases drains.outcome closing_start with
    ⟨p, out, closing⟩ | ⟨e, unit, kind, out, refers, is, fails⟩
  · rw [out]
    refine ⟨⟨fun _ r reached => ?_, fun _ => ⟨p, rfl⟩⟩, fun p' same => ?_,
      fun e same => by cases same⟩
    · obtain ⟨g, mem⟩ := Program.contains_iff.mp (closing.contains_iff.mpr reached)
      exact ⟨g, closing.compiles mem⟩
    · cases same
      refine ⟨closing.sorted, fun r => closing.contains_iff, fun r g => ⟨fun mem => ?_, ?_⟩⟩
      · obtain ⟨unit, is, compiled⟩ := closing.compiles mem
        exact ⟨closing.reached mem, unit, is, fun kind => CodeUnit.compile_kind compiled kind⟩
      · rintro ⟨reached, unit, is, compiled⟩
        obtain ⟨g', mem⟩ := Program.contains_iff.mp (closing.contains_iff.mpr reached)
        cases (closing.compiles mem).unique ⟨unit, is, compiled options.unitKind⟩
        exact mem
  · rw [out]
    refine ⟨⟨?_, fun all => ?_⟩, fun p same => ?_, ?_⟩
    · rintro ⟨p, same⟩
      cases same
    · -- The unit that failed is reached, so it compiles, as whatever it is run.
      obtain ⟨g, unit', is', compiled⟩ := all e.unit ⟨kind, refers⟩
      rw [is] at is'
      cases is'
      rw [CodeUnit.compile_kind compiled kind] at fails
      cases fails
    · cases same
    · intro e' same
      cases same
      exact ⟨unit, kind, refers, is, fails⟩

/-- A function that hands a promise of its own code on. -/
def selfPromise : CodeUnit where
  name := none
  instructions := [.getFun .lexical ⟨2⟩, .makePromise ⟨0⟩, .finishCall false ⟨1⟩, .ret]
  labels := []

def selfPromisePool : Pool := ⟨[.code selfPromise, .expr (.symbol "f"), .symbol "f"]⟩

def makesSelfPromise : CodeUnit where
  name := none
  instructions := [.makeClosure ⟨0⟩, .ret]
  labels := []

/-- The code is referred to as a function and as a promise, by itself. -/
theorem compileAll_closure_selfPromise : ∃ p,
    makesSelfPromise.compileAll selfPromisePool {} = .ok p ∧
    p.map (·.1) = [.root, .pool ⟨0⟩] ∧
    (∀ r, p.contains r = true ↔ Reached makesSelfPromise selfPromisePool {} r) ∧
    ∃ g, (.pool ⟨0⟩, g) ∈ p ∧ ∀ kind,
      selfPromise.compile selfPromisePool { ( {} : Options) with unitKind := kind } = .ok g := by
  have found : ∃ p ∈ (makesSelfPromise.compileAll selfPromisePool {}).toOption,
      p.map (·.1) = [.root, .pool ⟨0⟩] := by
    decide +kernel
  obtain ⟨p, h, units⟩ := exists_ok_of_toOption found
  obtain ⟨-, -, ok, -⟩ := compileAll_closure makesSelfPromise selfPromisePool {}
  obtain ⟨-, keys, graphs⟩ := ok p h
  have mem : UnitRef.pool ⟨0⟩ ∈ p.map (·.1) := by
    rw [units]
    exact List.mem_cons_of_mem _ List.mem_cons_self
  obtain ⟨⟨r, g⟩, mem, rfl⟩ := List.mem_map.mp mem
  obtain ⟨-, unit, is, compiled⟩ := (graphs _ g).mp mem
  cases is
  exact ⟨p, h, units, keys, g, mem, compiled⟩

end StackLift
