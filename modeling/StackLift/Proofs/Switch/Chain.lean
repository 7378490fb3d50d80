import StackLift.Proofs.Emission
import StackLift.Proofs.Graph.Part

/-!
Chains of tests in a graph. A switch becomes blocks that each ask one question about a value and
branch to the target of the question if the answer is yes, and to the next block if it is no; the
last block goes to the default. `Graph.Chain` states that a graph has such blocks from a point on.
What follows from it: a run comes to the target of the first question whose answer is yes
(`Graph.Chain.run`), and there is no other way out of the blocks (`Graph.Chain.leavesBy`).
-/

namespace StackLift

variable {V : Type}

/-! ### Questions -/

/-- What a test of a switch asks about a value. -/
inductive Question where
  | name (s : String)
  | number (k : Nat)

namespace Question

/-- The operations that ask about `v`, where the next value is the `m`-th. -/
@[simp] def ops (v : ValueId) (m : Nat) : Question → List Op
  | name s => [.strEq v s]
  | number k => [.indexConst k, .indexEq v ⟨m⟩]

/-- The value that is the answer. -/
@[simp] def answer (m : Nat) : Question → ValueId
  | name _ => ⟨m⟩
  | number _ => ⟨m + 1⟩

/-- The answer for a value is `yes`, whatever was done before. -/
def Answered (I : Interp V) (y : V) (yes : Bool) : Question → Prop
  | name s => ∀ h, I.holds (I.result h (.strEq ⟨0⟩ s) [y]) = yes
  | number k => ∀ h h', I.holds (I.result h (.indexEq ⟨0⟩ ⟨0⟩)
      [y, I.result h' (.indexConst k) []]) = yes

/-- Arms that are selected by name. -/
def named (arms : List (String × BlockId)) : List (Question × BlockId) :=
  arms.map fun arm => (.name arm.1, arm.2)

/-- Arms that are selected by number, from the given number on. -/
def numbered : Nat → List BlockId → List (Question × BlockId)
  | _, [] => []
  | k, target :: rest => (.number k, target) :: numbered (k + 1) rest

/-- The answer for something that has a text and a number. -/
def reply (text : String) (number : Int) : Question → Bool
  | .name s => decide (text = s)
  | .number k => decide (number = k)

/-- The target of the first question whose answer is yes. -/
def firstYes (reply : Question → Bool) (default : BlockId) : List (Question × BlockId) → BlockId
  | [] => default
  | arm :: arms => if reply arm.1 then arm.2 else firstYes reply default arms

theorem forall_named {P : Question → Prop} (all : ∀ s, P (.name s))
    (arms : List (String × BlockId)) : ∀ arm ∈ named arms, P arm.1 := by
  intro arm mem
  obtain ⟨arm', -, rfl⟩ := List.mem_map.mp mem
  exact all _

theorem forall_numbered {P : Question → Prop} (all : ∀ k, P (.number k)) (n : Nat)
    (arms : List BlockId) : ∀ arm ∈ numbered n arms, P arm.1 := by
  induction arms generalizing n with
  | nil => exact fun arm mem => absurd mem List.not_mem_nil
  | cons target rest ih => exact List.forall_mem_cons.mpr ⟨all n, ih (n + 1)⟩

theorem map_named {names : List String} {arms : List BlockId} (fits : arms.length = names.length) :
    (named (names.zip arms)).map (·.2) = arms := by
  rw [named, List.map_map]
  exact List.map_snd_zip (Nat.le_of_eq fits)

theorem map_numbered (n : Nat) (arms : List BlockId) : (numbered n arms).map (·.2) = arms := by
  induction arms generalizing n with
  | nil => rfl
  | cons target rest ih => rw [numbered, List.map_cons, ih]

end Question

namespace Lowering.Targets

/-- The target of the first name that is equal to the text. -/
def ofName (t : Targets) (names : List String) (text : String) : Option BlockId :=
  if text ∈ names then t.arms[names.idxOf text]? else some t.default

/-- The target of the arm with the number, where the first arm has number 1. -/
def ofNumber (t : Targets) (k : Int) : Option BlockId :=
  if 1 ≤ k ∧ k ≤ t.arms.length then t.arms[(k - 1).toNat]? else some t.default

end Lowering.Targets

namespace Question

theorem firstYes_named {names : List String} {arms : List BlockId}
    (fits : arms.length = names.length) (text : String) (k : Int) (default : BlockId) :
    Lowering.Targets.ofName ⟨arms, default⟩ names text =
      some (firstYes (reply text k) default (named (names.zip arms))) := by
  induction names generalizing arms with
  | nil => simp [Lowering.Targets.ofName, named, firstYes]
  | cons name names ih =>
      obtain ⟨target, arms, rfl⟩ := List.exists_cons_of_length_eq_add_one fits
      have rest := ih (Nat.succ.inj fits)
      rw [Lowering.Targets.ofName] at rest
      rw [Lowering.Targets.ofName, List.zip_cons_cons, named, List.map_cons, firstYes, reply]
      by_cases equal : text = name
      · simp [equal]
      · have next : (name :: names).idxOf text = names.idxOf text + 1 := by
          rw [List.idxOf_cons, beq_eq_false_iff_ne.mpr (Ne.symm equal)]
          rfl
        simpa [equal, next, named] using rest

theorem firstYes_numbered (text : String) (k : Int) (n : Nat) (arms : List BlockId)
    (default : BlockId) :
    (if (n : Int) ≤ k ∧ k < n + arms.length then arms[(k - n).toNat]? else some default) =
      some (firstYes (reply text k) default (numbered n arms)) := by
  induction arms generalizing n with
  | nil => rw [List.length_nil, if_neg (by omega), numbered, firstYes]
  | cons target arms ih =>
      have rest := ih (n + 1)
      have length : (target :: arms).length = arms.length + 1 := rfl
      by_cases here : k = n
      · have zero : (k - n).toNat = 0 := by omega
        rw [numbered, firstYes, reply, if_pos (by omega), zero, decide_eq_true here]
        rfl
      · have other : firstYes (reply text k) default (numbered n (target :: arms)) =
            firstYes (reply text k) default (numbered (n + 1) arms) := by
          rw [numbered, firstYes, reply, decide_eq_false here]
          rfl
        rw [other, ← rest]
        by_cases later : ((n + 1 : Nat) : Int) ≤ k ∧ k < (n + 1 : Nat) + arms.length
        · have next : (k - n).toNat = (k - (n + 1 : Nat)).toNat + 1 := by omega
          rw [if_pos later, if_pos (by omega), next, List.getElem?_cons_succ]
        · rw [if_neg later, if_neg (by omega)]

end Question

namespace Graph

variable {g : Graph} {I : Interp V} {b : BlockId} {n m : Nat} {t : Terminator} {c : Config V}
  {v : ValueId} {y : V} {yes : Bool}

/-- Asking a question makes new values only, and one of them is the answer. -/
theorem Tail.ask {q : Question} (tail : g.Tail b n (Stmt.ofOps m (q.ops v m)) t)
    (answered : q.Answered I y yes) (known : v.index < m) (block : c.block = b)
    (index : c.index = n) (value : c.env v = some y) :
    ∃ c' r, g.StepsIn I [b] c c' ∧ c'.block = b ∧ g.Tail b c'.index [] t ∧
      c'.env (q.answer m) = some r ∧ I.holds r = yes ∧
      ∀ u : ValueId, u.index < m → c'.env u = c.env u := by
  have other : ∀ {u : ValueId} {k : Nat}, u.index < m → m ≤ k → u ≠ ⟨k⟩ := by
    rintro u k lt le rfl
    exact Nat.not_le.mpr lt le
  cases q with
  | name s =>
      obtain ⟨stmt, tail⟩ := tail.uncons
      have values : [v].map c.env = [y].map some := by rw [List.map_singleton, value]; rfl
      obtain ⟨c', r, rfl, run, block', index', env, -⟩ := stmt.run block index values I
      refine ⟨c', _, .single block run, block', index' ▸ tail, env ▸ Env.set_self _ _ _,
        answered _, ?_⟩
      intro u lt
      rw [env]
      exact Env.set_of_ne _ _ (other lt (Nat.le_refl m))
  | number k =>
      obtain ⟨stmt, tail⟩ := tail.uncons
      obtain ⟨stmt', tail⟩ := tail.uncons
      obtain ⟨c₁, r₁, isConst, run₁, block₁, index₁, env₁, -⟩ :=
        stmt.run (c := c) block index (List.map_nil.trans List.map_nil.symm) I
      have kept : c₁.env v = some y := by
        rw [env₁, Env.set_of_ne _ _ (other known (Nat.le_refl m)), value]
      have arm : c₁.env ⟨m⟩ = some r₁ := env₁ ▸ Env.set_self _ _ _
      have values : [v, ⟨m⟩].map c₁.env = [y, r₁].map some := by simp [kept, arm]
      obtain ⟨c', r, rfl, run, block', index', env, -⟩ := stmt'.run block₁ index₁ values I
      refine ⟨c', _, .step (List.mem_singleton.mpr block) run₁ (.single block₁ run), block',
        index' ▸ tail, env ▸ Env.set_self _ _ _, ?_, ?_⟩
      · rw [isConst]
        exact answered _ _
      intro u lt
      rw [env, Env.set_of_ne _ _ (other lt (Nat.le_succ m)), env₁]
      exact Env.set_of_ne _ _ (other lt (Nat.le_refl m))

/-! ### Chains -/

/-- From an index of a block on, the graph asks the questions of the arms about `v` in turn. Every
edge to a target carries the values `below`. Listed are the blocks that the chain goes on in. -/
inductive Chain (g : Graph) (v : ValueId) (below : List ValueId) (default : BlockId) :
    BlockId → Nat → List (Question × BlockId) → List BlockId → Prop
  | nil {b : BlockId} {n : Nat} (tail : g.Tail b n [] (.goto default))
      (carries : g.Carries b default below) : Chain g v below default b n [] []
  | cons {b next target : BlockId} {n m : Nat} {q : Question} {arms : List (Question × BlockId)}
      {blocks : List BlockId} (known : ∀ u ∈ v :: below, u.index < m)
      (tail : g.Tail b n (Stmt.ofOps m (q.ops v m)) (.branch (q.answer m) target next))
      (carries : g.Carries b target below) (direct : g.Carries b next [])
      (rest : Chain g v below default next 0 arms blocks) :
      Chain g v below default b n ((q, target) :: arms) (next :: blocks)

variable {below : List ValueId} {default : BlockId} {arms : List (Question × BlockId)}
  {blocks : List BlockId}

/-- A chain leads to the target of the first question whose answer is yes, with the values below. -/
theorem Chain.run {reply : Question → Bool} {xs : List V}
    (chain : g.Chain v below default b n arms blocks) (distinct : g.DistinctPhis)
    (answered : ∀ arm ∈ arms, arm.1.Answered I y (reply arm.1)) (block : c.block = b)
    (index : c.index = n) (value : c.env v = some y) (values : below.map c.env = xs.map some) :
    ∃ c', g.StepsIn I (b :: blocks) c c' ∧
      g.Arrives (Question.firstYes reply default arms) xs c' := by
  induction chain generalizing c with
  | nil tail carries =>
      obtain ⟨c', goto, arrives⟩ := carries.arrive distinct block values
      exact ⟨c', .step (List.mem_singleton.mpr block) ((tail.step_eq block index).trans goto)
        (.refl _), arrives⟩
  | @cons b next target n m q arms blocks known tail carries direct rest ih =>
      obtain ⟨answer, answered⟩ := List.forall_mem_cons.mp answered
      obtain ⟨c₁, r, run, block₁, tail₁, held, holds, kept⟩ :=
        tail.ask answer (known v List.mem_cons_self) block index value
      have run : g.StepsIn I (b :: next :: blocks) c c₁ := run.mono (by simp)
      have inside : c₁.block ∈ b :: next :: blocks := block₁ ▸ List.mem_cons_self
      have values₁ : below.map c₁.env = xs.map some := by
        rw [← values]
        exact List.map_congr_left fun u mem => kept u (known u (List.mem_cons_of_mem _ mem))
      have step := tail₁.branch (I := I) block₁ rfl held
      rw [holds] at step
      cases yes : reply q with
      | true =>
          rw [Question.firstYes, if_pos yes]
          rw [yes, if_pos rfl] at step
          obtain ⟨c', goto, arrives⟩ :=
            carries.arrive (c := c₁.noteBranch true) distinct block₁ values₁
          exact ⟨c', run.trans (.step inside (step.trans goto) (.refl _)), arrives⟩
      | false =>
          rw [Question.firstYes, if_neg (by simp [yes])]
          rw [yes, if_neg (by simp), direct.goto_nil] at step
          have value₁ : c₁.env v = some y := (kept v (known v List.mem_cons_self)).trans value
          obtain ⟨c', run', arrives⟩ :=
            ih (c := { c₁.noteBranch false with block := next, index := 0 }) answered rfl rfl value₁
              values₁
          exact ⟨c', run.trans (.step inside step (run'.mono (List.subset_cons_self _ _))), arrives⟩

/-! ### The ways out -/

/-- Control leaves a block only along edges: to a block of `inner`, or with the values `below` to
one of the targets. -/
def LeavesBy (g : Graph) (inner targets : List BlockId) (below : List ValueId) (b : BlockId) :
    Prop :=
  ∃ block t, g.block? b = some block ∧ block.terminator = some t ∧ t.successors ≠ [] ∧
    ∀ target ∈ t.successors, target ∈ inner ∨ target ∈ targets ∧ g.Carries b target below

theorem LeavesBy.mono {inner inner' targets targets' : List BlockId}
    (leaves : g.LeavesBy inner targets below b) (sub : inner ⊆ inner') (sub' : targets ⊆ targets') :
    g.LeavesBy inner' targets' below b := by
  obtain ⟨block, t, live, last, some, edges⟩ := leaves
  refine ⟨block, t, live, last, some, fun target mem => ?_⟩
  exact (edges target mem).imp (fun inside => sub inside) fun out => ⟨sub' out.1, out.2⟩

theorem Chain.leavesBy (chain : g.Chain v below default b n arms blocks) :
    ∀ b' ∈ b :: blocks, g.LeavesBy blocks (arms.map (·.2) ++ [default]) below b' := by
  induction chain with
  | nil tail carries =>
      obtain ⟨block, live, -, last⟩ := tail
      intro b' mem
      obtain rfl := List.mem_singleton.mp mem
      refine ⟨block, _, live, last, List.cons_ne_nil _ _, fun target mem => Or.inr ?_⟩
      obtain rfl := List.mem_singleton.mp mem
      exact ⟨List.mem_singleton.mpr rfl, carries⟩
  | cons _ tail carries _ _ ih =>
      intro b' mem
      rcases List.mem_cons.mp mem with rfl | mem
      · obtain ⟨block, live, -, last⟩ := tail
        refine ⟨block, _, live, last, List.cons_ne_nil _ _, fun target mem => ?_⟩
        rcases List.mem_cons.mp mem with rfl | mem
        · exact Or.inr ⟨List.mem_cons_self, carries⟩
        · obtain rfl := List.mem_singleton.mp mem
          exact Or.inl List.mem_cons_self
      · exact (ih b' mem).mono (List.subset_cons_self _ _) (List.subset_cons_self _ _)

end Graph

/-! ### Switches -/

/-- The jump tables of a switch: by name if it has names, and by number. -/
structure SwitchTables where
  byName : Option (List String × Lowering.Targets)
  byNumber : Lowering.Targets

/-- The blocks that a switch can lead to. -/
def SwitchTables.targets (tables : SwitchTables) : List BlockId :=
  tables.byName.elim [] (·.2.all) ++ tables.byNumber.all

/-- The operations of a switch mean what they are for: there are subjects that are characters, and
these have a text; and every subject has a number as a switch index. -/
structure Interp.Switching (I : Interp V) where
  isCharacter : V → Bool
  text : V → String
  number : V → Int
  holds_isCharacter : ∀ h h' site x, I.holds (I.result h' (.asTest ⟨0⟩ site)
    [I.result h (.isType .character ⟨0⟩) [x]]) = isCharacter x
  holds_strEq : ∀ h name x, isCharacter x = true →
    I.holds (I.result h (.strEq ⟨0⟩ name) [x]) = decide (text x = name)
  holds_indexEq : ∀ h h₁ h₂ site k x, I.holds (I.result h (.indexEq ⟨0⟩ ⟨0⟩)
    [I.result h₁ (.switchIndex ⟨0⟩ site) [x], I.result h₂ (.indexConst k) []]) =
      decide (number x = k)

/-- The target that a switch is to select: by name for a character if the switch has names, and
by number otherwise. -/
def Interp.Switching.target? {I : Interp V} (M : I.Switching) (tables : SwitchTables) (x : V) :
    Option BlockId :=
  match tables.byName with
  | some (names, targets) =>
    if M.isCharacter x then targets.ofName names (M.text x)
    else tables.byNumber.ofNumber (M.number x)
  | none => tables.byNumber.ofNumber (M.number x)

namespace Graph

variable {g : Graph} {I : Interp V} {b : BlockId} {n : Nat} {c : Config V} {subject : ValueId}
  {site : CallSite} {below : List ValueId} {blocks : List BlockId} {x : V} {xs : List V}

/-- From an index on, the graph finds the switch index of the subject and asks for its number. -/
def NumberSwitch (g : Graph) (subject : ValueId) (site : CallSite) (below : List ValueId)
    (targets : Lowering.Targets) (b : BlockId) (n : Nat) (blocks : List BlockId) : Prop :=
  ∃ m, (∀ u ∈ below, u.index < m) ∧ g.StmtAt b n ⟨⟨m⟩, .switchIndex subject site⟩ ∧
    g.Chain ⟨m⟩ below targets.default b (n + 1) (Question.numbered 1 targets.arms) blocks

/-- From an index on, the graph is a switch. -/
inductive Switch (g : Graph) (subject : ValueId) (site : CallSite) (below : List ValueId)
    (b : BlockId) (n : Nat) : SwitchTables → List BlockId → Prop
  | numbers {targets : Lowering.Targets} {blocks : List BlockId}
      (numbers : g.NumberSwitch subject site below targets b n blocks) :
      Switch g subject site below b n ⟨none, targets⟩ blocks
  | names {m : Nat} {names : List String} {chr num : Lowering.Targets} {chrBlock numBlock : BlockId}
      {chrBlocks numBlocks : List BlockId} (fits : chr.arms.length = names.length)
      (known : ∀ u ∈ subject :: below, u.index < m)
      (tail : g.Tail b n [⟨⟨m⟩, .isType .character subject⟩, ⟨⟨m + 1⟩, .asTest ⟨m⟩ site⟩]
        (.branch ⟨m + 1⟩ chrBlock numBlock))
      (toChr : g.Carries b chrBlock []) (toNum : g.Carries b numBlock [])
      (chain : g.Chain subject below chr.default chrBlock 0
        (Question.named (names.zip chr.arms)) chrBlocks)
      (numbers : g.NumberSwitch subject site below num numBlock 0 numBlocks) :
      Switch g subject site below b n ⟨some (names, chr), num⟩
        (chrBlock :: numBlock :: (chrBlocks ++ numBlocks))

theorem NumberSwitch.run {targets : Lowering.Targets}
    (numbers : g.NumberSwitch subject site below targets b n blocks) (distinct : g.DistinctPhis)
    (M : I.Switching) (block : c.block = b) (index : c.index = n) (value : c.env subject = some x)
    (values : below.map c.env = xs.map some) :
    ∃ target c', targets.ofNumber (M.number x) = some target ∧ g.StepsIn I (b :: blocks) c c' ∧
      g.Arrives target xs c' := by
  obtain ⟨m, known, stmt, chain⟩ := numbers
  have operands : [subject].map c.env = [x].map some := by rw [List.map_singleton, value]; rfl
  obtain ⟨c₁, r, rfl, run, block₁, index₁, env, -⟩ := stmt.run block index operands I
  have values₁ : below.map c₁.env = xs.map some := by
    rw [← values, env]
    refine List.map_congr_left fun u mem => Env.set_of_ne _ _ ?_
    rintro rfl
    exact Nat.lt_irrefl _ (known _ mem)
  have answered : ∀ arm ∈ Question.numbered 1 targets.arms, arm.1.Answered I
      (I.result c.history (.switchIndex ⟨0⟩ site) [x]) (arm.1.reply (M.text x) (M.number x)) :=
    Question.forall_numbered (P := fun q => q.Answered I _ (q.reply (M.text x) (M.number x)))
      (fun k h' h'' => M.holds_indexEq h' c.history h'' site k x) _ _
  obtain ⟨c', run', arrives⟩ := chain.run distinct answered block₁ index₁
    (env ▸ Env.set_self _ _ _) values₁
  refine ⟨_, c', ?_, .step (block ▸ List.mem_cons_self) run run', arrives⟩
  rw [← Question.firstYes_numbered, Lowering.Targets.ofNumber]
  exact ite_congr (propext (by omega)) (fun _ => rfl) fun _ => rfl

/-- A switch selects its target, with the values below the subject. -/
theorem Switch.run {tables : SwitchTables} (switch : g.Switch subject site below b n tables blocks)
    (distinct : g.DistinctPhis) (M : I.Switching) (block : c.block = b) (index : c.index = n)
    (value : c.env subject = some x) (values : below.map c.env = xs.map some) :
    ∃ target c', M.target? tables x = some target ∧ g.StepsIn I (b :: blocks) c c' ∧
      g.Arrives target xs c' := by
  cases switch with
  | numbers numbers => exact numbers.run distinct M block index value values
  | @names m names chr num chrBlock numBlock chrBlocks numBlocks fits known tail toChr toNum chain
      numbers =>
      obtain ⟨isType, tail⟩ := tail.uncons
      obtain ⟨asTest, tail⟩ := tail.uncons
      have operands : [subject].map c.env = [x].map some := by rw [List.map_singleton, value]; rfl
      obtain ⟨c₁, r₁, isResult, run₁, block₁, index₁, env₁, -⟩ := isType.run block index operands I
      have operands₁ : [(⟨m⟩ : ValueId)].map c₁.env = [r₁].map some := by
        rw [List.map_singleton, env₁]
        exact congrArg (· :: []) (Env.set_self _ _ _)
      obtain ⟨c₂, r₂, isTest, run₂, block₂, index₂, env₂, -⟩ :=
        asTest.run block₁ index₁ operands₁ I
      have kept : ∀ u : ValueId, u.index < m → c₂.env u = c.env u := by
        intro u lt
        rw [env₂, env₁, Env.set_of_ne, Env.set_of_ne]
        · rintro rfl
          exact Nat.lt_irrefl _ lt
        · rintro rfl
          exact Nat.not_succ_lt_self lt
      have value₂ : c₂.env subject = some x := (kept _ (known _ List.mem_cons_self)).trans value
      have values₂ : below.map c₂.env = xs.map some := by
        rw [← values]
        exact List.map_congr_left fun u mem => kept u (known u (List.mem_cons_of_mem _ mem))
      have step := tail.branch (I := I) block₂ index₂ (env₂ ▸ Env.set_self _ _ _)
      have test : I.holds r₂ = M.isCharacter x := by
        rw [isTest, isResult]
        exact M.holds_isCharacter _ _ site x
      have step : c₂.step g I = (c₂.noteBranch (M.isCharacter x)).goto g
          (if M.isCharacter x then chrBlock else numBlock) := test ▸ step
      have run : g.StepsIn I (b :: chrBlock :: numBlock :: (chrBlocks ++ numBlocks)) c c₂ :=
        .step (block ▸ List.mem_cons_self) run₁ (.step (block₁ ▸ List.mem_cons_self) run₂ (.refl _))
      have inside : c₂.block ∈ b :: chrBlock :: numBlock :: (chrBlocks ++ numBlocks) :=
        block₂ ▸ List.mem_cons_self
      cases isCharacter : M.isCharacter x with
      | true =>
          rw [isCharacter, if_pos rfl, toChr.goto_nil] at step
          have answered : ∀ arm ∈ Question.named (names.zip chr.arms),
              arm.1.Answered I x (arm.1.reply (M.text x) (M.number x)) :=
            Question.forall_named (P := fun q => q.Answered I x (q.reply (M.text x) (M.number x)))
              (fun name h => M.holds_strEq h name x isCharacter) _
          obtain ⟨c', run', arrives⟩ := chain.run
            (c := { c₂.noteBranch true with block := chrBlock, index := 0 }) distinct answered rfl
            rfl value₂ values₂
          refine ⟨_, c', ?_, run.trans (.step inside step (run'.mono (by grind))), arrives⟩
          exact (if_pos isCharacter).trans (Question.firstYes_named fits _ _ _)
      | false =>
          rw [isCharacter, if_neg (by simp), toNum.goto_nil] at step
          obtain ⟨target, c', selects, run', arrives⟩ := numbers.run
            (c := { c₂.noteBranch false with block := numBlock, index := 0 }) distinct M rfl rfl
            value₂ values₂
          refine ⟨target, c', ?_, run.trans (.step inside step (run'.mono (by grind))), arrives⟩
          exact (if_neg (by simp [isCharacter])).trans selects

/-- A switch is left only along its edges to the targets. -/
theorem Switch.leavesBy {tables : SwitchTables}
    (switch : g.Switch subject site below b n tables blocks) :
    ∀ b' ∈ b :: blocks, g.LeavesBy blocks tables.targets below b' := by
  cases switch with
  | @numbers targets _ numbers =>
      obtain ⟨m, -, -, chain⟩ := numbers
      have leaves := chain.leavesBy
      rwa [Question.map_numbered] at leaves
  | @names m names chr num chrBlock numBlock chrBlocks numBlocks fits known tail toChr toNum chain
      numbers =>
      obtain ⟨m', -, -, chain'⟩ := numbers
      have chrLeaves := chain.leavesBy
      have numLeaves := chain'.leavesBy
      rw [Question.map_named fits] at chrLeaves
      rw [Question.map_numbered] at numLeaves
      have byName : chr.all ⊆ (SwitchTables.mk (some (names, chr)) num).targets :=
        List.subset_append_left _ _
      have byNumber : num.all ⊆ (SwitchTables.mk (some (names, chr)) num).targets :=
        List.subset_append_right _ _
      intro b' mem
      rcases List.mem_cons.mp mem with rfl | mem
      · obtain ⟨block, live, -, last⟩ := tail
        refine ⟨block, _, live, last, List.cons_ne_nil _ _, fun target mem => Or.inl ?_⟩
        simp only [Terminator.successors, List.mem_cons, List.not_mem_nil, or_false] at mem
        rcases mem with rfl | rfl <;> simp
      · have split : b' ∈ chrBlock :: chrBlocks ∨ b' ∈ numBlock :: numBlocks := by grind
        rcases split with inChr | inNum
        · exact (chrLeaves b' inChr).mono (by grind) byName
        · exact (numLeaves b' inNum).mono (by grind) byNumber

end Graph

end StackLift
