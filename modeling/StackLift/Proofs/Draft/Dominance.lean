import StackLift.Proofs.Draft.Act

/-!
Scope and dominance. In a sound draft a value in scope at a point is defined on
every walk to it, as long as the values that brackets carry are.

The argument goes by the length of the walk. A direct block has one source. The
head of a counting loop is first entered from before the loop: any other source
brings the next index, which is computed in the head, so that the head was
passed before.
-/

namespace StackLift.Draft

open StackLift.Graph

variable {d : Draft}

/-- A walk to a point inside of a block has come to the start of the block along
an edge, unless the block is the entry. -/
theorem exists_source {b : BlockId} {n : Nat} {w : List Point} (walk : d.graph.Walk (⟨b, n⟩ :: w))
    (notEntry : b ≠ d.graph.entry) :
    ∃ pred source t, (⟨pred, source.stmts.length⟩ :: t) <:+ w ∧
      d.graph.Walk (⟨pred, source.stmts.length⟩ :: t) ∧ d.graph.block? pred = some source ∧
      b ∈ source.successors ∧ (⟨b, 0⟩ : Point) ∉ (⟨pred, source.stmts.length⟩ :: t : List Point) := by
  obtain ⟨q, t, suffix, first, rfl, none⟩ :=
    walk.exists_first (P := (· = ⟨b, 0⟩)) ⟨⟨b, 0⟩, walk.mem_of_le (Nat.zero_le n), rfl⟩
  rcases first.cases_zero with ⟨entry, -⟩ | ⟨pred, source, t', rfl, live, succ, walk'⟩
  · exact absurd entry notEntry
  · refine ⟨pred, source, t', ?_, walk', live, succ, fun mem => none _ mem rfl⟩
    rcases List.suffix_cons_iff.mp suffix with heq | rest
    · cases heq
      exact List.suffix_refl _
    · exact (List.suffix_cons _ _).trans rest

/-- Along an edge from elsewhere than before the loop, the head of a counting
loop takes a value that is computed in the head. -/
theorem Sound.usedAt_next {b p pred : BlockId} {block source : Block} {phi : Phi} (sound : d.Sound)
    (live : d.graph.block? b = some block) (mem : phi ∈ block.phis) (index : phi.type = .index)
    (first : block.preds.head? = some p) (source_live : d.graph.block? pred = some source)
    (succ : b ∈ source.successors) (other : pred ≠ p) :
    ∃ next, d.graph.UsedAt next ⟨pred, source.stmts.length⟩ ∧ d.graph.DefinedAt next ⟨b, 2⟩ := by
  have sources := sound.linked.inputs live mem
  have isPred : pred ∈ phi.inputs.map (·.1) := by
    rw [sources, sound.linked.recorded.mem_preds_iff live, successorsOf_eq source_live]
    exact succ
  obtain ⟨⟨_, next⟩, input, rfl⟩ := List.mem_map.mp isPred
  refine ⟨next, .phi live mem input source_live, ?_⟩
  obtain ⟨initial, rest, inputs, registered⟩ := sound.indexInputs live mem index
  rw [inputs] at input
  rcases List.mem_cons.mp input with rfl | input
  · rw [← sources, inputs] at first
    exact absurd (Option.some.inj first) other
  · exact sound.nextIndex (registered _ input)

section

variable (sound : d.Sound) (classified : ∀ {v : ValueId} {p : Point}, d.graph.UsedAt v p →
  d.InScope v p ∨ d.graph.Dominates v p)

include sound classified

theorem Sound.definedAt_of_inScope {p : Point} {w : List Point} (walk : d.graph.Walk (p :: w))
    {v : ValueId} (scope : d.InScope v p) : ∃ q ∈ p :: w, d.graph.DefinedAt v q := by
  induction length : w.length using Nat.strongRecOn generalizing p w v with
  | ind n ih =>
      subst length
      cases scope with
      | phi live mem value => exact ⟨_, walk.mem_of_le (Nat.zero_le _), .phi live mem value⟩
      | stmt live get value before => exact ⟨_, walk.mem_of_le before, .stmt live get value⟩
      | @inherit b p source m inherits live ended scope =>
          -- what is defined on the way to the end of the source
          have notEntry : b ≠ d.graph.entry := by
            obtain ⟨entry, hentry, none⟩ := sound.entry
            rintro rfl
            cases inherits with
            | direct _ mem _ => exact sound.entry_notDirect mem
            | head live mem _ _ =>
                rw [hentry] at live
                cases live
                rw [none] at mem
                exact absurd mem List.not_mem_nil
          obtain ⟨pred, origin, t, suffix, walk', horigin, succ, notPassed⟩ :=
            exists_source walk notEntry
          have shorter : t.length < w.length := suffix.length_le
          obtain rfl : pred = p := by
            cases inherits with
            | direct hb _ preds =>
                have mem : pred ∈ _ := (sound.linked.recorded.mem_preds_iff hb).mpr
                  (by rw [successorsOf_eq horigin]; exact succ)
                rw [preds] at mem
                exact List.mem_singleton.mp mem
            | head hb mem index first =>
                by_cases other : pred = p
                · exact other
                · -- the next index was computed in the head, so the head was passed before
                  obtain ⟨next, used, defined⟩ :=
                    sound.usedAt_next hb mem index first horigin succ other
                  have onWalk : ∃ q ∈ (⟨pred, origin.stmts.length⟩ :: t : List Point),
                      d.graph.DefinedAt next q := by
                    rcases classified used with scope | dominates
                    · exact ih t.length shorter walk' scope rfl
                    · exact dominates t walk'
                  obtain ⟨q, hq, hdef⟩ := onWalk
                  obtain rfl : q = ⟨b, 2⟩ := sound.single hdef defined
                  obtain ⟨before, after, heq⟩ := List.append_of_mem hq
                  have part := walk'.suffix ⟨before, heq.symm⟩ (List.cons_ne_nil _ _)
                  have passed := part.mem_of_le (Nat.zero_le 2)
                  rw [heq] at notPassed
                  exact absurd (List.mem_append_right before passed) notPassed
          rw [live] at horigin
          cases horigin
          obtain ⟨q, hq, hdef⟩ := ih t.length shorter walk' scope rfl
          exact ⟨q, List.mem_cons_of_mem _ (suffix.subset hq), hdef⟩

/-- Dominance follows from scope. -/
theorem Sound.dominated : d.graph.Dominated := by
  intro v p used w walk
  rcases classified used with scope | dominates
  · exact sound.definedAt_of_inScope classified walk scope
  · exact dominates w walk

end

end StackLift.Draft
