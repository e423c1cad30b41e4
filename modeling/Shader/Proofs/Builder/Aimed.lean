import Shader.Proofs.Builder.WellBuilt

/-!
Branches name constructs of their kind.

A branch that leaves a construct is added before it is known whether there is such a construct, and stays where it was
added when it is refused. As long as no branch is refused, every branch names a construct of the kind it is meant for:
no construct ever turns into another one.
-/
namespace Shader

namespace Kind

variable (expected : ConstructKind) (exit : InstId) (kind : Kind)

theorem aims?_withExit : ((Build.withExit expected exit kind).getD kind).aims? = kind.aims? := by
  cases expected <;> cases kind <;> rfl

theorem sort?_withExit : ((Build.withExit expected exit kind).getD kind).sort? = kind.sort? := by
  cases expected <;> cases kind <;> rfl

end Kind

namespace Module

variable {m m' : Module} {inward stray : Prop}

/-- Branches name constructs of their kind. -/
def Aimed (m : Module) : Prop :=
  ∀ id kind, m.kind? id = some kind → ∀ found ∈ kind.aims?, m.sortOf? found.2 = some found.1

/-- A construct stays what it is. -/
theorem Edit.sortOf?_eq {id : InstId} {sort : ConstructKind} (edit : Edit inward stray m m')
    (held : m.sortOf? id = some sort) : m'.sortOf? id = some sort := by
  obtain ⟨kind, found, isSort⟩ := Option.bind_eq_some_iff.mp held
  have same := edit.view_eq Kind.sort?_withExit (fun _ _ => rfl) (fun _ _ => rfl) found
  obtain ⟨new, now, same⟩ := Option.map_eq_some_iff.mp same
  rw [sortOf?, now]
  exact same.trans isSort

/-- Of the instructions that an edit leaves, the old ones name what they named before, and a new one is no stray. -/
theorem Edit.aimed (edit : Edit inward False m m') (aimed : m.Aimed) : m'.Aimed := by
  intro id kind held found names
  by_cases old : ∃ before, m.kind? id = some before
  · obtain ⟨before, was⟩ := old
    have same := edit.view_eq Kind.aims?_withExit (fun _ _ => rfl) (fun _ _ => rfl) was
    rw [held] at same
    exact edit.sortOf?_eq (aimed id before was found (Option.some.inj same ▸ names))
  · refine edit.sortOf?_eq ?_
    cases edit with
    | relabel | block | function | param | blockParam => exact absurd ⟨_, held⟩ old
    | inst _ _ _ _ fits =>
      rw [kind?_append] at held
      obtain ⟨new, before, rfl⟩ := Option.map_eq_some_iff.mp held
      rw [registered_eq _ _ _ _ fun _ => Kind.aims?_withExit ..] at names
      split at before
      · cases before
        exact fits.resolve_left nofun found names
      · exact absurd ⟨_, before⟩ old
    | conditional | loop =>
      rw [addConstruct, kind?_addInst] at held
      split at held
      · cases held
        cases names
      · exact absurd ⟨_, held⟩ old
    | initializer | case =>
      rw [kind?_changeKind] at held
      split at held
      · obtain ⟨before, was, -⟩ := Option.map_eq_some_iff.mp held
        exact absurd ⟨before, was⟩ old
      · exact absurd ⟨_, held⟩ old

end Module

namespace Builder

open Shader.Module

instance decidableAcceptsBranches : (builder : Builder) → (calls : List Call) →
    Decidable (builder.AcceptsBranches calls)
  | _, [] => .isTrue trivial
  | builder, call :: calls =>
    have := decidableAcceptsBranches (builder.apply call).2 calls
    inferInstanceAs (Decidable (_ ∧ _))

/-- If no branch is refused, all of them name constructs of their kind. -/
theorem aimed_of_replay {b c : Builder} {calls : List Call} (ran : b.replay calls = some c)
    (accepts : b.AcceptsBranches calls) (aimed : b.module.Aimed) : c.module.Aimed := by
  have edits : b.module.EditsTo True False c.module := edits_of_replay_placed ran (.inl trivial) (.inr accepts)
  generalize c.module = made at edits
  induction edits with
  | refl => exact aimed
  | tail _ edit ih => exact edit.aimed ih

end Builder
end Shader
