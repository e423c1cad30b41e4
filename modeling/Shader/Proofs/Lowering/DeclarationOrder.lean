import Shader.Proofs.Lowering.ConstantTable

/-!
Types, constants and variables of the module are declared before they are referred to.
-/
namespace Shader.Lower

open Binary LowerState

/-- In a lowered module every declaration refers only to declarations that stand before it. -/
theorem declared_before_use {m : Module} {options : Options} {assembly : Assembly}
    (lowers : m.lower options = .ok assembly) : InOrder assembly.globals.toList := by
  obtain ⟨⟨⟨⟩, state⟩, ran, same⟩ := bind_eq_ok.mp lowers
  cases same
  exact (interned_of_run ran).1.ordered

/-- Two variables of a struct within which a struct and an array nest. One of them is initialized with a
constant that is as deep as its type. -/
def nested : Module where
  structs := #[⟨some "Inner", [⟨none, .vector .f32 2, 0⟩], false⟩,
    ⟨some "Outer", [⟨some "inner", .struct ⟨0⟩, 0⟩, ⟨some "list", .array .u32 (.constant 2) 4, 8⟩], false⟩]
  constants := ⟨#[.scalar (.u32 1), .scalar (.u32 2), .composite (.array .u32 (.constant 2) 4) [⟨0⟩, ⟨1⟩],
    .scalar (.f32 0x3F800000), .splat (.vector .f32 2) ⟨3⟩ 2, .splat (.struct ⟨0⟩) ⟨4⟩ 1,
    .composite (.struct ⟨1⟩) [⟨5⟩, ⟨2⟩]]⟩
  values := #[⟨.pointer .privateLocal (.struct ⟨1⟩) .readWrite, none, .result ⟨0⟩⟩,
    ⟨.pointer .privateLocal (.struct ⟨1⟩) .readWrite, none, .result ⟨1⟩⟩]
  insts := #[⟨.var { initializer := some (.constant ⟨6⟩) }, [⟨0⟩], ⟨0⟩⟩, ⟨.var {}, [⟨1⟩], ⟨0⟩⟩]
  blocks := #[{ insts := [⟨0⟩, ⟨1⟩] }]

theorem nested_declared_before_use : ∃ assembly, nested.lower {} = .ok assembly ∧
    assembly.globals.size = 17 ∧ InOrder assembly.globals.toList := by
  obtain ⟨assembly, lowered, size⟩ : ∃ assembly, nested.lower {} = .ok assembly ∧ assembly.globals.size = 17 := by
    decide +kernel
  exact ⟨assembly, lowered, size, declared_before_use lowered⟩

end Shader.Lower
