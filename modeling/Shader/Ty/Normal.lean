import Shader.Ty

/-!
What the target can tell apart about types.

Atomics are plain scalars, depth textures are float textures, and neither a sampler's kind nor a storage
texture's access is part of a type of the target. Two types have one declaration when their normal forms
are equal.
-/
namespace Shader.Ty

/-- The type without the distinctions the target does not make. -/
def normal : Ty → Ty
  | .atomic inner => inner.normal
  | .depthTexture dim => .sampledTexture dim .f32
  | .depthMultisampledTexture dim => .multisampledTexture dim .f32
  | .storageTexture dim format _ sampled => .storageTexture dim format .read sampled
  | .sampler _ => .sampler .sampler
  | .sampledImage image => .sampledImage image.normal
  | .pointer space store access => .pointer space store.normal access
  | .array elem count stride => .array elem.normal count stride
  | ty => ty

end Shader.Ty
