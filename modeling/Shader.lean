import Shader.Main
import Shader.Proofs.Binary.Editing
import Shader.Proofs.Binary.Making
import Shader.Proofs.Builder.Outward
import Shader.Proofs.Codec.PoolReading
import Shader.Proofs.Codec.RoundTrip
import Shader.Proofs.Files.SideBySide
import Shader.Proofs.Lowering.Circles
import Shader.Proofs.Lowering.ConstantMeaning
import Shader.Proofs.Lowering.ControlFlow
import Shader.Proofs.Lowering.DeclarationOrder
import Shader.Proofs.Lowering.DistinctTypes
import Shader.Proofs.Lowering.Independence
import Shader.Proofs.Lowering.KeptBlocks
import Shader.Proofs.Lowering.Names
import Shader.Proofs.Lowering.PhiSources
import Shader.Proofs.Lowering.SelectedInstructions
import Shader.Proofs.Lowering.UnsupportedConstants
