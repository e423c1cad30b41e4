/-!
Instructions of the target: code, spelling and operand grammar.

The grammar says whether an instruction has a result type and a result, which operands follow them,
and what repeats at the end. Operands the grammar does not name (the parameters of a decoration, say)
may follow and are taken as they come.
-/
namespace Shader.Binary

/-- What one operand is. Numbers, strings and members of the target's enumerations are all literals. -/
inductive OperandClass where
  | id
  | scope
  | semantics
  | extInst
  | literal
  deriving DecidableEq

/-- What the operands at the end of an instruction are, however many there are. -/
inductive Repetition where
  | ids
  | literals
  /-- A literal, then an id, then a literal, and so on. -/
  | literalIdPairs
  /-- An id, then a literal, then an id, and so on. -/
  | idLiteralPairs
  deriving DecidableEq

/-- A place for operands. One that may stay empty is like any other, as operands are taken for as long as there are
any. -/
inductive Slot where
  | resultType
  | result
  | one (kind : OperandClass)
  | many (repetition : Repetition)
  deriving DecidableEq

/-- Whether a place is for the result or its type. -/
def Slot.isResult : Slot → Bool
  | .resultType | .result => true
  | .one _ | .many _ => false

/-- The operands of an instruction. A result type comes first and the result after it. -/
structure Grammar where
  resultType : Bool := false
  result : Bool := false
  fixed : List OperandClass := []
  rest : Option Repetition := none
  deriving DecidableEq

/-- The places for operands in the order of the binary. -/
def Grammar.slots (grammar : Grammar) : List Slot :=
  (if grammar.resultType then [.resultType] else []) ++ (if grammar.result then [.result] else []) ++
    grammar.fixed.map .one ++ grammar.rest.toList.map .many

/-- The codes of the instructions that shaders need. -/
def neededCodes : List UInt16 :=
  [1, 5, 6, 10, 11, 12, 14, 15, 16, 17, 19, 20, 21, 22, 23, 24, 25, 26, 27, 28, 29, 30, 32, 33, 41, 42, 43, 44, 46,
    54, 55, 56, 57, 59, 61, 62, 65, 68, 71, 72, 77, 79, 80, 81, 83, 84, 86, 87, 88, 89, 90, 95, 96, 97, 98, 99, 101,
    103, 104, 106, 107, 109, 110, 111, 112, 115, 116, 124, 126, 127, 128, 129, 130, 131, 132, 133, 134, 135, 136,
    137, 138, 140, 142, 143, 144, 145, 146, 148, 154, 155, 164, 165, 166, 167, 168, 169, 170, 171, 172, 173, 174,
    175, 176, 177, 178, 179, 180, 182, 183, 184, 186, 188, 190, 194, 195, 196, 197, 198, 199, 200, 201, 202, 203,
    204, 205, 207, 208, 209, 210, 211, 212, 213, 214, 215, 224, 227, 228, 229, 230, 234, 235, 236, 237, 238, 239,
    240, 241, 242, 245, 246, 247, 248, 249, 250, 251, 252, 253, 254, 255, 337, 339, 4450, 4451]

/-- Instructions of the target: those that shaders need, and any other by its code, spelling and grammar. -/
inductive Opcode where
  | undef | name | memberName | extension | extInstImport | extInst | memoryModel | entryPoint
  | executionMode | capability | typeVoid | typeBool | typeInt | typeFloat | typeVector | typeMatrix
  | typeImage | typeSampler | typeSampledImage | typeArray | typeRuntimeArray | typeStruct | typePointer
  | typeFunction | constantTrue | constantFalse | constant | constantComposite | constantNull | function
  | functionParameter | functionEnd | functionCall | variableDecl | load | store | accessChain | arrayLength
  | decorate | memberDecorate | vectorExtractDynamic | vectorShuffle | compositeConstruct | compositeExtract
  | copyObject | transpose | sampledImage | imageSampleImplicitLod | imageSampleExplicitLod
  | imageSampleDrefImplicitLod | imageSampleDrefExplicitLod | imageFetch | imageGather | imageDrefGather
  | imageRead | imageWrite | imageQueryFormat | imageQuerySizeLod | imageQuerySize | imageQueryLevels
  | imageQuerySamples | convertFToU | convertFToS | convertSToF | convertUToF | fConvert | quantizeToF16
  | bitcast | sNegate | fNegate | iAdd | fAdd | iSub | fSub | iMul | fMul | uDiv | sDiv | fDiv | uMod | sRem
  | fRem | vectorTimesScalar | matrixTimesScalar | vectorTimesMatrix | matrixTimesVector | matrixTimesMatrix
  | dot | any | all | logicalEqual | logicalNotEqual | logicalOr | logicalAnd | logicalNot | select | iEqual
  | iNotEqual | uGreaterThan | sGreaterThan | uGreaterThanEqual | sGreaterThanEqual | uLessThan | sLessThan
  | uLessThanEqual | sLessThanEqual | fOrdEqual | fOrdNotEqual | fUnordNotEqual | fOrdLessThan
  | fOrdGreaterThan | fOrdLessThanEqual | fOrdGreaterThanEqual | shiftRightLogical | shiftRightArithmetic
  | shiftLeftLogical | bitwiseOr | bitwiseXor | bitwiseAnd | not | bitFieldInsert | bitFieldSExtract
  | bitFieldUExtract | bitReverse | bitCount | dPdx | dPdy | fwidth | dPdxFine | dPdyFine | fwidthFine
  | dPdxCoarse | dPdyCoarse | fwidthCoarse | controlBarrier | atomicLoad | atomicStore | atomicExchange
  | atomicCompareExchange | atomicIAdd | atomicISub | atomicSMin | atomicUMin | atomicSMax | atomicUMax
  | atomicAnd | atomicOr | atomicXor | phi | loopMerge | selectionMerge | label | branch | branchConditional
  | switch | kill | returnVoid | returnValue | unreachable | groupNonUniformBroadcast | groupNonUniformBallot
  | sDot | uDot
  | other (code : UInt16) (spelling : String) (grammar : Grammar) (new : code ∉ neededCodes)
  deriving DecidableEq

namespace Opcode

/-- An opcode's number, its spelling and its grammar. -/
structure Entry where
  code : UInt32
  spelling : String
  grammar : Grammar

/-- No result. -/
private def plain (code : UInt32) (spelling : String) (fixed : List OperandClass)
    (rest : Option Repetition := none) : Entry :=
  ⟨code, spelling, ⟨false, false, fixed, rest⟩⟩

/-- A result without a type. -/
private def untyped (code : UInt32) (spelling : String) (fixed : List OperandClass)
    (rest : Option Repetition := none) : Entry :=
  ⟨code, spelling, ⟨false, true, fixed, rest⟩⟩

/-- A result with a type. -/
private def typed (code : UInt32) (spelling : String) (fixed : List OperandClass)
    (rest : Option Repetition := none) : Entry :=
  ⟨code, spelling, ⟨true, true, fixed, rest⟩⟩

/-- A result computed from one value. -/
private def unary (code : UInt32) (spelling : String) : Entry :=
  typed code spelling [.id]

/-- A result computed from two values. -/
private def binary (code : UInt32) (spelling : String) : Entry :=
  typed code spelling [.id, .id]

/-- A value combined with what a pointer points at, in one step. -/
private def atomic (code : UInt32) (spelling : String) : Entry :=
  typed code spelling [.id, .scope, .semantics, .id]

/-- The table of instructions. -/
def entry : Opcode → Entry
  | .undef => typed 1 "Undef" []
  | .name => plain 5 "Name" [.id, .literal]
  | .memberName => plain 6 "MemberName" [.id, .literal, .literal]
  | .extension => plain 10 "Extension" [.literal]
  | .extInstImport => untyped 11 "ExtInstImport" [.literal]
  | .extInst => typed 12 "ExtInst" [.id, .extInst] (some .ids)
  | .memoryModel => plain 14 "MemoryModel" [.literal, .literal]
  | .entryPoint => plain 15 "EntryPoint" [.literal, .id, .literal] (some .ids)
  | .executionMode => plain 16 "ExecutionMode" [.id, .literal]
  | .capability => plain 17 "Capability" [.literal]
  | .typeVoid => untyped 19 "TypeVoid" []
  | .typeBool => untyped 20 "TypeBool" []
  | .typeInt => untyped 21 "TypeInt" [.literal, .literal]
  | .typeFloat => untyped 22 "TypeFloat" [.literal]
  | .typeVector => untyped 23 "TypeVector" [.id, .literal]
  | .typeMatrix => untyped 24 "TypeMatrix" [.id, .literal]
  | .typeImage =>
    untyped 25 "TypeImage" [.id, .literal, .literal, .literal, .literal, .literal, .literal, .literal]
  | .typeSampler => untyped 26 "TypeSampler" []
  | .typeSampledImage => untyped 27 "TypeSampledImage" [.id]
  | .typeArray => untyped 28 "TypeArray" [.id, .id]
  | .typeRuntimeArray => untyped 29 "TypeRuntimeArray" [.id]
  | .typeStruct => untyped 30 "TypeStruct" [] (some .ids)
  | .typePointer => untyped 32 "TypePointer" [.literal, .id]
  | .typeFunction => untyped 33 "TypeFunction" [.id] (some .ids)
  | .constantTrue => typed 41 "ConstantTrue" []
  | .constantFalse => typed 42 "ConstantFalse" []
  | .constant => typed 43 "Constant" [.literal]
  | .constantComposite => typed 44 "ConstantComposite" [] (some .ids)
  | .constantNull => typed 46 "ConstantNull" []
  | .function => typed 54 "Function" [.literal, .id]
  | .functionParameter => typed 55 "FunctionParameter" []
  | .functionEnd => plain 56 "FunctionEnd" []
  | .functionCall => typed 57 "FunctionCall" [.id] (some .ids)
  | .variableDecl => typed 59 "Variable" [.literal, .id]
  | .load => typed 61 "Load" [.id, .literal]
  | .store => plain 62 "Store" [.id, .id, .literal]
  | .accessChain => typed 65 "AccessChain" [.id] (some .ids)
  | .arrayLength => typed 68 "ArrayLength" [.id, .literal]
  | .decorate => plain 71 "Decorate" [.id, .literal]
  | .memberDecorate => plain 72 "MemberDecorate" [.id, .literal, .literal]
  | .vectorExtractDynamic => binary 77 "VectorExtractDynamic"
  | .vectorShuffle => typed 79 "VectorShuffle" [.id, .id] (some .literals)
  | .compositeConstruct => typed 80 "CompositeConstruct" [] (some .ids)
  | .compositeExtract => typed 81 "CompositeExtract" [.id] (some .literals)
  | .copyObject => unary 83 "CopyObject"
  | .transpose => unary 84 "Transpose"
  | .sampledImage => binary 86 "SampledImage"
  | .imageSampleImplicitLod => typed 87 "ImageSampleImplicitLod" [.id, .id, .literal]
  | .imageSampleExplicitLod => typed 88 "ImageSampleExplicitLod" [.id, .id, .literal]
  | .imageSampleDrefImplicitLod => typed 89 "ImageSampleDrefImplicitLod" [.id, .id, .id, .literal]
  | .imageSampleDrefExplicitLod => typed 90 "ImageSampleDrefExplicitLod" [.id, .id, .id, .literal]
  | .imageFetch => typed 95 "ImageFetch" [.id, .id, .literal]
  | .imageGather => typed 96 "ImageGather" [.id, .id, .id, .literal]
  | .imageDrefGather => typed 97 "ImageDrefGather" [.id, .id, .id, .literal]
  | .imageRead => typed 98 "ImageRead" [.id, .id, .literal]
  | .imageWrite => plain 99 "ImageWrite" [.id, .id, .id, .literal]
  | .imageQueryFormat => unary 101 "ImageQueryFormat"
  | .imageQuerySizeLod => binary 103 "ImageQuerySizeLod"
  | .imageQuerySize => unary 104 "ImageQuerySize"
  | .imageQueryLevels => unary 106 "ImageQueryLevels"
  | .imageQuerySamples => unary 107 "ImageQuerySamples"
  | .convertFToU => unary 109 "ConvertFToU"
  | .convertFToS => unary 110 "ConvertFToS"
  | .convertSToF => unary 111 "ConvertSToF"
  | .convertUToF => unary 112 "ConvertUToF"
  | .fConvert => unary 115 "FConvert"
  | .quantizeToF16 => unary 116 "QuantizeToF16"
  | .bitcast => unary 124 "Bitcast"
  | .sNegate => unary 126 "SNegate"
  | .fNegate => unary 127 "FNegate"
  | .iAdd => binary 128 "IAdd"
  | .fAdd => binary 129 "FAdd"
  | .iSub => binary 130 "ISub"
  | .fSub => binary 131 "FSub"
  | .iMul => binary 132 "IMul"
  | .fMul => binary 133 "FMul"
  | .uDiv => binary 134 "UDiv"
  | .sDiv => binary 135 "SDiv"
  | .fDiv => binary 136 "FDiv"
  | .uMod => binary 137 "UMod"
  | .sRem => binary 138 "SRem"
  | .fRem => binary 140 "FRem"
  | .vectorTimesScalar => binary 142 "VectorTimesScalar"
  | .matrixTimesScalar => binary 143 "MatrixTimesScalar"
  | .vectorTimesMatrix => binary 144 "VectorTimesMatrix"
  | .matrixTimesVector => binary 145 "MatrixTimesVector"
  | .matrixTimesMatrix => binary 146 "MatrixTimesMatrix"
  | .dot => binary 148 "Dot"
  | .any => unary 154 "Any"
  | .all => unary 155 "All"
  | .logicalEqual => binary 164 "LogicalEqual"
  | .logicalNotEqual => binary 165 "LogicalNotEqual"
  | .logicalOr => binary 166 "LogicalOr"
  | .logicalAnd => binary 167 "LogicalAnd"
  | .logicalNot => unary 168 "LogicalNot"
  | .select => typed 169 "Select" [.id, .id, .id]
  | .iEqual => binary 170 "IEqual"
  | .iNotEqual => binary 171 "INotEqual"
  | .uGreaterThan => binary 172 "UGreaterThan"
  | .sGreaterThan => binary 173 "SGreaterThan"
  | .uGreaterThanEqual => binary 174 "UGreaterThanEqual"
  | .sGreaterThanEqual => binary 175 "SGreaterThanEqual"
  | .uLessThan => binary 176 "ULessThan"
  | .sLessThan => binary 177 "SLessThan"
  | .uLessThanEqual => binary 178 "ULessThanEqual"
  | .sLessThanEqual => binary 179 "SLessThanEqual"
  | .fOrdEqual => binary 180 "FOrdEqual"
  | .fOrdNotEqual => binary 182 "FOrdNotEqual"
  | .fUnordNotEqual => binary 183 "FUnordNotEqual"
  | .fOrdLessThan => binary 184 "FOrdLessThan"
  | .fOrdGreaterThan => binary 186 "FOrdGreaterThan"
  | .fOrdLessThanEqual => binary 188 "FOrdLessThanEqual"
  | .fOrdGreaterThanEqual => binary 190 "FOrdGreaterThanEqual"
  | .shiftRightLogical => binary 194 "ShiftRightLogical"
  | .shiftRightArithmetic => binary 195 "ShiftRightArithmetic"
  | .shiftLeftLogical => binary 196 "ShiftLeftLogical"
  | .bitwiseOr => binary 197 "BitwiseOr"
  | .bitwiseXor => binary 198 "BitwiseXor"
  | .bitwiseAnd => binary 199 "BitwiseAnd"
  | .not => unary 200 "Not"
  | .bitFieldInsert => typed 201 "BitFieldInsert" [.id, .id, .id, .id]
  | .bitFieldSExtract => typed 202 "BitFieldSExtract" [.id, .id, .id]
  | .bitFieldUExtract => typed 203 "BitFieldUExtract" [.id, .id, .id]
  | .bitReverse => unary 204 "BitReverse"
  | .bitCount => unary 205 "BitCount"
  | .dPdx => unary 207 "DPdx"
  | .dPdy => unary 208 "DPdy"
  | .fwidth => unary 209 "Fwidth"
  | .dPdxFine => unary 210 "DPdxFine"
  | .dPdyFine => unary 211 "DPdyFine"
  | .fwidthFine => unary 212 "FwidthFine"
  | .dPdxCoarse => unary 213 "DPdxCoarse"
  | .dPdyCoarse => unary 214 "DPdyCoarse"
  | .fwidthCoarse => unary 215 "FwidthCoarse"
  | .controlBarrier => plain 224 "ControlBarrier" [.scope, .scope, .semantics]
  | .atomicLoad => typed 227 "AtomicLoad" [.id, .scope, .semantics]
  | .atomicStore => plain 228 "AtomicStore" [.id, .scope, .semantics, .id]
  | .atomicExchange => atomic 229 "AtomicExchange"
  | .atomicCompareExchange =>
    typed 230 "AtomicCompareExchange" [.id, .scope, .semantics, .semantics, .id, .id]
  | .atomicIAdd => atomic 234 "AtomicIAdd"
  | .atomicISub => atomic 235 "AtomicISub"
  | .atomicSMin => atomic 236 "AtomicSMin"
  | .atomicUMin => atomic 237 "AtomicUMin"
  | .atomicSMax => atomic 238 "AtomicSMax"
  | .atomicUMax => atomic 239 "AtomicUMax"
  | .atomicAnd => atomic 240 "AtomicAnd"
  | .atomicOr => atomic 241 "AtomicOr"
  | .atomicXor => atomic 242 "AtomicXor"
  | .phi => typed 245 "Phi" [] (some .ids)
  | .loopMerge => plain 246 "LoopMerge" [.id, .id, .literal]
  | .selectionMerge => plain 247 "SelectionMerge" [.id, .literal]
  | .label => untyped 248 "Label" []
  | .branch => plain 249 "Branch" [.id]
  | .branchConditional => plain 250 "BranchConditional" [.id, .id, .id] (some .literals)
  | .switch => plain 251 "Switch" [.id, .id] (some .literalIdPairs)
  | .kill => plain 252 "Kill" []
  | .returnVoid => plain 253 "Return" []
  | .returnValue => plain 254 "ReturnValue" [.id]
  | .unreachable => plain 255 "Unreachable" []
  | .groupNonUniformBroadcast => typed 337 "GroupNonUniformBroadcast" [.scope, .id, .id]
  | .groupNonUniformBallot => typed 339 "GroupNonUniformBallot" [.scope, .id]
  | .sDot => typed 4450 "SDot" [.id, .id, .literal]
  | .uDot => typed 4451 "UDot" [.id, .id, .literal]
  | .other code spelling grammar _ => ⟨code.toUInt32, spelling, grammar⟩

/-- The number in the low half of an instruction's first word. -/
def code (op : Opcode) : UInt32 := op.entry.code

def text (op : Opcode) : String := op.entry.spelling

def grammar (op : Opcode) : Grammar := op.entry.grammar

/-- The instructions that shaders need, by increasing code. -/
def listed : List Opcode :=
  [.undef, .name, .memberName, .extension, .extInstImport, .extInst, .memoryModel, .entryPoint,
    .executionMode, .capability, .typeVoid, .typeBool, .typeInt, .typeFloat, .typeVector,
    .typeMatrix, .typeImage, .typeSampler, .typeSampledImage, .typeArray, .typeRuntimeArray,
    .typeStruct, .typePointer, .typeFunction, .constantTrue, .constantFalse, .constant,
    .constantComposite, .constantNull, .function, .functionParameter, .functionEnd, .functionCall,
    .variableDecl, .load, .store, .accessChain, .arrayLength, .decorate, .memberDecorate,
    .vectorExtractDynamic, .vectorShuffle, .compositeConstruct, .compositeExtract, .copyObject,
    .transpose, .sampledImage, .imageSampleImplicitLod, .imageSampleExplicitLod,
    .imageSampleDrefImplicitLod, .imageSampleDrefExplicitLod, .imageFetch, .imageGather,
    .imageDrefGather, .imageRead, .imageWrite, .imageQueryFormat, .imageQuerySizeLod,
    .imageQuerySize, .imageQueryLevels, .imageQuerySamples, .convertFToU, .convertFToS,
    .convertSToF, .convertUToF, .fConvert, .quantizeToF16, .bitcast, .sNegate, .fNegate, .iAdd,
    .fAdd, .iSub, .fSub, .iMul, .fMul, .uDiv, .sDiv, .fDiv, .uMod, .sRem, .fRem, .vectorTimesScalar,
    .matrixTimesScalar, .vectorTimesMatrix, .matrixTimesVector, .matrixTimesMatrix, .dot, .any,
    .all, .logicalEqual, .logicalNotEqual, .logicalOr, .logicalAnd, .logicalNot, .select, .iEqual,
    .iNotEqual, .uGreaterThan, .sGreaterThan, .uGreaterThanEqual, .sGreaterThanEqual, .uLessThan,
    .sLessThan, .uLessThanEqual, .sLessThanEqual, .fOrdEqual, .fOrdNotEqual, .fUnordNotEqual,
    .fOrdLessThan, .fOrdGreaterThan, .fOrdLessThanEqual, .fOrdGreaterThanEqual, .shiftRightLogical,
    .shiftRightArithmetic, .shiftLeftLogical, .bitwiseOr, .bitwiseXor, .bitwiseAnd, .not,
    .bitFieldInsert, .bitFieldSExtract, .bitFieldUExtract, .bitReverse, .bitCount, .dPdx, .dPdy,
    .fwidth, .dPdxFine, .dPdyFine, .fwidthFine, .dPdxCoarse, .dPdyCoarse, .fwidthCoarse,
    .controlBarrier, .atomicLoad, .atomicStore, .atomicExchange, .atomicCompareExchange,
    .atomicIAdd, .atomicISub, .atomicSMin, .atomicUMin, .atomicSMax, .atomicUMax, .atomicAnd,
    .atomicOr, .atomicXor, .phi, .loopMerge, .selectionMerge, .label, .branch, .branchConditional,
    .switch, .kill, .returnVoid, .returnValue, .unreachable, .groupNonUniformBroadcast,
    .groupNonUniformBallot, .sDot, .uDot]

/-- The instruction that shaders need with a given code. -/
def ofCode? (code : UInt32) : Option Opcode :=
  listed.find? fun op => op.code == code

/-- Whether an instruction ends a basic block. -/
def isTerminator : Opcode → Bool
  | .branch | .branchConditional | .switch | .kill | .returnVoid | .returnValue | .unreachable => true
  | _ => false

end Opcode
end Shader.Binary
