import Foam.Tag

/-!
# Builtin operations

The operators of `BVal` and `BCall`. Each has a signature: whether it has an effect, the types of
its parameters, the type of its result, and for an operation with several results (result type
`NOp`) the types of those.
-/

namespace Foam

/-- What an operation takes and gives. -/
structure Signature where
  hasEffect : Bool
  params : List Tag
  result : Tag
  /-- Types of the values of an operation with several results, else empty. -/
  values : List Tag
  deriving DecidableEq, Repr

namespace Signature

def pureOp (params : List Tag) (result : Tag) : Signature := ⟨false, params, result, []⟩

def effectOp (params : List Tag) (result : Tag) : Signature := ⟨true, params, result, []⟩

/-- An operation without effect that gives several values. -/
def several (params values : List Tag) : Signature := ⟨false, params, .nop, values⟩

end Signature

/-- A builtin operation. -/
inductive Builtin
  | boolFalse | boolTrue | boolNot | boolAnd | boolOr | boolEQ | boolNE | charSpace
  | charNewline | charTab | charMin | charMax | charIsDigit | charIsLetter | charEQ | charNE
  | charLT | charLE | charLower | charUpper | charOrd | charNum | sflo0 | sflo1 | sfloMin
  | sfloMax | sfloEpsilon | sfloIsZero | sfloIsNeg | sfloIsPos | sfloEQ | sfloNE | sfloLT
  | sfloLE | sfloNegate | sfloPrev | sfloNext | sfloPlus | sfloMinus | sfloTimes
  | sfloTimesPlus | sfloDivide | sfloRPlus | sfloRMinus | sfloRTimes | sfloRTimesPlus
  | sfloRDivide | sfloDissemble | sfloAssemble | dflo0 | dflo1 | dfloMin | dfloMax
  | dfloEpsilon | dfloIsZero | dfloIsNeg | dfloIsPos | dfloEQ | dfloNE | dfloLT | dfloLE
  | dfloNegate | dfloPrev | dfloNext | dfloPlus | dfloMinus | dfloTimes | dfloTimesPlus
  | dfloDivide | dfloRPlus | dfloRMinus | dfloRTimes | dfloRTimesPlus | dfloRDivide
  | dfloDissemble | dfloAssemble | byte0 | byte1 | byteMin | byteMax | hint0 | hint1 | hintMin
  | hintMax | sint0 | sint1 | sintMin | sintMax | sintIsZero | sintIsNeg | sintIsPos
  | sintIsEven | sintIsOdd | sintEQ | sintNE | sintLT | sintLE | sintNegate | sintPrev
  | sintNext | sintPlus | sintMinus | sintTimes | sintTimesPlus | sintMod | sintQuo | sintRem
  | sintDivide | sintGcd | sintPlusMod | sintMinusMod | sintTimesMod | sintTimesModInv
  | sintLength | sintShiftUp | sintShiftDn | sintBit | sintNot | sintAnd | sintOr | sintXOr
  | sintHashCombine | wordTimesDouble | wordDivideDouble | wordPlusStep | wordTimesStep | bint0
  | bint1 | bintIsZero | bintIsNeg | bintIsPos | bintIsEven | bintIsOdd | bintIsSingle | bintEQ
  | bintNE | bintLT | bintLE | bintNegate | bintPrev | bintNext | bintPlus | bintMinus
  | bintTimes | bintTimesPlus | bintMod | bintQuo | bintRem | bintDivide | bintGcd
  | bintSIPower | bintBIPower | bintPowerMod | bintLength | bintShiftUp | bintShiftDn
  | bintShiftRem | bintBit | ptrNil | ptrIsNil | ptrMagicEQ | ptrEQ | ptrNE | formatSFlo
  | formatDFlo | formatSInt | formatBInt | scanSFlo | scanDFlo | scanSInt | scanBInt
  | sfloToDFlo | dfloToSFlo | byteToSInt | sintToByte | hintToSInt | sintToHInt | sintToBInt
  | bintToSInt | sintToSFlo | sintToDFlo | bintToSFlo | bintToDFlo | ptrToSInt | sintToPtr
  | arrToSFlo | arrToDFlo | arrToSInt | arrToBInt | platformRTE | platformOS | halt | roundZero
  | roundNearest | roundUp | roundDown | roundDontCare | sfloTruncate | sfloFraction
  | sfloRound | dfloTruncate | dfloFraction | dfloRound | stoForceGC | stoInHeap
  | stoIsWritable | stoMarkObject | stoRecode | stoNewObject | stoATracer | stoCTracer
  | stoShow | stoShowArgs | typeInt8 | typeInt16 | typeInt32 | typeInt64 | typeInt128 | typeNil
  | typeChar | typeBool | typeByte | typeHInt | typeSInt | typeBInt | typeSFlo | typeDFlo
  | typeWord | typeClos | typePtr | typeRec | typeArr | typeTR | rawRepSize | sizeOfInt8
  | sizeOfInt16 | sizeOfInt32 | sizeOfInt64 | sizeOfInt128 | sizeOfNil | sizeOfChar
  | sizeOfBool | sizeOfByte | sizeOfHInt | sizeOfSInt | sizeOfBInt | sizeOfSFlo | sizeOfDFlo
  | sizeOfWord | sizeOfClos | sizeOfPtr | sizeOfRec | sizeOfArr | sizeOfTR | listNil
  | listEmptyP | listHead | listTail | listCons | newExportTable | addToExportTable
  | freeExportTable
  deriving DecidableEq, Repr

namespace Builtin

/-- Every builtin in table order. -/
def all : List Builtin :=
  [.boolFalse, .boolTrue, .boolNot, .boolAnd, .boolOr, .boolEQ, .boolNE, .charSpace,
   .charNewline, .charTab, .charMin, .charMax, .charIsDigit, .charIsLetter, .charEQ, .charNE,
   .charLT, .charLE, .charLower, .charUpper, .charOrd, .charNum, .sflo0, .sflo1, .sfloMin,
   .sfloMax, .sfloEpsilon, .sfloIsZero, .sfloIsNeg, .sfloIsPos, .sfloEQ, .sfloNE, .sfloLT,
   .sfloLE, .sfloNegate, .sfloPrev, .sfloNext, .sfloPlus, .sfloMinus, .sfloTimes,
   .sfloTimesPlus, .sfloDivide, .sfloRPlus, .sfloRMinus, .sfloRTimes, .sfloRTimesPlus,
   .sfloRDivide, .sfloDissemble, .sfloAssemble, .dflo0, .dflo1, .dfloMin, .dfloMax,
   .dfloEpsilon, .dfloIsZero, .dfloIsNeg, .dfloIsPos, .dfloEQ, .dfloNE, .dfloLT, .dfloLE,
   .dfloNegate, .dfloPrev, .dfloNext, .dfloPlus, .dfloMinus, .dfloTimes, .dfloTimesPlus,
   .dfloDivide, .dfloRPlus, .dfloRMinus, .dfloRTimes, .dfloRTimesPlus, .dfloRDivide,
   .dfloDissemble, .dfloAssemble, .byte0, .byte1, .byteMin, .byteMax, .hint0, .hint1, .hintMin,
   .hintMax, .sint0, .sint1, .sintMin, .sintMax, .sintIsZero, .sintIsNeg, .sintIsPos,
   .sintIsEven, .sintIsOdd, .sintEQ, .sintNE, .sintLT, .sintLE, .sintNegate, .sintPrev,
   .sintNext, .sintPlus, .sintMinus, .sintTimes, .sintTimesPlus, .sintMod, .sintQuo, .sintRem,
   .sintDivide, .sintGcd, .sintPlusMod, .sintMinusMod, .sintTimesMod, .sintTimesModInv,
   .sintLength, .sintShiftUp, .sintShiftDn, .sintBit, .sintNot, .sintAnd, .sintOr, .sintXOr,
   .sintHashCombine, .wordTimesDouble, .wordDivideDouble, .wordPlusStep, .wordTimesStep,
   .bint0, .bint1, .bintIsZero, .bintIsNeg, .bintIsPos, .bintIsEven, .bintIsOdd, .bintIsSingle,
   .bintEQ, .bintNE, .bintLT, .bintLE, .bintNegate, .bintPrev, .bintNext, .bintPlus,
   .bintMinus, .bintTimes, .bintTimesPlus, .bintMod, .bintQuo, .bintRem, .bintDivide, .bintGcd,
   .bintSIPower, .bintBIPower, .bintPowerMod, .bintLength, .bintShiftUp, .bintShiftDn,
   .bintShiftRem, .bintBit, .ptrNil, .ptrIsNil, .ptrMagicEQ, .ptrEQ, .ptrNE, .formatSFlo,
   .formatDFlo, .formatSInt, .formatBInt, .scanSFlo, .scanDFlo, .scanSInt, .scanBInt,
   .sfloToDFlo, .dfloToSFlo, .byteToSInt, .sintToByte, .hintToSInt, .sintToHInt, .sintToBInt,
   .bintToSInt, .sintToSFlo, .sintToDFlo, .bintToSFlo, .bintToDFlo, .ptrToSInt, .sintToPtr,
   .arrToSFlo, .arrToDFlo, .arrToSInt, .arrToBInt, .platformRTE, .platformOS, .halt,
   .roundZero, .roundNearest, .roundUp, .roundDown, .roundDontCare, .sfloTruncate,
   .sfloFraction, .sfloRound, .dfloTruncate, .dfloFraction, .dfloRound, .stoForceGC,
   .stoInHeap, .stoIsWritable, .stoMarkObject, .stoRecode, .stoNewObject, .stoATracer,
   .stoCTracer, .stoShow, .stoShowArgs, .typeInt8, .typeInt16, .typeInt32, .typeInt64,
   .typeInt128, .typeNil, .typeChar, .typeBool, .typeByte, .typeHInt, .typeSInt, .typeBInt,
   .typeSFlo, .typeDFlo, .typeWord, .typeClos, .typePtr, .typeRec, .typeArr, .typeTR,
   .rawRepSize, .sizeOfInt8, .sizeOfInt16, .sizeOfInt32, .sizeOfInt64, .sizeOfInt128,
   .sizeOfNil, .sizeOfChar, .sizeOfBool, .sizeOfByte, .sizeOfHInt, .sizeOfSInt, .sizeOfBInt,
   .sizeOfSFlo, .sizeOfDFlo, .sizeOfWord, .sizeOfClos, .sizeOfPtr, .sizeOfRec, .sizeOfArr,
   .sizeOfTR, .listNil, .listEmptyP, .listHead, .listTail, .listCons, .newExportTable,
   .addToExportTable, .freeExportTable]

def name : Builtin → String
  | .boolFalse => "BoolFalse"
  | .boolTrue => "BoolTrue"
  | .boolNot => "BoolNot"
  | .boolAnd => "BoolAnd"
  | .boolOr => "BoolOr"
  | .boolEQ => "BoolEQ"
  | .boolNE => "BoolNE"
  | .charSpace => "CharSpace"
  | .charNewline => "CharNewline"
  | .charTab => "CharTab"
  | .charMin => "CharMin"
  | .charMax => "CharMax"
  | .charIsDigit => "CharIsDigit"
  | .charIsLetter => "CharIsLetter"
  | .charEQ => "CharEQ"
  | .charNE => "CharNE"
  | .charLT => "CharLT"
  | .charLE => "CharLE"
  | .charLower => "CharLower"
  | .charUpper => "CharUpper"
  | .charOrd => "CharOrd"
  | .charNum => "CharNum"
  | .sflo0 => "SFlo0"
  | .sflo1 => "SFlo1"
  | .sfloMin => "SFloMin"
  | .sfloMax => "SFloMax"
  | .sfloEpsilon => "SFloEpsilon"
  | .sfloIsZero => "SFloIsZero"
  | .sfloIsNeg => "SFloIsNeg"
  | .sfloIsPos => "SFloIsPos"
  | .sfloEQ => "SFloEQ"
  | .sfloNE => "SFloNE"
  | .sfloLT => "SFloLT"
  | .sfloLE => "SFloLE"
  | .sfloNegate => "SFloNegate"
  | .sfloPrev => "SFloPrev"
  | .sfloNext => "SFloNext"
  | .sfloPlus => "SFloPlus"
  | .sfloMinus => "SFloMinus"
  | .sfloTimes => "SFloTimes"
  | .sfloTimesPlus => "SFloTimesPlus"
  | .sfloDivide => "SFloDivide"
  | .sfloRPlus => "SFloRPlus"
  | .sfloRMinus => "SFloRMinus"
  | .sfloRTimes => "SFloRTimes"
  | .sfloRTimesPlus => "SFloRTimesPlus"
  | .sfloRDivide => "SFloRDivide"
  | .sfloDissemble => "SFloDissemble"
  | .sfloAssemble => "SFloAssemble"
  | .dflo0 => "DFlo0"
  | .dflo1 => "DFlo1"
  | .dfloMin => "DFloMin"
  | .dfloMax => "DFloMax"
  | .dfloEpsilon => "DFloEpsilon"
  | .dfloIsZero => "DFloIsZero"
  | .dfloIsNeg => "DFloIsNeg"
  | .dfloIsPos => "DFloIsPos"
  | .dfloEQ => "DFloEQ"
  | .dfloNE => "DFloNE"
  | .dfloLT => "DFloLT"
  | .dfloLE => "DFloLE"
  | .dfloNegate => "DFloNegate"
  | .dfloPrev => "DFloPrev"
  | .dfloNext => "DFloNext"
  | .dfloPlus => "DFloPlus"
  | .dfloMinus => "DFloMinus"
  | .dfloTimes => "DFloTimes"
  | .dfloTimesPlus => "DFloTimesPlus"
  | .dfloDivide => "DFloDivide"
  | .dfloRPlus => "DFloRPlus"
  | .dfloRMinus => "DFloRMinus"
  | .dfloRTimes => "DFloRTimes"
  | .dfloRTimesPlus => "DFloRTimesPlus"
  | .dfloRDivide => "DFloRDivide"
  | .dfloDissemble => "DFloDissemble"
  | .dfloAssemble => "DFloAssemble"
  | .byte0 => "Byte0"
  | .byte1 => "Byte1"
  | .byteMin => "ByteMin"
  | .byteMax => "ByteMax"
  | .hint0 => "HInt0"
  | .hint1 => "HInt1"
  | .hintMin => "HIntMin"
  | .hintMax => "HIntMax"
  | .sint0 => "SInt0"
  | .sint1 => "SInt1"
  | .sintMin => "SIntMin"
  | .sintMax => "SIntMax"
  | .sintIsZero => "SIntIsZero"
  | .sintIsNeg => "SIntIsNeg"
  | .sintIsPos => "SIntIsPos"
  | .sintIsEven => "SIntIsEven"
  | .sintIsOdd => "SIntIsOdd"
  | .sintEQ => "SIntEQ"
  | .sintNE => "SIntNE"
  | .sintLT => "SIntLT"
  | .sintLE => "SIntLE"
  | .sintNegate => "SIntNegate"
  | .sintPrev => "SIntPrev"
  | .sintNext => "SIntNext"
  | .sintPlus => "SIntPlus"
  | .sintMinus => "SIntMinus"
  | .sintTimes => "SIntTimes"
  | .sintTimesPlus => "SIntTimesPlus"
  | .sintMod => "SIntMod"
  | .sintQuo => "SIntQuo"
  | .sintRem => "SIntRem"
  | .sintDivide => "SIntDivide"
  | .sintGcd => "SIntGcd"
  | .sintPlusMod => "SIntPlusMod"
  | .sintMinusMod => "SIntMinusMod"
  | .sintTimesMod => "SIntTimesMod"
  | .sintTimesModInv => "SIntTimesModInv"
  | .sintLength => "SIntLength"
  | .sintShiftUp => "SIntShiftUp"
  | .sintShiftDn => "SIntShiftDn"
  | .sintBit => "SIntBit"
  | .sintNot => "SIntNot"
  | .sintAnd => "SIntAnd"
  | .sintOr => "SIntOr"
  | .sintXOr => "SIntXOr"
  | .sintHashCombine => "SIntHashCombine"
  | .wordTimesDouble => "WordTimesDouble"
  | .wordDivideDouble => "WordDivideDouble"
  | .wordPlusStep => "WordPlusStep"
  | .wordTimesStep => "WordTimesStep"
  | .bint0 => "BInt0"
  | .bint1 => "BInt1"
  | .bintIsZero => "BIntIsZero"
  | .bintIsNeg => "BIntIsNeg"
  | .bintIsPos => "BIntIsPos"
  | .bintIsEven => "BIntIsEven"
  | .bintIsOdd => "BIntIsOdd"
  | .bintIsSingle => "BIntIsSingle"
  | .bintEQ => "BIntEQ"
  | .bintNE => "BIntNE"
  | .bintLT => "BIntLT"
  | .bintLE => "BIntLE"
  | .bintNegate => "BIntNegate"
  | .bintPrev => "BIntPrev"
  | .bintNext => "BIntNext"
  | .bintPlus => "BIntPlus"
  | .bintMinus => "BIntMinus"
  | .bintTimes => "BIntTimes"
  | .bintTimesPlus => "BIntTimesPlus"
  | .bintMod => "BIntMod"
  | .bintQuo => "BIntQuo"
  | .bintRem => "BIntRem"
  | .bintDivide => "BIntDivide"
  | .bintGcd => "BIntGcd"
  | .bintSIPower => "BIntSIPower"
  | .bintBIPower => "BIntBIPower"
  | .bintPowerMod => "BIntPowerMod"
  | .bintLength => "BIntLength"
  | .bintShiftUp => "BIntShiftUp"
  | .bintShiftDn => "BIntShiftDn"
  | .bintShiftRem => "BIntShiftRem"
  | .bintBit => "BIntBit"
  | .ptrNil => "PtrNil"
  | .ptrIsNil => "PtrIsNil"
  | .ptrMagicEQ => "PtrMagicEQ"
  | .ptrEQ => "PtrEQ"
  | .ptrNE => "PtrNE"
  | .formatSFlo => "FormatSFlo"
  | .formatDFlo => "FormatDFlo"
  | .formatSInt => "FormatSInt"
  | .formatBInt => "FormatBInt"
  | .scanSFlo => "ScanSFlo"
  | .scanDFlo => "ScanDFlo"
  | .scanSInt => "ScanSInt"
  | .scanBInt => "ScanBInt"
  | .sfloToDFlo => "SFloToDFlo"
  | .dfloToSFlo => "DFloToSFlo"
  | .byteToSInt => "ByteToSInt"
  | .sintToByte => "SIntToByte"
  | .hintToSInt => "HIntToSInt"
  | .sintToHInt => "SIntToHInt"
  | .sintToBInt => "SIntToBInt"
  | .bintToSInt => "BIntToSInt"
  | .sintToSFlo => "SIntToSFlo"
  | .sintToDFlo => "SIntToDFlo"
  | .bintToSFlo => "BIntToSFlo"
  | .bintToDFlo => "BIntToDFlo"
  | .ptrToSInt => "PtrToSInt"
  | .sintToPtr => "SIntToPtr"
  | .arrToSFlo => "ArrToSFlo"
  | .arrToDFlo => "ArrToDFlo"
  | .arrToSInt => "ArrToSInt"
  | .arrToBInt => "ArrToBInt"
  | .platformRTE => "PlatformRTE"
  | .platformOS => "PlatformOS"
  | .halt => "Halt"
  | .roundZero => "RoundZero"
  | .roundNearest => "RoundNearest"
  | .roundUp => "RoundUp"
  | .roundDown => "RoundDown"
  | .roundDontCare => "RoundDontCare"
  | .sfloTruncate => "SFloTruncate"
  | .sfloFraction => "SFloFraction"
  | .sfloRound => "SFloRound"
  | .dfloTruncate => "DFloTruncate"
  | .dfloFraction => "DFloFraction"
  | .dfloRound => "DFloRound"
  | .stoForceGC => "StoForceGC"
  | .stoInHeap => "StoInHeap"
  | .stoIsWritable => "StoIsWritable"
  | .stoMarkObject => "StoMarkObject"
  | .stoRecode => "StoRecode"
  | .stoNewObject => "StoNewObject"
  | .stoATracer => "StoATracer"
  | .stoCTracer => "StoCTracer"
  | .stoShow => "StoShow"
  | .stoShowArgs => "StoShowArgs"
  | .typeInt8 => "TypeInt8"
  | .typeInt16 => "TypeInt16"
  | .typeInt32 => "TypeInt32"
  | .typeInt64 => "TypeInt64"
  | .typeInt128 => "TypeInt128"
  | .typeNil => "TypeNil"
  | .typeChar => "TypeChar"
  | .typeBool => "TypeBool"
  | .typeByte => "TypeByte"
  | .typeHInt => "TypeHInt"
  | .typeSInt => "TypeSInt"
  | .typeBInt => "TypeBInt"
  | .typeSFlo => "TypeSFlo"
  | .typeDFlo => "TypeDFlo"
  | .typeWord => "TypeWord"
  | .typeClos => "TypeClos"
  | .typePtr => "TypePtr"
  | .typeRec => "TypeRec"
  | .typeArr => "TypeArr"
  | .typeTR => "TypeTR"
  | .rawRepSize => "RawRepSize"
  | .sizeOfInt8 => "SizeOfInt8"
  | .sizeOfInt16 => "SizeOfInt16"
  | .sizeOfInt32 => "SizeOfInt32"
  | .sizeOfInt64 => "SizeOfInt64"
  | .sizeOfInt128 => "SizeOfInt128"
  | .sizeOfNil => "SizeOfNil"
  | .sizeOfChar => "SizeOfChar"
  | .sizeOfBool => "SizeOfBool"
  | .sizeOfByte => "SizeOfByte"
  | .sizeOfHInt => "SizeOfHInt"
  | .sizeOfSInt => "SizeOfSInt"
  | .sizeOfBInt => "SizeOfBInt"
  | .sizeOfSFlo => "SizeOfSFlo"
  | .sizeOfDFlo => "SizeOfDFlo"
  | .sizeOfWord => "SizeOfWord"
  | .sizeOfClos => "SizeOfClos"
  | .sizeOfPtr => "SizeOfPtr"
  | .sizeOfRec => "SizeOfRec"
  | .sizeOfArr => "SizeOfArr"
  | .sizeOfTR => "SizeOfTR"
  | .listNil => "ListNil"
  | .listEmptyP => "ListEmptyP"
  | .listHead => "ListHead"
  | .listTail => "ListTail"
  | .listCons => "ListCons"
  | .newExportTable => "NewExportTable"
  | .addToExportTable => "AddToExportTable"
  | .freeExportTable => "FreeExportTable"

open Signature in
def signature : Builtin → Signature
  | .boolFalse | .boolTrue => pureOp [] .bool
  | .boolNot => pureOp [.bool] .bool
  | .boolAnd | .boolOr | .boolEQ | .boolNE => pureOp [.bool, .bool] .bool
  | .charSpace | .charNewline | .charTab | .charMin | .charMax => pureOp [] .char
  | .charIsDigit | .charIsLetter => pureOp [.char] .bool
  | .charEQ | .charNE | .charLT | .charLE => pureOp [.char, .char] .bool
  | .charLower | .charUpper => pureOp [.char] .char
  | .charOrd => pureOp [.char] .sint
  | .charNum => pureOp [.sint] .char
  | .sflo0 | .sflo1 | .sfloMin | .sfloMax | .sfloEpsilon => pureOp [] .sflo
  | .sfloIsZero | .sfloIsNeg | .sfloIsPos => pureOp [.sflo] .bool
  | .sfloEQ | .sfloNE | .sfloLT | .sfloLE => pureOp [.sflo, .sflo] .bool
  | .sfloNegate | .sfloPrev | .sfloNext | .sfloFraction => pureOp [.sflo] .sflo
  | .sfloPlus | .sfloMinus | .sfloTimes | .sfloDivide => pureOp [.sflo, .sflo] .sflo
  | .sfloTimesPlus => pureOp [.sflo, .sflo, .sflo] .sflo
  | .sfloRPlus | .sfloRMinus | .sfloRTimes | .sfloRDivide => pureOp [.sflo, .sflo, .sint] .sflo
  | .sfloRTimesPlus => pureOp [.sflo, .sflo, .sflo, .sint] .sflo
  | .sfloDissemble => several [.sflo] [.bool, .sint, .word]
  | .sfloAssemble => pureOp [.bool, .sint, .word] .sflo
  | .dflo0 | .dflo1 | .dfloMin | .dfloMax | .dfloEpsilon => pureOp [] .dflo
  | .dfloIsZero | .dfloIsNeg | .dfloIsPos => pureOp [.dflo] .bool
  | .dfloEQ | .dfloNE | .dfloLT | .dfloLE => pureOp [.dflo, .dflo] .bool
  | .dfloNegate | .dfloPrev | .dfloNext | .dfloFraction => pureOp [.dflo] .dflo
  | .dfloPlus | .dfloMinus | .dfloTimes | .dfloDivide => pureOp [.dflo, .dflo] .dflo
  | .dfloTimesPlus => pureOp [.dflo, .dflo, .dflo] .dflo
  | .dfloRPlus | .dfloRMinus | .dfloRTimes | .dfloRDivide => pureOp [.dflo, .dflo, .sint] .dflo
  | .dfloRTimesPlus => pureOp [.dflo, .dflo, .dflo, .sint] .dflo
  | .dfloDissemble => several [.dflo] [.bool, .sint, .word, .word]
  | .dfloAssemble => pureOp [.bool, .sint, .word, .word] .dflo
  | .byte0 | .byte1 | .byteMin | .byteMax => pureOp [] .byte
  | .hint0 | .hint1 | .hintMin | .hintMax => pureOp [] .hint
  | .sint0 | .sint1 | .sintMin | .sintMax | .platformRTE | .platformOS | .roundZero
  | .roundNearest | .roundUp | .roundDown | .roundDontCare | .typeInt8 | .typeInt16
  | .typeInt32 | .typeInt64 | .typeInt128 | .typeNil | .typeChar | .typeBool | .typeByte
  | .typeHInt | .typeSInt | .typeBInt | .typeSFlo | .typeDFlo | .typeWord | .typeClos
  | .typePtr | .typeRec | .typeArr | .typeTR | .sizeOfInt8 | .sizeOfInt16 | .sizeOfInt32
  | .sizeOfInt64 | .sizeOfInt128 | .sizeOfNil | .sizeOfChar | .sizeOfBool | .sizeOfByte
  | .sizeOfHInt | .sizeOfSInt | .sizeOfBInt | .sizeOfSFlo | .sizeOfDFlo | .sizeOfWord
  | .sizeOfClos | .sizeOfPtr | .sizeOfRec | .sizeOfArr | .sizeOfTR => pureOp [] .sint
  | .sintIsZero | .sintIsNeg | .sintIsPos | .sintIsEven | .sintIsOdd => pureOp [.sint] .bool
  | .sintEQ | .sintNE | .sintLT | .sintLE | .sintBit => pureOp [.sint, .sint] .bool
  | .sintNegate | .sintPrev | .sintNext | .sintLength | .sintNot | .rawRepSize =>
      pureOp [.sint] .sint
  | .sintPlus | .sintMinus | .sintTimes | .sintMod | .sintQuo | .sintRem | .sintGcd
  | .sintShiftUp | .sintShiftDn | .sintAnd | .sintOr | .sintXOr | .sintHashCombine =>
      pureOp [.sint, .sint] .sint
  | .sintTimesPlus | .sintPlusMod | .sintMinusMod | .sintTimesMod =>
      pureOp [.sint, .sint, .sint] .sint
  | .sintDivide => several [.sint, .sint] [.sint, .sint]
  | .sintTimesModInv => pureOp [.sint, .sint, .sint, .dflo] .sint
  | .wordTimesDouble => several [.word, .word] [.word, .word]
  | .wordDivideDouble => several [.word, .word, .word] [.word, .word, .word]
  | .wordPlusStep => several [.word, .word, .word] [.word, .word]
  | .wordTimesStep => several [.word, .word, .word, .word] [.word, .word]
  | .bint0 | .bint1 => pureOp [] .bint
  | .bintIsZero | .bintIsNeg | .bintIsPos | .bintIsEven | .bintIsOdd | .bintIsSingle =>
      pureOp [.bint] .bool
  | .bintEQ | .bintNE | .bintLT | .bintLE => pureOp [.bint, .bint] .bool
  | .bintNegate | .bintPrev | .bintNext => pureOp [.bint] .bint
  | .bintPlus | .bintMinus | .bintTimes | .bintMod | .bintQuo | .bintRem | .bintGcd
  | .bintBIPower => pureOp [.bint, .bint] .bint
  | .bintTimesPlus | .bintPowerMod => pureOp [.bint, .bint, .bint] .bint
  | .bintDivide => several [.bint, .bint] [.bint, .bint]
  | .bintSIPower | .bintShiftUp | .bintShiftDn | .bintShiftRem => pureOp [.bint, .sint] .bint
  | .bintLength | .bintToSInt => pureOp [.bint] .sint
  | .bintBit => pureOp [.bint, .sint] .bool
  | .ptrNil | .listNil => pureOp [] .ptr
  | .ptrIsNil | .listEmptyP => pureOp [.ptr] .bool
  | .ptrMagicEQ | .ptrEQ | .ptrNE => pureOp [.ptr, .ptr] .bool
  | .formatSFlo => effectOp [.sflo, .arr, .sint] .sint
  | .formatDFlo => effectOp [.dflo, .arr, .sint] .sint
  | .formatSInt => effectOp [.sint, .arr, .sint] .sint
  | .formatBInt => effectOp [.bint, .arr, .sint] .sint
  | .scanSFlo => several [.arr, .sint] [.sflo, .sint]
  | .scanDFlo => several [.arr, .sint] [.dflo, .sint]
  | .scanSInt => several [.arr, .sint] [.sint, .sint]
  | .scanBInt => several [.arr, .sint] [.bint, .sint]
  | .sfloToDFlo => pureOp [.sflo] .dflo
  | .dfloToSFlo => pureOp [.dflo] .sflo
  | .byteToSInt => pureOp [.byte] .sint
  | .sintToByte => pureOp [.sint] .byte
  | .hintToSInt => pureOp [.hint] .sint
  | .sintToHInt => pureOp [.sint] .hint
  | .sintToBInt => pureOp [.sint] .bint
  | .sintToSFlo => pureOp [.sint] .sflo
  | .sintToDFlo => pureOp [.sint] .dflo
  | .bintToSFlo => pureOp [.bint] .sflo
  | .bintToDFlo => pureOp [.bint] .dflo
  | .ptrToSInt => pureOp [.ptr] .sint
  | .sintToPtr => pureOp [.sint] .ptr
  | .arrToSFlo => pureOp [.arr] .sflo
  | .arrToDFlo => pureOp [.arr] .dflo
  | .arrToSInt => pureOp [.arr] .sint
  | .arrToBInt => pureOp [.arr] .bint
  | .halt => effectOp [.sint] .word
  | .sfloTruncate => pureOp [.sflo] .bint
  | .sfloRound => pureOp [.sflo, .sint] .bint
  | .dfloTruncate => pureOp [.dflo] .bint
  | .dfloRound => pureOp [.dflo, .sint] .bint
  | .stoForceGC => effectOp [] .nop
  | .stoInHeap => effectOp [.ptr] .bool
  | .stoIsWritable | .stoMarkObject | .stoShowArgs => effectOp [.ptr] .sint
  | .stoRecode => effectOp [.ptr, .sint] .word
  | .stoNewObject => effectOp [.sint, .bool] .nop
  | .stoATracer => effectOp [.sint, .clos] .nop
  | .stoCTracer => effectOp [.sint, .word] .nop
  | .stoShow => effectOp [.sint] .nop
  | .listHead => pureOp [.ptr] .word
  | .listTail => pureOp [.ptr] .ptr
  | .listCons => pureOp [.word, .ptr] .ptr
  | .newExportTable => pureOp [.word, .sint] .word
  | .addToExportTable => effectOp [.word, .sint, .sint, .arr, .arr] .values
  | .freeExportTable => effectOp [.word] .values

theorem all_ordinal (b : Builtin) : all[b.ctorIdx]? = some b := by cases b <;> rfl

private theorem ctorIdx_allBuiltin : ∀ i : Fin all.length, (all[i]).ctorIdx = i.val := by
  decide +kernel

theorem ordinal_of_all (i : Nat) (a : Builtin) (h : all[i]? = some a) : a.ctorIdx = i := by
  obtain ⟨hi, rfl⟩ := List.getElem?_eq_some_iff.1 h
  exact ctorIdx_allBuiltin ⟨i, hi⟩

instance : Table Builtin where
  rows := all
  name := name
  ordinal := Builtin.ctorIdx
  rows_ordinal := all_ordinal
  ordinal_of_rows := ordinal_of_all

/-- Position in the table. -/
abbrev ordinal (b : Builtin) : Nat := Table.ordinal b

abbrev ofOrdinal? (n : Int) : Option Builtin := Table.ofOrdinal? n

abbrev ofName? (s : String) : Option Builtin := Table.ofName? s

def hasEffect (b : Builtin) : Bool := b.signature.hasEffect

def params (b : Builtin) : List Tag := b.signature.params

def result (b : Builtin) : Tag := b.signature.result

end Builtin

end Foam
