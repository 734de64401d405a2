import HostLowering.Machine.Reference

set_option autoImplicit false

/-! # Names of the runtime library

The host classes, methods and static fields that lowered code refers to. The lowering emits
these references and the object world implements them, so both sides agree on descriptors.
-/

namespace HostLowering.Library

open Machine

/-! ## Host classes -/

/-- The interface of every value. -/
def objectClass : String := "pyrt/Object"
def typeClass : String := "pyrt/Type"
/-- The interface of every callable; types are callables too. -/
def functionClass : String := "pyrt/Function"
def boundFunctionClass : String := "pyrt/BoundFunction"
def noneClass : String := "pyrt/None"
def notImplementedClass : String := "pyrt/NotImplemented"
def boolClass : String := "pyrt/Bool"
def intClass : String := "pyrt/Int"
def strClass : String := "pyrt/Str"
def tupleClass : String := "pyrt/Tuple"
def listClass : String := "pyrt/List"
def dictClass : String := "pyrt/Dict"
def setClass : String := "pyrt/Set"
def sliceClass : String := "pyrt/Slice"
def baseExceptionClass : String := "pyrt/BaseException"
def stopIterationClass : String := "pyrt/StopIteration"
def generatorClass : String := "pyrt/Generator"
def errorsClass : String := "pyrt/Errors"
def helpersClass : String := "pyrt/Runtime"

/-! ## Objects and calls -/

def getType : MethodRef := ⟨objectClass, "$getType", [], typeClass, true⟩

/-- Attribute lookup that raises when the attribute is missing. -/
def getAttributeOrError : MethodRef :=
  ⟨objectClass, "$getAttributeOrError", ["string"], objectClass, true⟩

/-- Attribute lookup that gives null when the attribute is missing. -/
def getAttributeOrNull : MethodRef :=
  ⟨objectClass, "$getAttributeOrNull", ["string"], objectClass, true⟩

/-- The uniform call: positional list, keyword dict or null, and the instance of the caller. -/
def call : MethodRef :=
  ⟨functionClass, "$call", [listClass, dictClass, objectClass], objectClass, true⟩

def boundFunctionInit : MethodRef :=
  ⟨boundFunctionClass, "<init>", [objectClass, functionClass], "void", false⟩

def boundFunctionInstance : MethodRef := ⟨boundFunctionClass, "getInstance", [], objectClass, false⟩

/-- The nearest type in the base chain that declares a name, or null. -/
def getDefiningTypeOrNull : MethodRef :=
  ⟨typeClass, "getDefiningTypeOrNull", ["string"], typeClass, false⟩

def isInstance : MethodRef := ⟨typeClass, "isInstance", [objectClass], "boolean", false⟩

def typeName : MethodRef := ⟨typeClass, "getTypeName", [], "string", false⟩

/-- Lookup of a protocol method on a type that raises, naming the type, when it is missing. -/
def getDunderOrError : MethodRef := ⟨typeClass, "$getDunderOrError", ["string"], objectClass, false⟩

/-! ## Values -/

def boolValueOf : MethodRef := ⟨boolClass, "valueOf", ["boolean"], boolClass, false⟩
def intValueOf : MethodRef := ⟨intClass, "valueOf", ["long"], intClass, false⟩
def strValueOf : MethodRef := ⟨strClass, "valueOf", ["string"], strClass, false⟩

def noneField : FieldRef := ⟨noneClass, "INSTANCE", noneClass⟩
def notImplementedField : FieldRef := ⟨notImplementedClass, "INSTANCE", notImplementedClass⟩
def trueField : FieldRef := ⟨boolClass, "TRUE", boolClass⟩
def falseField : FieldRef := ⟨boolClass, "FALSE", boolClass⟩

/-- The static field of a truth value. -/
def boolField (b : Bool) : FieldRef := if b then trueField else falseField

/-- The static field holding the type object of a host class. -/
def typeObject (hostClass : String) : FieldRef := ⟨hostClass, "$TYPE", typeClass⟩

/-! ## Collections -/

def collectionInit (hostClass : String) : MethodRef := ⟨hostClass, "<init>", ["int"], "void", false⟩

/-- Prepend a value to a sequence, or add it to a set. Moving values off the operand stack into
it leaves them in stack order. -/
def reverseAdd (hostClass : String) : MethodRef :=
  ⟨hostClass, "reverseAdd", [objectClass], "void", false⟩

def listAdd : MethodRef := ⟨listClass, "add", [objectClass], "void", false⟩
def listExtend : MethodRef := ⟨listClass, "extend", [objectClass], "void", false⟩
/-- The item at an index; negative indices count from the end. -/
def listGet : MethodRef := ⟨listClass, "get", ["int"], objectClass, false⟩
def listSize : MethodRef := ⟨listClass, "size", [], "int", false⟩
/-- A new list without a number of leading and of trailing items. -/
def listCut : MethodRef := ⟨listClass, "cut", ["int", "int"], listClass, false⟩
def dictPut : MethodRef := ⟨dictClass, "put", [objectClass, objectClass], "void", false⟩
def sliceInit : MethodRef :=
  ⟨sliceClass, "<init>", [objectClass, objectClass, objectClass], "void", false⟩

/-! ## Exceptions and helpers -/

def stopIterationValue : MethodRef := ⟨stopIterationClass, "getValue", [], objectClass, false⟩
def setCause : MethodRef :=
  ⟨baseExceptionClass, "$setCause", [objectClass], baseExceptionClass, false⟩
def coerceToType : MethodRef :=
  ⟨helpersClass, "coerceToType", [objectClass, typeClass], objectClass, false⟩
def currentTraceback : MethodRef := ⟨helpersClass, "currentTraceback", [], objectClass, false⟩

/-- A static factory of an exception. -/
def errorFactory (name : String) (params : List String) : MethodRef :=
  ⟨errorsClass, name, params, baseExceptionClass, false⟩

def unsupportedOperandsError : MethodRef :=
  errorFactory "unsupportedOperands" ["string", objectClass, objectClass]
def noAttributeError : MethodRef := errorFactory "noAttribute" [objectClass, "string"]
def unpackTooFewError : MethodRef := errorFactory "unpackTooFew" ["int", "int"]
def unpackTooManyError : MethodRef := errorFactory "unpackTooMany" ["int"]
def unpackTooFewStarredError : MethodRef := errorFactory "unpackTooFewStarred" ["int", "int"]
def notSupportedError : MethodRef := errorFactory "notSupported" [objectClass, "string"]

/-! ## Generator frames -/

def yieldedValue : FieldRef := ⟨generatorClass, "yieldedValue", objectClass⟩
def generatorStack : FieldRef := ⟨generatorClass, "generatorStack", listClass⟩
def generatorState : FieldRef := ⟨generatorClass, "generatorState", "int"⟩
def yieldFromIterator : FieldRef := ⟨generatorClass, "yieldFromIterator", objectClass⟩
def sentValue : FieldRef := ⟨generatorClass, "sentValue", objectClass⟩
def thrownValue : FieldRef := ⟨generatorClass, "thrownValue", baseExceptionClass⟩

def stateStart : Int := 0

/-- The state of a generator that has returned. -/
def stateFinished : Int := -1

end HostLowering.Library
