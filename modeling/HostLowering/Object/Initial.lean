import HostLowering.Object.World

set_option autoImplicit false

/-! # The initial world

The builtin classes with their functions and static fields.
-/

namespace HostLowering.Object

/-- The builtin classes in the order of their places: name, host class and base. -/
def builtinClasses : List (String × String × Option ClassId) :=
  [("object", Library.objectClass, none),
    ("type", Library.typeClass, some .object),
    ("function", Library.functionClass, some .object),
    ("method", Library.boundFunctionClass, some .function),
    ("NoneType", Library.noneClass, some .object),
    ("NotImplementedType", Library.notImplementedClass, some .object),
    ("int", Library.intClass, some .object),
    ("bool", Library.boolClass, some .int),
    ("str", Library.strClass, some .object),
    ("tuple", Library.tupleClass, some .object),
    ("list", Library.listClass, some .object),
    ("dict", Library.dictClass, some .object),
    ("set", Library.setClass, some .object),
    ("slice", Library.sliceClass, some .object),
    ("BaseException", Library.baseExceptionClass, some .object),
    ("StopIteration", Library.stopIterationClass, some .baseException),
    ("generator", Library.generatorClass, some .object),
    ("Exception", "pyrt/Exception", some .baseException),
    ("TypeError", "pyrt/TypeError", some .exception),
    ("AttributeError", "pyrt/AttributeError", some .exception),
    ("ValueError", "pyrt/ValueError", some .exception),
    ("RuntimeError", "pyrt/RuntimeError", some .exception),
    ("IndexError", "pyrt/IndexError", some .exception),
    ("KeyError", "pyrt/KeyError", some .exception),
    ("iterator", "pyrt/SeqIterator", some .object)]

def builtinFunction (name : String) (params : List String) (b : Builtin)
    (varArgs : Bool := false) : Function :=
  { name, params, varArgs, body := .builtin b }

def ofSelf (name : String) (b : Builtin) : Function := builtinFunction name ["self"] b

/-- A builtin function of its receiver and another operand. -/
def ofOther (name : String) (b : Builtin) : Function := builtinFunction name ["self", "other"] b

def objectFunctions : List Function :=
  [ofSelf "__init__" .skip, ofOther "__eq__" (.identity false), ofOther "__ne__" (.identity true),
    ofSelf "__bool__" (.constant true),
    builtinFunction "__setattr__" ["self", "name", "value"] .setAttribute,
    builtinFunction "__delattr__" ["self", "name"] .deleteAttribute]

def intFunctions : List Function :=
  [.add, .sub, .mul].flatMap (fun (op : Arithmetic) =>
      [ofOther ("__" ++ op.stem ++ "__") (.arithmetic op false),
        ofOther ("__r" ++ op.stem ++ "__") (.arithmetic op true)])
    ++ [ofOther "__floordiv__" .floorDivide]
    ++ [.lt, .le, .gt, .ge, .eq, .ne].map (fun (c : Comparison) => ofOther c.method (.compare c))
    ++ [ofSelf "__neg__" .negate, ofSelf "__pos__" .positive, ofSelf "__bool__" .intTruth]

def strFunctions : List Function :=
  [ofOther "__add__" .concatText, ofSelf "__len__" .textLength, ofOther "__eq__" .textEqual,
    builtinFunction "__contains__" ["self", "item"] .textContains]

def sequenceFunctions : List Function :=
  [ofSelf "__len__" .sequenceLength, ofSelf "__iter__" .sequenceIterator,
    builtinFunction "__contains__" ["self", "item"] .sequenceContains,
    ofOther "__eq__" .sequenceEqual]

/-- The functions of sequences with an order of their own. -/
def orderedFunctions : List Function :=
  [builtinFunction "__getitem__" ["self", "index"] .sequenceItem, ofOther "__add__" .sequenceConcat]

def listFunctions : List Function :=
  [builtinFunction "__setitem__" ["self", "index", "value"] .setListItem,
    builtinFunction "__delitem__" ["self", "index"] .deleteListItem,
    builtinFunction "append" ["self", "item"] .appendItem]

def dictFunctions : List Function :=
  [builtinFunction "__getitem__" ["self", "key"] .dictItem,
    builtinFunction "__setitem__" ["self", "key", "value"] .setDictItem,
    builtinFunction "__delitem__" ["self", "key"] .deleteDictItem,
    builtinFunction "__contains__" ["self", "key"] .dictContains,
    ofSelf "__len__" .dictLength, ofSelf "__iter__" .dictIterator]

def generatorFunctions : List Function :=
  [ofSelf "__iter__" .self, ofSelf "__next__" .resumeNext,
    builtinFunction "send" ["self", "value"] .resumeSend,
    builtinFunction "throw" ["self", "exc"] .resumeThrow]

def builtinFunctions : List (ClassId × List Function) :=
  [(.object, objectFunctions), (.noneType, [ofSelf "__bool__" (.constant false)]),
    (.int, intFunctions), (.str, strFunctions),
    (.tuple, sequenceFunctions ++ orderedFunctions),
    (.list, sequenceFunctions ++ orderedFunctions ++ listFunctions),
    (.set, sequenceFunctions ++ [builtinFunction "add" ["self", "item"] .addItem]),
    (.dict, dictFunctions),
    (.baseException, [builtinFunction "__init__" ["self"] .setArguments true]),
    (.iterator, [ofSelf "__iter__" .self, ofSelf "__next__" .nextItem]),
    (.generator, generatorFunctions)]

namespace World

/-- The world with a function as an attribute of a class. -/
def addFunction (w : World) (c : ClassId) (f : Function) : World :=
  (w.push (.function f)).setAttribute c f.name (.object ⟨w.heap.size⟩)

/-- The world in which every program starts. Here the end of an iteration is an ordinary
exception. -/
def initial : World :=
  let w := builtinClasses.foldl
    (fun (w : World) (name, host, base) => (w.defineClass name host base).2) {}
  let w := w.changeClass .stopIteration fun i =>
    { i with lineage := .stopIteration :: w.lineage .exception }
  let w := (w.setStatic .noneType Library.noneField.name .none).setStatic .notImplementedType
    Library.notImplementedField.name .notImplemented
  let w := (w.setStatic .bool Library.trueField.name (.bool true)).setStatic .bool
    Library.falseField.name (.bool false)
  builtinFunctions.foldl (fun (w : World) (c, fs) => fs.foldl (fun w f => w.addFunction c f) w) w

end World

end HostLowering.Object
