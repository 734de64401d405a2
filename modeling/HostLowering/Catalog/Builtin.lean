import HostLowering.Catalog.Registry

set_option autoImplicit false

/-! # Builtin types

The types every registry starts with, and the signatures of those of their methods that direct
calls may use.
-/

namespace HostLowering.Catalog

open Machine

/-- A builtin method: all are called on their receiver and have plain parameters. -/
def builtinMethod (host : String) (owner : TypeRef) (name : String) (returns : TypeRef × String)
    (params : List (String × TypeRef × String)) : String × Signature :=
  (name, {
    owner := some owner
    name
    method := ⟨host, name, params.map (·.2.2), returns.2, false⟩
    params := params.map fun p => { name := p.1, type := some p.2.1 }
    returns := some returns.1 })

def mayDecline (m : String × Signature) : String × Signature :=
  (m.1, { m.2 with mayNotImplement := true })

def builtinType (name host : String) (base : Option TypeRef)
    (methods : Table String Signature := []) : String × TypeInfo :=
  (name, { name, host, base, methods })

/-- The types every registry starts with. -/
def builtinTypes : Table String TypeInfo :=
  let object := (objectType, Library.objectClass)
  let int := (intType, Library.intClass)
  let bool := (boolType, Library.boolClass)
  let str := (strType, Library.strClass)
  let none := (noneType, Library.noneClass)
  let ofObject := builtinMethod Library.objectClass objectType
  let ofInt := builtinMethod Library.intClass intType
  let ofStr := builtinMethod Library.strClass strType
  let ofTuple := builtinMethod Library.tupleClass tupleType
  let ofList := builtinMethod Library.listClass listType
  let ofDict := builtinMethod Library.dictClass dictType
  [ builtinType "object" Library.objectClass Option.none
      [mayDecline (ofObject "__eq__" object [("other", object)]),
        mayDecline (ofObject "__ne__" object [("other", object)])],
    builtinType "type" Library.typeClass objectType,
    builtinType "function" Library.functionClass objectType,
    builtinType "method" Library.boundFunctionClass functionType,
    builtinType "NoneType" Library.noneClass objectType,
    builtinType "NotImplementedType" Library.notImplementedClass objectType,
    builtinType "int" Library.intClass objectType
      (["__add__", "__sub__", "__mul__"].map (fun n => ofInt n int [("other", int)])
        ++ ["__lt__", "__le__", "__gt__", "__ge__"].map (fun n => ofInt n bool [("other", int)])
        ++ [mayDecline (ofInt "__eq__" object [("other", object)]), ofInt "__neg__" int [],
          ofInt "__bool__" bool []]),
    builtinType "bool" Library.boolClass intType,
    builtinType "str" Library.strClass objectType
      [ofStr "__add__" str [("other", str)], ofStr "__len__" int [],
        mayDecline (ofStr "__eq__" object [("other", object)])],
    builtinType "tuple" Library.tupleClass objectType
      [ofTuple "__getitem__" object [("index", int)], ofTuple "__len__" int []],
    builtinType "list" Library.listClass objectType
      [ofList "__getitem__" object [("index", int)], ofList "__len__" int [],
        ofList "__contains__" bool [("item", object)], ofList "append" none [("item", object)]],
    builtinType "dict" Library.dictClass objectType
      [ofDict "__getitem__" object [("key", object)], ofDict "__contains__" bool [("key", object)]],
    builtinType "set" Library.setClass objectType,
    builtinType "slice" Library.sliceClass objectType,
    builtinType "BaseException" Library.baseExceptionClass objectType,
    builtinType "StopIteration" Library.stopIterationClass baseExceptionType,
    builtinType "generator" Library.generatorClass objectType ]

def Registry.builtin : Registry := { types := builtinTypes }

end HostLowering.Catalog
