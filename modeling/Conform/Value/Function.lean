namespace Conform

/-- What produces a deferred schema: the library, for the schema of schemas; a function without
captured state; or a closure, which its code alone does not determine. -/
inductive Producer where
  | metaSchema
  | function (name : String)
  | closure (code state : String)
  deriving DecidableEq

/-- The code of a producer. All closures of one code share it, whatever they have captured. -/
inductive Code where
  | metaSchema
  | function (name : String)
  | closure (code : String)
  deriving DecidableEq

namespace Producer

def code : Producer → Code
  | .metaSchema => .metaSchema
  | .function name => .function name
  | .closure code _ => .closure code

end Producer

/-- Whether producers of this code always make the same schema. -/
def Code.isStateless : Code → Bool
  | .closure _ => false
  | _ => true

/-- A schema that is produced when it is needed. Two deferred schemas are the same only if one
is a copy of the other, which their handles tell. -/
structure Deferred where
  producer : Producer
  handle : Nat
  deriving DecidableEq

/-- The body of a function: one of the calling program, the data form of a deferred schema, or
the check of option types. -/
inductive Body where
  | host (id : String)
  | dataForm (deferred : Deferred)
  | typeCheck
  deriving DecidableEq

structure Function where
  name : String
  arity : Nat
  body : Body
  deriving DecidableEq

namespace Function

def reference (f : Function) : String :=
  s!"{f.name}/{f.arity}"

def inspect (f : Function) : String :=
  s!"#Function<{f.reference}>"

end Function

end Conform
