import ObjcLowering.Lowering.Lookup
import ObjcLowering.Target.Code

namespace ObjcLowering.Lowering

def getterBody (type ivar lock : String) (isAtomic : Bool) : List Code :=
  if isAtomic then
    [.line 1 (type ++ " val = \x7b0\x7d;"),
     .line 1 ("OZ_SPINLOCK(&" ++ lock ++ ") \x7b"),
     .assign 2 "val" ("self->" ++ ivar),
     .line 1 "\x7d",
     .returns 1 (some "val")]
  else [.returns 1 (some ("self->" ++ ivar))]

def strongSetterBody (root type ivar lock param : String) (isAtomic : Bool) : List Code :=
  if isAtomic then
    [.line 1 (type ++ " old = \x7b0\x7d;"),
     .retain 1 root param,
     .line 1 ("OZ_SPINLOCK(&" ++ lock ++ ") \x7b"),
     .assign 2 "old" ("self->" ++ ivar),
     .assign 2 ("self->" ++ ivar) param,
     .line 1 "\x7d",
     .release 1 root "old"]
  else
    [.line 1 (type ++ " old = self->" ++ ivar ++ ";"),
     .assign 1 ("self->" ++ ivar) param,
     .retain 1 root param,
     .release 1 root "old"]

def plainSetterBody (ivar lock param : String) (isAtomic : Bool) : List Code :=
  if isAtomic then
    [.line 1 ("OZ_SPINLOCK(&" ++ lock ++ ") \x7b"),
     .assign 2 ("self->" ++ ivar) param,
     .line 1 "\x7d"]
  else [.assign 1 ("self->" ++ ivar) param]

def accessorBody (m : Module) (root : String) (cls : ClassDecl) (p : Property)
    (params : List Param) : Code :=
  let ivar := (p.ivar.getD .null).plain
  let lock := propertyLock m cls
  let isAtomic := !p.isNonatomic.holds
  .block 0 <| match params with
    | [] => getterBody p.type.cType ivar lock isAtomic
    | param :: _ =>
      if p.type.isObject && p.ownership = "strong" then
        strongSetterBody root p.type.cType ivar lock param.name.plain isAtomic
      else plainSetterBody ivar lock param.name.plain isAtomic

end ObjcLowering.Lowering
