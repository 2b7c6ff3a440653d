import ObjcLowering.Lowering.Lookup
import ObjcLowering.Lowering.Ownership
import ObjcLowering.Output.Files
import ObjcLowering.Output.FixedPoint
import ObjcLowering.Output.TypeDefs

namespace ObjcLowering.Output

open Lowering

structure HeaderInput where
  module : Module
  root : String
  itemPool : Int := 0
  hasHeap : Bool := false
  deriving Inhabited, Repr

def builtInIvars : List Name := ["_refcount", "oz_class_id", "_meta"]

def hasAtomicProperty (m : Module) : Bool :=
  m.classes.values.any fun c => c.properties.any fun p => !p.isNonatomic.holds

def baseFields (m : Module) (cls : ClassDecl) : List String :=
  if m.isRoot cls then
    ["\tstruct oz_metadata _meta;", "\toz_atomic_t _refcount;"]
      ++ (if hasAtomicProperty m then ["\toz_spinlock_t _oz_prop_lock;"] else [])
  else ["\tstruct " ++ (cls.superclass.getD "").plain ++ " base;"]

def ownIvars (m : Module) (cls : ClassDecl) : List Ivar :=
  cls.ivars.filter fun v => !(m.isRoot cls && builtInIvars.contains v.name)

def ownFields (m : Module) (cls : ClassDecl) : List String :=
  (ownIvars m cls).map fun v => "\t" ++ v.type.declare v.name ++ ";"

def structLines (m : Module) (cls : ClassDecl) : List String :=
  if cls.name = "OZSpinLock" then ["", "#include \"platform/oz_lock.h\""]
  else
    ["", s!"struct {cls.name} " ++ "\x7b"] ++ baseFields m cls ++ ownFields m cls ++ ["\x7d;"]

def repeatedTypeDefs (m : Module) (cls : ClassDecl) : Except Fault (List String) := do
  let verbatim := Text.join "\n" cls.headerVerbatim
  return (← headerTypeDefs m cls).filter fun definition =>
    cls.headerVerbatim.isEmpty || !(m.typeDefs.entries.any fun (key, d) =>
      d == definition && Text.has key verbatim)

def rootDeclarations (name : String) : List String :=
  let self := "struct " ++ name ++ " *"
  [self ++ name ++ "_retain(" ++ self ++ "self);",
   "void " ++ name ++ "_release(" ++ self ++ "self);",
   "uint32_t " ++ name ++ "_retainCount(" ++ self ++ "self);",
   "BOOL " ++ name ++ "_isEqual_(" ++ self ++ "self, " ++ self ++ "anObject);",
   "int " ++ name ++ "_cDescription_maxLength_(" ++ self ++ "self, char *buf, int maxLen);",
   "",
   "/* Refcount introspection — mirrors runtime __objc_refcount_get() */",
   "#define __objc_refcount_get(obj) ((unsigned int)oz_atomic_get(&((" ++ self
     ++ ")(obj))->_refcount))"]

def declaredMethods (input : HeaderInput) (cls : ClassDecl) : List Method :=
  cls.methods.filter fun (m : Method) =>
    !(input.module.isRoot cls && rootSelectors.contains m.selector)
      && !(m.selector = "allocWithHeap:" && input.hasHeap)

def isDealloc (m : Method) : Bool := m.selector = "dealloc"

def checkHeader (input : HeaderInput) (cls : ClassDecl) : Except Fault Unit := do
  (ownIvars input.module cls).forM fun v => discard v.type.checked
  let methods := declaredMethods input cls
  methods.forM checkMethod
  unless methods.any isDealloc do checkIvars cls

def declarations (input : HeaderInput) (cls : ClassDecl) : List String :=
  let methods := declaredMethods input cls
  let isMade := !methods.any isDealloc && hasDealloc input.module cls
  (if input.module.isRoot cls then rootDeclarations cls.name.plain else [])
    ++ (methods.map fun m => methodSignature cls m ++ ";")
    ++ (if isMade && cls.name != "OZSpinLock" then
      [s!"void {cls.name}_dealloc(struct {cls.name} *self);"] else [])
    ++ (cls.functions.filter fun f => !f.isStatic).map fun f => functionSignature f ++ ";"

def newObjectLines (name fields : String) (isOnHeap : Bool) : List String :=
  ["\tmemset(obj, 0, sizeof(struct " ++ name ++ "));",
   "\t" ++ fields ++ "_meta.class_id = OZ_CLASS_" ++ name ++ ";"]
    ++ (if isOnHeap then ["\t" ++ fields ++ "_meta.heap_allocated = 1;"] else [])
    ++ ["\toz_atomic_init(&" ++ fields ++ "_refcount, 1);", "\treturn obj;", "\x7d"]

def allocLines (name fields : String) : List String :=
  ["",
   "extern oz_slab_t oz_slab_" ++ name ++ ";",
   "",
   "static inline struct " ++ name ++ " *" ++ name ++ "_alloc(void)",
   "\x7b",
   "\tstruct " ++ name ++ " *obj;",
   "\tif (oz_slab_alloc(&oz_slab_" ++ name ++ ", (void **)&obj) != 0) \x7b",
   "\t\treturn (struct " ++ name ++ " *)0;",
   "\t\x7d"] ++ newObjectLines name fields false

def heapAllocLines (name fields : String) : List String :=
  ["",
   "#ifdef OZ_HEAP_SUPPORT",
   "static inline struct " ++ name ++ " *" ++ name ++ "_allocWithHeap_(struct OZObject *heap_obj)",
   "\x7b",
   "\tstruct " ++ name ++ " *obj = (struct " ++ name ++ " *)oz_heap_obj_alloc(",
   "\t\t(struct OZHeap *)heap_obj, sizeof(struct " ++ name ++ "));",
   "\tif (!obj) \x7b",
   "\t\treturn (struct " ++ name ++ " *)0;",
   "\t\x7d"] ++ newObjectLines name fields true ++ ["#endif"]

def freeLines (name fields : String) (hasHeap : Bool) : List String :=
  ["", "static inline void " ++ name ++ "_free(struct " ++ name ++ " *obj)", "\x7b"]
    ++ (if hasHeap then
      ["#ifdef OZ_HEAP_SUPPORT",
       "\tif (" ++ fields ++ "_meta.heap_allocated) \x7b",
       "\t\toz_heap_obj_free((void *)obj);",
       "\t\treturn;",
       "\t\x7d",
       "#endif"] else [])
    ++ ["\toz_slab_free(&oz_slab_" ++ name ++ ", (void *)obj);", "\x7d"]

def numberLines (name suffix type : String) (isFloat : Bool) : List String :=
  ["static inline struct " ++ name ++ " *" ++ name ++ "_" ++ suffix ++ "(" ++ type ++ " val)",
   "\x7b",
   "\tstruct " ++ name ++ " *obj = " ++ name ++ "_alloc();",
   "\tif (!obj) \x7b",
   "\t\treturn (struct " ++ name ++ " *)0;",
   "\t\x7d"]
    ++ (if isFloat then
      ["\tobj->_shift = _oz_shift_for_float(val);",
       "\tif (obj->_shift >= 31) \x7b",
       "\t\tobj->_raw = (int32_t)(val * 0.5f);",
       "\t\x7d else \x7b",
       "\t\tobj->_raw = (int32_t)(val * (float)(1UL << (31 - obj->_shift)));",
       "\t\x7d"]
      else
      ["\tobj->_shift = _oz_shift_for_int32((int32_t)val);",
       "\tobj->_raw = (int32_t)((int32_t)val << (31 - obj->_shift));"])
    ++ ["\treturn obj;", "\x7d", ""]

def numberClassLines (name : String) : List String :=
  FixedPoint.helpers ++ numberLines name "fixedWithInt32_" "int32_t" false
    ++ numberLines name "fixedWithFloat_" "float" true
    ++ numberLines name "fixedWithBool_" "int8_t" false

def lockClassLines (root : String) : List String :=
  ["",
   "static inline struct OZSpinLock *OZSpinLock_initWithObject(struct OZSpinLock *self,",
   "\tstruct " ++ root ++ " *obj)",
   "\x7b",
   "\t" ++ root ++ "_retain(obj);",
   "\tself->_obj = (struct " ++ root ++ " *)obj;",
   "\tself->_key = oz_spin_lock(&self->_lock);",
   "\treturn self;",
   "\x7d",
   "",
   "static inline void OZSpinLock_dealloc(struct OZSpinLock *self)",
   "\x7b",
   "\toz_spin_unlock(&self->_lock, self->_key);",
   "\t" ++ root ++ "_release((struct " ++ root ++ " *)self->_obj);",
   "\tOZSpinLock_free(self);",
   "\x7d",
   ""]

def arrayClassLines (name root : String) : List String :=
  ["",
   "static inline struct " ++ name ++ " *" ++ name ++ "_initWithItems(",
   "\tstruct " ++ root ++ " **src, unsigned int count)",
   "\x7b",
   "\tstruct " ++ name ++ " *arr = " ++ name ++ "_alloc();",
   "\tif (!arr) \x7b",
   "\t\treturn (struct " ++ name ++ " *)0;",
   "\t\x7d",
   "\tstruct " ++ root ++ " **items;",
   "\tif (oz_mem_blocks_alloc_contiguous(&oz_item_pool, count,",
   "\t\t\t\t\t    (void **)&items) != 0) \x7b",
   "\t\t" ++ name ++ "_free(arr);",
   "\t\treturn (struct " ++ name ++ " *)0;",
   "\t\x7d",
   "\tfor (unsigned int i = 0; i < count; i++) \x7b",
   "\t\titems[i] = src[i];",
   "\t\x7d",
   "\tarr->_items = items;",
   "\tarr->_count = count;",
   "\treturn arr;",
   "\x7d",
   ""]

def dictionaryClassLines (name root : String) : List String :=
  ["",
   "static inline struct " ++ name ++ " *" ++ name ++ "_initWithKeysValues(",
   "\tstruct " ++ root ++ " **kv_src, unsigned int count)",
   "\x7b",
   "\tstruct " ++ name ++ " *dict = " ++ name ++ "_alloc();",
   "\tif (!dict) \x7b",
   "\t\treturn (struct " ++ name ++ " *)0;",
   "\t\x7d",
   "\tstruct " ++ root ++ " **buf;",
   "\tif (oz_mem_blocks_alloc_contiguous(&oz_item_pool, count * 2,",
   "\t\t\t\t\t    (void **)&buf) != 0) \x7b",
   "\t\t" ++ name ++ "_free(dict);",
   "\t\treturn (struct " ++ name ++ " *)0;",
   "\t\x7d",
   "\tfor (unsigned int i = 0; i < count; i++) \x7b",
   "\t\tbuf[i] = kv_src[i];",
   "\t\tbuf[count + i] = kv_src[count + i];",
   "\t\x7d",
   "\tdict->_keys = buf;",
   "\tdict->_values = buf + count;",
   "\tdict->_count = count;",
   "\treturn dict;",
   "\x7d",
   ""]

def foundationLines (input : HeaderInput) (cls : ClassDecl) : List String :=
  match cls.name.text? with
  | some "OZQ31" => numberClassLines "OZQ31"
  | some "OZSpinLock" => lockClassLines input.root
  | some "OZArray" => if input.itemPool > 0 then arrayClassLines "OZArray" input.root else []
  | some "OZDictionary" =>
    if input.itemPool > 0 then dictionaryClassLines "OZDictionary" input.root else []
  | _ => []

def accessorLines (a : InlineAccessor) : List String :=
  let params := ("struct " ++ a.cls ++ " *self") :: a.params.map fun (type, name) => type ++ " " ++ name
  ["",
   "static inline " ++ a.returnType ++ " " ++ inlineName a.cls (cSelector a.selector) a.suffix ++ "("
     ++ Text.join ", " params ++ ")",
   "\x7b"] ++ a.body.map ("\t" ++ ·) ++ ["\x7d"]

def headerIncludes (m : Module) (cls : ClassDecl) : List String :=
  ["#pragma once", "", "#include \"platform/oz_platform.h\"", "#include \"oz_dispatch.h\"",
   "#include <string.h>"]
    ++ ((m.parent? cls).map fun up => includeHeader (fileStem up)).toList
    ++ cls.includes

def classHeader (input : HeaderInput) (cls : ClassDecl) : Except Fault String := do
  let m := input.module
  checkHeader input cls
  let typeDefs ← repeatedTypeDefs m cls
  let name := cls.name.plain
  let fields := rootFields m cls.name
  return banner ++ unlines (
    headerIncludes m cls
      ++ (cls.headerVerbatim.flatMap fun line => ["", line])
      ++ (typeDefs.flatMap fun definition => ["", definition])
      ++ structLines m cls
      ++ [""]
      ++ declarations input cls
      ++ allocLines name fields
      ++ (if input.hasHeap then heapAllocLines name fields else [])
      ++ freeLines name fields input.hasHeap
      ++ foundationLines input cls
      ++ (inlineAccessors.filter fun a => .text a.cls == cls.name).flatMap accessorLines)

end ObjcLowering.Output
