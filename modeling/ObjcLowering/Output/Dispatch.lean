import ObjcLowering.Lowering.Lookup
import ObjcLowering.Lowering.Ownership
import ObjcLowering.Output.Files

namespace ObjcLowering.Output

open Lowering

def firstTableMethods (m : Module) : Table Name Method :=
  let methods := m.classes.values.flatMap fun c =>
    c.methods.filter fun method => method.dispatch == .table && !method.isClassMethod
  methods.foldl (fun t method =>
    if t.has method.selector then t else t.set method.selector method) {}

/-- Whether all that is written about the table of a selector is spelt by texts: the selector and the
types, and the names of the parameters. -/
def checkTable (selector : Name) (method : Method) : Except Fault String := do
  let name ← selector.textOr .unfit
  checkFunction { name := selector, returnType := method.returnType, params := method.params }
  method.params.forM fun p => discard (p.name.textOr .wrongValue)
  return name

def tableMethods (m : Module) : Except Fault (List (String × Method)) := do
  let methods := (firstTableMethods m).entries
  discard (Json.sorted (methods.map (·.1)))
  let methods ← (Json.sortBy (·.1) methods).mapM fun (selector, method) => do
    return (← checkTable selector method, method)
  if methods.any fun (selector, _) => selector = "dealloc" then m.classes.values.forM checkIvars
  return methods

def tableEntries (m : Module) (selector : String) : List (String × String) :=
  (byId m).filterMap fun c =>
    (implementingClass? m c selector).map fun impl => (c.name.plain, impl.name.plain)

def functionType (selector : String) : String := "OZ_fn_" ++ cSelector selector

def tableName (selector : String) : String := "OZ_PROTOCOL_RESOLVE_" ++ cSelector selector

def functionTypeDef (selector : String) (m : Method) : String :=
  "typedef " ++ m.returnType.cType ++ " (*" ++ functionType selector ++ ")("
    ++ Text.join ", " ("struct OZObject *" :: m.params.map (·.type.cType)) ++ ");"

def directMacro (selector : String) (entry : String × String) : String :=
  "#define OZ_IMPL_" ++ entry.1 ++ "_" ++ cSelector selector ++ "(self, ...)\t" ++ entry.2 ++ "_"
    ++ cSelector selector ++ "((struct " ++ entry.2 ++ " *)(self), ##__VA_ARGS__)"

def sendMacro (selector : String) (m : Method) : String :=
  "#define OZ_PROTOCOL_SEND_" ++ cSelector selector ++ "("
    ++ Text.join ", " ("obj" :: m.params.map (·.name.plain)) ++ ") " ++ tableName selector
    ++ "[((struct OZObject *)(obj))->_meta.class_id]("
    ++ Text.join ", " ("(struct OZObject *)(obj)" :: m.params.map fun p => s!"({p.name})")
    ++ ")"

def introspectionHeader : List String :=
  ["",
   "/* Class introspection tables */",
   "extern const char *const oz_class_names[OZ_CLASS_COUNT];",
   "extern const uint8_t oz_superclass_id[OZ_CLASS_COUNT];",
   "",
   "static inline const char *oz_name(uint8_t class_id)",
   "\x7b",
   "\treturn oz_class_names[class_id];",
   "\x7d",
   "",
   "static inline uint8_t oz_superclass(uint8_t class_id)",
   "\x7b",
   "\treturn oz_superclass_id[class_id];",
   "\x7d",
   "",
   "static inline bool oz_isKindOfClass(uint8_t class_id, uint8_t target_class_id)",
   "\x7b",
   "\tuint8_t cur = class_id;",
   "\twhile (cur != OZ_CLASS_COUNT) \x7b",
   "\t\tif (cur == target_class_id) \x7b",
   "\t\t\treturn true;",
   "\t\t\x7d",
   "\t\tcur = oz_superclass_id[cur];",
   "\t\x7d",
   "\treturn false;",
   "\x7d",
   ""]

def tableHeader (m : Module) (methods : List (String × Method)) : List String :=
  if methods.isEmpty then []
  else
    ["/* Protocol dispatch function pointer types */"]
      ++ (methods.map fun (s, method) => functionTypeDef s method)
      ++ ["", "/* Compile-time dispatch: OZ_IMPL macros map class x selector -> direct function */"]
      ++ (methods.flatMap fun (s, _) => (tableEntries m s).map (directMacro s))
      ++ ["",
        "/* Static dispatch: token concatenation resolves at compile time */",
        "#define OZ_SEND(cls, sel, self, ...) OZ_IMPL_##cls##_##sel((self), ##__VA_ARGS__)",
        "",
        "/* Const protocol dispatch tables (indexed by _meta.class_id) */"]
      ++ (methods.map fun (s, _) =>
        "extern const " ++ functionType s ++ " " ++ tableName s ++ "[OZ_CLASS_COUNT];")
      ++ ["",
        "/* OZ_PROTOCOL_SEND macros — polymorphic fallback, caller must ensure obj has no side effects */"]
      ++ (methods.map fun (s, method) => sendMacro s method)
      ++ [""]

def dispatchHeader (m : Module) (root : String) (itemPool : Int) : Except Fault String := do
  let methods ← tableMethods m
  return banner ++ unlines (
    ["#pragma once", "", "#include <stdint.h>", "#include <stdbool.h>"]
      ++ (if itemPool > 0 || !m.initializers.isEmpty then ["#include \"platform/oz_platform.h\""]
        else [])
      ++ ["", "#ifndef BOOL", "#define BOOL _Bool", "#endif"]
      ++ distinct (m.classes.values.flatMap (·.includes))
      ++ [""]
      ++ ((byId m).map fun c => s!"struct {c.name};")
      ++ ["", "typedef struct OZObject *id;", "", "enum oz_class_id_enum \x7b"]
      ++ ((byId m).map fun c => s!"\tOZ_CLASS_{c.name} = {c.id},")
      ++ ["\tOZ_CLASS_COUNT = " ++ toString m.classes.entries.length, "\x7d;"]
      ++ introspectionHeader
      ++ tableHeader m methods
      ++ ["", "void " ++ root ++ "_dispatch_free(struct " ++ root ++ " *obj);", ""]
      ++ (if itemPool > 0 then ["extern oz_mem_blocks_t oz_item_pool;", ""] else [])
      ++ ["/* OZLog — formatted logging with %@ object support */",
        "void OZLog(const char *fmt, ...);",
        "int _oz_get_log_precision(void);"])

def superId (m : Module) (c : ClassDecl) : String :=
  match (stated? c.superclass).filter m.classes.has with
  | some up => s!"OZ_CLASS_{up}"
  | none => "OZ_CLASS_COUNT"

def tableSource (m : Module) (selector : String) : List String :=
  ["", "const " ++ functionType selector ++ " " ++ tableName selector ++ "[OZ_CLASS_COUNT] = \x7b"]
    ++ ((tableEntries m selector).map fun (cls, impl) =>
      "\t[OZ_CLASS_" ++ cls ++ "] = (" ++ functionType selector ++ ")" ++ impl ++ "_"
        ++ cSelector selector ++ ",")
    ++ ["\x7d;"]

def heapSource : List String :=
  ["#ifdef OZ_HEAP_SUPPORT",
   "void *oz_heap_obj_alloc(struct OZHeap *heap, size_t size)",
   "\x7b",
   "\tif (heap) \x7b",
   "\t\treturn oz_heap_alloc_obj(&heap->_inner, heap, size);",
   "\t\x7d",
   "\treturn oz_sys_heap_alloc(size);",
   "\x7d",
   "",
   "void oz_heap_obj_free(void *obj)",
   "\x7b",
   "\tstruct oz_heap_hdr *hdr = (struct oz_heap_hdr *)",
   "\t\t((char *)obj - offsetof(struct oz_heap_hdr, obj));",
   "\tif (hdr->heap) \x7b",
   "\t\toz_heap_free_obj(&hdr->heap->_inner, obj);",
   "\t\x7d else \x7b",
   "\t\toz_sys_heap_free(obj);",
   "\t\x7d",
   "\x7d",
   "#endif"]

def initSource (m : Module) : List String :=
  if m.initializers.isEmpty then []
  else
    ["", "/* +initialize — auto-called before main() */"]
      ++ m.initializers.map fun c => s!"OZ_AUTO_INIT({c}_oz_auto_init, {c}_cls_initialize);"

def dispatchSource (m : Module) (root : String) (itemPool : Int) (hasHeap : Bool) :
    Except Fault String := do
  let classes := byId m
  let methods ← tableMethods m
  return banner ++ unlines (
    ["#include \"oz_dispatch.h\""]
      ++ (distinct (classes.map fileStem)).map includeHeader
      ++ ["", "const char *const oz_class_names[OZ_CLASS_COUNT] = \x7b"]
      ++ (classes.map fun c => s!"\t[OZ_CLASS_{c.name}] = \"{c.name}\",")
      ++ ["\x7d;", "", "const uint8_t oz_superclass_id[OZ_CLASS_COUNT] = \x7b"]
      ++ (classes.map fun c => s!"\t[OZ_CLASS_{c.name}] = " ++ superId m c ++ ",")
      ++ ["\x7d;"]
      ++ (methods.flatMap fun (s, _) => tableSource m s)
      ++ ["",
        "/* Weak default: returns -1 (no precision override).",
        " * OZLog.c provides the strong definition on Zephyr. */",
        "__attribute__((weak)) int _oz_get_log_precision(void) \x7b return -1; \x7d",
        "",
        "void " ++ root ++ "_dispatch_free(struct " ++ root ++ " *obj)",
        "\x7b",
        "\tswitch (obj->_meta.class_id) \x7b"]
      ++ (classes.map fun c =>
        s!"\tcase OZ_CLASS_{c.name}: {c.name}_free((struct {c.name} *)obj); break;")
      ++ ["\tdefault: break;", "\t\x7d", "\x7d"]
      ++ (if hasHeap then heapSource else [])
      ++ (if itemPool > 0 then
        ["", "OZ_MEM_BLOCKS_DEFINE(oz_item_pool, sizeof(struct " ++ root ++ " *), "
          ++ toString itemPool ++ ", 4);"] else [])
      ++ initSource m)

end ObjcLowering.Output
