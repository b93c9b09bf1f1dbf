import Mathlib.Logic.Function.Basic
import HybridStack.Lib.DepthFirst
import HybridStack.QuickJs.ModuleName

/-!
# Modules of an `ES6Module` (ES6Module.java, quickjs-jni.cpp:637-683, quickjs.c)

`executeModule` hands the script of a module to `JS_Eval`, which loads what it imports through
`getModuleScript`, links all of it and runs the bodies. A `JSModuleDef` is a number here, given out
once; `defs` is the memory and `loadedModules` says which of them have not been freed.

| here | there |
| --- | --- |
| `normalize` | `_JSModuleNormalizeFunc`: `Module.convertModuleName` |
| `hostResolve` | `js_host_resolve_imported_module`, quickjs.c:27327 |
| `moduleLoader` | `_JSModuleLoaderFunc` |
| `evalInternal` | `__JS_EvalInternal` for a module, up to its end if only compiled, quickjs.c:33577 |
| `resolveModule` | `js_resolve_module`, quickjs.c:27814 |
| `evaluation` | `js_evaluate_module`, quickjs.c:28293 |
| `executeModuleScript` | `JS_EvalFunctionInternal`, quickjs.c:33513 |

What the engine's parser finds, whether the bindings can be linked and what the body of a module
throws are parameters (`Host`); each is asked once for a module. A body that executes modules itself
is left out.
-/

namespace HybridStack.QuickJs.ES6Module

abbrev ModulePtr := Nat

/-- `JSModuleDef`. -/
structure ModuleDef (V : Type) where
  moduleName : String
  /-- `rme->module_name` of the `req_module_entries`. -/
  requests : List String := []
  /-- `rme->module`, as far as they are set. -/
  modules : List ModulePtr := []
  resolved : Bool := false
  evaluated : Bool := false
  evalMark : Bool := false
  /-- `eval_exception`, where `eval_has_exception`. -/
  evalException : Option V := none
  deriving DecidableEq

structure Host (V : Type) where
  getModuleScript : String → Option String
  /-- `js_parse_program`: the names imported from, as they stand in the source. -/
  parse : String → Option (List String)
  /-- `js_create_module_function` and `js_link_module`. -/
  links : ModulePtr → Bool
  /-- What the body throws. -/
  body : ModulePtr → Option V

structure Context (V : Type) where
  defs : ModulePtr → ModuleDef V
  next : ModulePtr := 0
  loadedModules : List ModulePtr := []
  /-- What `getModuleScript` has been asked for. -/
  scripts : List String := []
  /-- The bodies run so far. -/
  ran : List ModulePtr := []

variable {V : Type}

def initial : Context V := { defs := fun _ => { moduleName := "" } }

/-- `add_req_module_entry`. -/
def addReqModuleEntry (entries : List String) (name : String) : List String :=
  if name ∈ entries then entries else entries ++ [name]

def reqModuleEntries (specifiers : List String) : List String :=
  specifiers.foldl addReqModuleEntry []

def normalize (moduleBaseName moduleName : String) : Option String :=
  match convertModuleName (some moduleBaseName) (some moduleName) with
  | .ok result => result
  | .error _ => none

namespace Context

variable (ctx : Context V)

def modify (m : ModulePtr) (f : ModuleDef V → ModuleDef V) : Context V :=
  { ctx with defs := Function.update ctx.defs m (f (ctx.defs m)) }

/-- `js_new_module_def`. -/
def newModuleDef (moduleName : String) : Context V :=
  { ctx with
    defs := Function.update ctx.defs ctx.next { moduleName }
    next := ctx.next + 1
    loadedModules := ctx.loadedModules ++ [ctx.next] }

/-- `js_free_module_def`. -/
def freeModuleDef (m : ModulePtr) : Context V :=
  { ctx with loadedModules := ctx.loadedModules.erase m }

/-- `js_free_modules(ctx, JS_FREE_MODULE_NOT_EVALUATED)`. -/
def freeNotEvaluated : Context V :=
  { ctx with loadedModules := ctx.loadedModules.filter fun m => (ctx.defs m).evaluated }

/-- `rme->module = m1`, for the next of the requests of `m`. -/
def setModule (m m1 : ModulePtr) : Context V :=
  ctx.modify m fun d => { d with modules := d.modules ++ [m1] }

/-- `js_find_loaded_module`. -/
def findLoadedModule (name : String) : Option ModulePtr :=
  ctx.loadedModules.find? fun m => (ctx.defs m).moduleName = name

end Context

variable (H : Host V)

/-! ## Loading

A function that may load modules is given `resolve`, which is `js_resolve_module` with less fuel. The
result is `none` when the fuel runs out; the inner `none` is `NULL`. -/

section

variable (resolve : Context V → ModulePtr → Option (Bool × Context V))

def evalInternal (ctx : Context V) (source filename : String) :
    Option (Option ModulePtr × Context V) :=
  let m := ctx.next
  let ctx := ctx.newModuleDef filename
  match H.parse source with
  | none => some (none, ctx.freeModuleDef m)
  | some specifiers =>
    match resolve (ctx.modify m fun d => { d with requests := reqModuleEntries specifiers }) m with
    | none => none
    | some (false, ctx) => some (none, ctx.freeModuleDef m)
    | some (true, ctx) => some (some m, ctx)

def moduleLoader (ctx : Context V) (moduleName : String) :
    Option (Option ModulePtr × Context V) :=
  let ctx := { ctx with scripts := ctx.scripts ++ [moduleName] }
  match H.getModuleScript moduleName with
  | none => some (none, ctx)
  | some script => evalInternal H resolve ctx script moduleName

def hostResolve (ctx : Context V) (baseName name : String) :
    Option (Option ModulePtr × Context V) :=
  match normalize baseName name with
  | none => some (none, ctx)
  | some moduleName =>
    match ctx.findLoadedModule moduleName with
    | some m => some (some m, ctx)
    | none => moduleLoader H resolve ctx moduleName

/-- The loop over the `req_module_entries` of `m`. -/
def resolveRequests (m : ModulePtr) : List String → Context V → Option (Bool × Context V)
  | [], ctx => some (true, ctx)
  | name :: names, ctx =>
    match hostResolve H resolve ctx (ctx.defs m).moduleName name with
    | none => none
    | some (none, ctx) => some (false, ctx)
    | some (some m1, ctx) =>
      match resolve (ctx.setModule m m1) m1 with
      | none => none
      | some (false, ctx) => some (false, ctx)
      | some (true, ctx) => resolveRequests m names ctx

end

def resolveModule : Nat → Context V → ModulePtr → Option (Bool × Context V)
  | 0, _, _ => none
  | fuel + 1, ctx, m =>
    if (ctx.defs m).resolved then some (true, ctx)
    else
      resolveRequests H (resolveModule fuel) m (ctx.defs m).requests
        (ctx.modify m fun d => { d with resolved := true })

/-! ## Evaluation -/

/-- `JS_CallFree(ctx, m->func_obj, ...)`. -/
def callBody (m : ModulePtr) : Except V Unit :=
  match H.body m with
  | some e => .error e
  | none => .ok ()

def evaluation : DepthFirst.Walk ModulePtr V (Context V) where
  valid ctx m := m ∈ ctx.loadedModules
  skip ctx m :=
    if (ctx.defs m).evalMark then some (.ok ())
    else if (ctx.defs m).evaluated then
      match (ctx.defs m).evalException with
      | some e => some (.error e)
      | none => some (.ok ())
    else none
  enter ctx m := ctx.modify m fun d => { d with evalMark := true }
  children ctx m := (ctx.defs m).modules
  finish ctx m :=
    (callBody H m, { ctx.modify m fun d =>
      { d with evalException := H.body m, evalMark := false, evaluated := true } with
        ran := ctx.ran ++ [m] })
  abandon ctx m := ctx.modify m fun d => { d with evalMark := false }

def evaluateModule (fuel : Nat) (ctx : Context V) (m : ModulePtr) :
    Option (Except V Unit × Context V) :=
  DepthFirst.visit (evaluation H) fuel ctx m

/-- How a call ends. -/
inductive Executed (V : Type)
  | returned
  /-- The `RuntimeException` of `executeModule`. -/
  | scriptIsNull
  /-- A module is missing or is no module, or the bindings do not link. -/
  | notLinked
  | thrown (e : V)
  deriving DecidableEq

def executeModuleScript (fuel : Nat) (ctx : Context V) (source moduleName : String) :
    Option (Executed V × Context V) :=
  match evalInternal H (resolveModule H fuel) ctx source moduleName with
  | none => none
  | some (none, ctx) => some (.notLinked, ctx)
  | some (some m, ctx) =>
    if H.links m then
      match evaluateModule H fuel ctx m with
      | none => none
      | some (.ok (), ctx) => some (.returned, ctx)
      | some (.error e, ctx) => some (.thrown e, ctx.freeNotEvaluated)
    else some (.notLinked, ctx.freeNotEvaluated)

def executeModule (fuel : Nat) (ctx : Context V) (moduleName : String) :
    Option (Executed V × Context V) :=
  let ctx := { ctx with scripts := ctx.scripts ++ [moduleName] }
  match H.getModuleScript moduleName with
  | none => some (.scriptIsNull, ctx)
  | some script => executeModuleScript H fuel ctx script moduleName

end HybridStack.QuickJs.ES6Module
