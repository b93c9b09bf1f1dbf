import Mathlib.Data.List.Basic

/-!
# `Module.convertModuleName` (Module.java:14-68)

The functions of `String` and `List` it calls work on lists of characters here; each can be handed
an index that is out of its bounds, and says so. All of them look at `/` and `.` only, which are
single units of a Java string.

| here | there |
| --- | --- |
| `replaceSlashes` | `replace("//", "/")`, one pass from the left |
| `dropDotSlash` | `if (s.startsWith("./")) s = s.substring(2)` |
| `split` | `split("/")`: trailing empty strings are removed |
| `climb` | the `while` over leading `..`, lines 42-50 |
| `joinStacks` | the `StringBuilder`, lines 54-66 |
-/

namespace HybridStack.QuickJs

/-- A `String` of Java, null or not. -/
abbrev Name := Option String

/-- A call with an index outside its bounds. -/
inductive IndexError
  /-- `moduleName.charAt(0)`. -/
  | charAt
  /-- `parentStack.remove(parentStack.size() - 1)`. -/
  | remove
  /-- `builder.deleteCharAt(builder.length() - 1)`. -/
  | deleteCharAt
  deriving DecidableEq, Repr

namespace ModuleName

def replaceSlashes : List Char → List Char
  | '/' :: '/' :: cs => '/' :: replaceSlashes cs
  | c :: cs => c :: replaceSlashes cs
  | [] => []

def dropDotSlash : List Char → List Char
  | '.' :: '/' :: cs => cs
  | cs => cs

/-- What stands before, between and after the slashes. -/
def pieces : List Char → List (List Char)
  | [] => [[]]
  | c :: cs =>
    if c = '/' then [] :: pieces cs
    else
      match pieces cs with
      | p :: ps => (c :: p) :: ps
      | [] => [[c]]

/-- A string without a slash is left as it is, the empty one too. -/
def split (cs : List Char) : List (List Char) :=
  if '/' ∈ cs then ((pieces cs).reverse.dropWhile List.isEmpty).reverse else [cs]

/-- `(parentStack, pathStack)` after the loop. -/
def climb : List (List Char) → List (List Char) →
    Except IndexError (List (List Char) × List (List Char))
  | parentStack, [] => .ok (parentStack, [])
  | parentStack, tmp :: pathStack =>
    if tmp = ['.', '.'] then
      if parentStack.isEmpty then .error .remove else climb parentStack.dropLast pathStack
    else .ok (parentStack, tmp :: pathStack)

/-- `builder`, without its last character. -/
def joinStacks (absolute : Bool) (parentStack pathStack : List (List Char)) :
    Except IndexError (List Char) :=
  let builder := (if absolute then ['/'] else []) ++
    (parentStack ++ pathStack).flatMap fun it => it ++ ['/']
  if builder.isEmpty then .error .deleteCharAt else .ok builder.dropLast

/-- Lines 31-67: neither name is absolute or empty. -/
def resolve (moduleBaseName moduleName : List Char) : Except IndexError (List Char) :=
  if moduleBaseName = ['/'] then .ok ('/' :: moduleName)
  else if moduleBaseName.getLast? = some '/' then .ok (moduleBaseName ++ moduleName)
  else
    match climb (split moduleBaseName) (split moduleName) with
    | .error e => .error e
    | .ok (parentStack, pathStack) =>
      -- `if (!parentStack.isEmpty()) parentStack.remove(parentStack.size() - 1)`
      joinStacks (moduleBaseName.head? = some '/') parentStack.dropLast pathStack

/-- The whole function on a module name that is not empty. -/
def convert (moduleBaseName : Option (List Char)) (moduleName : List Char) :
    Except IndexError (List Char) :=
  let moduleName := dropDotSlash (replaceSlashes moduleName)
  match moduleName with
  | [] => .error .charAt
  | c :: _ =>
    if c = '/' then .ok moduleName
    else
      match moduleBaseName with
      | none | some [] => .ok moduleName
      | some moduleBaseName => resolve (dropDotSlash (replaceSlashes moduleBaseName)) moduleName

end ModuleName

open ModuleName in
def convertModuleName (moduleBaseName moduleName : Name) : Except IndexError Name :=
  match moduleName with
  | none => .ok none
  | some moduleName =>
    if moduleName.toList.isEmpty then .ok (some moduleName)
    else
      match convert (moduleBaseName.map String.toList) moduleName.toList with
      | .error e => .error e
      | .ok cs => .ok (some (String.ofList cs))

end HybridStack.QuickJs
