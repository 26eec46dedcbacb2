import Encapsulate.Cpp.ClassIndex

/-!
Which record an expression belongs to. Variables are looked up in the open block
scopes from the inside out, then among the fields of `this`, then in the
enclosing namespaces. A name that is bound but whose type is not a known record
hides every outer binding. The class of a larger expression follows from its
parts; where nothing is known the answer is none.
-/

namespace Encapsulate.Cpp

/-- What is known of a unit outside of any function body. -/
structure Symbols where
  index : ClassIndex
  /-- Variables outside of functions, with the record of their type. -/
  globals : List (String × Option String)
  /-- Functions that are not members, with the record they return. -/
  functions : List (String × Option String)

namespace Symbols

def globalsOf (index : ClassIndex) (f : SourceFile) : List (String × Option String) :=
  f.globals.map fun (name, v) =>
    let scope := (Name.segments name.toList).dropLast.map String.ofList
    (name, index.resolveValueType v.type.base scope)

def functionsOf (index : ClassIndex) (f : SourceFile) : List (String × Option String) :=
  (f.functions.filter (·.record.isNone)).map fun g =>
    (g.qualifiedName, g.resultType.bind fun t => index.resolveValueType t.base g.scope)

def ofUnit (u : SourceUnit) : Symbols :=
  let index := ClassIndex.ofUnit u
  ⟨index, u.files.flatMap (globalsOf index), u.files.flatMap (functionsOf index)⟩

end Symbols

/-- The names in force at a place of a function body. -/
structure Env where
  /-- Open blocks, innermost first; the latest declaration of a block comes first. -/
  scopes : List (List (String × Option String)) := []
  thisClass : Option String := none
  /-- Enclosing namespaces and records of the function, outermost first. -/
  path : List String := []
deriving DecidableEq, Repr

namespace Env

def pushScope (env : Env) : Env :=
  { env with scopes := [] :: env.scopes }

def popScope (env : Env) : Env :=
  { env with scopes := env.scopes.tail }

/-- Binds a name in the innermost block. A deduced type is that of the initializer. -/
def declare (env : Env) (symbols : Symbols) (name : String) (type : TypeRef)
    (initClass : Option String) : Env :=
  let known := if type.isAuto then initClass
    else symbols.index.resolveValueType type.base env.path
  match env.scopes with
  | [] => env
  | scope :: outer => { env with scopes := ((name, known) :: scope) :: outer }

def enter (symbols : Symbols) (f : Function) : Env :=
  let thisClass := f.record.bind fun r => symbols.index.resolveType r f.scope
  let path := match thisClass.bind symbols.index.get? with
    | some r => r.innerScope
    | none => f.scope
  let env : Env := { scopes := [[]], thisClass, path }
  (Binding.vars f.params).foldl (fun e p => e.declare symbols p.name p.type none) env

/-- What a name is bound to in a list of qualified names, seen from the innermost
enclosing namespace outwards. -/
def lookupNamespace (env : Env) (names : List (String × Option String)) (name : String) :
    Option (Option String) :=
  (Name.candidates env.path (Name.withoutGlobal name)).findSome? fun candidate =>
    names.lookup candidate

def lookupLocal (env : Env) (name : String) : Option (Option String) :=
  env.scopes.findSome? fun scope => scope.lookup name

def implicitField (env : Env) (symbols : Symbols) (name : String) : Option (Record × Field) :=
  env.thisClass.bind fun record => symbols.index.lookupField record name

def lookupGlobal (env : Env) (symbols : Symbols) (name : String) : Option String :=
  (env.lookupNamespace symbols.globals name).getD none

def lookup (env : Env) (symbols : Symbols) (name : String) : Option String :=
  if Name.isQualified name then env.lookupGlobal symbols name
  else
    match env.lookupLocal name with
    | some known => known
    | none =>
      match env.implicitField symbols name with
      | some (owner, field) => symbols.index.fieldClass owner field
      | none => env.lookupGlobal symbols name

/-- Functions whose result has the class of their argument. -/
def forwarding : List String :=
  ["std::move", "std::forward", "move", "forward"]

def implicitMethod (env : Env) (symbols : Symbols) (name : String) : Option String :=
  env.thisClass.bind fun record =>
    if !Name.isQualified name && (symbols.index.lookupMethod record name).isSome then some record
    else none

/-- The class of a call by name: of a method, a free function or a constructor.
`argument` is the class of the first argument. -/
def callClass (env : Env) (symbols : Symbols) (name : String) (argument : Option String) :
    Option String :=
  if forwarding.contains name then argument
  else
    match env.implicitMethod symbols name with
    | some record => symbols.index.methodClass record name
    | none =>
      match env.lookupNamespace symbols.functions name with
      | some known => known
      | none => symbols.index.resolveType name env.path

mutual

def classOf (env : Env) (symbols : Symbols) : Code → Option String
  | .node i cs =>
    match i.shape with
    | .identifier name => env.lookup symbols name
    | .this => env.thisClass
    | .paren | .subscript | .unary .deref => classOfFirst env symbols cs
    | .member _ field =>
      (classOfFirst env symbols cs).bind fun record =>
        (symbols.index.lookupField record field).bind fun (owner, f) =>
          symbols.index.fieldClass owner f
    | .call => classOfCall env symbols cs
    | .conditional => classOfBranches env symbols cs
    | .comma => classOfRight env symbols cs
    | _ => none

def classOfFirst (env : Env) (symbols : Symbols) : List Code → Option String
  | [] => none
  | c :: _ => classOf env symbols c

def classOfBranches (env : Env) (symbols : Symbols) : List Code → Option String
  | [] => none
  | c :: cs =>
    if c.info.role == .condition then classOfBranches env symbols cs
    else (classOf env symbols c).orElse fun _ => classOfBranches env symbols cs

def classOfRight (env : Env) (symbols : Symbols) : List Code → Option String
  | [] => none
  | c :: cs =>
    if c.info.role == .right then classOf env symbols c else classOfRight env symbols cs

def classOfCall (env : Env) (symbols : Symbols) : List Code → Option String
  | [] => none
  | callee :: args => classOfCallee env symbols (classOfFirst env symbols args) callee

def classOfCallee (env : Env) (symbols : Symbols) (argument : Option String) :
    Code → Option String
  | .node i cs =>
    match i.shape with
    | .paren => classOfCalleeFirst env symbols argument cs
    | .member _ field =>
      (classOfFirst env symbols cs).bind fun record => symbols.index.methodClass record field
    | .identifier name => env.callClass symbols name argument
    | _ => none

def classOfCalleeFirst (env : Env) (symbols : Symbols) (argument : Option String) :
    List Code → Option String
  | [] => none
  | c :: _ => classOfCallee env symbols argument c

end

def elementClass (env : Env) (symbols : Symbols) (range : Code) : Option String :=
  match range.shape with
  | .group => classOfFirst env symbols range.children
  | _ => classOf env symbols range

def resolveMember (env : Env) (symbols : Symbols) (c : Code) : Option Field :=
  match c.shape with
  | .member _ field =>
    (classOfFirst env symbols c.children).bind fun record =>
      (symbols.index.lookupField record field).map fun (_, f) => f
  | _ => none

end Env

end Encapsulate.Cpp
