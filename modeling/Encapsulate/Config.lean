import Encapsulate.Accessors.Transform
import Encapsulate.Error
import Encapsulate.Json.Value

/-!
Run configurations. A configuration text is a stream of JSON documents, each a
section or a list of sections; a section names files, transforms and directories
for headers. A structure may be given as an object or as the list of its fields in
order, of which the last ones may be left out when they have defaults. Errors come
up in the order of the stream.
-/

namespace Encapsulate

open Accessors Json

/-- A transform with its parameters. -/
inductive Transform where
  | accessors (config : AccessorsConfig)
deriving DecidableEq, Repr

namespace Transform

def name : Transform → String
  | .accessors _ => "Accessors"

def accessorsNames : List String :=
  ["Accessors", "AccessorsTransform"]

def scopeOfWord? : String → Option UsageScope
  | "All" | "all" | "ALL" => some .all
  | "Main" | "main" | "MAIN" => some .main
  | _ => none

/-- A scope is a word, or an object whose only key is that word with nothing to it. -/
def scope? : Value → Option UsageScope
  | .string word => scopeOfWord? word
  | .object [(word, .null)] => scopeOfWord? word
  | _ => none

def scopeOr? : Option Value → Option UsageScope
  | none => some .all
  | some v => scope? v

def accessorsConfig? (params : Value) : Option AccessorsConfig :=
  match params.stringList? with
  | some fields => some { fields }
  | none =>
    match params with
    | .object members => do
      let fields ← (← members.lookup "Fields").stringList?
      return { fields, scope := ← scopeOr? (members.lookup "Scope") }
    | .array [fields] => do return { fields := ← fields.stringList? }
    | .array [fields, scope] => do
      return { fields := ← fields.stringList?, scope := ← scope? scope }
    | _ => none

def ofConfig (name : String) (params : Value) : Except Error Transform :=
  if accessorsNames.contains name then
    match accessorsConfig? params with
    | some config => .ok (.accessors config)
    | none => .error .invalidParameters
  else
    .error (.unknownTransform name)

def run : Transform → Cpp.SourceUnit → Except Error Outcome
  | .accessors config, u =>
    match Accessors.run config u with
    | .ok outcome => .ok outcome
    | .error e => .error (.splice e)

def ofConfigs : List (String × Value) → Except Error (List Transform)
  | [] => .ok []
  | (name, params) :: rest => do
    let t ← ofConfig name params
    return t :: (← ofConfigs rest)

end Transform

structure Section where
  /-- The files to transform; none stands for all files of the build. -/
  files : Option (List String) := none
  transforms : List (String × Value) := []
  includeDirs : List String := []

namespace Section

def hasTransforms (s : Section) : Bool :=
  !s.transforms.isEmpty

def filesOf? : Option Value → Option (Option (List String))
  | none | some .null => some none
  | some v => v.stringList?.map some

def transformsOf? : Option Value → Option (List (String × Value))
  | none => some []
  | some (.object members) => some members
  | some _ => none

def includeDirsOf? : Option Value → Option (List String)
  | none => some []
  | some v => v.stringList?

def ofFields? (files transforms includeDirs : Option Value) : Option Section := do
  return { files := ← filesOf? files
           transforms := ← transformsOf? transforms
           includeDirs := ← includeDirsOf? includeDirs }

def keys : List String :=
  ["Files", "Transforms", "IncludeDirs"]

/-- A section given as an object without other keys, or as a list of fields. -/
def ofValue? : Value → Option Section
  | .object members =>
    if members.all fun m => keys.contains m.1 then
      ofFields? (members.lookup "Files") (members.lookup "Transforms")
        (members.lookup "IncludeDirs")
    else none
  | .array items =>
    if items.length ≤ 3 then ofFields? items[0]? items[1]? items[2]? else none
  | _ => none

def ofValues : List Value → Except Error (List Section)
  | [] => .ok []
  | v :: vs =>
    match ofValue? v with
    | none => .error .invalidSection
    | some s => (ofValues vs).map (s :: ·)

def ofDocument (d : Document) : Except Error (List Section) :=
  match d.value? maxDepth with
  | none => .error .malformedJson
  | some (.array items) => ofValues items
  | some (.object members) => ofValues [.object members]
  | some .null => .ok []
  | some v => .error (.notSection v.renderScalar)

/-- The sections of a stream, up to the first fault. -/
def ofStream : List (Option Document) → Except Error (List Section)
  | [] => .ok []
  | none :: _ => .error .malformedJson
  | some d :: rest => do
    let sections ← ofDocument d
    return sections ++ (← ofStream rest)

def ofText (text : String) : Except Error (List Section) :=
  ofStream (Document.stream text)

def ofBytes (content : ByteArray) : Except Error (List Section) :=
  match String.fromUTF8? content with
  | some text => ofText text
  | none => .error (.unreadableConfig .notText)

end Section

end Encapsulate
