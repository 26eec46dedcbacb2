import Encapsulate.Cpp.Code.Table
import Encapsulate.Cpp.Decl.Reading

/-!
Source files: text together with the declarations read from it. A unit is the
file to be changed with the headers that are known to it; headers are only read.
-/

namespace Encapsulate.Cpp

structure SourceFile where
  path : String
  source : List Char
  decls : List Decl
  /-- Quoted includes in order of appearance. -/
  includes : List String
  /-- Whether the parser met errors somewhere in the file. -/
  hasErrors : Bool

namespace SourceFile

def ofParsed (path : String) (source : List Char) (parsed : Parsed) : SourceFile :=
  { path, source
    decls := Decl.readItems source [] parsed.tree.children
    includes := includesOfItems source parsed.tree.children
    hasErrors := parsed.hasErrors }

def text (f : SourceFile) (span : Span) : String :=
  Text.sliceString f.source span

def records (f : SourceFile) : List Record :=
  Decl.recordsOf f.decls

def functions (f : SourceFile) : List Function :=
  Decl.functionsOf f.decls

def globals (f : SourceFile) : List (String × Var) :=
  Decl.globalsOf f.decls

def codes (f : SourceFile) : List Code :=
  Decl.codesOf f.decls

def findRecord (f : SourceFile) (qualifiedName : String) : Option Record :=
  f.records.find? (·.qualifiedName == qualifiedName)

end SourceFile

structure SourceUnit where
  primary : SourceFile
  headers : List SourceFile := []

def SourceUnit.files (u : SourceUnit) : List SourceFile :=
  u.primary :: u.headers

end Encapsulate.Cpp
