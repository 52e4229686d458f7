/-
# LoxSyntax.Session.Folder -- the files that a session can read

A folder holds files and empty folders by name. A path is followed one name at a time; what stands
outside the folder is known only to be there, and to be a folder, on the way up.

Reading fails in three ways: nothing stands at the path, a folder does, or the path goes on behind a
file. The bytes that are read are a source if they are UTF-8 throughout; every line end in it is made a
line feed.
-/
import LoxSyntax.Text.Newline
import LoxSyntax.Text.Quoted
import LoxSyntax.Text.Utf8

namespace LoxSyntax

/-- Why a path cannot be read. -/
inductive ReadFault where
  | missing
  | notFolder
  | isFolder
  deriving DecidableEq

namespace ReadFault

/-- The number of a fault among the errors of the system. -/
def number : ReadFault → Nat
  | missing => 2
  | notFolder => 20
  | isFolder => 21

def words : ReadFault → String
  | missing => "No such file or directory"
  | notFolder => "Not a directory"
  | isFolder => "Is a directory"

/-- A fault at a path, in words. -/
def text (fault : ReadFault) (path : String) : String :=
  "[Errno " ++ toString fault.number ++ "] " ++ fault.words ++ ": " ++ Text.quoted path

end ReadFault

/-- What stands under a name. -/
inductive Entry where
  | file (bytes : List UInt8)
  | folder

/-- Files and empty folders by name. -/
structure Folder where
  entries : List (String × Entry)

namespace Folder

/-- Where a path has led so far, as long as it is a folder. -/
inductive Place where
  /-- The folder itself. -/
  | here
  /-- One of the empty folders in it. -/
  | inside
  /-- A folder above it. -/
  | above

/-- Follows the names of a path from a place on. -/
def follow (folder : Folder) : Place → List String → Except ReadFault (List UInt8)
  | _, [] => .error .isFolder
  | place, name :: rest =>
    if name = "" ∨ name = "." then folder.follow place rest
    else if name = ".." then
      match place with
      | .inside => folder.follow .here rest
      | .here | .above => folder.follow .above rest
    else match place with
      | .inside | .above => .error .missing
      | .here =>
        match folder.entries.lookup name with
        | none => .error .missing
        | some .folder => folder.follow .inside rest
        | some (.file bytes) => if rest.isEmpty then .ok bytes else .error .notFolder

/-- The bytes of the file at a path. -/
def read (folder : Folder) (path : String) : Except ReadFault (List UInt8) :=
  if path = "" then .error .missing
  else if path.toList.head? = some '/' then folder.follow .above (path.splitOn "/")
  else folder.follow .here (path.splitOn "/")

end Folder

/-- The source that the bytes of a file hold. -/
def sourceOfBytes (bytes : List UInt8) : Except Text.Utf8.Fault String :=
  (Text.Utf8.decode bytes).map fun text => String.ofList (Text.unifyNewlines text)

end LoxSyntax
