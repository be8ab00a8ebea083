import ResponseModels.Source.Path

/-! The files that schemas and documents are loaded from, as a value. A path is followed piece
by piece, and the first piece that leads nowhere decides why it cannot be read. -/
namespace ResponseModels

/-- Why a file could not be read. -/
inductive ReadFailure where
  | nulInName
  | notFound
  | notDirectory
  | isDirectory
  | nameTooLong
  | notText
  deriving DecidableEq, Repr

def ReadFailure.message : ReadFailure → String
  | .nulInName => "file name contained an unexpected NUL byte"
  | .notFound => "No such file or directory (os error 2)"
  | .notDirectory => "Not a directory (os error 20)"
  | .isDirectory => "Is a directory (os error 21)"
  | .nameTooLong => "File name too long (os error 36)"
  | .notText => "stream did not contain valid UTF-8"

/-- Files by their relative paths, with their bytes. Of two files with one path the later
counts. -/
structure Files where
  entries : List (SourcePath × ByteArray)

namespace Files

/-- How many bytes a name between two slashes may have. -/
def maxNameBytes : Nat := 255

/-- How many bytes a whole path may have. -/
def maxPathBytes : Nat := 4095

/-- Where a path has led so far: to the directory that holds the files or to something in it,
given by the names on the way, or to a directory that does not belong to it. -/
inductive Place where
  | inside (names : List String)
  | outside
  deriving DecidableEq, Repr

/-- The directory above a directory. -/
def Place.up : Place → Place
  | inside [] => outside
  | inside names => inside names.dropLast
  | outside => outside

/-- The names on the way to a file. -/
def namesOf (path : SourcePath) : List String :=
  path.components.filterMap fun
    | .name text => some text
    | _ => none

/-- The bytes of the file at the end of the given names. -/
def file? (files : Files) (names : List String) : Option ByteArray :=
  (files.entries.reverse.find? fun entry => namesOf entry.1 == names).map Prod.snd

/-- Does something stand at the end of the given names? What stands on the way to a file is a
directory. -/
def holds (files : Files) (names : List String) : Bool :=
  files.entries.any fun entry => names.isPrefixOf (namesOf entry.1)

/-- Does the place hold a file? -/
def isFile (files : Files) : Place → Bool
  | .inside names => (files.file? names).isSome
  | .outside => false

/-- Follow one piece of a path. Nothing lies below a file, not even the file itself. -/
def follow (files : Files) (place : Place) (piece : List Char) : Except ReadFailure Place :=
  if files.isFile place then .error .notDirectory
  else
    match SourcePath.Component.ofPiece? piece with
    | none => .ok place
    | some (.name text) =>
      if maxNameBytes < text.utf8ByteSize then .error .nameTooLong
      else
        match place with
        | .inside names =>
          if files.holds (names ++ [text]) then .ok (.inside (names ++ [text]))
          else .error .notFound
        | .outside => .error .notFound
    | some _ => .ok place.up

/-- Where a path leads. One that begins with a slash does not start at the files. -/
def locate (files : Files) (path : SourcePath) : Except ReadFailure Place :=
  let start := if path.components.head? = some .root then .outside else .inside []
  (Text.segments '/' path.text.toList).foldlM files.follow start

/-- Read a file. -/
def read (files : Files) (path : SourcePath) : Except ReadFailure String := do
  if path.text.contains '\x00' then throw .nulInName
  if path.text.isEmpty then throw .notFound
  if maxPathBytes < path.text.utf8ByteSize then throw .nameTooLong
  match (← files.locate path) with
  | .outside => throw .isDirectory
  | .inside names =>
    match files.file? names with
    | none => throw .isDirectory
    | some bytes =>
      match String.fromUTF8? bytes with
      | some text => return text
      | none => throw .notText

end Files

end ResponseModels
