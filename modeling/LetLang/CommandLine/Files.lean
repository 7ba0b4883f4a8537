/-!
# Files

The contents of files by their paths, and the ways in which reading a file can fail. A path is
read from the directory that holds the files, one component after the other.
-/

namespace LetLang

/-- Why a file cannot be read. -/
inductive ReadError where
  | notFound
  | notADirectory
  | isADirectory
  | nameTooLong
  | denied
  | notText
  | other (text : String)
  deriving DecidableEq

/-- The wording of an error. -/
def ReadError.message : ReadError → String
  | notFound => "No such file or directory (os error 2)"
  | notADirectory => "Not a directory (os error 20)"
  | isADirectory => "Is a directory (os error 21)"
  | nameTooLong => "File name too long (os error 36)"
  | denied => "Permission denied (os error 13)"
  | notText => "stream did not contain valid UTF-8"
  | other text => text

/-- Paths and contents of the files below one directory. The directories between are those
that the paths name. -/
abbrev Files := List (List String × ByteArray)

/-- The components of a path. A path that ends in a slash has an empty last component. -/
def components (path : String) : List String := path.splitOn "/"

namespace Files

/-- What a path stands for. -/
inductive Entry where
  | file (content : ByteArray)
  | directory
  | missing

/-- What stands under the given components. -/
def entry (files : Files) (place : List String) : Entry :=
  match files.lookup place with
  | some content => .file content
  | none =>
    if place.isEmpty || files.any fun f => place.isPrefixOf f.1 then .directory else .missing

/-- Follows components from the directory `place`. Above the directory of the files there are
only directories, and nothing is known below those. -/
def walk (files : Files) (place : List String) : List String → Except ReadError ByteArray
  | [] => .error .isADirectory
  | c :: rest =>
    if c = "" || c = "." then walk files place rest
    else if c = ".." then
      if place.isEmpty then outside rest else walk files place.dropLast rest
    else if c.utf8ByteSize > 255 then .error .nameTooLong
    else
      match files.entry (place ++ [c]) with
      | .file content => if rest.isEmpty then .ok content else .error .notADirectory
      | .directory => walk files (place ++ [c]) rest
      | .missing => .error .notFound
where
  /-- Follows components from a directory that does not hold the files. -/
  outside (rest : List String) : Except ReadError ByteArray :=
    if rest.all fun c => c = "" || c = "." || c = ".." then .error .isADirectory
    else .error .notFound

/-- The content of the file at a path. -/
def read (files : Files) (path : String) : Except ReadError ByteArray :=
  if path.utf8ByteSize ≥ 4096 then .error .nameTooLong
  else match components path with
    | [] | [""] => .error .notFound
    | "" :: rest => walk.outside rest
    | parts => walk files [] parts

end Files

/-- The text in a file. -/
def decodeText (content : ByteArray) : Except ReadError String :=
  match String.fromUTF8? content with
  | some s => .ok s
  | none => .error .notText

end LetLang
