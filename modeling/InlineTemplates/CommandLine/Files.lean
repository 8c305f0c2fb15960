import InlineTemplates.CommandLine.FileName
import InlineTemplates.Text.Quoted

/-!
# Files

What a run reads, and where it writes. A folder of known files tells for each name what is there.
-/

namespace InlineTemplates

namespace CommandLine

/-- Why a file cannot be read. -/
inductive ReadFault where
  | missing
  | isDirectory
  | notDirectory
  | nameTooLong
deriving DecidableEq, Inhabited

namespace ReadFault

def text : ReadFault → Text
  | missing => "No such file or directory"
  | isDirectory => "Is a directory"
  | notDirectory => "Not a directory"
  | nameTooLong => "File name too long"

/-- The number by which the operating system knows the fault. -/
def number : ReadFault → Nat
  | missing => 2
  | notDirectory => 20
  | isDirectory => 21
  | nameTooLong => 36

/-- The fault with its number and the file. -/
def described (f : ReadFault) (file : Text) : Text :=
  "[Errno " ++ Text.ofNat f.number ++ "] " ++ f.text ++ ": " ++ file.quoted

end ReadFault

/-- The files of a run. -/
structure Files where
  /-- The text of a file, or why there is none. -/
  read : Text → Except ReadFault Text
  /-- The file that is written under a name, if there can be one. -/
  target? : Text → Option Text

/-! ## Folders -/

/-- A folder of files. Each file is at a path, the names on the way down to it. -/
structure Folder where
  files : List (List Text × Text)

namespace Folder

/-- The folder of files with these names. -/
def ofNames (files : List (Text × Text)) : Folder := ⟨files.map fun e => (FileName.steps e.1, e.2)⟩

/-- What is in the file at a path. -/
def file? (f : Folder) (path : List Text) : Option Text := f.files.lookup path

/-- All that is outside the folder, as seen from it. -/
def outside : List Text := [".."]

/-- Whether a path leads to a directory. -/
def hasDirectory (f : Folder) (path : List Text) : Bool :=
  path.isEmpty || path == outside || f.files.any fun e => path.isPrefixOf e.1 && path != e.1

/-- The path one step further. -/
def step (path : List Text) (name : Text) : List Text :=
  if name != ".." then path ++ [name]
  else if path.isEmpty || path == outside then outside
  else path.dropLast

/-- The longest name of a file, in bytes. -/
def nameLimit : Nat := 255

/-- The longest way through directories, in bytes. -/
def wayLimit : Nat := 4095

/-- The path to which names lead from another path. All names but the last are those of
directories. -/
def walk (f : Folder) (path : List Text) : List Text → Except ReadFault (List Text)
  | [] => .ok path
  | name :: rest =>
    if (f.file? path).isSome then .error .notDirectory
    else if !f.hasDirectory path then .error .missing
    else if nameLimit < name.utf8Size then .error .nameTooLong
    else f.walk (step path name) rest

/-- The path to which a name leads. -/
def find (f : Folder) (name : Text) : Except ReadFault (List Text) :=
  if wayLimit < name.utf8Size then .error .nameTooLong
  else f.walk (if (FileName.root name).isEmpty then [] else outside) (FileName.steps name)

/-- What is in the file with a name. -/
def read (f : Folder) (name : Text) : Except ReadFault Text := do
  let path ← f.find name
  match f.file? path with
  | some t => return t
  | none => throw (if f.hasDirectory path then .isDirectory else .missing)

/-- The file that is written under a name. It need not be there, but its directory has to be. -/
def target? (f : Folder) (name : Text) : Option Text :=
  match f.find name with
  | .error _ => none
  | .ok path => if f.hasDirectory path then none else some (Text.join "/" path)

/-- Whether a file of the folder is new or another one when it holds `t`. -/
def changes (f : Folder) (name t : Text) : Bool :=
  let path := FileName.steps name
  !outside.isPrefixOf path && f.file? path != some t

/-- The files of a run that starts in the folder. -/
def toFiles (f : Folder) : Files := ⟨f.read, f.target?⟩

end Folder

end CommandLine

end InlineTemplates
