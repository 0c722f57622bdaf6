import WasmInspect.Bytes

/-!
# Files and their names

A folder holds files under paths. `Folder.locate` follows a name step by step: a single dot stays, two dots go back, and a step
further leads on only from a folder. It says which path a name stands for, whether a file is there or not, so that two names of
one file are told by their paths. A `Disk` is all that the tool needs to know of the files around it.
-/

namespace WasmInspect.Cli

/-- Why a file cannot be opened. -/
inductive OpenError where
  /-- Nothing has that name. -/
  | missing
  /-- The name goes on behind a file. -/
  | notFolder
  /-- The name is a folder's. -/
  | isFolder
  /-- A step of the name, or all of it, is too long. -/
  | nameTooLong
  /-- The file may not be opened. -/
  | denied
  deriving DecidableEq

/-- The text of an open error. -/
def OpenError.message : OpenError → String
  | missing => "no such file or directory"
  | notFolder => "not a directory"
  | isFolder => "is a directory"
  | nameTooLong => "file name too long"
  | denied => "permission denied"

/-- The steps that lead to a file. -/
abbrev Path : Type := List String

/-- The files around the tool: where a name leads to, and what is there. -/
structure Disk where
  locate : String → Except OpenError Path
  read : Path → Except OpenError Bytes

namespace Disk

/-- The path at which a name can be written: that of a file, or one where nothing is yet. -/
def create (d : Disk) (name : String) : Except OpenError Path := do
  let path ← d.locate name
  match d.read path with
  | .ok _ => .ok path
  | .error .missing => .ok path
  | .error e => .error e

end Disk

/-- Files by their paths. -/
structure Folder where
  files : List (Path × Bytes)

namespace Folder

/-- The most bytes in one step of a name. -/
def stepLimit : Nat := 255

/-- The most bytes in a name. -/
def nameLimit : Nat := 4095

/-- The name of the device that is always empty. -/
def nullDevice : String := "/dev/null"

/-- Whether a folder is at a path: this one, one it lies in, or one on the way to a file. -/
def hasFolder (f : Folder) (p : Path) : Bool :=
  p.all (· = "..") || f.files.any fun file => p.length < file.1.length && p.isPrefixOf file.1

/-- One step back from a folder. -/
def back (p : Path) : Path := if p.all (· = "..") then p ++ [".."] else p.dropLast

/-- Follows steps from a path. -/
def walk (f : Folder) (here : Path) : List String → Except OpenError Path
  | [] => .ok here
  | step :: steps =>
    if !f.hasFolder here then .error (if (f.files.lookup here).isSome then .notFolder else .missing)
    else if step = "" || step = "." then f.walk here steps
    else if step = ".." then f.walk (back here) steps
    else if stepLimit < step.utf8ByteSize then .error .nameTooLong
    else f.walk (here ++ [step]) steps

/-- The path that a name stands for. Of what is at the root of all folders only the null device is known. -/
def locate (f : Folder) (name : String) : Except OpenError Path :=
  if name = "" then .error .missing
  else if nameLimit < name.utf8ByteSize then .error .nameTooLong
  else if name = nullDevice then .ok [nullDevice]
  else if name.startsWith "/" then .error .missing
  else f.walk [] (name.splitOn "/")

/-- The contents of the file at a path. -/
def read (f : Folder) (p : Path) : Except OpenError Bytes :=
  if p = [nullDevice] then .ok []
  else if f.hasFolder p then .error .isFolder
  else
    match f.files.lookup p with
    | some b => .ok b
    | none => .error .missing

/-- The folder as the files around the tool. -/
def disk (f : Folder) : Disk := ⟨f.locate, f.read⟩

/-- The folder of files under names. -/
def ofNames (files : List (String × Bytes)) : Folder :=
  ⟨files.map fun (name, b) => ((name.splitOn "/").filter fun step => step ≠ "" && step ≠ ".", b)⟩

end Folder

end WasmInspect.Cli
