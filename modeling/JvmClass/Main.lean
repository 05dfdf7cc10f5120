import JvmClass.Assembly.ClassBuilder
import JvmClass.CommandLine

/-!
# The program

Carries out a command line: collects the superclasses of the class path, reads the class file, and
writes the result. Class files of the class path that cannot be read are reported and passed over.
-/

namespace JvmClass

/-- The bytes of a file. -/
def readBytes (entry : IO.FS.DirEntry) : IO Bytes := do
  return (← IO.FS.readBinFile entry.path).data

/-- Records the superclasses of the class files in and below a directory. -/
partial def addDirectory (directory : IO.FS.DirEntry) (known : Superclasses) : IO Superclasses := do
  let mut known := known
  for entry in ← directory.path.readDir do
    if ← entry.path.isDir then known ← addDirectory entry known
    else if entry.path.extension == some "class" then
      match known.addClassFile (← readBytes entry) with
      | .ok more => known := more
      | .error fault => IO.eprintln s!"skipping '{entry.path}': {fault.message}"
  return known

/-- Carries out a command line; the answer is the failure, if there is one. -/
def CommandLine.execute (c : CommandLine) : IO (Except ClassError Unit) := do
  let mut known := Superclasses.empty
  for directory in c.classPath do
    known ← addDirectory ⟨directory, "."⟩ known
  let data : Bytes := (← IO.FS.readBinFile c.input).data
  match ClassImage.parse data with
  | .error fault => return .error fault
  | .ok image =>
    match reencode image c.skip c.compute c.freshPool known.hierarchy with
    | .error fault => return .error fault
    | .ok out =>
      IO.FS.writeBinFile (c.output.getD c.input) ⟨out⟩
      return .ok ()

end JvmClass

def main (arguments : List String) : IO UInt32 := do
  match JvmClass.CommandLine.parse arguments with
  | .error fault =>
    IO.eprintln s!"error: {fault.message}"
    return 2
  | .ok c =>
    match ← c.execute with
    | .error fault =>
      IO.eprintln s!"error: {fault.message}"
      return 1
    | .ok _ => return 0
