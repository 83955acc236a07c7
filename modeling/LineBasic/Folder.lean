import LineBasic.Error
import LineBasic.Text.Lines

/-!
# Files of programs

A folder holds files by name. Reading a file gives its lines; the whole file has to be UTF-8 text.
-/
namespace LineBasic

inductive FileFault
  | missing
  | directory
  | nulInName
  | notText
  /-- Any other failure of the system, in its own words. -/
  | other (reason : String)
  deriving DecidableEq, Inhabited

/-- A missing file is an error of its own; all else is an internal error. -/
def FileFault.toError : FileFault → Error
  | missing => { kind := .fileNotFound, detail := "No such file or directory (os error 2)" }
  | directory => { kind := .internalError, detail := "Is a directory (os error 21)" }
  | nulInName =>
    { kind := .internalError, detail := "file name contained an unexpected NUL byte" }
  | notText => { kind := .internalError, detail := "stream did not contain valid UTF-8" }
  | other reason => { kind := .internalError, detail := reason }

def fileLines (contents : ByteArray) : Except FileFault (List String) :=
  match String.fromUTF8? contents with
  | some text => .ok ((Text.lines text.toList).map String.ofList)
  | none => .error .notText

structure Folder where
  files : List (String × ByteArray)
  deriving Inhabited

namespace Folder

/-- Reads the lines of a file. A dot is the folder itself, which has no lines. -/
def read (folder : Folder) (name : String) : Except FileFault (List String) :=
  match folder.files.lookup name with
  | some contents => fileLines contents
  | none =>
    if name = "." then .error .directory
    else if name.toList.contains '\x00' then .error .nulInName
    else .error .missing

end Folder

end LineBasic
