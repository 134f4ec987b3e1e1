import SsuComputer.Sindex.Directory

/-!
# SsuComputer.Sindex.ReadDirectory

`read_directory`, `get_directory_size` and `extract_name` of `ssu_sindex.c`.

* A directory is what `scandir` and `readdir` return for it; `access`, `opendir`, `scandir` and
  `lstat` do not fail.
* `none` is a write behind the end of `pathname` or of `filelist`.
* The list holds the records up to `list_index`, that of the original first.
-/

namespace SsuComputer
namespace Sindex

def BUFMAX : Nat := 1024
def PATHMAX : Nat := BUFMAX * 2

/-- `off_t` and `size_t`, which are compared by their 64 bits. -/
abbrev Off := BitVec 64

inductive Inode
  | dir (name : CString) (entries : List Inode)
  | reg (name : CString) (size : Off)
  | other (name : CString) (size : Off)

def Inode.name : Inode → CString
  | .dir name _ => name
  | .reg name _ => name
  | .other name _ => name

inductive FileType
  | regfile
  | directory
  deriving DecidableEq

structure Fileinfo where
  path : CString
  size : Off
  type : FileType
  depth : Int
  deriving DecidableEq

/-- `sprintf` into an array of `PATHMAX` characters. -/
def sprintf (path : CString) : Option CString := if path.length < PATHMAX then some path else none

def extractName (string : CString) : CString :=
  match strrchr '/' string with
  | some (_, filename) => filename
  | none => string

/-- The path of an entry, without a second slash behind that of the root directory. -/
def join (dirname name : CString) : CString :=
  if strcmp dirname ['/'] = 0 then dirname ++ name else pathname dirname name

mutual
/-- What an entry adds to the size of its directory. -/
def Inode.contribution (dirname : CString) : Inode → Option Off
  | .dir name entries =>
    if isDot name then some 0
    else (sprintf (pathname dirname name)).bind fun path => getDirectorySize path entries
  | .reg name size =>
    if isDot name then some 0 else (sprintf (pathname dirname name)).map fun _ => size
  | .other name size =>
    if isDot name then some 0 else (sprintf (pathname dirname name)).map fun _ => size

def getDirectorySize (dirname : CString) : List Inode → Option Off
  | [] => some 0
  | e :: es => (e.contribution dirname).bind fun a => (getDirectorySize dirname es).map (a + ·)
end

/-- The original, as `command_find` records it. -/
def originOf (filename : CString) : Inode → Option Fileinfo
  | .dir _ entries => (getDirectorySize filename entries).map (⟨filename, ·, .directory, -1⟩)
  | .reg _ size => some ⟨filename, size, .regfile, -1⟩
  | .other _ size => some ⟨filename, size, .regfile, -1⟩

section Search

variable (origin : Fileinfo)

/-- `filelist[list_index] = ...; list_index++`. -/
def addMatch (filelist : List Fileinfo) (f : Fileinfo) : Option (List Fileinfo) :=
  if filelist.length < BUFMAX then some (filelist ++ [f]) else none

def matchDirectory (depth : Nat) (path name : CString) (entries : List Inode)
    (filelist : List Fileinfo) : Option (List Fileinfo) :=
  if origin.type = .directory ∧ strcmp name (extractName origin.path) = 0 then
    (getDirectorySize path entries).bind fun size =>
      if size = origin.size then addMatch filelist ⟨path, size, .directory, depth⟩ else some filelist
  else some filelist

def matchFile (depth : Nat) (path name : CString) (size : Off) (filelist : List Fileinfo) :
    Option (List Fileinfo) :=
  if origin.type = .regfile ∧ strcmp name (extractName origin.path) = 0 ∧ size = origin.size then
    addMatch filelist ⟨path, size, .regfile, depth⟩
  else some filelist

mutual
/-- The body of the loop over the entries. -/
def Inode.visit (depth : Nat) (dirname : CString) : Inode → List Fileinfo → Option (List Fileinfo)
  | .dir name entries, filelist =>
    if isDot name then some filelist
    else (sprintf (join dirname name)).bind fun path =>
      -- the original is skipped, and with it what is in it
      if strcmp path origin.path = 0 then some filelist
      else (matchDirectory origin depth path name entries filelist).bind
        (readDirectory (depth + 1) path entries)
  | .reg name size, filelist =>
    if isDot name then some filelist
    else (sprintf (join dirname name)).bind fun path =>
      if strcmp path origin.path = 0 then some filelist
      else matchFile origin depth path name size filelist
  | .other name _, filelist =>
    if isDot name then some filelist
    else (sprintf (join dirname name)).map fun _ => filelist

def readDirectory (depth : Nat) (dirname : CString) :
    List Inode → List Fileinfo → Option (List Fileinfo)
  | [], filelist => some filelist
  | e :: es, filelist => (e.visit depth dirname filelist).bind (readDirectory depth dirname es)
end

end Search

end Sindex
end SsuComputer
