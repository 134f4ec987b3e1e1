import SsuComputer.Lib.Paths

/-!
# SsuComputer.Index.FindFiles

`find_files`, `get_same_file` and `path_to_fname` of `my_find.c`, `my_file.c` and `slicing.c`.

* A node carries what `stat` and `realpath` give for it; `file` is anything but a directory.
* `Root.listing` is what `scandir` returns for the path of the root, in its order.
* The record of a file leaves out the handle; the record at index 0 is that of the original file.
* `findFiles` is the search with arrays without an end; in `findFilesInBuffers` the writes behind the
  end of `temp_str`, `buffer` and `found_files` are `none`.
-/

namespace SsuComputer
namespace Index

inductive Node
  | file (name : CString) (size : Nat) (real : CString)
  | dir (name : CString) (size : Nat) (real : CString) (entries : List Node)

def Node.name : Node → CString
  | .file name _ _ => name
  | .dir name _ _ _ => name

def Node.size : Node → Nat
  | .file _ size _ => size
  | .dir _ size _ _ => size

def Node.real : Node → CString
  | .file _ _ real => real
  | .dir _ _ real _ => real

def isDotName (name : CString) : Bool := name = ['.'] || name = ['.', '.']

structure Root where
  path : CString
  entries : List Node
  listing : List CString
  listed : (listing.filter fun n => !isDotName n).Perm (entries.map Node.name)

def lookup : List Node → List CString → Option Node
  | _, [] => none
  | es, [n] => es.find? fun e => e.name = n
  | es, n :: ns =>
    match es.find? fun e => e.name = n with
    | some (.dir _ _ _ entries) => lookup entries ns
    | _ => none

/-- `stat` of a path that starts with that of the root. -/
def Root.stat (r : Root) (path : CString) : Option Node :=
  if r.path <+: path then lookup r.entries (components (path.drop r.path.length)) else none

structure MyFile where
  name : CString
  path : CString
  size : Nat

def pathToFname (path : CString) : CString :=
  path.foldl (fun output c => if c = '/' then [] else output ++ [c]) []

/-- `is_dir`: a missing path is taken for no directory. -/
def Root.isDir (r : Root) (fullPath : CString) : Bool :=
  match r.stat fullPath with
  | some (.dir _ _ _ _) => true
  | _ => false

/-- `get_same_file`, with the name still to be filled in: a missing path is no match. -/
def Root.getSameFile (r : Root) (filename : CString) (file : MyFile) (cmpFilePath : CString) :
    Option MyFile :=
  (r.stat cmpFilePath).bind fun fs =>
    if fs.real = file.path then none
    else if pathToFname cmpFilePath ≠ filename ∨ fs.size ≠ file.size then none
    else some ⟨[], fs.real, fs.size⟩

/-- `sprintf` of a path: the root, then the search path if there is one, then the name. -/
def tempPath (rootPath searchPath name : CString) : CString :=
  if searchPath ≠ [] then rootPath ++ '/' :: searchPath ++ '/' :: name else rootPath ++ '/' :: name

def foundName (searchPath name : CString) : CString :=
  if searchPath ≠ [] then searchPath ++ '/' :: name else name

/-- The body of the loop over the names of the listing. -/
def visitName (r : Root) (filename : CString) (file : MyFile)
    (recurse : CString → Option (List MyFile)) (searchPath : CString) (found : List MyFile)
    (name : CString) : Option (List MyFile) :=
  if isDotName name then some found
  else
    let tempStr := tempPath r.path searchPath name
    let same := (r.getSameFile filename file tempStr).map fun f =>
      { f with name := foundName searchPath name }
    let found := found ++ same.toList
    if r.isDir tempStr then (recurse (searchPath ++ '/' :: name)).map (found ++ ·) else some found

/-- `find_files`: the files found, in order. It is the root that is listed each time. -/
def findFiles (r : Root) (filename : CString) (file : MyFile) : Nat → CString → Option (List MyFile)
  | 0, _ => none
  | fuel + 1, searchPath =>
    r.listing.foldlM (visitName r filename file (findFiles r filename file fuel) searchPath) []

/-! ## The arrays -/

def STR_BUFFER_SIZE : Nat := 1024
def FILE_BUFFER_SIZE : Nat := 1000

/-- The path fits `temp_str`, and what `realpath` gives for it fits `buffer`. -/
def Root.PathFits (r : Root) (path : CString) : Prop :=
  path.length < STR_BUFFER_SIZE ∧ ∀ fs ∈ r.stat path, fs.real.length < STR_BUFFER_SIZE

instance (r : Root) (path : CString) : Decidable (r.PathFits path) :=
  inferInstanceAs (Decidable (_ ∧ ∀ fs ∈ r.stat path, _))

/-- The write to `found_files[*file_index]`, with the records up to that index. -/
def saveFile (foundFiles : List MyFile) : Option MyFile → Option (List MyFile)
  | some f => if foundFiles.length < FILE_BUFFER_SIZE then some (foundFiles ++ [f]) else none
  | none => some foundFiles

def visitNameInBuffers (r : Root) (filename : CString) (file : MyFile)
    (recurse : CString → List MyFile → Option (List MyFile)) (searchPath : CString)
    (foundFiles : List MyFile) (name : CString) : Option (List MyFile) :=
  if isDotName name then some foundFiles
  else
    let tempStr := tempPath r.path searchPath name
    if r.PathFits tempStr then
      let same := (r.getSameFile filename file tempStr).map fun f =>
        { f with name := foundName searchPath name }
      (saveFile foundFiles same).bind fun foundFiles =>
        if r.isDir tempStr then recurse (searchPath ++ '/' :: name) foundFiles else some foundFiles
    else none

def findFilesInBuffers (r : Root) (filename : CString) (file : MyFile) :
    Nat → CString → List MyFile → Option (List MyFile)
  | 0, _, _ => none
  | fuel + 1, searchPath, foundFiles =>
    r.listing.foldlM
      (visitNameInBuffers r filename file (findFilesInBuffers r filename file fuel) searchPath)
      foundFiles

end Index
end SsuComputer
