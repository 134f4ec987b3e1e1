import SsuComputer.Lib.Strcmp

/-!
# SsuComputer.Sdup.Structs

`my_structs.c`: the lists of files and of sets of files, and the queue of directories.

* A list of nodes is the list of what its nodes hold; the null pointer is the empty list.
* The loops of the insertions keep the nodes that `before_list_ptr` has passed. Only at the very
  front (`before_list_ptr == NULL`) the head of the list changes.
-/

namespace SsuComputer
namespace Sdup

structure FileInfo where
  path : CString
  depth : Nat
  mtime : CString
deriving Repr, DecidableEq

structure FileListSet where
  list : List FileInfo
  size : Nat
  hash : CString
deriving Repr, DecidableEq

structure DirNode where
  dirPath : CString
  depth : Nat
deriving Repr, DecidableEq

def enqueueMyDirQueue (head : List DirNode) (node : DirNode) : List DirNode := head ++ [node]

def popFrontMyDirQueue : List DirNode → Option (DirNode × List DirNode)
  | [] => none
  | node :: next => some (node, next)

/-- `before->next = node; node->next = rest`, or `node` as the new head. -/
def linkBetween {α : Type} (before : List α) (node : α) (rest : List α) : List α :=
  match before with
  | [] => node :: rest
  | _ => before ++ node :: rest

def insertFileFrom (node : FileInfo) : List FileInfo → List FileInfo → List FileInfo
  | before, [] => before ++ [node]
  | before, cur :: rest =>
    if cur.depth < node.depth then insertFileFrom node (before ++ [cur]) rest
    else if cur.depth = node.depth then
      if strcmp cur.path node.path < 0 then insertFileFrom node (before ++ [cur]) rest
      else linkBetween before node (cur :: rest)
    else linkBetween before node (cur :: rest)

def insertMyFileLinkedList (head : List FileInfo) (node : FileInfo) : List FileInfo :=
  match head with
  | [] => [node]
  | _ => insertFileFrom node [] head

def createListLinkedNode (node : FileInfo) (size : Nat) (hash : CString) : FileListSet :=
  ⟨[node], size, hash⟩

def insertSetFrom (node : FileInfo) (size : Nat) (hash : CString) :
    List FileListSet → List FileListSet → List FileListSet
  | before, [] => before ++ [createListLinkedNode node size hash]
  | before, cur :: rest =>
    if cur.size < size then insertSetFrom node size hash (before ++ [cur]) rest
    else if cur.size = size then
      if strcmp cur.hash hash = 0 then
        before ++ { cur with list := insertMyFileLinkedList cur.list node } :: rest
      else insertSetFrom node size hash (before ++ [cur]) rest
    else linkBetween before (createListLinkedNode node size hash) (cur :: rest)

def insertMyFileListLinkedList (head : List FileListSet) (node : FileInfo) (size : Nat)
    (hash : CString) : List FileListSet :=
  match head with
  | [] => [createListLinkedNode node size hash]
  | _ => insertSetFrom node size hash [] head

/-- The walk of `remove_only_one_node`, with the sets that were kept in front of it. -/
def removeFrom : List FileListSet → List FileListSet → List FileListSet
  | before, [] => before
  | before, cur :: rest =>
    match cur.list with
    | [] => removeFrom before rest
    | [_] => removeFrom before rest
    | _ => removeFrom (before ++ [cur]) rest

def removeOnlyOneNode (head : List FileListSet) : List FileListSet := removeFrom [] head

end Sdup
end SsuComputer
