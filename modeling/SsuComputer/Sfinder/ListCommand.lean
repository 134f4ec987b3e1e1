import SsuComputer.Lib.Linked
import SsuComputer.Lib.While
import SsuComputer.Sfinder.Lists

/-!
# SsuComputer.Sfinder.ListCommand

`sort_func`, `insert_sort_fileset`, `insert_sort_filelist` and `list`, on the nodes themselves.

* The nodes are numbers. The sorting moves nodes, so the heap is the fields that it writes; what the
  nodes hold is fixed (`Nodes`).
* `localtime` is a library function, of which `tm_year` and `tm_yday` are used.
* A result `none` is a loop that has not ended, or a null pointer followed.
-/

namespace SsuComputer
namespace Sfinder

abbrev Ptr := Nat

/-- What a node of either kind holds. -/
structure Nodes where
  info : Ptr → FileInfo
  filesize : Ptr → Int

/-- The fields `next` of `fileInfo`, and `next` and `fileInfoList` of `fileList`. -/
structure Heap where
  infoNext : Ptr → Option Ptr
  listNext : Ptr → Option Ptr
  fileInfoList : Ptr → Ptr

inductive Category
  | filename
  | size
  | uid
  | gid
  | mode
  | date
  | time
deriving DecidableEq

inductive ListType
  | fileset
  | filelist
deriving DecidableEq

def convertListCategory (str : CString) : Option Category :=
  if str = ['f', 'i', 'l', 'e', 'n', 'a', 'm', 'e'] then some .filename
  else if str = ['s', 'i', 'z', 'e'] then some .size
  else if str = ['u', 'i', 'd'] then some .uid
  else if str = ['g', 'i', 'd'] then some .gid
  else if str = ['m', 'o', 'd', 'e'] then some .mode
  else none

def convertListType (str : CString) : Option ListType :=
  if str = ['f', 'i', 'l', 'e', 's', 'e', 't'] then some .fileset
  else if str = ['f', 'i', 'l', 'e', 'l', 'i', 's', 't'] then some .filelist
  else none

section Model

variable (localtime : Int → Int × Int)

/-- The switch of `sort_func`: the first node comes before the second. -/
def sortKeyLt (cFlag : Category) (p1 p2 : FileInfo) : Bool :=
  match cFlag with
  | .filename => p1.path < p2.path
  | .size => p1.statbuf.size < p2.statbuf.size
  | .uid => p1.statbuf.uid < p2.statbuf.uid
  | .gid => p1.statbuf.gid < p2.statbuf.gid
  | .mode => p1.statbuf.mode < p2.statbuf.mode
  | .date =>
    -- `localtime` returns its one `struct tm`, which the second call fills again
    let tm := localtime p2.statbuf.mtime
    let t1 := tm
    let t2 := tm
    if t1.1 ≠ t2.1 then t1.1 < t2.1 else t1.2 < t2.2
  | .time => p1.statbuf.mtime < p2.statbuf.mtime

def sortFunc (p1 p2 : FileInfo) (cFlag : Category) (order : Int) : Bool :=
  let result := sortKeyLt localtime cFlag p1 p2
  if order = 1 then !result else result

/-- Where a sorting loop stands. -/
structure Cursor where
  next : Ptr → Option Ptr
  phead : Ptr
  p : Ptr

/-- `p->next = temp->next; temp->next = phead->next;` -/
def exchange (next : Ptr → Option Ptr) (phead p temp : Ptr) : Ptr → Option Ptr :=
  let next := Function.update next p (next temp)
  Function.update next temp (next phead)

/-- The body shared by the two loops, for the test `cmp` on adjacent nodes. -/
def sortBody (cmp : Ptr → Ptr → Bool) (s : Cursor) : Option Cursor :=
  (s.next s.p).map fun temp =>
    if cmp s.p temp then ⟨exchange s.next s.phead s.p temp, temp, temp⟩ else { s with p := temp }

def Cursor.more (s : Cursor) : Bool := (s.next s.p).isSome

def sortLoop (cmp : Ptr → Ptr → Bool) (fuel : Nat) (s : Cursor) : Option Cursor :=
  whileLoop Cursor.more (sortBody cmp) fuel s

variable (nodes : Nodes)

def insertSortFileset (fuel : Nat) (next : Ptr → Option Ptr) (phead : Ptr) (cFlag : Category)
    (order : Int) : Option ((Ptr → Option Ptr) × Ptr) :=
  match next phead with
  | none => some (next, phead)
  | some p =>
    (sortLoop (fun a b => sortFunc localtime (nodes.info a) (nodes.info b) cFlag order) fuel
      ⟨next, phead, p⟩).map fun s => (s.next, s.phead)

structure ListCursor where
  heap : Heap
  phead : Ptr
  p : Ptr

def ListCursor.more (s : ListCursor) : Bool := (s.heap.listNext s.p).isSome

def filelistBody (fuel : Nat) (cFlag : Category) (order : Int) (lFlag : ListType)
    (s : ListCursor) : Option ListCursor :=
  (s.heap.listNext s.p).bind fun temp =>
    match lFlag with
    | .fileset =>
      (insertSortFileset localtime nodes fuel s.heap.infoNext (s.heap.fileInfoList s.p) cFlag
        order).map fun r =>
          { s with
            heap := { s.heap with
              infoNext := r.1
              fileInfoList := Function.update s.heap.fileInfoList s.p r.2 }
            p := temp }
    | .filelist =>
      if sortFunc localtime (nodes.info (s.heap.fileInfoList s.p))
          (nodes.info (s.heap.fileInfoList temp)) cFlag order then
        some ⟨{ s.heap with listNext := exchange s.heap.listNext s.phead s.p temp }, temp, temp⟩
      else some { s with p := temp }

def insertSortFilelist (fuel : Nat) (h : Heap) (phead : Ptr) (cFlag : Category) (order : Int)
    (lFlag : ListType) : Option (Heap × Ptr) :=
  (h.listNext phead).bind fun p =>
    (whileLoop ListCursor.more (filelistBody localtime nodes fuel cFlag order lFlag) fuel
      ⟨h, phead, p⟩).map fun s => (s.heap, s.phead)

/-! ## The command -/

inductive ListOpt
  | l (optarg : CString)
  | c (optarg : CString)
  | o (optarg : Int)

structure ListFlags where
  lFlag : ListType
  cFlag : Category
  order : Int
  errorFlag : Bool

def ListFlags.add (fl : ListFlags) : ListOpt → Option ListFlags
  | .l optarg => (convertListType optarg).map fun t => { fl with lFlag := t }
  | .c optarg => (convertListCategory optarg).map fun c => { fl with cFlag := c }
  | .o optarg =>
    some { fl with order := optarg, errorFlag := fl.errorFlag || (optarg ≠ 1 && optarg ≠ -1) }

/-- The options of `list`, and `none` where it returns with an error. -/
def ListFlags.parse (opts : List ListOpt) : Option ListFlags :=
  (opts.foldlM ListFlags.add ⟨.fileset, .size, 1, false⟩).filter fun fl => !fl.errorFlag

/-- `list`: the heap and `dups_list_h`. -/
def list (fuel : Nat) (h : Heap) (dupsListH : Option Ptr) (opts : List ListOpt) :
    Option (Heap × Option Ptr) :=
  match dupsListH with
  | none => some (h, none)
  | some head =>
    if h.listNext head = none then some (h, dupsListH)
    else
      match ListFlags.parse opts with
      | none => some (h, dupsListH)
      | some fl =>
        (insertSortFilelist localtime nodes fuel h head fl.cFlag fl.order fl.lFlag).map fun r =>
          (r.1, some r.2)

end Model

end Sfinder
end SsuComputer
