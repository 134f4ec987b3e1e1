import SsuComputer.Lib.Bytes
import Mathlib.Data.Finset.Insert

/-!
# SsuComputer.Xv6.Fs

The blocks and files of the file system: `balloc`, `bfree`, `bmap`, `itrunc`, `readi`, `writei`,
`ialloc` and `iupdate`.

`Dev` is the disk as the running transaction sees it, with the blocks that were passed to
`log_write`; the bytes of a block are a function of their place. An `Inode` is the in-memory copy.
`none` is a call of `panic`. `readi` and `writei` are those of an inode that is no device.
-/

namespace SsuComputer
namespace Xv6

def BSIZE : Nat := 512

def NDIRECT : Nat := 12

def NINDIRECT : Nat := 128

def MAXFILE : Nat := NDIRECT + NINDIRECT

/-- Inodes per block. -/
def IPB : Nat := 8

/-- Bits of the bitmap per block. -/
def BPB : Nat := 4096

structure Superblock where
  size : Nat
  ninodes : Nat
  inodestart : Nat
  bmapstart : Nat

structure Inode where
  type : Nat
  major : Nat
  minor : Nat
  nlink : Nat
  size : Nat
  addrs : Nat → Nat

structure Dev where
  block : Nat → Nat → Nat
  logged : Finset Nat

namespace Dev

def log_write (d : Dev) (b : Nat) (data : Nat → Nat) : Dev :=
  ⟨Function.update d.block b data, insert b d.logged⟩

end Dev

/-! ## Inodes on disk -/

def IBLOCK (sb : Superblock) (inum : Nat) : Nat := inum / IPB + sb.inodestart

/-- The place of a `struct dinode` in its block. -/
def dip (inum : Nat) : Nat := 64 * (inum % IPB)

/-- `struct dinode`. -/
def dinodeBytes (ip : Inode) : List Nat :=
  bytesLE 2 ip.type ++ bytesLE 2 ip.major ++ bytesLE 2 ip.minor ++ bytesLE 2 ip.nlink ++
    bytesLE 4 ip.size ++ (List.range 13).flatMap fun k => bytesLE 4 (ip.addrs k)

def iupdate (sb : Superblock) (d : Dev) (inum : Nat) (ip : Inode) : Dev :=
  d.log_write (IBLOCK sb inum) (blit (d.block (IBLOCK sb inum)) (dip inum) (dinodeBytes ip))

/-- What `ilock` reads when the copy is not valid. -/
def readDinode (sb : Superblock) (d : Dev) (inum : Nat) : Inode :=
  let b := d.block (IBLOCK sb inum)
  let o := dip inum
  ⟨getLE 2 b o, getLE 2 b (o + 2), getLE 2 b (o + 4), getLE 2 b (o + 6), getLE 4 b (o + 8),
    fun k => if k < 13 then getLE 4 b (o + 12 + 4 * k) else 0⟩

/-! ## Blocks -/

def BBLOCK (sb : Superblock) (b : Nat) : Nat := b / BPB + sb.bmapstart

def bitOf (sb : Superblock) (d : Dev) (b : Nat) : Bool := bitAt (d.block (BBLOCK sb b)) (b % BPB)

/-- The two loops of `balloc`. -/
def firstFree (sb : Superblock) (d : Dev) : Option Nat :=
  (List.range ((sb.size + (BPB - 1)) / BPB)).findSome? fun k =>
    (List.range BPB).findSome? fun bi =>
      if k * BPB + bi < sb.size ∧ bitAt (d.block (BBLOCK sb (k * BPB))) bi = false then
        some (k * BPB + bi)
      else none

def bzero (d : Dev) (b : Nat) : Dev := d.log_write b fun _ => 0

def balloc (sb : Superblock) (d : Dev) : Option (Nat × Dev) :=
  (firstFree sb d).map fun b =>
    let bp := BBLOCK sb b
    (b, bzero (d.log_write bp (setBit (d.block bp) (b % BPB))) b)

def bfree (sb : Superblock) (d : Dev) (b : Nat) : Option Dev :=
  let bp := BBLOCK sb b
  if bitAt (d.block bp) (b % BPB) then
    some (d.log_write bp (clearBit (d.block bp) (b % BPB)))
  else none

/-! ## Files -/

/-- The slot `addrs[k]`, filled when it is empty. -/
def fillAddr (sb : Superblock) (d : Dev) (ip : Inode) (k : Nat) : Option (Nat × Dev × Inode) :=
  if ip.addrs k = 0 then
    (balloc sb d).map fun r => (r.1, r.2, { ip with addrs := Function.update ip.addrs k r.1 })
  else some (ip.addrs k, d, ip)

/-- The slot `a[j]` of the indirect block `addr`, filled when it is empty. -/
def fillEntry (sb : Superblock) (d : Dev) (addr j : Nat) : Option (Nat × Dev) :=
  let a := getLE 4 (d.block addr) (4 * j)
  if a = 0 then
    (balloc sb d).map fun r =>
      (r.1, r.2.log_write addr (blit (r.2.block addr) (4 * j) (bytesLE 4 r.1)))
  else some (a, d)

def bmap (sb : Superblock) (d : Dev) (ip : Inode) (bn : Nat) : Option (Nat × Dev × Inode) :=
  if bn < NDIRECT then fillAddr sb d ip bn
  else if bn - NDIRECT < NINDIRECT then
    (fillAddr sb d ip NDIRECT).bind fun r =>
      (fillEntry sb r.2.1 r.1 (bn - NDIRECT)).map fun q => (q.1, q.2, r.2.2)
  else none

/-- `bfree` on those that are not zero. -/
def freeAll (sb : Superblock) : Dev → List Nat → Option Dev
  | d, [] => some d
  | d, b :: bs => if b = 0 then freeAll sb d bs else (bfree sb d b).bind fun d => freeAll sb d bs

def entries (d : Dev) (addr : Nat) : List Nat :=
  (List.range NINDIRECT).map fun j => getLE 4 (d.block addr) (4 * j)

def itrunc (sb : Superblock) (d : Dev) (inum : Nat) (ip : Inode) : Option (Dev × Inode) :=
  (freeAll sb d ((List.range NDIRECT).map ip.addrs)).bind fun d =>
    (if ip.addrs NDIRECT = 0 then some d
      else (freeAll sb d (entries d (ip.addrs NDIRECT))).bind fun d =>
        bfree sb d (ip.addrs NDIRECT)).map fun d =>
      let ip := { ip with addrs := fun _ => 0, size := 0 }
      (iupdate sb d inum ip, ip)

/-- The loop of `readi`. -/
def readLoop (sb : Superblock) (d : Dev) (ip : Inode) (off n : Nat) :
    Option (List Nat × Dev × Inode) :=
  if n = 0 then some ([], d, ip)
  else
    (bmap sb d ip (off / BSIZE)).bind fun r =>
      let m := min n (BSIZE - off % BSIZE)
      (readLoop sb r.2.1 r.2.2 (off + m) (n - m)).map fun q =>
        (load (r.2.1.block r.1) (off % BSIZE) m ++ q.1, q.2)
termination_by n
decreasing_by
  have : off % BSIZE < BSIZE := Nat.mod_lt _ (by decide)
  omega

/-- The inner `none` is the result `-1`. -/
def readi (sb : Superblock) (d : Dev) (ip : Inode) (off n : Nat) :
    Option (Option (List Nat) × Dev × Inode) :=
  if off > ip.size ∨ (off + n) % 2 ^ 32 < off then some (none, d, ip)
  else
    let n := if (off + n) % 2 ^ 32 > ip.size then ip.size - off else n
    (readLoop sb d ip off n).map fun r => (some r.1, r.2)

/-- The loop of `writei`; the last component is `off` in the end. -/
def writeLoop (sb : Superblock) (d : Dev) (ip : Inode) (off : Nat) (src : List Nat) :
    Option (Dev × Inode × Nat) :=
  if src.length = 0 then some (d, ip, off)
  else
    (bmap sb d ip (off / BSIZE)).bind fun r =>
      let m := min src.length (BSIZE - off % BSIZE)
      let d := r.2.1.log_write r.1 (blit (r.2.1.block r.1) (off % BSIZE) (src.take m))
      writeLoop sb d r.2.2 (off + m) (src.drop m)
termination_by src.length
decreasing_by
  have : off % BSIZE < BSIZE := Nat.mod_lt _ (by decide)
  rw [List.length_drop]
  omega

def writei (sb : Superblock) (d : Dev) (inum : Nat) (ip : Inode) (off : Nat) (src : List Nat) :
    Option (Option Nat × Dev × Inode) :=
  let n := src.length
  if off > ip.size ∨ (off + n) % 2 ^ 32 < off then some (none, d, ip)
  else if (off + n) % 2 ^ 32 > MAXFILE * BSIZE then some (none, d, ip)
  else
    (writeLoop sb d ip off src).map fun r =>
      if n > 0 ∧ r.2.2 > ip.size then
        let ip := { r.2.1 with size := r.2.2 }
        (some n, iupdate sb r.1 inum ip, ip)
      else (some n, r.1, r.2.1)

/-- The scan of `ialloc`; what is written there is zero but for the type. -/
def firstFreeInode (sb : Superblock) (d : Dev) : Option Nat :=
  (List.range' 1 (sb.ninodes - 1)).find? fun inum => (readDinode sb d inum).type = 0

def ialloc (sb : Superblock) (d : Dev) (type : Nat) : Option (Nat × Dev) :=
  (firstFreeInode sb d).map fun inum =>
    (inum, iupdate sb d inum ⟨type, 0, 0, 0, 0, fun _ => 0⟩)

end Xv6
end SsuComputer
