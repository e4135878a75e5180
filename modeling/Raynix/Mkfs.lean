import Raynix.Lib.Bytes

namespace Raynix.Mkfs

open Lib.Bytes

def nbitmap (fssize : Nat) : Nat := fssize / 8192 + 1

/-- `2 + nlog + ninodeblocks + nbitmap` with `LOGSIZE` = 30 and `NINODES / IPB + 1` = 13 -/
def nmeta (fssize : Nat) : Nat := 45 + nbitmap fssize

/-- `FSSIZE` of `param.h`: there is room for the meta blocks, and byte offsets in the image fit in
an unsigned int. -/
structure Param where
  fssize : Nat
  meta_fits : nmeta fssize ≤ fssize
  offset_fits : fssize * 1024 < 2 ^ 32

inductive Part
  | zeroes
  | superblock
  | inode (inum : Nat)
  | data
  | bitmap
  deriving DecidableEq

/-- The image file (`len` sectors) and the two counters. `writes` is ghost: the sectors written so
far. -/
structure Fs where
  disk : Nat → Buf
  len : Nat
  freeinode : Nat
  freeblock : Nat
  writes : List (Part × Nat)

instance neZero_naddrs : NeZero 13 := ⟨by decide⟩

/-- `struct dinode`; `addrs` has `NDIRECT` (12) direct addresses and the indirect one. -/
structure Dinode where
  type : BitVec 16
  major : BitVec 16
  minor : BitVec 16
  nlink : BitVec 16
  size : BitVec 32
  addrs : Fin 13 → BitVec 32

def Dinode.addr (din : Dinode) (k : Nat) : BitVec 32 := din.addrs (Fin.ofNat 13 k)

def Dinode.setAddr (din : Dinode) (k : Nat) (a : BitVec 32) : Dinode :=
  { din with addrs := Function.update din.addrs (Fin.ofNat 13 k) a }

/-- Conversion to RISC-V byte order, on a little-endian host. -/
def xshort (x : BitVec 16) : BitVec 16 := byteOf x 1 ++ byteOf x 0

def xint (x : BitVec 32) : BitVec 32 := byteOf x 3 ++ byteOf x 2 ++ byteOf x 1 ++ byteOf x 0

/-- The sector at which `lseek(fsfd, sec * BSIZE, 0)` stands. -/
def sector (sec : Nat) : Nat := sec * 1024 % 2 ^ 32 / 1024

/-- A read past the end of the file comes out short. -/
def rsect (s : Fs) (sec : Nat) : Option Buf :=
  if sector sec < s.len then some (s.disk (sector sec)) else none

def wsect (s : Fs) (part : Part) (sec : Nat) (buf : Buf) : Fs :=
  { s with
    disk := Function.update s.disk (sector sec) buf
    len := max s.len (sector sec + 1)
    writes := s.writes ++ [(part, sector sec)] }

def getDinode (buf : Buf) (slot : Nat) : Dinode where
  type := read16 buf (64 * slot)
  major := read16 buf (64 * slot + 2)
  minor := read16 buf (64 * slot + 4)
  nlink := read16 buf (64 * slot + 6)
  size := read32 buf (64 * slot + 8)
  addrs k := read32 buf (64 * slot + 12 + 4 * k.val)

def dinodeByte (din : Dinode) (j : Nat) : Byte :=
  if j < 2 then byteOf din.type j
  else if j < 4 then byteOf din.major (j - 2)
  else if j < 6 then byteOf din.minor (j - 4)
  else if j < 8 then byteOf din.nlink (j - 6)
  else if j < 12 then byteOf din.size (j - 8)
  else byteOf (din.addr ((j - 12) / 4)) ((j - 12) % 4)

def putDinode (buf : Buf) (slot : Nat) (din : Dinode) : Buf := fun o =>
  if o / 64 = slot then dinodeByte din (o % 64) else buf o

/-- `IBLOCK(inum, sb)`, with `IPB` = 16 and `sb.inodestart` = 32 -/
def iblock (inum : Nat) : Nat := inum / 16 + 32

def winode (s : Fs) (inum : Nat) (ip : Dinode) : Option Fs := do
  let buf ← rsect s (iblock inum)
  some (wsect s (.inode inum) (iblock inum) (putDinode buf (inum % 16) ip))

def rinode (s : Fs) (inum : Nat) : Option Dinode := do
  let buf ← rsect s (iblock inum)
  some (getDinode buf (inum % 16))

def newDinode (type : BitVec 16) : Dinode :=
  { type := xshort type, major := 0, minor := 0, nlink := xshort 1, size := xint 0,
    addrs := fun _ => 0 }

def ialloc (s : Fs) (type : BitVec 16) : Option (Fs × Nat) := do
  let inum := s.freeinode
  let s ← winode { s with freeinode := s.freeinode + 1 } inum (newDinode type)
  some (s, inum)

/-- `if(xint(din.addrs[k]) == 0) din.addrs[k] = xint(freeblock++);` -/
def allocAddr (s : Fs) (din : Dinode) (k : Nat) : Fs × Dinode :=
  if xint (din.addr k) = 0 then
    ({ s with freeblock := s.freeblock + 1 },
      din.setAddr k (xint (BitVec.ofNat 32 s.freeblock)))
  else (s, din)

def indirectBlock (s : Fs) (din : Dinode) (fbn : Nat) : Option (Fs × Nat) := do
  let indirect ← rsect s (xint (din.addr 12)).toNat
  if read32 indirect (4 * (fbn - 12)) = 0 then
    let indirect := write32 indirect (4 * (fbn - 12)) (xint (BitVec.ofNat 32 s.freeblock))
    let s := { s with freeblock := s.freeblock + 1 }
    let s := wsect s .data (xint (din.addr 12)).toNat indirect
    some (s, (xint (read32 indirect (4 * (fbn - 12)))).toNat)
  else
    some (s, (xint (read32 indirect (4 * (fbn - 12)))).toNat)

def dataBlock (s : Fs) (din : Dinode) (fbn : Nat) : Option (Fs × Dinode × Nat) :=
  if fbn < 12 then
    let (s, din) := allocAddr s din fbn
    some (s, din, (xint (din.addr fbn)).toNat)
  else do
    let (s, din) := allocAddr s din 12
    let (s, x) ← indirectBlock s din fbn
    some (s, din, x)

def chunk (off n : Nat) : Nat := min n ((off / 1024 + 1) * 1024 - off)

/-- An iteration of the loop of `iappend`; `MAXFILE` is 268. -/
def appendBlock (s : Fs) (din : Dinode) (off : Nat) (p : List Byte) : Option (Fs × Dinode) := do
  let fbn := off / 1024
  if fbn < 268 then
    let (s, din, x) ← dataBlock s din fbn
    let buf ← rsect s x
    let buf := copy buf (off - fbn * 1024) (p.take (chunk off p.length))
    some (wsect s .data x buf, din)
  else none

theorem chunk_pos (off : Nat) {n : Nat} (hn : 0 < n) : 0 < chunk off n := by
  rw [chunk]
  omega

def iappendLoop (s : Fs) (din : Dinode) (off : Nat) (p : List Byte) :
    Option (Fs × Dinode × Nat) :=
  if _ : 0 < p.length then
    match appendBlock s din off p with
    | none => none
    | some (s, din) =>
      iappendLoop s din (off + chunk off p.length) (p.drop (chunk off p.length))
  else some (s, din, off)
termination_by p.length
decreasing_by
  have := chunk_pos off ‹0 < p.length›
  rw [List.length_drop]
  omega

def iappend (s : Fs) (inum : Nat) (p : List Byte) : Option Fs := do
  let din ← rinode s inum
  let (s, din, off) ← iappendLoop s din (xint din.size).toNat p
  winode s inum { din with size := xint (BitVec.ofNat 32 off) }

/-- `buf[i/8] = buf[i/8] | (0x1 << (i%8))` for all `i < used` -/
def bitmap (used : Nat) : Buf :=
  (List.range used).foldl
    (fun buf i => Function.update buf (i / 8) (buf (i / 8) ||| BitVec.ofNat 8 (1 <<< (i % 8))))
    (fun _ => 0)

def balloc (s : Fs) (used : Nat) : Option Fs :=
  if used < 8192 then some (wsect s .bitmap 45 (bitmap used)) else none

/-- One file of the command line: `read` hands out its bytes in pieces of at most `BSIZE`. -/
structure Input where
  path : List Byte
  /-- `none` where `open` fails. -/
  pieces : Option (List { p : List Byte // 0 < p.length ∧ p.length ≤ 1024 })

/-- A `struct dirent`: the inode number and the name cut or padded to `DIRSIZ` (14). -/
def dirent (inum : Nat) (name : List Byte) : List Byte :=
  byteOf (xshort (BitVec.ofNat 16 inum)) 0 :: byteOf (xshort (BitVec.ofNat 16 inum)) 1 ::
    (name.take 14 ++ List.replicate (14 - name.length) 0)

/-- `argv[i]` without a leading `user/` -/
def shortname (path : List Byte) : List Byte :=
  if [0x75, 0x73, 0x65, 0x72, 0x2f].isPrefixOf path then path.drop 5 else path

def skipUnderscore (name : List Byte) : List Byte :=
  if name.head? = some 0x5f then name.drop 1 else name

/-- An iteration of the loop of `main` over the input files. -/
def addFile (s : Fs) (file : Input) : Option Fs := do
  if 0x2f ∈ shortname file.path then none
  else
    let pieces ← file.pieces
    let (s, inum) ← ialloc s 2
    let s ← iappend s 1 (dirent inum (skipUnderscore (shortname file.path)))
    pieces.foldlM (fun s p => iappend s inum p.1) s

def superblock (fssize : Nat) : List (BitVec 32) :=
  [0x10203040, xint (BitVec.ofNat 32 fssize), xint (BitVec.ofInt 32 (fssize - nmeta fssize)),
    xint 200, xint 30, xint 2, xint 32, xint 45]

def empty (fssize : Nat) : Fs :=
  { disk := fun _ _ => 0, len := 0, freeinode := 1, freeblock := nmeta fssize, writes := [] }

def zeroSectors (s : Fs) (n : Nat) : Fs :=
  (List.range n).foldl (fun s i => wsect s .zeroes i (fun _ => 0)) s

def format (P : Param) : Fs :=
  wsect (zeroSectors (empty P.fssize) P.fssize) .superblock 1
    (fun o => if o < 32 then byteOf ((superblock P.fssize).getD (o / 4) 0) (o % 4) else 0)

def makeRoot (s : Fs) : Option Fs := do
  let (s, rootino) ← ialloc s 1
  if rootino = 1 then
    let s ← iappend s rootino (dirent rootino [0x2e])
    iappend s rootino (dirent rootino [0x2e, 0x2e])
  else none

/-- "fix size of root inode dir" -/
def fixRoot (s : Fs) : Option Fs := do
  let din ← rinode s 1
  let off := (xint din.size).toNat
  winode s 1 { din with size := xint (BitVec.ofNat 32 ((off / 1024 + 1) * 1024)) }

/-- `mkfs fs.img files...`: the image at `exit(0)`, `none` where it stops with an error. -/
def main (P : Param) (files : List Input) : Option Fs := do
  let s ← makeRoot (format P)
  let s ← files.foldlM addFile s
  let s ← fixRoot s
  balloc s s.freeblock

end Raynix.Mkfs
