import Mathlib.Data.Multiset.AddSub
import Raynix.BufferCache
import Raynix.Lib.Command
import Raynix.Pipe
import Raynix.Process
import Raynix.Uart
import Raynix.Vm

namespace Raynix.Kernel

open Raynix.Lib.Command Raynix.Lib.Memory

/-- The sleeplock of a buffer or any other one. -/
inductive Sllk
  | buffer (i : Fin 30)
  | other (n : Nat)
  deriving DecidableEq

/-- The spinlocks by place: `page_list_keeper.lock`, `procs[p].lock`, the lock inside the local
`cursor` of a call of `wakeup` by thread `t`, the lock of a sleeplock, `cache.lock`,
`pi->pipe_lock`, `log.splk`, `uart_tx_lock`, `console.lock` and `disk.vdisk_lock`. -/
inductive Splk
  | pageList
  | proc (p : Fin 64)
  | cursor (t : Nat)
  | inner (sllk : Sllk)
  | cache
  | pipe (pi : Nat)
  | log
  | uartTx
  | console
  | vdisk
  deriving DecidableEq

/-- The addresses that a process sleeps on. -/
inductive Channel
  | readCursor (pi : Nat)
  | writeCursor (pi : Nat)
  | log
  | sllk (sllk : Sllk)
  | free
  | buf (i : Fin 30)
  | other (n : Nat)
  deriving DecidableEq

/-- What a function returns. -/
inductive Value
  | unit
  | int (n : BitVec 32)
  | addr (a : Addr)
  | byte (b : Byte)
  | buf (i : Fin 30)
  deriving DecidableEq

/-- `struct proc` but for its lock. -/
structure Proc where
  state : Process.ProcState
  channel : Option Channel
  pagetable : Addr

structure Pipe where
  buffer : Fin 512 → Byte
  readCursor : BitVec 32
  writeCursor : BitVec 32
  writeable : BitVec 32
  readable : BitVec 32

/-- `struct log` but for its lock and the block numbers. -/
structure Log where
  blockSize : BitVec 32
  isCommitting : BitVec 32
  onExcuting : BitVec 32

/-- What the driver reads of its `disk`. -/
structure Disk where
  free : Int → BitVec 8
  flags : Int → BitVec 16
  next : Int → BitVec 16
  infoB : Int → Option (Fin 30)

/-- The memory that the threads share, but for the words of the spinlocks, and their local variables
that are memory: the `cursor` of `wakeup`, `idx` of `virtio_disk_rw`, `nxt` of `free_chain` and the
uninitialised `i` of `pipe_read`. -/
structure Data where
  procs : Fin 64 → Proc
  phys : Kalloc.Phys
  cache : BufferCache.Cache
  holding : Sllk → BitVec 32
  bufDisk : Fin 30 → BitVec 32
  pipes : Nat → Pipe
  log : Log
  uart : Uart.State
  lsr : Byte
  rhr : Byte
  disk : Disk
  cursor : Nat → Proc
  idx : Nat → Nat → Int
  nxt : Nat → Int
  outerI : Nat → BitVec 32

/-- The macros and symbols of headers and linker scripts that are not part of the kernel's source:
`MAXOPBLOCKS`, `NUM`, `VRING_DESC_F_NEXT`, `VRING_DESC_F_WRITE`, `etext` and `trampoline`. -/
structure Macros where
  maxOpBlocks : BitVec 32
  num : Int
  descNext : BitVec 16
  descWrite : BitVec 16
  etext : Addr
  trampoline : Addr

/-- A call of a function, with its arguments. -/
inductive Fn
  | kalloc
  | walk (pagetable va : Addr)
  | findPa (pagetable va : Addr)
  | copyIn (pagetable addr : Addr)
  | copyOut (pagetable target : Addr) (source : Byte)
  | map (va pa pagetable : Addr) (size permission : Word)
  | kvmInit
  | main (tp : Nat)
  | scheduler
  | wakeup (channel : Channel)
  | sleep (channel : Channel) (lock : Splk)
  | acquireSleep (sllk : Sllk)
  | releaseSleep (sllk : Sllk)
  | sleeplockInit (sllk : Sllk)
  | begainOp
  | pipeWrite (pi : Nat) (startAddr : Addr) (len : Int)
  | pipeRead (pi : Nat) (target : Addr) (len : Int)
  | freeDesc (i : Int)
  | freeChain (i : Int)
  | alloc3Desc
  | virtioDiskRw (b : Fin 30) (write : Bool)
  | bget (dev blockNo : BitVec 32)
  | bread (dev blockNo : BitVec 32)
  | bwrite (buffer : Fin 30)
  | brelease (buffer : Fin 30)
  | binit
  | uartInit
  | uartSend
  | uartInput (c : BitVec 32)
  | uartInter
  | consloeInputHandler (c : BitVec 32)
  deriving DecidableEq

/-- What a thread does besides reading and writing `Data`. `take` is the exchange loop of `acquire`
and `give` the exchange of `release`; `copy` is the lock word in the copy of a process by `wakeup`,
and `swtch` the one of the scheduler. -/
inductive Prim
  | pushInterOff
  | popInterOff
  | take (lock : Splk)
  | give (lock : Splk)
  | init (lock : Splk)
  | copy (p : Fin 64) (t : Nat)
  | enterSched
  | swtch
  | exit (f : Fn) (v : Option Value)
  deriving DecidableEq

abbrev Code := Cmd Data Prim Fn Value

def acquire (lock : Splk) : Code := .seq (.op .pushInterOff) (.op (.take lock))

def release (lock : Splk) : Code := .seq (.op (.give lock)) (.op .popInterOff)

def spinlockInit (lock : Splk) : Code := .op (.init lock)

def Data.setProc (s : Data) (p : Fin 64) (x : Proc) : Data :=
  { s with procs := Function.update s.procs p x }

def Data.setCursor (s : Data) (t : Nat) (x : Proc) : Data :=
  { s with cursor := Function.update s.cursor t x }

def Data.setPhys (s : Data) (x : Kalloc.Phys) : Data := { s with phys := x }

def Data.setCache (s : Data) (x : BufferCache.Cache) : Data := { s with cache := x }

def Data.setPipe (s : Data) (pi : Nat) (x : Pipe) : Data :=
  { s with pipes := Function.update s.pipes pi x }

def Data.setHolding (s : Data) (sllk : Sllk) (v : BitVec 32) : Data :=
  { s with holding := Function.update s.holding sllk v }

def Data.setIdx (s : Data) (t i : Nat) (v : Int) : Data :=
  { s with idx := Function.update s.idx t (Function.update (s.idx t) i v) }

end Raynix.Kernel
