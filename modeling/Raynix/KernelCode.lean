import Raynix.Kernel

namespace Raynix.Kernel

open Raynix.Lib.Command Raynix.Lib.Memory

def kalloc : Code := .block [
  acquire .pageList,
  .letin (fun s => s.phys.pageLink) fun fp => .block [
    .ite (fun _ => fp ≠ 0)
      (.act fun s => s.setPhys { s.phys with pageLink := readWord s.phys.mem fp }) .skip,
    release .pageList,
    .act fun s => s.setPhys (s.phys.setMemory fp 5 4096),
    .ret (.addr fp)]]

/-- The rest of a function that uses the address returned by a call. -/
def withAddr (k : Addr → Code) : Option Value → Code
  | some (.addr a) => k a
  | _ => .fault

/-- The loop of `walk` from a round on, and what follows it. -/
def walkFrom (pagetable va : Addr) : List Nat → Code
  | [] => .ret (.addr (pagetable + 8 * ((va >>> 12) &&& 0x1ff)))
  | i :: is =>
    let curPte := pagetable + 8 * ((va >>> (12 + 9 * (2 - i))) &&& 0x1ff)
    .letin (fun s => readWord s.phys.mem curPte) fun pte =>
      .ite (fun _ => pte &&& Vm.pteV ≠ 0) (walkFrom ((pte >>> 10) <<< 12) va is)
        (.call .kalloc kalloc (withAddr fun pagetable => .seq
          (.act fun s => s.setPhys ((s.phys.setMemory pagetable 0 4096).store curPte
            ((pagetable >>> 12) <<< 10 ||| Vm.pteV)))
          (walkFrom pagetable va is)))

def walk (pagetable va : Addr) : Code := walkFrom pagetable va [0, 1]

def findPa (pagetable va : Addr) : Code :=
  .call (.walk pagetable va) (walk pagetable va) (withAddr fun pte =>
    .letin (fun s => readWord s.phys.mem pte) fun w =>
      .ret (.addr ((w >>> 10) <<< 12 ||| (va &&& 0xfff))))

/-- `copy_in(pagetable, &cur, addr, 1)`, with the byte it leaves in `cur`. -/
def copyIn (pagetable addr : Addr) : Code :=
  .call (.findPa pagetable addr) (findPa pagetable addr) (withAddr fun pa =>
    .letin (fun s => s.phys.mem pa) fun b => .ret (.byte b))

/-- `copy_out(pagetable, target, source, 1)`, whose `memmove` writes to the address `source`. -/
def copyOut (pagetable target : Addr) (source : Byte) : Code :=
  .call (.findPa pagetable target) (findPa pagetable target) (withAddr fun pa =>
    .act fun s => s.setPhys { s.phys with
      mem := Function.update s.phys.mem (source.setWidth 64) (s.phys.mem pa) })

def map (va pa pagetable : Addr) (size permission : Word) : Code :=
  .rounds 0 size.toNat fun i =>
    let vaStart := Kalloc.pgRoundDown va + BitVec.ofNat 64 (4096 * i)
    let pa := pa + BitVec.ofNat 64 (4096 * i)
    .call (.walk pagetable vaStart) (walk pagetable vaStart) (withAddr fun pteCur =>
      .act fun s => s.setPhys
        (s.phys.store pteCur ((pa >>> 12) <<< 10 ||| permission ||| Vm.pteV)))

def callMap (va pa pagetable : Addr) (size permission : Word) : Code :=
  .invoke (.map va pa pagetable size permission) (map va pa pagetable size permission)

def fatalPaMap (m : Macros) (kernelPagetable : Addr) : Code := .block [
  callMap Vm.uart0 Vm.uart0 kernelPagetable 4096 (Vm.pteR ||| Vm.pteW),
  callMap Vm.virtio0 Vm.virtio0 kernelPagetable 4096 (Vm.pteR ||| Vm.pteW),
  callMap Vm.plic Vm.plic kernelPagetable 0x400000 (Vm.pteR ||| Vm.pteW),
  callMap Kalloc.kernbase Kalloc.kernbase kernelPagetable (m.etext - Kalloc.kernbase)
    (Vm.pteR ||| Vm.pteX),
  callMap m.etext m.etext kernelPagetable (Kalloc.physTop - m.etext) (Vm.pteR ||| Vm.pteW),
  callMap Vm.trampolineVa m.trampoline kernelPagetable 4096 (Vm.pteR ||| Vm.pteX)]

def initProcKstack (pgt : Addr) : Code :=
  .each (List.finRange 64) fun i => .call .kalloc kalloc (withAddr fun pa =>
    callMap (Vm.kstack i) pa pgt 4096 (Vm.pteR ||| Vm.pteW))

def kvmInit (m : Macros) : Code :=
  .call .kalloc kalloc (withAddr fun kernelPagetable => .block [
    .act fun s => s.setPhys (s.phys.setMemory kernelPagetable 0 4096),
    fatalPaMap m kernelPagetable,
    initProcKstack kernelPagetable])

/-- `main` on the hart with id `tp`. The call `spinlock_init()` passes no lock; `kvm_page_start` and
`trap_init` write registers only. -/
def main (m : Macros) (tp : Nat) : Code :=
  .ite (fun _ => tp = 0)
    (.block [
      .act fun s => s.setPhys (Kalloc.kallocInit s.phys),
      .invoke .kvmInit (kvmInit m)])
    .skip

/-- `c` is a copy of the entry of `cpus` that nobody reads. -/
def scheduler : Code :=
  .forever (.each (List.finRange 64) fun i => .block [
    acquire (.proc i),
    .ite (fun s => (s.procs i).state = .runnable)
      (.block [
        .act fun s => s.setProc i { s.procs i with state := .running },
        .op .swtch]) .skip,
    release (.proc i)])

/-- `t` is the thread whose stack the local `cursor` lies on. Its address is never that of a process
of the table, so the test against `cur_proc()` always succeeds. -/
def wakeup (t : Nat) (channel : Channel) : Code :=
  .each (List.finRange 64) fun i => .block [
    .act fun s => s.setCursor t (s.procs i),
    .op (.copy i t),
    acquire (.cursor t),
    .ite (fun s => (s.cursor t).channel = some channel ∧ (s.cursor t).state = .sleeping)
      (.act fun s => s.setCursor t { s.cursor t with state := .runnable }) .skip,
    release (.cursor t)]

/-- `p` is `cur_proc()`. -/
def sleep (cur : Option (Fin 64)) (channel : Channel) (lock : Splk) : Code :=
  match cur with
  | none => .fault
  | some p => .block [
    acquire (.proc p),
    .act fun s => s.setProc p { s.procs p with state := .sleeping },
    .act fun s => s.setProc p { s.procs p with channel := some channel },
    release lock,
    .op .enterSched,
    .act fun s => s.setProc p { s.procs p with channel := none },
    release (.proc p),
    acquire lock]

def giveUp (cur : Option (Fin 64)) : Code :=
  match cur with
  | none => .fault
  | some p => .block [
    acquire (.proc p),
    .act fun s => s.setProc p { s.procs p with state := .runnable },
    .op .enterSched,
    release (.proc p)]

-- In what follows `t` is the thread that executes the code and `cur` is `cur_proc()`.
variable (m : Macros) (t : Nat) (cur : Option (Fin 64))

def callWakeup (channel : Channel) : Code := .invoke (.wakeup channel) (wakeup t channel)

def callSleep (channel : Channel) (lock : Splk) : Code :=
  .invoke (.sleep channel lock) (sleep cur channel lock)

def acquireSleep (sllk : Sllk) : Code := .block [
  acquire (.inner sllk),
  .while (fun s => s.holding sllk = 0) (callSleep cur (.sllk sllk) (.inner sllk)),
  .act fun s => s.setHolding sllk 1,
  release (.inner sllk)]

def callAcquireSleep (sllk : Sllk) : Code := .invoke (.acquireSleep sllk) (acquireSleep cur sllk)

def releaseSleep (sllk : Sllk) : Code := .block [
  acquire (.inner sllk),
  .act fun s => s.setHolding sllk 0,
  callWakeup t (.sllk sllk),
  release (.inner sllk)]

def sleeplockInit (sllk : Sllk) : Code := .block [
  spinlockInit (.inner sllk),
  .act fun s => s.setHolding sllk 0]

def callSleeplockInit (sllk : Sllk) : Code := .invoke (.sleeplockInit sllk) (sleeplockInit sllk)

/-- The flag of the loop is never cleared. -/
def begainOp : Code := .block [
  acquire .log,
  .forever
    (.ite (fun s => s.log.isCommitting ≠ 0) (callSleep cur .log .log)
      (.ite (fun s => s.log.blockSize + (s.log.onExcuting + 1) * m.maxOpBlocks ≠ 0)
        (callSleep cur .log .log)
        (.block [
          .act fun s => { s with log := { s.log with onExcuting := s.log.onExcuting + 1 } },
          release .log,
          .brk])))]

def pipeWrite (pi : Nat) (startAddr : Addr) (len : Int) : Code := .block [
  acquire (.pipe pi),
  .rounds 0 len.toNat fun i => .block [
    .ite (fun s => (s.pipes pi).readable = 0) (.block [release (.pipe pi), .ret .unit]) .skip,
    .ite (fun s => ((s.pipes pi).writeCursor + 1) % 512 = (s.pipes pi).readCursor)
      (.block [
        callWakeup t (.readCursor pi),
        callSleep cur (.writeCursor pi) (.pipe pi)])
      (.block [
        .act fun s => s.setPipe pi
          { s.pipes pi with writeCursor := (s.pipes pi).writeCursor + 1 },
        match cur with
        | none => .fault
        | some p => .letin (fun s => (s.procs p).pagetable) fun pagetable =>
          let addr := startAddr + BitVec.ofNat 64 i
          .call (.copyIn pagetable addr) (copyIn pagetable addr) fun
            | some (.byte cur) => .act fun s => s.setPipe pi { s.pipes pi with
                buffer := Function.update (s.pipes pi).buffer
                  (Pipe.slot (s.pipes pi).writeCursor) cur }
            | _ => .fault])],
  callWakeup t (.readCursor pi),
  release (.pipe pi)]

def pipeRead (pi : Nat) (target : Addr) (len : Int) : Code := .block [
  acquire (.pipe pi),
  .while (fun s => (s.pipes pi).readCursor = (s.pipes pi).writeCursor ∧ (s.pipes pi).writeable ≠ 0)
    (callSleep cur (.readCursor pi) (.pipe pi)),
  .rounds 0 len.toNat fun i => .block [
    .ite (fun s => (s.pipes pi).readCursor = (s.pipes pi).writeCursor) .brk .skip,
    .letin (fun s => (s.pipes pi).buffer (Pipe.slot (s.pipes pi).readCursor)) fun byte => .block [
      .act fun s => s.setPipe pi { s.pipes pi with readCursor := (s.pipes pi).readCursor + 1 },
      match cur with
      | none => .fault
      | some p => .letin (fun s => (s.procs p).pagetable) fun pagetable =>
        let addr := target + BitVec.ofNat 64 i
        .invoke (.copyOut pagetable addr byte) (copyOut pagetable addr byte)]],
  callWakeup t (.writeCursor pi),
  release (.pipe pi),
  .letin (fun s => s.outerI t) fun i => .ret (.int i)]

/-- `alloc_desc`: the state after it and its result. -/
def allocDesc (s : Data) : Data × Int :=
  match (List.range m.num.toNat).find? (fun i => s.disk.free i ≠ 0) with
  | some i => ({ s with disk := { s.disk with free := Function.update s.disk.free i 0 } }, i)
  | none => (s, -1)

/-- `panic` does not return. -/
def freeDesc (i : Int) : Code := .block [
  .ite (fun _ => m.num ≤ i) .fault .skip,
  .ite (fun s => s.disk.free i ≠ 0) .fault .skip,
  .act fun s => { s with disk := { s.disk with
    flags := Function.update s.disk.flags i 0
    next := Function.update s.disk.next i 0
    free := Function.update s.disk.free i 1 } },
  callWakeup t .free]

def callFreeDesc (i : Int) : Code := .invoke (.freeDesc i) (freeDesc m t i)

def freeChain (i : Int) : Code :=
  .loop i (fun _ _ => true) (fun _ s => s.nxt t) fun i =>
    .letin (fun s => s.disk.flags i) fun flag => .block [
      .act fun s => { s with nxt := Function.update s.nxt t (s.disk.next i).toNat },
      callFreeDesc m t i,
      .ite (fun _ => flag &&& m.descNext ≠ 0) .skip .brk]

def alloc3Desc : Code := .block [
  .rounds 0 3 fun i => .block [
    .act fun s => (allocDesc m s).1.setIdx t i (allocDesc m s).2,
    .ite (fun s => s.idx t i < 0)
      (.block [
        .rounds 0 i fun j => .letin (fun s => s.idx t j) fun d => callFreeDesc m t d,
        .ret (.int (-1))]) .skip],
  .ret (.int 0)]

/-- What the driver writes to the three descriptors. -/
def formatDescs (s : Data) (write : Bool) : Data :=
  let idx := s.idx t
  let flags := Function.update s.disk.flags (idx 0) m.descNext
  let flags := Function.update flags (idx 1) ((if write then 0 else m.descWrite) ||| m.descNext)
  let flags := Function.update flags (idx 2) m.descWrite
  let next := Function.update s.disk.next (idx 0) (BitVec.ofInt 16 (idx 1))
  let next := Function.update next (idx 1) (BitVec.ofInt 16 (idx 2))
  let next := Function.update next (idx 2) 0
  { s with disk := { s.disk with flags := flags, next := next } }

def virtioDiskRw (b : Fin 30) (write : Bool) : Code := .block [
  acquire .vdisk,
  .forever (.call .alloc3Desc (alloc3Desc m t) fun v => .block [
    .ite (fun _ => v = some (.int 0)) .brk .skip,
    callSleep cur .free .vdisk]),
  .act fun s => formatDescs m t s write,
  .act fun s => { s with
    bufDisk := Function.update s.bufDisk b 1
    disk := { s.disk with infoB := Function.update s.disk.infoB (s.idx t 0) (some b) } },
  .while (fun s => s.bufDisk b = 1) (callSleep cur (.buf b) .vdisk),
  .act fun s => { s with
    disk := { s.disk with infoB := Function.update s.disk.infoB (s.idx t 0) none } },
  .letin (fun s => s.idx t 0) fun i => .invoke (.freeChain i) (freeChain m t i),
  release .vdisk]

def callVirtioDiskRw (b : Fin 30) (write : Bool) : Code :=
  .invoke (.virtioDiskRw b write) (virtioDiskRw m t cur b write)

/-- What `bget` does once it has a buffer. -/
def takeBuffer (i : Fin 30) (update : BufferCache.Cache → BufferCache.Cache) : Code := .block [
  .act fun s => s.setCache (update s.cache),
  callAcquireSleep cur (.buffer i),
  release .cache,
  .ret (.buf i)]

/-- The first loop of `bget`. -/
def findCached (dev blockNo : BitVec 32) : Code :=
  .letin (fun s => s.cache.ring.next .head) fun cursor =>
    .loop cursor (fun cursor _ => cursor ≠ .head) (fun cursor s => s.cache.ring.next cursor) fun
      | .head => .skip
      | .buf i => .ite (fun s => (s.cache.buffers i).Caches dev blockNo)
          (takeBuffer cur i fun c => BufferCache.addLink c i) .skip

def takeUnused (dev blockNo : BitVec 32) : BufferCache.Node → Code
  | .head => .skip
  | .buf i => .ite (fun s => (s.cache.buffers i).linkNo = 0)
      (takeBuffer cur i fun c => BufferCache.recycle c i dev blockNo) .skip

/-- The second loop never moves its cursor. -/
def searchUnused (dev blockNo : BitVec 32) (cursor : BufferCache.Node) : Code :=
  .loop cursor (fun cursor _ => cursor ≠ .head) (fun cursor _ => cursor)
    (takeUnused cur dev blockNo)

def findUnused (dev blockNo : BitVec 32) : Code :=
  .letin (fun s => s.cache.ring.prior .head) (searchUnused cur dev blockNo)

/-- Nothing follows the second loop. -/
def bget (dev blockNo : BitVec 32) : Code := .block [
  acquire .cache,
  findCached cur dev blockNo,
  findUnused cur dev blockNo]

/-- A `bget` that has run off its end has no buffer to go on with. -/
def bread (dev blockNo : BitVec 32) : Code :=
  .call (.bget dev blockNo) (bget cur dev blockNo) fun
    | some (.buf buffer) => .block [
        .ite (fun s => (s.cache.buffers buffer).valid) .skip
          (.block [
            callVirtioDiskRw m t cur buffer false,
            .act fun s => s.setCache
              (s.cache.setBuf buffer { s.cache.buffers buffer with valid := true })]),
        .ret (.buf buffer)]
    | _ => .fault

def bwrite (buffer : Fin 30) : Code := callVirtioDiskRw m t cur buffer true

def brelease (buffer : Fin 30) : Code := .block [
  .invoke (.releaseSleep (.buffer buffer)) (releaseSleep t (.buffer buffer)),
  acquire .cache,
  .act fun s => s.setCache (BufferCache.dropLink s.cache buffer),
  release .cache]

def linkNodes (a b : BufferCache.Node) : Code :=
  .act fun s => s.setCache { s.cache with ring := s.cache.ring.link a b }

/-- The loop of `binit` for the buffers still to be linked, and what follows it. -/
def binitLoop (cursor : Fin 30) : List (Fin 30) → Code
  | [] => linkNodes (.buf cursor) .head
  | i :: is => .block [
    linkNodes (.buf cursor) (.buf i),
    callSleeplockInit (.buffer cursor),
    binitLoop i is]

def binit : Code := .block [
  spinlockInit .cache,
  linkNodes .head (.buf 0),
  callSleeplockInit (.buffer 0),
  binitLoop 0 (List.finRange 30).tail]

/-- The writes to the device registers are left out. -/
def uartInit : Code := spinlockInit .uartTx

def uartSend : Code := .forever
  (.ite (fun s => s.uart.wTbufferCursor = s.uart.rTbufferCursor) (.ret .unit)
    -- `==` binds tighter than `&`.
    (.ite (fun s => s.lsr.setWidth 32 &&& (if (1 : BitVec 32) <<< 5 = 0 then 1 else 0) ≠ 0)
      (.ret .unit)
      (.act fun s => { s with uart := Uart.writeThr s.uart })))

def uartInput (c : BitVec 32) : Code := .block [
  acquire .uartTx,
  .while (fun s => s.uart.wTbufferCursor = s.uart.rTbufferCursor + 32) .skip,
  .act fun s => { s with uart := Uart.enqueue s.uart (c.setWidth 8) },
  .invoke .uartSend uartSend,
  release .uartTx]

def consloeInputHandler (_c : BitVec 32) : Code := acquire .console

/-- `flag == 0` is a comparison: the loop has no end. -/
def uartInter : Code := .block [
  .forever
    (.ite (fun s => s.lsr &&& 0x01 ≠ 0)
      (.letin (fun s => s.rhr.setWidth 32) fun res =>
        .invoke (.consloeInputHandler res) (consloeInputHandler res))
      .skip),
  acquire .uartTx,
  .invoke .uartSend uartSend,
  release .uartTx]

/-- The body of the function called. -/
def code : Fn → Code
  | .kalloc => kalloc
  | .walk pagetable va => walk pagetable va
  | .findPa pagetable va => findPa pagetable va
  | .copyIn pagetable addr => copyIn pagetable addr
  | .copyOut pagetable target source => copyOut pagetable target source
  | .map va pa pagetable size permission => map va pa pagetable size permission
  | .kvmInit => kvmInit m
  | .main tp => main m tp
  | .scheduler => scheduler
  | .wakeup channel => wakeup t channel
  | .sleep channel lock => sleep cur channel lock
  | .acquireSleep sllk => acquireSleep cur sllk
  | .releaseSleep sllk => releaseSleep t sllk
  | .sleeplockInit sllk => sleeplockInit sllk
  | .begainOp => begainOp m cur
  | .pipeWrite pi startAddr len => pipeWrite t cur pi startAddr len
  | .pipeRead pi target len => pipeRead t cur pi target len
  | .freeDesc i => freeDesc m t i
  | .freeChain i => freeChain m t i
  | .alloc3Desc => alloc3Desc m t
  | .virtioDiskRw b write => virtioDiskRw m t cur b write
  | .bget dev blockNo => bget cur dev blockNo
  | .bread dev blockNo => bread m t cur dev blockNo
  | .bwrite buffer => bwrite m t cur buffer
  | .brelease buffer => brelease t buffer
  | .binit => binit
  | .uartInit => uartInit
  | .uartSend => uartSend
  | .uartInput c => uartInput c
  | .uartInter => uartInter
  | .consloeInputHandler c => consloeInputHandler c

end Raynix.Kernel
