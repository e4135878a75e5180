import Mathlib.Data.List.FinRange
import Mathlib.Logic.Function.Basic
import Raynix.Lib.Transition
import Raynix.Spinlock

namespace Raynix.Process

/-- `enum procstate` -/
inductive ProcState
  | unused
  | used
  | sleeping
  | runnable
  | running
  | zombie
  deriving DecidableEq

/-- The lock of a process or any other spinlock. -/
inductive Lock (L : Type)
  | proc (p : Fin 64)
  | user (lock : L)
  deriving DecidableEq

/-- What `wakeup` reads of its local copy of a process. -/
structure Cursor (C : Type) where
  lock : BitVec 32
  state : ProcState
  channel : Option C

/-- Where a hart stands. `spin` is the exchange loop of `acquire`; `idle` is a process outside the
functions of this file; `fault` follows the use of a null pointer. -/
inductive Pc (C L : Type)
  | spin (lock : Lock L) (next : Pc C L)
  -- scheduler
  | enter
  | scan (i : Fin 64)
  | check (i : Fin 64)
  | dispatch (i : Fin 64)
  | back (i : Fin 64)
  | unlock (i : Fin 64)
  -- the first run of a process
  | start (p : Fin 64)
  | idle
  -- give_up
  | giveUp (p : Fin 64)
  | yield (p : Fin 64)
  | yielded (p : Fin 64)
  -- sleep
  | sleep (p : Fin 64) (channel : C) (lock : L)
  | channel (p : Fin 64) (channel : C) (lock : L)
  | drop (p : Fin 64) (lock : L)
  | asleep (p : Fin 64) (lock : L)
  | awake (p : Fin 64) (lock : L)
  | retake (p : Fin 64) (lock : L)
  -- wakeup
  | wake (channel : C) (rest : List (Fin 64))
  | wakeSpin (channel : C) (rest : List (Fin 64)) (cursor : Cursor C)
  | wakeTest (channel : C) (rest : List (Fin 64)) (cursor : Cursor C)
  | wakeFree (channel : C) (rest : List (Fin 64)) (cursor : Cursor C)
  | fault

/-- What `swtch` stores in a context and resumes: a process, or the scheduler of the hart, and
where it goes on. -/
structure Cont (C L : Type) where
  thread : Option (Fin 64)
  pc : Pc C L

/-- `struct proc`. A context or channel that is `none` is zero. -/
structure Proc (C L : Type) where
  context : Option (Cont C L)
  lock : BitVec 32
  state : ProcState
  channel : Option C

/-- `struct cpu` -/
structure Cpu (C L : Type) where
  interruptDisabled : BitVec 32
  curProc : Option (Fin 64)
  context : Option (Cont C L)
  lockLayer : BitVec 32

/-- A hart: its entry of `cpus`, the `struct cpu c` of its scheduler, and whose code it executes
where. `held` is ghost: the locks taken on it and not yet given back. -/
structure Hart (C L : Type) where
  sstatus : BitVec 64
  cpu : Cpu C L
  c : Cpu C L
  thread : Option (Fin 64)
  pc : Pc C L
  held : List (Lock L)

structure Machine (H C L : Type) where
  harts : H → Hart C L
  procs : Fin 64 → Proc C L
  locks : L → BitVec 32

inductive Act (H C L : Type)
  | acquire (h : H) (lock : L)
  | release (h : H) (lock : L)
  | giveUp (h : H)
  | sleep (h : H) (channel : C) (lock : L)
  | wakeup (h : H) (channel : C)
  | run (h : H)

variable {H C L : Type}

/-- The counters of the hart as the spinlock code sees them; it does not use `cur_proc`. -/
def Hart.counters (x : Hart C L) : Spinlock.Hart :=
  ⟨x.sstatus, x.cpu.interruptDisabled, x.cpu.lockLayer, 0⟩

def Hart.setCounters (x : Hart C L) (y : Spinlock.Hart) : Hart C L :=
  { x with
    sstatus := y.sstatus
    cpu := { x.cpu with interruptDisabled := y.interruptDisabled, lockLayer := y.lockLayer } }

def Hart.push (x : Hart C L) : Hart C L := x.setCounters (Spinlock.pushInterOff x.counters)

def Hart.pop (x : Hart C L) : Hart C L := x.setCounters (Spinlock.popInterOff x.counters)

/-- `cur_proc()`; its result is `cpu.curProc`. -/
def Hart.readCurProc (x : Hart C L) : Hart C L := x.push.pop

def Hart.goto (x : Hart C L) (pc : Pc C L) : Hart C L := { x with pc := pc }

/-- The call of `acquire`, up to its exchange loop. -/
def Hart.ask (x : Hart C L) (lock : Lock L) (next : Pc C L) : Hart C L :=
  x.push.goto (.spin lock next)

def Hart.resume (x : Hart C L) (k : Option (Cont C L)) : Hart C L :=
  match k with
  | none => x.goto .fault
  | some k => { x with thread := k.thread, pc := k.pc }

variable [DecidableEq H] [DecidableEq L]

def Machine.set (m : Machine H C L) (h : H) (x : Hart C L) : Machine H C L :=
  { m with harts := Function.update m.harts h x }

def Machine.setProc (m : Machine H C L) (p : Fin 64) (x : Proc C L) : Machine H C L :=
  { m with procs := Function.update m.procs p x }

def Machine.word (m : Machine H C L) : Lock L → BitVec 32
  | .proc p => (m.procs p).lock
  | .user lock => m.locks lock

def Machine.setWord (m : Machine H C L) (lock : Lock L) (v : BitVec 32) : Machine H C L :=
  match lock with
  | .proc p => m.setProc p { m.procs p with lock := v }
  | .user lock => { m with locks := Function.update m.locks lock v }

def Machine.setState (m : Machine H C L) (p : Fin 64) (v : ProcState) : Machine H C L :=
  m.setProc p { m.procs p with state := v }

def Machine.setChannel (m : Machine H C L) (p : Fin 64) (v : Option C) : Machine H C L :=
  m.setProc p { m.procs p with channel := v }

def Machine.setContext (m : Machine H C L) (p : Fin 64) (v : Option (Cont C L)) : Machine H C L :=
  m.setProc p { m.procs p with context := v }

def Machine.release (m : Machine H C L) (h : H) (lock : Lock L) (next : Pc C L) : Machine H C L :=
  let x := m.harts h
  (m.setWord lock 1).set h ({ x with held := x.held.erase lock }.pop.goto next)

/-- `enter_sched`, called by a function that goes on at `next`. The `c` of this function is a copy
of the entry of `cpus`, and so is the context that it switches to. -/
def Machine.enterSched (m : Machine H C L) (h : H) (next : Pc C L) : Machine H C L :=
  let x := m.harts h
  let c := x.cpu
  let y := x.readCurProc
  if c.lockLayer = 1 then
    match c.curProc with
    | none => m.set h (y.goto .fault)
    | some p => (m.setContext p (some ⟨x.thread, next⟩)).set h (y.resume c.context)
  else m.set h (y.goto next)

/-- One pass of the loop of `wakeup` from `cursor = procs[i]` to the exchange loop on the copy. The
address of the local `cursor` is never that of a process of the table, so the test against
`cur_proc()` always succeeds. -/
def Machine.copyProc (m : Machine H C L) (h : H) (channel : C) (i : Fin 64)
    (rest : List (Fin 64)) : Machine H C L :=
  let cursor := ⟨(m.procs i).lock, (m.procs i).state, (m.procs i).channel⟩
  m.set h ((m.harts h).readCurProc.push.goto (.wakeSpin channel rest cursor))

omit [DecidableEq L] in
@[simp]
theorem set_self (m : Machine H C L) (h : H) (x : Hart C L) : (m.set h x).harts h = x :=
  Function.update_self ..

omit [DecidableEq L] in
theorem set_of_ne (m : Machine H C L) {h g : H} (x : Hart C L) (hne : g ≠ h) :
    (m.set h x).harts g = m.harts g :=
  Function.update_of_ne hne ..

omit [DecidableEq L] in
@[simp]
theorem set_procs (m : Machine H C L) (h : H) (x : Hart C L) : (m.set h x).procs = m.procs := rfl

omit [DecidableEq L] in
@[simp]
theorem set_word (m : Machine H C L) (h : H) (x : Hart C L) (lock : Lock L) :
    (m.set h x).word lock = m.word lock := by
  cases lock <;> rfl

omit [DecidableEq H] in
@[simp]
theorem setWord_harts (m : Machine H C L) (lock : Lock L) (v : BitVec 32) :
    (m.setWord lock v).harts = m.harts := by
  cases lock <;> rfl

omit [DecidableEq H] in
theorem setWord_word (m : Machine H C L) (lock lock' : Lock L) (v : BitVec 32) :
    (m.setWord lock v).word lock' = if lock' = lock then v else m.word lock' := by
  cases lock <;> cases lock'
  case proc.proc p q =>
    by_cases h : q = p
    · simp [Machine.setWord, Machine.setProc, Machine.word, h]
    · simp [Machine.setWord, Machine.setProc, Machine.word, h]
  case user.user p q =>
    by_cases h : q = p
    · simp [Machine.setWord, Machine.word, h]
    · simp [Machine.setWord, Machine.word, h]
  all_goals simp [Machine.setWord, Machine.setProc, Machine.word]

omit [DecidableEq H] in
theorem setWord_procs (m : Machine H C L) (lock : Lock L) (v : BitVec 32) (p : Fin 64) :
    ((m.setWord lock v).procs p).state = (m.procs p).state ∧
      ((m.setWord lock v).procs p).context = (m.procs p).context ∧
      ((m.setWord lock v).procs p).channel = (m.procs p).channel := by
  cases lock with
  | proc q =>
    by_cases h : p = q
    · simp [Machine.setWord, Machine.setProc, h]
    · simp [Machine.setWord, Machine.setProc, h]
  | user q => exact ⟨rfl, rfl, rfl⟩

omit [DecidableEq H] [DecidableEq L] in
theorem setProc_of_ne (m : Machine H C L) {p q : Fin 64} (y : Proc C L) (hne : q ≠ p) :
    (m.setProc p y).procs q = m.procs q :=
  Function.update_of_ne hne ..

omit [DecidableEq H] [DecidableEq L] in
theorem setProc_self (m : Machine H C L) (p : Fin 64) (y : Proc C L) :
    (m.setProc p y).procs p = y :=
  Function.update_self ..

omit [DecidableEq H] [DecidableEq L] in
theorem setProc_word (m : Machine H C L) (p : Fin 64) {y : Proc C L}
    (hlock : y.lock = (m.procs p).lock) (lock : Lock L) :
    (m.setProc p y).word lock = m.word lock := by
  cases lock with
  | proc q =>
    by_cases hq : q = p
    · subst hq
      rw [Machine.word, setProc_self]
      exact hlock
    · rw [Machine.word, setProc_of_ne m y hq]
      rfl
  | user lock => rfl

variable [DecidableEq C]

/-- The next step of what hart `h` executes. -/
def runHart (m : Machine H C L) (h : H) : Option (Machine H C L) :=
  let x := m.harts h
  match x.pc with
  | .spin lock next =>
    some ((m.setWord lock 0).set h
      (if m.word lock = 0 then x else { x.goto next with held := lock :: x.held }))
  | .enter => some (m.set h { x.goto (.scan 0) with c := { x.cpu with curProc := none } })
  | .scan i => some (m.set h (x.ask (.proc i) (.check i)))
  | .check i =>
    some (if (m.procs i).state = .runnable then
        (m.setState i .running).set h
          { x.goto (.dispatch i) with c := { x.c with curProc := some i } }
      else m.set h (x.goto (.unlock i)))
  | .dispatch i =>
    some (m.set h
      ({ x with c := { x.c with context := some ⟨x.thread, .back i⟩ } }.resume (m.procs i).context))
  | .back i => some (m.set h { x.goto (.unlock i) with c := { x.c with curProc := none } })
  | .unlock i => some (m.release h (.proc i) (.scan (i + 1)))
  | .start p => some (m.release h (.proc p) .idle)
  | .giveUp p => some ((m.setState p .runnable).set h (x.goto (.yield p)))
  | .yield p => some (m.enterSched h (.yielded p))
  | .yielded p => some (m.release h (.proc p) .idle)
  | .sleep p channel lock =>
    some ((m.setState p .sleeping).set h (x.goto (.channel p channel lock)))
  | .channel p channel lock =>
    some ((m.setChannel p (some channel)).set h (x.goto (.drop p lock)))
  | .drop p lock => some (m.release h (.user lock) (.asleep p lock))
  | .asleep p lock => some (m.enterSched h (.awake p lock))
  | .awake p lock => some ((m.setChannel p none).set h (x.goto (.retake p lock)))
  | .retake p lock =>
    let m := m.release h (.proc p) .idle
    some (m.set h ((m.harts h).ask (.user lock) .idle))
  | .wake _ [] => some (m.set h (x.goto .idle))
  | .wake channel (i :: rest) => some (m.copyProc h channel i rest)
  -- From here to the next pass the locks and states are those of the copy.
  | .wakeSpin channel rest cursor =>
    some (m.set h (x.goto
      (if cursor.lock = 0 then .wakeSpin channel rest cursor
        else .wakeTest channel rest { cursor with lock := 0 })))
  | .wakeTest channel rest cursor =>
    some (m.set h (x.goto (.wakeFree channel rest
      (if cursor.channel = some channel ∧ cursor.state = .sleeping then
        { cursor with state := .runnable } else cursor))))
  | .wakeFree channel rest _ => some (m.set h (x.pop.goto (.wake channel rest)))
  | .idle | .fault => none

/-- A call by the process that hart `h` executes, or the next step of the hart. -/
def step (m : Machine H C L) : Act H C L → Option (Machine H C L)
  | .acquire h lock =>
    let x := m.harts h
    match x.pc with
    | .idle => some (m.set h (x.ask (.user lock) .idle))
    | _ => none
  | .release h lock =>
    match (m.harts h).pc with
    | .idle => some (m.release h (.user lock) .idle)
    | _ => none
  | .giveUp h =>
    let x := m.harts h
    match x.pc with
    | .idle =>
      let y := x.readCurProc
      some (m.set h
        (match y.cpu.curProc with
        | none => y.goto .fault
        | some p => y.ask (.proc p) (.giveUp p)))
    | _ => none
  | .sleep h channel lock =>
    let x := m.harts h
    match x.pc with
    | .idle =>
      let y := x.readCurProc
      some (m.set h
        (match y.cpu.curProc with
        | none => y.goto .fault
        | some p => y.ask (.proc p) (.sleep p channel lock)))
    | _ => none
  | .wakeup h channel =>
    let x := m.harts h
    match x.pc with
    | .idle => some (m.set h (x.goto (.wake channel (List.finRange 64))))
    | _ => none
  | .run h => runHart m h

/-- The hart that an action is of. -/
def Act.hart : Act H C L → H
  | .acquire h _ | .release h _ | .giveUp h | .sleep h _ _ | .wakeup h _ | .run h => h

/-- `procs + n` -/
def procEntry (n : Nat) : Fin 64 := Fin.ofNat 64 n

end Raynix.Process
