import Exaros.Lib.Run
import Mathlib.Algebra.Group.Nat.Defs

/-!
# The virtio disk driver

`kernel/driver/virtio.c` after `virtioDiskInit`, with the device at the other end of its two rings. A
thread's program counter keeps the locals of its call of `virtioDiskRW`. What a thread or the interrupt
handler does with `disk.vdiskLock` held is cut where the device may look in: filling the three
descriptors is one step, publishing them another, and the handler takes one completion a step. The device
takes heads from the `avail` ring in its order and completes them in any order.
-/

namespace Exaros.Driver

open Function (update)

def RING_SIZE : Nat := 8
def BUFFER_SIZE : Nat := 512
def VRING_DESC_F_NEXT : Nat := 1
def VRING_DESC_F_WRITE : Nat := 2
def VIRTIO_BLK_T_IN : Nat := 0
def VIRTIO_BLK_T_OUT : Nat := 1

/-- What a descriptor's `addr` points to. -/
inductive Addr (B : Type)
  | null
  | ops (i : Nat)
  | data (b : B)
  | status (i : Nat)
deriving DecidableEq

structure VirtqDesc (B : Type) where
  addr : Addr B
  len : Nat
  flags : Nat
  next : Nat
deriving DecidableEq

def VirtqDesc.zero {B : Type} : VirtqDesc B := ⟨.null, 0, 0, 0⟩

structure VirtBlockReq where
  type : Nat
  reserved : Nat
  sector : Nat
deriving DecidableEq

structure Info (B : Type) where
  b : Option B
  status : Nat

/-- `availIdx` and `availRing` are `avail[1]` and `avail[2..]`; `usedIdx` and `usedRing` are the device's
ring, of whose entries the driver reads the `id`. -/
structure Disk (B : Type) where
  desc : Nat → VirtqDesc B
  availIdx : Nat
  availRing : Nat → Nat
  usedIdx : Nat
  usedRing : Nat → Nat
  free : Nat → Bool
  usedIndex : Nat
  info : Nat → Info B
  ops : Nat → VirtBlockReq

/-- What `virtioDiskInit` leaves of the zeroed structure. -/
def virtioDiskInit {B : Type} : Disk B where
  desc := fun _ => .zero
  availIdx := 0
  availRing := fun _ => 0
  usedIdx := 0
  usedRing := fun _ => 0
  free := fun _ => true
  usedIndex := 0
  info := fun _ => ⟨none, 0⟩
  ops := fun _ => ⟨0, 0, 0⟩

structure Buf where
  blockno : Nat
  disk : Nat

/-- `&disk.free[0]` and a buffer, the addresses threads sleep on. -/
inductive Chan (B : Type)
  | free
  | buf (b : B)
deriving DecidableEq

/-- A request with its three descriptors. -/
structure Request (B : Type) where
  b : B
  write : Bool
  idx : List Nat

/-- `idx[j]` -/
def Request.at {B : Type} (r : Request B) (j : Nat) : Nat := r.idx.getD j 0

/-- Where a thread is in `virtioDiskRW`. In `enter` and `parked` it does not hold the lock. -/
inductive Pc (B : Type)
  | out
  /-- before `alloc3Desc`, at the first `acquireLock` or in the `sleep` -/
  | enter (b : B) (write : Bool)
  /-- at `alloc3Desc` -/
  | alloc (b : B) (write : Bool)
  /-- the request stands in the ring, `avail[1]` is still to be moved past it -/
  | built (r : Request B)
  /-- at `while (b->disk == 1)` -/
  | waiting (r : Request B)
  /-- in the `sleep` of that loop -/
  | parked (r : Request B)

/-- The buffer a thread's call is about. -/
def Pc.buf {B : Type} : Pc B → Option B
  | .out => none
  | .enter b _ => some b
  | .alloc b _ => some b
  | .built r => some r.b
  | .waiting r => some r.b
  | .parked r => some r.b

/-- The request whose descriptors the thread has. -/
def Pc.request {B : Type} : Pc B → Option (Request B)
  | .built r => some r
  | .waiting r => some r
  | .parked r => some r
  | _ => none

inductive Holder (T : Type)
  | thread (t : T)
  | handler
deriving DecidableEq

/-- `seen` is how far the device has read the `avail` ring, `working` are the heads it works on. -/
structure World (T B : Type) where
  disk : Disk B
  bufs : B → Buf
  pc : T → Pc B
  asleep : T → Option (Chan B)
  vdiskLock : Option (Holder T)
  seen : Nat
  working : List Nat

/-- Where the driver stops for good. -/
inductive Panic
  /-- `freeDesc`: "free desc index greater than RING_SIZE" -/
  | range
  /-- `freeDesc`: "free desc has been freed" -/
  | freed
  /-- `virtioDiskIntrupt`: "virtioDiskIntrupt status" -/
  | status
  /-- `virtioDiskIntrupt`: no buffer belongs to the head -/
  | noBuffer
  /-- `freeDescChain`: the chain has no end -/
  | endless
deriving DecidableEq

section Driver

variable {T B : Type}

namespace World

def setPc [DecidableEq T] (s : World T B) (t : T) (pc : Pc B) : World T B :=
  { s with pc := update s.pc t pc }

/-- `wakeup(channel)` -/
def wakeup [DecidableEq B] (s : World T B) (channel : Chan B) : World T B :=
  { s with asleep := fun t => if s.asleep t = some channel then none else s.asleep t }

/-- `sleep(channel, &disk.vdiskLock)`, up to the switch to another thread. Without its tests of `killed`: in these runs no
thread is killed. -/
def sleep [DecidableEq T] (s : World T B) (t : T) (channel : Chan B) : World T B :=
  { s with asleep := update s.asleep t (some channel), vdiskLock := none }

def setBuf [DecidableEq B] (s : World T B) (b : B) (disk : Nat) : World T B :=
  { s with bufs := update s.bufs b { s.bufs b with disk := disk } }

end World

/-! ## Descriptors -/

/-- The first free descriptor, which it takes. -/
def allocDesc (s : World T B) : Option Nat × World T B :=
  match (List.range RING_SIZE).find? s.disk.free with
  | some i => (some i, { s with disk := { s.disk with free := update s.disk.free i false } })
  | none => (none, s)

def freeDesc [DecidableEq B] (s : World T B) (i : Nat) : Except Panic (World T B) :=
  if RING_SIZE ≤ i then .error .range
  else if s.disk.free i then .error .freed
  else
    .ok <| World.wakeup { s with disk := { s.disk with
      desc := update s.disk.desc i .zero
      free := update s.disk.free i true } } .free

/-- The loop of `freeDescChain`; a turn that does not panic takes one descriptor out of use. -/
def freeLoop [DecidableEq B] : Nat → World T B → Nat → Except Panic (World T B)
  | 0, _, _ => .error .endless
  | n + 1, s, i => do
    let flag := (s.disk.desc i).flags
    let nxt := (s.disk.desc i).next
    let s ← freeDesc s i
    if flag &&& VRING_DESC_F_NEXT ≠ 0 then freeLoop n s nxt else .ok s

def freeDescChain [DecidableEq B] (s : World T B) (i : Nat) : Except Panic (World T B) := freeLoop RING_SIZE s i

/-- The loop of `alloc3Desc` with `n` turns to go, after the descriptors `idx`. -/
def allocLoop [DecidableEq B] : Nat → List Nat → World T B → Except Panic (Option (List Nat) × World T B)
  | 0, idx, s => .ok (some idx, s)
  | n + 1, idx, s =>
    match allocDesc s with
    | (some i, s) => allocLoop n (idx ++ [i]) s
    | (none, s) => do
      let s ← idx.foldlM freeDesc s
      .ok (none, s)

def alloc3Desc [DecidableEq B] (s : World T B) : Except Panic (Option (List Nat) × World T B) := allocLoop 3 [] s

/-! ## Requests -/

/-- What `virtioDiskRW` writes for a request, up to its entry in the `avail` ring. -/
def fill [DecidableEq B] (s : World T B) (r : Request B) : World T B :=
  let d := s.disk
  let req0 : VirtBlockReq := ⟨if r.write then VIRTIO_BLK_T_OUT else VIRTIO_BLK_T_IN, 0,
    (s.bufs r.b).blockno * (BUFFER_SIZE / 512)⟩
  let desc := update d.desc (r.at 0) ⟨.ops (r.at 0), 16, VRING_DESC_F_NEXT, r.at 1⟩
  let desc := update desc (r.at 1)
    ⟨.data r.b, BUFFER_SIZE, (if r.write then 0 else VRING_DESC_F_WRITE) ||| VRING_DESC_F_NEXT, r.at 2⟩
  let desc := update desc (r.at 2) ⟨.status (r.at 0), 1, VRING_DESC_F_WRITE, 0⟩
  World.setBuf { s with disk := { d with
    ops := update d.ops (r.at 0) req0
    desc := desc
    info := update d.info (r.at 0) ⟨some r.b, 0⟩
    availRing := update d.availRing (d.availIdx % RING_SIZE) (r.at 0) } } r.b 1

/-- `virtioDiskRW` from the loop around `alloc3Desc` to its first barrier. -/
def prepare [DecidableEq T] [DecidableEq B] (s : World T B) (t : T) (b : B) (write : Bool) : Except Panic (World T B) := do
  let (idx, s) ← alloc3Desc s
  match idx with
  | none => .ok ((s.setPc t (.enter b write)).sleep t .free)
  | some idx => .ok ((fill s ⟨b, write, idx⟩).setPc t (.built ⟨b, write, idx⟩))

/-- `disk.avail[1] = disk.avail[1] + 1`; the device is told. -/
def publish [DecidableEq T] (s : World T B) (t : T) (r : Request B) : World T B :=
  World.setPc { s with disk := { s.disk with availIdx := (s.disk.availIdx + 1) % 2 ^ 16 } } t (.waiting r)

/-- The end of `virtioDiskRW`. -/
def leave [DecidableEq T] [DecidableEq B] (s : World T B) (t : T) (r : Request B) : Except Panic (World T B) := do
  let i := r.at 0
  let s ← freeDescChain { s with disk := { s.disk with
    info := update s.disk.info i { s.disk.info i with b := none } } } i
  .ok { s.setPc t .out with vdiskLock := none }

/-- A turn of `while (b->disk == 1)`, and what follows the loop. -/
def await [DecidableEq T] [DecidableEq B] (s : World T B) (t : T) (r : Request B) : Except Panic (World T B) :=
  if (s.bufs r.b).disk = 1 then .ok ((s.setPc t (.parked r)).sleep t (.buf r.b)) else leave s t r

/-- The thread with the lock goes on. -/
def advance [DecidableEq T] [DecidableEq B] (s : World T B) (t : T) : Except Panic (World T B) :=
  match s.pc t with
  | .alloc b write => prepare s t b write
  | .built r => .ok (publish s t r)
  | .waiting r => await s t r
  | _ => .ok s

/-- `acquireLock(&disk.vdiskLock)` returns. -/
def acquire [DecidableEq T] (s : World T B) (t : T) : World T B :=
  match s.pc t with
  | .enter b write => { s.setPc t (.alloc b write) with vdiskLock := some (.thread t) }
  | .parked r => { s.setPc t (.waiting r) with vdiskLock := some (.thread t) }
  | _ => s

/-! ## The handler and the device -/

/-- A turn of the loop of `virtioDiskIntrupt`. -/
def service [DecidableEq B] (s : World T B) : Except Panic (World T B) :=
  if s.disk.usedIndex % RING_SIZE ≠ s.disk.usedIdx % RING_SIZE then
    let id := s.disk.usedRing (s.disk.usedIndex % RING_SIZE)
    if (s.disk.info id).status ≠ 0 then .error .status
    else
      match (s.disk.info id).b with
      | none => .error .noBuffer
      | some b =>
        let s := (s.setBuf b 0).wakeup (.buf b)
        .ok { s with disk := { s.disk with usedIndex := (s.disk.usedIndex + 1) % 2 ^ 16 } }
  else .ok { s with vdiskLock := none }

/-- The device takes the next head of the `avail` ring. -/
def fetch (s : World T B) : World T B :=
  { s with
    seen := (s.seen + 1) % 2 ^ 16
    working := s.working ++ [s.disk.availRing (s.seen % RING_SIZE)] }

/-- The last descriptor of the chain of a head, by the links the device follows. -/
def Disk.last (d : Disk B) (head : Nat) : VirtqDesc B := d.desc (d.desc (d.desc head).next).next

/-- The device has done what the chain of `head` asks for: it writes status 0 where the chain says, and
an entry of the `used` ring. -/
def complete (s : World T B) (head : Nat) : World T B :=
  let d := s.disk
  let info := match (d.last head).addr with
    | .status i => update d.info i { d.info i with status := 0 }
    | _ => d.info
  { s with
    working := s.working.erase head
    disk := { d with
      info := info
      usedRing := update d.usedRing (d.usedIdx % RING_SIZE) head
      usedIdx := (d.usedIdx + 1) % 2 ^ 16 } }

/-! ## Runs -/

inductive Event (T B : Type)
  /-- a thread calls `virtioDiskRW` -/
  | call (t : T) (b : B) (write : Bool)
  | acquire (t : T)
  | advance (t : T)
  /-- `virtioDiskIntrupt` takes the lock -/
  | interrupt
  | service
  | fetch
  | complete (head : Nat)
  /-- other code makes a sleeping thread runnable -/
  | stir (t : T)

/-- The calls are on distinct buffers; the rest is when the event can happen at all. -/
def Enabled (s : World T B) : Event T B → Prop
  | .call t b _ => s.pc t = .out ∧ ∀ u, (s.pc u).buf ≠ some b
  | .acquire t => s.vdiskLock = none ∧ s.asleep t = none
  | .advance t => s.vdiskLock = some (.thread t)
  | .interrupt => s.vdiskLock = none
  | .service => s.vdiskLock = some .handler
  | .fetch => s.seen ≠ s.disk.availIdx
  | .complete head => head ∈ s.working
  | .stir _ => True

def perform [DecidableEq T] [DecidableEq B] (s : World T B) : Event T B → Except Panic (World T B)
  | .call t b write => .ok (s.setPc t (.enter b write))
  | .acquire t => .ok (acquire s t)
  | .advance t => advance s t
  | .interrupt => .ok { s with vdiskLock := some .handler }
  | .service => service s
  | .fetch => .ok (fetch s)
  | .complete head => .ok (complete s head)
  | .stir t => .ok { s with asleep := update s.asleep t none }

structure Initial (s : World T B) : Prop where
  disk : s.disk = virtioDiskInit
  pc : ∀ t, s.pc t = .out
  asleep : ∀ t, s.asleep t = none
  vdiskLock : s.vdiskLock = none
  seen : s.seen = 0
  working : s.working = []

def Next [DecidableEq T] [DecidableEq B] (s s' : World T B) : Prop := ∃ e, Enabled s e ∧ perform s e = .ok s'

end Driver

end Exaros.Driver
