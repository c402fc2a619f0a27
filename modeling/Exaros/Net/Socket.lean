import Exaros.Files.Table

/-!
# Sockets

`kernel/net/socket.c`: the table of sockets, the page of each that holds the bytes sent to it, and the queue of
a listening socket. All hosts are this one, so the other end of a socket is looked up in the same table. A call
is given the socket behind its descriptor; whether memory has a page for a new socket and what `filealloc` and
`fdalloc` answer enters as an argument. `process`, the locks and the padding of an address are left out.
-/

namespace Exaros.Net

open Files (SOCKET_COUNT)
open Function (update update_self update_of_ne update_idem)

def PENDING_COUNT : Nat := 128

structure SocketAddr where
  family : UInt16
  port : UInt16
  addr : UInt32
deriving DecidableEq

structure Socket where
  used : Bool
  addr : SocketAddr
  target_addr : SocketAddr
  head : UInt64
  tail : UInt64
  pending_queue : Nat → SocketAddr
  pending_h : Int
  pending_t : Int
  listening : Bool
  /-- The page at `getSocketBufferBase`. -/
  page : Nat → UInt8

/-- `sockets[]`, on the one host there is. -/
structure Host where
  sockets : Nat → Socket
  /-- The `static int` of `gen_local_socket_addr`. -/
  local_port : UInt32

inductive Halt
  /-- `socketAlloc`: "socket run out." -/
  | runOut
  /-- `createSocket`: no page for the socket, or no file for it -/
  | createSocket
  /-- `accept`: a store through `new_sock`, which `socketAlloc` has not set, or `assert(new_f != NULL)` -/
  | accept
  /-- `remote_find_peer_socket`: "can't find peer socket." -/
  | noPeer
  /-- `pending_queue` at a negative index -/
  | outOfBounds
deriving DecidableEq

/-- An `int`, when it wraps. -/
def int (x : Int) : Int := Int.bmod x (2 ^ 32)

namespace Host

def set (n : Host) (s : Nat) (sock : Socket) : Host := { n with sockets := update n.sockets s sock }

end Host

/-! ## Addresses -/

def htons (host : UInt16) : UInt16 := host >>> 8 ||| ((host <<< 8) &&& 0xff00)

def htonl (host : UInt32) : UInt32 :=
  ((host &&& 0x000000ff) <<< 24) ||| ((host &&& 0x0000ff00) <<< 8) ||| ((host &&& 0x00ff0000) >>> 8) |||
    ((host &&& 0xff000000) >>> 24)

def transSocketAddr (sa : SocketAddr) : SocketAddr := { sa with addr := htonl sa.addr, port := htons sa.port }

/-- `gen_local_socket_addr` -/
def gen_local_socket_addr (n : Host) : SocketAddr × Host :=
  (⟨2, n.local_port.toUInt16, ((127 : UInt32) <<< 24) + 1⟩, { n with local_port := n.local_port + 1 })

/-- `remote_find_peer_socket`; `none` is the panic. -/
def remote_find_peer_socket (sock : Socket) (n : Host) : Option Nat :=
  (List.range SOCKET_COUNT).find? fun i => (n.sockets i).used ∧ (n.sockets i).addr.port = sock.target_addr.port

/-- `remote_find_listening_socket` -/
def remote_find_listening_socket (addr : SocketAddr) (n : Host) : Option Nat :=
  (List.range SOCKET_COUNT).find? fun i =>
    (n.sockets i).used ∧ (n.sockets i).addr.port = addr.port ∧ (n.sockets i).listening

/-! ## Making sockets -/

/-- `socketAlloc`: a socket with its page, or `none` where there is no page for it. The address stays what the
last owner left. -/
def socketAlloc (page : Bool) (n : Host) : Except Halt (Option Nat × Host) :=
  match (List.range SOCKET_COUNT).find? fun i => (n.sockets i).used = false with
  | none => .error .runOut
  | some i =>
    let n := n.set i { n.sockets i with used := true, head := 0, tail := 0, listening := false, pending_h := 0, pending_t := 0 }
    if page then .ok (some i, n.set i { n.sockets i with page := fun _ => 0 }) else .ok (none, n)

/-- `createSocket`; `fd` is what `fdalloc` returns, if `filealloc` finds a file. -/
def createSocket (page : Bool) (fd : Option Int) (n : Host) : Except Halt (Int × Host) := do
  let (s, n) ← socketAlloc page n
  match s, fd with
  | some s, some fd =>
    let sock := n.sockets s
    return (fd, n.set s { sock with addr := { sock.addr with family := 2 }, pending_h := 0, pending_t := 0, listening := false })
  | _, _ => throw .createSocket

def bindSocket (s : Nat) (sa : SocketAddr) (n : Host) : Int × Host :=
  let sa := transSocketAddr sa
  let sock := n.sockets s
  (0, n.set s { sock with addr := { sock.addr with addr := sa.addr, port := sa.port } })

def listen (s : Nat) (n : Host) : Int × Host := (0, n.set s { n.sockets s with listening := true })

/-- `socketFree` -/
def socketFree (s : Nat) (n : Host) : Host := n.set s { n.sockets s with used := false }

/-! ## Connections -/

/-- `pending % PENDING_COUNT`, where that is an index. -/
def slot (pending : Int) : Except Halt Nat :=
  let i := Int.tmod pending PENDING_COUNT
  if i < 0 then .error .outOfBounds else .ok i.toNat

/-- The address `connect` looks for. -/
def connectAddr (addr : SocketAddr) : SocketAddr :=
  let addr := transSocketAddr addr
  if addr.port = 0xffff then { addr with port := 12865 } else addr

def connect (s : Nat) (addr : SocketAddr) (n : Host) : Except Halt (Int × Host) :=
  let addr := connectAddr addr
  let (localAddr, n) := gen_local_socket_addr n
  let n := n.set s { n.sockets s with addr := localAddr, target_addr := addr }
  match remote_find_listening_socket addr n with
  | none => .ok (-1, n)
  | some t =>
    let target := n.sockets t
    if int (target.pending_t - target.pending_h) = PENDING_COUNT then .ok (-1, n)
    else do
      let i ← slot target.pending_t
      return (0, n.set t { target with
        pending_queue := update target.pending_queue i (n.sockets s).addr
        pending_t := int (target.pending_t + 1) })

/-- `accept`, with the address it stores for the caller and the socket it makes. -/
structure Accepted where
  ret : Int
  addr : SocketAddr
  sock : Nat

/-- `accept`; `fd` is what `fdalloc` returns, if `filealloc` finds a file. `none` is -11. -/
def accept (s : Nat) (page : Bool) (fd : Option Int) (n : Host) : Except Halt (Option Accepted × Host) :=
  let local_sock := n.sockets s
  if local_sock.pending_h = local_sock.pending_t then .ok (none, n)
  else do
    let i ← slot local_sock.pending_h
    let addr := local_sock.pending_queue i
    let n := n.set s { local_sock with pending_h := int (local_sock.pending_h + 1) }
    let (new, n) ← socketAlloc page n
    match new, fd with
    | some new, some fd =>
      return (some ⟨fd, addr, new⟩, n.set new { n.sockets new with addr := (n.sockets s).addr, target_addr := addr })
    | _, _ => throw .accept

/-! ## Bytes -/

/-- The second loop of `strncpy`. -/
def padZero : Nat → Nat → (Nat → UInt8) → Nat → UInt8
  | 0, _, page => page
  | n + 1, dst, page => padZero n (dst + 1) (update page dst 0)

/-- `strncpy(dst, src, n)` out of `buf` into a page. -/
def strncpy (buf : Nat → UInt8) : Nat → Nat → Nat → (Nat → UInt8) → Nat → UInt8
  | 0, _, _, page => page
  | n + 1, dst, src, page =>
    let page := update page dst (buf src)
    if buf src ≠ 0 then strncpy buf n (dst + 1) (src + 1) page else padZero n (dst + 1) page

/-- The offset of a count in the page. -/
def offset (x : UInt64) : Nat := (x &&& (UInt64.ofNat PAGE_SIZE - 1)).toNat

/-- The bytes `sendTo` puts into the page of `peer` for the first `num` of `buf`, in two pieces where the page
ends. -/
def putBytes (buf : Nat → UInt8) (num : Nat) (peer : Socket) : Socket :=
  let len1 := min num (PAGE_SIZE - offset peer.tail)
  let page := strncpy buf len1 (offset peer.tail) 0 peer.page
  let page := if len1 < num then strncpy buf (num - len1) 0 len1 page else page
  { peer with page := page, tail := peer.tail + UInt64.ofNat num }

/-- The number of bytes `sendTo` takes. -/
def roomFor (len : Nat) (peer : Socket) : Nat := min (UInt64.ofNat PAGE_SIZE - (peer.tail - peer.head)).toNat len

/-- `sendTo`; with no room the thread yields and makes the call again (`none`). -/
def sendTo (s : Nat) (buf : Nat → UInt8) (len : Nat) (n : Host) : Except Halt (Option Nat × Host) :=
  let buf := update buf len 0
  match remote_find_peer_socket (n.sockets s) n with
  | none => .error .noPeer
  | some i =>
    let num := roomFor len (n.sockets i)
    if num = 0 then .ok (none, n) else .ok (some num, n.set i (putBytes buf num (n.sockets i)))

/-- The first `num` bytes of the page of a socket, in two pieces where the page ends. -/
def getBytes (num : Nat) (sock : Socket) : List UInt8 :=
  let len1 := min num (PAGE_SIZE - offset sock.head)
  (List.range len1).map (fun j => sock.page (offset sock.head + j)) ++
    if len1 < num then (List.range (num - len1)).map sock.page else []

/-- `receiveFrom`, with the bytes it stores for the caller; with none there the thread yields and makes the call
again (`none`). -/
def receiveFrom (s : Nat) (len : Nat) (n : Host) : Option (List UInt8) × Host :=
  let sock := n.sockets s
  let num := min len (sock.tail - sock.head).toNat
  if num = 0 then (none, n)
  else (some (getBytes num sock), n.set s { sock with head := sock.head + UInt64.ofNat num })

/-! ## Runs -/

inductive Op
  | socket (page : Bool) (fd : Option Int)
  | bind (s : Nat) (sa : SocketAddr)
  | listen (s : Nat)
  | connect (s : Nat) (addr : SocketAddr)
  | accept (s : Nat) (page : Bool) (fd : Option Int)
  | send (s : Nat) (buf : Nat → UInt8) (len : Nat)
  | receive (s : Nat) (len : Nat)
  | close (s : Nat)

def exec (op : Op) (n : Host) : Except Halt Host :=
  match op with
  | .socket page fd => (createSocket page fd n).map (·.2)
  | .bind s sa => .ok (bindSocket s sa n).2
  | .listen s => .ok (listen s n).2
  | .connect s addr => (connect s addr n).map (·.2)
  | .accept s page fd => (accept s page fd n).map (·.2)
  | .send s buf len => (sendTo s buf len n).map (·.2)
  | .receive s len => .ok (receiveFrom s len n).2
  | .close s => .ok (socketFree s n)

/-- The table just booted. -/
def boot : Host where
  sockets := fun _ => ⟨false, ⟨0, 0, 0⟩, ⟨0, 0, 0⟩, 0, 0, fun _ => ⟨0, 0, 0⟩, 0, 0, false, fun _ => 0⟩
  local_port := 0x2710

/-- Socket 0 listens. -/
def listening : List Op := [.socket true (some 3), .bind 0 ⟨2, 0x1234, 0⟩, .listen 0]

/-- A client, socket 1, connects to socket 0, and socket 2 is its other end. -/
def opening : List Op := listening ++ [.socket true (some 4), .connect 1 ⟨2, 0x1234, 0⟩, .accept 0 true (some 5)]

/-! ## What the calls do to the table -/

section Tables

variable {n n' : Host} {s t i : Nat} {page : Bool} {fd : Option Int}

@[simp] theorem sockets_set (n : Host) (s : Nat) (sock : Socket) : (n.set s sock).sockets = update n.sockets s sock := rfl

theorem set_set (n : Host) (s : Nat) (sock sock' : Socket) : (n.set s sock).set s sock' = n.set s sock' := by
  unfold Host.set
  rw [update_idem]

/-- A socket as `socketAlloc` leaves it. -/
def Socket.fresh (sock : Socket) : Socket :=
  ⟨true, sock.addr, sock.target_addr, 0, 0, sock.pending_queue, 0, 0, false, fun _ => 0⟩

theorem socketAlloc_ok (h : socketAlloc page n = .ok (some i, n')) :
    i < SOCKET_COUNT ∧ (n.sockets i).used = false ∧ n' = n.set i (n.sockets i).fresh := by
  unfold socketAlloc at h
  split at h
  · cases h
  · rename_i j hfind
    have hj := List.mem_range.mp (List.mem_of_find?_eq_some hfind)
    have hun : (n.sockets j).used = false := by simpa using List.find?_some hfind
    split at h
    · cases h
      refine ⟨hj, hun, ?_⟩
      rw [set_set]
      show n.set _ { (update n.sockets _ _) _ with page := _ } = _
      rw [update_self]
      rfl
    · cases h

theorem socketAlloc_free (h : ∃ i < SOCKET_COUNT, (n.sockets i).used = false) :
    ∃ i n', socketAlloc true n = .ok (some i, n') := by
  unfold socketAlloc
  split
  · rename_i hnone
    obtain ⟨i, hi, hun⟩ := h
    exact absurd (decide_eq_true hun) (List.find?_eq_none.mp hnone i (List.mem_range.mpr hi))
  · exact ⟨_, _, rfl⟩

/-- What `createSocket` makes of the socket it finds. -/
def Socket.created (sock : Socket) : Socket :=
  ⟨true, { sock.addr with family := 2 }, sock.target_addr, 0, 0, sock.pending_queue, 0, 0, false, fun _ => 0⟩

theorem createSocket_ok {r : Int} (h : createSocket page fd n = .ok (r, n')) :
    ∃ i < SOCKET_COUNT, (n.sockets i).used = false ∧ fd = some r ∧ n' = n.set i (n.sockets i).created := by
  obtain ⟨⟨found, n₁⟩, halloc, hrest⟩ := Loop.bind_ok h
  cases found with
  | none => cases hrest
  | some i =>
    cases fd with
    | none => cases hrest
    | some fd =>
      cases hrest
      obtain ⟨hi, hun, rfl⟩ := socketAlloc_ok halloc
      refine ⟨i, hi, hun, rfl, ?_⟩
      rw [set_set, sockets_set, update_self]
      rfl

/-- The table while `connect` looks for the listening socket. -/
def dial (s : Nat) (addr : SocketAddr) (n : Host) : Host :=
  (gen_local_socket_addr n).2.set s
    { n.sockets s with addr := (gen_local_socket_addr n).1, target_addr := connectAddr addr }

/-- A listening socket with one more connection in its queue, at index `i`. -/
def Socket.queued (target : Socket) (i : Nat) (addr : SocketAddr) : Socket :=
  { target with pending_queue := update target.pending_queue i addr, pending_t := int (target.pending_t + 1) }

/-- `connect` finds no listening socket, or a full queue; or it queues the address of its socket. -/
theorem connect_ok {addr : SocketAddr} {r : Int} (h : connect s addr n = .ok (r, n')) :
    (r = -1 ∧ n' = dial s addr n ∧
      ∀ t, remote_find_listening_socket (connectAddr addr) (dial s addr n) = some t →
        int (((dial s addr n).sockets t).pending_t - ((dial s addr n).sockets t).pending_h) = PENDING_COUNT) ∨
    ∃ t i, remote_find_listening_socket (connectAddr addr) (dial s addr n) = some t ∧
      int (((dial s addr n).sockets t).pending_t - ((dial s addr n).sockets t).pending_h) ≠ PENDING_COUNT ∧
      slot ((dial s addr n).sockets t).pending_t = .ok i ∧ r = 0 ∧
      n' = (dial s addr n).set t (((dial s addr n).sockets t).queued i (gen_local_socket_addr n).1) := by
  unfold connect at h
  dsimp only at h
  split at h
  · rename_i hfind
    have hfind : remote_find_listening_socket (connectAddr addr) (dial s addr n) = none := hfind
    cases h
    exact .inl ⟨rfl, rfl, fun t ht => by rw [hfind] at ht; cases ht⟩
  · rename_i t hfind
    have hfind : remote_find_listening_socket (connectAddr addr) (dial s addr n) = some t := hfind
    split at h
    · rename_i hfull
      cases h
      exact .inl ⟨rfl, rfl, fun u hu => by rw [hfind] at hu; cases hu; exact hfull⟩
    · rename_i hroom
      obtain ⟨i, hi, hret⟩ := Loop.bind_ok h
      cases hret
      refine .inr ⟨t, i, hfind, hroom, hi, rfl, ?_⟩
      rw [sockets_set, update_self]
      rfl

theorem connect_eq {addr : SocketAddr} (h : remote_find_listening_socket (connectAddr addr) (dial s addr n) = some t) :
    connect s addr n =
      if int (((dial s addr n).sockets t).pending_t - ((dial s addr n).sockets t).pending_h) = PENDING_COUNT then
        .ok (-1, dial s addr n)
      else do
        let i ← slot ((dial s addr n).sockets t).pending_t
        return (0, (dial s addr n).set t (((dial s addr n).sockets t).queued i ((dial s addr n).sockets s).addr)) := by
  unfold connect
  dsimp only
  split
  · rename_i hnone
    cases h.symm.trans hnone
  · rename_i u hsome
    cases h.symm.trans hsome
    rfl

/-- A listening socket without its oldest pending connection. -/
def Socket.popped (sock : Socket) : Socket := { sock with pending_h := int (sock.pending_h + 1) }

theorem used_popped (n : Host) (s i : Nat) : ((n.set s (n.sockets s).popped).sockets i).used = (n.sockets i).used := by
  rw [sockets_set]
  by_cases hi : i = s
  · rw [hi, update_self]
    rfl
  · rw [update_of_ne hi]

/-- The socket `accept` makes. -/
def Socket.connected (sock : Socket) (addr target : SocketAddr) : Socket :=
  ⟨true, addr, target, 0, 0, sock.pending_queue, 0, 0, false, fun _ => 0⟩

theorem accept_eq {r : Int} {new : Nat} (h : (n.sockets s).pending_h ≠ (n.sockets s).pending_t)
    (hslot : slot (n.sockets s).pending_h = .ok i)
    (halloc : socketAlloc page (n.set s (n.sockets s).popped) = .ok (some new, n')) :
    accept s page (some r) n = .ok (some ⟨r, (n.sockets s).pending_queue i, new⟩,
      n'.set new { n'.sockets new with addr := (n'.sockets s).addr, target_addr := (n.sockets s).pending_queue i }) := by
  have halloc : socketAlloc page (n.set s { n.sockets s with pending_h := int ((n.sockets s).pending_h + 1) }) = _ := halloc
  unfold accept
  dsimp only
  rw [if_neg h, hslot, Loop.ok_bind, halloc]
  rfl

/-- `accept` finds nothing pending; or it takes the oldest pending connection and makes a socket for it. -/
theorem accept_ok {r : Option Accepted} (h : accept s page fd n = .ok (r, n')) :
    (r = none ∧ n' = n ∧ (n.sockets s).pending_h = (n.sockets s).pending_t) ∨
    ∃ i new ret, (n.sockets s).pending_h ≠ (n.sockets s).pending_t ∧ slot (n.sockets s).pending_h = .ok i ∧ fd = some ret ∧
      new < SOCKET_COUNT ∧ ((n.set s (n.sockets s).popped).sockets new).used = false ∧
      r = some ⟨ret, (n.sockets s).pending_queue i, new⟩ ∧
      n' = (n.set s (n.sockets s).popped).set new
        (((n.set s (n.sockets s).popped).sockets new).connected
          (n.sockets s).addr ((n.sockets s).pending_queue i)) := by
  unfold accept at h
  dsimp only at h
  split at h
  · rename_i hnone
    cases h
    exact .inl ⟨rfl, rfl, hnone⟩
  · rename_i hsome
    obtain ⟨i, hi, hrest⟩ := Loop.bind_ok h
    obtain ⟨⟨found, n₁⟩, halloc, hlast⟩ := Loop.bind_ok hrest
    cases found with
    | none => cases hlast
    | some new =>
      cases fd with
      | none => cases hlast
      | some ret =>
        cases hlast
        obtain ⟨hnew, hun, rfl⟩ := socketAlloc_ok halloc
        refine .inr ⟨i, new, ret, hsome, hi, rfl, hnew, hun, rfl, ?_⟩
        have haddr : (update (n.set s (n.sockets s).popped).sockets new
            ((n.set s (n.sockets s).popped).sockets new).fresh s).addr = (n.sockets s).addr := by
          by_cases hs : s = new
          · rw [← hs, update_self, sockets_set, update_self]
            rfl
          · rw [update_of_ne hs, sockets_set, update_self]
            rfl
        rw [set_set, sockets_set _ new, update_self]
        exact congrArg (fun a => (n.set s (n.sockets s).popped).set new
          (((n.set s (n.sockets s).popped).sockets new).connected a ((n.sockets s).pending_queue i))) haddr

theorem sendTo_ok {r : Option Nat} {buf : Nat → UInt8} {len : Nat} (h : sendTo s buf len n = .ok (r, n')) :
    ∃ i, remote_find_peer_socket (n.sockets s) n = some i ∧
      ((r = none ∧ n' = n ∧ roomFor len (n.sockets i) = 0) ∨ (r = some (roomFor len (n.sockets i)) ∧
        n' = n.set i (putBytes (update buf len 0) (roomFor len (n.sockets i)) (n.sockets i)) ∧
        roomFor len (n.sockets i) ≠ 0)) := by
  unfold sendTo at h
  dsimp only at h
  split at h
  · cases h
  · rename_i i hfind
    refine ⟨i, hfind, ?_⟩
    split at h
    · rename_i hzero
      cases h
      exact .inl ⟨rfl, rfl, hzero⟩
    · rename_i hroom
      cases h
      exact .inr ⟨rfl, rfl, hroom⟩

theorem receiveFrom_set (s len : Nat) (n : Host) :
    (receiveFrom s len n).2 = n ∨ ∃ head, (receiveFrom s len n).2 = n.set s { n.sockets s with head := head } := by
  unfold receiveFrom
  dsimp only
  split
  · exact .inl rfl
  · exact .inr ⟨_, rfl⟩

end Tables

end Exaros.Net
