import Exaros.Net.Socket

/-!
# The queue of a listening socket

The two positions of a listening socket count the connections queued and taken; the cells they name hold the
connections in between, oldest first. The positions are `int`s, so this is for fewer than 2^31 connections.

**What it does not establish.** That a client is ever accepted.
-/

namespace Exaros.Net

open Files (SOCKET_COUNT)
open Run
open Function (update update_self update_of_ne)

/-- The address a call queues at socket `l`: that of a client whose `connect` returns 0. -/
def Op.enqueues (op : Op) (l : Nat) (n : Host) : List SocketAddr :=
  match op with
  | .connect s addr =>
    match Net.connect s addr n with
    | .ok (ret, n') =>
      if ret = 0 ∧ remote_find_listening_socket (connectAddr addr) (dial s addr n) = some l then [(n'.sockets s).addr] else []
    | .error _ => []
  | _ => []

/-- The address a successful `accept` at socket `l` returns. -/
def Op.accepts (op : Op) (l : Nat) (n : Host) : List SocketAddr :=
  match op with
  | .accept s page fd =>
    if s = l then
      match Net.accept s page fd n with
      | .ok (some a, _) => if 0 ≤ a.ret then [a.addr] else []
      | _ => []
    else []
  | _ => []

/-- Sockets and files are not exhausted: `fdalloc` finds a descriptor. -/
def Op.Supplied (op : Op) : Prop :=
  match op with
  | .accept _ _ fd => ∀ r ∈ fd, 0 ≤ r
  | _ => True

/-- A host, with the addresses queued at one of its sockets and those accepted from it. -/
structure Service where
  host : Host
  enqueued : List SocketAddr
  accepted : List SocketAddr

namespace Service

def next (l : Nat) (op : Op) (v : Service) : Except Halt Service :=
  (exec op v.host).map fun n => ⟨n, v.enqueued ++ op.enqueues l v.host, v.accepted ++ op.accepts l v.host⟩

def run (l : Nat) (ops : List Op) (v : Service) : Except Halt Service := ops.foldlM (fun v op => v.next l op) v

/-- Socket `l` listens, and nothing has happened to it yet. -/
structure Opened (l : Nat) (v : Service) : Prop where
  used : (v.host.sockets l).used = true
  listening : (v.host.sockets l).listening = true
  head : (v.host.sockets l).pending_h = 0
  tail : (v.host.sockets l).pending_t = 0
  enqueued : v.enqueued = []
  accepted : v.accepted = []

/-- One call, of any kind but `close` of the listening socket. -/
def Call (l : Nat) (v v' : Service) : Prop := ∃ op, op ≠ .close l ∧ op.Supplied ∧ v.next l op = .ok v'

/-- What is queued and not accepted yet. -/
def pending (v : Service) : List SocketAddr := v.enqueued.drop v.accepted.length

/-- **The queue**: the positions count what has come in and gone out, the cells between them hold the rest. -/
structure Queue (l : Nat) (v : Service) : Prop where
  used : (v.host.sockets l).used = true
  head : (v.host.sockets l).pending_h = v.accepted.length
  tail : (v.host.sockets l).pending_t = v.enqueued.length
  bound : v.enqueued.length ≤ v.accepted.length + PENDING_COUNT
  split : v.enqueued = v.accepted ++
    Fifo.window PENDING_COUNT (v.host.sockets l).pending_queue v.accepted.length (v.enqueued.length - v.accepted.length)

end Service

/-! ## Positions -/

section Positions

theorem int_eq {k : Int} (h : 0 ≤ k) (h' : k < 2 ^ 31) : int k = k := Int.bmod_eq_of_le (by omega) (by omega)

theorem slot_eq (k : Nat) : slot k = .ok (k % PENDING_COUNT) := by
  have htmod : Int.tmod k PENDING_COUNT = ((k % PENDING_COUNT : Nat) : Int) := (Int.ofNat_tmod k PENDING_COUNT).symm
  unfold slot
  rw [htmod, if_neg (Int.not_lt.mpr (Int.natCast_nonneg _)), Int.toNat_natCast]

end Positions

/-! ## Other calls -/

section Frame

variable {n n' : Host} {op : Op} {l : Nat}

/-- The socket still listens with the same queue. -/
structure Waits (sock sock' : Socket) : Prop where
  used : sock'.used = sock.used
  queue : sock'.pending_queue = sock.pending_queue
  head : sock'.pending_h = sock.pending_h
  tail : sock'.pending_t = sock.pending_t

theorem Waits.refl (sock : Socket) : Waits sock sock := ⟨rfl, rfl, rfl, rfl⟩

theorem waits_set {s : Nat} {sock : Socket} (h : Waits (n.sockets s) sock) : Waits (n.sockets l) ((n.set s sock).sockets l) := by
  rw [sockets_set]
  by_cases hl : l = s
  · rw [hl, update_self]
    exact h
  · rw [update_of_ne hl]
    exact .refl _

theorem waits_putBytes (buf : Nat → UInt8) (num : Nat) (sock : Socket) : Waits sock (putBytes buf num sock) :=
  ⟨rfl, rfl, rfl, rfl⟩

/-- A new socket is none that is used. -/
theorem waits_new {i : Nat} {sock : Socket} (hun : (n.sockets i).used = false) (hl : (n.sockets l).used = true) :
    Waits (n.sockets l) ((n.set i sock).sockets l) := by
  have hne : l ≠ i := fun h => Bool.false_ne_true (hun.symm.trans (h ▸ hl))
  rw [sockets_set, update_of_ne hne]
  exact .refl _

theorem waits_dial (s : Nat) (addr : SocketAddr) (n : Host) : Waits (n.sockets l) ((dial s addr n).sockets l) := by
  exact waits_set (n := (gen_local_socket_addr n).2) ⟨rfl, rfl, rfl, rfl⟩

/-- Calls that neither queue nor accept at the socket. -/
theorem waits_exec (h : exec op n = .ok n') (hl : (n.sockets l).used = true) (hclose : op ≠ .close l)
    (hconnect : ∀ s addr, op ≠ .connect s addr) (haccept : ∀ page fd, op ≠ .accept l page fd) :
    Waits (n.sockets l) (n'.sockets l) := by
  cases op with
  | socket page fd =>
    obtain ⟨⟨r, n₁⟩, hcall, rfl⟩ := Loop.map_ok h
    obtain ⟨i, -, hun, -, rfl⟩ := createSocket_ok hcall
    exact waits_new hun hl
  | bind s sa =>
    cases h
    refine waits_set ?_
    exact ⟨rfl, rfl, rfl, rfl⟩
  | listen s =>
    cases h
    refine waits_set ?_
    exact ⟨rfl, rfl, rfl, rfl⟩
  | connect s addr => exact absurd rfl (hconnect s addr)
  | accept s page fd =>
    have hs : l ≠ s := fun h => haccept page fd (h ▸ rfl)
    obtain ⟨⟨r, n₁⟩, hcall, rfl⟩ := Loop.map_ok h
    obtain ⟨-, rfl, -⟩ | ⟨i, new, ret, -, -, -, -, hun, -, rfl⟩ := accept_ok hcall
    · exact .refl _
    · have hpop : (n.set s (n.sockets s).popped).sockets l = n.sockets l := by
        rw [sockets_set, update_of_ne hs]
      exact hpop ▸ waits_new hun (hpop ▸ hl)
  | send s buf len =>
    obtain ⟨⟨r, n₁⟩, hcall, rfl⟩ := Loop.map_ok h
    obtain ⟨i, -, ⟨-, hn, -⟩ | ⟨-, hn, -⟩⟩ := sendTo_ok hcall
    · dsimp only
      rw [hn]
      exact .refl _
    · dsimp only
      rw [hn]
      exact waits_set (waits_putBytes ..)
  | receive s len =>
    cases h
    obtain hset | ⟨head, hset⟩ := receiveFrom_set s len n
    · rw [hset]
      exact .refl _
    · rw [hset]
      refine waits_set ?_
      exact ⟨rfl, rfl, rfl, rfl⟩
  | close s =>
    have hs : l ≠ s := fun h => hclose (h ▸ rfl)
    cases h
    unfold socketFree
    rw [sockets_set, update_of_ne hs]
    exact .refl _

end Frame

/-! ## `connect` and `accept` -/

section Queue

variable {v v' : Service} {n n' : Host} {l s i : Nat} {addr : SocketAddr}

theorem Service.Queue.le (h : v.Queue l) : v.accepted.length ≤ v.enqueued.length := by
  rw [h.split, List.length_append]
  exact Nat.le_add_right ..

theorem Service.Queue.pending_eq (h : v.Queue l) :
    v.pending = Fifo.window PENDING_COUNT (v.host.sockets l).pending_queue v.accepted.length
      (v.enqueued.length - v.accepted.length) := by
  unfold Service.pending
  conv_lhs => rw [h.split]
  exact List.drop_left

/-- The queue after a call that leaves it alone. -/
theorem Service.Queue.waits (h : v.Queue l) (hw : Waits (v.host.sockets l) (v'.host.sockets l))
    (he : v'.enqueued = v.enqueued) (ha : v'.accepted = v.accepted) : v'.Queue l := by
  refine ⟨hw.used.trans h.used, ?_, ?_, ?_, ?_⟩
  · rw [hw.head, ha, h.head]
  · rw [hw.tail, he, h.tail]
  · rw [he, ha]
    exact h.bound
  · rw [he, ha, hw.queue]
    exact h.split

/-- How many connections there are in the queue. -/
theorem Service.Queue.count_eq (h : v.Queue l) (hlt : v.enqueued.length < 2 ^ 31) :
    int ((v.host.sockets l).pending_t - (v.host.sockets l).pending_h) = (v.enqueued.length - v.accepted.length : Nat) := by
  have hle := h.le
  rw [h.head, h.tail, int_eq (by omega) (by omega)]
  omega

/-- The queue with one more connection. -/
theorem Service.Queue.push (h : v.Queue l) (hlt : v.enqueued.length + 1 < 2 ^ 31)
    (hroom : v.enqueued.length - v.accepted.length ≠ PENDING_COUNT) (haccepted : v'.accepted = v.accepted)
    (henqueued : v'.enqueued = v.enqueued ++ [addr])
    (hsock : v'.host.sockets l = (v.host.sockets l).queued (v.enqueued.length % PENDING_COUNT) addr) : v'.Queue l := by
  have hle := h.le
  have hbound := h.bound
  have hlen : v'.enqueued.length = v.enqueued.length + 1 := by rw [henqueued, List.length_append, List.length_singleton]
  have hcount : v.enqueued.length + 1 - v.accepted.length = v.enqueued.length - v.accepted.length + 1 := by omega
  have hend : v.accepted.length + (v.enqueued.length - v.accepted.length) = v.enqueued.length := by omega
  refine ⟨?_, ?_, ?_, ?_, ?_⟩
  · rw [hsock]
    exact h.used
  · rw [hsock, haccepted]
    exact h.head
  · rw [hsock, hlen]
    show int ((v.host.sockets l).pending_t + 1) = _
    rw [h.tail, int_eq (by omega) (by omega)]
    rfl
  · rw [hlen, haccepted]
    omega
  · rw [hlen, haccepted, hsock, hcount, Fifo.window_append (v.host.sockets l).pending_queue (by omega) fun i hi => ?_,
      ← List.append_assoc, ← h.split, henqueued, hend]
    · refine congrArg₂ _ rfl ?_
      show [addr] = [update (v.host.sockets l).pending_queue (v.enqueued.length % PENDING_COUNT) addr
        ((v.enqueued.length + 0) % PENDING_COUNT)]
      rw [Nat.add_zero, update_self]
    · have hne := hi 0 Nat.one_pos
      rw [hend] at hne
      exact update_of_ne hne _ _

/-- The queue with its oldest connection taken out. -/
theorem Service.Queue.pop (h : v.Queue l) (hlt : v.enqueued.length < 2 ^ 31) (hne : v.accepted.length ≠ v.enqueued.length)
    (haccepted : v'.accepted = v.accepted ++ [(v.host.sockets l).pending_queue (v.accepted.length % PENDING_COUNT)])
    (henqueued : v'.enqueued = v.enqueued) (hsock : v'.host.sockets l = (v.host.sockets l).popped) : v'.Queue l := by
  have hle := h.le
  have hbound := h.bound
  have hlen : v'.accepted.length = v.accepted.length + 1 := by rw [haccepted, List.length_append, List.length_singleton]
  have hcount : v.enqueued.length - v.accepted.length = 1 + (v.enqueued.length - (v.accepted.length + 1)) := by omega
  refine ⟨?_, ?_, ?_, ?_, ?_⟩
  · rw [hsock]
    exact h.used
  · rw [hsock, hlen]
    show int ((v.host.sockets l).pending_h + 1) = _
    rw [h.head, int_eq (by omega) (by omega)]
    rfl
  · rw [hsock, henqueued]
    exact h.tail
  · rw [hlen, henqueued]
    omega
  · rw [hlen, henqueued, hsock]
    conv_lhs => rw [h.split, hcount, Fifo.window_split, ← List.append_assoc]
    rw [haccepted]
    rfl

/-- The address of the client, also where it has queued it at its own socket. -/
theorem addr_dialled (s t i : Nat) (addr : SocketAddr) (n : Host) :
    (((dial s addr n).set t (((dial s addr n).sockets t).queued i (gen_local_socket_addr n).1)).sockets s).addr =
      (gen_local_socket_addr n).1 := by
  have hdial : ((dial s addr n).sockets s).addr = (gen_local_socket_addr n).1 := by
    unfold dial
    rw [sockets_set, update_self]
  rw [sockets_set]
  by_cases hs : s = t
  · subst hs
    rw [update_self]
    exact hdial
  · rw [update_of_ne hs, hdial]

/-- A connection goes to the end of the queue. -/
theorem queue_connect (h : v.Queue l) (hnext : v.next l (.connect s addr) = .ok v') (hlt : v'.enqueued.length < 2 ^ 31) :
    v'.Queue l := by
  obtain ⟨n', hexec, rfl⟩ := Loop.map_ok hnext
  obtain ⟨⟨r, n₁⟩, hcall, hn⟩ := Loop.map_ok hexec
  subst hn
  have hacc : v.accepted ++ (Op.connect s addr).accepts l v.host = v.accepted := List.append_nil _
  have hdial : (Service.mk (dial s addr v.host) v.enqueued v.accepted).Queue l :=
    h.waits (waits_dial s addr v.host) rfl rfl
  have henq : (Op.connect s addr).enqueues l v.host =
      if r = 0 ∧ remote_find_listening_socket (connectAddr addr) (dial s addr v.host) = some l then [(n₁.sockets s).addr]
      else [] := by
    unfold Op.enqueues
    dsimp only
    rw [hcall]
  obtain ⟨hr, hn, -⟩ | ⟨t, i, hfind, hroom, hslot, hr, hn⟩ := connect_ok hcall
  · have hnone : (Op.connect s addr).enqueues l v.host = [] := by
      rw [henq, hr]
      exact if_neg fun h => by cases h.1
    refine hdial.waits ?_ (by dsimp only; rw [hnone, List.append_nil]) hacc
    rw [hn]
    exact .refl _
  · by_cases hl : t = l
    · subst hl
      have hone : (Op.connect s addr).enqueues t v.host = [(gen_local_socket_addr v.host).1] := by
        rw [henq, if_pos ⟨hr, hfind⟩, hn, addr_dialled]
      rw [hone, List.length_append, List.length_singleton] at hlt
      rw [hdial.tail, slot_eq] at hslot
      have hi := Except.ok.inj hslot
      rw [hdial.count_eq (Nat.lt_of_succ_lt hlt)] at hroom
      have hqueued : v.enqueued ++ (Op.connect s addr).enqueues t v.host =
          v.enqueued ++ [(gen_local_socket_addr v.host).1] := by rw [hone]
      refine hdial.push hlt (fun h => hroom (congrArg Nat.cast h)) hacc hqueued ?_
      rw [hn, sockets_set, update_self, ← hi]
    · have hnone : (Op.connect s addr).enqueues l v.host = [] := by
        rw [henq, hfind]
        exact if_neg fun h => hl (Option.some.inj h.2)
      refine hdial.waits ?_ (by dsimp only; rw [hnone, List.append_nil]) hacc
      rw [hn, sockets_set, update_of_ne (Ne.symm hl)]
      exact .refl _

/-- The first of the queue is accepted. -/
theorem queue_accept {page : Bool} {fd : Option Int} (h : v.Queue l) (hsupplied : (Op.accept l page fd).Supplied)
    (hnext : v.next l (.accept l page fd) = .ok v') (hlt : v'.enqueued.length < 2 ^ 31) : v'.Queue l := by
  obtain ⟨n', hexec, rfl⟩ := Loop.map_ok hnext
  obtain ⟨⟨r, n₁⟩, hcall, hn⟩ := Loop.map_ok hexec
  subst hn
  have henq : v.enqueued ++ (Op.accept l page fd).enqueues l v.host = v.enqueued := List.append_nil _
  have hlen : v.enqueued.length < 2 ^ 31 := henq ▸ hlt
  have hacc : (Op.accept l page fd).accepts l v.host = (r.map fun a => if 0 ≤ a.ret then [a.addr] else []).getD [] := by
    unfold Op.accepts
    dsimp only
    rw [hcall, if_pos rfl]
    cases r with
    | none => rfl
    | some a => rfl
  obtain ⟨rfl, hn, -⟩ | ⟨i, new, ret, hne, hslot, hfd, hnew, hun, rfl, hn⟩ := accept_ok hcall
  · refine h.waits ?_ henq ?_
    · dsimp only
      rw [hn]
      exact .refl _
    · dsimp only
      rw [hacc]
      exact List.append_nil _
  · have hret : 0 ≤ ret := hsupplied ret hfd
    rw [h.head, slot_eq] at hslot
    have hi := Except.ok.inj hslot
    rw [h.head, h.tail] at hne
    refine h.pop hlen (fun h => hne (congrArg Nat.cast h)) ?_ henq ?_
    · dsimp only
      rw [hacc, hi]
      exact congrArg _ (if_pos hret)
    · have hnl : l ≠ new := fun hl => Bool.false_ne_true
        (hun.symm.trans ((used_popped v.host l new).trans (hl ▸ h.used)))
      rw [hn, sockets_set, update_of_ne hnl, sockets_set, update_self]

/-- **Every call** keeps the queue, by cases. -/
theorem queue_next {op : Op} (h : v.Queue l) (hclose : op ≠ .close l) (hsupplied : op.Supplied) (hnext : v.next l op = .ok v')
    (hlt : v'.enqueued.length < 2 ^ 31) : v'.Queue l := by
  by_cases hconnect : ∃ s addr, op = .connect s addr
  · obtain ⟨s, addr, rfl⟩ := hconnect
    exact queue_connect h hnext hlt
  by_cases haccept : ∃ page fd, op = .accept l page fd
  · obtain ⟨page, fd, rfl⟩ := haccept
    exact queue_accept h hsupplied hnext hlt
  obtain ⟨n', hexec, rfl⟩ := Loop.map_ok hnext
  have hwaits := waits_exec hexec h.used hclose (fun s addr he => hconnect ⟨s, addr, he⟩)
    (fun page fd he => haccept ⟨page, fd, he⟩)
  have henq : op.enqueues l v.host = [] := by
    cases op with
    | connect s addr => exact absurd ⟨s, addr, rfl⟩ hconnect
    | _ => rfl
  have hacc : op.accepts l v.host = [] := by
    cases op with
    | accept s page fd => exact if_neg fun (hs : s = l) => haccept ⟨page, fd, hs ▸ rfl⟩
    | _ => rfl
  refine h.waits hwaits ?_ ?_
  · dsimp only
    rw [henq, List.append_nil]
  · dsimp only
    rw [hacc, List.append_nil]

theorem queue_of_reach (hr : Reach (Service.Opened l) (Service.Call l) v) (hlt : v.enqueued.length < 2 ^ 31) : v.Queue l := by
  induction hr with
  | init ho =>
    refine ⟨ho.used, ?_, ?_, ?_, ?_⟩
    · rw [ho.head, ho.accepted]
      rfl
    · rw [ho.tail, ho.enqueued]
      rfl
    · rw [ho.enqueued]
      exact Nat.zero_le _
    · rw [ho.enqueued, ho.accepted]
      rfl
  | @step v v' _ hcall ih =>
    obtain ⟨op, hclose, hsupplied, hnext⟩ := hcall
    have hle : v.enqueued.length ≤ v'.enqueued.length := by
      obtain ⟨n', -, rfl⟩ := Loop.map_ok hnext
      rw [List.length_append]
      exact Nat.le_add_right ..
    exact queue_next (ih (Nat.lt_of_le_of_lt hle hlt)) hclose hsupplied hnext hlt

theorem Service.Queue.length_pending (h : v.Queue l) : v.pending.length = v.enqueued.length - v.accepted.length := by
  rw [h.pending_eq, Fifo.length_window]

/-- `connect` to the socket comes back, with -1 exactly if the queue is full. -/
theorem connect_queue (h : v.Queue l) (hlt : v.enqueued.length < 2 ^ 31)
    (hfind : remote_find_listening_socket (connectAddr addr) (dial s addr v.host) = some l) :
    ∃ r n', connect s addr v.host = .ok (r, n') ∧ (r = if v.pending.length = PENDING_COUNT then -1 else 0) ∧
      (v.pending.length = PENDING_COUNT → Waits (v.host.sockets l) (n'.sockets l)) := by
  have hwaits : Waits (v.host.sockets l) ((dial s addr v.host).sockets l) := waits_dial s addr v.host
  have hdial : (Service.mk (dial s addr v.host) v.enqueued v.accepted).Queue l := h.waits hwaits rfl rfl
  have hcount := hdial.count_eq hlt
  have hslot : slot ((dial s addr v.host).sockets l).pending_t = .ok (v.enqueued.length % PENDING_COUNT) :=
    (congrArg slot hdial.tail).trans (slot_eq _)
  have hlen := h.length_pending
  rw [connect_eq hfind, hcount, hslot]
  by_cases hfull : v.pending.length = PENDING_COUNT
  · rw [if_pos (congrArg Nat.cast (hlen ▸ hfull)), if_pos hfull]
    exact ⟨_, _, rfl, rfl, fun _ => hwaits⟩
  · rw [if_neg fun hc => hfull (hlen.trans (Int.ofNat_inj.mp hc)), if_neg hfull]
    exact ⟨_, _, rfl, rfl, fun hf => absurd hf hfull⟩

/-- `accept` finds nothing exactly if nothing is pending. -/
theorem accept_none_iff (h : v.Queue l) (page : Bool) (fd : Option Int) :
    (∃ n', accept l page fd v.host = .ok (none, n')) ↔ v.pending = [] := by
  have hpending : v.pending = [] ↔ (v.host.sockets l).pending_h = (v.host.sockets l).pending_t := by
    have hle := h.le
    rw [← List.length_eq_zero_iff, h.length_pending, h.head, h.tail]
    omega
  rw [hpending]
  constructor
  · intro hnone
    obtain ⟨n', hcall⟩ := hnone
    obtain ⟨-, -, heq⟩ | ⟨i, new, ret, -, -, -, -, -, hr, -⟩ := accept_ok hcall
    · exact heq
    · cases hr
  · intro heq
    exact ⟨_, if_pos heq⟩

/-- With sockets and files left it comes back, and with the oldest pending address if there is one. -/
theorem accept_some {r : Int} {rest : List SocketAddr} (h : v.Queue l) (hpending : v.pending = addr :: rest)
    (hfree : ∃ i < SOCKET_COUNT, (v.host.sockets i).used = false) :
    ∃ new n', accept l true (some r) v.host = .ok (some ⟨r, addr, new⟩, n') := by
  have hlen := h.length_pending
  rw [hpending, List.length_cons] at hlen
  have hne : (v.host.sockets l).pending_h ≠ (v.host.sockets l).pending_t := by
    rw [h.head, h.tail]
    omega
  have hslot : slot (v.host.sockets l).pending_h = .ok (v.accepted.length % PENDING_COUNT) :=
    (congrArg slot h.head).trans (slot_eq _)
  have haddr : (v.host.sockets l).pending_queue (v.accepted.length % PENDING_COUNT) = addr := by
    have hwindow := h.pending_eq
    rw [hpending, ← hlen, Nat.add_comm, Fifo.window_split] at hwindow
    exact (List.cons.inj hwindow).1.symm
  obtain ⟨i, hi, hun⟩ := hfree
  obtain ⟨new, n', halloc⟩ := socketAlloc_free ⟨i, hi, (used_popped v.host l i).trans hun⟩
  rw [accept_eq hne hslot halloc, haddr]
  exact ⟨new, _, rfl⟩

/-- **The queue of a listening socket** is first in, first out, and holds `PENDING_COUNT` connections at most: a
`connect` to the full queue returns -1 and leaves it as it is, and `accept` returns -11 exactly when nothing is in it. -/
theorem accepted_in_order (hr : Reach (Service.Opened l) (Service.Call l) v) (hlt : v.enqueued.length < 2 ^ 31) :
    v.accepted <+: v.enqueued ∧ v.pending.length ≤ PENDING_COUNT ∧
      (∀ s addr, remote_find_listening_socket (connectAddr addr) (dial s addr v.host) = some l →
        ∃ r n', connect s addr v.host = .ok (r, n') ∧ (r = if v.pending.length = PENDING_COUNT then -1 else 0) ∧
          (v.pending.length = PENDING_COUNT → Waits (v.host.sockets l) (n'.sockets l))) ∧
      (∀ page fd, (∃ n', accept l page fd v.host = .ok (none, n')) ↔ v.pending = []) ∧
      ((∃ i < SOCKET_COUNT, (v.host.sockets i).used = false) → ∀ r addr rest, v.pending = addr :: rest →
        ∃ new n', accept l true (some r) v.host = .ok (some ⟨r, addr, new⟩, n')) := by
  have hq := queue_of_reach hr hlt
  have hlen := hq.length_pending
  have hbound := hq.bound
  refine ⟨⟨_, hq.split.symm⟩, by omega, fun s addr hfind => connect_queue hq hlt hfind, accept_none_iff hq,
    fun hfree r addr rest hpending => accept_some hq hpending hfree⟩

/-- Two clients connect, and the first of them is accepted. -/
def twoClients : List Op :=
  [.socket true (some 4), .connect 1 ⟨2, 0x1234, 0⟩, .socket true (some 5), .connect 2 ⟨2, 0x1234, 0⟩,
    .accept 0 true (some 6)]

/-- Two clients connect, and the first is accepted. -/
theorem accepted_in_order_two : ∃ v, Reach (Service.Opened 0) (Service.Call 0) v ∧ v.enqueued.length = 2 ∧
    v.accepted.length = 1 ∧ v.accepted <+: v.enqueued := by
  have hrun : ((listening.foldlM (fun n op => exec op n) boot).toOption.bind fun n =>
      ((Service.mk n [] []).run 0 twoClients).toOption.map fun v =>
        decide (((n.sockets 0).used = true ∧ (n.sockets 0).listening = true) ∧ ((n.sockets 0).pending_h = 0 ∧
          (n.sockets 0).pending_t = 0) ∧ v.enqueued.length = 2 ∧ v.accepted.length = 1)) = some true := by decide +kernel
  obtain ⟨n, -, hrest⟩ := Option.bind_eq_some_iff.mp hrun
  obtain ⟨v, hv, hfacts⟩ := Option.map_eq_some_iff.mp hrest
  obtain ⟨⟨hused, hlistening⟩, ⟨hhead, htail⟩, henq, hacc⟩ := of_decide_eq_true hfacts
  have hopened : (Service.mk n [] []).Opened 0 := ⟨hused, hlistening, hhead, htail, rfl, rfl⟩
  have hcalls : ∀ op ∈ twoClients, op ≠ .close 0 ∧ op.Supplied := by simp [twoClients, Op.Supplied]
  have hreach : Reach (Service.Opened 0) (Service.Call 0) v :=
    Reach.foldlM (f := Service.next 0) (.init hopened)
      (fun op hop v₁ v₂ hnext => ⟨op, (hcalls op hop).1, (hcalls op hop).2, hnext⟩) (Loop.ok_of_toOption hv)
  have hlt : v.enqueued.length < 2 ^ 31 := by
    rw [henq]
    decide
  exact ⟨v, hreach, henq, hacc, (accepted_in_order hreach hlt).1⟩

end Queue

end Exaros.Net
