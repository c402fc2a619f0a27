import Exaros.Net.Stream

/-!
# Who receives what

Each `connect` to the listening socket makes a connection with two ends: the socket of the client, and the socket
`accept` makes when it takes the connection from the queue. `sendTo` looks for the other end by its port alone.
The sockets that `accept` makes all have the port of the listening socket, so a client reaches the first of these in
the table, whichever it is.
-/

namespace Exaros.Net

open Files (SOCKET_COUNT)
open Run
open Function (update update_self update_of_ne)

/-- An end of a connection: that of the client or that of the server. -/
structure End where
  connection : Nat
  server : Bool
deriving DecidableEq

def End.other (e : End) : End := ⟨e.connection, !e.server⟩

/-- A byte received: the socket it came out of with the end that was then, and the end it was sent from. -/
structure Receipt where
  sock : Nat
  receiver : Option End
  sender : Option End
deriving DecidableEq

/-- A host, with the connections of one listening socket and the ends that bytes come from. -/
structure Network where
  host : Host
  /-- The connects so far. -/
  calls : Nat
  /-- The connection that each cell of the queue was written for. -/
  origin : Nat → Nat
  ends : Nat → Option End
  /-- The ends that sent the bytes in the page of a socket, oldest first. -/
  unread : Nat → List (Option End)
  received : List Receipt

namespace Network

/-- The bytes of a call that go into the page of a socket, and those that come out of it. -/
def next (l : Nat) (op : Op) (w : Network) : Except Halt Network :=
  match op with
  | .connect s addr =>
    (Net.connect s addr w.host).map fun r =>
      let queued := r.1 = 0 ∧ remote_find_listening_socket (connectAddr addr) (dial s addr w.host) = some l
      { w with
        host := r.2
        calls := w.calls + 1
        origin := match slot (w.host.sockets l).pending_t with
          | .ok i => if queued then update w.origin i w.calls else w.origin
          | .error _ => w.origin
        ends := update w.ends s (if queued then some ⟨w.calls, false⟩ else none) }
  | .accept s page fd =>
    (Net.accept s page fd w.host).map fun r =>
      match r.1, slot (w.host.sockets l).pending_h with
      | some a, .ok i =>
        { w with
          host := r.2
          ends := update w.ends a.sock (some ⟨w.origin i, true⟩)
          unread := update w.unread a.sock [] }
      | _, _ => { w with host := r.2 }
  | .send s buf len =>
    (sendTo s buf len w.host).map fun r =>
      match r.1, remote_find_peer_socket (w.host.sockets s) w.host with
      | some num, some i =>
        { w with host := r.2, unread := update w.unread i (w.unread i ++ List.replicate num (w.ends s)) }
      | _, _ => { w with host := r.2 }
  | .receive s len =>
    let r := receiveFrom s len w.host
    let num := (r.1.getD []).length
    .ok { w with
      host := r.2
      unread := update w.unread s ((w.unread s).drop num)
      received := w.received ++ ((w.unread s).take num).map fun sender => ⟨s, w.ends s, sender⟩ }
  | op =>
    (exec op w.host).map fun n =>
      { w with
        host := n
        ends := fun i => if made w.host n i then none else w.ends i
        unread := fun i => if made w.host n i then [] else w.unread i }

/-- The calls of clients and server on their sockets: new sockets, connects, accepts, sends and receives. -/
def Served (l : Nat) (op : Op) (n : Host) : Prop :=
  match op with
  | .socket .. => True
  | .connect s _ | .send s _ _ | .receive s _ => (n.sockets s).used = true
  | .accept s _ _ => s = l
  | .bind .. | .listen .. | .close .. => False

/-- Socket `l` listens, it is the only one, and no connection has been made yet. -/
structure Idle (l : Nat) (w : Network) : Prop where
  used : (w.host.sockets l).used = true
  listening : ∀ i, (w.host.sockets i).used = true → ((w.host.sockets i).listening = true ↔ i = l)
  pending : (w.host.sockets l).pending_h = (w.host.sockets l).pending_t
  empty : ∀ i, (w.host.sockets i).used = true → (w.host.sockets i).head = (w.host.sockets i).tail
  ends : ∀ i, w.ends i = none
  unread : ∀ i, w.unread i = []
  received : w.received = []

/-- Socket `i`, the end `receiver`, may receive what was sent from `sender`. -/
def Right (l i : Nat) (receiver sender : Option End) : Prop := i ≠ l ∧ ∃ e ∈ receiver, sender = some e.other

/-- **Point to point**: the bytes in the pages and those received came from the other end of the connection. -/
structure Separate (l : Nat) (w : Network) : Prop where
  unread : ∀ i, ∀ sender ∈ w.unread i, Right l i (w.ends i) sender
  received : ∀ r ∈ w.received, Right l r.sock r.receiver r.sender

/-- The other end of the connection of `s` has the port that `s` sends to, and no used socket before it has. -/
def Peered (l s : Nat) (w : Network) : Prop :=
  ∃ e ∈ w.ends s, ∃ p < SOCKET_COUNT, w.ends p = some e.other ∧ p ≠ l ∧ (w.host.sockets p).used = true ∧
    (w.host.sockets p).addr.port = (w.host.sockets s).target_addr.port ∧
    ∀ j < p, (w.host.sockets j).used = true → (w.host.sockets j).addr.port ≠ (w.host.sockets s).target_addr.port

instance (l s : Nat) (w : Network) : Decidable (Peered l s w) := by unfold Peered; infer_instance

/-- What a call has to meet: a send finds the other end first, and a socket connects when it holds no bytes. -/
def Meets (l : Nat) (op : Op) (w : Network) : Prop :=
  match op with
  | .send s _ _ => w.Peered l s
  | .connect s _ => (w.host.sockets s).head = (w.host.sockets s).tail
  | _ => True

def Call (l : Nat) (meets : Op → Network → Prop) (w w' : Network) : Prop :=
  ∃ op, Served l op w.host ∧ meets op w ∧ w.next l op = .ok w'

/-- Each byte in a page has its sender. -/
def Tallied (w : Network) : Prop := ∀ i, (w.host.sockets i).used = true →
  (w.unread i).length = (w.host.sockets i).avail ∧ (w.host.sockets i).avail ≤ PAGE_SIZE

end Network

/-! ## The peer found -/

section Found

variable {l s i : Nat} {w : Network}

theorem other_other (e : End) : e.other.other = e := by
  unfold End.other
  rw [Bool.not_not]

theorem find_peer_iff {sock : Socket} {n : Host} : remote_find_peer_socket sock n = some i ↔
    i < SOCKET_COUNT ∧ (n.sockets i).used = true ∧ (n.sockets i).addr.port = sock.target_addr.port ∧
      ∀ j < i, (n.sockets j).used = true → (n.sockets j).addr.port ≠ sock.target_addr.port := by
  unfold remote_find_peer_socket
  rw [List.find?_range_eq_some, decide_eq_true_iff, List.mem_range]
  constructor
  · intro h
    exact ⟨h.2.1, h.1.1, h.1.2, fun j hj hu hp => by simpa [hu, hp] using h.2.2 j hj⟩
  · intro h
    exact ⟨⟨h.2.1, h.2.2.1⟩, h.1, fun j hj => by simpa [imp_iff_not_or] using h.2.2.2 j hj⟩

/-- A send is peered exactly if the socket it finds may receive from it. -/
theorem peered_iff (hfind : remote_find_peer_socket (w.host.sockets s) w.host = some i) :
    w.Peered l s ↔ Network.Right l i (w.ends i) (w.ends s) := by
  have hfound := find_peer_iff.mp hfind
  constructor
  · intro h
    obtain ⟨e, hs, p, hcount, hp, hl, hused, hport, hfirst⟩ := h
    have hpi : remote_find_peer_socket (w.host.sockets s) w.host = some p :=
      find_peer_iff.mpr ⟨hcount, hused, hport, hfirst⟩
    obtain rfl : p = i := Option.some.inj (hpi.symm.trans hfind)
    exact ⟨hl, e.other, hp, by rw [other_other]; exact hs⟩
  · intro h
    obtain ⟨hl, e, hi, hs⟩ := h
    exact ⟨e.other, hs, i, hfound.1, by rw [other_other]; exact hi, hl, hfound.2⟩

end Found

/-! ## Calls -/

section Calls

variable {l s len : Nat} {w w' : Network} {op : Op} {buf : Nat → UInt8}

/-- The bytes unread in one socket, and what is received from it, have changed. -/
theorem Network.Separate.of_eq (h : w.Separate l) (hunread : ∀ i, ∀ sender ∈ w'.unread i, Network.Right l i (w'.ends i) sender)
    (hreceived : w'.received = w.received) : w'.Separate l :=
  ⟨hunread, fun r hr => h.received r (hreceived ▸ hr)⟩

theorem separate_connect {addr : SocketAddr} (h : w.Separate l) (ht : w.Tallied) (hused : (w.host.sockets s).used = true)
    (hempty : (w.host.sockets s).head = (w.host.sockets s).tail) (hnext : w.next l (.connect s addr) = .ok w') :
    w'.Separate l := by
  obtain ⟨⟨r, n⟩, -, rfl⟩ := Loop.map_ok hnext
  have hnil : w.unread s = [] := by
    rw [← List.length_eq_zero_iff, (ht s hused).1]
    exact Fifo.count_eq_zero.mpr hempty
  refine h.of_eq (fun i sender hsender => ?_) rfl
  by_cases hi : i = s
  · rw [hi] at hsender
    rw [show w.unread s = [] from hnil] at hsender
    cases hsender
  · dsimp only
    rw [update_of_ne hi]
    exact h.unread i sender hsender

theorem separate_accept {page : Bool} {fd : Option Int} (h : w.Separate l) (hnext : w.next l (.accept s page fd) = .ok w') :
    w'.Separate l := by
  obtain ⟨⟨r, n⟩, -, rfl⟩ := Loop.map_ok hnext
  dsimp only
  split
  · rename_i a _ _
    refine h.of_eq (fun i sender hsender => ?_) rfl
    dsimp only at hsender ⊢
    by_cases hi : i = a.sock
    · rw [hi, update_self] at hsender
      cases hsender
    · rw [update_of_ne hi] at hsender ⊢
      exact h.unread i sender hsender
  · exact h.of_eq h.unread rfl

theorem separate_receive (h : w.Separate l) (hnext : w.next l (.receive s len) = .ok w') : w'.Separate l := by
  cases hnext
  refine ⟨fun i sender hsender => ?_, fun r hr => ?_⟩
  · dsimp only at hsender ⊢
    by_cases hi : i = s
    · rw [hi, update_self] at hsender
      rw [hi]
      exact h.unread s sender (List.mem_of_mem_drop hsender)
    · rw [update_of_ne hi] at hsender
      exact h.unread i sender hsender
  · obtain hr | hr := List.mem_append.mp hr
    · exact h.received r hr
    · obtain ⟨sender, hsender, rfl⟩ := List.mem_map.mp hr
      exact h.unread s sender (List.mem_of_mem_take hsender)

/-- The network after a send that has put bytes into socket `i`. -/
def Network.sent (w : Network) (s i num : Nat) (n : Host) : Network :=
  { w with host := n, unread := update w.unread i (w.unread i ++ List.replicate num (w.ends s)) }

theorem next_send {num i : Nat} {n : Host} (hcall : sendTo s buf len w.host = .ok (some num, n))
    (hfind : remote_find_peer_socket (w.host.sockets s) w.host = some i) :
    w.next l (.send s buf len) = .ok (w.sent s i num n) := by
  unfold Network.next
  dsimp only
  rw [hcall, hfind]
  rfl

theorem next_send_again {n : Host} (hcall : sendTo s buf len w.host = .ok (none, n)) :
    w.next l (.send s buf len) = .ok { w with host := n } := by
  unfold Network.next
  dsimp only
  rw [hcall]
  rfl

/-- **A send** keeps the connections apart exactly if it finds the other end first. -/
theorem separate_send_iff {num : Nat} {n : Host} (h : w.Separate l) (hcall : sendTo s buf len w.host = .ok (some num, n))
    (hnext : w.next l (.send s buf len) = .ok w') : w'.Separate l ↔ w.Peered l s := by
  obtain ⟨i, hfind, hr⟩ := sendTo_ok hcall
  have hnum : num ≠ 0 := by
    obtain ⟨hr, -⟩ | ⟨hr, -, hroom⟩ := hr
    · cases hr
    · exact Option.some.inj hr ▸ hroom
  obtain rfl := Except.ok.inj (hnext.symm.trans (next_send hcall hfind))
  rw [peered_iff hfind]
  constructor
  · intro hsep
    refine hsep.unread i (w.ends s) ?_
    show _ ∈ update w.unread i _ i
    rw [update_self]
    exact List.mem_append_right _ (List.mem_replicate.mpr ⟨hnum, rfl⟩)
  · intro hright
    refine h.of_eq (fun j sender hsender => ?_) rfl
    replace hsender : sender ∈ update w.unread i (w.unread i ++ List.replicate num (w.ends s)) j := hsender
    by_cases hj : j = i
    · rw [hj, update_self] at hsender
      rw [hj]
      obtain hold | hnew := List.mem_append.mp hsender
      · exact h.unread i sender hold
      · rw [List.eq_of_mem_replicate hnew]
        exact hright
    · rw [update_of_ne hj] at hsender
      exact h.unread j sender hsender

theorem separate_socket {page : Bool} {fd : Option Int} (h : w.Separate l) (hnext : w.next l (.socket page fd) = .ok w') :
    w'.Separate l := by
  obtain ⟨n, -, rfl⟩ := Loop.map_ok hnext
  refine h.of_eq (fun i sender hsender => ?_) rfl
  dsimp only at hsender ⊢
  by_cases hi : made w.host n i
  · rw [if_pos hi] at hsender
    cases hsender
  · rw [if_neg hi] at hsender ⊢
    exact h.unread i sender hsender

theorem separate_call (h : w.Separate l) (ht : w.Tallied) (hcall : Network.Call l (Network.Meets l) w w') : w'.Separate l := by
  obtain ⟨op, hserved, hmeets, hnext⟩ := hcall
  cases op with
  | socket page fd => exact separate_socket h hnext
  | connect s addr => exact separate_connect h ht hserved hmeets hnext
  | accept s page fd => exact separate_accept h hnext
  | receive s len => exact separate_receive h hnext
  | send s buf len =>
    obtain ⟨⟨r, n⟩, hcall, -⟩ := Loop.map_ok (x := sendTo s buf len w.host) hnext
    cases r with
    | none =>
      obtain rfl := Except.ok.inj (hnext.symm.trans (next_send_again hcall))
      exact h.of_eq h.unread rfl
    | some num => exact (separate_send_iff h hcall hnext).mpr hmeets
  | bind | listen | close => exact hserved.elim

end Calls

/-! ## The bytes in the pages -/

section Tally

variable {l s len : Nat} {w w' : Network} {buf : Nat → UInt8}

theorem used_dial (s : Nat) (addr : SocketAddr) (n : Host) (i : Nat) :
    ((dial s addr n).sockets i).used = (n.sockets i).used := by
  unfold dial
  rw [sockets_set]
  by_cases hi : i = s
  · rw [hi, update_self]
  · rw [update_of_ne hi]
    rfl

theorem used_connect {addr : SocketAddr} {n n' : Host} {r : Int} (h : connect s addr n = .ok (r, n')) (i : Nat) :
    (n'.sockets i).used = (n.sockets i).used := by
  obtain ⟨-, rfl, -⟩ | ⟨t, j, -, -, -, -, rfl⟩ := connect_ok h
  · exact used_dial s addr n i
  · rw [sockets_set]
    by_cases hi : i = t
    · rw [hi, update_self]
      exact used_dial s addr n t
    · rw [update_of_ne hi]
      exact used_dial s addr n i

/-- A socket that a call neither makes nor moves bytes of. -/
theorem tally_kept {sock sock' : Socket} {k : Nat} (hk : Kept sock sock') (hmade : sock.used = false → sock'.used = false)
    (h : sock.used = true → k = sock.avail ∧ sock.avail ≤ PAGE_SIZE) (hu : sock'.used = true) :
    k = sock'.avail ∧ sock'.avail ≤ PAGE_SIZE := by
  have hused : sock.used = true := by
    by_contra hno
    exact Bool.false_ne_true ((hmade (Bool.eq_false_iff.mpr hno)).symm.trans hu)
  cases hk with
  | same _ _ hh ht =>
    unfold Socket.avail
    rw [hh, ht]
    exact h hused
  | made hun => exact absurd (hun.symm.trans hused) Bool.false_ne_true

theorem tallied_connect {addr : SocketAddr} (h : w.Tallied) (hnext : w.next l (.connect s addr) = .ok w') : w'.Tallied := by
  obtain ⟨⟨r, n⟩, hcall, rfl⟩ := Loop.map_ok hnext
  intro i hu
  have hexec : exec (.connect s addr) w.host = .ok n := by
    unfold exec
    dsimp only
    rw [hcall]
    rfl
  refine tally_kept (kept_exec hexec nofun nofun i) (fun hun => ?_) (h i) hu
  exact (used_connect hcall i).trans hun

theorem tallied_socket {page : Bool} {fd : Option Int} (h : w.Tallied) (hnext : w.next l (.socket page fd) = .ok w') :
    w'.Tallied := by
  obtain ⟨n, hexec, rfl⟩ := Loop.map_ok hnext
  intro i hu
  have hk := kept_exec hexec nofun nofun i
  dsimp only at hu ⊢
  by_cases hm : made w.host n i
  · rw [if_pos hm]
    cases hk with
    | same hused => exact absurd (hused.elim (fun h => hm.2.symm.trans (h.trans hm.1)) fun h => hm.2.symm.trans h) (by decide)
    | made _ _ hh ht =>
      have hzero := (contents_nil hh ht).2
      rw [hzero]
      exact ⟨rfl, Nat.zero_le _⟩
  · rw [if_neg hm]
    refine tally_kept hk (fun hun => ?_) (h i) hu
    exact Bool.eq_false_iff.mpr fun hused => hm ⟨hun, hused⟩

/-- The socket that `accept` makes. -/
theorem tallied_accept {page : Bool} {fd : Option Int} (h : w.Tallied) (hnext : w.next l (.accept l page fd) = .ok w') :
    w'.Tallied := by
  obtain ⟨⟨r, n⟩, hcall, rfl⟩ := Loop.map_ok hnext
  obtain ⟨rfl, rfl, -⟩ | ⟨j, new, ret, -, hslot, -, -, hun, rfl, hn⟩ := accept_ok hcall
  · exact h
  · have hexec : exec (.accept l page fd) w.host = .ok n := by
      unfold exec
      dsimp only
      rw [hcall]
      rfl
    rw [hslot]
    intro i hu
    dsimp only at hu ⊢
    by_cases hi : i = new
    · rw [hi, update_self, hn, sockets_set, update_self]
      have hzero : (((w.host.set l (w.host.sockets l).popped).sockets new).connected (w.host.sockets l).addr
          ((w.host.sockets l).pending_queue j)).avail = 0 := (contents_nil rfl rfl).2
      rw [hzero]
      exact ⟨rfl, Nat.zero_le _⟩
    · rw [update_of_ne hi]
      refine tally_kept (kept_exec hexec nofun nofun i) (fun hunused => ?_) (h i) hu
      rw [hn, sockets_set, update_of_ne hi, used_popped]
      exact hunused

/-- A send, by where it goes. -/
theorem tallied_send (h : w.Tallied) (hnext : w.next l (.send s buf len) = .ok w') : w'.Tallied := by
  obtain ⟨⟨r, n⟩, hcall, -⟩ := Loop.map_ok (x := sendTo s buf len w.host) hnext
  obtain ⟨i, hfind, ⟨rfl, rfl, -⟩ | ⟨rfl, rfl, -⟩⟩ := sendTo_ok hcall
  · obtain rfl := Except.ok.inj (hnext.symm.trans (next_send_again hcall))
    exact h
  · obtain rfl := Except.ok.inj (hnext.symm.trans (next_send hcall hfind))
    intro j hu
    obtain ⟨hlen, hbound⟩ := h i (find_peer_iff.mp hfind).2.1
    have hroom := room_add_avail hbound len
    have havail : (putBytes (update buf len 0) (roomFor len (w.host.sockets i)) (w.host.sockets i)).avail =
        (w.host.sockets i).avail + roomFor len (w.host.sockets i) := avail_sent hbound
    unfold Network.sent at hu ⊢
    dsimp only at hu ⊢
    rw [sockets_set] at hu ⊢
    generalize roomFor len (w.host.sockets i) = num at *
    by_cases hj : j = i
    · rw [hj, update_self, update_self, List.length_append, List.length_replicate, havail, hlen]
      exact ⟨rfl, hroom⟩
    · rw [update_of_ne hj] at hu
      rw [update_of_ne hj, update_of_ne hj]
      exact h j hu

theorem tallied_receive (h : w.Tallied) (hused : (w.host.sockets s).used = true)
    (hnext : w.next l (.receive s len) = .ok w') : w'.Tallied := by
  cases hnext
  obtain ⟨hlen, hbound⟩ := h s hused
  obtain ⟨hcontents, hle⟩ := receiveFrom_ok hbound len
  have hsum := congrArg List.length hcontents
  rw [List.length_append, length_contents, length_contents] at hsum
  intro i hu
  dsimp only at hu ⊢
  by_cases hi : i = s
  · rw [hi, update_self, List.length_drop]
    exact ⟨by omega, hle.trans hbound⟩
  · have hsame : (receiveFrom s len w.host).2.sockets i = w.host.sockets i := by
      obtain hset | ⟨head, hset⟩ := receiveFrom_set s len w.host
      · rw [hset]
      · rw [hset, sockets_set, update_of_ne hi]
    rw [hsame] at hu ⊢
    rw [update_of_ne hi]
    exact h i hu

theorem tallied_call (h : w.Tallied) (hcall : Network.Call l (Network.Meets l) w w') : w'.Tallied := by
  obtain ⟨op, hserved, -, hnext⟩ := hcall
  cases op with
  | socket page fd => exact tallied_socket h hnext
  | connect s addr => exact tallied_connect h hnext
  | accept s page fd =>
    obtain rfl : s = l := hserved
    exact tallied_accept h hnext
  | send s buf len => exact tallied_send h hnext
  | receive s len => exact tallied_receive h hserved hnext
  | bind | listen | close => exact hserved.elim

end Tally

/-! ## Runs -/

section Runs

variable {l : Nat} {w : Network}

theorem separate_idle (h : w.Idle l) : w.Separate l ∧ w.Tallied := by
  refine ⟨⟨fun i sender hsender => ?_, fun r hr => ?_⟩, fun i hu => ?_⟩
  · rw [h.unread i] at hsender
    cases hsender
  · rw [h.received] at hr
    cases hr
  · have hzero : (w.host.sockets i).avail = 0 := Fifo.count_eq_zero.mpr (h.empty i hu)
    rw [h.unread i, hzero]
    exact ⟨rfl, Nat.zero_le _⟩

theorem separate_of_reach (hr : Reach (Network.Idle l) (Network.Call l (Network.Meets l)) w) : w.Separate l ∧ w.Tallied := by
  have hinit : ∀ w, Network.Idle l w → w.Separate l ∧ w.Tallied := fun w hidle => separate_idle hidle
  exact hr.invariant hinit fun w₁ w₂ hinv hcall => ⟨separate_call hinv.1 hinv.2 hcall, tallied_call hinv.2 hcall⟩

/-- **Connections are point to point** in every run whose sends find the other end first and whose sockets connect
without bytes: each byte in a page, and each byte received, was sent from the other end of the connection, and none
comes to the listening socket. The next send that puts bytes anywhere keeps it so exactly if it finds the other end first. -/
theorem point_to_point (hr : Reach (Network.Idle l) (Network.Call l (Network.Meets l)) w) :
    w.Separate l ∧ (∀ i, (w.host.sockets i).used = true → (w.unread i).length = (w.host.sockets i).avail) ∧
      ∀ s buf len num n w', sendTo s buf len w.host = .ok (some num, n) → w.next l (.send s buf len) = .ok w' →
        (w'.Separate l ↔ w.Peered l s) := by
  obtain ⟨hsep, htally⟩ := separate_of_reach hr
  exact ⟨hsep, fun i hu => (htally i hu).1, fun s buf len num n w' hcall hnext => separate_send_iff hsep hcall hnext⟩

/-! Runs from a table with one socket -/

instance (l : Nat) (op : Op) (n : Host) : Decidable (Network.Served l op n) := by
  unfold Network.Served
  split <;> infer_instance

instance (l : Nat) (op : Op) (w : Network) : Decidable (Network.Meets l op w) := by
  unfold Network.Meets
  split <;> infer_instance

/-- A call that meets a condition. -/
def Network.call (l : Nat) (meets : Op → Network → Prop) [∀ op w, Decidable (meets op w)] (op : Op) (w : Network) :
    Except Halt Network :=
  if Network.Served l op w.host ∧ meets op w then w.next l op else .error .noPeer

def Network.run (l : Nat) (meets : Op → Network → Prop) [∀ op w, Decidable (meets op w)] (ops : List Op) (w : Network) :
    Except Halt Network :=
  ops.foldlM (fun w op => w.call l meets op) w

/-- Only socket `l` is used, and it listens. -/
def listenerAt (l : Nat) : Network where
  host := boot.set l { boot.sockets l with used := true, addr := ⟨2, 0x3412, 0⟩, listening := true }
  calls := 0
  origin := fun _ => 0
  ends := fun _ => none
  unread := fun _ => []
  received := []

theorem idle_listenerAt (l : Nat) : (listenerAt l).Idle l := by
  have hself : (listenerAt l).host.sockets l = { boot.sockets l with used := true, addr := ⟨2, 0x3412, 0⟩, listening := true } :=
    update_self ..
  have hother : ∀ i, i ≠ l → (listenerAt l).host.sockets i = boot.sockets i := fun i hi => update_of_ne hi ..
  refine ⟨by rw [hself], fun i hu => ?_, by rw [hself]; rfl, fun i hu => ?_, fun _ => rfl, fun _ => rfl, rfl⟩
  · by_cases hi : i = l
    · rw [hi, hself]
      exact ⟨fun _ => rfl, fun _ => rfl⟩
    · rw [hother i hi] at hu
      cases hu
  · by_cases hi : i = l
    · rw [hi, hself]
      rfl
    · rw [hother i hi]
      rfl

theorem reach_calls {meets : Op → Network → Prop} [∀ op w, Decidable (meets op w)] {ops : List Op}
    (h : (listenerAt l).run l meets ops = .ok w) :
    Reach (Network.Idle l) (Network.Call l meets) w := by
  refine Reach.foldlM (f := Network.call l meets) (.init (idle_listenerAt l)) (fun op _ w₁ w₂ hcall => ?_) h
  unfold Network.call at hcall
  split at hcall
  · rename_i hboth
    exact ⟨op, hboth.1, hboth.2, hcall⟩
  · cases hcall

/-- A client at socket 0 and the other end of its connection at socket 1, each in front of the listening socket. -/
theorem point_to_point_early : ∃ w, Reach (Network.Idle 2) (Network.Call 2 (Network.Meets 2)) w ∧
    w.received = [⟨1, some ⟨0, true⟩, some ⟨0, false⟩⟩, ⟨0, some ⟨0, false⟩, some ⟨0, true⟩⟩] ∧ w.Separate 2 := by
  have hrun : ((listenerAt 2).run 2 (Network.Meets 2) [.socket true (some 4), .connect 0 ⟨2, 0x1234, 0⟩,
      .accept 2 true (some 5), .send 0 (fun _ => 7) 1, .receive 1 1, .send 1 (fun _ => 8) 1,
      .receive 0 1]).toOption.map (fun w => decide (w.received =
        [⟨1, some ⟨0, true⟩, some ⟨0, false⟩⟩, ⟨0, some ⟨0, false⟩, some ⟨0, true⟩⟩])) = some true := by decide +kernel
  obtain ⟨w, hw, hfacts⟩ := Option.map_eq_some_iff.mp hrun
  have hreach := reach_calls (Loop.ok_of_toOption hw)
  exact ⟨w, hreach, of_decide_eq_true hfacts, (point_to_point hreach).1⟩

/-- Behind the listening socket no accepted socket is found: what a client sends goes to the listening socket. -/
theorem sent_to_listener : ∃ w, Reach (Network.Idle 0) (Network.Call 0 fun _ _ => True) w ∧
    w.received = [⟨0, none, some ⟨0, false⟩⟩] ∧ ¬ w.Separate 0 := by
  have hrun : ((listenerAt 0).run 0 (fun _ _ => True) [.socket true (some 4), .connect 1 ⟨2, 0x1234, 0⟩,
      .accept 0 true (some 5), .send 1 (fun _ => 7) 1, .receive 0 1]).toOption.map
      (fun w => decide (w.received = [⟨0, none, some ⟨0, false⟩⟩])) = some true := by decide +kernel
  obtain ⟨w, hw, hfacts⟩ := Option.map_eq_some_iff.mp hrun
  have hreceived := of_decide_eq_true hfacts
  refine ⟨w, reach_calls (Loop.ok_of_toOption hw), hreceived, fun hsep => ?_⟩
  have hright := hsep.received ⟨0, none, some ⟨0, false⟩⟩ (hreceived ▸ List.mem_singleton_self _)
  exact hright.1 rfl

end Runs

end Exaros.Net
