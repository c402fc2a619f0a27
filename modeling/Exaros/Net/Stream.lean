import Exaros.Net.Socket

/-!
# The byte stream of a socket

What has been sent to a socket is what has been received from it followed by what its page holds, as long as
`strncpy` copies what it is given. It does not always: after a zero byte it writes zeros only. A send is cut in two
where the page ends, and each piece is copied on its own.

**What it does not establish.** That a sender ever finds room.
-/

namespace Exaros.Net

open Run
open Function (update update_self update_of_ne)

/-- The bytes in the page. -/
def Socket.contents (sock : Socket) : List UInt8 := Fifo.contents PAGE_SIZE sock.page sock.head sock.tail

def Socket.avail (sock : Socket) : Nat := Fifo.count sock.head sock.tail

/-- `n` bytes of `buf`. -/
def payload (buf : Nat → UInt8) (src n : Nat) : List UInt8 := (List.range n).map fun j => buf (src + j)

/-- What `strncpy` leaves of a string of bytes. -/
def stored : List UInt8 → List UInt8
  | [] => []
  | ch :: rest => if ch ≠ 0 then ch :: stored rest else List.replicate (rest.length + 1) 0

/-- No other byte than zero follows a zero. -/
def Text (l : List UInt8) : Prop := l.Pairwise fun a b => a = 0 → b = 0

/-- The length of the piece that fits before the page ends. -/
def firstPiece (num : Nat) (peer : Socket) : Nat := min num (PAGE_SIZE - offset peer.tail)

/-- Both pieces of a send are copied as they are. -/
def Whole (buf : Nat → UInt8) (num : Nat) (peer : Socket) : Prop :=
  Text (payload buf 0 (firstPiece num peer)) ∧ Text (payload buf (firstPiece num peer) (num - firstPiece num peer))

/-! ## `strncpy` -/

section Copy

variable {buf page : Nat → UInt8} {n dst src i : Nat}

theorem length_payload (buf : Nat → UInt8) (src n : Nat) : (payload buf src n).length = n := by simp [payload]

theorem payload_succ (buf : Nat → UInt8) (src n : Nat) : payload buf src (n + 1) = buf src :: payload buf (src + 1) n := by
  unfold payload
  rw [List.range_succ_eq_map, List.map_cons, List.map_map]
  refine congrArg₂ _ rfl (List.map_congr_left fun j _ => ?_)
  show buf (src + (j + 1)) = buf (src + 1 + j)
  rw [Nat.add_comm j 1, Nat.add_assoc]

theorem payload_add (buf : Nat → UInt8) (src k n : Nat) : payload buf src (k + n) = payload buf src k ++ payload buf (src + k) n := by
  unfold payload
  rw [List.range_add, List.map_append, List.map_map]
  refine congrArg₂ _ rfl (List.map_congr_left fun j _ => ?_)
  show buf (src + (k + j)) = buf (src + k + j)
  rw [Nat.add_assoc]

theorem length_stored (l : List UInt8) : (stored l).length = l.length := by
  induction l with
  | nil => rfl
  | cons ch rest ih =>
    unfold stored
    split
    · rw [List.length_cons, ih, List.length_cons]
    · rw [List.length_replicate, List.length_cons]

/-- **What `strncpy` keeps**: exactly the strings without anything behind a zero. -/
theorem stored_eq_iff (l : List UInt8) : stored l = l ↔ Text l := by
  unfold Text
  induction l with
  | nil => exact ⟨fun _ => .nil, fun _ => rfl⟩
  | cons ch rest ih =>
    rw [List.pairwise_cons]
    unfold stored
    by_cases hch : ch ≠ 0
    · rw [if_pos hch, List.cons.injEq, ih]
      exact ⟨fun h => ⟨fun _ _ hz => absurd hz hch, h.2⟩, fun h => ⟨rfl, h.2⟩⟩
    · have hz : ch = 0 := not_not.mp hch
      rw [if_neg hch, hz, List.replicate_succ, List.cons.injEq, eq_comm (a := List.replicate _ _), List.eq_replicate_iff]
      constructor
      · intro h
        refine ⟨fun b hb _ => h.2.2 b hb, ?_⟩
        rw [(List.eq_replicate_iff.mpr h.2 : rest = _)]
        exact List.pairwise_replicate.mpr (.inr fun h => h)
      · intro h
        exact ⟨rfl, rfl, fun b hb => h.1 b hb rfl⟩

theorem padZero_off (h : i < dst ∨ dst + n ≤ i) : padZero n dst page i = page i := by
  induction n generalizing dst page with
  | zero => rfl
  | succ n ih =>
    unfold padZero
    rw [ih (by omega), update_of_ne (by omega)]

theorem padZero_on (h : dst ≤ i) (h' : i < dst + n) : padZero n dst page i = 0 := by
  induction n generalizing dst page with
  | zero => omega
  | succ n ih =>
    unfold padZero
    by_cases hi : i = dst
    · rw [hi, padZero_off (.inl (Nat.lt_succ_self dst)), update_self]
    · exact ih (by omega) (by omega)

theorem strncpy_off (h : i < dst ∨ dst + n ≤ i) : strncpy buf n dst src page i = page i := by
  induction n generalizing dst src page with
  | zero => rfl
  | succ n ih =>
    unfold strncpy
    split
    · rw [ih (by omega), update_of_ne (by omega)]
    · rw [padZero_off (by omega), update_of_ne (by omega)]

/-- The bytes `strncpy` writes. -/
theorem payload_strncpy (buf : Nat → UInt8) (n dst src : Nat) (page : Nat → UInt8) :
    payload (strncpy buf n dst src page) dst n = stored (payload buf src n) := by
  induction n generalizing dst src page with
  | zero => rfl
  | succ n ih =>
    rw [payload_succ, payload_succ]
    unfold strncpy stored
    split
    · rw [ih, strncpy_off (.inl (Nat.lt_succ_self dst)), update_self]
    · rename_i hch
      rw [length_payload, List.replicate_succ, padZero_off (.inl (Nat.lt_succ_self dst)), update_self]
      refine congrArg₂ _ (not_not.mp hch) ?_
      unfold payload
      rw [List.eq_replicate_iff]
      refine ⟨by simp, fun b hb => ?_⟩
      obtain ⟨j, hj, rfl⟩ := List.mem_map.mp hb
      exact padZero_on (Nat.le_add_right ..) (Nat.add_lt_add_left (List.mem_range.mp hj) _)

theorem payload_congr {page' : Nat → UInt8} (h : ∀ j < n, page' (src + j) = page (src + j)) :
    payload page' src n = payload page src n :=
  List.map_congr_left fun j hj => h j (List.mem_range.mp hj)

end Copy

/-! ## The page -/

theorem length_contents (sock : Socket) : sock.contents.length = sock.avail := Fifo.length_contents

section Page

variable {sock : Socket} {buf : Nat → UInt8} {num : Nat}

theorem dvd_size : PAGE_SIZE ∣ 2 ^ 64 := ⟨2 ^ 52, by decide⟩

theorem size_lt : PAGE_SIZE < 2 ^ 64 := by decide

theorem offset_eq (x : UInt64) : offset x = x.toNat % PAGE_SIZE := by
  rw [offset, UInt64.toNat_and]
  exact Nat.and_two_pow_sub_one_eq_mod _ 12

theorem offset_lt (x : UInt64) : offset x < PAGE_SIZE := by
  rw [offset_eq]
  exact Nat.mod_lt _ (by decide)

/-- A window of the page, in the pieces the page end cuts it into. -/
theorem window_pieces (page : Nat → UInt8) (x : UInt64) {k m : Nat} (hk : offset x + k ≤ PAGE_SIZE)
    (hm : m = 0 ∨ (offset x + k = PAGE_SIZE ∧ m ≤ PAGE_SIZE)) :
    Fifo.window PAGE_SIZE page x.toNat (k + m) = payload page (offset x) k ++ payload page 0 m := by
  rw [Fifo.window_split]
  refine congrArg₂ _ (List.map_congr_left fun j hj => congrArg page ?_) (List.map_congr_left fun j hj => congrArg page ?_)
  · have hj := List.mem_range.mp hj
    rw [Nat.add_mod, ← offset_eq, Nat.mod_eq_of_lt (by omega : j < PAGE_SIZE), Nat.mod_eq_of_lt (by omega)]
  · have hj := List.mem_range.mp hj
    obtain ⟨hend, hle⟩ := hm.resolve_left (by omega)
    rw [Nat.add_assoc, Nat.add_mod, ← offset_eq, Nat.add_mod_mod, ← Nat.add_assoc, hend, Nat.add_mod_left,
      Nat.mod_eq_of_lt (by omega), Nat.zero_add]

/-- **`receiveFrom`** reads the oldest bytes. -/
theorem getBytes_eq (hnum : num ≤ PAGE_SIZE) (sock : Socket) :
    getBytes num sock = Fifo.window PAGE_SIZE sock.page sock.head.toNat num := by
  have ho := offset_lt sock.head
  unfold getBytes
  have hsplit := window_pieces sock.page sock.head (k := min num (PAGE_SIZE - offset sock.head))
    (m := num - min num (PAGE_SIZE - offset sock.head)) (by omega) (by omega)
  rw [Nat.add_sub_cancel' (Nat.min_le_left ..)] at hsplit
  rw [hsplit]
  refine congrArg₂ _ rfl ?_
  split
  · exact List.map_congr_left fun j _ => by rw [Nat.zero_add]
  · rename_i hle
    rw [Nat.sub_eq_zero_of_le (Nat.le_of_not_lt hle)]
    rfl

theorem used_putBytes (buf : Nat → UInt8) (num : Nat) (sock : Socket) : (putBytes buf num sock).used = sock.used := rfl

theorem cells_putBytes (buf : Nat → UInt8) (num : Nat) (sock : Socket) :
    (putBytes buf num sock).page =
      if firstPiece num sock < num then
        strncpy buf (num - firstPiece num sock) 0 (firstPiece num sock)
          (strncpy buf (firstPiece num sock) (offset sock.tail) 0 sock.page)
      else strncpy buf (firstPiece num sock) (offset sock.tail) 0 sock.page := rfl

/-- **`sendTo`** puts behind the bytes there what `strncpy` leaves of the two pieces. -/
theorem contents_putBytes (h : sock.avail + num ≤ PAGE_SIZE) (buf : Nat → UInt8) :
    (putBytes buf num sock).contents = sock.contents ++ (stored (payload buf 0 (firstPiece num sock)) ++
      stored (payload buf (firstPiece num sock) (num - firstPiece num sock))) := by
  have ho := offset_lt sock.tail
  have hk : offset sock.tail + firstPiece num sock ≤ PAGE_SIZE := by
    unfold firstPiece
    omega
  have hm : num - firstPiece num sock = 0 ∨
      (offset sock.tail + firstPiece num sock = PAGE_SIZE ∧ num - firstPiece num sock ≤ offset sock.tail) := by
    unfold firstPiece
    omega
  have hle : firstPiece num sock ≤ num := Nat.min_le_left ..
  show Fifo.contents PAGE_SIZE (putBytes buf num sock).page sock.head (sock.tail + UInt64.ofNat num) = _
  have hcells := cells_putBytes buf num sock
  generalize (putBytes buf num sock).page = page' at *
  generalize firstPiece num sock = k at *
  rw [Fifo.contents_append sock.page dvd_size size_lt h fun i hi => ?_]
  · refine congrArg₂ _ rfl ?_
    have hpieces := window_pieces page' sock.tail hk (hm.imp_right fun h => ⟨h.1, by omega⟩)
    rw [Nat.add_sub_cancel' hle] at hpieces
    rw [hpieces, hcells]
    by_cases hlt : k < num
    · rw [if_pos hlt, payload_strncpy buf (num - k) 0 k, ← payload_strncpy buf k (offset sock.tail) 0 sock.page]
      exact congrArg₂ _ (payload_congr fun j _ => strncpy_off (.inr (by omega))) rfl
    · rw [if_neg hlt, payload_strncpy, Nat.sub_eq_zero_of_le (Nat.le_of_not_lt hlt)]
      rfl
  · have hcell : ∀ j < num, i ≠ (offset sock.tail + j) % PAGE_SIZE := fun j hj => by
      rw [offset_eq, Nat.mod_add_mod]
      exact hi j hj
    have hfirst : i < offset sock.tail ∨ offset sock.tail + k ≤ i := by
      by_contra hin
      apply hcell (i - offset sock.tail) (by omega)
      rw [Nat.mod_eq_of_lt (by omega)]
      omega
    rw [hcells]
    split
    · have hsecond : num - k ≤ i := by
        by_contra hin
        apply hcell (k + i) (by omega)
        rw [← Nat.add_assoc, (hm.resolve_left (by omega)).1, Nat.add_mod_left, Nat.mod_eq_of_lt (by omega)]
      rw [strncpy_off (.inr (by omega)), strncpy_off hfirst]
    · exact strncpy_off hfirst

end Page

/-! ## Traffic -/

/-- The bytes of a send that a socket takes: the first of the caller's, as many as the call returns. -/
def Op.taken (op : Op) (n : Host) (i : Nat) : List UInt8 :=
  match op with
  | .send s buf len =>
    match sendTo s buf len n with
    | .ok (some ret, _) => if remote_find_peer_socket (n.sockets s) n = some i then payload buf 0 ret else []
    | _ => []
  | _ => []

/-- The bytes a socket gives to a receive. -/
def Op.given (op : Op) (n : Host) (i : Nat) : List UInt8 :=
  match op with
  | .receive s len => if s = i then (receiveFrom s len n).1.getD [] else []
  | _ => []

/-- A send of which both pieces are copied as they are. -/
def Op.Whole (op : Op) (n : Host) : Prop :=
  match op with
  | .send s buf len => ∀ i, remote_find_peer_socket (n.sockets s) n = some i →
      Net.Whole buf (roomFor len (n.sockets i)) (n.sockets i)
  | _ => True

/-- A host, with what each of its sockets has taken and given since it was made. -/
structure Traffic where
  host : Host
  taken : Nat → List UInt8
  given : Nat → List UInt8

/-- A socket made by a call: it was not used before it. -/
def made (n n' : Host) (i : Nat) : Prop := (n.sockets i).used = false ∧ (n'.sockets i).used = true

instance (n n' : Host) (i : Nat) : Decidable (made n n' i) := by unfold made; infer_instance

def Traffic.next (op : Op) (t : Traffic) : Except Halt Traffic :=
  (exec op t.host).map fun n =>
    { host := n
      taken := fun i => if made t.host n i then [] else t.taken i ++ op.taken t.host i
      given := fun i => if made t.host n i then [] else t.given i ++ op.given t.host i }

/-- Traffic just after boot. -/
def quiet : Traffic := ⟨boot, fun _ => [], fun _ => []⟩

/-- Calls whatever their order, each of them meeting a condition. -/
def Calls (meets : Op → Host → Prop) (t t' : Traffic) : Prop := ∃ op, meets op t.host ∧ t.next op = .ok t'

/-! ## Calls that move no bytes -/

/-- What a call leaves of a socket that it does not move bytes of: its page with the counts, unless it makes it. -/
inductive Kept (sock sock' : Socket) : Prop
  | same : sock'.used = sock.used ∨ sock'.used = false → sock'.page = sock.page → sock'.head = sock.head →
      sock'.tail = sock.tail → Kept sock sock'
  | made : sock.used = false → sock'.used = true → sock'.head = 0 → sock'.tail = 0 → Kept sock sock'

section Kept

variable {n n' : Host} {sock : Socket} {s i : Nat}

theorem Kept.refl (sock : Socket) : Kept sock sock := .same (.inl rfl) rfl rfl rfl

theorem kept_set (h : Kept (n.sockets s) sock) (i : Nat) : Kept (n.sockets i) ((n.set s sock).sockets i) := by
  rw [sockets_set]
  by_cases hi : i = s
  · rw [hi, update_self]
    exact h
  · rw [update_of_ne hi]
    exact .refl _

/-- Across a call that moves no bytes. -/
theorem kept_exec {op : Op} (h : exec op n = .ok n') (hsend : ∀ s buf len, op ≠ .send s buf len)
    (hreceive : ∀ s len, op ≠ .receive s len) (i : Nat) : Kept (n.sockets i) (n'.sockets i) := by
  cases op with
  | socket page fd =>
    obtain ⟨⟨r, n₁⟩, hcall, rfl⟩ := Loop.map_ok h
    obtain ⟨j, -, hun, -, rfl⟩ := createSocket_ok hcall
    exact kept_set (.made hun rfl rfl rfl) i
  | bind s sa =>
    cases h
    refine kept_set ?_ i
    exact .same (.inl rfl) rfl rfl rfl
  | listen s =>
    cases h
    refine kept_set ?_ i
    exact .same (.inl rfl) rfl rfl rfl
  | close s =>
    cases h
    refine kept_set ?_ i
    exact .same (.inr rfl) rfl rfl rfl
  | connect s addr =>
    obtain ⟨⟨r, n₁⟩, hcall, rfl⟩ := Loop.map_ok h
    have hdial : Kept (n.sockets i) ((dial s addr n).sockets i) := by
      refine kept_set (n := n) ?_ i
      exact .same (.inl rfl) rfl rfl rfl
    obtain ⟨-, rfl, -⟩ | ⟨t, j, -, -, -, -, rfl⟩ := connect_ok hcall
    · exact hdial
    · dsimp only
      rw [sockets_set]
      by_cases hi : i = t
      · subst hi
        rw [update_self]
        cases hdial with
        | same hu hp hh ht => exact .same hu hp hh ht
        | made hu hm hh ht => exact .made hu hm hh ht
      · rw [update_of_ne hi]
        exact hdial
  | accept s page fd =>
    obtain ⟨⟨r, n₁⟩, hcall, rfl⟩ := Loop.map_ok h
    obtain ⟨-, rfl, -⟩ | ⟨j, new, ret, -, -, -, -, hun, -, rfl⟩ := accept_ok hcall
    · exact .refl _
    · dsimp only
      rw [sockets_set]
      by_cases hi : i = new
      · subst hi
        rw [update_self]
        exact .made (used_popped n s i ▸ hun) rfl rfl rfl
      · rw [update_of_ne hi]
        refine kept_set ?_ i
        exact .same (.inl rfl) rfl rfl rfl
  | send s buf len => exact absurd rfl (hsend s buf len)
  | receive s len => exact absurd rfl (hreceive s len)

end Kept

/-! ## Sends and receives -/

section Moves

variable {n n' : Host} {s i len : Nat} {buf : Nat → UInt8} {sock : Socket}

theorem room_add_avail (h : sock.avail ≤ PAGE_SIZE) (len : Nat) : sock.avail + roomFor len sock ≤ PAGE_SIZE := by
  have hle : sock.tail - sock.head ≤ UInt64.ofNat PAGE_SIZE := UInt64.le_iff_toNat_le.mpr h
  have hroom : (UInt64.ofNat PAGE_SIZE - (sock.tail - sock.head)).toNat = PAGE_SIZE - sock.avail :=
    UInt64.toNat_sub_of_le _ _ hle
  unfold roomFor
  rw [hroom]
  omega

theorem roomFor_le (len : Nat) (sock : Socket) : roomFor len sock ≤ len := Nat.min_le_right ..

/-- The zero that `sendTo` puts behind the caller's bytes is none of them. -/
theorem payload_update {src k : Nat} (h : src + k ≤ len) : payload (update buf len 0) src k = payload buf src k :=
  payload_congr fun j hj => update_of_ne (by omega) _ _

theorem firstPiece_le (num : Nat) (sock : Socket) : firstPiece num sock ≤ num := Nat.min_le_left ..

/-- **`sendTo`** puts the bytes it takes behind those in the page if it copies them as they are, and only then. -/
theorem contents_sent (h : sock.avail ≤ PAGE_SIZE) :
    (putBytes (update buf len 0) (roomFor len sock) sock).contents =
      sock.contents ++ payload buf 0 (roomFor len sock) ↔ Whole buf (roomFor len sock) sock := by
  have hle := roomFor_le len sock
  have hfirst := firstPiece_le (roomFor len sock) sock
  rw [contents_putBytes (room_add_avail h len), payload_update (by omega), payload_update (by omega)]
  generalize roomFor len sock = num at *
  have hsplit : payload buf 0 num = payload buf 0 (firstPiece num sock) ++
      payload buf (firstPiece num sock) (num - firstPiece num sock) := by
    conv_lhs => rw [← Nat.add_sub_cancel' hfirst, payload_add, Nat.zero_add]
  rw [hsplit, List.append_cancel_left_eq, List.append_eq_append_iff_of_size_eq_left (length_stored _), stored_eq_iff,
    stored_eq_iff]
  rfl

theorem avail_sent (h : sock.avail ≤ PAGE_SIZE) :
    (putBytes (update buf len 0) (roomFor len sock) sock).avail = sock.avail + roomFor len sock := by
  have hroom := room_add_avail h len
  generalize roomFor len sock = num at *
  exact Fifo.count_add hroom size_lt

/-- **`receiveFrom`** gives the oldest bytes and leaves the others. -/
theorem receiveFrom_ok (h : (n.sockets s).avail ≤ PAGE_SIZE) (len : Nat) :
    (n.sockets s).contents = (receiveFrom s len n).1.getD [] ++ ((receiveFrom s len n).2.sockets s).contents ∧
      ((receiveFrom s len n).2.sockets s).avail ≤ (n.sockets s).avail := by
  unfold receiveFrom
  dsimp only
  have hle : min len ((n.sockets s).tail - (n.sockets s).head).toNat ≤ (n.sockets s).avail := Nat.min_le_right ..
  generalize min len ((n.sockets s).tail - (n.sockets s).head).toNat = num at *
  split
  · exact ⟨rfl, le_rfl⟩
  · dsimp only
    rw [sockets_set, update_self]
    refine ⟨?_, ?_⟩
    · rw [Option.getD_some, getBytes_eq (hle.trans h)]
      exact Fifo.contents_split dvd_size hle
    · unfold Socket.avail
      rw [Fifo.count_sub hle]
      exact Nat.sub_le ..

/-- A receive with room for all the bytes there are gives them all. -/
theorem receiveFrom_all (h : (n.sockets s).avail ≤ PAGE_SIZE) (hlen : (n.sockets s).avail ≤ len) :
    (receiveFrom s len n).1.getD [] = (n.sockets s).contents := by
  unfold receiveFrom
  dsimp only
  have hnum : min len ((n.sockets s).tail - (n.sockets s).head).toNat = (n.sockets s).avail := Nat.min_eq_right hlen
  rw [hnum]
  split
  · rename_i hzero
    exact (Fifo.contents_eq_nil hzero).symm
  · rw [Option.getD_some, getBytes_eq h]
    rfl

end Moves

/-! ## Runs -/

section Runs

variable {t t' : Traffic} {op : Op} {i : Nat} {n n' : Host} {buf : Nat → UInt8} {s len : Nat}

/-- **The bytes a socket has taken are those it has given and those in its page.** -/
def Traffic.Flows (t : Traffic) : Prop := ∀ i, t.taken i = t.given i ++ (t.host.sockets i).contents

def Traffic.Bounded (t : Traffic) : Prop := ∀ i, (t.host.sockets i).avail ≤ PAGE_SIZE

theorem contents_nil {sock : Socket} (hh : sock.head = 0) (ht : sock.tail = 0) : sock.contents = [] ∧ sock.avail = 0 := by
  unfold Socket.contents Socket.avail
  rw [hh, ht]
  exact ⟨rfl, rfl⟩

/-- What one call does to a socket that it does not make. -/
structure Moved (op : Op) (n n' : Host) (i : Nat) : Prop where
  queue : op.Whole n → (n.sockets i).contents ++ op.taken n i = op.given n i ++ (n'.sockets i).contents
  bound : (n'.sockets i).avail ≤ PAGE_SIZE

theorem moved_kept (hk : Kept (n.sockets i) (n'.sockets i)) (hb : (n.sockets i).avail ≤ PAGE_SIZE)
    (htaken : op.taken n i = []) (hgiven : op.given n i = []) :
    (made n n' i ∧ (n'.sockets i).contents = [] ∧ (n'.sockets i).avail = 0) ∨ (¬ made n n' i ∧ Moved op n n' i) := by
  cases hk with
  | same hu hp hh ht =>
    have hcontents : (n'.sockets i).contents = (n.sockets i).contents := by
      unfold Socket.contents
      rw [hp, hh, ht]
    refine .inr ⟨fun hm => ?_, fun _ => ?_, ?_⟩
    · obtain hu | hu := hu
      · exact Bool.false_ne_true (hm.1.symm.trans (hu.symm.trans hm.2))
      · exact Bool.false_ne_true (hu.symm.trans hm.2)
    · rw [htaken, hgiven, hcontents, List.append_nil, List.nil_append]
    · unfold Socket.avail
      rw [hh, ht]
      exact hb
  | made hun hu hh ht => exact .inl ⟨⟨hun, hu⟩, contents_nil hh ht⟩

/-- A socket that a call has put another page and other counts into. -/
theorem not_made_set {n : Host} {s : Nat} {sock : Socket} (h : sock.used = (n.sockets s).used) : ¬ made n (n.set s sock) i := by
  intro hm
  obtain ⟨hun, hu⟩ := hm
  rw [sockets_set] at hu
  by_cases hi : i = s
  · rw [hi, update_self, h, ← hi, hun] at hu
    cases hu
  · rw [update_of_ne hi, hun] at hu
    cases hu

/-- A send puts bytes behind those of its peer. -/
theorem moved_send (h : exec (.send s buf len) n = .ok n')
    (hb : (n.sockets i).avail ≤ PAGE_SIZE) : ¬ made n n' i ∧ Moved (.send s buf len) n n' i := by
  obtain ⟨⟨r, n₁⟩, hcall, rfl⟩ := Loop.map_ok h
  have htaken : (Op.send s buf len).taken n i =
      if remote_find_peer_socket (n.sockets s) n = some i then (r.map (payload buf 0)).getD [] else [] := by
    unfold Op.taken
    dsimp only
    rw [hcall]
    cases r with
    | none => exact (ite_self _).symm
    | some ret => rfl
  have hgiven : (Op.send s buf len).given n i = [] := rfl
  obtain ⟨j, hfind, ⟨hr, hn, -⟩ | ⟨hr, hn, -⟩⟩ := sendTo_ok hcall
  · rw [hr] at htaken
    have htaken : (Op.send s buf len).taken n i = [] := htaken.trans (ite_self _)
    rw [hn]
    refine ⟨fun hm => Bool.false_ne_true (hm.1.symm.trans hm.2), fun _ => ?_, hb⟩
    rw [htaken, hgiven, List.append_nil, List.nil_append]
  · rw [hr, hfind] at htaken
    have hroom := room_add_avail hb len
    rw [hn]
    refine ⟨not_made_set (used_putBytes ..), fun hw => ?_, ?_⟩
    · rw [htaken, hgiven, List.nil_append, sockets_set]
      by_cases hi : i = j
      · subst hi
        rw [update_self, if_pos rfl, (contents_sent hb).mpr (hw i hfind), Option.map_some, Option.getD_some]
      · rw [update_of_ne hi, if_neg (fun h => hi (Option.some.inj h).symm), List.append_nil]
    · rw [sockets_set]
      by_cases hi : i = j
      · subst hi
        rw [update_self, avail_sent hb]
        exact hroom
      · rw [update_of_ne hi]
        exact hb

/-- A receive takes the first bytes. -/
theorem moved_receive (h : exec (.receive s len) n = .ok n')
    (hb : (n.sockets i).avail ≤ PAGE_SIZE) : ¬ made n n' i ∧ Moved (.receive s len) n n' i := by
  cases h
  have hset := receiveFrom_set s len n
  have hmade : ¬ made n (receiveFrom s len n).2 i := by
    obtain hset | ⟨head, hset⟩ := hset
    · rw [hset]
      exact fun hm => Bool.false_ne_true (hm.1.symm.trans hm.2)
    · rw [hset]
      exact not_made_set rfl
  have htaken : (Op.receive s len).taken n i = [] := rfl
  by_cases hi : i = s
  · subst hi
    obtain ⟨hcontents, hle⟩ := receiveFrom_ok hb len
    refine ⟨hmade, fun _ => ?_, hle.trans hb⟩
    rw [htaken, List.append_nil, hcontents]
    exact congrArg₂ _ (if_pos rfl).symm rfl
  · have hsame : (receiveFrom s len n).2.sockets i = n.sockets i := by
      obtain hset | ⟨head, hset⟩ := hset
      · rw [hset]
      · rw [hset, sockets_set, update_of_ne hi]
    have hgiven : (Op.receive s len).given n i = [] := if_neg (Ne.symm hi)
    exact ⟨hmade, fun _ => by rw [htaken, hgiven, hsame, List.append_nil, List.nil_append], by rw [hsame]; exact hb⟩

theorem moved_exec (h : exec op n = .ok n') (hb : (n.sockets i).avail ≤ PAGE_SIZE) :
    (made n n' i ∧ (n'.sockets i).contents = [] ∧ (n'.sockets i).avail = 0) ∨ (¬ made n n' i ∧ Moved op n n' i) := by
  cases op with
  | send s buf len => exact .inr (moved_send h hb)
  | receive s len => exact .inr (moved_receive h hb)
  | socket | bind | listen | connect | accept | close =>
    exact moved_kept (kept_exec h nofun nofun i) hb rfl rfl

theorem next_ok (h : t.next op = .ok t') : exec op t.host = .ok t'.host ∧
    (∀ i, t'.taken i = if made t.host t'.host i then [] else t.taken i ++ op.taken t.host i) ∧
    ∀ i, t'.given i = if made t.host t'.host i then [] else t.given i ++ op.given t.host i := by
  obtain ⟨n, hn, rfl⟩ := Loop.map_ok h
  exact ⟨hn, fun _ => rfl, fun _ => rfl⟩

theorem bounded_next (hb : t.Bounded) (h : t.next op = .ok t') : t'.Bounded := by
  intro i
  obtain ⟨-, -, hzero⟩ | ⟨-, hm⟩ := moved_exec (next_ok h).1 (hb i)
  · exact hzero ▸ Nat.zero_le _
  · exact hm.bound

theorem flows_next (hf : t.Flows) (hb : t.Bounded) (hw : op.Whole t.host) (h : t.next op = .ok t') : t'.Flows := by
  obtain ⟨hexec, htaken, hgiven⟩ := next_ok h
  intro i
  rw [htaken, hgiven]
  obtain ⟨hmade, hnil, -⟩ | ⟨hmade, hm⟩ := moved_exec hexec (hb i)
  · rw [if_pos hmade, if_pos hmade, hnil]
    rfl
  · rw [if_neg hmade, if_neg hmade, hf i, List.append_assoc, hm.queue hw, List.append_assoc]

theorem bounded_quiet : quiet.Bounded := fun i => by
  have hzero : (quiet.host.sockets i).avail = 0 := (contents_nil rfl rfl).2
  rw [hzero]
  exact Nat.zero_le _

theorem flows_quiet : quiet.Flows := fun i => by
  have hnil : (quiet.host.sockets i).contents = [] := (contents_nil rfl rfl).1
  rw [hnil]
  rfl

theorem bounded_of_reach {meets : Op → Host → Prop} (h : Reach (· = quiet) (Calls meets) t) : t.Bounded := by
  have hinit : ∀ t₀, t₀ = quiet → t₀.Bounded := fun t₀ h₀ => h₀ ▸ bounded_quiet
  refine h.invariant hinit fun t₁ t₂ hb hcall => ?_
  obtain ⟨op, -, hnext⟩ := hcall
  exact bounded_next hb hnext

theorem flows_of_reach (h : Reach (· = quiet) (Calls Op.Whole) t) : t.Bounded ∧ t.Flows := by
  have hinit : ∀ t₀, t₀ = quiet → t₀.Bounded ∧ t₀.Flows := fun t₀ h₀ => h₀ ▸ ⟨bounded_quiet, flows_quiet⟩
  refine h.invariant hinit fun t₁ t₂ hinv hcall => ?_
  obtain ⟨op, hwhole, hnext⟩ := hcall
  exact ⟨bounded_next hinv.1 hnext, flows_next hinv.2 hinv.1 hwhole hnext⟩

/-- What a receive gives next, as far as the page goes. -/
theorem received_in_order (hb : t.Bounded) (len : Nat) :
    (receiveFrom i len t.host).1.getD [] <+: (t.host.sockets i).contents :=
  ⟨_, (receiveFrom_ok (hb i) len).1.symm⟩

/-- A send of which nothing wrong can be received has been copied whole. -/
theorem whole_of_given (hb : t.Bounded) (hf : t.Flows)
    (h : t.next (.send s buf len) = .ok t') (hgiven : ∀ i, t'.given i ++ (t'.host.sockets i).contents <+: t'.taken i) :
    (Op.send s buf len).Whole t.host := by
  intro i hfind
  obtain ⟨hexec, htaken, hgive⟩ := next_ok h
  have hmade : ¬ made t.host t'.host i := (moved_send hexec (hb i)).1
  have hpre := hgiven i
  rw [htaken i, hgive i, if_neg hmade, if_neg hmade, hf i] at hpre
  obtain ⟨⟨r, n⟩, hcall, hn⟩ := Loop.map_ok hexec
  have hnone : (Op.send s buf len).given t.host i = [] := rfl
  rw [hnone, List.append_nil, List.append_assoc, List.prefix_append_right_inj, ← hn] at hpre
  obtain ⟨j, hj, hcase⟩ := sendTo_ok hcall
  rw [hfind, Option.some.injEq] at hj
  subst hj
  obtain ⟨-, -, hzero⟩ | ⟨hr, hset, -⟩ := hcase
  · rw [hzero]
    exact ⟨.nil, .nil⟩
  · rw [← contents_sent (hb i)]
    have htake : (Op.send s buf len).taken t.host i = payload buf 0 (roomFor len (t.host.sockets i)) := by
      unfold Op.taken
      dsimp only
      rw [hcall, hr]
      exact if_pos hfind
    rw [htake, hset, sockets_set, update_self] at hpre
    refine hpre.eq_of_length ?_
    rw [length_contents, List.length_append, length_payload, length_contents]
    exact avail_sent (hb i)

/-- **Bytes come out of a socket as they have gone in** in every run whose sends are copied whole, and a send that is not
is seen by the next receive. The counts are a page apart at most in every run. -/
theorem given_in_order (t : Traffic) :
    (Reach (· = quiet) (Calls fun _ _ => True) t → ∀ i, (t.host.sockets i).avail ≤ PAGE_SIZE) ∧
    (Reach (· = quiet) (Calls Op.Whole) t → (∀ i, t.given i <+: t.taken i) ∧
      ∀ s buf len t', t.next (.send s buf len) = .ok t' →
        ((∀ i len, t'.given i ++ (receiveFrom i len t'.host).1.getD [] <+: t'.taken i) ↔ (Op.send s buf len).Whole t.host)) := by
  refine ⟨fun h => bounded_of_reach h, fun h => ?_⟩
  obtain ⟨hb, hf⟩ := flows_of_reach h
  refine ⟨fun i => ⟨_, (hf i).symm⟩, fun s buf len t' hnext => ⟨fun hall => ?_, fun hwhole i k => ?_⟩⟩
  · refine whole_of_given hb hf hnext fun i => ?_
    have hb' := bounded_next hb hnext i
    rw [← receiveFrom_all hb' hb']
    exact hall i PAGE_SIZE
  · have hb' := bounded_next hb hnext
    rw [flows_next hf hb hwhole hnext i]
    exact (List.prefix_append_right_inj _).mpr (received_in_order hb' k)

/-! Calls one after the other -/

def Traffic.run (ops : List Op) (t : Traffic) : Except Halt Traffic := ops.foldlM (fun t op => t.next op) t

theorem reach_run {meets : Op → Host → Prop} {ops : List Op} (hmeets : ∀ op ∈ ops, ∀ n, meets op n)
    (hr : Reach (· = quiet) (Calls meets) t) (h : t.run ops = .ok t') : Reach (· = quiet) (Calls meets) t' := by
  exact hr.foldlM (f := Traffic.next) (fun op hop t₁ t₂ hnext => ⟨op, hmeets op hop t₁.host, hnext⟩) h

theorem whole_of_ne_zero {n : Host} (h : ∀ j, buf j ≠ 0) :
    (Op.send s buf len).Whole n := by
  have htext : ∀ src k, Text (payload buf src k) := fun src k => by
    refine List.pairwise_of_forall_mem_list fun a ha b _ hz => ?_
    obtain ⟨j, -, hj⟩ := List.mem_map.mp ha
    exact absurd (hj.trans hz) (h _)
  exact fun i _ => ⟨htext _ _, htext _ _⟩

/-- Three bytes are sent, and two of them received. -/
theorem given_in_order_opening : ∃ t, Reach (· = quiet) (Calls Op.Whole) t ∧ t.taken 1 = [7, 7, 7] ∧ t.given 1 = [7, 7] ∧
    ∀ i, t.given i <+: t.taken i := by
  have hrun : (quiet.run (opening ++ [.send 2 (fun _ => 7) 3, .receive 1 2])).toOption.map
      (fun t => decide (t.taken 1 = [7, 7, 7] ∧ t.given 1 = [7, 7])) = some true := by decide +kernel
  obtain ⟨t, ht, hfacts⟩ := Option.map_eq_some_iff.mp hrun
  have hwhole : ∀ op ∈ opening ++ [Op.send 2 (fun _ => 7) 3, .receive 1 2], ∀ n, op.Whole n := by
    have hopening : ∀ op ∈ opening, ∀ n, op.Whole n := by simp [opening, listening, Op.Whole]
    have hsend : ∀ n, (Op.send 2 (fun _ => 7) 3).Whole n := fun n => whole_of_ne_zero fun _ => by decide
    exact List.forall_mem_append.mpr
      ⟨hopening, List.forall_mem_cons.mpr ⟨hsend, List.forall_mem_singleton.mpr fun _ => trivial⟩⟩
  have hreach := reach_run hwhole (.init rfl) (Loop.ok_of_toOption ht)
  obtain ⟨htaken, hgiven⟩ := of_decide_eq_true hfacts
  exact ⟨t, hreach, htaken, hgiven, ((given_in_order t).2 hreach).1⟩

/-- The bytes 1, 0, 2 are received as 1, 0, 0. -/
theorem zero_not_sent : ∃ t, Reach (· = quiet) (Calls fun _ _ => True) t ∧ ¬ t.given 1 <+: t.taken 1 := by
  have hrun : (quiet.run (opening ++ [.send 2 (fun j => [1, 0, 2].getD j 0) 3, .receive 1 3])).toOption.map
      (fun t => decide (t.taken 1 = [1, 0, 2] ∧ t.given 1 = [1, 0, 0])) = some true := by decide +kernel
  obtain ⟨t, ht, hfacts⟩ := Option.map_eq_some_iff.mp hrun
  obtain ⟨htaken, hgiven⟩ := of_decide_eq_true hfacts
  refine ⟨t, reach_run (fun _ _ _ => trivial) (.init rfl) (Loop.ok_of_toOption ht), ?_⟩
  rw [htaken, hgiven]
  decide

end Runs

end Exaros.Net
