import Exaros.Lib.Ring
import Mathlib.Data.UInt

/-!
# The block cache

`kernel/fs/bio.c`: 1024 groups of 16 buffers, each group a doubly linked list behind its `head`, and
the four operations on it. A pointer to a `Buf` is a group with a slot of it, so `brelse` can look the
group up from the block number again as the source does. The field `disk`, which only the virtio
driver waits on, is left out, and a disk request is one step.
-/

namespace Exaros.Block

open Function (update update_of_ne)

def BUFFER_SIZE : Nat := 512
def NBUF : Nat := 16
def BCACHE_GROUP_NUM : Nat := 1024

abbrev Sector := Vector UInt8 BUFFER_SIZE

inductive Slot
  | head
  | buf (i : Fin NBUF)
  deriving DecidableEq

/-- `&bcache[group].head` or `&bcache[group].buf[i]`. -/
structure Ptr where
  group : UInt32
  slot : Slot
  deriving DecidableEq

structure Buf where
  valid : Bool
  dev : Int
  blockno : UInt32
  refcnt : UInt32
  prev : Ptr
  next : Ptr
  data : Sector

abbrev BCache := Ptr → Buf

/-- The `#ifdef VIRT` of `bread` and `bwrite`. -/
inductive Build
  | virt
  | sd
  deriving DecidableEq

inductive Panic
  | noBuffers
  | endless
  deriving DecidableEq

/-- `bcache` as the loader leaves it; no link is read before `binit` has set it. -/
def bss : BCache := fun p =>
  { valid := false, dev := 0, blockno := 0, refcnt := 0, prev := p, next := p, data := Vector.replicate _ 0 }

def setPrev (c : BCache) (p q : Ptr) : BCache := update c p { c p with prev := q }
def setNext (c : BCache) (p q : Ptr) : BCache := update c p { c p with next := q }

/-- `b->next->prev = b->prev; b->prev->next = b->next;` -/
def unlink (c : BCache) (b : Ptr) : BCache :=
  let c := setPrev c (c b).next (c b).prev
  setNext c (c b).prev (c b).next

/-- `b->next = head.next; b->prev = &head; head.next->prev = b; head.next = b;` -/
def pushFront (c : BCache) (head b : Ptr) : BCache :=
  let c := setNext c b (c head).next
  let c := setPrev c b head
  let c := setPrev c (c head).next b
  setNext c head b

def binitGroup (c : BCache) (i : UInt32) : BCache :=
  let head : Ptr := ⟨i, .head⟩
  let c := setPrev c head head
  let c := setNext c head head
  (List.finRange NBUF).foldl (fun c j => pushFront c head ⟨i, .buf j⟩) c

@[irreducible] def binit (c : BCache) : BCache :=
  (List.range BCACHE_GROUP_NUM).foldl (fun c i => binitGroup c (UInt32.ofNat i)) c

/-- `blockno & (BCACHE_GROUP_NUM - 1)` -/
def groupOf (blockno : UInt32) : UInt32 := blockno &&& (UInt32.ofNat BCACHE_GROUP_NUM - 1)

/-- The loops of `bget` visit at most the buffers of one group. -/
def scanFuel : Nat := NBUF + 1

def bget (dev : Int) (blockno : UInt32) (c : BCache) : Except Panic (Ptr × BCache) :=
  let head : Ptr := ⟨groupOf blockno, .head⟩
  let cached := if 0 ≤ dev then
      Linked.scan (fun p => (c p).next) head (fun p => (c p).dev = dev ∧ (c p).blockno = blockno) scanFuel (c head).next
    else some none
  match cached with
  | none => .error .endless
  | some (some b) => .ok (b, update c b { c b with refcnt := (c b).refcnt + 1 })
  | some none =>
    match Linked.scan (fun p => (c p).prev) head (fun p => (c p).refcnt = 0) scanFuel (c head).prev with
    | none => .error .endless
    | some (some b) =>
      .ok (b, update c b { c b with dev := dev, blockno := blockno, valid := false, refcnt := 1 })
    | some none => .error .noBuffers

/-- The cache and the disk behind it. -/
structure Store where
  cache : BCache
  disk : UInt32 → Sector

/-- The disk request of `virtioDiskRW` for one buffer, and what the device does with it. -/
def virtioDiskRW (s : Store) (b : Ptr) (write : Bool) : Store :=
  let sector := (s.cache b).blockno * UInt32.ofNat (BUFFER_SIZE / 512)
  if write then { s with disk := update s.disk sector (s.cache b).data }
  else { s with cache := update s.cache b { s.cache b with data := s.disk sector } }

def sdRead (s : Store) (b : Ptr) : Store :=
  { s with cache := update s.cache b { s.cache b with data := s.disk (s.cache b).blockno } }

def bread (build : Build) (dev : Int) (blockno : UInt32) (s : Store) : Except Panic (Ptr × Store) := do
  let (b, cache) ← bget dev blockno s.cache
  let s := { s with cache := cache }
  if (s.cache b).valid then
    return (b, s)
  let s := match build with
    | .virt => virtioDiskRW s b false
    | .sd => sdRead s b
  return (b, { s with cache := update s.cache b { s.cache b with valid := true } })

def bwrite (build : Build) (b : Ptr) (s : Store) : Store :=
  match build with
  | .virt => virtioDiskRW s b true
  | .sd => s

def brelse (b : Ptr) (s : Store) : Store :=
  let group := groupOf (s.cache b).blockno
  let c := update s.cache b { s.cache b with refcnt := (s.cache b).refcnt - 1 }
  if (c b).refcnt = 0 then { s with cache := pushFront (unlink c b) ⟨group, .head⟩ b }
  else { s with cache := c }

/-- A client's change of the data of the buffer it holds. -/
def modify (b : Ptr) (data : Sector) (s : Store) : Store :=
  { s with cache := update s.cache b { s.cache b with data := data } }

/-! ## Links and bodies -/

def links (c : BCache) : Linked.Links Ptr := ⟨fun p => (c p).next, fun p => (c p).prev⟩

/-- A buffer without its links. -/
def Buf.body (b : Buf) : Bool × Int × UInt32 × UInt32 × Sector := (b.valid, b.dev, b.blockno, b.refcnt, b.data)

theorem links_setNext (c : BCache) (p q : Ptr) : links (setNext c p q) = (links c).setNext p q := by
  simp only [links, setNext, Linked.Links.setNext, Linked.Links.mk.injEq]
  constructor
  · funext x
    by_cases h : x = p
    · subst h
      simp
    · simp [h]
  · funext x
    by_cases h : x = p
    · subst h
      simp
    · simp [h]

theorem links_setPrev (c : BCache) (p q : Ptr) : links (setPrev c p q) = (links c).setPrev p q := by
  simp only [links, setPrev, Linked.Links.setPrev, Linked.Links.mk.injEq]
  constructor
  · funext x
    by_cases h : x = p
    · subst h
      simp
    · simp [h]
  · funext x
    by_cases h : x = p
    · subst h
      simp
    · simp [h]

theorem links_unlink (c : BCache) (b : Ptr) : links (unlink c b) = (links c).unlink b := by
  have hprev := links_setPrev c (c b).next (c b).prev
  generalize hc : setPrev c (c b).next (c b).prev = c₁ at hprev
  show links (setNext _ (setPrev c _ _ b).prev (setPrev c _ _ b).next) = _
  rw [hc, links_setNext]
  show (links c₁).setNext ((links c₁).prev b) ((links c₁).next b) = _
  rw [hprev]
  rfl

theorem links_pushFront (c : BCache) (h b : Ptr) : links (pushFront c h b) = (links c).pushFront h b := by
  have hlinks : links (setPrev (setNext c b (c h).next) b h) = ((links c).setNext b (c h).next).setPrev b h := by
    rw [links_setPrev, links_setNext]
  generalize hc : setPrev (setNext c b (c h).next) b h = c₁ at hlinks
  show links (setNext (setPrev _ (setPrev (setNext c b (c h).next) b h h).next b) h b) = _
  rw [hc, links_setNext, links_setPrev]
  show ((links c₁).setPrev ((links c₁).next h) b).setNext h b = _
  rw [hlinks]
  rfl

theorem body_setNext (c : BCache) (p q x : Ptr) : (setNext c p q x).body = (c x).body := by
  by_cases h : x = p
  · subst h
    simp [setNext, Buf.body]
  · simp [setNext, h]

theorem body_setPrev (c : BCache) (p q x : Ptr) : (setPrev c p q x).body = (c x).body := by
  by_cases h : x = p
  · subst h
    simp [setPrev, Buf.body]
  · simp [setPrev, h]

@[simp] theorem body_unlink (c : BCache) (b x : Ptr) : (unlink c b x).body = (c x).body := by
  simp only [unlink, body_setNext, body_setPrev]

@[simp] theorem body_pushFront (c : BCache) (h b x : Ptr) : (pushFront c h b x).body = (c x).body := by
  simp only [pushFront, body_setNext, body_setPrev]

/-- `unlink` writes only the neighbours. -/
theorem unlink_of_ne {c : BCache} {b x : Ptr} (hn : x ≠ (c b).next) (hp : x ≠ (c b).prev) (hb : (c b).next ≠ b) :
    unlink c b x = c x := by
  simp [unlink, setNext, setPrev, hn, update_of_ne, update_of_ne hb.symm, hp]

/-- `pushFront` writes only the head, the new node and the old first one. -/
theorem pushFront_of_ne {c : BCache} {h b x : Ptr} (hb : x ≠ b) (hh : x ≠ h) (hn : x ≠ (c h).next) (hbh : b ≠ h) :
    pushFront c h b x = c x := by
  simp [pushFront, setNext, setPrev, hb, hh, hn, update_of_ne hbh.symm]

end Exaros.Block
