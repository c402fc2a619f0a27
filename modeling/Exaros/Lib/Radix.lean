import Mathlib.Data.Finset.Prod

/-!
# Radix trees laid out in a page-addressed store

A radix table is a page of entries; an entry either decodes to the page of a child table or to
nothing. `node` follows a path of indices from a root page. A forest of such trees of depth `n`
is `Separated` when no page is reached by two different (root, path) pairs: the one shape
condition from which every frame law below follows.

The laws are about the two ways such a forest is edited in place:

* a page that is no interior table changes (`node_frame`): a leaf entry is written, a data page
  is filled, a free page is cleared. No path moves;
* an empty slot of an interior table is linked to a page of empty entries (`Link`): exactly one
  path appears, and goes again when the slot is emptied (`Unlink`).

`entry` reads the slot below a full path; `entry_write` is its update law.
-/

namespace Radix

variable {P I E : Type*} (dec : E → Option P) {p : List I} {ram ram' : P → I → E} {r : P} {roots : Finset P} {n : Nat}
  {p₀ : List I}

/-- The page reached from `r` along a path of indices. -/
def node (ram : P → I → E) : P → List I → Option P
  | r, [] => some r
  | r, i :: p => (dec (ram r i)).bind fun t => node ram t p

@[simp] theorem node_nil (ram : P → I → E) (r : P) : node dec ram r [] = some r := rfl

theorem node_cons (ram : P → I → E) (r : P) (i : I) (p : List I) :
    node dec ram r (i :: p) = (dec (ram r i)).bind fun t => node dec ram t p := rfl

theorem node_append (ram : P → I → E) (r : P) (p q : List I) :
    node dec ram r (p ++ q) = (node dec ram r p).bind fun t => node dec ram t q := by
  induction p generalizing r with
  | nil => rfl
  | cons i p ih =>
    rw [List.cons_append, node_cons, node_cons]
    cases dec (ram r i) with
    | none => rfl
    | some t => exact ih t

/-- The child of a reached table sits one index further. -/
theorem node_snoc {ram : P → I → E} {r t : P} (h : node dec ram r p = some t) (i : I) :
    node dec ram r (p ++ [i]) = dec (ram t i) := by
  rw [node_append, h, Option.bind_some, node_cons]
  cases dec (ram t i) <;> rfl

/-- No page is reached along two different paths of length at most `n`. -/
def Separated (ram : P → I → E) (roots : Finset P) (n : Nat) : Prop :=
  ∀ r ∈ roots, ∀ r' ∈ roots, ∀ p p' : List I, p.length ≤ n → p'.length ≤ n →
    ∀ t, node dec ram r p = some t → node dec ram r' p' = some t → r = r' ∧ p = p'

/-- `t` is a table of the forest: some path of length at most `n` reaches it. -/
def IsNode (ram : P → I → E) (roots : Finset P) (n : Nat) (t : P) : Prop :=
  ∃ r ∈ roots, ∃ p : List I, p.length ≤ n ∧ node dec ram r p = some t

/-- A path reads the same in two stores that decode alike along it. -/
theorem node_congr (h : ∀ q i s, p = q ++ i :: s → ∀ t, node dec ram r q = some t → dec (ram' t i) = dec (ram t i)) :
    node dec ram' r p = node dec ram r p := by
  induction p generalizing r with
  | nil => rfl
  | cons i p ih =>
    have hr : dec (ram' r i) = dec (ram r i) := h [] i p rfl r rfl
    rw [node_cons, node_cons, hr]
    cases ht : dec (ram r i) with
    | none => rfl
    | some t =>
      refine ih fun q j s hp u hu => h (i :: q) j s (by rw [hp]; rfl) u ?_
      rw [node_cons, ht]
      exact hu

/-- **Frame.** Changing one page that is no interior table moves no path. -/
theorem node_frame {x : P} (hoff : ∀ t, t ≠ x → ram' t = ram t)
    (hx : ∀ r ∈ roots, ∀ p : List I, p.length < n → node dec ram r p ≠ some x) (hr : r ∈ roots) (hp : p.length ≤ n) :
    node dec ram' r p = node dec ram r p := by
  refine node_congr dec fun q i s hqs t ht => ?_
  have hlen : q.length < n := by
    have := congrArg List.length hqs
    simp only [List.length_append, List.length_cons] at this
    omega
  have hne : t ≠ x := fun h => hx r hr q hlen (h ▸ ht)
  rw [hoff t hne]

/-- A table at full depth is no interior table. -/
theorem Separated.not_interior {ram : P → I → E} (hsep : Separated dec ram roots n) {r₀ x : P} (hr₀ : r₀ ∈ roots)
    (hlen : p₀.length = n) (hx : node dec ram r₀ p₀ = some x) :
    ∀ r ∈ roots, ∀ p : List I, p.length < n → node dec ram r p ≠ some x := by
  intro r hr p hp h
  have := (hsep r hr r₀ hr₀ p p₀ (by omega) (by omega) x h hx).2
  rw [this] at hp
  omega

/-- A page outside the forest is no interior table. -/
theorem not_interior_of_not_isNode {ram : P → I → E} {x : P} (h : ¬ IsNode dec ram roots n x) :
    ∀ r ∈ roots, ∀ p : List I, p.length < n → node dec ram r p ≠ some x :=
  fun r hr p hp hx => h ⟨r, hr, p, by omega, hx⟩

/-- Two forests with the same paths are separated alike. -/
theorem Separated.congr (hsep : Separated dec ram roots n)
    (h : ∀ r ∈ roots, ∀ p : List I, p.length ≤ n → node dec ram' r p = node dec ram r p) :
    Separated dec ram' roots n := by
  intro r hr r' hr' p p' hp hp' t ht ht'
  rw [h r hr p hp] at ht
  rw [h r' hr' p' hp'] at ht'
  exact hsep r hr r' hr' p p' hp hp' t ht ht'

theorem isNode_congr (h : ∀ r ∈ roots, ∀ p : List I, p.length ≤ n → node dec ram' r p = node dec ram r p) (t : P) :
    IsNode dec ram' roots n t ↔ IsNode dec ram roots n t := by
  constructor
  · rintro ⟨r, hr, p, hp, ht⟩
    exact ⟨r, hr, p, hp, h r hr p hp ▸ ht⟩
  · rintro ⟨r, hr, p, hp, ht⟩
    exact ⟨r, hr, p, hp, (h r hr p hp).symm ▸ ht⟩

/-! ## Linking a fresh table -/

/-- `ram'` is `ram` with the empty slot `i` of the interior table `x` (the table at `p₀` below
`r₀`) pointed at the page `y`, which is outside the forest and holds empty entries only. -/
structure Link (ram ram' : P → I → E) (roots : Finset P) (n : Nat) (r₀ : P) (p₀ : List I) (i : I)
    (x y : P) : Prop where
  root : r₀ ∈ roots
  depth : p₀.length < n
  table : node dec ram r₀ p₀ = some x
  empty : dec (ram x i) = none
  fresh : ¬ IsNode dec ram roots n y
  zero : ∀ j, dec (ram' y j) = none
  linked : dec (ram' x i) = some y
  row : ∀ j, j ≠ i → ram' x j = ram x j
  off : ∀ t, t ≠ x → t ≠ y → ram' t = ram t

section Link

variable {ram ram' : P → I → E} {roots : Finset P} {n : Nat} {r₀ x y : P} {p₀ : List I} {i : I}

/-- The tables strictly above the edited slot still read as before. -/
theorem Link.table' (hsep : Separated dec ram roots n) (l : Link dec ram ram' roots n r₀ p₀ i x y) :
    node dec ram' r₀ p₀ = some x := by
  have hlen := l.depth
  rw [← l.table]
  refine node_congr dec fun q j s hqs t ht => ?_
  have hq : q.length < p₀.length := by rw [hqs]; simp
  have htx : t ≠ x := by
    rintro rfl
    have := (hsep r₀ l.root r₀ l.root q p₀ (by omega) (by omega) t ht l.table).2
    rw [this] at hq
    omega
  have hty : t ≠ y := by
    rintro rfl
    exact l.fresh ⟨r₀, l.root, q, by omega, ht⟩
  rw [l.off t htx hty]

/-- **Link.** Pointing an empty slot of an interior table at a page of empty entries adds exactly
the path to that page. -/
theorem Link.node [DecidableEq P] [DecidableEq I] (hsep : Separated dec ram roots n)
    (l : Link dec ram ram' roots n r₀ p₀ i x y) {r : P} (hr : r ∈ roots) {p : List I} (hp : p.length ≤ n) :
    node dec ram' r p = if r = r₀ ∧ p = p₀ ++ [i] then some y else node dec ram r p := by
  have hlen := l.depth
  by_cases hext : r = r₀ ∧ ∃ s, p = p₀ ++ i :: s
  · obtain ⟨rfl, s, rfl⟩ := hext
    have hold : Radix.node dec ram r (p₀ ++ i :: s) = none := by
      rw [node_append, l.table, Option.bind_some, node_cons, l.empty, Option.bind_none]
    rw [node_append, l.table' dec hsep, Option.bind_some, node_cons, l.linked, Option.bind_some, hold]
    cases s with
    | nil => simp
    | cons j s =>
      rw [if_neg (by simp), node_cons, l.zero j, Option.bind_none]
  · have hne : ¬ (r = r₀ ∧ p = p₀ ++ [i]) := fun h => hext ⟨h.1, [], h.2⟩
    rw [if_neg hne]
    refine node_congr dec fun q j s hqs t ht => ?_
    have hq : q.length ≤ n := by
      have := congrArg List.length hqs
      simp only [List.length_append, List.length_cons] at this
      omega
    have hty : t ≠ y := by
      rintro rfl
      exact l.fresh ⟨r, hr, q, hq, ht⟩
    by_cases htx : t = x
    · subst htx
      obtain ⟨rfl, rfl⟩ := hsep r hr r₀ l.root q p₀ hq (by omega) t ht l.table
      have hji : j ≠ i := by
        rintro rfl
        exact hext ⟨rfl, s, hqs⟩
      rw [l.row j hji]
    · rw [l.off t htx hty]

/-- The linked page is the table at its path. -/
theorem Link.node_self [DecidableEq P] [DecidableEq I] (hsep : Separated dec ram roots n)
    (l : Link dec ram ram' roots n r₀ p₀ i x y) : Radix.node dec ram' r₀ (p₀ ++ [i]) = some y := by
  have := l.depth
  rw [l.node dec hsep l.root (by simp; omega), if_pos ⟨rfl, rfl⟩]

/-- Paths that led somewhere lead there still. -/
theorem Link.node_mono [DecidableEq P] [DecidableEq I] (hsep : Separated dec ram roots n)
    (l : Link dec ram ram' roots n r₀ p₀ i x y) {r t : P} (hr : r ∈ roots) {p : List I} (hp : p.length ≤ n)
    (h : Radix.node dec ram r p = some t) : Radix.node dec ram' r p = some t := by
  rw [l.node dec hsep hr hp]
  split
  · rename_i heq
    obtain ⟨rfl, rfl⟩ := heq
    rw [node_snoc dec l.table, l.empty] at h
    cases h
  · exact h

/-- What a path leads to after the link. -/
theorem Link.node_eq_some [DecidableEq P] [DecidableEq I] (hsep : Separated dec ram roots n)
    (l : Link dec ram ram' roots n r₀ p₀ i x y) {r t : P} (hr : r ∈ roots) {p : List I} (hp : p.length ≤ n)
    (h : Radix.node dec ram' r p = some t) :
    (t = y ∧ r = r₀ ∧ p = p₀ ++ [i]) ∨ (t ≠ y ∧ Radix.node dec ram r p = some t) := by
  rw [l.node dec hsep hr hp] at h
  split at h
  · rename_i heq
    exact .inl ⟨(Option.some.inj h).symm, heq.1, heq.2⟩
  · refine .inr ⟨?_, h⟩
    rintro rfl
    exact l.fresh ⟨r, hr, p, hp, h⟩

theorem Link.separated [DecidableEq P] [DecidableEq I] (hsep : Separated dec ram roots n)
    (l : Link dec ram ram' roots n r₀ p₀ i x y) : Separated dec ram' roots n := by
  intro r hr r' hr' p p' hp hp' t ht ht'
  rcases l.node_eq_some dec hsep hr hp ht with ⟨hy, hr₁, hp₁⟩ | ⟨hy, h₁⟩ <;>
    rcases l.node_eq_some dec hsep hr' hp' ht' with ⟨hy', hr₂, hp₂⟩ | ⟨hy', h₂⟩
  · exact ⟨hr₁.trans hr₂.symm, hp₁.trans hp₂.symm⟩
  · exact absurd hy hy'
  · exact absurd hy' hy
  · exact hsep r hr r' hr' p p' hp hp' t h₁ h₂

theorem Link.isNode [DecidableEq P] [DecidableEq I] (hsep : Separated dec ram roots n)
    (l : Link dec ram ram' roots n r₀ p₀ i x y) (t : P) :
    IsNode dec ram' roots n t ↔ IsNode dec ram roots n t ∨ t = y := by
  constructor
  · rintro ⟨r, hr, p, hp, ht⟩
    rcases l.node_eq_some dec hsep hr hp ht with ⟨hy, -, -⟩ | ⟨-, h⟩
    · exact .inr hy
    · exact .inl ⟨r, hr, p, hp, h⟩
  · rintro (⟨r, hr, p, hp, ht⟩ | rfl)
    · exact ⟨r, hr, p, hp, l.node_mono dec hsep hr hp ht⟩
    · have := l.depth
      exact ⟨r₀, l.root, p₀ ++ [i], by simp; omega, l.node_self dec hsep⟩

end Link

/-! ## Unlinking an empty table -/

/-- `ram'` is `ram` with slot `i` of the interior table `x` (the table at `p₀` below `r₀`) emptied; the
table `y` it pointed at holds empty entries only. -/
structure Unlink (ram ram' : P → I → E) (roots : Finset P) (n : Nat) (r₀ : P) (p₀ : List I) (i : I)
    (x y : P) : Prop where
  root : r₀ ∈ roots
  depth : p₀.length < n
  table : node dec ram r₀ p₀ = some x
  linked : dec (ram x i) = some y
  zero : ∀ j, dec (ram y j) = none
  empty : dec (ram' x i) = none
  row : ∀ j, j ≠ i → ram' x j = ram x j
  off : ∀ t, t ≠ x → ram' t = ram t

section Unlink

variable {ram ram' : P → I → E} {roots : Finset P} {n : Nat} {r₀ x y : P} {p₀ : List I} {i : I}

/-- The table whose slot is emptied stays where it is. -/
theorem Unlink.table' (hsep : Separated dec ram roots n) (l : Unlink dec ram ram' roots n r₀ p₀ i x y) :
    node dec ram' r₀ p₀ = some x := by
  have hlen := l.depth
  rw [← l.table]
  refine node_congr dec fun q j s hqs t ht => ?_
  have hq : q.length < p₀.length := by rw [hqs]; simp
  have htx : t ≠ x := by
    rintro rfl
    have := (hsep r₀ l.root r₀ l.root q p₀ (by omega) (by omega) t ht l.table).2
    rw [this] at hq
    omega
  rw [l.off t htx]

/-- **Unlink.** Exactly the path to the empty table goes. -/
theorem Unlink.node [DecidableEq P] [DecidableEq I] (hsep : Separated dec ram roots n)
    (l : Unlink dec ram ram' roots n r₀ p₀ i x y) {r : P} (hr : r ∈ roots) {p : List I} (hp : p.length ≤ n) :
    node dec ram' r p = if r = r₀ ∧ p = p₀ ++ [i] then none else node dec ram r p := by
  have hlen := l.depth
  by_cases hext : r = r₀ ∧ ∃ s, p = p₀ ++ i :: s
  · obtain ⟨rfl, s, rfl⟩ := hext
    have hnew : Radix.node dec ram' r (p₀ ++ i :: s) = none := by
      rw [node_append, l.table' dec hsep, Option.bind_some, node_cons, l.empty, Option.bind_none]
    rw [hnew]
    cases s with
    | nil => simp
    | cons j s =>
      rw [if_neg (by simp), node_append, l.table, Option.bind_some, node_cons, l.linked, Option.bind_some,
        node_cons, l.zero j, Option.bind_none]
  · have hne : ¬ (r = r₀ ∧ p = p₀ ++ [i]) := fun h => hext ⟨h.1, [], h.2⟩
    rw [if_neg hne]
    refine node_congr dec fun q j s hqs t ht => ?_
    have hq : q.length ≤ n := by
      have := congrArg List.length hqs
      simp only [List.length_append, List.length_cons] at this
      omega
    by_cases htx : t = x
    · subst htx
      obtain ⟨rfl, rfl⟩ := hsep r hr r₀ l.root q p₀ hq (by omega) t ht l.table
      have hji : j ≠ i := by
        rintro rfl
        exact hext ⟨rfl, s, hqs⟩
      rw [l.row j hji]
    · rw [l.off t htx]

/-- The emptied slot led to `y`. -/
theorem Unlink.node_self (l : Unlink dec ram ram' roots n r₀ p₀ i x y) :
    Radix.node dec ram r₀ (p₀ ++ [i]) = some y := by
  rw [node_snoc dec l.table, l.linked]

/-- What a path leads to after the unlink. -/
theorem Unlink.node_eq_some [DecidableEq P] [DecidableEq I] (hsep : Separated dec ram roots n)
    (l : Unlink dec ram ram' roots n r₀ p₀ i x y) {r t : P} (hr : r ∈ roots) {p : List I} (hp : p.length ≤ n) :
    Radix.node dec ram' r p = some t ↔ Radix.node dec ram r p = some t ∧ t ≠ y := by
  have hlen := l.depth
  rw [l.node dec hsep hr hp]
  split
  · rename_i heq
    obtain ⟨rfl, rfl⟩ := heq
    rw [l.node_self]
    simpa using fun h : y = t => h.symm
  · rename_i hne
    refine ⟨fun h => ⟨h, ?_⟩, And.left⟩
    rintro rfl
    exact hne (hsep r hr r₀ l.root p _ hp (by simp; omega) t h l.node_self)

theorem Unlink.separated [DecidableEq P] [DecidableEq I] (hsep : Separated dec ram roots n)
    (l : Unlink dec ram ram' roots n r₀ p₀ i x y) : Separated dec ram' roots n := by
  intro r hr r' hr' p p' hp hp' t ht ht'
  exact hsep r hr r' hr' p p' hp hp' t ((l.node_eq_some dec hsep hr hp).mp ht).1
    ((l.node_eq_some dec hsep hr' hp').mp ht').1

theorem Unlink.isNode [DecidableEq P] [DecidableEq I] (hsep : Separated dec ram roots n)
    (l : Unlink dec ram ram' roots n r₀ p₀ i x y) (t : P) :
    IsNode dec ram' roots n t ↔ IsNode dec ram roots n t ∧ t ≠ y := by
  constructor
  · rintro ⟨r, hr, p, hp, ht⟩
    obtain ⟨ht, hne⟩ := (l.node_eq_some dec hsep hr hp).mp ht
    exact ⟨⟨r, hr, p, hp, ht⟩, hne⟩
  · rintro ⟨⟨r, hr, p, hp, ht⟩, hne⟩
    exact ⟨r, hr, p, hp, (l.node_eq_some dec hsep hr hp).mpr ⟨ht, hne⟩⟩

end Unlink

/-! ## The slots below a full path -/

/-- The entry in slot `i` of the table at `p`, when it decodes to something. -/
def entry (ram : P → I → E) (r : P) (p : List I) (i : I) : Option E :=
  (node dec ram r p).bind fun t => if (dec (ram t i)).isSome then some (ram t i) else none

theorem entry_of_node {ram : P → I → E} {r t : P} (h : node dec ram r p = some t) (i : I) :
    entry dec ram r p i = if (dec (ram t i)).isSome then some (ram t i) else none := by
  rw [entry, h, Option.bind_some]

/-- An entry found below a path sits in a table of the forest and decodes. -/
theorem entry_eq_some_iff {ram : P → I → E} {i : I} {e : E} :
    entry dec ram r p i = some e ↔
      ∃ t, node dec ram r p = some t ∧ (dec (ram t i)).isSome ∧ ram t i = e := by
  unfold entry
  cases node dec ram r p with
  | none => simp
  | some t =>
    by_cases h : (dec (ram t i)).isSome
    · simp [h]
    · simp [h]

/-- Entries are untouched by a change to one page that is no table at all. -/
theorem entry_frame {x : P} (hoff : ∀ t, t ≠ x → ram' t = ram t) (hx : ¬ IsNode dec ram roots n x)
    (hr : r ∈ roots) (hp : p.length ≤ n) (i : I) :
    entry dec ram' r p i = entry dec ram r p i := by
  have hnode := node_frame dec hoff (not_interior_of_not_isNode dec hx) hr hp
  unfold entry
  rw [hnode]
  cases ht : node dec ram r p with
  | none => rfl
  | some t =>
    have hne : t ≠ x := by
      rintro rfl
      exact hx ⟨r, hr, p, hp, ht⟩
    rw [Option.bind_some, Option.bind_some, hoff t hne]

/-- **Write.** Writing one slot of a table at full depth changes that entry and no other. -/
theorem entry_write [DecidableEq P] [DecidableEq I]
    (hsep : Separated dec ram roots n) {r₀ x : P} {i₀ : I} {e : E} (hr₀ : r₀ ∈ roots)
    (hp₀ : p₀.length = n) (hx : node dec ram r₀ p₀ = some x) (hram : ram' = fun t j => if t = x ∧ j = i₀ then e else ram t j)
    (hr : r ∈ roots) (hp : p.length = n) (i : I) :
    entry dec ram' r p i =
      if r = r₀ ∧ p = p₀ ∧ i = i₀ then (if (dec e).isSome then some e else none)
      else entry dec ram r p i := by
  have hoff : ∀ t, t ≠ x → ram' t = ram t := fun t ht => by
    funext j; rw [hram]; simp [ht]
  have hnode := node_frame dec hoff (hsep.not_interior dec hr₀ hp₀ hx) hr hp.le
  unfold entry
  rw [hnode]
  cases ht : node dec ram r p with
  | none =>
    have hne : ¬ (r = r₀ ∧ p = p₀ ∧ i = i₀) := by
      rintro ⟨rfl, rfl, -⟩
      rw [hx] at ht
      cases ht
    rw [if_neg hne]
    rfl
  | some t =>
    simp only [Option.bind_some]
    by_cases htx : t = x
    · subst htx
      obtain ⟨rfl, rfl⟩ := hsep r hr r₀ hr₀ p p₀ hp.le hp₀.le t ht hx
      by_cases hi : i = i₀
      · simp [hram, hi]
      · simp [hram, hi]
    · have hne : ¬ (r = r₀ ∧ p = p₀ ∧ i = i₀) := by
        rintro ⟨rfl, rfl, -⟩
        rw [hx] at ht
        exact htx (Option.some.inj ht).symm
      rw [if_neg hne, hoff t htx]

/-- A link shows no entry and hides none. -/
theorem Link.entry [DecidableEq P] [DecidableEq I] {r₀ x y : P} {i : I} (hsep : Separated dec ram roots n)
    (l : Link dec ram ram' roots n r₀ p₀ i x y) (hr : r ∈ roots) (hp : p.length = n)
    (j : I) : entry dec ram' r p j = entry dec ram r p j := by
  have hlen := l.depth
  unfold Radix.entry
  cases ht : Radix.node dec ram' r p with
  | none =>
    cases hu : Radix.node dec ram r p with
    | none => rfl
    | some u =>
      rw [l.node_mono dec hsep hr hp.le hu] at ht
      cases ht
  | some t =>
    rcases l.node_eq_some dec hsep hr hp.le ht with ⟨rfl, rfl, rfl⟩ | ⟨hy, h⟩
    · rw [node_snoc dec l.table, l.empty]
      simp [l.zero j]
    · have hx : t ≠ x := by
        rintro rfl
        have := (hsep r hr r₀ l.root p p₀ hp.le (by omega) t h l.table).2
        rw [this] at hp
        omega
      rw [h, Option.bind_some, Option.bind_some, l.off t hx hy]

/-- An unlink shows no entry and hides none. -/
theorem Unlink.entry [DecidableEq P] [DecidableEq I] {r₀ x y : P} {i : I} (hsep : Separated dec ram roots n)
    (l : Unlink dec ram ram' roots n r₀ p₀ i x y) (hr : r ∈ roots) (hp : p.length = n)
    (j : I) : entry dec ram' r p j = entry dec ram r p j := by
  have hlen := l.depth
  unfold Radix.entry
  rw [l.node dec hsep hr hp.le]
  split
  · rename_i heq
    obtain ⟨rfl, rfl⟩ := heq
    rw [l.node_self]
    simp [l.zero j]
  · cases ht : Radix.node dec ram r p with
    | none => rfl
    | some t =>
      have hx : t ≠ x := by
        rintro rfl
        have := (hsep r hr r₀ l.root p p₀ hp.le (by omega) t ht l.table).2
        rw [this] at hp
        omega
      rw [Option.bind_some, Option.bind_some, l.off t hx]

end Radix
