import Exaros.Fat.Cache
import Exaros.Fat.File

/-!
# Cluster chains

A file is a chain of clusters: `IsChain` reads it in the FAT, `FileOk` adds that the cache of the
file holds a prefix of it. `Local` says what an operation on one file may do to the volume: it keeps
every cluster and every pool inode that is in use by another. It composes, so a loop satisfies it as
soon as its turns do, and it is all the other files need (`FileOk.frame`).
-/

namespace Exaros.Fat

/-- The chain that starts at cluster `c`, as `metaTrunc` follows it. -/
def chainFrom (fs : FileSystem) : Nat → Nat → List Nat
  | 0, _ => []
  | n + 1, c => if 2 ≤ c ∧ c < FAT32_EOC then c :: chainFrom fs n (readFat fs c) else []

/-- The chain of a file. -/
def chain (fs : FileSystem) (dm : DirMeta) : List Nat := chainFrom fs (fs.superBlock.dataClusCnt + 2) dm.firstClus

/-- `L` is a chain of the FAT: distinct data clusters, linked in order, ended by an end mark. -/
structure IsChain (fs : FileSystem) (L : List Nat) : Prop where
  inRange : ∀ c ∈ L, fs.superBlock.InRange c
  nodup : L.Nodup
  next : ∀ i c c', L[i]? = some c → L[i + 1]? = some c' → fatEntry fs c = c'
  last : ∀ c, L.getLast? = some c → FAT32_EOC ≤ fatEntry fs c ∧ fatEntry fs c ≤ FAT32_EOC + 7

/-- The file has the chain `L` and caches a prefix of it. A loaded empty file counts one cached
cluster. -/
structure FileOk (fs : FileSystem) (dm : DirMeta) (L : List Nat) : Prop where
  chain : IsChain fs L
  first : dm.firstClus = L.headD 0
  pos : L ≠ [] → 0 < dm.inodeMaxCluster
  count : dm.inodeMaxCluster ≤ max L.length 1
  cached : ∀ i c, i < dm.inodeMaxCluster → i < INODE_THIRD_LEVEL_TOP → L[i]? = some c →
    cachedClus fs.inodes dm.item i = c
  inodeOk : InodeOk fs dm.item dm.inodeMaxCluster

/-- The bitmap shows the FAT: a data cluster is marked exactly if its entry is not zero, and the two
entries before the data clusters are never free. -/
structure BitmapOk (fs : FileSystem) : Prop where
  zero : Bitmap.get fs.clusterBitmap 0 = true
  one : Bitmap.get fs.clusterBitmap 1 = true
  bit : ∀ c, fs.superBlock.InRange c → (Bitmap.get fs.clusterBitmap c = true ↔ fatEntry fs c ≠ 0)

/-- How many data clusters are free. -/
def freeClusters (fs : FileSystem) : Nat := Bitmap.freeCount fs.clusterBitmap 2 (fs.superBlock.dataClusCnt + 2)

section Chain

variable {fs fs' : FileSystem} {L : List Nat} {c c' : Nat}

theorem IsChain.nil (fs : FileSystem) : IsChain fs [] := by
  refine ⟨?_, List.nodup_nil, ?_, ?_⟩
  · intro c h; cases h
  · intro i c c' h; cases h
  · intro c h; cases h

theorem isChain_singleton (hc : fs.superBlock.InRange c)
    (he : FAT32_EOC ≤ fatEntry fs c ∧ fatEntry fs c ≤ FAT32_EOC + 7) : IsChain fs [c] := by
  refine ⟨?_, List.nodup_singleton c, ?_, ?_⟩
  · intro x hx
    rw [List.mem_singleton.mp hx]
    exact hc
  · intro i x y _ hy
    simp at hy
  · intro x hx
    obtain rfl : c = x := by simpa using hx
    exact he

theorem IsChain.tail (h : IsChain fs (c :: L)) : IsChain fs L := by
  refine ⟨fun x hx => h.inRange x (List.mem_cons_of_mem _ hx), (List.nodup_cons.mp h.nodup).2, ?_, ?_⟩
  · intro i x y hx hy
    exact h.next (i + 1) x y hx hy
  · intro x hx
    refine h.last x ?_
    rw [List.getLast?_cons, hx]
    rfl

/-- Chains depend on the entries of their clusters. -/
theorem IsChain.congr (h : IsChain fs L) (hsb : fs'.superBlock = fs.superBlock)
    (he : ∀ c ∈ L, fatEntry fs' c = fatEntry fs c) : IsChain fs' L := by
  refine ⟨fun c hc => by rw [hsb]; exact h.inRange c hc, h.nodup, ?_, ?_⟩
  · intro i c c' hi hi'
    rw [he c (List.mem_of_getElem? hi)]
    exact h.next i c c' hi hi'
  · intro c hc
    rw [he c (List.mem_of_getLast? hc)]
    exact h.last c hc

/-- The entry of a chain's cluster is its successor or an end mark. -/
theorem IsChain.entry (h : IsChain fs L) (hc : c ∈ L) :
    (∃ c' ∈ L, fatEntry fs c = c') ∨ (FAT32_EOC ≤ fatEntry fs c ∧ fatEntry fs c ≤ FAT32_EOC + 7) := by
  obtain ⟨i, hi⟩ := List.mem_iff_getElem?.mp hc
  by_cases hlast : i + 1 < L.length
  · have hnext : L[i + 1]? = some L[i + 1] := List.getElem?_eq_getElem hlast
    exact .inl ⟨L[i + 1], List.getElem_mem hlast, h.next i c _ hi hnext⟩
  · refine .inr (h.last c ?_)
    have hlt := (List.getElem?_eq_some_iff.mp hi).1
    rw [List.getLast?_eq_getElem?, show L.length - 1 = i by omega, hi]

theorem IsChain.entry_ne_zero (h : IsChain fs L) (hc : c ∈ L) : fatEntry fs c ≠ 0 := by
  rcases h.entry hc with ⟨c', hc', he⟩ | he
  · have := (h.inRange c' hc').1
    omega
  · have : FAT32_EOC = 0x0ffffff8 := rfl
    omega

/-- The clusters of a chain are marked. -/
theorem IsChain.used (h : IsChain fs L) (hb : BitmapOk fs) (hc : c ∈ L) :
    Bitmap.get fs.clusterBitmap c = true := (hb.bit c (h.inRange c hc)).mpr (h.entry_ne_zero hc)

theorem IsChain.length_le (h : IsChain fs L) : L.length ≤ fs.superBlock.dataClusCnt := by
  have hsub : L.toFinset ⊆ Finset.Ico 2 (fs.superBlock.dataClusCnt + 2) := by
    intro c hc
    have := h.inRange c (List.mem_toFinset.mp hc)
    exact Finset.mem_Ico.mpr ⟨this.1, by have := this.2; omega⟩
  have hcard := Finset.card_le_card hsub
  rw [List.toFinset_card_of_nodup h.nodup, Nat.card_Ico] at hcard
  omega

/-- Following the FAT from the first cluster of a chain gives the chain. -/
theorem IsChain.chainFrom (hok : fs.superBlock.Ok) (h : IsChain fs L) {n : Nat} (hn : L.length ≤ n) :
    chainFrom fs n (L.headD 0) = L := by
  induction L generalizing n with
  | nil => cases n <;> rfl
  | cons c L ih =>
    obtain ⟨m, rfl⟩ : ∃ m, n = m + 1 := ⟨n - 1, by simp at hn; omega⟩
    have hc := h.inRange c (List.mem_cons_self ..)
    have hlt := (hok.inRange_bounds hc).2
    have hread : readFat fs c = fatEntry fs c := readFat_eq hok hc.2
    show (if 2 ≤ c ∧ c < FAT32_EOC then c :: Fat.chainFrom fs m (readFat fs c) else []) = c :: L
    rw [if_pos ⟨hc.1, hlt⟩, hread]
    congr 1
    cases L with
    | nil =>
      have hl := h.last c rfl
      cases m with
      | zero => rfl
      | succ m => exact if_neg (by omega)
    | cons c' L =>
      rw [h.next 0 c c' rfl rfl]
      exact ih h.tail (by simp at hn ⊢; omega)

theorem FileOk.chain_eq {dm : DirMeta} (hok : fs.superBlock.Ok) (h : FileOk fs dm L) : Fat.chain fs dm = L := by
  have := h.chain.length_le
  unfold Fat.chain
  rw [h.first]
  exact h.chain.chainFrom hok (by omega)

theorem FileOk.le_length {dm : DirMeta} (h : FileOk fs dm L) (hne : L ≠ []) : dm.inodeMaxCluster ≤ L.length := by
  have := h.count
  have := List.length_pos_iff.mpr hne
  omega

end Chain

/-! ## The bytes of a chain -/

/-- Byte `j` of a chain. -/
def chainByte (fs : FileSystem) (L : List Nat) (j : Nat) : Byte :=
  byteAt fs.disk (clusAddr fs.superBlock (L.getD (j / fs.superBlock.bytsPerClus) 0) + j % fs.superBlock.bytsPerClus)

/-- The clusters in use by others, and what they hold, are kept. -/
def SameCluster (fs fs' : FileSystem) (c : Nat) : Prop :=
  Bitmap.get fs'.clusterBitmap c = true ∧ fatEntry fs' c = fatEntry fs c ∧
    ∀ i < fs.superBlock.bytsPerClus, byteAt fs'.disk (clusAddr fs.superBlock c + i) =
      byteAt fs.disk (clusAddr fs.superBlock c + i)

/-- A call of `allocClus` that returned a data cluster that was free. -/
def AllocCall.Ok (sb : SuperBlock) (call : AllocCall) : Prop :=
  sb.InRange call.cluster ∧ call.bit = false ∧ call.entry = 0

/-- What an operation on the file `dm` with chain `L` may do. -/
structure Local (fs : FileSystem) (dm : DirMeta) (L : List Nat) (fs' : FileSystem) (dm' : DirMeta)
    (L' : List Nat) : Prop where
  superBlock : fs'.superBlock = fs.superBlock
  bitmapOk : BitmapOk fs'
  fileOk : FileOk fs' dm' L'
  clusters : ∀ c, fs.superBlock.InRange c → Bitmap.get fs.clusterBitmap c = true → c ∉ L → SameCluster fs fs' c
  grown : ∀ c ∈ L', c ∈ L ∨ Bitmap.get fs.clusterBitmap c = false
  pool : ∀ x, Bitmap.get fs.inodeBitmap x = true → ¬ Owns fs dm.item dm.inodeMaxCluster x →
    Bitmap.get fs'.inodeBitmap x = true ∧ fs'.inodes x = fs.inodes x
  owns : ∀ x, Owns fs' dm'.item dm'.inodeMaxCluster x →
    Owns fs dm.item dm.inodeMaxCluster x ∨ Bitmap.get fs.inodeBitmap x = false
  calls : ∃ calls, fs'.allocLog = fs.allocLog ++ calls ∧ ∀ call ∈ calls, call.Ok fs.superBlock ∧
    (call.cluster ∈ L ∨ Bitmap.get fs.clusterBitmap call.cluster = false)

section Local

variable {fs fs' fs'' : FileSystem} {dm dm' dm'' : DirMeta} {L L' L'' : List Nat} {Lⱼ : List Nat}

theorem Local.refl (hb : BitmapOk fs) (h : FileOk fs dm L) : Local fs dm L fs dm L where
  superBlock := rfl
  bitmapOk := hb
  fileOk := h
  clusters := fun _ _ hused _ => ⟨hused, rfl, fun _ _ => rfl⟩
  grown := fun _ hc => .inl hc
  pool := fun _ hx _ => ⟨hx, rfl⟩
  owns := fun _ hx => .inl hx
  calls := ⟨[], (List.append_nil _).symm, fun _ h => absurd h List.not_mem_nil⟩

/-- One change of a file after another. -/
theorem Local.trans (h : Local fs dm L fs' dm' L') (h' : Local fs' dm' L' fs'' dm'' L'') :
    Local fs dm L fs'' dm'' L'' := by
  have hsb := h.superBlock
  -- a cluster in use by another before is so in between
  have hout : ∀ c, Bitmap.get fs.clusterBitmap c = true → c ∉ L → c ∉ L' := by
    intro c hused hc hc'
    rcases h.grown c hc' with hin | hfree
    · exact hc hin
    · rw [hused] at hfree
      exact Bool.noConfusion hfree
  have hback : ∀ c, fs.superBlock.InRange c → (c ∈ L' ∨ Bitmap.get fs'.clusterBitmap c = false) →
      c ∈ L ∨ Bitmap.get fs.clusterBitmap c = false := by
    intro c hr hc
    rcases hc with hc | hc
    · exact h.grown c hc
    · by_contra hn
      rw [not_or, Bool.not_eq_false] at hn
      have := (h.clusters c hr hn.2 hn.1).1
      rw [hc] at this
      exact Bool.noConfusion this
  refine ⟨h'.superBlock.trans hsb, h'.bitmapOk, h'.fileOk, ?_, ?_, ?_, ?_, ?_⟩
  · intro c hr hused hc
    obtain ⟨hb, he, hd⟩ := h.clusters c hr hused hc
    have hout' := hout c hused hc
    rw [← hsb] at hr
    obtain ⟨hb', he', hd'⟩ := h'.clusters c hr hb hout'
    refine ⟨hb', he'.trans he, fun i hi => ?_⟩
    rw [hsb] at hd'
    exact (hd' i hi).trans (hd i hi)
  · intro c hc
    have hr : fs.superBlock.InRange c := by
      rw [← hsb, ← h'.superBlock]
      exact h'.fileOk.chain.inRange c hc
    exact hback c hr (h'.grown c hc)
  · intro x hx hown
    obtain ⟨hx', hi⟩ := h.pool x hx hown
    have hown' : ¬ Owns fs' dm'.item dm'.inodeMaxCluster x := by
      intro ho
      rcases h.owns x ho with ho | hfree
      · exact hown ho
      · rw [hx] at hfree
        exact Bool.noConfusion hfree
    obtain ⟨hx'', hi'⟩ := h'.pool x hx' hown'
    exact ⟨hx'', hi'.trans hi⟩
  · intro x ho
    rcases h'.owns x ho with ho' | hfree
    · exact h.owns x ho'
    · by_contra hn
      rw [not_or, Bool.not_eq_false] at hn
      have := (h.pool x hn.2 hn.1).1
      rw [hfree] at this
      exact Bool.noConfusion this
  · obtain ⟨cs, hlog, hcs⟩ := h.calls
    obtain ⟨cs', hlog', hcs'⟩ := h'.calls
    refine ⟨cs ++ cs', by rw [hlog', hlog, List.append_assoc], fun call hcall => ?_⟩
    rcases List.mem_append.mp hcall with hcall | hcall
    · exact hcs call hcall
    · obtain ⟨hok, hin⟩ := hcs' call hcall
      rw [hsb] at hok
      exact ⟨hok, hback _ hok.1 hin⟩

/-- A file that shares the pool of inodes keeps its cache. -/
theorem FileOk.repooled {g g' : FileSystem} {dmⱼ : DirMeta} (h : Local fs dm L fs' dm' L') (hj : FileOk g dmⱼ Lⱼ)
    (hchain : IsChain g' Lⱼ) (hi : g.inodes = fs.inodes ∧ g.inodeBitmap = fs.inodeBitmap)
    (hi' : g'.inodes = fs'.inodes ∧ g'.inodeBitmap = fs'.inodeBitmap)
    (hI : ∀ x, Owns g dmⱼ.item dmⱼ.inodeMaxCluster x → ¬ Owns fs dm.item dm.inodeMaxCluster x) :
    FileOk g' dmⱼ Lⱼ ∧ ∀ x, Owns g' dmⱼ.item dmⱼ.inodeMaxCluster x → Owns g dmⱼ.item dmⱼ.inodeMaxCluster x := by
  have hpool : ∀ key, InodeKey.Live dmⱼ.inodeMaxCluster key →
      Bitmap.get g'.inodeBitmap (key.id g.inodes dmⱼ.item) = true ∧
        g'.inodes (key.id g.inodes dmⱼ.item) = g.inodes (key.id g.inodes dmⱼ.item) := by
    intro key hl
    have hused := hj.inodeOk.used key hl
    rw [hi.2] at hused
    rw [hi'.1, hi'.2, hi.1]
    rw [hi.1] at hused
    exact h.pool _ hused (hI _ ⟨key, hl, by rw [hi.1]⟩)
  have hsame : SameCache g.inodes dmⱼ.item g'.inodes dmⱼ.item dmⱼ.inodeMaxCluster :=
    ⟨fun _ _ _ => rfl, fun _ _ => rfl, fun _ _ => rfl, fun key hl i _ _ => by rw [(hpool key hl).2]⟩
  refine ⟨⟨hchain, hj.first, hj.pos, hj.count, ?_, ?_, ?_⟩, ?_⟩
  · intro i c hi ht hc
    rw [hsame.cachedClus hi ht]
    exact hj.cached i c hi ht hc
  · intro key hl
    rw [hsame.id hl]
    exact (hpool key hl).1
  · intro key key' hl hl' heq
    rw [hsame.id hl, hsame.id hl'] at heq
    exact hj.inodeOk.inj key key' hl hl' heq
  · rintro x ⟨key, hl, rfl⟩
    exact ⟨key, hl, (hsame.id hl).symm⟩

/-- Another file is not affected. -/
theorem FileOk.frame {dmⱼ : DirMeta} (h : Local fs dm L fs' dm' L') (hb : BitmapOk fs)
    (hj : FileOk fs dmⱼ Lⱼ) (hL : ∀ c ∈ Lⱼ, c ∉ L)
    (hI : ∀ x, Owns fs dmⱼ.item dmⱼ.inodeMaxCluster x → ¬ Owns fs dm.item dm.inodeMaxCluster x) :
    FileOk fs' dmⱼ Lⱼ ∧ ∀ x, Owns fs' dmⱼ.item dmⱼ.inodeMaxCluster x → Owns fs dmⱼ.item dmⱼ.inodeMaxCluster x := by
  have hchain : IsChain fs' Lⱼ := hj.chain.congr h.superBlock fun c hc =>
    (h.clusters c (hj.chain.inRange c hc) (hj.chain.used hb hc) (hL c hc)).2.1
  exact hj.repooled h hchain ⟨rfl, rfl⟩ ⟨rfl, rfl⟩ hI

/-- Nor are its bytes. -/
theorem chainByte_frame (h : Local fs dm L fs' dm' L') (hok : fs.superBlock.Ok) (hb : BitmapOk fs)
    (hj : IsChain fs Lⱼ) (hL : ∀ c ∈ Lⱼ, c ∉ L) {j : Nat} (hlt : j < Lⱼ.length * fs.superBlock.bytsPerClus) :
    chainByte fs' Lⱼ j = chainByte fs Lⱼ j := by
  have hpos := hok.bpc_pos
  have hidx : j / fs.superBlock.bytsPerClus < Lⱼ.length := (Nat.div_lt_iff_lt_mul hpos).mpr hlt
  have hmem : Lⱼ.getD (j / fs.superBlock.bytsPerClus) 0 ∈ Lⱼ := by
    rw [List.getD_eq_getElem _ _ hidx]
    exact List.getElem_mem hidx
  unfold chainByte
  rw [h.superBlock]
  exact (h.clusters _ (hj.inRange _ hmem) (hj.used hb hmem) (hL _ hmem)).2.2 _ (Nat.mod_lt _ hpos)

end Local

end Exaros.Fat
