import Exaros.Files.Descriptors

/-!
# Pipes and sockets behind descriptors

`syscallPipe`, `createSocket` and `accept` make the object and the file before they look for a descriptor.
`syscallPipe` gives both back when there is none; the other two keep the file.
-/

namespace Exaros.Files

/-- Files that were open keep their counts. -/
def Kept (k k' : Kernel) : Prop := ∀ f, (k.files f).ref ≠ 0 → (k'.files f).ref = (k.files f).ref

section Objects

variable {e : Nat → Int} {k k' k'' : Kernel} {p f g : Nat}

theorem Kept.refl (k : Kernel) : Kept k k := fun _ _ => rfl

theorem Kept.drops (h : Kept k k') (hi : Inv 0 k) (hi' : Inv 0 k') : Drops k k' :=
  drops_of_same hi hi' fun f _ => h f

/-- A change at a file that was free. -/
theorem kept_of_ne (h : Kept k k') (h0 : (k.files f).ref = 0) (hne : ∀ g, g ≠ f → k''.files g = k'.files g) : Kept k k'' :=
  fun g hg => by rw [hne g fun hgf => hg (hgf ▸ h0), h g hg]

theorem setFile_ne (k : Kernel) (f : Nat) (file : File) (g : Nat) (h : g ≠ f) : (k.setFile f file).files g = k.files g := by
  simp [Kernel.setFile, h]

theorem setFile_self (k : Kernel) (f : Nat) (file : File) : (k.setFile f file).files f = file := by
  simp [Kernel.setFile]

/-! ## Sockets -/

/-- A socket taken from the table. -/
theorem socketAlloc_inv (hi : Inv e k) {page : Bool} {s : Nat} (h : socketAlloc page k = .ok (s, k')) :
    Inv e k' ∧ k' = { k with sockets := Function.update k.sockets s true } ∧ k.sockets s = false := by
  unfold socketAlloc at h
  cases hfind : (List.range SOCKET_COUNT).find? fun s => k.sockets s = false with
  | none =>
    rw [hfind] at h
    cases h
  | some s' =>
    rw [hfind] at h
    have hclosed : k.sockets s' = false := by simpa using List.find?_some hfind
    cases page with
    | false => cases h
    | true =>
      cases h
      refine ⟨hi.objects rfl rfl rfl (fun f o ho => ?_) hi.free, rfl, hclosed⟩
      have hold := hi.isOpen f o ho
      cases o with
      | socket s₁ =>
        have hne : s₁ ≠ s := fun h => hi.not_object (o := .socket s) hclosed f (h ▸ ho)
        simpa [Kernel.isOpen, hne] using hold
      | pipeEnd pi w => cases w <;> exact hold
      | tmpfile t => exact hold

theorem socketAlloc_error {page : Bool} {h : Halt} (he : socketAlloc page k = .error h) : h = .socketRunOut := by
  unfold socketAlloc at he
  split at he
  · cases he
    rfl
  · cases page with
    | true => cases he
    | false =>
      cases he
      rfl

/-- The record `createSocket` and `accept` write. -/
def File.asSocket (file : File) (s : Nat) : File :=
  { file with socket := s, type := .socket, readable := true, writable := true }

/-- A new socket gets a descriptor when there is one. -/
theorem Inv.fdalloc_socket (hi : Inv (one (some f)) k) (hp : p < PROCESS_TOTAL_NUMBER) (hlive : (k.procs p).live = true)
    (hf : f < NFILE) {s : Nat} (hopen : k.sockets s = true) (hnew : ∀ g, (k.files g).object ≠ some (.socket s))
    (hmeets : ∃ i < NOFILE, (k.procs p).ofile i = none) :
    Inv 0 (Files.fdalloc p f (k.setFile f ((k.files f).asSocket s))).2 ∧
      ∀ g, g ≠ f → (Files.fdalloc p f (k.setFile f ((k.files f).asSocket s))).2.files g = k.files g := by
  have href : (k.files f).ref ≠ 0 := by
    have := hi.ref f hf
    rw [one_self] at this
    omega
  have hi₁ : Inv (one (some f)) (k.setFile f ((k.files f).asSocket s)) := hi.fill rfl href fun o ho => by
    cases ho
    exact ⟨hopen, hnew⟩
  rcases hi₁.fdalloc hp hlive hf with ⟨-, hfull⟩ | ⟨fd, -, -, hfd, hi₂⟩
  · obtain ⟨i, hin, hi0⟩ := hmeets
    exact (hfull i hin hi0).elim
  · rw [hfd]
    exact ⟨hi₂.cast (sub_self _), fun g hg => setFile_ne k f _ g hg⟩

/-- `socket` takes a descriptor. -/
theorem createSocket_fine (hi : Inv 0 k) (hp : p < PROCESS_TOTAL_NUMBER) (hlive : (k.procs p).live = true) (page : Bool)
    (hmeets : ∃ i < NOFILE, (k.procs p).ofile i = none) : Fine k ((createSocket p page k).map (·.2)) := by
  unfold createSocket
  cases halloc : filealloc k with
  | none => exact fine_error ⟨by simp, by simp⟩
  | some r =>
    obtain ⟨f, k₁⟩ := r
    obtain ⟨hf, h0, hk₁, hi₁⟩ := hi.filealloc halloc
    rw [zero_add] at hi₁
    have hkept : Kept k k₁ := kept_of_ne (.refl k) h0 fun g hg => by rw [hk₁, setFile_ne k f _ g hg]
    cases hs : socketAlloc page k₁ with
    | error h =>
      simp only [bind, Except.bind, hs]
      rw [socketAlloc_error hs]
      exact fine_error ⟨by simp, by simp⟩
    | ok r =>
      obtain ⟨s, k₂⟩ := r
      obtain ⟨hi₂, hk₂, hclosed⟩ := socketAlloc_inv hi₁ hs
      have hprocs : k₂.procs = k.procs := by rw [hk₂, hk₁]; rfl
      have hfiles : k₂.files = k₁.files := by rw [hk₂]
      obtain ⟨hi₃, hother⟩ := hi₂.fdalloc_socket (p := p) hp (by rw [hprocs]; exact hlive) hf (s := s) (by rw [hk₂]; simp)
        (fun g => by rw [hfiles]; exact hi₁.not_object (o := .socket s) hclosed g) (by rw [hprocs]; exact hmeets)
      simp only [bind, Except.bind, hs]
      refine fine_ok hi₃ (Kept.drops (kept_of_ne hkept h0 fun g hg => ?_) hi hi₃)
      rw [← hfiles]
      exact hother g hg

/-- `accept` takes a descriptor for the connection. -/
theorem accept_fine (hi : Inv 0 k) (hp : p < PROCESS_TOTAL_NUMBER) (hlive : (k.procs p).live = true) (sockfd : Int)
    (pending page : Bool) (hmeets : ∃ i < NOFILE, (k.procs p).ofile i = none) :
    Fine k ((accept p sockfd pending page k).map (·.2)) := by
  unfold accept
  cases harg : k.argfd p sockfd with
  | none => exact fine_error ⟨by simp, by simp⟩
  | some f₀ =>
    by_cases htype : (k.files f₀).type = .socket
    swap
    · simp only [ne_eq, htype, not_false_eq_true, if_true]
      exact fine_error ⟨by simp, by simp⟩
    · simp only [ne_eq, htype, not_true_eq_false, if_false]
      cases pending with
      | false => exact fine_refl hi
      | true =>
        cases hs : socketAlloc page k with
        | error h =>
          simp only [bind, Except.bind]
          rw [socketAlloc_error hs]
          exact fine_error ⟨by simp, by simp⟩
        | ok r =>
          obtain ⟨s, k₁⟩ := r
          obtain ⟨hi₁, hk₁, hclosed⟩ := socketAlloc_inv hi hs
          cases halloc : filealloc k₁ with
          | none =>
            simp only [bind, Except.bind, halloc]
            exact fine_error ⟨by simp, by simp⟩
          | some r =>
            obtain ⟨f, k₂⟩ := r
            obtain ⟨hf, h0, hk₂, hi₂⟩ := hi₁.filealloc halloc
            rw [zero_add] at hi₂
            have hprocs : k₂.procs = k.procs := by rw [hk₂, hk₁]; rfl
            have h0' : (k.files f).ref = 0 := by rw [hk₁] at h0; exact h0
            have hobj : ∀ g, (k₂.files g).object = (k.files g).object := fun g => by
              by_cases hg : g = f
              · subst hg
                rw [hk₂, setFile_self, hk₁]
                rfl
              · rw [hk₂, setFile_ne k₁ f _ g hg, hk₁]
            have hkept : Kept k k₂ := kept_of_ne (.refl k) h0' fun g hg => by rw [hk₂, setFile_ne k₁ f _ g hg, hk₁]
            obtain ⟨hi₃, hother⟩ := hi₂.fdalloc_socket (p := p) hp (by rw [hprocs]; exact hlive) hf (s := s)
              (by rw [hk₂, hk₁]; simp [Kernel.setFile]) (fun g => by rw [hobj]; exact hi.not_object (o := .socket s) hclosed g)
              (by rw [hprocs]; exact hmeets)
            simp only [bind, Except.bind, halloc]
            exact fine_ok hi₃ (Kept.drops (kept_of_ne hkept h0' hother) hi hi₃)

/-! ## Pipes -/

/-- A new pipe has both ends open, and no file holds either. -/
theorem Inv.made (hi : Inv e k) {pi : Nat} (hclear : Bitmap.get k.world.pipeBitMap pi = false) :
    Inv e { k with world := k.world.made pi } := by
  obtain ⟨hr, hw⟩ := hi.free pi hclear
  refine hi.objects rfl rfl rfl (fun f o ho => ?_) fun q hq => ?_
  · have hold := hi.isOpen f o ho
    cases o with
    | pipeEnd q w =>
      have hq : q ≠ pi := fun h => by
        subst h
        cases w with
        | true => exact hi.not_object (o := .pipeEnd q true) hw f ho
        | false => exact hi.not_object (o := .pipeEnd q false) hr f ho
      cases w with
      | true => simpa [Kernel.isOpen, Pipes.World.made, Pipes.World.setPipe, hq] using hold
      | false => simpa [Kernel.isOpen, Pipes.World.made, Pipes.World.setPipe, hq] using hold
    | socket s => exact hold
    | tmpfile t => exact hold
  · have hq' : q ≠ pi ∧ Bitmap.get k.world.pipeBitMap q = false := by
      simpa [Pipes.World.made, Bitmap.get_set] using hq
    simpa [Pipes.World.made, Pipes.World.setPipe, hq'.1] using hi.free q hq'.2

/-- A pipe with two files, nothing, or a panic of the pipe. -/
theorem pipeNew_inv (hi : Inv 0 k) :
    (∃ h, pipeNew k = .error (.pipe h)) ∨ (∃ k', pipeNew k = .ok (none, k') ∧ Inv 0 k' ∧ Kept k k') ∨
      ∃ rf wf k', pipeNew k = .ok (some (rf, wf), k') ∧ rf < NFILE ∧ wf < NFILE ∧ (k.files rf).ref = 0 ∧
        (k.files wf).ref = 0 ∧ Inv (one (some rf) + one (some wf)) k' ∧ Kept k k' ∧ k'.procs = k.procs := by
  unfold pipeNew
  cases halloc : filealloc k with
  | none => exact .inr (.inl ⟨k, rfl, hi, .refl k⟩)
  | some r =>
    obtain ⟨rf, k₁⟩ := r
    obtain ⟨hrf, h0, hk₁, hi₁⟩ := hi.filealloc halloc
    rw [zero_add] at hi₁
    have href : (k₁.files rf).ref = 1 := by rw [hk₁, setFile_self]
    have hobj : (k₁.files rf).object = none := by
      rw [hk₁, setFile_self]
      exact hi.nothing rf h0
    have hkept₁ : Kept k k₁ := kept_of_ne (.refl k) h0 fun g hg => by rw [hk₁, setFile_ne k rf _ g hg]
    cases halloc₁ : filealloc k₁ with
    | none =>
      obtain ⟨k', hk', hi', -, hother, -⟩ := hi₁.fileclose_new hobj href
      refine .inr (.inl ⟨k', ?_, hi'.cast (sub_self _), kept_of_ne hkept₁ h0 hother⟩)
      simp only [halloc₁, hk']
      rfl
    | some r =>
      obtain ⟨wf, k₂⟩ := r
      obtain ⟨hwf, h0', hk₂, hi₂⟩ := hi₁.filealloc halloc₁
      have hne : wf ≠ rf := fun h => by
        rw [h, href] at h0'
        cases h0'
      have h0w : (k.files wf).ref = 0 := by
        rw [hk₁, setFile_ne k rf _ wf hne] at h0'
        exact h0'
      have hkept₂ : Kept k k₂ := kept_of_ne hkept₁ h0w fun g hg => by rw [hk₂, setFile_ne k₁ wf _ g hg]
      cases hpipe : Pipes.pipeNew k₂.world with
      | error h => exact .inl ⟨h, by simp only [halloc₁, hpipe]⟩
      | ok r =>
        obtain ⟨pi, w⟩ := r
        obtain ⟨-, hclear, rfl⟩ := Pipes.pipeNew_cases hpipe
        obtain ⟨hr, hw⟩ := hi₂.free pi hclear
        let k₃ : Kernel := { k₂ with world := k₂.world.made pi }
        have hi₃ : Inv (one (some rf) + one (some wf)) k₃ := hi₂.made hclear
        let k₄ := k₃.setFile rf { k₃.files rf with type := .pipe, readable := true, writable := false, pipe := pi }
        let k₅ := k₄.setFile wf { k₄.files wf with type := .pipe, readable := false, writable := true, pipe := pi }
        have hrf₃ : (k₃.files rf).ref ≠ 0 := by
          show (k₂.files rf).ref ≠ 0
          rw [hk₂, setFile_ne k₁ wf _ rf (Ne.symm hne), href]
          decide
        have hwf₄ : (k₄.files wf).ref ≠ 0 := by
          rw [setFile_ne k₃ rf _ wf hne]
          show (k₂.files wf).ref ≠ 0
          rw [hk₂, setFile_self]
          exact one_ne_zero
        have hi₄ : Inv (one (some rf) + one (some wf)) k₄ := hi₃.fill rfl hrf₃ fun o ho => by
          cases ho
          exact ⟨by simp [k₃, Kernel.isOpen, Pipes.World.made, Pipes.World.setPipe],
            fun g => hi₂.not_object (o := .pipeEnd pi false) hr g⟩
        have hi₅ : Inv (one (some rf) + one (some wf)) k₅ := hi₄.fill rfl hwf₄ fun o ho => by
          cases ho
          refine ⟨by simp [k₄, k₃, Kernel.setFile, Kernel.isOpen, Pipes.World.made, Pipes.World.setPipe], fun g => ?_⟩
          by_cases hg : g = rf
          · rw [hg, setFile_self]
            simp [File.object]
          · rw [setFile_ne k₃ rf _ g hg]
            exact hi₂.not_object (o := .pipeEnd pi true) hw g
        refine .inr (.inr ⟨rf, wf, k₅, ?_, hrf, hwf, h0, h0w, hi₅, ?_, ?_⟩)
        · simp only [halloc₁, hpipe]
          rfl
        · have hkept₃ : Kept k k₃ := hkept₂
          have hkept₄ : Kept k k₄ := kept_of_ne hkept₃ h0 fun g hg => setFile_ne k₃ rf _ g hg
          exact kept_of_ne hkept₄ h0w fun g hg => setFile_ne k₄ wf _ g hg
        · show k₂.procs = k.procs
          rw [hk₂, hk₁]
          rfl

/-- Both ends are closed again. -/
theorem closeBoth_fine {k₀ : Kernel} {rf wf : Nat} (hi₀ : Inv 0 k₀) (hi : Inv (one (some rf) + one (some wf)) k) (hkept : Kept k₀ k)
    (hrf : rf < NFILE) (hwf : wf < NFILE) (h0 : (k₀.files rf).ref = 0) (h0' : (k₀.files wf).ref = 0) :
    Fine k₀ ((closeBoth rf wf k).map (·.2)) := by
  have hpos : ∀ f g, 0 ≤ one (some f) g := fun f g => by
    unfold one
    split <;> decide
  have h1 : 1 ≤ (k.files rf).ref := hi.one_le_ref hrf (by
    have := hpos wf rf
    rw [Pi.add_apply, one_self]
    omega)
  obtain ⟨k₁, hk₁, hi₁, -, -, -, -, hother₁⟩ := hi.fileclose h1
  rw [add_sub_cancel_left] at hi₁
  have h1' : 1 ≤ (k₁.files wf).ref := hi₁.one_le_ref hwf (by
    rw [one_self]
    omega)
  obtain ⟨k₂, hk₂, hi₂, -, -, -, -, hother₂⟩ := hi₁.fileclose h1'
  rw [sub_self] at hi₂
  simp only [closeBoth, bind, Except.bind, hk₁, hk₂]
  exact fine_ok hi₂ (Kept.drops (kept_of_ne (kept_of_ne hkept h0 hother₁) h0' hother₂) hi₀ hi₂)

/-- `pipe` takes two descriptors, or none. -/
theorem syscallPipe_fine (hi : Inv 0 k) (hp : p < PROCESS_TOTAL_NUMBER) (hlive : (k.procs p).live = true) (copied : Bool) :
    Fine k ((syscallPipe p copied k).map (·.2)) := by
  unfold syscallPipe
  rcases pipeNew_inv hi with ⟨h, hk'⟩ | ⟨k', hk', hi', hkept⟩ | ⟨rf, wf, k', hk', hrf, hwf, h0, h0', hi', hkept, hprocs⟩
  · simp only [bind, Except.bind, hk']
    exact fine_error ⟨by simp, by simp⟩
  · simp only [bind, Except.bind, hk']
    exact fine_ok hi' (hkept.drops hi hi')
  · simp only [bind, Except.bind, hk']
    have hlive' : (k'.procs p).live = true := by rw [hprocs]; exact hlive
    rcases hi'.fdalloc hp hlive' hrf with ⟨hfd, -⟩ | ⟨fd0, hfd0, hnone0, hfd, hi₁⟩
    · simp only [hfd]
      exact closeBoth_fine hi hi' hkept hrf hwf h0 h0'
    · simp only [hfd]
      rw [add_sub_cancel_left] at hi₁
      have hslot0 : ((k'.setSlot p fd0 (some rf)).procs p).ofile fd0 = some rf := by simp [Kernel.setSlot]
      have hlive₁ : ((k'.setSlot p fd0 (some rf)).procs p).live = true := by simpa [Kernel.setSlot] using hlive'
      rcases hi₁.fdalloc hp hlive₁ hwf with ⟨hfd', -⟩ | ⟨fd1, hfd1, hnone1, hfd', hi₂⟩
      · simp only [hfd']
        have hi₂ := hi₁.setSlot hp hfd0 (v := none) fun g hg => by cases hg
        rw [hslot0, one_none, sub_zero, add_comm] at hi₂
        exact closeBoth_fine hi hi₂ hkept hrf hwf h0 h0'
      · simp only [hfd']
        rw [sub_self] at hi₂
        cases copied with
        | true => exact fine_ok hi₂ (Kept.drops hkept hi hi₂)
        | false =>
          let k₂ := (k'.setSlot p fd0 (some rf)).setSlot p fd1 (some wf)
          have hne : fd0 ≠ fd1 := fun h => by
            rw [← h, hslot0] at hnone1
            cases hnone1
          have hslot0' : (k₂.procs p).ofile fd0 = some rf := by simp [k₂, Kernel.setSlot, hne]
          have hi₃ := hi₂.setSlot hp hfd0 (v := none) fun g hg => by cases hg
          have hslot1 : ((k₂.setSlot p fd0 none).procs p).ofile fd1 = some wf := by simp [k₂, Kernel.setSlot, Ne.symm hne]
          have hi₄ := hi₃.setSlot hp hfd1 (v := none) fun g hg => by cases hg
          rw [hslot0', hslot1, one_none, sub_zero, sub_zero, zero_add] at hi₄
          exact closeBoth_fine hi hi₄ hkept hrf hwf h0 h0'

end Objects

end Exaros.Files
