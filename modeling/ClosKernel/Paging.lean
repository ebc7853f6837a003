import ClosKernel.Lib.PartialRun
import ClosKernel.Lib.PageWalk
import Mathlib.Data.Set.Lattice
import Mathlib.Order.CompletePartialOrder
import Mathlib.Order.Interval.Set.Basic

/-!
# Page directories and page tables (`kernel.c`, `paging.S`)

Every process has a page directory; three page tables are shared by all of them.  The arrays are static, so
their addresses are fixed when the kernel is linked; `Layout` collects these addresses together with what the
alignment attributes and the linker guarantee about them.  `Paging` holds the contents of the arrays and the
control registers, and `Paging.load` presents the arrays as words of physical memory, which is what the
hardware walk of `PageWalk` reads.

* `initilizePaging`, `setupPaging`, `updatePaging`, `addVidmap` embed the functions of `kernel.c`;
* `Paging.Ok` says, entry by entry, what the tables contain after `initilizePaging` and any number of the
  other calls, and is kept by each of them;
* `Ok.translate_program` and `Ok.translate_user` say where the program page of a process goes and what a
  user-mode access can reach at all;
* `user_memory_isolation` puts them together for every sequence of calls.
-/

namespace ClosKernel

open PartialRun PageWalk

def numProcess : ℕ := 6
def numPages : ℕ := 1024
def numPageTables : ℕ := 1024
def pageSize : ℕ := 4096

def video : ℕ := 0xB8000
def videoTableEntry : ℕ := 184
def videoTerm1 : ℕ := 0x2401000
def videoTerm2 : ℕ := 0x2402000
def videoTerm3 : ℕ := 0x2403000
def kernelHardcode : ℕ := 0x400183
def shellHardcode : ℕ := 0x800187
def physicalPageOffset : ℕ := 0x400000
def emptyPhysMem : ℕ := 0x2400000
def fourMb : ℕ := 4 * 1024 * 1024
def rwBitEnable : ℕ := 0x02

/-- The link-time addresses of the paging arrays: page-aligned, apart from each other, and inside the kernel's
own 4 MB page. -/
structure Layout where
  pageDir : ℕ
  pageTable0 : ℕ
  pageTableVidmap : ℕ
  pageTableTerm : ℕ
  aligned : pageDir % 4096 = 0 ∧ pageTable0 % 4096 = 0 ∧ pageTableVidmap % 4096 = 0 ∧
    pageTableTerm % 4096 = 0
  apart_dir : (pageDir + 24576 ≤ pageTable0 ∨ pageTable0 + 4096 ≤ pageDir) ∧
    (pageDir + 24576 ≤ pageTableVidmap ∨ pageTableVidmap + 4096 ≤ pageDir) ∧
    (pageDir + 24576 ≤ pageTableTerm ∨ pageTableTerm + 4096 ≤ pageDir)
  apart_tables : pageTable0 ≠ pageTableVidmap ∧ pageTable0 ≠ pageTableTerm ∧
    pageTableVidmap ≠ pageTableTerm
  in_kernel : 0x400000 ≤ pageDir ∧ pageDir + 24576 ≤ 0x800000 ∧ 0x400000 ≤ pageTable0 ∧
    pageTable0 + 4096 ≤ 0x800000 ∧ 0x400000 ≤ pageTableVidmap ∧ pageTableVidmap + 4096 ≤ 0x800000 ∧
    0x400000 ≤ pageTableTerm ∧ pageTableTerm + 4096 ≤ 0x800000

/-- The arrays do fit. -/
instance : Inhabited Layout :=
  ⟨0x410000, 0x420000, 0x430000, 0x440000, by decide, by decide, by decide, by decide⟩

/-- The contents of the paging arrays, and the control registers.  `elsewhere` is the rest of memory. -/
structure Paging where
  pageDir : ℕ → ℕ → ℕ
  pageTable0 : ℕ → ℕ
  pageTableVidmap : ℕ → ℕ
  pageTableTerm : ℕ → ℕ
  cr3 : ℕ
  pse : Bool
  pg : Bool
  elsewhere : ℕ → ℕ
  deriving Inhabited

/-- The address of `page_dir[pid]`. -/
def Layout.dirAdrs (L : Layout) (pid : ℕ) : ℕ := L.pageDir + 4096 * pid

/-- `D[i][j] = e`. -/
def setEntry (D : ℕ → ℕ → ℕ) (i j e : ℕ) : ℕ → ℕ → ℕ :=
  Function.update D i (Function.update (D i) j e)

namespace Paging

/-- The word of physical memory at address `a`. -/
def load (L : Layout) (P : Paging) (a : ℕ) : ℕ :=
  if L.pageDir ≤ a ∧ a < L.pageDir + 24576 then
    P.pageDir ((a - L.pageDir) / 4096) ((a - L.pageDir) % 4096 / 4)
  else if L.pageTable0 ≤ a ∧ a < L.pageTable0 + 4096 then P.pageTable0 ((a - L.pageTable0) / 4)
  else if L.pageTableVidmap ≤ a ∧ a < L.pageTableVidmap + 4096 then
    P.pageTableVidmap ((a - L.pageTableVidmap) / 4)
  else if L.pageTableTerm ≤ a ∧ a < L.pageTableTerm + 4096 then
    P.pageTableTerm ((a - L.pageTableTerm) / 4)
  else P.elsewhere a

/-- The translation of `v` through the page directory at `cr3`. -/
def translate (L : Layout) (P : Paging) (cr3 v : ℕ) : Option Access := walk (P.load L) P.pse cr3 v

def loadCR3 (ptr : ℕ) (P : Paging) : Paging := { P with cr3 := ptr }
def setPse (P : Paging) : Paging := { P with pse := true }
def setCr0 (P : Paging) : Paging := { P with pg := true }

/-- `map_to_addr` starts at `start` and grows by a page in every iteration. -/
def fillNonpresent (start : ℕ) (T : ℕ → ℕ) : ℕ → ℕ :=
  upto (fun i T => Function.update T i ((start + pageSize * i) ||| rwBitEnable)) numPages T

def initilizePaging (L : Layout) (P : Paging) : Paging :=
  let D := upto (fun i D => upto (fun j D => setEntry D i j rwBitEnable) numPageTables D) numProcess
    P.pageDir
  let T0 := fillNonpresent 0 P.pageTable0
  let T0 := Function.update T0 videoTableEntry (video ||| 7)
  let D := upto (fun i D => setEntry (setEntry D i 0 (L.pageTable0 ||| 0x07)) i 34
    (L.pageTableTerm ||| 7)) numProcess D
  let D := upto (fun i D => setEntry D i 1 kernelHardcode) numProcess D
  let Tv := fillNonpresent emptyPhysMem P.pageTableVidmap
  let Tt := fillNonpresent emptyPhysMem P.pageTableTerm
  let Tv := Function.update Tv 0 (video ||| 7)
  let Tt := Function.update Tt 1 (videoTerm1 ||| 7)
  let Tt := Function.update Tt 2 (videoTerm2 ||| 7)
  let Tt := Function.update Tt 3 (videoTerm3 ||| 7)
  setPse { P with pageDir := D, pageTable0 := T0, pageTableVidmap := Tv, pageTableTerm := Tt }

def setupPaging (L : Layout) (pid : ℕ) (P : Paging) : Paging :=
  let P := { P with
    pageDir := setEntry P.pageDir pid 32 ((shellHardcode + pid * physicalPageOffset) % 2 ^ 32) }
  ((P.setPse).loadCR3 (L.dirAdrs pid)).setCr0

def updatePaging (L : Layout) (pid : ℕ) (P : Paging) : Paging := P.loadCR3 (L.dirAdrs pid)

/-- `add_vidmap(virt_vmem)` while process `pid` is running. -/
def addVidmap (L : Layout) (pid virtVmem : ℕ) (P : Paging) : Paging :=
  let P := { P with pageDir := setEntry P.pageDir pid (virtVmem / fourMb) (L.pageTableVidmap ||| 7) }
  P.loadCR3 (L.dirAdrs pid)

end Paging

/-! ### Filling the arrays -/

@[simp] theorem setEntry_self (D : ℕ → ℕ → ℕ) (i j e : ℕ) : setEntry D i j e i j = e := by
  rw [setEntry, Function.update_self, Function.update_self]

theorem setEntry_of_ne (D : ℕ → ℕ → ℕ) {i j i' j' : ℕ} (e : ℕ) (h : i' ≠ i ∨ j' ≠ j) :
    setEntry D i j e i' j' = D i' j' := by
  unfold setEntry
  by_cases hi : i' = i
  · subst hi
    rw [Function.update_self, Function.update_of_ne (h.resolve_left (not_not.mpr rfl))]
  · rw [Function.update_of_ne hi]

/-- What `initilize_paging` leaves in the page tables and directories. -/
theorem fillNonpresent_apply (start : ℕ) (hstart : start % 4096 = 0) (T : ℕ → ℕ) {i : ℕ}
    (hi : i < 1024) : Paging.fillNonpresent start T i = start + 4096 * i + 2 := by
  rw [Paging.fillNonpresent, upto_update (fun i _ => (start + pageSize * i) ||| rwBitEnable), numPages,
    if_pos hi, pageSize, rwBitEnable, or_flags (by omega) (by decide)]

/-- The contents of the tables once `initilize_paging` has run, whatever `setup_paging` and `add_vidmap` did
since: entry 32 of a directory is absent or maps the process's own frame, entry 33 is absent or is the
video-memory mapping, and no other entry has changed. -/
structure Paging.Ok (L : Layout) (P : Paging) : Prop where
  table0 : ∀ i < 1024, P.pageTable0 i = if i = 184 then 0xB8007 else 4096 * i + 2
  vidmap : ∀ i < 1024, P.pageTableVidmap i = if i = 0 then 0xB8007 else 0x2400000 + 4096 * i + 2
  term : ∀ i < 1024, P.pageTableTerm i
    = if i = 1 ∨ i = 2 ∨ i = 3 then 0x2400000 + 4096 * i + 7 else 0x2400000 + 4096 * i + 2
  dir0 : ∀ p < 6, P.pageDir p 0 = L.pageTable0 + 7
  dir1 : ∀ p < 6, P.pageDir p 1 = 0x400183
  dir32 : ∀ p < 6, P.pageDir p 32 = 2 ∨ P.pageDir p 32 = 0x800187 + p * 0x400000
  dir33 : ∀ p < 6, P.pageDir p 33 = 2 ∨ P.pageDir p 33 = L.pageTableVidmap + 7
  dir34 : ∀ p < 6, P.pageDir p 34 = L.pageTableTerm + 7
  dirRest : ∀ p < 6, ∀ j < 1024, j ≠ 0 → j ≠ 1 → j ≠ 32 → j ≠ 33 → j ≠ 34 → P.pageDir p j = 2
  pse : P.pse = true

namespace Paging

variable {L : Layout} {P : Paging} {p : ℕ}

/-- Every directory after `initilize_paging`. -/
theorem initilizePaging_pageDir (L : Layout) (P : Paging) {i j : ℕ} (hi : i < 6) (hj : j < 1024) :
    (initilizePaging L P).pageDir i j
      = if j = 1 then 0x400183 else if j = 34 then L.pageTableTerm + 7
        else if j = 0 then L.pageTable0 + 7 else 2 := by
  obtain ⟨-, h0, -, ht⟩ := L.aligned
  have hrow : ∀ (i : ℕ) (D : ℕ → ℕ → ℕ),
      setEntry (setEntry D i 0 (L.pageTable0 ||| 0x07)) i 34 (L.pageTableTerm ||| 7)
        = Function.update D i (Function.update (Function.update (D i) 0 (L.pageTable0 + 7)) 34
            (L.pageTableTerm + 7)) := by
    intro i D
    rw [setEntry, setEntry, Function.update_self, Function.update_idem, or_flags h0 (by decide),
      or_flags ht (by decide)]
  simp only [initilizePaging, setPse, hrow]
  simp only [setEntry, upto_row (fun _ => rwBitEnable)]
  rw [upto_update (fun _ (r : ℕ → ℕ) => Function.update r 1 kernelHardcode), numProcess, if_pos hi,
    upto_update (fun _ (r : ℕ → ℕ) => Function.update (Function.update r 0 (L.pageTable0 + 7)) 34
      (L.pageTableTerm + 7)), if_pos hi,
    upto_update (fun _ r => upto (fun j r => Function.update r j rwBitEnable) numPageTables r),
    if_pos hi]
  simp only [Function.update_apply, upto_update (fun _ _ => rwBitEnable), numPageTables, if_pos hj]
  rfl

/-- `initilize_paging` establishes the invariant, whatever the arrays held. -/
theorem initilizePaging_ok (L : Layout) (P : Paging) : (initilizePaging L P).Ok L := by
  have hdir := fun p (hp : p < 6) j (hj : j < 1024) => initilizePaging_pageDir L P hp hj
  refine ⟨?_, ?_, ?_, ?_, ?_, ?_, ?_, ?_, ?_, rfl⟩
  · intro i hi
    simp only [initilizePaging, setPse, Function.update_apply, fillNonpresent_apply 0 rfl _ hi,
      videoTableEntry]
    by_cases h : i = 184
    · rw [if_pos h, if_pos h]; rfl
    · rw [if_neg h, if_neg h, Nat.zero_add]
  · intro i hi
    simp only [initilizePaging, setPse, Function.update_apply,
      fillNonpresent_apply emptyPhysMem rfl _ hi]
    rfl
  · intro i hi
    simp only [initilizePaging, setPse, Function.update_apply,
      fillNonpresent_apply emptyPhysMem rfl _ hi]
    by_cases h3 : i = 3
    · subst h3; rfl
    · by_cases h2 : i = 2
      · subst h2; rfl
      · by_cases h1 : i = 1
        · subst h1; rfl
        · rw [if_neg h3, if_neg h2, if_neg h1, if_neg (by omega)]; rfl
  · exact fun p hp => hdir p hp 0 (by decide)
  · exact fun p hp => hdir p hp 1 (by decide)
  · exact fun p hp => Or.inl (hdir p hp 32 (by decide))
  · exact fun p hp => Or.inl (hdir p hp 33 (by decide))
  · exact fun p hp => hdir p hp 34 (by decide)
  · intro p hp j hj h0 h1 _ _ h34
    rw [hdir p hp j hj, if_neg h1, if_neg h34, if_neg h0]

/-- Only entries 32 and 33 of a directory are ever stored to again. -/
theorem Ok.setEntry (h : P.Ok L) {j e : ℕ}
    (hje : (j = 32 ∧ e = 0x800187 + p * 0x400000) ∨ (j = 33 ∧ e = L.pageTableVidmap + 7)) :
    Ok L { P with pageDir := ClosKernel.setEntry P.pageDir p j e } := by
  have hkeep : ∀ p' j', j' ≠ 32 → j' ≠ 33 →
      ClosKernel.setEntry P.pageDir p j e p' j' = P.pageDir p' j' :=
    fun p' j' h32 h33 => setEntry_of_ne _ _ (Or.inr (by omega))
  refine ⟨h.table0, h.vidmap, h.term, ?_, ?_, ?_, ?_, ?_, ?_, h.pse⟩
  · exact fun p' hp' => (hkeep p' 0 (by decide) (by decide)).trans (h.dir0 p' hp')
  · exact fun p' hp' => (hkeep p' 1 (by decide) (by decide)).trans (h.dir1 p' hp')
  · intro p' hp'
    by_cases hhit : p' = p ∧ 32 = j
    · obtain ⟨rfl, rfl⟩ := hhit
      exact Or.inr ((setEntry_self _ _ _ _).trans (by omega))
    · dsimp only
      rw [setEntry_of_ne _ _ (by omega)]
      exact h.dir32 p' hp'
  · intro p' hp'
    by_cases hhit : p' = p ∧ 33 = j
    · obtain ⟨rfl, rfl⟩ := hhit
      exact Or.inr ((setEntry_self _ _ _ _).trans (by omega))
    · dsimp only
      rw [setEntry_of_ne _ _ (by omega)]
      exact h.dir33 p' hp'
  · exact fun p' hp' => (hkeep p' 34 (by decide) (by decide)).trans (h.dir34 p' hp')
  · exact fun p' hp' j' hj' h0 h1 h32 h33 h34 =>
      (hkeep p' j' h32 h33).trans (h.dirRest p' hp' j' hj' h0 h1 h32 h33 h34)

/-- The registers other than `CR4.PSE` play no part in the invariant. -/
theorem Ok.registers (h : P.Ok L) (cr3 : ℕ) (pg : Bool) {pse : Bool} (hpse : pse = true) :
    Ok L { P with cr3 := cr3, pg := pg, pse := pse } :=
  ⟨h.table0, h.vidmap, h.term, h.dir0, h.dir1, h.dir32, h.dir33, h.dir34, h.dirRest, hpse⟩

theorem Ok.setupPaging (h : P.Ok L) (hp : p < 6) : (P.setupPaging L p).Ok L := by
  refine (h.setEntry (p := p) (Or.inl ⟨rfl, ?_⟩)).registers _ _ rfl
  rw [shellHardcode, physicalPageOffset]
  omega

theorem Ok.updatePaging (h : P.Ok L) (p : ℕ) : (P.updatePaging L p).Ok L :=
  h.registers _ _ h.pse

theorem Ok.addVidmap (h : P.Ok L) (p : ℕ) : (P.addVidmap L p 0x8400000).Ok L := by
  have hstore := h.setEntry (p := p) (j := 33) (e := L.pageTableVidmap ||| 7)
    (Or.inr ⟨rfl, or_flags L.aligned.2.2.1 (by decide)⟩)
  exact hstore.registers _ _ hstore.pse

/-! ### What the walk reads -/

theorem load_pageDir (P : Paging) (hp : p < 6) {j : ℕ} (hj : j < 1024) :
    P.load L (L.dirAdrs p + 4 * j) = P.pageDir p j := by
  rw [load, Layout.dirAdrs, if_pos (by omega)]
  congr 1 <;> omega

theorem load_pageTable0 (P : Paging) {i : ℕ} (hi : i < 1024) :
    P.load L (L.pageTable0 + 4 * i) = P.pageTable0 i := by
  obtain ⟨h, -⟩ := L.apart_dir
  rw [load, if_neg (by omega), if_pos (by omega)]
  congr 1; omega

theorem load_pageTableVidmap (P : Paging) {i : ℕ} (hi : i < 1024) :
    P.load L (L.pageTableVidmap + 4 * i) = P.pageTableVidmap i := by
  obtain ⟨-, h, -⟩ := L.apart_dir
  obtain ⟨-, h0, hv, -⟩ := L.aligned
  obtain ⟨h0v, -⟩ := L.apart_tables
  rw [load, if_neg (by omega), if_neg (by omega), if_pos (by omega)]
  congr 1; omega

theorem load_pageTableTerm (P : Paging) {i : ℕ} (hi : i < 1024) :
    P.load L (L.pageTableTerm + 4 * i) = P.pageTableTerm i := by
  obtain ⟨-, -, h⟩ := L.apart_dir
  obtain ⟨-, h0, hv, ht⟩ := L.aligned
  obtain ⟨-, h0t, hvt⟩ := L.apart_tables
  rw [load, if_neg (by omega), if_neg (by omega), if_neg (by omega), if_pos (by omega)]
  congr 1; omega

theorem directoryEntry_dirAdrs (P : Paging) (hp : p < 6) {v : ℕ} (hv : v < 2 ^ 32) :
    directoryEntry (P.load L) (L.dirAdrs p) v = P.pageDir p (v / 2 ^ 22) := by
  obtain ⟨hd, -⟩ := L.aligned
  have hbase : base (L.dirAdrs p) = L.dirAdrs p := by rw [base, Layout.dirAdrs]; omega
  rw [directoryEntry, hbase, Nat.mod_eq_of_lt (by omega), load_pageDir P hp (by omega)]

/-- A walk through one of the three shared tables: the entry `pte` alone decides, since the directory entry
grants everything. -/
theorem translate_table (P : Paging) (hp : p < 6) {v T pte : ℕ} (hv : v < 2 ^ 32) (hT : T % 4096 = 0)
    (hpde : P.pageDir p (v / 2 ^ 22) = T + 7)
    (hpte : P.load L (T + 4 * (v / 2 ^ 12 % 2 ^ 10)) = pte) :
    P.translate L (L.dirAdrs p) v = if ¬Present pte then none
      else some ⟨base pte + v % 2 ^ 12, decide (User pte), decide (Writable pte)⟩ := by
  have hdir : directoryEntry (P.load L) (L.dirAdrs p) v = T + 7 :=
    (directoryEntry_dirAdrs P hp hv).trans hpde
  have hbase : base (T + 7) = T := by rw [base]; omega
  have htab : tableEntry (P.load L) (T + 7) v = pte := by rw [tableEntry, hbase, hpte]
  have huser : (User (T + 7) ∧ User pte) = User pte := propext (and_iff_right (by omega))
  have hwrite : (Writable (T + 7) ∧ Writable pte) = Writable pte := propext (and_iff_right (by omega))
  rw [translate, walk_small hdir (by omega) (by omega) htab]
  simp only [huser, hwrite]

/-- The program page of process `p`, at 128 MB, once `setup_paging(p)` has been done. -/
theorem Ok.translate_program (h : P.Ok L) (hp : p < 6)
    (hset : P.pageDir p 32 = 0x800187 + p * 0x400000) {v : ℕ} (hv : v / 2 ^ 22 = 32) :
    P.translate L (L.dirAdrs p) v = some ⟨0x800000 + p * 0x400000 + v % 2 ^ 22, true, true⟩ := by
  have hdir : directoryEntry (P.load L) (L.dirAdrs p) v = 0x800187 + p * 0x400000 := by
    rw [directoryEntry_dirAdrs P hp (by omega), hv, hset]
  have hbase : largeBase (0x800187 + p * 0x400000) = 0x800000 + p * 0x400000 := by
    rw [largeBase]; omega
  rw [translate, h.pse, walk_large hdir (by omega) (by omega), hbase, decide_eq_true (by omega),
    decide_eq_true (by omega)]

/-- **What user code can reach.**  A user access through the directory of process `p` goes to the process's own
frame from its program page, to the VGA page from its two mappings, or to a backing page. -/
theorem Ok.translate_user (h : P.Ok L) (hp : p < 6) {v : ℕ} (hv : v < 2 ^ 32) {acc : Access}
    (hacc : P.translate L (L.dirAdrs p) v = some acc) (huser : acc.user = true) :
    (v / 2 ^ 22 = 32 ∧ acc.phys = 0x800000 + p * 0x400000 + v % 2 ^ 22) ∨
    ((v / 2 ^ 22 = 0 ∨ v / 2 ^ 22 = 33) ∧ acc.phys = 0xB8000 + v % 2 ^ 12) ∨
    (v / 2 ^ 22 = 34 ∧ ∃ t, (t = 1 ∨ t = 2 ∨ t = 3) ∧ acc.phys = 0x2400000 + 4096 * t + v % 2 ^ 12) := by
  obtain ⟨-, ha0, hav, hat⟩ := L.aligned
  have hi : v / 2 ^ 12 % 2 ^ 10 < 1024 := by omega
  have hdir := directoryEntry_dirAdrs (L := L) P hp hv
  -- an entry that is still 2 is absent
  have habsent : P.pageDir p (v / 2 ^ 22) ≠ 2 := by
    intro h2
    rw [translate, walk_absent (hdir.trans h2) (by decide)] at hacc
    simp at hacc
  by_cases h0 : v / 2 ^ 22 = 0
  · rw [translate_table P hp hv ha0 (h0 ▸ h.dir0 p hp) (load_pageTable0 P hi), h.table0 _ hi] at hacc
    by_cases hvga : v / 2 ^ 12 % 2 ^ 10 = 184
    · rw [if_pos hvga, if_neg (by decide), Option.some_inj] at hacc
      exact Or.inr (Or.inl ⟨Or.inl h0, by rw [← hacc]; rfl⟩)
    · rw [if_neg hvga, if_pos (by omega)] at hacc
      simp at hacc
  by_cases h1 : v / 2 ^ 22 = 1
  · have hkernel := hdir.trans (h1 ▸ h.dir1 p hp)
    rw [translate, h.pse, walk_large hkernel (by decide) (by decide), Option.some_inj] at hacc
    rw [← hacc] at huser
    exact absurd (show decide (User 0x400183) = true from huser) (by decide)
  by_cases h32 : v / 2 ^ 22 = 32
  · have hset := (h.dir32 p hp).resolve_left (h32 ▸ habsent)
    rw [h.translate_program hp hset h32, Option.some_inj] at hacc
    exact Or.inl ⟨h32, by rw [← hacc]⟩
  by_cases h33 : v / 2 ^ 22 = 33
  · have hset := (h.dir33 p hp).resolve_left (h33 ▸ habsent)
    rw [translate_table P hp hv hav (h33 ▸ hset) (load_pageTableVidmap P hi), h.vidmap _ hi] at hacc
    by_cases hvga : v / 2 ^ 12 % 2 ^ 10 = 0
    · rw [if_pos hvga, if_neg (by decide), Option.some_inj] at hacc
      exact Or.inr (Or.inl ⟨Or.inr h33, by rw [← hacc]; rfl⟩)
    · rw [if_neg hvga, if_pos (by omega)] at hacc
      simp at hacc
  by_cases h34 : v / 2 ^ 22 = 34
  · rw [translate_table P hp hv hat (h34 ▸ h.dir34 p hp) (load_pageTableTerm P hi), h.term _ hi] at hacc
    by_cases hback : v / 2 ^ 12 % 2 ^ 10 = 1 ∨ v / 2 ^ 12 % 2 ^ 10 = 2 ∨ v / 2 ^ 12 % 2 ^ 10 = 3
    · rw [if_pos hback, if_neg (by omega), Option.some_inj] at hacc
      refine Or.inr (Or.inr ⟨h34, _, hback, ?_⟩)
      rw [← hacc]
      dsimp only [base]
      omega
    · rw [if_neg hback, if_pos (by omega)] at hacc
      simp at hacc
  · exact absurd (h.dirRest p hp _ (by omega) h0 h1 h32 h33 h34) habsent

/-- The program pages after `setup_paging(pid)`: that of `pid`, and those there were. -/
theorem pageDir_setupPaging (L : Layout) (P : Paging) {pid p : ℕ} (hpid : pid < 6)
    (h : p = pid ∨ P.pageDir p 32 = 0x800187 + p * 0x400000) :
    (P.setupPaging L pid).pageDir p 32 = 0x800187 + p * 0x400000 := by
  show setEntry P.pageDir pid 32 _ p 32 = _
  by_cases hp : p = pid
  · rw [hp, setEntry_self, shellHardcode, physicalPageOffset]
    omega
  · rw [setEntry_of_ne _ _ (Or.inl hp)]
    exact h.resolve_left hp

end Paging

/-! ### Isolation -/

/-- The calls that change the tables after boot. -/
inductive PagingOp where
  | setup (pid : Fin 6)
  | vidmap (pid : Fin 6)
  deriving DecidableEq

def PagingOp.apply (L : Layout) (P : Paging) : PagingOp → Paging
  | .setup pid => P.setupPaging L pid
  | .vidmap pid => P.addVidmap L pid 0x8400000

/-- The tables after boot and the calls `ops`. -/
def pagingAfter (L : Layout) (P : Paging) (ops : List PagingOp) : Paging :=
  ops.foldl (PagingOp.apply L) (P.initilizePaging L)

theorem PagingOp.apply_ok {L : Layout} {P : Paging} (h : P.Ok L) (op : PagingOp) :
    (op.apply L P).Ok L := by
  cases op with
  | setup pid => exact h.setupPaging pid.isLt
  | vidmap pid => exact h.addVidmap pid

/-- No call takes the program page of a process away again. -/
theorem PagingOp.apply_pageDir_32 {L : Layout} {P : Paging} (op : PagingOp) {p : Fin 6}
    (h : op = .setup p ∨ P.pageDir p 32 = 0x800187 + p * 0x400000) :
    (op.apply L P).pageDir p 32 = 0x800187 + p * 0x400000 := by
  cases op with
  | setup pid =>
    exact P.pageDir_setupPaging L pid.isLt (h.imp (fun h' => by rw [PagingOp.setup.inj h']) id)
  | vidmap pid =>
    show setEntry P.pageDir pid 33 _ p 32 = _
    rw [setEntry_of_ne _ _ (Or.inr (by decide))]
    exact h.resolve_left (by simp)

theorem foldl_apply_ok {L : Layout} {P : Paging} (h : P.Ok L) (ops : List PagingOp) :
    (ops.foldl (PagingOp.apply L) P).Ok L := by
  induction ops generalizing P with
  | nil => exact h
  | cons op ops ih => exact ih (op.apply_ok h)

theorem foldl_apply_pageDir_32 {L : Layout} {P : Paging} {ops : List PagingOp} {p : Fin 6}
    (h : PagingOp.setup p ∈ ops ∨ P.pageDir p 32 = 0x800187 + p * 0x400000) :
    (ops.foldl (PagingOp.apply L) P).pageDir p 32 = 0x800187 + p * 0x400000 := by
  induction ops generalizing P with
  | nil => exact h.resolve_left (by simp)
  | cons op ops ih =>
    refine ih ?_
    rcases h with hmem | hset
    · rcases List.mem_cons.mp hmem with rfl | hrest
      · exact Or.inr (PagingOp.apply_pageDir_32 _ (Or.inl rfl))
      · exact Or.inl hrest
    · exact Or.inr (op.apply_pageDir_32 (Or.inr hset))

/-- The physical frame of process `p`. -/
def programFrame (p : ℕ) : Set ℕ := Set.Ico (0x800000 + p * 0x400000) (0x800000 + (p + 1) * 0x400000)

def vgaPage : Set ℕ := Set.Ico 0xB8000 0xB9000

/-- The backing page of terminal `t`. -/
def backingPage (t : ℕ) : Set ℕ := Set.Ico (0x2400000 + t * 0x1000) (0x2400000 + (t + 1) * 0x1000)

def kernelFrame : Set ℕ := Set.Ico 0x400000 0x800000

/-- **User memory isolation.**  After any calls, the directory of a process that has been set up gives user
code its own frame, the VGA page and the backing pages, and nothing else; the frame really is there, it
overlaps neither another process's frame nor a shared page, and the kernel's page is out of reach. -/
theorem user_memory_isolation (L : Layout) (P : Paging) (ops : List PagingOp) (p : Fin 6)
    (hp : PagingOp.setup p ∈ ops) :
    (∀ v < 2 ^ 32, ∀ acc, (pagingAfter L P ops).translate L (L.dirAdrs p) v = some acc →
      acc.user = true →
      (acc.phys ∈ programFrame p ∨ acc.phys ∈ vgaPage ∨ ∃ t ∈ [1, 2, 3], acc.phys ∈ backingPage t) ∧
      acc.phys ∉ kernelFrame ∧ v ∉ kernelFrame) ∧
    (∀ o < 0x400000, (pagingAfter L P ops).translate L (L.dirAdrs p) (0x8000000 + o)
      = some ⟨0x800000 + p * 0x400000 + o, true, true⟩) ∧
    (∀ q : Fin 6, q ≠ p → Disjoint (programFrame p) (programFrame q)) ∧
    Disjoint (programFrame p) vgaPage ∧ ∀ t ∈ [1, 2, 3], Disjoint (programFrame p) (backingPage t) := by
  have hok : (pagingAfter L P ops).Ok L := foldl_apply_ok (Paging.initilizePaging_ok L P) ops
  have hset := foldl_apply_pageDir_32 (L := L) (P := P.initilizePaging L) (Or.inl hp)
  have hp6 := p.isLt
  refine ⟨?_, ?_, ?_, ?_, ?_⟩
  · intro v hv acc hacc huser
    simp only [programFrame, vgaPage, backingPage, kernelFrame, Set.mem_Ico]
    rcases hok.translate_user hp6 hv hacc huser with
      ⟨hdir, hphys⟩ | ⟨hdir, hphys⟩ | ⟨hdir, t, ht, hphys⟩
    · exact ⟨Or.inl (by omega), by omega, by omega⟩
    · exact ⟨Or.inr (Or.inl (by omega)), by omega, by omega⟩
    · exact ⟨Or.inr (Or.inr ⟨t, by simpa using ht, by omega⟩), by omega, by omega⟩
  · intro o ho
    rw [hok.translate_program hp6 hset (by omega), show (0x8000000 + o) % 2 ^ 22 = o from by omega]
  · intro q hq
    have hqp : q.val ≠ p.val := Fin.val_ne_of_ne hq
    rw [Set.disjoint_left]
    simp only [programFrame, Set.mem_Ico]
    intro a ha
    omega
  · rw [Set.disjoint_left]
    simp only [programFrame, vgaPage, Set.mem_Ico]
    intro a ha
    omega
  · intro t ht
    have ht3 : t = 1 ∨ t = 2 ∨ t = 3 := by simpa using ht
    rw [Set.disjoint_left]
    simp only [programFrame, backingPage, Set.mem_Ico]
    intro a ha
    omega

/-- Process 2 after `vidmap`: its last byte of program page is its own, and process 3's frame is apart. -/
theorem user_memory_isolation_two :
    PagingOp.setup 2 ∈ [PagingOp.setup 2, .vidmap 2] ∧
    (pagingAfter default default [PagingOp.setup 2, .vidmap 2]).translate default
      (Layout.dirAdrs default 2) 0x83FFFFF = some ⟨0x13FFFFF, true, true⟩ ∧
    Disjoint (programFrame 2) (programFrame 3) := by
  have h := user_memory_isolation default default [PagingOp.setup 2, .vidmap 2] 2 (by decide)
  exact ⟨by decide, h.2.1 0x3FFFFF (by decide), h.2.2.1 3 (by decide)⟩

end ClosKernel
