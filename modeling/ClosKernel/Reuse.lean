import ClosKernel.Preemption

/-!
# What a new process finds in a reused slot

`sys_halt` gives a pid back without touching its page directory or its program page, and `sys_execute` sets entry
32 and copies the program image.  Whatever else earlier processes with that pid have left is still there when the
next one starts.  `LaunchHistory` is a run from power-on that ends in a launch, by any of the calls that launch.

* `vidmapCalls`, `runs_showsMapped` — entry 33 of a directory is present just if a process with that pid has
  called `vidmap` successfully, at any time since power-on;
* `launched_from` — what a launch does to the tables and to memory, whoever asked for it;
* `LaunchHistory.finds` — what the new process finds in its directory and its page;
* `reused_pid_view` — what two histories agree on, and exactly when a new process cannot tell them apart;
* `reused_pid_trace` — two histories that a new process can tell apart.
-/

namespace ClosKernel

open PartialRun LinkedStack PageWalk

/-! ### Video mappings -/

/-- The pid of the running process, if the action is a call of `vidmap` that succeeds. -/
def vidmapCalls (E : Platform) : Action → Kernel → List ℕ
  | .vidmap st v, k => if (vidmap E st v k).map Prod.fst = some (.ret 0) then [k.cur.pid] else []
  | _, _ => []

section Mappings

variable {E : Platform} {k k' : Kernel} {σ : Shells} {a : Action}

/-- Only `vidmap` stores to entry 33. -/
theorem Effect.pageDir_33 (heffect : Effect E k a k') (ha : ∀ st v, a ≠ .vidmap st v) (q : ℕ) :
    k'.paging.pageDir q 33 = k.paging.pageDir q 33 := by
  have hsetup : ∀ free, (k.paging.setupPaging E.layout free).pageDir q 33 = k.paging.pageDir q 33 :=
    fun free => setEntry_of_ne _ _ (Or.inr (by decide))
  cases heffect with
  | screen | run | store | back | reselect | switch => rfl
  | vidmap hv => exact absurd rfl (ha _ _)
  | call hr hfree => exact hsetup _
  | replace hroot hr hfree => exact hsetup _
  | start hn hnew hs hr hfree => exact hsetup _

/-- The directories, as far as entry 33 goes, show the pids in `mapped`. -/
structure ShowsMapped (E : Platform) (k : Kernel) (mapped : List ℕ) : Prop where
  tracks : ∃ σ, k.Tracks σ
  agrees : CpuAgrees E k
  entry : ∀ q < 6, k.paging.pageDir q 33 = if q ∈ mapped then E.layout.pageTableVidmap + 7 else 2

/-- One step: a successful `vidmap` adds the running process. -/
theorem ShowsMapped.step {mapped : List ℕ} (hshell : ValidShell E.image) (h : ShowsMapped E k mapped)
    (hstep : step E a k = some k') :
    ShowsMapped E k' ((vidmapCalls E a k).foldl (fun T q => q :: T) mapped) := by
  obtain ⟨σ, htracks⟩ := h.tracks
  have heffect := step_effect hshell htracks hstep
  obtain ⟨σ', -, htracks'⟩ := heffect.refines htracks
  refine ⟨⟨σ', htracks'⟩, h.agrees.effect htracks heffect, fun q hq => ?_⟩
  by_cases ha : ∃ st v, a = .vidmap st v
  · obtain ⟨st, v, rfl⟩ := ha
    change (vidmap E st v k).map Prod.snd = some k' at hstep
    obtain ⟨⟨o, m⟩, hvid, rfl⟩ := Option.map_eq_some_iff.mp hstep
    have hcalls : vidmapCalls E (.vidmap st v) k = if o = .ret 0 then [k.cur.pid] else [] := by
      rw [vidmapCalls, hvid, Option.map_some]
      simp only [Option.some_inj]
    rcases Kernel.Tracks.vidmap_eq hvid with ⟨rfl, rfl⟩ | hhalt | ⟨rfl, -, rfl⟩
    · rw [hcalls, if_neg (show ¬Outcome.ret (-1) = .ret 0 by decide)]
      exact h.entry q hq
    · -- a faulting call halts the process
      have hfault : o ≠ .ret 0 := by
        rcases htracks.halt_eq hshell hhalt with ⟨-, rfl, -⟩ | ⟨-, rfl, -⟩ <;> simp
      rw [hcalls, if_neg hfault,
        (htracks.halt_effect hshell (a := .halt st 256) trivial hhalt).pageDir_33 (by simp) q]
      exact h.entry q hq
    · rw [hcalls, if_pos rfl]
      show setEntry k.paging.pageDir k.cur.pid 33 (E.layout.pageTableVidmap ||| 7) q 33 = _
      by_cases hcur : q = k.cur.pid
      · rw [hcur, setEntry_self, or_flags E.layout.aligned.2.2.1 (by decide)]
        simp
      · rw [setEntry_of_ne _ _ (Or.inl hcur), h.entry q hq]
        simp [hcur]
  · have hcalls : vidmapCalls E a k = [] := by
      cases a with
      | vidmap st v => exact absurd ⟨st, v, rfl⟩ ha
      | run | store | output | execute | halt | tick | screenChange => rfl
    rw [hcalls, heffect.pageDir_33 (fun st v h => ha ⟨st, v, h⟩) q]
    exact h.entry q hq

theorem ShowsMapped.booted (st : Stack) (r : ℕ) (hpower : PowerOn k) :
    ShowsMapped E (k.booted E st r) [] := by
  refine ⟨booted_tracks st r hpower, CpuAgrees.booted st r hpower, fun q hq => ?_⟩
  show setEntry (k.paging.initilizePaging E.layout).pageDir 0 32 _ q 33 = _
  rw [setEntry_of_ne _ _ (Or.inr (by decide)), Paging.initilizePaging_pageDir _ _ hq (by decide)]
  simp

/-- **Mappings outlive their processes.**  In a run from power-on, entry 33 of a directory is present just if a
process with that pid has ever called `vidmap` successfully. -/
theorem runs_showsMapped (hshell : ValidShell E.image) {k₀ b : Kernel} {st : Stack} (hpower : PowerOn k₀)
    (hboot : boot E st k₀ = some b) {as : List Action} (hrun : runs (step E) as b = some k) :
    ShowsMapped E k ((emitted (step E) (vidmapCalls E) as b).foldl (fun T q => q :: T) []) := by
  obtain ⟨r, hr⟩ := hshell
  rw [boot_eq st hr hpower, Option.some_inj] at hboot
  exact runs_simulation (fun _ _ _ _ h hstep => h.step ⟨r, hr⟩ hstep)
    (hboot ▸ ShowsMapped.booted st r hpower) hrun

end Mappings

/-! ### Launches -/

/-- The action launches a process, and leads to `k'`. -/
def Launches (E : Platform) (k : Kernel) : Action → Kernel → Prop
  | .execute st command, k' => sysExecute E st command k = some (.launched, k')
  | .halt st ebx, k' => sysHalt E st ebx k = some (.launched, k')
  | .vidmap st v, k' => vidmap E st v k = some (.launched, k')
  | .screenChange st n, k' => screenChange E st n k = some k' ∧ k'.pcb ≠ k.pcb
  | .run _, _ | .store _ _, _ | .output _, _ | .tick, _ => False

/-- The name of the program that an action would launch. -/
def launchedName : Action → List UInt8
  | .execute _ command => firstWord command
  | .halt _ _ | .vidmap _ _ | .screenChange _ _ | .run _ | .store _ _ | .output _ | .tick => shellCommand

/-- Process `p` has been set up with the program of entry `r`, and is running. -/
structure LaunchedFrom (E : Platform) (k k' : Kernel) (st : Stack) (r p : ℕ) : Prop where
  lt : p < 6
  pid : k'.cur.pid = p
  paging : k'.paging = k.paging.setupPaging E.layout p
  phys : k'.phys = (k.loaded E st p r).phys

section Launching

variable {E : Platform} {k k' : Kernel} {σ : Shells} {a : Action}

theorem LaunchedFrom.of_enter {m : Kernel} {st : Stack} {r free : ℕ} {parent term : ℤ}
    {progImg args : Mem} {pcbs : ℕ → Pcb} (hfree : free < 6) (hpaging : m.paging = k.paging)
    (hphys : m.phys = k.phys) :
    LaunchedFrom E k ((m.loaded E st free r).enter free parent term progImg args pcbs) st r free := by
  refine ⟨hfree, ?_, ?_, ?_⟩
  · show (Function.update pcbs (pcbAddr free) _ (pcbAddr free)).pid = free
    rw [Function.update_self]
  · show m.paging.setupPaging E.layout free = _
    rw [hpaging]
  · show copyOut E.layout (m.paging.setupPaging E.layout free) _ _ _ m.phys = _
    rw [hpaging, hphys]
    rfl

/-- An image has one entry under a name. -/
theorem ProgramAt.entry_unique {img : Image} {name : List UInt8} {r r' : ℕ} (h : ProgramAt img name r)
    (h' : ProgramAt img name r') : r' = r := by
  have hr : img.lookup (literal name) = some (some r) := h.lookup fun _ _ => rfl
  rw [h'.lookup fun _ _ => rfl, Option.some_inj, Option.some_inj] at hr
  exact hr

/-- **Every launch** sets up the new process in the same way, whoever asked for it. -/
theorem launched_from (hshell : ValidShell E.image) (htracks : k.Tracks σ) {r : ℕ}
    (hprog : ProgramAt E.image (launchedName a) r) (h : Launches E k a k') :
    ∃ st, LaunchedFrom E k k' st r k'.cur.pid := by
  -- once the pid is known, the equations for `k'` are those of `enter`
  have hdone : ∀ {st p}, LaunchedFrom E k k' st r p → ∃ st, LaunchedFrom E k k' st r k'.cur.pid :=
    fun hl => ⟨_, hl.pid.symm ▸ hl⟩
  cases a with
  | execute st command =>
    rcases htracks.execute_eq h with ⟨ho, -⟩ | ⟨r', free, hr', hfree, -, -, rfl⟩
    · cases ho
    · rw [hprog.lookup fun _ hj => commandBuffers_cmd command st.cmd (by omega), Option.some_inj,
        Option.some_inj] at hr'
      subst hr'
      exact hdone (.of_enter (Kernel.Table.free_lt hfree) rfl rfl)
  | halt st ebx =>
    rcases htracks.halt_eq hshell h with ⟨-, -, r', free, hr', hfree, rfl⟩ | ⟨-, ho, -⟩
    · obtain rfl := hprog.entry_unique hr'
      exact hdone (.of_enter (Kernel.Table.free_lt hfree) rfl rfl)
    · cases ho
  | vidmap st v =>
    rcases Kernel.Tracks.vidmap_eq h with ⟨ho, -⟩ | hhalt | ⟨ho, -⟩
    · cases ho
    · rcases htracks.halt_eq hshell hhalt with ⟨-, -, r', free, hr', hfree, rfl⟩ | ⟨-, ho, -⟩
      · obtain rfl := hprog.entry_unique hr'
        exact hdone (.of_enter (Kernel.Table.free_lt hfree) rfl rfl)
      · cases ho
    · cases ho
  | screenChange st n =>
    rcases htracks.screenChange_eq hshell h.1 with ⟨s, tty, rfl, -⟩ | ⟨s, isr, r', free, -, -, -, hr', hfree, rfl⟩
    · exact absurd rfl h.2
    · obtain rfl := hprog.entry_unique hr'
      exact hdone (.of_enter (Kernel.Table.free_lt hfree) rfl rfl)
  | run | store | output | tick => exact h.elim

/-- How much of the file of entry `r` is loaded. -/
def imageLength (E : Platform) (r : ℕ) : ℕ := E.image.readCount (E.image.dentryInode r) 0 progBytes

/-- The loaded bytes are the file's, whatever the stack held before. -/
theorem readProgram_eq {name : List UInt8} {r : ℕ} (h : ProgramAt E.image name r) (st : Stack) :
    (readProgram E st r).1.toNat = imageLength E r ∧
      ∀ o < imageLength E r, (readProgram E st r).2 o = E.image.fileByte (E.image.dentryInode r) o := by
  have hlen : 0 < E.image.inodeLength (E.image.dentryInode r) := Nat.lt_of_lt_of_le (by decide) h.length
  have hbound : imageLength E r ≤ progBytes := (Image.readCount_bounds hlen (by decide)).2.1
  rw [readProgram, Image.readData_spec h.inode hlen (by decide) h.blocks]
  refine ⟨?_, fun o ho => ?_⟩
  · have hsmall : imageLength E r < 2 ^ 31 := Nat.lt_of_le_of_lt hbound (by decide)
    show (toInt32 (imageLength E r)).toNat = imageLength E r
    rw [toInt32, if_pos hsmall, Int.toNat_natCast]
  · show (if o < imageLength E r then _ else _) = _
    rw [if_pos ho, Nat.zero_add]

namespace LaunchedFrom

variable {st : Stack} {r p : ℕ}

theorem ok (h : LaunchedFrom E k k' st r p) (hok : k.paging.Ok E.layout) : k'.paging.Ok E.layout := by
  rw [h.paging]
  exact hok.setupPaging h.lt

/-- The program page of a new process: the image, and what was there before. -/
theorem byte {name : List UInt8} (h : LaunchedFrom E k k' st r p) (hok : k.paging.Ok E.layout)
    (hprog : ProgramAt E.image name r) (o : ℕ) :
    k'.phys (frameBase p + o)
      = if imgOffset ≤ o ∧ o < imgOffset + imageLength E r then
          E.image.fileByte (E.image.dentryInode r) (o - imgOffset)
        else k.phys (frameBase p + o) := by
  obtain ⟨hcount, hbytes⟩ := readProgram_eq hprog st
  have hcopy := copyOut_programOf (hprog.executable st) (hok.setupPaging h.lt) h.lt
    (k.paging.pageDir_setupPaging E.layout h.lt (Or.inl rfl)) rfl k.phys
  rw [h.phys, Kernel.loaded]
  dsimp only
  rw [hcopy]
  show stored _ (readProgram E st r).2 (readProgram E st r).1.toNat _ _ = _
  rw [hcount, stored]
  by_cases ho : imgOffset ≤ o ∧ o < imgOffset + imageLength E r
  · rw [if_pos ho, if_pos (by omega), show frameBase p + o - (frameBase p + imgOffset) = o - imgOffset by omega,
      hbytes _ (by omega)]
  · rw [if_neg ho, if_neg (by omega)]

/-- Entry 33 is the one there was. -/
theorem pageDir_33 (h : LaunchedFrom E k k' st r p) (q : ℕ) :
    k'.paging.pageDir q 33 = k.paging.pageDir q 33 := by
  rw [h.paging]
  exact setEntry_of_ne _ _ (Or.inr (by decide))

end LaunchedFrom

end Launching

/-! ### Two histories -/

/-- A run from power-on that ends in the launch of the program of entry `r` as process `p`. -/
structure LaunchHistory (E : Platform) (r p : ℕ) where
  machine : Kernel
  powerOn : PowerOn machine
  st : Stack
  booted : Kernel
  boot : ClosKernel.boot E st machine = some booted
  acts : List Action
  before : Kernel
  run : runs (step E) acts booted = some before
  last : Action
  program : ProgramAt E.image (launchedName last) r
  after : Kernel
  launch : Launches E before last after
  pid : after.cur.pid = p

namespace LaunchHistory

variable {E : Platform} {r p : ℕ}

/-- The pids of the processes that have called `vidmap` before the launch. -/
def videoMapped (h : LaunchHistory E r p) : List ℕ := emitted (step E) (vidmapCalls E) h.acts h.booted

/-- What the new process finds: its page directory, and its program page. -/
structure Finds (h : LaunchHistory E r p) : Prop where
  lt : p < 6
  ok : h.after.paging.Ok E.layout
  program : h.after.paging.pageDir p 32 = 0x800187 + p * 0x400000
  vidmap : h.after.paging.pageDir p 33 = if p ∈ h.videoMapped then E.layout.pageTableVidmap + 7 else 2
  byte : ∀ o, h.after.phys (frameBase p + o)
    = if imgOffset ≤ o ∧ o < imgOffset + imageLength E r then
        E.image.fileByte (E.image.dentryInode r) (o - imgOffset)
      else h.before.phys (frameBase p + o)

theorem finds (hshell : ValidShell E.image) (h : LaunchHistory E r p) : h.Finds := by
  have hshow := runs_showsMapped hshell h.powerOn h.boot h.run
  obtain ⟨σ, htracks⟩ := hshow.tracks
  obtain ⟨st, hl⟩ := launched_from hshell htracks h.program h.launch
  rw [h.pid] at hl
  refine ⟨hl.lt, hl.ok hshow.agrees.ok, ?_, ?_, hl.byte hshow.agrees.ok h.program⟩
  · rw [hl.paging]
    exact h.before.paging.pageDir_setupPaging E.layout hl.lt (Or.inl rfl)
  · rw [hl.pageDir_33, hshow.entry p hl.lt, List.foldl_flip_cons_eq_append, List.append_nil, videoMapped]
    simp only [List.map_id', List.mem_reverse]

namespace Finds

variable {h₁ h₂ : LaunchHistory E r p}

theorem present_iff (h : h₁.Finds) : Present (h₁.after.paging.pageDir p 33) ↔ p ∈ h₁.videoMapped := by
  obtain ⟨-, -, hvidmap, -⟩ := E.layout.aligned
  rw [h.vidmap]
  by_cases hmem : p ∈ h₁.videoMapped
  · rw [if_pos hmem]
    exact iff_of_true (by omega) hmem
  · rw [if_neg hmem]
    exact iff_of_false (by omega) hmem

/-- Entry 33 has one of two values. -/
theorem vidmap_eq_iff (h : h₁.Finds) (h' : h₂.Finds) :
    h₁.after.paging.pageDir p 33 = h₂.after.paging.pageDir p 33 ↔ (p ∈ h₁.videoMapped ↔ p ∈ h₂.videoMapped) := by
  constructor
  · intro heq
    rw [← h.present_iff, heq, h'.present_iff]
  · intro hmapped
    rw [h.vidmap, h'.vidmap]
    simp only [hmapped]

/-- Two directories that have been set up differ in entry 33 at most. -/
theorem pageDir_eq (h : h₁.Finds) (h' : h₂.Finds) {i : ℕ} (hi : i < 1024) (h33 : i ≠ 33) :
    h₁.after.paging.pageDir p i = h₂.after.paging.pageDir p i := by
  have hp := h.lt
  by_cases h0 : i = 0
  · rw [h0, h.ok.dir0 p hp, h'.ok.dir0 p hp]
  by_cases h1 : i = 1
  · rw [h1, h.ok.dir1 p hp, h'.ok.dir1 p hp]
  by_cases h32 : i = 32
  · rw [h32, h.program, h'.program]
  by_cases h34 : i = 34
  · rw [h34, h.ok.dir34 p hp, h'.ok.dir34 p hp]
  · rw [h.ok.dirRest p hp i hi h0 h1 h32 h33 h34, h'.ok.dirRest p hp i hi h0 h1 h32 h33 h34]

theorem byte_eq_iff (h : h₁.Finds) (h' : h₂.Finds) (o : ℕ) :
    h₁.after.phys (frameBase p + o) = h₂.after.phys (frameBase p + o) ↔
      (¬(imgOffset ≤ o ∧ o < imgOffset + imageLength E r) →
        h₁.before.phys (frameBase p + o) = h₂.before.phys (frameBase p + o)) := by
  rw [h.byte, h'.byte]
  by_cases hin : imgOffset ≤ o ∧ o < imgOffset + imageLength E r
  · rw [if_pos hin, if_pos hin]
    exact iff_of_true rfl fun hout => absurd hin hout
  · rw [if_neg hin, if_neg hin]
    exact ⟨fun heq _ => heq, fun himp => himp hin⟩

end Finds

end LaunchHistory

/-- Process `p` finds the same page directory and the same program page in both kernels. -/
structure SameView (p : ℕ) (k₁ k₂ : Kernel) : Prop where
  directory : ∀ i < 1024, k₁.paging.pageDir p i = k₂.paging.pageDir p i
  page : ∀ o < 0x400000, k₁.phys (frameBase p + o) = k₂.phys (frameBase p + o)

/-- **What a reused slot shows.**  Take two histories that end in the launch of one program under one pid.  The new
processes find the same directory up to entry 33 and the same program image.  Entry 33 is present just if a
process with that pid has called `vidmap` before, and the rest of the page is as the launch found it; so the two
views are the same exactly when the histories agree on both. -/
theorem reused_pid_view {E : Platform} {r p : ℕ} (hshell : ValidShell E.image)
    (h₁ h₂ : LaunchHistory E r p) :
    (∀ i < 1024, i ≠ 33 → h₁.after.paging.pageDir p i = h₂.after.paging.pageDir p i) ∧
    (∀ o, imgOffset ≤ o → o < imgOffset + imageLength E r →
      h₁.after.phys (frameBase p + o) = h₂.after.phys (frameBase p + o)) ∧
    (Present (h₁.after.paging.pageDir p 33) ↔ p ∈ h₁.videoMapped) ∧
    (∀ o, ¬(imgOffset ≤ o ∧ o < imgOffset + imageLength E r) →
      h₁.after.phys (frameBase p + o) = h₁.before.phys (frameBase p + o)) ∧
    (SameView p h₁.after h₂.after ↔ (p ∈ h₁.videoMapped ↔ p ∈ h₂.videoMapped) ∧
      ∀ o < 0x400000, ¬(imgOffset ≤ o ∧ o < imgOffset + imageLength E r) →
        h₁.before.phys (frameBase p + o) = h₂.before.phys (frameBase p + o)) := by
  have hf₁ := h₁.finds hshell
  have hf₂ := h₂.finds hshell
  refine ⟨fun i hi h33 => hf₁.pageDir_eq hf₂ hi h33, fun o ho ho' => ?_, hf₁.present_iff, fun o ho => ?_, ?_⟩
  · exact (hf₁.byte_eq_iff hf₂ o).mpr fun hout => absurd ⟨ho, ho'⟩ hout
  · rw [hf₁.byte, if_neg ho]
  · constructor
    · intro hview
      exact ⟨(hf₁.vidmap_eq_iff hf₂).mp (hview.directory 33 (by decide)),
        fun o ho => (hf₁.byte_eq_iff hf₂ o).mp (hview.page o ho)⟩
    · rintro ⟨hmapped, hpage⟩
      refine ⟨fun i hi => ?_, fun o ho => (hf₁.byte_eq_iff hf₂ o).mpr (hpage o ho)⟩
      by_cases h33 : i = 33
      · rw [h33]
        exact (hf₁.vidmap_eq_iff hf₂).mpr hmapped
      · exact hf₁.pageDir_eq hf₂ hi h33

/-- `ls` is executed once, and once more after it has halted. -/
def runLs : List Action := [.execute default (ascii "ls".toList), .halt default 0]

/-- The first `ls` stores to its page and maps video memory before it halts. -/
def runLsWriting : List Action :=
  [.execute default (ascii "ls".toList), .store ⟨0, by decide⟩ 7, .vidmap default 0x8000010, .halt default 0]

/-- The second `ls` is process 1 on terminal 1 again, and finds what the first one left. -/
theorem exists_lsHistories : ∃ h₁ h₂ : LaunchHistory twoProgramPlatform 1 1,
    (h₁.after.cur.curTerminal = 1 ∧ h₂.after.cur.curTerminal = 1) ∧
    (h₁.after.paging.pageDir 1 33 = 2 ∧ h₂.after.paging.pageDir 1 33 ≠ 2) ∧
    h₁.after.phys (frameBase 1) = 0 ∧ h₂.after.phys (frameBase 1) = 7 := by
  have heval : ((boot twoProgramPlatform default powerOnKernel).any fun b =>
      ((runs (step twoProgramPlatform) runLs b).any fun k =>
        (sysExecute twoProgramPlatform default (ascii "ls".toList) k).any fun r =>
          decide (r.1 = .launched ∧ r.2.cur.pid = 1 ∧ r.2.cur.curTerminal = 1 ∧
            r.2.paging.pageDir 1 33 = 2 ∧ r.2.phys (frameBase 1) = 0)) &&
      ((runs (step twoProgramPlatform) runLsWriting b).any fun k =>
        (sysExecute twoProgramPlatform default (ascii "ls".toList) k).any fun r =>
          decide (r.1 = .launched ∧ r.2.cur.pid = 1 ∧ r.2.cur.curTerminal = 1 ∧
            r.2.paging.pageDir 1 33 ≠ 2 ∧ r.2.phys (frameBase 1) = 7))) = true := by
    decide +kernel
  simp only [Option.any_eq_true, Bool.and_eq_true, decide_eq_true_eq, Prod.exists] at heval
  obtain ⟨b, hboot, ⟨k₁, hk₁, o₁, k₁', hexec₁, rfl, hpid₁, hterm₁, hdir₁, hbyte₁⟩,
    ⟨k₂, hk₂, o₂, k₂', hexec₂, rfl, hpid₂, hterm₂, hdir₂, hbyte₂⟩⟩ := heval
  exact ⟨⟨powerOnKernel, powerOnKernel_powerOn, default, b, hboot, runLs, k₁, hk₁,
      .execute default (ascii "ls".toList), twoProgramImage_ls, k₁', hexec₁, hpid₁⟩,
    ⟨powerOnKernel, powerOnKernel_powerOn, default, b, hboot, runLsWriting, k₂, hk₂,
      .execute default (ascii "ls".toList), twoProgramImage_ls, k₂', hexec₂, hpid₂⟩,
    ⟨hterm₁, hterm₂⟩, ⟨hdir₁, hdir₂⟩, hbyte₁, hbyte₂⟩

/-- The histories agree on the image and on the directory up to entry 33. -/
theorem reused_pid_view_ls : ValidShell twoProgramPlatform.image ∧
    ∃ h₁ h₂ : LaunchHistory twoProgramPlatform 1 1,
      (∀ i < 1024, i ≠ 33 → h₁.after.paging.pageDir 1 i = h₂.after.paging.pageDir 1 i) ∧
      ∀ o, imgOffset ≤ o → o < imgOffset + imageLength twoProgramPlatform 1 →
        h₁.after.phys (frameBase 1 + o) = h₂.after.phys (frameBase 1 + o) := by
  obtain ⟨h₁, h₂, -⟩ := exists_lsHistories
  have hview := reused_pid_view twoProgramPlatform_shell h₁ h₂
  exact ⟨twoProgramPlatform_shell, h₁, h₂, hview.1, hview.2.1⟩

/-- **A trace of the previous occupant.**  Two histories end in the launch of `ls` as process 1 on terminal 1, and
the new processes differ in entry 33 of the directory and in the first byte of the page. -/
theorem reused_pid_trace : ∃ h₁ h₂ : LaunchHistory twoProgramPlatform 1 1,
    h₁.after.cur.curTerminal = h₂.after.cur.curTerminal ∧
    h₁.after.paging.pageDir 1 33 ≠ h₂.after.paging.pageDir 1 33 ∧
    h₁.after.phys (frameBase 1) ≠ h₂.after.phys (frameBase 1) := by
  obtain ⟨h₁, h₂, ⟨hterm₁, hterm₂⟩, ⟨hdir₁, hdir₂⟩, hbyte₁, hbyte₂⟩ := exists_lsHistories
  refine ⟨h₁, h₂, hterm₁.trans hterm₂.symm, ?_, ?_⟩
  · rw [hdir₁]
    exact hdir₂.symm
  · rw [hbyte₁, hbyte₂]
    decide

end ClosKernel
