import ClosKernel.Files

/-!
# Walks through the directory

`read_dentry_by_name` looks for a name and `dir_read` lists the names one by one.  Both walk over the entries of the
boot block on their own, both stop at an empty name only, and both see names through the bounded string routines of
`lib.c`: the name of an entry is its field up to a NUL, or all 32 bytes of it.

* `Image.matches_iff_entryName` — the search compares the first 32 bytes of what it looks for;
* `read_dentry_by_name_exact_iff` — **lookup**: only a name that was cut at 32 bytes is taken for another one;
* `dirSlot_read`, `walk_position` — one `dir_read`, and the position after any number of calls;
* `directory_lists_what_lookup_finds` — **listing**: the walk gives every name once, and each is found again;
* `directory_walks_inside_iff` — **bounds**: with all 63 entries in use both walks run into the first inode.
-/

namespace ClosKernel

open PartialRun

namespace Image

variable {img : Image} {fname : Mem} {text : List UInt8} {n d : ℕ}

/-! ### Names -/

/-- The name of entry `d`: its field up to the first NUL, or all 32 bytes of it. -/
def entryName (img : Image) (d : ℕ) : List UInt8 := cStringFrom (img.dentryName d) 32 0

theorem entryName_length_le (img : Image) (d : ℕ) : (img.entryName d).length ≤ 32 := cStringFrom_length_le _ _ _

/-- **The search sees 32 bytes**: an entry matches if its name is what these leave of the name looked for. -/
theorem matches_iff_entryName (h : Spells fname text) (d : ℕ) :
    img.Matches fname d ↔ img.entryName d = text.take 32 := by
  rw [Matches, strncmp_eq_zero_iff_cString, h.cStringFrom, entryName]

/-- What the caller of the search receives is the name, the type and the inode of the entry. -/
structure Describes (img : Image) (d : ℕ) (out : Dentry) : Prop where
  name : cStringFrom out.fileName 32 0 = img.entryName d
  fileType : out.fileType = img.dentryType d
  inodeNum : out.inodeNum = img.dentryInode d

instance (img : Image) (d : ℕ) (out : Dentry) : Decidable (img.Describes d out) :=
  decidable_of_iff (cStringFrom out.fileName 32 0 = img.entryName d ∧ out.fileType = img.dentryType d ∧
    out.inodeNum = img.dentryInode d) ⟨fun h => ⟨h.1, h.2.1, h.2.2⟩, fun h => ⟨h.1, h.2, h.3⟩⟩

/-- A name that fills its field has no NUL, and `strcpy` goes on into the fields behind it; the 32 bytes of the name
are the entry's all the same. -/
theorem copyDentry_describes (img : Image) (d : ℕ) (dentry : Dentry) :
    img.Describes d (img.copyDentry d dentry) where
  name := cStringFrom_congr fun k hk hpre => strcpy_apply _ _ (by omega) hpre
  fileType := rfl
  inodeNum := rfl

/-! ### Looking up a name -/

/-- `read_dentry_by_name` finds the first entry with exactly this name, and nothing if there is none. -/
structure LooksUpExactly (img : Image) (n : ℕ) (fname : Mem) (text : List UInt8) : Prop where
  found : ∀ d < n, img.entryName d = text → (∀ e < d, img.entryName e ≠ text) → ∀ dentry,
    ∃ out, img.readDentryByName fname dentry = some (some out) ∧ img.Describes d out
  rejected : (∀ d < n, img.entryName d ≠ text) → ∀ dentry, img.readDentryByName fname dentry = some none

theorem readDentryByName_found (h : img.lookup fname = some (some d)) (dentry : Dentry) :
    img.readDentryByName fname dentry = some (some (img.copyDentry d dentry)) := by
  rw [readDentryByName_eq, h]
  rfl

theorem readDentryByName_missing (h : img.lookup fname = some none) (dentry : Dentry) :
    img.readDentryByName fname dentry = some none := by
  rw [readDentryByName_eq, h]
  rfl

/-- An entry whose name is the whole text is one whose name is its first 32 bytes. -/
theorem entryName_eq_take (h : img.entryName d = text) : img.entryName d = text.take 32 := by
  rw [← h, List.take_of_length_le (img.entryName_length_le d)]

end Image

open Image

/-- **Lookup.**  In a directory that ends before its last entry a name is found exactly if an entry has it, except that
a name of more than 32 bytes is taken for an entry whose name is its first 32. -/
theorem read_dentry_by_name_exact_iff {img : Image} {n : ℕ} (hdir : img.Directory n) (hn : n < 63) {fname : Mem}
    {text : List UInt8} (hname : Spells fname text) :
    img.LooksUpExactly n fname text ↔ text.length ≤ 32 ∨ ∀ d < n, img.entryName d ≠ text.take 32 := by
  have hmatches : ∀ d, img.Matches fname d ↔ img.entryName d = text.take 32 := matches_iff_entryName hname
  constructor
  · intro hexact
    by_contra hnot
    obtain ⟨hlong, hcut⟩ := not_or.mp hnot
    simp only [not_forall, not_not] at hcut
    obtain ⟨d, hd, hentry⟩ := hcut
    -- no name is as long as the text, and still the entry is found
    have habsent : ∀ e < n, img.entryName e ≠ text := by
      intro e _ he
      exact hlong (he ▸ img.entryName_length_le e)
    have hnone := hexact.rejected habsent ⟨emptyString, 0, 0⟩
    rcases hdir.lookup_cases hn fname with ⟨e, -, hlookup, -⟩ | ⟨-, hno⟩
    · rw [readDentryByName_found hlookup] at hnone
      cases hnone
    · exact hno d hd ((hmatches d).mpr hentry)
  · intro hcase
    rcases hdir.lookup_cases hn fname with ⟨d, hd, hlookup, hmatch, hfirst⟩ | ⟨hlookup, hno⟩
    · have hshort : text.take 32 = text := by
        apply List.take_of_length_le
        exact hcase.resolve_right fun hnone => hnone d hd ((hmatches d).mp hmatch)
      rw [hmatches, hshort] at hmatch
      simp only [hmatches, hshort] at hfirst
      constructor
      · intro e _ he hbefore dentry
        have hed : e = d := by
          rcases Nat.lt_trichotomy e d with hlt | heq | hgt
          · exact absurd he (hfirst e hlt)
          · exact heq
          · exact absurd hmatch (hbefore d hgt)
        subst hed
        exact ⟨_, readDentryByName_found hlookup dentry, img.copyDentry_describes e dentry⟩
      · intro habsent
        exact absurd hmatch (habsent d hd)
    · constructor
      · intro d hd hentry
        exact absurd ((hmatches d).mpr (entryName_eq_take hentry)) (hno d hd)
      · intro _ dentry
        exact readDentryByName_missing hlookup dentry

/-- An image whose directory has these names, all of them for directories. -/
def directoryImage (names : List (List UInt8)) : Image where
  mem i :=
    if i < 64 ∨ 4096 ≤ i then 0
    else if (i - 64) % 64 < 32 then (names.getD ((i - 64) / 64) []).getD ((i - 64) % 64) 0
    else if (i - 64) % 64 = 32 then 1 else 0

def dotName : List UInt8 := ascii ".".toList
def lsName : List UInt8 := ascii "ls".toList

theorem dotAndLs_directory : (directoryImage [dotName, lsName]).Directory 2 where
  named := by decide
  ends := by decide

theorem read_dentry_by_name_exact_ls : (directoryImage [dotName, lsName]).Directory 2 ∧
    Spells (literal lsName) lsName ∧ (directoryImage [dotName, lsName]).LooksUpExactly 2 (literal lsName) lsName := by
  have hspells : Spells (literal lsName) lsName := .literal (by decide)
  refine ⟨dotAndLs_directory, hspells, ?_⟩
  exact (read_dentry_by_name_exact_iff dotAndLs_directory (by decide) hspells).mpr (Or.inl (by decide))

/-- A name that fills its field, and a file name with one character more. -/
def longName : List UInt8 := List.replicate 32 0x61

theorem read_dentry_by_name_extra_character : (directoryImage [longName]).Directory 1 ∧
    Spells (literal (longName ++ [0x62])) (longName ++ [0x62]) ∧
    ¬(directoryImage [longName]).LooksUpExactly 1 (literal (longName ++ [0x62])) (longName ++ [0x62]) := by
  refine ⟨⟨by decide, by decide⟩, .literal (by decide), fun hexact => ?_⟩
  have hnone := hexact.rejected (by decide) ⟨emptyString, 0, 0⟩
  have hfound : (((directoryImage [longName]).readDentryByName (literal (longName ++ [0x62]))
      ⟨emptyString, 0, 0⟩).any Option.isSome) = true := by
    decide +kernel
  rw [hnone] at hfound
  cases hfound

/-! ### Listing the directory -/

/-- A descriptor open on the directory, at entry `pos`. -/
def dirSlot (pos : ℕ) : FileStruct := ⟨some .dir, 0, pos, flagOpen ||| typeDir⟩

theorem dirSlot_openOn (pos : ℕ) : (dirSlot pos).OpenOn .dir := ⟨rfl, rfl⟩

/-- What `dir_read` leaves in a buffer: the beginning of the name, and zeros behind it. -/
def filledWith (name : List UInt8) (nbytes : ℤ) (buf : Mem) : Mem := fun j =>
  if (j : ℤ) < nbytes then name.getD j 0 else buf j

section Walks

variable {E : Platform} {k k' k₀ : Kernel} {i pos n : ℕ} {nbytes fd : ℤ}

theorem strncpy_entryName (img : Image) (d : ℕ) (buf : Mem) (h0 : 1 ≤ nbytes) (h32 : nbytes ≤ 32) :
    strncpy buf (img.dentryName d) (toUInt32 nbytes) = filledWith (img.entryName d) nbytes buf := by
  have hword := (toUInt32_of_pos (n := nbytes) (by omega) (by omega)).1
  funext j
  rw [strncpy_apply, hword, filledWith, ← cStringFrom_take _ (show nbytes.toNat ≤ 32 by omega), entryName]
  by_cases hj : (j : ℤ) < nbytes
  · rw [if_pos hj, if_pos (by omega), List.getD_eq_getElem?_getD, List.getD_eq_getElem?_getD,
      List.getElem?_take_of_lt (by omega)]
  · rw [if_neg hj, if_neg (by omega)]

/-- **One `dir_read`**: the end of the directory, or the name at the position, which moves to the next entry. -/
theorem dirSlot_read (hslot : k.cur.fileArray i = dirSlot pos) (hi : 2 ≤ i ∧ i < 8) (hpos : pos + 1 < 2 ^ 32)
    (buf : Mem) (nbytes : ℤ) (h0 : 1 ≤ nbytes) (h32 : nbytes ≤ 32) (w : Waiting) :
    sysRead E i buf nbytes w k = some (if E.image.dentryName pos 0 = 0 then (0, buf, k)
      else (nbytes, filledWith (E.image.entryName pos) nbytes buf, k.setFile i (dirSlot (pos + 1)))) := by
  have hopen : ((i : ℤ) = 0 ∨ 2 ≤ (i : ℤ) ∧ (i : ℤ) < 8) ∧ (k.cur.fileArray (i : ℤ).toNat).IsOpen := by
    rw [Int.toNat_natCast, hslot]
    exact ⟨by omega, (dirSlot_openOn pos).isOpen⟩
  have hnext : toUInt32 ((pos : ℤ) + 1) = pos + 1 := by
    unfold toUInt32
    omega
  have hword := (toUInt32_of_pos (n := nbytes) (by omega) (by omega)).2
  rw [sysRead, if_pos hopen, Int.toNat_natCast, hslot]
  show some (dirRead E i buf nbytes k) = _
  rw [dirRead, hslot, Option.some_inj]
  dsimp only
  rw [if_pos (show (dirSlot pos).flags = typeDir ||| flagOpen from rfl),
    strncpy_entryName E.image (dirSlot pos).filePosition buf h0 h32]
  simp only [emptyString_strncmp_iff _ hword]
  simp only [dirSlot, hnext]

/-- A read from descriptor `fd`. -/
def FileAction.readsFrom (fd : ℤ) : FileAction → Bool
  | .sysRead fd' _ _ _ => fd' = fd
  | _ => false

/-- Reads of 1 to 32 bytes from descriptor `fd`, and anything else that does not close it. -/
def FileAction.Walks (fd : ℤ) : FileAction → Prop
  | .sysRead fd' _ nbytes _ => fd' = fd → 1 ≤ nbytes ∧ nbytes ≤ 32
  | .sysClose fd' => fd' ≠ fd
  | _ => True

/-- How often the calls read from descriptor `fd`. -/
def readsFrom (fd : ℤ) (as : List FileAction) : ℕ := as.countP (·.readsFrom fd)

/-- The other calls leave the descriptor alone: a slot that is in use is not opened again. -/
theorem FileAction.Walks.keeps_slot {a : FileAction} (ha : a.Walks i) (hread : a.readsFrom i = false)
    (hslot : k.cur.fileArray i = dirSlot pos) (hstep : fileStep E a k = some k') :
    k'.cur.fileArray i = dirSlot pos := by
  have hset : ∀ j f, i ≠ j → (k.setFile j f).cur.fileArray i = dirSlot pos := by
    intro j f hne
    rw [Kernel.setFile_fileArray, Function.update_of_ne hne, hslot]
  cases a with
  | sysOpen openFile filename =>
    obtain ⟨⟨r, m⟩, hopen, rfl⟩ := Option.map_eq_some_iff.mp hstep
    rcases sysOpen_eq_some hopen with ⟨-, rfl⟩ | ⟨j, fileType, inodeNum, -, -, hclosed, rfl⟩
    · exact hslot
    · have hne : i ≠ j := by
        rintro rfl
        exact FileStruct.not_isOpen_of_close hclosed (hslot ▸ (dirSlot_openOn pos).isOpen)
      cases boundTo fileType inodeNum with
      | none => exact hslot
      | some f => exact hset j f hne
  | sysRead fd buf nbytes w =>
    obtain ⟨⟨r, buf', m⟩, hsys, rfl⟩ := Option.map_eq_some_iff.mp hstep
    rcases sysRead_cases hsys with hsame | ⟨hpos, p, rfl⟩
    · exact hsame.fileArray ▸ hslot
    · have hne : fd ≠ i := by simpa [FileAction.readsFrom] using hread
      exact hset _ _ (by omega)
  | sysWrite fd buf nbytes =>
    obtain ⟨⟨r, m⟩, hwrite, rfl⟩ := Option.map_eq_some_iff.mp hstep
    exact (sysWrite_sameFiles hwrite).fileArray ▸ hslot
  | sysClose fd =>
    obtain ⟨⟨r, m⟩, hclose, rfl⟩ := Option.map_eq_some_iff.mp hstep
    rw [ClosKernel.sysClose] at hclose
    split at hclose
    · rename_i hfd
      obtain ⟨d, -, heq⟩ := Option.map_eq_some_iff.mp hclose
      cases heq
      have hne : fd ≠ i := ha
      exact hset _ _ (by omega)
    · cases hclose
      exact hslot
  | others w =>
    cases hstep
    exact (w.sameFiles k).fileArray ▸ hslot

/-- The directory has `n` of its 63 entries in use: they have names, and the next one has not. -/
structure Image.Entries (img : Image) (n : ℕ) : Prop where
  bound : n ≤ maxFiles
  named : ∀ d < n, img.dentryName d 0 ≠ 0
  ends : n < maxFiles → img.dentryName n 0 = 0

theorem Image.Directory.entries {img : Image} (h : img.Directory n) (hn : n < 63) : img.Entries n :=
  ⟨Nat.le_of_lt hn, h.named, fun _ => h.ends⟩

/-- One call of a walk: a read moves on to the next entry, as far as there are any. -/
theorem walk_step (hdir : E.image.Entries n) {a : FileAction} (ha : a.Walks i) (hi : 2 ≤ i ∧ i < 8)
    (hslot : k.cur.fileArray i = dirSlot pos) (hpos : pos ≤ n) (hroom : n < maxFiles ∨ pos < n)
    (hread : a.readsFrom i = true) (hstep : fileStep E a k = some k') :
    k'.cur.fileArray i = dirSlot (min (pos + 1) n) := by
  have hbound := hdir.bound
  unfold maxFiles at hbound hroom
  cases a with
  | sysRead fd buf nbytes w =>
    obtain rfl : fd = i := by simpa [FileAction.readsFrom] using hread
    obtain ⟨h0, h32⟩ := ha rfl
    rw [fileStep, dirSlot_read hslot hi (by omega) buf nbytes h0 h32 w, Option.map_some, Option.some_inj] at hstep
    rcases Nat.lt_or_ge pos n with hlt | hge
    · rw [if_neg (hdir.named pos hlt)] at hstep
      rw [← hstep, Kernel.setFile_fileArray, Function.update_self, Nat.min_eq_left hlt]
    · obtain rfl : pos = n := by omega
      rw [if_pos (hdir.ends (by unfold maxFiles; omega))] at hstep
      rw [← hstep, hslot, Nat.min_eq_right (Nat.le_succ pos)]
  | sysOpen | sysWrite | sysClose | others => simp [FileAction.readsFrom] at hread

/-- **The position of a walk** is the number of reads, and stays behind the last entry.  In a full directory this only
holds for as many reads as there are entries. -/
theorem walk_position (hdir : E.image.Entries n) (hi : 2 ≤ i ∧ i < 8) {as : List FileAction}
    (hwalk : ∀ a ∈ as, a.Walks i) (hslot : k.cur.fileArray i = dirSlot pos) (hpos : pos ≤ n)
    (hroom : n < maxFiles ∨ pos + readsFrom i as ≤ n) (hrun : runs (fileStep E) as k = some k') :
    k'.cur.fileArray i = dirSlot (min (pos + readsFrom i as) n) := by
  induction as generalizing k pos with
  | nil =>
    rw [runs, Option.some_inj] at hrun
    rw [← hrun, hslot, readsFrom, List.countP_nil, Nat.add_zero, Nat.min_eq_left hpos]
  | cons a as ih =>
    obtain ⟨m, hstep, hrest⟩ := runs_cons_eq_some.mp hrun
    have ha := hwalk a (by simp)
    have has : ∀ b ∈ as, b.Walks i := fun b hb => hwalk b (List.mem_cons_of_mem a hb)
    rw [readsFrom, List.countP_cons] at hroom ⊢
    cases hread : a.readsFrom i with
    | false =>
      simp only [hread, Bool.false_eq_true, if_false, Nat.add_zero] at hroom ⊢
      exact ih has (ha.keeps_slot hread hslot hstep) hpos hroom hrest
    | true =>
      simp only [hread, if_true] at hroom ⊢
      have hmoved := walk_step hdir ha hi hslot hpos (hroom.imp_right fun h => by omega) hread hstep
      rw [ih has hmoved (Nat.min_le_right _ _) (hroom.imp_right fun h => by
        rw [readsFrom, Nat.min_eq_left (by omega)]; omega) hrest, readsFrom]
      congr 1
      omega

/-- `sys_open` binds a directory at its first entry. -/
theorem sysOpen_dir {openFile : Dentry} {filename : Mem}
    (hopen : sysOpen E openFile filename k = some (fd, k₀)) (hfd : fd ≠ -1)
    (hslot : (k₀.cur.fileArray fd.toNat).OpenOn .dir) :
    ∃ i : ℕ, fd = i ∧ (2 ≤ i ∧ i < 8) ∧ k₀.cur.fileArray i = dirSlot 0 := by
  rcases sysOpen_eq_some hopen with ⟨hfail, -⟩ | ⟨i, fileType, inodeNum, rfl, hi, hclosed, rfl⟩
  · exact absurd hfail hfd
  · refine ⟨i, rfl, hi, ?_⟩
    rw [Int.toNat_natCast] at hslot
    rcases boundTo_cases fileType inodeNum with ⟨d, rfl⟩ | hnone
    · rw [boundTo_type, Option.map_some, Option.getD_some, Kernel.setFile_fileArray, Function.update_self]
        at hslot ⊢
      obtain rfl : d = .dir := Option.some_inj.mp hslot.1
      rfl
    · rw [hnone] at hslot
      exact absurd hslot.isOpen (FileStruct.not_isOpen_of_close hclosed)

end Walks

/-- A walk that has read `i` times: the next `dir_read` lists entry `i`, and the name it lists is found. -/
structure ListsAndFinds (E : Platform) (n : ℕ) (fd : ℤ) (i : ℕ) (k : Kernel) : Prop where
  /-- The name of entry `i` comes back, cut or padded to the size asked for. -/
  lists : i < n → ∀ buf nbytes w, 1 ≤ nbytes → nbytes ≤ 32 →
    ∃ k', sysRead E fd buf nbytes w k = some (nbytes, filledWith (E.image.entryName i) nbytes buf, k')
  /-- Behind the last entry nothing changes. -/
  ends : n ≤ i → ∀ buf nbytes w, 1 ≤ nbytes → nbytes ≤ 32 → sysRead E fd buf nbytes w k = some (0, buf, k)
  /-- A name that was read in full, with a NUL behind it, leads to the entry. -/
  finds : i < n → ∀ buf w r buf' k' fname, sysRead E fd buf 32 w k = some (r, buf', k') →
    (∀ j < 32, fname j = buf' j) → fname 32 = 0 → ∀ dentry,
    ∃ out, E.image.readDentryByName fname dentry = some (some out) ∧ E.image.Describes i out

/-- The 32 bytes that are read of a name spell it. -/
theorem spells_filledWith {img : Image} {d : ℕ} {fname buf : Mem}
    (hbytes : ∀ j < 32, fname j = filledWith (img.entryName d) 32 buf j) (hnul : fname 32 = 0) :
    Spells fname (img.entryName d) where
  nul_free := cStringFrom_nul_free _ _ _
  bytes j hj := by
    have hlen := img.entryName_length_le d
    rcases Nat.lt_or_ge j 32 with hlt | hge
    · rw [hbytes j hlt, filledWith, if_pos (by omega)]
    · obtain rfl : j = 32 := by omega
      rw [hnul, List.getD_eq_getElem?_getD, List.getElem?_eq_none hlen, Option.getD_none]

/-- **Listing.**  In a directory of fewer than 63 entries with different names a walk lists every entry once, in order,
and `read_dentry_by_name` leads from each name back to its entry. -/
theorem directory_lists_what_lookup_finds {E : Platform} {n : ℕ} (hdir : E.image.Directory n) (hn : n < 63)
    (hdistinct : ∀ d < n, ∀ e < n, E.image.entryName d = E.image.entryName e → d = e)
    {openFile : Dentry} {filename : Mem} {k k₀ k' : Kernel} {fd : ℤ}
    (hopen : sysOpen E openFile filename k = some (fd, k₀)) (hfd : fd ≠ -1)
    (hslot : (k₀.cur.fileArray fd.toNat).OpenOn .dir) {as : List FileAction} (hwalk : ∀ a ∈ as, a.Walks fd)
    (hrun : runs (fileStep E) as k₀ = some k') : ListsAndFinds E n fd (readsFrom fd as) k' := by
  obtain ⟨i, rfl, hi, hstart⟩ := sysOpen_dir hopen hfd hslot
  have hpos := walk_position (hdir.entries hn) hi hwalk hstart (Nat.zero_le n) (Or.inl hn) hrun
  rw [Nat.zero_add] at hpos
  have hread := fun buf nbytes h0 h32 w =>
    dirSlot_read (E := E) hpos hi (by omega) buf nbytes h0 h32 w
  have hlists : readsFrom i as < n → ∀ buf nbytes w, 1 ≤ nbytes → nbytes ≤ 32 → ∃ k'', sysRead E i buf nbytes w k'
      = some (nbytes, filledWith (E.image.entryName (readsFrom i as)) nbytes buf, k'') := by
    intro hlt buf nbytes w h0 h32
    rw [hread buf nbytes h0 h32 w, Nat.min_eq_left (Nat.le_of_lt hlt), if_neg (hdir.named _ hlt)]
    exact ⟨_, rfl⟩
  refine ⟨hlists, ?_, ?_⟩
  · intro hge buf nbytes w h0 h32
    rw [hread buf nbytes h0 h32 w, Nat.min_eq_right hge, if_pos hdir.ends]
  · intro hlt buf w r buf' k'' fname hsys hbytes hnul dentry
    obtain ⟨m, heq⟩ := hlists hlt buf 32 w (by decide) (by decide)
    rw [heq] at hsys
    cases hsys
    have hspells := spells_filledWith hbytes hnul
    -- the entries that match the name are those that have it, and only one has
    have hmatches : ∀ d, E.image.Matches fname d ↔ E.image.entryName d = E.image.entryName (readsFrom i as) := by
      intro d
      rw [matches_iff_entryName hspells, List.take_of_length_le (E.image.entryName_length_le _)]
    have hlookup : E.image.lookup fname = some (some (readsFrom i as)) := by
      apply lookup_found (fun e he => hdir.named e (by omega)) (by unfold dentryRound; omega) ((hmatches _).mpr rfl)
      intro e he hmatch
      have := hdistinct e (by omega) _ hlt ((hmatches e).mp hmatch)
      omega
    exact ⟨_, readDentryByName_found hlookup dentry, E.image.copyDentry_describes _ dentry⟩

/-- A machine with this directory. -/
def directoryPlatform (names : List (List UInt8)) : Platform := ⟨twoProgramPlatform.layout, directoryImage names⟩

/-- Two reads of the directory, of which the second one gives the name `ls` in full. -/
theorem directory_lists_ls : ∃ k₀ k, sysOpen (directoryPlatform [dotName, lsName]) ⟨emptyString, 0, 0⟩
      (literal dotName) powerOnKernel = some (2, k₀) ∧
    runs (fileStep (directoryPlatform [dotName, lsName])) [.sysRead 2 emptyString 5 .none] k₀ = some k ∧
    ListsAndFinds (directoryPlatform [dotName, lsName]) 2 2 1 k := by
  have heval : ((sysOpen (directoryPlatform [dotName, lsName]) ⟨emptyString, 0, 0⟩ (literal dotName)
      powerOnKernel).any fun r => (runs (fileStep (directoryPlatform [dotName, lsName]))
        [.sysRead 2 emptyString 5 .none] r.2).any fun _ =>
          decide (r.1 = 2 ∧ (r.2.cur.fileArray 2).OpenOn .dir)) = true := by
    decide +kernel
  simp only [Option.any_eq_true, decide_eq_true_eq] at heval
  obtain ⟨⟨fd, k₀⟩, hopen, k, hrun, rfl, hslot⟩ := heval
  refine ⟨k₀, k, hopen, hrun, ?_⟩
  have hdistinct : ∀ d < 2, ∀ e < 2, (directoryImage [dotName, lsName]).entryName d
      = (directoryImage [dotName, lsName]).entryName e → d = e := by decide
  refine directory_lists_what_lookup_finds (E := directoryPlatform [dotName, lsName]) dotAndLs_directory (by decide)
    hdistinct hopen (by decide) hslot ?_ hrun
  intro a ha
  obtain rfl := List.mem_singleton.mp ha
  exact fun _ => by decide

/-! ### The bounds of the directory -/

namespace Image

variable {img : Image} {fname : Mem}

/-- The entries that the loop of `read_dentry_by_name` looks at, from entry `d` on. -/
def dentriesSearched (img : Image) (fname : Mem) : ℕ → ℕ → List ℕ
  | 0, _ => []
  | fuel + 1, d =>
    d :: (if strncmp (img.dentryName d) fname 32 = 0 then []
      else if strncmp (img.dentryName d) emptyString 32 = 0 then []
      else dentriesSearched img fname fuel (d + 1))

/-- The entries that `read_dentry_by_name` looks at. -/
def dentriesExamined (img : Image) (fname : Mem) : List ℕ :=
  if strncmp fname emptyString 32 = 0 then [] else img.dentriesSearched fname dentryRound 0

/-- Nothing else is looked at: the search comes to the same result in every image that has the same names there. -/
theorem dentrySearch_eq_of_searched {img' : Image} {fuel d : ℕ}
    (h : ∀ e ∈ img.dentriesSearched fname fuel d, img'.dentryName e = img.dentryName e) :
    img'.dentrySearch fname fuel d = img.dentrySearch fname fuel d := by
  induction fuel generalizing d with
  | zero => rfl
  | succ fuel ih =>
    rw [dentriesSearched] at h
    rw [dentrySearch, dentrySearch, h d (by simp)]
    by_cases h1 : strncmp (img.dentryName d) fname 32 = 0
    · rw [if_pos h1, if_pos h1]
    by_cases h2 : strncmp (img.dentryName d) emptyString 32 = 0
    · rw [if_neg h1, if_neg h1, if_pos h2, if_pos h2]
    · rw [if_neg h1, if_neg h2] at h
      rw [if_neg h1, if_neg h1, if_neg h2, if_neg h2, ih fun e he => h e (List.mem_cons_of_mem d he)]

/-- An entry is looked at if all entries before it were passed. -/
theorem mem_dentriesSearched_iff {fuel d e : ℕ} : e ∈ img.dentriesSearched fname fuel d ↔
    d ≤ e ∧ e < d + fuel ∧ ∀ i, d ≤ i → i < e → img.Passes fname i := by
  induction fuel generalizing d with
  | zero =>
    rw [dentriesSearched]
    refine iff_of_false List.not_mem_nil ?_
    rintro ⟨h1, h2, -⟩
    omega
  | succ fuel ih =>
    rw [dentriesSearched, List.mem_cons]
    by_cases hpass : img.Passes fname d
    · rw [if_neg hpass.1, if_neg hpass.2, ih]
      constructor
      · rintro (rfl | ⟨hle, hlt, hall⟩)
        · exact ⟨le_rfl, by omega, fun i h1 h2 => absurd h2 (by omega)⟩
        · refine ⟨by omega, by omega, fun i h1 h2 => ?_⟩
          rcases Nat.eq_or_lt_of_le h1 with rfl | h1
          · exact hpass
          · exact hall i h1 h2
      · rintro ⟨hle, hlt, hall⟩
        rcases Nat.eq_or_lt_of_le hle with rfl | hlt'
        · exact Or.inl rfl
        · exact Or.inr ⟨hlt', by omega, fun i h1 h2 => hall i (by omega) h2⟩
    · have hnil : (if strncmp (img.dentryName d) fname 32 = 0 then []
          else if strncmp (img.dentryName d) emptyString 32 = 0 then []
          else img.dentriesSearched fname fuel (d + 1)) = [] := by
        by_cases h1 : strncmp (img.dentryName d) fname 32 = 0
        · rw [if_pos h1]
        · rw [if_neg h1, if_pos (not_not.mp fun h2 => hpass ⟨h1, h2⟩)]
      rw [hnil]
      constructor
      · rintro (rfl | hmem)
        · exact ⟨le_rfl, by omega, fun i h1 h2 => absurd h2 (by omega)⟩
        · cases hmem
      · rintro ⟨hle, -, hall⟩
        rcases Nat.eq_or_lt_of_le hle with rfl | hlt
        · exact Or.inl rfl
        · exact absurd (hall d le_rfl hlt) hpass

/-- The search examines entry `e` if the name is not empty and the entries before `e` have other names. -/
theorem mem_dentriesExamined_iff {e : ℕ} : e ∈ img.dentriesExamined fname ↔
    e < dentryRound ∧ fname 0 ≠ 0 ∧ ∀ i < e, ¬img.Matches fname i ∧ img.dentryName i 0 ≠ 0 := by
  rw [dentriesExamined]
  have hpasses : ∀ i, img.Passes fname i ↔ ¬img.Matches fname i ∧ img.dentryName i 0 ≠ 0 := by
    intro i
    rw [Passes, Ne, Ne, strncmp_emptyString_iff _ (by decide)]
    rfl
  by_cases hempty : fname 0 = 0
  · rw [if_pos ((strncmp_emptyString_iff _ (by decide)).mpr hempty)]
    simp [hempty]
  · rw [if_neg fun h => hempty ((strncmp_emptyString_iff _ (by decide)).mp h), mem_dentriesSearched_iff]
    simp [hempty, hpasses]

end Image

/-- A search for `fname` stays below entry 63, and ends if no entry has the name. -/
structure SearchInside (img : Image) (n : ℕ) (fname : Mem) (text : List UInt8) : Prop where
  inside : ∀ d ∈ img.dentriesExamined fname, d < maxFiles
  ends : (∀ d < n, img.entryName d ≠ text) → ∀ dentry, img.readDentryByName fname dentry = some none

/-- The reads of a walk stay below entry 63, and report the end from the `n`-th read on. -/
def ReadsInside (E : Platform) (n : ℕ) (fd : ℤ) (as : List FileAction) (k₀ : Kernel) : Prop :=
  ∀ before buf nbytes w after k, as = before ++ .sysRead fd buf nbytes w :: after →
    runs (fileStep E) before k₀ = some k → (k.cur.fileArray fd.toNat).filePosition < maxFiles ∧
      ∃ r buf' k', sysRead E fd buf nbytes w k = some (r, buf', k') ∧ (r = 0 ↔ n ≤ readsFrom fd before)

theorem Spells.first_eq_zero_iff {s : Mem} {text : List UInt8} (h : Spells s text) : s 0 = 0 ↔ text = [] := by
  rw [h.bytes 0 (Nat.zero_le _)]
  cases text with
  | nil => simp
  | cons b text =>
    have hb : b ≠ 0 := fun hb => h.nul_free (hb ▸ List.mem_cons_self)
    simpa using hb

/-- In a full directory a search stays inside if it is for the empty string or for a name that is there. -/
theorem searchInside_iff {img : Image} {n : ℕ} (hdir : img.Entries n) {fname : Mem} {text : List UInt8}
    (hname : Spells fname text) : SearchInside img n fname text ↔
      (text.length ≤ 32 ∨ ∀ d < n, img.entryName d ≠ text.take 32) ∧
      (n < 63 ∨ text = [] ∨ ∃ d < n, img.entryName d = text.take 32) := by
  have hmatches : ∀ d, img.Matches fname d ↔ img.entryName d = text.take 32 := matches_iff_entryName hname
  have hbound : n ≤ 63 := hdir.bound
  have hround : n < dentryRound := Nat.lt_of_le_of_lt hbound (by decide)
  constructor
  · intro hinside
    refine ⟨?_, ?_⟩
    · by_contra hnot
      obtain ⟨hlong, hcut⟩ := not_or.mp hnot
      simp only [not_forall, not_not, ← hmatches] at hcut
      obtain ⟨d, hd, hmatch⟩ := hcut
      have hex : ∃ d, d < n ∧ img.Matches fname d := ⟨d, hd, hmatch⟩
      obtain ⟨hlt, hfound⟩ := Nat.find_spec hex
      have hlookup := lookup_found (fun e he => hdir.named e (by omega)) (by omega) hfound
        fun e he h => Nat.find_min hex he ⟨by omega, h⟩
      have hnone := hinside.ends (fun e _ he => hlong (he ▸ img.entryName_length_le e)) ⟨emptyString, 0, 0⟩
      rw [readDentryByName_found hlookup] at hnone
      cases hnone
    · by_contra hnot
      obtain ⟨hfull, hnonempty, hnone⟩ := not_or.mp hnot |>.imp_right not_or.mp
      obtain rfl : n = 63 := by omega
      -- every entry is passed, and the search goes on to entry 63
      have hmem : 63 ∈ img.dentriesExamined fname := by
        refine mem_dentriesExamined_iff.mpr ⟨hround, fun h => hnonempty (hname.first_eq_zero_iff.mp h), ?_⟩
        intro d hd
        exact ⟨fun h => hnone ⟨d, hd, (hmatches d).mp h⟩, hdir.named d hd⟩
      exact absurd (hinside.inside 63 hmem) (by decide)
  · rintro ⟨hcut, hroom⟩
    constructor
    · intro e he
      obtain ⟨-, hnonempty, hpassed⟩ := mem_dentriesExamined_iff.mp he
      by_contra hlate
      unfold maxFiles at hlate
      rcases hroom with hlt | hempty | ⟨d, hd, hentry⟩
      · exact (hpassed n (by omega)).2 (hdir.ends hlt)
      · exact hnonempty (hname.first_eq_zero_iff.mpr hempty)
      · exact (hpassed d (by omega)).1 ((hmatches d).mpr hentry)
    · intro habsent dentry
      have hnone : ∀ d < n, img.entryName d ≠ text.take 32 := by
        rcases hcut with hshort | hnone
        · rwa [List.take_of_length_le hshort]
        · exact hnone
      apply readDentryByName_missing
      rcases hroom with hlt | hempty | ⟨d, hd, hentry⟩
      · exact lookup_missing (hdir.ends hlt) hround fun d hd h => hnone d hd ((hmatches d).mp h)
      · exact if_pos ((strncmp_emptyString_iff _ (by decide)).mpr (hname.first_eq_zero_iff.mpr hempty))
      · exact absurd hentry (hnone d hd)

/-- The read number `c` of a list of calls. -/
theorem exists_read {fd : ℤ} {as : List FileAction} {c : ℕ} (h : c < readsFrom fd as) :
    ∃ before buf nbytes w after, as = before ++ .sysRead fd buf nbytes w :: after ∧ readsFrom fd before = c := by
  induction as generalizing c with
  | nil => exact absurd h (Nat.not_lt_zero c)
  | cons a as ih =>
    rw [readsFrom, List.countP_cons] at h
    by_cases hread : a.readsFrom fd = true
    · cases c with
      | zero =>
        cases a with
        | sysRead fd' buf nbytes w =>
          obtain rfl : fd' = fd := by simpa [FileAction.readsFrom] using hread
          exact ⟨[], buf, nbytes, w, as, rfl, rfl⟩
        | sysOpen | sysWrite | sysClose | others => simp [FileAction.readsFrom] at hread
      | succ c =>
        rw [if_pos hread] at h
        obtain ⟨before, buf, nbytes, w, after, rfl, hc⟩ := ih (Nat.lt_of_succ_lt_succ h)
        refine ⟨a :: before, buf, nbytes, w, after, rfl, ?_⟩
        rw [readsFrom, List.countP_cons_of_pos hread, ← hc, readsFrom]
    · rw [if_neg hread] at h
      obtain ⟨before, buf, nbytes, w, after, rfl, hc⟩ := ih h
      refine ⟨a :: before, buf, nbytes, w, after, rfl, ?_⟩
      rw [readsFrom, List.countP_cons_of_neg hread, ← hc, readsFrom]

/-- In a full directory a walk stays inside as long as it does not read on behind the last entry. -/
theorem readsInside_iff {E : Platform} {n i : ℕ} (hdir : E.image.Entries n) (hi : 2 ≤ i ∧ i < 8) {k₀ k' : Kernel}
    (hstart : k₀.cur.fileArray i = dirSlot 0) {as : List FileAction} (hwalk : ∀ a ∈ as, a.Walks i)
    (hrun : runs (fileStep E) as k₀ = some k') : ReadsInside E n i as k₀ ↔ n < 63 ∨ readsFrom i as ≤ 63 := by
  have hbound : n ≤ 63 := hdir.bound
  -- where the walk is before its next read
  have hposition : ∀ before after m, as = before ++ after → n < 63 ∨ readsFrom i before ≤ n →
      runs (fileStep E) before k₀ = some m → m.cur.fileArray i = dirSlot (min (readsFrom i before) n) := by
    intro before after m has hroom hm
    have hpos := walk_position hdir hi (fun a ha => hwalk a (has ▸ List.mem_append_left after ha)) hstart
      (Nat.zero_le n) (by rwa [Nat.zero_add]) hm
    rwa [Nat.zero_add] at hpos
  constructor
  · intro hinside
    by_contra hnot
    obtain ⟨hfull, hmany⟩ := not_or.mp hnot
    obtain rfl : n = 63 := by omega
    obtain ⟨before, buf, nbytes, w, after, has, hc⟩ := exists_read (Nat.lt_of_not_le hmany)
    rw [has, runs_append, Option.bind_eq_some_iff] at hrun
    obtain ⟨m, hm, -⟩ := hrun
    have hlast := (hinside before buf nbytes w after m has hm).1
    rw [Int.toNat_natCast, hposition before _ m has (Or.inr (by omega)) hm, hc] at hlast
    exact absurd hlast (by decide)
  · intro hroom before buf nbytes w after m has hm
    obtain ⟨h0, h32⟩ : 1 ≤ nbytes ∧ nbytes ≤ 32 := hwalk (.sysRead i buf nbytes w) (by simp [has]) rfl
    have hcount : readsFrom i before < readsFrom i as := by
      rw [has, readsFrom, readsFrom, List.countP_append, List.countP_cons_of_pos (by simp [FileAction.readsFrom])]
      omega
    have hroom' : n < 63 ∨ readsFrom i before < n := by omega
    have hpos := hposition before _ m has (hroom'.imp_right Nat.le_of_lt) hm
    rw [Int.toNat_natCast, hpos, dirSlot_read hpos hi (by omega) buf nbytes h0 h32 w]
    refine ⟨show min (readsFrom i before) n < 63 by omega, ?_⟩
    rcases Nat.lt_or_ge (readsFrom i before) n with hlt | hge
    · rw [Nat.min_eq_left (Nat.le_of_lt hlt), if_neg (hdir.named _ hlt)]
      exact ⟨_, _, _, rfl, iff_of_false (by omega) (by omega)⟩
    · rw [Nat.min_eq_right hge, if_pos (hdir.ends (hroom'.resolve_right (by omega)))]
      exact ⟨_, _, _, rfl, iff_of_true rfl hge⟩

/-- **Bounds.**  Both walks stay inside a directory that is not full, but for names that were cut at 32 bytes.  In a
full one the search must be for the empty string or for a name that is there, and the reads must not go on behind the
last entry. -/
theorem directory_walks_inside_iff {E : Platform} {n : ℕ} (hdir : E.image.Entries n) {fname : Mem}
    {text : List UInt8} (hname : Spells fname text) {openFile : Dentry} {filename : Mem} {k k₀ k' : Kernel} {fd : ℤ}
    (hopen : sysOpen E openFile filename k = some (fd, k₀)) (hfd : fd ≠ -1)
    (hslot : (k₀.cur.fileArray fd.toNat).OpenOn .dir) {as : List FileAction} (hwalk : ∀ a ∈ as, a.Walks fd)
    (hrun : runs (fileStep E) as k₀ = some k') :
    SearchInside E.image n fname text ∧ ReadsInside E n fd as k₀ ↔
      (text.length ≤ 32 ∨ ∀ d < n, E.image.entryName d ≠ text.take 32) ∧
      (n < 63 ∨ (text = [] ∨ ∃ d < n, E.image.entryName d = text.take 32) ∧ readsFrom fd as ≤ 63) := by
  obtain ⟨i, rfl, hi, hstart⟩ := sysOpen_dir hopen hfd hslot
  rw [searchInside_iff hdir hname, readsInside_iff hdir hi hstart hwalk hrun, and_assoc, or_and_left]

/-- A directory that is half used: the search and the walk stay inside, also when the walk reads on behind the end. -/
theorem directory_walks_inside_ls : ∃ k₀ k, sysOpen (directoryPlatform [dotName, lsName]) ⟨emptyString, 0, 0⟩
      (literal dotName) powerOnKernel = some (2, k₀) ∧
    runs (fileStep (directoryPlatform [dotName, lsName])) (List.replicate 3 (.sysRead 2 emptyString 32 .none)) k₀
      = some k ∧
    SearchInside (directoryImage [dotName, lsName]) 2 (literal lsName) lsName ∧
    ReadsInside (directoryPlatform [dotName, lsName]) 2 2 (List.replicate 3 (.sysRead 2 emptyString 32 .none)) k₀ := by
  have heval : ((sysOpen (directoryPlatform [dotName, lsName]) ⟨emptyString, 0, 0⟩ (literal dotName)
      powerOnKernel).any fun r => (runs (fileStep (directoryPlatform [dotName, lsName]))
        (List.replicate 3 (.sysRead 2 emptyString 32 .none)) r.2).any fun _ =>
          decide (r.1 = 2 ∧ (r.2.cur.fileArray 2).OpenOn .dir)) = true := by
    decide +kernel
  simp only [Option.any_eq_true, decide_eq_true_eq] at heval
  obtain ⟨⟨fd, k₀⟩, hopen, k, hrun, rfl, hslot⟩ := heval
  refine ⟨k₀, k, hopen, hrun, ?_⟩
  refine (directory_walks_inside_iff (E := directoryPlatform [dotName, lsName])
    (dotAndLs_directory.entries (by decide)) (.literal (by decide)) hopen (by decide) hslot ?_ hrun).mpr
    ⟨Or.inl (by decide), Or.inl (by decide)⟩
  intro a ha
  obtain rfl := List.eq_of_mem_replicate ha
  exact fun _ => by decide

/-- A full directory: the search for a name that is not there looks at entry 63, which is the first inode. -/
theorem directory_walks_leave_full : (directoryImage (List.replicate 63 dotName)).Entries 63 ∧
    Spells (literal lsName) lsName ∧
    ¬SearchInside (directoryImage (List.replicate 63 dotName)) 63 (literal lsName) lsName := by
  refine ⟨⟨by decide, by decide +kernel, by decide⟩, .literal (by decide), fun hinside => ?_⟩
  have hmem : 63 ∈ (directoryImage (List.replicate 63 dotName)).dentriesExamined (literal lsName) := by
    refine mem_dentriesExamined_iff.mpr ⟨by decide, by decide, ?_⟩
    decide +kernel
  exact absurd (hinside.inside 63 hmem) (by decide)

end ClosKernel
