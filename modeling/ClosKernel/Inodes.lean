import ClosKernel.Directory

/-!
# Inode numbers and block tables (`read_dentry_by_index`, `read_data`)

`read_dentry_by_index` looks for a regular file by its inode number.  It has no test for the end of the directory: it
stops after 63 entries.  `read_data` reads the block numbers of an inode, whose table has 63 of them.

* `Image.indexSearch_cases` — the search finds the first regular file with the number;
* `lookup_by_inode_agrees` — **both searches agree** where no two regular files share an inode;
* `Image.mem_tableReads_iff` — which entries of the table a read looks at;
* `read_data_table_iff` — **the table**: only a read to the end of a file that fills it, from the start of a block,
  goes one entry too far.
-/

namespace ClosKernel

open PartialRun

namespace Image

variable {img : Image} {index : ℕ}

/-! ### Looking up an inode number -/

/-- Entry `d` is a regular file with this inode number. -/
def RegularAt (img : Image) (index d : ℕ) : Prop := img.dentryType d = 2 ∧ img.dentryInode d = index

instance (img : Image) (index d : ℕ) : Decidable (img.RegularAt index d) := inferInstanceAs (Decidable (_ ∧ _))

theorem skips_iff (img : Image) (index d : ℕ) :
    (img.dentryInode d ≠ index ∨ img.dentryType d ≠ 2) ↔ ¬img.RegularAt index d := by
  rw [RegularAt]
  tauto

theorem indexSearch_stops {d : ℕ} (h : img.RegularAt index d) (fuel : ℕ) : img.indexSearch index fuel d = some d := by
  have hstop : ¬(img.dentryInode d ≠ index ∨ img.dentryType d ≠ 2) := fun hskip => (skips_iff img index d).mp hskip h
  cases fuel with
  | zero => rw [indexSearch, if_neg hstop]
  | succ fuel => rw [indexSearch, if_neg hstop]

/-- **The search** finds the first regular file with the number among the entries it looks at, if there is one. -/
theorem indexSearch_cases (img : Image) (index fuel d : ℕ) :
    (img.indexSearch index fuel d = none ∧ ∀ i, d ≤ i → i ≤ d + fuel → ¬img.RegularAt index i) ∨
    ∃ r, img.indexSearch index fuel d = some r ∧ d ≤ r ∧ r ≤ d + fuel ∧ img.RegularAt index r ∧
      ∀ i, d ≤ i → i < r → ¬img.RegularAt index i := by
  induction fuel generalizing d with
  | zero =>
    by_cases h : img.RegularAt index d
    · exact Or.inr ⟨d, indexSearch_stops h 0, le_rfl, le_rfl, h, fun i hi hlt => by omega⟩
    · refine Or.inl ⟨by rw [indexSearch, if_pos ((skips_iff img index d).mpr h)], fun i hi hle => ?_⟩
      obtain rfl : i = d := by omega
      exact h
  | succ fuel ih =>
    by_cases h : img.RegularAt index d
    · exact Or.inr ⟨d, indexSearch_stops h _, le_rfl, by omega, h, fun i hi hlt => by omega⟩
    · -- this entry is passed, and the rest is the search from the next one
      have hpassed : ∀ {i}, (d + 1 ≤ i → ¬img.RegularAt index i) → d ≤ i → ¬img.RegularAt index i := by
        intro i hrest hi
        rcases Nat.eq_or_lt_of_le hi with rfl | hgt
        · exact h
        · exact hrest hgt
      rw [indexSearch, if_pos ((skips_iff img index d).mpr h)]
      rcases ih (d + 1) with ⟨hnone, hall⟩ | ⟨r, hsome, hle, hge, hr, hfirst⟩
      · exact Or.inl ⟨hnone, fun i hi hge => hpassed (fun hgt => hall i hgt (by omega)) hi⟩
      · exact Or.inr ⟨r, hsome, by omega, by omega, hr, fun i hi hlt => hpassed (fun hgt => hfirst i hgt hlt) hi⟩

/-- The entries that the loop of `read_dentry_by_index` looks at. -/
def indexSearched (img : Image) (index : ℕ) : ℕ → ℕ → List ℕ
  | fuel, d =>
    d :: (if img.dentryInode d ≠ index ∨ img.dentryType d ≠ 2 then
        match fuel with
        | 0 => []
        | fuel + 1 => indexSearched img index fuel (d + 1)
      else [])

/-- The entries that `read_dentry_by_index` looks at. -/
def indexExamined (img : Image) (index : ℕ) : List ℕ := img.indexSearched index (maxFiles - 1) 0

theorem le_of_mem_indexSearched {fuel d e : ℕ} (h : e ∈ img.indexSearched index fuel d) : e ≤ d + fuel := by
  induction fuel generalizing d with
  | zero =>
    rw [indexSearched, ite_self, List.mem_singleton] at h
    omega
  | succ fuel ih =>
    rw [indexSearched, List.mem_cons] at h
    rcases h with rfl | h
    · omega
    · split at h
      · have hle := ih h
        omega
      · cases h

/-- Nothing else is looked at. -/
theorem indexSearch_eq_of_searched {img' : Image} {fuel d : ℕ}
    (h : ∀ e ∈ img.indexSearched index fuel d, img'.dentryInode e = img.dentryInode e ∧
      img'.dentryType e = img.dentryType e) : img'.indexSearch index fuel d = img.indexSearch index fuel d := by
  induction fuel generalizing d with
  | zero =>
    obtain ⟨hinode, htype⟩ := h d (by rw [indexSearched]; exact List.mem_cons_self)
    rw [indexSearch, indexSearch, hinode, htype]
  | succ fuel ih =>
    rw [indexSearched] at h
    obtain ⟨hinode, htype⟩ := h d List.mem_cons_self
    rw [indexSearch, indexSearch, hinode, htype]
    split
    · rename_i hskip
      exact ih fun e he => h e (List.mem_cons_of_mem _ (by rw [if_pos hskip]; exact he))
    · rfl

/-! ### Both searches -/

/-- A directory of `n` named entries with zeros behind them, where no two regular files share an inode. -/
structure Catalogue (img : Image) (n : ℕ) : Prop where
  bound : n < 63
  named : ∀ d < n, img.entryName d ≠ []
  distinct : ∀ d < n, ∀ e < n, img.entryName d = img.entryName e → d = e
  zeros : ∀ d, n ≤ d → d < 63 → ∀ i < 64, img.byte (dentryAdrs d + i) = 0
  inodes : ∀ d < n, ∀ e < n, img.dentryType d = 2 → img.dentryType e = 2 →
    img.dentryInode d = img.dentryInode e → d = e

/-- The two entries have the same name, type and inode. -/
def SameEntry (out out' : Dentry) : Prop :=
  cStringFrom out'.fileName 32 0 = cStringFrom out.fileName 32 0 ∧ out'.fileType = out.fileType ∧
    out'.inodeNum = out.inodeNum

/-- What is asked of the search by inode number in a directory of `n` entries. -/
structure FindsInodes (img : Image) (n : ℕ) : Prop where
  agrees : ∀ fname dentry out, img.readDentryByName fname dentry = some (some out) → out.fileType = 2 →
    ∀ dentry', ∃ out', img.readDentryByIndex out.inodeNum dentry' = some out' ∧ SameEntry out out'
  missing : ∀ index < 2 ^ 32, ∀ dentry,
    img.readDentryByIndex index dentry = none ↔ ∀ d < n, ¬img.RegularAt index d
  regular : ∀ index < 2 ^ 32, ∀ dentry out, img.readDentryByIndex index dentry = some out →
    ∃ d < n, img.RegularAt index d ∧ img.Describes d out
  inside : ∀ index < 2 ^ 32, ∀ d ∈ img.indexExamined index, d ≤ 62
  /-- The first 63 entries decide what is found. -/
  determined : ∀ index < 2 ^ 32, ∀ img' : Image,
    (∀ d ≤ 62, img'.dentryInode d = img.dentryInode d ∧ img'.dentryType d = img.dentryType d) →
    img'.indexSearch index (maxFiles - 1) 0 = img.indexSearch index (maxFiles - 1) 0

section Agree

variable {n : ℕ}

theorem le_of_mem_indexExamined {d : ℕ} (h : d ∈ img.indexExamined index) : d ≤ 62 := by
  have hle := le_of_mem_indexSearched h
  simp only [maxFiles] at hle
  omega

theorem Catalogue.directory (h : img.Catalogue n) : img.Directory n where
  named d hd hzero := h.named d hd (by rw [entryName, cStringFrom, if_pos hzero])
  ends := h.zeros n le_rfl h.bound 0 (by decide)

/-- The zeros behind the directory are no regular files. -/
theorem Catalogue.lt_of_regularAt (h : img.Catalogue n) {d : ℕ} (hd : d < 63) (hr : img.RegularAt index d) : d < n := by
  by_contra hlate
  have hzero := h.zeros d (by omega) hd
  have htype : img.dentryType d = 0 := by
    simp only [dentryType, word, Nat.add_assoc, hzero 32 (by decide), hzero (32 + 1) (by decide),
      hzero (32 + 2) (by decide), hzero (32 + 3) (by decide)]
    rfl
  exact absurd hr.1 (by rw [htype]; decide)

theorem Catalogue.indexSearch_eq (h : img.Catalogue n) {d : ℕ} (hd : d < n) (hr : img.RegularAt index d) :
    img.indexSearch index (maxFiles - 1) 0 = some d := by
  have hn := h.bound
  rcases indexSearch_cases img index (maxFiles - 1) 0 with ⟨-, hall⟩ | ⟨r, hsome, -, hle, hr', -⟩
  · exact absurd hr (hall d (Nat.zero_le _) (by simp only [maxFiles]; omega))
  · have hlt : r < n := h.lt_of_regularAt (by simp only [maxFiles] at hle; omega) hr'
    rw [hsome, h.inodes r hlt d hd hr'.1 hr.1 (hr'.2.trans hr.2.symm)]

end Agree

end Image

/-- **Lookup by inode agrees with lookup by name.** -/
theorem lookup_by_inode_agrees {img : Image} {n : ℕ} (h : img.Catalogue n) : img.FindsInodes n where
  agrees fname dentry out hout htype dentry' := by
    rcases h.directory.lookup_cases h.bound fname with ⟨d, hd, hlookup, -⟩ | ⟨hlookup, -⟩
    · obtain rfl : img.copyDentry d dentry = out := by
        rw [Image.readDentryByName_found hlookup, Option.some_inj, Option.some_inj] at hout
        exact hout
      refine ⟨img.copyDentry d dentry', ?_, ?_⟩
      · have hsearch : img.indexSearch (img.copyDentry d dentry).inodeNum (maxFiles - 1) 0 = some d :=
          h.indexSearch_eq hd ⟨htype, rfl⟩
        rw [Image.readDentryByIndex, hsearch, Option.map_some]
      · have hname := (img.copyDentry_describes d dentry').name
        exact ⟨hname.trans (img.copyDentry_describes d dentry).name.symm, rfl, rfl⟩
    · rw [Image.readDentryByName_missing hlookup] at hout
      cases hout
  missing index _ dentry := by
    have hn := h.bound
    rw [Image.readDentryByIndex, Option.map_eq_none_iff]
    rcases img.indexSearch_cases index (maxFiles - 1) 0 with ⟨hnone, hall⟩ | ⟨r, hsome, -, hle, hr, -⟩
    · simp only [hnone, true_iff]
      exact fun d hd => hall d (Nat.zero_le _) (by simp only [maxFiles]; omega)
    · have hlt : r < n := h.lt_of_regularAt (by simp only [maxFiles] at hle; omega) hr
      rw [hsome]
      constructor
      · intro hnone
        cases hnone
      · intro hall
        exact absurd hr (hall r hlt)
  regular index _ dentry out hout := by
    obtain ⟨r, hsome, rfl⟩ := Option.map_eq_some_iff.mp hout
    rcases img.indexSearch_cases index (maxFiles - 1) 0 with ⟨hnone, -⟩ | ⟨r', hsome', -, hle, hr, -⟩
    · rw [hnone] at hsome
      cases hsome
    · obtain rfl : r' = r := Option.some_inj.mp (hsome'.symm.trans hsome)
      exact ⟨r', h.lt_of_regularAt (by simp only [maxFiles] at hle; omega) hr, hr, img.copyDentry_describes r' dentry⟩
  inside _ _ _ hd := Image.le_of_mem_indexExamined hd
  determined _ _ _ hsame := Image.indexSearch_eq_of_searched fun d hd => hsame d (Image.le_of_mem_indexExamined hd)

/-- Nothing is placed between the second entry and the inodes. -/
theorem twoProgramImage_byte_eq_zero {a : ℕ} (hlo : 192 ≤ a) (hhi : a < 4096) : twoProgramImage.byte a = 0 := by
  have houtside : ∀ {start bytes m}, start + bytes.length ≤ 192 ∨ 4096 ≤ start → placed start bytes m a = m a :=
    fun h => if_neg (by omega)
  rw [Image.byte, Nat.mod_eq_of_lt (by omega)]
  simp only [twoProgramImage]
  iterate 11 rw [houtside (by decide)]

theorem twoProgramImage_catalogue : twoProgramImage.Catalogue 2 where
  bound := by decide
  named := by decide
  distinct := by decide
  zeros d hge hlt i hi := by
    refine twoProgramImage_byte_eq_zero ?_ ?_
    · rw [Image.dentryAdrs]
      omega
    · rw [Image.dentryAdrs]
      omega
  inodes := by decide

theorem lookup_by_inode_agrees_ls : twoProgramImage.Catalogue 2 ∧ twoProgramImage.FindsInodes 2 :=
  ⟨twoProgramImage_catalogue, lookup_by_inode_agrees twoProgramImage_catalogue⟩

/-! ### The block table of an inode -/

namespace Image

variable {img : Image} {inode offset length : ℕ}

/-- `readBlocks`, with the indices into `data_block` that it reads. -/
def readBlocksAt (img : Image) (inode offset length : ℕ) : ℕ → ℕ → ℕ → Mem → List ℕ × ℕ × Mem
  | 0, _, copied, buf => ([], copied, buf)
  | n + 1, i, copied, buf =>
    let start := if i = 0 then offset % bytesPerBlock else 0
    let index := offset / bytesPerBlock + i
    let cur := img.dataBlock inode index
    if cur = 0 then ([index], copied, buf)
    else
      match img.readBlock (img.getDatablockAdrs cur) length (img.inodeLength inode)
          (bytesPerBlock - start) start copied buf with
      | (true, copied, buf) => ([index], copied, buf)
      | (false, copied, buf) =>
        let (indices, r) := readBlocksAt img inode offset length n (i + 1) copied buf
        (index :: indices, r)

/-- The indices into `data_block` that `read_data` reads. -/
def tableReads (img : Image) (inode offset : ℕ) (buf : Mem) (length : ℕ) : List ℕ :=
  if img.inodeCnt ≤ inode then []
  else if img.inodeLength inode < offset then []
  else if offset = img.inodeLength inode then []
  else if length = 0 then []
  else
    let length := img.clampLength inode offset length
    (img.readBlocksAt inode offset length (length / bytesPerBlock + 1) 0 0 buf).1

/-- Apart from the indices it is the loop of `read_data`. -/
theorem readBlocksAt_snd (img : Image) (inode offset length n i copied : ℕ) (buf : Mem) :
    (img.readBlocksAt inode offset length n i copied buf).2 = img.readBlocks inode offset length n i copied buf := by
  induction n generalizing i copied buf with
  | zero => rfl
  | succ n ih =>
    rw [readBlocksAt, readBlocks]
    dsimp only
    split
    · rfl
    · generalize img.readBlock (img.getDatablockAdrs (img.dataBlock inode (offset / bytesPerBlock + i))) length
        (img.inodeLength inode) (bytesPerBlock - if i = 0 then offset % bytesPerBlock else 0)
        (if i = 0 then offset % bytesPerBlock else 0) copied buf = r
      obtain ⟨stop, copied', buf'⟩ := r
      cases stop with
      | true => rfl
      | false => exact ih ..

/-- Block `i` of a read is read to its end: only then the loop goes on to the next one. -/
theorem readBlock_completes_iff (hlen : length ≤ img.inodeLength inode) (hpos : 0 < length) (offset ptr i : ℕ)
    (buf : Mem) :
    (img.readBlock ptr length (img.inodeLength inode) (bytesPerBlock - blockStart offset i) (blockStart offset i)
      (reach offset length i) buf).1 = false ↔
      bytesPerBlock * (offset / bytesPerBlock + i + 1) ≤ offset + length := by
  have hreach : reach offset length i ≤ length := Nat.min_le_left ..
  have hstart := blockStart_lt offset i
  rw [readBlock_spec img ptr hlen _ _ _ buf hreach]
  simp only [decide_eq_false_iff_not, Nat.not_lt]
  by_cases hmore : reach offset length i < length
  · have hposition := reach_position hmore
    rw [Nat.mul_add, Nat.mul_one]
    omega
  · -- everything was copied before: the block ends behind the read
    have hall : length ≤ bytesPerBlock * (offset / bytesPerBlock + i) - offset := by
      rw [reach] at hmore
      omega
    rw [Nat.mul_add bytesPerBlock, Nat.mul_one]
    omega

/-- The loop goes past block `i` of the read: the block exists and is read to its end. -/
def Continues (img : Image) (inode offset length i : ℕ) : Prop :=
  img.dataBlock inode (offset / bytesPerBlock + i) ≠ 0 ∧
    bytesPerBlock * (offset / bytesPerBlock + i + 1) ≤ offset + length

/-- One round of the loop reads one index, and goes on with the next one or ends. -/
theorem readBlocksAt_step (hlen : length ≤ img.inodeLength inode) (hpos : 0 < length) (offset n i : ℕ) (buf : Mem) :
    (¬img.Continues inode offset length i ∧
      (img.readBlocksAt inode offset length (n + 1) i (reach offset length i) buf).1 = [offset / bytesPerBlock + i]) ∨
    (img.Continues inode offset length i ∧ ∃ buf',
      (img.readBlocksAt inode offset length (n + 1) i (reach offset length i) buf).1 = (offset / bytesPerBlock + i) ::
        (img.readBlocksAt inode offset length n (i + 1) (reach offset length (i + 1)) buf').1) := by
  rw [readBlocksAt]
  dsimp only
  rw [← blockStart]
  by_cases hcur : img.dataBlock inode (offset / bytesPerBlock + i) = 0
  · rw [if_pos hcur]
    exact Or.inl ⟨fun h => h.1 hcur, rfl⟩
  · rw [if_neg hcur]
    have hends := readBlock_completes_iff hlen hpos offset
      (img.getDatablockAdrs (img.dataBlock inode (offset / bytesPerBlock + i))) i buf
    have hreach : reach offset length i ≤ length := Nat.min_le_left ..
    have hspec := readBlock_spec img (img.getDatablockAdrs (img.dataBlock inode (offset / bytesPerBlock + i))) hlen
      (bytesPerBlock - blockStart offset i) (blockStart offset i) _ buf hreach
    split
    · rename_i hread
      rw [hread] at hends
      exact Or.inl ⟨fun h => Bool.noConfusion (hends.mpr h.2), rfl⟩
    · rename_i copied buf' hread
      rw [hread] at hends hspec
      have hnext := hends.mp rfl
      have hmore : reach offset length i < length := by
        have hstart := blockStart_lt offset i
        have hflag := congrArg Prod.fst hspec
        simp only [eq_comm (a := false), decide_eq_false_iff_not, Nat.not_lt] at hflag
        omega
      have hcopied : copied = reach offset length (i + 1) :=
        (congrArg (fun r => r.2.1) hspec).trans (reach_succ hmore)
      exact Or.inr ⟨⟨hcur, hnext⟩, buf', by rw [hcopied]⟩

theorem mem_readBlocksAt_iff (hlen : length ≤ img.inodeLength inode) (hpos : 0 < length) (offset n i b : ℕ)
    (buf : Mem) :
    b ∈ (img.readBlocksAt inode offset length n i (reach offset length i) buf).1 ↔
      ∃ j, (i ≤ j ∧ j < i + n) ∧ b = offset / bytesPerBlock + j ∧
        ∀ m, i ≤ m → m < j → img.Continues inode offset length m := by
  induction n generalizing i buf with
  | zero =>
    constructor
    · intro h
      cases h
    · rintro ⟨j, hj, -⟩
      omega
  | succ n ih =>
    rcases readBlocksAt_step hlen hpos offset n i buf with ⟨hends, heq⟩ | ⟨hnext, buf', heq⟩
    · rw [heq, List.mem_singleton]
      constructor
      · rintro rfl
        exact ⟨i, by omega, rfl, fun m hm hlt => by omega⟩
      · rintro ⟨j, hj, rfl, hall⟩
        by_contra hne
        exact hends (hall i le_rfl (by omega))
    · rw [heq, List.mem_cons, ih]
      constructor
      · rintro (rfl | ⟨j, hj, rfl, hall⟩)
        · exact ⟨i, by omega, rfl, fun m hm hlt => by omega⟩
        · refine ⟨j, by omega, rfl, fun m hm hlt => ?_⟩
          rcases Nat.eq_or_lt_of_le hm with rfl | hgt
          · exact hnext
          · exact hall m hgt hlt
      · rintro ⟨j, hj, rfl, hall⟩
        rcases Nat.eq_or_lt_of_le hj.1 with rfl | hgt
        · exact Or.inl rfl
        · exact Or.inr ⟨j, by omega, rfl, fun m hm hlt => hall m (by omega) hlt⟩

/-- **The table reads** of a call that reads at all: one for every block, and one more if the read stops at the end of
a block and the count was rounded up. -/
theorem mem_tableReads_iff (hinode : inode < img.inodeCnt) (hoff : offset < img.inodeLength inode) (hpos : 0 < length)
    (buf : Mem) (b : ℕ) {m : ℕ} (hm : m = img.clampLength inode offset length) :
    b ∈ img.tableReads inode offset buf length ↔ ∃ j ≤ m / bytesPerBlock, b = offset / bytesPerBlock + j ∧
      ∀ i < j, img.Continues inode offset m i := by
  have hclamp := clampLength_eq_min img inode offset length
  have hzero : reach offset m 0 = 0 := by
    have hle := Nat.mul_div_le offset bytesPerBlock
    rw [reach, Nat.add_zero]
    omega
  have hmem := mem_readBlocksAt_iff (show m ≤ img.inodeLength inode by omega) (by omega) offset
    (m / bytesPerBlock + 1) 0 b buf
  rw [hzero] at hmem
  rw [tableReads, if_neg (by omega), if_neg (by omega), if_neg (by omega), if_neg (by omega), ← hm, hmem]
  constructor
  · rintro ⟨j, hj, rfl, hall⟩
    exact ⟨j, by omega, rfl, fun i hi => hall i (Nat.zero_le i) hi⟩
  · rintro ⟨j, hj, rfl, hall⟩
    exact ⟨j, by omega, rfl, fun i _ hi => hall i hi⟩

/-- A read from the start of a block to the end of a file that fills its table. -/
structure FillsTable (img : Image) (inode offset length : ℕ) : Prop where
  full : img.inodeLength inode = 63 * 4096
  aligned : offset % 4096 = 0
  inside : offset < img.inodeLength inode
  toEnd : img.inodeLength inode ≤ offset + length
  blocks : ∀ b, offset / 4096 ≤ b → b < 63 → img.dataBlock inode b ≠ 0

theorem FillsTable.reads_past (h : img.FillsTable inode offset length) (hinode : inode < img.inodeCnt) (buf : Mem) :
    63 ∈ img.tableReads inode offset buf length := by
  obtain ⟨hfull, haligned, hinside, htoEnd, hblocks⟩ := h
  have hclamp : img.clampLength inode offset length = 63 * 4096 - offset := by
    rw [clampLength_eq_min]
    omega
  refine (mem_tableReads_iff hinode hinside (by omega) buf 63 hclamp.symm).mpr ⟨63 - offset / 4096, ?_, ?_, ?_⟩
  · simp only [bytesPerBlock]
    omega
  · simp only [bytesPerBlock]
    omega
  · intro i hi
    refine ⟨hblocks _ (Nat.le_add_right ..) ?_, ?_⟩
    · simp only [bytesPerBlock]
      omega
    · simp only [bytesPerBlock]
      omega

end Image

/-- **The block table.**  `read_data` stays inside the 63 entries of an inode, but for one kind of read: the count of
blocks is rounded up also where the read ends with a block, and a full table has no entry behind that block. -/
theorem read_data_table_iff {img : Image} {inode : ℕ} (hinode : inode < img.inodeCnt)
    (hlen : img.inodeLength inode ≤ 63 * 4096) (offset : ℕ) (buf : Mem) (length : ℕ) :
    (∀ b ∈ img.tableReads inode offset buf length, b ≤ 62) ↔ ¬img.FillsTable inode offset length := by
  constructor
  · intro hinside hfills
    exact absurd (hinside 63 (hfills.reads_past hinode buf)) (by decide)
  · intro hnot b hb
    by_contra hpast
    -- the call reads at all, for otherwise it looks at no index
    have hreads : offset < img.inodeLength inode ∧ 0 < length := by
      by_contra hno
      rw [Image.tableReads, if_neg (by omega)] at hb
      split at hb
      · cases hb
      split at hb
      · cases hb
      split at hb
      · cases hb
      · omega
    obtain ⟨hoff, hpos⟩ := hreads
    have hclamp := img.clampLength_eq_min inode offset length
    obtain ⟨j, hj, rfl, hall⟩ := (Image.mem_tableReads_iff hinode hoff hpos buf b rfl).mp hb
    simp only [bytesPerBlock] at hj hpast
    -- the round before was for a block that ends inside the read, hence at the end of the file
    have hlast := (hall (j - 1) (by omega)).2
    simp only [bytesPerBlock] at hlast
    refine hnot ⟨by omega, by omega, hoff, by omega, fun c hc hlt => ?_⟩
    obtain ⟨i, rfl⟩ := Nat.exists_eq_add_of_le hc
    exact (hall i (by omega)).1

/-- One inode of the largest size, with the same block in all its 63 entries. -/
def fullFileImage : Image where
  mem := placed 4 [1] <| placed 4096 ([0x00, 0xF0, 0x03, 0x00] ++ (List.replicate 63 [1, 0, 0, 0]).flatten) fun _ => 0

theorem fullFileImage_length : fullFileImage.inodeLength 0 = 63 * 4096 := by decide +kernel

/-- A read of the first block of it. -/
theorem read_data_table_first_block : (0 < fullFileImage.inodeCnt ∧ fullFileImage.inodeLength 0 ≤ 63 * 4096) ∧
    ∀ b ∈ fullFileImage.tableReads 0 0 emptyString 4096, b ≤ 62 := by
  have hinode : 0 < fullFileImage.inodeCnt := by decide +kernel
  refine ⟨⟨hinode, fullFileImage_length.le⟩, ?_⟩
  refine (read_data_table_iff hinode fullFileImage_length.le 0 emptyString 4096).mpr fun hfills => ?_
  have hend := hfills.toEnd
  rw [fullFileImage_length] at hend
  omega

/-- **One entry too far**: `sys_execute` reads such a file in one call. -/
theorem read_data_leaves_table : 0 < fullFileImage.inodeCnt ∧ fullFileImage.inodeLength 0 ≤ 63 * 4096 ∧
    63 ∈ fullFileImage.tableReads 0 0 emptyString (63 * 4096) := by
  have hinode : 0 < fullFileImage.inodeCnt := by decide +kernel
  have hblocks : ∀ b < 63, fullFileImage.dataBlock 0 b ≠ 0 := by decide +kernel
  have hlength := fullFileImage_length
  refine ⟨hinode, hlength.le, Image.FillsTable.reads_past ?_ hinode emptyString⟩
  exact ⟨hlength, by omega, by omega, by omega, fun b _ hb => hblocks b hb⟩

end ClosKernel
