import ClosKernel.Stream

/-!
# Slices of a file (`read_data` of `fs.c`)

`read_data` takes the number of blocks to visit from the length of the request alone, and takes a block number 0 for
the end of the file.  Both choices show in what a caller gets: here a call is compared with the slice of the file that
was asked for, and the calls on two images with each other whose files differ in the placement of their blocks only.

* `readCount_eq_iff` — when the blocks visited hold the whole slice;
* `read_data_slice_iff` — **the slice**: exactly when a call serves its request;
* `readBlocks_congr` — the block loop sees the contents of a file, and which of its blocks have number 0;
* `read_data_placement_iff` — **placement**: exactly when two placements of the same files read the same.
-/

namespace ClosKernel

namespace Image

variable {img : Image} {inode offset length : ℕ}

/-! ### The requested slice -/

/-- What a request is for: the bytes from `offset` on, `length` of them or as many as the file has left, and a refusal
behind the end of the file or of the inodes. -/
structure Serves (img : Image) (inode offset : ℕ) (buf : Mem) (length : ℕ) : Prop where
  slice : inode < img.inodeCnt → offset ≤ img.inodeLength inode →
    img.readData inode offset buf length
      = (((min length (img.inodeLength inode - offset) : ℕ) : ℤ), fun i =>
          if i < min length (img.inodeLength inode - offset) then img.fileByte inode (offset + i) else buf i)
  refused : img.inodeCnt ≤ inode ∨ img.inodeLength inode < offset →
    img.readData inode offset buf length = (-1, buf)

/-- The blocks visited hold `4096 * (m / 4096 + 1)` bytes from the start of the first one, for a slice of `m` bytes
that starts somewhere inside it. -/
theorem readCount_eq_iff (hoff : offset ≤ img.inodeLength inode) :
    img.readCount inode offset length = min length (img.inodeLength inode - offset) ↔
      offset % 4096 + min length (img.inodeLength inode - offset) % 4096 ≤ 4096 := by
  rw [readCount, clampLength_eq_min, reach, bytesPerBlock]
  omega

end Image

/-- **`read_data` returns the requested slice** just if the part of the slice behind its last whole block, put behind
the part of the first block that `offset` skips, fits into one block.  Otherwise the slice straddles one block more
than the call visits, and the call returns early. -/
theorem read_data_slice_iff (img : Image) (inode offset length : ℕ) (buf : Mem)
    (hfile : inode < img.inodeCnt → offset ≤ img.inodeLength inode → img.RegularFile inode) :
    img.Serves inode offset buf length ↔
      (inode < img.inodeCnt → offset ≤ img.inodeLength inode →
        offset % 4096 + min length (img.inodeLength inode - offset) % 4096 ≤ 4096) := by
  constructor
  · intro h hinode hoff
    have hreg := hfile hinode hoff
    have hslice := h.slice hinode hoff
    by_cases hnothing : min length (img.inodeLength inode - offset) = 0
    · omega
    · rw [Image.readData_spec hinode (by omega) (by omega) (fun b hb => (hreg.blocks b hb).1)] at hslice
      have hbounds : 0 < img.readCount inode offset length ∧ img.readCount inode offset length ≤ length ∧
          offset + img.readCount inode offset length ≤ img.inodeLength inode :=
        Image.readCount_bounds (by omega) (by omega)
      have hlen := hreg.length
      have hcount : toInt32 (img.readCount inode offset length) = img.readCount inode offset length :=
        if_pos (by omega)
      have hret := congrArg Prod.fst hslice
      rw [hcount] at hret
      exact (Image.readCount_eq_iff hoff).mp (by omega)
  · intro hfits
    refine ⟨fun hinode hoff => ?_, fun hno => Image.readData_refused hno buf⟩
    have hreg := hfile hinode hoff
    by_cases hnothing : min length (img.inodeLength inode - offset) = 0
    · rw [Image.readData_nothing hinode hoff (by omega), hnothing]
      simp
    · have hcount := (Image.readCount_eq_iff hoff).mpr (hfits hinode hoff)
      have hlen := hreg.length
      rw [Image.readData_spec hinode (by omega) (by omega) (fun b hb => (hreg.blocks b hb).1), hcount]
      rw [show toInt32 (min length (img.inodeLength inode - offset))
        = ((min length (img.inodeLength inode - offset) : ℕ) : ℤ) from if_pos (by omega)]

/-- An image with one file of two whole blocks. -/
def twoBlockImage : Image where
  mem := placed 4 [1] <| placed 8 [3] <| placed 64 (ascii "f".toList) <| placed 96 [2] <|
    placed 4096 [0, 0x20, 0, 0, 1, 0, 0, 0, 2] fun _ => 0

theorem twoBlockImage_regular : twoBlockImage.RegularFile 0 := by
  have hlen : twoBlockImage.inodeLength 0 = 8192 := by decide +kernel
  refine ⟨by decide +kernel, by rw [hlen]; decide, fun b hb => ?_⟩
  rw [hlen] at hb
  obtain rfl | rfl : b = 0 ∨ b = 1 := by omega
  · decide +kernel
  · decide +kernel

/-- A request that starts with the last byte of the first block and takes the whole second block is served. -/
theorem read_data_slice_across_blocks : twoBlockImage.RegularFile 0 ∧
    twoBlockImage.Serves 0 4095 (fun _ => 0) 4096 := by
  have hlen : twoBlockImage.inodeLength 0 = 8192 := by decide +kernel
  refine ⟨twoBlockImage_regular, (read_data_slice_iff _ _ _ _ _ fun _ _ => twoBlockImage_regular).mpr ?_⟩
  intro _ _
  rw [hlen]
  decide

/-- **A short read.**  One byte less is asked for, and one byte is returned. -/
theorem read_data_falls_short : twoBlockImage.RegularFile 0 ∧
    (twoBlockImage.readData 0 4095 (fun _ => 0) 4095).1 = 1 ∧
    ¬twoBlockImage.Serves 0 4095 (fun _ => 0) 4095 := by
  have hlen : twoBlockImage.inodeLength 0 = 8192 := by decide +kernel
  have hret : (twoBlockImage.readData 0 4095 (fun _ => 0) 4095).1 = 1 := by decide +kernel
  refine ⟨twoBlockImage_regular, hret, fun h => ?_⟩
  have hslice := h.slice (by decide +kernel) (by rw [hlen]; decide)
  rw [hslice, hlen] at hret
  exact absurd hret (by decide)

/-! ### The placement of the blocks -/

namespace Image

variable {img a b : Image} {inode offset length : ℕ}

theorem word_lt (img : Image) (off : ℕ) : img.word off < 2 ^ 32 := by
  have h0 := (img.byte off).toNat_lt
  have h1 := (img.byte (off + 1)).toNat_lt
  have h2 := (img.byte (off + 2)).toNat_lt
  have h3 := (img.byte (off + 3)).toNat_lt
  unfold word
  omega

/-- The two images hold the same files: as many inodes, the same lengths and the same contents. -/
structure SameContents (a b : Image) : Prop where
  inodeCnt : a.inodeCnt = b.inodeCnt
  length : ∀ inode < a.inodeCnt, a.inodeLength inode = b.inodeLength inode
  contents : ∀ inode < a.inodeCnt, ∀ pos < a.inodeLength inode, a.fileByte inode pos = b.fileByte inode pos

/-- The same blocks of a file have number 0 on both images. -/
def SameHoles (a b : Image) (inode : ℕ) : Prop :=
  ∀ i, 4096 * i < a.inodeLength inode → (a.dataBlock inode i = 0 ↔ b.dataBlock inode i = 0)

/-- **The block loop on two images.**  It sees the contents of the file, and which of its blocks have number 0. -/
theorem readBlocks_congr (hlength : a.inodeLength inode = b.inodeLength inode)
    (hlen : offset + length ≤ a.inodeLength inode)
    (hbytes : ∀ pos < a.inodeLength inode, a.fileByte inode pos = b.fileByte inode pos)
    (hholes : a.SameHoles b inode) (n i : ℕ) (buf : Mem) :
    a.readBlocks inode offset length n i (reach offset length i) buf
      = b.readBlocks inode offset length n i (reach offset length i) buf := by
  induction n generalizing i buf with
  | zero => rfl
  | succ n ih =>
    have hle : reach offset length i ≤ length := Nat.min_le_left ..
    rcases Nat.eq_or_lt_of_le hle with hall | hmore
    · rw [hall, readBlocks_done (by omega), readBlocks_done (by omega)]
    · have hpos := reach_position hmore
      have hhole := hholes (offset / bytesPerBlock + i) (by unfold bytesPerBlock at *; omega)
      by_cases hzero : a.dataBlock inode (offset / bytesPerBlock + i) = 0
      · rw [readBlocks, readBlocks]
        simp only [if_pos hzero, if_pos (hhole.mp hzero)]
      · have hcopied : a.blockCopied inode offset length i buf = b.blockCopied inode offset length i buf := by
          funext k
          rw [blockCopied, blockCopied]
          by_cases hk : reach offset length i ≤ k ∧ k < reach offset length (i + 1)
          · have hreach : reach offset length (i + 1) ≤ length := Nat.min_le_left ..
            rw [if_pos hk, if_pos hk, hbytes (offset + k) (by omega)]
          · rw [if_neg hk, if_neg hk]
        rw [readBlocks_step hlen hmore hzero,
          readBlocks_step (by omega) hmore fun h => hzero (hhole.mpr h), hcopied, ih]

/-- Reading the first byte of a block tells whether its number is 0. -/
theorem readData_first_byte (hinode : inode < img.inodeCnt) {i : ℕ} (hi : 4096 * i < img.inodeLength inode)
    (buf : Mem) :
    (img.readData inode (4096 * i) buf 1).1 = if img.dataBlock inode i = 0 then 0 else 1 := by
  have hclamp : img.clampLength inode (4096 * i) 1 = 1 := by
    rw [clampLength_eq_min]
    omega
  have hreach : reach (4096 * i) 1 0 = 0 := by
    unfold reach bytesPerBlock
    omega
  have hblock : 4096 * i / bytesPerBlock + 0 = i := by
    unfold bytesPerBlock
    omega
  rw [readData_eq_readBlocks hinode hi Nat.one_pos hclamp.symm, show 1 / bytesPerBlock + 1 = 0 + 1 from rfl]
  by_cases hzero : img.dataBlock inode i = 0
  · rw [readBlocks]
    simp only [hblock, if_pos hzero]
    rfl
  · have hstep := readBlocks_step (show 4096 * i + 1 ≤ img.inodeLength inode by omega)
      (i := 0) (by rw [hreach]; decide) (by rw [hblock]; exact hzero) 0 buf
    have hstart : blockStart (4096 * i) 0 = 0 := by
      unfold blockStart bytesPerBlock
      rw [if_pos rfl]
      omega
    have hnext : reach (4096 * i) 1 (0 + 1) = 1 := by
      unfold reach bytesPerBlock
      omega
    rw [hreach, hstart, if_pos (by decide), hnext] at hstep
    rw [hstep, if_neg hzero]
    rfl

end Image

/-- **Reads do not depend on the placement of the blocks** just if number 0 is given to the same block of the same
file on both images, or to none.  A block with number 0 is taken for the end of its file. -/
theorem read_data_placement_iff {a b : Image} (h : a.SameContents b) :
    (∀ inode offset length : ℕ, inode < 2 ^ 32 → offset < 2 ^ 32 → length < 2 ^ 32 → ∀ buf,
      a.readData inode offset buf length = b.readData inode offset buf length) ↔
      ∀ inode < a.inodeCnt, a.SameHoles b inode := by
  constructor
  · intro hsame inode hinode i hi
    have hlen := h.length inode hinode
    have ha := Image.readData_first_byte hinode hi fun _ => 0
    have hb : (b.readData inode (4096 * i) (fun _ => 0) 1).1 = if b.dataBlock inode i = 0 then 0 else 1 :=
      Image.readData_first_byte (h.inodeCnt ▸ hinode) (hlen ▸ hi) _
    rw [hsame inode (4096 * i) 1 (Nat.lt_trans hinode (a.word_lt _)) (Nat.lt_trans hi (a.word_lt _)) (by decide),
      hb] at ha
    constructor
    · intro hzero
      by_contra hne
      rw [if_pos hzero, if_neg hne] at ha
      exact absurd ha (by decide)
    · intro hzero
      by_contra hne
      rw [if_neg hne, if_pos hzero] at ha
      exact absurd ha (by decide)
  · intro hholes inode offset length _ _ _ buf
    by_cases hinode : a.inodeCnt ≤ inode
    · rw [Image.readData_refused (Or.inl hinode), Image.readData_refused (Or.inl (h.inodeCnt ▸ hinode))]
    · have hin : inode < a.inodeCnt := Nat.not_le.mp hinode
      have hlen := h.length inode hin
      have hclamp : a.clampLength inode offset length = b.clampLength inode offset length := by
        rw [Image.clampLength, Image.clampLength, hlen]
      rw [Image.readData, Image.readData, ← h.inodeCnt, ← hlen, ← hclamp]
      by_cases hoff : a.inodeLength inode < offset
      · rw [if_pos hoff, if_pos hoff]
      · have hmax : offset + a.clampLength inode offset length ≤ a.inodeLength inode := by
          rw [Image.clampLength_eq_min]
          omega
        have hblocks := Image.readBlocks_congr hlen hmax (h.contents inode hin) (hholes inode hin)
          (a.clampLength inode offset length / bytesPerBlock + 1) 0 buf
        have hzero : Image.reach offset (a.clampLength inode offset length) 0 = 0 := by
          unfold Image.reach bytesPerBlock
          omega
        rw [hzero] at hblocks
        simp only [hblocks]

/-- An image with one file of four bytes in the given data block, of three. -/
def oneBlockImage (block : UInt8) : Image where
  mem := placed 4 [1] <| placed 8 [3] <| placed 64 (ascii "f".toList) <| placed 96 [2] <|
    placed 4096 [4, 0, 0, 0, block] <| placed (4096 * (2 + block.toNat)) [1, 2, 3, 4] fun _ => 0

theorem oneBlockImage_same {block block' : UInt8} (h : block < 3) (h' : block' < 3) :
    (oneBlockImage block).SameContents (oneBlockImage block') := by
  have hall : ∀ x y : Fin 3, ((oneBlockImage (UInt8.ofNat x)).inodeCnt = 1 ∧
      (oneBlockImage (UInt8.ofNat x)).inodeLength 0 = 4 ∧
      ∀ pos < 4, (oneBlockImage (UInt8.ofNat x)).fileByte 0 pos = (oneBlockImage (UInt8.ofNat y)).fileByte 0 pos) := by
    decide +kernel
  obtain ⟨x, rfl⟩ : ∃ x : Fin 3, block = UInt8.ofNat x := ⟨⟨block.toNat, h⟩, by simp⟩
  obtain ⟨y, rfl⟩ : ∃ y : Fin 3, block' = UInt8.ofNat y := ⟨⟨block'.toNat, h'⟩, by simp⟩
  obtain ⟨hx, hlx, hbytes⟩ := hall x y
  obtain ⟨hy, hly, -⟩ := hall y x
  refine ⟨hx.trans hy.symm, fun inode hinode => ?_, fun inode hinode pos hpos => ?_⟩
  · obtain rfl : inode = 0 := by omega
    exact hlx.trans hly.symm
  · obtain rfl : inode = 0 := by omega
    exact hbytes pos (by omega)

/-- The file reads the same from block 1 and from block 2. -/
theorem read_data_placement_moved : (oneBlockImage 1).SameContents (oneBlockImage 2) ∧
    (oneBlockImage 1).dataBlock 0 0 ≠ (oneBlockImage 2).dataBlock 0 0 ∧
    ∀ inode offset length : ℕ, inode < 2 ^ 32 → offset < 2 ^ 32 → length < 2 ^ 32 → ∀ buf,
      (oneBlockImage 1).readData inode offset buf length = (oneBlockImage 2).readData inode offset buf length := by
  have hsame := oneBlockImage_same (show (1 : UInt8) < 3 by decide) (show (2 : UInt8) < 3 by decide)
  refine ⟨hsame, by decide +kernel, (read_data_placement_iff hsame).mpr fun inode hinode i hi => ?_⟩
  have hcnt : (oneBlockImage 1).inodeCnt = 1 := by decide +kernel
  have hlen : (oneBlockImage 1).inodeLength 0 = 4 := by decide +kernel
  obtain rfl : inode = 0 := by omega
  obtain rfl : i = 0 := by omega
  exact iff_of_false (by decide +kernel) (by decide +kernel)

/-- **A file in block 0 reads as empty.** -/
theorem read_data_placement_zero : (oneBlockImage 0).SameContents (oneBlockImage 1) ∧
    (oneBlockImage 0).dataBlock 0 0 < (oneBlockImage 0).dataBlockCnt ∧
    (oneBlockImage 1).dataBlock 0 0 < (oneBlockImage 1).dataBlockCnt ∧
    (oneBlockImage 0).dataBlock 0 0 = 0 ∧
    ((oneBlockImage 0).readData 0 0 (fun _ => 0) 4).1 = 0 ∧
    ((oneBlockImage 1).readData 0 0 (fun _ => 0) 4).1 = 4 := by
  refine ⟨oneBlockImage_same (by decide) (by decide), ?_⟩
  decide +kernel

end ClosKernel
